import Sharding.Submission

/-! # Whether both sides count the same

`Submission` keeps what the receiver took of every batch and what its thread
counted for it. `SubmissionInv` says how the sockets hang together with that
history: a request that was not taken is the current one or was given up, and a
batch that was taken has its reply on the socket of its thread until the thread is
done with it. From it follows, for each kind of step, exactly when the step keeps
the counts together, and `counts_agree_iff` says the same of runs.
-/

namespace Sharding

/-! ## The invariant -/

/-- What ties thread `t` to the history. -/
structure ThreadInv (t : Nat) (th : GenThread) (served : List Served) (outcomes : List Outcome) :
    Prop where
  servedBegun : ∀ v ∈ served, v.id.thread = t → v.id.index < th.begun
  outcomeBegun : ∀ o ∈ outcomes, o.id.thread = t → o.id.index < th.begun
  /-- A request the receiver has not taken is waited for, or given up. -/
  awaiting : ∀ req, th.sock = .awaiting req →
    req.id.thread = t ∧ req.id.index < th.begun ∧ (∀ v ∈ served, v.id ≠ req.id) ∧
      (th.current = some req ∨ ∃ o ∈ outcomes, o.id = req.id)
  replied : ∀ id resp, th.sock = .replied id resp → ∃ v ∈ served, v.id = id ∧ v.reply.text = resp
  /-- If the receiver has taken the batch, its reply is the outstanding one. -/
  current : ∀ req, th.current = some req →
    req.id.thread = t ∧ req.id.index + 1 = th.begun ∧ (∀ o ∈ outcomes, o.id ≠ req.id) ∧
      ∀ v ∈ served, v.id = req.id → ∃ resp, th.sock = .replied req.id resp

/-- What is in a history was there before, or is what was added last. -/
theorem mem_snoc {α : Type} {xs : List α} {x y : α} (h : y ∈ xs ++ [x]) : y ∈ xs ∨ y = x := by
  rcases List.mem_append.mp h with hold | hlast
  · exact Or.inl hold
  · exact Or.inr (List.mem_singleton.mp hlast)

/-- A batch of another thread is taken. -/
theorem ThreadInv.served_other {t : Nat} {th : GenThread} {served : List Served}
    {outcomes : List Outcome} (h : ThreadInv t th served outcomes) {v : Served}
    (hv : v.id.thread ≠ t) : ThreadInv t th (served ++ [v]) outcomes := by
  constructor
  · intro w hw hthread
    rcases mem_snoc hw with hold | rfl
    · exact h.servedBegun w hold hthread
    · exact absurd hthread hv
  · exact h.outcomeBegun
  · intro req hsock
    rcases h.awaiting req hsock with ⟨hthread, hlt, hnot, hcases⟩
    refine ⟨hthread, hlt, ?_, hcases⟩
    intro w hw heq
    rcases mem_snoc hw with hold | rfl
    · exact hnot w hold heq
    · exact hv (by rw [heq, hthread])
  · intro id resp hsock
    rcases h.replied id resp hsock with ⟨w, hw, hid, htext⟩
    exact ⟨w, List.mem_append_left _ hw, hid, htext⟩
  · intro req hcurrent
    rcases h.current req hcurrent with ⟨hthread, hlast, hnot, hreply⟩
    refine ⟨hthread, hlast, hnot, ?_⟩
    intro w hw heq
    rcases mem_snoc hw with hold | rfl
    · exact hreply w hold heq
    · exact absurd (by rw [heq, hthread]) hv

/-- A batch of another thread is finished. -/
theorem ThreadInv.outcome_other {t : Nat} {th : GenThread} {served : List Served}
    {outcomes : List Outcome} (h : ThreadInv t th served outcomes) {o : Outcome}
    (ho : o.id.thread ≠ t) : ThreadInv t th served (outcomes ++ [o]) := by
  constructor
  · exact h.servedBegun
  · intro w hw hthread
    rcases mem_snoc hw with hold | rfl
    · exact h.outcomeBegun w hold hthread
    · exact absurd hthread ho
  · intro req hsock
    rcases h.awaiting req hsock with ⟨hthread, hlt, hnot, hcases⟩
    refine ⟨hthread, hlt, hnot, ?_⟩
    rcases hcases with hcurrent | ⟨w, hw, heq⟩
    · exact Or.inl hcurrent
    · exact Or.inr ⟨w, List.mem_append_left _ hw, heq⟩
  · exact h.replied
  · intro req hcurrent
    rcases h.current req hcurrent with ⟨hthread, hlast, hnot, hreply⟩
    refine ⟨hthread, hlast, ?_, hreply⟩
    intro w hw heq
    rcases mem_snoc hw with hold | rfl
    · exact hnot w hold heq
    · exact ho (by rw [heq, hthread])

/-- Nothing in the history is about the next batch. -/
theorem ThreadInv.fresh {t : Nat} {th : GenThread} {served : List Served} {outcomes : List Outcome}
    (h : ThreadInv t th served outcomes) :
    (∀ v ∈ served, v.id ≠ ⟨t, th.begun⟩) ∧ ∀ o ∈ outcomes, o.id ≠ ⟨t, th.begun⟩ := by
  constructor
  · intro v hv heq
    have hlt := h.servedBegun v hv (by rw [heq])
    rw [heq] at hlt
    exact Nat.lt_irrefl _ hlt
  · intro o ho heq
    have hlt := h.outcomeBegun o ho (by rw [heq])
    rw [heq] at hlt
    exact Nat.lt_irrefl _ hlt

structure SubmissionInv (cfg : Config) (crypto : Crypto) (s : Submission) : Prop where
  receiver : ReceiverShape cfg s.receiver
  threads : ∀ t, ThreadInv t (s.threads t) s.served s.outcomes
  served : ∀ v ∈ s.served, ServedOk cfg crypto v
  once : (s.served.map Served.id).Nodup

theorem start_inv {cfg : Config} (crypto : Crypto) {r : Receiver} (hshape : ReceiverShape cfg r) :
    SubmissionInv cfg crypto (Submission.start r) := by
  refine ⟨hshape, ?_, ?_, List.nodup_nil⟩
  · intro t
    constructor
    · intro v hv
      cases hv
    · intro o ho
      cases ho
    · intro req hsock
      cases hsock
    · intro id resp hsock
      cases hsock
    · intro req hcurrent
      cases hcurrent
  · intro v hv
    cases hv

theorem start_agree (r : Receiver) : CountsAgree (Submission.start r) := by
  constructor
  · intro o ho
    cases ho
  · intro v hv
    cases hv

/-- One thread changes. -/
theorem threads_update {threads : Nat → GenThread} {served : List Served}
    {outcomes : List Outcome} {t : Nat} {th : GenThread} (hone : ThreadInv t th served outcomes)
    (hothers : ∀ u, u ≠ t → ThreadInv u (threads u) served outcomes) :
    ∀ u, ThreadInv u (Function.update threads t th u) served outcomes := by
  intro u
  by_cases hu : u = t
  · subst hu
    rw [Function.update_self]
    exact hone
  · rw [Function.update_of_ne hu]
    exact hothers u hu

/-! ## Step lemmas -/

theorem ReqSocket.send_awaiting {req r : Request} {sock : ReqSocket}
    (h : sock.send req = .awaiting r) : req = r ∨ sock = .awaiting r := by
  cases sock with
  | ready => exact Or.inl (ReqSocket.awaiting.inj h)
  | awaiting old => exact Or.inr h
  | replied id resp => cases h

theorem ReqSocket.send_replied {req : Request} {sock : ReqSocket} {id : BatchId}
    {resp : List Char} (h : sock.send req = .replied id resp) : sock = .replied id resp := by
  cases sock with
  | ready => cases h
  | awaiting old => cases h
  | replied id' resp' => exact h

theorem send_inv {cfg : Config} {crypto : Crypto} {s : Submission}
    (hinv : SubmissionInv cfg crypto s) (t : Nat) (batch : TxBatch) :
    SubmissionInv cfg crypto (s.sendBatch t batch) := by
  have hthread := hinv.threads t
  unfold Submission.sendBatch
  cases hcurrent : (s.threads t).current with
  | some req => simpa only [hcurrent] using hinv
  | none =>
      simp only [hcurrent]
      refine ⟨hinv.receiver, ?_, hinv.served, hinv.once⟩
      apply threads_update
      · constructor
        · intro v hv hv'
          exact Nat.lt_succ_of_lt (hthread.servedBegun v hv hv')
        · intro o ho ho'
          exact Nat.lt_succ_of_lt (hthread.outcomeBegun o ho ho')
        · -- the new request, or one the thread has given up
          intro req hsock
          rcases ReqSocket.send_awaiting hsock with rfl | hold
          · exact ⟨rfl, Nat.lt_succ_self _, hthread.fresh.1, Or.inl rfl⟩
          · rcases hthread.awaiting req hold with ⟨hown, hlt, hnot, hcases⟩
            refine ⟨hown, Nat.lt_succ_of_lt hlt, hnot, Or.inr ?_⟩
            rcases hcases with hsame | hgone
            · rw [hcurrent] at hsame
              cases hsame
            · exact hgone
        · intro id resp hsock
          exact hthread.replied id resp (ReqSocket.send_replied hsock)
        · -- the batch is new: nothing in the history is about it
          intro req hreq
          obtain rfl : _ = req := Option.some.inj hreq
          refine ⟨rfl, rfl, hthread.fresh.2, ?_⟩
          intro v hv heq
          exact absurd heq (hthread.fresh.1 v hv)
      · intro u _
        exact hinv.threads u

/-- A send is not part of the history. -/
theorem send_history (s : Submission) (t : Nat) (batch : TxBatch) :
    (s.sendBatch t batch).served = s.served ∧ (s.sendBatch t batch).outcomes = s.outcomes := by
  unfold Submission.sendBatch
  constructor
  · dsimp only
    split <;> rfl
  · dsimp only
    split <;> rfl

theorem finish_inv {cfg : Config} {crypto : Crypto} {s : Submission}
    (hinv : SubmissionInv cfg crypto s) {t : Nat} {req : Request}
    (hcurrent : (s.threads t).current = some req) {sock : ReqSocket}
    (hsock : sock = .ready ∨ sock = (s.threads t).sock) (added : Nat) :
    SubmissionInv cfg crypto (s.finish t req sock added) := by
  have hthread := hinv.threads t
  rcases hthread.current req hcurrent with ⟨hown, hlast, -, -⟩
  refine ⟨hinv.receiver, ?_, hinv.served, hinv.once⟩
  apply threads_update
  · constructor
    · exact hthread.servedBegun
    · intro o ho hthis
      rcases List.mem_append.mp ho with hold | hnew
      · exact hthread.outcomeBegun o hold hthis
      · rw [List.mem_singleton.mp hnew]
        show req.id.index < (s.threads t).begun
        omega
    · -- an outstanding request is given up now, if it was not before
      intro r hr
      rcases hsock with rfl | rfl
      · cases hr
      · rcases hthread.awaiting r hr with ⟨hown', hlt, hnot, hcases⟩
        refine ⟨hown', hlt, hnot, Or.inr ?_⟩
        rcases hcases with hsame | ⟨o, ho, heq⟩
        · obtain rfl : req = r := Option.some.inj (hcurrent.symm.trans hsame)
          exact ⟨⟨req.id, added⟩, List.mem_concat_self, rfl⟩
        · exact ⟨o, List.mem_append_left _ ho, heq⟩
    · intro id resp hr
      rcases hsock with rfl | rfl
      · cases hr
      · exact hthread.replied id resp hr
    · intro r hr
      cases hr
  · intro u hu
    have hother : req.id.thread ≠ u := by
      rw [hown]
      exact fun h => hu h.symm
    exact (hinv.threads u).outcome_other hother

/-- A batch that was awaited is taken. -/
theorem serve_inv {cfg : Config} {crypto : Crypto} {s : Submission}
    (hinv : SubmissionInv cfg crypto s) {t : Nat} {req : Request}
    (hawait : (s.threads t).sock = .awaiting req) {receiver : Receiver}
    (hshape : ReceiverShape cfg receiver) {v : Served} (hid : v.id = req.id)
    (hv : ServedOk cfg crypto v) :
    SubmissionInv cfg crypto
      { s.setThread t { s.threads t with sock := .replied req.id v.reply.text } with
        receiver := receiver
        served := s.served ++ [v] } := by
  have hthread := hinv.threads t
  rcases hthread.awaiting req hawait with ⟨hown, hlt, hnot, -⟩
  have hlast : v ∈ s.served ++ [v] := List.mem_concat_self
  refine ⟨hshape, ?_, ?_, ?_⟩
  · -- the thread that is served has its reply waiting; the others see one more serving
    apply threads_update
    · constructor
      · intro w hw hthis
        rcases mem_snoc hw with hold | rfl
        · exact hthread.servedBegun w hold hthis
        · rw [hid]
          exact hlt
      · exact hthread.outcomeBegun
      · intro r hr
        cases hr
      · intro id resp hr
        rcases ReqSocket.replied.inj hr with ⟨rfl, rfl⟩
        exact ⟨v, hlast, hid, rfl⟩
      · intro r hr
        rcases hthread.current r hr with ⟨hown', hend, hnone, hreply⟩
        refine ⟨hown', hend, hnone, ?_⟩
        intro w hw heq
        rcases mem_snoc hw with hold | rfl
        · rcases hreply w hold heq with ⟨resp, hreplied⟩
          rw [hawait] at hreplied
          cases hreplied
        · refine ⟨w.reply.text, ?_⟩
          rw [← heq, hid]
    · intro u hu
      have hother : v.id.thread ≠ u := by
        rw [hid, hown]
        exact fun h => hu h.symm
      exact (hinv.threads u).served_other hother
  · intro w hw
    rcases mem_snoc hw with hold | rfl
    · exact hinv.served w hold
    · exact hv
  · -- a request that waits has not been served before
    show ((s.served ++ [v]).map Served.id).Nodup
    rw [List.map_append, List.nodup_append']
    refine ⟨hinv.once, List.nodup_singleton _, ?_⟩
    intro id hmemold hmemnew
    rcases List.mem_map.mp hmemold with ⟨w, hw, rfl⟩
    have heq : w.id = v.id := List.mem_singleton.mp hmemnew
    exact hnot w hw (heq.trans hid)

/-! ## What was counted -/

theorem admittedOf_append (served : List Served) (v : Served) (id : BatchId) :
    admittedOf (served ++ [v]) id =
      admittedOf served id + if v.id = id then v.admitted else 0 := by
  simp [admittedOf]

theorem admittedOf_eq_zero {served : List Served} {id : BatchId} :
    admittedOf served id = 0 ↔ ∀ v ∈ served, v.id = id → v.admitted = 0 := by
  induction served with
  | nil => simp [admittedOf]
  | cons v served ih =>
      have hcons : admittedOf (v :: served) id =
          (if v.id = id then v.admitted else 0) + admittedOf served id := by
        simp [admittedOf]
      rw [hcons, Nat.add_eq_zero_iff, ih, List.forall_mem_cons]
      by_cases hv : v.id = id
      · simp [hv]
      · simp [hv]

/-- A batch that was taken once counts what was taken of it. -/
theorem admittedOf_mem {served : List Served} (honce : (served.map Served.id).Nodup) {v : Served}
    (hv : v ∈ served) : admittedOf served v.id = v.admitted := by
  induction served with
  | nil => cases hv
  | cons w served ih =>
      have hcons : admittedOf (w :: served) v.id =
          (if w.id = v.id then w.admitted else 0) + admittedOf served v.id := by
        simp [admittedOf]
      rcases List.nodup_cons.mp honce with ⟨hnew, hrest⟩
      rw [hcons]
      rcases List.mem_cons.mp hv with rfl | hmem
      · -- no later record is about the same batch
        have hzero : admittedOf served v.id = 0 := by
          rw [admittedOf_eq_zero]
          intro u hu heq
          exact absurd (heq ▸ List.mem_map_of_mem hu) hnew
        rw [if_pos rfl, hzero, Nat.add_zero]
      · have hne : w.id ≠ v.id := by
          intro heq
          exact hnew (heq ▸ List.mem_map_of_mem hmem)
        rw [if_neg hne, ih hrest hmem, Nat.zero_add]

/-- The counters of a reply cover the batch exactly if there was room for it. -/
theorem covered_iff {cfg : Config} {crypto : Crypto} {v : Served} (hv : ServedOk cfg crypto v) :
    (∀ b tally, v.incoming = .batch (some b) → v.reply = .ok tally →
        tally.accepted + tally.rejected = b.transactions.length) ↔
      passing cfg crypto v.incoming ≤ v.room := by
  rcases hv.batch with ⟨batch, hbatch⟩
  rcases hv.reply with ⟨tally, hreply, haccepted, hrejected⟩
  have hadmitted := hv.admitted
  cases batch with
  | none =>
      -- nothing was unpacked, so nothing passes
      have hzero : passing cfg crypto v.incoming = 0 := by
        rw [hbatch]
        rfl
      constructor
      · intro _
        omega
      · intro _ b _ hsome
        rw [hbatch] at hsome
        cases hsome
  | some b =>
      have hlength : v.incoming.txs.length = b.transactions.length := by
        rw [hbatch]
        rfl
      constructor
      · intro hcover
        have hsum := hcover b tally hbatch hreply
        omega
      · intro hroom b' tally' hb' htally'
        obtain rfl : b = b' := by
          rw [hbatch] at hb'
          simpa using hb'
        obtain rfl : tally = tally' := by
          rw [hreply] at htally'
          simpa using htally'
        omega

/-- While the replies cover their batches, everything that passes is taken. -/
theorem admitted_eq {cfg : Config} {crypto : Crypto} {s : Submission} (hagree : CountsAgree s)
    {v : Served} (hmem : v ∈ s.served) (hv : ServedOk cfg crypto v) :
    v.admitted = passing cfg crypto v.incoming := by
  have hroom := (covered_iff hv).mp (hagree.replies v hmem)
  rw [hv.admitted, Nat.min_eq_left hroom]

/-- Finishing a batch keeps the counts together if what is added was taken. -/
theorem finish_agree {s : Submission} (hagree : CountsAgree s) (t : Nat) (req : Request)
    (sock : ReqSocket) (added : Nat) :
    CountsAgree (s.finish t req sock added) ↔ added = admittedOf s.served req.id := by
  constructor
  · intro h
    exact h.submitted ⟨req.id, added⟩ (List.mem_concat_self)
  · intro hadded
    refine ⟨?_, hagree.replies⟩
    intro o ho
    rcases List.mem_append.mp ho with hold | hnew
    · exact hagree.submitted o hold
    · rw [List.mem_singleton.mp hnew]
      exact hadded

/-- Taking a batch keeps the counts together if there is room for all of it that
passes, and nothing passes once its thread has given up. -/
theorem serve_agree {cfg : Config} {crypto : Crypto} {s s' : Submission}
    (hinv : SubmissionInv cfg crypto s) (hagree : CountsAgree s) {t : Nat} {req : Request}
    (hawait : (s.threads t).sock = .awaiting req) {v : Served} (hid : v.id = req.id)
    (hv : ServedOk cfg crypto v) (hserved : s'.served = s.served ++ [v])
    (houtcomes : s'.outcomes = s.outcomes) :
    CountsAgree s' ↔ passing cfg crypto v.incoming ≤ v.room ∧
      ((s.threads t).current = some req ∨ passing cfg crypto v.incoming = 0) := by
  rcases (hinv.threads t).awaiting req hawait with ⟨-, -, hnot, hcases⟩
  have hadmitted := hv.admitted
  have hlast : v ∈ s'.served := by
    rw [hserved]
    exact List.mem_concat_self
  -- so far nothing was taken of this batch
  have hzero : admittedOf s.served req.id = 0 :=
    admittedOf_eq_zero.mpr fun w hw heq => absurd heq (hnot w hw)
  constructor
  · intro h
    have hroom := (covered_iff hv).mp (h.replies v hlast)
    refine ⟨hroom, ?_⟩
    rcases hcases with hcurrent | ⟨o, ho, heq⟩
    · exact Or.inl hcurrent
    · right
      have hbefore := hagree.submitted o ho
      have hafter := h.submitted o (by rw [houtcomes]; exact ho)
      rw [heq] at hbefore hafter
      rw [hserved, admittedOf_append, if_pos hid] at hafter
      omega
  · rintro ⟨hroom, hgone⟩
    constructor
    · intro o ho
      rw [houtcomes] at ho
      rw [hserved, admittedOf_append, hagree.submitted o ho]
      by_cases hsame : v.id = o.id
      · rcases hgone with hcurrent | hnone
        · -- the thread still waits: there is no such outcome
          have hfresh := ((hinv.threads t).current req hcurrent).2.2.1 o ho
          exact absurd (hsame.symm.trans hid) hfresh
        · rw [if_pos hsame]
          omega
      · rw [if_neg hsame, Nat.add_zero]
    · intro w hw
      rw [hserved] at hw
      rcases List.mem_append.mp hw with hold | hnew
      · exact hagree.replies w hold
      · rw [List.mem_singleton.mp hnew]
        exact (covered_iff hv).mpr hroom

/-! ## One step -/

theorem repliedOk_ok (tally : Tally) : repliedOk (Reply.ok tally).text = true := rfl

/-- Receiving a reply keeps the counts together if it is to the current batch, all
of which passed. -/
theorem reply_agree {cfg : Config} {crypto : Crypto} {s : Submission}
    (hinv : SubmissionInv cfg crypto s) (hagree : CountsAgree s) {t : Nat} {req : Request}
    {id : BatchId} {resp : List Char} (hcurrent : (s.threads t).current = some req)
    (hsock : (s.threads t).sock = .replied id resp) :
    CountsAgree (s.recvReply t) ↔ id = req.id ∧ ∀ v ∈ s.served, v.id = id →
      passing cfg crypto v.incoming = req.batch.rawTxs.length := by
  have hthread := hinv.threads t
  have hpos := req.batch.nonempty
  rcases hthread.replied id resp hsock with ⟨v, hv, hid, htext⟩
  have hvok := hinv.served v hv
  -- every reply to a batch begins with OK
  have hok : repliedOk resp = true := by
    rcases hvok.reply with ⟨tally, hreply, -, -⟩
    rw [← htext, hreply]
    exact repliedOk_ok tally
  have hstep : s.recvReply t = s.finish t req .ready req.batch.rawTxs.length := by
    unfold Submission.recvReply
    simp only [hcurrent, hsock, hok, if_true]
  rw [hstep, finish_agree hagree]
  by_cases hsame : id = req.id
  · have hcount : admittedOf s.served req.id = passing cfg crypto v.incoming := by
      rw [← hsame, ← hid, admittedOf_mem hinv.once hv, admitted_eq hagree hv hvok]
    rw [hcount]
    constructor
    · intro hlength
      refine ⟨hsame, ?_⟩
      intro w hw heq
      have hw' := admittedOf_mem hinv.once hw
      rw [heq, hsame, hcount, admitted_eq hagree hw (hinv.served w hw)] at hw'
      omega
    · rintro ⟨-, hall⟩
      exact (hall v hv hid).symm
  · -- the current batch never left: the receiver has nothing of it
    have hzero : admittedOf s.served req.id = 0 := by
      rw [admittedOf_eq_zero]
      intro w hw heq
      rcases (hthread.current req hcurrent).2.2.2 w hw heq with ⟨resp', hsock'⟩
      rw [hsock] at hsock'
      exact absurd (ReqSocket.replied.inj hsock').1 hsame
    rw [hzero]
    constructor
    · intro hlength
      omega
    · rintro ⟨heq, -⟩
      exact absurd heq hsame

/-- Giving up keeps the counts together if nothing of the batch was taken. -/
theorem timeout_agree {cfg : Config} {crypto : Crypto} {s : Submission}
    (hinv : SubmissionInv cfg crypto s) (hagree : CountsAgree s) {t : Nat} {req : Request}
    (hcurrent : (s.threads t).current = some req) :
    CountsAgree (s.recvTimeout t) ↔
      ∀ v ∈ s.served, v.id = req.id → passing cfg crypto v.incoming = 0 := by
  have hstep : s.recvTimeout t = s.finish t req (s.threads t).sock 0 := by
    unfold Submission.recvTimeout
    simp only [hcurrent]
  rw [hstep, finish_agree hagree, eq_comm, admittedOf_eq_zero]
  constructor
  · intro hnone v hv heq
    rw [← admitted_eq hagree hv (hinv.served v hv)]
    exact hnone v hv heq
  · intro hnone v hv heq
    rw [admitted_eq hagree hv (hinv.served v hv)]
    exact hnone v hv heq

/-- The receiver takes a request as the message it sees. -/
theorem serve_eq (cfg : Config) (crypto : Crypto) {s : Submission} {t : Nat} {req : Request}
    (hawait : (s.threads t).sock = .awaiting req) (unpacks : Bool)
    (roundStartMs durationMs : UInt64) :
    s.serve cfg crypto t unpacks roundStartMs durationMs = (do
      let (receiver, reply) ←
        receive cfg crypto s.receiver ⟨req.incoming unpacks, roundStartMs, durationMs⟩
      .ok { s.setThread t { s.threads t with sock := .replied req.id reply.text } with
        receiver := receiver
        served := s.served ++ [s.record req (req.incoming unpacks) receiver reply] }) := by
  have hparse := parseMessage_batchMessage req.batch.publicKey req.batch.nonempty req.batch.length_le
  unfold Submission.serve
  simp only [hawait, hparse, Run.ok_bind]
  rfl

/-- If the receiver survives the request, the step is taken, and keeps the counts
together exactly under the condition of `Paired`. -/
theorem serve_ok {cfg : Config} {crypto : Crypto} {s : Submission}
    (hinv : SubmissionInv cfg crypto s) (hagree : CountsAgree s) {t : Nat} {req : Request}
    (hawait : (s.threads t).sock = .awaiting req) (unpacks : Bool)
    (roundStartMs durationMs : UInt64)
    (hsurvives : Survives cfg crypto s.receiver
      ⟨req.incoming unpacks, roundStartMs, durationMs⟩) :
    ∃ s', s.serve cfg crypto t unpacks roundStartMs durationMs = .ok s' ∧
      SubmissionInv cfg crypto s' ∧
      (CountsAgree s' ↔ passing cfg crypto (req.incoming unpacks) ≤ room s.receiver ∧
        ((s.threads t).current = some req ∨ passing cfg crypto (req.incoming unpacks) = 0)) := by
  rcases receive_survives hinv.receiver hsurvives with ⟨receiver, reply, hok, hshape⟩
  have hv : ServedOk cfg crypto (s.record req (req.incoming unpacks) receiver reply) :=
    receive_served rfl hok req.id
  refine ⟨_, ?_, serve_inv hinv hawait hshape rfl hv, ?_⟩
  · rw [serve_eq cfg crypto hawait, hok]
    rfl
  · exact serve_agree hinv hagree hawait rfl hv rfl rfl

theorem survives_of_serve {cfg : Config} {crypto : Crypto} {s s' : Submission}
    (hinv : SubmissionInv cfg crypto s) {t : Nat} {req : Request}
    (hawait : (s.threads t).sock = .awaiting req) {unpacks : Bool}
    {roundStartMs durationMs : UInt64}
    (hok : s.serve cfg crypto t unpacks roundStartMs durationMs = .ok s') :
    Survives cfg crypto s.receiver ⟨req.incoming unpacks, roundStartMs, durationMs⟩ := by
  rw [serve_eq cfg crypto hawait] at hok
  rcases Run.bind_eq_ok hok with ⟨res, hreceive, -⟩
  exact survives_of_receive hinv.receiver hreceive

/-- A thread without a batch, or without a reply, receives nothing. -/
theorem recvReply_idle {s : Submission} {t : Nat}
    (hidle : ∀ req id resp, (s.threads t).current = some req →
      (s.threads t).sock ≠ .replied id resp) : s.recvReply t = s := by
  unfold Submission.recvReply
  cases hcurrent : (s.threads t).current with
  | none => rfl
  | some req =>
      cases hsock : (s.threads t).sock with
      | replied id resp => exact absurd hsock (hidle req id resp hcurrent)
      | ready => rfl
      | awaiting old => rfl

theorem serve_idle (cfg : Config) (crypto : Crypto) {s : Submission} {t : Nat}
    (hidle : ∀ req, (s.threads t).sock ≠ .awaiting req) (unpacks : Bool)
    (roundStartMs durationMs : UInt64) :
    s.serve cfg crypto t unpacks roundStartMs durationMs = .ok s := by
  unfold Submission.serve
  cases hsock : (s.threads t).sock with
  | awaiting req => exact absurd hsock (hidle req)
  | ready => rfl
  | replied id resp => rfl

/-- Under the condition a step is taken and keeps the counts together. -/
theorem step_meets {cfg : Config} {crypto : Crypto} {s : Submission} {label : Submission.Label}
    (hinv : SubmissionInv cfg crypto s) (hagree : CountsAgree s)
    (hpaired : Paired cfg crypto s label) :
    ∃ s', s.step cfg crypto label = .ok s' ∧ SubmissionInv cfg crypto s' ∧ CountsAgree s' := by
  cases label with
  | send t batch =>
      rcases send_history s t batch with ⟨hserved, houtcomes⟩
      refine ⟨_, rfl, send_inv hinv t batch, ?_, ?_⟩
      · rw [hserved, houtcomes]
        exact hagree.submitted
      · rw [hserved]
        exact hagree.replies
  | serve t unpacks roundStartMs durationMs =>
      by_cases hawait : ∃ req, (s.threads t).sock = .awaiting req
      · rcases hawait with ⟨req, hsock⟩
        rcases hpaired req hsock with ⟨hroom, hgone, hsurvives⟩
        rcases serve_ok hinv hagree hsock unpacks roundStartMs durationMs hsurvives with
          ⟨s', hok, hinv', hiff⟩
        exact ⟨s', hok, hinv', hiff.mpr ⟨hroom, hgone⟩⟩
      · have hidle : ∀ req, (s.threads t).sock ≠ .awaiting req := fun req h => hawait ⟨req, h⟩
        exact ⟨s, serve_idle cfg crypto hidle _ _ _, hinv, hagree⟩
  | reply t =>
      refine ⟨_, rfl, ?_⟩
      by_cases hready : ∃ req id resp,
          (s.threads t).current = some req ∧ (s.threads t).sock = .replied id resp
      · rcases hready with ⟨req, id, resp, hcurrent, hsock⟩
        refine ⟨?_, (reply_agree hinv hagree hcurrent hsock).mpr
          (hpaired req id resp hcurrent hsock)⟩
        unfold Submission.recvReply
        simp only [hcurrent, hsock]
        exact finish_inv hinv hcurrent (Or.inl rfl) _
      · rw [recvReply_idle fun req id resp h₁ h₂ => hready ⟨req, id, resp, h₁, h₂⟩]
        exact ⟨hinv, hagree⟩
  | timeout t =>
      refine ⟨_, rfl, ?_⟩
      cases hcurrent : (s.threads t).current with
      | none =>
          have hstay : s.recvTimeout t = s := by
            unfold Submission.recvTimeout
            simp only [hcurrent]
          rw [hstay]
          exact ⟨hinv, hagree⟩
      | some req =>
          refine ⟨?_, (timeout_agree hinv hagree hcurrent).mpr (hpaired req hcurrent)⟩
          unfold Submission.recvTimeout
          simp only [hcurrent]
          exact finish_inv hinv hcurrent (Or.inr rfl) _
  | other a =>
      rcases receive_survives hinv.receiver hpaired with ⟨receiver, reply, hok, hshape⟩
      refine ⟨{ s with receiver := receiver }, ?_, ⟨hshape, hinv.threads, hinv.served, hinv.once⟩,
        hagree.submitted, hagree.replies⟩
      unfold Submission.step receiverStep
      simp only [hok, Run.ok_bind]

/-- Nothing less than the condition does. -/
theorem step_needs {cfg : Config} {crypto : Crypto} {s s' : Submission}
    {label : Submission.Label} (hinv : SubmissionInv cfg crypto s) (hagree : CountsAgree s)
    (hok : s.step cfg crypto label = .ok s') (hagree' : CountsAgree s') :
    Paired cfg crypto s label := by
  cases label with
  | send t batch => trivial
  | serve t unpacks roundStartMs durationMs =>
      intro req hsock
      have hsurvives := survives_of_serve hinv hsock hok
      rcases serve_ok hinv hagree hsock unpacks roundStartMs durationMs hsurvives with
        ⟨t', hok', -, hiff⟩
      obtain rfl : s' = t' := Except.ok.inj (hok.symm.trans hok')
      rcases hiff.mp hagree' with ⟨hroom, hgone⟩
      exact ⟨hroom, hgone, hsurvives⟩
  | reply t =>
      intro req id resp hcurrent hsock
      obtain rfl : s.recvReply t = s' := Except.ok.inj hok
      exact (reply_agree hinv hagree hcurrent hsock).mp hagree'
  | timeout t =>
      intro req hcurrent
      obtain rfl : s.recvTimeout t = s' := Except.ok.inj hok
      exact (timeout_agree hinv hagree hcurrent).mp hagree'
  | other a =>
      rcases Run.bind_eq_ok hok with ⟨receiver, hstep, -⟩
      rcases Run.bind_eq_ok hstep with ⟨res, hreceive, -⟩
      exact survives_of_receive hinv.receiver hreceive

/-- Threads and receiver agree on every batch, in all states of a run, if and only
if every step of the run meets its condition. -/
theorem counts_agree_iff (cfg : Config) (crypto : Crypto) (rand : Rand)
    (labels : List Submission.Label) :
    ∃ r, receiverInit cfg rand = .ok r ∧
      (Run.Always (Submission.step cfg crypto) CountsAgree (Submission.start r) labels ↔
        Run.EachStep (Submission.step cfg crypto) (Paired cfg crypto) (Submission.start r)
          labels) := by
  rcases receiverInit_shape cfg rand with ⟨r, hinit, -, hshape⟩
  refine ⟨r, hinit, ?_⟩
  apply Run.always_iff_eachStep (SubmissionInv cfg crypto) CountsAgree
  · intro s label hinv hagree hpaired
    exact step_meets hinv hagree hpaired
  · intro s label s' hinv hagree hok hagree'
    exact step_needs hinv hagree hok hagree'
  · exact start_inv crypto hshape
  · exact start_agree r

/-- A batch of one transaction. -/
def oneTx : TxBatch where
  rawTxs := [⟨0, 1000, zeros 20, zeros 20, 1, 1, zeros 64⟩]
  publicKey := zeros 32
  nonempty := by decide
  length_le := by decide

/-- The receiver takes the batch after its thread has given up. -/
def lateReply : List Submission.Label := [.send 0 oneTx, .timeout 0, .serve 0 true 0 0]

/-- The transaction gets into the pool and is counted by nobody. -/
theorem late_reply_uncounted :
    ¬ ∀ (cfg : Config) (crypto : Crypto) (rand : Rand) (labels : List Submission.Label),
      ∃ r, receiverInit cfg rand = .ok r ∧
        Run.Always (Submission.step cfg crypto) CountsAgree (Submission.start r) labels := by
  intro hclaim
  rcases hclaim defaultConfig Crypto.rejecting ⟨fun _ => 0, 0⟩ lateReply with
    ⟨r, hinit, -, s₁, hsend, -, s₂, htimeout, hagree₂, s₃, hserve, hagree₃⟩
  rcases receiverInit_shape defaultConfig ⟨fun _ => 0, 0⟩ with ⟨r', hinit', -, hshape⟩
  obtain rfl : r = r' := Except.ok.inj (hinit.symm.trans hinit')
  obtain rfl : (Submission.start r).sendBatch 0 oneTx = s₁ := Except.ok.inj hsend
  obtain rfl : ((Submission.start r).sendBatch 0 oneTx).recvTimeout 0 = s₂ :=
    Except.ok.inj htimeout
  have hinv₁ := send_inv (start_inv Crypto.rejecting hshape) 0 oneTx
  have hcurrent : (((Submission.start r).sendBatch 0 oneTx).threads 0).current =
      some ⟨⟨0, 0⟩, oneTx⟩ := rfl
  have hinv₂ : SubmissionInv defaultConfig Crypto.rejecting
      (((Submission.start r).sendBatch 0 oneTx).recvTimeout 0) :=
    finish_inv hinv₁ hcurrent (Or.inr rfl) 0
  have hpaired := step_needs hinv₂ hagree₂ hserve hagree₃
  rcases hpaired ⟨⟨0, 0⟩, oneTx⟩ rfl with ⟨-, hgone, -⟩
  rcases hgone with hcurrent | hnone
  · cases hcurrent
  · have hone : passing defaultConfig Crypto.rejecting
        ((⟨⟨0, 0⟩, oneTx⟩ : Request).incoming true) = 1 := rfl
    rw [hone] at hnone
    cases hnone

end Sharding
