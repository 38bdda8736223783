import Sharding.Pairing

/-! # Which batches are delivered

A thread gives up after 30 seconds, but its REQ socket does not: until the reply to the
outstanding request is received, every `zmq_send` on it fails, and the result of the
call is not looked at. A batch that is begun in the meantime is lost. `Stepped` lists
what a step can do to threads and history; `batches_delivered` says which batches are
served, and charges the lost ones to the timeouts.
-/

namespace Sharding

/-! ## Steps -/

section Delivery

variable {cfg : Config} {crypto : Crypto} {s s' : Submission} {t : Nat} {id : BatchId}

/-- The state after the receiver took the request of thread `t`. -/
def Submission.answered (s : Submission) (t : Nat) (req : Request) (incoming : Incoming)
    (receiver : Receiver) (reply : Reply) : Submission :=
  { s.setThread t { s.threads t with sock := .replied req.id reply.text } with
    receiver := receiver
    served := s.served ++ [s.record req incoming receiver reply] }

/-- All a step can do. -/
inductive Stepped (cfg : Config) (crypto : Crypto) (s : Submission) :
    Submission.Label → Submission → Prop where
  | send (t : Nat) (batch : TxBatch) (hcurrent : (s.threads t).current = none) :
      Stepped cfg crypto s (.send t batch) (s.setThread t { s.threads t with
        sock := (s.threads t).sock.send ⟨⟨t, (s.threads t).begun⟩, batch⟩
        begun := (s.threads t).begun + 1
        current := some ⟨⟨t, (s.threads t).begun⟩, batch⟩ })
  | serve (t : Nat) (unpacks : Bool) (roundStartMs durationMs : UInt64) (req : Request)
      (receiver : Receiver) (reply : Reply) (hsock : (s.threads t).sock = .awaiting req)
      (hreceive : receive cfg crypto s.receiver ⟨req.incoming unpacks, roundStartMs, durationMs⟩ =
        .ok (receiver, reply)) :
      Stepped cfg crypto s (.serve t unpacks roundStartMs durationMs)
        (s.answered t req (req.incoming unpacks) receiver reply)
  | reply (t : Nat) (req : Request) (old : BatchId) (resp : List Char)
      (hcurrent : (s.threads t).current = some req) (hsock : (s.threads t).sock = .replied old resp) :
      Stepped cfg crypto s (.reply t)
        (s.finish t req .ready (if repliedOk resp then req.batch.rawTxs.length else 0))
  | timeout (t : Nat) (req : Request) (hcurrent : (s.threads t).current = some req) :
      Stepped cfg crypto s (.timeout t) (s.finish t req (s.threads t).sock 0)
  | other (a : Arrival) (receiver : Receiver) (reply : Reply)
      (hreceive : receive cfg crypto s.receiver a = .ok (receiver, reply)) :
      Stepped cfg crypto s (.other a) { s with receiver := receiver }
  | idle (label : Submission.Label) : Stepped cfg crypto s label s

/-- With an assigner the receiver takes any message. -/
theorem receive_taken (hle : cfg.numShards ≤ maxShards) (hinv : SubmissionInv cfg crypto s)
    (a : Arrival) : ∃ receiver reply,
      receive cfg crypto s.receiver a = .ok (receiver, reply) ∧ ReceiverShape cfg receiver :=
  receive_survives hinv.receiver (Or.inl hle)

/-- A request that waits is taken. -/
theorem serve_taken (hle : cfg.numShards ≤ maxShards) (hinv : SubmissionInv cfg crypto s)
    {req : Request} (hsock : (s.threads t).sock = .awaiting req) (unpacks : Bool)
    (roundStartMs durationMs : UInt64) : ∃ receiver reply,
      receive cfg crypto s.receiver ⟨req.incoming unpacks, roundStartMs, durationMs⟩ =
        .ok (receiver, reply) ∧
      s.step cfg crypto (.serve t unpacks roundStartMs durationMs) =
        .ok (s.answered t req (req.incoming unpacks) receiver reply) ∧
      SubmissionInv cfg crypto (s.answered t req (req.incoming unpacks) receiver reply) := by
  rcases receive_taken hle hinv ⟨req.incoming unpacks, roundStartMs, durationMs⟩ with
    ⟨receiver, reply, hok, hshape⟩
  have hserved : ServedOk cfg crypto (s.record req (req.incoming unpacks) receiver reply) :=
    receive_served rfl hok req.id
  refine ⟨receiver, reply, hok, ?_, serve_inv hinv hsock hshape rfl hserved⟩
  rw [Submission.step, serve_eq cfg crypto hsock, hok]
  rfl

/-- With an assigner every step is taken. -/
theorem step_taken (hle : cfg.numShards ≤ maxShards) (hinv : SubmissionInv cfg crypto s)
    (label : Submission.Label) :
    ∃ s', s.step cfg crypto label = .ok s' ∧ SubmissionInv cfg crypto s' ∧
      Stepped cfg crypto s label s' := by
  cases label with
  | send t batch =>
      refine ⟨_, rfl, send_inv hinv t batch, ?_⟩
      unfold Submission.sendBatch
      cases hcurrent : (s.threads t).current with
      | some req =>
          simp only [hcurrent]
          exact .idle _
      | none =>
          simp only [hcurrent]
          exact .send t batch hcurrent
  | serve t unpacks roundStartMs durationMs =>
      by_cases hawait : ∃ req, (s.threads t).sock = .awaiting req
      · rcases hawait with ⟨req, hsock⟩
        rcases serve_taken hle hinv hsock unpacks roundStartMs durationMs with
          ⟨receiver, reply, hok, hstep, hinv'⟩
        exact ⟨_, hstep, hinv', .serve t unpacks roundStartMs durationMs req receiver reply hsock hok⟩
      · have hidle : ∀ req, (s.threads t).sock ≠ .awaiting req := fun req h => hawait ⟨req, h⟩
        exact ⟨s, serve_idle cfg crypto hidle _ _ _, hinv, .idle _⟩
  | reply t =>
      by_cases hready : ∃ req id resp,
          (s.threads t).current = some req ∧ (s.threads t).sock = .replied id resp
      · rcases hready with ⟨req, id, resp, hcurrent, hsock⟩
        have hstep : s.recvReply t =
            s.finish t req .ready (if repliedOk resp then req.batch.rawTxs.length else 0) := by
          unfold Submission.recvReply
          simp only [hcurrent, hsock]
        refine ⟨_, rfl, ?_⟩
        rw [hstep]
        exact ⟨finish_inv hinv hcurrent (Or.inl rfl) _, .reply t req id resp hcurrent hsock⟩
      · have hidle : s.recvReply t = s :=
          recvReply_idle fun req id resp h₁ h₂ => hready ⟨req, id, resp, h₁, h₂⟩
        refine ⟨s, ?_, hinv, .idle _⟩
        rw [Submission.step, hidle]
  | timeout t =>
      refine ⟨_, rfl, ?_⟩
      unfold Submission.recvTimeout
      cases hcurrent : (s.threads t).current with
      | none => exact ⟨hinv, .idle _⟩
      | some req => exact ⟨finish_inv hinv hcurrent (Or.inr rfl) 0, .timeout t req hcurrent⟩
  | other a =>
      rcases receive_taken hle hinv a with ⟨receiver, reply, hok, hshape⟩
      refine ⟨{ s with receiver := receiver }, ?_,
        ⟨hshape, hinv.threads, hinv.served, hinv.once⟩, .other a receiver reply hok⟩
      unfold Submission.step receiverStep
      simp only [hok, Run.ok_bind]

theorem stepped (hle : cfg.numShards ≤ maxShards) (hinv : SubmissionInv cfg crypto s)
    {label : Submission.Label} (hok : s.step cfg crypto label = .ok s') :
    SubmissionInv cfg crypto s' ∧ Stepped cfg crypto s label s' := by
  rcases step_taken hle hinv label with ⟨s'', hok', hinv', hstep⟩
  obtain rfl : s' = s'' := Except.ok.inj (hok.symm.trans hok')
  exact ⟨hinv', hstep⟩

/-! ## Lost batches -/

/-- Batch `id` was begun, but there is no request for it any more. -/
structure Lost (id : BatchId) (s : Submission) : Prop where
  begun : id.index < (s.threads id.thread).begun
  unserved : ∀ v ∈ s.served, v.id ≠ id
  unsent : ∀ req, (s.threads id.thread).sock = .awaiting req → req.id ≠ id

/-- One thread changes, and does not ask for the batch. -/
theorem Lost.update (h : Lost id s) {th : GenThread}
    (hthreads : s'.threads = Function.update s.threads t th)
    (hbegun : (s.threads t).begun ≤ th.begun)
    (hsock : t = id.thread → ∀ req, th.sock = .awaiting req → req.id ≠ id)
    (hserved : ∀ v ∈ s'.served, v ∈ s.served ∨ v.id ≠ id) : Lost id s' := by
  have hunserved : ∀ v ∈ s'.served, v.id ≠ id := by
    intro v hv
    rcases hserved v hv with hold | hne
    · exact h.unserved v hold
    · exact hne
  by_cases hthis : t = id.thread
  · subst hthis
    refine ⟨?_, hunserved, ?_⟩
    · rw [hthreads, Function.update_self]
      exact Nat.lt_of_lt_of_le h.begun hbegun
    · rw [hthreads, Function.update_self]
      exact hsock rfl
  · have hother : id.thread ≠ t := fun heq => hthis heq.symm
    refine ⟨?_, hunserved, ?_⟩
    · rw [hthreads, Function.update_of_ne hother]
      exact h.begun
    · rw [hthreads, Function.update_of_ne hother]
      exact h.unsent

/-- What is lost stays lost. -/
theorem lost_step (hinv : SubmissionInv cfg crypto s) (hlost : Lost id s)
    {label : Submission.Label} (hstep : Stepped cfg crypto s label s') : Lost id s' := by
  cases hstep with
  | send t batch hcurrent =>
      refine hlost.update rfl (Nat.le_succ _) ?_ fun v hv => Or.inl hv
      intro hthis req hsock
      -- the new request has the next index, an old one was there before
      rcases ReqSocket.send_awaiting hsock with rfl | hold
      · intro heq
        have hlt := hlost.begun
        rw [← hthis, ← heq] at hlt
        exact Nat.lt_irrefl _ hlt
      · exact hlost.unsent req (by rw [← hthis, hold])
  | serve t unpacks roundStartMs durationMs req receiver reply hsock hreceive =>
      refine hlost.update rfl (Nat.le_refl _) ?_ ?_
      · intro _ r hr
        cases hr
      · intro v hv
        rcases mem_snoc hv with hold | rfl
        · exact Or.inl hold
        · right
          intro heq
          have hown : id.thread = t := by
            rw [← show req.id = id from heq]
            exact ((hinv.threads t).awaiting req hsock).1
          exact hlost.unsent req (by rw [hown, hsock]) heq
  | reply t req old resp hcurrent hsock =>
      refine hlost.update rfl (Nat.le_refl _) ?_ fun v hv => Or.inl hv
      intro _ r hr
      cases hr
  | timeout t req hcurrent =>
      refine hlost.update rfl (Nat.le_refl _) ?_ fun v hv => Or.inl hv
      rintro rfl
      exact hlost.unsent
  | other a receiver reply hreceive => exact ⟨hlost.begun, hlost.unserved, hlost.unsent⟩
  | idle => exact hlost

theorem lost_run (hle : cfg.numShards ≤ maxShards) (hinv : SubmissionInv cfg crypto s)
    (hlost : Lost id s) {later : List Submission.Label}
    (hrun : Run.run (Submission.step cfg crypto) s later = .ok s') : Lost id s' := by
  have hstep : ∀ s label s', SubmissionInv cfg crypto s ∧ Lost id s →
      s.step cfg crypto label = .ok s' → SubmissionInv cfg crypto s' ∧ Lost id s' := by
    rintro s label s' ⟨hinv, hlost⟩ hok
    rcases stepped hle hinv hok with ⟨hinv', hstepped⟩
    exact ⟨hinv', lost_step hinv hlost hstepped⟩
  exact (Run.run_preserves _ hstep later s s' ⟨hinv, hlost⟩ hrun).2

/-- The next batch of a thread is served later on if its socket is free, and lost if not. -/
theorem next_served_iff (hle : cfg.numShards ≤ maxShards) (hinv : SubmissionInv cfg crypto s)
    (hcurrent : (s.threads t).current = none) (batch : TxBatch) :
    (∃ later s', Run.run (Submission.step cfg crypto) (s.sendBatch t batch) later = .ok s' ∧
      ∃ v ∈ s'.served, v.id = ⟨t, (s.threads t).begun⟩) ↔ (s.threads t).sock = .ready := by
  have hinv' := send_inv hinv t batch
  have hthread : (s.sendBatch t batch).threads t = { s.threads t with
      sock := (s.threads t).sock.send ⟨⟨t, (s.threads t).begun⟩, batch⟩
      begun := (s.threads t).begun + 1
      current := some ⟨⟨t, (s.threads t).begun⟩, batch⟩ } := by
    unfold Submission.sendBatch Submission.setThread
    simp only [hcurrent]
    exact Function.update_self t _ _
  constructor
  · rintro ⟨later, s', hrun, v, hv, hid⟩
    by_contra hbusy
    -- the send fails, so the batch is begun and no request for it exists
    have hfails : (s.threads t).sock.send ⟨⟨t, (s.threads t).begun⟩, batch⟩ =
        (s.threads t).sock := by
      cases hsock : (s.threads t).sock with
      | ready => exact absurd hsock hbusy
      | awaiting req => rfl
      | replied old resp => rfl
    have hlost : Lost ⟨t, (s.threads t).begun⟩ (s.sendBatch t batch) := by
      refine ⟨?_, ?_, ?_⟩
      · show (s.threads t).begun < ((s.sendBatch t batch).threads t).begun
        rw [hthread]
        exact Nat.lt_succ_self _
      · rw [(send_history s t batch).1]
        exact (hinv.threads t).fresh.1
      · show ∀ req, ((s.sendBatch t batch).threads t).sock = .awaiting req → _
        rw [hthread, hfails]
        intro req hsock heq
        have hlt := ((hinv.threads t).awaiting req hsock).2.1
        rw [heq] at hlt
        exact Nat.lt_irrefl _ hlt
    exact (lost_run hle hinv' hlost hrun).unserved v hv hid
  · intro hready
    have hsock : ((s.sendBatch t batch).threads t).sock =
        .awaiting ⟨⟨t, (s.threads t).begun⟩, batch⟩ := by
      rw [hthread, hready]
      rfl
    rcases serve_taken hle hinv' hsock true 0 0 with ⟨receiver, reply, -, hstep, -⟩
    let req : Request := ⟨⟨t, (s.threads t).begun⟩, batch⟩
    refine ⟨[.serve t true 0 0],
      (s.sendBatch t batch).answered t req (req.incoming true) receiver reply, ?_,
      _, List.mem_concat_self, rfl⟩
    rw [Run.run, hstep]
    rfl

/-! ## How many are lost -/

/-- Thread `t` gives up on a batch. -/
def Submission.Label.givesUp (t : Nat) : Submission.Label → Bool
  | .timeout u => u == t
  | _ => false

/-- 1 if a request is on its way. -/
def GenThread.waiting (th : GenThread) : Nat :=
  match th.sock with
  | .awaiting _ => 1
  | _ => 0

/-- 1 if the next send will fail. -/
def GenThread.blocked (th : GenThread) : Nat :=
  match th.current, th.sock with
  | some _, _ => 0
  | none, .ready => 0
  | none, _ => 1

def servedBy (t : Nat) (served : List Served) : Nat :=
  served.countP fun v => v.id.thread == t

/-- What a step does to one thread. -/
structure Charged (t : Nat) (s s' : Submission) (charge : Nat) : Prop where
  blocked : (s'.threads t).blocked ≤ (s.threads t).blocked + charge
  begun : (s'.threads t).begun + (s'.threads t).blocked + servedBy t s.served +
      (s.threads t).waiting ≤
    (s.threads t).begun + (s.threads t).blocked + servedBy t s'.served +
      (s'.threads t).waiting + charge

theorem Charged.same (hthread : s'.threads t = s.threads t)
    (hserved : servedBy t s'.served = servedBy t s.served) (charge : Nat) :
    Charged t s s' charge := by
  constructor
  · rw [hthread]
    exact Nat.le_add_right _ _
  · rw [hthread, hserved]
    exact Nat.le_add_right _ _

/-- One thread changes, this one or another. -/
theorem Charged.update {u charge : Nat} {th : GenThread}
    (hthreads : s'.threads = Function.update s.threads u th)
    (hother : u ≠ t → servedBy t s'.served = servedBy t s.served)
    (hblocked : u = t → th.blocked ≤ (s.threads u).blocked + charge)
    (hbegun : u = t → th.begun + th.blocked + servedBy u s.served + (s.threads u).waiting ≤
      (s.threads u).begun + (s.threads u).blocked + servedBy u s'.served + th.waiting + charge) :
    Charged t s s' charge := by
  by_cases hthis : u = t
  · subst hthis
    constructor
    · rw [hthreads, Function.update_self]
      exact hblocked rfl
    · rw [hthreads, Function.update_self]
      exact hbegun rfl
  · have hthread : s'.threads t = s.threads t := by
      rw [hthreads, Function.update_of_ne (Ne.symm hthis)]
    exact Charged.same hthread (hother hthis) charge

theorem GenThread.blocked_le (th : GenThread) : th.blocked ≤ 1 := by
  unfold GenThread.blocked
  split <;> omega

/-- Only giving up is charged: a batch that is begun has a request, or finds the socket
blocked by one that was given up. -/
theorem charged_step (hinv : SubmissionInv cfg crypto s) {label : Submission.Label}
    (hstep : Stepped cfg crypto s label s') (t : Nat) :
    Charged t s s' (if label.givesUp t then 1 else 0) := by
  cases hstep with
  | send u batch hcurrent =>
      refine Charged.update rfl (fun _ => rfl) (fun _ => Nat.zero_le _) ?_
      intro _
      cases hsock : (s.threads u).sock with
      | ready =>
          simp only [GenThread.blocked, GenThread.waiting, ReqSocket.send, hcurrent, hsock]
          show _ ≤ (s.threads u).begun + 0 + servedBy u s.served + 1 + 0
          omega
      | awaiting req =>
          simp only [GenThread.blocked, GenThread.waiting, ReqSocket.send, hcurrent, hsock]
          show _ ≤ (s.threads u).begun + 1 + servedBy u s.served + 1 + 0
          omega
      | replied id resp =>
          simp only [GenThread.blocked, GenThread.waiting, ReqSocket.send, hcurrent, hsock]
          show _ ≤ (s.threads u).begun + 1 + servedBy u s.served + 0 + 0
          omega
  | serve u unpacks roundStartMs durationMs req receiver reply hsock hreceive =>
      have hown : req.id.thread = u := ((hinv.threads u).awaiting req hsock).1
      have hcount : ∀ t, servedBy t (s.answered u req (req.incoming unpacks) receiver reply).served =
          servedBy t s.served + if u = t then 1 else 0 := by
        intro t
        simp [servedBy, Submission.answered, Submission.record, hown, List.countP_cons]
      -- the request is now a served batch, and the thread is blocked as before
      have hblocked : ({ s.threads u with sock := .replied req.id reply.text } : GenThread).blocked =
          (s.threads u).blocked := by
        cases hcurrent : (s.threads u).current with
        | none => simp only [GenThread.blocked, hcurrent, hsock]
        | some r => simp only [GenThread.blocked, hcurrent]
      refine Charged.update rfl ?_ ?_ ?_
      · intro hne
        rw [hcount, if_neg hne, Nat.add_zero]
      · intro _
        rw [hblocked]
        exact Nat.le_add_right _ _
      · intro _
        rw [hblocked, hcount, if_pos rfl]
        simp only [GenThread.waiting, hsock]
        omega
  | reply u req old resp hcurrent hsock =>
      refine Charged.update rfl (fun _ => rfl) (fun _ => Nat.zero_le _) ?_
      intro _
      show _ ≤ (s.threads u).begun + (s.threads u).blocked + servedBy u s.served + 0 + 0
      simp only [GenThread.blocked, GenThread.waiting, hsock]
      omega
  | timeout u req hcurrent =>
      have hcharge : u = t → (Submission.Label.timeout u).givesUp t = true := by
        rintro rfl
        exact beq_self_eq_true u
      have hone := GenThread.blocked_le
        { s.threads u with
          sock := (s.threads u).sock
          threadSubmitted := (s.threads u).threadSubmitted + 0
          current := none }
      dsimp only at hone
      refine Charged.update rfl (fun _ => rfl) ?_ ?_
      · intro hthis
        rw [hcharge hthis, if_pos rfl]
        exact Nat.le_add_left_of_le hone
      · intro hthis
        rw [hcharge hthis, if_pos rfl]
        show _ ≤ (s.threads u).begun + (s.threads u).blocked + servedBy u s.served + _ + 1
        simp only [GenThread.waiting]
        omega
  | other a receiver reply hreceive => exact Charged.same (by rfl) (by rfl) _
  | idle => exact Charged.same rfl rfl _

end Delivery

/-! ## Runs -/

/-- What is left of the batches of thread `t` after it gave up `k` times. -/
structure Accounted (cfg : Config) (crypto : Crypto) (t k : Nat) (s : Submission) : Prop where
  inv : SubmissionInv cfg crypto s
  blocked : (s.threads t).blocked ≤ k
  begun : (s.threads t).begun + (s.threads t).blocked ≤
    servedBy t s.served + (s.threads t).waiting + k

theorem accounted_step {cfg : Config} {crypto : Crypto} {s : Submission}
    (hle : cfg.numShards ≤ maxShards) {t k : Nat} (h : Accounted cfg crypto t k s)
    (label : Submission.Label) : ∃ s', s.step cfg crypto label = .ok s' ∧
      Accounted cfg crypto t (k + if label.givesUp t then 1 else 0) s' := by
  rcases step_taken hle h.inv label with ⟨s', hok, hinv', hstep⟩
  have hcharged := charged_step h.inv hstep t
  have hblocked := h.blocked
  have hbegun := h.begun
  have hblocked' := hcharged.blocked
  have hbegun' := hcharged.begun
  refine ⟨s', hok, hinv', ?_, ?_⟩
  · omega
  · omega

/-- No batch is served twice. A batch that its thread begins while the socket is free is
served as soon as the receiver turns to it, and one begun while it is not is never served;
the socket can only be taken if the thread gave up before, and each time it gives up costs
at most one batch. -/
theorem batches_delivered (cfg : Config) (hshards : cfg.numShards ≤ maxShards) (crypto : Crypto)
    (rand : Rand) (labels : List Submission.Label) (t : Nat) (batch : TxBatch) :
    ∃ r s, receiverInit cfg rand = .ok r ∧
      Run.run (Submission.step cfg crypto) (Submission.start r) labels = .ok s ∧
      (s.served.map Served.id).Nodup ∧
      (s.threads t).begun ≤ servedBy t s.served + (s.threads t).waiting +
        labels.countP (Submission.Label.givesUp t) ∧
      ((s.threads t).current = none →
        ((∃ later s', Run.run (Submission.step cfg crypto) (s.sendBatch t batch) later = .ok s' ∧
          ∃ v ∈ s'.served, v.id = ⟨t, (s.threads t).begun⟩) ↔ (s.threads t).sock = .ready) ∧
        ((∀ label ∈ labels, label ≠ .timeout t) → (s.threads t).sock = .ready)) := by
  rcases receiverInit_shape cfg rand with ⟨r, hinit, -, hshape⟩
  have hstart : Accounted cfg crypto t 0 (Submission.start r) :=
    ⟨start_inv crypto hshape, Nat.le_refl 0, Nat.le_refl 0⟩
  have hstep : ∀ (before : List Submission.Label) (s : Submission) (label : Submission.Label),
      Accounted cfg crypto t (before.countP (Submission.Label.givesUp t)) s →
      ∃ s', s.step cfg crypto label = .ok s' ∧
        Accounted cfg crypto t ((before ++ [label]).countP (Submission.Label.givesUp t)) s' := by
    intro before s label h
    rw [List.countP_append, List.countP_singleton]
    exact accounted_step hshards h label
  rcases Run.run_history _ hstep labels [] _ hstart with ⟨s, hrun, hinv, hblocked, hbegun⟩
  rw [List.nil_append] at hblocked hbegun
  refine ⟨r, s, hinit, hrun, hinv.once, by omega, ?_⟩
  intro hcurrent
  refine ⟨next_served_iff hshards hinv hcurrent batch, ?_⟩
  intro hnever
  -- nothing was charged, so the socket is not blocked
  have hnone : labels.countP (Submission.Label.givesUp t) = 0 := by
    rw [List.countP_eq_zero]
    intro label hlabel hgives
    cases label with
    | timeout u =>
        refine hnever _ hlabel ?_
        rw [show u = t from of_decide_eq_true hgives]
    | send => cases hgives
    | serve => cases hgives
    | reply => cases hgives
    | other => cases hgives
  rw [hnone] at hblocked
  cases hsock : (s.threads t).sock with
  | ready => rfl
  | awaiting req =>
      simp only [GenThread.blocked, hcurrent, hsock] at hblocked
      omega
  | replied id resp =>
      simp only [GenThread.blocked, hcurrent, hsock] at hblocked
      omega

/-- After one timeout before the receiver turned to the batch, the next one is lost. -/
theorem batch_after_timeout_lost :
    ∃ r s, receiverInit defaultConfig ⟨fun _ => 0, 0⟩ = .ok r ∧
      Run.run (Submission.step defaultConfig Crypto.rejecting) (Submission.start r)
        [.send 0 oneTx, .timeout 0] = .ok s ∧
      ¬ ∃ later s', Run.run (Submission.step defaultConfig Crypto.rejecting) (s.sendBatch 0 oneTx)
        later = .ok s' ∧ ∃ v ∈ s'.served, v.id = ⟨0, 1⟩ := by
  rcases batches_delivered defaultConfig (by decide) Crypto.rejecting ⟨fun _ => 0, 0⟩
    [.send 0 oneTx, .timeout 0] 0 oneTx with ⟨r, s, hinit, hrun, -, -, hnext⟩
  refine ⟨r, s, hinit, hrun, ?_⟩
  obtain rfl : ((Submission.start r).sendBatch 0 oneTx).recvTimeout 0 = s := Except.ok.inj hrun
  intro hserved
  have hready := (hnext rfl).1.mp hserved
  cases hready

end Sharding
