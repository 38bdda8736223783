import Mathlib.Data.List.Flatten
import Mathlib.Data.List.Perm.Subperm
import Sharding.Delivery
import Sharding.System

/-! # Where the transactions come from

From a thread's batch a transaction goes through its socket, the message, the pool, a
dispatch and a shard into a block. `rounds_submitted` says that on the way nothing is
made up and nothing doubled: however everybody is interleaved, a transaction with its
key is in the pool and the rounds together at most as often as clients put it in.
-/

namespace Sharding

/-! ## What clients put in -/

/-- The transactions of a batch, with the key the receiver is to store them under. -/
def TxBatch.messages (batch : TxBatch) : List TxWithPubkey :=
  batch.rawTxs.map fun tx => ⟨tx, batch.publicKey⟩

/-- The transactions of a message, with their keys. -/
def Incoming.messages (incoming : Incoming) : List TxWithPubkey :=
  incoming.txs.map fun pt => ⟨pbToTx pt, pubkeyOf pt⟩

def Submission.Label.offered : Submission.Label → List TxWithPubkey
  | .send _ batch => batch.messages
  | .other a => a.incoming.messages
  | _ => []

/-- A batch arrives as it was sent, or not at all. -/
theorem incoming_messages (req : Request) (unpacks : Bool) :
    (req.incoming unpacks).messages.Sublist req.batch.messages := by
  cases unpacks with
  | false => exact List.nil_sublist _
  | true =>
      have hsame : (req.incoming true).messages = req.batch.messages := by
        show ((req.batch.rawTxs.map fun tx => generatorPb tx req.batch.publicKey).map _) = _
        rw [List.map_map]
        apply List.map_congr_left
        intro tx _
        show TxWithPubkey.mk (pbToTx (generatorPb tx req.batch.publicKey))
          (pubkeyOf (generatorPb tx req.batch.publicKey)) = ⟨tx, req.batch.publicKey⟩
        rw [pbToTx_generatorPb, pubkeyOf_generatorPb]
      rw [hsame]

/-! ## What the pool takes -/

/-- The admitted transactions, with their keys. -/
def Receiver.taken (r : Receiver) : List TxWithPubkey := r.core.admitted.map Entry.message

theorem admit_messages (crypto : Crypto) (verify : Bool) (s : Dispatcher × Tally)
    (pt : PbTransaction) : ((admitTx crypto verify s pt).1.admitted.map Entry.message).Sublist
      (s.1.admitted.map Entry.message ++ [⟨pbToTx pt, pubkeyOf pt⟩]) := by
  rcases s with ⟨core, tally⟩
  cases hpass : passes crypto verify pt with
  | false =>
      rw [admit_rejected hpass]
      exact List.sublist_append_left _ _
  | true =>
      rw [admit_passed hpass]
      rcases Nat.lt_or_ge core.pool.count core.pool.capacity with hroom | hfull
      · rcases add_room (pbToTx pt) (some (pubkeyOf pt)) hroom with ⟨pool, hadd, -⟩
        rw [hadd, List.map_append]
        exact List.Sublist.refl _
      · rw [add_full (pbToTx pt) (some (pubkeyOf pt)) hfull]
        exact List.sublist_append_left _ _

theorem admitAll_messages (crypto : Crypto) (verify : Bool) (pts : List PbTransaction) :
    ∀ s, ((pts.foldl (admitTx crypto verify) s).1.admitted.map Entry.message).Sublist
      (s.1.admitted.map Entry.message ++
        pts.map fun pt => (⟨pbToTx pt, pubkeyOf pt⟩ : TxWithPubkey)) := by
  induction pts with
  | nil =>
      intro s
      rw [List.map_nil, List.append_nil]
      exact List.Sublist.refl _
  | cons pt pts ih =>
      intro s
      have hone := admit_messages crypto verify s pt
      have hrest := ih (admitTx crypto verify s pt)
      rw [List.foldl_cons, List.map_cons]
      have hboth := hrest.trans (hone.append (List.Sublist.refl _))
      rwa [List.append_assoc, List.singleton_append] at hboth

theorem Handled.taken {cfg : Config} {crypto : Crypto} {r r' : Receiver} {a : Arrival}
    {reply : Reply} (h : Handled cfg crypto r a r' reply) :
    r'.taken.Sublist (r.taken ++ a.incoming.messages) := by
  have hbatch : ∀ batch, a.incoming = .batch batch →
      ((admitBatch crypto cfg.verify r.core batch).1.admitted.map Entry.message).Sublist
        (r.taken ++ a.incoming.messages) := by
    intro batch hin
    rw [hin, admitBatch_eq]
    exact admitAll_messages crypto cfg.verify (Incoming.txs (.batch batch)) (r.core, ⟨0, 0⟩)
  cases h with
  | unknown hin => exact List.sublist_append_left _ _
  | waits batch hin r' hcore hcount =>
      unfold Receiver.taken
      rw [hcore]
      exact hbatch batch hin
  | dispatches batch hin r' hcount hdispatch =>
      unfold Receiver.taken
      rw [dispatch_admitted hdispatch]
      exact hbatch batch hin

/-! ## Threads and receiver -/

/-- What the pool took goes back to the requests `sent` and to what `others` sent: the
receiver has taken the requests `taken` so far, each once. -/
structure Traced (sent taken : List Request) (others : List TxWithPubkey) (s : Submission) :
    Prop where
  awaiting : ∀ t req, (s.threads t).sock = .awaiting req → req ∈ sent
  ids : taken.map Request.id = s.served.map Served.id
  sent : taken ⊆ sent
  admitted : ∀ m, s.receiver.taken.count m ≤
    (taken.flatMap fun req => req.batch.messages).count m + others.count m

section Threads

variable {cfg : Config} {crypto : Crypto} {s s' : Submission} {sent taken : List Request}
  {others : List TxWithPubkey}

/-- One thread changes. -/
theorem awaiting_update {threads : Nat → GenThread} {t : Nat} {th : GenThread}
    (hthis : ∀ req, th.sock = .awaiting req → req ∈ sent)
    (hothers : ∀ u req, (threads u).sock = .awaiting req → req ∈ sent) :
    ∀ u req, (Function.update threads t th u).sock = .awaiting req → req ∈ sent := by
  intro u req hu
  by_cases heq : u = t
  · subst heq
    rw [Function.update_self] at hu
    exact hthis req hu
  · rw [Function.update_of_ne heq] at hu
    exact hothers u req hu

/-- The receiver takes a message with an assigner. -/
theorem received_messages (hle : cfg.numShards ≤ maxShards) (hinv : SubmissionInv cfg crypto s)
    {a : Arrival} {receiver : Receiver} {reply : Reply}
    (hreceive : receive cfg crypto s.receiver a = .ok (receiver, reply)) (m : TxWithPubkey) :
    receiver.taken.count m ≤ s.receiver.taken.count m + a.incoming.messages.count m := by
  have hreceiver : ReceiverInv cfg s.receiver :=
    ⟨hinv.receiver.core hle, hinv.receiver.nodes, hinv.receiver.waiting⟩
  have hcount := (handled_of_receive hreceiver hreceive).taken.count_le m
  rwa [List.count_append] at hcount

/-- A step extends what was put in, at most by what its label offers. -/
theorem traced_step (hle : cfg.numShards ≤ maxShards) (hinv : SubmissionInv cfg crypto s)
    (h : Traced sent taken others s) {label : Submission.Label}
    (hstep : Stepped cfg crypto s label s') :
    ∃ sent' taken' others', Traced sent' taken' others' s' ∧
      ∀ m, (sent'.flatMap fun req => req.batch.messages).count m + others'.count m ≤
        (sent.flatMap fun req => req.batch.messages).count m + others.count m +
          label.offered.count m := by
  cases hstep with
  | send t batch hcurrent =>
      have hold : ∀ u req, (s.threads u).sock = .awaiting req →
          req ∈ sent ++ [⟨⟨t, (s.threads t).begun⟩, batch⟩] :=
        fun u req hu => List.mem_append_left _ (h.awaiting u req hu)
      refine ⟨sent ++ [⟨⟨t, (s.threads t).begun⟩, batch⟩], taken, others,
        ⟨awaiting_update ?_ hold, h.ids, ?_, h.admitted⟩, ?_⟩
      · intro req hsock
        rcases ReqSocket.send_awaiting hsock with rfl | hbefore
        · exact List.mem_concat_self
        · exact hold t req hbefore
      · exact fun req hreq => List.mem_append_left _ (h.sent hreq)
      · intro m
        rw [List.flatMap_append, List.flatMap_singleton, List.count_append]
        show _ + batch.messages.count m + _ ≤ _ + batch.messages.count m
        omega
  | serve t unpacks roundStartMs durationMs req receiver reply hsock hreceive =>
      refine ⟨sent, taken ++ [req], others, ⟨awaiting_update ?_ h.awaiting, ?_, ?_, ?_⟩,
        fun m => Nat.le_add_right _ _⟩
      · intro r hr
        cases hr
      · show (taken ++ [req]).map Request.id = (s.served ++ [_]).map Served.id
        rw [List.map_append, List.map_append, h.ids]
        rfl
      · intro r hr
        rcases mem_snoc hr with hold | rfl
        · exact h.sent hold
        · exact h.awaiting t r hsock
      · intro m
        have htook := received_messages hle hinv hreceive m
        have hbefore := h.admitted m
        have harrived := (incoming_messages req unpacks).count_le m
        rw [List.flatMap_append, List.flatMap_singleton, List.count_append]
        show receiver.taken.count m ≤ _
        simp only at htook
        omega
  | reply t req old resp hcurrent hsock =>
      refine ⟨sent, taken, others, ⟨awaiting_update ?_ h.awaiting, h.ids, h.sent, h.admitted⟩,
        fun m => Nat.le_add_right _ _⟩
      intro r hr
      cases hr
  | timeout t req hcurrent =>
      exact ⟨sent, taken, others,
        ⟨awaiting_update (h.awaiting t) h.awaiting, h.ids, h.sent, h.admitted⟩,
        fun m => Nat.le_add_right _ _⟩
  | other a receiver reply hreceive =>
      refine ⟨sent, taken, others ++ a.incoming.messages, ⟨h.awaiting, h.ids, h.sent, ?_⟩, ?_⟩
      · intro m
        have htook := received_messages hle hinv hreceive m
        have hbefore := h.admitted m
        rw [List.count_append]
        show receiver.taken.count m ≤ _
        omega
      · intro m
        rw [List.count_append]
        show _ ≤ _ + a.incoming.messages.count m
        omega
  | idle => exact ⟨sent, taken, others, h, fun m => Nat.le_add_right _ _⟩

/-- Requests that were each taken once bring no more than was sent. -/
theorem Traced.taken_le (h : Traced sent taken others s) (hinv : SubmissionInv cfg crypto s)
    (m : TxWithPubkey) : s.receiver.taken.count m ≤
      (sent.flatMap fun req => req.batch.messages).count m + others.count m := by
  have honce : taken.Nodup := by
    have hids := hinv.once
    rw [← h.ids] at hids
    exact hids.of_map
  rcases honce.subperm h.sent with ⟨l, hperm, hsub⟩
  have hcount := (hsub.flatMap fun req => req.batch.messages).count_le m
  rw [(hperm.flatMap_right fun req => req.batch.messages).count_eq] at hcount
  have hadmitted := h.admitted m
  omega

end Threads

/-- Whatever threads and receiver do, the pool takes nothing more often than it was put in. -/
theorem submission_traced {cfg : Config} (hle : cfg.numShards ≤ maxShards) {crypto : Crypto}
    {r : Receiver} (hshape : ReceiverShape cfg r) (hempty : r.core.admitted = [])
    (labels : List Submission.Label) :
    ∃ s, Run.run (Submission.step cfg crypto) (Submission.start r) labels = .ok s ∧
      ∀ m, s.receiver.taken.count m ≤ (labels.flatMap Submission.Label.offered).count m := by
  have hstart : Traced [] [] [] (Submission.start r) := by
    refine ⟨?_, rfl, List.Subset.refl _, ?_⟩
    · intro t req hsock
      cases hsock
    · intro m
      show (r.core.admitted.map Entry.message).count m ≤ _
      rw [hempty]
      exact Nat.zero_le _
  have hstep : ∀ (before : List Submission.Label) (s : Submission) (label : Submission.Label),
      (SubmissionInv cfg crypto s ∧ ∃ sent taken others, Traced sent taken others s ∧
        ∀ m, (sent.flatMap fun req => req.batch.messages).count m + others.count m ≤
          (before.flatMap Submission.Label.offered).count m) →
      ∃ s', s.step cfg crypto label = .ok s' ∧
        SubmissionInv cfg crypto s' ∧ ∃ sent taken others, Traced sent taken others s' ∧
          ∀ m, (sent.flatMap fun req => req.batch.messages).count m + others.count m ≤
            ((before ++ [label]).flatMap Submission.Label.offered).count m := by
    rintro before s label ⟨hinv, sent, taken, others, htraced, hle'⟩
    rcases step_taken hle hinv label with ⟨s', hok, hinv', hstepped⟩
    rcases traced_step hle hinv htraced hstepped with ⟨sent', taken', others', htraced', hmore⟩
    refine ⟨s', hok, hinv', sent', taken', others', htraced', ?_⟩
    intro m
    have hbefore := hle' m
    have hafter := hmore m
    rw [List.flatMap_append, List.flatMap_singleton, List.count_append]
    omega
  rcases Run.run_history _ hstep labels [] _
    ⟨start_inv crypto hshape, [], [], [], hstart, fun m => Nat.le_refl _⟩ with
    ⟨s, hrun, hinv, sent, taken, others, htraced, hoffered⟩
  refine ⟨s, hrun, ?_⟩
  intro m
  exact Nat.le_trans (htraced.taken_le hinv m) (hoffered m)

/-! ## The whole system -/

def System.Label.offered : System.Label → List TxWithPubkey
  | .send _ batch => batch.messages
  | .other a => a.incoming.messages
  | _ => []

theorem offered_front (labels : List System.Label) :
    (labels.filterMap System.Label.front).flatMap Submission.Label.offered =
      labels.flatMap System.Label.offered := by
  induction labels with
  | nil => rfl
  | cons label labels ih =>
      rw [List.flatMap_cons, ← ih]
      cases label <;> rfl

/-- A step of the system is at most the step that threads and receiver see of it. -/
theorem Moved.front_step {cfg : Config} {crypto : Crypto} {s s' : System} {label : System.Label}
    (h : Moved cfg crypto s label s') : s'.submission = s.submission ∨
      ∃ l, label.front = some l ∧ s.submission.step cfg crypto l = .ok s'.submission := by
  cases h with
  | front l hfront hback submission hstep => exact Or.inr ⟨l, hfront, hstep⟩
  | takes l hfront hback hout submission hstep replies => exact Or.inr ⟨l, hfront, hstep⟩
  | back l hfront hback cluster hstep => exact Or.inl rfl
  | waits hback => exact Or.inl rfl

/-- A run of the system is, for threads and receiver, a run over some of its labels. -/
theorem front_run {cfg : Config} (crypto : Crypto) (hshards : cfg.numShards ≤ maxShards)
    {r : Receiver} (hstart : SystemInv cfg crypto (System.start cfg r)) (labels : List System.Label) :
    ∃ s ls, Run.run (System.step cfg crypto) (System.start cfg r) labels = .ok s ∧
      SystemInv cfg crypto s ∧ ls.Sublist (labels.filterMap System.Label.front) ∧
      Run.run (Submission.step cfg crypto) (Submission.start r) ls = .ok s.submission := by
  have hstep : ∀ (before : List System.Label) (s : System) (label : System.Label),
      (SystemInv cfg crypto s ∧ ∃ ls : List Submission.Label,
        ls.Sublist (before.filterMap System.Label.front) ∧
        Run.run (Submission.step cfg crypto) (Submission.start r) ls = .ok s.submission) →
      ∃ s', s.step cfg crypto label = .ok s' ∧
        SystemInv cfg crypto s' ∧ ∃ ls : List Submission.Label,
          ls.Sublist ((before ++ [label]).filterMap System.Label.front) ∧
          Run.run (Submission.step cfg crypto) (Submission.start r) ls = .ok s'.submission := by
    rintro before s label ⟨hinv, ls, hsub, hrun⟩
    rcases systemStep_inv hshards s label hinv with ⟨s', hok, hinv', -⟩
    refine ⟨s', hok, hinv', ?_⟩
    rw [List.filterMap_append]
    rcases (moved hok).front_step with hsame | ⟨l, hfront, hl⟩
    · exact ⟨ls, hsub.trans (List.sublist_append_left _ _), by rw [hrun, hsame]⟩
    · refine ⟨ls ++ [l], ?_, ?_⟩
      · rw [List.filterMap_cons_some hfront, List.filterMap_nil]
        exact hsub.append (List.Sublist.refl _)
      · rw [Run.run_append, hrun, Run.ok_bind, Run.run, hl]
        rfl
  rcases Run.run_history _ hstep labels [] _ ⟨hstart, [], List.Sublist.refl _, rfl⟩ with
    ⟨s, hrun, hinv, ls, hsub, hfront⟩
  exact ⟨s, ls, hrun, hinv, hsub, hfront⟩

/-- In any interleaving of everybody, whatever gets lost or given up: a transaction with
its key is in the rounds and the pool together no more often than clients put it in, and
every block agrees with its round. -/
theorem rounds_submitted (cfg : Config) (hshards : cfg.numShards ≤ maxShards) (crypto : Crypto)
    (rand : Rand) (labels : List System.Label) :
    ∃ r s, receiverInit cfg rand = .ok r ∧
      Run.run (System.step cfg crypto) (System.start cfg r) labels = .ok s ∧
      (∀ m, ((sentEntries s.cluster.dispatcher.pushes ++ s.cluster.dispatcher.pool.held).map
        Entry.message).count m ≤ (labels.flatMap System.Label.offered).count m) ∧
      ∀ k (h : k < s.cluster.blocks.length), ∃ header round,
        (headersOf s.cluster.dispatcher.pushes)[k]? = some header ∧
        s.cluster.dispatcher.rounds[k]? = some round ∧
        Agrees crypto cfg.numShards header round s.cluster.blocks[k] := by
  rcases receiverInit_shape cfg rand with ⟨r, hinit, hcore, hshape⟩
  rcases start_system crypto hshards rand with ⟨r', hinit', hstart⟩
  obtain rfl : r = r' := Except.ok.inj (hinit.symm.trans hinit')
  rcases front_run crypto hshards hstart labels with ⟨s, ls, hrun, hinv, hsub, hfront⟩
  have hempty : r.core.admitted = [] := by
    rw [hcore]
    rfl
  rcases submission_traced hshards hshape hempty ls with ⟨submission, hfront', htraced⟩
  obtain rfl : s.submission = submission := Except.ok.inj (hfront.symm.trans hfront')
  refine ⟨r, s, hinit, hrun, ?_, ?_⟩
  · intro m
    have htaken := htraced m
    have hoffered := (hsub.flatMap Submission.Label.offered).count_le m
    have hheld := (hinv.cluster.core.accounted.map Entry.message).count_le m
    rw [offered_front] at hoffered
    rw [sentEntries_pushes hinv.cluster.core]
    rw [hinv.shared] at hheld ⊢
    exact Nat.le_trans hheld (Nat.le_trans htaken hoffered)
  · intro k hk
    exact hinv.cluster.agrees cfg.numShards_pos hk

theorem rounds_submitted_solo :
    ∃ r s, receiverInit soloConfig ⟨fun _ => 0, 0⟩ = .ok r ∧
      Run.run (System.step soloConfig Crypto.rejecting) (System.start soloConfig r) soloRound =
        .ok s ∧
      (∀ m, ((sentEntries s.cluster.dispatcher.pushes ++ s.cluster.dispatcher.pool.held).map
        Entry.message).count m ≤ (soloRound.flatMap System.Label.offered).count m) ∧
      ∀ k (h : k < s.cluster.blocks.length), ∃ header round,
        (headersOf s.cluster.dispatcher.pushes)[k]? = some header ∧
        s.cluster.dispatcher.rounds[k]? = some round ∧
        Agrees Crypto.rejecting soloConfig.numShards header round s.cluster.blocks[k] :=
  rounds_submitted soloConfig (by decide) Crypto.rejecting ⟨fun _ => 0, 0⟩ soloRound

/-! ## Behind a receiver that verifies -/

/-- Whatever the pool took passes the check of the workers. -/
def Receiver.Checked (crypto : Crypto) (r : Receiver) : Prop :=
  ∀ e ∈ r.core.admitted, checkTx crypto e.ptr.tx e.pubkey = true

theorem add_checked {crypto : Crypto} {d : Dispatcher} {tx : Transaction} {pubkey : PublicKey}
    (hcheck : checkTx crypto tx pubkey = true)
    (h : ∀ e ∈ d.admitted, checkTx crypto e.ptr.tx e.pubkey = true) :
    ∀ e ∈ (d.add tx (some pubkey)).2.admitted, checkTx crypto e.ptr.tx e.pubkey = true := by
  rcases Nat.lt_or_ge d.pool.count d.pool.capacity with hroom | hfull
  · rcases add_room tx (some pubkey) hroom with ⟨pool, hadd, -⟩
    rw [hadd]
    intro e he
    rcases mem_snoc he with hold | rfl
    · exact h e hold
    · exact hcheck
  · rw [add_full tx (some pubkey) hfull]
    exact h

theorem Handled.checked {cfg : Config} {crypto : Crypto} {r r' : Receiver} {a : Arrival}
    {reply : Reply} (h : Handled cfg crypto r a r' reply) (hverify : cfg.verify = true)
    (hr : r.Checked crypto) : r'.Checked crypto := by
  have hbatch : ∀ batch, ∀ e ∈ (admitBatch crypto cfg.verify r.core batch).1.admitted,
      checkTx crypto e.ptr.tx e.pubkey = true := by
    intro batch
    rw [admitBatch_eq]
    apply admitAll_induct fun d : Dispatcher =>
      ∀ e ∈ d.admitted, checkTx crypto e.ptr.tx e.pubkey = true
    · intro d pt hpass hd
      have hcheck : checkTx crypto (pbToTx pt) (pubkeyOf pt) = true := by
        simpa [passes, hverify] using hpass
      exact add_checked hcheck hd
    · exact hr
  unfold Receiver.Checked
  cases h with
  | unknown hin => exact hr
  | waits batch hin r' hcore hcount =>
      rw [hcore]
      exact hbatch batch
  | dispatches batch hin r' hcount hdispatch =>
      rw [dispatch_admitted hdispatch]
      exact hbatch batch

/-- With `--verify` the pool has only ever taken what passes. -/
theorem system_checked {cfg : Config} (hverify : cfg.verify = true)
    (hshards : cfg.numShards ≤ maxShards) (crypto : Crypto) (rand : Rand)
    (labels : List System.Label) :
    ∃ r s, receiverInit cfg rand = .ok r ∧
      Run.run (System.step cfg crypto) (System.start cfg r) labels = .ok s ∧
      SystemInv cfg crypto s ∧ s.submission.receiver.Checked crypto := by
  rcases system_run crypto hshards rand labels with ⟨r, s, hinit, hrun, hinv, hreach⟩
  rcases receiverInit_inv cfg hshards rand with ⟨r', hinit', hcore, hreceiver, -⟩
  obtain rfl : r = r' := Except.ok.inj (hinit.symm.trans hinit')
  have hstep : ∀ r a r', ReceiverInv cfg r ∧ r.Checked crypto → receiverStep cfg crypto r a = .ok r' →
      ReceiverInv cfg r' ∧ r'.Checked crypto := by
    rintro r a r' ⟨hr, hchecked⟩ hok
    rcases receive_ok hr crypto a with ⟨r'', reply, hreceive, hr'', hhandled⟩
    rw [receiverStep, hreceive] at hok
    obtain rfl := Except.ok.inj hok
    exact ⟨hr'', hhandled.checked hverify hchecked⟩
  have hstart : r.Checked crypto := by
    unfold Receiver.Checked
    rw [hcore]
    exact List.forall_mem_nil _
  rcases hreach.receiver with ⟨arrivals, harrivals⟩
  exact ⟨r, s, hinit, hrun, hinv,
    (Run.run_preserves _ hstep arrivals r _ ⟨hreceiver, hstart⟩ harrivals).2⟩

/-- What a shard is sent had been admitted. -/
theorem sentTo_admitted {numShards : Nat} {d : Dispatcher} (h : DispatcherInv numShards d)
    {round : Dispatch} (hround : round ∈ d.rounds) {i : Nat} (hi : i < numShards)
    {m : TxWithPubkey} (hm : m ∈ sentTo i round.pushes) : ∃ e ∈ d.admitted, e.message = m := by
  rcases List.getElem_of_mem hround with ⟨k, hk, rfl⟩
  rcases h.rounds k hk with ⟨roundStartMs, hpushes⟩
  rw [hpushes, sentTo_pushesOf hi] at hm
  rcases List.mem_map.mp hm with ⟨e, he, rfl⟩
  have hsent : e ∈ d.sent := List.mem_flatMap.mpr ⟨_, hround, (List.mem_filter.mp he).1⟩
  exact ⟨e, h.accounted.subset (List.mem_append_left _ hsent), rfl⟩

/-- Whatever a shard is sent passes the check. -/
theorem sentTo_checked {cfg : Config} {crypto : Crypto} {s : System} (hinv : SystemInv cfg crypto s)
    (hchecked : s.submission.receiver.Checked crypto) {round : Dispatch}
    (hround : round ∈ s.cluster.dispatcher.rounds) {i : Nat} (hi : i < cfg.numShards)
    {m : TxWithPubkey} (hm : m ∈ sentTo i round.pushes) : checkTx crypto m.tx m.pubkey = true := by
  rcases sentTo_admitted hinv.cluster.core hround hi hm with ⟨e, he, rfl⟩
  rw [hinv.shared] at he
  exact hchecked e he

/-- With `--verify` the workers only ever see transactions that pass the check whose
result they throw away. -/
theorem blocks_verified (cfg : Config) (hverify : cfg.verify = true)
    (hshards : cfg.numShards ≤ maxShards) (crypto : Crypto) (rand : Rand)
    (labels : List System.Label) :
    ∃ r s, receiverInit cfg rand = .ok r ∧
      Run.run (System.step cfg crypto) (System.start cfg r) labels = .ok s ∧
      (∀ round ∈ s.cluster.dispatcher.rounds, ∀ i < cfg.numShards,
        verified crypto (sentTo i round.pushes) = sentTo i round.pushes) ∧
      ∀ k (h : k < s.cluster.blocks.length), ∃ header round,
        (headersOf s.cluster.dispatcher.pushes)[k]? = some header ∧
        s.cluster.dispatcher.rounds[k]? = some round ∧
        Agrees crypto cfg.numShards header round s.cluster.blocks[k] := by
  rcases system_checked hverify hshards crypto rand labels with
    ⟨r, s, hinit, hrun, hinv, hchecked⟩
  refine ⟨r, s, hinit, hrun, ?_, ?_⟩
  · intro round hround i hi
    apply List.filter_eq_self.mpr
    intro m hm
    exact sentTo_checked hinv hchecked hround hi hm
  · intro k hk
    exact hinv.cluster.agrees cfg.numShards_pos hk

/-- One shard, a round for every transaction, and `--verify`. -/
def soloVerifyConfig : Config := { soloConfig with verify := true }

/-- A batch of one transaction in the name of the coinbase. -/
def coinbaseTx : TxBatch where
  rawTxs := [⟨0, 0, coinbaseAddress, zeros 20, 5, 0, zeros 64⟩]
  publicKey := zeros 32
  nonempty := by decide
  length_le := by decide

/-- The transaction of the coinbase gets into a block, the unsigned one does not. -/
def verifiedRound : List System.Label :=
  [.send 0 oneTx, .serve 0 true 0 0, .reply 0, .send 0 coinbaseTx, .serve 0 true 0 0] ++
    List.replicate 4 .push ++
    List.replicate 7 (.leader (fun _ => false) 0 ParallelFor.Schedule.sequential)

theorem blocks_verified_solo :
    ∃ r s, receiverInit soloVerifyConfig ⟨fun _ => 0, 0⟩ = .ok r ∧
      Run.run (System.step soloVerifyConfig Crypto.rejecting) (System.start soloVerifyConfig r)
        verifiedRound = .ok s ∧
      (∀ round ∈ s.cluster.dispatcher.rounds, ∀ i < soloVerifyConfig.numShards,
        verified Crypto.rejecting (sentTo i round.pushes) = sentTo i round.pushes) ∧
      ∀ k (h : k < s.cluster.blocks.length), ∃ header round,
        (headersOf s.cluster.dispatcher.pushes)[k]? = some header ∧
        s.cluster.dispatcher.rounds[k]? = some round ∧
        Agrees Crypto.rejecting soloVerifyConfig.numShards header round s.cluster.blocks[k] :=
  blocks_verified soloVerifyConfig rfl (by decide) Crypto.rejecting ⟨fun _ => 0, 0⟩ verifiedRound

example : (receiverInit soloVerifyConfig ⟨fun _ => 0, 0⟩).toOption.bind (fun r =>
    (Run.run (System.step soloVerifyConfig Crypto.rejecting) (System.start soloVerifyConfig r)
      verifiedRound).toOption.map fun s => s.cluster.finalised) = some 1 := by decide +kernel

end Sharding
