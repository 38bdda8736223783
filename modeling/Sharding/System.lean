import Mathlib.Algebra.BigOperators.Group.List.Basic
import Sharding.Lib.Refine
import Sharding.Moves
import Sharding.Pairing

/-! # The whole system

Generator threads, other clients, the receiver with its pool and assigner, the
leader and the followers, in any interleaving. The pool and the assigner are both
the receiver's and what feeds the shards. The receiver takes its next message when
everything of the last dispatch is sent; its reply is sent last, but here a thread
may have it earlier. `system_refines` says that a run of the whole system is a run
of every part, and accounts for the transactions the clients were told about.
-/

namespace Sharding

open ParallelFor

/-- How many transactions a reply says were accepted. -/
def Reply.accepted : Reply → Nat
  | .ok tally => tally.accepted
  | .unknown => 0

structure System where
  submission : Submission
  cluster : Cluster
  /-- All replies sent so far. -/
  replies : List Reply

/-- The pool and the assigner afterwards; what a dispatch sends is still to be sent. -/
def Cluster.take (c : Cluster) (core : Dispatcher) : Cluster := { c with
  dispatcher := core
  outbox := c.outbox ++ (core.rounds.drop c.dispatcher.rounds.length).flatMap Cluster.outgoing }

namespace System

def start (cfg : Config) (r : Receiver) : System where
  submission := Submission.start r
  cluster := Cluster.create mempoolMaxSize cfg.numShards
  replies := []

/-- Who moves. -/
inductive Label where
  | send (t : Nat) (batch : TxBatch)
  | reply (t : Nat)
  | timeout (t : Nat)
  | serve (t : Nat) (unpacks : Bool) (roundStartMs durationMs : UInt64)
  | other (a : Arrival)
  | push
  | leader (drop : Nat → Bool) (source : Nat) (schedule : (k : Nat) → Schedule k)
  | follower (i : Nat) (schedule : (k : Nat) → Schedule k)

/-- The receiver takes the request of thread `t`. -/
def serve (cfg : Config) (crypto : Crypto) (s : System) (t : Nat) (unpacks : Bool)
    (roundStartMs durationMs : UInt64) : Except Stuck System :=
  match s.cluster.outbox with
  | _ :: _ => .ok s
  | [] =>
      match s.submission.serve cfg crypto t unpacks roundStartMs durationMs with
      | .error _ => .error .undefined
      | .ok submission => .ok {
          submission := submission
          cluster := s.cluster.take submission.receiver.core
          replies := s.replies ++
            (submission.served.drop s.submission.served.length).map Served.reply }

/-- The receiver takes a message of another client. -/
def other (cfg : Config) (crypto : Crypto) (s : System) (a : Arrival) : Except Stuck System :=
  match s.cluster.outbox with
  | _ :: _ => .ok s
  | [] =>
      match receive cfg crypto s.submission.receiver a with
      | .error _ => .error .undefined
      | .ok (receiver, reply) => .ok {
          submission := { s.submission with receiver := receiver }
          cluster := s.cluster.take receiver.core
          replies := s.replies ++ [reply] }

def step (cfg : Config) (crypto : Crypto) (s : System) : Label → Except Stuck System
  | .send t batch => .ok { s with submission := s.submission.sendBatch t batch }
  | .reply t => .ok { s with submission := s.submission.recvReply t }
  | .timeout t => .ok { s with submission := s.submission.recvTimeout t }
  | .serve t unpacks roundStartMs durationMs => s.serve cfg crypto t unpacks roundStartMs durationMs
  | .other a => s.other cfg crypto a
  | .push => .ok { s with cluster := s.cluster.send }
  | .leader drop source schedule => do
      let cluster ← s.cluster.leaderStep crypto cfg.numShards drop source schedule
      .ok { s with cluster := cluster }
  | .follower i schedule => do
      let cluster ← s.cluster.step crypto cfg.numShards (.follower i schedule)
      .ok { s with cluster := cluster }

end System

/-! ## What the receiver does to the pool and the assigner -/

/-- The additions the transactions of a message amount to. -/
def additions (crypto : Crypto) (verify : Bool) (pts : List PbTransaction) :
    List (Transaction × PublicKey) :=
  (pts.filter (passes crypto verify)).map fun pt => (pbToTx pt, pubkeyOf pt)

def addLabel (p : Transaction × PublicKey) : Cluster.Label := .add p.1 (some p.2)

/-- Admission is a run of additions. -/
theorem admitAll_run (cluster : Cluster) (crypto : Crypto) (numShards : Nat) (verify : Bool)
    (pts : List PbTransaction) : ∀ s : Dispatcher × Tally,
      Run.run (Cluster.step crypto numShards) { cluster with dispatcher := s.1 }
          ((additions crypto verify pts).map addLabel) =
        .ok { cluster with dispatcher := (pts.foldl (admitTx crypto verify) s).1 } := by
  induction pts with
  | nil =>
      intro s
      rfl
  | cons pt pts ih =>
      rintro ⟨core, tally⟩
      rw [List.foldl_cons]
      cases hpass : passes crypto verify pt with
      | false =>
          rw [admit_rejected hpass, ← ih]
          simp only [additions, List.filter_cons, hpass, Bool.false_eq_true, if_false]
      | true =>
          rw [admit_passed hpass, ← ih]
          simp only [additions, List.filter_cons, hpass, if_true, List.map_cons, addLabel, Run.run,
            Cluster.step]

theorem admitBatch_run (cluster : Cluster) (crypto : Crypto) (numShards : Nat) (verify : Bool)
    (batch : Option PbBatch) :
    Run.run (Cluster.step crypto numShards) cluster
        ((additions crypto verify (Incoming.batch batch).txs).map addLabel) =
      .ok { cluster with dispatcher := (admitBatch crypto verify cluster.dispatcher batch).1 } := by
  rw [admitBatch_eq]
  exact admitAll_run cluster crypto numShards verify _ (cluster.dispatcher, ⟨0, 0⟩)

/-- A label without an announcement. -/
def Cluster.Label.silent : Cluster.Label → Bool
  | .leader _ _ _ => false
  | _ => true

theorem additions_silent (pairs : List (Transaction × PublicKey)) :
    ∀ label ∈ pairs.map addLabel, label.silent = true := by
  intro label hlabel
  rcases List.mem_map.mp hlabel with ⟨p, -, rfl⟩
  rfl

/-- A message is taken: additions, and a dispatch if a block is due. -/
theorem take_run {cfg : Config} {crypto : Crypto} {r r' : Receiver} {a : Arrival}
    {reply : Reply} (h : Handled cfg crypto r a r' reply) {cluster : Cluster}
    (hcore : cluster.dispatcher = r.core) (hout : cluster.outbox = []) :
    ∃ labels, (∀ label ∈ labels, label.silent = true) ∧
      Run.run (Cluster.step crypto cfg.numShards) cluster labels = .ok (cluster.take r'.core) := by
  have hsame : ∀ core : Dispatcher, core.rounds = cluster.dispatcher.rounds →
      cluster.take core = { cluster with dispatcher := core } := by
    intro core hrounds
    unfold Cluster.take
    rw [hrounds, List.drop_length, List.flatMap_nil, List.append_nil]
  cases h with
  | unknown hin =>
      refine ⟨[], List.forall_mem_nil _, ?_⟩
      rw [hsame _ (by rw [hcore]), ← hcore]
      rfl
  | waits batch hin r' hcore' hcount =>
      have hrounds : r'.core.rounds = cluster.dispatcher.rounds := by
        rw [hcore', admitBatch_rounds, hcore]
      refine ⟨(additions crypto cfg.verify (Incoming.batch batch).txs).map addLabel,
        additions_silent _, ?_⟩
      rw [hsame _ hrounds, hcore', ← hcore]
      exact admitBatch_run cluster crypto cfg.numShards cfg.verify batch
  | dispatches batch hin r' hcount hdispatch =>
      rw [← hcore] at hdispatch
      have hdropped : (admitBatch crypto cfg.verify cluster.dispatcher batch).1.rounds.length =
          cluster.dispatcher.rounds.length := by rw [admitBatch_rounds]
      have hstep : Cluster.step crypto cfg.numShards
          { cluster with
            dispatcher := (admitBatch crypto cfg.verify cluster.dispatcher batch).1 }
          (.dispatch a.roundStartMs cfg.blockSize a.durationMs) = .ok (cluster.take r'.core) := by
        unfold Cluster.step Cluster.dispatch Cluster.take
        simp only [hout, hdispatch, hdropped, List.nil_append]
      refine ⟨(additions crypto cfg.verify (Incoming.batch batch).txs).map addLabel ++
        [.dispatch a.roundStartMs cfg.blockSize a.durationMs], ?_, ?_⟩
      · rw [List.forall_mem_append]
        exact ⟨additions_silent _, List.forall_mem_singleton.mpr rfl⟩
      · rw [Run.run_append, admitBatch_run cluster crypto cfg.numShards cfg.verify batch, Run.ok_bind,
          Run.run, hstep]
        rfl

theorem take_reaches {cfg : Config} {crypto : Crypto} {r r' : Receiver} {a : Arrival}
    {reply : Reply} (h : Handled cfg crypto r a r' reply) {cluster : Cluster}
    (hcore : cluster.dispatcher = r.core) (hout : cluster.outbox = []) :
    Run.Reaches (Cluster.step crypto cfg.numShards) cluster (cluster.take r'.core) := by
  rcases take_run h hcore hout with ⟨labels, -, hrun⟩
  exact ⟨labels, hrun⟩

/-! ## What a step is for the parts -/

/-- What threads and receiver see of a step. -/
def System.Label.front : System.Label → Option Submission.Label
  | .send t batch => some (.send t batch)
  | .reply t => some (.reply t)
  | .timeout t => some (.timeout t)
  | .serve t unpacks roundStartMs durationMs => some (.serve t unpacks roundStartMs durationMs)
  | .other a => some (.other a)
  | .push => none
  | .leader _ _ _ => none
  | .follower _ _ => none

/-- What the shards see of a step of their own. -/
def System.Label.back : System.Label → Option Cluster.Label
  | .push => some .send
  | .leader drop source schedule => some (.leader drop source schedule)
  | .follower i schedule => some (.follower i schedule)
  | .send _ _ => none
  | .reply _ => none
  | .timeout _ => none
  | .serve _ _ _ _ => none
  | .other _ => none

/-- All a step can do: one side moves, or the receiver takes a message. -/
inductive Moved (cfg : Config) (crypto : Crypto) (s : System) (label : System.Label) :
    System → Prop where
  | front (l : Submission.Label) (hfront : label.front = some l) (hback : label.back = none)
      (submission : Submission) (hstep : s.submission.step cfg crypto l = .ok submission) :
      Moved cfg crypto s label { s with submission := submission }
  | takes (l : Submission.Label) (hfront : label.front = some l) (hback : label.back = none)
      (hout : s.cluster.outbox = []) (submission : Submission)
      (hstep : s.submission.step cfg crypto l = .ok submission) (replies : List Reply) :
      Moved cfg crypto s label ⟨submission, s.cluster.take submission.receiver.core, replies⟩
  | back (l : Cluster.Label) (hfront : label.front = none) (hback : label.back = some l)
      (cluster : Cluster) (hstep : s.cluster.step crypto cfg.numShards l = .ok cluster) :
      Moved cfg crypto s label { s with cluster := cluster }
  | waits (hback : label.back = none) : Moved cfg crypto s label s

theorem moved {cfg : Config} {crypto : Crypto} {s s' : System} {label : System.Label}
    (hok : s.step cfg crypto label = .ok s') : Moved cfg crypto s label s' := by
  cases label with
  | send t batch =>
      obtain rfl := Except.ok.inj hok
      exact .front _ rfl rfl _ rfl
  | reply t =>
      obtain rfl := Except.ok.inj hok
      exact .front _ rfl rfl _ rfl
  | timeout t =>
      obtain rfl := Except.ok.inj hok
      exact .front _ rfl rfl _ rfl
  | serve t unpacks roundStartMs durationMs =>
      unfold System.step System.serve at hok
      cases hout : s.cluster.outbox with
      | cons o out =>
          simp only [hout] at hok
          obtain rfl := Except.ok.inj hok
          exact .waits rfl
      | nil =>
          simp only [hout] at hok
          cases hserve : s.submission.serve cfg crypto t unpacks roundStartMs durationMs with
          | error e =>
              rw [hserve] at hok
              cases hok
          | ok submission =>
              rw [hserve] at hok
              obtain rfl := Except.ok.inj hok
              have hstep : s.submission.step cfg crypto (.serve t unpacks roundStartMs durationMs) =
                  .ok submission := hserve
              exact .takes _ rfl rfl hout submission hstep _
  | other a =>
      unfold System.step System.other at hok
      cases hout : s.cluster.outbox with
      | cons o out =>
          simp only [hout] at hok
          obtain rfl := Except.ok.inj hok
          exact .waits rfl
      | nil =>
          simp only [hout] at hok
          cases hreceive : receive cfg crypto s.submission.receiver a with
          | error e =>
              rw [hreceive] at hok
              cases hok
          | ok p =>
              rcases p with ⟨receiver, reply⟩
              rw [hreceive] at hok
              obtain rfl := Except.ok.inj hok
              have hstep : s.submission.step cfg crypto (.other a) =
                  .ok { s.submission with receiver := receiver } := by
                unfold Submission.step receiverStep
                simp only [hreceive, Run.ok_bind]
              exact .takes _ rfl rfl hout _ hstep _
  | push =>
      obtain rfl := Except.ok.inj hok
      exact .back _ rfl rfl _ rfl
  | leader drop source schedule =>
      rcases Run.bind_eq_ok hok with ⟨cluster, hstep, hok⟩
      obtain rfl := Except.ok.inj hok
      exact .back (.leader drop source schedule) rfl rfl cluster hstep
  | follower i schedule =>
      rcases Run.bind_eq_ok hok with ⟨cluster, hstep, hok⟩
      obtain rfl := Except.ok.inj hok
      exact .back _ rfl rfl cluster hstep

/-! ## Every step is a step of the parts -/

structure SystemInv (cfg : Config) (crypto : Crypto) (s : System) : Prop where
  submission : SubmissionInv cfg crypto s.submission
  cluster : ClusterInv crypto cfg.numShards s.cluster
  shared : s.cluster.dispatcher = s.submission.receiver.core
  /-- The clients were told of as many transactions as the pool took. -/
  told : (s.replies.map Reply.accepted).sum = s.cluster.dispatcher.admitted.length

/-- What a step or a run is for the parts. -/
structure PartsReach (cfg : Config) (crypto : Crypto) (s s' : System) : Prop where
  receiver : Run.Reaches (receiverStep cfg crypto) s.submission.receiver s'.submission.receiver
  submission : Run.Reaches (Submission.step cfg crypto) s.submission s'.submission
  cluster : Run.Reaches (Cluster.step crypto cfg.numShards) s.cluster s'.cluster

theorem PartsReach.refl (cfg : Config) (crypto : Crypto) (s : System) : PartsReach cfg crypto s s :=
  ⟨Run.Reaches.refl _, Run.Reaches.refl _, Run.Reaches.refl _⟩

theorem PartsReach.trans {cfg : Config} {crypto : Crypto} {s t u : System}
    (h₁ : PartsReach cfg crypto s t) (h₂ : PartsReach cfg crypto t u) : PartsReach cfg crypto s u :=
  ⟨h₁.receiver.trans h₂.receiver, h₁.submission.trans h₂.submission, h₁.cluster.trans h₂.cluster⟩

theorem sendBatch_receiver (s : Submission) (t : Nat) (batch : TxBatch) :
    (s.sendBatch t batch).receiver = s.receiver := by
  unfold Submission.sendBatch
  dsimp only
  split <;> rfl

theorem recvReply_receiver (s : Submission) (t : Nat) : (s.recvReply t).receiver = s.receiver := by
  unfold Submission.recvReply
  split <;> rfl

theorem recvTimeout_receiver (s : Submission) (t : Nat) :
    (s.recvTimeout t).receiver = s.receiver := by
  unfold Submission.recvTimeout
  split <;> rfl

theorem recvReply_inv {cfg : Config} {crypto : Crypto} {s : Submission}
    (hinv : SubmissionInv cfg crypto s) (t : Nat) : SubmissionInv cfg crypto (s.recvReply t) := by
  unfold Submission.recvReply
  split
  · rename_i req id resp hcurrent hsock
    exact finish_inv hinv hcurrent (Or.inl rfl) _
  · exact hinv

theorem recvTimeout_inv {cfg : Config} {crypto : Crypto} {s : Submission}
    (hinv : SubmissionInv cfg crypto s) (t : Nat) : SubmissionInv cfg crypto (s.recvTimeout t) := by
  unfold Submission.recvTimeout
  split
  · rename_i req hcurrent
    exact finish_inv hinv hcurrent (Or.inr rfl) _
  · exact hinv

theorem handled_of_receive {cfg : Config} {crypto : Crypto} {r r' : Receiver} {a : Arrival}
    {reply : Reply} (hinv : ReceiverInv cfg r) (hok : receive cfg crypto r a = .ok (r', reply)) :
    Handled cfg crypto r a r' reply := by
  rcases receive_ok hinv crypto a with ⟨r'', reply', hok', -, hhandled⟩
  obtain ⟨rfl, rfl⟩ := Prod.mk.inj (Except.ok.inj (hok.symm.trans hok'))
  exact hhandled

/-- The reply to a message says how many of its transactions the pool took. -/
theorem Handled.told {cfg : Config} {crypto : Crypto} {r r' : Receiver} {a : Arrival}
    {reply : Reply} (h : Handled cfg crypto r a r' reply) :
    reply.accepted + r.core.admitted.length = r'.core.admitted.length := by
  have hbatch : ∀ batch : Option PbBatch,
      (admitBatch crypto cfg.verify r.core batch).2.accepted + r.core.admitted.length =
        (admitBatch crypto cfg.verify r.core batch).1.admitted.length := by
    intro batch
    have hcount := admitAll_admitted crypto cfg.verify (Incoming.txs (.batch batch)) (r.core, ⟨0, 0⟩)
    rw [← admitBatch_eq] at hcount
    simp only at hcount
    omega
  cases h with
  | unknown hin => exact Nat.zero_add _
  | waits batch hin r' hcore hcount =>
      rw [hcore]
      exact hbatch batch
  | dispatches batch hin r' hcount hdispatch =>
      rw [dispatch_admitted hdispatch]
      exact hbatch batch

section Steps

variable {cfg : Config} {crypto : Crypto} {s : System}

theorem take_self {cluster : Cluster} {core : Dispatcher} (hcore : cluster.dispatcher = core) :
    cluster.take core = cluster := by
  unfold Cluster.take
  rw [← hcore, List.drop_length, List.flatMap_nil, List.append_nil]

/-- The receiver as it is between two messages. -/
theorem SystemInv.receiver (hinv : SystemInv cfg crypto s) (hshards : cfg.numShards ≤ maxShards) :
    ReceiverInv cfg s.submission.receiver :=
  ⟨hinv.submission.receiver.core hshards, hinv.submission.receiver.nodes,
    hinv.submission.receiver.waiting⟩

/-- The receiver takes a message: what that is for the shards. -/
theorem SystemInv.take (hinv : SystemInv cfg crypto s) (hshards : cfg.numShards ≤ maxShards)
    (hout : s.cluster.outbox = []) {receiver : Receiver} {a : Arrival} {reply : Reply}
    (h : Handled cfg crypto s.submission.receiver a receiver reply) :
    ClusterInv crypto cfg.numShards (s.cluster.take receiver.core) ∧
      Run.Reaches (Cluster.step crypto cfg.numShards) s.cluster (s.cluster.take receiver.core) := by
  have hreaches := take_reaches h hinv.shared hout
  refine ⟨?_, hreaches⟩
  rcases hreaches with ⟨labels, hrun⟩
  exact Run.run_preserves (ClusterInv crypto cfg.numShards) (fun t label t' ht hok => by
    rcases clusterStep_inv cfg.numShards_pos hshards t label ht with ⟨t'', hok', ht'⟩
    obtain rfl := Except.ok.inj (hok.symm.trans hok')
    exact ht') labels _ _ hinv.cluster hrun

/-- A step of a thread, or of the shards. -/
theorem SystemInv.front (hinv : SystemInv cfg crypto s) {submission : Submission}
    (hsub : SubmissionInv cfg crypto submission)
    (hreceiver : submission.receiver = s.submission.receiver)
    (hreach : Run.Reaches (Submission.step cfg crypto) s.submission submission) :
    SystemInv cfg crypto { s with submission := submission } ∧
      PartsReach cfg crypto s { s with submission := submission } := by
  refine ⟨⟨hsub, hinv.cluster, ?_, hinv.told⟩, ?_, hreach, Run.Reaches.refl _⟩
  · show s.cluster.dispatcher = submission.receiver.core
    rw [hreceiver]
    exact hinv.shared
  · show Run.Reaches _ _ submission.receiver
    rw [hreceiver]
    exact Run.Reaches.refl _

theorem SystemInv.back (hinv : SystemInv cfg crypto s) (hshards : cfg.numShards ≤ maxShards)
    (label : Cluster.Label)
    (hdispatcher : ∀ {t t' : Cluster}, t.step crypto cfg.numShards label = .ok t' →
      t'.dispatcher = t.dispatcher) :
    ∃ cluster, s.cluster.step crypto cfg.numShards label = .ok cluster ∧
      SystemInv cfg crypto { s with cluster := cluster } ∧
      PartsReach cfg crypto s { s with cluster := cluster } := by
  rcases clusterStep_inv cfg.numShards_pos hshards s.cluster label hinv.cluster with
    ⟨cluster, hok, hcluster⟩
  have hsame := hdispatcher hok
  refine ⟨cluster, hok, ⟨hinv.submission, hcluster, ?_, ?_⟩, Run.Reaches.refl _, Run.Reaches.refl _,
    Run.Reaches.single hok⟩
  · show cluster.dispatcher = _
    rw [hsame]
    exact hinv.shared
  · show _ = cluster.dispatcher.admitted.length
    rw [hsame]
    exact hinv.told

theorem serve_system (hinv : SystemInv cfg crypto s) (hshards : cfg.numShards ≤ maxShards) (t : Nat)
    (unpacks : Bool) (roundStartMs durationMs : UInt64) :
    ∃ s', s.serve cfg crypto t unpacks roundStartMs durationMs = .ok s' ∧
      SystemInv cfg crypto s' ∧ PartsReach cfg crypto s s' := by
  unfold System.serve
  cases hout : s.cluster.outbox with
  | cons o out => exact ⟨s, rfl, hinv, PartsReach.refl cfg crypto s⟩
  | nil =>
      by_cases hawait : ∃ req, (s.submission.threads t).sock = .awaiting req
      · rcases hawait with ⟨req, hsock⟩
        rcases receive_ok (hinv.receiver hshards) crypto
          ⟨req.incoming unpacks, roundStartMs, durationMs⟩ with
          ⟨receiver, reply, hok, hreceiver, hhandled⟩
        have hserve : s.submission.serve cfg crypto t unpacks roundStartMs durationMs =
            .ok { s.submission.setThread t { s.submission.threads t with
                sock := .replied req.id reply.text } with
              receiver := receiver
              served := s.submission.served ++
                [s.submission.record req (req.incoming unpacks) receiver reply] } := by
          rw [serve_eq cfg crypto hsock, hok]
          rfl
        have hstep : s.submission.step cfg crypto (.serve t unpacks roundStartMs durationMs) = _ :=
          hserve
        have hshape : ReceiverShape cfg receiver :=
          ⟨hreceiver.nodes, hreceiver.waiting, fun _ => hreceiver.core,
            fun hbig => absurd hshards hbig⟩
        have hv : ServedOk cfg crypto
            (s.submission.record req (req.incoming unpacks) receiver reply) :=
          receive_served rfl hok req.id
        rcases hinv.take hshards hout hhandled with ⟨hcluster, hreaches⟩
        have htold := hhandled.told
        rw [hserve]
        refine ⟨_, rfl, ⟨serve_inv hinv.submission hsock hshape rfl hv, hcluster, rfl, ?_⟩, ?_,
          Run.Reaches.single hstep, hreaches⟩
        · show ((s.replies ++ ((s.submission.served ++ _).drop _).map Served.reply).map
            Reply.accepted).sum = receiver.core.admitted.length
          have hbefore := hinv.told
          rw [hinv.shared] at hbefore
          rw [List.drop_left, List.map_append, List.sum_append, hbefore]
          simp only [List.map_cons, List.map_nil, List.sum_cons, List.sum_nil, Submission.record]
          omega
        · have hreceive : receiverStep cfg crypto s.submission.receiver
              ⟨req.incoming unpacks, roundStartMs, durationMs⟩ = .ok receiver := by
            rw [receiverStep, hok]
            rfl
          exact Run.Reaches.single hreceive
      · have hidle : ∀ req, (s.submission.threads t).sock ≠ .awaiting req :=
          fun req h => hawait ⟨req, h⟩
        rw [serve_idle cfg crypto hidle]
        refine ⟨s, ?_, hinv, PartsReach.refl cfg crypto s⟩
        simp only [take_self hinv.shared, List.drop_length, List.map_nil, List.append_nil]

theorem other_system (hinv : SystemInv cfg crypto s) (hshards : cfg.numShards ≤ maxShards)
    (a : Arrival) :
    ∃ s', s.other cfg crypto a = .ok s' ∧ SystemInv cfg crypto s' ∧ PartsReach cfg crypto s s' := by
  unfold System.other
  cases hout : s.cluster.outbox with
  | cons o out => exact ⟨s, rfl, hinv, PartsReach.refl cfg crypto s⟩
  | nil =>
      rcases receive_ok (hinv.receiver hshards) crypto a with
        ⟨receiver, reply, hok, hreceiver, hhandled⟩
      have hreceive : receiverStep cfg crypto s.submission.receiver a = .ok receiver := by
        rw [receiverStep, hok]
        rfl
      have hstep : s.submission.step cfg crypto (.other a) =
          .ok { s.submission with receiver := receiver } := by
        unfold Submission.step
        simp only [hreceive, Run.ok_bind]
      have hshape : ReceiverShape cfg receiver :=
        ⟨hreceiver.nodes, hreceiver.waiting, fun _ => hreceiver.core,
          fun hbig => absurd hshards hbig⟩
      rcases hinv.take hshards hout hhandled with ⟨hcluster, hreaches⟩
      have htold := hhandled.told
      have hbefore := hinv.told
      rw [hinv.shared] at hbefore
      simp only [hok]
      refine ⟨_, rfl, ⟨⟨hshape, hinv.submission.threads, hinv.submission.served,
        hinv.submission.once⟩, hcluster, rfl, ?_⟩, Run.Reaches.single hreceive,
        Run.Reaches.single hstep, hreaches⟩
      show ((s.replies ++ [reply]).map Reply.accepted).sum = receiver.core.admitted.length
      rw [List.map_append, List.sum_append, hbefore]
      simp only [List.map_cons, List.map_nil, List.sum_cons, List.sum_nil]
      omega

/-- A step of the whole system is taken, and is at most one step of the receiver, one
of the submission, and a run of the cluster. -/
theorem systemStep_inv (hshards : cfg.numShards ≤ maxShards) (s : System) (label : System.Label)
    (hinv : SystemInv cfg crypto s) :
    ∃ s', s.step cfg crypto label = .ok s' ∧ SystemInv cfg crypto s' ∧ PartsReach cfg crypto s s' := by
  cases label with
  | send t batch =>
      have hstep : s.submission.step cfg crypto (.send t batch) = .ok _ := rfl
      rcases hinv.front (send_inv hinv.submission t batch) (sendBatch_receiver s.submission t batch)
        (Run.Reaches.single hstep) with ⟨hinv', hreach⟩
      exact ⟨_, rfl, hinv', hreach⟩
  | reply t =>
      have hstep : s.submission.step cfg crypto (.reply t) = .ok _ := rfl
      rcases hinv.front (recvReply_inv hinv.submission t) (recvReply_receiver s.submission t)
        (Run.Reaches.single hstep) with ⟨hinv', hreach⟩
      exact ⟨_, rfl, hinv', hreach⟩
  | timeout t =>
      have hstep : s.submission.step cfg crypto (.timeout t) = .ok _ := rfl
      rcases hinv.front (recvTimeout_inv hinv.submission t) (recvTimeout_receiver s.submission t)
        (Run.Reaches.single hstep) with ⟨hinv', hreach⟩
      exact ⟨_, rfl, hinv', hreach⟩
  | serve t unpacks roundStartMs durationMs =>
      exact serve_system hinv hshards t unpacks roundStartMs durationMs
  | other a => exact other_system hinv hshards a
  | push =>
      have hsame : ∀ {t t' : Cluster}, t.step crypto cfg.numShards .send = .ok t' →
          t'.dispatcher = t.dispatcher := by
        intro t t' hok
        obtain rfl := Except.ok.inj hok
        exact (send_frame t).1
      rcases hinv.back hshards .send hsame with ⟨cluster, hok, hinv', hreach⟩
      obtain rfl : s.cluster.send = cluster := Except.ok.inj hok
      exact ⟨_, rfl, hinv', hreach⟩
  | leader drop source schedule =>
      rcases hinv.back hshards (.leader drop source schedule)
        (leaderStep_dispatcher drop source schedule) with ⟨cluster, hok, hinv', hreach⟩
      have hleader : s.cluster.leaderStep crypto cfg.numShards drop source schedule = .ok cluster := hok
      refine ⟨_, ?_, hinv', hreach⟩
      unfold System.step
      simp only [hleader, Run.ok_bind]
  | follower i schedule =>
      rcases hinv.back hshards (.follower i schedule) (followerStep_dispatcher i schedule) with
        ⟨cluster, hok, hinv', hreach⟩
      refine ⟨_, ?_, hinv', hreach⟩
      unfold System.step
      simp only [hok, Run.ok_bind]

end Steps

theorem start_system {cfg : Config} (crypto : Crypto) (hshards : cfg.numShards ≤ maxShards)
    (rand : Rand) :
    ∃ r, receiverInit cfg rand = .ok r ∧ SystemInv cfg crypto (System.start cfg r) := by
  rcases receiverInit_shape cfg rand with ⟨r, hinit, hcore, hshape⟩
  refine ⟨r, hinit, start_inv crypto hshape, ?_, hcore.symm, rfl⟩
  exact clusterCreate_inv crypto mempoolMaxSize cfg.numShards_pos hshards

theorem system_run {cfg : Config} (crypto : Crypto) (hshards : cfg.numShards ≤ maxShards)
    (rand : Rand) (labels : List System.Label) :
    ∃ r s, receiverInit cfg rand = .ok r ∧
      Run.run (System.step cfg crypto) (System.start cfg r) labels = .ok s ∧
      SystemInv cfg crypto s ∧ PartsReach cfg crypto (System.start cfg r) s := by
  rcases start_system crypto hshards rand with ⟨r, hinit, hstart⟩
  rcases Run.run_steps (SystemInv cfg crypto) (PartsReach cfg crypto) (PartsReach.refl cfg crypto)
    (fun _ _ _ => PartsReach.trans) (fun s label => systemStep_inv hshards s label) labels _ hstart
    with ⟨s, hrun, hinv, hreach⟩
  exact ⟨r, s, hinit, hrun, hinv, hreach⟩

/-- In any interleaving of everybody, nothing faults, and each part moves as it does
alone: the receiver as the receive loop on some messages, threads and receiver as a
submission, assigner, leader and followers as a cluster, whose pool and assigner are
the receiver's. -/
theorem system_refines (cfg : Config) (hshards : cfg.numShards ≤ maxShards) (crypto : Crypto)
    (rand : Rand) (labels : List System.Label) :
    ∃ r s, receiverInit cfg rand = .ok r ∧
      Run.run (System.step cfg crypto) (System.start cfg r) labels = .ok s ∧
      Run.Reaches (receiverStep cfg crypto) r s.submission.receiver ∧
      Run.Reaches (Submission.step cfg crypto) (Submission.start r) s.submission ∧
      Run.Reaches (Cluster.step crypto cfg.numShards)
        (Cluster.create mempoolMaxSize cfg.numShards) s.cluster ∧
      s.cluster.dispatcher = s.submission.receiver.core := by
  rcases system_run crypto hshards rand labels with ⟨r, s, hinit, hrun, hinv, hreach⟩
  exact ⟨r, s, hinit, hrun, hreach.receiver, hreach.submission, hreach.cluster, hinv.shared⟩

theorem one_fits_int : 1 < 2 ^ 31 := by decide

/-- One shard, and a round for every transaction. -/
def soloConfig : Config := ⟨1, 1, false, Nat.one_pos, by decide, Nat.one_pos, one_fits_int⟩

/-- A thread submits a transaction and has its reply; the round goes to the leader,
which assembles its block. -/
def soloRound : List System.Label :=
  [.send 0 oneTx, .serve 0 true 0 0] ++ List.replicate 4 .push ++ [.reply 0] ++
    List.replicate 7 (.leader (fun _ => false) 0 Schedule.sequential)

theorem system_refines_solo :
    ∃ r s, receiverInit soloConfig ⟨fun _ => 0, 0⟩ = .ok r ∧
      Run.run (System.step soloConfig Crypto.rejecting) (System.start soloConfig r) soloRound =
        .ok s ∧
      Run.Reaches (receiverStep soloConfig Crypto.rejecting) r s.submission.receiver ∧
      Run.Reaches (Submission.step soloConfig Crypto.rejecting) (Submission.start r) s.submission ∧
      Run.Reaches (Cluster.step Crypto.rejecting soloConfig.numShards)
        (Cluster.create mempoolMaxSize soloConfig.numShards) s.cluster ∧
      s.cluster.dispatcher = s.submission.receiver.core :=
  system_refines soloConfig (by decide) Crypto.rejecting ⟨fun _ => 0, 0⟩ soloRound

/-! ## Where the transactions are -/

/-- How many transactions the blocks count. -/
def Cluster.finalised (s : Cluster) : Nat :=
  (s.blocks.map fun b => b.block.totalTxCount.toNat).sum

/-- How many are in rounds without a block. -/
def Cluster.inFlight (s : Cluster) : Nat :=
  ((s.dispatcher.rounds.drop s.blocks.length).map fun round =>
    (sentEntries round.pushes).length).sum

theorem sentEntries_round {numShards k : Nat} {round : Dispatch} (hround : RoundOk numShards k round) :
    sentEntries round.pushes = round.drained := by
  rcases hround with ⟨roundStartMs, hpushes⟩
  rw [hpushes, sentEntries_pushesOf]

/-- The blocks count what was drained in their rounds. -/
theorem finalised_eq {crypto : Crypto} {numShards : Nat} {s : Cluster}
    (hinv : ClusterInv crypto numShards s) (hpos : 0 < numShards) :
    s.finalised = ((s.dispatcher.rounds.take s.blocks.length).map fun round =>
      (sentEntries round.pushes).length).sum := by
  have hlen : s.blocks.length ≤ s.dispatcher.rounds.length := by
    rcases Nat.eq_zero_or_pos s.blocks.length with hzero | hsome
    · omega
    · have hlast := (hinv.blocks (s.blocks.length - 1) (by omega)).lt
      omega
  unfold Cluster.finalised
  congr 1
  apply List.ext_getElem
  · rw [List.length_map, List.length_map, List.length_take]
    omega
  · intro r hr _
    rw [List.length_map] at hr
    have hblock := hinv.blocks r hr
    have hagrees := agrees_of_blockOk hpos hinv.core hblock hblock.lt
      (headersOf_round (hinv.core.rounds r hblock.lt)).2
    rw [List.getElem_map, List.getElem_map, List.getElem_take]
    exact hagrees.totalTxCount

/-- What the clients were told was accepted, over all replies, is in a block, or in a
round that has no block yet, or in the pool, each transaction once; nothing is
missing exactly if no dispatch left anything behind. -/
theorem accepted_accounted (cfg : Config) (hshards : cfg.numShards ≤ maxShards) (crypto : Crypto)
    (rand : Rand) (labels : List System.Label) :
    ∃ r s, receiverInit cfg rand = .ok r ∧
      Run.run (System.step cfg crypto) (System.start cfg r) labels = .ok s ∧
      s.cluster.finalised + s.cluster.inFlight + s.submission.receiver.core.pool.count ≤
        (s.replies.map Reply.accepted).sum ∧
      (s.cluster.finalised + s.cluster.inFlight + s.submission.receiver.core.pool.count =
        (s.replies.map Reply.accepted).sum ↔ Kept cfg.numShards s.submission.receiver.core) := by
  rcases system_run crypto hshards rand labels with ⟨r, s, hinit, hrun, hinv, -⟩
  refine ⟨r, s, hinit, hrun, ?_⟩
  have hcore := hinv.cluster.core
  have hsent : s.cluster.finalised + s.cluster.inFlight = s.cluster.dispatcher.sent.length := by
    rw [finalised_eq hinv.cluster cfg.numShards_pos, Cluster.inFlight, ← List.sum_append,
      ← List.map_append, List.take_append_drop, Dispatcher.sent, List.length_flatMap]
    refine congrArg List.sum (List.map_congr_left ?_)
    intro round hround
    rcases List.getElem_of_mem hround with ⟨k, hk, rfl⟩
    rw [sentEntries_round (hcore.rounds k hk)]
  rw [hsent, hinv.told, ← hinv.shared]
  constructor
  · have hle := hcore.accounted.length_le
    rw [List.length_append] at hle
    rw [s.cluster.dispatcher.pool.count_eq]
    exact hle
  · exact (kept_iff_accounted hcore).symm

theorem accepted_accounted_solo :
    ∃ r s, receiverInit soloConfig ⟨fun _ => 0, 0⟩ = .ok r ∧
      Run.run (System.step soloConfig Crypto.rejecting) (System.start soloConfig r) soloRound =
        .ok s ∧
      s.cluster.finalised + s.cluster.inFlight + s.submission.receiver.core.pool.count ≤
        (s.replies.map Reply.accepted).sum ∧
      (s.cluster.finalised + s.cluster.inFlight + s.submission.receiver.core.pool.count =
        (s.replies.map Reply.accepted).sum ↔
          Kept soloConfig.numShards s.submission.receiver.core) :=
  accepted_accounted soloConfig (by decide) Crypto.rejecting ⟨fun _ => 0, 0⟩ soloRound

example : (receiverInit soloConfig ⟨fun _ => 0, 0⟩).toOption.bind (fun r =>
    (Run.run (System.step soloConfig Crypto.rejecting) (System.start soloConfig r)
      soloRound).toOption.map fun s => (s.cluster.finalised, s.cluster.inFlight)) =
    some (1, 0) := by decide +kernel

end Sharding
