import Sharding.Custody

/-! # Generator threads against the receiver

Every thread of the generator has a REQ socket to the receiver's REP socket. It
sends a batch, waits up to 30 seconds for a reply and adds the size of the batch
to its count if the reply begins with `OK`. The result of `zmq_send` is not looked
at: while a reply is outstanding a send fails and sends nothing, and the next
receive returns the outstanding reply. The machine below takes one socket
operation in a step, in any order; the history says what the receiver took of
each batch and what its thread counted for it.
-/

namespace Sharding

/-! ## The threads -/

/-- The transactions of an iteration that has some to send. -/
structure TxBatch where
  rawTxs : List Transaction
  publicKey : PublicKey
  nonempty : 1 ≤ rawTxs.length
  length_le : rawTxs.length ≤ 256

/-- A batch by the thread that handles it, and how many that thread had before. -/
structure BatchId where
  thread : Nat
  index : Nat
deriving DecidableEq

structure Request where
  id : BatchId
  batch : TxBatch

/-- What is outstanding on a REQ socket: nothing, a request the receiver has not
taken yet, or the reply to a request, which may still be on its way. -/
inductive ReqSocket where
  | ready
  | awaiting (req : Request)
  | replied (id : BatchId) (resp : List Char)

/-- `zmq_send` on the socket: while something is outstanding it fails. -/
def ReqSocket.send (req : Request) : ReqSocket → ReqSocket
  | .ready => .awaiting req
  | sock => sock

structure GenThread where
  sock : ReqSocket
  threadSubmitted : Nat
  /-- How many batches the thread has begun. -/
  begun : Nat
  /-- The batch whose `zmq_recv` has not returned yet. -/
  current : Option Request

/-- The text of a reply. -/
def Reply.text : Reply → List Char
  | .ok tally =>
      ['O', 'K', ':'] ++ Nat.toDigits 10 tally.accepted ++ ['|'] ++ Nat.toDigits 10 tally.rejected
  | .unknown => ['U', 'N', 'K', 'N', 'O', 'W', 'N']

/-- `sz > 0` and `strncmp(resp, "OK", 2) == 0` -/
def repliedOk (resp : List Char) : Bool := 0 < resp.length && resp.take 2 == ['O', 'K']

/-! ## The machine -/

/-- What the receiver made of a batch it took. -/
structure Served where
  id : BatchId
  incoming : Incoming
  /-- The room in the pool before. -/
  room : Nat
  /-- How often `mempool_add` returned 1. -/
  admitted : Nat
  reply : Reply

/-- What a thread added to `thread_submitted` while it handled a batch. -/
structure Outcome where
  id : BatchId
  added : Nat

structure Submission where
  receiver : Receiver
  threads : Nat → GenThread
  served : List Served
  outcomes : List Outcome

/-- The room in the pool. -/
def room (r : Receiver) : Nat := r.core.pool.capacity - r.core.pool.count

/-- What unpacking makes of a batch, if it succeeds. -/
def Incoming.unpacked (succeeds : Bool) : Incoming → Incoming
  | .batch b => .batch (if succeeds then b else none)
  | .unknown => .unknown

namespace Submission

def start (r : Receiver) : Submission where
  receiver := r
  threads _ := ⟨.ready, 0, 0, none⟩
  served := []
  outcomes := []

def setThread (s : Submission) (t : Nat) (th : GenThread) : Submission :=
  { s with threads := Function.update s.threads t th }

/-- Thread `t` reaches `zmq_send` with its next batch. -/
def sendBatch (s : Submission) (t : Nat) (batch : TxBatch) : Submission :=
  let th := s.threads t
  match th.current with
  | some _ => s
  | none =>
      let req : Request := ⟨⟨t, th.begun⟩, batch⟩
      s.setThread t
        { th with sock := th.sock.send req, begun := th.begun + 1, current := some req }

/-- Thread `t` is done with its batch. -/
def finish (s : Submission) (t : Nat) (req : Request) (sock : ReqSocket) (added : Nat) :
    Submission :=
  let th := s.threads t
  let th := { th with
    sock := sock
    threadSubmitted := th.threadSubmitted + added
    current := none }
  { s.setThread t th with outcomes := s.outcomes ++ [⟨req.id, added⟩] }

/-- `zmq_recv` of thread `t` returns a reply. -/
def recvReply (s : Submission) (t : Nat) : Submission :=
  match (s.threads t).current, (s.threads t).sock with
  | some req, .replied _ resp =>
      s.finish t req .ready (if repliedOk resp then req.batch.rawTxs.length else 0)
  | _, _ => s

/-- `zmq_recv` of thread `t` returns -1 after 30 seconds. -/
def recvTimeout (s : Submission) (t : Nat) : Submission :=
  match (s.threads t).current with
  | some req => s.finish t req (s.threads t).sock 0
  | none => s

/-- What is to be remembered of a request the receiver took. -/
def record (s : Submission) (req : Request) (incoming : Incoming) (receiver : Receiver)
    (reply : Reply) : Served where
  id := req.id
  incoming := incoming
  room := room s.receiver
  admitted := receiver.core.admitted.length - s.receiver.core.admitted.length
  reply := reply

/-- The receiver takes the request of thread `t` and replies. -/
def serve (cfg : Config) (crypto : Crypto) (s : Submission) (t : Nat) (unpacks : Bool)
    (roundStartMs durationMs : UInt64) : Except Fault Submission :=
  match (s.threads t).sock with
  | .awaiting req => do
      let incoming ← parseMessage (batchMessage req.batch.rawTxs req.batch.publicKey)
      let incoming := incoming.unpacked unpacks
      let (receiver, reply) ← receive cfg crypto s.receiver ⟨incoming, roundStartMs, durationMs⟩
      .ok { s.setThread t { s.threads t with sock := .replied req.id reply.text } with
        receiver := receiver
        served := s.served ++ [s.record req incoming receiver reply] }
  | _ => .ok s

/-- Who moves; whether unpacking succeeds, and the messages of other clients, are
not determined. -/
inductive Label where
  | send (t : Nat) (batch : TxBatch)
  | serve (t : Nat) (unpacks : Bool) (roundStartMs durationMs : UInt64)
  | reply (t : Nat)
  | timeout (t : Nat)
  | other (a : Arrival)

def step (cfg : Config) (crypto : Crypto) (s : Submission) : Label → Except Fault Submission
  | .send t batch => .ok (s.sendBatch t batch)
  | .serve t unpacks roundStartMs durationMs =>
      s.serve cfg crypto t unpacks roundStartMs durationMs
  | .reply t => .ok (s.recvReply t)
  | .timeout t => .ok (s.recvTimeout t)
  | .other a => do
      let receiver ← receiverStep cfg crypto s.receiver a
      .ok { s with receiver := receiver }

end Submission

/-! ## Counts -/

/-- How many transactions of batch `id` the pool took. -/
def admittedOf (served : List Served) (id : BatchId) : Nat :=
  (served.map fun v => if v.id = id then v.admitted else 0).sum

/-- Both sides count the same, and the reply covers the whole batch. -/
structure CountsAgree (s : Submission) : Prop where
  submitted : ∀ o ∈ s.outcomes, o.added = admittedOf s.served o.id
  replies : ∀ v ∈ s.served, ∀ b tally, v.incoming = .batch (some b) → v.reply = .ok tally →
    tally.accepted + tally.rejected = b.transactions.length

/-- How many transactions of a message the receiver tries to add. -/
def passing (cfg : Config) (crypto : Crypto) (incoming : Incoming) : Nat :=
  incoming.txs.countP (passes crypto cfg.verify)

/-- The receiver survives the message: it has an assigner, or needs none. -/
def Survives (cfg : Config) (crypto : Crypto) (r : Receiver) (a : Arrival) : Prop :=
  cfg.numShards ≤ maxShards ∨ pooled cfg crypto r a < cfg.blockSize

/-- The message of a request as the receiver sees it. -/
def Request.incoming (req : Request) (unpacks : Bool) : Incoming :=
  (Incoming.batch (some (generatorBatch req.batch.rawTxs req.batch.publicKey))).unpacked unpacks

/-- When a step keeps the counts together. -/
def Paired (cfg : Config) (crypto : Crypto) (s : Submission) : Submission.Label → Prop
  | .send _ _ => True
  | .serve t unpacks roundStartMs durationMs => ∀ req, (s.threads t).sock = .awaiting req →
      -- there is room for what passes, and nothing passes once the thread has given up
      passing cfg crypto (req.incoming unpacks) ≤ room s.receiver ∧
      ((s.threads t).current = some req ∨ passing cfg crypto (req.incoming unpacks) = 0) ∧
      Survives cfg crypto s.receiver ⟨req.incoming unpacks, roundStartMs, durationMs⟩
  | .reply t => ∀ req id resp, (s.threads t).current = some req →
      (s.threads t).sock = .replied id resp →
      -- the reply is to this batch, all of which passed
      id = req.id ∧ ∀ v ∈ s.served, v.id = id →
        passing cfg crypto v.incoming = req.batch.rawTxs.length
  | .timeout t => ∀ req, (s.threads t).current = some req →
      -- nothing of this batch passed so far
      ∀ v ∈ s.served, v.id = req.id → passing cfg crypto v.incoming = 0
  | .other a => Survives cfg crypto s.receiver a

/-! ## What the receiver takes of a batch -/

theorem admit_admitted (crypto : Crypto) (verify : Bool) (s : Dispatcher × Tally)
    (pt : PbTransaction) :
    (admitTx crypto verify s pt).1.admitted.length + s.2.accepted =
      s.1.admitted.length + (admitTx crypto verify s pt).2.accepted := by
  rcases s with ⟨core, tally⟩
  cases hpass : passes crypto verify pt with
  | false => rw [admit_rejected hpass]
  | true =>
      rw [admit_passed hpass]
      rcases Nat.lt_or_ge core.pool.count core.pool.capacity with hroom | hfull
      · rcases add_room (pbToTx pt) (some (pubkeyOf pt)) hroom with ⟨pool, hadd, -, -⟩
        rw [hadd]
        simp only [if_true, List.length_append, List.length_singleton]
        omega
      · rw [add_full (pbToTx pt) (some (pubkeyOf pt)) hfull]
        rfl

/-- `accepted` counts the entries the pool took. -/
theorem admitAll_admitted (crypto : Crypto) (verify : Bool) (pts : List PbTransaction) :
    ∀ s, (pts.foldl (admitTx crypto verify) s).1.admitted.length + s.2.accepted =
      s.1.admitted.length + (pts.foldl (admitTx crypto verify) s).2.accepted := by
  induction pts with
  | nil =>
      intro s
      rfl
  | cons pt pts ih =>
      intro s
      have hone := admit_admitted crypto verify s pt
      have hrest := ih (admitTx crypto verify s pt)
      rw [List.foldl_cons]
      omega

theorem dispatch_admitted {d d' : Dispatcher} {roundStartMs durationMs : UInt64} {blockSize : Nat}
    (h : d.dispatch roundStartMs blockSize durationMs = .ok d') : d'.admitted = d.admitted := by
  unfold Dispatcher.dispatch at h
  cases hsa : d.assigner with
  | none =>
      rw [hsa] at h
      cases h
  | some sa =>
      rw [hsa] at h
      rcases Run.bind_eq_ok h with ⟨⟨sa', pool, round⟩, -, hok⟩
      cases hok
      rfl

theorem runElectionAndDispatch_admitted {cfg : Config} {r r' : Receiver}
    {roundStartMs durationMs : UInt64}
    (h : runElectionAndDispatch cfg r roundStartMs durationMs = .ok r') :
    r'.core.admitted = r.core.admitted := by
  unfold runElectionAndDispatch at h
  rcases Run.bind_eq_ok h with ⟨nodes, -, h⟩
  rcases Run.bind_eq_ok h with ⟨winners, -, h⟩
  cases winners with
  | none =>
      cases h
      rfl
  | some el =>
      rcases Run.bind_eq_ok h with ⟨core, hdispatch, h⟩
      cases h
      exact dispatch_admitted hdispatch

/-- What the receiver says about a batch, and what it did. -/
structure ServedOk (cfg : Config) (crypto : Crypto) (v : Served) : Prop where
  batch : ∃ b, v.incoming = .batch b
  admitted : v.admitted = min (passing cfg crypto v.incoming) v.room
  reply : ∃ tally, v.reply = .ok tally ∧ tally.accepted = v.admitted ∧
    tally.rejected + passing cfg crypto v.incoming = v.incoming.txs.length

theorem receive_served {cfg : Config} {crypto : Crypto} {r r' : Receiver} {a : Arrival}
    {batch : Option PbBatch} {reply : Reply} (hin : a.incoming = .batch batch)
    (h : receive cfg crypto r a = .ok (r', reply)) (id : BatchId) :
    ServedOk cfg crypto ⟨id, a.incoming, room r,
      r'.core.admitted.length - r.core.admitted.length, reply⟩ := by
  have hcounted := admitAll_counted crypto cfg.verify a.incoming.txs (r.core, ⟨0, 0⟩)
  have hadmitted := admitAll_admitted crypto cfg.verify a.incoming.txs (r.core, ⟨0, 0⟩)
  rw [hin, ← admitBatch_eq] at hcounted hadmitted
  -- a dispatch changes neither the tally nor the admitted entries
  have hafter : reply = .ok (admitBatch crypto cfg.verify r.core batch).2 ∧
      r'.core.admitted = (admitBatch crypto cfg.verify r.core batch).1.admitted := by
    unfold receive at h
    simp only [hin] at h
    split at h
    · rcases Run.bind_eq_ok h with ⟨r'', hrun, h⟩
      cases h
      exact ⟨rfl, runElectionAndDispatch_admitted hrun⟩
    · cases h
      exact ⟨rfl, rfl⟩
  rcases hafter with ⟨hreply, hcore⟩
  have hle := r.core.pool.count_le
  have hcount := hcounted.count
  have haccepted := hcounted.accepted
  simp only at hcount haccepted hadmitted
  constructor
  · exact ⟨batch, hin⟩
  · show r'.core.admitted.length - r.core.admitted.length =
      min (a.incoming.txs.countP (passes crypto cfg.verify)) (r.core.pool.capacity - r.core.pool.count)
    rw [hcore, hin]
    omega
  · refine ⟨_, hreply, ?_, ?_⟩
    · show _ = r'.core.admitted.length - r.core.admitted.length
      rw [hcore]
      omega
    · show _ + a.incoming.txs.countP (passes crypto cfg.verify) = _
      rw [hin]
      exact hcounted.rejected.trans (Nat.zero_add _)

/-! ## When the receiver survives -/

/-- Between two messages, for any number of shards: beyond `maxShards` there is no
assigner. -/
structure ReceiverShape (cfg : Config) (r : Receiver) : Prop where
  nodes : r.nodes.length = cfg.numShards
  waiting : r.core.pool.count < cfg.blockSize
  core : cfg.numShards ≤ maxShards → DispatcherInv cfg.numShards r.core
  null : ¬ cfg.numShards ≤ maxShards → r.core.assigner = none

theorem receiverInit_shape (cfg : Config) (rand : Rand) :
    ∃ r, receiverInit cfg rand = .ok r ∧
      r.core = Dispatcher.create mempoolMaxSize cfg.numShards ∧ ReceiverShape cfg r := by
  rcases receiverInit_ok cfg rand with ⟨r, hinit, hcore, hnodes⟩
  refine ⟨r, hinit, hcore, hnodes, ?_, ?_, ?_⟩
  · rw [hcore]
    exact cfg.blockSize_pos
  · intro hle
    rw [hcore]
    exact create_inv mempoolMaxSize cfg.numShards_pos hle
  · intro hbig
    have hbad : cfg.numShards = 0 ∨ cfg.numShards > maxShards := by omega
    rw [hcore]
    simp [Dispatcher.create, shardAssignerCreate, hbad]

theorem add_assigner (d : Dispatcher) (tx : Transaction) (pubkey : Option PublicKey) :
    (d.add tx pubkey).2.assigner = d.assigner := by
  unfold Dispatcher.add
  split <;> rfl

theorem admitBatch_assigner (crypto : Crypto) (verify : Bool) {core : Dispatcher}
    (hnull : core.assigner = none) (batch : Option PbBatch) :
    (admitBatch crypto verify core batch).1.assigner = none := by
  rw [admitBatch_eq]
  apply admitAll_induct fun d => d.assigner = none
  · intro d pt _ hd
    rw [add_assigner, hd]
  · exact hnull

/-- Without an assigner the election succeeds and the dispatch does not. -/
theorem runElectionAndDispatch_null (cfg : Config) (r : Receiver)
    (hnull : r.core.assigner = none) (hnodes : r.nodes.length = cfg.numShards)
    (roundStartMs durationMs : UInt64) :
    runElectionAndDispatch cfg r roundStartMs durationMs = .error .nullAssigner := by
  rcases resetNodes_ok hnodes with ⟨nodes, hreset, hlen⟩
  have hpos : 0 < nodes.length := by
    rw [hlen]
    exact cfg.numShards_pos
  rcases electWinners_ok hpos r.rand with ⟨el, helect, -⟩
  rw [hlen] at helect
  have hdispatch : r.core.dispatch roundStartMs cfg.blockSize durationMs =
      .error .nullAssigner := by
    unfold Dispatcher.dispatch
    rw [hnull]
  unfold runElectionAndDispatch
  simp only [hreset, helect, hdispatch, Run.ok_bind]
  rfl

/-- What is in the pool if the message is unknown. -/
theorem pooled_unknown {cfg : Config} {r : Receiver} (crypto : Crypto) {a : Arrival}
    (hin : a.incoming = .unknown) : pooled cfg crypto r a = r.core.pool.count := by
  have hle := r.core.pool.count_le
  rw [pooled, hin]
  show min (r.core.pool.count + 0) r.core.pool.capacity = r.core.pool.count
  omega

/-- Below the block size a message is admitted and nothing else happens. -/
theorem receive_waits {cfg : Config} {crypto : Crypto} {r : Receiver} {a : Arrival}
    (hshape : ReceiverShape cfg r) (hbig : ¬ cfg.numShards ≤ maxShards)
    (hsmall : pooled cfg crypto r a < cfg.blockSize) :
    ∃ r' reply, receive cfg crypto r a = .ok (r', reply) ∧ ReceiverShape cfg r' ∧
      r'.core.pool.count = pooled cfg crypto r a ∧
      r'.core.pool.capacity = r.core.pool.capacity := by
  cases hin : a.incoming with
  | unknown =>
      refine ⟨r, .unknown, ?_, hshape, (pooled_unknown crypto hin).symm, rfl⟩
      unfold receive
      simp only [hin]
  | batch batch =>
      have hcount : (admitBatch crypto cfg.verify r.core batch).1.pool.count =
          pooled cfg crypto r a := admitBatch_count hin
      have hcap := admitBatch_capacity crypto cfg.verify r.core batch
      have hwait : ¬ mempoolSize (admitBatch crypto cfg.verify r.core batch).1.pool ≥
          cfg.blockSize := by
        show ¬ (admitBatch crypto cfg.verify r.core batch).1.pool.count ≥ cfg.blockSize
        omega
      unfold receive
      simp only [hin]
      rw [if_neg hwait]
      refine ⟨_, _, rfl, ⟨hshape.nodes, ?_, fun h => absurd h hbig, fun _ => ?_⟩, hcount, hcap⟩
      · exact Nat.not_le.mp hwait
      · exact admitBatch_assigner crypto cfg.verify (hshape.null hbig) batch

theorem receive_survives {cfg : Config} {crypto : Crypto} {r : Receiver} {a : Arrival}
    (hshape : ReceiverShape cfg r) (hsurvives : Survives cfg crypto r a) :
    ∃ r' reply, receive cfg crypto r a = .ok (r', reply) ∧ ReceiverShape cfg r' := by
  by_cases hle : cfg.numShards ≤ maxShards
  · -- with an assigner nothing can go wrong
    have hinv : ReceiverInv cfg r := ⟨hshape.core hle, hshape.nodes, hshape.waiting⟩
    rcases receive_ok hinv crypto a with ⟨r', reply, hok, hinv', -⟩
    exact ⟨r', reply, hok, hinv'.nodes, hinv'.waiting, fun _ => hinv'.core,
      fun hbig => absurd hle hbig⟩
  · rcases receive_waits hshape hle (hsurvives.resolve_left hle) with ⟨r', reply, hok, hshape', -⟩
    exact ⟨r', reply, hok, hshape'⟩

theorem survives_of_receive {cfg : Config} {crypto : Crypto} {r : Receiver} {a : Arrival}
    (hshape : ReceiverShape cfg r) {res : Receiver × Reply}
    (hok : receive cfg crypto r a = .ok res) : Survives cfg crypto r a := by
  by_cases hle : cfg.numShards ≤ maxShards
  · exact Or.inl hle
  · right
    cases hin : a.incoming with
    | unknown =>
        rw [pooled_unknown crypto hin]
        exact hshape.waiting
    | batch batch =>
        have hcount : (admitBatch crypto cfg.verify r.core batch).1.pool.count =
            pooled cfg crypto r a := admitBatch_count hin
        by_contra hfull
        have hdue : mempoolSize (admitBatch crypto cfg.verify r.core batch).1.pool ≥
            cfg.blockSize := by
          show (admitBatch crypto cfg.verify r.core batch).1.pool.count ≥ cfg.blockSize
          omega
        have hnull := admitBatch_assigner crypto cfg.verify (hshape.null hle) batch
        unfold receive at hok
        simp only [hin] at hok
        rw [if_pos hdue] at hok
        rcases Run.bind_eq_ok hok with ⟨r', hrun, -⟩
        rw [runElectionAndDispatch_null cfg] at hrun
        · cases hrun
        · exact hnull
        · exact hshape.nodes

end Sharding
