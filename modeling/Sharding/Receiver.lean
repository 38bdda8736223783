import Sharding.Dispatcher
import Sharding.Election
import Sharding.Wire

/-! # The receiver

`receiver.c`: the REP socket's loop. A batch is unpacked, its transactions are
checked under `--verify` and added to the pool; once the pool has reached the
block size an election is held and one round dispatched; the reply reports how
many transactions were accepted and rejected. Clock readings come with the
incoming message. Every fault of the parts is a fault of the loop.
-/

namespace Sharding

/-- What the argument loop of the receiver accepts. -/
structure Config where
  numShards : Nat
  blockSize : Nat
  verify : Bool
  numShards_pos : 0 < numShards
  numShards_le : numShards ≤ maxNodes
  blockSize_pos : 0 < blockSize
  blockSize_le : blockSize < 2 ^ 31

/-- The globals of the receiver and `total_received`. -/
structure Receiver where
  core : Dispatcher
  nodes : List Node
  rand : Rand
  totalReceived : UInt64

/-- `accepted` and `rejected` -/
structure Tally where
  accepted : Nat
  rejected : Nat
deriving DecidableEq

/-- A reply: `OK:accepted|rejected`, or `UNKNOWN`. -/
inductive Reply where
  | ok (tally : Tally)
  | unknown
deriving DecidableEq

/-- A message as it arrives, with the clock readings made while it is handled. -/
structure Arrival where
  incoming : Incoming
  roundStartMs : UInt64
  durationMs : UInt64

/-! ## Start-up -/

/-- The body of the loop of `setup_nodes`. -/
def setupNode (s : List Node × Rand) (i : Nat) : Except Fault (List Node × Rand) :=
  let (nodes, rand) := s
  let stake := 100 + rand.next.1 % 900
  if i < maxNodes then .ok (nodes ++ [nodeCreate (UInt32.ofNat i) stake], rand.next.2)
  else .error .nodeIndex

/-- `setup_nodes` -/
def setupNodes (numShards : Nat) (rand : Rand) : Except Fault (List Node × Rand) :=
  Run.run setupNode ([], rand) (List.range numShards)

/-- The state in which the receive loop starts. -/
def receiverInit (cfg : Config) (rand : Rand) : Except Fault Receiver := do
  let (nodes, rand) ← setupNodes cfg.numShards rand
  .ok ⟨Dispatcher.create mempoolMaxSize cfg.numShards, nodes, rand, 0⟩

/-! ## The loop -/

/-- What the election starts from: the node unassigned. -/
def resetNode (node : Node) : Node :=
  { node with shardId := -1, role := .validator, state := .idle }

/-- The loop that resets the nodes. -/
def resetNodes (numShards : Nat) (nodes : List Node) : Except Fault (List Node) :=
  Run.run (fun nodes i => updateAt nodes i resetNode) nodes (List.range numShards)

/-- `run_election_and_dispatch` -/
def runElectionAndDispatch (cfg : Config) (r : Receiver) (roundStartMs durationMs : UInt64) :
    Except Fault Receiver := do
  let nodes ← resetNodes cfg.numShards r.nodes
  let winners ← electWinners nodes cfg.numShards cfg.numShards r.rand
  match winners with
  -- the loop goes on without a round
  | none => .ok { r with nodes := nodes }
  | some el => do
      let core ← r.core.dispatch roundStartMs cfg.blockSize durationMs
      .ok { r with core := core, nodes := el.nodes, rand := el.rand }

/-- The body of the admission loop. -/
def admitTx (crypto : Crypto) (verify : Bool) (s : Dispatcher × Tally) (pt : PbTransaction) :
    Dispatcher × Tally :=
  let (core, tally) := s
  let pubkey := pubkeyOf pt
  let tx := pbToTx pt
  if verify && !checkTx crypto tx pubkey then
    (core, { tally with rejected := tally.rejected + 1 })
  else
    match core.add tx (some pubkey) with
    -- a full pool: the transaction is freed and counted nowhere
    | (false, core) => (core, tally)
    | (true, core) => (core, { tally with accepted := tally.accepted + 1 })

/-- The handling of an unpacked batch, `none` when unpacking failed. -/
def admitBatch (crypto : Crypto) (verify : Bool) (core : Dispatcher) :
    Option PbBatch → Dispatcher × Tally
  | some batch => batch.transactions.foldl (admitTx crypto verify) (core, ⟨0, 0⟩)
  | none => (core, ⟨0, 0⟩)

/-- The body of the receive loop: the state afterwards and the reply. -/
def receive (cfg : Config) (crypto : Crypto) (r : Receiver) (a : Arrival) :
    Except Fault (Receiver × Reply) :=
  match a.incoming with
  | .unknown => .ok (r, .unknown)
  | .batch batch => do
      let (core, tally) := admitBatch crypto cfg.verify r.core batch
      let r := { r with
        core := core
        totalReceived := r.totalReceived + UInt64.ofNat (tally.accepted + tally.rejected) }
      if mempoolSize core.pool ≥ cfg.blockSize then do
        let r ← runElectionAndDispatch cfg r a.roundStartMs a.durationMs
        .ok (r, .ok tally)
      else .ok (r, .ok tally)

/-- The loop as a machine. -/
def receiverStep (cfg : Config) (crypto : Crypto) (r : Receiver) (a : Arrival) :
    Except Fault Receiver := do
  let (r, _) ← receive cfg crypto r a
  .ok r

/-! ## Admission -/

/-- Whether the receiver tries to add the transaction of a message. -/
def passes (crypto : Crypto) (verify : Bool) (pt : PbTransaction) : Bool :=
  !verify || checkTx crypto (pbToTx pt) (pubkeyOf pt)

theorem admit_rejected {crypto : Crypto} {verify : Bool} {pt : PbTransaction}
    (h : passes crypto verify pt = false) (core : Dispatcher) (tally : Tally) :
    admitTx crypto verify (core, tally) pt =
      (core, { tally with rejected := tally.rejected + 1 }) := by
  have hbad : (verify && !checkTx crypto (pbToTx pt) (pubkeyOf pt)) = true := by
    simpa [passes] using h
  simp only [admitTx, hbad, if_true]

theorem admit_passed {crypto : Crypto} {verify : Bool} {pt : PbTransaction}
    (h : passes crypto verify pt = true) (core : Dispatcher) (tally : Tally) :
    admitTx crypto verify (core, tally) pt =
      ((core.add (pbToTx pt) (some (pubkeyOf pt))).2,
        if (core.add (pbToTx pt) (some (pubkeyOf pt))).1
          then { tally with accepted := tally.accepted + 1 } else tally) := by
  have hgood : (verify && !checkTx crypto (pbToTx pt) (pubkeyOf pt)) = false := by
    unfold passes at h
    cases verify <;> simp_all
  simp only [admitTx, hgood, Bool.false_eq_true, if_false]
  rcases core.add (pbToTx pt) (some (pubkeyOf pt)) with ⟨ret, core'⟩
  cases ret <;> rfl

/-- What the addition of each of its passing transactions preserves, a batch preserves. -/
theorem admitAll_induct_mem {crypto : Crypto} {verify : Bool} (P : Dispatcher → Prop)
    (pts : List PbTransaction)
    (hadd : ∀ d, ∀ pt ∈ pts, passes crypto verify pt = true → P d →
      P (d.add (pbToTx pt) (some (pubkeyOf pt))).2) :
    ∀ s : Dispatcher × Tally, P s.1 → P (pts.foldl (admitTx crypto verify) s).1 := by
  induction pts with
  | nil =>
      intro s hs
      exact hs
  | cons pt pts ih =>
      intro s hs
      rw [List.foldl_cons]
      apply ih
      · intro d pt' hpt'
        exact hadd d pt' (List.mem_cons_of_mem pt hpt')
      rcases s with ⟨core, tally⟩
      cases hpass : passes crypto verify pt with
      | false =>
          rw [admit_rejected hpass]
          exact hs
      | true =>
          rw [admit_passed hpass]
          exact hadd core pt List.mem_cons_self hpass hs

/-- The same for what every addition preserves. -/
theorem admitAll_induct {crypto : Crypto} {verify : Bool} (P : Dispatcher → Prop)
    (hadd : ∀ d pt, passes crypto verify pt = true → P d →
      P (d.add (pbToTx pt) (some (pubkeyOf pt))).2) (pts : List PbTransaction)
    (s : Dispatcher × Tally) (hs : P s.1) : P (pts.foldl (admitTx crypto verify) s).1 :=
  admitAll_induct_mem P pts (fun d pt _ => hadd d pt) s hs

/-- What the transactions `pts` do to the pool count and to the two counters. -/
structure Counted (crypto : Crypto) (verify : Bool) (pts : List PbTransaction)
    (s s' : Dispatcher × Tally) : Prop where
  capacity : s'.1.pool.capacity = s.1.pool.capacity
  count : s'.1.pool.count =
    min (s.1.pool.count + pts.countP (passes crypto verify)) s.1.pool.capacity
  accepted : s'.2.accepted + s.1.pool.count = s.2.accepted + s'.1.pool.count
  rejected : s'.2.rejected + pts.countP (passes crypto verify) = s.2.rejected + pts.length

theorem admit_counted (crypto : Crypto) (verify : Bool) (s : Dispatcher × Tally)
    (pt : PbTransaction) : Counted crypto verify [pt] s (admitTx crypto verify s pt) := by
  rcases s with ⟨core, tally⟩
  have hle := core.pool.count_le
  cases hpass : passes crypto verify pt with
  | false =>
      have hnone : [pt].countP (passes crypto verify) = 0 := by simp [hpass]
      rw [admit_rejected hpass]
      refine ⟨rfl, ?_, rfl, ?_⟩
      · rw [hnone]
        show core.pool.count = min (core.pool.count + 0) core.pool.capacity
        omega
      · rw [hnone]
        rfl
  | true =>
      have hone : [pt].countP (passes crypto verify) = 1 := by simp [hpass]
      rw [admit_passed hpass]
      rcases Nat.lt_or_ge core.pool.count core.pool.capacity with hroom | hfull
      · rcases add_room (pbToTx pt) (some (pubkeyOf pt)) hroom with ⟨pool, hadd, hheld, hcap⟩
        have hcount : pool.count = core.pool.count + 1 := by
          rw [pool.count_eq, hheld, List.length_append, List.length_singleton, core.pool.count_eq]
        rw [hadd]
        refine ⟨hcap, ?_, ?_, ?_⟩
        · rw [hone]
          show pool.count = min (core.pool.count + 1) core.pool.capacity
          omega
        · show tally.accepted + 1 + core.pool.count = tally.accepted + pool.count
          omega
        · rw [hone]
          rfl
      · -- dropped by a full pool: neither counter moves
        rw [add_full (pbToTx pt) (some (pubkeyOf pt)) hfull]
        refine ⟨rfl, ?_, rfl, ?_⟩
        · rw [hone]
          show core.pool.count = min (core.pool.count + 1) core.pool.capacity
          omega
        · rw [hone]
          rfl

theorem admitAll_counted (crypto : Crypto) (verify : Bool) (pts : List PbTransaction) :
    ∀ s, Counted crypto verify pts s (pts.foldl (admitTx crypto verify) s) := by
  induction pts with
  | nil =>
      intro s
      have hle := s.1.pool.count_le
      refine ⟨rfl, ?_, rfl, rfl⟩
      show s.1.pool.count = min (s.1.pool.count + 0) s.1.pool.capacity
      omega
  | cons pt pts ih =>
      intro s
      have hone := admit_counted crypto verify s pt
      have hrest := ih (admitTx crypto verify s pt)
      have hsplit : (pt :: pts).countP (passes crypto verify) =
          [pt].countP (passes crypto verify) + pts.countP (passes crypto verify) := by
        rw [← List.countP_append, List.singleton_append]
      rw [List.foldl_cons]
      -- the effects of the first and of the rest add up, up to the capacity
      constructor
      · rw [hrest.capacity, hone.capacity]
      · rw [hrest.count, hone.count, hone.capacity, hsplit]
        omega
      · have h1 := hone.accepted
        have h2 := hrest.accepted
        omega
      · have h1 := hone.rejected
        have h2 := hrest.rejected
        simp only [List.length_cons, List.length_nil] at h1 ⊢
        omega

/-! ## One message -/

/-- The transactions a message brings. -/
def Incoming.txs : Incoming → List PbTransaction
  | .batch (some b) => b.transactions
  | _ => []

theorem admitBatch_eq (crypto : Crypto) (verify : Bool) (core : Dispatcher)
    (batch : Option PbBatch) :
    admitBatch crypto verify core batch =
      (Incoming.txs (.batch batch)).foldl (admitTx crypto verify) (core, ⟨0, 0⟩) := by
  cases batch <;> rfl

theorem admitBatch_capacity (crypto : Crypto) (verify : Bool) (core : Dispatcher)
    (batch : Option PbBatch) :
    (admitBatch crypto verify core batch).1.pool.capacity = core.pool.capacity := by
  rw [admitBatch_eq]
  exact (admitAll_counted crypto verify _ (core, ⟨0, 0⟩)).capacity

/-- Admission dispatches nothing. -/
theorem admitBatch_rounds (crypto : Crypto) (verify : Bool) (core : Dispatcher)
    (batch : Option PbBatch) : (admitBatch crypto verify core batch).1.rounds = core.rounds := by
  rw [admitBatch_eq]
  apply admitAll_induct fun d => d.rounds = core.rounds
  · intro d pt _ hd
    rw [add_rounds, hd]
  · rfl

/-- Between two messages: the parts fit together, and the pool waits for a block. -/
structure ReceiverInv (cfg : Config) (r : Receiver) : Prop where
  core : DispatcherInv cfg.numShards r.core
  nodes : r.nodes.length = cfg.numShards
  waiting : r.core.pool.count < cfg.blockSize

theorem resetNodes_ok {numShards : Nat} {nodes : List Node} (hlen : nodes.length = numShards) :
    ∃ nodes', resetNodes numShards nodes = .ok nodes' ∧ nodes'.length = numShards := by
  apply Run.run_inv_mem fun nodes' : List Node => nodes'.length = numShards
  · intro nodes' i hi hlen'
    have hlt : i < nodes'.length := by
      rw [hlen']
      exact List.mem_range.mp hi
    exact ⟨_, updateAt_ok resetNode hlt, by rw [List.length_modify, hlen']⟩
  · exact hlen

/-- The election finds its winners, so a round is dispatched. -/
theorem runElectionAndDispatch_ok (cfg : Config) (r : Receiver)
    (hcore : DispatcherInv cfg.numShards r.core) (hnodes : r.nodes.length = cfg.numShards)
    (roundStartMs durationMs : UInt64) :
    ∃ r', runElectionAndDispatch cfg r roundStartMs durationMs = .ok r' ∧
      r.core.dispatch roundStartMs cfg.blockSize durationMs = .ok r'.core ∧
      ReceiverInv cfg r' := by
  rcases resetNodes_ok hnodes with ⟨nodes, hreset, hlen⟩
  have hpos : 0 < nodes.length := by
    rw [hlen]
    exact cfg.numShards_pos
  rcases electWinners_ok hpos r.rand with ⟨el, helect, hel⟩
  rw [hlen] at helect hel
  rcases dispatch_ok hcore roundStartMs cfg.blockSize durationMs with
    ⟨core, round, hdispatch, -, -, -, hpool, -, -, hinv⟩
  refine ⟨{ r with core := core, nodes := el.nodes, rand := el.rand }, ?_, hdispatch, hinv, hel, ?_⟩
  · unfold runElectionAndDispatch
    simp only [hreset, helect, hdispatch, Run.ok_bind]
  · show core.pool.count < cfg.blockSize
    rw [hpool]
    exact cfg.blockSize_pos

/-- What handling a message amounts to: nothing for an unknown one; for a batch
admission, and a dispatch once the pool has reached the block size. -/
inductive Handled (cfg : Config) (crypto : Crypto) (r : Receiver) (a : Arrival) :
    Receiver → Reply → Prop where
  | unknown (h : a.incoming = .unknown) : Handled cfg crypto r a r .unknown
  | waits (batch : Option PbBatch) (h : a.incoming = .batch batch) (r' : Receiver)
      (hcore : r'.core = (admitBatch crypto cfg.verify r.core batch).1)
      (hcount : r'.core.pool.count < cfg.blockSize) :
      Handled cfg crypto r a r' (.ok (admitBatch crypto cfg.verify r.core batch).2)
  | dispatches (batch : Option PbBatch) (h : a.incoming = .batch batch) (r' : Receiver)
      (hcount : cfg.blockSize ≤ (admitBatch crypto cfg.verify r.core batch).1.pool.count)
      (hdispatch : (admitBatch crypto cfg.verify r.core batch).1.dispatch a.roundStartMs
        cfg.blockSize a.durationMs = .ok r'.core) :
      Handled cfg crypto r a r' (.ok (admitBatch crypto cfg.verify r.core batch).2)

theorem admitBatch_inv {cfg : Config} {core : Dispatcher} (hinv : DispatcherInv cfg.numShards core)
    (crypto : Crypto) (batch : Option PbBatch) :
    DispatcherInv cfg.numShards (admitBatch crypto cfg.verify core batch).1 := by
  rw [admitBatch_eq]
  apply admitAll_induct (DispatcherInv cfg.numShards)
  · intro d pt _ hd
    exact add_inv hd _ _
  · exact hinv

theorem receive_ok {cfg : Config} {r : Receiver} (hinv : ReceiverInv cfg r) (crypto : Crypto)
    (a : Arrival) :
    ∃ r' reply, receive cfg crypto r a = .ok (r', reply) ∧ ReceiverInv cfg r' ∧
      Handled cfg crypto r a r' reply := by
  unfold receive
  cases hin : a.incoming with
  | unknown => exact ⟨r, .unknown, rfl, hinv, .unknown hin⟩
  | batch batch =>
      have hcore := admitBatch_inv hinv.core crypto batch
      simp only
      by_cases hfull : mempoolSize (admitBatch crypto cfg.verify r.core batch).1.pool ≥ cfg.blockSize
      · rw [if_pos hfull]
        rcases runElectionAndDispatch_ok cfg
          { r with
            core := (admitBatch crypto cfg.verify r.core batch).1
            totalReceived := r.totalReceived +
              UInt64.ofNat ((admitBatch crypto cfg.verify r.core batch).2.accepted +
                (admitBatch crypto cfg.verify r.core batch).2.rejected) }
          hcore hinv.nodes a.roundStartMs a.durationMs with ⟨r', hrun, hdispatch, hinv'⟩
        rw [hrun]
        exact ⟨r', _, rfl, hinv', .dispatches batch hin r' hfull hdispatch⟩
      · -- below the block size: no election
        rw [if_neg hfull]
        have hwait := Nat.not_le.mp hfull
        exact ⟨_, _, rfl, ⟨hcore, hinv.nodes, hwait⟩, .waits batch hin _ rfl hwait⟩

end Sharding
