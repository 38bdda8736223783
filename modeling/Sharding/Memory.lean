import Sharding.Custody
import Sharding.Lib.Arena
import Sharding.Lib.Refine

/-! # Who frees a transaction

The receiver at the level of its pointers: `pb_to_tx` allocates, a rejected or a
surplus transaction is freed at once, the pool keeps the pointer, and a dispatch reads
and frees what it drained. `Ptr` machines hold addresses only; a transaction is what
the arena has there. They serve every run as the machine with the transactions in the
pool does, never touch a freed transaction, and what they lose is what a drain leaves
behind.
-/

namespace Sharding

/-- An access to memory that is not allocated (any more), or a fault of the loop. -/
inductive PtrFault where
  | dangling
  | loop (f : Fault)

/-- A load or a free. -/
def allocated {α : Type} : Option α → Except PtrFault α
  | some a => .ok a
  | none => .error .dangling

/-- `mempool_t`: the pointers and the keys stored alongside. -/
structure PtrPool where
  held : List (Nat × PublicKey)
  capacity : Nat

/-- `mempool_add` -/
def PtrPool.add (pool : PtrPool) (tx : Nat) (pubkey : PublicKey) : Bool × PtrPool :=
  if pool.held.length ≥ pool.capacity then (false, pool)
  else (true, { pool with held := pool.held ++ [(tx, pubkey)] })

/-- `mempool_drain`: what is copied out, and the pool afterwards. -/
def PtrPool.drain (pool : PtrPool) (max : Nat) : List (Nat × PublicKey) × PtrPool :=
  (pool.held.take max, { pool with held := [] })

/-- What one dispatch hands to `zmq_send`: shard and message, and the completion notice. -/
structure Sends where
  pushes : List (Nat × Bytes)
  done : Bytes

/-- The memory of the transactions, the pool and the assigner. -/
structure PtrCore where
  arena : Arena Transaction
  pool : PtrPool
  assigner : Option ShardAssigner
  rounds : List Sends

structure PtrReceiver where
  core : PtrCore
  nodes : List Node
  rand : Rand
  totalReceived : UInt64

/-! ## The loop -/

/-- `valid`: under `--verify` the check reads the transaction. -/
def ptrValid (crypto : Crypto) (verify : Bool) (arena : Arena Transaction) (tx : Nat)
    (pubkey : PublicKey) : Except PtrFault Bool :=
  if verify then (allocated (arena.load tx)).map fun t => checkTx crypto t pubkey else .ok true

/-- The body of the admission loop. -/
def ptrAdmitTx (crypto : Crypto) (verify : Bool) (s : PtrCore × Tally) (pt : PbTransaction) :
    Except PtrFault (PtrCore × Tally) := do
  let (core, tally) := s
  let pubkey := pubkeyOf pt
  let (tx, arena) := core.arena.malloc (pbToTx pt)
  let valid ← ptrValid crypto verify arena tx pubkey
  if !valid then do
    let arena ← allocated (arena.free tx)
    .ok ({ core with arena := arena }, { tally with rejected := tally.rejected + 1 })
  else
    match core.pool.add tx pubkey with
    | (false, pool) => do
        let arena ← allocated (arena.free tx)
        .ok ({ core with arena := arena, pool := pool }, tally)
    | (true, pool) =>
        .ok ({ core with arena := arena, pool := pool },
          { tally with accepted := tally.accepted + 1 })

/-- The handling of an unpacked batch, `none` when unpacking failed. -/
def ptrAdmitBatch (crypto : Crypto) (verify : Bool) (core : PtrCore) :
    Option PbBatch → Except PtrFault (PtrCore × Tally)
  | some batch => Run.run (ptrAdmitTx crypto verify) (core, ⟨0, 0⟩) batch.transactions
  | none => .ok (core, ⟨0, 0⟩)

/-- The routing loop: read the transaction, send it, count it for its shard, free it. -/
def ptrRouteTxs (numShards : Nat) :
    List (Nat × PublicKey) → Vector UInt64 maxShards → Arena Transaction →
      Except PtrFault (List (Nat × Bytes) × Vector UInt64 maxShards × Arena Transaction)
  | [], counts, arena => .ok ([], counts, arena)
  | (tx, pubkey) :: es, counts, arena => do
      let content ← allocated (arena.load tx)
      let shardId ← (shardForTx content numShards).mapError .loop
      if h : shardId < maxShards then
        let counts := counts.set shardId (counts[shardId] + 1)
        let arena ← allocated (arena.free tx)
        let (sends, counts, arena) ← ptrRouteTxs numShards es counts arena
        .ok ((shardId, TxWithPubkey.codec.enc ⟨content, pubkey⟩) :: sends, counts, arena)
      else .error (.loop .shardIndex)

/-- `shard_assigner_dispatch` -/
def ptrDispatch (core : PtrCore) (roundStartMs : UInt64) (blockSize : Nat) (durationMs : UInt64) :
    Except PtrFault PtrCore :=
  match core.assigner with
  | none => .error (.loop .nullAssigner)
  | some sa => do
      let round := sa.roundNumber + 1
      let header := DispatchHeader.mk roundStartMs round (UInt32.ofNat sa.numShards)
      let exact ← (exactSize blockSize sa.numShards).mapError .loop
      let (drained, pool) := core.pool.drain exact
      if drained.length > mempoolMaxSize then .error (.loop .drainBuffer)
      else do
        let (sends, counts, arena) ←
          ptrRouteTxs sa.numShards drained (Vector.replicate maxShards 0) core.arena
        let ends ← (roundEnds round counts (List.range sa.numShards)).mapError .loop
        .ok
          { arena := arena
            pool := pool
            assigner := some { sa with roundNumber := round, assignedCounts := counts }
            rounds := core.rounds ++
              [⟨(0, DispatchHeader.codec.enc header) ::
                  (sends ++ ends.map fun p => (p.shard, p.msg.bytes)),
                DispatchDone.codec.enc ⟨round, durationMs⟩⟩] }

/-- `run_election_and_dispatch` -/
def ptrElectionAndDispatch (cfg : Config) (r : PtrReceiver) (roundStartMs durationMs : UInt64) :
    Except PtrFault PtrReceiver := do
  let nodes ← (resetNodes cfg.numShards r.nodes).mapError .loop
  let winners ← (electWinners nodes cfg.numShards cfg.numShards r.rand).mapError .loop
  match winners with
  | none => .ok { r with nodes := nodes }
  | some el => do
      let core ← ptrDispatch r.core roundStartMs cfg.blockSize durationMs
      .ok { r with core := core, nodes := el.nodes, rand := el.rand }

/-- The body of the receive loop: the state afterwards and the reply. -/
def ptrReceive (cfg : Config) (crypto : Crypto) (r : PtrReceiver) (a : Arrival) :
    Except PtrFault (PtrReceiver × Reply) :=
  match a.incoming with
  | .unknown => .ok (r, .unknown)
  | .batch batch => do
      let (core, tally) ← ptrAdmitBatch crypto cfg.verify r.core batch
      let r := { r with
        core := core
        totalReceived := r.totalReceived + UInt64.ofNat (tally.accepted + tally.rejected) }
      if core.pool.held.length ≥ cfg.blockSize then do
        let r ← ptrElectionAndDispatch cfg r a.roundStartMs a.durationMs
        .ok (r, .ok tally)
      else .ok (r, .ok tally)

/-- The state in which the receive loop starts. -/
def ptrReceiverInit (cfg : Config) (rand : Rand) : Except PtrFault PtrReceiver := do
  let (nodes, rand) ← (setupNodes cfg.numShards rand).mapError .loop
  .ok ⟨⟨Arena.empty, ⟨[], mempoolMaxSize⟩, shardAssignerCreate cfg.numShards, []⟩, nodes, rand, 0⟩

/-- `mempool_destroy`, what it does to the transactions. -/
def ptrMempoolDestroy (core : PtrCore) : Option (Arena Transaction) :=
  core.arena.freeAll (core.pool.held.map Prod.fst)

/-! ## The two levels -/

/-- The pool entry of a pointer, and the allocation it stands for. -/
def heldAs (o : Nat × Entry) : Nat × PublicKey := (o.1, o.2.pubkey)

def cellOf (o : Nat × Entry) : Nat × Transaction := (o.1, o.2.ptr.tx)

/-- What the bytes of a round are. -/
def sendsOf (round : Dispatch) : Sends :=
  ⟨round.pushes.map fun p => (p.shard, p.msg.bytes), DispatchDone.codec.enc round.done⟩

/-- Every entry of the pool has its own allocation; what else is allocated was admitted
and neither sent nor kept. -/
structure Represents (c : PtrCore) (d : Dispatcher) (owned : List (Nat × Entry))
    (lost : List (Nat × Transaction)) : Prop where
  capacity : c.pool.capacity = d.pool.capacity
  assigner : c.assigner = d.assigner
  rounds : c.rounds = d.rounds.map sendsOf
  pool : c.pool.held = owned.map heldAs
  held : d.pool.held = owned.map Prod.snd
  arena : c.arena.Owns (owned.map cellOf ++ lost)
  ledger : d.sent.length + owned.length + lost.length = d.admitted.length

theorem allocated_some {α : Type} {x : Option α} {a : α} (h : x = some a) :
    allocated x = .ok a := by
  rw [h]
  rfl

theorem loop_ok {α : Type} {x : Except Fault α} {a : α} (h : x = .ok a) :
    x.mapError PtrFault.loop = .ok a := by
  rw [h]
  rfl

/-- Routing reads and frees exactly what was drained. -/
theorem ptrRouteTxs_eq {numShards : Nat} (hpos : 0 < numShards) (hle : numShards ≤ maxShards)
    (rest : List (Nat × Transaction)) (owned : List (Nat × Entry)) :
    ∀ (counts : Vector UInt64 maxShards) (arena : Arena Transaction),
      arena.Owns (owned.map cellOf ++ rest) →
      ∃ arena', ptrRouteTxs numShards (owned.map heldAs) counts arena =
          .ok (owned.map (fun o => (shardOf numShards o.2, (PushMsg.tx o.2).bytes)),
            addShares numShards (owned.map Prod.snd) counts, arena') ∧
        arena'.Owns rest := by
  induction owned with
  | nil =>
      intro counts arena h
      have hnone : addShares numShards [] counts = counts := by
        apply Vector.ext
        intro i hi
        simp [addShares, shareOf]
      refine ⟨arena, ?_, h⟩
      rw [List.map_nil, List.map_nil, List.map_nil, hnone]
      rfl
  | cons o owned ih =>
      intro counts arena h
      have hlt : shardOf numShards o.2 < maxShards :=
        Nat.lt_of_lt_of_le (shardOf_lt hpos o.2) hle
      have hload : arena.load o.1 = some o.2.ptr.tx := h.load List.mem_cons_self
      rcases h.free with ⟨arena₁, hfree, h₁⟩
      rcases ih (counts.set (shardOf numShards o.2) (counts[shardOf numShards o.2] + 1)) arena₁ h₁
        with ⟨arena', hroute, h'⟩
      have hfree' : arena.free o.1 = some arena₁ := hfree
      refine ⟨arena', ?_, h'⟩
      rw [List.map_cons, heldAs, ptrRouteTxs, allocated_some hload, Run.ok_bind,
        shardForTx_eq hpos o.2]
      show (if h : shardOf numShards o.2 < maxShards then _ else _) = _
      rw [dif_pos hlt]
      simp only [allocated_some hfree', Run.ok_bind, hroute]
      rw [addShares_cons o.2 _ counts hlt]
      rfl

/-- The new allocation is freed again, or owned by the pool. -/
theorem ptrAdmitTx_eq (crypto : Crypto) (verify : Bool) {c : PtrCore} {d : Dispatcher}
    {owned : List (Nat × Entry)} {lost : List (Nat × Transaction)} (h : Represents c d owned lost)
    (tally : Tally) (pt : PbTransaction) :
    ∃ c' owned', ptrAdmitTx crypto verify (c, tally) pt =
        .ok (c', (admitTx crypto verify (d, tally) pt).2) ∧
      Represents c' (admitTx crypto verify (d, tally) pt).1 owned' lost := by
  have hnew := h.arena.malloc (pbToTx pt)
  have hload : (c.arena.malloc (pbToTx pt)).2.load (c.arena.malloc (pbToTx pt)).1 =
      some (pbToTx pt) := hnew.load List.mem_cons_self
  rcases h.arena.malloc_free (pbToTx pt) with ⟨arena, hfree, harena⟩
  have hvalid : ptrValid crypto verify (c.arena.malloc (pbToTx pt)).2
      (c.arena.malloc (pbToTx pt)).1 (pubkeyOf pt) = .ok (passes crypto verify pt) := by
    rw [ptrValid, hload]
    cases verify with
    | true => rfl
    | false => rfl
  have hcount : d.pool.count = c.pool.held.length := by
    rw [d.pool.count_eq, h.held, h.pool, List.length_map, List.length_map]
  unfold ptrAdmitTx
  simp only [hvalid, Run.ok_bind]
  cases hpass : passes crypto verify pt with
  | false =>
      rw [admit_rejected hpass]
      refine ⟨{ c with arena := arena }, owned, ?_, ?_⟩
      · rw [allocated_some hfree]
        rfl
      · exact ⟨h.capacity, h.assigner, h.rounds, h.pool, h.held, harena, h.ledger⟩
  | true =>
      rw [admit_passed hpass]
      rcases Nat.lt_or_ge d.pool.count d.pool.capacity with hroom | hfull
      · rcases add_room (pbToTx pt) (some (pubkeyOf pt)) hroom with ⟨pool, hadd, hheld, hcap⟩
        have hfits : ¬ c.pool.held.length ≥ c.pool.capacity := by
          rw [h.capacity, ← hcount]
          exact Nat.not_le.mpr hroom
        rw [hadd, PtrPool.add, if_neg hfits]
        refine ⟨_, owned ++ [((c.arena.malloc (pbToTx pt)).1,
          ⟨⟨d.adds, pbToTx pt⟩, storedKey (some (pubkeyOf pt))⟩)], rfl, ?_⟩
        constructor
        · exact h.capacity.trans hcap.symm
        · exact h.assigner
        · exact h.rounds
        · rw [List.map_append, ← h.pool]
          rfl
        · rw [hheld, h.held, List.map_append]
          rfl
        · -- the allocation comes behind the others of the pool
          apply hnew.perm
          rw [List.map_append, List.append_assoc]
          exact List.perm_middle.symm
        · have hledger := h.ledger
          simp only [List.length_append, List.length_singleton]
          show d.sent.length + _ + _ = _
          omega
      · have hfits : c.pool.held.length ≥ c.pool.capacity := by
          rw [h.capacity, ← hcount]
          exact hfull
        rw [add_full (pbToTx pt) (some (pubkeyOf pt)) hfull, PtrPool.add, if_pos hfits]
        refine ⟨{ c with arena := arena }, owned, ?_, ?_⟩
        · simp only [allocated_some hfree, Run.ok_bind, Bool.not_true, Bool.false_eq_true, if_false]
        · exact ⟨h.capacity, h.assigner, h.rounds, h.pool, h.held, harena, h.ledger⟩

theorem ptrAdmitBatch_eq (crypto : Crypto) (verify : Bool) {c : PtrCore} {d : Dispatcher}
    {owned : List (Nat × Entry)} {lost : List (Nat × Transaction)} (h : Represents c d owned lost)
    (batch : Option PbBatch) :
    ∃ c' owned', ptrAdmitBatch crypto verify c batch =
        .ok (c', (admitBatch crypto verify d batch).2) ∧
      Represents c' (admitBatch crypto verify d batch).1 owned' lost := by
  cases batch with
  | none => exact ⟨c, owned, rfl, h⟩
  | some batch =>
      -- by induction on the batch, from any tally
      have hall : ∀ (pts : List PbTransaction) (c : PtrCore) (d : Dispatcher)
          (owned : List (Nat × Entry)) (tally : Tally), Represents c d owned lost →
          ∃ c' owned', Run.run (ptrAdmitTx crypto verify) (c, tally) pts =
              .ok (c', (pts.foldl (admitTx crypto verify) (d, tally)).2) ∧
            Represents c' (pts.foldl (admitTx crypto verify) (d, tally)).1 owned' lost := by
        intro pts
        induction pts with
        | nil =>
            intro c d owned tally h
            exact ⟨c, owned, rfl, h⟩
        | cons pt pts ih =>
            intro c d owned tally h
            rcases ptrAdmitTx_eq crypto verify h tally pt with ⟨c₁, owned₁, hone, h₁⟩
            rcases ih c₁ _ owned₁ (admitTx crypto verify (d, tally) pt).2 h₁ with
              ⟨c', owned', hrest, h'⟩
            refine ⟨c', owned', ?_, h'⟩
            rw [Run.run, hone]
            exact hrest
      exact hall batch.transactions c d owned ⟨0, 0⟩ h

/-- A dispatch frees what it drained; what it leaves behind is lost. -/
theorem ptrDispatch_eq {numShards : Nat} {c : PtrCore} {d : Dispatcher}
    {owned : List (Nat × Entry)} {lost : List (Nat × Transaction)} (h : Represents c d owned lost)
    (hinv : DispatcherInv numShards d) (roundStartMs : UInt64) (blockSize : Nat)
    (durationMs : UInt64) {d' : Dispatcher}
    (hok : d.dispatch roundStartMs blockSize durationMs = .ok d') :
    ∃ c' lost', ptrDispatch c roundStartMs blockSize durationMs = .ok c' ∧
      Represents c' d' [] lost' := by
  rcases hinv.assigner with ⟨sa, hsa, -, -⟩
  rw [Dispatcher.dispatch, hsa] at hok
  simp only [shardAssignerDispatch_eq, Run.ok_bind] at hok
  obtain rfl := Except.ok.inj hok
  -- what is drained comes first, what is left behind joins the lost
  have hsplit : (owned.map cellOf ++ lost).Perm
      ((owned.take (roundSize blockSize sa.numShards)).map cellOf ++
        ((owned.drop (roundSize blockSize sa.numShards)).map cellOf ++ lost)) := by
    rw [← List.append_assoc, ← List.map_append, List.take_append_drop]
  rcases ptrRouteTxs_eq sa.numShards_pos sa.numShards_le _ _ (Vector.replicate maxShards 0) _
    (h.arena.perm hsplit) with ⟨arena, hroute, harena⟩
  have hdrained : c.pool.held.take (roundSize blockSize sa.numShards) =
      (owned.take (roundSize blockSize sa.numShards)).map heldAs := by
    rw [h.pool, List.map_take]
  have hentries : d.pool.held.take (roundSize blockSize sa.numShards) =
      (owned.take (roundSize blockSize sa.numShards)).map Prod.snd := by
    rw [h.held, List.map_take]
  have hfit : ¬ ((owned.take (roundSize blockSize sa.numShards)).map heldAs).length >
      mempoolMaxSize := by
    have htake := List.length_take_le' (roundSize blockSize sa.numShards) owned
    have hlen := d.pool.held_length_le
    rw [h.held, List.length_map] at hlen
    rw [List.length_map]
    omega
  have hends := roundEnds_shares sa.numShards_le (sa.roundNumber + 1)
    ((owned.take (roundSize blockSize sa.numShards)).map Prod.snd)
  unfold ptrDispatch
  rw [h.assigner, hsa]
  simp only [loop_ok (exactSize_eq blockSize sa.numShards_pos), PtrPool.drain, Run.ok_bind,
    if_neg hfit, hdrained, hroute, loop_ok hends]
  refine ⟨_, (owned.drop (roundSize blockSize sa.numShards)).map cellOf ++ lost, rfl, ?_⟩
  constructor
  · exact h.capacity
  · rw [hentries]
  · simp only [List.map_append, List.map_singleton, h.rounds, hentries]
    simp [sendsOf, pushesOf, PushMsg.bytes, Function.comp_def]
  · rfl
  · rfl
  · exact harena
  · have hledger := h.ledger
    simp only [Dispatcher.sent, List.flatMap_append, List.flatMap_singleton, List.length_append,
      List.length_nil, List.length_map, List.length_drop, List.length_take, hentries] at hledger ⊢
    omega

/-! ## Whole messages -/

/-- The two receivers between messages. -/
structure SameReceiver (cfg : Config) (m : PtrReceiver) (r : Receiver) : Prop where
  inv : ReceiverInv cfg r
  core : ∃ owned lost, Represents m.core r.core owned lost
  nodes : m.nodes = r.nodes
  rand : m.rand = r.rand
  totalReceived : m.totalReceived = r.totalReceived

theorem ptrElectionAndDispatch_eq {cfg : Config} {m : PtrReceiver} {r r' : Receiver}
    {owned : List (Nat × Entry)} {lost : List (Nat × Transaction)}
    (hcore : Represents m.core r.core owned lost) (hinv : DispatcherInv cfg.numShards r.core)
    (hnodes : m.nodes = r.nodes) (hrand : m.rand = r.rand)
    (htotal : m.totalReceived = r.totalReceived) {roundStartMs durationMs : UInt64}
    (hok : runElectionAndDispatch cfg r roundStartMs durationMs = .ok r')
    (hinv' : ReceiverInv cfg r') :
    ∃ m', ptrElectionAndDispatch cfg m roundStartMs durationMs = .ok m' ∧
      SameReceiver cfg m' r' := by
  unfold runElectionAndDispatch at hok
  rcases Run.bind_eq_ok hok with ⟨nodes, hreset, hok⟩
  rcases Run.bind_eq_ok hok with ⟨winners, helect, hok⟩
  unfold ptrElectionAndDispatch
  rw [hnodes, hrand, loop_ok hreset, Run.ok_bind, loop_ok helect, Run.ok_bind]
  cases winners with
  | none =>
      obtain rfl := Except.ok.inj hok
      exact ⟨_, rfl, hinv', ⟨owned, lost, hcore⟩, rfl, rfl, htotal⟩
  | some el =>
      rcases Run.bind_eq_ok hok with ⟨core, hdispatch, hok⟩
      obtain rfl := Except.ok.inj hok
      rcases ptrDispatch_eq hcore hinv roundStartMs cfg.blockSize durationMs hdispatch with
        ⟨c', lost', hptr, hcore'⟩
      simp only [hptr, Run.ok_bind]
      exact ⟨_, rfl, hinv', ⟨[], lost', hcore'⟩, rfl, rfl, htotal⟩

/-- One message: no access fails, and the replies are the same. -/
theorem ptrReceive_eq {cfg : Config} {m : PtrReceiver} {r : Receiver} (h : SameReceiver cfg m r)
    (crypto : Crypto) (a : Arrival) :
    ∃ m' r' reply, ptrReceive cfg crypto m a = .ok (m', reply) ∧
      receive cfg crypto r a = .ok (r', reply) ∧ SameReceiver cfg m' r' := by
  rcases h.core with ⟨owned, lost, hcore⟩
  rcases receive_ok h.inv crypto a with ⟨r', reply, hreceive, hinv', -⟩
  have hok := hreceive
  unfold receive at hok
  unfold ptrReceive
  cases hin : a.incoming with
  | unknown =>
      rw [hin] at hok
      rcases Prod.mk.inj (Except.ok.inj hok) with ⟨rfl, rfl⟩
      exact ⟨m, r, _, rfl, hreceive, h⟩
  | batch batch =>
      rw [hin] at hok
      rcases ptrAdmitBatch_eq crypto cfg.verify hcore batch with ⟨c', owned', hadmission, hcore'⟩
      have hcount : mempoolSize (admitBatch crypto cfg.verify r.core batch).1.pool =
          c'.pool.held.length := by
        rw [mempoolSize, Mempool.count_eq, hcore'.held, hcore'.pool, List.length_map,
          List.length_map]
      have htotal : m.totalReceived +
            UInt64.ofNat ((admitBatch crypto cfg.verify r.core batch).2.accepted +
              (admitBatch crypto cfg.verify r.core batch).2.rejected) =
          r.totalReceived +
            UInt64.ofNat ((admitBatch crypto cfg.verify r.core batch).2.accepted +
              (admitBatch crypto cfg.verify r.core batch).2.rejected) := by
        rw [h.totalReceived]
      simp only [hadmission, Run.ok_bind]
      simp only [hcount] at hok
      split at hok
      · rename_i hfull
        rcases Run.bind_eq_ok hok with ⟨r₁, hrun, hok⟩
        rcases Prod.mk.inj (Except.ok.inj hok) with ⟨rfl, rfl⟩
        rcases ptrElectionAndDispatch_eq (m := ⟨c', m.nodes, m.rand, _⟩)
          (r := ⟨_, r.nodes, r.rand, _⟩) hcore' (admitBatch_inv h.inv.core crypto batch) h.nodes
          h.rand htotal hrun hinv' with ⟨m', hptr, h'⟩
        refine ⟨m', r₁, _, ?_, hreceive, h'⟩
        rw [if_pos hfull, hptr]
        rfl
      · rename_i hwait
        rcases Prod.mk.inj (Except.ok.inj hok) with ⟨rfl, rfl⟩
        rw [if_neg hwait]
        exact ⟨_, _, _, rfl, hreceive, hinv', ⟨owned', lost, hcore'⟩, h.nodes, h.rand, htotal⟩

/-- Before the first message nothing is allocated. -/
theorem ptrReceiverInit_eq {cfg : Config} {rand : Rand} {r : Receiver}
    (hinit : receiverInit cfg rand = .ok r)
    (hcore : r.core = Dispatcher.create mempoolMaxSize cfg.numShards) (hinv : ReceiverInv cfg r) :
    ∃ m, ptrReceiverInit cfg rand = .ok m ∧ SameReceiver cfg m r := by
  unfold receiverInit at hinit
  rcases Run.bind_eq_ok hinit with ⟨⟨nodes, rand'⟩, hsetup, hinit⟩
  obtain rfl := Except.ok.inj hinit
  unfold ptrReceiverInit
  rw [loop_ok hsetup, Run.ok_bind]
  refine ⟨_, rfl, hinv, ⟨[], [], ?_⟩, rfl, rfl, rfl⟩
  exact ⟨rfl, rfl, rfl, rfl, rfl, Arena.owns_empty, rfl⟩

/-! ## Whole runs -/

/-- Whatever arrives: no transaction is read or freed that is not allocated, the replies
and all bytes sent are those of the receiver that keeps its transactions in the pool,
and `mempool_destroy` would free what is in the pool. What is allocated besides that can
no longer be freed; there is none exactly if no dispatch left anything behind. -/
theorem memory_safe (cfg : Config) (hshards : cfg.numShards ≤ maxShards) (crypto : Crypto)
    (rand : Rand) (arrivals : List Arrival) :
    ∃ m₀ r₀ m r replies, ptrReceiverInit cfg rand = .ok m₀ ∧ receiverInit cfg rand = .ok r₀ ∧
      Run.run (Run.answering (ptrReceive cfg crypto)) (m₀, []) arrivals = .ok (m, replies) ∧
      Run.run (Run.answering (receive cfg crypto)) (r₀, []) arrivals = .ok (r, replies) ∧
      m.core.rounds = r.core.rounds.map sendsOf ∧
      ∃ arena, ptrMempoolDestroy m.core = some arena ∧
        m.core.arena.cells.length = r.core.pool.count + arena.cells.length ∧
        (arena.cells = [] ↔ Kept cfg.numShards r.core) := by
  rcases receiverInit_inv cfg hshards rand with ⟨r₀, hinit, hcore, hinv, -⟩
  rcases ptrReceiverInit_eq hinit hcore hinv with ⟨m₀, hptr, h₀⟩
  have hstep : ∀ (s : PtrReceiver × List Reply) (t : Receiver × List Reply) (a : Arrival),
      SameReceiver cfg s.1 t.1 ∧ s.2 = t.2 →
      ∃ s' t', Run.answering (ptrReceive cfg crypto) s a = .ok s' ∧
        Run.answering (receive cfg crypto) t a = .ok t' ∧
        SameReceiver cfg s'.1 t'.1 ∧ s'.2 = t'.2 := by
    rintro ⟨m, replies⟩ ⟨r, _⟩ a ⟨h, rfl⟩
    rcases ptrReceive_eq h crypto a with ⟨m', r', reply, hm, hr, h'⟩
    refine ⟨(m', replies ++ [reply]), (r', replies ++ [reply]), ?_, ?_, h', rfl⟩
    · unfold Run.answering
      rw [hm]
      rfl
    · unfold Run.answering
      rw [hr]
      rfl
  rcases Run.run_lockstep _ hstep arrivals (m₀, []) (r₀, []) ⟨h₀, rfl⟩ with
    ⟨⟨m, replies⟩, ⟨r, replies'⟩, hm, hr, h, heq⟩
  obtain rfl : replies = replies' := heq
  rcases h.core with ⟨owned, lost, hcore'⟩
  have hpool : m.core.pool.held.map Prod.fst = (owned.map cellOf).map Prod.fst := by
    rw [hcore'.pool, List.map_map, List.map_map]
    rfl
  have hcount : r.core.pool.count = owned.length := by
    rw [r.core.pool.count_eq, hcore'.held, List.length_map]
  rcases hcore'.arena.freeAll with ⟨arena, hdestroy, hlost⟩
  refine ⟨m₀, r₀, m, r, replies, hptr, hinit, hm, hr, hcore'.rounds, arena, ?_, ?_, ?_⟩
  · rw [ptrMempoolDestroy, hpool, hdestroy]
  · rw [hcore'.arena.length_eq, hlost.length_eq, List.length_append, List.length_map, hcount]
  · rw [kept_iff_accounted h.inv.core, hcount, ← hcore'.ledger, ← List.length_eq_zero_iff,
      hlost.length_eq]
    omega

theorem memory_safe_default :
    ∃ m₀ r₀ m r replies, ptrReceiverInit defaultConfig ⟨fun _ => 0, 0⟩ = .ok m₀ ∧
      receiverInit defaultConfig ⟨fun _ => 0, 0⟩ = .ok r₀ ∧
      Run.run (Run.answering (ptrReceive defaultConfig Crypto.rejecting)) (m₀, [])
        [unsignedBatch, fullBatch] = .ok (m, replies) ∧
      Run.run (Run.answering (receive defaultConfig Crypto.rejecting)) (r₀, [])
        [unsignedBatch, fullBatch] = .ok (r, replies) ∧
      m.core.rounds = r.core.rounds.map sendsOf ∧
      ∃ arena, ptrMempoolDestroy m.core = some arena ∧
        m.core.arena.cells.length = r.core.pool.count + arena.cells.length ∧
        (arena.cells = [] ↔ Kept defaultConfig.numShards r.core) :=
  memory_safe defaultConfig (by decide) Crypto.rejecting ⟨fun _ => 0, 0⟩ [unsignedBatch, fullBatch]

end Sharding
