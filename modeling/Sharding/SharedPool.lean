import Sharding.Lib.Mutex
import Sharding.Mempool

/-! # The mempool between threads

`mempool.c` locks a mutex around every operation but the creation. Here its
functions are the sequences of loads and stores they are, done by any number of
threads in any interleaving the mutex permits, on a pool without any invariant.
`mempool_linearizable` says that the callers see the operations of `Mempool`, one
after another.
-/

namespace Sharding

open Mutex

/-- The fields of a `Mempool` the threads share. -/
structure PoolMemory where
  txs : HeapBlock TxPtr
  pubkeys : HeapBlock PublicKey
  count : Nat
  capacity : Nat

def Mempool.memory (pool : Mempool) : PoolMemory :=
  ⟨pool.txs, pool.pubkeys, pool.count, pool.capacity⟩

inductive PoolCall where
  | add (tx : TxPtr) (pubkey : Option PublicKey)
  | drain (max : Nat)
  | size

inductive PoolResult where
  | added (ret : Bool)
  | drained (n : Nat) (txs : Option (List TxPtr)) (pubkeys : Option (List PublicKey))
  | size (n : Nat)

/-- The statements of `mempool_add` between lock and unlock. -/
def mempoolAddBody (tx : TxPtr) (pubkey : Option PublicKey) : Critical PoolMemory PoolResult :=
  .step id fun pool =>
    if pool.count ≥ pool.capacity then .done (.added false)
    else
      .step (fun pool => { pool with txs := pool.txs.put pool.count tx }) fun _ =>
      .step (fun pool => { pool with
        pubkeys := pool.pubkeys.put pool.count (storedKey pubkey) }) fun _ =>
      .step (fun pool => { pool with count := pool.count + 1 }) fun _ =>
      .done (.added true)

/-- Those of `mempool_drain`. -/
def mempoolDrainBody (max : Nat) : Critical PoolMemory PoolResult :=
  .step id fun pool =>
    let n := if pool.count < max then pool.count else max
    .step id fun pool =>
      let out := pool.txs.read n
      .step id fun pool =>
        let pubkeysOut := pool.pubkeys.read n
        .step (fun pool => { pool with count := 0 }) fun _ =>
        .done (.drained n out pubkeysOut)

/-- And those of `mempool_size`. -/
def mempoolSizeBody : Critical PoolMemory PoolResult :=
  .step id fun pool => .done (.size pool.count)

def poolBody : PoolCall → Critical PoolMemory PoolResult
  | .add tx pubkey => mempoolAddBody tx pubkey
  | .drain max => mempoolDrainBody max
  | .size => mempoolSizeBody

/-- The operations as `Mempool` has them. -/
def poolStep (pool : Mempool) : PoolCall → Mempool × PoolResult
  | .add tx pubkey =>
      let (ret, pool) := mempoolAdd pool tx pubkey
      (pool, .added ret)
  | .drain max =>
      let (n, txs, pubkeys, pool) := mempoolDrain pool max
      (pool, .drained n txs pubkeys)
  | .size => (pool, .size (mempoolSize pool))

def poolRun : Mempool → List PoolCall → Mempool × List PoolResult
  | pool, [] => (pool, [])
  | pool, c :: cs =>
      let (pool, r) := poolStep pool c
      let (pool, rs) := poolRun pool cs
      (pool, r :: rs)

/-- The statements of an operation, undisturbed, are the operation. -/
theorem poolBody_run (pool : Mempool) (c : PoolCall) :
    (poolBody c).run pool.memory = ((poolStep pool c).1.memory, (poolStep pool c).2) := by
  cases c with
  | size => rfl
  | drain max => rfl
  | add tx pubkey =>
      by_cases hfull : pool.count ≥ pool.capacity
      · have hfull' : pool.memory.count ≥ pool.memory.capacity := hfull
        simp only [poolBody, mempoolAddBody, poolStep, mempoolAdd, Critical.run, id, if_pos hfull',
          dif_pos hfull]
      · have hroom : ¬ pool.memory.count ≥ pool.memory.capacity := hfull
        simp only [poolBody, mempoolAddBody, poolStep, mempoolAdd, Critical.run, id, if_neg hroom,
          dif_neg hfull]
        rfl

theorem poolBody_sequential (cs : List PoolCall) : ∀ pool : Mempool,
    sequential poolBody pool.memory cs = ((poolRun pool cs).1.memory, (poolRun pool cs).2) := by
  induction cs with
  | nil =>
      intro pool
      rfl
  | cons c cs ih =>
      intro pool
      simp only [sequential, poolBody_run, ih, poolRun]

/-! ## Handed out once -/

/-- The transaction a call added, with the key stored for it. -/
def addedEntry : PoolCall × PoolResult → List Entry
  | (.add tx pubkey, .added true) => [⟨tx, storedKey pubkey⟩]
  | _ => []

/-- The transactions a call was handed, with their keys. -/
def drainedEntries : PoolCall × PoolResult → List Entry
  | (_, .drained _ (some txs) (some pubkeys)) => List.zipWith Entry.mk txs pubkeys
  | _ => []

/-- What a call hands out and what it leaves was in the pool, or is what it added. -/
theorem poolStep_once (pool : Mempool) (c : PoolCall) :
    (drainedEntries (c, (poolStep pool c).2) ++ (poolStep pool c).1.held).Sublist
      (pool.held ++ addedEntry (c, (poolStep pool c).2)) := by
  cases c with
  | size => simp [poolStep, drainedEntries, addedEntry]
  | add tx pubkey =>
      rcases Nat.lt_or_ge pool.count pool.capacity with hroom | hfull
      · rcases mempoolAdd_room tx pubkey hroom with ⟨hret, hheld, -⟩
        simp only [poolStep, hret, drainedEntries, addedEntry, List.nil_append, hheld]
        exact List.Sublist.refl _
      · simp [poolStep, mempoolAdd_full tx pubkey hfull, drainedEntries, addedEntry]
  | drain max =>
      have hzip : ∀ es : List Entry,
          List.zipWith Entry.mk (es.map Entry.ptr) (es.map Entry.pubkey) = es := by
        intro es
        induction es with
        | nil => rfl
        | cons e es ih => simp only [List.map_cons, List.zipWith_cons_cons, ih]
      simp only [poolStep, mempoolDrain_eq, drainedEntries, addedEntry, hzip, Mempool.reset,
        List.append_nil]
      exact List.take_sublist max pool.held

/-- Over any sequence of calls: what is handed out, and what is left, in order. -/
theorem poolRun_once (cs : List PoolCall) : ∀ pool : Mempool,
    ((cs.zip (poolRun pool cs).2).flatMap drainedEntries ++ (poolRun pool cs).1.held).Sublist
      (pool.held ++ (cs.zip (poolRun pool cs).2).flatMap addedEntry) := by
  induction cs with
  | nil =>
      intro pool
      simp [poolRun]
  | cons c cs ih =>
      intro pool
      have hone := poolStep_once pool c
      have hrest := ih (poolStep pool c).1
      simp only [poolRun, List.zip_cons_cons, List.flatMap_cons, List.append_assoc]
      -- first what the call hands out, then what the others do
      apply ((List.Sublist.refl _).append hrest).trans
      rw [← List.append_assoc, ← List.append_assoc]
      exact hone.append (List.Sublist.refl _)

/-! ## Any number of threads -/

/-- The pool after the threads have made these moves. -/
def poolAfter (capacity : Nat) (moves : List (Move PoolCall)) :
    State PoolMemory PoolCall PoolResult :=
  moves.foldl (step poolBody) (start (mempoolCreate capacity).memory)

/-- A call with its result. -/
def outcome (e : Record PoolCall PoolResult) : PoolCall × PoolResult := (e.op.call, e.result)

/-- However the threads are scheduled, their calls look as if each had been done at one
moment between its call and its return: in the order of these moments the results
are those of the operations of `Mempool`, and the memory is theirs whenever the lock
is free. So nothing is handed out that was not taken, nor twice, nor out of order. -/
theorem mempool_linearizable (capacity : Nat) (moves : List (Move PoolCall)) :
    ∃ pool log, (poolAfter capacity moves).log = log ∧
      poolRun (mempoolCreate capacity) (log.map fun e => e.op.call) = (pool, log.map Record.result) ∧
      Linearization poolBody (mempoolCreate capacity).memory (poolAfter capacity moves).returned log ∧
      ((poolAfter capacity moves).owner = none → (poolAfter capacity moves).mem = pool.memory) ∧
      (log.flatMap (fun e => drainedEntries (outcome e)) ++ pool.held).Sublist
        (log.flatMap fun e => addedEntry (outcome e)) := by
  rcases linearizable poolBody (mempoolCreate capacity).memory moves rfl with ⟨hlin, hfree⟩
  have hresults := hlin.results
  rw [poolBody_sequential] at hresults hfree
  refine ⟨_, _, rfl, Prod.ext rfl hresults, hlin, hfree, ?_⟩
  have honce := poolRun_once ((poolAfter capacity moves).log.map fun e => e.op.call)
    (mempoolCreate capacity)
  have hzip : ∀ log : List (Record PoolCall PoolResult),
      (log.map fun e => e.op.call).zip (log.map Record.result) = log.map outcome := by
    intro log
    rw [List.zip_map']
    rfl
  have hresults' : (poolRun (mempoolCreate capacity)
      ((poolAfter capacity moves).log.map fun e => e.op.call)).2 =
        (poolAfter capacity moves).log.map Record.result := hresults
  rw [hresults', hzip, List.flatMap_map, List.flatMap_map] at honce
  exact honce

end Sharding
