import Sharding.Lib.Heap
import Sharding.Block

/-! # The mempool

`mempool.c`: a pool of transaction pointers and, in a parallel array, the public
keys they came with. Both arrays are filled front to back by `mempool_add` and
emptied by `mempool_drain`, which copies out at most `max` entries and then
resets the count. `held` names what the arrays contain; the fields of the
structure tie it to them, so that every operation carries the correspondence of
the two arrays along.
-/

namespace Sharding

/-- `MEMPOOL_MAX_SIZE` -/
def mempoolMaxSize : Nat := 1048576

/-- A `Transaction*`: which allocation it points to, and what is there. -/
structure TxPtr where
  handle : Nat
  tx : Transaction
deriving DecidableEq

/-- A transaction in the pool with the public key stored alongside. -/
structure Entry where
  ptr : TxPtr
  pubkey : PublicKey
deriving DecidableEq

/-- The message for a pool entry. -/
def Entry.message (e : Entry) : TxWithPubkey := ⟨e.ptr.tx, e.pubkey⟩

/-- `Mempool` -/
structure Mempool where
  txs : HeapBlock TxPtr
  pubkeys : HeapBlock PublicKey
  count : Nat
  capacity : Nat
  /-- The first `count` entries, as a list. -/
  held : List Entry
  count_eq : count = held.length
  count_le : count ≤ capacity
  capacity_le : capacity ≤ mempoolMaxSize
  txs_cap : txs.cap = capacity
  pubkeys_cap : pubkeys.cap = capacity
  txs_held : txs.Holds (held.map Entry.ptr)
  pubkeys_held : pubkeys.Holds (held.map Entry.pubkey)

/-- `mempool_create` -/
def mempoolCreate (capacity : Nat) : Mempool :=
  let capacity := if capacity = 0 ∨ capacity > mempoolMaxSize then mempoolMaxSize else capacity
  { txs := HeapBlock.malloc capacity
    pubkeys := HeapBlock.malloc capacity
    count := 0
    capacity := capacity
    held := []
    count_eq := rfl
    count_le := Nat.zero_le _
    capacity_le := by
      show (if _ then mempoolMaxSize else _) ≤ mempoolMaxSize
      split <;> omega
    txs_cap := rfl
    pubkeys_cap := rfl
    txs_held := HeapBlock.holds_nil _
    pubkeys_held := HeapBlock.holds_nil _ }

/-- The key `mempool_add` stores: all zeros when none was given. -/
def storedKey (pubkey : Option PublicKey) : PublicKey := pubkey.getD (zeros 32)

/-- `mempool_add`: whether there was room, and the pool afterwards. -/
def mempoolAdd (pool : Mempool) (tx : TxPtr) (pubkey : Option PublicKey) : Bool × Mempool :=
  if hfull : pool.count ≥ pool.capacity then (false, pool)
  else
    (true,
      { txs := pool.txs.put pool.count tx
        pubkeys := pool.pubkeys.put pool.count (storedKey pubkey)
        count := pool.count + 1
        capacity := pool.capacity
        held := pool.held ++ [⟨tx, storedKey pubkey⟩]
        count_eq := by rw [List.length_append, List.length_singleton, pool.count_eq]
        count_le := by omega
        capacity_le := pool.capacity_le
        txs_cap := pool.txs_cap
        pubkeys_cap := pool.pubkeys_cap
        txs_held := by
          have hlen : pool.count = (pool.held.map Entry.ptr).length := by
            rw [List.length_map, pool.count_eq]
          have hroom : (pool.held.map Entry.ptr).length < pool.txs.cap := by
            rw [← hlen, pool.txs_cap]
            omega
          rw [List.map_append, hlen]
          exact pool.txs_held.put _ hroom
        pubkeys_held := by
          have hlen : pool.count = (pool.held.map Entry.pubkey).length := by
            rw [List.length_map, pool.count_eq]
          have hroom : (pool.held.map Entry.pubkey).length < pool.pubkeys.cap := by
            rw [← hlen, pool.pubkeys_cap]
            omega
          rw [List.map_append, hlen]
          exact pool.pubkeys_held.put _ hroom })

/-- What `mempool_drain` leaves: the arrays as they are, the count reset. -/
def Mempool.reset (pool : Mempool) : Mempool :=
  { pool with
    count := 0
    held := []
    count_eq := rfl
    count_le := Nat.zero_le _
    txs_held := HeapBlock.holds_nil _
    pubkeys_held := HeapBlock.holds_nil _ }

/-- `mempool_drain`: the number of entries copied, the two copies (`none` if a
cell was never written), and the pool afterwards. -/
def mempoolDrain (pool : Mempool) (max : Nat) :
    Nat × Option (List TxPtr) × Option (List PublicKey) × Mempool :=
  let n := if pool.count < max then pool.count else max
  (n, pool.txs.read n, pool.pubkeys.read n, pool.reset)

/-- `mempool_size` -/
def mempoolSize (pool : Mempool) : Nat := pool.count

/-! ## What the operations do to the contents -/

theorem Mempool.held_length_le (pool : Mempool) : pool.held.length ≤ mempoolMaxSize := by
  have hcount := pool.count_eq
  have hle := pool.count_le
  have hcap := pool.capacity_le
  omega

/-- A full pool takes nothing and says so. -/
theorem mempoolAdd_full {pool : Mempool} (tx : TxPtr) (pubkey : Option PublicKey)
    (h : pool.capacity ≤ pool.count) : mempoolAdd pool tx pubkey = (false, pool) := by
  rw [mempoolAdd, dif_pos h]

/-- With room left the entry goes behind the others, with its key. -/
theorem mempoolAdd_room {pool : Mempool} (tx : TxPtr) (pubkey : Option PublicKey)
    (h : pool.count < pool.capacity) :
    (mempoolAdd pool tx pubkey).1 = true ∧
      (mempoolAdd pool tx pubkey).2.held = pool.held ++ [⟨tx, storedKey pubkey⟩] ∧
      (mempoolAdd pool tx pubkey).2.capacity = pool.capacity := by
  have hroom : ¬ pool.count ≥ pool.capacity := Nat.not_le.mpr h
  rw [mempoolAdd, dif_neg hroom]
  exact ⟨rfl, rfl, rfl⟩

/-- A drain copies the first `max` entries and leaves nothing behind. -/
theorem mempoolDrain_eq (pool : Mempool) (max : Nat) :
    mempoolDrain pool max =
      ((pool.held.take max).length, some ((pool.held.take max).map Entry.ptr),
        some ((pool.held.take max).map Entry.pubkey), pool.reset) := by
  have hn : (if pool.count < max then pool.count else max) = (pool.held.take max).length := by
    have hcount := pool.count_eq
    rw [List.length_take]
    split <;> omega
  -- both arrays hold the entries that are copied
  have htxs : pool.txs.read (pool.held.take max).length = some ((pool.held.take max).map Entry.ptr) := by
    have h := (pool.txs_held.take max).read
    rwa [← List.map_take, List.length_map] at h
  have hkeys : pool.pubkeys.read (pool.held.take max).length =
      some ((pool.held.take max).map Entry.pubkey) := by
    have h := (pool.pubkeys_held.take max).read
    rwa [← List.map_take, List.length_map] at h
  simp only [mempoolDrain, hn, htxs, hkeys]

end Sharding
