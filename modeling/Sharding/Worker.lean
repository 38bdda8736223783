import Mathlib.Data.UInt
import Sharding.Lib.HashChain
import Sharding.Lib.Heap
import Sharding.Lib.ParallelFor
import Sharding.Lib.Run
import Sharding.Block

/-! # Processing a round in a shard worker

`process_transactions` of `shard_worker.c`: messages are received into growing
buffers until the round is complete (phase 1), the buffered transactions are
checked and hashed by several threads (phase 2), and the hashes are folded into
the root (phase 3). `processTransactions_eq` says what comes out in terms of the
list of messages received.
-/

namespace Sharding

open ParallelFor

/-- Why no summary comes out: the socket has nothing more to give, or the code
touches memory outside its buffers or memory it has not written. -/
inductive Stuck where
  | blocked
  | undefined
deriving DecidableEq

/-! ## Phase 1 -/

/-- The variables of the receive loop. -/
structure RecvState where
  bufCap : UInt32
  txBuf : HeapBlock Transaction
  pubkeyBuf : HeapBlock PublicKey
  bufCount : UInt32
  expected : UInt32
  gotEnd : Bool

def recvInit : RecvState :=
  ⟨512, HeapBlock.malloc 512, HeapBlock.malloc 512, 0, 0, false⟩

/-- The loop condition is false. -/
def RecvState.done (st : RecvState) : Bool := st.gotEnd && !decide (st.bufCount < st.expected)

/-- Double the buffers when they are full; the capacity is a `uint32_t`. -/
def RecvState.grow (st : RecvState) : RecvState :=
  if st.bufCount ≥ st.bufCap then
    { st with
      bufCap := st.bufCap * 2
      txBuf := st.txBuf.realloc (st.bufCap * 2).toNat
      pubkeyBuf := st.pubkeyBuf.realloc (st.bufCap * 2).toNat }
  else st

/-- The branch for a transaction. -/
def recvTx (st : RecvState) (twp : TxWithPubkey) : Except Stuck RecvState :=
  match st.grow.txBuf.store st.bufCount.toNat twp.tx,
      st.grow.pubkeyBuf.store st.bufCount.toNat twp.pubkey with
  | some txBuf, some pubkeyBuf =>
      .ok { st.grow with txBuf := txBuf, pubkeyBuf := pubkeyBuf, bufCount := st.bufCount + 1 }
  | _, _ => .error .undefined

/-- One receive: `none` is a failed one. Messages are told apart by their size,
and those of an unknown size are dropped. -/
def recvEvent (st : RecvState) : Option Bytes → Except Stuck RecvState
  | none => .ok st
  | some raw =>
      if raw.length = RoundEnd.codec.size then
        .ok { st with expected := (RoundEnd.codec.dec raw).txCount, gotEnd := true }
      else if raw.length = TxWithPubkey.codec.size then recvTx st (TxWithPubkey.codec.dec raw)
      else .ok st

/-- The loop, and what it leaves in the socket. -/
def recvLoop : List (Option Bytes) → RecvState → Except Stuck (RecvState × List (Option Bytes))
  | [], st => if st.done then .ok (st, []) else .error .blocked
  | ev :: evs, st =>
      if st.done then .ok (st, ev :: evs)
      else do
        let st ← recvEvent st ev
        recvLoop evs st

/-! ## Phases 2 and 3 -/

/-- The variables the threads write: the shared array of hashes, and the copies
of `total_fees`. -/
structure ParState where
  txHashes : HeapBlock TxHash
  totalFees : Nat → UInt64

/-- What an iteration loads from the buffers, and the verdict of the check on it: the full
one under the key alongside, or the basic one if that is zero. -/
def checkBuffered (crypto : Crypto) (st : RecvState) (i : Nat) : Except Stuck (Transaction × Bool) :=
  match st.txBuf.load i, st.pubkeyBuf.load i with
  | some tx, some pubkey => .ok (tx, checkTx crypto tx pubkey)
  | _, _ => .error .undefined

/-- One iteration of the parallel loop, on a thread. The verdict of the check is
not used. -/
def iteration (crypto : Crypto) (st : RecvState) (par : ParState) (step : Nat × Nat) :
    Except Stuck ParState := do
  let (thread, i) := step
  let (tx, _verdict) ← checkBuffered crypto st i
  match par.txHashes.store i (transactionComputeHash crypto tx) with
  | some txHashes => .ok ⟨txHashes, addTo par.totalFees thread tx.fee.toUInt64⟩
  | none => .error .undefined

/-- The bound `(int)buf_count` of the loop: from `2^31` on it is negative. -/
def loopBound (bufCount : UInt32) : Nat := if bufCount.toNat < 2 ^ 31 then bufCount.toNat else 0

/-- The fold over the hashes with the indices `is`. -/
def foldHashes (crypto : Crypto) (txHashes : HeapBlock TxHash) :
    List Nat → Digest → Except Stuck Digest
  | [], runningHash => .ok runningHash
  | i :: is, runningHash =>
      match txHashes.load i with
      | some h => foldHashes crypto txHashes is (crypto.sha256 (runningHash.toList ++ h.toList))
      | none => .error .undefined

/-- What follows the receive loop: phases 2 and 3, or the empty summary. -/
def finishRound (crypto : Crypto) (shardId : UInt32) (schedule : (k : Nat) → Schedule k)
    (st : RecvState) : Except Stuck ShardSummary :=
  if st.bufCount = 0 then .ok ⟨shardId, 0, 0, zeros 32⟩
  else do
    let threads := schedule (loopBound st.bufCount)
    let par ← Run.run (iteration crypto st)
      ⟨HeapBlock.malloc st.bufCount.toNat, fun _ => 0⟩ threads.steps
    let runningHash ← foldHashes crypto par.txHashes (List.range st.bufCount.toNat) (zeros 32)
    .ok ⟨shardId, st.bufCount, reduce threads.threads par.totalFees, runningHash⟩

/-- `process_transactions`: the summary, and what is left in the socket. -/
def processTransactions (crypto : Crypto) (shardId : UInt32) (schedule : (k : Nat) → Schedule k)
    (events : List (Option Bytes)) : Except Stuck (ShardSummary × List (Option Bytes)) := do
  let (st, rest) ← recvLoop events recvInit
  let summary ← finishRound crypto shardId schedule st
  .ok (summary, rest)

/-! ## The receive loop on lists -/

/-- What the receive loop has gathered, the buffers as a list. -/
structure Collected where
  msgs : List TxWithPubkey
  expected : UInt32
  gotEnd : Bool

def Collected.done (c : Collected) : Bool :=
  c.gotEnd && !decide (c.msgs.length < c.expected.toNat)

/-- One receive. Doubling the buffers stops at `2^31` entries. -/
def collectEvent (c : Collected) : Option Bytes → Except Stuck Collected
  | none => .ok c
  | some raw =>
      if raw.length = RoundEnd.codec.size then
        .ok { c with expected := (RoundEnd.codec.dec raw).txCount, gotEnd := true }
      else if raw.length = TxWithPubkey.codec.size then
        if c.msgs.length < 2 ^ 31 then
          .ok { c with msgs := c.msgs ++ [TxWithPubkey.codec.dec raw] }
        else .error .undefined
      else .ok c

def collect : List (Option Bytes) → Collected → Except Stuck (Collected × List (Option Bytes))
  | [], c => if c.done then .ok (c, []) else .error .blocked
  | ev :: evs, c =>
      if c.done then .ok (c, ev :: evs)
      else do
        let c ← collectEvent c ev
        collect evs c

/-- The buffers hold the list. -/
structure Holding (st : RecvState) (c : Collected) : Prop where
  doublings : ∃ n ≤ 22, st.bufCap.toNat = 512 * 2 ^ n
  txCap : st.txBuf.cap = st.bufCap.toNat
  pubkeyCap : st.pubkeyBuf.cap = st.bufCap.toNat
  txs : st.txBuf.Holds (c.msgs.map TxWithPubkey.tx)
  pubkeys : st.pubkeyBuf.Holds (c.msgs.map TxWithPubkey.pubkey)
  count : st.bufCount.toNat = c.msgs.length
  expected : st.expected = c.expected
  gotEnd : st.gotEnd = c.gotEnd

theorem recvInit_holding : Holding recvInit ⟨[], 0, false⟩ := by
  refine ⟨⟨0, by decide, rfl⟩, rfl, rfl, ?_, ?_, rfl, rfl, rfl⟩
  · exact HeapBlock.holds_nil _
  · exact HeapBlock.holds_nil _

theorem Holding.done {st : RecvState} {c : Collected} (h : Holding st c) : st.done = c.done := by
  unfold RecvState.done Collected.done
  rw [h.gotEnd, h.expected, ← h.count]
  rfl

theorem Holding.count_le {st : RecvState} {c : Collected} (h : Holding st c) :
    c.msgs.length ≤ st.bufCap.toNat := by
  have hle := h.txs.1
  rwa [List.length_map, h.txCap] at hle

/-- The capacity is at most `2^31`, and only then does doubling wrap around. -/
theorem doubled_cap {cap : UInt32} {n : Nat} (hn : n ≤ 22) (hcap : cap.toNat = 512 * 2 ^ n) :
    (n < 22 ∧ (cap * 2).toNat = 512 * 2 ^ (n + 1)) ∨ (cap.toNat = 2 ^ 31 ∧ (cap * 2).toNat = 0) := by
  have hmul : (cap * 2).toNat = cap.toNat * 2 % 2 ^ 32 := UInt32.toNat_mul cap 2
  rcases Nat.lt_or_ge n 22 with hlt | hge
  · left
    refine ⟨hlt, ?_⟩
    have hpow : 2 ^ n ≤ 2 ^ 21 := Nat.pow_le_pow_right (by decide) (by omega)
    rw [hmul, hcap, Nat.pow_succ]
    omega
  · right
    obtain rfl : n = 22 := by omega
    rw [hmul, hcap]
    exact ⟨by decide, by decide⟩

/-- Below `2^31` entries there is room for one more after growing. -/
theorem grow_holding {st : RecvState} {c : Collected} (h : Holding st c)
    (hroom : c.msgs.length < 2 ^ 31) :
    Holding st.grow c ∧ c.msgs.length < st.grow.bufCap.toNat ∧
      st.grow.bufCount = st.bufCount := by
  rcases h.doublings with ⟨n, hn, hcap⟩
  have hle := h.count_le
  have hcount := h.count
  unfold RecvState.grow
  by_cases hfull : st.bufCount ≥ st.bufCap
  · -- full: the doubled buffers have room, unless the doubling wraps around
    have hfull' : st.bufCap.toNat ≤ st.bufCount.toNat := UInt32.le_iff_toNat_le.mp hfull
    rw [if_pos hfull]
    rcases doubled_cap hn hcap with ⟨hlt, hdouble⟩ | ⟨hmax, -⟩
    · have hgrow : st.bufCap.toNat ≤ (st.bufCap * 2).toNat := by
        rw [hcap, hdouble, Nat.pow_succ]
        omega
      refine ⟨⟨⟨n + 1, by omega, hdouble⟩, rfl, rfl, ?_, ?_, h.count, h.expected, h.gotEnd⟩, ?_, rfl⟩
      · exact h.txs.realloc _ (by rw [h.txCap]; exact hgrow)
      · exact h.pubkeys.realloc _ (by rw [h.pubkeyCap]; exact hgrow)
      · show c.msgs.length < (st.bufCap * 2).toNat
        rw [hdouble, Nat.pow_succ]
        have hpos : 0 < 2 ^ n := Nat.pow_pos (by decide)
        omega
    · -- the buffers are full at `2^31` entries, more than there are
      omega
  · -- not full: nothing changes
    have hroom' : st.bufCount.toNat < st.bufCap.toNat :=
      UInt32.lt_iff_toNat_lt.mp (UInt32.not_le.mp hfull)
    rw [if_neg hfull]
    exact ⟨h, by omega, rfl⟩

/-- A transaction is appended, unless there are `2^31` already. -/
theorem recvTx_holding {st : RecvState} {c : Collected} (h : Holding st c) (twp : TxWithPubkey)
    (hroom : c.msgs.length < 2 ^ 31) :
    ∃ st', recvTx st twp = .ok st' ∧ Holding st' { c with msgs := c.msgs ++ [twp] } := by
  rcases grow_holding h hroom with ⟨hgrow, hlt, hcount⟩
  have htx : (c.msgs.map TxWithPubkey.tx).length = st.bufCount.toNat := by
    rw [List.length_map, h.count]
  have hkey : (c.msgs.map TxWithPubkey.pubkey).length = st.bufCount.toNat := by
    rw [List.length_map, h.count]
  have hfree : st.bufCount.toNat < st.grow.bufCap.toNat := by
    rw [h.count]
    exact hlt
  have htxs := hgrow.txs.put twp.tx (by rw [htx, hgrow.txCap]; exact hfree)
  have hkeys := hgrow.pubkeys.put twp.pubkey (by rw [hkey, hgrow.pubkeyCap]; exact hfree)
  rw [htx] at htxs
  rw [hkey] at hkeys
  refine ⟨{ st.grow with
    txBuf := st.grow.txBuf.put st.bufCount.toNat twp.tx
    pubkeyBuf := st.grow.pubkeyBuf.put st.bufCount.toNat twp.pubkey
    bufCount := st.bufCount + 1 }, ?_, ?_⟩
  · unfold recvTx HeapBlock.store
    rw [hgrow.txCap, hgrow.pubkeyCap, if_pos hfree, if_pos hfree]
  · refine ⟨hgrow.doublings, hgrow.txCap, hgrow.pubkeyCap, ?_, ?_, ?_, hgrow.expected,
      hgrow.gotEnd⟩
    · rw [List.map_append]
      exact htxs
    · rw [List.map_append]
      exact hkeys
    · -- the counter stays below `2^32`
      show (st.bufCount + 1).toNat = (c.msgs ++ [twp]).length
      have hadd : (st.bufCount + 1).toNat = (st.bufCount.toNat + 1) % 2 ^ 32 :=
        UInt32.toNat_add st.bufCount 1
      have hc := h.count
      rw [hadd, List.length_append, List.length_singleton]
      omega

theorem recvTx_full {st : RecvState} {c : Collected} (h : Holding st c) (twp : TxWithPubkey)
    (hfull : ¬ c.msgs.length < 2 ^ 31) : recvTx st twp = .error .undefined := by
  rcases h.doublings with ⟨n, hn, hcap⟩
  have hle := h.count_le
  have hcount := h.count
  have hpow : 2 ^ n ≤ 2 ^ 22 := Nat.pow_le_pow_right (by decide) hn
  have hge : st.bufCount ≥ st.bufCap := by
    apply UInt32.le_iff_toNat_le.mpr
    omega
  have hzero : (st.bufCap * 2).toNat = 0 := by
    rcases doubled_cap hn hcap with ⟨hlt, hdouble⟩ | ⟨-, hzero⟩
    · have hsmall : 2 ^ n ≤ 2 ^ 21 := Nat.pow_le_pow_right (by decide) (by omega)
      omega
    · exact hzero
  -- the reallocated block is empty
  have hstore : ∀ {α : Type} (b : HeapBlock α) (a : α),
      (b.realloc (st.bufCap * 2).toNat).store st.bufCount.toNat a = none := by
    intro α b a
    apply HeapBlock.store_of_cap_le
    show (st.bufCap * 2).toNat ≤ _
    omega
  unfold recvTx RecvState.grow
  rw [if_pos hge]
  simp only [hstore]

/-- One receive on the buffers and one on the list: both are undefined, or both
go on in step. -/
theorem recvEvent_collect {st : RecvState} {c : Collected} (h : Holding st c) (ev : Option Bytes) :
    (recvEvent st ev = .error .undefined ∧ collectEvent c ev = .error .undefined) ∨
      ∃ st' c', recvEvent st ev = .ok st' ∧ collectEvent c ev = .ok c' ∧ Holding st' c' := by
  cases ev with
  | none => exact Or.inr ⟨st, c, rfl, rfl, h⟩
  | some raw =>
      unfold recvEvent collectEvent
      by_cases hend : raw.length = RoundEnd.codec.size
      · -- a marker, by its size
        simp only [if_pos hend]
        right
        exact ⟨_, _, rfl, rfl, h.doublings, h.txCap, h.pubkeyCap, h.txs, h.pubkeys, h.count, rfl, rfl⟩
      by_cases htx : raw.length = TxWithPubkey.codec.size
      · -- a transaction, by its size
        simp only [if_neg hend, if_pos htx]
        by_cases hroom : c.msgs.length < 2 ^ 31
        · rcases recvTx_holding h (TxWithPubkey.codec.dec raw) hroom with ⟨st', hok, h'⟩
          right
          exact ⟨st', _, hok, if_pos hroom, h'⟩
        · left
          exact ⟨recvTx_full h _ hroom, if_neg hroom⟩
      · -- anything else is dropped
        simp only [if_neg hend, if_neg htx]
        right
        exact ⟨st, c, rfl, rfl, h⟩

/-- The loop on the buffers and the loop on lists go in step. -/
theorem recvLoop_collect (evs : List (Option Bytes)) :
    ∀ {st : RecvState} {c : Collected}, Holding st c →
      (∃ e, recvLoop evs st = .error e ∧ collect evs c = .error e) ∨
        ∃ st' c' rest, recvLoop evs st = .ok (st', rest) ∧ collect evs c = .ok (c', rest) ∧
          Holding st' c' := by
  induction evs with
  | nil =>
      intro st c h
      rw [recvLoop, collect, h.done]
      by_cases hdone : c.done = true
      · rw [if_pos hdone, if_pos hdone]
        exact Or.inr ⟨st, c, [], rfl, rfl, h⟩
      · rw [if_neg hdone, if_neg hdone]
        exact Or.inl ⟨.blocked, rfl, rfl⟩
  | cons ev evs ih =>
      intro st c h
      -- both loops test the same condition
      rw [recvLoop, collect, h.done]
      by_cases hdone : c.done = true
      · rw [if_pos hdone, if_pos hdone]
        exact Or.inr ⟨st, c, ev :: evs, rfl, rfl, h⟩
      rw [if_neg hdone, if_neg hdone]
      rcases recvEvent_collect h ev with ⟨hrecv, hcollect⟩ | ⟨st', c', hrecv, hcollect, h'⟩
      · rw [hrecv, hcollect]
        exact Or.inl ⟨.undefined, rfl, rfl⟩
      · rw [hrecv, hcollect, Run.ok_bind, Run.ok_bind]
        exact ih h'

/-! ## The summary -/

/-- The 60 bytes of a fold step: the digest so far and a transaction hash. -/
def combined (runningHash : Digest) (h : TxHash) : Bytes := runningHash.toList ++ h.toList

/-- The left-to-right fold over the hashes, from 32 zero bytes. -/
def merkleFold (crypto : Crypto) (hashes : List TxHash) : Digest :=
  HashChain.chain crypto.sha256 combined (zeros 32) hashes

/-- The summary of a list of messages. -/
def summarise (crypto : Crypto) (shardId : UInt32) (msgs : List TxWithPubkey) : ShardSummary where
  shardId := shardId
  txCount := UInt32.ofNat msgs.length
  totalFees := (msgs.map fun m => m.tx.fee.toUInt64).sum
  merkleRoot := merkleFold crypto (msgs.map fun m => transactionComputeHash crypto m.tx)

/-- What a loop over the indices of a list computes, element by element. -/
theorem map_range_eq {α β : Type} (l : List α) (f : Nat → β) (g : α → β)
    (h : ∀ i (hi : i < l.length), f i = g l[i]) : (List.range l.length).map f = l.map g := by
  apply List.ext_getElem
  · simp
  · intro i hi hi'
    have hlt : i < l.length := by simpa using hi'
    simp [h i hlt]

/-- The fee that iteration `i` adds. -/
def feeAt (msgs : List TxWithPubkey) (i : Nat) : UInt64 :=
  match msgs[i]? with
  | some m => m.tx.fee.toUInt64
  | none => 0

/-- The iterations write the hash of every index they visit and add its fee to
the copy of their thread. -/
theorem iterations_ok (crypto : Crypto) {st : RecvState} {c : Collected} (h : Holding st c)
    (steps : List (Nat × Nat)) (hsteps : ∀ s ∈ steps, s.2 < c.msgs.length) (par : ParState)
    (hcap : par.txHashes.cap = c.msgs.length) :
    ∃ par', Run.run (iteration crypto st) par steps = .ok par' ∧
      par'.txHashes.cap = c.msgs.length ∧
      par'.totalFees = copiesAfter (feeAt c.msgs) steps par.totalFees ∧
      ∀ i (hi : i < c.msgs.length),
        i ∈ steps.map Prod.snd ∨
            par.txHashes.cells i = some (transactionComputeHash crypto c.msgs[i].tx) →
          par'.txHashes.cells i = some (transactionComputeHash crypto c.msgs[i].tx) := by
  induction steps generalizing par with
  | nil =>
      refine ⟨par, rfl, hcap, rfl, ?_⟩
      intro i hi hset
      rcases hset with hin | hset
      · cases hin
      · exact hset
  | cons s steps ih =>
      rcases s with ⟨thread, j⟩
      have hj : j < c.msgs.length := hsteps (thread, j) List.mem_cons_self
      have htx : st.txBuf.load j = some c.msgs[j].tx := by
        rw [h.txs.load j (by simpa using hj), List.getElem_map]
      have hkey : st.pubkeyBuf.load j = some c.msgs[j].pubkey := by
        rw [h.pubkeys.load j (by simpa using hj), List.getElem_map]
      have hfree : j < par.txHashes.cap := by
        rw [hcap]
        exact hj
      have hone : iteration crypto st par (thread, j) =
          .ok ⟨par.txHashes.put j (transactionComputeHash crypto c.msgs[j].tx),
            addTo par.totalFees thread c.msgs[j].tx.fee.toUInt64⟩ := by
        unfold iteration checkBuffered
        simp only [htx, hkey, Run.ok_bind, HeapBlock.store, if_pos hfree]
      have hfee : c.msgs[j].tx.fee.toUInt64 = feeAt c.msgs j := by
        rw [feeAt, List.getElem?_eq_getElem hj]
      rcases ih (fun r hr => hsteps r (List.mem_cons_of_mem _ hr))
          ⟨par.txHashes.put j (transactionComputeHash crypto c.msgs[j].tx),
            addTo par.totalFees thread c.msgs[j].tx.fee.toUInt64⟩ hcap
        with ⟨par', hrun, hcap', hfees, hhashes⟩
      refine ⟨par', ?_, hcap', ?_, ?_⟩
      · rw [Run.run, hone]
        exact hrun
      · rw [hfees, hfee]
        rfl
      · intro i hi hset
        apply hhashes i hi
        by_cases hij : i = j
        · -- this iteration writes index `i`; a later visit writes the same hash
          subst hij
          right
          exact Function.update_self i _ _
        · rcases hset with hin | hset
          · rcases List.mem_cons.mp hin with hhead | htail
            · exact absurd hhead hij
            · exact Or.inl htail
          · right
            rw [← hset]
            exact Function.update_of_ne hij _ _

theorem foldHashes_ok (crypto : Crypto) (txHashes : HeapBlock TxHash) (f : Nat → TxHash)
    (is : List Nat) (hload : ∀ i ∈ is, txHashes.load i = some (f i)) (runningHash : Digest) :
    foldHashes crypto txHashes is runningHash =
      .ok (HashChain.chain crypto.sha256 combined runningHash (is.map f)) := by
  induction is generalizing runningHash with
  | nil => rfl
  | cons i is ih =>
      rw [foldHashes, hload i List.mem_cons_self]
      exact ih (fun j hj => hload j (List.mem_cons_of_mem i hj)) _

/-- Phases 2 and 3 compute the summary of what the buffers hold, whatever the
schedule, as long as the loop bound is not negative. -/
theorem phases_ok (crypto : Crypto) (shardId : UInt32) (schedule : (k : Nat) → Schedule k)
    {st : RecvState} {c : Collected} (h : Holding st c) (hsmall : c.msgs.length < 2 ^ 31) :
    ∃ par, Run.run (iteration crypto st) ⟨HeapBlock.malloc st.bufCount.toNat, fun _ => 0⟩
        (schedule (loopBound st.bufCount)).steps = .ok par ∧
      foldHashes crypto par.txHashes (List.range st.bufCount.toNat) (zeros 32) =
        .ok (summarise crypto shardId c.msgs).merkleRoot ∧
      reduce (schedule (loopBound st.bufCount)).threads par.totalFees =
        (summarise crypto shardId c.msgs).totalFees := by
  have hcount := h.count
  have hbound : loopBound st.bufCount = c.msgs.length := by
    rw [loopBound, if_pos (by omega), hcount]
  rw [hbound, hcount]
  rcases iterations_ok crypto h (schedule c.msgs.length).steps (schedule c.msgs.length).index_lt
    ⟨HeapBlock.malloc c.msgs.length, fun _ => 0⟩ rfl with ⟨par, hrun, hcap, hfees, hhashes⟩
  -- every index is visited, so every hash is in its cell
  have hcell : ∀ i (hi : i < c.msgs.length),
      par.txHashes.load i = some (transactionComputeHash crypto c.msgs[i].tx) := by
    intro i hi
    have hvisited : i ∈ (schedule c.msgs.length).steps.map Prod.snd :=
      (schedule c.msgs.length).indices.symm.subset (List.mem_range.mpr hi)
    rw [HeapBlock.load, if_pos (by rw [hcap]; exact hi), hhashes i hi (Or.inl hvisited)]
  refine ⟨par, hrun, ?_, ?_⟩
  · have hload : ∀ i ∈ List.range c.msgs.length, par.txHashes.load i =
        some ((par.txHashes.load i).getD (zeros 28)) := by
      intro i hi
      rw [hcell i (List.mem_range.mp hi), Option.getD_some]
    rw [foldHashes_ok crypto par.txHashes _ _ hload]
    refine congrArg Except.ok ?_
    rw [map_range_eq c.msgs _ fun m => transactionComputeHash crypto m.tx]
    · rfl
    · intro i hi
      rw [hcell i hi, Option.getD_some]
  · rw [hfees, reduce_eq]
    rw [map_range_eq c.msgs _ fun m => m.tx.fee.toUInt64]
    · rfl
    · intro i hi
      rw [feeAt, List.getElem?_eq_getElem hi]

/-- With a negative loop bound no hash is written, and the fold reads the first. -/
theorem phases_undefined (crypto : Crypto) (schedule : (k : Nat) → Schedule k)
    (st : RecvState) (hbig : 2 ^ 31 ≤ st.bufCount.toNat) :
    ∃ par, Run.run (iteration crypto st) ⟨HeapBlock.malloc st.bufCount.toNat, fun _ => 0⟩
        (schedule (loopBound st.bufCount)).steps = .ok par ∧
      foldHashes crypto par.txHashes (List.range st.bufCount.toNat) (zeros 32) =
        .error .undefined := by
  have hbound : loopBound st.bufCount = 0 := by
    rw [loopBound, if_neg (by omega)]
  -- a loop without iterations
  have hnone : (schedule (loopBound st.bufCount)).steps = [] := by
    rw [hbound]
    have hlen := (schedule 0).indices.length_eq
    simpa using hlen
  have hrange : List.range st.bufCount.toNat =
      0 :: (List.range (st.bufCount.toNat - 1)).map Nat.succ := by
    rw [← List.range_succ_eq_map]
    congr 1
    omega
  have hload : (HeapBlock.malloc st.bufCount.toNat : HeapBlock TxHash).load 0 = none := by
    unfold HeapBlock.load HeapBlock.malloc
    split <;> rfl
  rw [hnone, hrange]
  refine ⟨_, rfl, ?_⟩
  rw [foldHashes, hload]

/-- The summary of what the buffers hold, below `2^31` messages. -/
theorem finishRound_eq (crypto : Crypto) (shardId : UInt32) (schedule : (k : Nat) → Schedule k)
    {st : RecvState} {c : Collected} (h : Holding st c) :
    finishRound crypto shardId schedule st =
      if c.msgs.length < 2 ^ 31 then .ok (summarise crypto shardId c.msgs)
      else .error .undefined := by
  have hcount := h.count
  unfold finishRound
  by_cases hzero : st.bufCount = 0
  · -- the early return: the summary of nothing
    have hempty : c.msgs = [] := by
      apply List.eq_nil_of_length_eq_zero
      rw [← hcount, hzero]
      rfl
    rw [if_pos hzero, hempty]
    rfl
  rw [if_neg hzero]
  by_cases hsmall : c.msgs.length < 2 ^ 31
  · rcases phases_ok crypto shardId schedule h hsmall with ⟨par, hrun, hfold, hreduce⟩
    have htxCount : st.bufCount = UInt32.ofNat c.msgs.length := by
      rw [← hcount, UInt32.ofNat_toNat]
    simp only [hrun, hfold, hreduce, Run.ok_bind, if_pos hsmall]
    rw [htxCount]
    rfl
  · rcases phases_undefined crypto schedule st (by omega) with ⟨par, hrun, hfold⟩
    simp only [hrun, Run.ok_bind, hfold, if_neg hsmall]
    rfl

/-- What `process_transactions` does with a stream: it gathers the messages of
the round, and below `2^31` of them their summary comes out. -/
theorem processTransactions_eq (crypto : Crypto) (shardId : UInt32)
    (schedule : (k : Nat) → Schedule k) (events : List (Option Bytes)) :
    processTransactions crypto shardId schedule events =
      match collect events ⟨[], 0, false⟩ with
      | .error e => .error e
      | .ok (c, rest) =>
          if c.msgs.length < 2 ^ 31 then .ok (summarise crypto shardId c.msgs, rest)
          else .error .undefined := by
  unfold processTransactions
  rcases recvLoop_collect events recvInit_holding with
    ⟨e, hrecv, hcollect⟩ | ⟨st, c, rest, hrecv, hcollect, h⟩
  · rw [hrecv, hcollect]
    rfl
  · rw [hrecv, hcollect, Run.ok_bind]
    simp only [finishRound_eq crypto shardId schedule h]
    by_cases hsmall : c.msgs.length < 2 ^ 31
    · rw [if_pos hsmall, if_pos hsmall]
      rfl
    · rw [if_neg hsmall, if_neg hsmall]
      rfl

end Sharding
