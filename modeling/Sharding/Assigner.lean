import Mathlib.Data.List.Count
import Mathlib.Data.UInt
import Sharding.Lib.Run
import Sharding.Mempool

/-! # The shard assigner

`shard_assigner.c`: a dispatch announces the round to shard 0, drains the pool,
sends every drained transaction to the shard its nonce selects, and closes the
round with one `RoundEnd` per shard. Every array access and division of the
function is checked here; `shardAssignerDispatch_eq` shows that none of the checks
fails and says in one equation what is sent.
-/

namespace Sharding

/-- `MAX_SHARDS` -/
def maxShards : Nat := 64

/-- What could go wrong in the receive, elect and dispatch loop. -/
inductive Fault where
  | nullAssigner
  | divByZero
  | shardIndex
  | nodeIndex
  | drainBuffer
  | uninitialised
  | overread
deriving DecidableEq, Repr

/-- `a % b` and `a / b` as the code computes them: undefined for `b = 0`. -/
def checkedMod (a b : Nat) : Except Fault Nat := if b = 0 then .error .divByZero else .ok (a % b)

def checkedDiv (a b : Nat) : Except Fault Nat := if b = 0 then .error .divByZero else .ok (a / b)

/-- `ShardAssigner`, with what `shard_assigner_create` has checked. -/
structure ShardAssigner where
  numShards : Nat
  roundNumber : UInt32
  assignedCounts : Vector UInt64 maxShards
  numShards_pos : 0 < numShards
  numShards_le : numShards ≤ maxShards

/-- `shard_assigner_create`: `none` is the null pointer. -/
def shardAssignerCreate (numShards : Nat) : Option ShardAssigner :=
  if h : numShards = 0 ∨ numShards > maxShards then none
  else some
    { numShards := numShards
      roundNumber := 0
      assignedCounts := Vector.replicate maxShards 0
      numShards_pos := by omega
      numShards_le := by omega }

/-- What goes over a push socket. -/
inductive PushMsg where
  | header (h : DispatchHeader)
  | tx (e : Entry)
  | roundEnd (e : RoundEnd)
deriving DecidableEq

/-- The bytes handed to `zmq_send`. -/
def PushMsg.bytes : PushMsg → Bytes
  | .header h => DispatchHeader.codec.enc h
  | .tx e => TxWithPubkey.codec.enc ⟨e.ptr.tx, e.pubkey⟩
  | .roundEnd e => RoundEnd.codec.enc e

/-- A message and the index of the push socket it is sent on. -/
structure Push where
  shard : Nat
  msg : PushMsg
deriving DecidableEq

/-- `shard_for_tx` -/
def shardForTx (tx : Transaction) (numShards : Nat) : Except Fault Nat :=
  checkedMod tx.nonce.toNat numShards

/-- The routing loop: send each drained transaction, count it for its shard. -/
def routeTxs (numShards : Nat) :
    List Entry → Vector UInt64 maxShards → Except Fault (List Push × Vector UInt64 maxShards)
  | [], counts => .ok ([], counts)
  | e :: es, counts => do
      let shardId ← shardForTx e.ptr.tx numShards
      if h : shardId < maxShards then
        let (sends, counts) ← routeTxs numShards es (counts.set shardId (counts[shardId] + 1))
        .ok (⟨shardId, .tx e⟩ :: sends, counts)
      else .error .shardIndex

/-- The closing loop: one `RoundEnd` for each of the shards `is`. -/
def roundEnds (roundNumber : UInt32) (counts : Vector UInt64 maxShards) :
    List Nat → Except Fault (List Push)
  | [] => .ok []
  | i :: is =>
      if h : i < maxShards then do
        let sends ← roundEnds roundNumber counts is
        .ok (⟨i, .roundEnd ⟨roundNumber, counts[i].toUInt32⟩⟩ :: sends)
      else .error .shardIndex

/-- `block_size` rounded down to a multiple of `num_shards`, at least one each. -/
def exactSize (blockSize numShards : Nat) : Except Fault Nat := do
  let q ← checkedDiv blockSize numShards
  let exact := q * numShards
  .ok (if exact = 0 then numShards else exact)

/-- What one dispatch sent: the pushes in order, then the completion notice. -/
structure Dispatch where
  drained : List Entry
  pushes : List Push
  done : DispatchDone

/-- `shard_assigner_dispatch`; `durationMs` is what its clock will have measured. -/
def shardAssignerDispatch (sa : ShardAssigner) (pool : Mempool) (roundStartMs : UInt64)
    (blockSize : Nat) (durationMs : UInt64) : Except Fault (ShardAssigner × Mempool × Dispatch) := do
  let round := sa.roundNumber + 1
  let header := DispatchHeader.mk roundStartMs round (UInt32.ofNat sa.numShards)
  let exact ← exactSize blockSize sa.numShards
  let (count, txs, pubkeys, pool) := mempoolDrain pool exact
  if count > mempoolMaxSize then .error .drainBuffer
  else
    match txs, pubkeys with
    | some drainBuf, some pubkeyBuf => do
        let drained := List.zipWith Entry.mk drainBuf pubkeyBuf
        let (sends, counts) ← routeTxs sa.numShards drained (Vector.replicate maxShards 0)
        let ends ← roundEnds round counts (List.range sa.numShards)
        .ok ({ sa with roundNumber := round, assignedCounts := counts }, pool,
          { drained := drained
            pushes := ⟨0, .header header⟩ :: (sends ++ ends)
            done := ⟨round, durationMs⟩ })
    | _, _ => .error .uninitialised

/-! ## One dispatch -/

/-- The shard a transaction belongs to. -/
def shardOf (numShards : Nat) (e : Entry) : Nat := e.ptr.tx.nonce.toNat % numShards

/-- How many of the entries `es` belong to shard `i`. -/
def shareOf (numShards i : Nat) (es : List Entry) : Nat :=
  es.countP fun e => shardOf numShards e == i

/-- How many transactions a dispatch drains at most. -/
def roundSize (blockSize numShards : Nat) : Nat :=
  if blockSize / numShards * numShards = 0 then numShards else blockSize / numShards * numShards

theorem shardOf_lt {numShards : Nat} (hpos : 0 < numShards) (e : Entry) :
    shardOf numShards e < numShards := Nat.mod_lt _ hpos

theorem shardForTx_eq {numShards : Nat} (hpos : 0 < numShards) (e : Entry) :
    shardForTx e.ptr.tx numShards = .ok (shardOf numShards e) := by
  have hne : numShards ≠ 0 := Nat.pos_iff_ne_zero.mp hpos
  rw [shardForTx, checkedMod, if_neg hne, shardOf]

theorem exactSize_eq {numShards : Nat} (blockSize : Nat) (hpos : 0 < numShards) :
    exactSize blockSize numShards = .ok (roundSize blockSize numShards) := by
  have hne : numShards ≠ 0 := Nat.pos_iff_ne_zero.mp hpos
  unfold exactSize checkedDiv roundSize
  rw [if_neg hne]
  rfl

/-- The counters after routing `es`: each shard's counter grew by its share. -/
def addShares (numShards : Nat) (es : List Entry) (counts : Vector UInt64 maxShards) :
    Vector UInt64 maxShards :=
  Vector.ofFn fun i => counts[i] + UInt64.ofNat (shareOf numShards i es)

theorem addShares_cons {numShards : Nat} (e : Entry) (es : List Entry)
    (counts : Vector UInt64 maxShards) (h : shardOf numShards e < maxShards) :
    addShares numShards es
        (counts.set (shardOf numShards e) (counts[shardOf numShards e] + 1)) =
      addShares numShards (e :: es) counts := by
  apply Vector.ext
  intro i hi
  by_cases hsame : shardOf numShards e = i
  · subst hsame
    have hcons : shareOf numShards (shardOf numShards e) (e :: es) =
        shareOf numShards (shardOf numShards e) es + 1 := by
      simp [shareOf]
    simp only [addShares, Vector.getElem_ofFn, Fin.getElem_fin, Vector.getElem_set_self, hcons,
      UInt64.ofNat_add]
    rw [UInt64.add_assoc, UInt64.add_comm 1]
    rfl
  · have hcons : shareOf numShards i (e :: es) = shareOf numShards i es := by
      simp [shareOf, hsame]
    simp only [addShares, Vector.getElem_ofFn, Fin.getElem_fin, hcons]
    rw [Vector.getElem_set_ne _ _ hsame]

/-- The routing loop in one equation. -/
theorem routeTxs_eq {numShards : Nat} (hpos : 0 < numShards) (hle : numShards ≤ maxShards)
    (es : List Entry) (counts : Vector UInt64 maxShards) :
    routeTxs numShards es counts =
      .ok (es.map fun e => ⟨shardOf numShards e, .tx e⟩, addShares numShards es counts) := by
  induction es generalizing counts with
  | nil =>
      have hnone : addShares numShards [] counts = counts := by
        apply Vector.ext
        intro i hi
        simp [addShares, shareOf]
      rw [routeTxs, hnone]
      rfl
  | cons e es ih =>
      have hlt : shardOf numShards e < maxShards :=
        Nat.lt_of_lt_of_le (shardOf_lt hpos e) hle
      rw [routeTxs, shardForTx_eq hpos e]
      show (if h : shardOf numShards e < maxShards then _ else _) = _
      rw [dif_pos hlt, ih, addShares_cons e es counts hlt]
      rfl

/-- The marker that closes round `round` for shard `i` when `drained` was drained. -/
def endMarker (numShards : Nat) (round : UInt32) (drained : List Entry) (i : Nat) : RoundEnd :=
  ⟨round, UInt32.ofNat (shareOf numShards i drained)⟩

theorem roundEnds_eq (round : UInt32) (counts : Vector UInt64 maxShards) (is : List Nat)
    (h : ∀ i ∈ is, i < maxShards) :
    roundEnds round counts is =
      .ok (is.map fun i => ⟨i, .roundEnd ⟨round, (counts.toList.getD i 0).toUInt32⟩⟩) := by
  induction is with
  | nil => rfl
  | cons i is ih =>
      have hi : i < maxShards := h i List.mem_cons_self
      have his : ∀ j ∈ is, j < maxShards := fun j hj => h j (List.mem_cons_of_mem _ hj)
      have hget : counts.toList.getD i 0 = counts[i] := by simp [hi]
      rw [roundEnds, dif_pos hi, ih his, List.map_cons, hget]
      rfl

/-- The closing loop after routing `es`: every marker carries its shard's share. -/
theorem roundEnds_shares {numShards : Nat} (hle : numShards ≤ maxShards) (round : UInt32)
    (es : List Entry) :
    roundEnds round (addShares numShards es (Vector.replicate maxShards 0))
        (List.range numShards) =
      .ok ((List.range numShards).map fun i => ⟨i, .roundEnd (endMarker numShards round es i)⟩) := by
  have hrange : ∀ i ∈ List.range numShards, i < maxShards := by
    intro i hi
    exact Nat.lt_of_lt_of_le (List.mem_range.mp hi) hle
  rw [roundEnds_eq _ _ _ hrange]
  refine congrArg Except.ok (List.map_congr_left ?_)
  intro i hi
  have hlt := hrange i hi
  simp [addShares, endMarker, hlt]

/-- What the dispatch of `drained` pushes, in order. -/
def pushesOf (numShards : Nat) (roundStartMs : UInt64) (round : UInt32) (drained : List Entry) :
    List Push :=
  ⟨0, .header ⟨roundStartMs, round, UInt32.ofNat numShards⟩⟩ ::
    ((drained.map fun e => ⟨shardOf numShards e, .tx e⟩) ++
      (List.range numShards).map fun i => ⟨i, .roundEnd (endMarker numShards round drained i)⟩)

/-- A dispatch never faults: it drains a prefix of the pool, empties the pool,
and pushes header, transactions and markers. -/
theorem shardAssignerDispatch_eq (sa : ShardAssigner) (pool : Mempool) (roundStartMs : UInt64)
    (blockSize : Nat) (durationMs : UInt64) :
    shardAssignerDispatch sa pool roundStartMs blockSize durationMs =
      let drained := pool.held.take (roundSize blockSize sa.numShards)
      .ok ({ sa with
              roundNumber := sa.roundNumber + 1
              assignedCounts := addShares sa.numShards drained (Vector.replicate maxShards 0) },
        pool.reset,
        { drained := drained
          pushes := pushesOf sa.numShards roundStartMs (sa.roundNumber + 1) drained
          done := ⟨sa.roundNumber + 1, durationMs⟩ }) := by
  have hpos := sa.numShards_pos
  have hle := sa.numShards_le
  have hfit : ¬ (pool.held.take (roundSize blockSize sa.numShards)).length > mempoolMaxSize := by
    have htake := List.length_take_le' (roundSize blockSize sa.numShards) pool.held
    have hheld := pool.held_length_le
    omega
  have hzip : ∀ es : List Entry,
      List.zipWith Entry.mk (es.map Entry.ptr) (es.map Entry.pubkey) = es := by
    intro es
    induction es with
    | nil => rfl
    | cons e es ih => simp [ih]
  unfold shardAssignerDispatch
  simp only [exactSize_eq blockSize hpos, mempoolDrain_eq, Run.ok_bind, if_neg hfit, hzip,
    routeTxs_eq hpos hle, roundEnds_shares hle, pushesOf]

/-! ## What one shard and the log see -/

/-- The messages sent on push socket `i`, in order. -/
def messagesTo (i : Nat) (pushes : List Push) : List PushMsg :=
  (pushes.filter fun p => p.shard == i).map Push.msg

/-- The transactions among the pushes. -/
def sentEntries (pushes : List Push) : List Entry :=
  pushes.filterMap fun p =>
    match p.msg with
    | .tx e => some e
    | _ => none

/-- The share of shard `i` in the drained transactions, in order. -/
def shareList (numShards i : Nat) (drained : List Entry) : List Entry :=
  drained.filter fun e => shardOf numShards e == i

theorem shareList_length (numShards i : Nat) (drained : List Entry) :
    (shareList numShards i drained).length = shareOf numShards i drained := by
  rw [shareList, shareOf, List.countP_eq_length_filter]

/-- The framing of a round for one shard: the header for shard 0 alone, the
shard's transactions in the order they were drained, one marker. -/
theorem messagesTo_pushesOf {numShards i : Nat} (hi : i < numShards) (roundStartMs : UInt64)
    (round : UInt32) (drained : List Entry) :
    messagesTo i (pushesOf numShards roundStartMs round drained) =
      (if i = 0 then [.header ⟨roundStartMs, round, UInt32.ofNat numShards⟩] else []) ++
        (shareList numShards i drained).map .tx ++
        [.roundEnd (endMarker numShards round drained i)] := by
  have hheader : messagesTo i [⟨0, .header ⟨roundStartMs, round, UInt32.ofNat numShards⟩⟩] =
      if i = 0 then [.header ⟨roundStartMs, round, UInt32.ofNat numShards⟩] else [] := by
    by_cases h0 : i = 0
    · simp [messagesTo, h0]
    · have hne : ¬ 0 = i := fun h => h0 h.symm
      simp [messagesTo, h0, hne]
  have htxs : messagesTo i (drained.map fun e => ⟨shardOf numShards e, .tx e⟩) =
      (shareList numShards i drained).map .tx := by
    simp [messagesTo, shareList, List.filter_map, Function.comp_def]
  -- every shard below `numShards` gets exactly one marker
  have hends : messagesTo i ((List.range numShards).map fun j =>
      ⟨j, .roundEnd (endMarker numShards round drained j)⟩) =
        [.roundEnd (endMarker numShards round drained i)] := by
    have hone : (List.range numShards).filter (fun j => j == i) = [i] := by
      have hcount : (List.range numShards).count i = 1 :=
        List.count_eq_one_of_mem List.nodup_range (List.mem_range.mpr hi)
      rw [List.filter_beq, hcount]
      rfl
    simp only [messagesTo, List.filter_map, Function.comp_def, hone, List.map_cons, List.map_nil]
  have happend : ∀ a b : List Push, messagesTo i (a ++ b) = messagesTo i a ++ messagesTo i b := by
    intro a b
    simp [messagesTo]
  have hsplit : pushesOf numShards roundStartMs round drained =
      [⟨0, .header ⟨roundStartMs, round, UInt32.ofNat numShards⟩⟩] ++
        ((drained.map fun e => ⟨shardOf numShards e, .tx e⟩) ++
          (List.range numShards).map fun j =>
            ⟨j, .roundEnd (endMarker numShards round drained j)⟩) := rfl
  rw [hsplit, happend, happend, hheader, htxs, hends, List.append_assoc]

theorem sentEntries_pushesOf (numShards : Nat) (roundStartMs : UInt64) (round : UInt32)
    (drained : List Entry) :
    sentEntries (pushesOf numShards roundStartMs round drained) = drained := by
  simp [sentEntries, pushesOf, List.filterMap_append, List.filterMap_map]

/-- A transaction is pushed to the shard its nonce selects. -/
theorem tx_mem_pushesOf {numShards : Nat} {roundStartMs : UInt64} {round : UInt32}
    {drained : List Entry} {i : Nat} {e : Entry} :
    ⟨i, .tx e⟩ ∈ pushesOf numShards roundStartMs round drained ↔
      e ∈ drained ∧ i = shardOf numShards e := by
  simp only [pushesOf, List.mem_cons, List.mem_append, List.mem_map, Push.mk.injEq, reduceCtorEq,
    and_false, false_or, exists_false, or_false, PushMsg.tx.injEq]
  constructor
  · rintro ⟨e', he', hi, rfl⟩
    exact ⟨he', hi.symm⟩
  · rintro ⟨he, rfl⟩
    exact ⟨e, he, rfl, rfl⟩

end Sharding
