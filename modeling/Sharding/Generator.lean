import Sharding.Lib.Blocks
import Sharding.Lib.CInt
import Sharding.Lib.ParallelFor
import Sharding.Lib.Run
import Sharding.Wallet

/-! # The generator's batches

The parallel loop of the generator's `main`: which transactions are created, in
which batches, by which thread. The bounds of a batch are computed in `int`s, and
an overflow there is undefined. As long as none happens the batches are the
blocks of the range of all transactions, so every nonce is issued exactly once.
-/

namespace Sharding

open ParallelFor

/-! ## The loop -/

/-- `MAX_BATCH_SIZE` -/
def maxBatchSize : Int := 256

/-- `MAX_THREADS` -/
def maxThreads : Int := 64

/-- What the creation of the transactions takes from the command line. -/
structure GeneratorArgs where
  toAddr : Address
  amount : UInt64
  totalCount : Int
  numThreads : Int
  batchSize : Int
  baseNonce : Int

/-- What could go wrong in the loop: an `int` or the nonce overflows, or a thread
has no wallet. -/
inductive GeneratorFault where
  | overflow
  | threadIndex
deriving DecidableEq

/-- The result of `int` arithmetic. -/
def int (x : Int) : Except GeneratorFault Int := CInt.checked .overflow 32 x

/-- The result of `int64_t` arithmetic. -/
def int64 (x : Int) : Except GeneratorFault Int := CInt.checked .overflow 64 x

def clampBatchSize (batchSize : Int) : Int :=
  let batchSize := if batchSize > maxBatchSize then maxBatchSize else batchSize
  if batchSize < 1 then 1 else batchSize

def clampThreads (numThreads : Int) : Int :=
  let numThreads := if numThreads < 1 then 1 else numThreads
  if numThreads > maxThreads then maxThreads else numThreads

/-- `(total_count + batch_size - 1) / batch_size`, from left to right. -/
def numBatches (totalCount batchSize : Int) : Except GeneratorFault Int := do
  let x ← int (totalCount + batchSize)
  let x ← int (x - 1)
  int (x.tdiv batchSize)

/-- `expiry` -/
def txExpiry (currentHeight expiryBlocks : UInt32) : UInt32 :=
  if expiryBlocks > 0 then currentHeight + expiryBlocks else 0

/-- The next `n` transactions of a batch, from number `i` on. -/
def createTxs (crypto : Crypto) (args : GeneratorArgs) (wallet : Wallet) :
    Nat → Int → Except GeneratorFault (List Transaction)
  | 0, _ => .ok []
  | n + 1, i => do
      let nonce ← int64 (args.baseNonce + i)
      let tx := transactionCreate crypto wallet args.toAddr args.amount 1 (UInt64.ofInt nonce)
        (txExpiry 0 1000)
      let rest ← createTxs crypto args wallet n (i + 1)
      .ok (tx :: rest)

/-- The `raw_txs` of iteration `b` on thread `tid`. -/
def createBatch (crypto : Crypto) (args : GeneratorArgs) (threadWallets : List Wallet)
    (batchSize : Int) (step : Nat × Nat) : Except GeneratorFault (List Transaction) :=
  let (tid, b) := step
  match threadWallets[tid]? with
  | none => .error .threadIndex
  | some wallet => do
      let txStart ← int (b * batchSize)
      let txEnd ← int (txStart + batchSize)
      let txEnd := if txEnd > args.totalCount then args.totalCount else txEnd
      let batchCount ← int (txEnd - txStart)
      createTxs crypto args wallet batchCount.toNat txStart

/-- The loop body, behind the batches created so far. -/
def nextBatch (crypto : Crypto) (args : GeneratorArgs) (threadWallets : List Wallet)
    (batchSize : Int) (batches : List (List Transaction)) (step : Nat × Nat) :
    Except GeneratorFault (List (List Transaction)) := do
  let rawTxs ← createBatch crypto args threadWallets batchSize step
  .ok (batches ++ [rawTxs])

/-- All batches, in the order in which the iterations run. -/
def generate (crypto : Crypto) (args : GeneratorArgs) (wallet : Wallet)
    (schedule : (k : Nat) → Schedule k) : Except GeneratorFault (List (List Transaction)) := do
  let batchSize := clampBatchSize args.batchSize
  let threadWallets := List.replicate (clampThreads args.numThreads).toNat wallet
  let numBatches ← numBatches args.totalCount batchSize
  Run.run (nextBatch crypto args threadWallets batchSize) [] (schedule numBatches.toNat).steps

/-! ## The batches as blocks -/

theorem int_ok {x : Int} (hlow : -2147483648 ≤ x) (hhigh : x ≤ 2147483647) : int x = .ok x :=
  CInt.checked_ok (CInt.fits_int.mpr ⟨hlow, hhigh⟩)

theorem int64_ok {x : Int} (hlow : -9223372036854775808 ≤ x) (hhigh : x ≤ 9223372036854775807) :
    int64 x = .ok x :=
  CInt.checked_ok (CInt.fits_long.mpr ⟨hlow, hhigh⟩)

theorem clampBatchSize_bounds (batchSize : Int) :
    1 ≤ clampBatchSize batchSize ∧ clampBatchSize batchSize ≤ 256 := by
  unfold clampBatchSize maxBatchSize
  dsimp only
  split <;> split <;> omega

/-- Nonce number `i`. -/
def nonceAt (args : GeneratorArgs) (i : Nat) : UInt64 := UInt64.ofInt (args.baseNonce + i)

/-- Transaction number `i`. -/
def txAt (crypto : Crypto) (args : GeneratorArgs) (wallet : Wallet) (i : Nat) : Transaction :=
  transactionCreate crypto wallet args.toAddr args.amount 1 (nonceAt args i) (txExpiry 0 1000)

/-- The nonces of the arguments: no `int64_t` overflow on the way. -/
structure NoncesFit (args : GeneratorArgs) : Prop where
  count : 0 ≤ args.totalCount
  count_le : args.totalCount ≤ 2147483647
  base : -9223372036854775808 ≤ args.baseNonce
  last : args.baseNonce + args.totalCount ≤ 9223372036854775807

theorem createTxs_ok (crypto : Crypto) {args : GeneratorArgs} (hfit : NoncesFit args)
    (wallet : Wallet) (n : Nat) : ∀ i : Nat, (i + n : Int) ≤ args.totalCount →
      createTxs crypto args wallet n i = .ok ((List.range' i n).map (txAt crypto args wallet)) := by
  have hbase := hfit.base
  have hlast := hfit.last
  induction n with
  | zero =>
      intro i _
      rfl
  | succ n ih =>
      intro i hi
      have hnonce : int64 (args.baseNonce + i) = .ok (args.baseNonce + i) :=
        int64_ok (by omega) (by omega)
      have hrest := ih (i + 1) (by omega)
      rw [Int.natCast_succ] at hrest
      rw [createTxs, hnonce, Run.ok_bind, hrest, List.range'_succ]
      rfl

/-- Iteration `b` creates block `b`. -/
theorem createBatch_ok (crypto : Crypto) {args : GeneratorArgs} (hfit : NoncesFit args)
    {threadWallets : List Wallet} {total size tid b : Nat} (htotal : args.totalCount = total)
    (hsize : 0 < size) (hsum : total + size ≤ 2147483647) {wallet : Wallet}
    (hwallet : threadWallets[tid]? = some wallet) (hb : b < Blocks.blockCount total size) :
    createBatch crypto args threadWallets size (tid, b) =
      .ok ((Blocks.block total size b).map (txAt crypto args wallet)) := by
  have hstart := Blocks.start_lt hsize hb
  have htxStart : int (b * size : Int) = .ok ((b * size : Nat) : Int) := by
    rw [← Int.natCast_mul]
    exact int_ok (by omega) (by omega)
  have htxEnd : int (((b * size : Nat) : Int) + size) = .ok ((b * size : Nat) + size) :=
    int_ok (by omega) (by omega)
  have hclamp : (if (((b * size : Nat) : Int) + size) > args.totalCount then args.totalCount
      else ((b * size : Nat) : Int) + size) = (Blocks.blockEnd total size b : Nat) := by
    unfold Blocks.blockEnd
    rw [htotal]
    split <;> omega
  have hend : Blocks.blockEnd total size b ≤ total := Nat.min_le_right _ _
  have hbegin : b * size ≤ Blocks.blockEnd total size b := by
    unfold Blocks.blockEnd
    omega
  have hcount : int ((Blocks.blockEnd total size b : Nat) - ((b * size : Nat) : Int)) =
      .ok ((Blocks.blockEnd total size b - b * size : Nat) : Int) := by
    rw [Int.ofNat_sub hbegin]
    exact int_ok (by omega) (by omega)
  unfold createBatch
  simp only [hwallet]
  rw [htxStart, Run.ok_bind, htxEnd, Run.ok_bind, hclamp, hcount, Run.ok_bind, Int.toNat_natCast]
  exact createTxs_ok crypto hfit wallet _ _ (by omega)

theorem numBatches_ok {total size : Nat} (hsize : 0 < size) (hsum : total + size ≤ 2147483647) :
    numBatches total size = .ok (Blocks.blockCount total size : Nat) := by
  have hfirst : int ((total : Int) + size) = .ok ((total : Int) + size) :=
    int_ok (by omega) (by omega)
  have hpred : (total : Int) + size - 1 = (total + size - 1 : Nat) := by omega
  have hsecond : int ((total : Int) + size - 1) = .ok ((total + size - 1 : Nat) : Int) := by
    rw [hpred]
    exact int_ok (by omega) (by omega)
  have hle : Blocks.blockCount total size ≤ total + size - 1 := Nat.div_le_self _ _
  have hquot : int (((total + size - 1 : Nat) : Int).tdiv size) =
      .ok (Blocks.blockCount total size : Nat) := by
    rw [← Int.ofNat_tdiv]
    show int (Blocks.blockCount total size : Nat) = _
    exact int_ok (by omega) (by omega)
  unfold numBatches
  rw [hfirst, Run.ok_bind, hsecond, Run.ok_bind, hquot]

theorem numBatches_overflow {total size : Int} (hsum : 2147483647 < total + size) :
    numBatches total size = .error .overflow := by
  have hfirst : int (total + size) = .error .overflow := by
    apply CInt.checked_error
    rw [CInt.fits_int]
    omega
  unfold numBatches
  rw [hfirst]
  rfl

/-- A run of the loop creates the blocks of its iterations. -/
theorem nextBatch_run (crypto : Crypto) {args : GeneratorArgs} (hfit : NoncesFit args)
    (wallet : Wallet) {threads total size : Nat} (htotal : args.totalCount = total)
    (hsize : 0 < size) (hsum : total + size ≤ 2147483647) (steps : List (Nat × Nat)) :
    (∀ s ∈ steps, s.1 < threads ∧ s.2 < Blocks.blockCount total size) → ∀ batches,
      Run.run (nextBatch crypto args (List.replicate threads wallet) size) batches steps =
        .ok (batches ++ steps.map fun s =>
          (Blocks.block total size s.2).map (txAt crypto args wallet)) := by
  induction steps with
  | nil =>
      intro _ batches
      rw [List.map_nil, List.append_nil]
      rfl
  | cons s steps ih =>
      intro hsteps batches
      rcases hsteps s List.mem_cons_self with ⟨hthread, hblock⟩
      have hwallet : (List.replicate threads wallet)[s.1]? = some wallet :=
        List.getElem?_replicate_of_lt hthread
      have hone := createBatch_ok crypto hfit htotal hsize hsum hwallet hblock
      have hrest := ih (fun r hr => hsteps r (List.mem_cons_of_mem s hr))
        (batches ++ [(Blocks.block total size s.2).map (txAt crypto args wallet)])
      rw [List.append_assoc] at hrest
      rw [Run.run, nextBatch, hone]
      exact hrest

/-! ## Nonces -/

/-- The nonces of `txs` are the `totalCount` ones from `baseNonce` on, each once. -/
structure IssuedOnce (args : GeneratorArgs) (txs : List Transaction) : Prop where
  nonces : (txs.map Transaction.nonce).Perm
    ((List.range args.totalCount.toNat).map (nonceAt args))
  once : (txs.map Transaction.nonce).Nodup

/-- Nonces less than `2^64` apart are different as `uint64_t`. -/
theorem nonceAt_inj {args : GeneratorArgs} {i j : Nat} (hi : i < 2 ^ 64) (hj : j < 2 ^ 64)
    (h : nonceAt args i = nonceAt args j) : i = j := by
  unfold nonceAt at h
  rw [UInt64.ofInt_add, UInt64.ofInt_add] at h
  have heq : UInt64.ofInt i = UInt64.ofInt j := (UInt64.add_right_inj _).mp h
  have hmod : ∀ {k : Nat}, k < 2 ^ 64 → (UInt64.ofInt k).toNat = k := by
    intro k hk
    have hk' : ((k : Int) % 2 ^ 64).toNat = k := by omega
    rw [UInt64.ofInt, hk']
    exact UInt64.toNat_ofNat_of_lt' hk
  calc i = (UInt64.ofInt i).toNat := (hmod hi).symm
    _ = (UInt64.ofInt j).toNat := by rw [heq]
    _ = j := hmod hj

/-- All blocks in any order issue every nonce once. -/
theorem issuedOnce_blocks (crypto : Crypto) {args : GeneratorArgs} (hfit : NoncesFit args)
    (wallet : Wallet) {total size : Nat} (htotal : args.totalCount = total) (hsize : 0 < size)
    {order : List Nat} (horder : order.Perm (List.range (Blocks.blockCount total size))) :
    IssuedOnce args (order.map fun b =>
      (Blocks.block total size b).map (txAt crypto args wallet)).flatten := by
  have hle := hfit.count_le
  have hnonce : Transaction.nonce ∘ txAt crypto args wallet = nonceAt args :=
    funext fun i => transactionCreate_nonce _ _ _ _ _ _ _
  have hnonces : (order.map fun b =>
      (Blocks.block total size b).map (txAt crypto args wallet)).flatten.map Transaction.nonce =
        (order.flatMap (Blocks.block total size)).map (nonceAt args) := by
    rw [← List.flatMap_def, List.map_flatMap, List.map_flatMap]
    simp only [List.map_map, hnonce]
  have hperm := (Blocks.blocks_perm hsize horder).map (nonceAt args)
  constructor
  · rw [hnonces, htotal]
    exact hperm
  · rw [hnonces, hperm.nodup_iff]
    apply List.Nodup.map_on
    · intro i hi j hj heq
      have hi' := List.mem_range.mp hi
      have hj' := List.mem_range.mp hj
      exact nonceAt_inj (by omega) (by omega) heq
    · exact List.nodup_range

/-- Without overflow the batches are the blocks, in the order of the schedule. -/
theorem generate_ok (crypto : Crypto) {args : GeneratorArgs} (hfit : NoncesFit args)
    (wallet : Wallet) {schedule : (k : Nat) → Schedule k}
    (hthreads : ∀ k, ∀ s ∈ (schedule k).steps, s.1 < (clampThreads args.numThreads).toNat)
    {total size : Nat} (htotal : args.totalCount = total) (hsize : clampBatchSize args.batchSize = size)
    (hpos : 0 < size) (hsum : total + size ≤ 2147483647) :
    generate crypto args wallet schedule =
      .ok (((schedule (Blocks.blockCount total size)).steps.map Prod.snd).map fun b =>
        (Blocks.block total size b).map (txAt crypto args wallet)) := by
  have hrun := nextBatch_run crypto hfit wallet htotal hpos hsum
    (schedule (Blocks.blockCount total size)).steps
    (fun s hs => ⟨hthreads _ s hs, (schedule _).index_lt s hs⟩) []
  have hnum := numBatches_ok hpos hsum
  unfold generate
  simp only [htotal, hsize, hnum, Run.ok_bind, Int.toNat_natCast, List.map_map]
  exact hrun

/-- An overflow of the first sum shows at once. -/
theorem generate_overflow (crypto : Crypto) {args : GeneratorArgs} (wallet : Wallet)
    (schedule : (k : Nat) → Schedule k)
    (hbig : 2147483647 < args.totalCount + clampBatchSize args.batchSize) :
    generate crypto args wallet schedule = .error .overflow := by
  have hover := numBatches_overflow hbig
  unfold generate
  simp only [hover]
  rfl

/-- Every batch is a block. -/
theorem generate_blocks (crypto : Crypto) {args : GeneratorArgs} (hfit : NoncesFit args)
    (wallet : Wallet) {schedule : (k : Nat) → Schedule k}
    (hthreads : ∀ k, ∀ s ∈ (schedule k).steps, s.1 < (clampThreads args.numThreads).toNat)
    {batches : List (List Transaction)}
    (hok : generate crypto args wallet schedule = .ok batches) {total size : Nat}
    (htotal : args.totalCount = total) (hsize : clampBatchSize args.batchSize = size) :
    ∀ rawTxs ∈ batches, ∃ b < Blocks.blockCount total size,
      rawTxs = (Blocks.block total size b).map (txAt crypto args wallet) := by
  have hbounds := clampBatchSize_bounds args.batchSize
  have hsum : args.totalCount + clampBatchSize args.batchSize ≤ 2147483647 := by
    by_contra hbig
    rw [generate_overflow crypto wallet schedule (Int.not_le.mp hbig)] at hok
    cases hok
  rw [generate_ok crypto hfit wallet hthreads htotal hsize (by omega) (by omega)] at hok
  obtain rfl := Except.ok.inj hok
  intro rawTxs hmem
  rcases List.mem_map.mp hmem with ⟨b, hb, rfl⟩
  exact ⟨b, List.mem_range.mp ((schedule _).indices.subset hb), rfl⟩

/-- No batch is empty or larger than `MAX_BATCH_SIZE`. -/
theorem generate_sized (crypto : Crypto) {args : GeneratorArgs} (hfit : NoncesFit args)
    (wallet : Wallet) {schedule : (k : Nat) → Schedule k}
    (hthreads : ∀ k, ∀ s ∈ (schedule k).steps, s.1 < (clampThreads args.numThreads).toNat)
    {batches : List (List Transaction)}
    (hok : generate crypto args wallet schedule = .ok batches) :
    ∀ rawTxs ∈ batches, 1 ≤ rawTxs.length ∧ rawTxs.length ≤ 256 := by
  have hbounds := clampBatchSize_bounds args.batchSize
  have hcount := hfit.count
  have htotal : args.totalCount = args.totalCount.toNat := by omega
  have hsize : clampBatchSize args.batchSize = (clampBatchSize args.batchSize).toNat := by omega
  intro rawTxs hmem
  rcases generate_blocks crypto hfit wallet hthreads hok htotal hsize rawTxs hmem with ⟨b, hlt, rfl⟩
  have hstart := Blocks.start_lt (by omega) hlt
  rw [List.length_map, Blocks.block, List.length_range', Blocks.blockEnd]
  omega

/-- Whatever thread takes which batch when: the loop computes without overflow
and issues every nonce once if and only if the first sum, of the count and the
batch size, fits an `int`. -/
theorem nonces_once_iff (crypto : Crypto) (args : GeneratorArgs) (wallet : Wallet)
    (hfit : NoncesFit args) (schedule : (k : Nat) → Schedule k)
    (hthreads : ∀ k, ∀ s ∈ (schedule k).steps, s.1 < (clampThreads args.numThreads).toNat) :
    (∃ batches, generate crypto args wallet schedule = .ok batches ∧
        IssuedOnce args batches.flatten) ↔
      args.totalCount + clampBatchSize args.batchSize ≤ 2147483647 := by
  have hbounds := clampBatchSize_bounds args.batchSize
  have hcount := hfit.count
  constructor
  · rintro ⟨batches, hok, -⟩
    by_contra hbig
    rw [generate_overflow crypto wallet schedule (Int.not_le.mp hbig)] at hok
    cases hok
  · intro hsum
    -- from here on in natural numbers
    have htotal : args.totalCount = args.totalCount.toNat := by omega
    have hsize : clampBatchSize args.batchSize = (clampBatchSize args.batchSize).toNat := by omega
    have hpos : 0 < (clampBatchSize args.batchSize).toNat := by omega
    refine ⟨_, generate_ok crypto hfit wallet hthreads htotal hsize hpos (by omega), ?_⟩
    exact issuedOnce_blocks crypto hfit wallet htotal hpos (schedule _).indices

/-- Three transactions in batches of two, on one thread. -/
def threeTxs : GeneratorArgs := ⟨zeros 20, 1, 3, 1, 2, -1⟩

/-- A wallet without a key. -/
def unkeyed : Wallet := ⟨zeros 20, zeros 32, none⟩

theorem nonces_once_iff_three :
    (∃ batches, generate Crypto.rejecting threeTxs unkeyed Schedule.sequential = .ok batches ∧
        IssuedOnce threeTxs batches.flatten) ↔
      threeTxs.totalCount + clampBatchSize threeTxs.batchSize ≤ 2147483647 :=
  nonces_once_iff Crypto.rejecting threeTxs unkeyed ⟨by decide, by decide, by decide, by decide⟩
    Schedule.sequential (by simp [Schedule.sequential, threeTxs, clampThreads, maxThreads])

/-- The largest count, in batches of the default size. -/
def largestCount : GeneratorArgs := ⟨zeros 20, 1, 2147483647, 48, 64, 0⟩

/-- Already the number of batches overflows. -/
theorem largest_count_overflows :
    ¬ ∀ (crypto : Crypto) (args : GeneratorArgs) (wallet : Wallet), NoncesFit args →
      ∀ schedule : (k : Nat) → Schedule k,
        (∀ k, ∀ s ∈ (schedule k).steps, s.1 < (clampThreads args.numThreads).toNat) →
        ∃ batches, generate crypto args wallet schedule = .ok batches ∧
          IssuedOnce args batches.flatten := by
  intro hclaim
  have hfit : NoncesFit largestCount := ⟨by decide, by decide, by decide, by decide⟩
  have hthreads : ∀ k, ∀ s ∈ (Schedule.sequential k).steps,
      s.1 < (clampThreads largestCount.numThreads).toNat := by
    simp [Schedule.sequential, largestCount, clampThreads, maxThreads]
  rcases hclaim Crypto.rejecting largestCount unkeyed hfit Schedule.sequential hthreads with
    ⟨batches, hok, -⟩
  rw [generate_overflow Crypto.rejecting unkeyed Schedule.sequential (by decide)] at hok
  cases hok

end Sharding
