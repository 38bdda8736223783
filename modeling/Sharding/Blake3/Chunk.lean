import Sharding.Blake3
import Sharding.Lib.HashChain

/-! # What hashing a chunk computes

A chunk is cut into blocks of 64 bytes, the last one shorter or full and padded
with zeros. Its chaining value is the hash chain over the blocks, each with its
length, the chunk's counter and its flags: the first block carries `CHUNK_START`,
the last `CHUNK_END`.
-/

namespace Sharding.Blake3

/-- The chaining value that a call of `compress` results in. -/
def cvOf (f : Compress) (args : CompressArgs) : Words := firstWords (f args)

/-- The flag `bit` is set. -/
def hasFlag (flags bit : UInt8) : Bool := flags &&& bit != 0

/-- What a block adds to the chain. -/
structure Step where
  block : Vector UInt8 64
  blockLen : UInt8
  counter : UInt64
  flags : UInt8

namespace Step

def args (cv : Words) (s : Step) : CompressArgs := ⟨cv, s.block, s.blockLen, s.counter, s.flags⟩

/-- The input in the block. -/
def bytes (s : Step) : Bytes := s.block.toList.take s.blockLen.toNat

def isFirst (s : Step) : Bool := hasFlag s.flags chunkStart

end Step

/-- The steps over the rest of a chunk; `start` is the start flag of its first block. -/
def chunkSteps (counter : UInt64) (flags start : UInt8) (bytes : Bytes) : List Step :=
  if bytes.length ≤ 64 then
    [⟨Codec.takeVec 64 bytes, UInt8.ofNat bytes.length, counter, flags ||| start ||| chunkEnd⟩]
  else
    ⟨Codec.takeVec 64 bytes, 64, counter, flags ||| start⟩ ::
      chunkSteps counter flags 0 (bytes.drop 64)
termination_by bytes.length
decreasing_by
  rw [List.length_drop]
  omega

/-- The flags a hasher is initialised with. -/
def HasherFlags (flags : UInt8) : Prop := flags = 0 ∨ flags = keyedHash

/-! ## Flags -/

theorem hasFlag_or (a b bit : UInt8) :
    hasFlag (a ||| b) bit = (hasFlag a bit || hasFlag b bit) := by
  have hdistrib : (a ||| b) &&& bit = (a &&& bit) ||| (b &&& bit) := by
    apply UInt8.toBitVec_inj.mp
    ext i hi
    simp [Bool.and_or_distrib_right]
  rw [Bool.eq_iff_iff]
  simp only [hasFlag, hdistrib, bne_iff_ne, ne_eq, UInt8.or_eq_zero_iff, Bool.or_eq_true]
  tauto

/-- The flags of a hasher are none of the flags set later. -/
theorem HasherFlags.not_set {flags : UInt8} (h : HasherFlags flags) :
    hasFlag flags chunkStart = false ∧ hasFlag flags chunkEnd = false ∧
      hasFlag flags parentFlag = false := by
  rcases h with rfl | rfl
  · decide
  · decide

/-! ## The steps show the chunk -/

theorem args_inj {cv cv' : Words} {s s' : Step} (h : s.args cv = s'.args cv') :
    cv = cv' ∧ s = s' := by
  rcases s with ⟨block, blockLen, counter, flags⟩
  rcases s' with ⟨block', blockLen', counter', flags'⟩
  injection h with hcv hblock hlen hcounter hflags
  subst hcv hblock hlen hcounter hflags
  exact ⟨rfl, rfl⟩

/-- The blocks of the steps make up the chunk. -/
theorem chunkSteps_bytes (counter : UInt64) (flags start : UInt8) (bytes : Bytes) :
    (chunkSteps counter flags start bytes).flatMap Step.bytes = bytes := by
  fun_induction chunkSteps counter flags start bytes with
  | case1 start bytes hshort =>
      have hlen : (UInt8.ofNat bytes.length).toNat = bytes.length := by
        rw [UInt8.toNat_ofNat', Nat.mod_eq_of_lt (by omega)]
      rw [List.flatMap_singleton, Step.bytes, hlen, Codec.toList_takeVec hshort,
        List.take_left' rfl]
  | case2 start bytes hlong ih =>
      have hlen : (bytes.take 64).length = 64 := by
        rw [List.length_take]
        omega
      have hblock : (Codec.takeVec 64 bytes).toList = bytes.take 64 := by
        rw [← Codec.takeVec_take, Codec.toList_takeVec (Nat.le_of_eq hlen), hlen]
        exact List.append_nil _
      have hfirst : Step.bytes ⟨Codec.takeVec 64 bytes, 64, counter, flags ||| start⟩ =
          bytes.take 64 := by
        rw [Step.bytes, hblock]
        exact List.take_of_length_le (Nat.le_of_eq hlen)
      rw [List.flatMap_cons, ih, hfirst, List.take_append_drop]

/-- After the first block no step is marked as first. -/
theorem chunkSteps_later (counter : UInt64) {flags : UInt8} (hflags : HasherFlags flags)
    (bytes : Bytes) : ∀ s ∈ chunkSteps counter flags 0 bytes, s.isFirst = false := by
  generalize hstart : (0 : UInt8) = start
  fun_induction chunkSteps counter flags start bytes with
  | case1 start bytes hshort =>
      subst hstart
      intro s hs
      obtain rfl := List.mem_singleton.mp hs
      simp only [Step.isFirst, hasFlag_or, hflags.not_set.1]
      decide
  | case2 start bytes hlong ih =>
      subst hstart
      intro s hs
      rcases List.mem_cons.mp hs with rfl | hs
      · simp only [Step.isFirst, hasFlag_or, hflags.not_set.1]
        decide
      · exact ih rfl s hs

theorem chunkSteps_marked (counter : UInt64) {flags : UInt8} (hflags : HasherFlags flags)
    (bytes : Bytes) :
    HashChain.Marked Step.isFirst (chunkSteps counter flags chunkStart bytes) := by
  have hstart : hasFlag chunkStart chunkStart = true := by decide
  rw [chunkSteps]
  split
  · refine ⟨?_, fun s hs => absurd hs List.not_mem_nil⟩
    simp [Step.isFirst, hasFlag_or, hstart]
  · refine ⟨?_, chunkSteps_later counter hflags _⟩
    simp [Step.isFirst, hasFlag_or, hstart]

/-- The last step carries `CHUNK_END`. -/
theorem chunkSteps_concat (counter : UInt64) (flags start : UInt8) (bytes : Bytes) :
    ∃ steps s, chunkSteps counter flags start bytes = steps ++ [s] ∧
      (s.flags = flags ||| start ||| chunkEnd ∨ s.flags = flags ||| 0 ||| chunkEnd) := by
  fun_induction chunkSteps counter flags start bytes with
  | case1 start bytes hshort => exact ⟨[], _, rfl, Or.inl rfl⟩
  | case2 start bytes hlong ih =>
      rcases ih with ⟨steps, s, hsteps, hlast⟩
      exact ⟨_ :: steps, s, by rw [hsteps]; rfl, Or.inr (hlast.elim id id)⟩

/-! ## The code computes the chain -/

/-- Copying into an empty block. -/
theorem memcpy_zeros (input : Bytes) (h : 0 + input.length ≤ 64) :
    memcpy (zeros 64) 0 input h = Codec.takeVec 64 input := by
  apply Vector.toList_inj.mp
  rw [memcpy_toList, Codec.toList_takeVec (by omega), zeros, Vector.toList_replicate,
    List.drop_replicate, Nat.zero_add]
  rfl

/-- A chunk state whose block buffer is empty. -/
structure AtBlock (cs : ChunkState) : Prop where
  bufLen : cs.bufLen = 0
  buf : cs.buf = zeros 64

/-- An empty buffer with some input. -/
def filled (cs : ChunkState) (input : Bytes) (h : input.length ≤ 64) : ChunkState :=
  { cs with buf := Codec.takeVec 64 input, bufLen := input.length, bufLen_le := h }

/-- The state after the first block of a longer input. -/
def nextBlock (f : Compress) (cs : ChunkState) (input : Bytes) : ChunkState :=
  flushBlock f (filled cs (input.take 64) (List.length_take_le _ _))

theorem AtBlock.fill {cs : ChunkState} (hcs : AtBlock cs) (f : Compress) (input : Bytes)
    (h : input.length ≤ 64) (hfit : (blockBuffer f).len cs + input.length ≤ (blockBuffer f).size) :
    (blockBuffer f).fill cs input hfit = filled cs input h := by
  rcases cs with ⟨cv, chunkCounter, buf, bufLen, blocksCompressed, flags, calls, hle⟩
  obtain rfl : bufLen = 0 := hcs.bufLen
  obtain rfl : buf = zeros 64 := hcs.buf
  simp only [blockBuffer, filled, memcpy_zeros, Nat.zero_add]

theorem AtBlock.write_short {cs : ChunkState} (hcs : AtBlock cs) (f : Compress) {input : Bytes}
    (h : input.length ≤ 64) : chunkStateUpdate f cs input = .ok (filled cs input h) := by
  have hfit : (blockBuffer f).len cs + input.length ≤ (blockBuffer f).size := by
    show cs.bufLen + input.length ≤ 64
    rw [hcs.bufLen]
    omega
  rw [chunkStateUpdate, LazyBuffer.write_short hfit, hcs.fill f input h hfit]

theorem AtBlock.write_long {cs : ChunkState} (hcs : AtBlock cs) (f : Compress) {input : Bytes}
    (h : 64 < input.length) :
    chunkStateUpdate f cs input = chunkStateUpdate f (nextBlock f cs input) (input.drop 64) := by
  have hempty : (blockBuffer f).len cs = 0 := hcs.bufLen
  rcases LazyBuffer.write_long hempty h with ⟨hfit, hwrite⟩
  have hfill := hcs.fill f (input.take 64) (List.length_take_le _ _) hfit
  rw [chunkStateUpdate, hwrite]
  show ((blockBuffer f).flush ((blockBuffer f).fill cs (input.take 64) hfit) >>= fun t =>
    (blockBuffer f).write t (input.drop 64)) = _
  rw [hfill]
  exact Run.ok_bind _ _

@[simp] theorem filled_calls (cs : ChunkState) (input : Bytes) (h : input.length ≤ 64) :
    (filled cs input h).calls = cs.calls := by
  simp only [filled]

@[simp] theorem nextBlock_chunkCounter (f : Compress) (cs : ChunkState) (input : Bytes) :
    (nextBlock f cs input).chunkCounter = cs.chunkCounter := by
  simp only [nextBlock, flushBlock, filled]

@[simp] theorem nextBlock_flags (f : Compress) (cs : ChunkState) (input : Bytes) :
    (nextBlock f cs input).flags = cs.flags := by
  simp only [nextBlock, flushBlock, filled]

theorem startFlag_filled (cs : ChunkState) (input : Bytes) (h : input.length ≤ 64) :
    chunkStateStartFlag (filled cs input h) = chunkStateStartFlag cs := by
  have hcount : (filled cs input h).blocksCompressed = cs.blocksCompressed := by
    simp only [filled]
  rw [chunkStateStartFlag, hcount, chunkStateStartFlag]

theorem outputArgs_filled (cs : ChunkState) (input : Bytes) (h : input.length ≤ 64) :
    outputArgs (filled cs input h) = Step.args cs.cv
      ⟨Codec.takeVec 64 input, UInt8.ofNat input.length, cs.chunkCounter,
        cs.flags ||| chunkStateStartFlag cs ||| chunkEnd⟩ := by
  rw [outputArgs, startFlag_filled]
  simp only [filled, Step.args]

theorem blockArgs_filled (cs : ChunkState) (input : Bytes) (h : input.length ≤ 64) :
    blockArgs (filled cs input h) = Step.args cs.cv
      ⟨Codec.takeVec 64 input, 64, cs.chunkCounter, cs.flags ||| chunkStateStartFlag cs⟩ := by
  rw [blockArgs, startFlag_filled]
  simp only [filled, Step.args]

theorem nextBlock_cv (f : Compress) (cs : ChunkState) (input : Bytes) :
    (nextBlock f cs input).cv = cvOf f (Step.args cs.cv
      ⟨Codec.takeVec 64 input, 64, cs.chunkCounter, cs.flags ||| chunkStateStartFlag cs⟩) := by
  rw [← Codec.takeVec_take _ input, ← blockArgs_filled _ _ (List.length_take_le _ _), nextBlock, flushBlock,
    cvOf]

theorem nextBlock_calls (f : Compress) (cs : ChunkState) (input : Bytes) :
    (nextBlock f cs input).calls = cs.calls ++ [Step.args cs.cv
      ⟨Codec.takeVec 64 input, 64, cs.chunkCounter, cs.flags ||| chunkStateStartFlag cs⟩] := by
  rw [← Codec.takeVec_take _ input, ← blockArgs_filled _ _ (List.length_take_le _ _), nextBlock, flushBlock]
  simp only [filled]

/-- Hashing a chunk is the chain over its steps. -/
theorem chunkStateUpdate_eq (f : Compress) (bytes : Bytes) :
    ∀ cs : ChunkState, AtBlock cs → 64 * cs.blocksCompressed.toNat + bytes.length ≤ 1024 →
      ∃ cs', chunkStateUpdate f cs bytes = .ok cs' ∧
        chunkStateOutput f cs' = HashChain.chain (cvOf f) Step.args cs.cv
          (chunkSteps cs.chunkCounter cs.flags (chunkStateStartFlag cs) bytes) ∧
        cs'.calls ++ [outputArgs cs'] = cs.calls ++ HashChain.inputs (cvOf f) Step.args cs.cv
          (chunkSteps cs.chunkCounter cs.flags (chunkStateStartFlag cs) bytes) := by
  induction hn : bytes.length using Nat.strong_induction_on generalizing bytes with
  | _ n ih =>
    subst hn
    intro cs hcs hfit
    rw [chunkSteps]
    split
    · -- the rest fits into the buffer, which is compressed with the output
      rename_i hshort
      refine ⟨filled cs bytes hshort, hcs.write_short f hshort, ?_, ?_⟩
      · rw [chunkStateOutput, outputArgs_filled]
        rfl
      · rw [outputArgs_filled, filled_calls]
        rfl
    · -- a full block is compressed, since more is to come
      rename_i hlong
      have hcount : (nextBlock f cs bytes).blocksCompressed.toNat =
          cs.blocksCompressed.toNat + 1 := by
        simp only [nextBlock, flushBlock, filled]
        rw [UInt8.toNat_add, UInt8.toNat_one, Nat.mod_eq_of_lt (by omega)]
      -- the start flag is for the first block alone
      have hstart : chunkStateStartFlag (nextBlock f cs bytes) = 0 := by
        rw [chunkStateStartFlag, if_neg]
        intro hzero
        rw [hzero, UInt8.toNat_zero] at hcount
        omega
      have hrest : (bytes.drop 64).length < bytes.length := by
        rw [List.length_drop]
        omega
      have hfit' : 64 * (nextBlock f cs bytes).blocksCompressed.toNat +
          (bytes.drop 64).length ≤ 1024 := by
        rw [hcount, List.length_drop]
        omega
      have hnext : AtBlock (nextBlock f cs bytes) := ⟨rfl, rfl⟩
      rcases ih _ hrest (bytes.drop 64) rfl _ hnext hfit' with ⟨cs', hok, hout, hcalls⟩
      refine ⟨cs', ?_, ?_, ?_⟩
      · rw [hcs.write_long f (by omega)]
        exact hok
      · rw [hout, hstart, nextBlock_cv, nextBlock_chunkCounter, nextBlock_flags]
        rfl
      · rw [hcalls, hstart, nextBlock_calls, nextBlock_cv, nextBlock_chunkCounter,
          nextBlock_flags, List.append_assoc]
        rfl

end Sharding.Blake3
