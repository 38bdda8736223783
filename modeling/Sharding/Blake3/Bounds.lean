import Sharding.Blake3.Digest

/-! # The hasher stays in its bounds

Nothing in the code checks the depth of the stack. It is bounded all the same: an odd
`chunk_counter` meets the mask of every depth, so every second chunk merges the whole
stack into one value, and there are never more than two. Hashing runs without a fault
for that reason, and in all states it goes through the stack and the chunks are far
from their limits.
-/

namespace Sharding.Blake3

/-- Merging only pops. -/
theorem mergeLoop_len_le {f : Compress} {flags : UInt8} {cvStack : HeapBlock (Vector UInt8 32)}
    {cond : Nat → Except HashFault Bool} {n : Nat} {cv : Words} {calls : List CompressArgs}
    {m : Merged} (h : mergeLoop f flags cvStack cond n cv calls = .ok m) : m.cvStackLen ≤ n := by
  induction n generalizing cv calls with
  | zero =>
      obtain rfl := Except.ok.inj h
      exact Nat.le_refl 0
  | succ n ih =>
      rw [mergeLoop] at h
      rcases Run.bind_eq_ok h with ⟨go, -, h⟩
      cases go with
      | true =>
          rcases Run.bind_eq_ok h with ⟨left, -, h⟩
          exact Nat.le_succ_of_le (ih h)
      | false =>
          obtain rfl := Except.ok.inj h
          exact Nat.le_refl _

/-! ## Inside a chunk -/

/-- A chunk with `n` bytes to go: every full block behind it has been followed by a byte. -/
structure ChunkFits (n : Nat) (cs : ChunkState) : Prop where
  blocks : cs.blocksCompressed.toNat ≤ 15
  bytes : 64 * cs.blocksCompressed.toNat + cs.bufLen + n ≤ 1024

theorem chunkFits_init {index : UInt64} {flags : UInt8} {n : Nat} (h : n ≤ 1024) :
    ChunkFits n (chunkStateInit iv index flags) where
  blocks := Nat.zero_le _
  bytes := by
    simp only [chunkStateInit, UInt8.toNat_zero]
    omega

/-- A block is compressed because more is to come. -/
theorem ChunkFits.flush {n : Nat} {cs : ChunkState} (h : ChunkFits (n + 1) cs)
    (hfull : cs.bufLen = 64) (f : Compress) : ChunkFits (n + 1) (flushBlock f cs) := by
  have hbytes := h.bytes
  have hcount : (flushBlock f cs).blocksCompressed.toNat = cs.blocksCompressed.toNat + 1 := by
    show (cs.blocksCompressed + 1).toNat = _
    rw [UInt8.toNat_add, UInt8.toNat_one, Nat.mod_eq_of_lt (by omega)]
  have hempty : (flushBlock f cs).bufLen = 0 := rfl
  constructor
  · omega
  · omega

/-- All the states of a chunk. -/
theorem chunkStates_fit (f : Compress) (index : UInt64) (flags : UInt8) {input : Bytes}
    (h : input.length ≤ 1024) :
    ∀ cs ∈ (blockBuffer f).states (chunkStateInit iv index flags) input,
      cs.blocksCompressed.toNat ≤ 15 ∧ cs.bufLen ≤ 64 := by
  have hinv := LazyBuffer.states_inv (B := blockBuffer f) ChunkFits
    (by
      intro n cs cs' hfits hfull hflush
      obtain rfl := Except.ok.inj hflush
      exact hfits.flush hfull f)
    (by
      intro n cs as hfit hfits
      have hbytes := hfits.bytes
      refine ⟨hfits.blocks, ?_⟩
      show 64 * cs.blocksCompressed.toNat + (cs.bufLen + as.length) + n ≤ 1024
      omega)
    (chunkStateInit iv index flags) input (chunkFits_init h)
  intro cs hcs
  rcases hinv.1 cs hcs with ⟨n, hfits⟩
  exact ⟨hfits.blocks, cs.bufLen_le⟩

/-! ## The stack -/

/-- A hasher far from its limits: on the stack, and inside the chunk in the buffer. -/
structure InBounds (f : Compress) (h : Hasher) : Prop where
  cap : h.cvStack.cap = 54
  depth : h.cvStackLen ≤ 2
  /-- Wherever merging stops, there is room for a push. -/
  room : ∀ cond cv calls m, mergeLoop f h.flags h.cvStack cond h.cvStackLen cv calls = .ok m →
    m.cvStackLen < 54
  chunk : ∀ cs ∈ (blockBuffer f).states (chunkStateInit iv h.chunkCounter h.flags)
    (h.chunkBuf.toList.take h.bufLen), cs.blocksCompressed.toNat ≤ 15 ∧ cs.bufLen ≤ 64

/-- The stack holds trees, and as few as the counter says. -/
def StackInv (f : Compress) (flags : UInt8) (h : Hasher) : Prop :=
  ∃ ts, Stacked f flags h ts ∧ Shallow h.chunkCounter ts

theorem StackInv.inBounds {f : Compress} {flags : UInt8} {h : Hasher} (hinv : StackInv f flags h) :
    InBounds f h := by
  rcases hinv with ⟨ts, hstack, hshallow⟩
  have hdepth : h.cvStackLen ≤ 2 := by
    rw [hstack.len]
    exact hshallow.le_two
  refine ⟨hstack.cap, hdepth, ?_, ?_⟩
  · intro cond cv calls m hmerge
    have hle := mergeLoop_len_le hmerge
    omega
  · apply chunkStates_fit
    rw [List.length_take]
    exact Nat.le_trans (Nat.min_le_left _ _) h.bufLen_le

theorem StackInv.flush {f : Compress} {flags : UInt8} {h h' : Hasher} (hinv : StackInv f flags h)
    (hflush : flushChunk f h = .ok h') : StackInv f flags h' := by
  rcases hinv with ⟨ts, hstack, hshallow⟩
  have hroom : ts.length < 54 := by
    have := hshallow.le_two
    omega
  let c : Chunk := ⟨h.chunkCounter, h.chunkBuf.toList, Nat.le_of_eq h.chunkBuf.length_toList⟩
  rcases flushChunk_ok hstack hroom c rfl rfl with ⟨h₁, hok, hstack₁, hcounter, -⟩
  obtain rfl := Except.ok.inj (hok.symm.trans hflush)
  -- the tree of the chunk is pushed, and an odd counter leaves it alone on the stack
  refine ⟨pushTree c.index ts (.leaf c), hstack₁, ?_⟩
  rw [hcounter]
  exact hshallow.push _

/-- The hashers that the updates go through, up to the one that is finalized. -/
theorem updates_inv {h₀ : Hasher} (hinit : Initialised h₀) (f : Compress) (pieces : List Bytes) :
    ∀ h ∈ (chunkBuffer f).statesAll h₀ pieces, StackInv f h₀.flags h := by
  rcases hinit.start f with ⟨hstack, -, -, -⟩
  apply LazyBuffer.statesAll_inv
  · intro h h' hinv _ hflush
    exact hinv.flush hflush
  · intro h input hfit hinv
    rcases hinv with ⟨ts, hstack', hshallow⟩
    exact ⟨ts, fill_stacked hstack' input hfit, hshallow⟩
  · exact ⟨[], hstack, Nat.zero_le _⟩

/-- Updates and a finalization after either initialiser never fault: no push finds 54
values, no pop an empty stack or a slot that was not written, and no shift is by 64 or
more. On the way the stack holds at most two values, and inside every chunk at most 15
blocks have been compressed and at most 64 bytes are buffered. -/
theorem hasher_in_bounds {h₀ : Hasher} (hinit : Initialised h₀) (f : Compress) (pieces : List Bytes)
    (outLen : Nat) :
    (∃ h o, updates f h₀ pieces = .ok h ∧ blake3HasherFinalize f h outLen = .ok o ∧
      h ∈ (chunkBuffer f).statesAll h₀ pieces) ∧
    ∀ h ∈ (chunkBuffer f).statesAll h₀ pieces, InBounds f h := by
  constructor
  · rcases update_initialised hinit f pieces.flatten with ⟨h, hok, hstack, hpending⟩
    rcases blake3HasherFinalize_ok hstack hpending outLen with ⟨calls, hfinal, -⟩
    have hupdates : updates f h₀ pieces = .ok h := (updates_eq f h₀ pieces).trans hok
    exact ⟨h, _, hupdates, hfinal, LazyBuffer.mem_statesAll hupdates⟩
  · intro h hmem
    exact (updates_inv hinit f pieces h hmem).inBounds

/-- A key of zeros, and five chunks and a part of a sixth. -/
theorem hasher_in_bounds_keyed :
    (∃ h o, updates compress (blake3HasherInitKeyed (zeros 32)) severalChunks = .ok h ∧
      blake3HasherFinalize compress h 32 = .ok o ∧
      h ∈ (chunkBuffer compress).statesAll (blake3HasherInitKeyed (zeros 32)) severalChunks) ∧
    ∀ h ∈ (chunkBuffer compress).statesAll (blake3HasherInitKeyed (zeros 32)) severalChunks,
      InBounds compress h :=
  hasher_in_bounds (.keyed (zeros 32)) compress severalChunks 32

end Sharding.Blake3
