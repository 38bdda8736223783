import Sharding.Blake3.Digest

/-! # BLAKE3 as specified

The hash function itself, recursively over the whole message: a message of one chunk
is hashed block by block, a longer one is split in two, the left part being the
largest power of two in chunks that leaves something on the right. The last
compression of the whole tree carries `ROOT`, and it is repeated with the counters
0, 1, 2, … for as many bytes as are asked for.

`blake3.c` has the compression function of this, but adds a compression of its own on
top of the tree and stretches its first 32 bytes.
-/

namespace Sharding.Blake3.Spec

/-! ## The tree -/

/-- The last compression of a chunk. -/
def chunkNode (f : Compress) (index : Nat) (cv : Words) (start : UInt8) (bytes : Bytes) :
    CompressArgs :=
  if bytes.length ≤ 64 then
    ⟨cv, Codec.takeVec 64 bytes, UInt8.ofNat bytes.length, UInt64.ofNat index, start ||| chunkEnd⟩
  else
    chunkNode f index
      (firstWords (f ⟨cv, Codec.takeVec 64 bytes, 64, UInt64.ofNat index, start⟩)) 0
      (bytes.drop 64)
termination_by bytes.length
decreasing_by
  rw [List.length_drop]
  omega

/-- The chunks in the left part of a message: the largest power of two that leaves a byte. -/
def leftChunks (len : Nat) : Nat := 2 ^ ((len - 1) / 1024).log2

/-- Both parts of a message longer than a chunk have something. -/
theorem leftChunks_bounds {len : Nat} (h : 1024 < len) :
    0 < leftChunks len ∧ 1024 * leftChunks len < len := by
  have hfull : (len - 1) / 1024 ≠ 0 := by omega
  have hle : leftChunks len ≤ (len - 1) / 1024 := Nat.log2_self_le hfull
  refine ⟨Nat.two_pow_pos _, ?_⟩
  omega

/-- The last compression of a part of the message, whose first chunk has the number `index`. -/
def node (f : Compress) (index : Nat) (m : Bytes) : CompressArgs :=
  if m.length ≤ 1024 then chunkNode f index iv chunkStart m
  else
    let n := leftChunks m.length
    let left := node f index (m.take (1024 * n))
    let right := node f (index + n) (m.drop (1024 * n))
    ⟨iv, Codec.takeVec 64 (wordsCodec.enc (firstWords (f left)) ++ wordsCodec.enc (firstWords (f right))),
      64, 0, parentFlag⟩
termination_by m.length
decreasing_by
  · have := leftChunks_bounds (Nat.lt_of_not_le ‹¬ m.length ≤ 1024›)
    rw [List.length_take]
    omega
  · have := leftChunks_bounds (Nat.lt_of_not_le ‹¬ m.length ≤ 1024›)
    rw [List.length_drop]
    omega

/-- The output of the root with the counter `i`. -/
def rootBlock (f : Compress) (root : CompressArgs) (i : Nat) : Bytes :=
  (Codec.u32.array 16).enc
    (f { root with counter := UInt64.ofNat i, flags := root.flags ||| rootFlag })

/-- The first `outLen` bytes of the hash of `m`. -/
def hash (f : Compress) (m : Bytes) (outLen : Nat) : Bytes :=
  ((List.range ((outLen + 63) / 64)).flatMap (rootBlock f (node f 0 m))).take outLen

/-! ## The trees do not -/

theorem hash_nil (f : Compress) (outLen : Nat) :
    hash f [] outLen = ((List.range ((outLen + 63) / 64)).flatMap (rootBlock f
      ⟨iv, zeros 64, 0, 0, chunkStart ||| chunkEnd⟩)).take outLen := by
  have hnode : node f 0 [] = ⟨iv, zeros 64, 0, 0, chunkStart ||| chunkEnd⟩ := by
    rw [node, if_pos (by decide), chunkNode, if_pos (by decide)]
    rfl
  rw [hash, hnode]

/-- The published digest of the empty message begins like this. -/
example : hash compress [] 4 = [0xaf, 0x13, 0x49, 0xb9] := by
  rw [hash_nil]
  decide +kernel

theorem chunkNode_flags (f : Compress) (index : Nat) (cv : Words) (start : UInt8) (bytes : Bytes) :
    hasFlag (chunkNode f index cv start bytes).flags chunkEnd = true := by
  fun_induction chunkNode f index cv start bytes with
  | case1 cv start bytes hshort =>
      have hend : hasFlag chunkEnd chunkEnd = true := by decide
      rw [hasFlag_or, hend, Bool.or_true]
  | case2 cv start bytes hlong ih => exact ih

/-- The root is a chunk or a parent, and says so. -/
theorem node_flags (f : Compress) (index : Nat) (m : Bytes) :
    (node f index m).flags ||| rootFlag ≠ rootFlag := by
  intro h
  rw [node] at h
  split at h
  · have hend := chunkNode_flags f index iv chunkStart m
    have hflag : hasFlag ((chunkNode f index iv chunkStart m).flags ||| rootFlag) chunkEnd =
        false := by
      rw [h]
      decide
    rw [hasFlag_or, hend, Bool.true_or] at hflag
    cases hflag
  · have hflag : parentFlag ||| rootFlag ≠ rootFlag := by decide
    exact hflag h

/-- A compression function that tells the code's last call from all calls of BLAKE3. -/
def bareRoot : Compress := fun args =>
  Vector.replicate 16 (if args.flags = rootFlag then 1 else 0)

/-- Whatever the compression function is, the code computes the hash: only if no byte of
it is asked for. -/
theorem truncated_spec_iff (m : Bytes) (outLen : Nat) :
    (∀ f, ∃ o, blake3Truncated f m outLen = .ok o ∧ o.out = hash f m outLen) ↔ outLen = 0 := by
  constructor
  · intro hall
    -- the first byte of this function's output tells which call it came from
    rcases hall bareRoot with ⟨o, hok, hout⟩
    rcases blake3Truncated_ok bareRoot m outLen with ⟨calls, hok', -⟩
    obtain rfl := Except.ok.inj (hok.symm.trans hok')
    by_contra hne
    have hpos : 1 ≤ outLen := Nat.one_le_iff_ne_zero.mpr hne
    have hcode : (outBytes (bareRoot (rootArgs ((messageTree m).digest (hashing bareRoot 0)) 0))
        outLen).take 1 = [1] := by
      rw [← outBytes_take _ hpos, outBytes_short (by decide)]
      show ((Codec.u32.array 16).enc (Vector.replicate 16 1)).take 1 = [1]
      decide
    have hspec : (hash bareRoot m outLen).take 1 = [0] := by
      have hblocks : (outLen + 63) / 64 = (outLen - 1) / 64 + 1 := by omega
      have hzero : rootBlock bareRoot (node bareRoot 0 m) 0 =
          (Codec.u32.array 16).enc (Vector.replicate 16 0) := by
        rw [rootBlock, bareRoot, if_neg (node_flags bareRoot 0 m)]
      rw [hash, hblocks, List.range_succ_eq_map, List.flatMap_cons, hzero, List.take_take,
        Nat.min_eq_left hpos, List.take_append_of_le_length (by decide)]
      decide
    have hsame : (1 : UInt8) = 0 := by
      have htake := congrArg (List.take 1) hout
      exact (List.cons.inj (hcode.symm.trans (htake.trans hspec))).1
    exact absurd hsame (by decide)
  · rintro rfl f
    rcases blake3Truncated_ok f m 0 with ⟨calls, hok, -⟩
    exact ⟨_, hok, rfl⟩

theorem messageTree_nil : messageTree [] = .leaf ⟨0, [], Nat.zero_le _⟩ := by
  rw [messageTree, stackOf, flushedChunks, if_pos (by decide), lastChunk, dif_pos (by decide)]
  rfl

/-- The hash of the empty message is not its BLAKE3 hash. -/
theorem blake3_empty_wrong :
    ¬ ∃ o, blake3 Blake3.compress [] = .ok o ∧ o.out = hash compress [] 32 := by
  rintro ⟨o, hok, hout⟩
  rcases blake3Truncated_ok Blake3.compress [] 32 with ⟨calls, hok', -⟩
  obtain rfl := Except.ok.inj (hok.symm.trans hok')
  have hsteps : chunkSteps 0 0 chunkStart [] = [⟨zeros 64, 0, 0, chunkStart ||| chunkEnd⟩] := by
    rw [chunkSteps, if_pos (by decide)]
    rfl
  have hdigest : (messageTree []).digest (hashing Blake3.compress 0) =
      firstWords (Blake3.compress ⟨iv, zeros 64, 0, 0, chunkStart ||| chunkEnd⟩) := by
    rw [messageTree_nil]
    show HashChain.chain _ _ _ (chunkSteps 0 0 chunkStart []) = _
    rw [hsteps]
    rfl
  have hbytes : outBytes (Blake3.compress (rootArgs
      (firstWords (Blake3.compress ⟨iv, zeros 64, 0, 0, chunkStart ||| chunkEnd⟩)) 0)) 32 =
      hash compress [] 32 := by
    rw [← hdigest]
    exact hout
  rw [hash_nil] at hbytes
  revert hbytes
  decide +kernel

end Sharding.Blake3.Spec
