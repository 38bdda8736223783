import Sharding.Blake3.Tree

/-! # Streaming and binding

The digest depends on the bytes of a message alone, not on the pieces it is fed in,
and shorter outputs are the beginnings of longer ones. It binds the message: every
structural difference between the trees of two messages shows in the arguments of
some call of `compress`, so equal digests mean a collision among the calls.
-/

namespace Sharding.Blake3

open HashTree

/-! ## Streaming -/

/-- Feed the pieces one by one. -/
def updates (f : Compress) (h : Hasher) (pieces : List Bytes) : Except HashFault Hasher :=
  pieces.foldlM (blake3HasherUpdate f) h

theorem updates_eq (f : Compress) (h : Hasher) (pieces : List Bytes) :
    updates f h pieces = blake3HasherUpdate f h pieces.flatten :=
  LazyBuffer.write_flatten h pieces

/-- Five chunks and a part of a sixth, in three pieces. -/
def severalChunks : List Bytes := [List.replicate 3000 7, [], List.replicate 3000 9]

/-- The bytes that a finalization writes. -/
def outBytes (w : Vector UInt32 16) (outLen : Nat) : Bytes := extendOut (copyOut w outLen) outLen

theorem outBytes_short {w : Vector UInt32 16} {outLen : Nat} (h : outLen ≤ 32) :
    outBytes w outLen = ((Codec.u32.array 16).enc w).take outLen := by
  have hcopy : (if outLen < 32 then outLen else 32) = outLen := by
    split <;> omega
  have hrest : outLen - 32 = 0 := by omega
  rw [outBytes, extendOut, copyOut, hcopy, hrest, List.range'_zero]
  exact List.append_nil _

theorem outBytes_long {w : Vector UInt32 16} {outLen : Nat} (h : 32 ≤ outLen) :
    outBytes w outLen = ((Codec.u32.array 16).enc w).take 32 ++
      (List.range' 32 (outLen - 32)).map fun i =>
        (((Codec.u32.array 16).enc w).take 32).getD (i % 32) 0 ^^^ UInt8.ofNat (i >>> 8) ^^^
          UInt8.ofNat i := by
  have hcopy : (if outLen < 32 then outLen else 32) = 32 := by
    split <;> omega
  rw [outBytes, extendOut, copyOut, hcopy]

theorem digest_length (w : Vector UInt32 16) : (((Codec.u32.array 16).enc w).take 32).length = 32 := by
  have hlen : ((Codec.u32.array 16).enc w).length = 64 := (Codec.u32.array 16).enc_length w
  rw [List.length_take, hlen]
  rfl

/-- A shorter output is the beginning of a longer one. -/
theorem outBytes_take (w : Vector UInt32 16) {n outLen : Nat} (h : n ≤ outLen) :
    outBytes w n = (outBytes w outLen).take n := by
  rcases Nat.le_total outLen 32 with hshort | hlong
  · rw [outBytes_short hshort, outBytes_short (Nat.le_trans h hshort), List.take_take,
      Nat.min_eq_left h]
  · rw [outBytes_long hlong]
    rcases Nat.le_total n 32 with hn | hn
    · rw [outBytes_short hn, List.take_append_of_le_length, List.take_take, Nat.min_eq_left hn]
      rw [digest_length]
      exact hn
    · rw [outBytes_long hn, List.take_append, digest_length, ← List.map_take,
        List.take_of_length_le (Nat.le_trans (Nat.le_of_eq (digest_length w)) hn)]
      congr 2
      rw [List.take_range'_of_length_ge (by omega)]

/-- Feeding a message in pieces gives the state, and so the digest, of feeding it at
once, and asking for fewer bytes gives the first of them. -/
theorem streaming (f : Compress) (pieces : List Bytes) (outLen : Nat) :
    updates f blake3HasherInit pieces = blake3HasherUpdate f blake3HasherInit pieces.flatten ∧
    ∃ h o, updates f blake3HasherInit pieces = .ok h ∧
      blake3HasherFinalize f h outLen = .ok o ∧
      blake3Truncated f pieces.flatten outLen = .ok o ∧
      ∀ n ≤ outLen, ∃ o', blake3HasherFinalize f h n = .ok o' ∧ o'.out = o.out.take n := by
  have heq := updates_eq f blake3HasherInit pieces
  rcases update_initialised .plain f pieces.flatten with ⟨h, hok, hstack, hpending⟩
  rcases blake3HasherFinalize_ok hstack hpending outLen with ⟨calls, hfinal, -⟩
  refine ⟨heq, h, _, heq.trans hok, hfinal, ?_, ?_⟩
  · rw [blake3Truncated, hok, Run.ok_bind, hfinal]
  · intro n hn
    rcases blake3HasherFinalize_ok hstack hpending n with ⟨calls', hfinal', -⟩
    exact ⟨_, hfinal', outBytes_take _ hn⟩

/-! ## Binding -/

/-- The first 32 bytes of an output show its first eight words. -/
theorem firstWords_of_take {w w' : Vector UInt32 16}
    (h : ((Codec.u32.array 16).enc w).take 32 = ((Codec.u32.array 16).enc w').take 32) :
    firstWords w = firstWords w' := by
  have hword : ∀ (v : Vector UInt32 16) (i : Nat) (hi : i < 8),
      v[i] = Codec.u32.dec (((((Codec.u32.array 16).enc v).take 32).drop (i * 4)).take 4) := by
    intro v i hi
    have hdec := (Codec.u32.array 16).dec_enc_self v
    have hget : v[i] = Codec.u32.dec (((Codec.u32.array 16).enc v).drop (i * 4)) := by
      conv_lhs => rw [← hdec]
      exact Vector.getElem_ofFn _
    have htake : (((Codec.u32.array 16).enc v).take 32).drop (i * 4) =
        (((Codec.u32.array 16).enc v).drop (i * 4)).take (32 - i * 4) := List.drop_take
    rw [hget, htake, List.take_take, Nat.min_eq_left (by omega)]
    show UInt32.ofNat (leNat _) = UInt32.ofNat (leNat _)
    rw [List.take_take]
    rfl
  apply Vector.ext
  intro i hi
  rw [firstWords, firstWords, Vector.getElem_ofFn, Vector.getElem_ofFn]
  exact (hword w i hi).trans (h ▸ (hword w' i hi).symm)

/-- The block of a parent is its two chaining values. -/
theorem parentArgs_block (l r key : Words) (flags : UInt8) :
    (parentArgs l r key flags).block.toList = wordsCodec.enc l ++ wordsCodec.enc r := by
  have hlen : (wordsCodec.enc l ++ wordsCodec.enc r).length = 64 := by
    rw [List.length_append, wordsCodec.enc_length, wordsCodec.enc_length]
    rfl
  rw [parentArgs, Codec.toList_takeVec (Nat.le_of_eq hlen), hlen]
  exact List.append_nil _

theorem parentArgs_inj {l r l' r' key : Words} {flags : UInt8}
    (h : parentArgs l r key flags = parentArgs l' r' key flags) : l = l' ∧ r = r' := by
  have hblock := congrArg (fun args => args.block.toList) h
  rw [parentArgs_block, parentArgs_block] at hblock
  rcases wordsCodec.enc_append_inj hblock with ⟨hl, hr⟩
  exact ⟨hl, wordsCodec.enc_injective hr⟩

theorem rootArgs_inj {cv cv' : Words} {flags : UInt8} (h : rootArgs cv flags = rootArgs cv' flags) :
    cv = cv' := by
  have hlist : ∀ a : Words, (Codec.takeVec 64 (wordsCodec.enc a)).toList =
      wordsCodec.enc a ++ List.replicate 32 0 := by
    intro a
    have hlen : (wordsCodec.enc a).length = 32 := wordsCodec.enc_length a
    rw [Codec.toList_takeVec (by omega), hlen]
  have hblock := congrArg (fun args => args.block.toList) h
  simp only [rootArgs, hlist] at hblock
  exact (wordsCodec.enc_append_inj hblock).1

/-- The last compression of a chunk says that it is one. -/
theorem leaf_last (f : Compress) {flags : UInt8} (hflags : HasherFlags flags) (c : Chunk) :
    ∃ args ∈ (hashing f flags).leafInputs c, (hashing f flags).leafDigest c = cvOf f args ∧
      hasFlag args.flags chunkEnd = true ∧ hasFlag args.flags parentFlag = false := by
  rcases chunkSteps_concat c.index flags chunkStart c.bytes with ⟨steps, s, hsteps, hlast⟩
  have hend : hasFlag chunkEnd chunkEnd = true := by decide
  have hparent : hasFlag chunkStart parentFlag = false ∧ hasFlag 0 parentFlag = false ∧
      hasFlag chunkEnd parentFlag = false := by decide
  refine ⟨s.args (HashChain.chain (cvOf f) Step.args iv steps), ?_, ?_, ?_, ?_⟩
  · show _ ∈ HashChain.inputs _ _ _ _
    rw [hsteps, HashChain.inputs_concat]
    exact List.mem_append_right _ List.mem_cons_self
  · show HashChain.chain _ _ _ _ = _
    rw [hsteps, HashChain.chain_concat]
  · show hasFlag s.flags chunkEnd = true
    rcases hlast with hs | hs
    · rw [hs, hasFlag_or, hend, Bool.or_true]
    · rw [hs, hasFlag_or, hend, Bool.or_true]
  · show hasFlag s.flags parentFlag = false
    -- the last block may be the first one too
    rcases hlast with hs | hs
    · rw [hs, hasFlag_or, hasFlag_or, hflags.not_set.2.2, hparent.1, hparent.2.2]
      rfl
    · rw [hs, hasFlag_or, hasFlag_or, hflags.not_set.2.2, hparent.2.1, hparent.2.2]
      rfl

/-- Chunks commit to their bytes, and `CHUNK_END` tells them from parents. -/
theorem hashing_binding (f : Compress) {flags : UInt8} (hflags : HasherFlags flags) :
    Binding (hashing f flags) Chunk.bytes where
  leaf a b heq := by
    rcases HashChain.chain_binding_marked (cvOf f) (fun _ _ _ _ h => args_inj h) iv _ _
      (chunkSteps_marked a.index hflags a.bytes) (chunkSteps_marked b.index hflags b.bytes) heq with
      hsteps | hcol
    · left
      rw [← chunkSteps_bytes a.index flags chunkStart a.bytes, hsteps, chunkSteps_bytes]
    · exact Or.inr hcol
  leaf_node a l r heq := by
    rcases leaf_last f hflags a with ⟨args, hmem, hdigest, hend, -⟩
    refine ⟨_, List.mem_append_left _ hmem, _, List.mem_append_right _ List.mem_cons_self, ?_,
      hdigest.symm.trans heq⟩
    -- a parent does not have the flag
    rintro rfl
    have hnot : hasFlag (flags ||| parentFlag) chunkEnd = false := by
      rw [hasFlag_or, hflags.not_set.2.1]
      rfl
    exact absurd (hnot.symm.trans hend) Bool.false_ne_true
  pair l r l' r' h := parentArgs_inj h

/-- Two messages with the same digest show a collision of the compression function. -/
theorem blake3_binding (f : Compress) (m m' : Bytes) (hne : m ≠ m') :
    ∃ o o', blake3 f m = .ok o ∧ blake3 f m' = .ok o' ∧
      (o.out = o'.out → HashChain.Collision (cvOf f) (o.calls ++ o'.calls)) := by
  rcases blake3Truncated_ok f m 32 with ⟨calls, hok, hinputs⟩
  rcases blake3Truncated_ok f m' 32 with ⟨calls', hok', hinputs'⟩
  refine ⟨_, _, hok, hok', ?_⟩
  intro heq
  have hbytes : outBytes (f (rootArgs ((messageTree m).digest (hashing f 0)) 0)) 32 =
      outBytes (f (rootArgs ((messageTree m').digest (hashing f 0)) 0)) 32 := heq
  rw [outBytes_short (Nat.le_refl 32), outBytes_short (Nat.le_refl 32)] at hbytes
  have hcv := firstWords_of_take hbytes
  by_cases hroot : rootArgs ((messageTree m).digest (hashing f 0)) 0 =
      rootArgs ((messageTree m').digest (hashing f 0)) 0
  · rcases digest_binding (hashing_binding f (Or.inl rfl)) _ _ (rootArgs_inj hroot) with
      hleaves | hcol
    · -- the same leaves are the same message
      exfalso
      apply hne
      rw [← messageTree_bytes m, ← messageTree_bytes m', List.flatMap, List.flatMap, hleaves]
    · apply hcol.mono
      intro x hx
      simp only [List.mem_append] at hx ⊢
      rcases hx with hx | hx
      · exact Or.inl (Or.inl (hinputs hx))
      · exact Or.inr (Or.inl (hinputs' hx))
  · refine ⟨_, ?_, _, ?_, hroot, hcv⟩
    · simp
    · simp

/-- A compression function without any content. -/
def constantCompress : Compress := fun _ => Vector.replicate 16 0

/-- It gives the empty message and a zero byte the same digest. -/
theorem blake3_binding_constant :
    ∃ o o', blake3 constantCompress [] = .ok o ∧ blake3 constantCompress [0] = .ok o' ∧
      HashChain.Collision (cvOf constantCompress) (o.calls ++ o'.calls) := by
  rcases blake3_binding constantCompress [] [0] (by decide) with ⟨o, o', hok, hok', hcol⟩
  rcases blake3Truncated_ok constantCompress [] 32 with ⟨calls, h, -⟩
  rcases blake3Truncated_ok constantCompress [0] 32 with ⟨calls', h', -⟩
  refine ⟨o, o', hok, hok', hcol ?_⟩
  obtain rfl := Except.ok.inj (hok.symm.trans h)
  obtain rfl := Except.ok.inj (hok'.symm.trans h')
  rfl

end Sharding.Blake3
