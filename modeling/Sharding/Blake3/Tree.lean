import Sharding.Blake3.Chunk
import Sharding.Lib.TreeHash

/-! # What a hasher computes

The chaining values on the stack are the digests of trees over the chunks hashed so
far, and a finalization folds them, with the last chunk, into one tree. Which trees
there are is up to the merge condition of `add_chunk_cv`, but their leaves are
always the chunks in order. The stack is given top first.
-/

namespace Sharding.Blake3

open HashTree

/-- A chunk and the counter it is hashed with. -/
structure Chunk where
  index : UInt64
  bytes : Bytes
  bytes_le : bytes.length ≤ 1024

/-- How the code makes digests: key and flags are the same everywhere. -/
def hashing (f : Compress) (flags : UInt8) : Hashing Chunk CompressArgs Words where
  hash := cvOf f
  leafInputs c :=
    HashChain.inputs (cvOf f) Step.args iv (chunkSteps c.index flags chunkStart c.bytes)
  leafDigest c :=
    HashChain.chain (cvOf f) Step.args iv (chunkSteps c.index flags chunkStart c.bytes)
  pair left right := parentArgs left right iv flags

/-- The chunks of a message that are hashed before it is finalized: all but the last. -/
def flushedChunks (counter : UInt64) (m : Bytes) : List Chunk :=
  if m.length ≤ 1024 then []
  else ⟨counter, m.take 1024, List.length_take_le _ _⟩ :: flushedChunks (counter + 1) (m.drop 1024)
termination_by m.length
decreasing_by
  rw [List.length_drop]
  omega

/-- The chunk that is still in the buffer. -/
def lastChunk (counter : UInt64) (m : Bytes) : Chunk :=
  if h : m.length ≤ 1024 then ⟨counter, m, h⟩ else lastChunk (counter + 1) (m.drop 1024)
termination_by m.length
decreasing_by
  rw [List.length_drop]
  omega

/-- `add_chunk_cv` on trees. -/
def pushTree (counter : UInt64) (ts : List (HashTree Chunk)) (t : HashTree Chunk) :
    List (HashTree Chunk) :=
  let merged := mergeWhile (fun n => counter.toNat % 2 ^ n != 0) ts t
  merged.2 :: merged.1

/-- One chunk after another. -/
def pushChunks (ts : List (HashTree Chunk)) (chunks : List Chunk) : List (HashTree Chunk) :=
  chunks.foldl (fun ts c => pushTree c.index ts (.leaf c)) ts

/-- The tree a finalization computes the digest of. -/
def rootTree (ts : List (HashTree Chunk)) (c : Chunk) : HashTree Chunk :=
  (mergeWhile (fun _ => true) ts (.leaf c)).2

/-! ## One chunk -/

theorem chunk_ok (f : Compress) (flags : UInt8) (c : Chunk) :
    ∃ cs, chunkStateUpdate f (chunkStateInit iv c.index flags) c.bytes = .ok cs ∧
      chunkStateOutput f cs = (hashing f flags).leafDigest c ∧
      cs.calls ++ [outputArgs cs] = (hashing f flags).leafInputs c := by
  have hfit : 64 * (chunkStateInit iv c.index flags).blocksCompressed.toNat + c.bytes.length ≤
      1024 := by
    have := c.bytes_le
    simp only [chunkStateInit, UInt8.toNat_zero]
    omega
  rcases chunkStateUpdate_eq f c.bytes (chunkStateInit iv c.index flags) ⟨rfl, rfl⟩ hfit with
    ⟨cs, hok, hout, hcalls⟩
  have hstart : chunkStateStartFlag (chunkStateInit iv c.index flags) = chunkStart := if_pos rfl
  rw [hstart] at hout hcalls
  exact ⟨cs, hok, hout, hcalls⟩

/-- What is among the calls once those for a chunk have been added. -/
theorem chunk_recorded {f : Compress} {flags : UInt8} {c : Chunk} {cs : ChunkState}
    (hcalls : cs.calls ++ [outputArgs cs] = (hashing f flags).leafInputs c)
    (calls : List CompressArgs) :
    calls ⊆ calls ++ cs.calls ++ [outputArgs cs] ∧
      (HashTree.leaf c).inputs (hashing f flags) ⊆ calls ++ cs.calls ++ [outputArgs cs] := by
  rw [List.append_assoc, hcalls]
  exact ⟨List.subset_append_left _ _, List.subset_append_right _ _⟩

/-! ## The stack -/

/-- The slots of the trees on the stack, from the bottom to the top. -/
def slotsOf (f : Compress) (flags : UInt8) (ts : List (HashTree Chunk)) : List (Vector UInt8 32) :=
  ts.reverse.map fun t => slot (t.digest (hashing f flags))

/-- The hasher's stack holds the digests of the trees `ts`, top first, and everything
hashed for them is among its calls. -/
structure Stacked (f : Compress) (flags : UInt8) (h : Hasher) (ts : List (HashTree Chunk)) :
    Prop where
  flags_eq : h.flags = flags
  len : h.cvStackLen = ts.length
  cap : h.cvStack.cap = 54
  holds : h.cvStack.Holds (slotsOf f flags ts)
  calls : ∀ t ∈ ts, t.inputs (hashing f flags) ⊆ h.calls

theorem slot_dec (cv : Words) : wordsCodec.dec (slot cv).toList = cv := by
  have hlen : (wordsCodec.enc cv).length = 32 := wordsCodec.enc_length cv
  rw [slot, Codec.toList_takeVec (Nat.le_of_eq hlen), wordsCodec.dec_enc]

/-- The condition of `add_chunk_cv` in numbers. -/
theorem mergeCond_eq (counter : UInt64) {n : Nat} (hn : n < 64) :
    mergeCond counter n = .ok (counter.toNat % 2 ^ n != 0) := by
  have hn' : (UInt64.ofNat n).toNat = n := by
    rw [UInt64.toNat_ofNat', Nat.mod_eq_of_lt (by omega)]
  have hlt : 2 ^ n < 2 ^ 64 := Nat.pow_lt_pow_right (by decide) hn
  have hshift : ((1 : UInt64) <<< UInt64.ofNat n).toNat = 2 ^ n := by
    rw [UInt64.toNat_shiftLeft, hn', Nat.mod_eq_of_lt hn, UInt64.toNat_one, Nat.one_shiftLeft,
      Nat.mod_eq_of_lt hlt]
  have hmask : ((1 : UInt64) <<< UInt64.ofNat n - 1).toNat = 2 ^ n - 1 := by
    have hle : (1 : UInt64) ≤ 1 <<< UInt64.ofNat n := by
      rw [UInt64.le_iff_toNat_le, hshift, UInt64.toNat_one]
      exact Nat.one_le_two_pow
    rw [UInt64.toNat_sub_of_le _ _ hle, hshift, UInt64.toNat_one]
  have hand : (counter &&& ((1 <<< UInt64.ofNat n) - 1)).toNat = counter.toNat % 2 ^ n := by
    rw [UInt64.toNat_and, hmask, Nat.and_two_pow_sub_one_eq_mod]
  have hzero : counter &&& ((1 <<< UInt64.ofNat n) - 1) = 0 ↔ counter.toNat % 2 ^ n = 0 := by
    rw [← hand, ← UInt64.toNat_zero, UInt64.toNat_inj]
  have hbool : (counter &&& ((1 <<< UInt64.ofNat n) - 1) != 0) = (counter.toNat % 2 ^ n != 0) := by
    rw [Bool.eq_iff_iff, bne_iff_ne, bne_iff_ne, ne_eq, ne_eq, hzero]
  rw [mergeCond, if_pos hn, hbool]

@[simp] theorem slotsOf_length (f : Compress) (flags : UInt8) (ts : List (HashTree Chunk)) :
    (slotsOf f flags ts).length = ts.length := by
  simp [slotsOf]

theorem slotsOf_cons (f : Compress) (flags : UInt8) (t : HashTree Chunk)
    (ts : List (HashTree Chunk)) :
    slotsOf f flags (t :: ts) = slotsOf f flags ts ++ [slot (t.digest (hashing f flags))] := by
  simp [slotsOf]

section merge

variable {f : Compress} {flags : UInt8} {cvStack : HeapBlock (Vector UInt8 32)}

/-- What is left at the bottom of the stack is still held there. -/
theorem holds_suffix {ts us : List (HashTree Chunk)} (hsuffix : us <:+ ts)
    (hholds : cvStack.Holds (slotsOf f flags ts)) : cvStack.Holds (slotsOf f flags us) := by
  rcases hsuffix with ⟨init, rfl⟩
  rw [slotsOf, List.reverse_append, List.map_append] at hholds
  exact hholds.of_append

theorem popCv_top {l : HashTree Chunk} {ls : List (HashTree Chunk)}
    (h : cvStack.Holds (slotsOf f flags (l :: ls))) :
    popCv cvStack ls.length = .ok (l.digest (hashing f flags)) := by
  have hlt : ls.length < (slotsOf f flags (l :: ls)).length := by simp
  have htop : (slotsOf f flags (l :: ls))[ls.length] = slot (l.digest (hashing f flags)) := by
    simp [slotsOf_cons]
  simp only [popCv, h.load ls.length hlt, htop, slot_dec]

/-- A merge loop merges trees. -/
theorem mergeLoop_eq {cond : Nat → Except HashFault Bool} {condB : Nat → Bool}
    {ts : List (HashTree Chunk)} (hcond : ∀ n ≤ ts.length, cond n = .ok (condB n))
    (hholds : cvStack.Holds (slotsOf f flags ts)) (t : HashTree Chunk) (calls : List CompressArgs)
    (hts : ∀ u ∈ ts, u.inputs (hashing f flags) ⊆ calls)
    (ht : t.inputs (hashing f flags) ⊆ calls) :
    ∃ calls', mergeLoop f flags cvStack cond ts.length (t.digest (hashing f flags)) calls =
        .ok ⟨(mergeWhile condB ts t).2.digest (hashing f flags), (mergeWhile condB ts t).1.length,
          calls'⟩ ∧
      calls ⊆ calls' ∧ (mergeWhile condB ts t).2.inputs (hashing f flags) ⊆ calls' := by
  induction ts generalizing t calls with
  | nil => exact ⟨calls, rfl, List.Subset.refl _, ht⟩
  | cons l ls ih =>
      have htop : cond (ls.length + 1) = .ok (condB (ls.length + 1)) := hcond _ (Nat.le_refl _)
      rw [List.length_cons, mergeLoop, htop, Run.ok_bind, mergeWhile]
      by_cases hgo : condB (ls.length + 1)
      · -- the parent takes the place of the new tree
        rw [if_pos hgo, if_pos hgo, popCv_top hholds, Run.ok_bind]
        have hcond' : ∀ n ≤ ls.length, cond n = .ok (condB n) :=
          fun n hn => hcond n (Nat.le_succ_of_le hn)
        have hts' : ∀ u ∈ ls, u.inputs (hashing f flags) ⊆ calls ++
            [parentArgs (l.digest (hashing f flags)) (t.digest (hashing f flags)) iv flags] :=
          fun u hu => List.Subset.trans (hts u (List.mem_cons_of_mem l hu))
            (List.subset_append_left _ _)
        have hnode : (node l t).inputs (hashing f flags) ⊆ calls ++
            [parentArgs (l.digest (hashing f flags)) (t.digest (hashing f flags)) iv flags] := by
          intro x hx
          rcases List.mem_append.mp hx with hx | hx
          · rcases List.mem_append.mp hx with hx | hx
            · exact List.mem_append_left _ (hts l List.mem_cons_self hx)
            · exact List.mem_append_left _ (ht hx)
          · exact List.mem_append_right _ hx
        rcases ih hcond' (holds_suffix (List.suffix_cons l ls) hholds) (node l t) _ hts' hnode with
          ⟨calls', hloop, hgrow, hinputs⟩
        exact ⟨calls', hloop, List.Subset.trans (List.subset_append_left _ _) hgrow, hinputs⟩
      · rw [if_neg hgo, if_neg hgo]
        exact ⟨calls, rfl, List.Subset.refl _, ht⟩

end merge

section hasher

variable {f : Compress} {flags : UInt8} {h : Hasher} {ts : List (HashTree Chunk)}

/-- `add_chunk_cv` pushes a tree. -/
theorem addChunkCv_ok (hstack : Stacked f flags h ts) (hroom : ts.length < 54)
    (t : HashTree Chunk) (ht : t.inputs (hashing f flags) ⊆ h.calls) (counter : UInt64) :
    ∃ h', addChunkCv f h (t.digest (hashing f flags)) counter = .ok h' ∧
      Stacked f flags h' (pushTree counter ts t) ∧ h'.chunkCounter = h.chunkCounter := by
  have hcond : ∀ n ≤ ts.length, mergeCond counter n = .ok (counter.toNat % 2 ^ n != 0) :=
    fun n hn => mergeCond_eq counter (by omega)
  rcases mergeLoop_eq hcond hstack.holds t h.calls hstack.calls ht with
    ⟨calls', hloop, hgrow, hinputs⟩
  rcases hmerged : mergeWhile (fun n => counter.toNat % 2 ^ n != 0) ts t with ⟨us, u⟩
  have hsuffix : us <:+ ts := by
    have hmerge : (mergeWhile (fun n => counter.toNat % 2 ^ n != 0) ts t).1 <:+ ts :=
      mergeWhile_suffix ts t
    rwa [hmerged] at hmerge
  rw [hmerged] at hloop hinputs
  -- merging only pops, so there is room for the push
  have hlt : us.length < h.cvStack.cap := by
    have hle := hsuffix.length_le
    rw [hstack.cap]
    omega
  have hput : (h.cvStack.put us.length (slot (u.digest (hashing f flags)))).Holds
      (slotsOf f flags (u :: us)) := by
    have := (holds_suffix hsuffix hstack.holds).put (slot (u.digest (hashing f flags)))
      (by rwa [slotsOf_length])
    rwa [slotsOf_length, ← slotsOf_cons] at this
  refine ⟨{ h with
    cvStack := h.cvStack.put us.length (slot (u.digest (hashing f flags)))
    cvStackLen := us.length + 1
    calls := calls' }, ?_, ?_, rfl⟩
  · rw [addChunkCv, hstack.flags_eq, hstack.len, hloop, Run.ok_bind]
    simp only [pushCv, HeapBlock.store, if_pos hlt]
  · rw [pushTree, hmerged]
    refine ⟨hstack.flags_eq, rfl, hstack.cap, hput, ?_⟩
    intro v hv
    rcases List.mem_cons.mp hv with rfl | hv
    · exact hinputs
    · exact List.Subset.trans (hstack.calls v (hsuffix.subset hv)) hgrow

/-- Hashing a full chunk pushes it as a leaf. -/
theorem flushChunk_ok (hstack : Stacked f flags h ts) (hroom : ts.length < 54) (c : Chunk)
    (hindex : h.chunkCounter = c.index) (hbuf : h.chunkBuf.toList = c.bytes) :
    ∃ h', flushChunk f h = .ok h' ∧ Stacked f flags h' (pushTree c.index ts (.leaf c)) ∧
      h'.chunkCounter = c.index + 1 ∧ h'.bufLen = 0 := by
  rcases chunk_ok f flags c with ⟨cs, hok, hout, hcalls⟩
  let h₁ : Hasher := { h with calls := h.calls ++ cs.calls ++ [outputArgs cs] }
  rcases chunk_recorded hcalls h.calls with ⟨hgrow, hleaf⟩
  have hstack₁ : Stacked f flags h₁ ts :=
    ⟨hstack.flags_eq, hstack.len, hstack.cap, hstack.holds,
      fun t ht => List.Subset.trans (hstack.calls t ht) hgrow⟩
  rcases addChunkCv_ok hstack₁ hroom (.leaf c) hleaf c.index with ⟨h₂, hadd, hstack₂, hcounter⟩
  refine ⟨{ h₂ with
    chunkCounter := h₂.chunkCounter + 1
    bufLen := 0
    bufLen_le := Nat.zero_le _ }, ?_, ?_, ?_, rfl⟩
  · have hchunk : chunkStateUpdate f (chunkStateInit iv h.chunkCounter h.flags)
        h.chunkBuf.toList = .ok cs := by
      rw [hindex, hbuf, hstack.flags_eq, hok]
    have hadd' : addChunkCv f h₁ (chunkStateOutput f cs) h.chunkCounter = .ok h₂ := by
      rw [hout, hindex]
      exact hadd
    rw [flushChunk, hchunk, Run.ok_bind]
    show (addChunkCv f h₁ (chunkStateOutput f cs) h.chunkCounter >>= _) = _
    rw [hadd', Run.ok_bind]
  · exact ⟨hstack₂.flags_eq, hstack₂.len, hstack₂.cap, hstack₂.holds, hstack₂.calls⟩
  · show h₂.chunkCounter + 1 = c.index + 1
    rw [hcounter, ← hindex]

end hasher

/-! ## A message -/

/-- How deep the stack can be: an odd counter stands for a chunk on its own. -/
def Shallow (counter : UInt64) (ts : List (HashTree Chunk)) : Prop :=
  ts.length ≤ 1 + counter.toNat % 2

theorem Shallow.le_two {counter : UInt64} {ts : List (HashTree Chunk)} (h : Shallow counter ts) :
    ts.length ≤ 2 := by
  unfold Shallow at h
  omega

/-- With an odd counter everything is merged, with an even one nothing. -/
theorem pushTree_eq {counter : UInt64} {ts : List (HashTree Chunk)} (h : Shallow counter ts)
    (t : HashTree Chunk) :
    pushTree counter ts t =
      if counter.toNat % 2 = 1 then [(mergeWhile (fun _ => true) ts t).2] else t :: ts := by
  unfold Shallow at h
  rw [pushTree]
  by_cases hodd : counter.toNat % 2 = 1
  · have hcond : ∀ n, 0 < n → n ≤ ts.length → (counter.toNat % 2 ^ n != 0) = true := by
      intro n hpos _
      -- the lowest bit is set, so the mask meets it
      have hdvd : 2 ∣ 2 ^ n := dvd_pow_self 2 (by omega)
      have hmod := Nat.mod_mod_of_dvd counter.toNat hdvd
      rw [bne_iff_ne]
      omega
    rw [if_pos hodd, mergeWhile_congr hcond, mergeWhile_true]
  · rw [if_neg hodd]
    cases ts with
    | nil => rfl
    | cons l ls =>
        have hls : ls = [] := by
          rw [List.length_cons] at h
          exact List.length_eq_zero_iff.mp (by omega)
        subst hls
        have heven : counter.toNat % 2 = 0 := by omega
        simp [mergeWhile, heven]

theorem Shallow.push {counter : UInt64} {ts : List (HashTree Chunk)} (h : Shallow counter ts)
    (t : HashTree Chunk) : Shallow (counter + 1) (pushTree counter ts t) := by
  have hnext : (counter + 1).toNat % 2 = (counter.toNat + 1) % 2 := by
    rw [UInt64.toNat_add, UInt64.toNat_one]
    omega
  have hpush := pushTree_eq h t
  unfold Shallow at *
  rw [hpush, hnext]
  split
  · exact Nat.le_add_right _ _
  · rw [List.length_cons]
    omega

/-- What the buffer of the hasher holds. -/
structure Pending (h : Hasher) (c : Chunk) : Prop where
  counter : h.chunkCounter = c.index
  buffer : h.chunkBuf.toList.take h.bufLen = c.bytes

theorem fill_buffer (f : Compress) {h : Hasher} (hempty : h.bufLen = 0) (input : Bytes)
    (hfit : (chunkBuffer f).len h + input.length ≤ (chunkBuffer f).size) :
    ((chunkBuffer f).fill h input hfit).chunkBuf.toList.take
      ((chunkBuffer f).fill h input hfit).bufLen = input := by
  refine (memcpy_take h.chunkBuf h.bufLen input hfit).trans ?_
  rw [hempty]
  rfl

theorem fill_stacked {f : Compress} {flags : UInt8} {h : Hasher} {ts : List (HashTree Chunk)}
    (hstack : Stacked f flags h ts) (input : Bytes)
    (hfit : (chunkBuffer f).len h + input.length ≤ (chunkBuffer f).size) :
    Stacked f flags ((chunkBuffer f).fill h input hfit) ts :=
  ⟨hstack.flags_eq, hstack.len, hstack.cap, hstack.holds, hstack.calls⟩

/-- Writing a message to an empty buffer. -/
theorem blake3HasherUpdate_ok {f : Compress} {flags : UInt8} (m : Bytes) :
    ∀ (h : Hasher) (ts : List (HashTree Chunk)), Stacked f flags h ts →
      Shallow h.chunkCounter ts → h.bufLen = 0 →
      ∃ h', blake3HasherUpdate f h m = .ok h' ∧
        Stacked f flags h' (pushChunks ts (flushedChunks h.chunkCounter m)) ∧
        Shallow h'.chunkCounter (pushChunks ts (flushedChunks h.chunkCounter m)) ∧
        Pending h' (lastChunk h.chunkCounter m) := by
  induction hn : m.length using Nat.strong_induction_on generalizing m with
  | _ n ih =>
    subst hn
    intro h ts hstack hshallow hempty
    have hlen : (chunkBuffer f).len h = 0 := hempty
    rw [flushedChunks, lastChunk]
    by_cases hshort : m.length ≤ 1024
    · rw [if_pos hshort, dif_pos hshort]
      have hfit : (chunkBuffer f).len h + m.length ≤ (chunkBuffer f).size := by
        rw [hlen, Nat.zero_add]
        exact hshort
      exact ⟨_, LazyBuffer.write_short hfit, fill_stacked hstack m hfit, hshallow, rfl,
        fill_buffer f hempty m hfit⟩
    · rw [if_neg hshort, dif_neg hshort]
      have hlong : (chunkBuffer f).size < m.length := Nat.lt_of_not_le hshort
      rcases LazyBuffer.write_long hlen hlong with ⟨hfit, hwrite⟩
      let c : Chunk := ⟨h.chunkCounter, m.take 1024, List.length_take_le _ _⟩
      let t := (chunkBuffer f).fill h (m.take 1024) hfit
      -- the buffer is full, so it holds the whole chunk
      have hfull : t.chunkBuf.toList = c.bytes := by
        have hbuffer := fill_buffer f hempty (m.take 1024) hfit
        have hcount : t.bufLen = t.chunkBuf.toList.length := by
          show h.bufLen + (m.take 1024).length = _
          rw [Vector.length_toList, List.length_take]
          omega
        rw [hcount, List.take_length] at hbuffer
        exact hbuffer
      have hroom : ts.length < 54 := by
        have := hshallow.le_two
        omega
      rcases flushChunk_ok (fill_stacked hstack (m.take 1024) hfit) hroom c rfl hfull with
        ⟨h₁, hflush, hstack₁, hcounter, hempty₁⟩
      have hshallow₁ : Shallow h₁.chunkCounter (pushTree c.index ts (.leaf c)) := by
        rw [hcounter]
        exact hshallow.push _
      have hrest : (m.drop 1024).length < m.length := by
        rw [List.length_drop]
        omega
      rcases ih _ hrest (m.drop 1024) rfl h₁ _ hstack₁ hshallow₁ hempty₁ with
        ⟨h', hok, hstack', hshallow', hpending⟩
      rw [hcounter] at hstack' hshallow' hpending
      refine ⟨h', ?_, hstack', hshallow', hpending⟩
      rw [blake3HasherUpdate, hwrite]
      show (flushChunk f t >>= fun t => (chunkBuffer f).write t (m.drop 1024)) = _
      rw [hflush, Run.ok_bind]
      exact hok

/-- A finalization computes the digest of the root tree and hashes it once more. -/
theorem blake3HasherFinalize_ok {f : Compress} {flags : UInt8} {h : Hasher}
    {ts : List (HashTree Chunk)} {c : Chunk} (hstack : Stacked f flags h ts)
    (hpending : Pending h c) (outLen : Nat) :
    ∃ calls, blake3HasherFinalize f h outLen =
        .ok ⟨extendOut (copyOut
          (f (rootArgs ((rootTree ts c).digest (hashing f flags)) flags)) outLen) outLen,
          calls ++ [rootArgs ((rootTree ts c).digest (hashing f flags)) flags]⟩ ∧
      (rootTree ts c).inputs (hashing f flags) ⊆ calls := by
  rcases chunk_ok f flags c with ⟨cs, hok, hout, hcalls⟩
  rcases chunk_recorded hcalls h.calls with ⟨hgrow, hleaf⟩
  have hts : ∀ u ∈ ts, u.inputs (hashing f flags) ⊆ h.calls ++ cs.calls ++ [outputArgs cs] :=
    fun u hu => List.Subset.trans (hstack.calls u hu) hgrow
  -- the last merge takes everything
  have hcond : ∀ n ≤ ts.length, (fun _ => .ok true : Nat → Except HashFault Bool) n =
      .ok ((fun _ => true) n) := fun _ _ => rfl
  rcases mergeLoop_eq hcond hstack.holds (.leaf c) _ hts hleaf with
    ⟨calls', hloop, -, hinputs⟩
  refine ⟨calls', ?_, hinputs⟩
  have hloop' : mergeLoop f flags h.cvStack (fun _ => .ok true) h.cvStackLen
      (chunkStateOutput f cs) (h.calls ++ cs.calls ++ [outputArgs cs]) =
      .ok ⟨(rootTree ts c).digest (hashing f flags), (mergeWhile (fun _ => true) ts (.leaf c)).1.length,
        calls'⟩ := by
    rw [hstack.len, hout]
    exact hloop
  rw [blake3HasherFinalize, hpending.counter, hpending.buffer, hstack.flags_eq, hok, Run.ok_bind]
  simp only [hloop', Run.ok_bind]

/-! ## From the beginning -/

/-- A hasher after one of the two initialisers. -/
inductive Initialised : Hasher → Prop where
  | plain : Initialised blake3HasherInit
  | keyed (key : Vector UInt8 32) : Initialised (blake3HasherInitKeyed key)

theorem Initialised.start {h : Hasher} (hinit : Initialised h) (f : Compress) :
    Stacked f h.flags h [] ∧ h.chunkCounter = 0 ∧ h.bufLen = 0 ∧ HasherFlags h.flags := by
  cases hinit with
  | plain =>
      refine ⟨⟨rfl, rfl, rfl, HeapBlock.holds_nil _, fun t ht => absurd ht List.not_mem_nil⟩, rfl, rfl,
        Or.inl rfl⟩
  | keyed key =>
      refine ⟨⟨rfl, rfl, rfl, HeapBlock.holds_nil _, fun t ht => absurd ht List.not_mem_nil⟩, rfl, rfl,
        Or.inr rfl⟩

/-- The trees on the stack after the message `m`. -/
def stackOf (m : Bytes) : List (HashTree Chunk) := pushChunks [] (flushedChunks 0 m)

/-- The tree of the message `m`. -/
def messageTree (m : Bytes) : HashTree Chunk := rootTree (stackOf m) (lastChunk 0 m)

theorem update_initialised {h : Hasher} (hinit : Initialised h) (f : Compress) (m : Bytes) :
    ∃ h', blake3HasherUpdate f h m = .ok h' ∧ Stacked f h.flags h' (stackOf m) ∧
      Pending h' (lastChunk 0 m) := by
  rcases hinit.start f with ⟨hstack, hcounter, hempty, -⟩
  have hshallow : Shallow h.chunkCounter [] := Nat.zero_le _
  rcases blake3HasherUpdate_ok m h [] hstack hshallow hempty with ⟨h', hok, hstack', -, hpending⟩
  rw [hcounter] at hstack' hpending
  exact ⟨h', hok, hstack', hpending⟩

/-- The hash of a message of any length. -/
theorem blake3Truncated_ok (f : Compress) (m : Bytes) (outLen : Nat) :
    ∃ calls, blake3Truncated f m outLen =
        .ok ⟨extendOut (copyOut
          (f (rootArgs ((messageTree m).digest (hashing f 0)) 0)) outLen) outLen,
          calls ++ [rootArgs ((messageTree m).digest (hashing f 0)) 0]⟩ ∧
      (messageTree m).inputs (hashing f 0) ⊆ calls := by
  rcases update_initialised .plain f m with ⟨h, hok, hstack, hpending⟩
  rcases blake3HasherFinalize_ok hstack hpending outLen with ⟨calls, hfinal, hinputs⟩
  refine ⟨calls, ?_, hinputs⟩
  rw [blake3Truncated, hok, Run.ok_bind, hfinal]
  rfl

/-! ## The leaves are the message -/

theorem pushTree_leaves (counter : UInt64) (ts : List (HashTree Chunk)) (t : HashTree Chunk) :
    stackLeaves (pushTree counter ts t) = stackLeaves ts ++ t.leaves := by
  rw [pushTree, stackLeaves_cons, mergeWhile_leaves]

theorem pushChunks_leaves (ts : List (HashTree Chunk)) (chunks : List Chunk) :
    stackLeaves (pushChunks ts chunks) = stackLeaves ts ++ chunks := by
  induction chunks generalizing ts with
  | nil => simp [pushChunks]
  | cons c chunks ih =>
      rw [pushChunks, List.foldl_cons, ← pushChunks, ih, pushTree_leaves, leaves, List.append_assoc,
        List.singleton_append]

theorem flushedChunks_bytes (counter : UInt64) (m : Bytes) :
    (flushedChunks counter m).flatMap Chunk.bytes ++ (lastChunk counter m).bytes = m := by
  fun_induction flushedChunks counter m with
  | case1 counter m hshort =>
      rw [lastChunk, dif_pos hshort]
      rfl
  | case2 counter m hlong ih =>
      rw [lastChunk, dif_neg hlong, List.flatMap_cons, List.append_assoc, ih, List.take_append_drop]

/-- The leaves of the tree of a message make it up. -/
theorem messageTree_bytes (m : Bytes) : (messageTree m).leaves.flatMap Chunk.bytes = m := by
  have hleaves : stackLeaves (mergeWhile (fun _ => true) (stackOf m) (.leaf (lastChunk 0 m))).1 ++
      (messageTree m).leaves = stackLeaves (stackOf m) ++ [lastChunk 0 m] :=
    mergeWhile_leaves (stackOf m) (.leaf (lastChunk 0 m))
  rw [mergeWhile_true, stackLeaves_nil, List.nil_append, stackOf, pushChunks_leaves,
    stackLeaves_nil, List.nil_append] at hleaves
  rw [hleaves, List.flatMap_append, List.flatMap_singleton, flushedChunks_bytes]

end Sharding.Blake3
