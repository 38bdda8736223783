import Sharding.Blake3.Digest

/-! # The trees on the stack

BLAKE3 keeps on its stack one complete tree for each power of two in the number of
chunks. `add_chunk_cv` decides by the index of the new chunk instead of the number
of chunks there are with it: at an odd index it merges everything, at an even one
nothing. So the stack never holds more than one tree over pairs of chunks and one
chunk, and it is the binary decomposition up to five chunks only.
-/

namespace Sharding.Blake3

open HashTree

/-- The stack holds complete trees over the chunks `0..n-1`, one for each power of two
in `n`, largest first from the bottom, where `n` is what `chunk_counter` counts. -/
def StackIsBinary (f : Compress) (h : Hasher) (m : Bytes) : Prop :=
  h.chunkCounter = UInt64.ofNat (flushedChunks 0 m).length ∧
    ∃ ts, BinaryDecomposition (flushedChunks 0 m) ts ∧ h.cvStackLen = ts.length ∧
      ∀ i (hi : i < ts.length),
        h.cvStack.load i = some (slot (ts[i].digest (hashing f h.flags)))

/-! ## The shape of the code's stack -/

/-- A tree over `k` pairs of chunks, one pair under the other. -/
inductive Paired : Nat → HashTree Chunk → Prop where
  | one (a b : Chunk) : Paired 1 (node (leaf a) (leaf b))
  | more (k : Nat) (t : HashTree Chunk) (a b : Chunk) (h : Paired k t) :
      Paired (k + 1) (node t (node (leaf a) (leaf b)))

/-- The stack after `2 * k` chunks. -/
inductive PairedStack : Nat → List (HashTree Chunk) → Prop where
  | empty : PairedStack 0 []
  | tree (k : Nat) (t : HashTree Chunk) (h : Paired k t) : PairedStack k [t]

/-- The stack after any number of chunks. -/
inductive CodeStack : Nat → List (HashTree Chunk) → Prop where
  | even (k : Nat) (ts : List (HashTree Chunk)) (h : PairedStack k ts) : CodeStack (2 * k) ts
  | odd (k : Nat) (c : Chunk) (ts : List (HashTree Chunk)) (h : PairedStack k ts) :
      CodeStack (2 * k + 1) (leaf c :: ts)

theorem PairedStack.length_le {k : Nat} {ts : List (HashTree Chunk)} (h : PairedStack k ts) :
    ts.length ≤ 1 := by
  cases h with
  | empty => exact Nat.zero_le _
  | tree _ t h => exact Nat.le_refl _

/-- A pair more. -/
theorem PairedStack.merge {k : Nat} {ts : List (HashTree Chunk)} (h : PairedStack k ts)
    (a b : Chunk) :
    Paired (k + 1) (mergeWhile (fun _ => true) ts (node (leaf a) (leaf b))).2 := by
  cases h with
  | empty => exact .one a b
  | tree _ t h => exact .more k t a b h

theorem CodeStack.length_le {n : Nat} {ts : List (HashTree Chunk)} (h : CodeStack n ts) :
    ts.length ≤ 1 + n % 2 := by
  cases h with
  | even k ts h =>
      have := h.length_le
      omega
  | odd k c ts h =>
      have := h.length_le
      rw [List.length_cons]
      omega

/-- A chunk more. -/
theorem CodeStack.push {n : Nat} {ts : List (HashTree Chunk)} (h : CodeStack n ts)
    {counter : UInt64} (hparity : counter.toNat % 2 = n % 2) (c : Chunk) :
    CodeStack (n + 1) (pushTree counter ts (leaf c)) := by
  have hshallow : Shallow counter ts := by
    rw [Shallow, hparity]
    exact h.length_le
  rw [pushTree_eq hshallow, hparity]
  cases h with
  | even k ts h =>
      rw [if_neg (by omega)]
      exact .odd k c ts h
  | odd k d ts h =>
      rw [if_pos (by omega)]
      exact .even (k + 1) _ (.tree _ _ (h.merge d c))

theorem codeStack_pushChunks (counter : UInt64) (m : Bytes) (n : Nat) (ts : List (HashTree Chunk))
    (h : CodeStack n ts) (hparity : counter.toNat % 2 = n % 2) :
    CodeStack (n + (flushedChunks counter m).length)
      (pushChunks ts (flushedChunks counter m)) := by
  fun_induction flushedChunks counter m generalizing n ts with
  | case1 counter m hshort => exact h
  | case2 counter m hlong ih =>
      have hnext : (counter + 1).toNat % 2 = (n + 1) % 2 := by
        rw [UInt64.toNat_add, UInt64.toNat_one]
        omega
      have hrest := ih (n + 1) _ (h.push hparity ⟨counter, m.take 1024, List.length_take_le _ _⟩) hnext
      rw [List.length_cons, pushChunks, List.foldl_cons, ← pushChunks, Nat.add_comm _ 1,
        ← Nat.add_assoc]
      exact hrest

/-- The code's stack after the message `m`. -/
theorem codeStack_stackOf (m : Bytes) : CodeStack (flushedChunks 0 m).length (stackOf m) := by
  have h := codeStack_pushChunks 0 m 0 [] (.even 0 [] .empty) rfl
  rwa [Nat.zero_add] at h

theorem flushedChunks_length (counter : UInt64) (m : Bytes) :
    (flushedChunks counter m).length = (m.length - 1) / 1024 := by
  fun_induction flushedChunks counter m with
  | case1 counter m hshort =>
      rw [List.length_nil]
      omega
  | case2 counter m hlong ih =>
      rw [List.length_cons, ih, List.length_drop]
      omega

theorem lastChunk_index (counter : UInt64) (m : Bytes) :
    (lastChunk counter m).index = counter + UInt64.ofNat (flushedChunks counter m).length := by
  fun_induction flushedChunks counter m with
  | case1 counter m hshort =>
      rw [lastChunk, dif_pos hshort]
      exact (UInt64.add_zero _).symm
  | case2 counter m hlong ih =>
      rw [lastChunk, dif_neg hlong, ih, List.length_cons, UInt64.ofNat_add, UInt64.add_assoc,
        UInt64.add_comm 1]
      rfl

/-! ## Up to five chunks -/

theorem Paired.pos {k : Nat} {t : HashTree Chunk} (h : Paired k t) : 0 < k := by
  cases h with
  | one a b => exact Nat.one_pos
  | more k t a b h => exact Nat.succ_pos k

/-- Up to two pairs the tree over them is complete. -/
theorem PairedStack.sizes {k : Nat} {ts : List (HashTree Chunk)} (h : PairedStack k ts)
    (hle : k ≤ 2) : List.Forall₂ Perfect (2 * k).bitIndices.reverse ts.reverse := by
  cases h with
  | empty => exact List.Forall₂.nil
  | tree _ t h =>
      cases h with
      | one a b => exact List.Forall₂.cons ⟨trivial, trivial⟩ List.Forall₂.nil
      | more k t a b h =>
          cases h with
          | one c d => exact List.Forall₂.cons ⟨⟨trivial, trivial⟩, trivial, trivial⟩ List.Forall₂.nil
          | more k t c d h =>
              have := h.pos
              omega

/-- The trees of the code, from the bottom to the top, over at most five chunks. -/
theorem CodeStack.sizes {n : Nat} {ts : List (HashTree Chunk)} (h : CodeStack n ts) (hle : n ≤ 5) :
    List.Forall₂ Perfect n.bitIndices.reverse ts.reverse := by
  cases h with
  | even k ts h => exact h.sizes (by omega)
  | odd k c ts h =>
      -- the chunk on top is the lowest bit
      have hbits : (2 * k + 1).bitIndices = 0 :: (2 * k).bitIndices := by
        rw [Nat.bitIndices_two_mul_add_one, Nat.bitIndices_two_mul]
      rw [hbits, List.reverse_cons, List.reverse_cons]
      exact List.rel_append (h.sizes (by omega)) (List.Forall₂.cons trivial List.Forall₂.nil)

theorem decomposition_small {m : Bytes} (hle : m.length ≤ 6144) :
    BinaryDecomposition (flushedChunks 0 m) (stackOf m).reverse where
  sizes := by
    apply (codeStack_stackOf m).sizes
    rw [flushedChunks_length]
    omega
  leaves := by
    have hleaves := pushChunks_leaves [] (flushedChunks 0 m)
    rwa [stackLeaves_nil, List.nil_append] at hleaves

/-! ## Beyond

Whether a value on the stack is the digest of a complete tree is put to the test with
a compression function that shows how deep a tree is along its right edge, as far as
three: the code's trees are never deeper than two there. -/

/-- Count the parents along the right edge, up to three. -/
def rightEdge : Compress := fun args =>
  if hasFlag args.flags parentFlag then
    let right := (wordsCodec.dec (args.block.toList.drop 32)).toList.headD 0
    Vector.replicate 16 (if right < 3 then right + 1 else 3)
  else Vector.replicate 16 0

/-- The length of the right edge of a tree, up to three. -/
def edge : HashTree Chunk → Nat
  | leaf _ => 0
  | node _ r => min 3 (edge r + 1)

theorem edge_perfect {k : Nat} {t : HashTree Chunk} (h : Perfect k t) : edge t = min 3 k := by
  induction t generalizing k with
  | leaf c =>
      cases k with
      | zero => rfl
      | succ k => cases h
  | node l r ihl ihr =>
      cases k with
      | zero => cases h
      | succ k =>
          have hr : edge r = min 3 k := ihr h.2
          rw [edge, hr]
          omega

theorem Paired.edge_le {k : Nat} {t : HashTree Chunk} (h : Paired k t) : edge t ≤ 2 := by
  cases h with
  | one a b => exact Nat.le_succ 1
  | more k t a b h => exact Nat.le_refl 2

theorem edge_le (t : HashTree Chunk) : edge t ≤ 3 := by
  cases t with
  | leaf c => exact Nat.zero_le 3
  | node l r => exact Nat.min_le_left 3 _

/-- Below a complete tree with a short right edge there are no more chunks than the edge
says. -/
theorem leaves_of_edge {k : Nat} {t : HashTree Chunk} (h : Perfect k t) (hle : edge t ≤ 2) :
    t.leaves.length = 2 ^ edge t := by
  have hedge := edge_perfect h
  have hk : k = edge t := by omega
  rw [h.length, ← hk]

theorem firstWords_replicate (w : UInt32) :
    firstWords (Vector.replicate 16 w) = Vector.replicate 8 w := by
  ext i hi
  simp [firstWords]

/-- The digests of `rightEdge` are the lengths of the right edges. -/
theorem digest_rightEdge {flags : UInt8} (hflags : HasherFlags flags) (t : HashTree Chunk) :
    t.digest (hashing rightEdge flags) = Vector.replicate 8 (UInt32.ofNat (edge t)) := by
  induction t with
  | leaf c =>
      rcases leaf_last rightEdge hflags c with ⟨args, -, hdigest, -, hnot⟩
      show (hashing rightEdge flags).leafDigest c = _
      rw [hdigest, cvOf, rightEdge, hnot, if_neg Bool.false_ne_true, firstWords_replicate]
      rfl
  | node l r ihl ihr =>
      -- the second half of the block is the digest of the right subtree
      have hset : hasFlag (flags ||| parentFlag) parentFlag = true := by
        have hself : hasFlag parentFlag parentFlag = true := by decide
        rw [hasFlag_or, hself, Bool.or_true]
      have hright : wordsCodec.dec ((parentArgs (l.digest (hashing rightEdge flags))
          (r.digest (hashing rightEdge flags)) iv flags).block.toList.drop 32) =
          Vector.replicate 8 (UInt32.ofNat (edge r)) := by
        have hleft : (wordsCodec.enc (l.digest (hashing rightEdge flags))).length = 32 :=
          wordsCodec.enc_length _
        rw [parentArgs_block, List.drop_left' hleft, wordsCodec.dec_enc_self, ihr]
      have hword : (Vector.replicate 8 (UInt32.ofNat (edge r))).toList.headD 0 =
          UInt32.ofNat (edge r) := rfl
      have hnext : (if UInt32.ofNat (edge r) < 3 then UInt32.ofNat (edge r) + 1 else 3) =
          UInt32.ofNat (edge (node l r)) := by
        have hcount : ∀ n ≤ 3, (if UInt32.ofNat n < 3 then UInt32.ofNat n + 1 else 3) =
            UInt32.ofNat (min 3 (n + 1)) := by decide
        exact hcount (edge r) (edge_le r)
      show firstWords (rightEdge (parentArgs _ _ iv flags)) = _
      have hflag : (parentArgs (l.digest (hashing rightEdge flags))
          (r.digest (hashing rightEdge flags)) iv flags).flags = flags ||| parentFlag := rfl
      rw [rightEdge, hflag, hset, if_pos rfl, hright]
      simp only [hword, hnext, firstWords_replicate]

theorem slot_injective {cv cv' : Words} (h : slot cv = slot cv') : cv = cv' := by
  rw [← slot_dec cv, ← slot_dec cv', h]

/-- The stack of `h` read as digests. -/
theorem StackIsBinary.digests {f : Compress} {flags : UInt8} {h : Hasher} {m : Bytes}
    {us : List (HashTree Chunk)} (hbin : StackIsBinary f h m) (hstack : Stacked f flags h us) :
    ∃ ts, BinaryDecomposition (flushedChunks 0 m) ts ∧
      ts.map (digest (hashing f flags)) = us.reverse.map (digest (hashing f flags)) := by
  rcases hbin with ⟨-, ts, hdec, hlen, hslots⟩
  refine ⟨ts, hdec, ?_⟩
  have hsame : ts.length = us.length := hlen.symm.trans hstack.len
  apply List.ext_getElem
  · rw [List.length_map, List.length_map, List.length_reverse, hsame]
  · intro i hi hi'
    rw [List.length_map] at hi hi'
    have hslot : i < (slotsOf f flags us).length := by
      rw [slotsOf_length]
      omega
    have hload := hslots i hi
    rw [hstack.holds.load i hslot, hstack.flags_eq] at hload
    have heq := Option.some.inj hload
    simp only [slotsOf, List.getElem_map] at heq
    rw [List.getElem_map, List.getElem_map]
    exact (slot_injective heq).symm

/-- The chunks below the code's stack, if its trees were complete. -/
theorem CodeStack.sum_le {n : Nat} {ts : List (HashTree Chunk)} (h : CodeStack n ts) :
    (∀ t ∈ ts, edge t ≤ 2) ∧ (ts.map fun t => 2 ^ edge t).sum ≤ 5 := by
  have hpaired : ∀ {k us}, PairedStack k us →
      (∀ t ∈ us, edge t ≤ 2) ∧ (us.map fun t => 2 ^ edge t).sum ≤ 4 := by
    intro k us hus
    cases hus with
    | empty => exact ⟨fun t ht => absurd ht List.not_mem_nil, Nat.zero_le _⟩
    | tree _ t ht =>
        have hle := ht.edge_le
        constructor
        · intro u hu
          obtain rfl := List.mem_singleton.mp hu
          exact hle
        · simpa using Nat.pow_le_pow_right Nat.two_pos hle
  cases h with
  | even k ts hts =>
      rcases hpaired hts with ⟨hedge, hsum⟩
      exact ⟨hedge, Nat.le_succ_of_le hsum⟩
  | odd k c ts hts =>
      rcases hpaired hts with ⟨hedge, hsum⟩
      constructor
      · intro t ht
        rcases List.mem_cons.mp ht with rfl | ht
        · exact Nat.zero_le 2
        · exact hedge t ht
      · simp only [List.map_cons, List.sum_cons, edge]
        omega

/-- A binary decomposition whose trees have short right edges is over few chunks. -/
theorem BinaryDecomposition.length_eq {chunks : List Chunk} {ts : List (HashTree Chunk)}
    (hdec : BinaryDecomposition chunks ts) (hedge : ∀ t ∈ ts, edge t ≤ 2) :
    chunks.length = (ts.map fun t => 2 ^ edge t).sum := by
  have hleaves : ts.map (fun t => t.leaves.length) = ts.map fun t => 2 ^ edge t := by
    apply List.map_congr_left
    intro t ht
    rcases List.getElem_of_mem ht with ⟨i, hi, rfl⟩
    have hsize : i < chunks.length.bitIndices.reverse.length := by
      rw [hdec.sizes.length_eq]
      exact hi
    exact leaves_of_edge (hdec.sizes.get hsize hi) (hedge _ ht)
  rw [← hleaves, ← List.length_flatMap, hdec.leaves]

theorem edges_of_digests {flags : UInt8} (hflags : HasherFlags flags) {ts us : List (HashTree Chunk)}
    (h : ts.map (digest (hashing rightEdge flags)) = us.map (digest (hashing rightEdge flags))) :
    ts.map edge = us.map edge := by
  have hword : ∀ t, (t.digest (hashing rightEdge flags))[0].toNat = edge t := by
    intro t
    have hle := edge_le t
    rw [digest_rightEdge hflags, Vector.getElem_replicate, UInt32.toNat_ofNat',
      Nat.mod_eq_of_lt (by omega)]
  have hmap := congrArg (List.map fun w : Words => w[0].toNat) h
  simpa [List.map_map, Function.comp_def, hword] using hmap

/-- The stack is the binary decomposition of the number of chunks, whatever the
compression function is, exactly for messages of up to six chunks, the sixth of which is
still in the buffer. -/
theorem stack_binary_iff {h₀ : Hasher} (hinit : Initialised h₀) (pieces : List Bytes) :
    (∀ f, ∃ h, updates f h₀ pieces = .ok h ∧ StackIsBinary f h pieces.flatten) ↔
      pieces.flatten.length ≤ 6144 := by
  constructor
  · intro hall
    -- this function shows how deep the trees are on the right
    rcases hall rightEdge with ⟨h, hok, hbin⟩
    rw [updates_eq] at hok
    rcases update_initialised hinit rightEdge pieces.flatten with ⟨h', hok', hstack, -⟩
    obtain rfl := Except.ok.inj (hok.symm.trans hok')
    rcases hbin.digests hstack with ⟨ts, hdec, hdigests⟩
    have hedges := edges_of_digests (hinit.start rightEdge).2.2.2 hdigests
    rcases (codeStack_stackOf pieces.flatten).sum_le with ⟨hedge, hsum⟩
    have hedge' : ∀ t ∈ ts, edge t ≤ 2 := by
      intro t ht
      have hmem := List.mem_map_of_mem (f := edge) ht
      rw [hedges] at hmem
      rcases List.mem_map.mp hmem with ⟨u, hu, hut⟩
      rw [← hut]
      exact hedge u (List.mem_reverse.mp hu)
    -- so a decomposition has as many chunks as the code's trees count for, five at most
    have hlen := BinaryDecomposition.length_eq hdec hedge'
    have hpow : (ts.map fun t => 2 ^ edge t).sum =
        ((stackOf pieces.flatten).map fun t => 2 ^ edge t).sum := by
      calc (ts.map fun t => 2 ^ edge t).sum = ((ts.map edge).map (2 ^ ·)).sum := by
            rw [List.map_map]
            rfl
        _ = (((stackOf pieces.flatten).reverse.map edge).map (2 ^ ·)).sum := by
            rw [hedges]
        _ = ((stackOf pieces.flatten).map fun t => 2 ^ edge t).sum := by
            rw [List.map_map, List.map_reverse, List.sum_reverse]
            rfl
    rw [flushedChunks_length, hpow] at hlen
    omega
  · intro hle f
    rcases update_initialised hinit f pieces.flatten with ⟨h, hok, hstack, hpending⟩
    refine ⟨h, (updates_eq f h₀ pieces).trans hok, ?_, (stackOf pieces.flatten).reverse,
      decomposition_small hle, ?_, ?_⟩
    · rw [hpending.counter, lastChunk_index, UInt64.zero_add]
    · rw [hstack.len, List.length_reverse]
    · intro i hi
      have hslot : i < (slotsOf f h₀.flags (stackOf pieces.flatten)).length := by
        rwa [slotsOf_length, ← List.length_reverse]
      rw [hstack.holds.load i hslot, hstack.flags_eq]
      simp [slotsOf]

theorem stack_binary_iff_five_chunks :
    ∃ h, updates compress blake3HasherInit severalChunks = .ok h ∧
      StackIsBinary compress h severalChunks.flatten := by
  have hlen : severalChunks.flatten.length ≤ 6144 := by
    simp only [severalChunks, List.flatten_cons, List.flatten_nil, List.length_append,
      List.length_replicate, List.length_nil]
    decide
  exact (stack_binary_iff .plain severalChunks).mpr hlen compress

/-- Six chunks and a byte more: one tree instead of two. -/
theorem six_chunks_not_binary :
    ¬ ∃ h, updates compress blake3HasherInit [List.replicate 6145 0] = .ok h ∧
      StackIsBinary compress h (List.replicate 6145 0) := by
  rintro ⟨h, hok, hbin⟩
  rw [updates_eq, List.flatten_singleton] at hok
  rcases update_initialised .plain compress (List.replicate 6145 0) with ⟨h', hok', hstack, -⟩
  obtain rfl := Except.ok.inj (hok.symm.trans hok')
  rcases hbin.digests hstack with ⟨ts, hdec, hdigests⟩
  have hchunks : (flushedChunks 0 (List.replicate 6145 0)).length = 6 := by
    rw [flushedChunks_length, List.length_replicate]
  have htwo : ts.length = 2 := by
    rw [← hdec.sizes.length_eq, hchunks]
    decide
  have hone := (codeStack_stackOf (List.replicate 6145 0)).length_le
  have hlen := congrArg List.length hdigests
  rw [List.length_map, List.length_map, List.length_reverse, htwo] at hlen
  rw [hchunks, ← hlen] at hone
  exact absurd hone (by decide)

end Sharding.Blake3
