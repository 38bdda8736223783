import Sharding.Crypto

/-! # The compression function of BLAKE3

`compress` of `blake3.c`, and BLAKE3's own: rounds of columns and diagonals with the
words of the message permuted between two rounds. The code has the permutations in a
table; the two functions are the same.
-/

namespace Sharding.Blake3

/-! ## The code -/

/-- A chaining value or a key. -/
abbrev Words := Vector UInt32 8

/-- `IV` -/
def iv : Words :=
  #v[0x6A09E667, 0xBB67AE85, 0x3C6EF372, 0xA54FF53A,
    0x510E527F, 0x9B05688C, 0x1F83D9AB, 0x5BE0CD19]

/-- `MSG_SCHEDULE` -/
def msgSchedule : Vector (Vector (Fin 16) 16) 7 :=
  #v[#v[0, 1, 2, 3, 4, 5, 6, 7, 8, 9, 10, 11, 12, 13, 14, 15],
    #v[2, 6, 3, 10, 7, 0, 4, 13, 1, 11, 12, 5, 9, 14, 15, 8],
    #v[3, 4, 10, 12, 13, 2, 7, 14, 6, 5, 9, 0, 11, 15, 8, 1],
    #v[10, 7, 12, 9, 14, 3, 13, 15, 4, 0, 11, 2, 5, 8, 1, 6],
    #v[12, 13, 9, 11, 15, 10, 14, 8, 7, 2, 5, 3, 0, 1, 6, 4],
    #v[9, 14, 11, 5, 8, 12, 15, 1, 13, 3, 0, 10, 2, 6, 4, 7],
    #v[11, 15, 5, 0, 1, 9, 8, 6, 14, 10, 2, 12, 3, 4, 7, 13]]

/-- `rotr32` -/
def rotr32 (x n : UInt32) : UInt32 := (x >>> n) ||| (x <<< (32 - n))

/-- `g` -/
def g (state : Vector UInt32 16) (a b c d : Fin 16) (mx my : UInt32) : Vector UInt32 16 :=
  let state := state.set a (state[a] + state[b] + mx)
  let state := state.set d (rotr32 (state[d] ^^^ state[a]) 16)
  let state := state.set c (state[c] + state[d])
  let state := state.set b (rotr32 (state[b] ^^^ state[c]) 12)
  let state := state.set a (state[a] + state[b] + my)
  let state := state.set d (rotr32 (state[d] ^^^ state[a]) 8)
  let state := state.set c (state[c] + state[d])
  state.set b (rotr32 (state[b] ^^^ state[c]) 7)

/-- `round_fn` -/
def roundFn (state msg : Vector UInt32 16) (round : Fin 7) : Vector UInt32 16 :=
  let schedule := msgSchedule[round]
  let state := g state 0 4 8 12 msg[schedule[0]] msg[schedule[1]]
  let state := g state 1 5 9 13 msg[schedule[2]] msg[schedule[3]]
  let state := g state 2 6 10 14 msg[schedule[4]] msg[schedule[5]]
  let state := g state 3 7 11 15 msg[schedule[6]] msg[schedule[7]]
  let state := g state 0 5 10 15 msg[schedule[8]] msg[schedule[9]]
  let state := g state 1 6 11 12 msg[schedule[10]] msg[schedule[11]]
  let state := g state 2 7 8 13 msg[schedule[12]] msg[schedule[13]]
  g state 3 4 9 14 msg[schedule[14]] msg[schedule[15]]

/-- The arguments of `compress`. -/
structure CompressArgs where
  cv : Words
  block : Vector UInt8 64
  blockLen : UInt8
  counter : UInt64
  flags : UInt8
deriving DecidableEq

/-- A function in the place of `compress`. -/
abbrev Compress := CompressArgs → Vector UInt32 16

/-- `compress` -/
def compress (args : CompressArgs) : Vector UInt32 16 :=
  let cv := args.cv
  let state : Vector UInt32 16 :=
    #v[cv[0], cv[1], cv[2], cv[3], cv[4], cv[5], cv[6], cv[7],
      iv[0], iv[1], iv[2], iv[3],
      args.counter.toUInt32, (args.counter >>> 32).toUInt32,
      args.blockLen.toUInt32, args.flags.toUInt32]
  let msg := (Codec.u32.array 16).dec args.block.toList
  let state := (List.finRange 7).foldl (fun state r => roundFn state msg r) state
  Vector.ofFn fun i =>
    if h : i.val < 8 then state[i.val] ^^^ state[i.val + 8] else state[i.val] ^^^ cv[i.val - 8]

namespace Spec

/-! ## BLAKE3 -/

/-- Rotation to the right. -/
def rotr (x : UInt32) (n : Nat) : UInt32 := ⟨x.toBitVec.rotateRight n⟩

/-- The quarter round on the words at `a`, `b`, `c` and `d`. -/
def quarter (v : Vector UInt32 16) (a b c d : Fin 16) (x y : UInt32) : Vector UInt32 16 :=
  let va := v[a] + v[b] + x
  let vd := rotr (v[d] ^^^ va) 16
  let vc := v[c] + vd
  let vb := rotr (v[b] ^^^ vc) 12
  let va := va + vb + y
  let vd := rotr (vd ^^^ va) 8
  let vc := vc + vd
  let vb := rotr (vb ^^^ vc) 7
  (((v.set a va).set b vb).set c vc).set d vd

/-- Columns, then diagonals. -/
def round (v m : Vector UInt32 16) : Vector UInt32 16 :=
  let v := quarter v 0 4 8 12 m[0] m[1]
  let v := quarter v 1 5 9 13 m[2] m[3]
  let v := quarter v 2 6 10 14 m[4] m[5]
  let v := quarter v 3 7 11 15 m[6] m[7]
  let v := quarter v 0 5 10 15 m[8] m[9]
  let v := quarter v 1 6 11 12 m[10] m[11]
  let v := quarter v 2 7 8 13 m[12] m[13]
  quarter v 3 4 9 14 m[14] m[15]

/-- Where the words of the message go between two rounds. -/
def permutation : Vector (Fin 16) 16 := #v[2, 6, 3, 10, 7, 0, 4, 13, 1, 11, 12, 5, 9, 14, 15, 8]

def permute (m : Vector UInt32 16) : Vector UInt32 16 := Vector.ofFn fun i => m[permutation[i]]

def rounds : Nat → Vector UInt32 16 → Vector UInt32 16 → Vector UInt32 16
  | 0, v, _ => v
  | n + 1, v, m => rounds n (round v m) (permute m)

def compress (args : CompressArgs) : Vector UInt32 16 :=
  let start : Vector UInt32 16 := args.cv ++ #v[iv[0], iv[1], iv[2], iv[3],
    UInt32.ofNat args.counter.toNat, UInt32.ofNat (args.counter.toNat / 2 ^ 32),
    args.blockLen.toUInt32, args.flags.toUInt32]
  let v := rounds 7 start ((Codec.u32.array 16).dec args.block.toList)
  Vector.ofFn fun i =>
    if h : i.val < 8 then v[i.val] ^^^ v[i.val + 8] else v[i.val] ^^^ args.cv[i.val - 8]

/-! ## They agree -/

theorem rotr32_eq (x : UInt32) {n : Nat} (hpos : 0 < n) (hlt : n < 32) :
    rotr32 x (UInt32.ofNat n) = rotr x n := by
  have hn : (UInt32.ofNat n).toNat = n := by
    rw [UInt32.toNat_ofNat', Nat.mod_eq_of_lt (by omega)]
  have hsub : (32 - UInt32.ofNat n).toNat = 32 - n := by
    have hle : UInt32.ofNat n ≤ 32 := by
      rw [UInt32.le_iff_toNat_le, hn]
      exact Nat.le_of_lt hlt
    rw [UInt32.toNat_sub_of_le _ _ hle, hn]
    rfl
  apply UInt32.toNat_inj.mp
  have hspec : (rotr x n).toNat = x.toNat >>> n ||| x.toNat <<< (32 - n) % 2 ^ 32 := by
    show (x.toBitVec.rotateRight n).toNat = _
    rw [BitVec.rotateRight_eq_rotateRightAux_of_lt hlt, BitVec.rotateRightAux, BitVec.toNat_or,
      BitVec.toNat_ushiftRight, BitVec.toNat_shiftLeft]
    rfl
  rw [hspec, rotr32, UInt32.toNat_or, UInt32.toNat_shiftRight, UInt32.toNat_shiftLeft, hn, hsub,
    Nat.mod_eq_of_lt hlt, Nat.mod_eq_of_lt (show 32 - n < 32 by omega)]

/-- Of two writes to each of four words the later ones stay. -/
theorem set_twice {α : Type} {n : Nat} (v : Vector α n) {a b c d : Fin n}
    (hbc : b.val ≠ c.val) (hbd : b.val ≠ d.val) (hcd : c.val ≠ d.val)
    (p q r s p' q' r' s' : α) :
    (((((((v.set a p).set d q).set c r).set b s).set a p').set d q').set c r').set b s' =
      (((v.set a p').set b s').set c r').set d q' := by
  ext i hi
  simp only [Vector.getElem_set]
  by_cases hb : b.val = i
  · have hc : c.val ≠ i := fun h => hbc (hb.trans h.symm)
    have hd : d.val ≠ i := fun h => hbd (hb.trans h.symm)
    simp only [hb, hc, hd, ↓reduceIte]
  · by_cases hc : c.val = i
    · have hd : d.val ≠ i := fun h => hcd (hc.trans h.symm)
      simp only [hb, hc, hd, ↓reduceIte]
    · simp only [hb, hc, ↓reduceIte]
      split
      · rfl
      · split
        · rfl
        · rfl

theorem quarter_eq (v : Vector UInt32 16) {a b c d : Fin 16} (h : [a, b, c, d].Nodup) (x y : UInt32) :
    g v a b c d x y = quarter v a b c d x y := by
  simp only [List.nodup_cons, List.mem_cons, not_or, List.not_mem_nil, not_false_eq_true, and_true,
    List.nodup_nil, ← Fin.val_inj] at h
  rcases h with ⟨⟨hab, hac, had⟩, ⟨hbc, hbd⟩, hcd⟩
  have h16 : ∀ w, rotr32 w 16 = rotr w 16 := fun w => rotr32_eq w (by decide) (by decide)
  have h12 : ∀ w, rotr32 w 12 = rotr w 12 := fun w => rotr32_eq w (by decide) (by decide)
  have h8 : ∀ w, rotr32 w 8 = rotr w 8 := fun w => rotr32_eq w (by decide) (by decide)
  have h7 : ∀ w, rotr32 w 7 = rotr w 7 := fun w => rotr32_eq w (by decide) (by decide)
  simp only [g, quarter, h16, h12, h8, h7, Fin.getElem_fin, Vector.getElem_set, hab, hac, had, hbc,
    hbd, hcd, Ne.symm hab, Ne.symm hac, Ne.symm had, Ne.symm hbc, Ne.symm hbd, Ne.symm hcd,
    ↓reduceIte]
  exact set_twice v hbc hbd hcd ..

theorem msgSchedule_zero : ∀ j : Fin 16, msgSchedule[0][j] = j := by
  decide

theorem msgSchedule_succ : ∀ (r : Fin 6) (j : Fin 16),
    msgSchedule[r.val + 1][j] = msgSchedule[r.val][permutation[j]] := by
  decide

/-- The schedule is the permutation over and over. -/
theorem permute_iterate (m : Vector UInt32 16) (r : Nat) (hr : r < 7) :
    permute^[r] m = Vector.ofFn fun i => m[msgSchedule[r][i]] := by
  induction r with
  | zero =>
      apply Vector.ext
      intro i hi
      have hfirst := msgSchedule_zero ⟨i, hi⟩
      simp only [Fin.getElem_fin] at hfirst
      simp only [Function.iterate_zero, id_eq, Vector.getElem_ofFn, Fin.getElem_fin, hfirst]
  | succ r ih =>
      have hr' : r < 6 := Nat.lt_of_succ_lt_succ hr
      rw [Function.iterate_succ_apply', ih (Nat.lt_of_succ_lt hr), permute]
      apply Vector.ext
      intro i hi
      have hnext := msgSchedule_succ ⟨r, hr'⟩ ⟨i, hi⟩
      simp only [Vector.getElem_ofFn, Fin.getElem_fin] at hnext ⊢
      simp only [hnext]

theorem roundFn_eq (v m : Vector UInt32 16) (r : Fin 7) :
    roundFn v m r = round v (permute^[r] m) := by
  have hnodup : [(0 : Fin 16), 4, 8, 12].Nodup ∧ [(1 : Fin 16), 5, 9, 13].Nodup ∧
      [(2 : Fin 16), 6, 10, 14].Nodup ∧ [(3 : Fin 16), 7, 11, 15].Nodup ∧
      [(0 : Fin 16), 5, 10, 15].Nodup ∧ [(1 : Fin 16), 6, 11, 12].Nodup ∧
      [(2 : Fin 16), 7, 8, 13].Nodup ∧ [(3 : Fin 16), 4, 9, 14].Nodup := by
    decide
  rcases hnodup with ⟨h0, h1, h2, h3, h4, h5, h6, h7⟩
  simp only [roundFn, round, permute_iterate m r r.isLt, Vector.getElem_ofFn]
  rw [quarter_eq _ h0, quarter_eq _ h1, quarter_eq _ h2, quarter_eq _ h3, quarter_eq _ h4,
    quarter_eq _ h5, quarter_eq _ h6, quarter_eq _ h7]
  rfl

theorem rounds_eq (n k : Nat) (v m : Vector UInt32 16) :
    rounds n v (permute^[k] m) =
      (List.range' k n).foldl (fun v r => round v (permute^[r] m)) v := by
  induction n generalizing k v with
  | zero => rfl
  | succ n ih =>
      rw [rounds, ← Function.iterate_succ_apply' permute, ih, List.range'_succ, List.foldl_cons]

theorem foldl_roundFn (v m : Vector UInt32 16) :
    (List.finRange 7).foldl (fun v r => roundFn v m r) v = rounds 7 v m := by
  have hrounds := rounds_eq 7 0 v m
  rw [Function.iterate_zero, id_eq, ← List.range_eq_range', ← List.map_coe_finRange_eq_range,
    List.foldl_map] at hrounds
  simp only [roundFn_eq, hrounds]

theorem words_eq (cv : Words) :
    cv = #v[cv[0], cv[1], cv[2], cv[3], cv[4], cv[5], cv[6], cv[7]] := by
  apply Vector.ext
  intro i hi
  match i with
  | 0 => rfl
  | 1 => rfl
  | 2 => rfl
  | 3 => rfl
  | 4 => rfl
  | 5 => rfl
  | 6 => rfl
  | 7 => rfl
  | i + 8 => exact absurd hi (by omega)

/-- The code's compression function is that of BLAKE3. -/
theorem compress_eq : Blake3.compress = compress := by
  funext args
  have hhigh : (args.counter >>> 32).toUInt32 = UInt32.ofNat (args.counter.toNat / 2 ^ 32) := by
    show UInt32.ofNat (args.counter >>> 32).toNat = _
    rw [UInt64.toNat_shiftRight, Nat.shiftRight_eq_div_pow]
    rfl
  have hstart : (#v[args.cv[0], args.cv[1], args.cv[2], args.cv[3], args.cv[4], args.cv[5],
      args.cv[6], args.cv[7], iv[0], iv[1], iv[2], iv[3], args.counter.toUInt32,
      (args.counter >>> 32).toUInt32, args.blockLen.toUInt32, args.flags.toUInt32] :
        Vector UInt32 16) =
      args.cv ++ #v[iv[0], iv[1], iv[2], iv[3], UInt32.ofNat args.counter.toNat,
        UInt32.ofNat (args.counter.toNat / 2 ^ 32), args.blockLen.toUInt32,
        args.flags.toUInt32] := by
    conv_rhs => rw [words_eq args.cv]
    rw [hhigh]
    rfl
  rw [Blake3.compress, compress]
  simp only [hstart, foldl_roundFn]

end Spec

end Sharding.Blake3
