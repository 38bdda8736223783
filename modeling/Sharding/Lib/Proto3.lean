import Mathlib.Data.UInt
import Mathlib.Data.List.Basic
import Mathlib.Tactic.Common

/-! # The proto3 wire format

Base-128 varints, tagged fields of the wire types 0 (varint), 1 (64 bit),
2 (length-delimited) and 5 (32 bit), and messages as sequences of fields. A
message type is given by the fields it writes and by how a field read off the
wire updates it; `Message.unpack_pack` is the round trip for every such type.
-/

namespace Proto3

/-! ## Varints -/

/-- The base-128 digits of `n`, least significant first, in at most `k` bytes;
every byte but the last has its top bit set. -/
def putVarint : Nat → Nat → List UInt8
  | 0, _ => []
  | k + 1, n =>
      if n < 128 then [UInt8.ofNat n]
      else UInt8.ofNat (n % 128 + 128) :: putVarint k (n / 128)

/-- Read a varint of at most `k` bytes off the front. -/
def getVarint : Nat → List UInt8 → Option (Nat × List UInt8)
  | 0, _ => none
  | _ + 1, [] => none
  | k + 1, b :: bs =>
      if b.toNat < 128 then some (b.toNat, bs)
      else
        match getVarint k bs with
        | some (n, rest) => some (b.toNat - 128 + 128 * n, rest)
        | none => none

theorem getVarint_putVarint (k n : Nat) (rest : List UInt8) (hk : 0 < k) (h : n < 128 ^ k) :
    getVarint k (putVarint k n ++ rest) = some (n, rest) := by
  induction k generalizing n with
  | zero => exact absurd hk (Nat.lt_irrefl 0)
  | succ k ih =>
      by_cases hsmall : n < 128
      · have hbyte : (UInt8.ofNat n).toNat = n := by
          rw [UInt8.toNat_ofNat']
          omega
        rw [putVarint, if_pos hsmall, List.singleton_append, getVarint, hbyte, if_pos hsmall]
      · have hbyte : (UInt8.ofNat (n % 128 + 128)).toNat = n % 128 + 128 := by
          rw [UInt8.toNat_ofNat']
          omega
        have hdiv : n / 128 < 128 ^ k := by
          rw [Nat.div_lt_iff_lt_mul (by decide)]
          rwa [Nat.pow_succ] at h
        -- a second byte is needed, so the budget allows for one
        have hkpos : 0 < k := by
          rcases Nat.eq_zero_or_pos k with hzero | hpos
          · subst hzero
            omega
          · exact hpos
        have hlarge : ¬ n % 128 + 128 < 128 := by omega
        rw [putVarint, if_neg hsmall, List.cons_append, getVarint, hbyte, if_neg hlarge,
          ih _ hkpos hdiv]
        show some (n % 128 + 128 - 128 + 128 * (n / 128), rest) = some (n, rest)
        have hsum : n % 128 + 128 - 128 + 128 * (n / 128) = n := by omega
        rw [hsum]

theorem putVarint_length_le (k n : Nat) : (putVarint k n).length ≤ k := by
  induction k generalizing n with
  | zero => simp [putVarint]
  | succ k ih =>
      rw [putVarint]
      split
      · simp
      · rw [List.length_cons]
        exact Nat.succ_le_succ (ih _)

theorem putVarint_ne_nil {k : Nat} (hk : 0 < k) (n : Nat) : putVarint k n ≠ [] := by
  cases k with
  | zero => exact absurd hk (Nat.lt_irrefl 0)
  | succ k =>
      rw [putVarint]
      split <;> simp

/-! ## Fields -/

/-- What a field carries, by wire type. -/
inductive Payload where
  | varint (n : Nat)
  | fixed64 (b : List UInt8)
  | len (b : List UInt8)
  | fixed32 (b : List UInt8)
deriving DecidableEq

/-- A field on the wire. -/
structure Field where
  number : Nat
  payload : Payload
deriving DecidableEq

def Payload.wireType : Payload → Nat
  | .varint _ => 0
  | .fixed64 _ => 1
  | .len _ => 2
  | .fixed32 _ => 5

def Payload.enc : Payload → List UInt8
  | .varint n => putVarint 10 n
  | .fixed64 b => b
  | .len b => putVarint 5 b.length ++ b
  | .fixed32 b => b

/-- Tag, then payload. -/
def Field.enc (f : Field) : List UInt8 :=
  putVarint 5 (f.number * 8 + f.payload.wireType) ++ f.payload.enc

/-- The first `n` bytes and the rest. -/
def getBytes (n : Nat) (l : List UInt8) : Option (List UInt8 × List UInt8) :=
  if n ≤ l.length then some (l.take n, l.drop n) else none

/-- Read a payload of the given wire type; groups and unknown types are errors. -/
def getPayload (wireType : Nat) (l : List UInt8) : Option (Payload × List UInt8) :=
  match wireType with
  | 0 => (getVarint 10 l).map fun (n, rest) => (.varint (n % 2 ^ 64), rest)
  | 1 => (getBytes 8 l).map fun (b, rest) => (.fixed64 b, rest)
  | 2 =>
      match getVarint 5 l with
      | some (n, rest) =>
          if n < 2 ^ 31 then (getBytes n rest).map fun (b, rest) => (.len b, rest) else none
      | none => none
  | 5 => (getBytes 4 l).map fun (b, rest) => (.fixed32 b, rest)
  | _ => none

/-- Read a field off the front. Field number 0 is an error. -/
def getField (l : List UInt8) : Option (Field × List UInt8) :=
  match getVarint 5 l with
  | some (tag, rest) =>
      if tag / 8 = 0 then none
      else (getPayload (tag % 8) rest).map fun (p, rest) => (⟨tag / 8, p⟩, rest)
  | none => none

/-- Read fields until the input ends, at most `k` of them. -/
def getFields : Nat → List UInt8 → Option (List Field)
  | _, [] => some []
  | 0, _ :: _ => none
  | k + 1, b :: bs =>
      match getField (b :: bs) with
      | some (f, rest) => (getFields k rest).map (f :: ·)
      | none => none

/-- What the format can carry. -/
def Payload.Valid : Payload → Prop
  | .varint n => n < 2 ^ 64
  | .fixed64 b => b.length = 8
  | .len b => b.length < 2 ^ 31
  | .fixed32 b => b.length = 4

def Field.Valid (f : Field) : Prop :=
  0 < f.number ∧ f.number < 2 ^ 29 ∧ f.payload.Valid

theorem getBytes_append (b rest : List UInt8) :
    getBytes b.length (b ++ rest) = some (b, rest) := by
  rw [getBytes, if_pos (by simp), List.take_left, List.drop_left]

theorem getPayload_enc (p : Payload) (rest : List UInt8) (h : p.Valid) :
    getPayload p.wireType (p.enc ++ rest) = some (p, rest) := by
  cases p with
  | varint n =>
      have hn : n < 2 ^ 64 := h
      have hfit : n < 128 ^ 10 := Nat.lt_of_lt_of_le hn (by decide)
      show (getVarint 10 (putVarint 10 n ++ rest)).map _ = _
      rw [getVarint_putVarint 10 n rest (by decide) hfit]
      show some (Payload.varint (n % 2 ^ 64), rest) = _
      rw [Nat.mod_eq_of_lt hn]
  | fixed64 b =>
      have hb : b.length = 8 := h
      show (getBytes 8 (b ++ rest)).map _ = _
      rw [← hb, getBytes_append]
      rfl
  | len b =>
      have hb : b.length < 2 ^ 31 := h
      have hfit : b.length < 128 ^ 5 := Nat.lt_of_lt_of_le hb (by decide)
      have hlen : getVarint 5 (putVarint 5 b.length ++ (b ++ rest)) = some (b.length, b ++ rest) :=
        getVarint_putVarint 5 _ _ (by decide) hfit
      show getPayload 2 (putVarint 5 b.length ++ b ++ rest) = _
      unfold getPayload
      rw [List.append_assoc, hlen]
      show (if b.length < 2 ^ 31 then _ else none) = _
      rw [if_pos hb, getBytes_append]
      rfl
  | fixed32 b =>
      have hb : b.length = 4 := h
      show (getBytes 4 (b ++ rest)).map _ = _
      rw [← hb, getBytes_append]
      rfl

theorem getField_enc (f : Field) (rest : List UInt8) (h : f.Valid) :
    getField (f.enc ++ rest) = some (f, rest) := by
  rcases h with ⟨hpos, hlt, hpayload⟩
  have hwire : f.payload.wireType < 8 := by
    cases f.payload <;> simp [Payload.wireType]
  have htag : f.number * 8 + f.payload.wireType < 128 ^ 5 := by
    have hpow : (128 : Nat) ^ 5 = 2 ^ 29 * 64 := by decide
    omega
  have hnum : (f.number * 8 + f.payload.wireType) / 8 = f.number := by omega
  have hmod : (f.number * 8 + f.payload.wireType) % 8 = f.payload.wireType := by omega
  have hne : f.number ≠ 0 := Nat.pos_iff_ne_zero.mp hpos
  unfold getField Field.enc
  rw [List.append_assoc, getVarint_putVarint 5 _ _ (by decide) htag]
  show (if _ then none else _) = _
  rw [hnum, hmod, if_neg hne, getPayload_enc _ _ hpayload]
  rfl

theorem Field.enc_ne_nil (f : Field) : f.enc ≠ [] := by
  intro h
  exact putVarint_ne_nil (by decide) _ (List.append_eq_nil_iff.mp h).1

/-- At most `k` fields are read. -/
theorem getFields_length_le {k : Nat} {l : List UInt8} {fs : List Field}
    (h : getFields k l = some fs) : fs.length ≤ k := by
  fun_induction getFields k l generalizing fs with
  | case1 k =>
      obtain rfl := Option.some.inj h
      exact Nat.zero_le _
  | case2 => cases h
  | case3 k b bs f rest hfield ih =>
      rcases Option.map_eq_some_iff.mp h with ⟨fs', hrest, rfl⟩
      exact Nat.succ_le_succ (ih hrest)
  | case4 => cases h

/-- Fields are read back in order; `k` bounds their number. -/
theorem getFields_enc (fs : List Field) (k : Nat) (hk : fs.length ≤ k) (h : ∀ f ∈ fs, f.Valid) :
    getFields k (fs.flatMap Field.enc) = some fs := by
  induction fs generalizing k with
  | nil =>
      cases k <;> rfl
  | cons f fs ih =>
      cases k with
      | zero => exact absurd hk (Nat.not_succ_le_zero _)
      | succ k =>
          have hf : f.Valid := h f List.mem_cons_self
          have hfs : ∀ g ∈ fs, g.Valid := fun g hg => h g (List.mem_cons_of_mem _ hg)
          have hread := getField_enc f (fs.flatMap Field.enc) hf
          have hrest := ih k (Nat.le_of_succ_le_succ hk) hfs
          rw [List.flatMap_cons]
          -- the first field is not empty, so the loop reads on
          cases hcases : f.enc ++ fs.flatMap Field.enc with
          | nil => exact absurd (List.append_eq_nil_iff.mp hcases).1 f.enc_ne_nil
          | cons b bs =>
              rw [hcases] at hread
              rw [getFields, hread]
              show (getFields k (fs.flatMap Field.enc)).map (f :: ·) = _
              rw [hrest]
              rfl

/-- Every field takes at least one byte. -/
theorem length_le_flatMap_enc (fs : List Field) : fs.length ≤ (fs.flatMap Field.enc).length := by
  induction fs with
  | nil => simp
  | cons f fs ih =>
      have hpos : 0 < f.enc.length := List.length_pos_iff.mpr f.enc_ne_nil
      rw [List.flatMap_cons, List.length_append, List.length_cons]
      omega

/-! ## Messages -/

/-- A message type: its empty value, the fields a value writes, and how a field
read off the wire updates a value (`none` on a wire type that does not fit). -/
structure Message (α : Type) where
  init : α
  fields : α → List Field
  merge : α → Field → Option α

namespace Message

variable {α : Type}

def pack (m : Message α) (a : α) : List UInt8 := (m.fields a).flatMap Field.enc

def unpack (m : Message α) (l : List UInt8) : Option α :=
  match getFields l.length l with
  | some fs => fs.foldlM m.merge m.init
  | none => none

/-- What a field adds at most one to is bounded by the bytes. -/
theorem unpack_measure_le (m : Message α) (μ : α → Nat)
    (hmerge : ∀ a f a', m.merge a f = some a' → μ a' ≤ μ a + 1) {l : List UInt8} {a : α}
    (h : m.unpack l = some a) : μ a ≤ μ m.init + l.length := by
  have hfold : ∀ (fs : List Field) (b : α), fs.foldlM m.merge b = some a →
      μ a ≤ μ b + fs.length := by
    intro fs
    induction fs with
    | nil =>
        intro b hb
        obtain rfl := Option.some.inj hb
        exact Nat.le_refl _
    | cons f fs ih =>
        intro b hb
        rw [List.foldlM_cons] at hb
        cases hone : m.merge b f with
        | none =>
            rw [hone] at hb
            cases hb
        | some b' =>
            rw [hone] at hb
            have hrest := ih b' hb
            have hfirst := hmerge b f b' hone
            rw [List.length_cons]
            omega
  unfold unpack at h
  cases hfields : getFields l.length l with
  | none =>
      rw [hfields] at h
      cases h
  | some fs =>
      rw [hfields] at h
      have hlen := getFields_length_le hfields
      have hall := hfold fs m.init h
      omega

/-- Round trip: if the fields of a value rebuild it, so does its wire form. -/
theorem unpack_pack (m : Message α) (a : α) (hvalid : ∀ f ∈ m.fields a, f.Valid)
    (hmerge : (m.fields a).foldlM m.merge m.init = some a) : m.unpack (m.pack a) = some a := by
  unfold unpack pack
  rw [getFields_enc _ _ (length_le_flatMap_enc _) hvalid]
  exact hmerge

end Message

/-! ## Implicit presence

A proto3 field without label is left out when it has its default value. -/

/-- A scalar field: left out when zero. -/
def scalar (number n : Nat) : List Field := if n = 0 then [] else [⟨number, .varint n⟩]

/-- A bytes field: left out when empty. -/
def bytes (number : Nat) (b : List UInt8) : List Field := if b = [] then [] else [⟨number, .len b⟩]

theorem scalar_valid {number n : Nat} (hnum : 0 < number ∧ number < 2 ^ 29) (hn : n < 2 ^ 64) :
    ∀ f ∈ scalar number n, f.Valid := by
  intro f hf
  unfold scalar at hf
  split at hf
  · simp at hf
  · rw [List.mem_singleton.mp hf]
    exact ⟨hnum.1, hnum.2, hn⟩

theorem bytes_valid {number : Nat} {b : List UInt8} (hnum : 0 < number ∧ number < 2 ^ 29)
    (hb : b.length < 2 ^ 31) : ∀ f ∈ bytes number b, f.Valid := by
  intro f hf
  unfold bytes at hf
  split at hf
  · simp at hf
  · rw [List.mem_singleton.mp hf]
    exact ⟨hnum.1, hnum.2, hb⟩

/-- Merging an optional scalar: if it is absent the value must already agree. -/
theorem foldlM_scalar {α : Type} {merge : α → Field → Option α} {a b : α} {number n : Nat}
    (habsent : n = 0 → a = b) (hpresent : merge a ⟨number, .varint n⟩ = some b) :
    (scalar number n).foldlM merge a = some b := by
  unfold scalar
  split
  · rename_i hzero
    rw [habsent hzero]
    rfl
  · rw [List.foldlM_cons, hpresent]
    rfl

theorem foldlM_bytes {α : Type} {merge : α → Field → Option α} {a b : α} {number : Nat}
    {data : List UInt8} (habsent : data = [] → a = b)
    (hpresent : merge a ⟨number, .len data⟩ = some b) :
    (bytes number data).foldlM merge a = some b := by
  unfold bytes
  split
  · rename_i hnil
    rw [habsent hnil]
    rfl
  · rw [List.foldlM_cons, hpresent]
    rfl

/-! ## Sizes -/

theorem scalar_length_le (number n : Nat) :
    ((scalar number n).flatMap Field.enc).length ≤ 15 := by
  unfold scalar
  split
  · simp
  · have htag := putVarint_length_le 5 (number * 8 + 0)
    have hval := putVarint_length_le 10 n
    simp only [List.flatMap_singleton, Field.enc, Payload.enc, Payload.wireType,
      List.length_append]
    omega

theorem bytes_length_le (number : Nat) (b : List UInt8) :
    ((bytes number b).flatMap Field.enc).length ≤ 10 + b.length := by
  unfold bytes
  split
  · simp
  · have htag := putVarint_length_le 5 (number * 8 + 2)
    have hlen := putVarint_length_le 5 b.length
    simp only [List.flatMap_singleton, Field.enc, Payload.enc, Payload.wireType,
      List.length_append]
    omega

end Proto3
