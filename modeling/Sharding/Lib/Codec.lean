import Mathlib.Data.UInt
import Mathlib.Data.List.Basic
import Mathlib.Tactic.Common

/-! # Fixed-size codecs

A `Codec α` lays the values of `α` out in exactly `size` bytes and reads back
what it wrote, whatever bytes follow. A packed C struct is the sequence (`seq`)
of the codecs of its fields, transported along the structure's constructor
(`map`); the size, the round trip and the injectivity of the layout come with
the combinators.
-/

/-- Base-256 digits of `n`, least significant first, exactly `k` of them. -/
def leBytes : Nat → Nat → List UInt8
  | 0, _ => []
  | k + 1, n => UInt8.ofNat (n % 256) :: leBytes k (n / 256)

/-- The number written in little-endian order. -/
def leNat : List UInt8 → Nat
  | [] => 0
  | b :: bs => b.toNat + 256 * leNat bs

@[simp] theorem leBytes_length (k n : Nat) : (leBytes k n).length = k := by
  induction k generalizing n with
  | zero => rfl
  | succ k ih => simp [leBytes, ih]

theorem leNat_leBytes (k n : Nat) (h : n < 256 ^ k) : leNat (leBytes k n) = n := by
  induction k generalizing n with
  | zero =>
      have hn : n = 0 := by simpa using h
      simp [leBytes, leNat, hn]
  | succ k ih =>
      have hdiv : n / 256 < 256 ^ k := by
        rw [Nat.div_lt_iff_lt_mul (by decide)]
        rwa [Nat.pow_succ] at h
      have hlow : (UInt8.ofNat (n % 256)).toNat = n % 256 := by
        rw [UInt8.toNat_ofNat']
        omega
      rw [leBytes, leNat, ih _ hdiv, hlow]
      omega

/-- A layout of `α` in exactly `size` bytes, and the reader that undoes it. The
reader is given at least the bytes that were written and ignores the rest. -/
structure Codec (α : Type) where
  size : Nat
  enc : α → List UInt8
  dec : List UInt8 → α
  enc_length : ∀ a, (enc a).length = size
  dec_enc : ∀ a rest, dec (enc a ++ rest) = a

namespace Codec

variable {α β : Type}

/-- Reading back exactly what was written. -/
theorem dec_enc_self (c : Codec α) (a : α) : c.dec (c.enc a) = a := by
  have h := c.dec_enc a []
  rwa [List.append_nil] at h

/-- Distinct values have distinct layouts. -/
theorem enc_injective (c : Codec α) : Function.Injective c.enc := by
  intro a b hab
  rw [← c.dec_enc_self a, hab, c.dec_enc_self]

/-- Two layouts followed by arbitrary bytes agree only if both parts agree: a
fixed width leaves no room for ambiguity. -/
theorem enc_append_inj (c : Codec α) {a b : α} {x y : List UInt8}
    (h : c.enc a ++ x = c.enc b ++ y) : a = b ∧ x = y := by
  have hlen : (c.enc a).length = (c.enc b).length := by rw [c.enc_length, c.enc_length]
  rcases List.append_inj h hlen with ⟨hab, hxy⟩
  exact ⟨c.enc_injective hab, hxy⟩

/-- A 32-bit word, least significant byte first. -/
def u32 : Codec UInt32 where
  size := 4
  enc x := leBytes 4 x.toNat
  dec l := UInt32.ofNat (leNat (l.take 4))
  enc_length x := leBytes_length 4 x.toNat
  dec_enc x rest := by
    have hlt : x.toNat < 256 ^ 4 := x.toNat_lt
    rw [List.take_left' (leBytes_length 4 x.toNat), leNat_leBytes 4 _ hlt, UInt32.ofNat_toNat]

/-- A 64-bit word, least significant byte first. -/
def u64 : Codec UInt64 where
  size := 8
  enc x := leBytes 8 x.toNat
  dec l := UInt64.ofNat (leNat (l.take 8))
  enc_length x := leBytes_length 8 x.toNat
  dec_enc x rest := by
    have hlt : x.toNat < 256 ^ 8 := x.toNat_lt
    rw [List.take_left' (leBytes_length 8 x.toNat), leNat_leBytes 8 _ hlt, UInt64.ofNat_toNat]

/-- The first `n` bytes of a list, zeros where it is too short. -/
def takeVec (n : Nat) (l : List UInt8) : Vector UInt8 n :=
  Vector.ofFn fun i => l.getD i 0

theorem takeVec_append (n : Nat) (v : Vector UInt8 n) (rest : List UInt8) :
    takeVec n (v.toList ++ rest) = v := by
  ext i hi
  simp [takeVec, List.getElem?_append_left]

@[simp] theorem takeVec_toList (n : Nat) (v : Vector UInt8 n) : takeVec n v.toList = v := by
  have h := takeVec_append n v []
  rwa [List.append_nil] at h

/-- What comes behind the first `n` bytes is not looked at. -/
theorem takeVec_take (n : Nat) (l : List UInt8) : takeVec n (l.take n) = takeVec n l := by
  ext i hi
  simp [takeVec]

/-- A list that fits is padded with zeros. -/
theorem toList_takeVec {n : Nat} {l : List UInt8} (h : l.length ≤ n) :
    (takeVec n l).toList = l ++ List.replicate (n - l.length) 0 := by
  apply List.ext_getElem
  · simp
    omega
  · intro i hi hil
    rcases Nat.lt_or_ge i l.length with hlt | hge
    · simp [takeVec, List.getElem_append_left hlt, hlt]
    · simp [takeVec, List.getElem_append_right hge, hge]

/-- A byte array of `n` bytes. -/
def bytes (n : Nat) : Codec (Vector UInt8 n) where
  size := n
  enc v := v.toList
  dec := takeVec n
  enc_length v := by simp
  dec_enc v rest := takeVec_append n v rest

/-- `n` bytes of padding, which carry nothing. -/
def pad (n : Nat) : Codec Unit where
  size := n
  enc _ := List.replicate n 0
  dec _ := ()
  enc_length _ := List.length_replicate
  dec_enc _ _ := rfl

/-- One layout after another. -/
def seq (c : Codec α) (d : Codec β) : Codec (α × β) where
  size := c.size + d.size
  enc p := c.enc p.1 ++ d.enc p.2
  dec l := (c.dec l, d.dec (l.drop c.size))
  enc_length p := by rw [List.length_append, c.enc_length, d.enc_length]
  dec_enc p rest := by
    have hdrop : (c.enc p.1 ++ d.enc p.2 ++ rest).drop c.size = d.enc p.2 ++ rest := by
      rw [List.append_assoc, List.drop_left' (c.enc_length p.1)]
    rw [hdrop, d.dec_enc, List.append_assoc, c.dec_enc]

/-- An array of `n` elements. -/
def array (c : Codec α) (n : Nat) : Codec (Vector α n) where
  size := n * c.size
  enc v := v.toList.flatMap c.enc
  dec l := Vector.ofFn fun i => c.dec (l.drop (i * c.size))
  enc_length v := by
    simp [List.length_flatMap, c.enc_length]
  dec_enc v rest := by
    have hdrop : ∀ (l : List α) (i : Nat) (hi : i < l.length),
        (l.flatMap c.enc ++ rest).drop (i * c.size) =
          c.enc l[i] ++ ((l.drop (i + 1)).flatMap c.enc ++ rest) := by
      intro l
      induction l with
      | nil =>
          intro i hi
          cases hi
      | cons a l ih =>
          intro i hi
          rw [List.flatMap_cons, List.append_assoc]
          cases i with
          | zero => simp
          | succ i =>
              rw [Nat.succ_mul, Nat.add_comm, ← List.drop_drop,
                List.drop_left' (c.enc_length a), ih i (Nat.lt_of_succ_lt_succ hi)]
              rfl
    ext i hi
    have hlen : i < v.toList.length := by simpa using hi
    rw [Vector.getElem_ofFn, hdrop v.toList i hlen, c.dec_enc]
    simp

/-- The layout of a structure from the layout of its fields. -/
def map (c : Codec α) (ofFields : α → β) (fields : β → α)
    (h : ∀ b, ofFields (fields b) = b) : Codec β where
  size := c.size
  enc b := c.enc (fields b)
  dec l := ofFields (c.dec l)
  enc_length b := c.enc_length (fields b)
  dec_enc b rest := by rw [c.dec_enc, h]

end Codec
