import Mathlib.Data.List.Basic
import Mathlib.Tactic.Common

/-! # Elements written as two digits

Each element is split into a high and a low half and each half is written as a digit.
Several digits may stand for one half; `norm` is the one that is written. Reading
undoes writing (`read_write`), accepts exactly the texts of an even number of digits
(`read_isSome_iff`), and writing again what was read normalises the text (`write_read`).
-/

/-- How elements `α` split into halves `ν` and halves are written as digits `δ`. -/
structure PairCode (α ν δ : Type) where
  high : α → ν
  low : α → ν
  join : ν → ν → α
  digit : ν → δ
  value : δ → Option ν
  norm : δ → δ
  join_split : ∀ a, join (high a) (low a) = a
  value_high : ∀ a, value (digit (high a)) = some (high a)
  value_low : ∀ a, value (digit (low a)) = some (low a)
  split_join : ∀ d e x y, value d = some x → value e = some y →
    high (join x y) = x ∧ low (join x y) = y
  digit_value : ∀ d x, value d = some x → digit x = norm d

namespace PairCode

variable {α ν δ : Type} (C : PairCode α ν δ)

/-- The digits of the elements. -/
def write (l : List α) : List δ := l.flatMap fun a => [C.digit (C.high a), C.digit (C.low a)]

/-- The element of two digits. -/
def pair (d e : δ) : Option α :=
  match C.value d, C.value e with
  | some x, some y => some (C.join x y)
  | _, _ => none

/-- The elements of a text, if it has any. -/
def read : List δ → Option (List α)
  | [] => some []
  | [_] => none
  | d :: e :: s =>
      match C.pair d e, read s with
      | some a, some l => some (a :: l)
      | _, _ => none

variable {C}

@[simp] theorem write_cons (a : α) (l : List α) :
    C.write (a :: l) = C.digit (C.high a) :: C.digit (C.low a) :: C.write l := rfl

theorem write_length (l : List α) : (C.write l).length = 2 * l.length := by
  induction l with
  | nil => rfl
  | cons a l ih =>
      rw [write_cons, List.length_cons, List.length_cons, List.length_cons, ih]
      omega

theorem pair_write (a : α) : C.pair (C.digit (C.high a)) (C.digit (C.low a)) = some a := by
  rw [pair, C.value_high, C.value_low]
  exact congrArg some (C.join_split a)

/-- A pair has an element if both digits have a value. -/
theorem pair_isSome_iff (d e : δ) :
    (C.pair d e).isSome ↔ (C.value d).isSome ∧ (C.value e).isSome := by
  rw [pair]
  cases C.value d with
  | none => simp
  | some x =>
      cases C.value e with
      | none => simp
      | some y => simp

/-- Writing the element of a pair gives its digits, normalised. -/
theorem digits_pair {d e : δ} {a : α} (h : C.pair d e = some a) :
    C.digit (C.high a) = C.norm d ∧ C.digit (C.low a) = C.norm e := by
  rw [pair] at h
  split at h
  · rename_i x y hx hy
    obtain rfl := Option.some.inj h
    rcases C.split_join d e x y hx hy with ⟨hhigh, hlow⟩
    exact ⟨by rw [hhigh, C.digit_value d x hx], by rw [hlow, C.digit_value e y hy]⟩
  · cases h

/-- Reading undoes writing. -/
theorem read_write (l : List α) : C.read (C.write l) = some l := by
  induction l with
  | nil => rfl
  | cons a l ih => rw [write_cons, read, pair_write, ih]

/-- The texts that are accepted. -/
theorem read_isSome_iff (s : List δ) :
    (C.read s).isSome ↔ s.length % 2 = 0 ∧ ∀ d ∈ s, (C.value d).isSome := by
  fun_induction C.read s with
  | case1 => simp
  | case2 d => simp
  | case3 d e s a l hl ha ih =>
      have hpair := (pair_isSome_iff (C := C) d e).mp (by rw [ha]; rfl)
      rw [hl] at ih
      rcases ih.mp rfl with ⟨heven, hall⟩
      simp only [Option.isSome_some, List.length_cons, true_iff]
      -- both digits of the pair, and the digits of the rest
      refine ⟨by omega, ?_⟩
      intro c hc
      rcases List.mem_cons.mp hc with rfl | hc
      · exact hpair.1
      rcases List.mem_cons.mp hc with rfl | hc
      · exact hpair.2
      exact hall c hc
  | case4 d e s hno ih =>
      simp only [Option.isSome_none, Bool.false_eq_true, false_iff]
      rintro ⟨heven, hall⟩
      rw [List.length_cons, List.length_cons] at heven
      have hpair := (pair_isSome_iff (C := C) d e).mpr
        ⟨hall d List.mem_cons_self, hall e (List.mem_cons_of_mem _ List.mem_cons_self)⟩
      have hrest := ih.mpr ⟨by omega, fun c hc =>
        hall c (List.mem_cons_of_mem _ (List.mem_cons_of_mem _ hc))⟩
      -- with a good pair and a good rest the text would have been read
      rcases Option.isSome_iff_exists.mp hpair with ⟨a, ha⟩
      rcases Option.isSome_iff_exists.mp hrest with ⟨l, hl⟩
      exact hno a l ha hl

/-- Writing what was read normalises the text. -/
theorem write_read {s : List δ} {l : List α} (h : C.read s = some l) : C.write l = s.map C.norm := by
  fun_induction C.read s generalizing l with
  | case1 =>
      obtain rfl := Option.some.inj h
      rfl
  | case2 d => cases h
  | case3 d e s a l' hl' ha ih =>
      obtain rfl := Option.some.inj h
      rcases digits_pair ha with ⟨hhigh, hlow⟩
      rw [write_cons, hhigh, hlow, ih hl']
      rfl
  | case4 d e s hno ih => cases h

end PairCode
