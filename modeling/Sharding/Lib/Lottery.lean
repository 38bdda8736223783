import Mathlib.Algebra.BigOperators.Group.List.Basic
import Mathlib.Algebra.GroupWithZero.Nat
import Mathlib.Data.List.Nodup
import Mathlib.Tactic.Common

/-! # Drawing by weight

A list of candidates cuts the numbers below their total weight into consecutive
intervals, one for each candidate and as wide as its weight. `select` finds the
candidate whose interval contains a number. Every number below the total selects
somebody (`select_total`), and each candidate is selected by exactly as many of
them as it has weight (`select_count`).
-/

namespace Lottery

variable {α : Type}

/-- The candidate whose interval contains `pick`; `none` beyond the last. -/
def select (w : α → Nat) : List α → Nat → Option α
  | [], _ => none
  | a :: as, pick => if pick < w a then some a else select w as (pick - w a)

/-- The width of all intervals. -/
def total (w : α → Nat) (as : List α) : Nat := (as.map w).sum

@[simp] theorem total_nil (w : α → Nat) : total w [] = 0 := rfl

@[simp] theorem total_cons (w : α → Nat) (a : α) (as : List α) :
    total w (a :: as) = w a + total w as := by
  simp [total]

variable {w : α → Nat} {as : List α}

/-- Below the total somebody is selected. -/
theorem select_total {pick : Nat} (h : pick < total w as) : ∃ a, select w as pick = some a := by
  induction as generalizing pick with
  | nil => simp at h
  | cons a as ih =>
      rw [total_cons] at h
      by_cases hin : pick < w a
      · exact ⟨a, by rw [select, if_pos hin]⟩
      · have hrest : pick - w a < total w as := by omega
        rcases ih hrest with ⟨b, hb⟩
        exact ⟨b, by rw [select, if_neg hin, hb]⟩

/-- Who is selected is a candidate, and has some weight. -/
theorem select_some {pick : Nat} {a : α} (h : select w as pick = some a) : a ∈ as ∧ 0 < w a := by
  induction as generalizing pick with
  | nil => cases h
  | cons b as ih =>
      rw [select] at h
      split at h
      · rename_i hin
        obtain rfl := Option.some.inj h
        exact ⟨List.mem_cons_self, Nat.zero_lt_of_lt hin⟩
      · rcases ih h with ⟨hmem, hpos⟩
        exact ⟨List.mem_cons_of_mem b hmem, hpos⟩

/-- A candidate is selected by as many numbers as it has weight. -/
theorem select_count [DecidableEq α] (hnodup : as.Nodup) {a : α} (ha : a ∈ as) :
    (List.range (total w as)).countP (fun pick => select w as pick == some a) = w a := by
  induction as with
  | nil => cases ha
  | cons b as ih =>
      rcases List.nodup_cons.mp hnodup with ⟨hb, hrest⟩
      rw [total_cons, List.range_add, List.countP_append, List.countP_map]
      -- the first interval selects `b`, the rest selects among the others
      have hfirst : (List.range (w b)).countP (fun pick => select w (b :: as) pick == some a) =
          if a = b then w b else 0 := by
        have hin : ∀ pick ∈ List.range (w b), select w (b :: as) pick = some b := by
          intro pick hpick
          rw [select, if_pos (List.mem_range.mp hpick)]
        by_cases hab : a = b
        · subst hab
          have hall : (List.range (w a)).countP (fun pick => select w (a :: as) pick == some a) =
              (List.range (w a)).length := by
            rw [List.countP_eq_length]
            intro pick hpick
            simp [hin pick hpick]
          rw [hall, if_pos rfl, List.length_range]
        · rw [if_neg hab, List.countP_eq_zero]
          intro pick hpick
          simp [hin pick hpick, Ne.symm hab]
      have hlater : ∀ pick, select w (b :: as) (w b + pick) = select w as pick := by
        intro pick
        rw [select, if_neg (by omega), Nat.add_sub_cancel_left]
      have hshift : ((fun pick => select w (b :: as) pick == some a) ∘ fun pick => w b + pick) =
          fun pick => select w as pick == some a := by
        funext pick
        rw [Function.comp_apply, hlater]
      rw [hfirst, hshift]
      by_cases hab : a = b
      · subst hab
        have hnone : (List.range (total w as)).countP (fun pick => select w as pick == some a) =
            0 := by
          rw [List.countP_eq_zero]
          intro pick _ hsel
          exact hb (select_some (by simpa using hsel)).1
        rw [if_pos rfl, hnone, Nat.add_zero]
      · rw [if_neg hab, ih hrest (List.mem_of_ne_of_mem hab ha), Nat.zero_add]

end Lottery
