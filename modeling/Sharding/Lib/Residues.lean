import Mathlib.Data.List.Basic
import Mathlib.Tactic.Common

/-! # How numbers spread over the residues

A list of numbers is made up of pieces of consecutive ones. Going from a residue to
the next, its count changes only by the pieces that begin at it and those that end
before it, so the list has equally many numbers of every residue exactly when as
many pieces begin at each residue as end before it (`even_iff_balanced`). Lists of
pieces as long as there are residues are the simplest case (`Tiled`).
-/

namespace Residues

/-- How many of the numbers have the residue `i`. -/
def share (n i : Nat) (xs : List Nat) : Nat := xs.countP fun x => x % n == i

/-- Equally many of each residue. -/
def Even (n : Nat) (xs : List Nat) : Prop := ∀ i < n, ∀ j < n, share n i xs = share n j xs

/-- The numbers of pieces given by their first number and their length. -/
def numbers (pieces : List (Nat × Nat)) : List Nat := pieces.flatMap fun p => List.range' p.1 p.2

/-- For each residue, as many pieces begin at it as end before it. -/
def Balanced (n : Nat) (pieces : List (Nat × Nat)) : Prop :=
  ∀ i < n, pieces.countP (fun p => p.1 % n == i) = pieces.countP fun p => (p.1 + p.2) % n == i

variable {n : Nat}

/-! ## From a residue to the next -/

theorem share_append (n i : Nat) (xs ys : List Nat) :
    share n i (xs ++ ys) = share n i xs + share n i ys := List.countP_append

/-- The share of `i` among the successors. -/
def shareNext (n i : Nat) (xs : List Nat) : Nat := share n i (xs.map Nat.succ)

theorem succ_mod (hn : 0 < n) (x : Nat) :
    (x + 1) % n = if x % n + 1 = n then 0 else x % n + 1 := by
  have hlt := Nat.mod_lt x hn
  rw [← Nat.mod_add_mod]
  split
  · rename_i hwrap
    rw [hwrap, Nat.mod_self]
  · exact Nat.mod_eq_of_lt (by omega)

theorem shareNext_succ (hn : 0 < n) {i : Nat} (hi : i + 1 < n) (xs : List Nat) :
    shareNext n (i + 1) xs = share n i xs := by
  rw [shareNext, share, share, List.countP_map]
  apply List.countP_congr
  intro x _
  have hlt := Nat.mod_lt x hn
  simp only [Function.comp_apply, Nat.succ_eq_add_one, beq_iff_eq, succ_mod hn]
  split <;> omega

theorem shareNext_zero (hn : 0 < n) (xs : List Nat) :
    shareNext n 0 xs = share n (n - 1) xs := by
  rw [shareNext, share, share, List.countP_map]
  apply List.countP_congr
  intro x _
  have hlt := Nat.mod_lt x hn
  simp only [Function.comp_apply, Nat.succ_eq_add_one, beq_iff_eq, succ_mod hn]
  split <;> omega

/-- A piece and its successors differ at the two ends. -/
theorem share_piece (n i first len : Nat) :
    share n i (List.range' first len) + share n i [first + len] =
      share n i [first] + shareNext n i (List.range' first len) := by
  have hsucc : (List.range' first len).map Nat.succ = List.range' (first + 1) len := by
    rw [Nat.add_comm first 1, ← List.map_add_range']
    apply List.map_congr_left
    intro x _
    exact Nat.add_comm x 1
  have hlast : List.range' first (len + 1) = List.range' first len ++ [first + len] := by
    rw [List.range'_concat, Nat.one_mul]
  have hfirst : List.range' first (len + 1) = [first] ++ List.range' (first + 1) len :=
    List.range'_succ
  rw [shareNext, hsucc, ← share_append, ← share_append, ← hlast, ← hfirst]

theorem share_numbers (n i : Nat) (pieces : List (Nat × Nat)) :
    share n i (numbers pieces) + pieces.countP (fun p => (p.1 + p.2) % n == i) =
      pieces.countP (fun p => p.1 % n == i) + shareNext n i (numbers pieces) := by
  have hone : ∀ x, share n i [x] = if (x % n == i) = true then 1 else 0 := by
    intro x
    rw [share, List.countP_singleton]
  induction pieces with
  | nil => rfl
  | cons p pieces ih =>
      have hpiece := share_piece n i p.1 p.2
      have hnumbers : numbers (p :: pieces) = List.range' p.1 p.2 ++ numbers pieces := rfl
      have hnext : shareNext n i (numbers (p :: pieces)) =
          shareNext n i (List.range' p.1 p.2) + shareNext n i (numbers pieces) := by
        rw [hnumbers, shareNext, List.map_append, share_append]
        rfl
      rw [hone, hone] at hpiece
      rw [hnext, hnumbers, share_append, List.countP_cons, List.countP_cons]
      omega

/-- Equally many numbers of every residue means equally many ends. -/
theorem even_iff_balanced (hn : 0 < n) (pieces : List (Nat × Nat)) :
    Even n (numbers pieces) ↔ Balanced n pieces := by
  constructor
  · intro heven i hi
    have hcount := share_numbers n i pieces
    have hsame : shareNext n i (numbers pieces) = share n i (numbers pieces) := by
      cases i with
      | zero =>
          rw [shareNext_zero hn]
          exact heven _ (by omega) _ hi
      | succ i =>
          rw [shareNext_succ hn hi]
          exact heven _ (by omega) _ hi
    omega
  · intro hbalanced
    -- every share is that of the residue 0
    have hzero : ∀ i < n, share n i (numbers pieces) = share n 0 (numbers pieces) := by
      intro i
      induction i with
      | zero => exact fun _ => rfl
      | succ i ih =>
          intro hi
          have hcount := share_numbers n (i + 1) pieces
          rw [hbalanced (i + 1) hi, shareNext_succ hn hi] at hcount
          rw [← ih (by omega)]
          omega
    intro i hi j hj
    rw [hzero i hi, hzero j hj]

/-! ## Pieces as long as there are residues -/

/-- Pieces of `n` numbers each. -/
def Tiled (n : Nat) (xs : List Nat) : Prop := ∃ firsts : List Nat, xs = numbers (firsts.map (·, n))

theorem numbers_append (ps qs : List (Nat × Nat)) : numbers (ps ++ qs) = numbers ps ++ numbers qs :=
  List.flatMap_append

theorem tiled_nil (n : Nat) : Tiled n [] := ⟨[], rfl⟩

theorem Tiled.append {xs ys : List Nat} (hxs : Tiled n xs) (hys : Tiled n ys) : Tiled n (xs ++ ys) := by
  rcases hxs with ⟨fs, rfl⟩
  rcases hys with ⟨gs, rfl⟩
  exact ⟨fs ++ gs, by rw [List.map_append, numbers_append]⟩

theorem tiled_range' {first len : Nat} (h : n ∣ len) : Tiled n (List.range' first len) := by
  rcases h with ⟨k, rfl⟩
  induction k generalizing first with
  | zero => exact ⟨[], rfl⟩
  | succ k ih =>
      have hsplit : List.range' first (n * (k + 1)) =
          numbers [(first, n)] ++ List.range' (first + n) (n * k) := by
        rw [numbers, List.flatMap_singleton, List.range'_append_1, Nat.mul_succ, Nat.add_comm]
      rw [hsplit]
      exact Tiled.append ⟨[first], rfl⟩ ih

theorem Tiled.take {xs : List Nat} (h : Tiled n xs) {k : Nat} (hk : n ∣ k) : Tiled n (xs.take k) := by
  rcases h with ⟨firsts, rfl⟩
  rcases hk with ⟨q, rfl⟩
  refine ⟨firsts.take q, ?_⟩
  induction firsts generalizing q with
  | nil => simp [numbers]
  | cons f firsts ih =>
      cases q with
      | zero => rfl
      | succ q =>
          have hhead : numbers ((f :: firsts).map (·, n)) =
              List.range' f n ++ numbers (firsts.map (·, n)) := rfl
          have hlen : (List.range' f n).length = n := List.length_range'
          have htake : (List.range' f n).take (n * (q + 1)) = List.range' f n :=
            List.take_of_length_le (by rw [hlen, Nat.mul_succ]; exact Nat.le_add_left _ _)
          have hrest : n * (q + 1) - n = n * q := by
            rw [Nat.mul_succ, Nat.add_sub_cancel]
          rw [hhead, List.take_append, htake, hlen, hrest, ih q]
          rfl

theorem Tiled.even (hn : 0 < n) {xs : List Nat} (h : Tiled n xs) : Even n xs := by
  rcases h with ⟨firsts, rfl⟩
  rw [even_iff_balanced hn]
  intro i _
  simp [List.countP_map, Function.comp_def]

end Residues
