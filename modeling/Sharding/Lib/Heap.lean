import Mathlib.Data.List.Basic
import Mathlib.Logic.Function.Basic
import Mathlib.Tactic.Common

/-! # Heap blocks

A block of `cap` cells as `malloc` returns it: a cell holds nothing until it is
stored to, loads and stores outside the block are caught, and `realloc` keeps
the cells that both the old and the new block have. `Holds b l` says that the
block starts with the list `l`; the rules below say what each operation does to
it, so that a program that fills a block front to back is reasoned about as a
list. Reading any part of it works as on the list, and nothing behind the list can be
read (`Holds.readAt`, `readAt_ofList_none`).
-/

/-- A block of `cap` cells; a cell is `none` until something is stored there. -/
structure HeapBlock (α : Type) where
  cap : Nat
  cells : Nat → Option α

namespace HeapBlock

variable {α : Type}

/-- A fresh block of `n` cells, nothing stored yet. -/
def malloc (n : Nat) : HeapBlock α := ⟨n, fun _ => none⟩

/-- Read a cell: `none` outside the block or before any store. -/
def load (b : HeapBlock α) (i : Nat) : Option α :=
  if i < b.cap then b.cells i else none

/-- Write a cell that is known to be inside the block. -/
def put (b : HeapBlock α) (i : Nat) (a : α) : HeapBlock α :=
  { b with cells := Function.update b.cells i (some a) }

/-- Write a cell: `none` outside the block. -/
def store (b : HeapBlock α) (i : Nat) (a : α) : Option (HeapBlock α) :=
  if i < b.cap then some (b.put i a) else none

/-- Move to a block of `n` cells, keeping what fits. -/
def realloc (b : HeapBlock α) (n : Nat) : HeapBlock α :=
  ⟨n, fun i => if i < b.cap then b.cells i else none⟩

/-- Copy out the first `n` cells, front to back. -/
def read (b : HeapBlock α) (n : Nat) : Option (List α) :=
  (List.range n).mapM b.load

/-- The block starts with the list `l`. -/
def Holds (b : HeapBlock α) (l : List α) : Prop :=
  l.length ≤ b.cap ∧ ∀ i (h : i < l.length), b.cells i = some l[i]

theorem holds_nil (b : HeapBlock α) : b.Holds [] :=
  ⟨Nat.zero_le _, fun _ h => absurd h (Nat.not_lt_zero _)⟩

theorem Holds.load {b : HeapBlock α} {l : List α} (h : b.Holds l) (i : Nat)
    (hi : i < l.length) : b.load i = some l[i] := by
  have hcap : i < b.cap := Nat.lt_of_lt_of_le hi h.1
  rw [HeapBlock.load, if_pos hcap, h.2 i hi]

/-- A block that starts with `l` starts with every prefix of it. -/
theorem Holds.take {b : HeapBlock α} {l : List α} (h : b.Holds l) (n : Nat) :
    b.Holds (l.take n) := by
  refine ⟨Nat.le_trans (List.length_take_le' _ _) h.1, ?_⟩
  intro i hi
  have hil : i < l.length := Nat.lt_of_lt_of_le hi (List.length_take_le' _ _)
  rw [h.2 i hil, List.getElem_take]

/-- Of a longer list the block starts with the first part. -/
theorem Holds.of_append {b : HeapBlock α} {l r : List α} (h : b.Holds (l ++ r)) : b.Holds l := by
  have htake := h.take l.length
  rwa [List.take_left' rfl] at htake

/-- Writing right behind the list appends to it, while the block has room. -/
theorem Holds.put {b : HeapBlock α} {l : List α} (h : b.Holds l) (a : α)
    (hroom : l.length < b.cap) : (b.put l.length a).Holds (l ++ [a]) := by
  constructor
  · rw [List.length_append, List.length_singleton]
    exact hroom
  intro i hi
  show Function.update b.cells l.length (some a) i = some (l ++ [a])[i]
  rw [List.length_append, List.length_singleton] at hi
  rcases Nat.lt_or_ge i l.length with hlt | hge
  · have hne : i ≠ l.length := Nat.ne_of_lt hlt
    rw [Function.update_of_ne hne, h.2 i hlt, List.getElem_append_left hlt]
  · have heq : i = l.length := by omega
    subst heq
    rw [Function.update_self, List.getElem_concat_length rfl]

/-- Storing outside the block is caught. -/
theorem store_of_cap_le {b : HeapBlock α} {i : Nat} (a : α) (h : b.cap ≤ i) :
    b.store i a = none := by
  rw [HeapBlock.store, if_neg (Nat.not_lt.mpr h)]

/-- Growing a block loses nothing. -/
theorem Holds.realloc {b : HeapBlock α} {l : List α} (h : b.Holds l) (n : Nat)
    (hn : b.cap ≤ n) : (b.realloc n).Holds l := by
  refine ⟨Nat.le_trans h.1 hn, ?_⟩
  intro i hi
  have hcap : i < b.cap := Nat.lt_of_lt_of_le hi h.1
  show (if i < b.cap then b.cells i else none) = some l[i]
  rw [if_pos hcap, h.2 i hi]

/-- Copying out the prefix a block holds gives that prefix. -/
theorem Holds.read {b : HeapBlock α} {l : List α} (h : b.Holds l) :
    b.read l.length = some l := by
  have hload : ∀ n ≤ l.length, (List.range n).mapM b.load = some (l.take n) := by
    intro n
    induction n with
    | zero => intro _; rfl
    | succ n ih =>
        intro hn
        have hlast : b.load n = some l[n] := h.load n hn
        rw [List.range_succ, List.mapM_append, ih (Nat.le_of_succ_le hn),
          List.take_succ_eq_append_getElem hn]
        simp [hlast]
  have hall := hload l.length (Nat.le_refl _)
  rwa [List.take_length] at hall

/-! ## Parts of a block -/

/-- A block of `cap` cells where nothing but the list `l` is stored. -/
def ofList (cap : Nat) (l : List α) : HeapBlock α := ⟨cap, fun i => l[i]?⟩

/-- Copy out `n` cells from the cell `off` on. -/
def readAt (b : HeapBlock α) (off : Nat) : Nat → Option (List α)
  | 0 => some []
  | n + 1 =>
      match b.load off, readAt b (off + 1) n with
      | some a, some l => some (a :: l)
      | _, _ => none

/-- Read on from the cell `i`, at most `n` cells, to the first element to stop at. -/
def readUntil (b : HeapBlock α) (stop : α → Bool) (i : Nat) : Nat → Option (List α)
  | 0 => none
  | n + 1 =>
      match b.load i with
      | none => none
      | some a => if stop a then some [] else (readUntil b stop (i + 1) n).map (a :: ·)

theorem ofList_holds {cap : Nat} {l : List α} (h : l.length ≤ cap) : (ofList cap l).Holds l :=
  ⟨h, fun _ hi => List.getElem?_eq_getElem hi⟩

theorem Holds.readAt {b : HeapBlock α} {l : List α} (h : b.Holds l) (n off : Nat)
    (hle : off + n ≤ l.length) : b.readAt off n = some ((l.drop off).take n) := by
  induction n generalizing off with
  | zero => rfl
  | succ n ih =>
      have hoff : off < l.length := by omega
      rw [HeapBlock.readAt, h.load off hoff, ih (off + 1) (by omega), List.drop_eq_getElem_cons hoff]
      rfl

/-- Behind the list nothing can be read. -/
theorem readAt_ofList_none {cap : Nat} {l : List α} (n off : Nat) (hlt : l.length < off + n)
    (hn : 0 < n) : (ofList cap l).readAt off n = none := by
  induction n generalizing off with
  | zero => exact absurd hn (Nat.lt_irrefl 0)
  | succ n ih =>
      rw [readAt]
      by_cases hlast : n = 0
      · -- the last cell is behind the list
        have hnone : (ofList cap l).load off = none := by
          rw [load]
          split
          · exact List.getElem?_eq_none (by omega)
          · rfl
        rw [hnone]
      · -- the reading fails further on, whatever is in this cell
        rw [ih (off + 1) (by omega) (by omega)]
        cases (ofList cap l).load off with
        | none => rfl
        | some a => rfl

/-- Reading up to an element that is stored behind the list. -/
theorem Holds.readUntil {b : HeapBlock α} {l : List α} {a : α} (h : b.Holds (l ++ [a]))
    {stop : α → Bool} (hstop : stop a = true) (n i : Nat) (hi : i ≤ l.length)
    (hn : l.length < i + n) :
    b.readUntil stop i n = some ((l.drop i).takeWhile fun x => !stop x) := by
  induction n generalizing i with
  | zero => omega
  | succ n ih =>
      have hlen : i < (l ++ [a]).length := by
        rw [List.length_append, List.length_singleton]
        omega
      have hstep : b.readUntil stop i (n + 1) =
          if stop (l ++ [a])[i] then some []
          else (b.readUntil stop (i + 1) n).map ((l ++ [a])[i] :: ·) := by
        rw [HeapBlock.readUntil, h.load i hlen]
      rw [hstep]
      rcases Nat.lt_or_eq_of_le hi with hlt | rfl
      · -- in the list, where reading may stop already
        rw [List.getElem_append_left hlt, List.drop_eq_getElem_cons hlt, List.takeWhile_cons]
        split
        · rename_i hx
          rw [hx]
          rfl
        · rename_i hx
          rw [ih (i + 1) hlt (by omega), Bool.eq_false_iff.mpr hx]
          rfl
      · rw [List.getElem_concat_length rfl, if_pos hstop, List.drop_length]
        rfl

end HeapBlock
