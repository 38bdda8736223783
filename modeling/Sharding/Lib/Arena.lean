import Mathlib.Data.List.Nodup
import Mathlib.Data.List.Perm.Basic
import Mathlib.Tactic.Common

/-! # Allocations

An arena is the set of live allocations. Loading or freeing an address that is not
live fails, so a program that does not fail has no use after free and no double free.
The rules say what the calls do to the list of what is owned, whatever its order: a
call is safe on any allocation the list names.
-/

/-- The live allocations, by address; no address is handed out twice. -/
structure Arena (α : Type) where
  next : Nat
  cells : List (Nat × α)
  fresh : ∀ c ∈ cells, c.1 < next
  distinct : (cells.map Prod.fst).Nodup

namespace Arena

variable {α : Type}

def empty : Arena α where
  next := 0
  cells := []
  fresh := by simp
  distinct := List.nodup_nil

/-- A new allocation that holds `x`, and its address. -/
def malloc (a : Arena α) (x : α) : Nat × Arena α :=
  (a.next,
    { next := a.next + 1
      cells := (a.next, x) :: a.cells
      fresh := by
        intro c hc
        rcases List.mem_cons.mp hc with rfl | hc
        · exact Nat.lt_succ_self _
        · exact Nat.lt_succ_of_lt (a.fresh c hc)
      distinct := by
        rw [List.map_cons, List.nodup_cons]
        refine ⟨?_, a.distinct⟩
        intro hmem
        rcases List.mem_map.mp hmem with ⟨c, hc, heq⟩
        exact absurd (a.fresh c hc) (by rw [heq]; exact Nat.lt_irrefl _) })

/-- What the allocation at `p` holds, `none` if there is none. -/
def load (a : Arena α) (p : Nat) : Option α := (a.cells.find? fun c => c.1 == p).map Prod.snd

/-- The arena without the allocation at `p`, `none` if there is none. -/
def free (a : Arena α) (p : Nat) : Option (Arena α) :=
  if a.cells.any fun c => c.1 == p then
    some
      { next := a.next
        cells := a.cells.filter fun c => c.1 != p
        fresh := fun c hc => a.fresh c (List.mem_filter.mp hc).1
        distinct := (List.filter_sublist.map Prod.fst).nodup a.distinct }
  else none

/-- The live allocations are those of the list. -/
def Owns (a : Arena α) (cells : List (Nat × α)) : Prop := a.cells.Perm cells

theorem Owns.perm {a : Arena α} {cells cells' : List (Nat × α)} (h : a.Owns cells)
    (hperm : cells.Perm cells') : a.Owns cells' := h.trans hperm

theorem owns_empty : (empty : Arena α).Owns [] := List.Perm.refl []

theorem Owns.malloc {a : Arena α} {cells : List (Nat × α)} (h : a.Owns cells) (x : α) :
    (a.malloc x).2.Owns (((a.malloc x).1, x) :: cells) := h.cons _

theorem Owns.distinct {a : Arena α} {cells : List (Nat × α)} (h : a.Owns cells) :
    (cells.map Prod.fst).Nodup := (h.map Prod.fst).nodup_iff.mp a.distinct

/-- An address leads to one allocation. -/
theorem eq_of_address (a : Arena α) {c d : Nat × α} (hc : c ∈ a.cells) (hd : d ∈ a.cells)
    (h : c.1 = d.1) : c = d := List.inj_on_of_nodup_map a.distinct hc hd h

theorem Owns.load {a : Arena α} {cells : List (Nat × α)} {p : Nat} {x : α} (h : a.Owns cells)
    (hmem : (p, x) ∈ cells) : a.load p = some x := by
  have hcell := h.symm.subset hmem
  unfold Arena.load
  cases hfind : a.cells.find? fun c => c.1 == p with
  | none =>
      have hnot := List.find?_eq_none.mp hfind (p, x) hcell
      exact absurd (beq_self_eq_true p) hnot
  | some c =>
      have haddr : c.1 = p := by simpa using List.find?_some hfind
      rw [a.eq_of_address (List.mem_of_find?_eq_some hfind) hcell haddr]
      rfl

/-- A free takes its allocation off the list. -/
theorem Owns.free {a : Arena α} {cells : List (Nat × α)} {p : Nat} {x : α}
    (h : a.Owns ((p, x) :: cells)) : ∃ a', a.free p = some a' ∧ a'.Owns cells := by
  have hlive : (a.cells.any fun c => c.1 == p) = true := by
    rw [List.any_eq_true]
    exact ⟨(p, x), h.symm.subset List.mem_cons_self, beq_self_eq_true p⟩
  refine ⟨_, if_pos hlive, ?_⟩
  have hfilter := h.filter fun c => c.1 != p
  rw [List.filter_cons_of_neg (by simp)] at hfilter
  -- no other allocation has this address
  have hrest : cells.filter (fun c => c.1 != p) = cells := by
    apply List.filter_eq_self.mpr
    intro c hc
    have hnot := (List.nodup_cons.mp h.distinct).1
    have hne : c.1 ≠ p := fun heq => hnot (List.mem_map.mpr ⟨c, hc, heq⟩)
    simpa using hne
  rw [hrest] at hfilter
  exact hfilter

/-- What was allocated can be freed at once. -/
theorem Owns.malloc_free {a : Arena α} {cells : List (Nat × α)} (h : a.Owns cells) (x : α) :
    ∃ a', (a.malloc x).2.free (a.malloc x).1 = some a' ∧ a'.Owns cells :=
  (h.malloc x).free

/-- Free the addresses `ps`, front to back. -/
def freeAll (a : Arena α) : List Nat → Option (Arena α)
  | [] => some a
  | p :: ps => (a.free p).bind fun a => a.freeAll ps

theorem Owns.freeAll {cells rest : List (Nat × α)} :
    ∀ {a : Arena α}, a.Owns (cells ++ rest) →
      ∃ a', a.freeAll (cells.map Prod.fst) = some a' ∧ a'.Owns rest := by
  induction cells with
  | nil =>
      intro a h
      exact ⟨a, rfl, h⟩
  | cons c cells ih =>
      intro a h
      rcases h.free with ⟨a', hfree, h'⟩
      rcases ih h' with ⟨b, hall, hb⟩
      refine ⟨b, ?_, hb⟩
      rw [List.map_cons, Arena.freeAll, hfree, Option.bind_some, hall]

end Arena
