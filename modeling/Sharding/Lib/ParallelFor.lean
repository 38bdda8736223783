import Mathlib.Algebra.BigOperators.Group.List.Basic
import Mathlib.Data.List.Nodup
import Mathlib.Logic.Function.Basic
import Mathlib.Tactic.Common

/-! # Parallel loops with a reduction

The iterations of a loop are spread over threads and run in some order; each
thread adds into a private copy of the reduction variable, and the copies are
added up at the end, in some order. `Schedule k` is one way to do this for `k`
iterations. `reduce_eq` shows that, in a commutative monoid, none of these
choices matters.
-/

namespace ParallelFor

/-- A way to run the iterations `0 .. k - 1`. -/
structure Schedule (k : Nat) where
  /-- The iterations in the order they run, each as a thread and an index. -/
  steps : List (Nat × Nat)
  /-- The threads in the order in which their copies are added up. -/
  threads : List Nat
  indices : (steps.map Prod.snd).Perm (List.range k)
  threads_nodup : threads.Nodup
  covered : ∀ s ∈ steps, s.1 ∈ threads

/-- One thread does everything in order. -/
def Schedule.sequential (k : Nat) : Schedule k where
  steps := (List.range k).map fun i => (0, i)
  threads := [0]
  indices := by simp [Function.comp_def]
  threads_nodup := List.nodup_singleton 0
  covered := by simp

/-- Every index that runs is one of the loop. -/
theorem Schedule.index_lt {k : Nat} (schedule : Schedule k) :
    ∀ s ∈ schedule.steps, s.2 < k := by
  intro s hs
  have hmem : s.2 ∈ List.range k := schedule.indices.subset (List.mem_map_of_mem hs)
  exact List.mem_range.mp hmem

variable {M : Type} [AddCommMonoid M]

/-- Thread `t` adds `x` to its copy. -/
def addTo (copies : Nat → M) (t : Nat) (x : M) : Nat → M :=
  Function.update copies t (copies t + x)

/-- The copies after the iterations `steps`, where iteration `i` adds `f i`. -/
def copiesAfter (f : Nat → M) (steps : List (Nat × Nat)) (copies : Nat → M) : Nat → M :=
  steps.foldl (fun copies s => addTo copies s.1 (f s.2)) copies

/-- Add up the copies. -/
def reduce (threads : List Nat) (copies : Nat → M) : M :=
  threads.foldl (fun total t => total + copies t) 0

theorem reduce_eq_sum (threads : List Nat) (copies : Nat → M) :
    reduce threads copies = (threads.map copies).sum := by
  rw [reduce, List.sum_eq_foldl, List.foldl_map]

/-- An addition to one copy is an addition to the sum. -/
theorem sum_addTo {threads : List Nat} (hnodup : threads.Nodup) {t : Nat} (ht : t ∈ threads)
    (copies : Nat → M) (x : M) :
    (threads.map (addTo copies t x)).sum = (threads.map copies).sum + x := by
  induction threads with
  | nil => cases ht
  | cons u us ih =>
      rcases List.nodup_cons.mp hnodup with ⟨hu, hus⟩
      rw [List.map_cons, List.map_cons, List.sum_cons, List.sum_cons]
      by_cases htu : t = u
      · subst htu
        have hrest : us.map (addTo copies t x) = us.map copies := by
          apply List.map_congr_left
          intro v hv
          have hvt : v ≠ t := fun h => hu (h ▸ hv)
          exact Function.update_of_ne hvt _ _
        rw [hrest, addTo, Function.update_self, add_right_comm]
      · have hmem : t ∈ us := List.mem_of_ne_of_mem htu ht
        have hsame : addTo copies t x u = copies u :=
          Function.update_of_ne (fun h => htu h.symm) _ _
        rw [ih hus hmem, hsame, add_assoc]

/-- The copies together hold the sum over the iterations that ran. -/
theorem sum_copiesAfter {threads : List Nat} (hnodup : threads.Nodup) (f : Nat → M)
    (steps : List (Nat × Nat)) (hsteps : ∀ s ∈ steps, s.1 ∈ threads) (copies : Nat → M) :
    (threads.map (copiesAfter f steps copies)).sum =
      (threads.map copies).sum + ((steps.map Prod.snd).map f).sum := by
  induction steps generalizing copies with
  | nil => simp [copiesAfter]
  | cons s steps ih =>
      have hs : s.1 ∈ threads := hsteps s List.mem_cons_self
      have hrest := ih (fun r hr => hsteps r (List.mem_cons_of_mem s hr)) (addTo copies s.1 (f s.2))
      rw [sum_addTo hnodup hs] at hrest
      rw [List.map_cons, List.map_cons, List.sum_cons, ← add_assoc]
      exact hrest

/-- The reduction gives the sum over all iterations, whatever the schedule. -/
theorem reduce_eq {k : Nat} (schedule : Schedule k) (f : Nat → M) :
    reduce schedule.threads (copiesAfter f schedule.steps fun _ => 0) =
      ((List.range k).map f).sum := by
  rw [reduce_eq_sum, sum_copiesAfter schedule.threads_nodup f schedule.steps schedule.covered,
    (schedule.indices.map f).sum_eq]
  have hzero : (schedule.threads.map fun _ => (0 : M)).sum = 0 := by
    rw [List.map_const', List.sum_replicate, nsmul_zero]
  rw [hzero, zero_add]

end ParallelFor
