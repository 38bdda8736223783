import Mathlib.Tactic.Common

/-! # Runs of a machine that may fault

A machine takes an input in each step and either moves to the next state or
faults. `Always` says that a property holds in every state of a run (and that
the run does not fault), `EachStep` that a condition on the state before the
step and the input holds at every step that a run comes to. `always_iff_eachStep`
is the rule that connects the two: where one step keeps the property, without a
fault, exactly under the condition, so does the whole run.
-/

namespace Run

variable {σ ι ε α β : Type}

/-- A computation that succeeded hands its value on. -/
@[simp] theorem ok_bind (a : α) (f : α → Except ε β) : (Except.ok a >>= f) = f a := rfl

/-- A sequence of computations succeeded only if both did. -/
theorem bind_eq_ok {x : Except ε α} {f : α → Except ε β} {b : β} (h : (x >>= f) = .ok b) :
    ∃ a, x = .ok a ∧ f a = .ok b := by
  cases x with
  | error e => cases h
  | ok a => exact ⟨a, rfl, h⟩

/-- Two sequences of computations are related if their parts are. -/
theorem map_bind {α' β' : Type} {φ : α → α'} {ψ : β → β'} {f : α → Except ε β}
    {f' : α' → Except ε β'} (h : ∀ a, f' (φ a) = (f a).map ψ) (x : Except ε α) :
    (x.map φ >>= f') = (x >>= f).map ψ := by
  cases x with
  | error e => rfl
  | ok a => exact h a

theorem bind_map {β' : Type} {ψ : β → β'} {f : α → Except ε β} {f' : α → Except ε β'}
    (h : ∀ a, f' a = (f a).map ψ) (x : Except ε α) : (x >>= f') = (x >>= f).map ψ := by
  cases x with
  | error e => rfl
  | ok a => exact h a

/-- Feed the inputs one after another; the first fault ends the run. -/
def run (step : σ → ι → Except ε σ) : σ → List ι → Except ε σ
  | s, [] => .ok s
  | s, i :: is =>
      match step s i with
      | .ok s' => run step s' is
      | .error e => .error e

/-- `P` holds in the first state and in the state after every input; no step faults. -/
def Always (step : σ → ι → Except ε σ) (P : σ → Prop) : σ → List ι → Prop
  | s, [] => P s
  | s, i :: is => P s ∧ ∃ s', step s i = .ok s' ∧ Always step P s' is

/-- `Q` holds of the state before the step and the input, at every step that the run
comes to; whether a step faults is left open. -/
def EachStep (step : σ → ι → Except ε σ) (Q : σ → ι → Prop) : σ → List ι → Prop
  | _, [] => True
  | s, i :: is => Q s i ∧ ∀ s', step s i = .ok s' → EachStep step Q s' is

variable {step : σ → ι → Except ε σ}

/-- Invariant induction: what a step with any of the inputs `is` preserves, without
faulting, holds after the run. -/
theorem run_inv_mem (Inv : σ → Prop) :
    ∀ (is : List ι), (∀ s, ∀ i ∈ is, Inv s → ∃ s', step s i = .ok s' ∧ Inv s') →
      ∀ s, Inv s → ∃ s', run step s is = .ok s' ∧ Inv s' := by
  intro is
  induction is with
  | nil =>
      intro _ s hs
      exact ⟨s, rfl, hs⟩
  | cons i is ih =>
      intro hstep s hs
      rcases hstep s i List.mem_cons_self hs with ⟨s', hok, hs'⟩
      have hrest : ∀ s, ∀ j ∈ is, Inv s → ∃ s', step s j = .ok s' ∧ Inv s' :=
        fun s j hj => hstep s j (List.mem_cons_of_mem i hj)
      rcases ih hrest s' hs' with ⟨t, hrun, ht⟩
      exact ⟨t, by rw [run, hok]; exact hrun, ht⟩

/-- Invariant induction over arbitrary inputs. -/
theorem run_inv (Inv : σ → Prop)
    (hstep : ∀ s i, Inv s → ∃ s', step s i = .ok s' ∧ Inv s') (is : List ι) (s : σ)
    (hs : Inv s) : ∃ s', run step s is = .ok s' ∧ Inv s' :=
  run_inv_mem Inv is (fun s i _ => hstep s i) s hs

/-- A run over `is` and then `js`. -/
theorem run_append (is js : List ι) (s : σ) :
    run step s (is ++ js) = run step s is >>= fun t => run step t js := by
  induction is generalizing s with
  | nil => rfl
  | cons i is ih =>
      rw [List.cons_append, run, run]
      cases step s i with
      | error e => rfl
      | ok s' => exact ih s'

/-- Invariant induction for a counting loop: the invariant of round `i` leads to the
one of round `i + 1`. -/
theorem run_range_inv {step : σ → Nat → Except ε σ} (Inv : Nat → σ → Prop)
    (hstep : ∀ i s, Inv i s → ∃ s', step s i = .ok s' ∧ Inv (i + 1) s') (n : Nat) (s : σ)
    (hs : Inv 0 s) : ∃ s', run step s (List.range n) = .ok s' ∧ Inv n s' := by
  induction n with
  | zero => exact ⟨s, rfl, hs⟩
  | succ n ih =>
      rcases ih with ⟨t, hrun, ht⟩
      rcases hstep n t ht with ⟨s', hok, hs'⟩
      refine ⟨s', ?_, hs'⟩
      rw [List.range_succ, run_append, hrun, ok_bind, run, hok]
      rfl

/-- Invariant induction for runs that may fault: what every successful step with one of
the inputs preserves, every successful run preserves. -/
theorem run_preserves_mem (Inv : σ → Prop) :
    ∀ (is : List ι), (∀ s, ∀ i ∈ is, ∀ s', Inv s → step s i = .ok s' → Inv s') →
      ∀ (s t : σ), Inv s → run step s is = .ok t → Inv t := by
  intro is
  induction is with
  | nil =>
      intro _ s t hs hrun
      obtain rfl : s = t := Except.ok.inj hrun
      exact hs
  | cons i is ih =>
      intro hstep s t hs hrun
      have hrest : ∀ s, ∀ j ∈ is, ∀ s', Inv s → step s j = .ok s' → Inv s' :=
        fun s j hj => hstep s j (List.mem_cons_of_mem i hj)
      cases hone : step s i with
      | error e =>
          rw [run, hone] at hrun
          cases hrun
      | ok s' =>
          rw [run, hone] at hrun
          exact ih hrest s' t (hstep s i List.mem_cons_self s' hs hone) hrun

/-- The same over arbitrary inputs. -/
theorem run_preserves (Inv : σ → Prop)
    (hstep : ∀ s i s', Inv s → step s i = .ok s' → Inv s') (is : List ι) :
    ∀ (s t : σ), Inv s → run step s is = .ok t → Inv t :=
  run_preserves_mem Inv is fun s i _ => hstep s i

/-- Invariant induction with the inputs so far. -/
theorem run_history (Inv : List ι → σ → Prop)
    (hstep : ∀ before s i, Inv before s → ∃ s', step s i = .ok s' ∧ Inv (before ++ [i]) s')
    (is : List ι) : ∀ before s, Inv before s → ∃ t, run step s is = .ok t ∧ Inv (before ++ is) t := by
  induction is with
  | nil =>
      intro before s hs
      exact ⟨s, rfl, by rwa [List.append_nil]⟩
  | cons i is ih =>
      intro before s hs
      rcases hstep before s i hs with ⟨s', hok, hs'⟩
      rcases ih _ s' hs' with ⟨t, hrun, ht⟩
      refine ⟨t, ?_, ?_⟩
      · rw [run, hok]
        exact hrun
      · rwa [List.append_assoc, List.singleton_append] at ht

/-- What holds in all states holds along every run that does not fault. -/
theorem always_iff_run {P : σ → Prop} (hP : ∀ s, P s) (is : List ι) (s : σ) :
    Always step P s is ↔ ∃ t, run step s is = .ok t := by
  induction is generalizing s with
  | nil => exact ⟨fun _ => ⟨s, rfl⟩, fun _ => hP s⟩
  | cons i is ih =>
      rw [Always, run]
      cases step s i with
      | error e =>
          constructor
          · rintro ⟨-, t, ht, -⟩
            cases ht
          · rintro ⟨t, ht⟩
            cases ht
      | ok s' =>
          constructor
          · rintro ⟨-, t, ht, hrest⟩
            obtain rfl := Except.ok.inj ht
            exact (ih s').mp hrest
          · intro hrun
            exact ⟨hP s, s', rfl, (ih s').mpr hrun⟩

/-- If, under an invariant, `Q` of a step from a `P` state is enough for it to end
in a `P` state, and also necessary, then a run from a `P` state stays in `P`, and does
not fault, exactly when all its steps meet `Q`. -/
theorem always_iff_eachStep (Inv P : σ → Prop) (Q : σ → ι → Prop)
    (hmeets : ∀ s i, Inv s → P s → Q s i → ∃ s', step s i = .ok s' ∧ Inv s' ∧ P s')
    (hneeds : ∀ s i s', Inv s → P s → step s i = .ok s' → P s' → Q s i) :
    ∀ (is : List ι) (s : σ), Inv s → P s → (Always step P s is ↔ EachStep step Q s is) := by
  intro is
  induction is with
  | nil =>
      intro s _ hP
      exact ⟨fun _ => trivial, fun _ => hP⟩
  | cons i is ih =>
      intro s hs hP
      constructor
      · rintro ⟨-, t, ht, hrest⟩
        have hPt : P t := by
          cases is with
          | nil => exact hrest
          | cons j js => exact hrest.1
        have hQ := hneeds s i t hs hP ht hPt
        rcases hmeets s i hs hP hQ with ⟨s', hok, hs', hP'⟩
        -- the step is a function: `t` is the state `s'` of the step lemma
        obtain rfl : s' = t := Except.ok.inj (hok.symm.trans ht)
        refine ⟨hQ, ?_⟩
        intro u hu
        obtain rfl : s' = u := Except.ok.inj (ht.symm.trans hu)
        exact (ih s' hs' hP').mp hrest
      · rintro ⟨hQ, hrest⟩
        rcases hmeets s i hs hP hQ with ⟨s', hok, hs', hP'⟩
        exact ⟨hP, s', hok, (ih s' hs' hP').mpr (hrest s' hok)⟩

end Run
