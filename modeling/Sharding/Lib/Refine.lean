import Mathlib.Data.List.Forall2
import Sharding.Lib.Progress

/-! # Runs seen through a projection

A machine with several components refines a machine for one of them if whatever a
step does to the component, a run of that machine does. `run_steps` chains what
single steps do into what whole runs do, for several projections at once: they
are parts of one reflexive and transitive relation. `Execution.expand` does the same
for executions, so that what the component gets to by going on for ever, the whole
machine gets to.
-/

namespace Run

variable {σ ι ε : Type}

/-- A run from `s` ends in `t`. -/
def Reaches (step : σ → ι → Except ε σ) (s t : σ) : Prop := ∃ is, run step s is = .ok t

theorem Reaches.refl {step : σ → ι → Except ε σ} (s : σ) : Reaches step s s := ⟨[], rfl⟩

theorem Reaches.trans {step : σ → ι → Except ε σ} {s t u : σ} (h₁ : Reaches step s t)
    (h₂ : Reaches step t u) : Reaches step s u := by
  rcases h₁ with ⟨is, his⟩
  rcases h₂ with ⟨js, hjs⟩
  refine ⟨is ++ js, ?_⟩
  rw [run_append, his, ok_bind, hjs]

theorem Reaches.single {step : σ → ι → Except ε σ} {s t : σ} {i : ι} (h : step s i = .ok t) :
    Reaches step s t := ⟨[i], by rw [run, h]; rfl⟩

/-- What holds between the states before and after every step holds between those
before and after every run, if it can be chained. -/
theorem run_steps {step : σ → ι → Except ε σ} (Inv : σ → Prop) (R : σ → σ → Prop)
    (hrefl : ∀ s, R s s) (htrans : ∀ s t u, R s t → R t u → R s u)
    (hstep : ∀ s i, Inv s → ∃ s', step s i = .ok s' ∧ Inv s' ∧ R s s') (is : List ι) (s : σ)
    (hs : Inv s) : ∃ t, run step s is = .ok t ∧ Inv t ∧ R s t := by
  have hkeep : ∀ t i, Inv t ∧ R s t → ∃ t', step t i = .ok t' ∧ Inv t' ∧ R s t' := by
    rintro t i ⟨ht, hst⟩
    rcases hstep t i ht with ⟨t', hok, ht', htt'⟩
    exact ⟨t', hok, ht', htrans s t t' hst htt'⟩
  exact run_inv (fun t => Inv t ∧ R s t) hkeep is s ⟨hs, hrefl s⟩

/-- Two machines in lock-step: what relates the states before and after every step
relates those before and after every run. -/
theorem run_lockstep {τ ε' : Type} {step : σ → ι → Except ε σ} {step' : τ → ι → Except ε' τ}
    (R : σ → τ → Prop)
    (hstep : ∀ s t i, R s t → ∃ s' t', step s i = .ok s' ∧ step' t i = .ok t' ∧ R s' t')
    (is : List ι) : ∀ (s : σ) (t : τ), R s t →
      ∃ s' t', run step s is = .ok s' ∧ run step' t is = .ok t' ∧ R s' t' := by
  induction is with
  | nil =>
      intro s t h
      exact ⟨s, t, rfl, rfl, h⟩
  | cons i is ih =>
      intro s t h
      rcases hstep s t i h with ⟨s', t', hs, ht, h'⟩
      rcases ih s' t' h' with ⟨s'', t'', hs', ht', h''⟩
      refine ⟨s'', t'', ?_, ?_, h''⟩
      · rw [run, hs]
        exact hs'
      · rw [run, ht]
        exact ht'

/-- A computation whose image succeeded. -/
theorem map_eq_ok {α β : Type} {x : Except ε α} {f : α → β} {b : β} (h : x.map f = .ok b) :
    ∃ a, x = .ok a ∧ f a = b := by
  cases x with
  | error e => cases h
  | ok a => exact ⟨a, rfl, Except.ok.inj h⟩

/-- A machine that answers every input, with the answers so far. -/
def answering {ω : Type} (f : σ → ι → Except ε (σ × ω)) (s : σ × List ω) (i : ι) :
    Except ε (σ × List ω) := do
  let (t, answer) ← f s.1 i
  .ok (t, s.2 ++ [answer])

/-- Where each of the inputs is answered, so is the sequence: every answer is one for its
input. -/
theorem answering_ok {ω : Type} {f : σ → ι → Except ε (σ × ω)} (Inv : σ → Prop) (Ok : ι → Prop)
    (Answers : ι → ω → Prop)
    (hmeets : ∀ s i, Inv s → Ok i → ∃ t a, f s i = .ok (t, a) ∧ Inv t ∧ Answers i a)
    (is : List ι) :
    ∀ (s : σ) (as : List ω), Inv s → (∀ i ∈ is, Ok i) →
      ∃ t cs, run (answering f) (s, as) is = .ok (t, as ++ cs) ∧ List.Forall₂ Answers is cs := by
  induction is with
  | nil =>
      intro s as _ _
      exact ⟨s, [], by rw [List.append_nil, run], List.Forall₂.nil⟩
  | cons i is ih =>
      intro s as hs hall
      rcases List.forall_mem_cons.mp hall with ⟨hi, hrest⟩
      rcases hmeets s i hs hi with ⟨s', a, hf, hs', ha⟩
      rcases ih s' (as ++ [a]) hs' hrest with ⟨t, cs, hrun, hcs⟩
      refine ⟨t, a :: cs, ?_, List.Forall₂.cons ha hcs⟩
      rw [run, answering, hf, ok_bind]
      rwa [List.append_assoc, List.singleton_append] at hrun

/-- An input that is not answered is where the run ends, in the fault of that input. -/
theorem answering_error {ω : Type} {f : σ → ι → Except ε (σ × ω)} (Inv : σ → Prop)
    (Ok : ι → Prop) (e : ε) (hmeets : ∀ s i, Inv s → Ok i → ∃ t a, f s i = .ok (t, a) ∧ Inv t)
    (hfails : ∀ s i, Inv s → ¬ Ok i → f s i = .error e) (is : List ι) :
    ∀ (s : σ) (as : List ω), Inv s → (∃ i ∈ is, ¬ Ok i) →
      run (answering f) (s, as) is = .error e := by
  induction is with
  | nil =>
      rintro s as _ ⟨i, hi, -⟩
      cases hi
  | cons i is ih =>
      intro s as hs hbad
      by_cases hi : Ok i
      · rcases hmeets s i hs hi with ⟨s', a, hf, hs'⟩
        -- the input that fails comes later
        have hlater : ∃ j ∈ is, ¬ Ok j := by
          rcases hbad with ⟨j, hj, hnot⟩
          rcases List.mem_cons.mp hj with rfl | hj
          · exact absurd hi hnot
          · exact ⟨j, hj, hnot⟩
        rw [run, answering, hf, ok_bind]
        exact ih s' (as ++ [a]) hs' hlater
      · rw [run, answering, hfails s i hs hi]
        rfl

/-! ## Executions -/

/-- How far the inputs of the segments are used after so many steps: the segment, and
how many of its inputs. -/
def place (seg : Nat → List ι) : Nat → Nat × Nat
  | 0 => (0, 0)
  | j + 1 =>
      if (place seg j).2 + 1 < (seg (place seg j).1).length then
        ((place seg j).1, (place seg j).2 + 1)
      else ((place seg j).1 + 1, 0)

theorem place_lt {seg : Nat → List ι} (hne : ∀ n, seg n ≠ []) (j : Nat) :
    (place seg j).2 < (seg (place seg j).1).length := by
  cases j with
  | zero => exact List.length_pos_of_ne_nil (hne 0)
  | succ j =>
      rw [place]
      split
      · assumption
      · exact List.length_pos_of_ne_nil (hne _)

/-- Every segment is begun. -/
theorem place_begins {seg : Nat → List ι} (hne : ∀ n, seg n ≠ []) (n : Nat) :
    ∃ j, n ≤ j ∧ place seg j = (n, 0) := by
  induction n with
  | zero => exact ⟨0, Nat.le_refl 0, rfl⟩
  | succ n ih =>
      rcases ih with ⟨j, hj, hplace⟩
      have hwithin : ∀ k, k < (seg n).length → place seg (j + k) = (n, k) := by
        intro k
        induction k with
        | zero => exact fun _ => hplace
        | succ k ih =>
            intro hk
            rw [← Nat.add_assoc, place, ih (Nat.lt_of_succ_lt hk), if_pos hk]
      have hpos := List.length_pos_of_ne_nil (hne n)
      have hlast := hwithin ((seg n).length - 1) (by omega)
      have hover : ¬ (seg n).length - 1 + 1 < (seg n).length := by omega
      refine ⟨j + ((seg n).length - 1) + 1, by omega, ?_⟩
      rw [place, hlast, if_neg hover]

/-- Runs that follow on each other for ever are an execution. -/
theorem Execution.expand {step : σ → ι → Except ε σ} {a : Nat → σ} {seg : Nat → List ι}
    (hrun : ∀ n, run step (a n) (seg n) = .ok (a (n + 1))) (hne : ∀ n, seg n ≠ []) :
    ∃ e : Execution step, e.state 0 = a 0 ∧ (∀ j, ∃ n, e.input j ∈ seg n) ∧
      ∀ n, ∃ j, n ≤ j ∧ e.state j = a n ∧ ∀ i, seg n = [i] → e.input j = i := by
  have hpart : ∀ n k, ∃ t, run step (a n) ((seg n).take k) = .ok t := by
    intro n k
    have hall := hrun n
    rw [← List.take_append_drop k (seg n), run_append] at hall
    rcases bind_eq_ok hall with ⟨t, ht, -⟩
    exact ⟨t, ht⟩
  choose mid hmid using hpart
  have hfirst : ∀ n, mid n 0 = a n := fun n => (Except.ok.inj (hmid n 0)).symm
  have hlast : ∀ n, mid n (seg n).length = a (n + 1) := by
    intro n
    have hall := hmid n (seg n).length
    rw [List.take_length, hrun n] at hall
    exact (Except.ok.inj hall).symm
  have hnext : ∀ n k (hk : k < (seg n).length),
      step (mid n k) ((seg n).get ⟨k, hk⟩) = .ok (mid n (k + 1)) := by
    intro n k hk
    have hmore := hmid n (k + 1)
    rw [List.take_add_one, List.getElem?_eq_getElem hk, run_append, hmid n k, ok_bind] at hmore
    simp only [Option.toList_some, run] at hmore
    rw [List.get_eq_getElem]
    cases hone : step (mid n k) (seg n)[k] with
    | error e =>
        rw [hone] at hmore
        cases hmore
    | ok t =>
        rw [hone] at hmore
        exact hmore
  let e : Execution step :=
    { state := fun j => mid (place seg j).1 (place seg j).2
      input := fun j => (seg (place seg j).1).get ⟨(place seg j).2, place_lt hne j⟩
      next := by
        intro j
        rw [hnext, place]
        split
        · rfl
        · -- the last input of a segment
          have hlt := place_lt hne j
          have hend : (place seg j).2 + 1 = (seg (place seg j).1).length := by omega
          rw [hend, hlast, hfirst] }
  refine ⟨e, hfirst 0, ?_, ?_⟩
  · intro j
    exact ⟨(place seg j).1, List.get_mem _ _⟩
  · intro n
    rcases place_begins hne n with ⟨j, hj, hplace⟩
    refine ⟨j, hj, ?_, ?_⟩
    · show mid (place seg j).1 (place seg j).2 = a n
      rw [hplace]
      exact hfirst n
    · intro i hi
      have hmem : e.input j ∈ seg n := by
        have hget : e.input j ∈ seg (place seg j).1 := List.get_mem _ _
        rwa [hplace] at hget
      rw [hi] at hmem
      exact List.mem_singleton.mp hmem

end Run
