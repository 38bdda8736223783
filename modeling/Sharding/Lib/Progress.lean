import Mathlib.Data.Nat.Init
import Mathlib.Tactic.Choose
import Sharding.Lib.Run

/-! # Progress under fairness

The infinite executions of a machine of `Run`, and the rule by which they reach
a goal. A class of moves is what fairness speaks about: the moves of one party,
say. Where some class can help in every state short of the goal, stays able to
until the rank falls, and lowers the rank when it moves, a fair execution gets
there.
-/

namespace Run

variable {σ ι ε κ : Type}

/-- An execution that goes on for ever; no step faults. -/
structure Execution (step : σ → ι → Except ε σ) where
  state : Nat → σ
  input : Nat → ι
  next : ∀ n, step (state n) (input n) = .ok (state (n + 1))

namespace Execution

variable {step : σ → ι → Except ε σ}

/-- What every step preserves holds from some point on, once it holds. -/
theorem inv_from (e : Execution step) (Inv : σ → Prop) {n : Nat}
    (hstep : ∀ m, n ≤ m → Inv (e.state m) → Inv (e.state (m + 1))) (hn : Inv (e.state n)) :
    ∀ m, n ≤ m → Inv (e.state m) := by
  intro m hm
  induction m, hm using Nat.le_induction with
  | base => exact hn
  | succ m hm ih => exact hstep m hm ih

/-- Every state is reached by the run over the inputs before it. -/
theorem run_input (e : Execution step) (n : Nat) :
    run step (e.state 0) ((List.range n).map e.input) = .ok (e.state n) := by
  induction n with
  | zero => rfl
  | succ n ih =>
      rw [List.range_succ, List.map_append, run_append, ih, ok_bind, List.map_singleton, run, e.next]
      rfl

/-- The execution that the inputs `input` drive, where no step from an invariant state faults. -/
theorem exists_of_inv (Inv : σ → Prop) (hstep : ∀ s i, Inv s → ∃ s', step s i = .ok s' ∧ Inv s')
    (s : σ) (hs : Inv s) (input : Nat → ι) :
    ∃ e : Execution step, e.state 0 = s ∧ e.input = input ∧ ∀ n, Inv (e.state n) := by
  choose next hnext hinv using hstep
  let states : Nat → { s // Inv s } :=
    fun n => n.rec ⟨s, hs⟩ fun n t => ⟨next t.1 (input n) t.2, hinv t.1 (input n) t.2⟩
  exact ⟨⟨fun n => (states n).1, input, fun n => hnext _ _ _⟩, rfl, rfl, fun n => (states n).2⟩

end Execution

/-- Every class moves again and again. -/
def Execution.Fair {step : σ → ι → Except ε σ} (e : Execution step)
    (moves : κ → σ → ι → Prop) : Prop :=
  ∀ c n, ∃ m, n ≤ m ∧ moves c (e.state m) (e.input m)

/-- What makes a fair execution reach `Goal`: in every other state some class is
able to help, and remains so until the rank falls; when it moves, the rank falls. -/
structure Ranked (step : σ → ι → Except ε σ) (moves : κ → σ → ι → Prop) (Inv Goal : σ → Prop)
    (helps : κ → σ → Prop) (rank : σ → Nat) : Prop where
  /-- Nobody waits for ever. -/
  able : ∀ s, Inv s → ¬ Goal s → ∃ c, helps c s
  keeps : ∀ s i s', Inv s → ¬ Goal s → step s i = .ok s' →
    Goal s' ∨ Inv s' ∧ (rank s' < rank s ∨ rank s' = rank s ∧ ∀ c, helps c s → helps c s')
  falls : ∀ s i s' c, Inv s → ¬ Goal s → step s i = .ok s' → helps c s → moves c s i →
    Goal s' ∨ rank s' < rank s

variable {step : σ → ι → Except ε σ} {moves : κ → σ → ι → Prop} {Inv Goal : σ → Prop}
  {helps : κ → σ → Prop} {rank : σ → Nat}

/-- As long as the rank does not fall, whoever was able to help still is. -/
theorem Ranked.waits (h : Ranked step moves Inv Goal helps rank) (e : Execution step) {n : Nat}
    (hn : Inv (e.state n)) {c : κ} (hc : helps c (e.state n)) (d : Nat) :
    (∃ m, n ≤ m ∧ (Goal (e.state m) ∨ Inv (e.state m) ∧ rank (e.state m) < rank (e.state n))) ∨
      Inv (e.state (n + d)) ∧ rank (e.state (n + d)) = rank (e.state n) ∧
        helps c (e.state (n + d)) := by
  induction d with
  | zero => exact Or.inr ⟨hn, rfl, hc⟩
  | succ d ih =>
      rcases ih with hdone | ⟨hinv, hrank, hhelps⟩
      · exact Or.inl hdone
      by_cases hgoal : Goal (e.state (n + d))
      · exact Or.inl ⟨n + d, Nat.le_add_right n d, Or.inl hgoal⟩
      rcases h.keeps _ _ _ hinv hgoal (e.next (n + d)) with hgoal' | ⟨hinv', hlt | ⟨heq, hkeep⟩⟩
      · exact Or.inl ⟨n + d + 1, by omega, Or.inl hgoal'⟩
      · exact Or.inl ⟨n + d + 1, by omega, Or.inr ⟨hinv', by omega⟩⟩
      · exact Or.inr ⟨hinv', heq.trans hrank, hkeep c hhelps⟩

/-- A fair execution reaches the goal, from any point on. -/
theorem Ranked.eventually (h : Ranked step moves Inv Goal helps rank) {e : Execution step}
    (hfair : e.Fair moves) {n : Nat} (hn : Inv (e.state n)) : ∃ m, n ≤ m ∧ Goal (e.state m) := by
  -- along the rank of the state we start from
  induction hr : rank (e.state n) using Nat.strong_induction_on generalizing n with
  | _ r ih =>
      have hlower : (∃ m, n ≤ m ∧ (Goal (e.state m) ∨
          Inv (e.state m) ∧ rank (e.state m) < rank (e.state n))) →
          ∃ m, n ≤ m ∧ Goal (e.state m) := by
        rintro ⟨m, hm, hgoal | ⟨hinv, hlt⟩⟩
        · exact ⟨m, hm, hgoal⟩
        · rcases ih _ (hr ▸ hlt) hinv rfl with ⟨m', hm', hgoal⟩
          exact ⟨m', Nat.le_trans hm hm', hgoal⟩
      by_cases hgoal : Goal (e.state n)
      · exact ⟨n, Nat.le_refl n, hgoal⟩
      rcases h.able _ hn hgoal with ⟨c, hc⟩
      rcases hfair c n with ⟨m, hm, hmoves⟩
      obtain ⟨d, rfl⟩ := Nat.exists_eq_add_of_le hm
      rcases h.waits e hn hc d with hdone | ⟨hinv, hrank, hhelps⟩
      · exact hlower hdone
      by_cases hgoal' : Goal (e.state (n + d))
      · exact ⟨n + d, hm, hgoal'⟩
      -- the class that is able to help moves now
      rcases h.falls _ _ _ c hinv hgoal' (e.next (n + d)) hhelps hmoves with hgoal'' | hlt
      · exact ⟨n + d + 1, by omega, hgoal''⟩
      rcases h.keeps _ _ _ hinv hgoal' (e.next (n + d)) with hgoal'' | ⟨hinv', -⟩
      · exact ⟨n + d + 1, by omega, hgoal''⟩
      · exact hlower ⟨n + d + 1, by omega, Or.inr ⟨hinv', by omega⟩⟩

end Run
