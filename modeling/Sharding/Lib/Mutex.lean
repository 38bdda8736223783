import Mathlib.Data.List.Pairwise
import Mathlib.Logic.Function.Basic
import Mathlib.Tactic.Common

/-! # Calls under a lock

Threads call the operations of an object whose bodies run under one lock. A body
is a critical section: steps on the shared memory, and a result. `step` takes one
thread one move further: it calls, takes the lock, does a step, gives the lock
back, or returns. `linearizable` is the rule: whatever the moves, the calls have
the results they have one after another in the order in which the lock was given
back, and each was given it back between its call and its return.
-/

namespace Mutex

variable {σ γ ρ : Type}

/-- What is done under the lock; each step sees the memory before it. -/
inductive Critical (σ ρ : Type) where
  | done (r : ρ)
  | step (update : σ → σ) (next : σ → Critical σ ρ)

/-- A critical section by itself. -/
def Critical.run : Critical σ ρ → σ → σ × ρ
  | .done r, s => (s, r)
  | .step update next, s => (next s).run (update s)

/-- The calls one after another: the memory afterwards, and the results. -/
def sequential (body : γ → Critical σ ρ) : σ → List γ → σ × List ρ
  | s, [] => (s, [])
  | s, c :: cs =>
      let (s, r) := (body c).run s
      let (s, rs) := sequential body s cs
      (s, r :: rs)

theorem sequential_concat (body : γ → Critical σ ρ) (cs : List γ) (c : γ) : ∀ s : σ,
    sequential body s (cs ++ [c]) =
      (((body c).run (sequential body s cs).1).1,
        (sequential body s cs).2 ++ [((body c).run (sequential body s cs).1).2]) := by
  induction cs with
  | nil =>
      intro s
      rfl
  | cons c' cs ih =>
      intro s
      simp only [List.cons_append, sequential, ih]

/-- A call: whose, of what, and when. -/
structure Op (γ : Type) where
  thread : Nat
  call : γ
  called : Nat

/-- What became of a call, and when. -/
structure Record (γ ρ : Type) where
  op : Op γ
  result : ρ
  time : Nat

inductive Place (σ γ ρ : Type) where
  | idle
  | waiting (op : Op γ)
  | inside (op : Op γ) (rest : Critical σ ρ)
  | leaving (op : Op γ) (r : ρ)

structure State (σ γ ρ : Type) where
  mem : σ
  owner : Option Nat
  place : Nat → Place σ γ ρ
  clock : Nat
  /-- The calls that gave the lock back. -/
  log : List (Record γ ρ)
  /-- The calls that returned. -/
  returned : List (Record γ ρ)

def start (mem : σ) : State σ γ ρ := ⟨mem, none, fun _ => .idle, 0, [], []⟩

inductive Move (γ : Type) where
  | call (t : Nat) (c : γ)
  | lock (t : Nat)
  | step (t : Nat)
  | unlock (t : Nat)
  | ret (t : Nat)

def State.goto (s : State σ γ ρ) (t : Nat) (p : Place σ γ ρ) : State σ γ ρ :=
  { s with place := Function.update s.place t p, clock := s.clock + 1 }

/-- A move that is not possible changes nothing. -/
def step (body : γ → Critical σ ρ) (s : State σ γ ρ) : Move γ → State σ γ ρ
  | .call t c =>
      match s.place t with
      | .idle => s.goto t (.waiting ⟨t, c, s.clock⟩)
      | _ => s
  | .lock t =>
      match s.owner, s.place t with
      | none, .waiting op => { s.goto t (.inside op (body op.call)) with owner := some t }
      | _, _ => s
  | .step t =>
      match s.place t with
      | .inside op (.step update next) =>
          { s.goto t (.inside op (next s.mem)) with mem := update s.mem }
      | _ => s
  | .unlock t =>
      match s.place t with
      | .inside op (.done r) => { s.goto t (.leaving op r) with
          owner := none
          log := s.log ++ [⟨op, r, s.clock⟩] }
      | _ => s
  | .ret t =>
      match s.place t with
      | .leaving op r => { s.goto t .idle with returned := s.returned ++ [⟨op, r, s.clock⟩] }
      | _ => s

/-- The calls of a thread come in the order in which it made them. -/
def InOrder (e e' : Record γ ρ) : Prop :=
  e.time < e'.time ∧ (e.op.thread = e'.op.thread → e.op.called < e'.op.called)

/-- The call was made before everything that is recorded of its thread in `records`. -/
def Last (op : Op γ) (records : List (Record γ ρ)) : Prop :=
  ∀ e ∈ records, e.op.thread = op.thread → e.op.called < op.called

/-- What holds of thread `t` at its place. -/
def PlaceInv (t : Nat) (s : State σ γ ρ) : Place σ γ ρ → Prop
  | .idle => True
  | .waiting op => op.thread = t ∧ op.called < s.clock ∧ Last op s.log ∧ Last op s.returned
  | .inside op _ =>
      s.owner = some t ∧ op.thread = t ∧ op.called < s.clock ∧ Last op s.log ∧ Last op s.returned
  | .leaving op r => op.thread = t ∧ Last op s.returned ∧
      ∃ e ∈ s.log, e.op = op ∧ e.result = r ∧ op.called < e.time

structure Inv (body : γ → Critical σ ρ) (init : σ) (s : State σ γ ρ) : Prop where
  /-- The log is a sequential history. -/
  results : (sequential body init (s.log.map fun e => e.op.call)).2 = s.log.map Record.result
  /-- Without an owner the memory is the one after the log. -/
  free : s.owner = none → s.mem = (sequential body init (s.log.map fun e => e.op.call)).1
  /-- What the owner still has to do makes it the one after its call. -/
  held : ∀ t, s.owner = some t → ∃ op rest, s.place t = .inside op rest ∧
    rest.run s.mem =
      (body op.call).run (sequential body init (s.log.map fun e => e.op.call)).1
  places : ∀ t, PlaceInv t s (s.place t)
  log : s.log.Pairwise InOrder
  times : ∀ e ∈ s.log, e.time < s.clock ∧ e.op.called < s.clock
  returned : s.returned.Pairwise InOrder
  returnedTimes : ∀ c ∈ s.returned, c.time < s.clock ∧ c.op.called < s.clock
  found : ∀ c ∈ s.returned, ∃ e ∈ s.log,
    e.op = c.op ∧ e.result = c.result ∧ c.op.called < e.time ∧ e.time < c.time

/-! ## One move -/

section Moves

variable {body : γ → Critical σ ρ} {init : σ} {s : State σ γ ρ}

/-- A move of another thread. -/
theorem PlaceInv.other {u : Nat} {s' : State σ γ ρ} {p : Place σ γ ρ} (h : PlaceInv u s p)
    (hclock : s.clock ≤ s'.clock) (howner : s.owner = some u → s'.owner = some u)
    (hlog : s.log ⊆ s'.log) (hnewlog : ∀ e ∈ s'.log, e ∈ s.log ∨ e.op.thread ≠ u)
    (hnewret : ∀ e ∈ s'.returned, e ∈ s.returned ∨ e.op.thread ≠ u) : PlaceInv u s' p := by
  have hlast : ∀ {op : Op γ} {l l' : List (Record γ ρ)}, op.thread = u →
      (∀ e ∈ l', e ∈ l ∨ e.op.thread ≠ u) → Last op l → Last op l' := by
    intro op l l' hop hnew hl e he hthread
    rcases hnew e he with hold | hother
    · exact hl e hold hthread
    · exact absurd (hthread.trans hop) hother
  cases p with
  | idle => trivial
  | waiting op =>
      rcases h with ⟨hop, hcalled, hl, hr⟩
      exact ⟨hop, Nat.lt_of_lt_of_le hcalled hclock, hlast hop hnewlog hl, hlast hop hnewret hr⟩
  | inside op rest =>
      rcases h with ⟨hown, hop, hcalled, hl, hr⟩
      exact ⟨howner hown, hop, Nat.lt_of_lt_of_le hcalled hclock, hlast hop hnewlog hl,
        hlast hop hnewret hr⟩
  | leaving op r =>
      rcases h with ⟨hop, hr, e, he, hfound⟩
      exact ⟨hop, hlast hop hnewret hr, e, hlog he, hfound⟩

theorem places_update {t : Nat} {p : Place σ γ ρ} {s' : State σ γ ρ}
    (hplace : s'.place = Function.update s.place t p) (hone : PlaceInv t s' p)
    (hothers : ∀ u, u ≠ t → PlaceInv u s' (s.place u)) : ∀ u, PlaceInv u s' (s'.place u) := by
  intro u
  rw [hplace]
  by_cases hu : u = t
  · subst hu
    rw [Function.update_self]
    exact hone
  · rw [Function.update_of_ne hu]
    exact hothers u hu

/-- What time does to records. -/
theorem times_later {records : List (Record γ ρ)} {n : Nat}
    (h : ∀ e ∈ records, e.time < n ∧ e.op.called < n) :
    ∀ e ∈ records, e.time < n + 1 ∧ e.op.called < n + 1 :=
  fun e he => ⟨Nat.lt_succ_of_lt (h e he).1, Nat.lt_succ_of_lt (h e he).2⟩

/-- A record of now comes behind the others. -/
theorem records_concat {records : List (Record γ ρ)} (hpairwise : records.Pairwise InOrder)
    {op : Op γ} {r : ρ} {n : Nat} (htimes : ∀ e ∈ records, e.time < n ∧ e.op.called < n)
    (hlast : Last op records) :
    (records ++ [(⟨op, r, n⟩ : Record γ ρ)]).Pairwise InOrder := by
  rw [List.pairwise_append]
  refine ⟨hpairwise, List.pairwise_singleton _ _, ?_⟩
  intro e he e' he'
  rw [List.mem_singleton.mp he']
  exact ⟨(htimes e he).1, hlast e he⟩

theorem call_inv (h : Inv body init s) (t : Nat) (c : γ) : Inv body init (step body s (.call t c)) := by
  unfold step
  cases hplace : s.place t with
  | waiting op => simpa only [hplace] using h
  | inside op rest => simpa only [hplace] using h
  | leaving op r => simpa only [hplace] using h
  | idle =>
      simp only [hplace]
      refine ⟨h.results, h.free, ?_, ?_, h.log, times_later h.times, h.returned,
        times_later h.returnedTimes, h.found⟩
      · intro u hu
        rcases h.held u hu with ⟨op, rest, hinside, hrest⟩
        have hne : u ≠ t := by
          rintro rfl
          rw [hplace] at hinside
          cases hinside
        exact ⟨op, rest, (Function.update_of_ne hne _ _).trans hinside, hrest⟩
      · apply places_update rfl
        · exact ⟨rfl, Nat.lt_succ_self _, fun e he _ => (h.times e he).2,
            fun e he _ => (h.returnedTimes e he).2⟩
        · intro u _
          exact (h.places u).other (Nat.le_succ _) id (List.Subset.refl _) (fun e he => Or.inl he)
            fun e he => Or.inl he

theorem lock_inv (h : Inv body init s) (t : Nat) : Inv body init (step body s (.lock t)) := by
  unfold step
  cases howner : s.owner with
  | some u => simpa only [howner] using h
  | none =>
      cases hplace : s.place t with
      | idle => simpa only [hplace] using h
      | inside op rest => simpa only [hplace] using h
      | leaving op r => simpa only [hplace] using h
      | waiting op =>
          simp only [hplace]
          have hwaiting := h.places t
          rw [hplace] at hwaiting
          rcases hwaiting with ⟨hop, hcalled, hlog, hret⟩
          refine ⟨h.results, ?_, ?_, ?_, h.log, times_later h.times, h.returned,
            times_later h.returnedTimes, h.found⟩
          · intro hnone
            cases hnone
          · -- the whole body is still to be done
            intro u hu
            obtain rfl : t = u := Option.some.inj hu
            exact ⟨op, body op.call, Function.update_self _ _ _,
              congrArg (body op.call).run (h.free howner)⟩
          · apply places_update rfl
            · exact ⟨rfl, hop, Nat.lt_succ_of_lt hcalled, hlog, hret⟩
            · intro u _
              refine (h.places u).other (Nat.le_succ _) ?_ (List.Subset.refl _)
                (fun e he => Or.inl he) fun e he => Or.inl he
              intro hu
              rw [howner] at hu
              cases hu

/-- The thread that is inside holds the lock, and knows what is left. -/
theorem inside_owner (h : Inv body init s) {t : Nat} {op : Op γ} {rest : Critical σ ρ}
    (hplace : s.place t = .inside op rest) :
    s.owner = some t ∧ op.thread = t ∧ op.called < s.clock ∧ Last op s.log ∧ Last op s.returned ∧
      rest.run s.mem =
        (body op.call).run (sequential body init (s.log.map fun e => e.op.call)).1 := by
  have hinside := h.places t
  rw [hplace] at hinside
  rcases hinside with ⟨howner, hop, hcalled, hlog, hret⟩
  rcases h.held t howner with ⟨op', rest', hplace', hrest⟩
  obtain ⟨rfl, rfl⟩ := Place.inside.inj (hplace.symm.trans hplace')
  exact ⟨howner, hop, hcalled, hlog, hret, hrest⟩

theorem step_inv (h : Inv body init s) (t : Nat) : Inv body init (step body s (.step t)) := by
  unfold step
  cases hplace : s.place t with
  | idle => simpa only [hplace] using h
  | waiting op => simpa only [hplace] using h
  | leaving op r => simpa only [hplace] using h
  | inside op rest =>
      cases rest with
      | done r => simpa only [hplace] using h
      | step update next =>
          simp only [hplace]
          rcases inside_owner h hplace with ⟨howner, hop, hcalled, hlog, hret, hrest⟩
          refine ⟨h.results, ?_, ?_, ?_, h.log, times_later h.times, h.returned,
            times_later h.returnedTimes, h.found⟩
          · intro hnone
            have hnone' : s.owner = none := hnone
            rw [howner] at hnone'
            cases hnone'
          · intro u hu
            have hu' : s.owner = some u := hu
            obtain rfl : t = u := Option.some.inj (howner.symm.trans hu')
            exact ⟨op, next s.mem, Function.update_self _ _ _, hrest⟩
          · apply places_update rfl
            · exact ⟨howner, hop, Nat.lt_succ_of_lt hcalled, hlog, hret⟩
            · intro u _
              exact (h.places u).other (Nat.le_succ _) id (List.Subset.refl _)
                (fun e he => Or.inl he) fun e he => Or.inl he

theorem unlock_inv (h : Inv body init s) (t : Nat) : Inv body init (step body s (.unlock t)) := by
  unfold step
  cases hplace : s.place t with
  | idle => simpa only [hplace] using h
  | waiting op => simpa only [hplace] using h
  | leaving op r => simpa only [hplace] using h
  | inside op rest =>
      cases rest with
      | step update next => simpa only [hplace] using h
      | done r =>
          simp only [hplace]
          rcases inside_owner h hplace with ⟨howner, hop, hcalled, hlog, hret, hrest⟩
          have hdone : (s.mem, r) =
              (body op.call).run (sequential body init (s.log.map fun e => e.op.call)).1 := hrest
          have hnew : ∀ e ∈ s.log ++ [⟨op, r, s.clock⟩], e ∈ s.log ∨ e = ⟨op, r, s.clock⟩ := by
            intro e he
            rcases List.mem_append.mp he with hold | hlast
            · exact Or.inl hold
            · exact Or.inr (List.mem_singleton.mp hlast)
          refine ⟨?_, ?_, ?_, ?_, records_concat h.log h.times hlog, ?_, h.returned,
            times_later h.returnedTimes, ?_⟩
          · -- the call is the next one of the history
            show (sequential body init ((s.log ++ [_]).map _)).2 = (s.log ++ [_]).map Record.result
            rw [List.map_append, List.map_singleton, sequential_concat, List.map_append,
              List.map_singleton, h.results, ← hdone]
          · intro _
            show s.mem = (sequential body init ((s.log ++ [_]).map _)).1
            rw [List.map_append, List.map_singleton, sequential_concat, ← hdone]
          · intro u hu
            cases hu
          · apply places_update rfl
            · exact ⟨hop, hret, ⟨op, r, s.clock⟩, List.mem_concat_self, rfl, rfl, hcalled⟩
            · intro u hu
              refine (h.places u).other (Nat.le_succ _) ?_ (List.subset_append_left _ _) ?_
                fun e he => Or.inl he
              · intro hu'
                exact absurd (Option.some.inj (hu'.symm.trans howner)) hu
              · intro e he
                rcases hnew e he with hold | rfl
                · exact Or.inl hold
                · right
                  show op.thread ≠ u
                  rw [hop]
                  exact fun htu => hu htu.symm
          · intro e he
            rcases hnew e he with hold | rfl
            · exact times_later h.times e hold
            · exact ⟨Nat.lt_succ_self _, Nat.lt_succ_of_lt hcalled⟩
          · intro c hc
            rcases h.found c hc with ⟨e, he, hfound⟩
            exact ⟨e, List.mem_append_left _ he, hfound⟩

theorem ret_inv (h : Inv body init s) (t : Nat) : Inv body init (step body s (.ret t)) := by
  unfold step
  cases hplace : s.place t with
  | idle => simpa only [hplace] using h
  | waiting op => simpa only [hplace] using h
  | inside op rest => simpa only [hplace] using h
  | leaving op r =>
      simp only [hplace]
      have hleaving := h.places t
      rw [hplace] at hleaving
      rcases hleaving with ⟨hop, hret, e, he, heop, hresult, hbetween⟩
      have hnow : e.time < s.clock ∧ e.op.called < s.clock := h.times e he
      refine ⟨h.results, h.free, ?_, ?_, h.log, times_later h.times,
        records_concat h.returned h.returnedTimes hret, ?_, ?_⟩
      · intro u hu
        rcases h.held u hu with ⟨op', rest, hinside, hrest⟩
        have hne : u ≠ t := by
          rintro rfl
          rw [hplace] at hinside
          cases hinside
        exact ⟨op', rest, (Function.update_of_ne hne _ _).trans hinside, hrest⟩
      · apply places_update rfl
        · trivial
        · intro u hu
          refine (h.places u).other (Nat.le_succ _) id (List.Subset.refl _)
            (fun e he => Or.inl he) ?_
          intro c hc
          rcases List.mem_append.mp hc with hold | hlast
          · exact Or.inl hold
          · right
            rw [List.mem_singleton.mp hlast]
            show op.thread ≠ u
            rw [hop]
            exact fun htu => hu htu.symm
      · intro c hc
        rcases List.mem_append.mp hc with hold | hlast
        · exact times_later h.returnedTimes c hold
        · rw [List.mem_singleton.mp hlast]
          refine ⟨Nat.lt_succ_self _, ?_⟩
          show op.called < s.clock + 1
          rw [← heop]
          exact Nat.lt_succ_of_lt hnow.2
      · intro c hc
        rcases List.mem_append.mp hc with hold | hlast
        · exact h.found c hold
        · rw [List.mem_singleton.mp hlast]
          exact ⟨e, he, heop, hresult, hbetween, hnow.1⟩

end Moves

/-! ## Any moves -/

theorem start_inv (body : γ → Critical σ ρ) (init : σ) : Inv body init (start init) := by
  constructor
  · rfl
  · exact fun _ => rfl
  · intro t ht
    cases ht
  · exact fun t => trivial
  · exact List.Pairwise.nil
  · intro e he
    cases he
  · exact List.Pairwise.nil
  · intro e he
    cases he
  · intro e he
    cases he

theorem run_inv (body : γ → Critical σ ρ) (init : σ) (moves : List (Move γ)) :
    ∀ s : State σ γ ρ, Inv body init s → Inv body init (moves.foldl (step body) s) := by
  induction moves with
  | nil => exact fun s hs => hs
  | cons move moves ih =>
      intro s hs
      rw [List.foldl_cons]
      apply ih
      cases move with
      | call t c => exact call_inv hs t c
      | lock t => exact lock_inv hs t
      | step t => exact step_inv hs t
      | unlock t => exact unlock_inv hs t
      | ret t => exact ret_inv hs t

/-- A history as the threads see it: the calls in some order, each at a time between its
call and its return, with the results they have one after another. -/
structure Linearization (body : γ → Critical σ ρ) (init : σ) (returned log : List (Record γ ρ)) :
    Prop where
  results : (sequential body init (log.map fun e => e.op.call)).2 = log.map Record.result
  order : log.Pairwise InOrder
  returnedOrder : returned.Pairwise InOrder
  between : ∀ c ∈ returned, ∃ e ∈ log,
    e.op = c.op ∧ e.result = c.result ∧ c.op.called < e.time ∧ e.time < c.time

/-- Whatever the moves, the log linearizes them; while nobody is inside, the memory is
the one it leads to. -/
theorem linearizable (body : γ → Critical σ ρ) (init : σ) (moves : List (Move γ))
    {s : State σ γ ρ} (hs : moves.foldl (step body) (start init) = s) :
    Linearization body init s.returned s.log ∧
      (s.owner = none → s.mem = (sequential body init (s.log.map fun e => e.op.call)).1) := by
  have h := run_inv body init moves _ (start_inv body init)
  rw [hs] at h
  exact ⟨⟨h.results, h.log, h.returned, h.found⟩, h.free⟩

end Mutex
