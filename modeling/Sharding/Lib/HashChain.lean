import Mathlib.Data.List.Basic
import Mathlib.Data.List.Induction
import Mathlib.Tactic.Common

/-! # Hash chains

A chain absorbs a list front to back: each element is combined with the digest
so far, and the combination is hashed. `inputs` lists what was given to the hash
function on the way. `chain_binding` peels two chains with equal digests from
the end: as long as the combination is unambiguous, they absorbed the same list,
or a collision sits among the inputs of the two.
-/

namespace HashChain

variable {α β δ : Type}

/-- Two different inputs among `xs` with equal hashes. -/
def Collision (H : β → δ) (xs : List β) : Prop :=
  ∃ x ∈ xs, ∃ y ∈ xs, x ≠ y ∧ H x = H y

theorem Collision.mono {H : β → δ} {xs ys : List β} (h : Collision H xs) (hsub : xs ⊆ ys) :
    Collision H ys := by
  rcases h with ⟨x, hx, y, hy, hne, heq⟩
  exact ⟨x, hsub hx, y, hsub hy, hne, heq⟩

/-- The digest after absorbing a list. -/
def chain (H : β → δ) (pair : δ → α → β) : δ → List α → δ
  | d, [] => d
  | d, a :: as => chain H pair (H (pair d a)) as

/-- What the hash function was given on the way. -/
def inputs (H : β → δ) (pair : δ → α → β) : δ → List α → List β
  | _, [] => []
  | d, a :: as => pair d a :: inputs H pair (H (pair d a)) as

variable {H : β → δ} {pair : δ → α → β}

theorem chain_concat (d : δ) (as : List α) (a : α) :
    chain H pair d (as ++ [a]) = H (pair (chain H pair d as) a) := by
  induction as generalizing d with
  | nil => rfl
  | cons b as ih => exact ih _

theorem inputs_concat (d : δ) (as : List α) (a : α) :
    inputs H pair d (as ++ [a]) = inputs H pair d as ++ [pair (chain H pair d as) a] := by
  induction as generalizing d with
  | nil => rfl
  | cons b as ih =>
      show pair d b :: inputs H pair _ (as ++ [a]) = _
      rw [ih]
      rfl

/-- A chain commits to the list it absorbed. -/
theorem chain_binding (H : β → δ) (hpair : ∀ d d' a a', pair d a = pair d' a' → d = d' ∧ a = a') (d : δ)
    (as bs : List α) (hlen : as.length = bs.length) (heq : chain H pair d as = chain H pair d bs) :
    as = bs ∨ Collision H (inputs H pair d as ++ inputs H pair d bs) := by
  induction as using List.reverseRecOn generalizing bs with
  | nil =>
      left
      exact (List.length_eq_zero_iff.mp hlen.symm).symm
  | append_singleton as a ih =>
      rcases List.eq_nil_or_concat' bs with rfl | ⟨bs, b, rfl⟩
      · simp at hlen
      have hlen' : as.length = bs.length := by simpa using hlen
      rw [chain_concat, chain_concat] at heq
      rw [inputs_concat, inputs_concat]
      by_cases hlast : pair (chain H pair d as) a = pair (chain H pair d bs) b
      · -- the last inputs agree: so do the last elements and the digests before them
        rcases hpair _ _ _ _ hlast with ⟨hd, rfl⟩
        rcases ih bs hlen' hd with rfl | hcol
        · exact Or.inl rfl
        · right
          apply hcol.mono
          intro x hx
          simp only [List.mem_append] at hx ⊢
          rcases hx with hx | hx
          · exact Or.inl (Or.inl hx)
          · exact Or.inr (Or.inl hx)
      · right
        refine ⟨_, ?_, _, ?_, hlast, heq⟩
        · simp
        · simp

/-- Whatever the lengths, a chain commits to the list it absorbed, unless a hash on
the way is the digest that both started from. -/
theorem chain_binding_start (H : β → δ)
    (hpair : ∀ d d' a a', pair d a = pair d' a' → d = d' ∧ a = a') (d : δ) (as bs : List α)
    (heq : chain H pair d as = chain H pair d bs) :
    as = bs ∨ Collision H (inputs H pair d as ++ inputs H pair d bs) ∨
      ∃ x ∈ inputs H pair d as ++ inputs H pair d bs, H x = d := by
  induction as using List.reverseRecOn generalizing bs with
  | nil =>
      rcases List.eq_nil_or_concat' bs with rfl | ⟨bs, b, rfl⟩
      · exact Or.inl rfl
      · -- the longer chain ends where both began
        rw [chain_concat] at heq
        refine Or.inr (Or.inr ⟨_, ?_, heq.symm⟩)
        rw [inputs_concat]
        simp
  | append_singleton as a ih =>
      rcases List.eq_nil_or_concat' bs with rfl | ⟨bs, b, rfl⟩
      · rw [chain_concat] at heq
        refine Or.inr (Or.inr ⟨_, ?_, heq⟩)
        rw [inputs_concat]
        simp
      rw [chain_concat, chain_concat] at heq
      rw [inputs_concat, inputs_concat]
      by_cases hlast : pair (chain H pair d as) a = pair (chain H pair d bs) b
      · rcases hpair _ _ _ _ hlast with ⟨hd, rfl⟩
        have hsub : inputs H pair d as ++ inputs H pair d bs ⊆
            (inputs H pair d as ++ [pair (chain H pair d as) a]) ++
              (inputs H pair d bs ++ [pair (chain H pair d bs) a]) := by
          intro x hx
          simp only [List.mem_append] at hx ⊢
          rcases hx with hx | hx
          · exact Or.inl (Or.inl hx)
          · exact Or.inr (Or.inl hx)
        rcases ih bs hd with rfl | hcol | ⟨x, hx, hstart⟩
        · exact Or.inl rfl
        · exact Or.inr (Or.inl (hcol.mono hsub))
        · exact Or.inr (Or.inr ⟨x, hsub hx, hstart⟩)
      · refine Or.inr (Or.inl ⟨_, ?_, _, ?_, hlast, heq⟩)
        · simp
        · simp

/-- The first element carries the mark, and no other. -/
def Marked (mark : α → Bool) : List α → Prop
  | [] => False
  | a :: as => mark a = true ∧ ∀ b ∈ as, mark b = false

theorem marked_concat {mark : α → Bool} {as : List α} {a : α} (h : Marked mark (as ++ [a])) :
    (as = [] ∧ mark a = true) ∨ (Marked mark as ∧ mark a = false) := by
  cases as with
  | nil => exact Or.inl ⟨rfl, h.1⟩
  | cons b as =>
      have hlast : a ∈ as ++ [a] := List.mem_append_right as List.mem_cons_self
      exact Or.inr ⟨⟨h.1, fun c hc => h.2 c (List.mem_append_left _ hc)⟩, h.2 a hlast⟩

/-- Where the first element is marked, a chain commits to the list it absorbed
whatever its length. -/
theorem chain_binding_marked (H : β → δ)
    (hpair : ∀ d d' a a', pair d a = pair d' a' → d = d' ∧ a = a') {mark : α → Bool} (d : δ)
    (as bs : List α) (ha : Marked mark as) (hb : Marked mark bs)
    (heq : chain H pair d as = chain H pair d bs) :
    as = bs ∨ Collision H (inputs H pair d as ++ inputs H pair d bs) := by
  induction as using List.reverseRecOn generalizing bs with
  | nil => cases ha
  | append_singleton as a ih =>
      rcases List.eq_nil_or_concat' bs with rfl | ⟨bs, b, rfl⟩
      · cases hb
      rw [chain_concat, chain_concat] at heq
      rw [inputs_concat, inputs_concat]
      by_cases hlast : pair (chain H pair d as) a = pair (chain H pair d bs) b
      · rcases hpair _ _ _ _ hlast with ⟨hd, rfl⟩
        -- the mark tells whether the last element is also the first
        rcases marked_concat ha with ⟨rfl, hmark⟩ | ⟨ha', hmark⟩
        · rcases marked_concat hb with ⟨rfl, -⟩ | ⟨-, hmark'⟩
          · exact Or.inl rfl
          · rw [hmark] at hmark'
            cases hmark'
        · rcases marked_concat hb with ⟨-, hmark'⟩ | ⟨hb', -⟩
          · rw [hmark] at hmark'
            cases hmark'
          · rcases ih bs ha' hb' hd with rfl | hcol
            · exact Or.inl rfl
            · right
              apply hcol.mono
              intro x hx
              simp only [List.mem_append] at hx ⊢
              rcases hx with hx | hx
              · exact Or.inl (Or.inl hx)
              · exact Or.inr (Or.inl hx)
      · right
        refine ⟨_, ?_, _, ?_, hlast, heq⟩
        · simp
        · simp

/-- Two lists whose elements hash to the same values, element by element, agree
on what was hashed, or a collision sits among it. -/
theorem map_binding {γ : Type} (H : β → δ) (f : γ → β) (xs ys : List γ)
    (heq : xs.map (fun x => H (f x)) = ys.map (fun y => H (f y))) :
    xs.map f = ys.map f ∨ Collision H (xs.map f ++ ys.map f) := by
  induction xs generalizing ys with
  | nil =>
      left
      have hys : ys = [] := by simpa using heq.symm
      rw [hys]
  | cons x xs ih =>
      cases ys with
      | nil => simp at heq
      | cons y ys =>
          rcases List.cons.inj heq with ⟨hhead, htail⟩
          by_cases hxy : f x = f y
          · rcases ih ys htail with hrest | hcol
            · left
              rw [List.map_cons, List.map_cons, hxy, hrest]
            · right
              apply hcol.mono
              intro z hz
              simp only [List.map_cons, List.mem_append, List.mem_cons] at hz ⊢
              rcases hz with hz | hz
              · exact Or.inl (Or.inr hz)
              · exact Or.inr (Or.inr hz)
          · right
            refine ⟨f x, ?_, f y, ?_, hxy, hhead⟩
            · simp
            · simp

end HashChain
