import Mathlib.Data.Nat.BitIndices
import Sharding.Lib.HashChain

/-! # Hash trees

The digest of a tree is hashed from the digests of its two parts, that of a leaf
in some way of its own. If leaves commit to their content, and a leaf and a node
cannot be taken for each other, then so does the tree (`digest_binding`): trees of
any two shapes with equal digests have the same content, or a collision sits among
what was hashed.

A tree over a growing list of leaves is built on a stack of finished trees, given
here top first. A new tree swallows trees from the top (`mergeWhile`) and goes on
top itself; the order of the leaves stays (`mergeWhile_leaves`) whatever decides
how many are swallowed.
-/

/-- A binary tree with its data in the leaves. -/
inductive HashTree (α : Type) where
  | leaf (a : α)
  | node (l r : HashTree α)

namespace HashTree

variable {α β γ δ : Type}

def leaves : HashTree α → List α
  | leaf a => [a]
  | node l r => l.leaves ++ r.leaves

/-- How digests are made. -/
structure Hashing (α β δ : Type) where
  hash : β → δ
  /-- What is hashed for a leaf. -/
  leafInputs : α → List β
  leafDigest : α → δ
  /-- What is hashed for a node. -/
  pair : δ → δ → β

def digest (S : Hashing α β δ) : HashTree α → δ
  | leaf a => S.leafDigest a
  | node l r => S.hash (S.pair (l.digest S) (r.digest S))

/-- Everything hashed for a tree. -/
def inputs (S : Hashing α β δ) : HashTree α → List β
  | leaf a => S.leafInputs a
  | node l r => l.inputs S ++ r.inputs S ++ [S.pair (l.digest S) (r.digest S)]

/-! ## A digest commits to the content -/

/-- Leaves commit to their content and do not look like nodes, and a node shows the
digests it was made of. -/
structure Binding (S : Hashing α β δ) (content : α → γ) : Prop where
  leaf : ∀ a b, S.leafDigest a = S.leafDigest b →
    content a = content b ∨ HashChain.Collision S.hash (S.leafInputs a ++ S.leafInputs b)
  leaf_node : ∀ a l r, S.leafDigest a = S.hash (S.pair l r) →
    HashChain.Collision S.hash (S.leafInputs a ++ [S.pair l r])
  pair : ∀ l r l' r', S.pair l r = S.pair l' r' → l = l' ∧ r = r'

theorem pair_mem_inputs (S : Hashing α β δ) (l r : HashTree α) :
    S.pair (l.digest S) (r.digest S) ∈ (node l r).inputs S := by
  simp [inputs]

/-- A chunk and a parent with the same digest. -/
theorem leaf_node_collision {S : Hashing α β δ} {content : α → γ} (hS : Binding S content) (a : α)
    (l r : HashTree α) (heq : S.leafDigest a = (node l r).digest S) :
    HashChain.Collision S.hash (S.leafInputs a ++ (node l r).inputs S) := by
  apply (hS.leaf_node a _ _ heq).mono
  intro x hx
  rcases List.mem_append.mp hx with hx | hx
  · exact List.mem_append_left _ hx
  · obtain rfl := List.mem_singleton.mp hx
    exact List.mem_append_right _ (pair_mem_inputs S l r)

theorem digest_binding {S : Hashing α β δ} {content : α → γ} (hS : Binding S content)
    (t u : HashTree α) (heq : t.digest S = u.digest S) :
    t.leaves.map content = u.leaves.map content ∨
      HashChain.Collision S.hash (t.inputs S ++ u.inputs S) := by
  induction t generalizing u with
  | leaf a =>
      cases u with
      | leaf b =>
          rcases hS.leaf a b heq with hab | hcol
          · left
            simp [leaves, hab]
          · exact Or.inr hcol
      | node l r =>
          right
          exact leaf_node_collision hS a l r heq
  | node l r ihl ihr =>
      cases u with
      | leaf b =>
          right
          apply (leaf_node_collision hS b l r heq.symm).mono
          intro x hx
          exact List.mem_append.mpr (List.mem_append.mp hx).symm
      | node l' r' =>
          by_cases hsame : S.pair (l.digest S) (r.digest S) = S.pair (l'.digest S) (r'.digest S)
          · -- the same two digests: descend into both parts
            rcases hS.pair _ _ _ _ hsame with ⟨hl, hr⟩
            rcases ihl l' hl with hleft | hcol
            · rcases ihr r' hr with hright | hcol
              · left
                simp [leaves, hleft, hright]
              · right
                apply hcol.mono
                intro x hx
                simp only [inputs, List.mem_append] at hx ⊢
                tauto
            · right
              apply hcol.mono
              intro x hx
              simp only [inputs, List.mem_append] at hx ⊢
              tauto
          · -- different inputs with the same digest
            right
            refine ⟨_, ?_, _, ?_, hsame, heq⟩
            · exact List.mem_append_left _ (pair_mem_inputs S l r)
            · exact List.mem_append_right _ (pair_mem_inputs S l' r')

/-! ## The stack -/

/-- Swallow trees from the top of the stack as long as `cond` holds of its height. -/
def mergeWhile (cond : Nat → Bool) :
    List (HashTree α) → HashTree α → List (HashTree α) × HashTree α
  | [], t => ([], t)
  | l :: ls, t => if cond (ls.length + 1) then mergeWhile cond ls (node l t) else (l :: ls, t)

/-- The leaves below a stack, from the bottom to the top. -/
def stackLeaves (ts : List (HashTree α)) : List α := ts.reverse.flatMap leaves

@[simp] theorem stackLeaves_nil : stackLeaves ([] : List (HashTree α)) = [] := rfl

@[simp] theorem stackLeaves_cons (t : HashTree α) (ts : List (HashTree α)) :
    stackLeaves (t :: ts) = stackLeaves ts ++ t.leaves := by
  simp [stackLeaves]

variable {cond : Nat → Bool}

/-- Merging keeps the leaves and their order. -/
theorem mergeWhile_leaves (ts : List (HashTree α)) (t : HashTree α) :
    stackLeaves (mergeWhile cond ts t).1 ++ (mergeWhile cond ts t).2.leaves =
      stackLeaves ts ++ t.leaves := by
  induction ts generalizing t with
  | nil => rfl
  | cons l ls ih =>
      rw [mergeWhile]
      split
      · rw [ih, stackLeaves_cons, leaves, List.append_assoc]
      · rfl

/-- What merging leaves on the stack was at its bottom. -/
theorem mergeWhile_suffix (ts : List (HashTree α)) (t : HashTree α) :
    (mergeWhile cond ts t).1 <:+ ts := by
  induction ts generalizing t with
  | nil => exact List.suffix_refl []
  | cons l ls ih =>
      rw [mergeWhile]
      split
      · exact (ih (node l t)).trans (List.suffix_cons l ls)
      · exact List.suffix_refl _

/-- Only the heights of the stack matter. -/
theorem mergeWhile_congr {cond' : Nat → Bool} {ts : List (HashTree α)}
    (h : ∀ n, 0 < n → n ≤ ts.length → cond n = cond' n) (t : HashTree α) :
    mergeWhile cond ts t = mergeWhile cond' ts t := by
  induction ts generalizing t with
  | nil => rfl
  | cons l ls ih =>
      have htop : cond (ls.length + 1) = cond' (ls.length + 1) :=
        h _ (Nat.succ_pos _) (Nat.le_refl _)
      rw [mergeWhile, mergeWhile, htop]
      rw [ih fun n hpos hle => h n hpos (Nat.le_succ_of_le hle)]

/-- Without a condition everything is swallowed. -/
theorem mergeWhile_true (ts : List (HashTree α)) (t : HashTree α) :
    (mergeWhile (fun _ => true) ts t).1 = [] := by
  induction ts generalizing t with
  | nil => rfl
  | cons l ls ih => exact ih _

/-! ## Complete trees -/

/-- A complete balanced tree of depth `k`. -/
def Perfect : Nat → HashTree α → Prop
  | 0, leaf _ => True
  | k + 1, node l r => Perfect k l ∧ Perfect k r
  | _, _ => False

/-- Complete trees over consecutive leaves, from the bottom to the top: one for each
power of two in the binary expansion of the number of leaves, in decreasing order. -/
structure BinaryDecomposition (as : List α) (ts : List (HashTree α)) : Prop where
  sizes : List.Forall₂ Perfect as.length.bitIndices.reverse ts
  leaves : ts.flatMap leaves = as

theorem Perfect.length {k : Nat} {t : HashTree α} (h : Perfect k t) : t.leaves.length = 2 ^ k := by
  induction t generalizing k with
  | leaf a =>
      cases k with
      | zero => rfl
      | succ k => cases h
  | node l r ihl ihr =>
      cases k with
      | zero => cases h
      | succ k =>
          rw [leaves, List.length_append, ihl h.1, ihr h.2, Nat.pow_succ]
          omega

end HashTree
