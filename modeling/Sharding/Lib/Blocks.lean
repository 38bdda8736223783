import Mathlib.Data.List.Perm.Basic
import Mathlib.Tactic.Common

/-! # Cutting a range into blocks

The numbers below `total` are cut into blocks of `size`, the last one possibly
shorter. The blocks in order make up the range (`blocks_flatten`), so the blocks
in any order make up a permutation of it (`blocks_perm`).
-/

namespace Blocks

/-- How many blocks there are. -/
def blockCount (total size : Nat) : Nat := (total + size - 1) / size

/-- Where block `b` ends. -/
def blockEnd (total size b : Nat) : Nat := min (b * size + size) total

/-- Block `b`, front to back. -/
def block (total size b : Nat) : List Nat :=
  List.range' (b * size) (blockEnd total size b - b * size)

variable {total size : Nat}

/-- A block of the range begins inside it. -/
theorem start_lt (hsize : 0 < size) {b : Nat} (hb : b < blockCount total size) :
    b * size < total := by
  have hle : b + 1 ≤ (total + size - 1) / size := hb
  have hmul : (b + 1) * size ≤ total + size - 1 := (Nat.le_div_iff_mul_le hsize).mp hle
  rw [Nat.succ_mul] at hmul
  omega

/-- The blocks reach the end of the range. -/
theorem le_blockCount_mul (hsize : 0 < size) : total ≤ blockCount total size * size := by
  have hlt : total + size - 1 < (blockCount total size + 1) * size :=
    Nat.lt_mul_of_div_lt (Nat.lt_succ_self _) hsize
  rw [Nat.succ_mul] at hlt
  omega

/-- The first `k` blocks make up the beginning of the range. -/
theorem blocks_take (total size k : Nat) :
    (List.range k).flatMap (block total size) = List.range (min (k * size) total) := by
  induction k with
  | zero => simp
  | succ k ih =>
      rw [List.range_succ, List.flatMap_append, ih, List.flatMap_singleton, Nat.succ_mul]
      rcases Nat.le_total (k * size) total with hle | hge
      · have hsplit : min (k * size + size) total =
            k * size + (blockEnd total size k - k * size) := by
          unfold blockEnd
          omega
        rw [Nat.min_eq_left hle, hsplit, List.range_add, ← List.range'_eq_map_range]
        rfl
      · -- the range is used up: the block is empty
        have hempty : blockEnd total size k - k * size = 0 := by
          unfold blockEnd
          omega
        have hend : min (k * size + size) total = total := by omega
        rw [block, hempty, List.range'_zero, List.append_nil, Nat.min_eq_right hge, hend]

theorem blocks_flatten (hsize : 0 < size) :
    (List.range (blockCount total size)).flatMap (block total size) = List.range total := by
  rw [blocks_take, Nat.min_eq_right (le_blockCount_mul hsize)]

/-- The blocks in any order. -/
theorem blocks_perm (hsize : 0 < size) {order : List Nat}
    (horder : order.Perm (List.range (blockCount total size))) :
    (order.flatMap (block total size)).Perm (List.range total) := by
  have hperm := horder.flatMap_right (block total size)
  rwa [blocks_flatten hsize] at hperm

end Blocks
