import Mathlib.Data.UInt
import Mathlib.Tactic.Common

/-! # Signed machine integers

A signed C integer of `w` bits is an integer in range; an operation whose exact
result is out of range is undefined. `checked` computes with that rule: the exact
result if it fits, an error otherwise.
-/

namespace CInt

variable {ε : Type}

/-- `x` is a value of the signed type of `w` bits. -/
def Fits (w : Nat) (x : Int) : Prop := -(2 ^ (w - 1)) ≤ x ∧ x < 2 ^ (w - 1)

instance (w : Nat) (x : Int) : Decidable (Fits w x) :=
  inferInstanceAs (Decidable (_ ∧ _))

theorem fits_int {x : Int} : Fits 32 x ↔ -2147483648 ≤ x ∧ x ≤ 2147483647 := by
  unfold Fits
  omega

theorem fits_long {x : Int} :
    Fits 64 x ↔ -9223372036854775808 ≤ x ∧ x ≤ 9223372036854775807 := by
  unfold Fits
  omega

/-- The result `x` of an operation, or the error `e`. -/
def checked (e : ε) (w : Nat) (x : Int) : Except ε Int :=
  if Fits w x then .ok x else .error e

theorem checked_ok {e : ε} {w : Nat} {x : Int} (h : Fits w x) : checked e w x = .ok x := if_pos h

theorem checked_error {e : ε} {w : Nat} {x : Int} (h : ¬ Fits w x) :
    checked e w x = .error e := if_neg h

/-- The value of the signed type of `w` bits that is congruent to `x`: a conversion
from a wider or an unsigned type. -/
def wrap (w : Nat) (x : Int) : Int := Int.bmod x (2 ^ w)

theorem wrap_fits (x : Int) : Fits 32 (wrap 32 x) := by
  rw [wrap, fits_int, Int.bmod_def]
  split <;> omega

theorem wrap_eq_iff {x : Int} : wrap 32 x = x ↔ Fits 32 x := by
  rw [wrap, fits_int, Int.bmod_def]
  split <;> omega

end CInt
