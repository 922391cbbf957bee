/-
# Binary floating point

The numbers of at most `p` binary digits, with each operation the exact one rounded to the
nearest of them, and between two to the even one. They have no least and no greatest
exponent: what a format makes of overflow and underflow, and its infinities, are left out.
-/
import Mathlib.Data.Int.Log
import Mathlib.Data.Rat.Floor
import Mathlib.Tactic.Linarith
import Mathlib.Tactic.Ring

namespace Qev

namespace Lib

/-! ### Rounding -/

/-- The nearest integer, the even one of two. -/
def roundEven (x : ℚ) : ℤ :=
  if 2 * (x - ⌊x⌋) < 1 ∨ 2 * (x - ⌊x⌋) = 1 ∧ ⌊x⌋ % 2 = 0 then ⌊x⌋ else ⌊x⌋ + 1

/-- The distance of the numbers of `p` digits about `x`. -/
def ulp (p : ℕ) (x : ℚ) : ℚ := 2 ^ (Int.log 2 |x| + 1 - p)

/-- The number of `p` digits nearest to `x`. -/
def roundTo (p : ℕ) (x : ℚ) : ℚ := roundEven (x / ulp p x) * ulp p x

theorem roundEven_bounds (x : ℚ) : ⌊x⌋ ≤ roundEven x ∧ roundEven x ≤ ⌊x⌋ + 1 := by
  unfold roundEven
  split
  · exact ⟨le_refl _, by omega⟩
  · exact ⟨by omega, le_refl _⟩

/-- Rounding does not pass an integer. -/
theorem abs_roundEven_le {x : ℚ} {n : ℤ} (h : |x| < n) : |roundEven x| ≤ n := by
  obtain ⟨hlow, hhigh⟩ := roundEven_bounds x
  obtain ⟨hneg, hpos⟩ := abs_lt.mp h
  have h₁ : -n ≤ ⌊x⌋ := Int.le_floor.mpr (by push_cast; exact hneg.le)
  have h₂ : ⌊x⌋ < n := Int.floor_lt.mpr hpos
  exact abs_le.mpr ⟨h₁.trans hlow, by omega⟩

theorem ulp_pos (p : ℕ) (x : ℚ) : 0 < ulp p x := zpow_pos (by norm_num) _

theorem abs_lt_ulp (p : ℕ) (x : ℚ) : |x| < 2 ^ p * ulp p x := by
  have h := Int.lt_zpow_succ_log_self (b := 2) (by norm_num) |x|
  have hexp : (2 : ℚ) ^ p * ulp p x = 2 ^ (Int.log 2 |x| + 1) := by
    unfold ulp
    rw [← zpow_natCast, ← zpow_add₀ (by norm_num)]
    congr 1
    ring
  rw [hexp]
  exact_mod_cast h

/-- What is rounded has at most so many digits. -/
theorem roundTo_digits (p : ℕ) (x : ℚ) : ∃ m e : ℤ, |m| ≤ 2 ^ p ∧ roundTo p x = m * 2 ^ e := by
  refine ⟨roundEven (x / ulp p x), Int.log 2 |x| + 1 - p, abs_roundEven_le ?_, rfl⟩
  rw [abs_div, abs_of_pos (ulp_pos p x), div_lt_iff₀ (ulp_pos p x)]
  push_cast
  exact abs_lt_ulp p x

/-! ### The numbers -/

/-- A number of at most `p` binary digits. -/
structure Binary (p : ℕ) where
  val : ℚ
  digits : ∃ m e : ℤ, |m| ≤ 2 ^ p ∧ val = m * 2 ^ e

namespace Binary

variable {p : ℕ}

theorem val_injective : Function.Injective (val : Binary p → ℚ)
  | ⟨_, _⟩, ⟨_, _⟩, rfl => rfl

def ofRat (x : ℚ) : Binary p := ⟨roundTo p x, roundTo_digits p x⟩

instance : LinearOrder (Binary p) := LinearOrder.lift' val val_injective

instance : Zero (Binary p) := ⟨ofRat 0⟩

instance : One (Binary p) := ⟨ofRat 1⟩

instance : NatCast (Binary p) := ⟨fun n => ofRat n⟩

instance : Neg (Binary p) :=
  ⟨fun a => ⟨-a.val, by
    obtain ⟨m, e, hm, ha⟩ := a.digits
    exact ⟨-m, e, by rwa [abs_neg], by rw [ha, Int.cast_neg, neg_mul]⟩⟩⟩

instance : Add (Binary p) := ⟨fun a b => ofRat (a.val + b.val)⟩

instance : Sub (Binary p) := ⟨fun a b => ofRat (a.val - b.val)⟩

instance : Mul (Binary p) := ⟨fun a b => ofRat (a.val * b.val)⟩

instance : Div (Binary p) := ⟨fun a b => ofRat (a.val / b.val)⟩

/-- What is less than half the distance of the numbers is lost. -/
example : (1 : Binary 53) + ofRat (1 / 2 ^ 54) = 1 := by decide +kernel

end Binary

end Lib

end Qev
