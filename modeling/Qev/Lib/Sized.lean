/-
# Arithmetic that may wrap

Unsigned words, with whether one of the operations so far wrapped. `x.Is n` says that `x` is `n` and that nothing
wrapped on the way. Each operation has its rule: it is what it is on the naturals, if that is a word.
-/
import Mathlib

namespace Qev
namespace Lib

/-- A word, and whether it is exact. -/
structure Sized (w : ℕ) where
  value : BitVec w
  exact : Bool

namespace Sized

variable {w : ℕ}

/-- The word of a natural. -/
def ofNat (n : ℕ) : Sized w := ⟨BitVec.ofNat w n, n < 2 ^ w⟩

def add (x y : Sized w) : Sized w :=
  ⟨x.value + y.value, x.exact && y.exact && x.value.toNat + y.value.toNat < 2 ^ w⟩

def sub (x y : Sized w) : Sized w := ⟨x.value - y.value, x.exact && y.exact && y.value.toNat ≤ x.value.toNat⟩

def mul (x y : Sized w) : Sized w :=
  ⟨x.value * y.value, x.exact && y.exact && x.value.toNat * y.value.toNat < 2 ^ w⟩

def div (x y : Sized w) : Sized w := ⟨x.value / y.value, x.exact && y.exact⟩

/-- Shifted left by one. -/
def double (x : Sized w) : Sized w := ⟨x.value <<< 1, x.exact && 2 * x.value.toNat < 2 ^ w⟩

/-- With the `k` low bits off. -/
def clearLow (k : ℕ) (x : Sized w) : Sized w := ⟨x.value &&& ~~~BitVec.ofNat w (2 ^ k - 1), x.exact⟩

/-- `x`, once `y` is computed: a wrap on the way to `y` counts, though its value is not used. -/
def after (x y : Sized w) : Sized w := ⟨x.value, x.exact && y.exact⟩

/-- The word is `n`, and no operation wrapped. -/
structure Is (x : Sized w) (n : ℕ) : Prop where
  value : x.value.toNat = n
  exact : x.exact = true

variable {x y : Sized w} {a b : ℕ}

theorem is_ofNat (h : a < 2 ^ w) : (ofNat a : Sized w).Is a :=
  ⟨by rw [ofNat, BitVec.toNat_ofNat, Nat.mod_eq_of_lt h], decide_eq_true h⟩

theorem Is.add (hx : x.Is a) (hy : y.Is b) (h : a + b < 2 ^ w) : (x.add y).Is (a + b) := by
  refine ⟨?_, ?_⟩
  · rw [Sized.add, BitVec.toNat_add, hx.value, hy.value, Nat.mod_eq_of_lt h]
  · rw [Sized.add, hx.exact, hy.exact, hx.value, hy.value, decide_eq_true h]
    rfl

theorem Is.sub (hx : x.Is a) (hy : y.Is b) (h : b ≤ a) : (x.sub y).Is (a - b) := by
  refine ⟨?_, ?_⟩
  · rw [Sized.sub, BitVec.toNat_sub_of_le (by rw [BitVec.le_def, hx.value, hy.value]; exact h), hx.value, hy.value]
  · rw [Sized.sub, hx.exact, hy.exact, hx.value, hy.value, decide_eq_true h]
    rfl

theorem Is.mul (hx : x.Is a) (hy : y.Is b) (h : a * b < 2 ^ w) : (x.mul y).Is (a * b) := by
  refine ⟨?_, ?_⟩
  · rw [Sized.mul, BitVec.toNat_mul, hx.value, hy.value, Nat.mod_eq_of_lt h]
  · rw [Sized.mul, hx.exact, hy.exact, hx.value, hy.value, decide_eq_true h]
    rfl

theorem Is.div (hx : x.Is a) (hy : y.Is b) : (x.div y).Is (a / b) := by
  refine ⟨?_, ?_⟩
  · rw [Sized.div, BitVec.toNat_udiv, hx.value, hy.value]
  · rw [Sized.div, hx.exact, hy.exact]
    rfl

theorem Is.double (hx : x.Is a) (h : 2 * a < 2 ^ w) : x.double.Is (2 * a) := by
  refine ⟨?_, ?_⟩
  · rw [Sized.double, BitVec.toNat_shiftLeft, hx.value, Nat.shiftLeft_eq, pow_one, mul_comm, Nat.mod_eq_of_lt h]
  · rw [Sized.double, hx.exact, hx.value, decide_eq_true h]
    rfl

theorem Is.after (hx : x.Is a) (hy : y.Is b) : (x.after y).Is a :=
  ⟨hx.value, by rw [Sized.after, hx.exact, hy.exact]; rfl⟩

/-- To clear the low bits is to round down to a multiple of a power of two. -/
theorem Is.clearLow {k : ℕ} (hx : x.Is a) (hk : k ≤ w) : (x.clearLow k).Is (a / 2 ^ k * 2 ^ k) := by
  refine ⟨?_, hx.exact⟩
  rw [Sized.clearLow, ← hx.value, ← Nat.shiftRight_eq_div_pow, ← Nat.shiftLeft_eq]
  refine Nat.eq_of_testBit_eq fun i => ?_
  rw [← BitVec.getLsbD, BitVec.getLsbD_and, BitVec.getLsbD_not, BitVec.getLsbD_ofNat, Nat.testBit_shiftLeft,
    Nat.testBit_two_pow_sub_one, Nat.testBit_shiftRight, ← BitVec.getLsbD]
  by_cases hi : i < w
  · by_cases hik : i < k
    · simp [hi, hik]
    · rw [Nat.add_sub_cancel' (not_lt.mp hik)]
      simp [hi, hik, not_lt.mp hik]
  · have hge := not_lt.mp hi
    rw [Nat.add_sub_cancel' (hk.trans hge), BitVec.getLsbD_of_ge _ _ hge]
    simp

end Sized

end Lib
end Qev
