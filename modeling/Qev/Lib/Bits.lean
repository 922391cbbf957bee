/-
# Masks

Whether a word has one of the bits of a mask, where either is put together of several, and the mask of
the high bits.
-/
import Mathlib

namespace Qev
namespace Lib

variable {w : ℕ}

theorem and_or_ne_zero (a b c : BitVec w) : a &&& (b ||| c) ≠ 0 ↔ a &&& b ≠ 0 ∨ a &&& c ≠ 0 := by
  rw [BitVec.and_or_distrib_left, ne_eq, show (0 : BitVec w) = 0#w from rfl, BitVec.or_eq_zero_iff]
  tauto

theorem or_and_ne_zero (a b c : BitVec w) : (a ||| b) &&& c ≠ 0 ↔ a &&& c ≠ 0 ∨ b &&& c ≠ 0 := by
  rw [BitVec.and_comm, and_or_ne_zero, BitVec.and_comm c a, BitVec.and_comm c b]

theorem or_ne_zero (a b : BitVec w) : a ||| b ≠ 0 ↔ a ≠ 0 ∨ b ≠ 0 := by
  rw [ne_eq, show (0 : BitVec w) = 0#w from rfl, BitVec.or_eq_zero_iff]
  tauto

theorem ite_ne_zero {c : Prop} [Decidable c] {b : BitVec w} (hb : b ≠ 0) : (if c then b else 0) ≠ 0 ↔ c := by
  split
  · rename_i hc
    exact iff_of_true hb hc
  · rename_i hc
    exact iff_of_false (not_not.mpr rfl) hc

/-- The mask of the bits from `k` on. -/
theorem and_high (x : BitVec w) (k : ℕ) : x.toNat &&& (2 ^ (w - k) - 1) <<< k = x.toNat / 2 ^ k * 2 ^ k := by
  rw [← Nat.shiftLeft_eq, ← Nat.shiftRight_eq_div_pow]
  apply Nat.eq_of_testBit_eq
  intro i
  have hhigh : w ≤ i → x.toNat.testBit i = false := fun hi =>
    Nat.testBit_lt_two_pow (x.isLt.trans_le (Nat.pow_le_pow_right (by norm_num) hi))
  simp only [Nat.testBit_and, Nat.testBit_shiftLeft, Nat.testBit_shiftRight, Nat.testBit_two_pow_sub_one]
  by_cases hi : k ≤ i
  · rw [Nat.add_sub_cancel' hi]
    by_cases hlow : i - k < w - k
    · simp [hi, hlow]
    · simp [hhigh (by omega)]
  · simp [hi]

/-! ### Words whose bits are bits of another -/

theorem and_not_zero (x : BitVec w) : x &&& ~~~(0 : BitVec w) = x := by
  rw [show (0 : BitVec w) = 0#w from rfl, BitVec.not_zero, BitVec.and_allOnes]

theorem and_not_or {a b c d : BitVec w} (h : a &&& ~~~c = 0) (h' : b &&& ~~~d = 0) :
    (a ||| b) &&& ~~~(c ||| d) = 0 := by
  apply BitVec.eq_of_getLsbD_eq
  intro i hi
  have hbit := congrArg (·.getLsbD i) h
  have hbit' := congrArg (·.getLsbD i) h'
  simp only [BitVec.getLsbD_and, BitVec.getLsbD_or, BitVec.getLsbD_not, hi, decide_true, Bool.true_and,
    BitVec.ofNat_eq_ofNat, BitVec.getLsbD_zero] at hbit hbit' ⊢
  revert hbit hbit'
  cases a.getLsbD i <;> cases b.getLsbD i <;> cases c.getLsbD i <;> cases d.getLsbD i <;> decide

theorem and_not_ite {p q : Prop} [Decidable p] [Decidable q] (h : p → q) (b : BitVec w) :
    (if p then b else 0) &&& ~~~(if q then b else 0) = 0 := by
  by_cases hp : p
  · rw [if_pos hp, if_pos (h hp)]
    exact BitVec.and_not_self b
  · rw [if_neg hp]
    exact BitVec.zero_and

/-- A word with a bit of a mask, where another has its bits of a larger mask. -/
theorem and_ne_zero_of_and_not {a b m k : BitVec w} (h : a &&& k &&& ~~~b = 0) (hm : m &&& ~~~k = 0)
    (ha : a &&& m ≠ 0) : b &&& m ≠ 0 := by
  intro hzero
  apply ha
  apply BitVec.eq_of_getLsbD_eq
  intro i hi
  have hbit := congrArg (·.getLsbD i) h
  have hbit' := congrArg (·.getLsbD i) hm
  have hbit'' := congrArg (·.getLsbD i) hzero
  simp only [BitVec.getLsbD_and, BitVec.getLsbD_not, hi, decide_true, Bool.true_and, BitVec.ofNat_eq_ofNat,
    BitVec.getLsbD_zero] at hbit hbit' hbit'' ⊢
  revert hbit hbit' hbit''
  cases a.getLsbD i <;> cases b.getLsbD i <;> cases m.getLsbD i <;> cases k.getLsbD i <;> decide

end Lib
end Qev
