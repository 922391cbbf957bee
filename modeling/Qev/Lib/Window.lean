/-
# Windows of a ring

A ring shared by two parties is read through wrapping counters: what stands in it is
the window of some number of positions from the head counter on (`window`). A counter
becomes a slot by a mask of low bits; positions closer together than the ring is long
have different slots (`mask_ne`).
-/
import Mathlib

namespace Qev
namespace Lib

variable {α : Type*} {w : ℕ}

/-- The values at `n` consecutive counters from `h` on. -/
def window (f : BitVec w → α) : ℕ → BitVec w → List α
  | 0, _ => []
  | n + 1, h => f h :: window f n (h + 1)

@[simp] theorem window_zero (f : BitVec w → α) (h : BitVec w) : window f 0 h = [] := rfl

@[simp] theorem length_window (f : BitVec w → α) (n : ℕ) (h : BitVec w) : (window f n h).length = n := by
  induction n generalizing h with
  | zero => rfl
  | succ n ih => simp [window, ih]

theorem mem_window {f : BitVec w → α} {n : ℕ} {h : BitVec w} {x : α} :
    x ∈ window f n h ↔ ∃ i < n, f (h + BitVec.ofNat w i) = x := by
  induction n generalizing h with
  | zero => simp
  | succ n ih =>
    simp only [window, List.mem_cons, ih]
    constructor
    · rintro (rfl | ⟨i, hi, rfl⟩)
      · exact ⟨0, by omega, by simp⟩
      · refine ⟨i + 1, by omega, ?_⟩
        rw [BitVec.ofNat_add, add_comm (BitVec.ofNat w i), ← add_assoc]
        rfl
    · rintro ⟨i, hi, rfl⟩
      cases i with
      | zero => exact .inl (by simp)
      | succ i =>
        refine .inr ⟨i, by omega, ?_⟩
        rw [BitVec.ofNat_add, add_comm (BitVec.ofNat w i), ← add_assoc]
        rfl

/-- A window is longer by the value at the counter behind it. -/
theorem window_succ (f : BitVec w → α) (n : ℕ) (h : BitVec w) :
    window f (n + 1) h = window f n h ++ [f (h + BitVec.ofNat w n)] := by
  induction n generalizing h with
  | zero => simp [window]
  | succ n ih =>
    rw [window, ih (h + 1)]
    simp only [window, List.cons_append]
    rw [BitVec.ofNat_add, add_comm (BitVec.ofNat w n), ← add_assoc]
    rfl

theorem window_congr {f g : BitVec w → α} {n : ℕ} {h : BitVec w}
    (hfg : ∀ i < n, f (h + BitVec.ofNat w i) = g (h + BitVec.ofNat w i)) : window f n h = window g n h := by
  induction n generalizing h with
  | zero => rfl
  | succ n ih =>
    have h0 : f h = g h := by simpa using hfg 0 (by omega)
    rw [window, window, h0, ih fun i hi => ?_]
    have := hfg (i + 1) (by omega)
    rw [BitVec.ofNat_add, add_comm (BitVec.ofNat w i), ← add_assoc] at this
    exact this

/-! ### Slots -/

/-- A mask of `k` low bits takes a counter modulo `2 ^ k`. -/
theorem toNat_and_mask {k : ℕ} (hk : k < w) (x : BitVec w) :
    (x &&& (BitVec.ofNat w (2 ^ k) - 1)).toNat = x.toNat % 2 ^ k := by
  have hlt : 2 ^ k < 2 ^ w := Nat.pow_lt_pow_right (by omega) hk
  have hpos : 0 < 2 ^ k := Nat.two_pow_pos k
  have hm : (BitVec.ofNat w (2 ^ k) - 1).toNat = 2 ^ k - 1 := by
    have h1 : (1 : BitVec w).toNat = 1 := by
      rw [show (1 : BitVec w) = BitVec.ofNat w 1 from rfl, BitVec.toNat_ofNat]
      exact Nat.mod_eq_of_lt (by omega)
    rw [BitVec.toNat_sub, BitVec.toNat_ofNat, Nat.mod_eq_of_lt hlt, h1,
      show 2 ^ w - 1 + 2 ^ k = 2 ^ k - 1 + 2 ^ w by omega, Nat.add_mod_right]
    exact Nat.mod_eq_of_lt (by omega)
  rw [BitVec.toNat_and, hm, Nat.and_two_pow_sub_one_eq_mod]

/-- Counters less than `2 ^ k` apart have different slots. -/
theorem mask_ne {k i n : ℕ} (hk : k < w) (h : BitVec w) (hi : i < n) (hn : n < 2 ^ k) :
    (h + BitVec.ofNat w i) &&& (BitVec.ofNat w (2 ^ k) - 1) ≠
      (h + BitVec.ofNat w n) &&& (BitVec.ofNat w (2 ^ k) - 1) := by
  intro he
  have he := congrArg BitVec.toNat he
  have hd : 2 ^ k ∣ 2 ^ w := Nat.pow_dvd_pow 2 hk.le
  have hmod : ∀ j, ((h + BitVec.ofNat w j) &&& (BitVec.ofNat w (2 ^ k) - 1)).toNat = (h.toNat + j) % 2 ^ k := by
    intro j
    rw [toNat_and_mask hk, BitVec.toNat_add, BitVec.toNat_ofNat, Nat.add_mod_mod, Nat.mod_mod_of_dvd _ hd]
  rw [hmod, hmod] at he
  have hdvd : 2 ^ k ∣ n - i := by
    have := (Nat.modEq_iff_dvd' (by omega : h.toNat + i ≤ h.toNat + n)).mp he
    rwa [Nat.add_sub_add_left] at this
  exact absurd (Nat.le_of_dvd (by omega) hdvd) (by omega)

end Lib
end Qev
