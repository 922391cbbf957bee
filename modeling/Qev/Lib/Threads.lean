/-
# Threads counted by their roles

Each thread of a system is at a place of its program, and some places have a role. `tally f pc r` is the
number of threads at a place of role `r`. A step of one thread takes it off one count and puts it on
another (`tally_update`), so that what holds of the counts is a matter of arithmetic.
-/
import Mathlib

namespace Qev
namespace Lib

variable {T P R : Type*} [Fintype T] [DecidableEq R] {f : P → Option R} {pc : T → P} {r r' : R} {t u : T}

/-- How many threads are at a place of this role. -/
def tally (f : P → Option R) (pc : T → P) (r : R) : ℕ := (Finset.univ.filter fun t => f (pc t) = some r).card

theorem tally_eq_zero : tally f pc r = 0 ↔ ∀ t, f (pc t) ≠ some r := by
  simp [tally, Finset.filter_eq_empty_iff]

theorem tally_pos (h : f (pc t) = some r) : 0 < tally f pc r :=
  Finset.card_pos.mpr ⟨t, by simp [h]⟩

theorem exists_of_tally_pos (h : 0 < tally f pc r) : ∃ t, f (pc t) = some r := by
  obtain ⟨t, ht⟩ := Finset.card_pos.mp h
  exact ⟨t, (Finset.mem_filter.mp ht).2⟩

/-- Where one thread at most has a role, it is this one. -/
theorem tally_unique (h : tally f pc r ≤ 1) (ht : f (pc t) = some r) (hu : f (pc u) = some r) : t = u :=
  Finset.card_le_one.mp h t (by simp [ht]) u (by simp [hu])

variable [DecidableEq T]

theorem tally_add_le (hr : r ≠ r') : tally f pc r + tally f pc r' ≤ Fintype.card T := by
  have hdisjoint : Disjoint (Finset.univ.filter fun t => f (pc t) = some r)
      (Finset.univ.filter fun t => f (pc t) = some r') := by
    rw [Finset.disjoint_filter]
    intro t _ h h'
    exact hr (Option.some.inj (h.symm.trans h'))
  rw [tally, tally, ← Finset.card_union_of_disjoint hdisjoint]
  exact Finset.card_le_univ _

/-- A step of one thread. -/
theorem tally_update (f : P → Option R) (pc : T → P) (r : R) (t : T) (p : P) :
    tally f (Function.update pc t p) r + (if f (pc t) = some r then 1 else 0) =
      tally f pc r + (if f p = some r then 1 else 0) := by
  have hothers : ∀ u ∈ Finset.univ.erase t, (if f (Function.update pc t p u) = some r then 1 else 0) =
      if f (pc u) = some r then 1 else 0 := by
    intro u hu
    rw [Function.update_of_ne (Finset.ne_of_mem_erase hu)]
  simp only [tally, Finset.card_filter]
  rw [← Finset.add_sum_erase _ _ (Finset.mem_univ t), ← Finset.add_sum_erase _ _ (Finset.mem_univ t),
    Finset.sum_congr rfl hothers, Function.update_self]
  ring

/-- A step to a place of the same role. -/
theorem tally_update_of_eq {p : P} (h : f p = f (pc t)) : tally f (Function.update pc t p) r = tally f pc r := by
  have hstep := tally_update f pc r t p
  rw [h] at hstep
  omega

end Lib
end Qev
