/-
# Ledgers

A program acquires resources, names them in its variables and releases them. The ledger keeps what it
holds, what it released without holding it, and what was taken from it by somebody else. A ledger accounts
for the resources that are named if all of them are held but for those that were taken and not yet released
in vain; then nothing is released twice, and when nothing is named any more nothing is held.
-/
import Mathlib.Algebra.Order.Group.Multiset

namespace Qev

structure Ledger (R : Type) where
  held : Multiset R
  wrong : Multiset R
  lost : Multiset R

namespace Ledger

variable {R : Type} [DecidableEq R] (l : Ledger R)

def init : Ledger R := ⟨0, 0, 0⟩

def hold (r : R) : Ledger R := { l with held := r ::ₘ l.held }

def release (r : R) : Ledger R :=
  if r ∈ l.held then { l with held := l.held.erase r } else { l with wrong := r ::ₘ l.wrong }

/-- `r` is taken away. -/
def take (r : R) : Ledger R :=
  if r ∈ l.held then { l with held := l.held.erase r, lost := r ::ₘ l.lost } else l

/-- The ledger of a program that names these resources, after `lost` was taken. -/
def Accounts (lost named : Multiset R) (l : Ledger R) : Prop :=
  l.lost = lost ∧ ∃ stale, l.held + stale = named ∧ l.wrong + stale = lost

variable {l} {lost named : Multiset R} {r : R}

section

omit [DecidableEq R]

theorem accounts_init : Accounts (0 : Multiset R) 0 init := ⟨rfl, 0, rfl, rfl⟩

theorem Accounts.congr {named' : Multiset R} (h : l.Accounts lost named) (heq : named = named') :
    l.Accounts lost named' :=
  heq ▸ h

theorem Accounts.hold (h : l.Accounts lost named) (r : R) : (l.hold r).Accounts lost (r ::ₘ named) := by
  obtain ⟨hl, stale, rfl, hlost⟩ := h
  exact ⟨hl, stale, Multiset.cons_add _ _ _, hlost⟩

end

theorem Accounts.release (h : l.Accounts lost (r ::ₘ named)) : (l.release r).Accounts lost named := by
  obtain ⟨hl, stale, heq, hlost⟩ := h
  unfold Ledger.release
  split
  case isTrue hr =>
    refine ⟨hl, stale, ?_, hlost⟩
    rw [← Multiset.cons_erase hr, Multiset.cons_add] at heq
    exact (Multiset.cons_inj_right r).mp heq
  case isFalse hr =>
    -- what is named and not held is stale
    have hstale : r ∈ stale := by
      have hmem : r ∈ l.held + stale := by rw [heq]; exact Multiset.mem_cons_self _ _
      exact (Multiset.mem_add.mp hmem).resolve_left hr
    refine ⟨hl, stale.erase r, ?_, ?_⟩
    · rw [← Multiset.cons_erase hstale, Multiset.add_cons] at heq
      exact (Multiset.cons_inj_right r).mp heq
    · calc (r ::ₘ l.wrong) + stale.erase r
        _ = l.wrong + r ::ₘ stale.erase r := by rw [Multiset.cons_add, Multiset.add_cons]
        _ = lost := by rw [Multiset.cons_erase hstale, hlost]

theorem Accounts.take (h : l.Accounts lost named) (r : R) : (l.take r).Accounts (l.take r).lost named := by
  obtain ⟨rfl, stale, rfl, hlost⟩ := h
  unfold Ledger.take
  split
  case isFalse => exact ⟨rfl, stale, rfl, hlost⟩
  case isTrue hr =>
    refine ⟨rfl, r ::ₘ stale, ?_, ?_⟩
    · calc l.held.erase r + r ::ₘ stale
        _ = (r ::ₘ l.held.erase r) + stale := by rw [Multiset.cons_add, Multiset.add_cons]
        _ = l.held + stale := by rw [Multiset.cons_erase hr]
    · change l.wrong + r ::ₘ stale = r ::ₘ l.lost
      rw [Multiset.add_cons, hlost]

/-! ### What is read off -/

section

omit [DecidableEq R]

theorem Accounts.held_le (h : l.Accounts lost named) : l.held ≤ named := by
  obtain ⟨-, stale, rfl, -⟩ := h
  exact Multiset.le_add_right _ _

theorem Accounts.wrong_le (h : l.Accounts lost named) : l.wrong ≤ lost := by
  obtain ⟨-, stale, -, hlost⟩ := h
  rw [← hlost]
  exact Multiset.le_add_right _ _

/-- Where nothing was taken, exactly what is named is held, and nothing was released twice. -/
theorem Accounts.exact (h : l.Accounts 0 named) : l.held = named ∧ l.wrong = 0 := by
  obtain ⟨-, stale, rfl, heq⟩ := h
  have hwrong : l.wrong = 0 := Multiset.le_zero.mp (heq ▸ Multiset.le_add_right _ _)
  have hstale : stale = 0 := Multiset.le_zero.mp (heq ▸ Multiset.le_add_left _ _)
  subst hstale
  exact ⟨(add_zero _).symm, hwrong⟩

end

end Ledger

end Qev
