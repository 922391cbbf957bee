/-
# Loops that take inputs

`while (guard) body`, where each round of the body also takes an input of its own: what
the environment answers in that round. The loop ends exactly if the guard fails after some
number of rounds (`ends_iff`), and it does if from some round on every round that leaves
the guard true lowers a measure (`ends_of_measure`).
-/
import Mathlib.Order.Lattice
import Mathlib.Tactic.Common

namespace Qev
namespace Lib

variable {S I : Type*} (guard : S → Prop) [DecidablePred guard] (body : I → S → S)

/-- The loop, given up after `n` tests of its guard. -/
def whileLoop : ℕ → (ℕ → I) → S → Option S
  | 0, _, _ => none
  | n + 1, inputs, s =>
    if guard s then whileLoop n (fun i => inputs (i + 1)) (body (inputs 0) s) else some s

/-- The loop ends. -/
def Ends (inputs : ℕ → I) (s : S) : Prop := ∃ n, (whileLoop guard body n inputs s).isSome

/-- The state after `n` rounds. -/
def rounds (inputs : ℕ → I) (s : S) : ℕ → S
  | 0 => s
  | n + 1 => body (inputs n) (rounds inputs s n)

variable {guard body} {inputs : ℕ → I} {s : S}

theorem rounds_succ (n : ℕ) :
    rounds body inputs s (n + 1) = rounds body (fun i => inputs (i + 1)) (body (inputs 0) s) n := by
  induction n with
  | zero => rfl
  | succ n ih => exact congrArg (body (inputs (n + 1))) ih

theorem ends_iff : Ends guard body inputs s ↔ ∃ n, ¬ guard (rounds body inputs s n) := by
  constructor
  · rintro ⟨n, h⟩
    induction n generalizing inputs s with
    | zero => cases h
    | succ n ih =>
      unfold whileLoop at h
      by_cases hg : guard s
      · rw [if_pos hg] at h
        obtain ⟨m, hm⟩ := ih h
        exact ⟨m + 1, by rwa [rounds_succ]⟩
      · exact ⟨0, hg⟩
  · rintro ⟨n, h⟩
    induction n generalizing inputs s with
    | zero =>
      replace h : ¬ guard s := h
      exact ⟨1, by rw [whileLoop, if_neg h]; rfl⟩
    | succ n ih =>
      rw [rounds_succ] at h
      obtain ⟨m, hm⟩ := ih h
      by_cases hg : guard s
      · exact ⟨m + 1, by rwa [whileLoop, if_pos hg]⟩
      · exact ⟨1, by rw [whileLoop, if_neg hg]; rfl⟩

/-- From some round on, a round that leaves the guard true lowers the measure. -/
theorem ends_of_measure (μ : S → ℕ) {N : ℕ}
    (h : ∀ n, N ≤ n → guard (rounds body inputs s (n + 1)) →
      μ (rounds body inputs s (n + 1)) < μ (rounds body inputs s n)) : Ends guard body inputs s := by
  rw [ends_iff]
  by_contra hno
  push Not at hno
  -- then the measure falls by one a round, and it is used up
  have hfall : ∀ k, μ (rounds body inputs s (N + k)) + k ≤ μ (rounds body inputs s N) := by
    intro k
    induction k with
    | zero => exact le_rfl
    | succ k ih =>
      have hlt : μ (rounds body inputs s (N + (k + 1))) < μ (rounds body inputs s (N + k)) :=
        h (N + k) (Nat.le_add_right N k) (hno _)
      omega
  have := hfall (μ (rounds body inputs s N) + 1)
  omega

/-- What every round keeps holds after any number of them. -/
theorem rounds_invariant {P : S → Prop} (hP : ∀ i s, P s → P (body i s)) (h : P s) (n : ℕ) :
    P (rounds body inputs s n) := by
  induction n with
  | zero => exact h
  | succ n ih => exact hP _ _ ih

end Lib
end Qev
