/-
# Runs of a labelled system

A system is a relation `R s a t`: from state `s`, the action `a` leads to `t`.
`Run R s l t` is a run from `s` to `t` whose actions are `l`, oldest first.
What one step preserves a run preserves (`Run.invariant`), also where only steps
that meet a condition preserve it (`Run.guarded`); a system given by a partial
function runs as the function folded over the actions (`Run.iff_execFrom`), so its
runs are determined by their actions (`Run.unique`), and a condition on every step of
one run can be evaluated (`Run.of_checks`).
-/
import Mathlib

namespace Qev
namespace Lib

variable {S A : Type*}

/-- A run from one state to another, with its actions, oldest first. -/
inductive Run (R : S → A → S → Prop) : S → List A → S → Prop
  | nil (s : S) : Run R s [] s
  | cons {s t u : S} {a : A} {l : List A} : R s a t → Run R t l u → Run R s (a :: l) u

namespace Run

variable {R : S → A → S → Prop} {s t u : S} {a : A} {l m : List A}

theorem single (h : R s a t) : Run R s [a] t := .cons h (.nil t)

theorem append (h₁ : Run R s l t) (h₂ : Run R t m u) : Run R s (l ++ m) u := by
  induction h₁ with
  | nil _ => exact h₂
  | cons h _ ih => exact .cons h (ih h₂)

theorem snoc (h₁ : Run R s l t) (h₂ : R t a u) : Run R s (l ++ [a]) u := h₁.append (single h₂)

theorem of_append (h : Run R s (l ++ m) u) : ∃ t, Run R s l t ∧ Run R t m u := by
  induction l generalizing s with
  | nil => exact ⟨s, .nil s, h⟩
  | cons a l ih =>
    cases h with
    | cons h₁ h₂ =>
      obtain ⟨t, h₃, h₄⟩ := ih h₂
      exact ⟨t, .cons h₁ h₃, h₄⟩

/-- What every step preserves, every run preserves. -/
theorem invariant {I : S → Prop} (hstep : ∀ s a t, I s → R s a t → I t)
    (h : Run R s l t) (h0 : I s) : I t := by
  induction h with
  | nil _ => exact h0
  | cons h₁ _ ih => exact ih (hstep _ _ _ h0 h₁)

/-- As `invariant`, for a property of the actions so far and the state. -/
theorem history {I : List A → S → Prop} (hstep : ∀ l s a t, I l s → R s a t → I (l ++ [a]) t)
    (h : Run R s m t) (h0 : I l s) : I (l ++ m) t := by
  induction h generalizing l with
  | nil _ => simpa using h0
  | cons h₁ _ ih => simpa using ih (hstep _ _ _ _ h0 h₁)

/-- As `history`, in a run whose every step meets a condition `G` on the actions before it and the state. -/
theorem guarded {I : List A → S → Prop} {G : List A → S → A → Prop} {s₀ : S}
    (hstep : ∀ l s a t, Run R s₀ l s → I l s → G l s a → R s a t → I (l ++ [a]) t) (h0 : I [] s₀)
    (hg : ∀ past a later, l = past ++ a :: later → ∀ s, Run R s₀ past s → G past s a) (h : Run R s₀ l t) : I l t := by
  induction l using List.reverseRecOn generalizing t with
  | nil =>
    cases h
    exact h0
  | append_singleton l a ih =>
    obtain ⟨s, hs, hstep'⟩ := of_append h
    cases hstep' with
    | cons hR hnil =>
      cases hnil
      refine hstep l s a _ hs (ih (fun past b later he u hu => ?_) hs) (hg l a [] rfl s hs) hR
      exact hg past b (later ++ [a]) (by rw [he, List.append_assoc, List.cons_append]) u hu

theorem mono {R' : S → A → S → Prop} (hR : ∀ s a t, R s a t → R' s a t) (h : Run R s l t) :
    Run R' s l t := by
  induction h with
  | nil s => exact .nil s
  | cons h₁ _ ih => exact .cons (hR _ _ _ h₁) ih

end Run

/-- A partial function folded over a list of actions. -/
def execFrom (f : S → A → Option S) (s : S) : List A → Option S
  | [] => some s
  | a :: l => (f s a).bind fun t => execFrom f t l

/-- The runs of a partial function are its folds. -/
theorem Run.iff_execFrom {f : S → A → Option S} {s t : S} {l : List A} :
    Run (fun s a t => f s a = some t) s l t ↔ execFrom f s l = some t := by
  induction l generalizing s with
  | nil =>
    refine ⟨fun h => by cases h; rfl, fun h => ?_⟩
    cases h
    exact .nil _
  | cons a l ih =>
    simp only [execFrom, Option.bind_eq_some_iff]
    refine ⟨fun h => ?_, fun ⟨u, hu, h⟩ => .cons hu (ih.mpr h)⟩
    cases h with
    | cons h₁ h₂ => exact ⟨_, h₁, ih.mp h₂⟩

theorem Run.unique {f : S → A → Option S} {s t u : S} {l : List A}
    (h₁ : Run (fun s a t => f s a = some t) s l t) (h₂ : Run (fun s a t => f s a = some t) s l u) : t = u :=
  Option.some.inj ((Run.iff_execFrom.mp h₁).symm.trans (Run.iff_execFrom.mp h₂))

/-- A condition on every step of a fold, evaluated along it. -/
def checks (f : S → A → Option S) (G : S → A → Bool) (s : S) : List A → Bool
  | [] => true
  | a :: l => G s a && (f s a).all fun t => checks f G t l

/-- What is evaluated along the fold holds before every step of the run. -/
theorem Run.of_checks {f : S → A → Option S} {G : S → A → Bool} {s : S} {l : List A} (h : checks f G s l = true) :
    ∀ past a later, l = past ++ a :: later → ∀ u, Run (fun s a t => f s a = some t) s past u → G u a = true := by
  intro past
  induction past generalizing s l with
  | nil =>
    intro a later hl u hrun
    subst hl
    cases hrun
    simp only [List.nil_append, checks, Bool.and_eq_true] at h
    exact h.1
  | cons b past ih =>
    intro a later hl u hrun
    subst hl
    cases hrun with
    | cons hb hpast =>
      simp only [List.cons_append, checks, Bool.and_eq_true, hb, Option.all_some] at h
      exact ih h.2 a later rfl u hpast

end Lib
end Qev
