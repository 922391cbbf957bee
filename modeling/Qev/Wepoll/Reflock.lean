/-
# What a reflock holds

For each address the threads are counted by what they are to the port there: whether they create it, have a
reference, close it, or wait in `reflock_unref_and_destroy`. What the reflock holds follows from these counts, and
exactly one of the tree and the threads that create or close it is responsible for a port (`Balanced`). Each
step moves one thread from one count to another.
-/
import Qev.Lib.Bits
import Qev.Wepoll.Handles

namespace Qev
namespace Wepoll
namespace Handles

open Lib

/-! ### The reflock -/

theorem toNat_and_refMask (x : BitVec 32) : (x &&& reflockRefMask).toNat = x.toNat % 2 ^ 28 := by
  rw [BitVec.toNat_and]
  exact Nat.and_two_pow_sub_one_eq_mod x.toNat 28

theorem toNat_and_destroyMask (x : BitVec 32) : (x &&& reflockDestroyMask).toNat = x.toNat / 2 ^ 28 * 2 ^ 28 := by
  rw [BitVec.toNat_and]
  exact and_high x 28

theorem toNat_and_lostMask (x : BitVec 32) :
    (x &&& reflockDestroyMask &&& ~~~reflockDestroy).toNat = x.toNat / 2 ^ 29 * 2 ^ 29 := by
  rw [BitVec.and_assoc, BitVec.toNat_and]
  exact and_high x 29

/-- The assertion of `reflock_ref`. -/
theorem and_destroyMask_eq_zero {x : BitVec 32} : x &&& reflockDestroyMask = 0 ↔ x.toNat < 2 ^ 28 := by
  rw [← BitVec.toNat_inj, toNat_and_destroyMask, show (0 : BitVec 32).toNat = 0 from rfl]
  omega

/-- The assertion of `reflock_unref`. -/
theorem and_lostMask_eq_zero {x : BitVec 32} :
    x &&& reflockDestroyMask &&& ~~~reflockDestroy = 0 ↔ x.toNat < 2 ^ 29 := by
  rw [← BitVec.toNat_inj, toNat_and_lostMask, show (0 : BitVec 32).toNat = 0 from rfl]
  omega

/-- The assertion of `reflock_unref_and_destroy`. -/
theorem and_destroyMask_eq_destroy {x : BitVec 32} :
    x &&& reflockDestroyMask = reflockDestroy ↔ 2 ^ 28 ≤ x.toNat ∧ x.toNat < 2 ^ 29 := by
  rw [← BitVec.toNat_inj, toNat_and_destroyMask, show reflockDestroy.toNat = 2 ^ 28 from rfl]
  omega

theorem and_refMask_ne_zero {x : BitVec 32} : x &&& reflockRefMask ≠ 0 ↔ x.toNat % 2 ^ 28 ≠ 0 := by
  rw [ne_eq, ← BitVec.toNat_inj, toNat_and_refMask, show (0 : BitVec 32).toNat = 0 from rfl]

theorem eq_destroy {x : BitVec 32} : x = reflockDestroy ↔ x.toNat = 2 ^ 28 := by
  rw [← BitVec.toNat_inj, show reflockDestroy.toNat = 2 ^ 28 from rfl]

theorem toNat_add_ref {x : BitVec 32} (h : x.toNat < 2 ^ 28) : (x + 1).toNat = x.toNat + 1 := by
  rw [BitVec.toNat_add, show (1 : BitVec 32).toNat = 1 from rfl]
  omega

theorem toNat_sub_ref {x : BitVec 32} (h : 0 < x.toNat) : (x + -1).toNat = x.toNat - 1 := by
  have hx := x.isLt
  rw [BitVec.toNat_add, show (-1 : BitVec 32).toNat = 2 ^ 32 - 1 from rfl]
  omega

theorem toNat_add_destroy {x : BitVec 32} (h : x.toNat < 2 ^ 28) (h0 : 0 < x.toNat) :
    (x + (reflockDestroy - 1)).toNat = 2 ^ 28 + x.toNat - 1 := by
  rw [BitVec.toNat_add, show (reflockDestroy - 1).toNat = 2 ^ 28 - 1 from rfl]
  omega

/-! ### The threads of a port -/

/-- What a thread is to a port. -/
inductive Role
  | creator
  | reference
  /-- It took the port from the tree, and will take a reference. -/
  | closing
  | closingReference
  | awaiting
  | signalling
  | poisoning
  | deleting
  deriving DecidableEq

def role : Pc → Option (ℕ × Role)
  | .addLock p _ | .add p _ | .addUnlock (some p) | .closeCollided p => some (p, .creator)
  | .findUnlock (some p) | .use p | .unref p => some (p, .reference)
  | .delRef p => some (p, .closing)
  | .delUnlock (some p) | .close p | .destroy p => some (p, .closingReference)
  | .await p => some (p, .awaiting)
  | .signal p => some (p, .signalling)
  | .poison p => some (p, .poisoning)
  | .delete p => some (p, .deleting)
  | .idle | .addUnlock none | .findLock _ | .find _ | .findRef _ | .findUnlock none | .delLock _ | .del _
  | .delUnlock none => none

/-- The port that a thread has at a place. -/
def port : Pc → Option ℕ
  | .findRef p => some p
  | pc => (role pc).map Prod.fst

/-- Whether a place is under the lock, and whether the lock is exclusive there. -/
def lockRole : Pc → Option Bool
  | .add _ _ | .addUnlock _ | .del _ | .delRef _ | .delUnlock _ => some true
  | .find _ | .findRef _ | .findUnlock _ => some false
  | _ => none

/-- Whether a place is one where a thread never waits. -/
def goes : Pc → Bool
  | .idle | .addLock _ _ | .findLock _ | .delLock _ | .signal _ | .await _ => false
  | _ => true

/-- The port whose handle the thread has closed. -/
def closed : Pc → Option ℕ
  | .destroy p | .await p | .poison p | .delete p => some p
  | _ => none

section

variable {pc : Pc} {p : ℕ}

theorem port_eq_some (h : port pc = some p) : pc = .findRef p ∨ ∃ c, role pc = some (p, c) := by
  cases pc with
  | findRef x =>
    cases h
    exact .inl rfl
  | _ =>
    simp only [port, Option.map_eq_some_iff] at h
    obtain ⟨⟨x, c⟩, hc, rfl⟩ := h
    exact .inr ⟨c, hc⟩

theorem role_signalling (h : role pc = some (p, .signalling)) : pc = .signal p := by
  cases pc with
  | addUnlock o | findUnlock o | delUnlock o => cases o <;> simp [role] at h
  | _ => simp_all [role]

theorem role_awaiting (h : role pc = some (p, .awaiting)) : pc = .await p := by
  cases pc with
  | addUnlock o | findUnlock o | delUnlock o => cases o <;> simp [role] at h
  | _ => simp_all [role]

theorem goes_of_reference (h : role pc = some (p, .reference)) : goes pc = true := by
  cases pc with
  | addUnlock o | findUnlock o | delUnlock o => rfl
  | _ => simp_all [role, goes]

theorem goes_of_lockRole {b : Bool} (h : lockRole pc = some b) : goes pc = true := by
  cases pc <;> simp_all [lockRole, goes]

end

structure Counts where
  tree : ℕ
  creator : ℕ
  reference : ℕ
  closing : ℕ
  closingReference : ℕ
  awaiting : ℕ
  signalling : ℕ
  poisoning : ℕ
  deleting : ℕ

/-- What a reflock of value `n` is with these counts. -/
structure Balanced (n : ℕ) (c : Counts) : Prop where
  /-- The tree or one thread is responsible for the port. -/
  one : c.tree + c.creator + c.closing + c.closingReference + c.awaiting + c.poisoning + c.deleting = 1
  counted : c.tree + c.creator + c.closing + c.closingReference = 1 →
    n = c.reference + c.closingReference ∧ c.signalling = 0
  created : c.creator = 1 → c.reference = 0
  awaited : c.awaiting = 1 →
    n = 2 ^ 28 + c.reference ∧ (c.reference = 0 → c.signalling = 1) ∧ (c.reference ≠ 0 → c.signalling = 0)
  poisoned : c.poisoning = 1 → n = 2 ^ 28 ∧ c.reference = 0 ∧ c.signalling = 0
  deleted : c.deleting = 1 → c.reference = 0 ∧ c.signalling = 0

theorem Balanced.lt_of_tree {n : ℕ} {c : Counts} (h : Balanced n c)
    (hsmall : c.reference + c.closingReference < 2 ^ 28) (hpos : 0 < c.tree) : n < 2 ^ 28 := by
  obtain ⟨hone, hcounted, hcreated, hawaited, hpoisoned, hdeleted⟩ := h
  omega

theorem Balanced.eq_of_closing {n : ℕ} {c : Counts} (h : Balanced n c) (hpos : 0 < c.closingReference) :
    n = c.reference + c.closingReference ∧ c.closingReference = 1 := by
  obtain ⟨hone, hcounted, hcreated, hawaited, hpoisoned, hdeleted⟩ := h
  omega

theorem Balanced.of_reference {n : ℕ} {c : Counts} (h : Balanced n c) (hpos : 0 < c.reference) :
    0 < n ∧ n ≤ 2 ^ 28 + c.reference + c.closingReference := by
  obtain ⟨hone, hcounted, hcreated, hawaited, hpoisoned, hdeleted⟩ := h
  omega

/-- Of a port that is not there nothing is left. -/
def Fits : Option ℕ → Counts → Prop
  | some n, c => Balanced n c
  | none, c => c = ⟨0, 0, 0, 0, 0, 0, 0, 0, 0⟩

/-- A thread goes from a role to another. -/
def Moves (r r' : Option Role) (c c' : Counts) : Prop :=
  c'.creator + (if r = some .creator then 1 else 0) = c.creator + (if r' = some .creator then 1 else 0) ∧
  c'.reference + (if r = some .reference then 1 else 0) = c.reference + (if r' = some .reference then 1 else 0) ∧
  c'.closing + (if r = some .closing then 1 else 0) = c.closing + (if r' = some .closing then 1 else 0) ∧
  c'.closingReference + (if r = some .closingReference then 1 else 0) =
    c.closingReference + (if r' = some .closingReference then 1 else 0) ∧
  c'.awaiting + (if r = some .awaiting then 1 else 0) = c.awaiting + (if r' = some .awaiting then 1 else 0) ∧
  c'.signalling + (if r = some .signalling then 1 else 0) = c.signalling + (if r' = some .signalling then 1 else 0) ∧
  c'.poisoning + (if r = some .poisoning then 1 else 0) = c.poisoning + (if r' = some .poisoning then 1 else 0) ∧
  c'.deleting + (if r = some .deleting then 1 else 0) = c.deleting + (if r' = some .deleting then 1 else 0)

variable {n : ℕ} {c c' : Counts}

theorem balanced_create (h : Fits none c) (hm : Moves none (some .creator) c c') (ht : c'.tree = c.tree) :
    Balanced 0 c' := by
  subst h
  simp [Moves] at hm ht
  obtain ⟨h1, h2, h3, h4, h5, h6, h7, h8⟩ := hm
  constructor <;> omega

theorem balanced_add (h : Balanced n c) (hm : Moves (some .creator) none c c') (ht : c'.tree = c.tree + 1) :
    Balanced n c' := by
  obtain ⟨hone, hcounted, hcreated, hawaited, hpoisoned, hdeleted⟩ := h
  simp [Moves] at hm
  obtain ⟨h1, h2, h3, h4, h5, h6, h7, h8⟩ := hm
  constructor <;> omega

theorem balanced_ref (h : Balanced n c) (hm : Moves none (some .reference) c c') (ht : c'.tree = c.tree)
    (hpos : 0 < c.tree) : Balanced (n + 1) c' := by
  obtain ⟨hone, hcounted, hcreated, hawaited, hpoisoned, hdeleted⟩ := h
  simp [Moves] at hm
  obtain ⟨h1, h2, h3, h4, h5, h6, h7, h8⟩ := hm
  constructor <;> omega

theorem balanced_unref (h : Balanced n c) (hm : Moves (some .reference) none c c') (ht : c'.tree = c.tree)
    (hn : n ≠ 2 ^ 28 + 1) : Balanced (n - 1) c' := by
  obtain ⟨hone, hcounted, hcreated, hawaited, hpoisoned, hdeleted⟩ := h
  simp [Moves] at hm
  obtain ⟨h1, h2, h3, h4, h5, h6, h7, h8⟩ := hm
  constructor <;> omega

theorem balanced_signal (h : Balanced n c) (hm : Moves (some .reference) (some .signalling) c c')
    (ht : c'.tree = c.tree) (hn : n = 2 ^ 28 + 1) (hsmall : c.reference + c.closingReference < 2 ^ 28) :
    Balanced (n - 1) c' := by
  obtain ⟨hone, hcounted, hcreated, hawaited, hpoisoned, hdeleted⟩ := h
  simp [Moves] at hm
  obtain ⟨h1, h2, h3, h4, h5, h6, h7, h8⟩ := hm
  constructor <;> omega

theorem balanced_del (h : Balanced n c) (hm : Moves none (some .closing) c c') (ht : c'.tree = c.tree - 1)
    (hpos : 0 < c.tree) : Balanced n c' := by
  obtain ⟨hone, hcounted, hcreated, hawaited, hpoisoned, hdeleted⟩ := h
  simp [Moves] at hm
  obtain ⟨h1, h2, h3, h4, h5, h6, h7, h8⟩ := hm
  constructor <;> omega

theorem balanced_delRef (h : Balanced n c) (hm : Moves (some .closing) (some .closingReference) c c')
    (ht : c'.tree = c.tree) : Balanced (n + 1) c' := by
  obtain ⟨hone, hcounted, hcreated, hawaited, hpoisoned, hdeleted⟩ := h
  simp [Moves] at hm
  obtain ⟨h1, h2, h3, h4, h5, h6, h7, h8⟩ := hm
  constructor <;> omega

theorem balanced_await (h : Balanced n c) (hm : Moves (some .closingReference) (some .awaiting) c c')
    (ht : c'.tree = c.tree) (hn : n ≠ 1) : Balanced (2 ^ 28 + n - 1) c' := by
  obtain ⟨hone, hcounted, hcreated, hawaited, hpoisoned, hdeleted⟩ := h
  simp [Moves] at hm
  obtain ⟨h1, h2, h3, h4, h5, h6, h7, h8⟩ := hm
  constructor <;> omega

theorem balanced_destroy (h : Balanced n c) (hm : Moves (some .closingReference) (some .poisoning) c c')
    (ht : c'.tree = c.tree) (hn : n = 1) : Balanced (2 ^ 28 + n - 1) c' := by
  obtain ⟨hone, hcounted, hcreated, hawaited, hpoisoned, hdeleted⟩ := h
  simp [Moves] at hm
  obtain ⟨h1, h2, h3, h4, h5, h6, h7, h8⟩ := hm
  constructor <;> omega

theorem balanced_meet {d : Counts} (h : Balanced n c) (hm : Moves (some .signalling) none c c')
    (hm' : Moves (some .awaiting) (some .poisoning) c' d) (ht : d.tree = c.tree) : Balanced n d := by
  obtain ⟨hone, hcounted, hcreated, hawaited, hpoisoned, hdeleted⟩ := h
  simp [Moves] at hm hm'
  obtain ⟨h1, h2, h3, h4, h5, h6, h7, h8⟩ := hm
  obtain ⟨h1', h2', h3', h4', h5', h6', h7', h8'⟩ := hm'
  constructor <;> omega

theorem balanced_poison {m : ℕ} (h : Balanced n c) (hm : Moves (some .poisoning) (some .deleting) c c')
    (ht : c'.tree = c.tree) : n = 2 ^ 28 ∧ Balanced m c' := by
  obtain ⟨hone, hcounted, hcreated, hawaited, hpoisoned, hdeleted⟩ := h
  simp [Moves] at hm
  obtain ⟨h1, h2, h3, h4, h5, h6, h7, h8⟩ := hm
  refine ⟨by omega, ?_⟩
  constructor <;> omega

theorem balanced_collided (h : Balanced n c) (hm : Moves (some .creator) (some .deleting) c c')
    (ht : c'.tree = c.tree) : Balanced n c' := by
  obtain ⟨hone, hcounted, hcreated, hawaited, hpoisoned, hdeleted⟩ := h
  simp [Moves] at hm
  obtain ⟨h1, h2, h3, h4, h5, h6, h7, h8⟩ := hm
  constructor <;> omega

theorem balanced_delete (h : Balanced n c) (hm : Moves (some .deleting) none c c') (ht : c'.tree = c.tree) :
    Fits none c' := by
  obtain ⟨hone, hcounted, hcreated, hawaited, hpoisoned, hdeleted⟩ := h
  simp [Moves] at hm
  obtain ⟨h1, h2, h3, h4, h5, h6, h7, h8⟩ := hm
  cases c'
  simp only [Fits, Counts.mk.injEq]
  simp only at h1 h2 h3 h4 h5 h6 h7 h8 ht
  omega

end Handles
end Wepoll
end Qev
