/-
# Heaps in an array, with back pointers

A heap is an array of entries ordered along a tree laid over the indices
(`Tree`): `root` is the first index, and every other index has a smaller one as
its parent. An entry moves through the array by a hole that carries it up or
down; while it does, the edges away from the hole are in order (`Around`), and
the entry in hand is in order with one side of it. `Linked` is the other half: every entry's
owner knows its index, so that the owners in the array are exactly those with an
index, each once.

Nothing is assumed of the tree's branching.
-/
import Mathlib

namespace Qev
namespace Lib

/-! ### The tree over the indices -/

/-- The first index and each other one's parent. -/
structure Tree where
  root : ℕ
  parent : ℕ → ℕ
  parent_lt : ∀ j, root < j → parent j < j
  root_le : ∀ j, root < j → root ≤ parent j

section Order

variable {T : Type*} [LinearOrder T] {S : Tree} {key : ℕ → T} {n k : ℕ} {x : T}

/-- No entry is before its parent, among the first `n`. -/
def Ordered (S : Tree) (key : ℕ → T) (n : ℕ) : Prop :=
  ∀ j, S.root < j → j < S.root + n → key (S.parent j) ≤ key j

/-- The edges away from the hole `k` are in order, and so is what is below it with what is above. -/
structure Around (S : Tree) (key : ℕ → T) (n k : ℕ) : Prop where
  edge : ∀ j, S.root < j → j < S.root + n → j ≠ k → S.parent j ≠ k → key (S.parent j) ≤ key j
  across : S.root < k → ∀ j, S.root < j → j < S.root + n → S.parent j = k → key (S.parent k) ≤ key j

/-- `x`, in hand for the hole `k`, is not after what is below. -/
def Under (S : Tree) (key : ℕ → T) (n k : ℕ) (x : T) : Prop :=
  ∀ j, S.root < j → j < S.root + n → S.parent j = k → x ≤ key j

theorem Ordered.le_of_root {j : ℕ} (h : Ordered S key n) (hr : S.root ≤ j) (hj : j < S.root + n) :
    key S.root ≤ key j := by
  induction j using Nat.strong_induction_on with
  | _ j ih =>
    rcases hr.eq_or_lt with rfl | hlt
    · exact le_refl _
    · have hp := S.parent_lt j hlt
      exact (ih _ hp (S.root_le j hlt) (by omega)).trans (h j hlt hj)

theorem Ordered.congr {key' : ℕ → T} (h : Ordered S key n)
    (hkey : ∀ j, S.root ≤ j → j < S.root + n → key' j = key j) : Ordered S key' n := by
  intro j hr hj
  rw [hkey j hr.le hj, hkey _ (S.root_le j hr) ((S.parent_lt j hr).trans hj)]
  exact h j hr hj

theorem Ordered.mono {m : ℕ} (h : Ordered S key n) (hm : m ≤ n) : Ordered S key m :=
  fun j hr hj => h j hr (by omega)

/-- Whatever takes the place of one entry, the edges around are as they were. -/
theorem Ordered.around {key' : ℕ → T} (h : Ordered S key n)
    (hkey : ∀ j, j ≠ k → S.root ≤ j → j < S.root + n → key' j = key j) : Around S key' n k := by
  have hpar : ∀ j, S.root < j → j < S.root + n → S.parent j ≠ k → key' (S.parent j) = key (S.parent j) :=
    fun j hr hj hne => hkey _ hne (S.root_le j hr) ((S.parent_lt j hr).trans hj)
  constructor
  · intro j hr hj hjk hpk
    rw [hpar j hr hj hpk, hkey j hjk hr.le hj]
    exact h j hr hj
  · intro hk j hr hj hpj
    have hjk : k < j := hpj ▸ S.parent_lt j hr
    have hpk : S.parent k < k := S.parent_lt k hk
    rw [hpar k hk (by omega) hpk.ne, hkey j hjk.ne' hr.le hj]
    calc key (S.parent k) ≤ key k := h k hk (by omega)
      _ = key (S.parent j) := by rw [hpj]
      _ ≤ key j := h j hr hj

/-- An entry that is not after the parent of its hole may stay on the way up. -/
theorem Around.under (h : Around S key n k) (hk : S.root < k) (hx : x ≤ key (S.parent k)) :
    Under S key n k x :=
  fun j hr hj hpj => hx.trans (h.across hk j hr hj hpj)

/-- A new last entry has nothing below it. -/
theorem Ordered.push (h : Ordered S key n) :
    Around S key (n + 1) (S.root + n) ∧ Under S key (n + 1) (S.root + n) x := by
  have hleaf : ∀ j, S.root < j → j < S.root + (n + 1) → S.parent j ≠ S.root + n := by
    intro j hr hj hp
    have := S.parent_lt j hr
    omega
  refine ⟨⟨fun j hr hj hjk _ => h j hr (by omega), fun _ j hr hj hpj => ?_⟩, fun j hr hj hpj => ?_⟩
  · exact absurd hpj (hleaf j hr hj)
  · exact absurd hpj (hleaf j hr hj)

/-! ### The hole moves -/

/-- Filling the hole: the entry is in order with both sides. -/
theorem Around.fill (h : Around S key n k) (hup : S.root < k → key (S.parent k) ≤ x)
    (hdown : Under S key n k x) : Ordered S (Function.update key k x) n := by
  intro j hr hj
  have hp := S.parent_lt j hr
  by_cases hjk : j = k
  · subst hjk
    rw [Function.update_self, Function.update_of_ne hp.ne]
    exact hup hr
  · rw [Function.update_of_ne hjk]
    by_cases hpk : S.parent j = k
    · rw [hpk, Function.update_self]
      exact hdown j hr hj hpk
    · rw [Function.update_of_ne hpk]
      exact h.edge j hr hj hjk hpk

/-- Up: the parent's entry takes the hole, and the hole its place. -/
theorem Around.up (h : Around S key n k) (hk : S.root < k) (hkn : k < S.root + n)
    (hx : x ≤ key (S.parent k)) :
    Around S (Function.update key k (key (S.parent k))) n (S.parent k) ∧
      Under S (Function.update key k (key (S.parent k))) n (S.parent k) x := by
  have hpk := S.parent_lt k hk
  have hbelow : ∀ j, S.root < j → j < S.root + n → S.parent j = S.parent k →
      key (S.parent k) ≤ Function.update key k (key (S.parent k)) j := by
    intro j hr hj hpj
    by_cases hjk : j = k
    · rw [hjk, Function.update_self]
    · rw [Function.update_of_ne hjk, ← hpj]
      exact h.edge j hr hj hjk (by omega)
  refine ⟨⟨fun j hr hj hjp hpp => ?_, fun hroot j hr hj hpj => ?_⟩, fun j hr hj hpj => ?_⟩
  · by_cases hjk : j = k
    · exact absurd (congrArg S.parent hjk) hpp
    · rw [Function.update_of_ne hjk]
      by_cases hpjk : S.parent j = k
      · rw [hpjk, Function.update_self]
        exact h.across hk j hr hj hpjk
      · rw [Function.update_of_ne hpjk]
        exact h.edge j hr hj hjk hpjk
  · have hpp := S.parent_lt _ hroot
    rw [Function.update_of_ne (show S.parent (S.parent k) ≠ k by omega)]
    exact (h.edge _ hroot (by omega) hpk.ne (by omega)).trans (hbelow j hr hj hpj)
  · exact hx.trans (hbelow j hr hj hpj)

/-- Down: the first child's entry takes the hole, and the hole its place. -/
theorem Around.down {c : ℕ} (h : Around S key n k) (hc : S.root < c) (hcn : c < S.root + n)
    (hpc : S.parent c = k) (hmin : Under S key n k (key c)) (hx : key c ≤ x) :
    Around S (Function.update key k (key c)) n c ∧
      (S.root < c → Function.update key k (key c) (S.parent c) ≤ x) := by
  have hck : k < c := hpc ▸ S.parent_lt c hc
  refine ⟨⟨fun j hr hj hjc hpjc => ?_, fun _ j hr hj hpj => ?_⟩, fun _ => ?_⟩
  · by_cases hjk : j = k
    · subst hjk
      rw [Function.update_self, Function.update_of_ne (S.parent_lt j hr).ne]
      exact h.across hr c hc hcn hpc
    · rw [Function.update_of_ne hjk]
      by_cases hpjk : S.parent j = k
      · rw [hpjk, Function.update_self]
        exact hmin j hr hj hpjk
      · rw [Function.update_of_ne hpjk]
        exact h.edge j hr hj hjk hpjk
  · have hjc := S.parent_lt j hr
    rw [hpc, Function.update_self, Function.update_of_ne (show j ≠ k by omega), ← hpj]
    exact h.edge j hr hj (by omega) (by omega)
  · rw [hpc, Function.update_self]
    exact hx

end Order

/-! ### Back pointers -/

section Links

variable {E W : Type*} [DecidableEq W] {owner : E → W} {cells : ℕ → E} {pos : W → ℕ} {lo n k : ℕ}
  {out : Set W} {x : W}

/-- Each entry's owner points back at it, and an owner that points at all points at an entry of its.
The owners in `out` have no entry, wherever they point. -/
structure Linked (owner : E → W) (cells : ℕ → E) (pos : W → ℕ) (lo n : ℕ) (out : Set W) : Prop where
  back : ∀ j, lo ≤ j → j < lo + n → pos (owner (cells j)) = j ∧ owner (cells j) ∉ out
  held : ∀ w, w ∉ out → pos w ≠ 0 → lo ≤ pos w ∧ pos w < lo + n ∧ owner (cells (pos w)) = w

/-- As `Linked`, with a hole at `k` and the owner `x` in hand. -/
structure LinkedBut (owner : E → W) (cells : ℕ → E) (pos : W → ℕ) (lo n k : ℕ) (x : W) (out : Set W) :
    Prop where
  back : ∀ j, lo ≤ j → j < lo + n → j ≠ k →
    pos (owner (cells j)) = j ∧ owner (cells j) ≠ x ∧ owner (cells j) ∉ out
  held : ∀ w, w ≠ x → w ∉ out → pos w ≠ 0 →
    lo ≤ pos w ∧ pos w < lo + n ∧ pos w ≠ k ∧ owner (cells (pos w)) = w

section

omit [DecidableEq W]

theorem Linked.inj (h : Linked owner cells pos lo n out) {i j : ℕ} (hi : lo ≤ i) (hin : i < lo + n)
    (hj : lo ≤ j) (hjn : j < lo + n) (he : owner (cells i) = owner (cells j)) : i = j := by
  rw [← (h.back i hi hin).1, ← (h.back j hj hjn).1, he]

/-- An entry is taken in hand. -/
theorem Linked.take (h : Linked owner cells pos lo n out) (hk : lo ≤ k) (hkn : k < lo + n) :
    LinkedBut owner cells pos lo n k (owner (cells k)) out := by
  refine ⟨fun j hj hjn hjk => ?_, fun w hw hout hp => ?_⟩
  · obtain ⟨h₁, h₂⟩ := h.back j hj hjn
    exact ⟨h₁, fun he => hjk (h.inj hj hjn hk hkn he), h₂⟩
  · obtain ⟨h₁, h₂, h₃⟩ := h.held w hout hp
    refine ⟨h₁, h₂, fun he => hw ?_, h₃⟩
    rw [← h₃, he]

/-- A new last entry, of an owner that points nowhere yet. -/
theorem Linked.push (h : Linked owner cells pos lo n out) (hx : pos x = 0) (hlo : 0 < lo) :
    LinkedBut owner cells pos lo (n + 1) (lo + n) x out := by
  refine ⟨fun j hj hjn hjk => ?_, fun w hw hout hp => ?_⟩
  · obtain ⟨h₁, h₂⟩ := h.back j hj (by omega)
    refine ⟨h₁, fun he => ?_, h₂⟩
    rw [he] at h₁
    omega
  · obtain ⟨h₁, h₂, h₃⟩ := h.held w hout hp
    exact ⟨h₁, by omega, by omega, h₃⟩

/-- What is at the hole, and where the owner in hand points, does not matter. -/
theorem LinkedBut.congr {cells' : ℕ → E} {pos' : W → ℕ} (h : LinkedBut owner cells pos lo n k x out)
    (hcells : ∀ j, j ≠ k → cells' j = cells j) (hpos : ∀ w, w ≠ x → pos' w = pos w) :
    LinkedBut owner cells' pos' lo n k x out := by
  constructor
  · intro j hj hjn hjk
    obtain ⟨h₁, h₂, h₃⟩ := h.back j hj hjn hjk
    rw [hcells j hjk, hpos _ h₂]
    exact ⟨h₁, h₂, h₃⟩
  · intro w hw hout hp
    rw [hpos w hw] at hp ⊢
    obtain ⟨h₁, h₂, h₃, h₄⟩ := h.held w hw hout hp
    rw [hcells _ h₃]
    exact ⟨h₁, h₂, h₃, h₄⟩

end

/-- An entry of the array moves into the hole, and the hole to its place. -/
theorem LinkedBut.move {p : ℕ} (h : LinkedBut owner cells pos lo n k x out)
    (hk : lo ≤ k) (hkn : k < lo + n) (hp : lo ≤ p) (hpn : p < lo + n) (hpk : p ≠ k) :
    LinkedBut owner (Function.update cells k (cells p)) (Function.update pos (owner (cells p)) k)
      lo n p x out := by
  obtain ⟨hpos, hne, hin⟩ := h.back p hp hpn hpk
  constructor
  · intro j hj hjn hjp
    by_cases hjk : j = k
    · subst hjk
      rw [Function.update_self, Function.update_self]
      exact ⟨rfl, hne, hin⟩
    · rw [Function.update_of_ne hjk]
      obtain ⟨hj', hne', hin'⟩ := h.back j hj hjn hjk
      refine ⟨?_, hne', hin'⟩
      rw [Function.update_of_ne (fun he => hjp (by rw [← hj', he, hpos])), hj']
  · intro w hw hout hpw
    by_cases hwp : w = owner (cells p)
    · subst hwp
      rw [Function.update_self, Function.update_self]
      exact ⟨hk, hkn, hpk.symm, rfl⟩
    · rw [Function.update_of_ne hwp] at hpw ⊢
      obtain ⟨h₁, h₂, h₃, h₄⟩ := h.held w hw hout hpw
      refine ⟨h₁, h₂, fun he => hwp ?_, ?_⟩
      · rw [← h₄, he]
      · rw [Function.update_of_ne h₃, h₄]

theorem LinkedBut.fill {e : E} (h : LinkedBut owner cells pos lo n k (owner e) out) (hk : lo ≤ k)
    (hkn : k < lo + n) (he : owner e ∉ out) :
    Linked owner (Function.update cells k e) (Function.update pos (owner e) k) lo n out := by
  constructor
  · intro j hj hjn
    by_cases hjk : j = k
    · rw [hjk, Function.update_self, Function.update_self]
      exact ⟨rfl, he⟩
    · obtain ⟨hj', hne, hin⟩ := h.back j hj hjn hjk
      rw [Function.update_of_ne hjk, Function.update_of_ne hne]
      exact ⟨hj', hin⟩
  · intro w hout hw
    by_cases hwe : w = owner e
    · subst hwe
      rw [Function.update_self, Function.update_self]
      exact ⟨hk, hkn, rfl⟩
    · rw [Function.update_of_ne hwe] at hw ⊢
      obtain ⟨h₁, h₂, h₃, h₄⟩ := h.held w hwe hout hw
      rw [Function.update_of_ne h₃]
      exact ⟨h₁, h₂, h₄⟩

section

omit [DecidableEq W]

/-- The last entry leaves its place to go where the entry in hand was, which is let go. -/
theorem LinkedBut.pop (h : LinkedBut owner cells pos lo (n + 1) k x out) (hkn : k < lo + n) :
    LinkedBut owner cells pos lo n k (owner (cells (lo + n))) (insert x out) := by
  obtain ⟨hlast, hne, hin⟩ := h.back (lo + n) (by omega) (by omega) (by omega)
  constructor
  · intro j hj hjn hjk
    obtain ⟨h₁, h₂, h₃⟩ := h.back j hj (by omega) hjk
    refine ⟨h₁, fun he => ?_, by simp [h₂, h₃]⟩
    rw [he] at h₁
    omega
  · intro w hw hout hpw
    simp only [Set.mem_insert_iff, not_or] at hout
    obtain ⟨h₁, h₂, h₃, h₄⟩ := h.held w hout.1 hout.2 hpw
    refine ⟨h₁, ?_, h₃, h₄⟩
    by_contra hlt
    have heq : pos w = lo + n := by omega
    rw [heq] at h₄
    exact hw h₄.symm

/-- The entry in hand is the last, and is let go. -/
theorem LinkedBut.drop (h : LinkedBut owner cells pos lo (n + 1) (lo + n) x out) :
    Linked owner cells pos lo n (insert x out) := by
  constructor
  · intro j hj hjn
    obtain ⟨h₁, h₂, h₃⟩ := h.back j hj (by omega) (by omega)
    exact ⟨h₁, by simp [h₂, h₃]⟩
  · intro w hout hpw
    simp only [Set.mem_insert_iff, not_or] at hout
    obtain ⟨h₁, h₂, h₃, h₄⟩ := h.held w hout.1 hout.2 hpw
    exact ⟨h₁, by omega, h₄⟩

end

/-- An owner without an entry stops pointing. -/
theorem Linked.release (h : Linked owner cells pos lo n (insert x out)) :
    Linked owner cells (Function.update pos x 0) lo n out := by
  constructor
  · intro j hj hjn
    obtain ⟨h₁, h₂⟩ := h.back j hj hjn
    simp only [Set.mem_insert_iff, not_or] at h₂
    rw [Function.update_of_ne h₂.1]
    exact ⟨h₁, h₂.2⟩
  · intro w hout hpw
    by_cases hwx : w = x
    · rw [hwx, Function.update_self] at hpw
      exact absurd rfl hpw
    · rw [Function.update_of_ne hwx] at hpw ⊢
      exact h.held w (by simp [hwx, hout]) hpw

end Links

end Lib
end Qev
