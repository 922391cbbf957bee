/-
# The timer heaps

`downheap`, `upheap`, `adjustheap` and `reheap`, for both builds: the 4-heap,
whose first entry is at index 3, and the binary one, whose first is at 1. Every
entry caches its watcher's `at`, and every move of an entry stores its new index
in the watcher's `active`.

Each of them keeps the heap's links (`Lib.Linked`) and restores its order
(`Lib.Ordered`) around the entry it is called on.
-/
import Qev.Lib.Heap

set_option linter.unusedSectionVars false

namespace Qev

/-- `EV_USE_4HEAP`. -/
inductive Dheap
  | four
  | two
  deriving DecidableEq

namespace Dheap

/-- `HEAP0`, the index of the first element. -/
def heap0 : Dheap → ℕ
  | four => 3
  | two => 1

/-- `HPARENT`. -/
def hparent : Dheap → ℕ → ℕ
  | four, k => (k - 3 - 1) / 4 + 3
  | two, k => k >>> 1

/-- `UPHEAP_DONE`. -/
def upheapDone : Dheap → ℕ → ℕ → Bool
  | four, p, k => p == k
  | two, p, _ => p == 0

end Dheap

/-- A heap element, with `at` cached. -/
structure ANHE (W T : Type) where
  anheAt : T
  anheW : W

/-- The array and the `active` of the watchers. `touched` is history: the indices read or written. -/
structure Heap (W T : Type) where
  cells : ℕ → ANHE W T
  active : W → ℕ
  touched : List ℕ

section

variable {W T : Type} [DecidableEq W] [LinearOrder T]

namespace Heap

variable (b : Dheap) (h : Heap W T)

def anheAt (k : ℕ) : T := (h.cells k).anheAt

/-- The elements at `l` are read. -/
def read (l : List ℕ) : Heap W T := { h with touched := l ++ h.touched }

/-- `heap [k] = e; ev_active (ANHE_w (heap [k])) = k`. -/
def set (k : ℕ) (e : ANHE W T) : Heap W T :=
  { cells := Function.update h.cells k e, active := Function.update h.active e.anheW k,
    touched := k :: h.touched }

/-- `heap [k] = e`. -/
def put (k : ℕ) (e : ANHE W T) : Heap W T :=
  { h with cells := Function.update h.cells k e, touched := k :: h.touched }

/-- The one of `m` and `c` that is at the earlier time, `m` if they are level. -/
def earlier (m c : ℕ) : ℕ := if h.anheAt m > h.anheAt c then c else m

/-- The children of `k` before the end `E`. -/
def children (k E : ℕ) : List ℕ :=
  match b with
  | .four => ((List.range 4).map (4 * (k - 3) + 3 + 1 + ·)).filter (· < E)
  | .two => [k <<< 1, (k <<< 1) + 1].filter (· < E)

/-- The minimum child of `k`. -/
def minpos (k E : ℕ) : Option ℕ :=
  match b with
  | .four =>
    let pos := 4 * (k - 3) + 3 + 1
    if pos + 4 - 1 < E then
      some (h.earlier (h.earlier (h.earlier pos (pos + 1)) (pos + 2)) (pos + 3))
    else if pos < E then
      let m := pos
      let m := if pos + 1 < E then h.earlier m (pos + 1) else m
      let m := if pos + 2 < E then h.earlier m (pos + 2) else m
      let m := if pos + 3 < E then h.earlier m (pos + 3) else m
      some m
    else none
  | .two =>
    let c := k <<< 1
    if c ≥ E then none
    else some (c + if c + 1 < E ∧ h.anheAt c > h.anheAt (c + 1) then 1 else 0)

/-- The loop of `downheap`, with `he` in hand. -/
def downLoop (he : ANHE W T) (E : ℕ) (h : Heap W T) (k : ℕ) : Heap W T :=
  match h.minpos b k E with
  | none => h.set k he
  | some c =>
    let h := h.read (children b k E)
    if he.anheAt ≤ h.anheAt c then h.set k he
    else if k < c ∧ c < E then downLoop he E (h.set k (h.cells c)) c
    -- a child is after its parent and before the end
    else h
  termination_by E - k

/-- Away from the root. -/
def downheap (N k : ℕ) : Heap W T := downLoop b (h.cells k) (N + b.heap0) (h.read [k]) k

/-- The loop of `upheap`, with `he` in hand. -/
def upLoop (he : ANHE W T) (h : Heap W T) (k : ℕ) : Heap W T :=
  let p := b.hparent k
  if b.upheapDone p k then h.set k he
  else
    let h := h.read [p]
    if h.anheAt p ≤ he.anheAt then h.set k he
    else if p < k then upLoop he (h.set k (h.cells p)) p
    -- a parent is before its children
    else h
  termination_by k

/-- Towards the root. -/
def upheap (k : ℕ) : Heap W T := upLoop b (h.cells k) (h.read [k]) k

/-- Move an element suitably so it is in a correct place. -/
def adjustheap (N k : ℕ) : Heap W T :=
  if k > b.heap0 then
    let h := h.read [k, b.hparent k]
    if h.anheAt k ≤ h.anheAt (b.hparent k) then h.upheap b k else h.downheap b N k
  else h.downheap b N k

/-- Rebuild the heap. -/
def reheap (N : ℕ) : Heap W T := (List.range N).foldl (fun h i => h.upheap b (i + b.heap0)) h

end Heap

/-! ### The tree of each build -/

theorem Dheap.hparent_lt (b : Dheap) (j : ℕ) (hj : b.heap0 < j) : b.hparent j < j := by
  cases b with
  | four =>
    simp only [heap0, hparent] at *
    omega
  | two =>
    simp only [heap0, hparent, Nat.shiftRight_eq_div_pow] at *
    omega

theorem Dheap.heap0_le_hparent (b : Dheap) (j : ℕ) (hj : b.heap0 < j) : b.heap0 ≤ b.hparent j := by
  cases b with
  | four =>
    simp only [hparent, heap0]
    omega
  | two =>
    simp only [heap0, hparent, Nat.shiftRight_eq_div_pow] at *
    omega

/-- The tree `HPARENT` lays over the indices. -/
def Dheap.tree (b : Dheap) : Lib.Tree where
  root := b.heap0
  parent := b.hparent
  parent_lt := b.hparent_lt
  root_le := b.heap0_le_hparent

theorem Dheap.heap0_pos (b : Dheap) : 0 < b.heap0 := by cases b <;> decide

theorem Dheap.upheapDone_iff (b : Dheap) {k : ℕ} (hk : b.heap0 ≤ k) :
    b.upheapDone (b.hparent k) k ↔ k = b.heap0 := by
  cases b with
  | four =>
    simp only [upheapDone, hparent, heap0, beq_iff_eq] at *
    omega
  | two =>
    simp only [upheapDone, hparent, heap0, Nat.shiftRight_eq_div_pow, beq_iff_eq] at *
    omega

namespace Heap

variable {b : Dheap} {h : Heap W T} {k E : ℕ}

theorem mem_children (hk : b.heap0 ≤ k) {j : ℕ} :
    j ∈ children b k E ↔ b.heap0 < j ∧ j < E ∧ b.hparent j = k := by
  cases b with
  | four =>
    simp only [children, Dheap.heap0, Dheap.hparent, List.mem_filter, List.mem_map, List.mem_range,
      decide_eq_true_eq] at *
    refine ⟨fun ⟨⟨i, hi, hj⟩, hE⟩ => by omega, fun ⟨h₁, h₂, h₃⟩ => ⟨⟨j - (4 * (k - 3) + 3 + 1), ?_, ?_⟩, h₂⟩⟩ <;>
      omega
  | two =>
    simp only [children, Dheap.heap0, Dheap.hparent, Nat.shiftRight_eq_div_pow, Nat.shiftLeft_eq,
      List.mem_filter, List.mem_cons, List.not_mem_nil, or_false, decide_eq_true_eq] at *
    omega

/-- `m` is in `l`, and no other in `l` is before it. -/
def Least (h : Heap W T) (l : List ℕ) (m : ℕ) : Prop := m ∈ l ∧ ∀ j ∈ l, h.anheAt m ≤ h.anheAt j

theorem Least.single (h : Heap W T) (m : ℕ) : h.Least [m] m := by simp [Least]

theorem Least.snoc {l : List ℕ} {m c : ℕ} (hm : h.Least l m) : h.Least (l ++ [c]) (h.earlier m c) := by
  unfold earlier
  split
  · rename_i hlt
    refine ⟨by simp, fun j hj => ?_⟩
    rcases List.mem_append.mp hj with hj | hj
    · exact hlt.le.trans (hm.2 j hj)
    · rw [List.mem_singleton.mp hj]
  · rename_i hle
    refine ⟨List.mem_append_left _ hm.1, fun j hj => ?_⟩
    rcases List.mem_append.mp hj with hj | hj
    · exact hm.2 j hj
    · rw [List.mem_singleton.mp hj]
      exact not_lt.mp hle

/-- `minpos` is a child, and none of the others is before it. -/
theorem minpos_some {c : ℕ} (hc : h.minpos b k E = some c) : h.Least (children b k E) c := by
  cases b with
  | four =>
    simp only [minpos, children] at *
    generalize 4 * (k - 3) + 3 + 1 = pos at *
    have h₁ : h.Least [pos] pos := .single h pos
    have h₂ : h.Least [pos, pos + 1] (h.earlier pos (pos + 1)) := h₁.snoc
    have h₃ : h.Least [pos, pos + 1, pos + 2] (h.earlier (h.earlier pos (pos + 1)) (pos + 2)) := h₂.snoc
    have h₄ : h.Least [pos, pos + 1, pos + 2, pos + 3]
        (h.earlier (h.earlier (h.earlier pos (pos + 1)) (pos + 2)) (pos + 3)) := h₃.snoc
    have hl : (List.range 4).map (pos + ·) = [pos, pos + 1, pos + 2, pos + 3] := rfl
    rw [hl]
    split at hc
    · cases hc
      rwa [List.filter_eq_self.mpr (by simp; omega)]
    · split at hc
      · cases hc
        by_cases e₂ : pos + 2 < E
        · have e₃ : ¬ pos + 3 < E := by omega
          have e₁ : pos + 1 < E := by omega
          simpa [e₁, e₂, e₃, show pos < E by omega] using h₃
        · have e₃ : ¬ pos + 3 < E := by omega
          by_cases e₁ : pos + 1 < E
          · simpa [e₁, e₂, e₃, show pos < E by omega] using h₂
          · simpa [e₁, e₂, e₃, show pos < E by omega] using h₁
      · cases hc
  | two =>
    simp only [minpos, children] at *
    generalize k <<< 1 = pos at *
    split at hc
    · cases hc
    · cases hc
      rename_i hpos
      have h₂ : h.Least [pos, pos + 1] (h.earlier pos (pos + 1)) := (Least.single h pos).snoc
      by_cases e₁ : pos + 1 < E
      · rw [List.filter_eq_self.mpr (by simp; omega)]
        unfold earlier at h₂
        split at h₂ <;> rename_i hlt
        · rwa [if_pos ⟨e₁, hlt⟩]
        · rwa [if_neg (fun hc => hlt hc.2)]
      · rw [if_neg (fun hc => e₁ hc.1)]
        simpa [e₁, not_le.mp hpos] using Least.single h pos

theorem minpos_none (hc : h.minpos b k E = none) : children b k E = [] := by
  cases b with
  | four =>
    simp only [minpos, children] at *
    generalize 4 * (k - 3) + 3 + 1 = pos at *
    split at hc
    · cases hc
    · split at hc
      · cases hc
      · simp only [List.filter_eq_nil_iff, List.mem_map, decide_eq_true_eq]
        rintro _ ⟨i, -, rfl⟩
        omega
  | two =>
    simp only [minpos, children] at *
    split at hc
    · simp only [List.filter_eq_nil_iff, List.mem_cons, List.not_mem_nil, or_false, decide_eq_true_eq]
      omega
    · cases hc

/-! ### What holds while an entry is in hand -/

@[simp] theorem cells_read (h : Heap W T) (l : List ℕ) : (h.read l).cells = h.cells := rfl

@[simp] theorem active_read (h : Heap W T) (l : List ℕ) : (h.read l).active = h.active := rfl

@[simp] theorem anheAt_read (h : Heap W T) (l : List ℕ) : (h.read l).anheAt = h.anheAt := rfl

theorem anheAt_set (h : Heap W T) (k : ℕ) (e : ANHE W T) :
    (h.set k e).anheAt = Function.update h.anheAt k e.anheAt := by
  funext j
  by_cases hj : j = k
  · subst hj
    simp [anheAt, set]
  · simp [anheAt, set, hj]

variable {P : ANHE W T → Prop} {A : W → Prop} {out : Set W} {n m : ℕ} {he : ANHE W T}

/-- The first `n` entries are linked to the watchers `A`, but for those in `out`; each satisfies `P`. -/
structure Valid (b : Dheap) (P : ANHE W T → Prop) (A : W → Prop) (out : Set W) (n : ℕ) (h : Heap W T) :
    Prop where
  links : Lib.Linked ANHE.anheW h.cells h.active b.heap0 n out
  cells : ∀ j, b.heap0 ≤ j → j < b.heap0 + n → P (h.cells j)
  act : ∀ w, h.active w ≠ 0 ↔ A w

/-- As `Valid`, with a hole at `k` and `he` in hand. -/
structure Sifting (b : Dheap) (P : ANHE W T → Prop) (A : W → Prop) (out : Set W) (n : ℕ) (he : ANHE W T)
    (h : Heap W T) (k : ℕ) : Prop where
  lo : b.heap0 ≤ k
  hi : k < b.heap0 + n
  links : Lib.LinkedBut ANHE.anheW h.cells h.active b.heap0 n k he.anheW out
  cells : ∀ j, b.heap0 ≤ j → j < b.heap0 + n → j ≠ k → P (h.cells j)
  act : ∀ w, h.active w ≠ 0 ↔ A w
  hand : P he
  handA : A he.anheW
  handOut : he.anheW ∉ out

theorem Sifting.read (hs : Sifting b P A out n he h k) (l : List ℕ) :
    Sifting b P A out n he (h.read l) k :=
  ⟨hs.lo, hs.hi, hs.links, hs.cells, hs.act, hs.hand, hs.handA, hs.handOut⟩

/-- Storing an index in the `active` of an active watcher. -/
theorem act_set (hact : ∀ w, h.active w ≠ 0 ↔ A w) (hk : b.heap0 ≤ k) {e : ANHE W T} (he : A e.anheW) (w : W) :
    (h.set k e).active w ≠ 0 ↔ A w := by
  have hpos := b.heap0_pos
  by_cases hw : w = e.anheW
  · subst hw
    simp only [set, Function.update_self]
    exact ⟨fun _ => he, fun _ => by omega⟩
  · simp only [set, Function.update_of_ne hw]
    exact hact w

theorem Sifting.move (hs : Sifting b P A out n he h k) {p : ℕ} (hp : b.heap0 ≤ p) (hpn : p < b.heap0 + n)
    (hpk : p ≠ k) : Sifting b P A out n he (h.set k (h.cells p)) p := by
  have hpos := b.heap0_pos
  have hA : A (h.cells p).anheW := by
    rw [← hs.act, (hs.links.back p hp hpn hpk).1]
    omega
  refine ⟨hp, hpn, hs.links.move hs.lo hs.hi hp hpn hpk, fun j hj hjn hjp => ?_, act_set hs.act hs.lo hA,
    hs.hand, hs.handA, hs.handOut⟩
  by_cases hjk : j = k
  · subst hjk
    simpa [set] using hs.cells p hp hpn hpk
  · simpa [set, hjk] using hs.cells j hj hjn hjk

theorem Sifting.fill (hs : Sifting b P A out n he h k) : Valid b P A out n (h.set k he) := by
  refine ⟨hs.links.fill hs.lo hs.hi hs.handOut, fun j hj hjn => ?_, act_set hs.act hs.lo hs.handA⟩
  by_cases hjk : j = k
  · subst hjk
    simpa [set] using hs.hand
  · simpa [set, hjk] using hs.cells j hj hjn hjk

/-- An entry of the heap is taken in hand. -/
theorem Valid.take (hv : Valid b P A out n h) (hk : b.heap0 ≤ k) (hkn : k < b.heap0 + n) :
    Sifting b P A out n (h.cells k) h k := by
  have hpos := b.heap0_pos
  refine ⟨hk, hkn, hv.links.take hk hkn, fun j hj hjn _ => hv.cells j hj hjn, hv.act, hv.cells k hk hkn, ?_,
    (hv.links.back k hk hkn).2⟩
  rw [← hv.act, (hv.links.back k hk hkn).1]
  omega

/-- The last entry is in hand for the place of another one, whose watcher is left out. -/
theorem Valid.replace (hv : Valid b P A ∅ (n + 1) h) (hk : b.heap0 ≤ k) (hkn : k < b.heap0 + n) :
    Sifting b P A {(h.cells k).anheW} n (h.cells (b.heap0 + n)) (h.put k (h.cells (b.heap0 + n))) k := by
  have hpos := b.heap0_pos
  have hback := hv.links.back (b.heap0 + n) (by omega) (by omega)
  have hlinks := (hv.links.take hk (by omega)).pop (by omega)
  rw [insert_empty_eq] at hlinks
  refine ⟨hk, hkn, hlinks.congr (fun j hjk => Function.update_of_ne hjk ..) fun _ _ => rfl,
    fun j hj hjn hjk => ?_, hv.act, hv.cells _ (by omega) (by omega), ?_, fun he => ?_⟩
  · simpa [put, hjk] using hv.cells j hj (by omega)
  · rw [← hv.act, hback.1]
    omega
  · have := hv.links.inj (by omega) (by omega) hk (by omega) he
    omega

/-- The watcher of the last entry is left out. -/
theorem Valid.dropLast (hv : Valid b P A ∅ (n + 1) h) :
    Valid b P A {(h.cells (b.heap0 + n)).anheW} n h := by
  have hlinks := (hv.links.take (Nat.le_add_right _ _) (by omega)).drop
  rw [insert_empty_eq] at hlinks
  exact ⟨hlinks, fun j hj hjn => hv.cells j hj (by omega), hv.act⟩

/-- A watcher left out becomes inactive. -/
theorem Valid.release {w : W} (hv : Valid b P A {w} n h) :
    Valid b P (fun v => v ≠ w ∧ A v) ∅ n { h with active := Function.update h.active w 0 } := by
  have hlinks := hv.links
  rw [← insert_empty_eq] at hlinks
  refine ⟨hlinks.release, hv.cells, fun v => ?_⟩
  by_cases hvw : v = w
  · simp [hvw]
  · simpa [hvw] using hv.act v

/-! ### Each function restores the order -/

/-- `upheap`, among the first `m` of the `n` entries. -/
theorem upLoop_spec (hs : Sifting b P A out n he h k) (hkm : k < b.heap0 + m)
    (ha : Lib.Around b.tree h.anheAt m k) (hu : Lib.Under b.tree h.anheAt m k he.anheAt) :
    Valid b P A out n (upLoop b he h k) ∧ Lib.Ordered b.tree (upLoop b he h k).anheAt m := by
  induction k using Nat.strong_induction_on generalizing h with
  | _ k ih =>
    rw [upLoop]
    by_cases hdone : b.upheapDone (b.hparent k) k
    · simp only [hdone, ↓reduceIte]
      have hroot : k = b.heap0 := (b.upheapDone_iff hs.lo).mp hdone
      refine ⟨hs.fill, ?_⟩
      rw [anheAt_set]
      exact ha.fill (fun hlt => absurd hroot hlt.ne') hu
    · have hlt : b.heap0 < k := hs.lo.lt_of_ne fun heq => hdone ((b.upheapDone_iff hs.lo).mpr heq.symm)
      have hpk : b.hparent k < k := b.hparent_lt k hlt
      have hp : b.heap0 ≤ b.hparent k := b.heap0_le_hparent k hlt
      simp only [hdone, Bool.false_eq_true, ↓reduceIte, anheAt_read, hpk]
      split
      · rename_i hle
        refine ⟨(hs.read _).fill, ?_⟩
        rw [anheAt_set, anheAt_read]
        exact ha.fill (fun _ => hle) hu
      · rename_i hnle
        have hsift := (hs.read [b.hparent k]).move hp (hpk.trans hs.hi) hpk.ne
        obtain ⟨ha', hu'⟩ := ha.up hlt hkm (not_le.mp hnle).le
        refine ih _ hpk hsift (hpk.trans hkm) ?_ ?_
        · rw [anheAt_set]
          exact ha'
        · rw [anheAt_set]
          exact hu'

theorem downLoop_spec (hs : Sifting b P A out n he h k) (ha : Lib.Around b.tree h.anheAt n k)
    (hu : b.heap0 < k → h.anheAt (b.hparent k) ≤ he.anheAt) :
    Valid b P A out n (downLoop b he (n + b.heap0) h k) ∧
      Lib.Ordered b.tree (downLoop b he (n + b.heap0) h k).anheAt n := by
  obtain ⟨d, hd⟩ : ∃ d, n + b.heap0 - k = d := ⟨_, rfl⟩
  induction d using Nat.strong_induction_on generalizing h k with
  | _ d ih =>
    rw [downLoop]
    cases hc : h.minpos b k (n + b.heap0) with
    | none =>
      have hnone := minpos_none hc
      simp only
      refine ⟨hs.fill, ?_⟩
      rw [anheAt_set]
      refine ha.fill hu fun j hr hj hp => ?_
      have hmem := (mem_children (E := n + b.heap0) hs.lo).mpr ⟨hr, by rwa [Nat.add_comm] at hj, hp⟩
      simp [hnone] at hmem
    | some c =>
      obtain ⟨hmem, hleast⟩ := minpos_some hc
      obtain ⟨hrc, hcE, hpc⟩ := (mem_children hs.lo).mp hmem
      have hkc : k < c := hpc ▸ b.hparent_lt c hrc
      have hmin : Lib.Under b.tree h.anheAt n k (h.anheAt c) := fun j hr hj hp =>
        hleast j ((mem_children hs.lo).mpr ⟨hr, by rwa [Nat.add_comm] at hj, hp⟩)
      simp only [anheAt_read, hkc, hcE, and_self, ↓reduceIte]
      split
      · rename_i hle
        refine ⟨(hs.read _).fill, ?_⟩
        rw [anheAt_set, anheAt_read]
        exact ha.fill hu fun j hr hj hp => hle.trans (hmin j hr hj hp)
      · rename_i hnle
        have hcn : c < b.heap0 + n := by rwa [Nat.add_comm] at hcE
        have hsift := (hs.read (children b k (n + b.heap0))).move hrc.le hcn hkc.ne'
        obtain ⟨ha', hu'⟩ := ha.down hrc hcn hpc hmin (not_le.mp hnle).le
        refine ih (n + b.heap0 - c) (by omega) hsift ?_ ?_ rfl
        · rw [anheAt_set]
          exact ha'
        · rw [anheAt_set]
          exact hu'

/-! ### Where they look -/

/-- No index outside the first `t` entries was touched. -/
def Inside (b : Dheap) (t : ℕ) (h : Heap W T) : Prop := ∀ i ∈ h.touched, b.heap0 ≤ i ∧ i < b.heap0 + t

variable {t : ℕ}

theorem Inside.read (hi : Inside b t h) {l : List ℕ} (hl : ∀ i ∈ l, b.heap0 ≤ i ∧ i < b.heap0 + t) :
    Inside b t (h.read l) := by
  intro i hm
  rcases List.mem_append.mp hm with hm | hm
  · exact hl i hm
  · exact hi i hm

theorem Inside.set (hi : Inside b t h) (hk : b.heap0 ≤ k) (hkt : k < b.heap0 + t) (e : ANHE W T) :
    Inside b t (h.set k e) := by
  intro i hm
  rcases List.mem_cons.mp hm with rfl | hm
  · exact ⟨hk, hkt⟩
  · exact hi i hm

theorem Inside.put (hi : Inside b t h) (hk : b.heap0 ≤ k) (hkt : k < b.heap0 + t) (e : ANHE W T) :
    Inside b t (h.put k e) := by
  intro i hm
  rcases List.mem_cons.mp hm with rfl | hm
  · exact ⟨hk, hkt⟩
  · exact hi i hm

theorem upLoop_inside (hi : Inside b t h) (hk : b.heap0 ≤ k) (hkt : k < b.heap0 + t) :
    Inside b t (upLoop b he h k) := by
  induction k using Nat.strong_induction_on generalizing h with
  | _ k ih =>
    rw [upLoop]
    by_cases hdone : b.upheapDone (b.hparent k) k
    · simp only [hdone, ↓reduceIte]
      exact hi.set hk hkt he
    · have hlt : b.heap0 < k := hk.lt_of_ne fun heq => hdone ((b.upheapDone_iff hk).mpr heq.symm)
      have hpk := b.hparent_lt k hlt
      have hp := b.heap0_le_hparent k hlt
      have hread : Inside b t (h.read [b.hparent k]) := hi.read (by simpa using ⟨hp, by omega⟩)
      simp only [hdone, Bool.false_eq_true, ↓reduceIte, hpk]
      split
      · exact hread.set hk hkt he
      · exact ih _ hpk (hread.set hk hkt _) hp (by omega)

theorem downLoop_inside (hi : Inside b t h) (hk : b.heap0 ≤ k) (hkE : k < E) (hE : E ≤ b.heap0 + t) :
    Inside b t (downLoop b he E h k) := by
  obtain ⟨d, hd⟩ : ∃ d, E - k = d := ⟨_, rfl⟩
  induction d using Nat.strong_induction_on generalizing h k with
  | _ d ih =>
    rw [downLoop]
    cases hc : h.minpos b k E with
    | none => exact hi.set hk (by omega) he
    | some c =>
      obtain ⟨hrc, hcE, hpc⟩ := (mem_children hk).mp (minpos_some hc).1
      have hkc : k < c := hpc ▸ b.hparent_lt c hrc
      have hread : Inside b t (h.read (children b k E)) := hi.read fun i hm => by
        obtain ⟨h₁, h₂, -⟩ := (mem_children hk).mp hm
        omega
      simp only [hkc, hcE, and_self, ↓reduceIte]
      split
      · exact hread.set hk (by omega) he
      · exact ih (E - c) (by omega) (hread.set hk (by omega) _) hrc.le hcE rfl

/-! ### The entry points -/

theorem upheap_spec (hs : Sifting b P A out n (h.cells k) h k) (hkm : k < b.heap0 + m)
    (ha : Lib.Around b.tree h.anheAt m k) (hu : Lib.Under b.tree h.anheAt m k (h.anheAt k)) :
    Valid b P A out n (h.upheap b k) ∧ Lib.Ordered b.tree (h.upheap b k).anheAt m :=
  upLoop_spec (hs.read [k]) hkm ha hu

theorem upheap_inside (hi : Inside b t h) (hk : b.heap0 ≤ k) (hkt : k < b.heap0 + t) :
    Inside b t (h.upheap b k) :=
  upLoop_inside (hi.read (by simpa using ⟨hk, hkt⟩)) hk hkt

theorem downheap_spec (hs : Sifting b P A out n (h.cells k) h k) (ha : Lib.Around b.tree h.anheAt n k)
    (hu : b.heap0 < k → h.anheAt (b.hparent k) ≤ h.anheAt k) :
    Valid b P A out n (h.downheap b n k) ∧ Lib.Ordered b.tree (h.downheap b n k).anheAt n :=
  downLoop_spec (hs.read [k]) ha hu

theorem downheap_inside (hi : Inside b t h) (hn : n ≤ t) (hk : b.heap0 ≤ k) (hkn : k < b.heap0 + n) :
    Inside b t (h.downheap b n k) :=
  downLoop_inside (hi.read (by simpa using ⟨hk, by omega⟩)) hk (by omega) (by omega)

/-- `adjustheap` puts any one entry right. -/
theorem adjustheap_spec (hs : Sifting b P A out n (h.cells k) h k) (ha : Lib.Around b.tree h.anheAt n k) :
    Valid b P A out n (h.adjustheap b n k) ∧ Lib.Ordered b.tree (h.adjustheap b n k).anheAt n := by
  unfold adjustheap
  split
  · rename_i hlt
    by_cases hle : h.anheAt k ≤ h.anheAt (b.hparent k)
    · simp only [anheAt_read, hle, ↓reduceIte]
      exact upheap_spec (hs.read _) hs.hi ha (ha.under hlt hle)
    · simp only [anheAt_read, hle, ↓reduceIte]
      exact downheap_spec (hs.read _) ha fun _ => (not_le.mp hle).le
  · rename_i hnlt
    exact downheap_spec hs ha fun hlt => absurd hlt hnlt

theorem adjustheap_inside (hi : Inside b t h) (hn : n ≤ t) (hk : b.heap0 ≤ k) (hkn : k < b.heap0 + n) :
    Inside b t (h.adjustheap b n k) := by
  unfold adjustheap
  split
  · rename_i hlt
    have hp := b.heap0_le_hparent k hlt
    have hpk := b.hparent_lt k hlt
    have hread : Inside b t (h.read [k, b.hparent k]) := hi.read (by simp; omega)
    by_cases hle : h.anheAt k ≤ h.anheAt (b.hparent k)
    · simp only [anheAt_read, hle, ↓reduceIte]
      exact upheap_inside hread hk (by omega)
    · simp only [anheAt_read, hle, ↓reduceIte]
      exact downheap_inside hread hn hk hkn
  · exact downheap_inside hi hn hk hkn

/-- Whatever the order was, `reheap` makes it right. -/
theorem reheap_spec (hv : Valid b P A out n h) :
    Valid b P A out n (h.reheap b n) ∧ Lib.Ordered b.tree (h.reheap b n).anheAt n := by
  suffices ∀ i ≤ n, Valid b P A out n ((List.range i).foldl (fun h i => h.upheap b (i + b.heap0)) h) ∧
      Lib.Ordered b.tree ((List.range i).foldl (fun h i => h.upheap b (i + b.heap0)) h).anheAt i from
    this n (le_refl n)
  intro i hi
  induction i with
  | zero => exact ⟨hv, fun j hr hj => by have : b.heap0 < j := hr; have : j < b.heap0 + 0 := hj; omega⟩
  | succ i ih =>
    obtain ⟨hv', ho⟩ := ih (by omega)
    rw [List.range_succ, List.foldl_append]
    have hpush := ho.push (x := ((List.range i).foldl (fun h i => h.upheap b (i + b.heap0)) h).anheAt
      (i + b.heap0))
    rw [show b.tree.root = b.heap0 from rfl, Nat.add_comm b.heap0 i] at hpush
    exact upheap_spec (hv'.take (by omega) (by omega)) (by omega) hpush.1 hpush.2

theorem reheap_inside (hi : Inside b t h) (hn : n ≤ t) : Inside b t (h.reheap b n) := by
  suffices ∀ i ≤ n, Inside b t ((List.range i).foldl (fun h i => h.upheap b (i + b.heap0)) h) from
    this n (le_refl n)
  intro i hin
  induction i with
  | zero => exact hi
  | succ i ih =>
    rw [List.range_succ, List.foldl_append]
    exact upheap_inside (ih (by omega)) (by omega) (by omega)

end Heap

end

end Qev
