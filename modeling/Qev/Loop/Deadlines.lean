/-
# What timers and periodics share

A heap with the number of its entries and its watchers' `at`. The timers and the
periodics start, stop and move a watcher in theirs the same way; they differ in how
they come by the `at`.

`Ok A` says that the entries are the watchers `A`, each once, with `at` cached and in
order. Each operation says what it makes of `A`, and that it stays inside the entries
there were before and are after.
-/
import Qev.Loop.Heap

namespace Qev

/-- A heap, the number of its entries, and its watchers' `at`. -/
structure Deadlines (W T : Type) where
  heap : Heap W T
  cnt : ℕ
  wAt : W → T

section

variable {W T : Type} [DecidableEq W] [LinearOrder T]

namespace Deadlines

variable (b : Dheap) (d : Deadlines W T)

/-- `ev_active (w)`. -/
def active (w : W) : ℕ := d.heap.active w

def setAt (w : W) (t : T) : Deadlines W T := { d with wAt := Function.update d.wAt w t }

/-- A watcher that is not active is made the last entry, and moved up. -/
def start (w : W) : Deadlines W T :=
  let cnt := d.cnt + 1
  let active := cnt + b.heap0 - 1
  { d with cnt := cnt, heap := (d.heap.set active ⟨d.wAt w, w⟩).upheap b active }

/-- The last entry takes the place of an active watcher's. -/
def stop (w : W) : Deadlines W T :=
  let active := d.active w
  let cnt := d.cnt - 1
  let heap :=
    if active < cnt + b.heap0 then
      ((d.heap.read [cnt + b.heap0]).put active (d.heap.cells (cnt + b.heap0))).adjustheap b cnt active
    else d.heap
  { d with cnt := cnt, heap := { heap with active := Function.update heap.active w 0 } }

/-- `ANHE_at_cache (heap [k])`. -/
def atCache (k : ℕ) : Deadlines W T :=
  let e := d.heap.cells k
  { d with heap := (d.heap.read [k]).put k { e with anheAt := d.wAt e.anheW } }

def downheap (k : ℕ) : Deadlines W T := { d with heap := d.heap.downheap b d.cnt k }

def adjustheap (k : ℕ) : Deadlines W T := { d with heap := d.heap.adjustheap b d.cnt k }

def reheap : Deadlines W T := { d with heap := d.heap.reheap b d.cnt }

/-- `ANHE_at (heap [HEAP0])`. -/
def rootAt : T := d.heap.anheAt b.heap0

/-- `ANHE_w (heap [HEAP0])`. -/
def rootW : W := (d.heap.cells b.heap0).anheW

/-! ### Well-formed heaps -/

/-- The entry has its watcher's `at`. -/
def Cached (e : ANHE W T) : Prop := e.anheAt = d.wAt e.anheW

/-- As `Ok`, but in any order. -/
abbrev Linked (A : W → Prop) : Prop := Heap.Valid b d.Cached A ∅ d.cnt d.heap

/-- The entries are the watchers `A`, each once, with `at` cached and in order. -/
structure Ok (A : W → Prop) : Prop where
  linked : d.Linked b A
  order : Lib.Ordered b.tree d.heap.anheAt d.cnt

variable {b d} {A B : W → Prop} {w : W} {k : ℕ}

section

omit [DecidableEq W]

theorem Ok.congr (h : d.Ok b A) (hB : ∀ w, B w ↔ A w) : d.Ok b B :=
  ⟨⟨h.linked.links, h.linked.cells, fun w => (h.linked.act w).trans (hB w).symm⟩, h.order⟩

theorem Ok.self (h : d.Ok b A) : d.Ok b fun w => d.active w ≠ 0 := h.congr h.linked.act

theorem Ok.active_iff (h : d.Ok b A) (w : W) : d.active w ≠ 0 ↔ A w := h.linked.act w

end

section

omit [DecidableEq W] [LinearOrder T]

/-- The place of an active watcher. -/
theorem Linked.place (h : d.Linked b A) (hw : A w) :
    b.heap0 ≤ d.active w ∧ d.active w < b.heap0 + d.cnt ∧ (d.heap.cells (d.active w)).anheW = w :=
  h.links.held w (Set.notMem_empty w) ((h.act w).mpr hw)

/-- The watcher of an entry is active. -/
theorem Linked.entry (h : d.Linked b A) (hk : b.heap0 ≤ k) (hkn : k < b.heap0 + d.cnt) :
    A (d.heap.cells k).anheW := by
  have hpos := b.heap0_pos
  rw [← h.act, (h.links.back k hk hkn).1]
  omega

theorem Linked.root (h : d.Linked b A) (hcnt : d.cnt ≠ 0) : A (d.rootW b) ∧ d.rootAt b = d.wAt (d.rootW b) :=
  ⟨h.entry (le_refl _) (by omega), h.cells _ (le_refl _) (by omega)⟩

end

section

omit [DecidableEq W]

/-- The root is a minimum. -/
theorem Ok.root_le (h : d.Ok b A) (hw : A w) : d.rootAt b ≤ d.wAt w := by
  obtain ⟨hk, hkn, he⟩ := h.linked.place hw
  have hc : d.heap.anheAt (d.active w) = d.wAt w := (h.linked.cells _ hk hkn).trans (by rw [he])
  rw [← hc]
  exact h.order.le_of_root hk hkn

end

theorem Ok.setAt (h : d.Ok b A) (hw : ¬ A w) (t : T) : (d.setAt w t).Ok b A := by
  refine ⟨⟨h.linked.links, fun j hj hjn => ?_, h.linked.act⟩, h.order⟩
  have hne : (d.heap.cells j).anheW ≠ w := fun he => hw (he ▸ h.linked.entry hj hjn)
  show (d.heap.cells j).anheAt = Function.update d.wAt w t (d.heap.cells j).anheW
  rw [Function.update_of_ne hne]
  exact h.linked.cells j hj hjn

theorem Ok.start (h : d.Ok b A) (hw : ¬ A w) : (d.start b w).Ok b fun v => v = w ∨ A v := by
  have hpos := b.heap0_pos
  have hw0 : d.heap.active w = 0 := by
    by_contra hne
    exact hw ((h.linked.act w).mp hne)
  have hk : d.cnt + 1 + b.heap0 - 1 = b.heap0 + d.cnt := by omega
  have hlinks := (h.linked.links.push hw0 hpos).fill (e := (⟨d.wAt w, w⟩ : ANHE W T)) (Nat.le_add_right _ _)
    (by omega) (Set.notMem_empty w)
  have hv : Heap.Valid b d.Cached (fun v => v = w ∨ A v) ∅ (d.cnt + 1)
      (d.heap.set (b.heap0 + d.cnt) ⟨d.wAt w, w⟩) := by
    refine ⟨hlinks, fun j hj hjn => ?_, fun v => ?_⟩
    · by_cases hjk : j = b.heap0 + d.cnt
      · simp [Heap.set, hjk, Cached]
      · simpa [Heap.set, hjk] using h.linked.cells j hj (by omega)
    · by_cases hv : v = w
      · subst hv
        simp only [Heap.set, Function.update_self, true_or, iff_true]
        omega
      · simpa [Heap.set, hv] using h.linked.act v
  have ho : Lib.Ordered b.tree (d.heap.set (b.heap0 + d.cnt) ⟨d.wAt w, w⟩).anheAt d.cnt := by
    refine h.order.congr fun j _ hj => ?_
    rw [Heap.anheAt_set, Function.update_of_ne (ne_of_lt (show j < b.heap0 + d.cnt from hj))]
  obtain ⟨ha, hu⟩ := ho.push (x := (d.heap.set (b.heap0 + d.cnt) ⟨d.wAt w, w⟩).anheAt (b.heap0 + d.cnt))
  obtain ⟨hv', ho'⟩ := Heap.upheap_spec (hv.take (Nat.le_add_right _ _) (by omega)) (by omega) ha hu
  unfold Deadlines.start
  simp only [hk]
  exact ⟨hv', ho'⟩

theorem Ok.stop (h : d.Ok b A) (hw : A w) : (d.stop b w).Ok b fun v => v ≠ w ∧ A v := by
  obtain ⟨hk, hkn, he⟩ := h.linked.place hw
  obtain ⟨n, hn⟩ : ∃ n, d.cnt = n + 1 := ⟨d.cnt - 1, by omega⟩
  have hv : Heap.Valid b d.Cached A ∅ (n + 1) d.heap := hn ▸ h.linked
  have ho : Lib.Ordered b.tree d.heap.anheAt n := h.order.mono (by omega)
  unfold Deadlines.stop
  simp only [hn, Nat.add_sub_cancel, Nat.add_comm n b.heap0]
  by_cases hlt : d.active w < b.heap0 + n
  · simp only [hlt, ↓reduceIte]
    have hs := Heap.Valid.replace (h := d.heap.read [b.heap0 + n]) ⟨hv.links, hv.cells, hv.act⟩ hk hlt
    rw [show ((d.heap.read [b.heap0 + n]).cells (d.active w)).anheW = w from he] at hs
    generalize hh : (d.heap.read [b.heap0 + n]).put (d.active w) (d.heap.cells (b.heap0 + n)) = h₁
    have hcells : h₁.cells = Function.update d.heap.cells (d.active w) (d.heap.cells (b.heap0 + n)) := by
      rw [← hh]
      rfl
    have hs' : Heap.Sifting b d.Cached A {w} n (h₁.cells (d.active w)) h₁ (d.active w) := by
      rw [hcells, Function.update_self, ← hh]
      exact hs
    have ha : Lib.Around b.tree h₁.anheAt n (d.active w) :=
      ho.around fun j hj _ _ => by rw [Heap.anheAt, hcells, Function.update_of_ne hj, Heap.anheAt]
    obtain ⟨hv', ho'⟩ := Heap.adjustheap_spec hs' ha
    exact ⟨hv'.release, ho'⟩
  · simp only [hlt, ↓reduceIte]
    have hlast : d.active w = b.heap0 + n := by omega
    have hv' := hv.dropLast
    rw [← hlast, he] at hv'
    exact ⟨hv'.release, ho⟩

/-- The watcher of the entry at `k` gets the time `t`, and its entry caches it. -/
def retime (d : Deadlines W T) (k : ℕ) (t : T) : Deadlines W T := (d.setAt (d.heap.cells k).anheW t).atCache k

section

omit [LinearOrder T]

theorem cells_retime (d : Deadlines W T) (k : ℕ) (t : T) (j : ℕ) :
    (d.retime k t).heap.cells j = if j = k then ⟨t, (d.heap.cells k).anheW⟩ else d.heap.cells j := by
  by_cases hjk : j = k
  · simp [retime, atCache, setAt, Heap.put, hjk]
  · simp [retime, atCache, setAt, Heap.put, Heap.read, hjk]

theorem anheW_retime (d : Deadlines W T) (k : ℕ) (t : T) (j : ℕ) :
    ((d.retime k t).heap.cells j).anheW = (d.heap.cells j).anheW := by
  rw [cells_retime]
  split
  · rename_i h
    rw [h]
  · rfl

theorem Linked.retime_active (h : d.Linked b A) (hw : A w) (t : T) :
    (d.setAt w t).atCache (d.active w) = d.retime (d.active w) t := by
  unfold Deadlines.retime
  rw [(h.place hw).2.2]

/-- Whatever the new `at` of the watcher at `k`, the other entries are as they were. -/
theorem Linked.retime (h : d.Linked b A) (hk : b.heap0 ≤ k) (hkn : k < b.heap0 + d.cnt) (t : T) :
    (d.retime k t).Linked b A := by
  refine ⟨⟨fun j hj hjn => ?_, fun w hw hp => ?_⟩, fun j hj hjn => ?_, h.act⟩
  · rw [anheW_retime]
    exact h.links.back j hj hjn
  · rw [anheW_retime]
    exact h.links.held w hw hp
  · show ((d.retime k t).heap.cells j).anheAt = Function.update d.wAt _ t ((d.retime k t).heap.cells j).anheW
    rw [cells_retime]
    by_cases hjk : j = k
    · rw [if_pos hjk, Function.update_self]
    · have hne : (d.heap.cells j).anheW ≠ (d.heap.cells k).anheW :=
        fun he => hjk (h.links.inj hj hjn hk hkn he)
      rw [if_neg hjk, Function.update_of_ne hne]
      exact h.cells j hj hjn

theorem anheAt_retime (d : Deadlines W T) (k : ℕ) (t : T) :
    (d.retime k t).heap.anheAt = Function.update d.heap.anheAt k t := by
  funext j
  unfold Heap.anheAt
  rw [cells_retime, Function.update_apply]
  split <;> rfl

end

theorem Ok.retime_around (h : d.Ok b A) (t : T) :
    Lib.Around b.tree (d.retime k t).heap.anheAt d.cnt k :=
  h.order.around fun j hj _ _ => by rw [anheAt_retime, Function.update_of_ne hj]

/-- The root's `at` is changed, and the root goes where it belongs. -/
theorem Ok.sink (h : d.Ok b A) (hcnt : d.cnt ≠ 0) (t : T) :
    ((d.retime b.heap0 t).downheap b b.heap0).Ok b A := by
  have hkn : b.heap0 < b.heap0 + d.cnt := by omega
  have hl := h.linked.retime (le_refl _) hkn t
  obtain ⟨hv, ho⟩ := Heap.downheap_spec (hl.take (le_refl _) hkn) (h.retime_around t)
    fun hlt => absurd hlt (lt_irrefl _)
  exact ⟨hv, ho⟩

/-- As `sink`, for any active watcher. -/
theorem Ok.adjust (h : d.Ok b A) (hw : A w) (t : T) :
    ((d.retime (d.active w) t).adjustheap b (d.active w)).Ok b A := by
  obtain ⟨hk, hkn, -⟩ := h.linked.place hw
  have hl := h.linked.retime hk hkn t
  obtain ⟨hv, ho⟩ := Heap.adjustheap_spec (hl.take hk hkn) (h.retime_around t)
  exact ⟨hv, ho⟩

theorem Linked.reheap (h : d.Linked b A) : (d.reheap b).Ok b A := by
  obtain ⟨hv, ho⟩ := Heap.reheap_spec h
  exact ⟨hv, ho⟩

/-! ### Where they look -/

variable {t : ℕ} {x : T}

theorem start_inside (hi : d.heap.Inside b t) (hn : d.cnt < t) : (d.start b w).heap.Inside b t := by
  have hpos := b.heap0_pos
  have hk : d.cnt + 1 + b.heap0 - 1 = b.heap0 + d.cnt := by omega
  unfold start
  simp only [hk]
  have hin := hi.set (Nat.le_add_right b.heap0 d.cnt) (by omega) ⟨d.wAt w, w⟩
  exact Heap.upheap_inside hin (Nat.le_add_right _ _) (by omega)

theorem Linked.stop_inside (h : d.Linked b A) (hw : A w) (hi : d.heap.Inside b t) (hn : d.cnt ≤ t) :
    (d.stop b w).heap.Inside b t := by
  obtain ⟨hk, hkn, -⟩ := h.place hw
  unfold stop
  simp only
  split
  · have hr : (d.heap.read [d.cnt - 1 + b.heap0]).Inside b t := hi.read (by simp; omega)
    exact Heap.adjustheap_inside (hr.put hk (by omega) _) (by omega) hk (by omega)
  · exact hi

theorem retime_inside (hi : d.heap.Inside b t) (hk : b.heap0 ≤ k) (hkt : k < b.heap0 + t) :
    (d.retime k x).heap.Inside b t :=
  (hi.read (by simpa using ⟨hk, hkt⟩)).put hk hkt _

theorem sink_inside (hi : d.heap.Inside b t) (hcnt : d.cnt ≠ 0) (hn : d.cnt ≤ t) :
    ((d.retime b.heap0 x).downheap b b.heap0).heap.Inside b t :=
  Heap.downheap_inside (retime_inside hi (le_refl _) (by omega)) hn (le_refl _)
    (show b.heap0 < b.heap0 + d.cnt by omega)

theorem Linked.adjust_inside (h : d.Linked b A) (hw : A w) (hi : d.heap.Inside b t) (hn : d.cnt ≤ t) :
    ((d.retime (d.active w) x).adjustheap b (d.active w)).heap.Inside b t := by
  obtain ⟨hk, hkn, -⟩ := h.place hw
  exact Heap.adjustheap_inside (retime_inside hi hk (by omega)) hn hk hkn

theorem reheap_inside (hi : d.heap.Inside b t) (hn : d.cnt ≤ t) : (d.reheap b).heap.Inside b t :=
  Heap.reheap_inside hi hn

/-! ### Both at once -/

/-- Well formed, with nothing touched outside the first `t` entries. -/
structure Good (b : Dheap) (t : ℕ) (d : Deadlines W T) : Prop where
  ok : d.Ok b fun w => d.active w ≠ 0
  inside : d.heap.Inside b t
  cnt : d.cnt ≤ t

theorem Good.setAt (h : d.Good b t) (hw : d.active w = 0) (x : T) : (d.setAt w x).Good b t :=
  ⟨h.ok.setAt (not_not.mpr hw) x, h.inside, h.cnt⟩

theorem Good.start (h : d.Good b t) (hw : d.active w = 0) (ht : d.cnt < t) : (d.start b w).Good b t :=
  ⟨(h.ok.start (not_not.mpr hw)).self, start_inside h.inside ht, ht⟩

theorem Good.stop (h : d.Good b t) (hw : d.active w ≠ 0) : (d.stop b w).Good b t :=
  ⟨(h.ok.stop hw).self, h.ok.linked.stop_inside hw h.inside h.cnt, (Nat.sub_le _ _).trans h.cnt⟩

theorem active_stop (d : Deadlines W T) (w : W) : (d.stop b w).active w = 0 := Function.update_self ..

/-- The root gets the time `x` and goes where it belongs. -/
theorem Good.sink (h : d.Good b t) (hcnt : d.cnt ≠ 0) (x : T) :
    (((d.setAt (d.rootW b) x).atCache b.heap0).downheap b b.heap0).Good b t :=
  ⟨(h.ok.sink hcnt x).self, sink_inside h.inside hcnt h.cnt, h.cnt⟩

/-- As `sink`, for any active watcher. -/
theorem Good.adjust (h : d.Good b t) (hw : d.active w ≠ 0) (x : T) :
    (((d.setAt w x).atCache (d.active w)).adjustheap b (d.active w)).Good b t := by
  rw [h.ok.linked.retime_active hw x]
  exact ⟨(h.ok.adjust hw x).self, h.ok.linked.adjust_inside hw h.inside h.cnt, h.cnt⟩

/-! ### A pass over all entries -/

/-- The watchers of the first `n` entries have got other times, by `out` from those they had; the rest have not. -/
structure Retimed (b : Dheap) (out : W → T → T → Prop) (d : Deadlines W T) (n : ℕ) (d' : Deadlines W T) : Prop where
  linked : d'.Linked b fun w => d.active w ≠ 0
  cnt : d'.cnt = d.cnt
  active : d'.active = d.active
  moved : ∀ w, d.active w ≠ 0 → d.active w < b.heap0 + n → out w (d.wAt w) (d'.wAt w)
  rest : ∀ w, d.active w ≠ 0 → b.heap0 + n ≤ d.active w → d'.wAt w = d.wAt w

section

omit [DecidableEq W]

theorem Good.retimed_none (h : d.Good b t) (out : W → T → T → Prop) : Retimed b out d 0 d :=
  ⟨h.ok.linked, rfl, rfl, fun _ hw hlt => absurd (h.ok.linked.place hw).1 (not_le.mpr hlt), fun _ _ _ => rfl⟩

end

section

omit [LinearOrder T]

/-- One entry more. -/
theorem Retimed.step {out : W → T → T → Prop} {d' : Deadlines W T} {n : ℕ} (h : Retimed b out d n d') (hn : n < d.cnt)
    (hw : w = (d'.heap.cells (n + b.heap0)).anheW) (hx : out w (d'.wAt w) x) :
    Retimed b out d (n + 1) (d'.retime (n + b.heap0) x) := by
  have hk : b.heap0 ≤ n + b.heap0 := by omega
  have hkn : n + b.heap0 < b.heap0 + d'.cnt := by
    rw [h.cnt]
    omega
  have hback : d'.active w = n + b.heap0 := hw ▸ (h.linked.links.back _ hk hkn).1
  have hact : d.active w ≠ 0 := hw ▸ h.linked.entry hk hkn
  have hat : (d'.retime (n + b.heap0) x).wAt = Function.update d'.wAt w x := by
    rw [hw]
    rfl
  rw [h.active] at hback
  rw [h.rest w hact (by omega)] at hx
  refine ⟨h.linked.retime hk hkn x, h.cnt, h.active, fun v hv hlt => ?_, fun v hv hle => ?_⟩
  · rw [hat]
    by_cases hvw : v = w
    · rw [hvw, Function.update_self]
      exact hx
    · -- another entry's watcher, so one of the first `n`
      have hne : d.active v ≠ n + b.heap0 := by
        intro hc
        rw [← h.active] at hc
        exact hvw (by rw [hw, ← hc, (h.linked.place hv).2.2])
      rw [Function.update_of_ne hvw]
      exact h.moved v hv (by omega)
  · have hvw : v ≠ w := by
      rintro rfl
      omega
    rw [hat, Function.update_of_ne hvw]
    exact h.rest v hv (by omega)

end

section

omit [DecidableEq W] [LinearOrder T]

/-- All of them. -/
theorem Retimed.all {out : W → T → T → Prop} {d' : Deadlines W T} (h : Retimed b out d d.cnt d') (hw : d.active w ≠ 0) :
    out w (d.wAt w) (d'.wAt w) := by
  refine h.moved w hw ?_
  rw [← h.cnt, ← h.active]
  exact (h.linked.place hw).2.1

end

/-! ### The watchers that are late -/

/-- The active watchers with an `at` before `now`. -/
def late (d : Deadlines W T) (now : T) : Set W := {w | d.active w ≠ 0 ∧ d.wAt w < now}

variable {now : T}

section

omit [DecidableEq W]

theorem Good.late_sub (h : d.Good b t) (now : T) :
    d.late now ⊆ (fun j => (d.heap.cells j).anheW) '' (Finset.Ico b.heap0 (b.heap0 + d.cnt) : Set ℕ) := by
  rintro w ⟨hw, -⟩
  obtain ⟨hk, hkn, he⟩ := h.ok.linked.place hw
  exact ⟨d.active w, Finset.mem_coe.mpr (Finset.mem_Ico.mpr ⟨hk, hkn⟩), he⟩

theorem Good.late_finite (h : d.Good b t) (now : T) : (d.late now).Finite :=
  ((Finset.finite_toSet _).image _).subset (h.late_sub now)

theorem Good.late_ncard (h : d.Good b t) (now : T) : (d.late now).ncard ≤ d.cnt := by
  refine (Set.ncard_le_ncard (h.late_sub now) ((Finset.finite_toSet _).image _)).trans ?_
  refine (Set.ncard_image_le (Finset.finite_toSet _)).trans ?_
  rw [Set.ncard_coe_finset, Nat.card_Ico]
  omega

/-- When the root is due, its watcher is late. -/
theorem Good.root_late (h : d.Good b t) (hcnt : d.cnt ≠ 0) (hdue : d.rootAt b < now) :
    d.rootW b ∈ d.late now := by
  obtain ⟨hA, he⟩ := h.ok.linked.root hcnt
  exact ⟨hA, he ▸ hdue⟩

end

theorem Good.late_sink (h : d.Good b t) (hcnt : d.cnt ≠ 0) {x : T} (hx : now ≤ x) :
    (((d.setAt (d.rootW b) x).atCache b.heap0).downheap b b.heap0).late now ⊆ d.late now \ {d.rootW b} := by
  rintro w ⟨hw, hlt⟩
  have hact := (h.ok.sink hcnt x).active_iff w
  replace hlt : Function.update d.wAt (d.rootW b) x w < now := hlt
  by_cases he : w = d.rootW b
  · rw [he, Function.update_self] at hlt
    exact absurd hlt (not_lt.mpr hx)
  · rw [Function.update_of_ne he] at hlt
    exact ⟨⟨hact.mp hw, hlt⟩, he⟩

theorem Good.late_stop (h : d.Good b t) (hw : d.active w ≠ 0) (x : T) :
    ((d.stop b w).setAt w x).late now ⊆ d.late now \ {w} := by
  rintro v ⟨hv, hlt⟩
  obtain ⟨hne, hv'⟩ := ((h.ok.stop hw).active_iff v).mp hv
  replace hlt : Function.update d.wAt w x v < now := hlt
  rw [Function.update_of_ne hne] at hlt
  exact ⟨⟨hv', hlt⟩, hne⟩

section

omit [DecidableEq W]

/-- A step that only takes the late `w` out leaves fewer late ones. -/
theorem Good.late_lt {d' : Deadlines W T} (h : d.Good b t) (hw : w ∈ d.late now)
    (hsub : d'.late now ⊆ d.late now \ {w}) : (d'.late now).ncard < (d.late now).ncard :=
  Set.ncard_lt_ncard ⟨hsub.trans Set.sdiff_subset, fun hc => (hsub (hc hw)).2 rfl⟩ (h.late_finite now)

end

end Deadlines

end

end Qev
