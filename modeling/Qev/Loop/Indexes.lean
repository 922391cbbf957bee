/-
# Index arrays

Idle, prepare, check, fork, cleanup and async watchers are kept in arrays, idle watchers in one for each priority,
and `active` is a watcher's place in its array, counted from 1. A stop puts the last entry of the array into the place of
the watcher, tells that entry its place, also if it is the watcher itself, and only then makes the watcher inactive.

In every run of starts and stops, and of changes of the priorities of watchers that are not active, the arrays and
the places agree (`index_arrays`).
-/
import Qev.Loop.WalkRun

namespace Qev

open Lib

namespace Loop

variable {U T K : Type} [DecidableEq U] [LinearOrder T] [Add T] [Sub T] [Zero T]

section

variable (l : Loop U T K)

def evCleanupStart (w : U) : Loop U T K :=
  if l.cleanups.active w ≠ 0 then l
  else
    let l := l.evStart (.cleanup w)
    let l := { l with cleanups := l.cleanups.start 0 w }
    -- cleanup watchers should never keep a refcount on the loop
    l.evUnref

def evCleanupStop (w : U) : Loop U T K :=
  let l := l.clearPending (.cleanup w)
  if l.cleanups.active w = 0 then l
  else
    let l := l.evRef
    let l := { l with cleanups := l.cleanups.stop 0 w }
    l.evStop

end

end Loop

namespace Slots

variable {W : Type} [DecidableEq W] {s : Slots W} {key : W → ℕ} {w v : W}

/-- Every entry is the watcher whose place it is, no watcher has two, and every active one is in the array of its
key. -/
structure Indexed (s : Slots W) (key : W → ℕ) : Prop where
  index : ∀ pri i, i < s.cnt pri → s.active (s.cells pri i) = i + 1
  distinct : ∀ pri i, i < s.cnt pri → ∀ pri' i', i' < s.cnt pri' →
    s.cells pri i = s.cells pri' i' → pri = pri' ∧ i = i'
  once : ∀ w, s.active w ≠ 0 → ∃! i, i < s.cnt (key w) ∧ s.cells (key w) i = w

section

omit [DecidableEq W]

theorem Filed.indexed (h : s.Filed key) : s.Indexed key := by
  have hdistinct : ∀ pri i, i < s.cnt pri → ∀ pri' i', i' < s.cnt pri' →
      s.cells pri i = s.cells pri' i' → pri = pri' ∧ i = i' := by
    intro pri i hi pri' i' hi' he
    obtain ⟨hk, ha⟩ := h.cell pri i hi
    obtain ⟨hk', ha'⟩ := h.cell pri' i' hi'
    rw [he] at hk ha
    exact ⟨hk.symm.trans hk', by omega⟩
  refine ⟨fun pri i hi => (h.cell pri i hi).2, hdistinct, fun w hw => ?_⟩
  obtain ⟨hle, hc⟩ := h.active w hw
  refine ⟨s.active w - 1, ⟨by omega, hc⟩, fun i hi => ?_⟩
  exact (hdistinct _ _ hi.1 _ _ (by omega) (hi.2.trans hc.symm)).2

end

/-- The others stay active, also the one that is moved. -/
theorem Filed.active_stop_iff (h : s.Filed key) (hw : s.active w ≠ 0) (hv : v ≠ w) :
    (s.stop (key w) w).active v ≠ 0 ↔ s.active v ≠ 0 := by
  rw [h.active_stop hw, if_neg hv]
  split
  · rename_i hlast
    obtain ⟨hle, -⟩ := h.active w hw
    exact iff_of_true hw (by omega)
  · exact Iff.rfl

/-- A sum of counts when one of them changes. -/
theorem sum_update (cnt : ℕ → ℕ) {pri n : ℕ} (hpri : pri < n) (k : ℕ) :
    ∑ q ∈ Finset.range n, Function.update cnt pri k q + cnt pri = ∑ q ∈ Finset.range n, cnt q + k := by
  have hmem := Finset.mem_range.mpr hpri
  rw [Finset.sum_update_of_mem hmem, ← Finset.add_sum_erase _ cnt hmem, Finset.sdiff_singleton_eq_erase]
  ring

theorem sum_start (s : Slots W) (w : W) {pri n : ℕ} (hpri : pri < n) :
    ∑ q ∈ Finset.range n, (s.start pri w).cnt q = ∑ q ∈ Finset.range n, s.cnt q + 1 := by
  have h : ∑ q ∈ Finset.range n, (s.start pri w).cnt q + s.cnt pri =
      ∑ q ∈ Finset.range n, s.cnt q + (s.cnt pri + 1) := sum_update s.cnt hpri _
  omega

theorem Filed.sum_stop (h : s.Filed key) (hw : s.active w ≠ 0) {n : ℕ} (hpri : key w < n) :
    ∑ q ∈ Finset.range n, (s.stop (key w) w).cnt q = ∑ q ∈ Finset.range n, s.cnt q - 1 := by
  obtain ⟨hle, -⟩ := h.active w hw
  have hsum : ∑ q ∈ Finset.range n, (s.stop (key w) w).cnt q + s.cnt (key w) =
      ∑ q ∈ Finset.range n, s.cnt q + (s.cnt (key w) - 1) := sum_update s.cnt hpri _
  omega

end Slots

namespace Indexes

variable {U T K : Type} [DecidableEq U] [LinearOrder T] [Add T] [Sub T] [Zero T]

/-! ### Runs -/

/-- The starts and stops, and what else may happen to the queues and the priorities. -/
inductive Act (U : Type)
  | evSetPriority (w : Watcher U) (pri : ℤ)
  | queues (p : Pend (Watcher U))
  | evIdleStart (w : U)
  | evIdleStop (w : U)
  | evPrepareStart (w : PrepareW U)
  | evPrepareStop (w : PrepareW U)
  | evCheckStart (w : U)
  | evCheckStop (w : U)
  | evForkStart (w : ForkW U)
  | evForkStop (w : ForkW U)
  | evCleanupStart (w : U)
  | evCleanupStop (w : U)
  | evAsyncStart (evpipe : ℕ) (w : U)
  | evAsyncStop (w : U)

/-- A priority is set while the watcher is not active. -/
def step (l : Loop U T K) : Act U → Option (Loop U T K)
  | .evSetPriority w pri => if l.active w = 0 then some (l.evSetPriority w pri) else none
  | .queues p => some { l with pend := { p with priority := l.pend.priority } }
  | .evIdleStart w => some (l.evIdleStart w)
  | .evIdleStop w => some (l.evIdleStop w)
  | .evPrepareStart w => some (l.evPrepareStart w)
  | .evPrepareStop w => some (l.evPrepareStop w)
  | .evCheckStart w => some (l.evCheckStart w)
  | .evCheckStop w => some (l.evCheckStop w)
  | .evForkStart w => some (l.evForkStart w)
  | .evForkStop w => some (l.evForkStop w)
  | .evCleanupStart w => some (l.evCleanupStart w)
  | .evCleanupStop w => some (l.evCleanupStop w)
  | .evAsyncStart evpipe w => some (l.evAsyncStart evpipe w)
  | .evAsyncStop w => some (l.evAsyncStop w)

abbrev Runs (l : Loop U T K) (acts : List (Act U)) (m : Loop U T K) : Prop :=
  Run (fun l a m => step l a = some m) l acts m

/-- The watcher that is stopped. -/
def stopped : Act U → Option (Watcher U)
  | .evIdleStop w => some (.idle w)
  | .evPrepareStop w => some (.prepare w)
  | .evCheckStop w => some (.check w)
  | .evForkStop w => some (.fork w)
  | .evCleanupStop w => some (.cleanup w)
  | .evAsyncStop w => some (.async w)
  | _ => none

/-! ### The invariant -/

structure Inv (e : Env U T) (l : Loop U T K) : Prop where
  arranged : Loop.Arranged e l
  cleanups : l.cleanups.Filed fun _ => 0
  idleall : l.idleall = ∑ pri ∈ Finset.range numpri, l.idles.cnt pri

section

variable {e : Env U T} {l m : Loop U T K} {w : U}

theorem inv_init [Inhabited U] (backend : Backend) (noinotify signalfd notimerfd : Bool) (kernel : K) :
    Inv e (Loop.init backend noinotify signalfd notimerfd kernel) :=
  ⟨Loop.arranged_init .., ⟨fun _ _ hi => absurd hi (Nat.not_lt_zero _), fun _ hw => absurd rfl hw⟩,
    Finset.sum_const_zero.symm⟩

/-- What is not in `Arrays` of it. -/
def counts (l : Loop U T K) : Slots U × Slots U × ℕ := (l.cleanups, l.idles, l.idleall)

section

omit [DecidableEq U] [Add T] [Sub T] [Zero T]

theorem Inv.of (h : Inv e l) (hm : Loop.Arranged e m) (hc : counts m = counts l) : Inv e m := by
  simp only [counts, Prod.mk.injEq] at hc
  obtain ⟨hcleanups, hidles, hall⟩ := hc
  refine ⟨hm, hcleanups ▸ h.cleanups, ?_⟩
  rw [hall, hidles]
  exact h.idleall

theorem Inv.abspri_lt (h : Inv e l) (hw : l.idles.active w ≠ 0) : l.pend.abspri (.idle w) < numpri := by
  have hr := h.arranged.arrays.range w hw
  unfold Pend.abspri numpri
  unfold minpri maxpri at *
  dsimp only [Loop.arrays] at hr
  omega

end

theorem Inv.clearPending (h : Inv e l) (w : Watcher U) : Inv e (l.clearPending w) :=
  h.of (h.arranged.clearPending w) rfl

theorem Inv.evIdleStart (h : Inv e l) (w : U) : Inv e (l.evIdleStart w) := by
  refine ⟨h.arranged.evIdleStart w, ?_, ?_⟩
  · unfold Loop.evIdleStart
    split
    · exact h.cleanups
    · exact h.cleanups
  · unfold Loop.evIdleStart
    split
    · exact h.idleall
    · have hclamped := l.pend.clamped_priAdjust (.idle w)
      have hpri : (l.pend.priAdjust (.idle w)).abspri (.idle w) < numpri := by
        unfold Pend.abspri numpri
        unfold minpri maxpri at *
        omega
      exact (congrArg (· + 1) h.idleall).trans (Slots.sum_start l.idles w hpri).symm

theorem Inv.evIdleStop (h : Inv e l) (w : U) : Inv e (l.evIdleStop w) := by
  have hc := h.clearPending (.idle w)
  refine ⟨h.arranged.evIdleStop w, ?_, ?_⟩
  · unfold Loop.evIdleStop
    dsimp only
    split
    · exact hc.cleanups
    · exact hc.cleanups
  · unfold Loop.evIdleStop
    dsimp only
    split
    · exact hc.idleall
    · rename_i hw
      have hsum := hc.arranged.arrays.idles.sum_stop hw (hc.abspri_lt hw)
      exact (congrArg (· - 1) hc.idleall).trans hsum.symm

section

omit [LinearOrder T] [Add T] [Sub T] [Zero T]

theorem counts_evPrepareStart (l : Loop U T K) (w : PrepareW U) : counts (l.evPrepareStart w) = counts l := by
  unfold Loop.evPrepareStart
  split
  · rfl
  · rfl

theorem counts_evPrepareStop (l : Loop U T K) (w : PrepareW U) : counts (l.evPrepareStop w) = counts l := by
  unfold Loop.evPrepareStop
  dsimp only
  split
  · rfl
  · rfl

theorem counts_evCheckStart (l : Loop U T K) (w : U) : counts (l.evCheckStart w) = counts l := by
  unfold Loop.evCheckStart
  split
  · rfl
  · rfl

theorem counts_evCheckStop (l : Loop U T K) (w : U) : counts (l.evCheckStop w) = counts l := by
  unfold Loop.evCheckStop
  dsimp only
  split
  · rfl
  · rfl

theorem counts_evForkStart (l : Loop U T K) (w : ForkW U) : counts (l.evForkStart w) = counts l := by
  unfold Loop.evForkStart
  split
  · rfl
  · rfl

theorem counts_evForkStop (l : Loop U T K) (w : ForkW U) : counts (l.evForkStop w) = counts l := by
  unfold Loop.evForkStop
  dsimp only
  split
  · rfl
  · rfl

theorem counts_evpipeInit (l : Loop U T K) (fd : ℕ) : counts (l.evpipeInit fd) = counts l := by
  unfold Loop.evpipeInit
  split
  · rfl
  · unfold Loop.evIoStart
    split
    · rfl
    · rfl

theorem counts_evAsyncStart (l : Loop U T K) (evpipe : ℕ) (w : U) : counts (l.evAsyncStart evpipe w) = counts l := by
  unfold Loop.evAsyncStart
  split
  · rfl
  · exact counts_evpipeInit l evpipe

theorem counts_evAsyncStop (l : Loop U T K) (w : U) : counts (l.evAsyncStop w) = counts l := by
  unfold Loop.evAsyncStop
  dsimp only
  split
  · rfl
  · rfl

end

theorem Inv.evCleanupStart (h : Inv e l) (w : U) : Inv e (l.evCleanupStart w) := by
  unfold Loop.evCleanupStart
  split
  · exact h
  · rename_i hw
    have hs := h.of (h.arranged.evStart (w := .cleanup w) rfl) rfl
    exact ⟨hs.arranged.congr hs.arranged.heaps rfl, hs.cleanups.start (not_not.mp hw), hs.idleall⟩

theorem Inv.evCleanupStop (h : Inv e l) (w : U) : Inv e (l.evCleanupStop w) := by
  have hc := h.clearPending (.cleanup w)
  unfold Loop.evCleanupStop
  dsimp only
  split
  · exact hc
  · rename_i hw
    exact ⟨hc.arranged.congr hc.arranged.heaps rfl, hc.cleanups.stop hw, hc.idleall⟩

theorem inv_step (h : Inv e l) {a : Act U} (hs : step l a = some m) : Inv e m := by
  cases a with
  | evSetPriority w pri =>
    simp only [step, Option.ite_none_right_eq_some] at hs
    obtain ⟨hidle, hs⟩ := hs
    cases hs
    refine h.of (h.arranged.priority fun u hu => ?_) rfl
    refine Function.update_of_ne (fun hc => hu ?_) ..
    rw [← hc] at hidle
    exact hidle
  | queues p =>
    cases hs
    exact h.of (h.arranged.priority fun _ _ => rfl) rfl
  | evIdleStart w =>
    cases hs
    exact h.evIdleStart w
  | evIdleStop w =>
    cases hs
    exact h.evIdleStop w
  | evPrepareStart w =>
    cases hs
    exact h.of (h.arranged.evPrepareStart w) (counts_evPrepareStart l w)
  | evPrepareStop w =>
    cases hs
    exact h.of (h.arranged.evPrepareStop w) (counts_evPrepareStop l w)
  | evCheckStart w =>
    cases hs
    exact h.of (h.arranged.evCheckStart w) (counts_evCheckStart l w)
  | evCheckStop w =>
    cases hs
    exact h.of (h.arranged.evCheckStop w) (counts_evCheckStop l w)
  | evForkStart w =>
    cases hs
    exact h.of (h.arranged.evForkStart w) (counts_evForkStart l w)
  | evForkStop w =>
    cases hs
    exact h.of (h.arranged.evForkStop w) (counts_evForkStop l w)
  | evCleanupStart w =>
    cases hs
    exact h.evCleanupStart w
  | evCleanupStop w =>
    cases hs
    exact h.evCleanupStop w
  | evAsyncStart evpipe w =>
    cases hs
    exact h.of (h.arranged.evAsyncStart evpipe w) (counts_evAsyncStart l evpipe w)
  | evAsyncStop w =>
    cases hs
    exact h.of (h.arranged.evAsyncStop w) (counts_evAsyncStop l w)

theorem inv_run {acts : List (Act U)} (h : Inv e l) (hr : Runs l acts m) : Inv e m :=
  hr.invariant (fun _ _ _ hi hs => inv_step hi hs) h

/-! ### A stop leaves the others active -/

section

omit [DecidableEq U] [LinearOrder T] [Add T] [Sub T] [Zero T]

/-- A stop of a watcher of the family `f`, whose array is `s`. -/
theorem stop_others {W : Type} [DecidableEq W] {s : Slots W} {key : W → ℕ} {w : W} {f : W → Watcher U}
    (h : s.Filed key) (hin : ∀ u, l.active (f u) = s.active u)
    (hm : s.active w = 0 ∧ (∀ v, m.active v = l.active v) ∨
      s.active w ≠ 0 ∧ (∀ u, m.active (f u) = (s.stop (key w) w).active u) ∧
        ∀ v, (∀ u, v ≠ f u) → m.active v = l.active v) :
    m.active (f w) = 0 ∧ ∀ v, v ≠ f w → (m.active v ≠ 0 ↔ l.active v ≠ 0) := by
  obtain ⟨hw, hsame⟩ | ⟨hw, hout, hother⟩ := hm
  · refine ⟨?_, fun v _ => by rw [hsame]⟩
    rw [hsame, hin]
    exact hw
  · refine ⟨?_, fun v hv => ?_⟩
    · rw [hout, h.active_stop hw, if_pos rfl]
    · by_cases hf : ∃ u, v = f u
      · obtain ⟨u, rfl⟩ := hf
        rw [hin, hout]
        exact h.active_stop_iff hw fun hc => hv (congrArg f hc)
      · rw [hother v fun u hc => hf ⟨u, hc⟩]

end

theorem others_evIdleStop (h : Inv e l) (w : U) :
    (l.evIdleStop w).active (.idle w) = 0 ∧
      ∀ v, v ≠ .idle w → ((l.evIdleStop w).active v ≠ 0 ↔ l.active v ≠ 0) := by
  have hc := h.clearPending (.idle w)
  refine stop_others hc.arranged.arrays.idles (fun _ => rfl) ?_
  unfold Loop.evIdleStop
  dsimp only
  split
  · rename_i hw
    exact .inl ⟨hw, fun _ => rfl⟩
  · rename_i hw
    refine .inr ⟨hw, fun _ => rfl, fun v hv => ?_⟩
    cases v with
    | idle u => exact absurd rfl (hv u)
    | _ => rfl

theorem others_evPrepareStop (h : Inv e l) (w : PrepareW U) :
    (l.evPrepareStop w).active (.prepare w) = 0 ∧
      ∀ v, v ≠ .prepare w → ((l.evPrepareStop w).active v ≠ 0 ↔ l.active v ≠ 0) := by
  have hc := h.clearPending (.prepare w)
  refine stop_others hc.arranged.arrays.prepares (fun _ => rfl) ?_
  unfold Loop.evPrepareStop
  dsimp only
  split
  · rename_i hw
    exact .inl ⟨hw, fun _ => rfl⟩
  · rename_i hw
    refine .inr ⟨hw, fun _ => rfl, fun v hv => ?_⟩
    cases v with
    | prepare u => exact absurd rfl (hv u)
    | _ => rfl

theorem others_evCheckStop (h : Inv e l) (w : U) :
    (l.evCheckStop w).active (.check w) = 0 ∧
      ∀ v, v ≠ .check w → ((l.evCheckStop w).active v ≠ 0 ↔ l.active v ≠ 0) := by
  have hc := h.clearPending (.check w)
  refine stop_others hc.arranged.arrays.checks (fun _ => rfl) ?_
  unfold Loop.evCheckStop
  dsimp only
  split
  · rename_i hw
    exact .inl ⟨hw, fun _ => rfl⟩
  · rename_i hw
    refine .inr ⟨hw, fun _ => rfl, fun v hv => ?_⟩
    cases v with
    | check u => exact absurd rfl (hv u)
    | _ => rfl

theorem others_evForkStop (h : Inv e l) (w : ForkW U) :
    (l.evForkStop w).active (.fork w) = 0 ∧
      ∀ v, v ≠ .fork w → ((l.evForkStop w).active v ≠ 0 ↔ l.active v ≠ 0) := by
  have hc := h.clearPending (.fork w)
  refine stop_others hc.arranged.arrays.forks (fun _ => rfl) ?_
  unfold Loop.evForkStop
  dsimp only
  split
  · rename_i hw
    exact .inl ⟨hw, fun _ => rfl⟩
  · rename_i hw
    refine .inr ⟨hw, fun _ => rfl, fun v hv => ?_⟩
    cases v with
    | fork u => exact absurd rfl (hv u)
    | _ => rfl

theorem others_evCleanupStop (h : Inv e l) (w : U) :
    (l.evCleanupStop w).active (.cleanup w) = 0 ∧
      ∀ v, v ≠ .cleanup w → ((l.evCleanupStop w).active v ≠ 0 ↔ l.active v ≠ 0) := by
  have hc := h.clearPending (.cleanup w)
  refine stop_others hc.cleanups (fun _ => rfl) ?_
  unfold Loop.evCleanupStop
  dsimp only
  split
  · rename_i hw
    exact .inl ⟨hw, fun _ => rfl⟩
  · rename_i hw
    refine .inr ⟨hw, fun _ => rfl, fun v hv => ?_⟩
    cases v with
    | cleanup u => exact absurd rfl (hv u)
    | _ => rfl

theorem others_evAsyncStop (h : Inv e l) (w : U) :
    (l.evAsyncStop w).active (.async w) = 0 ∧
      ∀ v, v ≠ .async w → ((l.evAsyncStop w).active v ≠ 0 ↔ l.active v ≠ 0) := by
  have hc := h.clearPending (.async w)
  refine stop_others hc.arranged.arrays.asyncs (fun _ => rfl) ?_
  unfold Loop.evAsyncStop
  dsimp only
  split
  · rename_i hw
    exact .inl ⟨hw, fun _ => rfl⟩
  · rename_i hw
    refine .inr ⟨hw, fun _ => rfl, fun v hv => ?_⟩
    cases v with
    | async u => exact absurd rfl (hv u)
    | _ => rfl

theorem others_step (h : Inv e l) {a : Act U} {x : Watcher U} (hs : step l a = some m) (ha : stopped a = some x) :
    m.active x = 0 ∧ ∀ v, v ≠ x → (m.active v ≠ 0 ↔ l.active v ≠ 0) := by
  cases a with
  | evIdleStop w =>
    cases hs
    cases ha
    exact others_evIdleStop h w
  | evPrepareStop w =>
    cases hs
    cases ha
    exact others_evPrepareStop h w
  | evCheckStop w =>
    cases hs
    cases ha
    exact others_evCheckStop h w
  | evForkStop w =>
    cases hs
    cases ha
    exact others_evForkStop h w
  | evCleanupStop w =>
    cases hs
    cases ha
    exact others_evCleanupStop h w
  | evAsyncStop w =>
    cases hs
    cases ha
    exact others_evAsyncStop h w
  | _ => cases ha

section

omit [LinearOrder T] [Add T] [Sub T] [Zero T]

/-- The priority with which an idle watcher is started. -/
theorem priority_evIdleStart (l : Loop U T K) {w : U} (hw : l.idles.active w = 0) :
    (l.evIdleStart w).pend.priority (.idle w) = max minpri (min (l.pend.priority (.idle w)) maxpri) := by
  unfold Loop.evIdleStart
  rw [if_neg (not_not.mpr hw)]
  show (((l.pend.priAdjust (.idle w)).priAdjust (.idle w)).priority (.idle w)) = _
  rw [Pend.priAdjust_clamped (l.pend.clamped_priAdjust (.idle w))]
  unfold Pend.priAdjust Pend.setPriority
  dsimp only
  rw [Function.update_self]
  unfold minpri maxpri
  split
  · split
    · omega
    · omega
  · split
    · omega
    · omega

end

end

/-! ### Main result -/

theorem index_arrays [Inhabited U] (backend : Backend) (noinotify signalfd notimerfd : Bool) (kernel : K)
    (acts : List (Act U)) (l : Loop U T K)
    (hr : Runs (Loop.init backend noinotify signalfd notimerfd kernel) acts l) :
    l.idles.Indexed (fun w => l.pend.abspri (.idle w)) ∧
      (∀ w, l.idles.active w ≠ 0 → minpri ≤ l.pend.priority (.idle w) ∧ l.pend.priority (.idle w) ≤ maxpri) ∧
      (∀ w, l.idles.active w = 0 →
        (l.evIdleStart w).pend.priority (.idle w) = max minpri (min (l.pend.priority (.idle w)) maxpri)) ∧
      l.prepares.Indexed (fun _ => 0) ∧ l.checks.Indexed (fun _ => 0) ∧ l.forks.Indexed (fun _ => 0) ∧
      l.cleanups.Indexed (fun _ => 0) ∧ l.asyncs.Indexed (fun _ => 0) ∧
      l.idleall = ∑ pri ∈ Finset.range numpri, l.idles.cnt pri ∧
      ∀ a x m, step l a = some m → stopped a = some x →
        m.active x = 0 ∧ ∀ v, v ≠ x → (m.active v ≠ 0 ↔ l.active v ≠ 0) := by
  have h : Inv ⟨.two, fun _ _ => 0, 0⟩ l := inv_run (inv_init backend noinotify signalfd notimerfd kernel) hr
  exact ⟨h.arranged.arrays.idles.indexed, h.arranged.arrays.range, fun w hw => priority_evIdleStart l hw,
    h.arranged.arrays.prepares.indexed, h.arranged.arrays.checks.indexed, h.arranged.arrays.forks.indexed,
    h.cleanups.indexed, h.arranged.arrays.asyncs.indexed, h.idleall, fun _ _ _ hs ha => others_step h hs ha⟩

/-- The first of two idle watchers of the highest priority stops. -/
theorem index_arrays_stopped :
    ∃ l : Loop ℕ ℤ Unit,
      Runs (Loop.init .epoll false false false ())
        [.evSetPriority (.idle 1) 7, .evIdleStart 1, .evSetPriority (.idle 2) 2, .evIdleStart 2, .evIdleStop 1] l ∧
      l.idles.active 2 = 1 ∧ l.idles.Indexed (fun w => l.pend.abspri (.idle w)) := by
  have h := index_arrays (U := ℕ) (T := ℤ) .epoll false false false () _ _
    (.cons (a := .evSetPriority (.idle 1) 7) rfl (.cons (a := .evIdleStart 1) rfl
      (.cons (a := .evSetPriority (.idle 2) 2) rfl (.cons (a := .evIdleStart 2) rfl
        (.cons (a := .evIdleStop 1) rfl (.nil _))))))
  exact ⟨_, .cons rfl (.cons rfl (.cons rfl (.cons rfl (.cons rfl (.nil _))))), rfl, h.1⟩

end Indexes

end Qev
