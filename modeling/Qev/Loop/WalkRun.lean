/-
# A walk visits every watcher once

What the callback was given and what the walk has ahead of it are together always the same watchers in the same
order (`State.order`), as long as no stop moves an entry up in a heap: then the entries before the place of the
watcher that is stopped stay where they are. At its start a walk has every active watcher of its types ahead, each
once.
-/
import Qev.Loop.Walk

set_option linter.unusedSectionVars false

namespace Qev

open Lib

namespace Slots

variable {W : Type} [DecidableEq W] {s : Slots W} {key key' : W → ℕ}

theorem Filed.stop_active {w v : W} (h : s.Filed key) (hw : s.active w ≠ 0) (hv : (s.stop (key w) w).active v ≠ 0) :
    s.active v ≠ 0 := by
  obtain ⟨hle, -⟩ := h.active w hw
  rw [h.active_stop hw] at hv
  split at hv
  · exact absurd rfl hv
  · split at hv
    · rename_i hlast
      omega
    · exact hv

/-- Only the keys of active watchers matter. -/
theorem Filed.rekey (h : s.Filed key) (hk : ∀ w, s.active w ≠ 0 → key' w = key w) : s.Filed key' := by
  refine ⟨fun pri i hi => ?_, fun w hw => ?_⟩
  · obtain ⟨hkey, ha⟩ := h.cell pri i hi
    have hact : s.active (s.cells pri i) ≠ 0 := by
      rw [ha]
      exact Nat.succ_ne_zero i
    exact ⟨(hk _ hact).trans hkey, ha⟩
  · rw [hk w hw]
    exact h.active w hw

end Slots

namespace Slots

variable {W : Type} [DecidableEq W] {s : Slots W}

theorem cells_stop (s : Slots W) (w : W) {pri q i : ℕ} (h : q ≠ pri ∨ i ≠ s.active w - 1) :
    (s.stop pri w).cells q i = s.cells q i := by
  show Function.update s.cells pri _ q i = s.cells q i
  by_cases hq : q = pri
  · rw [hq, Function.update_self, Function.update_of_ne (h.resolve_left fun hc => hc hq)]
  · rw [Function.update_of_ne hq]

theorem cnt_stop (s : Slots W) (w : W) (pri q : ℕ) :
    (s.stop pri w).cnt q = if q = pri then s.cnt pri - 1 else s.cnt q := Function.update_apply ..

theorem Filed.active_cell {key : W → ℕ} {pri i : ℕ} (h : s.Filed key) (hi : i < s.cnt pri) :
    s.active (s.cells pri i) ≠ 0 := by
  rw [(h.cell pri i hi).2]
  exact Nat.succ_ne_zero i

/-- The entries before a watcher's stay where they are when it stops. -/
theorem Filed.stop_below {key : W → ℕ} {pri i : ℕ} (h : s.Filed key) (hi : i < s.cnt pri) :
    i ≤ (s.stop pri (s.cells pri i)).cnt pri ∧
      ∀ j < i, (s.stop pri (s.cells pri i)).cells pri j = s.cells pri j := by
  refine ⟨?_, fun j hj => s.cells_stop _ (.inr ?_)⟩
  · rw [cnt_stop, if_pos rfl]
    omega
  · rw [(h.cell pri i hi).2]
    omega

end Slots

theorem Lists.mem_stop {W : Type} [DecidableEq W] (s : Lists W) (k k' : ℕ) {v w : W} (hne : v ≠ w) :
    v ∈ (s.stop k w).head k' ↔ v ∈ s.head k' := by
  rw [head_stop]
  split
  · rename_i hk
    rw [List.mem_erase_of_ne hne, hk]
  · rfl

namespace Heap

variable {W T : Type} [DecidableEq W] [LinearOrder T] {b : Dheap} {h : Heap W T} {he : ANHE W T} {k j E : ℕ}

theorem cells_set (h : Heap W T) (e : ANHE W T) (hj : j ≠ k) : (h.set k e).cells j = h.cells j :=
  Function.update_of_ne hj ..

/-- `downheap` looks and moves away from the root only. -/
theorem cells_downLoop (hk : b.heap0 ≤ k) (hj : j < k) : (downLoop b he E h k).cells j = h.cells j := by
  obtain ⟨d, hd⟩ : ∃ d, E - k = d := ⟨_, rfl⟩
  induction d using Nat.strong_induction_on generalizing h k with
  | _ d ih =>
    rw [downLoop]
    cases hc : h.minpos b k E with
    | none => exact cells_set h he hj.ne
    | some c =>
      obtain ⟨hrc, hcE, hpc⟩ := (mem_children hk).mp (minpos_some hc).1
      have hkc : k < c := hpc ▸ b.hparent_lt c hrc
      simp only [hkc, hcE, and_self, ↓reduceIte]
      split
      · exact cells_set _ he hj.ne
      · exact (ih (E - c) (by omega) hrc.le (hj.trans hkc) rfl).trans (cells_set _ _ hj.ne)

/-- An entry that is not before its parent stays or goes down. -/
theorem cells_adjustheap {N : ℕ} (hk : b.heap0 ≤ k) (hj : j < k)
    (hle : b.heap0 < k → h.anheAt (b.hparent k) ≤ h.anheAt k) : (h.adjustheap b N k).cells j = h.cells j := by
  unfold adjustheap
  by_cases hroot : k > b.heap0
  · rw [if_pos hroot]
    dsimp only
    split
    · unfold upheap
      rw [upLoop]
      split
      · exact cells_set _ _ hj.ne
      · dsimp only
        rw [if_pos]
        · exact cells_set _ _ hj.ne
        · exact hle hroot
    · exact cells_downLoop hk hj
  · rw [if_neg hroot]
    exact cells_downLoop hk hj

end Heap

namespace Deadlines

variable {W T : Type} [DecidableEq W] [LinearOrder T] {b : Dheap} {d : Deadlines W T} {w : W} {j : ℕ}

/-- The entries before the place of a watcher stay where they are when it stops, if none goes up to fill it. -/
theorem cells_stop_below (hplace : b.heap0 ≤ d.active w) (hj : j < d.active w) (h : ¬ Walk.Rises b d w) :
    (d.stop b w).heap.cells j = d.heap.cells j := by
  unfold Deadlines.stop
  dsimp only
  split
  · rename_i hlt
    have hput : ∀ i, i ≠ d.active w → (((d.heap.read [d.cnt - 1 + b.heap0]).put (d.active w)
        (d.heap.cells (d.cnt - 1 + b.heap0))).cells i) = d.heap.cells i := fun i hi => Function.update_of_ne hi ..
    refine (Heap.cells_adjustheap hplace hj fun hroot => ?_).trans (hput j hj.ne)
    have hlast : (((d.heap.read [d.cnt - 1 + b.heap0]).put (d.active w)
        (d.heap.cells (d.cnt - 1 + b.heap0))).cells (d.active w)) = d.heap.cells (d.cnt - 1 + b.heap0) :=
      Function.update_self ..
    rw [Heap.anheAt, Heap.anheAt, hput _ (b.hparent_lt _ hroot).ne, hlast]
    exact not_lt.mp fun hc => h ⟨hroot, hlt, hc⟩
  · rfl

end Deadlines

namespace Loop

variable {U T K : Type} [DecidableEq U] [LinearOrder T] [Add T] [Sub T] [Zero T]

/-- The arrays but for the heaps, and the priorities of the idle watchers, which say where these are. -/
structure Arrays (U : Type) where
  idles : Slots U
  prepares : Slots (PrepareW U)
  checks : Slots U
  forks : Slots (ForkW U)
  asyncs : Slots U
  priority : U → ℤ

def arrays (l : Loop U T K) : Arrays U :=
  ⟨l.idles, l.prepares, l.checks, l.forks, l.asyncs, fun w => l.pend.priority (.idle w)⟩

/-- A watcher that is not idle. -/
def notIdle : Watcher U → Bool
  | .idle _ => false
  | _ => true

section

variable {e : Env U T} {l m : Loop U T K} {w : Watcher U}

theorem arrays_pend (l : Loop U T K) {p : Pend (Watcher U)}
    (hp : ∀ u, p.priority (.idle u) = l.pend.priority (.idle u)) :
    ({ l with pend := p } : Loop U T K).arrays = l.arrays := by
  unfold arrays
  simp only [hp]

@[simp]
theorem arrays_clearPending (l : Loop U T K) (w : Watcher U) : (l.clearPending w).arrays = l.arrays :=
  arrays_pend l fun _ => by rw [(priority_clearPending l.pend w).1]

theorem arrays_feedReverseDone (l : Loop U T K) (revents : Events) : (l.feedReverseDone revents).arrays = l.arrays :=
  arrays_pend l fun u => congrFun (priority_feeds (l.pend.rfeeds) l.pend revents).1 (.idle u)

theorem arrays_evStart (l : Loop U T K) (hw : notIdle w) : (l.evStart w).arrays = l.arrays :=
  arrays_pend l fun u => Function.update_of_ne (fun hc => by rw [← hc] at hw; cases hw) ..

theorem arrays_evTimerStart (w : TimerW U) : (l.evTimerStart e w).arrays = l.arrays := by
  unfold evTimerStart
  split
  · rfl
  · exact arrays_evStart (w := .timer w) { l with timers := l.timers.setAt w (l.timers.wAt w + l.mnNow) } rfl

theorem arrays_evTimerStop (w : TimerW U) : (l.evTimerStop e w).arrays = l.arrays := by
  unfold evTimerStop
  dsimp only
  split
  · exact arrays_clearPending l _
  · exact arrays_clearPending l _

theorem arrays_evTimerAgain (w : TimerW U) : (l.evTimerAgain e w).arrays = l.arrays := by
  unfold evTimerAgain
  dsimp only
  split
  · split
    · exact arrays_clearPending l _
    · exact (arrays_evTimerStop w).trans (arrays_clearPending l _)
  · split
    · exact (arrays_evTimerStart w).trans (arrays_clearPending l (.timer w))
    · exact arrays_clearPending l _

theorem arrays_timersReify : (l.timersReify e).arrays = l.arrays := by
  have hone : ∀ l : Loop U T K, (l.timersReifyOne e).arrays = l.arrays := by
    intro l
    unfold timersReifyOne
    dsimp only
    split
    · rfl
    · exact arrays_evTimerStop _
  have hloop : ∀ n (l : Loop U T K), (timersReifyLoop e n l).arrays = l.arrays := by
    intro n
    induction n with
    | zero => exact fun _ => rfl
    | succ n ih =>
      intro l
      unfold timersReifyLoop
      split
      · exact (ih _).trans (hone l)
      · rfl
  unfold timersReify
  split
  · exact (arrays_feedReverseDone ..).trans (hloop _ l)
  · rfl

theorem arrays_timersReschedule (adjust : T) : (l.timersReschedule e adjust).arrays = l.arrays := by
  unfold timersReschedule
  generalize List.range l.timers.cnt = r
  induction r generalizing l with
  | nil => rfl
  | cons i r ih => exact ih (l := timersRescheduleOne e adjust l i)

theorem arrays_periodicsReschedule : (l.periodicsReschedule e).arrays = l.arrays := by
  obtain ⟨p, n, heq⟩ := periodicsReschedule_touches e l
  rw [heq]
  rfl

theorem arrays_evIoStart (w : IoW U) : (l.evIoStart w).arrays = l.arrays := by
  unfold evIoStart
  split
  · rfl
  · exact arrays_evStart (w := .io w) l rfl

theorem arrays_evtimerfdInit (k : TimerfdCreate T) : (l.evtimerfdInit e k).arrays = l.arrays := by
  unfold evtimerfdInit
  split
  · rfl
  · dsimp only
    split
    · have hset : (({ l with timerfd := k.fd }.evIoInit .timerfdW k.fd.toNat evRead).evSetPriority
          (.io .timerfdW) minpri).arrays = l.arrays :=
        arrays_pend l fun _ => rfl
      have hstart := (arrays_evIoStart .timerfdW).trans hset
      generalize (({ l with timerfd := k.fd }.evIoInit .timerfdW k.fd.toNat evRead).evSetPriority
        (.io .timerfdW) minpri).evIoStart .timerfdW = m at hstart ⊢
      unfold timerfdcb
      dsimp only
      split
      · exact arrays_periodicsReschedule.trans hstart
      · exact hstart
    · rfl

theorem arrays_evPeriodicStart (k : TimerfdCreate T) (w : U) : (l.evPeriodicStart e k w).arrays = l.arrays := by
  unfold evPeriodicStart
  split
  · rfl
  · obtain ⟨m, hm⟩ : ∃ m, m = if l.timerfd = -2 then l.evtimerfdInit e k else l := ⟨_, rfl⟩
    have ham : m.arrays = l.arrays := by
      rw [hm]
      split
      · exact arrays_evtimerfdInit k
      · rfl
    rw [← hm]
    refine Eq.trans ?_ ham
    rcases periodicNext_cases e m w with ⟨x, n, hn⟩ | hn
    · simp only [hn]
      exact arrays_evStart (w := .periodic w)
        { m with periodics := m.periodics.setAt w x, rescheduleCnt := n } rfl
    · simp only [hn]
      exact arrays_evStart (w := .periodic w) { m with periodics := m.periodics.setAt w (m.wOffset w) } rfl

theorem arrays_evPeriodicStop (w : U) : (l.evPeriodicStop e w).arrays = l.arrays := by
  unfold evPeriodicStop
  dsimp only
  split
  · exact arrays_clearPending l _
  · exact arrays_clearPending l _

theorem arrays_periodicsReify (n : ℕ) : (l.periodicsReify e n).arrays = l.arrays := by
  have hone : ∀ l : Loop U T K, (l.periodicsReifyOne e).arrays = l.arrays := by
    intro l
    unfold periodicsReifyOne
    rcases periodicNext_cases e l (l.periodics.rootW e.heap) with ⟨x, c, hx⟩ | hx
    · simp only [hx]
      rfl
    · simp only [hx]
      exact arrays_evPeriodicStop _
  have hloop : ∀ n (l : Loop U T K), (periodicsReifyLoop e n l).arrays = l.arrays := by
    intro n
    induction n with
    | zero => exact fun _ => rfl
    | succ n ih =>
      intro l
      unfold periodicsReifyLoop
      split
      · exact (ih _).trans (hone l)
      · rfl
  unfold periodicsReify
  split
  · exact (arrays_feedReverseDone ..).trans (hloop _ l)
  · rfl

theorem arrays_timeCall {a : TimeAct U T} (hs : timeCall e l a = some m) : m.arrays = l.arrays := by
  cases a with
  | timerSet w after repeat' =>
    simp only [timeCall, Option.ite_none_left_eq_some] at hs
    obtain ⟨-, hs⟩ := hs
    cases hs
    rfl
  | clock mn rt =>
    cases hs
    rfl
  | timerRepeat w repeat' =>
    cases hs
    rfl
  | periodicSet w offset interval rescheduleCb =>
    cases hs
    rfl
  | timerStart w =>
    cases hs
    exact arrays_evTimerStart w
  | timerStop w =>
    cases hs
    exact arrays_evTimerStop w
  | timerAgain w =>
    cases hs
    exact arrays_evTimerAgain w
  | timersReify =>
    cases hs
    exact arrays_timersReify
  | timersReschedule adjust =>
    cases hs
    exact arrays_timersReschedule adjust
  | periodicStart k w =>
    cases hs
    exact arrays_evPeriodicStart k w
  | periodicStop w =>
    cases hs
    exact arrays_evPeriodicStop w
  | periodicAgain k w =>
    cases hs
    exact (arrays_evPeriodicStart k w).trans (arrays_evPeriodicStop w)
  | periodicsReify rounds =>
    cases hs
    exact arrays_periodicsReify rounds
  | periodicsReschedule =>
    cases hs
    exact arrays_periodicsReschedule

/-! ### The arrays stay in order -/

/-- Each array has the active watchers of its kind, each at its place; the idle ones by priority. -/
structure Arrays.Ok (a : Arrays U) : Prop where
  idles : a.idles.Filed fun w => (a.priority w - minpri).toNat
  range : ∀ w, a.idles.active w ≠ 0 → minpri ≤ a.priority w ∧ a.priority w ≤ maxpri
  prepares : a.prepares.Filed fun _ => 0
  checks : a.checks.Filed fun _ => 0
  forks : a.forks.Filed fun _ => 0
  asyncs : a.asyncs.Filed fun _ => 0

structure Arranged (e : Env U T) (l : Loop U T K) : Prop where
  heaps : HeapsOk e l
  arrays : l.arrays.Ok

theorem Arranged.congr (h : Arranged e l) (hm : HeapsOk e m) (ha : m.arrays = l.arrays) : Arranged e m :=
  ⟨hm, ha ▸ h.arrays⟩

theorem Arranged.clearPending (h : Arranged e l) (w : Watcher U) : Arranged e (l.clearPending w) :=
  h.congr h.heaps (arrays_clearPending l w)

theorem Arranged.evStart (h : Arranged e l) (hw : notIdle w) : Arranged e (l.evStart w) :=
  h.congr h.heaps (arrays_evStart l hw)

theorem Arranged.evPrepareStart (h : Arranged e l) (w : PrepareW U) : Arranged e (l.evPrepareStart w) := by
  unfold Loop.evPrepareStart
  split
  · exact h
  · rename_i hw
    have hs := h.evStart (w := .prepare w) rfl
    exact ⟨hs.heaps, hs.arrays.idles, hs.arrays.range, hs.arrays.prepares.start (not_not.mp hw), hs.arrays.checks,
      hs.arrays.forks, hs.arrays.asyncs⟩

theorem Arranged.evPrepareStop (h : Arranged e l) (w : PrepareW U) : Arranged e (l.evPrepareStop w) := by
  have hc := h.clearPending (.prepare w)
  unfold Loop.evPrepareStop
  dsimp only
  split
  · exact hc
  · rename_i hw
    exact ⟨hc.heaps, hc.arrays.idles, hc.arrays.range, hc.arrays.prepares.stop hw, hc.arrays.checks, hc.arrays.forks,
      hc.arrays.asyncs⟩

theorem Arranged.evCheckStart (h : Arranged e l) (w : U) : Arranged e (l.evCheckStart w) := by
  unfold Loop.evCheckStart
  split
  · exact h
  · rename_i hw
    have hs := h.evStart (w := .check w) rfl
    exact ⟨hs.heaps, hs.arrays.idles, hs.arrays.range, hs.arrays.prepares, hs.arrays.checks.start (not_not.mp hw),
      hs.arrays.forks, hs.arrays.asyncs⟩

theorem Arranged.evCheckStop (h : Arranged e l) (w : U) : Arranged e (l.evCheckStop w) := by
  have hc := h.clearPending (.check w)
  unfold Loop.evCheckStop
  dsimp only
  split
  · exact hc
  · rename_i hw
    exact ⟨hc.heaps, hc.arrays.idles, hc.arrays.range, hc.arrays.prepares, hc.arrays.checks.stop hw, hc.arrays.forks,
      hc.arrays.asyncs⟩

theorem Arranged.evForkStart (h : Arranged e l) (w : ForkW U) : Arranged e (l.evForkStart w) := by
  unfold Loop.evForkStart
  split
  · exact h
  · rename_i hw
    have hs := h.evStart (w := .fork w) rfl
    exact ⟨hs.heaps, hs.arrays.idles, hs.arrays.range, hs.arrays.prepares, hs.arrays.checks,
      hs.arrays.forks.start (not_not.mp hw), hs.arrays.asyncs⟩

theorem Arranged.evForkStop (h : Arranged e l) (w : ForkW U) : Arranged e (l.evForkStop w) := by
  have hc := h.clearPending (.fork w)
  unfold Loop.evForkStop
  dsimp only
  split
  · exact hc
  · rename_i hw
    exact ⟨hc.heaps, hc.arrays.idles, hc.arrays.range, hc.arrays.prepares, hc.arrays.checks, hc.arrays.forks.stop hw,
      hc.arrays.asyncs⟩

theorem arrays_evpipeInit (fd : ℕ) : (l.evpipeInit fd).arrays = l.arrays := by
  unfold evpipeInit
  split
  · rfl
  · exact arrays_evIoStart (l := l.evIoSet .pipeW fd evRead) .pipeW

theorem heaps_evpipeInit (l : Loop U T K) (fd : ℕ) :
    (l.evpipeInit fd).timers = l.timers ∧ (l.evpipeInit fd).periodics = l.periodics := by
  unfold evpipeInit
  split
  · exact ⟨rfl, rfl⟩
  · exact timers_evIoStart (l.evIoSet .pipeW fd evRead) .pipeW

theorem Arranged.evpipeInit (h : Arranged e l) (fd : ℕ) : Arranged e (l.evpipeInit fd) := by
  obtain ⟨ht, hp⟩ := heaps_evpipeInit l fd
  refine h.congr ?_ (arrays_evpipeInit fd)
  unfold HeapsOk
  rw [ht, hp]
  exact h.heaps

theorem Arranged.evAsyncStart (h : Arranged e l) (evpipe : ℕ) (w : U) : Arranged e (l.evAsyncStart evpipe w) := by
  unfold Loop.evAsyncStart
  split
  · exact h
  · rename_i hw
    have hs := (h.evpipeInit evpipe).evStart (w := .async w) rfl
    have hinit : (l.evpipeInit evpipe).asyncs = l.asyncs := congrArg Arrays.asyncs (arrays_evpipeInit evpipe)
    refine ⟨hs.heaps, hs.arrays.idles, hs.arrays.range, hs.arrays.prepares, hs.arrays.checks, hs.arrays.forks,
      hs.arrays.asyncs.start ?_⟩
    show (l.evpipeInit evpipe).asyncs.active w = 0
    rw [hinit]
    exact not_not.mp hw

theorem Arranged.evAsyncStop (h : Arranged e l) (w : U) : Arranged e (l.evAsyncStop w) := by
  have hc := h.clearPending (.async w)
  unfold Loop.evAsyncStop
  dsimp only
  split
  · exact hc
  · rename_i hw
    exact ⟨hc.heaps, hc.arrays.idles, hc.arrays.range, hc.arrays.prepares, hc.arrays.checks, hc.arrays.forks,
      hc.arrays.asyncs.stop hw⟩

/-- The priority of an idle watcher that is not active may change. -/
theorem Arranged.priority (h : Arranged e l) {p : Pend (Watcher U)}
    (hp : ∀ u, l.idles.active u ≠ 0 → p.priority (.idle u) = l.pend.priority (.idle u)) :
    Arranged e { l with pend := p } := by
  refine ⟨h.heaps, h.arrays.idles.rekey fun u hu => ?_, fun u hu => ?_, h.arrays.prepares, h.arrays.checks,
    h.arrays.forks, h.arrays.asyncs⟩
  · show (p.priority (.idle u) - minpri).toNat = (l.pend.priority (.idle u) - minpri).toNat
    rw [hp u hu]
  · show minpri ≤ p.priority (.idle u) ∧ p.priority (.idle u) ≤ maxpri
    rw [hp u hu]
    exact h.arrays.range u hu

theorem Arranged.evIdleStart (h : Arranged e l) (w : U) : Arranged e (l.evIdleStart w) := by
  unfold Loop.evIdleStart
  split
  · exact h
  · rename_i hw
    have hw := not_not.mp hw
    have hadj : Arranged e { l with pend := l.pend.priAdjust (.idle w) } :=
      h.priority fun u hu => Function.update_of_ne (fun hc => by cases hc; exact hu hw) ..
    have htwice : (l.pend.priAdjust (.idle w)).priAdjust (.idle w) = l.pend.priAdjust (.idle w) :=
      Pend.priAdjust_clamped (l.pend.clamped_priAdjust (.idle w))
    unfold Loop.evStart evRef
    dsimp only
    rw [htwice]
    refine ⟨hadj.heaps, hadj.arrays.idles.start hw, fun u hu => ?_, hadj.arrays.prepares, hadj.arrays.checks,
      hadj.arrays.forks, hadj.arrays.asyncs⟩
    by_cases huw : u = w
    · rw [huw]
      exact l.pend.clamped_priAdjust (.idle w)
    · refine hadj.arrays.range u ?_
      have hact : (l.idles.start ((l.pend.priAdjust (.idle w)).abspri (.idle w)) w).active u = l.idles.active u :=
        Function.update_of_ne huw ..
      show l.idles.active u ≠ 0
      rw [← hact]
      exact hu

theorem Arranged.evIdleStop (h : Arranged e l) (w : U) : Arranged e (l.evIdleStop w) := by
  have hc := h.clearPending (.idle w)
  unfold Loop.evIdleStop
  dsimp only
  split
  · exact hc
  · rename_i hw
    exact ⟨hc.heaps, hc.arrays.idles.stop hw, fun u hu => hc.arrays.range u (hc.arrays.idles.stop_active hw hu),
      hc.arrays.prepares, hc.arrays.checks, hc.arrays.forks, hc.arrays.asyncs⟩

theorem Arranged.timeStep [AddRightMono T] {a : TimeAct U T} (h : Arranged e l) (hs : timeStep e l a = some m) :
    Arranged e m :=
  h.congr (heapsGood_timeCall h.heaps.untouched hs).ok (arrays_timeCall (l := l.untouched) hs)

theorem arranged_init [Inhabited U] (backend : Backend) (noinotify signalfd notimerfd : Bool) (kernel : K) :
    Arranged e (Loop.init backend noinotify signalfd notimerfd kernel : Loop U T K) := by
  have hno : ∀ i, ¬ i < 0 := Nat.not_lt_zero
  exact ⟨heapsOk_noTimers ⟨⟨rfl, fun _ => rfl⟩, rfl, fun _ => rfl⟩,
    ⟨fun _ _ hi => absurd hi (hno _), fun _ hw => absurd rfl hw⟩, fun _ hw => absurd rfl hw,
    ⟨fun _ _ hi => absurd hi (hno _), fun _ hw => absurd rfl hw⟩,
    ⟨fun _ _ hi => absurd hi (hno _), fun _ hw => absurd rfl hw⟩,
    ⟨fun _ _ hi => absurd hi (hno _), fun _ hw => absurd rfl hw⟩,
    ⟨fun _ _ hi => absurd hi (hno _), fun _ hw => absurd rfl hw⟩⟩

theorem Arranged.evTimerStop (h : Arranged e l) (w : TimerW U) : Arranged e (l.evTimerStop e w) := by
  refine h.congr ⟨?_, ?_⟩ (arrays_evTimerStop w)
  · rw [timers_evTimerStop]
    split
    · exact h.heaps.1
    · rename_i hw
      exact ((h.heaps.1.stop hw).setAt (fun hc => hc.1 rfl) _).self
  · rw [periodics_evTimerStop]
    exact h.heaps.2

theorem Arranged.evPeriodicStop (h : Arranged e l) (w : U) : Arranged e (l.evPeriodicStop e w) := by
  refine h.congr ⟨?_, ?_⟩ (arrays_evPeriodicStop w)
  · rw [timers_evPeriodicStop.1]
    exact h.heaps.1
  · rw [periodics_evPeriodicStop]
    split
    · exact h.heaps.2
    · rename_i hw
      exact (h.heaps.2.stop hw).self

end

end Loop

namespace Walk

variable {L U T K : Type} [DecidableEq L] [DecidableEq U] [LinearOrder T] [Add T] [Sub T] [Zero T]

section

variable {e : Env U T} {nsig : ℕ} {s t : Process L U T K} {l : L} {m : Loop U T K}

/-- The arrays of every loop are in order, and the lists of `signals`. -/
structure Inv (e : Env U T) (nsig : ℕ) (s : Process L U T K) : Prop where
  loops : ∀ l, Loop.Arranged e (s.loops l)
  signals : s.signals.Linked s.place
  places : ∀ x, s.signals.active x ≠ 0 → s.place x < nsig - 1

theorem Inv.setLoop (h : Inv e nsig s) (hm : Loop.Arranged e m) (l : L) : Inv e nsig (s.setLoop l m) := by
  refine ⟨fun l' => ?_, h.signals, h.places⟩
  show Loop.Arranged e (Function.update s.loops l m l')
  by_cases hl : l' = l
  · rw [hl, Function.update_self]
    exact hm
  · rw [Function.update_of_ne hl]
    exact h.loops l'

theorem Inv.evSignalStart {x : L × SignalW U} (h : Inv e nsig s) (hx : s.place x < nsig - 1) (evpipe : ℕ) :
    Inv e nsig (s.evSignalStart evpipe x) := by
  unfold Process.evSignalStart
  split
  · exact h
  · rename_i hidle
    have hset := h.setLoop ((h.loops x.1).evStart (w := .signal x.2) rfl) x.1
    have hstart : Inv e nsig
        { (s.setLoop x.1 ((s.loops x.1).evStart (.signal x.2))) with
          sigLoop := Function.update s.sigLoop (s.place x) (some x.1)
          signals := s.signals.start (s.place x) x } := by
      refine ⟨hset.loops, h.signals.start (not_not.mp hidle), fun y hy => ?_⟩
      by_cases hyx : y = x
      · rw [hyx]
        exact hx
      · refine h.places y fun hc => hy ?_
        exact (Lists.active_start ..).trans ((if_neg hyx).trans hc)
    dsimp only
    split
    · exact hstart.setLoop ((hstart.loops x.1).evpipeInit evpipe) x.1
    · exact hstart

theorem Inv.evSignalStop (h : Inv e nsig s) (x : L × SignalW U) : Inv e nsig (s.evSignalStop x) := by
  have hclear := h.setLoop ((h.loops x.1).clearPending (.signal x.2)) x.1
  unfold Process.evSignalStop
  dsimp only
  split
  · exact hclear
  · have hset := hclear.setLoop (m := ((s.setLoop x.1 ((s.loops x.1).clearPending (.signal x.2))).loops x.1).evStop)
      ((hclear.loops x.1).congr (hclear.loops x.1).heaps rfl) x.1
    have hplaces : ∀ y, (s.signals.stop (s.place x) x).active y ≠ 0 → s.place y < nsig - 1 := by
      intro y hy
      rw [Lists.active_stop] at hy
      split at hy
      · exact absurd rfl hy
      · exact h.places y hy
    split
    · exact ⟨hset.loops, h.signals.stop x, hplaces⟩
    · exact ⟨hset.loops, h.signals.stop x, hplaces⟩

theorem Inv.stop (h : Inv e nsig s) (x : L × Watcher U) : Inv e nsig (s.stop e x) := by
  obtain ⟨l, w⟩ := x
  have hl := h.loops l
  cases w with
  | timer w => exact h.setLoop (hl.evTimerStop w) l
  | periodic w => exact h.setLoop (hl.evPeriodicStop w) l
  | idle w => exact h.setLoop (hl.evIdleStop w) l
  | fork w => exact h.setLoop (hl.evForkStop w) l
  | async w => exact h.setLoop (hl.evAsyncStop w) l
  | prepare w => exact h.setLoop (hl.evPrepareStop w) l
  | check w => exact h.setLoop (hl.evCheckStop w) l
  | signal w => exact h.evSignalStop (l, w)
  | _ => exact h

theorem Inv.start {x : L × Watcher U} (h : Inv e nsig s) (hx : Asserted nsig s x) (evpipe : ℕ) :
    Inv e nsig (s.start evpipe x) := by
  obtain ⟨l, w⟩ := x
  have hl := h.loops l
  cases w with
  | idle w => exact h.setLoop (hl.evIdleStart w) l
  | fork w => exact h.setLoop (hl.evForkStart w) l
  | async w => exact h.setLoop (hl.evAsyncStart evpipe w) l
  | prepare w => exact h.setLoop (hl.evPrepareStart w) l
  | check w => exact h.setLoop (hl.evCheckStart w) l
  | signal w =>
    have hplace : s.place (l, w) < nsig - 1 := by
      obtain ⟨hpos, hlt, -⟩ := hx
      exact (Nat.sub_lt_sub_iff_right hpos).mpr hlt
    exact h.evSignalStart hplace evpipe
  | _ => exact h

theorem inv_step [AddRightMono T] {a : Act L U T K} (h : Inv e nsig s) (hs : call e nsig s a = some t) :
    Inv e nsig t := by
  cases a with
  | time l a =>
    obtain ⟨m, hm, rfl⟩ := Option.map_eq_some_iff.mp hs
    exact h.setLoop ((h.loops l).timeStep hm) l
  | start evpipe x =>
    simp only [call, Option.ite_none_right_eq_some] at hs
    obtain ⟨hx, hs⟩ := hs
    cases hs
    exact h.start hx evpipe
  | stop x =>
    cases hs
    exact h.stop x
  | signalSet x signum =>
    simp only [call, Option.ite_none_right_eq_some] at hs
    obtain ⟨hx, hs⟩ := hs
    cases hs
    have hplace : ∀ y, s.signals.active y ≠ 0 →
        Process.place { s with wSignum := Function.update s.wSignum x signum } y = s.place y := by
      intro y hy
      refine congrArg (· - 1) (Function.update_of_ne (fun hc => ?_) ..)
      rw [hc] at hy
      exact hy hx
    refine ⟨h.loops, ⟨fun k y => ?_, h.signals.nodup⟩, fun y hy => ?_⟩
    · rw [h.signals.mem]
      exact and_congr_right fun hy => by rw [hplace y hy]
    · rw [hplace y hy]
      exact h.places y hy
  | setPriority x pri =>
    simp only [call, Option.ite_none_right_eq_some] at hs
    obtain ⟨⟨hx, -⟩, hs⟩ := hs
    cases hs
    refine h.setLoop ((h.loops x.1).priority fun u hu => Function.update_of_ne (fun hc => hu ?_) ..) x.1
    unfold Process.active at hx
    rw [← hc] at hx
    exact hx
  | other l m =>
    cases hs
    have hm : Loop.Arranged e { m with
        timers := (s.loops l).timers, periodics := (s.loops l).periodics, idles := (s.loops l).idles
        forks := (s.loops l).forks, asyncs := (s.loops l).asyncs, prepares := (s.loops l).prepares
        checks := (s.loops l).checks, pend := { m.pend with priority := (s.loops l).pend.priority } } :=
      (h.loops l).congr (h.loops l).heaps rfl
    exact h.setLoop hm l

theorem inv_init [Inhabited U] (kernel : K) : Inv e nsig (init kernel : Process L U T K) :=
  ⟨fun _ => Loop.arranged_init .select true false true kernel,
    ⟨fun _ _ => iff_of_false List.not_mem_nil fun hc => hc.1 rfl, fun _ => List.nodup_nil⟩,
    fun _ hx => absurd rfl hx⟩

theorem inv_run [AddRightMono T] {acts : List (Act L U T K)} (hrun : Runs e nsig s acts t) (h : Inv e nsig s) :
    Inv e nsig t :=
  Run.invariant (fun _ _ _ h hs => inv_step h hs) hrun h

/-! ### A stop and the arrays -/

/-- A stop leaves the other arrays as they are, and of its own the entries before the place. -/
structure Fills (e : Env U T) (f : Fam) (i : ℕ) (m n : Loop U T K) : Prop where
  others : ∀ g, g ≠ f → g.cnt n = g.cnt m ∧ g.cell e n = g.cell e m
  cnt : i ≤ f.cnt n
  below : ∀ j < i, f.cell e n j = f.cell e m j

theorem Fam.congr {n : Loop U T K} (e : Env U T) (ht : n.timers = m.timers) (hp : n.periodics = m.periodics)
    (ha : n.arrays = m.arrays) (g : Fam) : g.cnt n = g.cnt m ∧ g.cell e n = g.cell e m := by
  have hi : n.idles = m.idles := congrArg Loop.Arrays.idles ha
  have hr : n.prepares = m.prepares := congrArg Loop.Arrays.prepares ha
  have hc : n.checks = m.checks := congrArg Loop.Arrays.checks ha
  have hf : n.forks = m.forks := congrArg Loop.Arrays.forks ha
  have hs : n.asyncs = m.asyncs := congrArg Loop.Arrays.asyncs ha
  cases g with
  | _ => simp [Fam.cnt, Fam.cell, funext_iff, *]

variable {i : ℕ}

theorem fills_evTimerStop (h : Loop.Arranged e m) (hi : i < m.timers.cnt)
    (hs : ¬ Rises e.heap m.timers (m.timers.heap.cells (i + e.heap.heap0)).anheW) :
    Fills e .timers i m (m.evTimerStop e (m.timers.heap.cells (i + e.heap.heap0)).anheW) := by
  have hpos := e.heap.heap0_pos
  have hplace := (h.heaps.1.linked.links.back (i + e.heap.heap0) (by omega) (by omega)).1
  generalize (m.timers.heap.cells (i + e.heap.heap0)).anheW = w at hs hplace ⊢
  have hw : m.timers.active w = i + e.heap.heap0 := hplace
  have htimers : (m.evTimerStop e w).timers = (m.timers.stop e.heap w).setAt w (m.timers.wAt w - m.mnNow) := by
    rw [Loop.timers_evTimerStop, if_neg (by omega)]
  refine ⟨fun g hg => ?_, ?_, fun j hj => ?_⟩
  · have ha := Loop.arrays_evTimerStop (e := e) (l := m) w
    have hcongr := Fam.congr (m := { m with timers := (m.evTimerStop e w).timers }) (n := m.evTimerStop e w) e rfl
      Loop.periodics_evTimerStop ha g
    cases g with
    | timers => exact absurd rfl hg
    | _ => exact hcongr
  · show i ≤ (m.evTimerStop e w).timers.cnt
    rw [htimers]
    show i ≤ m.timers.cnt - 1
    omega
  · have hcells : (m.timers.stop e.heap w).heap.cells (j + e.heap.heap0) = m.timers.heap.cells (j + e.heap.heap0) :=
      Deadlines.cells_stop_below (by omega) (by omega) hs
    show Watcher.timer ((m.evTimerStop e w).timers.heap.cells (j + e.heap.heap0)).anheW =
      .timer (m.timers.heap.cells (j + e.heap.heap0)).anheW
    rw [htimers]
    exact congrArg (fun c : ANHE _ _ => Watcher.timer c.anheW) hcells

theorem fills_evPeriodicStop (h : Loop.Arranged e m) (hi : i < m.periodics.cnt)
    (hs : ¬ Rises e.heap m.periodics (m.periodics.heap.cells (i + e.heap.heap0)).anheW) :
    Fills e .periodics i m (m.evPeriodicStop e (m.periodics.heap.cells (i + e.heap.heap0)).anheW) := by
  have hpos := e.heap.heap0_pos
  have hplace := (h.heaps.2.linked.links.back (i + e.heap.heap0) (by omega) (by omega)).1
  generalize (m.periodics.heap.cells (i + e.heap.heap0)).anheW = w at hs hplace ⊢
  have hw : m.periodics.active w = i + e.heap.heap0 := hplace
  have hperiodics : (m.evPeriodicStop e w).periodics = m.periodics.stop e.heap w := by
    rw [Loop.periodics_evPeriodicStop, if_neg (by omega)]
  refine ⟨fun g hg => ?_, ?_, fun j hj => ?_⟩
  · have ha := Loop.arrays_evPeriodicStop (e := e) (l := m) w
    have hcongr := Fam.congr (m := { m with periodics := (m.evPeriodicStop e w).periodics })
      (n := m.evPeriodicStop e w) e Loop.timers_evPeriodicStop.1 rfl ha g
    cases g with
    | periodics => exact absurd rfl hg
    | _ => exact hcongr
  · show i ≤ (m.evPeriodicStop e w).periodics.cnt
    rw [hperiodics]
    show i ≤ m.periodics.cnt - 1
    omega
  · have hcells : (m.periodics.stop e.heap w).heap.cells (j + e.heap.heap0) =
        m.periodics.heap.cells (j + e.heap.heap0) :=
      Deadlines.cells_stop_below (by omega) (by omega) hs
    show Watcher.periodic ((m.evPeriodicStop e w).periodics.heap.cells (j + e.heap.heap0)).anheW =
      .periodic (m.periodics.heap.cells (j + e.heap.heap0)).anheW
    rw [hperiodics]
    exact congrArg (fun c : ANHE _ _ => Watcher.periodic c.anheW) hcells

theorem fills_evIdleStop (h : Loop.Arranged e m) {pri : ℕ} (hi : i < m.idles.cnt pri) :
    Fills e (.idles pri) i m (m.evIdleStop (m.idles.cells pri i)) := by
  obtain ⟨hcnt, hbelow⟩ := h.arrays.idles.stop_below hi
  have hkey := (h.arrays.idles.cell pri i hi).1
  have habs : (m.clearPending (.idle (m.idles.cells pri i))).pend.abspri (.idle (m.idles.cells pri i)) = pri := by
    unfold Pend.abspri
    rw [show (m.clearPending (.idle (m.idles.cells pri i))).pend.priority = _ from (Loop.priority_clearPending ..).1]
    exact hkey
  have hstop : m.evIdleStop (m.idles.cells pri i) =
      { ({ m.clearPending (.idle (m.idles.cells pri i)) with
        idles := m.idles.stop pri (m.idles.cells pri i) } : Loop U T K).evStop with idleall := m.idleall - 1 } := by
    unfold Loop.evIdleStop
    dsimp only
    rw [habs]
    exact if_neg (h.arrays.idles.active_cell hi)
  rw [hstop]
  refine ⟨fun g hg => ?_, hcnt, fun j hj => congrArg Watcher.idle (hbelow j hj)⟩
  cases g with
  | idles q =>
    have hq : q ≠ pri := fun hc => hg (congrArg Fam.idles hc)
    exact ⟨(m.idles.cnt_stop ..).trans (if_neg hq),
      funext fun j => congrArg Watcher.idle (m.idles.cells_stop (m.idles.cells pri i) (.inl hq))⟩
  | _ => exact ⟨rfl, rfl⟩

theorem fills_evForkStop (h : Loop.Arranged e m) (hi : i < m.forks.cnt 0) :
    Fills e .forks i m (m.evForkStop (m.forks.cells 0 i)) := by
  obtain ⟨hcnt, hbelow⟩ := h.arrays.forks.stop_below hi
  have heq : m.evForkStop (m.forks.cells 0 i) = ({ m.clearPending (.fork (m.forks.cells 0 i)) with
      forks := m.forks.stop 0 (m.forks.cells 0 i) } : Loop U T K).evStop :=
    if_neg (h.arrays.forks.active_cell hi)
  rw [heq]
  refine ⟨fun g hg => ?_, hcnt, fun j hj => congrArg Watcher.fork (hbelow j hj)⟩
  cases g with
  | forks => exact absurd rfl hg
  | _ => exact ⟨rfl, rfl⟩

theorem fills_evAsyncStop (h : Loop.Arranged e m) (hi : i < m.asyncs.cnt 0) :
    Fills e .asyncs i m (m.evAsyncStop (m.asyncs.cells 0 i)) := by
  obtain ⟨hcnt, hbelow⟩ := h.arrays.asyncs.stop_below hi
  have heq : m.evAsyncStop (m.asyncs.cells 0 i) = ({ m.clearPending (.async (m.asyncs.cells 0 i)) with
      asyncs := m.asyncs.stop 0 (m.asyncs.cells 0 i) } : Loop U T K).evStop :=
    if_neg (h.arrays.asyncs.active_cell hi)
  rw [heq]
  refine ⟨fun g hg => ?_, hcnt, fun j hj => congrArg Watcher.async (hbelow j hj)⟩
  cases g with
  | asyncs => exact absurd rfl hg
  | _ => exact ⟨rfl, rfl⟩

theorem fills_evPrepareStop (h : Loop.Arranged e m) (hi : i < m.prepares.cnt 0) :
    Fills e .prepares i m (m.evPrepareStop (m.prepares.cells 0 i)) := by
  obtain ⟨hcnt, hbelow⟩ := h.arrays.prepares.stop_below hi
  have heq : m.evPrepareStop (m.prepares.cells 0 i) = ({ m.clearPending (.prepare (m.prepares.cells 0 i)) with
      prepares := m.prepares.stop 0 (m.prepares.cells 0 i) } : Loop U T K).evStop :=
    if_neg (h.arrays.prepares.active_cell hi)
  rw [heq]
  refine ⟨fun g hg => ?_, hcnt, fun j hj => congrArg Watcher.prepare (hbelow j hj)⟩
  cases g with
  | prepares => exact absurd rfl hg
  | _ => exact ⟨rfl, rfl⟩

theorem fills_evCheckStop (h : Loop.Arranged e m) (hi : i < m.checks.cnt 0) :
    Fills e .checks i m (m.evCheckStop (m.checks.cells 0 i)) := by
  obtain ⟨hcnt, hbelow⟩ := h.arrays.checks.stop_below hi
  have heq : m.evCheckStop (m.checks.cells 0 i) = ({ m.clearPending (.check (m.checks.cells 0 i)) with
      checks := m.checks.stop 0 (m.checks.cells 0 i) } : Loop U T K).evStop :=
    if_neg (h.arrays.checks.active_cell hi)
  rw [heq]
  refine ⟨fun g hg => ?_, hcnt, fun j hj => congrArg Watcher.check (hbelow j hj)⟩
  cases g with
  | checks => exact absurd rfl hg
  | _ => exact ⟨rfl, rfl⟩

/-- A watcher that the callback is given and stops, where no entry goes up to fill its place. -/
theorem fills_stop {f : Fam} {rest : List (Task L U)} {visited : List (L × Watcher U)} (h : Inv e nsig s)
    (hi : i < f.cnt (s.loops l)) (hinner : inner (f.cell e (s.loops l) i) = false)
    (hs : ¬ Unsteady e l ⟨s, .entries f (i + 1) :: rest, visited⟩) :
    Fills e f i (s.loops l) ((s.stop e (l, f.cell e (s.loops l) i)).loops l) ∧
      (s.stop e (l, f.cell e (s.loops l) i)).signals = s.signals := by
  have hset : ∀ n, (s.setLoop l n).loops l = n := fun n => Function.update_self ..
  have hl := h.loops l
  cases f with
  | timers => exact ⟨(hset _).symm ▸ fills_evTimerStop hl hi fun hc => hs ⟨hinner, hc⟩, rfl⟩
  | periodics => exact ⟨(hset _).symm ▸ fills_evPeriodicStop hl hi hs, rfl⟩
  | idles pri => exact ⟨(hset _).symm ▸ fills_evIdleStop hl hi, rfl⟩
  | forks => exact ⟨(hset _).symm ▸ fills_evForkStop hl hi, rfl⟩
  | asyncs => exact ⟨(hset _).symm ▸ fills_evAsyncStop hl hi, rfl⟩
  | prepares => exact ⟨(hset _).symm ▸ fills_evPrepareStop hl hi, rfl⟩
  | checks => exact ⟨(hset _).symm ▸ fills_evCheckStop hl hi, rfl⟩

theorem signals_evSignalStop (s : Process L U T K) (x : L × SignalW U) : (s.evSignalStop x).signals =
    if s.signals.active x = 0 then s.signals else s.signals.stop (s.place x) x := by
  unfold Process.evSignalStop
  dsimp only
  by_cases hx : s.signals.active x = 0
  · rw [if_pos (by exact hx), if_pos hx]
    rfl
  · rw [if_neg (by exact hx), if_neg hx]
    split
    · rfl
    · rfl

/-- The arrays of the loops are as they were. -/
theorem cells_evSignalStop (e : Env U T) (s : Process L U T K) (x : L × SignalW U) (l : L) (g : Fam) :
    g.cnt ((s.evSignalStop x).loops l) = g.cnt (s.loops l) ∧
      g.cell e ((s.evSignalStop x).loops l) = g.cell e (s.loops l) := by
  have hset : ∀ (s : Process L U T K) m,
      m.timers = (s.loops x.1).timers ∧ m.periodics = (s.loops x.1).periodics ∧ m.arrays = (s.loops x.1).arrays →
      ∀ l, g.cnt ((s.setLoop x.1 m).loops l) = g.cnt (s.loops l) ∧
        g.cell e ((s.setLoop x.1 m).loops l) = g.cell e (s.loops l) := by
    intro s m hm l
    by_cases hl : l = x.1
    · rw [hl, show (s.setLoop x.1 m).loops x.1 = m from Function.update_self ..]
      exact Fam.congr e hm.1 hm.2.1 hm.2.2 g
    · rw [show (s.setLoop x.1 m).loops l = s.loops l from Function.update_of_ne hl ..]
      exact ⟨rfl, rfl⟩
  have hclear := hset s ((s.loops x.1).clearPending (.signal x.2)) ⟨rfl, rfl, Loop.arrays_clearPending _ _⟩ l
  generalize hs₁ : s.setLoop x.1 ((s.loops x.1).clearPending (.signal x.2)) = s₁ at hclear
  have hstop := hset s₁ (s₁.loops x.1).evStop ⟨rfl, rfl, rfl⟩ l
  unfold Process.evSignalStop
  dsimp only
  rw [hs₁]
  split
  · exact hclear
  · split
    · exact ⟨hstop.1.trans hclear.1, hstop.2.trans hclear.2⟩
    · exact ⟨hstop.1.trans hclear.1, hstop.2.trans hclear.2⟩

/-! ### What is ahead -/

/-- The watchers of the first `i` entries that the callback is given, the last entry's first. -/
def below (e : Env U T) (l : L) (m : Loop U T K) (f : Fam) (i : ℕ) : List (L × Watcher U) :=
  (((List.range i).reverse.map (f.cell e m)).filter fun w => !inner w).map (l, ·)

theorem below_succ (f : Fam) (i : ℕ) : below e l m f (i + 1) =
    if inner (f.cell e m i) then below e l m f i else (l, f.cell e m i) :: below e l m f i := by
  unfold below
  rw [List.range_succ, List.reverse_append, List.reverse_singleton, List.singleton_append, List.map_cons,
    List.filter_cons]
  cases inner (f.cell e m i) with
  | true => rfl
  | false => rfl

theorem below_congr {n : Loop U T K} {f : Fam} (h : ∀ j < i, f.cell e n j = f.cell e m j) :
    below e l n f i = below e l m f i := by
  unfold below
  rw [List.map_congr_left fun j hj => h j (by simpa using hj)]

/-- What a task gives to the callback if it stops nothing. -/
def ahead (e : Env U T) (l : L) (s : Process L U T K) : Task L U → List (L × Watcher U)
  | .array f => below e l (s.loops l) f (f.cnt (s.loops l))
  | .entries f i => below e l (s.loops l) f i
  | .place k => (s.signals.head k).map fun x => (x.1, .signal x.2)
  | .watchers _ ws => ws.map fun x => (x.1, .signal x.2)

/-- What the callback was given, and is yet to be. -/
def State.order (e : Env U T) (l : L) (s : State L U T K) : List (L × Watcher U) :=
  s.visited.reverse ++ s.todo.flatMap (ahead e l s.proc)

/-- The array or list of a task. -/
def Task.name : Task L U → Fam ⊕ ℕ
  | array f => .inl f
  | entries f _ => .inl f
  | place k => .inr k
  | watchers k _ => .inr k

/-- A loop is inside its array or list. -/
def Fits (l : L) (s : Process L U T K) : Task L U → Prop
  | .entries f i => i ≤ f.cnt (s.loops l)
  | .watchers k ws => ws.Nodup ∧ ∀ x ∈ ws, x ∈ s.signals.head k
  | _ => True

structure Walking (e : Env U T) (nsig : ℕ) (l : L) (s : State L U T K) : Prop where
  inv : Inv e nsig s.proc
  names : (s.todo.map Task.name).Nodup
  fits : ∀ task ∈ s.todo, Fits l s.proc task

/-- A task whose array or list is as it was. -/
theorem ahead_congr {task : Task L U}
    (hf : ∀ g, task.name = .inl g → g.cnt (t.loops l) = g.cnt (s.loops l) ∧
      g.cell e (t.loops l) = g.cell e (s.loops l))
    (hk : ∀ k, task.name = .inr k → t.signals.head k = s.signals.head k) (hfit : Fits l s task) :
    ahead e l t task = ahead e l s task ∧ Fits l t task := by
  cases task with
  | array f =>
    obtain ⟨hcnt, hcell⟩ := hf f rfl
    refine ⟨?_, trivial⟩
    simp only [ahead, hcnt]
    exact below_congr fun j _ => congrFun hcell j
  | entries f i =>
    obtain ⟨hcnt, hcell⟩ := hf f rfl
    exact ⟨below_congr fun j _ => congrFun hcell j, le_of_le_of_eq hfit hcnt.symm⟩
  | place k =>
    refine ⟨?_, trivial⟩
    simp only [ahead, hk k rfl]
  | watchers k ws => exact ⟨rfl, hfit.1, fun x hx => (hk k rfl).symm ▸ hfit.2 x hx⟩

/-- A watcher is given to the callback. What is ahead is then the rest of its own array or list, and the others. -/
theorem Walking.visit {task : Task L U} {rest : List (Task L U)} {visited : List (L × Watcher U)}
    {x : L × Watcher U} (h : Walking e nsig l ⟨s, task :: rest, visited⟩) (task' : Task L U)
    (hname : task'.name = task.name)
    (ht : Inv e nsig t) (htask : ahead e l s task = x :: ahead e l t task' ∧ Fits l t task')
    (hf : ∀ g, task.name ≠ .inl g → g.cnt (t.loops l) = g.cnt (s.loops l) ∧
      g.cell e (t.loops l) = g.cell e (s.loops l))
    (hk : ∀ k, task.name ≠ .inr k → t.signals.head k = s.signals.head k) :
    Walking e nsig l ⟨t, task' :: rest, x :: visited⟩ ∧
      State.order e l ⟨t, task' :: rest, x :: visited⟩ = State.order e l ⟨s, task :: rest, visited⟩ := by
  have hnames : task.name ∉ rest.map Task.name ∧ (rest.map Task.name).Nodup := List.nodup_cons.mp h.names
  have hrest : ∀ u ∈ rest, ahead e l t u = ahead e l s u ∧ Fits l t u := by
    intro u hu
    have hne : task.name ≠ u.name := fun hc => hnames.1 (hc ▸ List.mem_map_of_mem hu)
    exact ahead_congr (fun g hg => hf g fun hc => hne (hc.trans hg.symm))
      (fun k hk' => hk k fun hc => hne (hc.trans hk'.symm)) (h.fits u (List.mem_cons_of_mem _ hu))
  refine ⟨⟨ht, ?_, fun u hu => ?_⟩, ?_⟩
  · show (task'.name :: rest.map Task.name).Nodup
    rw [hname]
    exact h.names
  · rcases List.mem_cons.mp hu with rfl | hu
    · exact htask.2
    · exact (hrest u hu).2
  · unfold State.order
    simp only [List.flatMap_cons, List.reverse_cons, List.append_assoc, List.cons_append, List.nil_append, htask.1]
    rw [List.flatMap_congr fun u hu => (hrest u hu).1]

/-- A round that gives no watcher to the callback. -/
theorem Walking.turn {task : Task L U} {rest : List (Task L U)} {visited : List (L × Watcher U)}
    (h : Walking e nsig l ⟨s, task :: rest, visited⟩) (tasks : List (Task L U))
    (hname : (tasks.map Task.name).Sublist [task.name])
    (hfit : ∀ u ∈ tasks, Fits l s u) (htask : ahead e l s task = tasks.flatMap (ahead e l s)) :
    Walking e nsig l ⟨s, tasks ++ rest, visited⟩ ∧
      State.order e l ⟨s, tasks ++ rest, visited⟩ = State.order e l ⟨s, task :: rest, visited⟩ := by
  refine ⟨⟨h.inv, ?_, fun u hu => ?_⟩, ?_⟩
  · have hsub : ((tasks ++ rest).map Task.name).Sublist ((task :: rest).map Task.name) := by
      rw [List.map_append]
      exact hname.append (List.Sublist.refl _)
    exact hsub.nodup h.names
  · rcases List.mem_append.mp hu with hu | hu
    · exact hfit u hu
    · exact h.fits u (List.mem_cons_of_mem _ hu)
  · unfold State.order
    dsimp only
    rw [List.flatMap_append, List.flatMap_cons, htask]

theorem Walking.entry {f : Fam} {rest : List (Task L U)} {visited : List (L × Watcher U)} {stops : Bool}
    (h : Walking e nsig l ⟨s, .entries f (i + 1) :: rest, visited⟩)
    (hs : stops = true → ¬ Unsteady e l ⟨s, .entries f (i + 1) :: rest, visited⟩) :
    Walking e nsig l (next e l ⟨s, .entries f (i + 1) :: rest, visited⟩ stops) ∧
      (next e l ⟨s, .entries f (i + 1) :: rest, visited⟩ stops).order e l =
        State.order e l ⟨s, .entries f (i + 1) :: rest, visited⟩ := by
  have hfit : i + 1 ≤ f.cnt (s.loops l) := h.fits _ List.mem_cons_self
  have hahead : ahead e l s (.entries f (i + 1)) = below e l (s.loops l) f (i + 1) := rfl
  rw [below_succ] at hahead
  unfold next
  dsimp only
  cases hinner : inner (f.cell e (s.loops l) i) with
  | true =>
    rw [hinner, if_pos rfl] at hahead
    rw [if_pos rfl]
    exact h.turn [.entries f i] (List.Sublist.refl _)
      (fun u hu => by cases List.mem_singleton.mp hu; exact (Nat.le_succ i).trans hfit)
      (hahead.trans (List.append_nil _).symm)
  | false =>
    rw [hinner, if_neg Bool.false_ne_true] at hahead
    rw [if_neg Bool.false_ne_true]
    cases stops with
    | false =>
      exact h.visit (t := s) (.entries f i) rfl h.inv ⟨hahead, (Nat.le_succ i).trans hfit⟩
        (fun _ _ => ⟨rfl, rfl⟩) fun _ _ => rfl
    | true =>
      obtain ⟨hfill, hsig⟩ := fills_stop h.inv hfit hinner (hs rfl)
      refine h.visit (t := s.stop e (l, f.cell e (s.loops l) i)) (.entries f i) rfl (h.inv.stop _)
        ⟨?_, hfill.cnt⟩ (fun g hg => hfill.others g fun hc => hg (congrArg Sum.inl hc.symm)) fun k _ => by rw [hsig]
      rw [hahead]
      exact congrArg (_ :: ·) (below_congr hfill.below).symm

theorem Walking.signal {k : ℕ} {x : L × SignalW U} {ws : List (L × SignalW U)} {rest : List (Task L U)}
    {visited : List (L × Watcher U)} {stops : Bool}
    (h : Walking e nsig l ⟨s, .watchers k (x :: ws) :: rest, visited⟩) :
    Walking e nsig l (next e l ⟨s, .watchers k (x :: ws) :: rest, visited⟩ stops) ∧
      (next e l ⟨s, .watchers k (x :: ws) :: rest, visited⟩ stops).order e l =
        State.order e l ⟨s, .watchers k (x :: ws) :: rest, visited⟩ := by
  obtain ⟨hnodup, hmem⟩ : (x :: ws).Nodup ∧ ∀ y ∈ x :: ws, y ∈ s.signals.head k := h.fits _ List.mem_cons_self
  obtain ⟨hnot, hnodup⟩ := List.nodup_cons.mp hnodup
  cases stops with
  | false =>
    exact h.visit (t := s) (.watchers k ws) rfl h.inv
      ⟨rfl, hnodup, fun y hy => hmem y (List.mem_cons_of_mem _ hy)⟩ (fun _ _ => ⟨rfl, rfl⟩) fun _ _ => rfl
  | true =>
    have hx : s.signals.active x ≠ 0 ∧ s.place x = k := (h.inv.signals.mem k x).mp (hmem x List.mem_cons_self)
    have hstop : (s.evSignalStop x).signals = s.signals.stop k x := by
      rw [signals_evSignalStop, if_neg hx.1, hx.2]
    refine h.visit (t := s.evSignalStop x) (.watchers k ws) rfl (h.inv.evSignalStop x)
      ⟨rfl, hnodup, fun y hy => ?_⟩ (fun g _ => cells_evSignalStop e s x l g) fun k' hk => ?_
    · have hne : y ≠ x := fun hc => hnot (hc ▸ hy)
      rw [hstop, Lists.mem_stop _ _ _ hne]
      exact hmem y (List.mem_cons_of_mem _ hy)
    · rw [hstop, Lists.head_stop, if_neg fun hc => hk (congrArg Sum.inr hc.symm)]

/-- A round keeps the order, unless it stops a watcher whose place an entry goes up to fill. -/
theorem walking_next {w : State L U T K} {stops : Bool} (h : Walking e nsig l w)
    (hs : stops = true → ¬ Unsteady e l w) :
    Walking e nsig l (next e l w stops) ∧ (next e l w stops).order e l = w.order e l := by
  obtain ⟨s, todo, visited⟩ := w
  cases todo with
  | nil => exact ⟨h, rfl⟩
  | cons task rest =>
    cases task with
    | array f =>
      exact h.turn [.entries f (f.cnt (s.loops l))] (List.Sublist.refl _)
        (fun u hu => by cases List.mem_singleton.mp hu; exact le_refl (f.cnt (s.loops l))) (List.append_nil _).symm
    | entries f i =>
      cases i with
      | zero => exact h.turn [] (List.nil_sublist _) (fun u hu => absurd hu List.not_mem_nil) rfl
      | succ i => exact h.entry hs
    | place k =>
      exact h.turn [.watchers k (s.signals.head k)] (List.Sublist.refl _)
        (fun u hu => by cases List.mem_singleton.mp hu; exact ⟨h.inv.signals.nodup k, fun _ hx => hx⟩)
        (List.append_nil _).symm
    | watchers k ws =>
      cases ws with
      | nil => exact h.turn [] (List.nil_sublist _) (fun u hu => absurd hu List.not_mem_nil) rfl
      | cons x ws => exact h.signal

/-! ### What a walk starts with -/

/-- The index in the structure of the first entry, as `active` counts. -/
def Fam.first (e : Env U T) : Fam → ℕ
  | timers => e.heap.heap0
  | periodics => e.heap.heap0
  | _ => 1

theorem active_cell (h : Loop.Arranged e m) (f : Fam) (hi : i < f.cnt m) :
    m.active (f.cell e m i) = i + f.first e := by
  have hlt : ∀ n, i < n → i + e.heap.heap0 < e.heap.heap0 + n := fun n hn => by omega
  cases f with
  | timers => exact (h.heaps.1.linked.links.back _ (Nat.le_add_left ..) (hlt _ hi)).1
  | periodics => exact (h.heaps.2.linked.links.back _ (Nat.le_add_left ..) (hlt _ hi)).1
  | idles pri => exact (h.arrays.idles.cell pri i hi).2
  | forks => exact (h.arrays.forks.cell 0 i hi).2
  | asyncs => exact (h.arrays.asyncs.cell 0 i hi).2
  | prepares => exact (h.arrays.prepares.cell 0 i hi).2
  | checks => exact (h.arrays.checks.cell 0 i hi).2

theorem below_nodup (h : Loop.Arranged e m) (f : Fam) (hi : i ≤ f.cnt m) : (below e l m f i).Nodup := by
  refine List.Nodup.map (fun a b hab => (Prod.mk.inj hab).2) (List.Nodup.filter _ ?_)
  refine List.Nodup.map_on (fun a ha b hb hab => ?_) (List.nodup_reverse.mpr List.nodup_range)
  have ha' := active_cell h f (i := a) (by simp at ha; omega)
  rw [hab, active_cell h f (i := b) (by simp at hb; omega)] at ha'
  omega

/-- The array or list a watcher is in while it is active. -/
def home (s : Process L U T K) (x : L × Watcher U) : Option (Fam ⊕ ℕ) :=
  match x.2 with
  | .timer _ => some (.inl .timers)
  | .periodic _ => some (.inl .periodics)
  | .idle w => some (.inl (.idles ((s.loops x.1).pend.abspri (.idle w))))
  | .fork _ => some (.inl .forks)
  | .async _ => some (.inl .asyncs)
  | .prepare _ => some (.inl .prepares)
  | .check _ => some (.inl .checks)
  | .signal w => some (.inr (s.place (x.1, w)))
  | _ => none

theorem home_cell (h : Inv e nsig s) (f : Fam) (hi : i < f.cnt (s.loops l)) :
    home s (l, f.cell e (s.loops l) i) = some (.inl f) := by
  cases f with
  | idles pri =>
    have hkey : (s.loops l).pend.abspri (.idle ((s.loops l).idles.cells pri i)) = pri :=
      ((h.loops l).arrays.idles.cell pri i hi).1
    exact congrArg (fun q => some (Sum.inl (Fam.idles q))) hkey
  | _ => rfl

theorem home_ahead {task : Task L U} {x : L × Watcher U} (h : Inv e nsig s) (hfit : Fits l s task)
    (hx : x ∈ ahead e l s task) : home s x = some task.name := by
  have hbelow : ∀ f i, i ≤ f.cnt (s.loops l) → x ∈ below e l (s.loops l) f i → home s x = some (.inl f) := by
    intro f i hi hx
    obtain ⟨w, hw, rfl⟩ := List.mem_map.mp hx
    obtain ⟨j, hj, rfl⟩ := List.mem_map.mp (List.mem_filter.mp hw).1
    exact home_cell h f (by simp at hj; omega)
  have hlist : ∀ k (ws : List (L × SignalW U)), (∀ y ∈ ws, y ∈ s.signals.head k) →
      x ∈ ws.map (fun y => (y.1, Watcher.signal y.2)) → home s x = some (.inr k) := by
    intro k ws hws hx
    obtain ⟨y, hy, rfl⟩ := List.mem_map.mp hx
    exact congrArg (some ∘ Sum.inr) ((h.signals.mem k y).mp (hws y hy)).2
  cases task with
  | array f => exact hbelow f _ (le_refl _) hx
  | entries f i => exact hbelow f i hfit hx
  | place k => exact hlist k _ (fun _ hy => hy) hx
  | watchers k ws => exact hlist k ws hfit.2 hx

theorem ahead_nodup {task : Task L U} (h : Inv e nsig s) (hfit : Fits l s task) : (ahead e l s task).Nodup := by
  have hlist : ∀ ws : List (L × SignalW U), ws.Nodup → (ws.map fun y => (y.1, Watcher.signal y.2)).Nodup := by
    intro ws hws
    refine hws.map fun y z hyz => ?_
    obtain ⟨h₁, h₂⟩ := Prod.mk.inj hyz
    exact Prod.ext h₁ (Watcher.signal.inj h₂)
  cases task with
  | array f => exact below_nodup (h.loops l) f (le_refl _)
  | entries f i => exact below_nodup (h.loops l) f hfit
  | place k => exact hlist _ (h.signals.nodup k)
  | watchers k ws => exact hlist ws hfit.1

/-- No watcher is ahead twice. -/
theorem Walking.nodup {w : State L U T K} (h : Walking e nsig l w) : (w.todo.flatMap (ahead e l w.proc)).Nodup := by
  refine List.nodup_flatMap.mpr ⟨fun task ht => ahead_nodup h.inv (h.fits task ht), ?_⟩
  have hpair := List.pairwise_map.mp h.names
  refine hpair.imp_of_mem fun {t₁ t₂} h₁ h₂ hne x hx₁ hx₂ => hne ?_
  have hhome := (home_ahead h.inv (h.fits t₁ h₁) hx₁).symm.trans (home_ahead h.inv (h.fits t₂ h₂) hx₂)
  exact Option.some.inj hhome

theorem mem_below {w : Watcher U} {f : Fam} (hinner : inner w = false)
    (hw : ∃ i < f.cnt m, f.cell e m i = w) : (l, w) ∈ below e l m f (f.cnt m) := by
  obtain ⟨i, hi, rfl⟩ := hw
  refine List.mem_map_of_mem (List.mem_filter.mpr ⟨List.mem_map_of_mem ?_, by rw [hinner]; rfl⟩)
  simpa using hi

/-- The entry of an active watcher of a heap. -/
theorem heap_entry {W : Type} [DecidableEq W] {b : Dheap} {d : Deadlines W T} {w : W}
    (h : d.Ok b fun w => d.active w ≠ 0) (hw : d.active w ≠ 0) :
    ∃ i < d.cnt, (d.heap.cells (i + b.heap0)).anheW = w := by
  obtain ⟨hk, hkn, he⟩ := h.linked.place hw
  refine ⟨d.active w - b.heap0, by omega, ?_⟩
  rw [Nat.sub_add_cancel hk]
  exact he

/-- The entry of an active watcher of an array. -/
theorem slot_entry {W : Type} {r : Slots W} {key : W → ℕ} {w : W} (h : r.Filed key) (hw : r.active w ≠ 0) :
    ∃ i < r.cnt (key w), r.cells (key w) i = w := by
  obtain ⟨hle, hc⟩ := h.active w hw
  exact ⟨r.active w - 1, by omega, hc⟩

/-- An active watcher of a type that is asked for is ahead at the start. -/
theorem mem_start {w : Watcher U} {ty : WalkType} {types : WalkType → Bool} (h : Inv e nsig s)
    (hty : typeOf w = some ty) (hasked : types ty = true) (hinner : inner w = false) (hact : s.active (l, w) ≠ 0) :
    (l, w) ∈ (tasks nsig types).flatMap (ahead e l s) := by
  have hl := h.loops l
  have hmem : ∀ f : Fam, .array f ∈ (tasks nsig types : List (Task L U)) →
      (∃ i < f.cnt (s.loops l), f.cell e (s.loops l) i = w) → (l, w) ∈ (tasks nsig types).flatMap (ahead e l s) :=
    fun f hf hw => List.mem_flatMap.mpr ⟨.array f, hf, mem_below hinner hw⟩
  cases w with
  | timer w =>
    cases hty
    obtain ⟨i, hi, he⟩ := heap_entry hl.heaps.1 hact
    exact hmem .timers (by simp [tasks, hasked]) ⟨i, hi, congrArg Watcher.timer he⟩
  | periodic w =>
    cases hty
    obtain ⟨i, hi, he⟩ := heap_entry hl.heaps.2 hact
    exact hmem .periodics (by simp [tasks, hasked]) ⟨i, hi, congrArg Watcher.periodic he⟩
  | idle w =>
    cases hty
    obtain ⟨i, hi, he⟩ := slot_entry hl.arrays.idles hact
    obtain ⟨hlo, hhi⟩ : minpri ≤ (s.loops l).pend.priority (.idle w) ∧
        (s.loops l).pend.priority (.idle w) ≤ maxpri :=
      hl.arrays.range w hact
    have hpri : ((s.loops l).pend.priority (.idle w) - minpri).toNat < numpri := by
      unfold numpri
      unfold minpri maxpri at *
      omega
    exact hmem (.idles ((s.loops l).pend.priority (.idle w) - minpri).toNat) (by simpa [tasks, hasked] using hpri)
      ⟨i, hi, congrArg Watcher.idle he⟩
  | fork w =>
    cases hty
    obtain ⟨i, hi, he⟩ := slot_entry hl.arrays.forks hact
    exact hmem .forks (by simp [tasks, hasked]) ⟨i, hi, congrArg Watcher.fork he⟩
  | async w =>
    cases hty
    obtain ⟨i, hi, he⟩ := slot_entry hl.arrays.asyncs hact
    exact hmem .asyncs (by simp [tasks, hasked]) ⟨i, hi, congrArg Watcher.async he⟩
  | prepare w =>
    cases hty
    obtain ⟨i, hi, he⟩ := slot_entry hl.arrays.prepares hact
    exact hmem .prepares (by simp [tasks, hasked]) ⟨i, hi, congrArg Watcher.prepare he⟩
  | check w =>
    cases hty
    obtain ⟨i, hi, he⟩ := slot_entry hl.arrays.checks hact
    exact hmem .checks (by simp [tasks, hasked]) ⟨i, hi, congrArg Watcher.check he⟩
  | signal w =>
    cases hty
    refine List.mem_flatMap.mpr ⟨.place (s.place (l, w)), ?_, ?_⟩
    · simpa [tasks, hasked] using h.places (l, w) hact
    · exact List.mem_map.mpr ⟨(l, w), (h.signals.mem _ _).mpr ⟨hact, rfl⟩, rfl⟩
  | _ => cases hty

/-- Nothing of another loop is ahead at the start, if no signal that is walked is attached to one. -/
theorem loop_start {types : WalkType → Bool} {x : L × Watcher U}
    (hloop : types .signal = true → ∀ k < nsig - 1, ∀ y ∈ s.signals.head k, y.1 = l)
    (hx : x ∈ (tasks nsig types).flatMap (ahead e l s)) : x.1 = l := by
  obtain ⟨task, ht, hx⟩ := List.mem_flatMap.mp hx
  cases task with
  | array f =>
    obtain ⟨w, -, rfl⟩ := List.mem_map.mp hx
    rfl
  | entries f i =>
    obtain ⟨w, -, rfl⟩ := List.mem_map.mp hx
    rfl
  | place k =>
    obtain ⟨y, hy, rfl⟩ := List.mem_map.mp hx
    have hk : types .signal = true ∧ k < nsig - 1 := by
      simpa [tasks, and_comm] using ht
    exact hloop hk.1 k hk.2 y hy
  | watchers k ws =>
    simp [tasks] at ht

theorem ite_sublist {A : Type} (b : Bool) (xs : List A) : (if b then xs else []).Sublist xs := by
  cases b with
  | true => exact List.Sublist.refl xs
  | false => exact List.nil_sublist xs

theorem names_tasks (types : WalkType → Bool) : ((tasks nsig types : List (Task L U)).map Task.name).Nodup := by
  have hall : ((tasks nsig (fun _ => true) : List (Task L U)).map Task.name) =
      [.inl .timers, .inl .periodics, .inl (.idles 4), .inl (.idles 3), .inl (.idles 2), .inl (.idles 1),
        .inl (.idles 0), .inl .forks, .inl .asyncs, .inl .prepares, .inl .checks] ++
      (List.range (nsig - 1)).map .inr := by
    unfold tasks
    rw [List.map_append]
    refine congrArg₂ (· ++ ·) rfl ?_
    rw [if_pos rfl, List.map_map]
    rfl
  have hnodup : ((tasks nsig (fun _ => true) : List (Task L U)).map Task.name).Nodup := by
    rw [hall]
    refine List.nodup_append'.mpr ⟨by decide, List.nodup_range.map fun a b hab => Sum.inr.inj hab, ?_⟩
    intro n hn hn'
    obtain ⟨k, -, rfl⟩ := List.mem_map.mp hn'
    simp at hn
  refine List.Sublist.nodup (List.Sublist.map _ ?_) hnodup
  unfold tasks
  exact ((((((((ite_sublist ..).append (ite_sublist ..)).append (ite_sublist ..)).append (ite_sublist ..)).append
    (ite_sublist ..)).append (ite_sublist ..)).append (ite_sublist ..)).append (ite_sublist ..))

theorem walking_start (h : Inv e nsig s) (types : WalkType → Bool) : Walking e nsig l ⟨s, tasks nsig types, []⟩ := by
  refine ⟨h, names_tasks types, fun task ht => ?_⟩
  cases task with
  | array f => trivial
  | place k => trivial
  | entries f i => simp [tasks] at ht
  | watchers k ws => simp [tasks] at ht

/-- The order is that of the start all along. -/
theorem order_evWalk {types : WalkType → Bool} {stops : ℕ → Bool} (h : Inv e nsig s)
    (hs : ∀ n, stops n = true → ¬ Unsteady e l (evWalk e nsig s l types stops n)) (n : ℕ) :
    Walking e nsig l (evWalk e nsig s l types stops n) ∧
      (evWalk e nsig s l types stops n).order e l = (tasks nsig types).flatMap (ahead e l s) := by
  induction n with
  | zero => exact ⟨walking_start h types, rfl⟩
  | succ n ih =>
    obtain ⟨hw, ho⟩ := ih
    obtain ⟨hw', ho'⟩ := walking_next hw (hs n)
    exact ⟨hw', ho'.trans ho⟩

/-- A walk ends. -/
theorem evWalk_ends (e : Env U T) (nsig : ℕ) (s : Process L U T K) (l : L) (types : WalkType → Bool)
    (stops : ℕ → Bool) : ∃ n, (evWalk e nsig s l types stops n).todo = [] := by
  have hnext : ∀ n, evWalk e nsig s l types stops (n + 1) = next e l (evWalk e nsig s l types stops n) (stops n) :=
    fun _ => rfl
  have hentries : ∀ f i rest n, (evWalk e nsig s l types stops n).todo = .entries f i :: rest →
      ∃ n', (evWalk e nsig s l types stops n').todo = rest := by
    intro f i
    induction i with
    | zero =>
      intro rest n hn
      refine ⟨n + 1, ?_⟩
      rw [hnext]
      unfold next
      rw [hn]
    | succ i ih =>
      intro rest n hn
      refine ih rest (n + 1) ?_
      rw [hnext]
      unfold next
      rw [hn]
      dsimp only
      split
      · rfl
      · rfl
  have hwatchers : ∀ k ws rest n, (evWalk e nsig s l types stops n).todo = .watchers k ws :: rest →
      ∃ n', (evWalk e nsig s l types stops n').todo = rest := by
    intro k ws
    induction ws with
    | nil =>
      intro rest n hn
      refine ⟨n + 1, ?_⟩
      rw [hnext]
      unfold next
      rw [hn]
    | cons x ws ih =>
      intro rest n hn
      refine ih rest (n + 1) ?_
      rw [hnext]
      unfold next
      rw [hn]
      rfl
  have htodo : ∀ todo n, (evWalk e nsig s l types stops n).todo = todo →
      ∃ n', (evWalk e nsig s l types stops n').todo = [] := by
    intro todo
    induction todo with
    | nil => exact fun n hn => ⟨n, hn⟩
    | cons task rest ih =>
      intro n hn
      have hrest : ∃ n', (evWalk e nsig s l types stops n').todo = rest := by
        cases task with
        | array f =>
          refine hentries f (f.cnt ((evWalk e nsig s l types stops n).proc.loops l)) rest (n + 1) ?_
          rw [hnext]
          unfold next
          rw [hn]
        | entries f i => exact hentries f i rest n hn
        | place k =>
          refine hwatchers k ((evWalk e nsig s l types stops n).proc.signals.head k) rest (n + 1) ?_
          rw [hnext]
          unfold next
          rw [hn]
        | watchers k ws => exact hwatchers k ws rest n hn
      obtain ⟨n', hn'⟩ := hrest
      exact ih n' hn'
  exact htodo _ 0 rfl

/-- **`ev_walk` visits each watcher once**, from every state a process reaches and whatever the callback stops: each
watcher of a type asked for that is active in this loop at the start, and is not inside a stat or an embed, is given
to the callback once, and none of another loop is, if no signal that is walked is attached to another loop and no
stop makes an entry of a heap go up to fill the place. -/
theorem walk_once [AddRightMono T] [Inhabited U] {kernel : K} {acts : List (Act L U T K)}
    (hrun : Runs e nsig (init kernel) acts s) (l : L) (types : WalkType → Bool) (stops : ℕ → Bool)
    (hloop : types .signal = true → ∀ k < nsig - 1, ∀ y ∈ s.signals.head k, y.1 = l)
    (hs : ∀ n, stops n = true → ¬ Unsteady e l (evWalk e nsig s l types stops n)) :
    ∃ n, (evWalk e nsig s l types stops n).todo = [] ∧
      (∀ w ty, typeOf w = some ty → types ty = true → inner w = false → s.active (l, w) ≠ 0 →
        (evWalk e nsig s l types stops n).visited.count (l, w) = 1) ∧
      ∀ x ∈ (evWalk e nsig s l types stops n).visited, x.1 = l := by
  have hinv := inv_run hrun (inv_init kernel)
  obtain ⟨n, hn⟩ := evWalk_ends e nsig s l types stops
  have horder := (order_evWalk hinv hs n).2
  unfold State.order at horder
  rw [hn, List.flatMap_nil, List.append_nil] at horder
  refine ⟨n, hn, fun w ty hty hasked hinner hact => ?_, fun x hx => ?_⟩
  · rw [← List.count_reverse, horder]
    exact List.count_eq_one_of_mem (walking_start (l := l) hinv types).nodup (mem_start hinv hty hasked hinner hact)
  · refine loop_start (e := e) hloop ?_
    rw [← horder]
    exact List.mem_reverse.mpr hx

end

/-- A build with the binary heap. -/
def binary : Env ℕ ℤ := ⟨.two, fun _ _ _ => 0, fun _ _ _ => 0⟩

/-- A timer of the first loop is started. -/
def timerStarts (w : ℕ) (after : ℤ) : List (Act Bool ℕ ℤ Unit) :=
  [.time false (.timerSet (.user w) after 0), .time false (.timerStart (.user w))]

/-- Three timers, an idle and a signal watcher of the first loop, and a timer of the other. -/
def mixed : List (Act Bool ℕ ℤ Unit) :=
  timerStarts 0 10 ++ timerStarts 1 20 ++ timerStarts 2 30 ++
    [.start 5 (false, .idle 0), .start 5 (false, .signal (.user 0)), .time true (.timerStart (.user 0))]

/-- The callback stops every watcher. -/
theorem walk_once_mixed : ∃ s : Process Bool ℕ ℤ Unit, Runs binary 3 (init ()) mixed s ∧
    ∃ n, ((evWalk binary 3 s false (fun _ => true) (fun n => decide (n < 40)) n).visited.count
      (false, .timer (.user 1))) = 1 := by
  have hx : (execFrom (call binary 3) (init ()) mixed).map (fun s : Process Bool ℕ ℤ Unit =>
      ((List.range 40).all fun n =>
          !decide (Unsteady binary false (evWalk binary 3 s false (fun _ => true) (fun n => decide (n < 40)) n)),
        (List.range 2).all fun k => (s.signals.head k).all fun y => !y.1,
        decide (s.active (false, .timer (.user 1)) ≠ 0))) = some (true, true, true) := by
    decide +kernel
  obtain ⟨s, hs, hx⟩ := Option.map_eq_some_iff.mp hx
  obtain ⟨hsteady, hx⟩ := Prod.mk.inj hx
  obtain ⟨hloop, hact⟩ := Prod.mk.inj hx
  have hrun : Runs binary 3 (init ()) mixed s := Run.iff_execFrom.mpr hs
  obtain ⟨n, -, hcount, -⟩ := walk_once hrun false (fun _ => true) (fun n => decide (n < 40))
    (fun _ k hk y hy => by
      simpa using List.all_eq_true.mp (List.all_eq_true.mp hloop k (List.mem_range.mpr hk)) y hy)
    (fun n hn => by simpa using List.all_eq_true.mp hsteady n (List.mem_range.mpr (of_decide_eq_true hn)))
  exact ⟨s, hrun, n, hcount _ .timer rfl rfl rfl (of_decide_eq_true hact)⟩

/-- Seven timers, the last two below another branch of the heap than the fourth. -/
def branches : List (Act Bool ℕ ℤ Unit) :=
  timerStarts 0 10 ++ timerStarts 1 50 ++ timerStarts 2 20 ++ timerStarts 3 60 ++ timerStarts 4 70 ++
    timerStarts 5 30 ++ timerStarts 6 40

/-- The fourth timer is stopped: the last one takes its place and goes up, so it is visited again and the one that
makes way for it is not. And a signal watcher of another loop is visited. -/
theorem walk_once_fails :
    (∃ s : Process Bool ℕ ℤ Unit, Runs binary 3 (init ()) branches s ∧
      s.active (false, .timer (.user 1)) ≠ 0 ∧ s.active (false, .timer (.user 6)) ≠ 0 ∧
      (evWalk binary 3 s false (fun ty => decide (ty = .timer)) (fun n => decide (n = 4)) 9).todo = [] ∧
      (evWalk binary 3 s false (fun ty => decide (ty = .timer)) (fun n => decide (n = 4)) 9).visited =
        [0, 6, 2, 3, 4, 5, 6].map fun w => (false, .timer (.user w))) ∧
    ∃ s : Process Bool ℕ ℤ Unit, Runs binary 3 (init ()) [.start 5 (true, .signal (.user 0))] s ∧
      (evWalk binary 3 s false (fun ty => decide (ty = .signal)) (fun _ => false) 6).todo = [] ∧
      (evWalk binary 3 s false (fun ty => decide (ty = .signal)) (fun _ => false) 6).visited =
        [(true, .signal (.user 0))] := by
  constructor
  · have hx : (execFrom (call binary 3) (init ()) branches).map (fun s : Process Bool ℕ ℤ Unit =>
        (decide (s.active (false, .timer (.user 1)) ≠ 0), decide (s.active (false, .timer (.user 6)) ≠ 0),
          (evWalk binary 3 s false (fun ty => decide (ty = .timer)) (fun n => decide (n = 4)) 9).todo.length,
          (evWalk binary 3 s false (fun ty => decide (ty = .timer)) (fun n => decide (n = 4)) 9).visited)) =
        some (true, true, 0, [0, 6, 2, 3, 4, 5, 6].map fun w => (false, .timer (.user w))) := by
      decide +kernel
    obtain ⟨s, hs, hx⟩ := Option.map_eq_some_iff.mp hx
    obtain ⟨h₁, hx⟩ := Prod.mk.inj hx
    obtain ⟨h₂, hx⟩ := Prod.mk.inj hx
    obtain ⟨h₃, h₄⟩ := Prod.mk.inj hx
    exact ⟨s, Run.iff_execFrom.mpr hs, of_decide_eq_true h₁, of_decide_eq_true h₂, List.length_eq_zero_iff.mp h₃, h₄⟩
  · have hx : (execFrom (call binary 3) (init ()) [.start 5 (true, .signal (.user 0))]).map
        (fun s : Process Bool ℕ ℤ Unit =>
          ((evWalk binary 3 s false (fun ty => decide (ty = .signal)) (fun _ => false) 6).todo.length,
            (evWalk binary 3 s false (fun ty => decide (ty = .signal)) (fun _ => false) 6).visited)) =
        some (0, [(true, .signal (.user 0))]) := by
      decide +kernel
    obtain ⟨s, hs, hx⟩ := Option.map_eq_some_iff.mp hx
    obtain ⟨h₁, h₂⟩ := Prod.mk.inj hx
    exact ⟨s, Run.iff_execFrom.mpr hs, List.length_eq_zero_iff.mp h₁, h₂⟩

end Walk

end Qev
