/-
# What the passes rely on

The idle and check watchers are in arrays, the timers and periodics in heaps, and a watcher's
priority stands while it is active. `Kept` says so; every call of a watcher's start, stop or
again keeps it, and so does whatever a pass does with the queues (`kept_run`).
-/
import Qev.Loop.Clock
import Qev.Loop.Collect
import Qev.Loop.Invoke

namespace Qev

open Lib

namespace Loop

variable {U T K : Type} [DecidableEq U] [LinearOrder T] [Add T] [Sub T] [Zero T]

/-! ### What the timers and periodics leave alone -/

/-- The idle and check watchers are as they were, and the priorities are if they are in range. -/
structure Beside (l m : Loop U T K) : Prop where
  idles : m.idles = l.idles
  idleall : m.idleall = l.idleall
  checks : m.checks = l.checks
  dummy : m.pend.pendingW = l.pend.pendingW
  priority : l.pend.InRange → m.pend.InRange ∧ ∀ w : U, m.pend.priority (.idle w) = l.pend.priority (.idle w)

section

variable {e : Env U T} {l m n : Loop U T K} {w : Watcher U}

section

omit [DecidableEq U] [LinearOrder T] [Add T] [Sub T] [Zero T]

theorem Beside.of_priority (hi : m.idles = l.idles) (ha : m.idleall = l.idleall) (hc : m.checks = l.checks)
    (hd : m.pend.pendingW = l.pend.pendingW) (hp : m.pend.priority = l.pend.priority) : Beside l m := by
  refine ⟨hi, ha, hc, hd, fun hr => ⟨?_, fun w => by rw [hp]⟩⟩
  unfold Pend.InRange
  rw [hp]
  exact hr

theorem Beside.refl (l : Loop U T K) : Beside l l := .of_priority rfl rfl rfl rfl rfl

theorem Beside.trans (h₁ : Beside l m) (h₂ : Beside m n) : Beside l n where
  idles := h₂.idles.trans h₁.idles
  idleall := h₂.idleall.trans h₁.idleall
  checks := h₂.checks.trans h₁.checks
  dummy := h₂.dummy.trans h₁.dummy
  priority hr := by
    obtain ⟨hr₁, hp₁⟩ := h₁.priority hr
    obtain ⟨hr₂, hp₂⟩ := h₂.priority hr₁
    exact ⟨hr₂, fun w => (hp₂ w).trans (hp₁ w)⟩

end

theorem priority_clearPending (p : Pend (Watcher U)) (w : Watcher U) :
    (p.clearPending w).priority = p.priority ∧ (p.clearPending w).pendingW = p.pendingW := by
  unfold Pend.clearPending
  split <;> exact ⟨rfl, rfl⟩

theorem priority_feeds (ws : List (Watcher U)) (p : Pend (Watcher U)) (revents : Events) :
    (ws.foldl (fun p w => p.evFeedEvent w revents) p).priority = p.priority ∧
      (ws.foldl (fun p w => p.evFeedEvent w revents) p).pendingW = p.pendingW := by
  induction ws generalizing p with
  | nil => exact ⟨rfl, rfl⟩
  | cons w ws ih =>
    obtain ⟨h₁, h₂⟩ := ih (p.evFeedEvent w revents)
    exact ⟨h₁.trans (Pend.priority_feed p w revents), h₂.trans (Pend.pendingW_feed p w revents)⟩

section

omit [LinearOrder T] [Add T] [Sub T] [Zero T]

theorem beside_clearPending : Beside l (l.clearPending w) :=
  .of_priority rfl rfl rfl (priority_clearPending l.pend w).2 (priority_clearPending l.pend w).1

theorem beside_feedReverseDone (revents : Events) : Beside l (l.feedReverseDone revents) :=
  .of_priority rfl rfl rfl (priority_feeds ..).2 (priority_feeds ..).1

theorem beside_evStart : Beside l (l.evStart w) where
  idles := rfl
  idleall := rfl
  checks := rfl
  dummy := rfl
  priority hr := by
    show Pend.InRange (l.pend.priAdjust w) ∧ ∀ v : U, (l.pend.priAdjust w).priority (.idle v) = _
    rw [hr.priAdjust]
    exact ⟨hr, fun _ => rfl⟩

end

section

omit [Sub T] [Zero T]

theorem beside_evTimerStart (w : TimerW U) : Beside l (l.evTimerStart e w) := by
  unfold evTimerStart
  split
  · exact .refl l
  · exact (Beside.of_priority rfl rfl rfl rfl rfl).trans (beside_evStart.trans (.of_priority rfl rfl rfl rfl rfl))

end

section

omit [Add T] [Zero T]

theorem beside_evTimerStop (w : TimerW U) : Beside l (l.evTimerStop e w) := by
  unfold evTimerStop
  dsimp only
  split
  · exact beside_clearPending
  · exact beside_clearPending.trans (.of_priority rfl rfl rfl rfl rfl)

end

theorem beside_evTimerAgain (w : TimerW U) : Beside l (l.evTimerAgain e w) := by
  unfold evTimerAgain
  dsimp only
  split
  · split
    · exact beside_clearPending.trans (.of_priority rfl rfl rfl rfl rfl)
    · exact beside_clearPending.trans (beside_evTimerStop w)
  · split
    · refine (beside_clearPending (w := .timer w)).trans ?_
      generalize l.clearPending (.timer w) = l
      have hset : Beside l { l with timers := l.timers.setAt w (l.wRepeat w) } := .of_priority rfl rfl rfl rfl rfl
      exact hset.trans (beside_evTimerStart w)
    · exact beside_clearPending

theorem beside_timersReify : Beside l (l.timersReify e) := by
  have hone : ∀ l : Loop U T K, Beside l (l.timersReifyOne e) := by
    intro l
    unfold timersReifyOne
    dsimp only
    split
    · exact .of_priority rfl rfl rfl rfl rfl
    · exact (beside_evTimerStop _).trans (.of_priority rfl rfl rfl rfl rfl)
  have hloop : ∀ n (l : Loop U T K), Beside l (timersReifyLoop e n l) := by
    intro n
    induction n with
    | zero => exact fun l => .refl l
    | succ n ih =>
      intro l
      unfold timersReifyLoop
      split
      · exact (hone l).trans (ih _)
      · exact .refl l
  unfold timersReify
  split
  · exact (hloop _ l).trans (beside_feedReverseDone _)
  · exact .refl l

section

omit [LinearOrder T] [Sub T] [Zero T]

theorem pend_timersReschedule (adjust : T) : (l.timersReschedule e adjust).pend = l.pend ∧
    Beside l (l.timersReschedule e adjust) := by
  unfold timersReschedule
  generalize List.range l.timers.cnt = r
  induction r generalizing l with
  | nil => exact ⟨rfl, .refl l⟩
  | cons i r ih =>
    obtain ⟨h₁, h₂⟩ := ih (l := timersRescheduleOne e adjust l i)
    have hone : Beside l (timersRescheduleOne e adjust l i) := .of_priority rfl rfl rfl rfl rfl
    exact ⟨h₁, hone.trans h₂⟩

end

theorem pend_periodicsReschedule : (l.periodicsReschedule e).pend = l.pend ∧
    Beside l (l.periodicsReschedule e) := by
  obtain ⟨p, n, heq⟩ := periodicsReschedule_touches e l
  rw [heq]
  exact ⟨rfl, .of_priority rfl rfl rfl rfl rfl⟩

section

omit [LinearOrder T] [Add T] [Sub T] [Zero T]

theorem beside_evIoStart (w : IoW U) : Beside l (l.evIoStart w) := by
  unfold evIoStart
  split
  · exact .refl l
  · exact beside_evStart.trans (.of_priority rfl rfl rfl rfl rfl)

end

theorem beside_evtimerfdInit (k : TimerfdCreate T) : Beside l (l.evtimerfdInit e k) := by
  have hinit : ∀ m : Loop U T K, Beside m ((m.evIoInit .timerfdW k.fd.toNat evRead).evSetPriority
      (.io .timerfdW) minpri) := by
    intro m
    have hprio : ∀ v, ((m.evIoInit .timerfdW k.fd.toNat evRead).evSetPriority (.io .timerfdW)
        minpri).pend.priority v = if v = .io .timerfdW then minpri else m.pend.priority v := by
      intro v
      show Function.update (Function.update m.pend.priority (.io .timerfdW) 0) (.io .timerfdW) minpri v = _
      rw [Function.update_idem, Function.update_apply]
    refine ⟨rfl, rfl, rfl, rfl, fun hr => ⟨fun v => ?_, fun v => ?_⟩⟩
    · rw [hprio]
      split
      · decide
      · exact hr v
    · rw [hprio, if_neg (by simp)]
  unfold evtimerfdInit
  split
  · exact .refl l
  · have hfd : Beside l { l with timerfd := k.fd } := .of_priority rfl rfl rfl rfl rfl
    dsimp only
    split
    · have hstart := hfd.trans ((hinit _).trans (beside_evIoStart .timerfdW))
      generalize (({ l with timerfd := k.fd }.evIoInit .timerfdW k.fd.toNat evRead).evSetPriority
        (.io .timerfdW) minpri).evIoStart .timerfdW = m at hstart ⊢
      refine hstart.trans ?_
      have hclock : Beside m { m.evUnref with evRtNow := k.now } := .of_priority rfl rfl rfl rfl rfl
      unfold timerfdcb
      dsimp only
      split
      · exact hclock.trans pend_periodicsReschedule.2
      · exact hclock
    · exact hfd

theorem beside_evPeriodicStart (k : TimerfdCreate T) (w : U) : Beside l (l.evPeriodicStart e k w) := by
  unfold evPeriodicStart
  split
  · exact .refl l
  · obtain ⟨m, hm⟩ : ∃ m, m = if l.timerfd = -2 then l.evtimerfdInit e k else l := ⟨_, rfl⟩
    have hbm : Beside l m := by
      rw [hm]
      split
      · exact beside_evtimerfdInit k
      · exact .refl l
    rw [← hm]
    refine hbm.trans ?_
    rcases periodicNext_cases e m w with ⟨x, n, hn⟩ | hn
    · simp only [hn]
      exact (Beside.of_priority rfl rfl rfl rfl rfl).trans (beside_evStart.trans (.of_priority rfl rfl rfl rfl rfl))
    · simp only [hn]
      exact (Beside.of_priority rfl rfl rfl rfl rfl).trans (beside_evStart.trans (.of_priority rfl rfl rfl rfl rfl))

section

omit [Add T] [Sub T] [Zero T]

theorem beside_evPeriodicStop (w : U) : Beside l (l.evPeriodicStop e w) := by
  unfold evPeriodicStop
  dsimp only
  split
  · exact beside_clearPending
  · exact beside_clearPending.trans (.of_priority rfl rfl rfl rfl rfl)

end

theorem beside_periodicsReify (n : ℕ) : Beside l (l.periodicsReify e n) := by
  have hone : ∀ l : Loop U T K, Beside l (l.periodicsReifyOne e) := by
    intro l
    unfold periodicsReifyOne
    rcases periodicNext_cases e l (l.periodics.rootW e.heap) with ⟨x, c, hx⟩ | hx
    · simp only [hx]
      exact .of_priority rfl rfl rfl rfl rfl
    · simp only [hx]
      exact (beside_evPeriodicStop _).trans (.of_priority rfl rfl rfl rfl rfl)
  have hloop : ∀ n (l : Loop U T K), Beside l (periodicsReifyLoop e n l) := by
    intro n
    induction n with
    | zero => exact fun l => .refl l
    | succ n ih =>
      intro l
      unfold periodicsReifyLoop
      split
      · exact (hone l).trans (ih _)
      · exact .refl l
  unfold periodicsReify
  split
  · exact (hloop _ l).trans (beside_feedReverseDone _)
  · exact .refl l

theorem beside_timeCall {a : TimeAct U T} (hs : timeCall e l a = some m) : Beside l m := by
  cases a with
  | clock mn rt =>
    cases hs
    exact .of_priority rfl rfl rfl rfl rfl
  | timerSet w after repeat' =>
    simp only [timeCall, Option.ite_none_left_eq_some] at hs
    obtain ⟨-, hs⟩ := hs
    cases hs
    exact .of_priority rfl rfl rfl rfl rfl
  | timerRepeat w repeat' =>
    cases hs
    exact .of_priority rfl rfl rfl rfl rfl
  | timerStart w =>
    cases hs
    exact beside_evTimerStart w
  | timerStop w =>
    cases hs
    exact beside_evTimerStop w
  | timerAgain w =>
    cases hs
    exact beside_evTimerAgain w
  | timersReify =>
    cases hs
    exact beside_timersReify
  | timersReschedule adjust =>
    cases hs
    exact (pend_timersReschedule adjust).2
  | periodicSet w offset interval rescheduleCb =>
    cases hs
    exact .of_priority rfl rfl rfl rfl rfl
  | periodicStart k w =>
    cases hs
    exact beside_evPeriodicStart k w
  | periodicStop w =>
    cases hs
    exact beside_evPeriodicStop w
  | periodicAgain k w =>
    cases hs
    exact (beside_evPeriodicStop w).trans (beside_evPeriodicStart k w)
  | periodicsReify rounds =>
    cases hs
    exact beside_periodicsReify rounds
  | periodicsReschedule =>
    cases hs
    exact pend_periodicsReschedule.2

end

/-! ### Every call -/

/-- What the passes rely on. -/
structure Kept (e : Env U T) (l : Loop U T K) : Prop where
  heaps : ∃ t p, HeapsGood e t p l
  range : l.pend.InRange
  dummy : l.pend.pendingW = .pendingW
  idles : l.idles.Filed fun w => l.pend.abspri (.idle w)
  idleall : l.idleall = ∑ q ∈ Finset.range numpri, l.idles.cnt q
  checks : l.checks.Filed fun _ => 0

/-- What is done to a loop's timers, periodics, idle and check watchers. -/
inductive Call (U T : Type)
  | time (a : TimeAct U T)
  | idleStart (w : U)
  | idleStop (w : U)
  | checkStart (w : U)
  | checkStop (w : U)
  | setPriority (w : Watcher U) (pri : ℤ)
  /-- Feeding, clearing and invoking leave the queues so. -/
  | queues (p : Pend (Watcher U))

/-- One of them. A priority is set only while the watcher is neither active nor pending. -/
def call (e : Env U T) (l : Loop U T K) : Call U T → Option (Loop U T K)
  | .time a => timeStep e l a
  | .idleStart w => some (l.evIdleStart w)
  | .idleStop w => some (l.evIdleStop w)
  | .checkStart w => some (l.evCheckStart w)
  | .checkStop w => some (l.evCheckStop w)
  | .setPriority w pri =>
    if l.active w = 0 ∧ l.pend.pending w = 0 ∧ minpri ≤ pri ∧ pri ≤ maxpri then some (l.evSetPriority w pri)
    else none
  | .queues p => some { l with pend := { p with priority := l.pend.priority, pendingW := l.pend.pendingW } }

/-- A run of calls. -/
abbrev Calls (e : Env U T) (l : Loop U T K) (acts : List (Call U T)) (m : Loop U T K) : Prop :=
  Run (fun l a m => call e l a = some m) l acts m

section

variable {e : Env U T} {l m : Loop U T K}

section

omit [DecidableEq U] [Add T] [Sub T] [Zero T]

theorem Kept.beside (h : Kept e l) (hb : Beside l m) (hm : ∃ t p, HeapsGood e t p m) : Kept e m := by
  obtain ⟨hr, hp⟩ := hb.priority h.range
  refine ⟨hm, hr, hb.dummy.trans h.dummy, ?_, ?_, ?_⟩
  · rw [hb.idles]
    refine h.idles.congr fun w => ?_
    unfold Pend.abspri
    rw [hp]
  · rw [hb.idleall, hb.idles]
    exact h.idleall
  · rw [hb.checks]
    exact h.checks

end

section

omit [Add T] [Sub T] [Zero T]

theorem Kept.clearPending (h : Kept e l) (w : Watcher U) : Kept e (l.clearPending w) :=
  h.beside beside_clearPending h.heaps

end

section

omit [DecidableEq U] [Add T] [Sub T] [Zero T]

/-- No array beyond the priorities has a watcher. -/
theorem Kept.high (h : Kept e l) {q : ℕ} (hq : numpri ≤ q) : l.idles.cnt q = 0 := by
  by_contra hne
  have hk := (h.idles.cell q 0 (Nat.pos_of_ne_zero hne)).1
  have hlt := h.range.abspri_lt (.idle (l.idles.cells q 0))
  omega

theorem Kept.idleall_eq (h : Kept e l) (h0 : l.idleall = 0) (q : ℕ) : l.idles.cnt q = 0 := by
  by_cases hq : q < numpri
  · have hsum := h.idleall.symm.trans h0
    exact (Finset.sum_eq_zero_iff.mp hsum) q (Finset.mem_range.mpr hq)
  · exact h.high (not_lt.mp hq)

end

theorem sum_update {f : ℕ → ℕ} {n pri : ℕ} (hpri : pri < n) (x : ℕ) :
    ∑ q ∈ Finset.range n, Function.update f pri x q + f pri = ∑ q ∈ Finset.range n, f q + x := by
  have hm := Finset.mem_range.mpr hpri
  rw [Finset.sum_update_of_mem hm, Finset.sum_eq_add_sum_sdiff_singleton_of_mem hm f]
  omega

section

omit [LinearOrder T] [Add T] [Sub T] [Zero T]

theorem evIdleStart_eq (h : l.pend.InRange) {w : U} (hw : l.idles.active w = 0) : l.evIdleStart w = { l with
    idleall := l.idleall + 1, activecnt := l.activecnt + 1
    idles := l.idles.start (l.pend.abspri (.idle w)) w } := by
  unfold Loop.evIdleStart evStart evRef
  rw [if_neg (not_not.mpr hw)]
  simp only [h.priAdjust]

end

section

omit [Add T] [Sub T] [Zero T]

theorem Kept.evIdleStart (h : Kept e l) (w : U) : Kept e (l.evIdleStart w) := by
  by_cases hw : l.idles.active w = 0
  · rw [evIdleStart_eq h.range hw]
    refine ⟨h.heaps, h.range, h.dummy, h.idles.start hw, ?_, h.checks⟩
    have hsum := sum_update (f := l.idles.cnt) (h.range.abspri_lt (.idle w))
      (l.idles.cnt (l.pend.abspri (.idle w)) + 1)
    show l.idleall + 1 = ∑ q ∈ Finset.range numpri, Function.update l.idles.cnt _ _ q
    rw [h.idleall]
    omega
  · rw [Loop.evIdleStart, if_pos hw]
    exact h

theorem Kept.evIdleStop (h : Kept e l) (w : U) : Kept e (l.evIdleStop w) := by
  have hc := h.clearPending (.idle w)
  unfold Loop.evIdleStop
  generalize l.clearPending (.idle w) = l at hc ⊢
  by_cases hw : l.idles.active w = 0
  · rw [if_pos hw]
    exact hc
  · rw [if_neg hw]
    refine ⟨hc.heaps, hc.range, hc.dummy, hc.idles.stop hw, ?_, hc.checks⟩
    obtain ⟨hle, -⟩ := hc.idles.active w hw
    have hsum := sum_update (f := l.idles.cnt) (hc.range.abspri_lt (.idle w))
      (l.idles.cnt (l.pend.abspri (.idle w)) - 1)
    show l.idleall - 1 = ∑ q ∈ Finset.range numpri, Function.update l.idles.cnt _ _ q
    rw [hc.idleall]
    omega

theorem Kept.evCheckStart (h : Kept e l) (w : U) : Kept e (l.evCheckStart w) := by
  unfold Loop.evCheckStart
  by_cases hw : l.checks.active w = 0
  · rw [if_neg (not_not.mpr hw)]
    have hs := h.beside (beside_evStart (w := .check w)) h.heaps
    exact ⟨hs.heaps, hs.range, hs.dummy, hs.idles, hs.idleall, hs.checks.start hw⟩
  · rw [if_pos hw]
    exact h

theorem Kept.evCheckStop (h : Kept e l) (w : U) : Kept e (l.evCheckStop w) := by
  have hc := h.clearPending (.check w)
  unfold Loop.evCheckStop
  generalize l.clearPending (.check w) = l at hc ⊢
  by_cases hw : l.checks.active w = 0
  · rw [if_pos hw]
    exact hc
  · rw [if_neg hw]
    exact ⟨hc.heaps, hc.range, hc.dummy, hc.idles, hc.idleall, hc.checks.stop hw⟩

/-- The priority of a watcher that is not active may change. -/
theorem Kept.evSetPriority (h : Kept e l) {w : Watcher U} (hw : l.active w = 0) {pri : ℤ}
    (hr : minpri ≤ pri ∧ pri ≤ maxpri) : Kept e (l.evSetPriority w pri) := by
  have hprio : ∀ v, (l.evSetPriority w pri).pend.priority v = if v = w then pri else l.pend.priority v :=
    fun v => Function.update_apply ..
  refine ⟨h.heaps, fun v => ?_, h.dummy, ?_, h.idleall, h.checks⟩
  · rw [hprio]
    split
    · exact hr
    · exact h.range v
  · -- an active idle watcher is another one
    have habs : ∀ v : U, l.idles.active v ≠ 0 →
        (l.evSetPriority w pri).pend.abspri (.idle v) = l.pend.abspri (.idle v) := by
      intro v hv
      have hne : (.idle v : Watcher U) ≠ w := by
        rintro rfl
        exact hv hw
      unfold Pend.abspri
      rw [hprio, if_neg hne]
    refine ⟨fun q i hi => ?_, fun v hv => ?_⟩
    · obtain ⟨hk, ha⟩ := h.idles.cell q i hi
      have hv : l.idles.active (l.idles.cells q i) ≠ 0 := by
        rw [ha]
        exact Nat.succ_ne_zero i
      exact ⟨(habs _ hv).trans hk, ha⟩
    · show _ ≤ l.idles.cnt ((l.evSetPriority w pri).pend.abspri (.idle v)) ∧
        l.idles.cells ((l.evSetPriority w pri).pend.abspri (.idle v)) _ = _
      rw [habs v hv]
      exact h.idles.active v hv

end

theorem kept_call [AddRightMono T] {a : Call U T} (h : Kept e l) (hs : call e l a = some m) : Kept e m := by
  cases a with
  | time a =>
    have hb : Beside l.untouched m := beside_timeCall hs
    have hb' : Beside l l.untouched := .of_priority rfl rfl rfl rfl rfl
    obtain ⟨t, p, hg⟩ := h.heaps
    exact h.beside (hb'.trans hb) ⟨_, _, heapsGood_timeCall hg.ok.untouched hs⟩
  | idleStart w =>
    cases hs
    exact h.evIdleStart w
  | idleStop w =>
    cases hs
    exact h.evIdleStop w
  | checkStart w =>
    cases hs
    exact h.evCheckStart w
  | checkStop w =>
    cases hs
    exact h.evCheckStop w
  | setPriority w pri =>
    simp only [call, Option.ite_none_right_eq_some] at hs
    obtain ⟨⟨hw, -, hr⟩, hs⟩ := hs
    cases hs
    exact h.evSetPriority hw hr
  | queues p =>
    cases hs
    exact h.beside (.of_priority rfl rfl rfl rfl rfl) h.heaps

theorem kept_init [Inhabited U] (backend : Backend) (noinotify signalfd notimerfd : Bool) (kernel : K) :
    Kept e (Loop.init backend noinotify signalfd notimerfd kernel : Loop U T K) where
  heaps := by
    have hok : HeapsOk e (Loop.init backend noinotify signalfd notimerfd kernel : Loop U T K) :=
      heapsOk_noTimers ⟨⟨rfl, fun _ => rfl⟩, rfl, fun _ => rfl⟩
    exact ⟨0, 0, hok.untouched⟩
  range w := Loop.range_init (T := T) backend noinotify signalfd notimerfd kernel w
  dummy := rfl
  idles := ⟨fun _ _ hi => absurd hi (Nat.not_lt_zero _), fun _ hw => absurd rfl hw⟩
  idleall := Finset.sum_const_zero.symm
  checks := ⟨fun _ _ hi => absurd hi (Nat.not_lt_zero _), fun _ hw => absurd rfl hw⟩

/-- Every call keeps what the passes rely on. -/
theorem kept_run [AddRightMono T] {acts : List (Call U T)} (hrun : Calls e l acts m) (h : Kept e l) : Kept e m :=
  Run.invariant (fun _ _ _ h hs => kept_call h hs) hrun h

end

end Loop

end Qev
