/-
# A watcher as its owner sees it

What the user of a watcher can ask of it is whether it is active and what is pending for
it: its `view`. Starting, stopping and feeding a watcher change its own view only, and
what the loop does of its own (events on an fd, a signal, timers that expire) changes
nothing about a watcher that is not active (`Spares`).
-/
import Qev.Loop.Expire
import Qev.Loop.OnceFreed

namespace Qev

open Lib

namespace Pend

variable {W : Type} [DecidableEq W] {p : Pend W} {fed : W → List Events} {w : W}

/-- The events of a pending watcher. -/
def pendingFor (p : Pend W) (w : W) : Option Events := if p.pending w ≠ 0 then some (p.pendingEvents w) else none

section

omit [DecidableEq W]

theorem pendingFor_eq_none : p.pendingFor w = none ↔ p.pending w = 0 := by
  unfold pendingFor
  split
  · rename_i h
    exact iff_of_false (by simp) h
  · rename_i h
    exact iff_of_true rfl (not_not.mp h)

theorem pendingFor_getD (p : Pend W) (w : W) : (p.pendingFor w).getD 0 = p.pendingEvents w := by
  unfold pendingFor pendingEvents
  split
  · rfl
  · rfl

theorem Ok.pendingFor_eq (h : p.Ok fed) (w : W) :
    p.pendingFor w = if fed w = [] then none else some (orAll (fed w)) := by
  have hq := h.queued w
  unfold pendingFor
  rw [h.pendingEvents_eq]
  by_cases hw : fed w = []
  · rw [if_pos hw, if_neg fun hp => hq.mp hp hw]
  · rw [if_neg hw, if_pos (hq.mpr hw)]

/-- What was not fed or cleared is pending as it was. -/
theorem Ok.pendingFor_congr {q : Pend W} {fed' : W → List Events} (h : p.Ok fed) (hq : q.Ok fed')
    (hw : fed' w = fed w) : q.pendingFor w = p.pendingFor w := by
  rw [h.pendingFor_eq, hq.pendingFor_eq, hw]

end

theorem Ok.pendingFor_update {q : Pend W} {fed' : W → List Events} {x : List Events} (h : p.Ok fed) (hq : q.Ok fed')
    (hfed : fed' = Function.update fed w x) (v : W) :
    q.pendingFor v = if v = w then if x = [] then none else some (orAll x) else p.pendingFor v := by
  by_cases hv : v = w
  · rw [if_pos hv, hq.pendingFor_eq, hfed, hv, Function.update_self]
  · rw [if_neg hv]
    exact h.pendingFor_congr hq (by rw [hfed, Function.update_of_ne hv])

theorem Ok.pendingFor_feed (h : p.Ok fed) (hw : w ≠ p.pendingW) (revents : Events) (v : W) :
    (p.evFeedEvent w revents).pendingFor v =
      if v = w then some (revents ||| (p.pendingFor w).getD 0) else p.pendingFor v := by
  rw [h.pendingFor_update (ok_feed h hw revents) rfl, if_neg (List.cons_ne_nil _ _), pendingFor_getD,
    h.pendingEvents_eq]
  rfl

theorem Ok.pendingFor_clear (h : p.Ok fed) (w v : W) :
    (p.clearPending w).pendingFor v = if v = w then none else p.pendingFor v :=
  h.pendingFor_update (ok_clear h) rfl v

theorem Ok.pendingFor_pop (h : p.Ok fed) {pri : ℕ} (hcnt : p.pendingcnt pri ≠ 0) (v : W) :
    (p.pop pri).pendingFor v =
      if v = (p.entry pri (p.pendingcnt pri - 1)).w then none else p.pendingFor v :=
  h.pendingFor_update (ok_pop h hcnt) rfl v

section

omit [DecidableEq W]

/-- The entry at the top of a queue is of a watcher with just these events pending, unless it is the dummy's. -/
theorem Ok.pendingFor_top (h : p.Ok fed) {pri : ℕ} (hcnt : p.pendingcnt pri ≠ 0)
    (hw : (p.entry pri (p.pendingcnt pri - 1)).w ≠ p.pendingW) :
    p.pendingFor (p.entry pri (p.pendingcnt pri - 1)).w = some (p.entry pri (p.pendingcnt pri - 1)).events := by
  obtain ⟨hpri, hp⟩ := h.live pri (p.pendingcnt pri - 1) (by omega) hw
  unfold pendingFor pendingEvents
  rw [← hpri, hp, if_pos (Nat.succ_ne_zero _), if_pos (Nat.succ_ne_zero _), Nat.add_sub_cancel]

end

end Pend

/-- Whether a watcher is active, and what is pending for it. -/
structure View where
  active : Bool
  pending : Option Events
  deriving DecidableEq

/-- Stopped, and nothing pending. -/
def View.idle : View := ⟨false, none⟩

namespace Loop

variable {U T K : Type} [DecidableEq U] [LinearOrder T] [Add T] [Sub T] [Zero T]
variable {e : Env U T} {l m n : Loop U T K} {w v : Watcher U}

def view (l : Loop U T K) (w : Watcher U) : View := ⟨decide (l.active w ≠ 0), l.pend.pendingFor w⟩

end Loop

/-! ### The signal watchers -/

/-- `EV_SIGNAL`. -/
def evSignal : Events := 0x400

namespace Lists

variable {W : Type} [DecidableEq W] {s : Lists W} {key : W → ℕ} {w : W}

/-- Each list has the active watchers with its key, each once. -/
structure Linked (key : W → ℕ) (s : Lists W) : Prop where
  mem : ∀ k w, w ∈ s.head k ↔ s.active w ≠ 0 ∧ key w = k
  nodup : ∀ k, (s.head k).Nodup

theorem head_start (s : Lists W) (k : ℕ) (w : W) (k' : ℕ) :
    (s.start k w).head k' = if k' = k then w :: s.head k else s.head k' := Function.update_apply ..

theorem head_stop (s : Lists W) (k : ℕ) (w : W) (k' : ℕ) :
    (s.stop k w).head k' = if k' = k then (s.head k).erase w else s.head k' := Function.update_apply ..

theorem active_start (s : Lists W) (k : ℕ) (w v : W) : (s.start k w).active v = if v = w then 1 else s.active v :=
  Function.update_apply ..

theorem active_stop (s : Lists W) (k : ℕ) (w v : W) : (s.stop k w).active v = if v = w then 0 else s.active v :=
  Function.update_apply ..

theorem Linked.start (h : s.Linked key) (hw : s.active w = 0) : (s.start (key w) w).Linked key := by
  have hnot : w ∉ s.head (key w) := fun hm => ((h.mem _ w).mp hm).1 hw
  refine ⟨fun k v => ?_, fun k => ?_⟩
  · rw [head_start, active_start]
    have hmem := h.mem k v
    by_cases hv : v = w
    · subst hv
      by_cases hk : k = key v
      · simp [hk]
      · simp [hk, Ne.symm hk, hmem, hw]
    · by_cases hk : k = key w
      · simpa [hv, hk] using hk ▸ hmem
      · simpa [hv, hk] using hmem
  · rw [head_start]
    split
    · exact List.nodup_cons.mpr ⟨hnot, h.nodup _⟩
    · exact h.nodup k

theorem Linked.stop (h : s.Linked key) (w : W) : (s.stop (key w) w).Linked key := by
  refine ⟨fun k v => ?_, fun k => ?_⟩
  · rw [head_stop, active_stop]
    have hmem := h.mem k v
    by_cases hv : v = w
    · subst hv
      by_cases hk : k = key v
      · simp [hk, (h.nodup (key v)).mem_erase_iff]
      · simp [hk, hmem, Ne.symm hk]
    · by_cases hk : k = key w
      · rw [if_pos hk, if_neg hv, List.mem_erase_of_ne hv, ← hk]
        exact hmem
      · rw [if_neg hk, if_neg hv]
        exact hmem
  · rw [head_stop]
    split
    · exact (h.nodup _).erase w
    · exact h.nodup k

end Lists

namespace Loop

variable {U T K : Type} [DecidableEq U] [LinearOrder T] [Add T] [Sub T] [Zero T]
variable {e : Env U T} {l m n : Loop U T K}

def evSignalSet (l : Loop U T K) (w : SignalW U) (signum : ℕ) : Loop U T K :=
  { l with wSignum := Function.update l.wSignum w signum }

/-- `evpipe_init`, when the read end is this fd. -/
def evpipeInit (l : Loop U T K) (fd : ℕ) : Loop U T K :=
  if l.fds.active .pipeW ≠ 0 then l else ((l.evIoSet .pipeW fd evRead).evIoStart .pipeW).evUnref

/-- `ev_signal_start` without a signalfd. -/
def evSignalStart (l : Loop U T K) (evpipe : ℕ) (w : SignalW U) : Loop U T K :=
  if l.signals.active w ≠ 0 then l
  else
    let l := l.evStart (.signal w)
    let l := { l with signals := l.signals.start (l.wSignum w - 1) w }
    if l.signals.head (l.wSignum w - 1) = [w] then l.evpipeInit evpipe else l

def evSignalStop (l : Loop U T K) (w : SignalW U) : Loop U T K :=
  let l := l.clearPending (.signal w)
  if l.signals.active w = 0 then l
  else ({ l with signals := l.signals.stop (l.wSignum w - 1) w } : Loop U T K).evStop

/-- `ev_feed_signal_event` of a signal that is attached to this loop. -/
def evFeedSignalEvent (l : Loop U T K) (signum : ℕ) : Loop U T K :=
  (l.signals.head (signum - 1)).foldl (fun l w => l.evFeedEvent (.signal w) evSignal) l

/-! ### What a call changes -/

/-- The structures the calls go by are well formed, and nothing is about to be fed. -/
structure Tidy (e : Env U T) (l : Loop U T K) : Prop where
  core : Core e l
  signals : l.signals.Linked fun w => l.wSignum w - 1
  rfeeds : l.pend.rfeeds = []

theorem Tidy.init [Inhabited U] (e : Env U T) (backend : Backend) (noinotify signalfd notimerfd : Bool) (kernel : K) :
    Tidy e (Loop.init backend noinotify signalfd notimerfd kernel) :=
  ⟨Core.init e backend noinotify signalfd notimerfd kernel,
    ⟨fun _ _ => iff_of_false List.not_mem_nil fun hc => hc.1 rfl, fun _ => .nil⟩, rfl⟩

/-- From `l` to `m` the view of `w` became `x`, and no other changed. -/
structure Sets (e : Env U T) (w : Watcher U) (x : View) (l m : Loop U T K) : Prop where
  tidy : Tidy e m
  self : m.view w = x
  others : ∀ v, v ≠ w → m.view v = l.view v

variable {w : Watcher U} {x y : View}

section

omit [DecidableEq U] [Add T] [Sub T] [Zero T]

theorem Sets.trans (h : Sets e w x l m) (h' : Sets e w y m n) : Sets e w y l n :=
  ⟨h'.tidy, h'.self, fun v hv => (h'.others v hv).trans (h.others v hv)⟩

end

section

omit [DecidableEq U] [LinearOrder T] [Add T] [Sub T] [Zero T]

theorem view_eq (b : Bool) (o : Option Events) (ha : l.active w ≠ 0 ↔ b = true) (hp : l.pend.pendingFor w = o) :
    l.view w = ⟨b, o⟩ := by
  unfold view
  rw [hp]
  simp only [ha, Bool.decide_eq_true]

theorem view_congr (ha : m.active w ≠ 0 ↔ l.active w ≠ 0) (hp : m.pend.pendingFor w = l.pend.pendingFor w) :
    m.view w = l.view w := by
  unfold view
  rw [hp]
  simp only [ha]

end

section

omit [Add T] [Sub T] [Zero T]

/-- Only the queues change, and in them what is pending for `w`. -/
theorem Tidy.queues (h : Tidy e l) {p : Pend (Watcher U)} {o : Option Events} (hcore : Core e { l with pend := p })
    (hr : p.rfeeds = []) (hp : ∀ v, p.pendingFor v = if v = w then o else l.pend.pendingFor v) :
    Sets e w ⟨(l.view w).active, o⟩ l { l with pend := p } := by
  have ha : ∀ v, ({ l with pend := p } : Loop U T K).active v = l.active v := fun v => by cases v <;> rfl
  refine ⟨⟨hcore, h.signals, hr⟩, ?_, fun v hv => view_congr (by rw [ha]) ((hp v).trans (if_neg hv))⟩
  unfold view
  rw [ha]
  exact congrArg (View.mk _) ((hp w).trans (if_pos rfl))

end

theorem Tidy.feed (h : Tidy e l) (hw : w ≠ .pendingW) (revents : Events) :
    Sets e w ⟨(l.view w).active, some (revents ||| (l.view w).pending.getD 0)⟩ l (l.evFeedEvent w revents) := by
  obtain ⟨fed, hok⟩ := h.core.pend
  have hne : w ≠ l.pend.pendingW := by
    rw [h.core.dummy]
    exact hw
  exact h.queues (h.core.feed hw revents) ((Pend.rfeeds_feed ..).trans h.rfeeds) (hok.pendingFor_feed hne revents)

theorem Tidy.clear (h : Tidy e l) (w : Watcher U) : Sets e w ⟨(l.view w).active, none⟩ l (l.clearPending w) := by
  obtain ⟨fed, hok⟩ := h.core.pend
  exact h.queues (h.core.clear w) ((Pend.clearPending_frame l.pend w).2.1.trans h.rfeeds) (hok.pendingFor_clear w)

/-- The top of a queue is taken. -/
theorem Tidy.pop (h : Tidy e l) {pri : ℕ} (hcnt : l.pend.pendingcnt pri ≠ 0) :
    Sets e (l.pend.entry pri (l.pend.pendingcnt pri - 1)).w
      ⟨(l.view (l.pend.entry pri (l.pend.pendingcnt pri - 1)).w).active, none⟩ l
      { l with pend := l.pend.pop pri } := by
  obtain ⟨fed, hok⟩ := h.core.pend
  exact h.queues (h.core.pop hcnt h.rfeeds).1 h.rfeeds (hok.pendingFor_pop hcnt)

section

omit [DecidableEq U] [Add T] [Sub T] [Zero T]

/-- Only `w` becomes active, or stops being. -/
theorem Sets.of_active {b : Bool} (h : Tidy e m) (hp : m.pend = l.pend) (hself : m.active w ≠ 0 ↔ b = true)
    (hothers : ∀ v, v ≠ w → (m.active v ≠ 0 ↔ l.active v ≠ 0)) : Sets e w ⟨b, (l.view w).pending⟩ l m :=
  ⟨h, view_eq b _ hself (by rw [hp]; rfl), fun v hv => view_congr (hothers v hv) (by rw [hp])⟩

end

/-- A watcher that is stopped has its events cleared first. -/
theorem Tidy.stopped (h : Tidy e l) (hm : Tidy e m) (hp : m.pend = (l.clearPending w).pend) (hself : m.active w = 0)
    (hothers : ∀ v, v ≠ w → (m.active v ≠ 0 ↔ l.active v ≠ 0)) : Sets e w .idle l m := by
  have hclear := h.clear w
  have ha : ∀ v, (l.clearPending w).active v = l.active v := fun v => by cases v <;> rfl
  have hstop : Sets e w ⟨false, ((l.clearPending w).view w).pending⟩ (l.clearPending w) m :=
    .of_active hm hp (by simp [hself]) fun v hv => by rw [ha]; exact hothers v hv
  rw [hclear.self] at hstop
  exact hclear.trans hstop

/-! ### io watchers -/

theorem Tidy.ioStart (h : Tidy e l) (w : IoW U) :
    Sets e (.io w) ⟨true, (l.view (.io w)).pending⟩ l (l.evIoStart w) := by
  have hcore := h.core.ioStart w
  by_cases hw : l.fds.active w = 0
  · have heq : l.evIoStart w = _ := if_neg (not_not.mpr hw)
    have hp : (l.evIoStart w).pend = l.pend := by
      rw [heq]
      exact h.core.priAdjust _
    refine .of_active ⟨hcore, ?_, by rw [hp, h.rfeeds]⟩ hp ?_ fun v hv => ?_
    · rw [heq]
      exact h.signals
    · rw [heq]
      show (l.fds.start w).active w ≠ 0 ↔ _
      simp [Fds.active_start]
    · rw [heq]
      cases v with
      | io v =>
        show (l.fds.start w).active v ≠ 0 ↔ l.fds.active v ≠ 0
        rw [Fds.active_start, if_neg fun hc => hv (by rw [hc])]
      | _ => exact Iff.rfl
  · have heq : l.evIoStart w = l := if_pos hw
    rw [heq]
    exact ⟨h, view_eq _ _ (iff_of_true hw rfl) rfl, fun _ _ => rfl⟩

theorem Tidy.ioStop (h : Tidy e l) (w : IoW U) : Sets e (.io w) .idle l (l.evIoStop w) := by
  have hcore := h.core.ioStop w
  have hclear := (h.clear (.io w)).tidy
  by_cases hw : l.fds.active w = 0
  · have heq : l.evIoStop w = l.clearPending (.io w) := if_pos hw
    rw [heq] at hcore ⊢
    exact h.stopped hclear rfl hw fun v _ => by cases v <;> exact Iff.rfl
  · have heq : l.evIoStop w = _ := if_neg hw
    refine h.stopped ⟨hcore, ?_, ?_⟩ ?_ ?_ fun v hv => ?_
    · rw [heq]
      exact h.signals
    · rw [heq]
      exact hclear.rfeeds
    · rw [heq]
      rfl
    · rw [heq]
      show (l.fds.stop w).active w = 0
      rw [Fds.active_stop, if_pos rfl]
    · rw [heq]
      cases v with
      | io v =>
        show (l.fds.stop w).active v ≠ 0 ↔ l.fds.active v ≠ 0
        rw [Fds.active_stop, if_neg fun hc => hv (by rw [hc])]
      | _ => exact Iff.rfl

/-! ### Timers -/

theorem Tidy.timerStart (h : Tidy e l) (w : TimerW U) :
    Sets e (.timer w) ⟨true, (l.view (.timer w)).pending⟩ l (l.evTimerStart e w) := by
  have hcore := h.core.timerStart w
  by_cases hw : l.timers.active w = 0
  · obtain ⟨t, ht⟩ := h.core.timers
    have hact := ((ht.setAt hw (l.timers.wAt w + l.mnNow)).ok.start (not_not.mpr hw)).active_iff
    have heq : l.evTimerStart e w = _ := if_neg (not_not.mpr hw)
    have hp : (l.evTimerStart e w).pend = l.pend := by
      rw [heq]
      exact h.core.priAdjust _
    refine .of_active ⟨hcore, ?_, by rw [hp, h.rfeeds]⟩ hp ?_ fun v hv => ?_
    · rw [heq]
      exact h.signals
    · rw [heq]
      exact (hact w).trans (iff_of_true (.inl rfl) rfl)
    · rw [heq]
      cases v with
      | timer v => exact (hact v).trans (or_iff_right fun hc => hv (by rw [hc]))
      | _ => exact Iff.rfl
  · have heq : l.evTimerStart e w = l := if_pos hw
    rw [heq]
    exact ⟨h, view_eq _ _ (iff_of_true hw rfl) rfl, fun _ _ => rfl⟩

theorem Tidy.timerStop (h : Tidy e l) (w : TimerW U) : Sets e (.timer w) .idle l (l.evTimerStop e w) := by
  have hcore := h.core.timerStop w
  have hclear := (h.clear (.timer w)).tidy
  by_cases hw : l.timers.active w = 0
  · have heq : l.evTimerStop e w = l.clearPending (.timer w) := if_pos hw
    rw [heq] at hcore ⊢
    exact h.stopped hclear rfl hw fun v _ => by cases v <;> exact Iff.rfl
  · obtain ⟨t, ht⟩ := h.core.timers
    have hact := (ht.ok.stop hw).active_iff
    have heq : l.evTimerStop e w = _ := if_neg hw
    refine h.stopped ⟨hcore, ?_, ?_⟩ ?_ ?_ fun v hv => ?_
    · rw [heq]
      exact h.signals
    · rw [heq]
      exact hclear.rfeeds
    · rw [heq]
      rfl
    · rw [heq]
      exact not_not.mp fun hc => ((hact w).mp hc).1 rfl
    · rw [heq]
      cases v with
      | timer v => exact (hact v).trans (and_iff_right fun hc => hv (by rw [hc]))
      | _ => exact Iff.rfl

/-- A timer that repeats is active after `ev_timer_again`, any other is not. -/
theorem Tidy.timerAgain (h : Tidy e l) {w : TimerW U} (hw : half (.timer w) = none) :
    Sets e (.timer w) ⟨decide (l.wRepeat w ≠ 0), none⟩ l (l.evTimerAgain e w) := by
  have hclear := h.clear (.timer w)
  have hcore := (h.core.timerAgain hw).core
  have hpend : ((l.clearPending (.timer w)).view (.timer w)).pending = none := by rw [hclear.self]
  have h' := hclear.tidy
  obtain ⟨t, ht⟩ := h'.core.timers
  refine hclear.trans ?_
  by_cases ha : l.timers.active w ≠ 0
  · by_cases hr : l.wRepeat w ≠ 0
    · have heq : l.evTimerAgain e w = _ := (if_pos ha).trans (if_pos hr)
      have hact : ∀ v, (l.evTimerAgain e w).timers.active v ≠ 0 ↔ l.timers.active v ≠ 0 := fun v => by
        have hact := (ht.ok.adjust ha (l.mnNow + l.wRepeat w)).active_iff v
        rw [← ht.ok.linked.retime_active ha] at hact
        rw [heq]
        exact hact
      rw [decide_eq_true hr, ← hpend]
      refine .of_active ⟨hcore, ?_, ?_⟩ ?_ ((hact w).trans (iff_of_true ha rfl)) fun v _ => ?_
      · rw [heq]
        exact h'.signals
      · rw [heq]
        exact h'.rfeeds
      · rw [heq]
      · cases v with
        | timer v => exact hact v
        | _ =>
          rw [heq]
          exact Iff.rfl
    · have heq : l.evTimerAgain e w = (l.clearPending (.timer w)).evTimerStop e w := (if_pos ha).trans (if_neg hr)
      rw [heq, decide_eq_false hr]
      exact h'.timerStop w
  · by_cases hr : l.wRepeat w ≠ 0
    · have heq : l.evTimerAgain e w = _ := (if_neg ha).trans (if_pos hr)
      have hset : Stays e (l.clearPending (.timer w))
          { l.clearPending (.timer w) with timers := l.timers.setAt w (l.wRepeat w) } :=
        h'.core.sameTimers ⟨t, ht.setAt (not_not.mp ha) _⟩ (fun _ => Iff.rfl) rfl rfl
          fun v => .inl (by cases v <;> rfl)
      have hstart := Tidy.timerStart ⟨hset.core, h'.signals, h'.rfeeds⟩ w
      have hsame : ∀ v, ({ l.clearPending (.timer w) with timers := l.timers.setAt w (l.wRepeat w) } :
          Loop U T K).view v = (l.clearPending (.timer w)).view v :=
        fun v => view_congr (by cases v <;> exact Iff.rfl) rfl
      rw [heq, decide_eq_true hr]
      refine ⟨hstart.tidy, hstart.self.trans ?_, fun v hv => (hstart.others v hv).trans (hsame v)⟩
      rw [hsame, hpend]
    · have heq : l.evTimerAgain e w = l.clearPending (.timer w) := (if_neg ha).trans (if_neg hr)
      rw [heq, decide_eq_false hr]
      exact ⟨h', view_eq _ _ (iff_of_false ha Bool.false_ne_true) hpend, fun _ _ => rfl⟩

/-! ### Signals -/

theorem Tidy.signalStop (h : Tidy e l) (w : SignalW U) : Sets e (.signal w) .idle l (l.evSignalStop w) := by
  have hclear := (h.clear (.signal w)).tidy
  by_cases hw : l.signals.active w = 0
  · have heq : l.evSignalStop w = l.clearPending (.signal w) := if_pos hw
    rw [heq]
    exact h.stopped hclear rfl hw fun v _ => by cases v <;> exact Iff.rfl
  · have heq : l.evSignalStop w = _ := if_neg hw
    refine h.stopped ⟨?_, ?_, ?_⟩ ?_ ?_ fun v hv => ?_
    · rw [heq]
      exact ⟨hclear.core.linked, hclear.core.bound, hclear.core.timers, hclear.core.pend, hclear.core.dummy,
        hclear.core.rfeeds⟩
    · rw [heq]
      exact h.signals.stop w
    · rw [heq]
      exact hclear.rfeeds
    · rw [heq]
      rfl
    · rw [heq]
      exact (Lists.active_stop ..).trans (if_pos rfl)
    · rw [heq]
      cases v with
      | signal v =>
        show (l.signals.stop (l.wSignum w - 1) w).active v ≠ 0 ↔ l.signals.active v ≠ 0
        rw [Lists.active_stop, if_neg fun hc => hv (by rw [hc])]
      | _ => exact Iff.rfl

/-- `evpipe_init` may start the loop's own watcher of its pipe. -/
theorem Tidy.evpipeInit (h : Tidy e l) (fd : ℕ) :
    Tidy e (l.evpipeInit fd) ∧ ∀ v, v ≠ .io .pipeW → (l.evpipeInit fd).view v = l.view v := by
  by_cases hw : l.fds.active .pipeW ≠ 0
  · have heq : l.evpipeInit fd = l := if_pos hw
    rw [heq]
    exact ⟨h, fun _ _ => rfl⟩
  · have heq : l.evpipeInit fd = ((l.evIoSet .pipeW fd evRead).evIoStart .pipeW).evUnref := if_neg hw
    have hset := (h.core.evSet (not_not.mp hw) fd evRead).core
    have hstart := Tidy.ioStart ⟨hset, h.signals, h.rfeeds⟩ .pipeW
    have hsame : ∀ v, (l.evIoSet .pipeW fd evRead).view v = l.view v :=
      fun v => view_congr (by cases v <;> exact Iff.rfl) rfl
    have hunref : ∀ k : Loop U T K, ∀ v, k.evUnref.view v = k.view v :=
      fun k v => view_congr (by cases v <;> exact Iff.rfl) rfl
    obtain ⟨⟨hcore, hsig, hr⟩, -, hothers⟩ := hstart
    rw [heq]
    refine ⟨⟨⟨hcore.linked, hcore.bound, hcore.timers, hcore.pend, hcore.dummy, hcore.rfeeds⟩, hsig, hr⟩,
      fun v hv => ?_⟩
    rw [hunref, hothers v hv, hsame]

theorem Tidy.signalStart (h : Tidy e l) (evpipe : ℕ) (w : SignalW U) :
    Tidy e (l.evSignalStart evpipe w) ∧
      (l.evSignalStart evpipe w).view (.signal w) = ⟨true, (l.view (.signal w)).pending⟩ ∧
      ∀ v, v ≠ .signal w → v ≠ .io .pipeW → (l.evSignalStart evpipe w).view v = l.view v := by
  by_cases hw : l.signals.active w ≠ 0
  · have heq : l.evSignalStart evpipe w = l := if_pos hw
    rw [heq]
    exact ⟨h, view_eq _ _ (iff_of_true hw rfl) rfl, fun _ _ _ => rfl⟩
  · obtain ⟨k, hk⟩ : ∃ k, k = { l.evStart (.signal w) with signals := l.signals.start (l.wSignum w - 1) w } :=
      ⟨_, rfl⟩
    have hp : k.pend = l.pend := by
      rw [hk]
      exact h.core.priAdjust _
    have hsets : Sets e (.signal w) ⟨true, (l.view (.signal w)).pending⟩ l k := by
      refine .of_active ⟨?_, ?_, by rw [hp, h.rfeeds]⟩ hp ?_ fun v hv => ?_
      · rw [hk]
        exact h.core.ofFds h.core.linked h.core.bound (h.core.priAdjust _) rfl
      · rw [hk]
        exact h.signals.start (not_not.mp hw)
      · rw [hk]
        show (l.signals.start (l.wSignum w - 1) w).active w ≠ 0 ↔ _
        simp [Lists.active_start]
      · rw [hk]
        cases v with
        | signal v =>
          show (l.signals.start (l.wSignum w - 1) w).active v ≠ 0 ↔ l.signals.active v ≠ 0
          rw [Lists.active_start, if_neg fun hc => hv (by rw [hc])]
        | _ => exact Iff.rfl
    have heq : l.evSignalStart evpipe w =
        if k.signals.head (k.wSignum w - 1) = [w] then k.evpipeInit evpipe else k := by
      rw [hk]
      exact if_neg hw
    rw [heq]
    split
    · obtain ⟨ht, hothers⟩ := hsets.tidy.evpipeInit evpipe
      refine ⟨ht, (hothers _ (by simp)).trans hsets.self,
        fun v hv hpipe => (hothers v hpipe).trans (hsets.others v hv)⟩
    · exact ⟨hsets.tidy, hsets.self, fun v hv _ => hsets.others v hv⟩

/-! ### What changes no view -/

/-- Nothing has changed about a watcher that was not active, and no signal watcher was started or stopped. -/
structure Spares (e : Env U T) (l m : Loop U T K) : Prop where
  tidy : Tidy e m
  signals : m.signals = l.signals
  same : ∀ v, (l.view v).active = false → m.view v = l.view v

/-- Nothing has changed about any watcher. -/
structure Same (e : Env U T) (l m : Loop U T K) : Prop where
  tidy : Tidy e m
  signals : m.signals = l.signals
  same : ∀ v, m.view v = l.view v

section

omit [DecidableEq U] [Add T] [Sub T] [Zero T]

/-- The fds change, but for the lists and what is active. -/
theorem Tidy.sameFds (h : Tidy e l) {f : Fds (IoW U)} (hcore : Core e { l with fds := f })
    (hact : f.active = l.fds.active) : Same e l { l with fds := f } := by
  refine ⟨⟨hcore, h.signals, h.rfeeds⟩, rfl, fun v => view_congr ?_ rfl⟩
  cases v with
  | io v => exact iff_of_eq (congrArg (· ≠ 0) (congrFun hact v))
  | _ => exact Iff.rfl

end

theorem Tidy.ioSet (h : Tidy e l) {w : IoW U} (hw : l.fds.active w = 0) (fd : ℕ) (events : Events) :
    Same e l (l.evIoSet w fd events) := h.sameFds (h.core.evSet hw fd events).core rfl

theorem Tidy.ioModify (h : Tidy e l) (w : IoW U) (events : Events) : Same e l (l.evIoModify w events) :=
  h.sameFds (h.core.evModify w events).core (Fds.active_modify l.fds w events).1

theorem Tidy.timerSet (h : Tidy e l) {w : TimerW U} (hw : l.timers.active w = 0) (after repeat' : T) :
    Same e l (l.evTimerSet w after repeat') :=
  ⟨⟨(h.core.timerSet hw after repeat').core, h.signals, h.rfeeds⟩, rfl,
    fun v => view_congr (by cases v <;> exact Iff.rfl) rfl⟩

section

omit [Add T] [Sub T] [Zero T]

theorem Tidy.signalSet (h : Tidy e l) {w : SignalW U} (hw : l.signals.active w = 0) (signum : ℕ) :
    Same e l (l.evSignalSet w signum) := by
  refine ⟨⟨⟨h.core.linked, h.core.bound, h.core.timers, h.core.pend, h.core.dummy, h.core.rfeeds⟩,
    ⟨fun k v => (h.signals.mem k v).trans (and_congr_right fun hv => ?_), h.signals.nodup⟩, h.rfeeds⟩, rfl,
    fun v => view_congr (by cases v <;> exact Iff.rfl) rfl⟩
  have hne : v ≠ w := fun hc => hv (hc ▸ hw)
  show _ ↔ Function.update l.wSignum w signum v - 1 = k
  rw [Function.update_of_ne hne]

end

section

omit [DecidableEq U] [Add T] [Sub T] [Zero T]

theorem Tidy.timeUpdate (h : Tidy e l) (mnNow rtNow : T) : Same e l { l with mnNow := mnNow, evRtNow := rtNow } :=
  ⟨⟨⟨h.core.linked, h.core.bound, h.core.timers, h.core.pend, h.core.dummy, h.core.rfeeds⟩, h.signals, h.rfeeds⟩, rfl,
    fun v => view_congr (by cases v <;> exact Iff.rfl) rfl⟩

end

/-- The priority of a watcher that is not pending says nothing. -/
theorem Tidy.setPriority (h : Tidy e l) (hw : l.pend.pending w = 0) {pri : ℤ} (hpri : minpri ≤ pri ∧ pri ≤ maxpri) :
    Same e l (l.evSetPriority w pri) := by
  obtain ⟨fed, hok⟩ := h.core.pend
  exact ⟨⟨(h.core.setPriority hw hpri).core, h.signals, h.rfeeds⟩, rfl,
    fun v => view_congr (by cases v <;> exact Iff.rfl) (hok.pendingFor_congr (hok.setPriority hw hpri) rfl)⟩

theorem Tidy.evInit (h : Tidy e l) (hw : l.pend.pending w = 0) : Same e l (l.evInit w) := by
  have hp : l.pend.setPending w 0 = l.pend := by
    unfold Pend.setPending
    rw [← hw, Function.update_eq_self]
  have hsame := h.setPriority hw (by decide : minpri ≤ 0 ∧ (0 : ℤ) ≤ maxpri)
  unfold Loop.evInit
  rw [hp]
  exact hsame

theorem Tidy.timersReschedule [AddRightMono T] (h : Tidy e l) (adjust : T) :
    Same e l (l.timersReschedule e adjust) := by
  obtain ⟨t, ht⟩ := h.core.timers
  have hstays := h.core.timersReschedule adjust
  obtain ⟨d, hd, hact⟩ := timersReschedule_active ht adjust
  rw [hd] at hstays ⊢
  refine ⟨⟨hstays.core, h.signals, h.rfeeds⟩, rfl, fun v => view_congr ?_ rfl⟩
  cases v with
  | timer w => exact hact w
  | _ => exact Iff.rfl

section

omit [DecidableEq U] [Add T] [Sub T] [Zero T]

theorem Same.trans (h : Same e l m) (h' : Same e m n) : Same e l n :=
  ⟨h'.tidy, h'.signals.trans h.signals, fun v => (h'.same v).trans (h.same v)⟩

theorem Same.spares (h : Same e l m) : Spares e l m := ⟨h.tidy, h.signals, fun v _ => h.same v⟩

end

/-! ### What the loop does of its own -/

section

omit [DecidableEq U] [Add T] [Sub T] [Zero T]

theorem Spares.trans (h : Spares e l m) (h' : Spares e m n) : Spares e l n := by
  refine ⟨h'.tidy, h'.signals.trans h.signals, fun v hv => ?_⟩
  have hm := h.same v hv
  exact (h'.same v (by rw [hm, hv])).trans hm

end

/-- It feeds an active watcher. -/
theorem Tidy.feedActive (h : Tidy e l) (hw : (l.view w).active = true) (hne : w ≠ .pendingW) (revents : Events) :
    Spares e l (l.evFeedEvent w revents) := by
  have hfeed := h.feed hne revents
  refine ⟨hfeed.tidy, rfl, fun v hv => hfeed.others v ?_⟩
  rintro rfl
  rw [hw] at hv
  cases hv

section

omit [DecidableEq U] [Add T] [Sub T] [Zero T]

theorem Spares.refl (h : Tidy e l) : Spares e l l := ⟨h, rfl, fun _ _ => rfl⟩

end

/-- Active watchers are fed, one after the other. -/
theorem Tidy.feedAll {A : Type} (f : Loop U T K → A → Loop U T K) (fam : A → Watcher U)
    (hfam : ∀ a, fam a ≠ .pendingW) (hf : ∀ l a, f l a = l ∨ ∃ ev, f l a = l.evFeedEvent (fam a) ev) (as : List A)
    (h : Tidy e l) (has : ∀ a ∈ as, (l.view (fam a)).active = true) : Spares e l (as.foldl f l) := by
  induction as generalizing l with
  | nil => exact .refl h
  | cons a as ih =>
    rw [List.foldl_cons]
    rcases hf l a with heq | ⟨ev, heq⟩
    · rw [heq]
      exact ih h fun b hb => has b (List.mem_cons_of_mem a hb)
    · rw [heq]
      have hfeed := h.feed (hfam a) ev
      have hact : ∀ v, ((l.evFeedEvent (fam a) ev).view v).active = (l.view v).active := fun v => by
        by_cases hv : v = fam a
        · rw [hv, hfeed.self]
        · rw [hfeed.others v hv]
      refine (h.feedActive (has a List.mem_cons_self) (hfam a) ev).trans (ih hfeed.tidy fun b hb => ?_)
      rw [hact]
      exact has b (List.mem_cons_of_mem a hb)

theorem Tidy.fdEventNocheck (h : Tidy e l) (fd : ℕ) (revents : Events) :
    Spares e l (l.fdEventNocheck fd revents) := by
  refine h.feedAll (fun l w => if l.fds.events w &&& revents ≠ 0
    then l.evFeedEvent (.io w) (l.fds.events w &&& revents) else l) .io (fun w => by simp) (fun l w => ?_) _ fun w hw => ?_
  · split
    · exact .inr ⟨_, rfl⟩
    · exact .inl rfl
  · exact decide_eq_true ((h.core.linked.mem fd w).mp hw).1

theorem Tidy.fdEvent (h : Tidy e l) (fd : ℕ) (revents : Events) : Spares e l (l.fdEvent fd revents) := by
  unfold Loop.fdEvent
  split
  · exact h.fdEventNocheck fd revents
  · exact .refl h

theorem Tidy.fdKill (h : Tidy e l) (fd : ℕ) : Spares e l (l.fdKill fd) := by
  refine fdKillLoop_induction l (P := fun m => Spares e l m) fd (fun m w hw hm => ?_) _ (.refl h)
  have hstop := hm.tidy.ioStop w
  have hfeed := hstop.tidy.feed (w := .io w) (by simp) (evError ||| evRead ||| evWrite)
  have hact : m.fds.active w ≠ 0 := ((hm.tidy.core.linked.mem fd w).mp hw).1
  have hsig : (m.evIoStop w).signals = m.signals := by
    unfold Loop.evIoStop
    dsimp only
    split <;> rfl
  refine hm.trans ⟨hfeed.tidy, hsig, fun v hv => ?_⟩
  have hne : v ≠ .io w := by
    rintro rfl
    exact (decide_eq_false_iff_not.mp hv) hact
  rw [hfeed.others v hne, hstop.others v hne]

theorem Tidy.evFeedSignalEvent (h : Tidy e l) (signum : ℕ) : Spares e l (l.evFeedSignalEvent signum) := by
  refine h.feedAll (fun l w => l.evFeedEvent (.signal w) evSignal) .signal (fun w => by simp)
    (fun l w => .inr ⟨_, rfl⟩) _ fun w hw => ?_
  exact decide_eq_true ((h.signals.mem _ w).mp hw).1

/-- What `timers_reify` clears or feeds was active. -/
theorem Tidy.timersReify (h : Tidy e l) : Spares e l (l.timersReify e) := by
  obtain ⟨t, ht⟩ := h.core.timers
  obtain ⟨fed, hok⟩ := h.core.pend
  obtain ⟨d, ws, heq, hd, -⟩ := timersReify_spec ht h.rfeeds
  have hstays := h.core.timersReify h.rfeeds
  obtain ⟨hok', -⟩ := ok_clear_queue hok ((l.oneShots ws).map .timer)
    (List.nodup_reverse.mpr (hd.once.map fun _ _ => Watcher.timer.inj)) (fun x hx => by
      obtain ⟨w, -, rfl⟩ := List.mem_map.mp (List.mem_reverse.mp hx)
      rw [h.core.dummy]
      simp) evTimer
  have hsig : (l.timersReify e).signals = l.signals := by rw [heq]
  refine ⟨⟨hstays.core, ?_, hstays.rfeeds.trans h.rfeeds⟩, hsig, fun v hv => ?_⟩
  · rw [heq]
    exact h.signals
  -- a watcher in either list is a timer that was active
  have hlate : ∀ w ∈ ws, v ≠ .timer w := by
    rintro w hw rfl
    exact (decide_eq_false_iff_not.mp hv) ((hd.late w).mp hw).1
  have hfed : v ∉ (ws.map .timer).reverse := fun hm => by
    obtain ⟨w, hw, rfl⟩ := List.mem_map.mp (List.mem_reverse.mp hm)
    exact hlate w hw rfl
  have hcleared : v ∉ (l.oneShots ws).map .timer := fun hm => by
    obtain ⟨w, hw, rfl⟩ := List.mem_map.mp hm
    exact hlate w (List.mem_of_mem_filter hw) rfl
  rw [heq]
  refine view_congr ?_ (hok.pendingFor_congr hok' (by rw [if_neg hfed, if_neg hcleared]))
  cases v with
  | timer w => exact (hd.became.stays w fun hm => hlate w hm rfl).2
  | _ => exact Iff.rfl

theorem Tidy.fdReify (h : Tidy e l) (refused : ℕ → Bool) :
    Spares e l (l.fdReify fun fd _ _ l => if refused fd then l.fdKill fd else l) := by
  have hfold : ∀ (queue : List ℕ) (m : Loop U T K), Spares e l m → Spares e l (queue.foldl
      (fdReifyOne fun fd _ _ l => if refused fd then l.fdKill fd else l) m) := by
    intro queue
    induction queue with
    | nil => exact fun m hm => hm
    | cons fd queue ih =>
      intro m hm
      rw [List.foldl_cons]
      have hclear := hm.tidy.sameFds (hm.tidy.core.sameFds (f := m.fds.reify fd) (Fds.head_reify m.fds fd) rfl rfl
        rfl).core rfl
      have h₁ := hm.trans hclear.spares
      refine ih _ ?_
      unfold fdReifyOne
      dsimp only
      split
      · exact h₁
      · split
        · exact h₁.trans (h₁.tidy.fdKill fd)
        · exact h₁
  have hall := hfold l.fds.fdchanges l (.refl h)
  have hcut := hall.tidy.sameFds (hall.tidy.core.sameFds (f := Fds.shift _ l.fds.fdchanges.length) (fun _ => rfl)
    rfl rfl rfl).core rfl
  exact hall.trans hcut.spares

end Loop
end Qev
