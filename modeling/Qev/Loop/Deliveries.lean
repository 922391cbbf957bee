/-
# The deliveries of a timer

A timer is delivered when `ev_invoke_pending` calls its callback with `EV_TIMER`. `timers_reify` makes that
pending, once in each pass whose time is past the timer's; every pass invokes what is pending before the
next one looks at the timers, also if callbacks call `ev_run` again.

To a timer that is left alone the passes are the rounds of `Lib.Clockwork`: its `at` is the deadline, its
`repeat` the period (`follows_run`). So no delivery comes early, no pass makes two, and a timer without
`repeat` is delivered in the first pass past its time (`timer_deliveries`).

`ev_set_invoke_pending_cb` is not used here, and the clock is monotonic.
-/
import Qev.Lib.Bits
import Qev.Lib.Rounds
import Qev.Loop.Expire
import Qev.Loop.PassOrder
import Qev.Loop.Supply
import Qev.Loop.Views

set_option linter.unusedSectionVars false

namespace Qev

open Lib

/-! ### Queues to one side -/

namespace Pend

variable {W : Type} [DecidableEq W] {p q r : Pend W} {fed : W → List Events} {v w : W}

/-- The queues stay well formed, and for `w` is pending what was. -/
structure Beyond (w : W) (p q : Pend W) : Prop where
  ok : ∀ fed, p.Ok fed → ∃ fed', q.Ok fed' ∧ fed' w = fed w
  pendingW : q.pendingW = p.pendingW

theorem Beyond.refl (w : W) (p : Pend W) : Beyond w p p := ⟨fun fed h => ⟨fed, h, rfl⟩, rfl⟩

theorem Beyond.trans (h : Beyond w p q) (h' : Beyond w q r) : Beyond w p r := by
  refine ⟨fun fed hp => ?_, h'.pendingW.trans h.pendingW⟩
  obtain ⟨fed', hq, heq⟩ := h.ok fed hp
  obtain ⟨fed'', hr, heq'⟩ := h'.ok fed' hq
  exact ⟨fed'', hr, heq'.trans heq⟩

theorem Beyond.feed (hv : v ≠ w) (hW : v ≠ p.pendingW) (revents : Events) : Beyond w p (p.evFeedEvent v revents) :=
  ⟨fun _ hp => ⟨_, ok_feed hp hW revents, Function.update_of_ne hv.symm ..⟩, pendingW_feed p v revents⟩

theorem Beyond.clear (hv : v ≠ w) (p : Pend W) : Beyond w p (p.clearPending v) :=
  ⟨fun _ hp => ⟨_, ok_clear hp, Function.update_of_ne hv.symm ..⟩, pendingW_clear p v⟩

theorem Beyond.queueEvents {ws : List W} (hws : ∀ v ∈ ws, v ≠ w ∧ v ≠ p.pendingW) (type : Events) :
    Beyond w p (p.queueEvents ws type) := by
  induction ws generalizing p with
  | nil => exact .refl w p
  | cons v ws ih =>
    obtain ⟨hv, hW⟩ := hws v List.mem_cons_self
    refine (Beyond.feed hv hW type).trans (ih fun u hu => ?_)
    rw [pendingW_feed]
    exact hws u (List.mem_cons_of_mem v hu)

theorem Beyond.pendingEvents (h : Beyond w p q) (hp : p.Ok fed) : q.pendingEvents w = p.pendingEvents w := by
  obtain ⟨fed', hq, heq⟩ := h.ok fed hp
  rw [hq.pendingEvents_eq, hp.pendingEvents_eq, heq]

theorem rfeeds_queueEvents (p : Pend W) (ws : List W) (type : Events) :
    (p.queueEvents ws type).rfeeds = p.rfeeds := by
  induction ws generalizing p with
  | nil => rfl
  | cons w ws ih => exact (ih _).trans (rfeeds_feed p w type)

/-- Every queue has been emptied. -/
def Emptied (p : Pend W) : Prop := ∀ pri < numpri, p.pendingcnt pri = 0

instance (p : Pend W) : Decidable p.Emptied := inferInstanceAs (Decidable (∀ pri < numpri, p.pendingcnt pri = 0))

end Pend

namespace Loop

variable {U T K : Type} [DecidableEq U] [LinearOrder T] [Add T] [Sub T] [Zero T]
variable {e : Env U T} {l m n : Loop U T K} {x w : TimerW U} {v : Watcher U}

/-! ### One timer -/

/-- `EV_TIMER` is pending for the timer. -/
def timedOut (l : Loop U T K) (x : TimerW U) : Bool := decide (l.pend.pendingEvents (.timer x) &&& evTimer ≠ 0)

/-- The timers and the queues are well formed, and nothing is about to be fed. -/
structure Sane (e : Env U T) (l : Loop U T K) : Prop where
  timers : ∃ t, l.timers.Good e.heap t
  pend : ∃ fed, l.pend.Ok fed
  dummy : l.pend.pendingW = .pendingW
  rfeeds : l.pend.rfeeds = []

/-- Nothing has changed for the timer `x`. -/
structure Unmoved (e : Env U T) (x : TimerW U) (l m : Loop U T K) : Prop where
  sane : Sane e m
  deadline : m.timers.deadline x = l.timers.deadline x
  wRepeat : m.wRepeat x = l.wRepeat x
  timedOut : m.timedOut x = l.timedOut x

theorem Unmoved.trans (h : Unmoved e x l m) (h' : Unmoved e x m n) : Unmoved e x l n :=
  ⟨h'.sane, h'.deadline.trans h.deadline, h'.wRepeat.trans h.wRepeat, h'.timedOut.trans h.timedOut⟩

theorem Sane.same (h : Sane e l) (ht : m.timers = l.timers) (hp : m.pend = l.pend) (hr : m.wRepeat = l.wRepeat) :
    Unmoved e x l m := by
  refine ⟨⟨ht ▸ h.timers, hp ▸ h.pend, hp ▸ h.dummy, hp ▸ h.rfeeds⟩, by rw [ht], by rw [hr], ?_⟩
  unfold Loop.timedOut
  rw [hp]

theorem Sane.queues (h : Sane e l) {p : Pend (Watcher U)} (hb : Pend.Beyond (.timer x) l.pend p)
    (hr : p.rfeeds = []) : Unmoved e x l { l with pend := p } := by
  obtain ⟨fed, hok⟩ := h.pend
  obtain ⟨fed', hok', -⟩ := hb.ok fed hok
  refine ⟨⟨h.timers, ⟨fed', hok'⟩, hb.pendingW.trans h.dummy, hr⟩, rfl, rfl, ?_⟩
  unfold Loop.timedOut
  rw [show ({ l with pend := p } : Loop U T K).pend = p from rfl, hb.pendingEvents hok]

theorem Sane.feed (h : Sane e l) (hv : v ≠ .timer x) (hW : v ≠ .pendingW) (revents : Events) :
    Unmoved e x l (l.evFeedEvent v revents) :=
  h.queues (.feed hv (h.dummy ▸ hW) revents) ((Pend.rfeeds_feed ..).trans h.rfeeds)

theorem Sane.clear (h : Sane e l) (hv : v ≠ .timer x) : Unmoved e x l (l.clearPending v) :=
  h.queues (.clear hv _) ((Pend.clearPending_frame l.pend v).2.1.trans h.rfeeds)

/-- Feeding anything but `EV_TIMER` makes no delivery due. -/
theorem Sane.feedOther (h : Sane e l) {revents : Events} (hr : revents &&& evTimer = 0) :
    Unmoved e x l (l.evFeedEvent (.timer x) revents) := by
  obtain ⟨fed, hok⟩ := h.pend
  have hW : (.timer x : Watcher U) ≠ l.pend.pendingW := by
    rw [h.dummy]
    simp
  refine ⟨⟨h.timers, ⟨_, Pend.ok_feed hok hW revents⟩, (Pend.pendingW_feed ..).trans h.dummy,
    (Pend.rfeeds_feed ..).trans h.rfeeds⟩, rfl, rfl, ?_⟩
  have hevents := hok.pendingEvents_feed hW revents (.timer x)
  rw [if_pos rfl] at hevents
  refine decide_eq_decide.mpr ?_
  rw [show (l.evFeedEvent (.timer x) revents).pend = l.pend.evFeedEvent (.timer x) revents from rfl, hevents,
    or_and_ne_zero]
  exact or_iff_right (not_not.mpr hr)

theorem Sane.setPriority (h : Sane e l) (hv : l.pend.pending v = 0) {pri : ℤ} (hpri : minpri ≤ pri ∧ pri ≤ maxpri) :
    Unmoved e x l (l.evSetPriority v pri) :=
  h.queues ⟨fun fed hp => ⟨fed, hp.setPriority hv hpri, rfl⟩, rfl⟩ h.rfeeds

theorem deadline_congr {W : Type} [DecidableEq W] {d d' : Deadlines W T} {w : W} (hat : d'.wAt w = d.wAt w)
    (hact : d'.active w ≠ 0 ↔ d.active w ≠ 0) : d'.deadline w = d.deadline w := by
  unfold Deadlines.deadline
  simp only [hat, hact]

/-- The timers change, but not `x`. -/
theorem Sane.ofTimers (h : Sane e l) (ht : ∃ t, m.timers.Good e.heap t) (hp : m.pend = l.pend)
    (hr : m.wRepeat = l.wRepeat) (hat : m.timers.wAt x = l.timers.wAt x)
    (hact : m.timers.active x ≠ 0 ↔ l.timers.active x ≠ 0) : Unmoved e x l m := by
  refine ⟨⟨ht, hp ▸ h.pend, hp ▸ h.dummy, hp ▸ h.rfeeds⟩, deadline_congr hat hact, by rw [hr], ?_⟩
  unfold Loop.timedOut
  rw [hp]

theorem Sane.priAdjust (h : Sane e l) (w : Watcher U) : l.pend.priAdjust w = l.pend := by
  obtain ⟨fed, hok⟩ := h.pend
  exact hok.range.priAdjust w

/-- A timer that is started has its deadline so much later; the others are as they were. -/
theorem Sane.timerStart (h : Sane e l) (w : TimerW U) : Sane e (l.evTimerStart e w) ∧
    (x ≠ w → Unmoved e x l (l.evTimerStart e w)) ∧
    (l.timers.active w = 0 → (l.evTimerStart e w).timers.deadline w = some (l.timers.wAt w + l.mnNow) ∧
      (l.evTimerStart e w).wRepeat = l.wRepeat ∧ (l.evTimerStart e w).pend = l.pend) := by
  by_cases hw : l.timers.active w = 0
  · obtain ⟨t, ht⟩ := h.timers
    have hgood : ∃ t, (l.evTimerStart e w).timers.Good e.heap t := by
      refine ⟨max t (l.timers.cnt + 1), good_evTimerStart (Good.mono ht (le_max_left ..)) ?_⟩
      omega
    have hact := ((ht.setAt hw (l.timers.wAt w + l.mnNow)).ok.start (not_not.mpr hw)).active_iff
    have heq : l.evTimerStart e w = _ := if_neg (not_not.mpr hw)
    have hp : (l.evTimerStart e w).pend = l.pend := by
      rw [heq]
      exact h.priAdjust _
    have hr : (l.evTimerStart e w).wRepeat = l.wRepeat := by rw [heq]; rfl
    refine ⟨⟨hgood, hp ▸ h.pend, hp ▸ h.dummy, hp ▸ h.rfeeds⟩, fun hx => h.ofTimers hgood hp hr ?_ ?_,
      fun _ => ⟨?_, hr, hp⟩⟩
    · rw [heq]
      exact Function.update_of_ne hx ..
    · rw [heq]
      exact (hact x).trans (or_iff_right hx)
    · rw [heq]
      have hin : (Deadlines.start e.heap (l.timers.setAt w (l.timers.wAt w + l.mnNow)) w).active w ≠ 0 :=
        (hact w).mpr (.inl rfl)
      exact (if_pos hin).trans (congrArg some (Function.update_self ..))
  · have heq : l.evTimerStart e w = l := if_pos hw
    rw [heq]
    exact ⟨h, fun _ => h.same rfl rfl rfl, fun hc => absurd hc hw⟩

theorem Sane.timerStop (h : Sane e l) (w : TimerW U) : Sane e (l.evTimerStop e w) ∧
    (x ≠ w → Unmoved e x l (l.evTimerStop e w)) := by
  obtain ⟨t, ht⟩ := h.timers
  obtain ⟨fed, hok⟩ := h.pend
  have hclear : Sane e (l.clearPending (.timer w)) :=
    ⟨h.timers, ⟨_, Pend.ok_clear hok⟩, (Pend.pendingW_clear ..).trans h.dummy,
      (Pend.clearPending_frame l.pend _).2.1.trans h.rfeeds⟩
  have hne : x ≠ w → (.timer w : Watcher U) ≠ .timer x := fun hx hc => hx (Watcher.timer.inj hc).symm
  by_cases hw : l.timers.active w = 0
  · have heq : l.evTimerStop e w = l.clearPending (.timer w) := if_pos hw
    rw [heq]
    exact ⟨hclear, fun hx => h.clear (hne hx)⟩
  · have hgood : ∃ t, (l.evTimerStop e w).timers.Good e.heap t := ⟨t, good_evTimerStop ht⟩
    have hact := (ht.ok.stop hw).active_iff
    have heq : l.evTimerStop e w = _ := if_neg hw
    have hp : (l.evTimerStop e w).pend = (l.clearPending (.timer w)).pend := by rw [heq]; rfl
    refine ⟨⟨hgood, hp ▸ hclear.pend, hp ▸ hclear.dummy, hp ▸ hclear.rfeeds⟩, fun hx =>
      (h.clear (hne hx)).trans (hclear.ofTimers hgood hp ?_ ?_ ?_)⟩
    · rw [heq]
      rfl
    · rw [heq]
      exact Function.update_of_ne hx ..
    · rw [heq]
      exact (hact x).trans (and_iff_right hx)

theorem Sane.timerSet (h : Sane e l) {w : TimerW U} (hw : l.timers.active w = 0) (after repeat' : T) :
    Sane e (l.evTimerSet w after repeat') ∧ (x ≠ w → Unmoved e x l (l.evTimerSet w after repeat')) := by
  obtain ⟨t, ht⟩ := h.timers
  refine ⟨⟨⟨t, ht.setAt hw _⟩, h.pend, h.dummy, h.rfeeds⟩, fun hx => ⟨⟨⟨t, ht.setAt hw _⟩, h.pend, h.dummy, h.rfeeds⟩,
    deadline_congr (Function.update_of_ne hx ..) Iff.rfl, Function.update_of_ne hx .., rfl⟩⟩

theorem Sane.timerAgain (h : Sane e l) (w : TimerW U) : Sane e (l.evTimerAgain e w) ∧
    (x ≠ w → Unmoved e x l (l.evTimerAgain e w)) := by
  obtain ⟨fed, hok⟩ := h.pend
  have hclear : Sane e (l.clearPending (.timer w)) :=
    ⟨h.timers, ⟨_, Pend.ok_clear hok⟩, (Pend.pendingW_clear ..).trans h.dummy,
      (Pend.clearPending_frame l.pend _).2.1.trans h.rfeeds⟩
  have hspares : x ≠ w → Unmoved e x l (l.clearPending (.timer w)) := fun hx =>
    h.clear fun hc => hx (Watcher.timer.inj hc).symm
  unfold evTimerAgain
  generalize l.clearPending (.timer w) = m at hclear hspares ⊢
  dsimp only
  obtain ⟨t, ht⟩ := hclear.timers
  split
  · rename_i ha
    split
    · have hgood := ht.adjust ha (m.mnNow + m.wRepeat w)
      refine ⟨⟨⟨t, hgood⟩, hclear.pend, hclear.dummy, hclear.rfeeds⟩, fun hx =>
        (hspares hx).trans (hclear.ofTimers ⟨t, hgood⟩ rfl rfl (Function.update_of_ne hx ..) ?_)⟩
      have hact := (ht.ok.adjust ha (m.mnNow + m.wRepeat w)).active_iff x
      rw [← ht.ok.linked.retime_active ha] at hact
      exact hact
    · obtain ⟨hs, ho⟩ := hclear.timerStop (x := x) w
      exact ⟨hs, fun hx => (hspares hx).trans (ho hx)⟩
  · rename_i ha
    split
    · have hset : Sane e { m with timers := m.timers.setAt w (m.wRepeat w) } :=
        ⟨⟨t, ht.setAt (not_not.mp ha) _⟩, hclear.pend, hclear.dummy, hclear.rfeeds⟩
      obtain ⟨hs, ho, -⟩ := hset.timerStart (x := x) w
      refine ⟨hs, fun hx => (hspares hx).trans (Unmoved.trans ?_ (ho hx))⟩
      exact hclear.ofTimers hset.timers rfl rfl (Function.update_of_ne hx ..) Iff.rfl
    · exact ⟨hclear, hspares⟩

/-- What is pending for a watcher is not more once something has been cleared. -/
theorem Sane.timedOut_clear (h : Sane e l) (hp : m.pend = l.pend.clearPending v) (hm : m.timedOut x = true) :
    l.timedOut x = true := by
  obtain ⟨fed, hok⟩ := h.pend
  have hne := of_decide_eq_true hm
  rw [hp, hok.pendingEvents_clear] at hne
  refine decide_eq_true fun hc => hne ?_
  split
  · exact BitVec.zero_and
  · exact hc

theorem Sane.pend_timerStart (h : Sane e l) (w : TimerW U) : (l.evTimerStart e w).pend = l.pend := by
  unfold evTimerStart
  split
  · rfl
  · exact h.priAdjust _

theorem pend_timerStop (l : Loop U T K) (w : TimerW U) :
    (l.evTimerStop e w).pend = l.pend.clearPending (.timer w) := by
  unfold evTimerStop
  dsimp only
  split
  · rfl
  · rfl

theorem Sane.pend_timerAgain (h : Sane e l) (w : TimerW U) :
    (l.evTimerAgain e w).pend = l.pend.clearPending (.timer w) := by
  unfold evTimerAgain
  dsimp only
  split
  · split
    · rfl
    · rw [pend_timerStop]
      exact Pend.clearPending_idle ((Pend.pending_clear ..).trans (if_pos rfl))
  · split
    · obtain ⟨fed, hok⟩ := h.pend
      have hrange := (Pend.ok_clear (w := .timer w) hok).range
      unfold evTimerStart
      split
      · rfl
      · exact hrange.priAdjust _
    · rfl

/-! ### The timers in a pass -/

/-- To a timer `timers_reify` is a round, at the loop's time. -/
theorem Sane.timersReify (h : Sane e l) {c : Clockwork T} (hd : c.deadline = l.timers.deadline x)
    (hdue : c.due = l.timedOut x) : Sane e (l.timersReify e) ∧ (l.timersReify e).wRepeat = l.wRepeat ∧
      (c.round (l.wRepeat x) l.mnNow).deadline = (l.timersReify e).timers.deadline x ∧
      (c.round (l.wRepeat x) l.mnNow).due = (l.timersReify e).timedOut x := by
  obtain ⟨t, ht⟩ := h.timers
  obtain ⟨fed, hok⟩ := h.pend
  obtain ⟨d, ws, heq, hdrained, hgood⟩ := timersReify_spec ht h.rfeeds
  have hn : (ws.map .timer : List (Watcher U)).reverse.Nodup :=
    List.nodup_reverse.mpr (hdrained.once.map fun _ _ => Watcher.timer.inj)
  obtain ⟨hok', -⟩ := ok_clear_queue hok ((l.oneShots ws).map .timer) hn (fun v hv => by
    obtain ⟨w, -, rfl⟩ := List.mem_map.mp (List.mem_reverse.mp hv)
    rw [h.dummy]
    simp) evTimer
  have hmem : (.timer x : Watcher U) ∈ (ws.map .timer : List (Watcher U)).reverse ↔ x ∈ ws := by simp
  have hdummy : ((l.pend.clearAll ((l.oneShots ws).map .timer)).queueEvents (ws.map .timer).reverse
      evTimer).pendingW = .pendingW := ((Pend.queueEvents_frame ..).1.trans (Pend.pendingW_clearAll ..)).trans h.dummy
  rw [heq]
  refine ⟨⟨⟨t, hgood⟩, ⟨_, hok'⟩, hdummy, ?_⟩, rfl, ?_⟩
  · exact ((Pend.rfeeds_queueEvents ..).trans (Pend.rfeeds_clearAll ..)).trans h.rfeeds
  have hevents := hok'.pendingEvents_eq (.timer x)
  by_cases hx : x ∈ ws
  · obtain ⟨hact, hlt⟩ := (hdrained.late x).mp hx
    have hsome : c.deadline = some (l.timers.wAt x) := hd.trans (if_pos hact)
    rw [Clockwork.round_past _ hsome hlt]
    refine ⟨(hdrained.became.out x hx).symm, (decide_eq_true ?_).symm⟩
    simp only [hevents, if_pos (hmem.mpr hx)]
    exact (or_and_ne_zero _ _ _).mpr (.inl (by decide))
  · obtain ⟨hat, hact⟩ := hdrained.became.stays x hx
    have hlate : ∀ d₀, c.deadline = some d₀ → ¬ d₀ < l.mnNow := by
      intro d₀ hd₀ hlt
      rw [hd, Deadlines.deadline] at hd₀
      split at hd₀
      · rename_i hon
        exact hx ((hdrained.late x).mpr ⟨hon, (Option.some.inj hd₀).trans_lt hlt⟩)
      · cases hd₀
    rw [Clockwork.round_idle _ hlate]
    have hout : (.timer x : Watcher U) ∉ (l.oneShots ws).map .timer := fun hm => by
      obtain ⟨w, hw, hwx⟩ := List.mem_map.mp hm
      obtain rfl := Watcher.timer.inj hwx
      exact hx (List.mem_of_mem_filter hw)
    refine ⟨hd.trans (deadline_congr hat hact).symm, hdue.trans (decide_eq_decide.mpr ?_)⟩
    rw [hevents, if_neg (fun hm => hx (hmem.mp hm)), if_neg hout, hok.pendingEvents_eq]

/-- The periodics, idle and check watchers that become pending are no timers. -/
theorem Sane.periodicsReify (h : Sane e l) (k : ℕ) : Unmoved e x l (l.periodicsReify e k) := by
  -- of the loop only the periodics change, and the queues but for timers
  have hstop : ∀ (m : Loop U T K) (u : U), (m.evPeriodicStop e u).timers = m.timers ∧
      (m.evPeriodicStop e u).wRepeat = m.wRepeat ∧
      (m.evPeriodicStop e u).pend = m.pend.clearPending (.periodic u) := by
    intro m u
    unfold evPeriodicStop
    dsimp only
    split
    · exact ⟨rfl, rfl, rfl⟩
    · exact ⟨rfl, rfl, rfl⟩
  let Only : Loop U T K → Prop := fun m => m.timers = l.timers ∧ m.wRepeat = l.wRepeat ∧
    ∃ (p : Pend (Watcher U)) (us : List U), m.pend = { p with rfeeds := us.map .periodic } ∧ p.rfeeds = [] ∧
      Pend.Beyond (.timer x) l.pend p
  have hone : ∀ m, Only m → Only (m.periodicsReifyOne e) := by
    rintro m ⟨ht, hr, p, us, hp, hnone, hb⟩
    unfold periodicsReifyOne
    dsimp only
    rcases periodicNext_cases e m (m.periodics.rootW e.heap) with ⟨y, c, hy⟩ | hy
    · simp only [hy]
      refine ⟨ht, hr, p, m.periodics.rootW e.heap :: us, ?_, hnone, hb⟩
      show ({ m.pend with rfeeds := _ :: m.pend.rfeeds } : Pend (Watcher U)) = _
      rw [hp]
      rfl
    · simp only [hy]
      obtain ⟨hst, hsr, hsp⟩ := hstop m (m.periodics.rootW e.heap)
      refine ⟨hst.trans ht, hsr.trans hr, p.clearPending (.periodic (m.periodics.rootW e.heap)),
        m.periodics.rootW e.heap :: us, ?_, (Pend.clearPending_frame p _).2.1.trans hnone,
        hb.trans (.clear (by simp) p)⟩
      show ({ (m.evPeriodicStop e _).pend with rfeeds := _ :: (m.evPeriodicStop e _).pend.rfeeds } :
        Pend (Watcher U)) = _
      rw [hsp, hp, Pend.clearPending_rfeeds]
      rfl
  have hloop : ∀ k m, Only m → Only (periodicsReifyLoop e k m) := by
    intro k
    induction k with
    | zero => exact fun m hm => hm
    | succ k ih =>
      intro m hm
      unfold periodicsReifyLoop
      split
      · exact ih _ (hone m hm)
      · exact hm
  unfold Loop.periodicsReify
  split
  · obtain ⟨ht, hr, p, us, hp, hnone, hb⟩ := hloop k l
      ⟨rfl, rfl, l.pend, [], by rw [List.map_nil, ← h.rfeeds], h.rfeeds, .refl _ _⟩
    have hfed : ((periodicsReifyLoop e k l).feedReverseDone evPeriodic).pend =
        p.queueEvents (us.map .periodic) evPeriodic := by
      show (periodicsReifyLoop e k l).pend.feedReverseDone evPeriodic = _
      rw [hp, Pend.feedReverseDone_eq hnone]
    have hall : Pend.Beyond (.timer x) l.pend (p.queueEvents (us.map .periodic) evPeriodic) :=
      hb.trans (.queueEvents (fun v hv => by
        obtain ⟨u, -, rfl⟩ := List.mem_map.mp hv
        rw [hb.pendingW, h.dummy]
        simp) evPeriodic)
    exact (h.queues hall ((Pend.rfeeds_queueEvents ..).trans hnone)).trans
      ((h.queues hall ((Pend.rfeeds_queueEvents ..).trans hnone)).sane.same ht hfed hr)
  · exact h.same rfl rfl rfl

theorem Sane.queueAll (h : Sane e l) {ws : List (Watcher U)} (hws : ∀ v ∈ ws, v ≠ .timer x ∧ v ≠ .pendingW)
    (type : Events) : Unmoved e x l (l.queueEvents ws type) :=
  h.queues (.queueEvents (fun v hv => h.dummy ▸ hws v hv) type) ((Pend.rfeeds_queueEvents ..).trans h.rfeeds)

theorem Sane.idleReify (h : Sane e l) : Unmoved e x l l.idleReify := by
  have hqueue : ∀ pri, Unmoved e x l (l.queueEvents ((l.idles.toList pri).map .idle) evIdle) := fun pri =>
    h.queueAll (fun v hv => by
      obtain ⟨u, -, rfl⟩ := List.mem_map.mp hv
      simp) evIdle
  have hloop : ∀ k, Unmoved e x l (idleReifyLoop k l) := by
    intro k
    induction k with
    | zero => exact h.same rfl rfl rfl
    | succ k ih =>
      unfold idleReifyLoop
      split
      · exact h.same rfl rfl rfl
      · split
        · exact hqueue k
        · exact ih
  unfold Loop.idleReify
  split
  · exact hloop numpri
  · exact h.same rfl rfl rfl

theorem Sane.checkReify (h : Sane e l) : Unmoved e x l l.checkReify := by
  rw [checkReify_eq]
  exact h.queueAll (fun v hv => by
    obtain ⟨u, -, rfl⟩ := List.mem_map.mp hv
    simp) evCheck

/-- What a pass makes pending after its poll. -/
theorem Sane.collect (h : Sane e l) {c : Clockwork T} (hd : c.deadline = l.timers.deadline x)
    (hdue : c.due = l.timedOut x) : Sane e (l.collect e) ∧ (l.collect e).wRepeat x = l.wRepeat x ∧
      (c.round (l.wRepeat x) l.mnNow).deadline = (l.collect e).timers.deadline x ∧
      (c.round (l.wRepeat x) l.mnNow).due = (l.collect e).timedOut x := by
  obtain ⟨ht, hr, hdead, hout⟩ := h.timersReify hd hdue
  have hp := ht.periodicsReify (x := x) (l.timersReify e).periodics.cnt
  have hi := hp.sane.idleReify (x := x)
  have hall := (hp.trans hi).trans (hi.sane.checkReify (x := x))
  exact ⟨hall.sane, hall.wRepeat.trans (congrFun hr x), hdead.trans hall.deadline.symm, hout.trans hall.timedOut.symm⟩

end Loop

namespace Clocked

variable {U T K : Type} [DecidableEq U] [LinearOrder T] [Add T] [Sub T] [Neg T] [Zero T]
variable {e : Env U T} {h : Host T} {c : Clocked U T K} {x : TimerW U}

/-! ### The clock -/

/-- A monotonic clock leaves the timers and the queues alone. -/
theorem unmoved_timeUpdate (hmono : h.haveMonotonic) (hs : Loop.Sane e c.loop) (maxBlock : T) :
    Loop.Unmoved e x c.loop (c.timeUpdate e h maxBlock).loop := by
  let Same : Loop U T K → Prop := fun l =>
    l.timers = c.loop.timers ∧ l.pend = c.loop.pend ∧ l.wRepeat = c.loop.wRepeat
  have hsame : Same (c.timeUpdate e h maxBlock).loop := timeUpdate_rule (P := Same)
    (fun _ _ hl => hl) (fun _ _ hl => hl) (fun l hl => ?_) (fun hnot => absurd hmono hnot) ⟨rfl, rfl, rfl⟩
  · exact hs.same hsame.1 hsame.2.1 hsame.2.2
  · obtain ⟨p, n, heq⟩ := Loop.periodicsReschedule_touches e l
    rw [heq]
    exact hl

theorem unmoved_evNowSet (hmono : h.haveMonotonic) (hs : Loop.Sane e c.loop) (huge mono : T) :
    Loop.Unmoved e x c.loop (c.evNowSet e h huge mono).loop := by
  have hset : Loop.Unmoved e x c.loop (if mono > c.loop.mnNow then c.setMnNow mono else c).loop := by
    split
    · exact hs.same rfl rfl rfl
    · exact hs.same rfl rfl rfl
  unfold evNowSet
  rw [if_pos hmono]
  dsimp only
  generalize (if mono > c.loop.mnNow then c.setMnNow mono else c) = c' at hset ⊢
  split
  · exact hset.trans (hset.sane.same rfl rfl rfl)
  · unfold nowSetRefresh
    dsimp only
    split
    · obtain ⟨p, n, heq⟩ := Loop.periodicsReschedule_touches e ((c'.floorNow.readTime h).measure).loop
      refine hset.trans (hset.sane.same ?_ ?_ ?_)
      · show (Loop.periodicsReschedule e _).timers = _
        rw [heq]
        rfl
      · show (Loop.periodicsReschedule e _).pend = _
        rw [heq]
        rfl
      · show (Loop.periodicsReschedule e _).wRepeat = _
        rw [heq]
        rfl
    · exact hset.trans (hset.sane.same rfl rfl rfl)

theorem unmoved_phaseTime (hmono : h.haveMonotonic) (hs : Loop.Sane e c.loop) (huge maxBlock : T) (f : Break.Frame) :
    Loop.Unmoved e x c.loop (Supply.phaseTime e h huge c f maxBlock).loop := by
  unfold Supply.phaseTime
  split
  · unfold prePoll
    split
    · exact hs.same rfl rfl rfl
    · exact unmoved_timeUpdate hmono hs huge
  · unfold postPoll
    dsimp only
    split
    · exact hs.same rfl rfl rfl
    · exact unmoved_timeUpdate hmono hs _
  · exact hs.same rfl rfl rfl

end Clocked

/-! ### The passes -/

namespace Break

/-- What a phase has to invoke is all that is pending. -/
def Phase.Invokes : Phase → Bool
  | .entry | .fork | .prepare | .invoke => true
  | .reify | .poll | .collect | .leave => false

end Break

/-- A pass that has looked at the timers: the time it did so at, and what has been invoked since, the last first. -/
structure Course.Pass (U T : Type) where
  mnNow : T
  invoked : List (Watcher U × Events)

/-- The calls of `ev_run` under way, the loop with its clocks, and, as history, the passes, the last first. -/
structure Course (U T K : Type) where
  calls : Break.State
  clocked : Clocked U T K
  passes : List (Course.Pass U T)

namespace Course

variable {U T K : Type} [DecidableEq U] [LinearOrder T]

inductive Act (U T K : Type)
  | evRun (flags : Break.Flags)
  | evBreak (how : Break.LoopDone)
  | ref (n : ℤ)
  /-- The innermost call comes to its next phase; `maxBlock` is what its tail has computed. -/
  | advance (maxBlock : T)
  /-- `ev_invoke_pending` takes the top of a queue. -/
  | invoke (pri : ℕ)
  | timerSet (w : TimerW U) (after repeat' : T)
  | timerRepeat (w : TimerW U) (repeat' : T)
  | timerStart (w : TimerW U)
  | timerStop (w : TimerW U)
  | timerAgain (w : TimerW U)
  | feed (w : Watcher U) (revents : Events)
  | clear (w : Watcher U)
  /-- `ev_init` and `ev_set_priority`. -/
  | setPriority (w : Watcher U) (pri : ℤ)
  | nowSet (mono : T)
  | nowUpdate
  /-- What else is done, with the timers, the queues and the times as they are. -/
  | other (f : Loop U T K → Loop U T K)

/-- The callback is called. -/
def record (r : Watcher U × Events) : List (Pass U T) → List (Pass U T)
  | [] => []
  | p :: ps => { p with invoked := r :: p.invoked } :: ps

section

variable [Add T] [Sub T] [Neg T] [Zero T] (e : Env U T) (h : Host T) (huge : T) (ndebug : Bool)

def init (l : Loop U T K) : Course U T K := ⟨Break.initial, .init h l, []⟩

def loop (s : Course U T K) : Loop U T K := s.clocked.loop

def setLoop (s : Course U T K) (l : Loop U T K) : Course U T K := { s with clocked := { s.clocked with loop := l } }

/-- The innermost call, after the time updates of its phase, comes to its next; a pass looks at its timers. -/
def advance (s : Course U T K) (f : Break.Frame) (outer : List Break.Frame) (maxBlock : T) : Course U T K :=
  let c := Supply.phaseTime e h huge s.clocked f maxBlock
  if f.phase = .collect then
    { calls := s.calls.advance ndebug f outer
      clocked := { c with loop := c.loop.collect e }
      passes := ⟨c.loop.mnNow, []⟩ :: s.passes }
  else { calls := s.calls.advance ndebug f outer, clocked := c, passes := s.passes }

/-- One action. A phase that invokes what is pending ends with nothing pending. A timer is set only while it is
inactive, a priority only while the watcher is not pending, and the dummy is never fed. -/
def step (s : Course U T K) : Act U T K → Option (Course U T K)
  | .evRun flags => (Break.step ndebug s.calls (.evRun flags)).map fun calls => { s with calls := calls }
  | .evBreak how => some { s with calls := s.calls.evBreak how }
  | .ref n => (Break.step ndebug s.calls (.ref n)).map fun calls => { s with calls := calls }
  | .advance maxBlock =>
    match s.calls.runs with
    | [] => none
    | f :: outer =>
      if f.phase.Invokes ∧ ¬ s.loop.pend.Emptied then none else some (s.advance e h huge ndebug f outer maxBlock)
  | .invoke pri =>
    let p := s.loop.pend
    if p.pendingcnt pri = 0 then none
    else
      let top := p.entry pri (p.pendingcnt pri - 1)
      some { s.setLoop { s.loop with pend := p.pop pri } with passes := record (top.w, top.events) s.passes }
  | .timerSet w after repeat' =>
    if s.loop.timers.active w ≠ 0 then none else some (s.setLoop (s.loop.evTimerSet w after repeat'))
  | .timerRepeat w repeat' => some (s.setLoop { s.loop with wRepeat := Function.update s.loop.wRepeat w repeat' })
  | .timerStart w => some (s.setLoop (s.loop.evTimerStart e w))
  | .timerStop w => some (s.setLoop (s.loop.evTimerStop e w))
  | .timerAgain w => some (s.setLoop (s.loop.evTimerAgain e w))
  | .feed w revents => if w = .pendingW then none else some (s.setLoop (s.loop.evFeedEvent w revents))
  | .clear w => some (s.setLoop (s.loop.clearPending w))
  | .setPriority w pri =>
    if s.loop.pend.pending w = 0 ∧ minpri ≤ pri ∧ pri ≤ maxpri then some (s.setLoop (s.loop.evSetPriority w pri))
    else none
  | .nowSet mono => some { s with clocked := s.clocked.evNowSet e h huge mono }
  | .nowUpdate => some { s with clocked := s.clocked.evNowUpdate e h huge }
  | .other f => some (s.setLoop { f s.loop with
      pend := s.loop.pend, timers := s.loop.timers, wRepeat := s.loop.wRepeat, mnNow := s.loop.mnNow
      evRtNow := s.loop.evRtNow })

abbrev Runs (s : Course U T K) (acts : List (Act U T K)) (t : Course U T K) : Prop :=
  Run (fun s a t => step e h huge ndebug s a = some t) s acts t

end

/-! ### The deliveries -/

/-- The program itself feeds `EV_TIMER` to the timer. -/
def Act.Forges (x : TimerW U) : Act U T K → Prop
  | .feed w revents => w = .timer x ∧ revents &&& evTimer ≠ 0
  | _ => False

/-- The timer is neither set, started nor stopped, and what is pending for it not taken away or made up. -/
def Act.Spares (x : TimerW U) : Act U T K → Prop
  | .timerSet w _ _ => w ≠ x
  | .timerRepeat w _ => w ≠ x
  | .timerStart w => w ≠ x
  | .timerStop w => w ≠ x
  | .timerAgain w => w ≠ x
  | .feed w revents => w = .timer x → revents &&& evTimer = 0
  | .clear w => w ≠ .timer x
  | _ => True

/-- The times the timer's callback has been called with `EV_TIMER` in the pass. -/
def Pass.deliveries (x : TimerW U) (p : Pass U T) : ℕ :=
  p.invoked.countP fun r => r.1 = .timer x ∧ r.2 &&& evTimer ≠ 0

/-- The passes since there were `n` of them. -/
def since (n : ℕ) (s : Course U T K) : List (Pass U T) := s.passes.take (s.passes.length - n)

/-! ### Steps -/

/-- A pass as a round of the timer. -/
def Pass.round (x : TimerW U) (p : Pass U T) : Lib.Round T := ⟨p.mnNow, p.deliveries x⟩

/-- As the timer sees it, the loop is at this point of its rounds, those since there were `n` passes. -/
structure Follows (x : TimerW U) (n : ℕ) (s : Course U T K) (c : Clockwork T) : Prop where
  deadline : c.deadline = s.loop.timers.deadline x
  due : c.due = s.loop.timedOut x
  rounds : c.rounds = (s.since n).map (Pass.round x)
  passes : n ≤ s.passes.length

/-- The timers and the queues are well formed, and a delivery is due only where it will be made before anything
else comes. -/
structure Standing (e : Env U T) (x : TimerW U) (s : Course U T K) [Add T] [Sub T] [Zero T] : Prop where
  sane : s.loop.Sane e
  settled : s.loop.timedOut x = true → ∀ f ∈ s.calls.runs.head?, f.phase.Invokes = true

section

variable [Add T] [Sub T] [Neg T] [Zero T] {e : Env U T} {h : Host T} {huge : T} {ndebug : Bool}
  {s t : Course U T K} {a : Act U T K} {x : TimerW U} {c : Clockwork T} {n : ℕ}

/-- Neither does a call come to its next phase nor is a callback called. -/
def Act.Quiet : Act U T K → Prop
  | .advance _ => False
  | .invoke _ => False
  | _ => True

/-- What is done to the loop in one place of a pass. -/
structure Quietly (e : Env U T) (x : TimerW U) (s : Course U T K) (a : Act U T K) (t : Course U T K) : Prop where
  sane : t.loop.Sane e
  passes : t.passes = s.passes
  runs : t.calls.runs = s.calls.runs ∨ ∃ flags, t.calls.runs = ⟨flags, .entry, 0⟩ :: s.calls.runs
  timedOut : t.loop.timedOut x = true → s.loop.timedOut x = true
  unmoved : a.Spares x → s.loop.Unmoved e x t.loop

theorem quietly_loop {l : Loop U T K} (hs : l.Sane e) (ho : l.timedOut x = true → s.loop.timedOut x = true)
    (hm : a.Spares x → s.loop.Unmoved e x l) : Quietly e x s a (s.setLoop l) := ⟨hs, rfl, .inl rfl, ho, hm⟩

theorem quietly_unmoved {l : Loop U T K} (hm : s.loop.Unmoved e x l) : Quietly e x s a (s.setLoop l) :=
  quietly_loop hm.sane (fun ho => hm.timedOut ▸ ho) fun _ => hm

theorem quietly_step (hmono : h.haveMonotonic) (hs : s.loop.Sane e) (hq : a.Quiet) (hf : ¬ a.Forges x)
    (hstep : step e h huge ndebug s a = some t) : Quietly e x s a t := by
  have hrefl : s.loop.Unmoved e x s.loop := hs.same rfl rfl rfl
  cases a with
  | evRun flags =>
    simp only [step, Option.map_eq_some_iff] at hstep
    obtain ⟨calls, hcalls, rfl⟩ := hstep
    simp only [Break.step, Option.ite_none_left_eq_some] at hcalls
    obtain ⟨-, hcalls⟩ := hcalls
    cases hcalls
    exact ⟨hs, rfl, .inr ⟨flags, rfl⟩, id, fun _ => hrefl⟩
  | evBreak how =>
    cases hstep
    exact ⟨hs, rfl, .inl rfl, id, fun _ => hrefl⟩
  | ref k =>
    simp only [step, Option.map_eq_some_iff] at hstep
    obtain ⟨calls, hcalls, rfl⟩ := hstep
    cases hcalls
    exact ⟨hs, rfl, .inl rfl, id, fun _ => hrefl⟩
  | advance maxBlock => exact hq.elim
  | invoke pri => exact hq.elim
  | timerSet w after repeat' =>
    simp only [step, Option.ite_none_left_eq_some] at hstep
    obtain ⟨hw, hstep⟩ := hstep
    cases hstep
    obtain ⟨hsane, hother⟩ := hs.timerSet (x := x) (not_not.mp hw) after repeat'
    exact quietly_loop hsane id fun hne => hother (Ne.symm hne)
  | timerRepeat w repeat' =>
    cases hstep
    exact quietly_loop ⟨hs.timers, hs.pend, hs.dummy, hs.rfeeds⟩ id fun hne =>
      ⟨⟨hs.timers, hs.pend, hs.dummy, hs.rfeeds⟩, rfl, Function.update_of_ne (Ne.symm hne) .., rfl⟩
  | timerStart w =>
    cases hstep
    obtain ⟨hsane, hother, -⟩ := hs.timerStart (x := x) w
    refine quietly_loop hsane (fun ho => ?_) fun hne => hother (Ne.symm hne)
    unfold Loop.timedOut at ho ⊢
    rwa [hs.pend_timerStart] at ho
  | timerStop w =>
    cases hstep
    obtain ⟨hsane, hother⟩ := hs.timerStop (x := x) w
    exact quietly_loop hsane (hs.timedOut_clear (Loop.pend_timerStop ..)) fun hne => hother (Ne.symm hne)
  | timerAgain w =>
    cases hstep
    obtain ⟨hsane, hother⟩ := hs.timerAgain (x := x) w
    exact quietly_loop hsane (hs.timedOut_clear (hs.pend_timerAgain w)) fun hne => hother (Ne.symm hne)
  | feed w revents =>
    simp only [step, Option.ite_none_left_eq_some] at hstep
    obtain ⟨hW, hstep⟩ := hstep
    cases hstep
    by_cases hw : w = .timer x
    · subst hw
      exact quietly_unmoved (hs.feedOther (not_not.mp fun hne => hf ⟨rfl, hne⟩))
    · exact quietly_unmoved (hs.feed hw hW revents)
  | clear w =>
    cases hstep
    obtain ⟨fed, hok⟩ := hs.pend
    refine quietly_loop ⟨hs.timers, ⟨_, Pend.ok_clear hok⟩, (Pend.pendingW_clear ..).trans hs.dummy,
      (Pend.clearPending_frame s.loop.pend w).2.1.trans hs.rfeeds⟩ (hs.timedOut_clear rfl) fun hne => hs.clear hne
  | setPriority w pri =>
    simp only [step, Option.ite_none_right_eq_some] at hstep
    obtain ⟨⟨hw, hpri⟩, hstep⟩ := hstep
    cases hstep
    exact quietly_unmoved (hs.setPriority hw hpri)
  | nowSet mono =>
    cases hstep
    have hm := Clocked.unmoved_evNowSet (x := x) hmono hs huge mono
    exact ⟨hm.sane, rfl, .inl rfl, fun ho => hm.timedOut ▸ ho, fun _ => hm⟩
  | nowUpdate =>
    cases hstep
    have hm := Clocked.unmoved_timeUpdate (x := x) hmono hs huge
    exact ⟨hm.sane, rfl, .inl rfl, fun ho => hm.timedOut ▸ ho, fun _ => hm⟩
  | other f =>
    cases hstep
    exact quietly_unmoved (hs.same rfl rfl rfl)

/-- The top of a queue is invoked: a delivery of the timer just if one was due, and of what was pending for another
watcher nothing is taken. -/
theorem invoke_top (hs : s.loop.Sane e) {pri : ℕ} (hcnt : s.loop.pend.pendingcnt pri ≠ 0) {top : ANPENDING (Watcher U)}
    (htop : top = s.loop.pend.entry pri (s.loop.pend.pendingcnt pri - 1)) {l : Loop U T K}
    (hl : l = { s.loop with pend := s.loop.pend.pop pri }) : l.Sane e ∧
      (top.w = .timer x → l.timedOut x = false ∧ (s.loop.timedOut x = true ↔ top.events &&& evTimer ≠ 0)) ∧
      (top.w ≠ .timer x → s.loop.Unmoved e x l) := by
  obtain ⟨fed, hok⟩ := hs.pend
  have hpop := Pend.ok_pop hok hcnt
  have hsane : l.Sane e := by
    rw [hl]
    exact ⟨hs.timers, ⟨_, hpop⟩, hs.dummy, hs.rfeeds⟩
  refine ⟨hsane, fun hw => ⟨?_, ?_⟩, fun hw => ?_⟩
  · rw [hl, Loop.timedOut, hpop.pendingEvents_eq, ← htop, hw, Function.update_self]
    rfl
  · have hne : (s.loop.pend.entry pri (s.loop.pend.pendingcnt pri - 1)).w ≠ s.loop.pend.pendingW := by
      rw [← htop, hw, hs.dummy]
      simp
    have hevents := hok.pendingFor_top hcnt hne
    rw [← htop, hw] at hevents
    rw [Loop.timedOut, decide_eq_true_eq, ← Pend.pendingFor_getD, hevents]
    rfl
  · rw [hl]
    refine hs.queues ⟨fun fed' hok' => ⟨_, Pend.ok_pop hok' hcnt, Function.update_of_ne ?_ ..⟩, rfl⟩ hs.rfeeds
    rw [← htop]
    exact Ne.symm hw

/-- Emptied queues hold no delivery. -/
theorem timedOut_emptied {l : Loop U T K} (hs : l.Sane e) (hempty : l.pend.Emptied) : l.timedOut x = false := by
  obtain ⟨fed, hok⟩ := hs.pend
  have hidle : l.pend.pending (.timer x) = 0 := by
    by_contra hne
    have hle := (hok.held _ hne).1
    rw [hempty _ (hok.range.abspri_lt _)] at hle
    exact hne (Nat.le_zero.mp hle)
  unfold Loop.timedOut Pend.pendingEvents
  rw [if_neg (not_not.mpr hidle)]
  rfl

/-- The innermost call comes to its next phase. What was due has been delivered. -/
theorem advance_runs {f : Break.Frame} {outer : List Break.Frame} {maxBlock : T} (hst : Standing e x s)
    (hruns : s.calls.runs = f :: outer) (hstep : step e h huge ndebug s (.advance maxBlock) = some t) :
    t = s.advance e h huge ndebug f outer maxBlock ∧ s.loop.timedOut x = false := by
  simp only [step, hruns, Option.ite_none_left_eq_some, not_and, not_not, Option.some.injEq] at hstep
  obtain ⟨hempty, rfl⟩ := hstep
  refine ⟨rfl, ?_⟩
  by_cases hf : f.phase.Invokes = true
  · exact timedOut_emptied hst.sane (hempty hf)
  · by_contra ho
    exact hf (hst.settled (Bool.eq_true_of_not_eq_false ho) f (by rw [hruns]; rfl))

/-- But after `collect` a call is at a phase that invokes. -/
theorem advance_collect {f : Break.Frame} {outer : List Break.Frame} {maxBlock : T} (hf : f.phase = .collect)
    (hst : Standing e x s) (hmono : h.haveMonotonic) (ht : t = s.advance e h huge ndebug f outer maxBlock) :
    Standing e x t ∧ ∃ m : Loop U T K,
      s.loop.Unmoved e x m ∧ t.loop = m.collect e ∧ t.passes = ⟨m.mnNow, []⟩ :: s.passes := by
  have hm := Clocked.unmoved_phaseTime (x := x) hmono hst.sane huge maxBlock f
  have heq : t = _ := ht.trans (if_pos hf)
  have hcollect := hm.sane.collect (x := x) (c := ⟨_, _, []⟩) rfl rfl
  refine ⟨⟨?_, fun _ g hg => ?_⟩, _, hm, by rw [heq]; rfl, by rw [heq]⟩
  · rw [heq]
    exact hcollect.1
  · rw [heq] at hg
    have hnext : (s.calls.advance ndebug f outer).runs = { f with phase := .invoke } :: outer := by
      simp [Break.State.advance, Break.Frame.next, hf]
    rw [show ({ calls := s.calls.advance ndebug f outer, clocked := _, passes := _ } : Course U T K).calls.runs = _
      from hnext] at hg
    obtain rfl := Option.some.inj (Option.mem_def.mp hg)
    rfl

theorem advance_other {f : Break.Frame} {outer : List Break.Frame} {maxBlock : T} (hf : f.phase ≠ .collect)
    (hst : Standing e x s) (hmono : h.haveMonotonic) (hs : s.loop.timedOut x = false)
    (ht : t = s.advance e h huge ndebug f outer maxBlock) :
    Standing e x t ∧ s.loop.Unmoved e x t.loop ∧ t.passes = s.passes := by
  have hm := Clocked.unmoved_phaseTime (x := x) hmono hst.sane huge maxBlock f
  have heq : t = _ := ht.trans (if_neg hf)
  have hloop : t.loop = (Supply.phaseTime e h huge s.clocked f maxBlock).loop := by rw [heq]; rfl
  refine ⟨⟨hloop ▸ hm.sane, fun ho => ?_⟩, hloop ▸ hm, by rw [heq]⟩
  have hno : (Supply.phaseTime e h huge s.clocked f maxBlock).loop.timedOut x = false := hm.timedOut.trans hs
  rw [hloop, hno] at ho
  cases ho

/-- **A step of the loop leaves nothing due where it would not be delivered.** -/
theorem standing_step (hmono : h.haveMonotonic) (hst : Standing e x s) (hf : ¬ a.Forges x)
    (hstep : step e h huge ndebug s a = some t) : Standing e x t := by
  by_cases hq : a.Quiet
  · have hquiet := quietly_step hmono hst.sane hq hf hstep
    refine ⟨hquiet.sane, fun ho => ?_⟩
    rcases hquiet.runs with hruns | ⟨flags, hruns⟩
    · rw [hruns]
      exact hst.settled (hquiet.timedOut ho)
    · rw [hruns]
      rintro f ⟨⟩
      rfl
  · cases a with
    | advance maxBlock =>
      cases hruns : s.calls.runs with
      | nil => simp [step, hruns] at hstep
      | cons f outer =>
        obtain ⟨ht, hs⟩ := advance_runs hst hruns hstep
        by_cases hf : f.phase = .collect
        · exact (advance_collect hf hst hmono ht).1
        · exact (advance_other hf hst hmono hs ht).1
    | invoke pri =>
      simp only [step, Option.ite_none_left_eq_some] at hstep
      obtain ⟨hcnt, hstep⟩ := hstep
      cases hstep
      obtain ⟨hsane, hself, hother⟩ := invoke_top (x := x) hst.sane hcnt rfl rfl
      refine ⟨hsane, fun ho => hst.settled ?_⟩
      by_cases hw : (s.loop.pend.entry pri (s.loop.pend.pendingcnt pri - 1)).w = .timer x
      · exact absurd ((hself hw).1.symm.trans ho) Bool.false_ne_true
      · exact (hother hw).timedOut.symm.trans ho
    | _ => exact absurd trivial hq

theorem standing_run {acts : List (Act U T K)} (hmono : h.haveMonotonic) (hst : Standing e x s)
    (hf : ∀ a ∈ acts, ¬ a.Forges x) (hrun : Runs e h huge ndebug s acts t) : Standing e x t := by
  induction hrun with
  | nil s => exact hst
  | @cons s u t a acts hstep hrun ih =>
    exact ih (standing_step hmono hst (hf a List.mem_cons_self) hstep) fun b hb => hf b (List.mem_cons_of_mem a hb)

/-! ### The passes as rounds -/

theorem not_forges (ha : a.Spares x) : ¬ a.Forges x := by
  cases a with
  | feed w revents => exact fun hf => hf.2 (ha hf.1)
  | _ => exact id

theorem length_record (r : Watcher U × Events) (ps : List (Pass U T)) : (record r ps).length = ps.length := by
  cases ps with
  | nil => rfl
  | cons p ps => rfl

theorem take_record (r : Watcher U × Events) (ps : List (Pass U T)) (k : ℕ) :
    (record r ps).take k = record r (ps.take k) := by
  cases ps with
  | nil => simp [record]
  | cons p ps =>
    cases k with
    | zero => rfl
    | succ k => rfl

/-- A delivery counts for the newest round, and no other callback does. -/
theorem rounds_record (r : Watcher U × Events) (ps : List (Pass U T)) : (record r ps).map (Pass.round x) =
    if r.1 = .timer x ∧ r.2 &&& evTimer ≠ 0 then Clockwork.give (ps.map (Pass.round x))
    else ps.map (Pass.round x) := by
  cases ps with
  | nil => simp [record, Clockwork.give]
  | cons p ps =>
    simp only [record, List.map_cons, Clockwork.give, Pass.round, Pass.deliveries, List.countP_cons]
    split
    · rename_i hr
      rw [if_pos (of_decide_eq_true hr)]
    · rename_i hr
      rw [if_neg fun hc => hr (decide_eq_true hc), Nat.add_zero]

theorem since_cons {p : Pass U T} (hn : n ≤ s.passes.length) (ht : t.passes = p :: s.passes) :
    t.since n = p :: s.since n := by
  unfold since
  rw [ht, List.length_cons, Nat.succ_sub hn]
  rfl

theorem since_record {r : Watcher U × Events} (ht : t.passes = record r s.passes) :
    t.since n = record r (s.since n) := by
  unfold since
  rw [ht, length_record, take_record]

/-- Nothing has happened to the timer. -/
theorem Follows.stutter (hf : Follows x n s c) (hm : s.loop.Unmoved e x t.loop) (hp : t.passes = s.passes) :
    Follows x n t c := by
  refine ⟨hf.deadline.trans hm.deadline.symm, hf.due.trans hm.timedOut.symm, ?_, hp ▸ hf.passes⟩
  rw [hf.rounds, since, since, hp]

theorem follows_invoke (hst : Standing e x s) (hf : Follows x n s c) {pri : ℕ}
    (hstep : step e h huge ndebug s (.invoke pri) = some t) (period : T) :
    ∃ acts c', Clockwork.Runs period c acts c' ∧ Follows x n t c' ∧ t.loop.wRepeat x = s.loop.wRepeat x := by
  simp only [step, Option.ite_none_left_eq_some] at hstep
  obtain ⟨hcnt, hstep⟩ := hstep
  have ht := (Option.some.inj hstep).symm
  obtain ⟨top, htop⟩ : ∃ top, top = s.loop.pend.entry pri (s.loop.pend.pendingcnt pri - 1) := ⟨_, rfl⟩
  rw [← htop] at ht
  obtain ⟨hsane, hself, hother⟩ := invoke_top (x := x) hst.sane hcnt htop (l := t.loop) (by rw [ht]; rfl)
  have hpasses : t.passes = record (top.w, top.events) s.passes := by rw [ht]
  have hn : n ≤ t.passes.length := by
    rw [hpasses, length_record]
    exact hf.passes
  have hrounds : (t.since n).map (Pass.round x) =
      if top.w = .timer x ∧ top.events &&& evTimer ≠ 0 then Clockwork.give c.rounds else c.rounds := by
    rw [since_record hpasses, rounds_record, hf.rounds]
  have htimers : t.loop.timers = s.loop.timers := by rw [ht]; rfl
  have hrep : t.loop.wRepeat x = s.loop.wRepeat x := by rw [ht]; rfl
  by_cases hw : top.w = .timer x
  · obtain ⟨hno, hdue⟩ := hself hw
    by_cases ho : s.loop.timedOut x = true
    · refine ⟨[.deliver], { c with due := false, rounds := Clockwork.give c.rounds }, .single ?_,
        ⟨htimers ▸ hf.deadline, hno.symm, ?_, hn⟩, hrep⟩
      · rw [Clockwork.step, if_pos (hf.due.trans ho)]
      · rw [hrounds, if_pos ⟨hw, hdue.mp ho⟩]
    · refine ⟨[], c, .nil c, ⟨htimers ▸ hf.deadline, ?_, ?_, hn⟩, hrep⟩
      · rw [hf.due, hno]
        exact Bool.eq_false_of_not_eq_true ho
      · rw [hrounds, if_neg fun hc => ho (hdue.mpr hc.2)]
  · have hm := hother hw
    refine ⟨[], c, .nil c, ⟨hf.deadline.trans hm.deadline.symm, hf.due.trans hm.timedOut.symm, ?_, hn⟩, hrep⟩
    rw [hrounds, if_neg fun hc => hw hc.1]

theorem follows_advance (hmono : h.haveMonotonic) (hst : Standing e x s) (hf : Follows x n s c) {maxBlock : T}
    (hstep : step e h huge ndebug s (.advance maxBlock) = some t) :
    ∃ acts c', Clockwork.Runs (s.loop.wRepeat x) c acts c' ∧ Follows x n t c' ∧
      t.loop.wRepeat x = s.loop.wRepeat x := by
  cases hruns : s.calls.runs with
  | nil => simp [step, hruns] at hstep
  | cons f outer =>
    obtain ⟨ht, hs⟩ := advance_runs hst hruns hstep
    by_cases hphase : f.phase = .collect
    · obtain ⟨-, m, hm, hloop, hpasses⟩ := advance_collect hphase hst hmono ht
      obtain ⟨-, hrep, hdead, hdue⟩ := hm.sane.collect (x := x) (hf.deadline.trans hm.deadline.symm)
        (hf.due.trans hm.timedOut.symm)
      rw [hm.wRepeat] at hdead hdue hrep
      refine ⟨[.round m.mnNow], c.round (s.loop.wRepeat x) m.mnNow, .single ?_,
        ⟨hloop ▸ hdead, hloop ▸ hdue, ?_, ?_⟩, hloop ▸ hrep⟩
      · have hnot : ¬ c.due = true := by
          rw [hf.due, hs]
          exact Bool.false_ne_true
        rw [Clockwork.step, if_neg hnot]
      · rw [Clockwork.rounds_round, since_cons hf.passes hpasses, hf.rounds]
        rfl
      · rw [hpasses]
        exact hf.passes.trans (Nat.le_succ _)
    · obtain ⟨-, hm, hpasses⟩ := advance_other hphase hst hmono hs ht
      exact ⟨[], c, .nil c, hf.stutter hm hpasses, hm.wRepeat⟩

/-- While the timer is left alone, what the loop does is a round, a delivery, or nothing to it. -/
theorem follows_step (hmono : h.haveMonotonic) (hst : Standing e x s) (hf : Follows x n s c) (ha : a.Spares x)
    (hstep : step e h huge ndebug s a = some t) :
    ∃ acts c', Clockwork.Runs (s.loop.wRepeat x) c acts c' ∧ Follows x n t c' ∧
      t.loop.wRepeat x = s.loop.wRepeat x := by
  by_cases hq : a.Quiet
  · have hquiet := quietly_step hmono hst.sane hq (not_forges ha) hstep
    have hm := hquiet.unmoved ha
    exact ⟨[], c, .nil c, hf.stutter hm hquiet.passes, hm.wRepeat⟩
  · cases a with
    | advance maxBlock => exact follows_advance hmono hst hf hstep
    | invoke pri => exact follows_invoke hst hf hstep _
    | _ => exact absurd trivial hq

/-- So a run of the loop is one of the rounds. -/
theorem follows_run {acts : List (Act U T K)} (hmono : h.haveMonotonic) (hst : Standing e x s) (hf : Follows x n s c)
    (ha : ∀ a ∈ acts, a.Spares x) (hrun : Runs e h huge ndebug s acts t) :
    Standing e x t ∧ ∃ rounds c', Clockwork.Runs (s.loop.wRepeat x) c rounds c' ∧ Follows x n t c' := by
  induction hrun generalizing c with
  | nil s => exact ⟨hst, [], c, .nil c, hf⟩
  | @cons s u t a acts hstep hrun ih =>
    have hself := ha a List.mem_cons_self
    obtain ⟨first, c', hfirst, hf', hrep⟩ := follows_step hmono hst hf hself hstep
    obtain ⟨hst', rest, c'', hrest, hf''⟩ := ih (standing_step hmono hst (not_forges hself) hstep) hf'
      fun b hb => ha b (List.mem_cons_of_mem a hb)
    rw [hrep] at hrest
    exact ⟨hst', first ++ rest, c'', hfirst.append hrest, hf''⟩

theorem standing_init [Inhabited U] (backend : Backend) (noinotify signalfd notimerfd : Bool) (kernel : K) :
    Standing e x (init h (Loop.init backend noinotify signalfd notimerfd kernel)) := by
  have hcore := Loop.Core.init e backend noinotify signalfd notimerfd kernel
  exact ⟨⟨hcore.timers, hcore.pend, hcore.dummy, rfl⟩, fun _ f hf => by cases hf⟩

end

/-! ### When a timer is delivered -/

section

variable [AddCommGroup T] [IsOrderedAddMonoid T] [Inhabited U]

/-- **Timers are never early and never burst.** In any run a timer is started that is inactive, and then left
alone, while the clock says whatever it says. In each pass from then on it is delivered at most once. If it repeats,
the pass that delivers it is later than its first deadline and as many times `repeat` as it was delivered in
the passes before. If it does not, it is delivered in the first pass later than its deadline and no other, or
is about to be: only where what is pending is invoked before anything else. -/
theorem timer_deliveries (e : Env U T) (h : Host T) (huge : T) (ndebug : Bool) (hmono : h.haveMonotonic)
    {backend : Backend} {noinotify signalfd notimerfd : Bool} {kernel : K} {before acts : List (Act U T K)}
    {s₀ s : Course U T K} (x : TimerW U)
    (hbefore : Runs e h huge ndebug (init h (Loop.init backend noinotify signalfd notimerfd kernel)) before s₀)
    (hforge : ∀ a ∈ before, ¬ a.Forges x) (hidle : s₀.loop.timers.active x = 0) (hrepeat : 0 ≤ s₀.loop.wRepeat x)
    (hrun : Runs e h huge ndebug (s₀.setLoop (s₀.loop.evTimerStart e x)) acts s) (hspare : ∀ a ∈ acts, a.Spares x) :
    let deadline := s₀.loop.timers.wAt x + s₀.loop.mnNow
    let passes := s.since s₀.passes.length
    (∀ p ∈ passes, p.deliveries x ≤ 1) ∧
    (0 < s₀.loop.wRepeat x → ∀ newer p older, passes = newer ++ p :: older → p.deliveries x ≠ 0 →
      deadline + (older.map (Pass.deliveries x)).sum • s₀.loop.wRepeat x < p.mnNow) ∧
    (s₀.loop.wRepeat x = 0 → ∀ newer p older, passes = newer ++ p :: older →
      p.deliveries x + (if newer = [] ∧ s.loop.timedOut x = true then 1 else 0) =
        if deadline < p.mnNow ∧ ∀ q ∈ older, q.mnNow ≤ deadline then 1 else 0) ∧
    (s.loop.timedOut x = true → ∀ f ∈ s.calls.runs.head?, f.phase.Invokes = true) := by
  intro deadline passes
  have hst₀ : Standing e x s₀ := standing_run hmono (standing_init ..) hforge hbefore
  obtain ⟨hsane, -, hstarted⟩ := hst₀.sane.timerStart (x := x) x
  obtain ⟨hdead, hrep, hpend⟩ := hstarted hidle
  have hout : (s₀.loop.evTimerStart e x).timedOut x = s₀.loop.timedOut x := by
    unfold Loop.timedOut
    rw [hpend]
  have hst : Standing e x (s₀.setLoop (s₀.loop.evTimerStart e x)) :=
    ⟨hsane, fun ho => hst₀.settled (hout.symm.trans ho)⟩
  have hnone : (s₀.setLoop (s₀.loop.evTimerStart e x)).since s₀.passes.length = [] := by
    unfold since
    rw [show (s₀.setLoop (s₀.loop.evTimerStart e x)).passes = s₀.passes from rfl, Nat.sub_self]
    rfl
  have hfollows : Follows x s₀.passes.length (s₀.setLoop (s₀.loop.evTimerStart e x))
      ⟨some deadline, s₀.loop.timedOut x, []⟩ :=
    ⟨hdead.symm, hout.symm, by rw [hnone]; rfl, le_rfl⟩
  obtain ⟨hst', rounds, c, hrounds, hf⟩ := follows_run hmono hst hfollows hspare hrun
  rw [show (s₀.setLoop (s₀.loop.evTimerStart e x)).loop.wRepeat = s₀.loop.wRepeat from hrep] at hrounds
  have hpasses : c.rounds = passes.map (Pass.round x) := hf.rounds
  have hsplit : ∀ {newer p older}, passes = newer ++ p :: older →
      c.rounds = newer.map (Pass.round x) ++ p.round x :: older.map (Pass.round x) := fun hl => by
    rw [hpasses, hl, List.map_append, List.map_cons]
  have hsum : ∀ older : List (Pass U T), Clockwork.deliveries (older.map (Pass.round x)) =
      (older.map (Pass.deliveries x)).sum := fun older => by
    unfold Clockwork.deliveries
    rw [List.map_map]
    rfl
  have honce : (∀ r ∈ c.rounds, r.given ≤ 1) → ∀ p ∈ passes, p.deliveries x ≤ 1 := fun hall p hp =>
    hall (p.round x) (hpasses ▸ List.mem_map_of_mem hp)
  rcases hrepeat.eq_or_lt with hzero | hpos
  · rw [← hzero] at hrounds
    have hfires := Clockwork.fires hrounds
    refine ⟨honce hfires.once, fun hc => absurd hzero hc.ne, fun _ newer p older hl => ?_, hst'.settled⟩
    have hgiven := hfires.given _ _ _ (hsplit hl)
    rw [hf.due] at hgiven
    simpa [Clockwork.First, Pass.round] using hgiven
  · have hrecurs := Clockwork.recurs hpos hrounds
    refine ⟨honce hrecurs.once, fun _ newer p older hl hne => ?_, fun hc => absurd hc hpos.ne', hst'.settled⟩
    have hlate := hrecurs.late _ _ _ (hsplit hl) hne
    rw [hsum] at hlate
    exact hlate

end

/-- The second reading is late, and the third soon after it. -/
def lateHost : Host ℤ := ⟨true, fun n => [0, 12, 40, 41].getD n 50, fun _ => 0, 1000, 1000⟩

/-- A pass that does not wait, with the callback of one timer. -/
def onePass : List (Act Unit ℤ Unit) :=
  .evRun ⟨false, true⟩ :: List.replicate 6 (.advance 0) ++ [.invoke 2] ++ List.replicate 2 (.advance 0)

/-- The timer as it is started, and the passes. -/
def lateRun : Option (ℕ × List ℤ × List (ℤ × ℕ)) :=
  (execFrom (step Clocked.plain lateHost 1000 false) (init lateHost (Loop.init .select true false true ()))
    [.timerSet (.user ()) 10 5]).bind fun s₀ =>
      (execFrom (step Clocked.plain lateHost 1000 false)
        (s₀.setLoop (s₀.loop.evTimerStart Clocked.plain (.user ()))) (onePass ++ onePass ++ onePass)).map fun s =>
          (s₀.loop.timers.active (.user ()), [s₀.loop.wRepeat (.user ()), s₀.loop.timers.wAt (.user ()), s₀.loop.mnNow],
            (s.since s₀.passes.length).map fun p => (p.mnNow, p.deliveries (.user ())))

theorem spares_onePass (x : TimerW Unit) : ∀ a ∈ onePass, a.Spares x := by
  intro a ha
  simp only [onePass, List.cons_append, List.append_assoc, List.mem_cons, List.mem_append, List.mem_replicate,
    List.not_mem_nil, false_or] at ha
  rcases ha with rfl | ⟨-, rfl⟩ | rfl | ⟨-, rfl⟩
  · trivial
  · trivial
  · trivial
  · trivial

/-- A timer set to 10 that repeats every 5 is delivered at 12, 40 and 41. -/
theorem timer_deliveries_late : ∃ s₀ s : Course Unit ℤ Unit,
    Runs Clocked.plain lateHost 1000 false (init lateHost (Loop.init .select true false true ()))
      [.timerSet (.user ()) 10 5] s₀ ∧
    Runs Clocked.plain lateHost 1000 false (s₀.setLoop (s₀.loop.evTimerStart Clocked.plain (.user ())))
      (onePass ++ onePass ++ onePass) s ∧
    (s.since s₀.passes.length).map (fun p => (p.mnNow, p.deliveries (.user ()))) = [(41, 1), (40, 1), (12, 1)] ∧
    ∀ newer p older, s.since s₀.passes.length = newer ++ p :: older → p.deliveries (.user ()) ≠ 0 →
      10 + (older.map (Pass.deliveries (.user ()))).sum • 5 < p.mnNow := by
  have hx : lateRun = some (0, [5, 10, 0], [(41, 1), (40, 1), (12, 1)]) := by
    decide +kernel
  obtain ⟨s₀, hs₀, hx⟩ := Option.bind_eq_some_iff.mp hx
  obtain ⟨s, hs, hx⟩ := Option.map_eq_some_iff.mp hx
  simp only [Prod.mk.injEq, List.cons.injEq, and_true] at hx
  obtain ⟨hidle, ⟨hrep, hat, hnow⟩, hpasses⟩ := hx
  refine ⟨s₀, s, Run.iff_execFrom.mpr hs₀, Run.iff_execFrom.mpr hs, hpasses, fun newer p older hl hne => ?_⟩
  have hall := timer_deliveries Clocked.plain lateHost 1000 false rfl (.user ())
    (Run.iff_execFrom.mpr hs₀) (fun a ha => by rw [List.mem_singleton.mp ha]; exact id) hidle
    (by rw [hrep]; decide) (Run.iff_execFrom.mpr hs) fun a ha => ?_
  · have hlate := hall.2.1 (by rw [hrep]; decide) newer p older hl hne
    rwa [hrep, hat, hnow] at hlate
  · rcases List.mem_append.mp ha with ha | ha
    · exact (List.mem_append.mp ha).elim (spares_onePass _ a) (spares_onePass _ a)
    · exact spares_onePass _ a ha

end Course

end Qev
