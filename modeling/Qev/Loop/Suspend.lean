/-
# Suspending a loop

`ev_suspend` updates the time, and `ev_resume` updates it again and shifts all timers by what
has passed in between, so that each has as long to go as before. Without a monotonic clock the
update of `ev_resume` shifts them itself if it takes the difference for a jump of the wall
clock, and then they are shifted twice (`resume_keeps_remaining`).
-/
import Qev.Loop.Clock

namespace Qev

namespace Loop

variable {U T K : Type} [DecidableEq U] [LinearOrder T]

def evTimerRemaining [Sub T] [Zero T] (l : Loop U T K) (w : TimerW U) : T :=
  l.timers.wAt w - if l.timers.active w ≠ 0 then l.mnNow else 0

end Loop

/-! ### All timers moved -/

/-- The same watchers are active, each with its time moved by `adjust`. -/
structure Deadlines.Shifted {W T : Type} [Add T] (adjust : T) (d d' : Deadlines W T) : Prop where
  active : d'.active = d.active
  wAt : ∀ w, d.active w ≠ 0 → d'.wAt w = d.wAt w + adjust

namespace Loop

variable {U T K : Type} [DecidableEq U] [LinearOrder T]

section

variable [Add T] [Sub T] [Zero T] {e : Env U T} {l : Loop U T K} {t : ℕ}

section

omit [Sub T] [Zero T]

/-- `timers_reschedule` moves the active timers, and touches nothing else. -/
theorem timersReschedule_shifted (h : l.timers.Good e.heap t) (adjust : T) :
    ∃ d, l.timersReschedule e adjust = { l with timers := d } ∧ l.timers.Shifted adjust d := by
  let shift (_ : TimerW U) (at' x : T) := x = at' + adjust
  have hfold : ∀ n ≤ l.timers.cnt, ∃ d,
      (List.range n).foldl (timersRescheduleOne e adjust) l = { l with timers := d } ∧
        Deadlines.Retimed e.heap shift l.timers n d := by
    intro n
    induction n with
    | zero => exact fun _ => ⟨l.timers, rfl, h.retimed_none shift⟩
    | succ n ih =>
      intro hn
      obtain ⟨d, heq, hd⟩ := ih (by omega)
      refine ⟨_, ?_, hd.step hn rfl rfl⟩
      rw [List.range_succ, List.foldl_append, List.foldl_cons, List.foldl_nil, heq]
      rfl
  obtain ⟨d, heq, hd⟩ := hfold l.timers.cnt (le_refl _)
  exact ⟨d, heq, hd.active, fun w hw => hd.all hw⟩

end

end

end Loop

namespace Clocked

variable {U T K : Type} [DecidableEq U] [LinearOrder T]

section

variable [Add T] [Sub T] [Neg T] [Zero T] (e : Env U T) (h : Host T) (huge : T) (s : Clocked U T K)

def timersReschedule (adjust : T) : Clocked U T K := { s with loop := s.loop.timersReschedule e adjust }

def evSuspend : Clocked U T K := s.evNowUpdate e h huge

def evResume : Clocked U T K :=
  let mnPrev := s.loop.mnNow
  let s := s.evNowUpdate e h huge
  let s := s.timersReschedule e (s.loop.mnNow - mnPrev)
  s.periodicsReschedule e

/-- Without a monotonic clock, `time_update` takes the wall clock to have jumped when it next reads it. -/
def WallJump (maxBlock : T) : Prop :=
  s.loop.mnNow > h.evTime s.timeReads ∨ h.evTime s.timeReads > s.loop.mnNow + maxBlock + h.minTimejump

instance (maxBlock : T) : Decidable (s.WallJump h maxBlock) := inferInstanceAs (Decidable (_ ∨ _))

variable {e h huge s}

section

omit [Neg T]

theorem timers_periodicsReschedule : (s.periodicsReschedule e).loop.timers = s.loop.timers := by
  obtain ⟨p, n, heq⟩ := s.loop.periodicsReschedule_touches e
  show (s.loop.periodicsReschedule e).timers = _
  rw [heq]

end

theorem timers_confirm (odiff : T) (n : ℕ) : (confirm e h odiff n s).loop.timers = s.loop.timers := by
  induction n generalizing s with
  | zero => exact timers_periodicsReschedule
  | succ n ih =>
    unfold confirm
    dsimp only
    split
    · rfl
    · exact ih

theorem timers_timeUpdate (hmono : h.haveMonotonic) (maxBlock : T) :
    (s.timeUpdate e h maxBlock).loop.timers = s.loop.timers := by
  unfold timeUpdate
  rw [if_pos hmono]
  dsimp only
  split
  · rfl
  · exact timers_confirm ..

end

section

variable [AddCommGroup T] [IsOrderedAddMonoid T] {e : Env U T} {h : Host T} {huge : T} {s : Clocked U T K} {t : ℕ}

/-- By how much `time_update` moves the timers. -/
def adjustment (h : Host T) (s : Clocked U T K) (maxBlock : T) : T :=
  if h.haveMonotonic then 0 else if s.WallJump h maxBlock then h.evTime s.timeReads - s.loop.mnNow else 0

section

omit [DecidableEq U] [LinearOrder T] [IsOrderedAddMonoid T]

theorem shifted_refl (d : Deadlines (TimerW U) T) : d.Shifted 0 d := ⟨rfl, fun _ _ => (add_zero _).symm⟩

end

theorem reschedule_shifted (hg : s.loop.timers.Good e.heap t) (adjust : T) :
    ((s.timersReschedule e adjust).periodicsReschedule e).loop.timers.Good e.heap t ∧
      s.loop.timers.Shifted adjust ((s.timersReschedule e adjust).periodicsReschedule e).loop.timers ∧
      ((s.timersReschedule e adjust).periodicsReschedule e).loop.mnNow = s.loop.mnNow := by
  obtain ⟨d, heq, hd⟩ := Loop.timersReschedule_shifted hg adjust
  have hloop : (s.timersReschedule e adjust).loop = { s.loop with timers := d } := heq
  refine ⟨?_, ?_, (mnNow_periodicsReschedule ..).trans ?_⟩
  · rw [timers_periodicsReschedule]
    exact Loop.good_timersReschedule hg adjust
  · rw [timers_periodicsReschedule, hloop]
    exact hd
  · rw [hloop]

theorem timeUpdate_shifted (hg : s.loop.timers.Good e.heap t) (maxBlock : T) :
    (s.timeUpdate e h maxBlock).loop.timers.Good e.heap t ∧
      s.loop.timers.Shifted (s.adjustment h maxBlock) (s.timeUpdate e h maxBlock).loop.timers := by
  unfold adjustment
  by_cases hmono : h.haveMonotonic
  · rw [timers_timeUpdate hmono, if_pos hmono]
    exact ⟨hg, shifted_refl _⟩
  · unfold timeUpdate wallUpdate
    rw [if_neg hmono, if_neg hmono]
    dsimp only
    by_cases hj : s.WallJump h maxBlock
    · rw [if_pos (by exact hj), if_pos hj]
      obtain ⟨hg', hd, -⟩ := reschedule_shifted (s := s.readTime h) hg (h.evTime s.timeReads - s.loop.mnNow)
      exact ⟨hg', hd⟩
    · rw [if_neg (by exact hj), if_neg hj]
      exact ⟨hg, shifted_refl _⟩

section

omit [IsOrderedAddMonoid T]

/-- Without a monotonic clock the time becomes the wall clock's. -/
theorem mnNow_timeUpdate (hmono : ¬ h.haveMonotonic) (maxBlock : T) :
    (s.timeUpdate e h maxBlock).loop.mnNow = h.evTime s.timeReads ∧
      (s.timeUpdate e h maxBlock).timeReads = s.timeReads + 1 := by
  unfold timeUpdate wallUpdate
  rw [if_neg hmono]
  dsimp only
  split
  · exact ⟨rfl, rfl⟩
  · exact ⟨rfl, rfl⟩

end

section

omit [DecidableEq U] [LinearOrder T] [IsOrderedAddMonoid T]

theorem Shifted.remaining {l m : Loop U T K} {adjust : T} (hd : l.timers.Shifted adjust m.timers) {w : TimerW U}
    (hw : l.timers.active w ≠ 0) :
    m.evTimerRemaining w = l.evTimerRemaining w + adjust - (m.mnNow - l.mnNow) := by
  unfold Loop.evTimerRemaining
  rw [hd.active, if_pos hw, if_pos hw, hd.wAt w hw]
  abel

end

/-- `ev_resume` leaves each timer what it had to go, and what `time_update` moved it by. -/
theorem evResume_remaining (hg : s.loop.timers.Good e.heap t) {w : TimerW U} (hw : s.loop.timers.active w ≠ 0) :
    (s.evResume e h huge).loop.evTimerRemaining w = s.loop.evTimerRemaining w + s.adjustment h huge := by
  obtain ⟨hg', hd⟩ := timeUpdate_shifted (h := h) hg huge
  have hw' : (s.timeUpdate e h huge).loop.timers.active w ≠ 0 := by
    rw [hd.active]
    exact hw
  obtain ⟨-, hd', hmn⟩ := reschedule_shifted hg' ((s.timeUpdate e h huge).loop.mnNow - s.loop.mnNow)
  have h₁ := Shifted.remaining hd hw
  have h₂ := Shifted.remaining (m := (s.evResume e h huge).loop) hd' hw'
  rw [h₂, h₁, show (s.evResume e h huge).loop.mnNow = _ from hmn]
  abel

section

omit [DecidableEq U]

/-- What `ev_resume` takes for a jump, when the loop's time is `m` and the wall clock reads `r`. -/
theorem adjustment_eq_zero (hmono : ¬ h.haveMonotonic) (hhuge : 0 ≤ huge) (hjump : 0 ≤ h.minTimejump) :
    s.adjustment h huge = 0 ↔
      s.loop.mnNow ≤ h.evTime s.timeReads ∧ h.evTime s.timeReads ≤ s.loop.mnNow + huge + h.minTimejump := by
  have hwall : ¬ s.WallJump h huge ↔
      s.loop.mnNow ≤ h.evTime s.timeReads ∧ h.evTime s.timeReads ≤ s.loop.mnNow + huge + h.minTimejump := by
    unfold WallJump
    rw [not_or, not_lt, not_lt]
  rw [← hwall]
  unfold adjustment
  rw [if_neg hmono]
  by_cases hj : s.WallJump h huge
  · rw [if_pos hj, sub_eq_zero]
    refine iff_of_false (fun he => ?_) (not_not.mpr hj)
    rcases hj with hlt | hlt
    · exact absurd he hlt.ne
    · rw [he, add_assoc] at hlt
      exact absurd hlt (not_lt.mpr (le_add_of_nonneg_right (add_nonneg hhuge hjump)))
  · rw [if_neg hj]
    exact iff_of_true rfl hj

end

/-- **What the timers have to go** is the same after `ev_resume` as after `ev_suspend` exactly if there is a
monotonic clock, or no timer, or the wall clock has not gone back nor so far on that it must have jumped. -/
theorem resume_keeps_remaining (hhuge : 0 ≤ huge) (hjump : 0 ≤ h.minTimejump) (hg : s.loop.timers.Good e.heap t) :
    (∀ w, (s.evSuspend e h huge).loop.timers.active w ≠ 0 →
      ((s.evSuspend e h huge).evResume e h huge).loop.evTimerRemaining w =
        (s.evSuspend e h huge).loop.evTimerRemaining w) ↔
    h.haveMonotonic ∨ (∀ w, s.loop.timers.active w = 0) ∨
      h.evTime s.timeReads ≤ h.evTime (s.timeReads + 1) ∧
        h.evTime (s.timeReads + 1) ≤ h.evTime s.timeReads + huge + h.minTimejump := by
  obtain ⟨hg', hd⟩ : (s.evSuspend e h huge).loop.timers.Good e.heap t ∧
      s.loop.timers.Shifted (s.adjustment h huge) (s.evSuspend e h huge).loop.timers := timeUpdate_shifted hg huge
  have hrem : ∀ w, (s.evSuspend e h huge).loop.timers.active w ≠ 0 →
      (((s.evSuspend e h huge).evResume e h huge).loop.evTimerRemaining w =
        (s.evSuspend e h huge).loop.evTimerRemaining w ↔ (s.evSuspend e h huge).adjustment h huge = 0) := by
    intro w hw
    rw [evResume_remaining hg' hw]
    exact add_eq_left
  have hact : (s.evSuspend e h huge).loop.timers.active = s.loop.timers.active := hd.active
  rw [hact] at hrem ⊢
  by_cases hmono : h.haveMonotonic
  · refine iff_of_true (fun w hw => (hrem w hw).mpr ?_) (.inl hmono)
    exact if_pos hmono
  · obtain ⟨hmn, hreads⟩ := mnNow_timeUpdate (e := e) (s := s) hmono huge
    have hzero := adjustment_eq_zero (s := s.evSuspend e h huge) hmono hhuge hjump
    rw [show (s.evSuspend e h huge).loop.mnNow = _ from hmn, show (s.evSuspend e h huge).timeReads = _ from hreads]
      at hzero
    constructor
    · intro hall
      by_cases hnone : ∀ w, s.loop.timers.active w = 0
      · exact .inr (.inl hnone)
      · obtain ⟨w, hw⟩ := not_forall.mp hnone
        exact .inr (.inr (hzero.mp ((hrem w hw).mp (hall w hw))))
    · rintro (hc | hnone | hok) w hw
      · exact absurd hc hmono
      · exact absurd (hnone w) hw
      · exact (hrem w hw).mpr (hzero.mpr hok)

end

/-- The build, with a `reschedule_cb` that answers with its `now`. -/
def plain : Env Unit ℤ := ⟨.four, fun _ _ now => now, fun _ _ now => now⟩

/-- A timer that has so much to go, at 1000 of the wall clock. -/
def toGo (after : ℤ) : Clocked Unit ℤ Unit :=
  let l : Loop Unit ℤ Unit := (Loop.init .select true false true ()).untouched
  let l := { l with mnNow := 1000, evRtNow := 1000 }
  let l := l.untouched.evTimerSet (.user ()) after 0
  let l := l.untouched.evTimerStart plain (.user ())
  ⟨l.untouched, 0, 0, false, none, 0, 0, []⟩

/-- A host without a monotonic clock, where the wall clock goes by `step` from one reading to the next. -/
def wall (step : ℤ) : Host ℤ := ⟨false, fun _ => 0, fun n => 1000 + step * n, 1, 0⟩

theorem toGo_good (after : ℤ) :
    Loop.HeapsGood plain (toGo after).loop.timers.cnt (toGo after).loop.periodics.cnt (toGo after).loop := by
  obtain ⟨l, hl⟩ : ∃ l : Loop Unit ℤ Unit, (toGo after).loop = l.untouched ∧
      Loop.TimeRuns plain (Loop.init .select true false true ())
        [.clock 1000 1000, .timerSet (.user ()) after 0, .timerStart (.user ())] l :=
    ⟨_, rfl, .cons rfl (.cons rfl (.single rfl))⟩
  rw [hl.1]
  exact (Loop.heapsOk_run hl.2 (Loop.heapsOk_noTimers ⟨⟨rfl, fun _ => rfl⟩, rfl, fun _ => rfl⟩)).untouched

/-- Resumed 100 later, the timer has 5 to go. -/
theorem resume_keeps_remaining_later :
    (((toGo 5).evSuspend plain (wall 100) 10000).evResume plain (wall 100) 10000).loop.evTimerRemaining (.user ()) =
      ((toGo 5).evSuspend plain (wall 100) 10000).loop.evTimerRemaining (.user ()) :=
  (resume_keeps_remaining (by decide) (by decide) (toGo_good 5).1).mpr (.inr (.inr (by decide +kernel))) (.user ())
    (by decide +kernel)

/-- When the wall clock has gone back by 100 the timer is due since 95. -/
theorem resume_loses_remaining :
    (toGo 5).loop.timers.Good plain.heap (toGo 5).loop.timers.cnt ∧
    ((toGo 5).evSuspend plain (wall (-100)) 10000).loop.evTimerRemaining (.user ()) = 5 ∧
    (((toGo 5).evSuspend plain (wall (-100)) 10000).evResume plain (wall (-100)) 10000).loop.evTimerRemaining
      (.user ()) = -95 ∧
    ¬ ∀ w, ((toGo 5).evSuspend plain (wall (-100)) 10000).loop.timers.active w ≠ 0 →
      (((toGo 5).evSuspend plain (wall (-100)) 10000).evResume plain (wall (-100)) 10000).loop.evTimerRemaining w =
        ((toGo 5).evSuspend plain (wall (-100)) 10000).loop.evTimerRemaining w := by
  have hfive : ((toGo 5).evSuspend plain (wall (-100)) 10000).loop.evTimerRemaining (.user ()) = 5 := by
    decide +kernel
  have hlate : (((toGo 5).evSuspend plain (wall (-100)) 10000).evResume plain (wall (-100))
      10000).loop.evTimerRemaining (.user ()) = -95 := by
    decide +kernel
  refine ⟨(toGo_good 5).1, hfive, hlate, fun hall => ?_⟩
  have heq := hall (.user ()) (by decide +kernel)
  rw [hfive, hlate] at heq
  exact absurd heq (by decide)

end Clocked

end Qev
