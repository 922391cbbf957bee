/-
# How long a pass blocks

A pass that may block computes the time until the earliest deadline, bounds it by the maximum
block time, the timeout collect interval and the backend's least wait, and takes a sleep off
it that makes the passes `io_blocktime` apart; the rest is the wait of its poll. What the two
come to is never more than these bounds say (`blocking_time`).

`waittime` with a monotonic clock and a least wait above 0 is the one of the pass modelled before
(`pollWait_timing`).
-/
import Qev.Loop.Wait
import Qev.Loop.Suspend

namespace Qev

/-- `MAX_BLOCKTIME`, `MAX_BLOCKTIME2`, the two collect intervals and `backend_mintime`. -/
structure Bounds (T : Type) where
  maxBlocktime : T
  maxBlocktime2 : T
  timeoutBlocktime : T
  ioBlocktime : T
  backendMintime : T

def Timing.bounds {T : Type} [LT T] [Zero T] (t : Timing T) : Bounds T :=
  ⟨t.maxBlocktime, t.maxBlocktime2, t.timeoutBlocktime, t.ioBlocktime, t.backendMintime⟩

/-- The times until the deadlines of the active watchers. -/
def Deadlines.untils {W T : Type} [Sub T] (d : Deadlines W T) (now : T) : Set T :=
  {x | ∃ w, d.active w ≠ 0 ∧ x = d.wAt w - now}

namespace Loop

variable {U T K : Type} [DecidableEq U] [LinearOrder T]

section

variable [Add T] [Sub T] [Zero T] (e : Env U T) (b : Bounds T) (haveMonotonic : Bool) (f : PassFlags)
  (l : Loop U T K)

/-- The longest wait: "sleep a lot longer when we can reliably detect timejumps". -/
def longestWait : T := if haveMonotonic ∧ l.timerfd ≠ -1 then b.maxBlocktime2 else b.maxBlocktime

/-- The longest wait up to the earliest deadline. -/
def untilDeadline : T :=
  let waittime := l.longestWait b haveMonotonic
  let waittime := if l.timers.cnt ≠ 0 then min waittime (l.timers.rootAt e.heap - l.mnNow) else waittime
  if l.periodics.cnt ≠ 0 then min waittime (l.periodics.rootAt e.heap - l.evRtNow) else waittime

/-- The pass computes a wait. -/
def Blocks : Prop := f.nowait = false ∧ l.idleall = 0 ∧ l.activecnt ≠ 0 ∧ f.skipped = false

instance : Decidable (l.Blocks f) := inferInstanceAs (Decidable (_ ∧ _ ∧ _ ∧ _))

/-- `waittime`, before a sleep is taken off it. -/
def fullWait : T :=
  if l.Blocks f then
    let waittime := max (l.untilDeadline e b haveMonotonic) b.timeoutBlocktime
    if waittime < b.backendMintime then if waittime ≤ 0 then 0 else b.backendMintime else waittime
  else 0

/-- `sleeptime`, when `elapsed` is `mn_now - prev_mn_now`. It may be negative. -/
def sleeptime (elapsed : T) : T :=
  if l.Blocks f ∧ b.ioBlocktime ≠ 0 then
    min (b.ioBlocktime - elapsed) (l.fullWait e b haveMonotonic f - b.backendMintime)
  else 0

/-- What `ev_sleep` is called with, if it is. -/
def evSleep (elapsed : T) : Option T :=
  let sleeptime := l.sleeptime e b haveMonotonic f elapsed
  if sleeptime > 0 then some sleeptime else none

/-- `waittime`, as `backend_poll` gets it. -/
def pollWait (elapsed : T) : T :=
  let waittime := l.fullWait e b haveMonotonic f
  let sleeptime := l.sleeptime e b haveMonotonic f elapsed
  if sleeptime > 0 then waittime - sleeptime else waittime

/-- The time a pass may sleep and wait. -/
def allowed (elapsed : T) : T :=
  (l.evSleep e b haveMonotonic f elapsed).getD 0 + l.pollWait e b haveMonotonic f elapsed

end

section

variable [AddCommGroup T] [IsOrderedAddMonoid T] {e : Env U T} {b : Bounds T} {haveMonotonic : Bool} {f : PassFlags}
  {l : Loop U T K} {n t : ℕ} {elapsed : T}

section

omit [DecidableEq U] [LinearOrder T] [AddCommGroup T] [IsOrderedAddMonoid T]

theorem not_blocks : ¬ l.Blocks f ↔ f.nowait ∨ l.idleall ≠ 0 ∨ l.activecnt = 0 ∨ f.skipped := by
  unfold Blocks
  simp only [not_and_or, Bool.not_eq_false, ne_eq, not_not]

end

section

omit [DecidableEq U]

/-- The wait of a pass as modelled with positive constants. -/
theorem pollWait_timing (c : Timing T) (elapsed : T) :
    l.pollWait e c.bounds true f elapsed = l.waittimeSlept e c f elapsed := by
  have huntil : l.untilDeadline e c.bounds true = l.untilNext e c := by
    unfold untilDeadline untilNext longestWait
    simp [Timing.bounds]
  have hfull : l.fullWait e c.bounds true f = l.waittime e c f := by
    unfold fullWait waittime
    rw [huntil]
    by_cases h : l.Blocks f
    · rw [if_pos h, if_neg fun hc => not_blocks.mpr hc h]
      rfl
    · rw [if_neg h, if_pos (not_blocks.mp h)]
  have hsleep : ∀ x, x = (if l.Blocks f ∧ c.ioBlocktime ≠ 0 then
      min (c.ioBlocktime - elapsed) (l.waittime e c f - c.backendMintime) else 0) →
      (if x > 0 then l.waittime e c f - x else l.waittime e c f) = l.waittimeSlept e c f elapsed := by
    rintro x hx
    unfold waittimeSlept
    dsimp only
    by_cases hio : c.ioBlocktime ≠ 0
    · rw [if_pos hio]
      by_cases h : l.Blocks f
      · rw [if_pos ⟨h, hio⟩] at hx
        rw [hx]
      · -- with no wait there is nothing to take a sleep off
        have hzero : l.waittime e c f = 0 := if_pos (not_blocks.mp h)
        have hneg : min (c.ioBlocktime - elapsed) (0 - c.backendMintime) ≤ 0 := by
          rw [zero_sub]
          exact (min_le_right ..).trans (neg_nonpos.mpr c.mintime_pos.le)
        rw [if_neg fun hc => h hc.1] at hx
        rw [hx, hzero, if_neg (lt_irrefl _), if_neg (not_lt.mpr hneg)]
    · rw [if_neg fun hc => hio hc.2] at hx
      rw [hx, if_neg hio, if_neg (lt_irrefl _)]
  refine Eq.trans ?_ (hsleep _ rfl)
  unfold pollWait sleeptime
  rw [hfull]
  rfl

end

section

omit [DecidableEq U] [IsOrderedAddMonoid T]

/-- The whole of the time is the wait before a sleep is taken off it. -/
theorem allowed_eq (elapsed : T) :
    l.allowed e b haveMonotonic f elapsed = l.fullWait e b haveMonotonic f := by
  unfold allowed evSleep pollWait
  dsimp only
  split
  · exact add_sub_cancel ..
  · exact zero_add _

end

section

omit [DecidableEq U]

/-- What an earliest deadline does to a least wait. -/
theorem isLeast_until {W : Type} [DecidableEq W] {d : Deadlines W T} (h : d.Good e.heap n) {waits : Set T} {x : T}
    (hx : IsLeast waits x) (now : T) :
    IsLeast (waits ∪ d.untils now) (if d.cnt ≠ 0 then min x (d.rootAt e.heap - now) else x) := by
  by_cases hcnt : d.cnt = 0
  · rw [if_neg (not_not.mpr hcnt)]
    have hnone : d.untils now = ∅ := by
      refine Set.eq_empty_of_forall_notMem fun y ⟨w, hw, _⟩ => ?_
      obtain ⟨h₁, h₂, -⟩ := h.ok.linked.place hw
      omega
    rwa [hnone, Set.union_empty]
  · rw [if_pos hcnt]
    refine hx.union ⟨?_, ?_⟩
    · obtain ⟨hroot, hat⟩ := h.ok.linked.root hcnt
      exact ⟨_, hroot, by rw [hat]⟩
    · rintro y ⟨w, hw, rfl⟩
      exact sub_le_sub_right (h.ok.root_le hw) now

end

/-- `waittime` goes to the least of the longest wait and the times until the deadlines. -/
theorem untilDeadline_isLeast (ht : l.timers.Good e.heap n) (hp : l.periodics.Good e.heap t) :
    IsLeast ({l.longestWait b haveMonotonic} ∪ l.timers.untils l.mnNow ∪ l.periodics.untils l.evRtNow)
      (l.untilDeadline e b haveMonotonic) :=
  isLeast_until hp (isLeast_until ht isLeast_singleton l.mnNow) l.evRtNow

section

omit [DecidableEq U] [IsOrderedAddMonoid T]

theorem fullWait_nonneg (hmin : 0 ≤ b.backendMintime) (hto : 0 ≤ b.timeoutBlocktime) :
    0 ≤ l.fullWait e b haveMonotonic f := by
  unfold fullWait
  dsimp only
  split
  · split
    · split
      · exact le_refl 0
      · exact hmin
    · exact hto.trans (le_max_right ..)
  · exact le_refl 0

theorem fullWait_le (hmin : 0 ≤ b.backendMintime) :
    l.fullWait e b haveMonotonic f ≤
      max b.backendMintime (max b.timeoutBlocktime (l.untilDeadline e b haveMonotonic)) := by
  unfold fullWait
  dsimp only
  split
  · split
    · split
      · exact hmin.trans (le_max_left ..)
      · exact le_max_left ..
    · rw [max_comm b.timeoutBlocktime]
      exact le_max_right ..
  · exact hmin.trans (le_max_left ..)

/-- With no timeout collect interval a deadline that has come leaves nothing to wait. -/
theorem fullWait_expired (hto : b.timeoutBlocktime = 0)
    (h : l.untilDeadline e b haveMonotonic ≤ 0) : l.fullWait e b haveMonotonic f = 0 := by
  unfold fullWait
  rw [hto, max_eq_right h]
  dsimp only
  rw [if_pos (le_refl 0)]
  split
  · split
    · rfl
    · rfl
  · rfl

end

section

omit [DecidableEq U]

/-- A sleep leaves the poll the backend's least wait. -/
theorem pollWait_slept {x : T} (hs : l.evSleep e b haveMonotonic f elapsed = some x) :
    0 < x ∧ b.backendMintime ≤ l.pollWait e b haveMonotonic f elapsed := by
  unfold evSleep at hs
  dsimp only at hs
  split at hs
  · rename_i hpos
    cases hs
    refine ⟨hpos, ?_⟩
    unfold pollWait
    dsimp only
    rw [if_pos hpos]
    have hle : l.sleeptime e b haveMonotonic f elapsed ≤ l.fullWait e b haveMonotonic f - b.backendMintime := by
      unfold sleeptime at hpos ⊢
      split at hpos
      · rename_i hc
        rw [if_pos hc]
        exact min_le_right ..
      · exact absurd hpos (lt_irrefl 0)
    exact le_sub_comm.mp hle
  · cases hs

theorem pollWait_nonneg (hmin : 0 ≤ b.backendMintime) (hto : 0 ≤ b.timeoutBlocktime) (elapsed : T) :
    0 ≤ l.pollWait e b haveMonotonic f elapsed := by
  cases hs : l.evSleep e b haveMonotonic f elapsed with
  | none =>
    have hall : l.allowed e b haveMonotonic f elapsed = l.fullWait e b haveMonotonic f := allowed_eq elapsed
    unfold allowed at hall
    rw [hs, Option.getD_none, zero_add] at hall
    rw [hall]
    exact fullWait_nonneg hmin hto
  | some x => exact hmin.trans (pollWait_slept hs).2

end

/-- **How long a pass blocks.** The wait of its poll is not negative, and `ev_sleep` is called for a positive time
only, leaving the poll the backend's least wait. The two come to nothing for an `EVRUN_NOWAIT` pass, with an idle
watcher, with nothing active, with `pipe_write_skipped` found set, and, without a timeout collect interval,
with a deadline that has come; and never to more than the backend's least wait, the timeout collect interval or
the least of the maximum block time and the times until the deadlines, whichever is most. -/
theorem blocking_time (ht : l.timers.Good e.heap n) (hp : l.periodics.Good e.heap t) (hmin : 0 ≤ b.backendMintime)
    (hto : 0 ≤ b.timeoutBlocktime) (elapsed : T) :
    0 ≤ l.pollWait e b haveMonotonic f elapsed ∧
    (∀ x, l.evSleep e b haveMonotonic f elapsed = some x →
      0 < x ∧ b.backendMintime ≤ l.pollWait e b haveMonotonic f elapsed) ∧
    (f.nowait ∨ l.idleall ≠ 0 ∨ l.activecnt = 0 ∨ f.skipped → l.allowed e b haveMonotonic f elapsed = 0) ∧
    (b.timeoutBlocktime = 0 →
      ((∃ w, l.timers.active w ≠ 0 ∧ l.timers.wAt w ≤ l.mnNow) ∨
        ∃ u, l.periodics.active u ≠ 0 ∧ l.periodics.wAt u ≤ l.evRtNow) →
      l.allowed e b haveMonotonic f elapsed = 0) ∧
    ∃ x, IsLeast ({l.longestWait b haveMonotonic} ∪ l.timers.untils l.mnNow ∪ l.periodics.untils l.evRtNow) x ∧
      l.allowed e b haveMonotonic f elapsed ≤ max b.backendMintime (max b.timeoutBlocktime x) := by
  have hleast : IsLeast ({l.longestWait b haveMonotonic} ∪ l.timers.untils l.mnNow ∪ l.periodics.untils l.evRtNow)
      (l.untilDeadline e b haveMonotonic) := untilDeadline_isLeast ht hp
  rw [allowed_eq]
  refine ⟨pollWait_nonneg hmin hto elapsed, fun x hs => pollWait_slept hs, fun hno => ?_, fun h0 hdue => ?_,
    _, hleast, fullWait_le hmin⟩
  · exact if_neg (not_blocks.mpr hno)
  · refine fullWait_expired h0 ?_
    rcases hdue with ⟨w, hw, hle⟩ | ⟨u, hu, hle⟩
    · exact (hleast.2 (.inl (.inr ⟨w, hw, rfl⟩))).trans (sub_nonpos.mpr hle)
    · exact (hleast.2 (.inr ⟨u, hu, rfl⟩)).trans (sub_nonpos.mpr hle)

end

/-- Passes 100 apart. -/
def hundred : Bounds ℤ := ⟨743, 1500001070, 0, 100, 1⟩

/-- With a timer in 5 and 20 gone since the last poll, a pass sleeps for 4 and waits for 1. -/
theorem blocking_time_five :
    (Clocked.toGo 5).loop.evSleep Clocked.plain hundred false ⟨false, false, false⟩ 20 = some 4 ∧
    1 ≤ (Clocked.toGo 5).loop.pollWait Clocked.plain hundred false ⟨false, false, false⟩ 20 := by
  have hgood := Clocked.toGo_good 5
  have hsleep : (Clocked.toGo 5).loop.evSleep Clocked.plain hundred false ⟨false, false, false⟩ 20 = some 4 := by
    decide +kernel
  obtain ⟨-, hslept, -⟩ := blocking_time (b := hundred) (f := ⟨false, false, false⟩) hgood.1 hgood.2 (by decide)
    (by decide) 20
  exact ⟨hsleep, (hslept 4 hsleep).2⟩

end Loop

end Qev
