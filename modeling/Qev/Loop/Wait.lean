/-
# The wait of a pass

A pass of `ev_run` computes how long its poll may block, and leaves the poll out when it
would not block and no io watcher but the loop's own is active. The sleep that
`ev_set_io_collect_interval` asks for is taken off the wait, but never all of it.
-/
import Qev.Loop.Timers

namespace Qev

/-- `MAX_BLOCKTIME`, `MAX_BLOCKTIME2`, the user's `timeout_blocktime` and `io_blocktime`, and
`backend_mintime`. -/
structure Timing (T : Type) [LT T] [Zero T] where
  maxBlocktime : T
  maxBlocktime2 : T
  timeoutBlocktime : T
  ioBlocktime : T
  backendMintime : T
  max_pos : 0 < maxBlocktime
  max2_pos : 0 < maxBlocktime2
  mintime_pos : 0 < backendMintime

/-- What the clocks say to `time_update`: the two times, and whether they have jumped against each other. -/
structure Clocks (T : Type) where
  mnNow : T
  rtNow : T
  jumped : Bool

/-- What a pass is called with: the flags of `ev_run`, and whether `pipe_write_skipped` is found set. -/
structure PassFlags where
  nowait : Bool
  nopoll : Bool
  skipped : Bool

namespace Loop

variable {U T K : Type} [DecidableEq U] [LinearOrder T] [Add T] [Sub T] [Zero T]

section

variable (e : Env U T) (t : Timing T) (f : PassFlags) (l : Loop U T K)

/-- `time_update` with a monotonic clock. -/
def timeUpdate (c : Clocks T) : Loop U T K :=
  let l := { l with mnNow := c.mnNow, evRtNow := c.rtNow }
  if c.jumped then l.periodicsReschedule e else l

/-- A pass that may block updates the time first. -/
def prePollUpdate (c : Clocks T) : Loop U T K := if f.nowait then l else l.timeUpdate e c

/-- The wait for the timers and periodics, before the bounds on it. -/
def untilNext : T :=
  let waittime := if l.timerfd ≠ -1 then t.maxBlocktime2 else t.maxBlocktime
  let waittime := if l.timers.cnt ≠ 0 then min waittime (l.timers.rootAt e.heap - l.mnNow) else waittime
  if l.periodics.cnt ≠ 0 then min waittime (l.periodics.rootAt e.heap - l.evRtNow) else waittime

/-- `waittime`, before a sleep is taken off it. -/
def waittime : T :=
  if f.nowait ∨ l.idleall ≠ 0 ∨ l.activecnt = 0 ∨ f.skipped then 0
  else
    let waittime := max (l.untilNext e t) t.timeoutBlocktime
    if waittime < t.backendMintime then if waittime ≤ 0 then 0 else t.backendMintime else waittime

/-- `waittime` after the sleep, when `elapsed` is `mn_now - prev_mn_now`. -/
def waittimeSlept (elapsed : T) : T :=
  let waittime := l.waittime e t f
  if t.ioBlocktime ≠ 0 then
    let sleeptime := min (t.ioBlocktime - elapsed) (waittime - t.backendMintime)
    if 0 < sleeptime then waittime - sleeptime else waittime
  else waittime

/-- Whether the pass calls `backend_poll`. -/
def polls (elapsed : T) : Prop :=
  let waittime := l.waittimeSlept e t f elapsed
  (l.iocnt ≠ 0 ∨ 0 < waittime) ∧ ¬ (f.nopoll ∧ waittime ≤ 0)

instance (elapsed : T) : Decidable (l.polls e t f elapsed) := inferInstanceAs (Decidable (_ ∧ _))

/-- Nothing keeps the pass from blocking, and no timer or periodic is due unless the user has set a least
wait. -/
def mayBlock : Prop :=
  f.nowait = false ∧ l.idleall = 0 ∧ l.activecnt ≠ 0 ∧ f.skipped = false ∧
    (0 < t.timeoutBlocktime ∨
      (l.timers.cnt ≠ 0 → l.mnNow < l.timers.rootAt e.heap) ∧
      (l.periodics.cnt ≠ 0 → l.evRtNow < l.periodics.rootAt e.heap))

end

section

omit [Add T] [Sub T]

/-- `time_update` touches the two times and the periodics, whatever the fds and the backend are. -/
theorem prePollUpdate_eq (e : Env U T) (f : PassFlags) (c : Clocks T) (l : Loop U T K) :
    ∃ p n mn rt, ∀ s k, ({ l with fds := s, kernel := k } : Loop U T K).prePollUpdate e f c =
      { l with periodics := p, rescheduleCnt := n, mnNow := mn, evRtNow := rt, fds := s, kernel := k } := by
  have hone : ∀ (l : Loop U T K) (i : ℕ), ∃ p n, ∀ s k,
      periodicsRescheduleOne e ({ l with fds := s, kernel := k } : Loop U T K) i =
        { l with periodics := p, rescheduleCnt := n, fds := s, kernel := k } := by
    intro l i
    unfold periodicsRescheduleOne periodicNext
    dsimp only
    by_cases hcb : l.wRescheduleCb (l.periodics.heap.cells (i + e.heap.heap0)).anheW
    · simp only [if_pos hcb]
      exact ⟨_, _, fun _ _ => rfl⟩
    · simp only [if_neg hcb]
      by_cases hint : l.wInterval (l.periodics.heap.cells (i + e.heap.heap0)).anheW ≠ 0
      · simp only [if_pos hint]
        exact ⟨_, _, fun _ _ => rfl⟩
      · simp only [if_neg hint]
        exact ⟨_, l.rescheduleCnt, fun _ _ => rfl⟩
  have hall : ∀ (is : List ℕ) (l : Loop U T K), ∃ p n, ∀ s k,
      is.foldl (periodicsRescheduleOne e) ({ l with fds := s, kernel := k } : Loop U T K) =
        { l with periodics := p, rescheduleCnt := n, fds := s, kernel := k } := by
    intro is
    induction is with
    | nil => exact fun l => ⟨l.periodics, l.rescheduleCnt, fun _ _ => rfl⟩
    | cons i is ih =>
      intro l
      obtain ⟨p₁, n₁, h₁⟩ := hone l i
      obtain ⟨p₂, n₂, h₂⟩ := ih { l with periodics := p₁, rescheduleCnt := n₁ }
      refine ⟨p₂, n₂, fun s k => ?_⟩
      rw [List.foldl_cons, h₁]
      exact h₂ s k
  unfold prePollUpdate timeUpdate
  by_cases hn : f.nowait
  · simp only [if_pos hn]
    exact ⟨l.periodics, l.rescheduleCnt, l.mnNow, l.evRtNow, fun _ _ => rfl⟩
  · simp only [if_neg hn]
    by_cases hj : c.jumped
    · simp only [if_pos hj]
      obtain ⟨p, n, h⟩ := hall (List.range l.periodics.cnt) { l with mnNow := c.mnNow, evRtNow := c.rtNow }
      refine ⟨p.reheap e.heap, n, c.mnNow, c.rtNow, fun s k => ?_⟩
      unfold periodicsReschedule
      dsimp only at h ⊢
      rw [h s k]
    · simp only [if_neg hj]
      exact ⟨l.periodics, l.rescheduleCnt, c.mnNow, c.rtNow, fun _ _ => rfl⟩

end

end Loop

/-! ### When a pass blocks -/

namespace Loop

variable {U T K : Type} [DecidableEq U] [LinearOrder T] [AddCommGroup T] [IsOrderedAddMonoid T] {e : Env U T}
  {t : Timing T} {f : PassFlags} {l : Loop U T K}

section

omit [DecidableEq U]

theorem untilNext_pos : 0 < l.untilNext e t ↔
    (l.timers.cnt ≠ 0 → l.mnNow < l.timers.rootAt e.heap) ∧
    (l.periodics.cnt ≠ 0 → l.evRtNow < l.periodics.rootAt e.heap) := by
  have hmax : 0 < if l.timerfd ≠ -1 then t.maxBlocktime2 else t.maxBlocktime := by
    split
    · exact t.max2_pos
    · exact t.max_pos
  unfold untilNext
  generalize (if l.timerfd ≠ -1 then t.maxBlocktime2 else t.maxBlocktime) = w at hmax
  by_cases ht : l.timers.cnt ≠ 0
  · by_cases hp : l.periodics.cnt ≠ 0
    · simp [ht, hp, hmax]
    · simp [ht, hp, hmax]
  · by_cases hp : l.periodics.cnt ≠ 0
    · simp [ht, hp, hmax]
    · simp [ht, hp, hmax]

theorem waittime_pos : 0 < l.waittime e t f ↔ l.mayBlock e t f := by
  unfold waittime mayBlock
  by_cases hno : f.nowait ∨ l.idleall ≠ 0 ∨ l.activecnt = 0 ∨ f.skipped
  · rw [if_pos hno]
    refine ⟨fun h => absurd h (lt_irrefl 0), fun ⟨h₁, h₂, h₃, h₄, _⟩ => ?_⟩
    simp [h₁, h₂, h₃, h₄] at hno
  · rw [if_neg hno]
    simp only [not_or, Bool.not_eq_true, not_not] at hno
    obtain ⟨h₁, h₂, h₃, h₄⟩ := hno
    have hpos : (0 < l.untilNext e t ∨ 0 < t.timeoutBlocktime) ↔
        (0 < t.timeoutBlocktime ∨ (l.timers.cnt ≠ 0 → l.mnNow < l.timers.rootAt e.heap) ∧
          (l.periodics.cnt ≠ 0 → l.evRtNow < l.periodics.rootAt e.heap)) := by
      rw [untilNext_pos, or_comm]
    rw [← hpos, ← lt_max_iff]
    generalize max (l.untilNext e t) t.timeoutBlocktime = w
    have hw : 0 < (if w < t.backendMintime then if w ≤ 0 then 0 else t.backendMintime else w) ↔ 0 < w := by
      split
      · split
        · rename_i hle
          exact ⟨fun h => absurd h (lt_irrefl 0), fun h => absurd h (not_lt.mpr hle)⟩
        · rename_i hlt
          exact ⟨fun _ => not_le.mp hlt, fun _ => t.mintime_pos⟩
      · rfl
    rw [hw]
    exact ⟨fun h => ⟨h₁, h₂, h₃, h₄, h⟩, fun h => h.2.2.2.2⟩

/-- A sleep leaves at least `backend_mintime` of the wait. -/
theorem waittimeSlept_pos (elapsed : T) : 0 < l.waittimeSlept e t f elapsed ↔ 0 < l.waittime e t f := by
  unfold waittimeSlept
  dsimp only
  generalize l.waittime e t f = w
  by_cases hio : t.ioBlocktime ≠ 0
  · rw [if_pos hio]
    generalize t.ioBlocktime - elapsed = s
    by_cases hs : 0 < min s (w - t.backendMintime)
    · rw [if_pos hs]
      have hle : min s (w - t.backendMintime) ≤ w - t.backendMintime := min_le_right ..
      have hw : t.backendMintime < w := sub_pos.mp (hs.trans_le hle)
      refine ⟨fun _ => t.mintime_pos.trans hw, fun _ => t.mintime_pos.trans_le ?_⟩
      exact le_sub_comm.mp hle
    · rw [if_neg hs]
  · rw [if_neg hio]

/-- A pass polls when an io watcher is active or it may block, unless it is told not to and does not block. -/
theorem polls_iff (elapsed : T) : l.polls e t f elapsed ↔
    l.mayBlock e t f ∨ (l.iocnt ≠ 0 ∧ f.nopoll = false) := by
  unfold polls
  dsimp only
  rw [← waittime_pos, ← waittimeSlept_pos elapsed]
  generalize l.waittimeSlept e t f elapsed = w
  by_cases hw : 0 < w
  · simp [hw, not_le.mpr hw]
  · simp [hw, not_lt.mp hw]

/-- A pass with `EVRUN_NOWAIT` polls when an io watcher is active. -/
theorem polls_nowait (skipped : Bool) (elapsed : T) : l.polls e t ⟨true, false, skipped⟩ elapsed ↔ l.iocnt ≠ 0 := by
  rw [polls_iff]
  simp [mayBlock]

end

end Loop

end Qev
