/-
# False time jumps

Without a monotonic clock `time_update` takes the wall clock to have jumped when it has gone on
by more than `max_block` and `MIN_TIMEJUMP` since it was last read, and shifts all timers by
the difference. After its poll a pass passes `waittime + sleeptime` for `max_block`, and
`sleeptime` is negative when the callbacks took longer than `io_blocktime`, or when a deadline
has come and there is nothing to sleep off; then that is less than the pass was allowed
to take (`allowed_le_maxBlock`).

A run whose passes leave no such difference never shifts the timers, as long as the wall clock
advances with real time (`no_false_jump`).
-/
import Qev.Loop.Block

namespace Qev

/-! ### max_block -/

namespace Loop

variable {U T K : Type} [DecidableEq U] [LinearOrder T]

section

variable [Add T] [Sub T] [Zero T] (e : Env U T) (b : Bounds T) (haveMonotonic : Bool) (f : PassFlags)
  (l : Loop U T K)

/-- `waittime + sleeptime`, for the `time_update` after the poll. -/
def maxBlock (elapsed : T) : T :=
  l.pollWait e b haveMonotonic f elapsed + l.sleeptime e b haveMonotonic f elapsed

/-- No timer or periodic has come to its deadline. -/
def NothingDue : Prop :=
  (l.timers.cnt ≠ 0 → l.mnNow < l.timers.rootAt e.heap) ∧
    (l.periodics.cnt ≠ 0 → l.evRtNow < l.periodics.rootAt e.heap)

instance : Decidable (l.NothingDue e) := inferInstanceAs (Decidable (_ ∧ _))

/-- The pass takes no sleep off a wait that is too short for one. -/
def Covered (elapsed : T) : Prop :=
  b.ioBlocktime = 0 ∨ ¬ l.Blocks f ∨
    elapsed ≤ b.ioBlocktime ∧ (b.backendMintime = 0 ∨ 0 < b.timeoutBlocktime ∨ l.NothingDue e)

instance (elapsed : T) : Decidable (l.Covered e b f elapsed) := inferInstanceAs (Decidable (_ ∨ _ ∨ _ ∧ (_ ∨ _ ∨ _)))

end

section

variable [AddCommGroup T] [IsOrderedAddMonoid T] {e : Env U T} {b : Bounds T} {haveMonotonic : Bool} {f : PassFlags}
  {l : Loop U T K} {elapsed : T}

section

omit [DecidableEq U]

theorem untilDeadline_pos (hmax : 0 < l.longestWait b haveMonotonic) :
    0 < l.untilDeadline e b haveMonotonic ↔ l.NothingDue e := by
  unfold untilDeadline NothingDue
  generalize l.longestWait b haveMonotonic = w at hmax
  by_cases ht : l.timers.cnt = 0
  · by_cases hp : l.periodics.cnt = 0
    · simp [ht, hp, hmax]
    · simp [ht, hp, hmax]
  · by_cases hp : l.periodics.cnt = 0
    · simp [ht, hp, hmax]
    · simp [ht, hp, hmax]

theorem mintime_le_fullWait (hmin : 0 ≤ b.backendMintime) (hmax : 0 < l.longestWait b haveMonotonic)
    (hb : l.Blocks f) : b.backendMintime ≤ l.fullWait e b haveMonotonic f ↔
      b.backendMintime = 0 ∨ 0 < b.timeoutBlocktime ∨ l.NothingDue e := by
  have hpos : 0 < max (l.untilDeadline e b haveMonotonic) b.timeoutBlocktime ↔
      0 < b.timeoutBlocktime ∨ l.NothingDue e := by
    rw [lt_max_iff, untilDeadline_pos hmax, or_comm]
  unfold fullWait
  rw [if_pos hb, ← hpos]
  generalize max (l.untilDeadline e b haveMonotonic) b.timeoutBlocktime = w
  dsimp only
  by_cases hlt : w < b.backendMintime
  · rw [if_pos hlt]
    by_cases hw : w ≤ 0
    · rw [if_pos hw]
      exact ⟨fun hle => .inl (le_antisymm hle hmin), fun h => h.elim Eq.le fun hc => absurd hc (not_lt.mpr hw)⟩
    · rw [if_neg hw]
      exact iff_of_true (le_refl _) (.inr (not_le.mp hw))
  · rw [if_neg hlt]
    refine iff_of_true (not_lt.mp hlt) ?_
    rcases hmin.eq_or_lt with h0 | h0
    · exact .inl h0.symm
    · exact .inr (h0.trans_le (not_lt.mp hlt))

theorem sleeptime_nonneg (hmin : 0 ≤ b.backendMintime) (hmax : 0 < l.longestWait b haveMonotonic) :
    0 ≤ l.sleeptime e b haveMonotonic f elapsed ↔ l.Covered e b f elapsed := by
  unfold sleeptime Covered
  by_cases hio : b.ioBlocktime = 0
  · rw [if_neg fun hc => hc.2 hio]
    exact iff_of_true (le_refl 0) (.inl hio)
  · by_cases hb : l.Blocks f
    · rw [if_pos ⟨hb, hio⟩, le_min_iff, sub_nonneg, sub_nonneg, mintime_le_fullWait hmin hmax hb]
      simp [hio, hb]
    · rw [if_neg fun hc => hb hc.1]
      exact iff_of_true (le_refl 0) (.inr (.inl hb))

/-- `max_block` is at least the time the pass may sleep and wait exactly if `sleeptime` is not negative. -/
theorem allowed_le_maxBlock (hmin : 0 ≤ b.backendMintime) (hmax : 0 < l.longestWait b haveMonotonic) :
    l.allowed e b haveMonotonic f elapsed ≤ l.maxBlock e b haveMonotonic f elapsed ↔ l.Covered e b f elapsed := by
  rw [← sleeptime_nonneg hmin hmax]
  unfold allowed maxBlock evSleep
  rw [add_comm, add_le_add_iff_left]
  dsimp only
  split
  · rename_i hpos
    exact iff_of_true (le_refl _) (le_of_lt hpos)
  · rfl

end

end

end Loop

/-! ### Passes in real time -/

/-- A pass that blocks: what bounds it, what callbacks do to the loop before it computes its wait and for how long,
whether it finds `pipe_write_skipped` set, what its poll does to the loop and for how long. -/
structure BlockingPass (U T K : Type) where
  bounds : Bounds T
  callbacks : Loop U T K → Loop U T K
  busy : T
  skipped : Bool
  poll : Loop U T K → Loop U T K
  polled : T

def BlockingPass.flags {U T K : Type} (p : BlockingPass U T K) : PassFlags := ⟨false, false, p.skipped⟩

/-- What happens to a loop that runs: a pass, or a callback that updates the time. -/
inductive Stretch (U T K : Type)
  | pass (p : BlockingPass U T K)
  | update (callbacks : Loop U T K → Loop U T K) (busy : T)

/-- What is assumed of the constants of a pass. -/
def Stretch.Bounded {U T K : Type} [LT T] [LE T] [Zero T] : Stretch U T K → Prop
  | .update _ _ => True
  | .pass p => 0 ≤ p.bounds.backendMintime ∧ 0 < p.bounds.maxBlocktime

/-- A loop, and what its timers were shifted by, the last first. -/
structure Shifting (U T K : Type) where
  clocked : Clocked U T K
  shifts : List T

namespace Clocked

variable {U T K : Type} [DecidableEq U] [LinearOrder T]

section

variable [Add T] [Sub T] [Neg T] [Zero T] (e : Env U T) (h : Host T) (huge : T) (c : Clocked U T K)

/-- What callbacks or a poll do to all but the times. -/
def besides (f : Loop U T K → Loop U T K) : Clocked U T K :=
  { c with loop := { f c.loop with mnNow := c.loop.mnNow, evRtNow := c.loop.evRtNow } }

/-- What `time_update` shifts the timers by, if it does. -/
def shift (maxBlock : T) : List T := if h.haveMonotonic then [] else (c.wallUpdate e h maxBlock).2

/-- The loop that a pass computes its wait from. -/
def entered (p : BlockingPass U T K) : Clocked U T K := (c.besides p.callbacks).prePoll e h huge false

/-- `mn_now - prev_mn_now`. -/
def elapsed (p : BlockingPass U T K) : T := (c.entered e h huge p).loop.mnNow - c.loop.mnNow

def evSleep (p : BlockingPass U T K) : Option T :=
  (c.entered e h huge p).loop.evSleep e p.bounds h.haveMonotonic p.flags (c.elapsed e h huge p)

def pollWait (p : BlockingPass U T K) : T :=
  (c.entered e h huge p).loop.pollWait e p.bounds h.haveMonotonic p.flags (c.elapsed e h huge p)

def maxBlock (p : BlockingPass U T K) : T :=
  (c.entered e h huge p).loop.maxBlock e p.bounds h.haveMonotonic p.flags (c.elapsed e h huge p)

/-- The time the pass may sleep and wait. -/
def allowed (p : BlockingPass U T K) : T := (c.evSleep e h huge p).getD 0 + c.pollWait e h huge p

/-- The loop after the poll of a pass. -/
def polledLoop (p : BlockingPass U T K) : Clocked U T K := (c.entered e h huge p).besides p.poll

/-- The wall clock has gone on by `busy` since it was last read. -/
def Advanced (busy : T) : Prop := 0 ≤ busy ∧ h.evTime c.timeReads = c.loop.mnNow + busy

/-- The sleep lasted as long as it was meant to, and the poll less than `MIN_TIMEJUMP` longer than its wait. -/
def Returns (p : BlockingPass U T K) : Prop :=
  0 ≤ p.polled ∧ p.polled < c.pollWait e h huge p + h.minTimejump ∧
    h.evTime (c.entered e h huge p).timeReads =
      (c.entered e h huge p).loop.mnNow + (c.evSleep e h huge p).getD 0 + p.polled

instance (busy : T) : Decidable (c.Advanced h busy) := inferInstanceAs (Decidable (_ ∧ _))

instance (p : BlockingPass U T K) : Decidable (c.Returns e h huge p) := inferInstanceAs (Decidable (_ ∧ _ ∧ _))

/-- The callbacks have not lasted longer than `time_update` believes, and the pass is allowed no more than its
`max_block`. -/
def Meets : Stretch U T K → Prop
  | .update _ busy => busy ≤ huge + h.minTimejump
  | .pass p => p.busy ≤ huge + h.minTimejump ∧
    Loop.Covered e p.bounds p.flags
      { p.callbacks c.loop with mnNow := c.loop.mnNow + p.busy, evRtNow := c.loop.mnNow + p.busy } p.busy

end

end Clocked

namespace Shifting

variable {U T K : Type} [DecidableEq U] [LinearOrder T]

section

variable [Add T] [Sub T] [Neg T] [Zero T] (e : Env U T) (h : Host T) (huge : T) (s : Shifting U T K)

/-- One stretch, in real time. -/
def step (s : Shifting U T K) : Stretch U T K → Option (Shifting U T K)
  | .update callbacks busy =>
    let c := s.clocked.besides callbacks
    if c.Advanced h busy then some ⟨c.evNowUpdate e h huge, c.shift e h huge ++ s.shifts⟩ else none
  | .pass p =>
    let c := s.clocked
    if c.Advanced h p.busy ∧ c.Returns e h huge p then
      let maxBlock := c.maxBlock e h huge p
      some ⟨(c.polledLoop e h huge p).postPoll e h huge false maxBlock,
        (c.polledLoop e h huge p).shift e h maxBlock ++ (c.besides p.callbacks).shift e h huge ++ s.shifts⟩
    else none

abbrev Runs (s : Shifting U T K) (acts : List (Stretch U T K)) (t : Shifting U T K) : Prop :=
  Lib.Run (fun s a t => step e h huge s a = some t) s acts t

end

end Shifting

/-! ### No false jump -/

namespace Clocked

variable {U T K : Type} [DecidableEq U] [LinearOrder T] [AddCommGroup T] [IsOrderedAddMonoid T] {e : Env U T}
  {h : Host T} {huge : T} {c : Clocked U T K} {p : BlockingPass U T K} {busy : T}

section

omit [IsOrderedAddMonoid T]

/-- An update without a jump only sets the times. -/
theorem timeUpdate_calm (hmono : ¬ h.haveMonotonic) {maxBlock : T} (hcalm : ¬ c.WallJump h maxBlock) :
    c.shift e h maxBlock = [] ∧ (c.timeUpdate e h maxBlock).loop =
      { c.loop with mnNow := h.evTime c.timeReads, evRtNow := h.evTime c.timeReads } := by
  unfold shift timeUpdate wallUpdate
  rw [if_neg hmono, if_neg hmono]
  dsimp only
  rw [if_neg (by exact hcalm)]
  exact ⟨rfl, rfl⟩

end

section

omit [DecidableEq U]

theorem Advanced.calm (ha : c.Advanced h busy) (hle : busy ≤ huge + h.minTimejump) : ¬ c.WallJump h huge := by
  unfold WallJump
  rw [ha.2, not_or, not_lt, not_lt, add_assoc]
  exact ⟨le_add_of_nonneg_right ha.1, add_le_add_right hle _⟩

end

/-- What a pass computes its wait from, if the update before shows no jump. -/
theorem entered_eq (hmono : ¬ h.haveMonotonic) (ha : c.Advanced h p.busy) (hle : p.busy ≤ huge + h.minTimejump) :
    (c.besides p.callbacks).shift e h huge = [] ∧ c.elapsed e h huge p = p.busy ∧ (c.entered e h huge p).loop =
      { p.callbacks c.loop with mnNow := c.loop.mnNow + p.busy, evRtNow := c.loop.mnNow + p.busy } := by
  have ha' : (c.besides p.callbacks).Advanced h p.busy := ha
  obtain ⟨hshift, hloop⟩ := timeUpdate_calm (e := e) hmono (ha'.calm hle)
  rw [show h.evTime (c.besides p.callbacks).timeReads = _ from ha.2] at hloop
  have hentered : (c.entered e h huge p).loop =
      { p.callbacks c.loop with mnNow := c.loop.mnNow + p.busy, evRtNow := c.loop.mnNow + p.busy } := hloop
  refine ⟨hshift, ?_, hentered⟩
  unfold elapsed
  rw [hentered]
  exact add_sub_cancel_left ..

theorem getD_evSleep_nonneg : 0 ≤ (c.evSleep e h huge p).getD 0 := by
  cases hs : c.evSleep e h huge p with
  | none => exact le_refl 0
  | some x => exact (Loop.pollWait_slept hs).1.le

/-- Whether `max_block` covers the pass, from what it is given and finds. -/
theorem allowed_le_iff (hmono : ¬ h.haveMonotonic) (hmin : 0 ≤ p.bounds.backendMintime)
    (hmax : 0 < p.bounds.maxBlocktime) (ha : c.Advanced h p.busy) (hle : p.busy ≤ huge + h.minTimejump) :
    c.allowed e h huge p ≤ c.maxBlock e h huge p ↔
      Loop.Covered e p.bounds p.flags
        { p.callbacks c.loop with mnNow := c.loop.mnNow + p.busy, evRtNow := c.loop.mnNow + p.busy } p.busy := by
  obtain ⟨-, helapsed, hentered⟩ := entered_eq (e := e) hmono ha hle
  have hlong : 0 < (c.entered e h huge p).loop.longestWait p.bounds h.haveMonotonic := by
    unfold Loop.longestWait
    rwa [if_neg fun hc => hmono hc.1]
  refine (Loop.allowed_le_maxBlock hmin hlong).trans ?_
  rw [hentered, helapsed]

/-- A pass that is covered sees no jump after its poll. -/
theorem Returns.calm (hr : c.Returns e h huge p) (hle : c.allowed e h huge p ≤ c.maxBlock e h huge p) :
    ¬ (c.polledLoop e h huge p).WallJump h (c.maxBlock e h huge p) := by
  obtain ⟨h0, hlt, htime⟩ := hr
  have hmn : (c.polledLoop e h huge p).loop.mnNow = (c.entered e h huge p).loop.mnNow := rfl
  have hreads : (c.polledLoop e h huge p).timeReads = (c.entered e h huge p).timeReads := rfl
  unfold WallJump
  rw [hmn, hreads, htime, not_or, not_lt, not_lt, add_assoc, add_assoc]
  refine ⟨le_add_of_nonneg_right (add_nonneg getD_evSleep_nonneg h0), add_le_add_right ?_ _⟩
  calc (c.evSleep e h huge p).getD 0 + p.polled
      ≤ (c.evSleep e h huge p).getD 0 + (c.pollWait e h huge p + h.minTimejump) := add_le_add_right hlt.le _
    _ = c.allowed e h huge p + h.minTimejump := (add_assoc ..).symm
    _ ≤ c.maxBlock e h huge p + h.minTimejump := add_le_add_left hle _

end Clocked

namespace Shifting

variable {U T K : Type} [DecidableEq U] [LinearOrder T] [AddCommGroup T] [IsOrderedAddMonoid T] {e : Env U T}
  {h : Host T} {huge : T} {s t : Shifting U T K} {a : Stretch U T K} {acts : List (Stretch U T K)}

theorem shifts_step (hmono : ¬ h.haveMonotonic) (hb : Stretch.Bounded a) (hm : s.clocked.Meets e h huge a)
    (hs : step e h huge s a = some t) : t.shifts = s.shifts := by
  cases a with
  | update callbacks busy =>
    simp only [step, Option.ite_none_right_eq_some] at hs
    obtain ⟨ha, hs⟩ := hs
    cases hs
    have hcalm : ¬ (s.clocked.besides callbacks).WallJump h huge := ha.calm hm
    dsimp only
    rw [(Clocked.timeUpdate_calm (e := e) hmono hcalm).1, List.nil_append]
  | pass p =>
    simp only [step, Option.ite_none_right_eq_some] at hs
    obtain ⟨⟨ha, hr⟩, hs⟩ := hs
    cases hs
    have hle := (Clocked.allowed_le_iff hmono hb.1 hb.2 ha hm.1).mpr hm.2
    dsimp only
    rw [(Clocked.timeUpdate_calm (e := e) hmono (hr.calm hle)).1, (Clocked.entered_eq (e := e) hmono ha hm.1).1,
      List.nil_append, List.nil_append]

/-- **No false time jump**, without a monotonic clock: in a run in which the wall clock advances with real time,
every sleep lasts as long as it was meant to and every poll less than `MIN_TIMEJUMP` longer than its wait, no
timers are shifted and every pass may sleep and wait for no longer than its `max_block`, if in every
pass that computes a wait and has an `io_blocktime` the callbacks before it last no longer than that and no
deadline has come, unless the timeout collect interval makes it wait or the backend has no least wait. -/
theorem no_false_jump (hmono : ¬ h.haveMonotonic) (hbounds : ∀ a ∈ acts, Stretch.Bounded a)
    (hrun : Runs e h huge s acts t)
    (hmeets : ∀ past a later, acts = past ++ a :: later → ∀ u, Runs e h huge s past u → u.clocked.Meets e h huge a) :
    t.shifts = s.shifts ∧
    ∀ past p later, acts = past ++ .pass p :: later → ∀ u, Runs e h huge s past u →
      u.clocked.allowed e h huge p ≤ u.clocked.maxBlock e h huge p := by
  constructor
  · refine Lib.Run.guarded (I := fun _ u => u.shifts = s.shifts)
      (G := fun _ u a => u.clocked.Meets e h huge a ∧ Stretch.Bounded a) ?_ rfl ?_ hrun
    · exact fun past u a v _ hu hm hstep => (shifts_step hmono hm.2 hm.1 hstep).trans hu
    · exact fun past a later hacts u hu => ⟨hmeets past a later hacts u hu, hbounds a (by rw [hacts]; simp)⟩
  · rintro past p later rfl u hu
    obtain ⟨v, hv, hrest⟩ := hrun.of_append
    obtain rfl := Lib.Run.unique hv hu
    cases hrest with
    | cons hstep _ =>
      simp only [step, Option.ite_none_right_eq_some] at hstep
      obtain ⟨⟨ha, -⟩, -⟩ := hstep
      obtain ⟨hmin, hmax⟩ := hbounds (.pass p) (by simp)
      have hm := hmeets past (.pass p) later rfl v hv
      exact (Clocked.allowed_le_iff hmono hmin hmax ha hm.1).mpr hm.2

/-- A host without a monotonic clock, with the next two readings of the wall clock. -/
def twoReadings (r₁ r₂ : ℤ) : Host ℤ := ⟨false, fun _ => 0, fun n => if n = 0 then r₁ else r₂, 1000, 500⟩

/-- A pass 100 after the last one, after callbacks that last `busy`. -/
def hundredApart (busy polled : ℤ) : BlockingPass Unit ℤ Unit := ⟨Loop.hundred, id, busy, false, id, polled⟩

/-- The callbacks last 50, the pass sleeps for 50 more, and its poll is 500 late. -/
theorem no_false_jump_late : ∃ t : Shifting Unit ℤ Unit,
    Runs Clocked.plain (twoReadings 1050 2293) 10000000 ⟨Clocked.toGo 6000, []⟩ [.pass (hundredApart 50 1193)] t ∧
    t.shifts = [] := by
  have hx : ((step Clocked.plain (twoReadings 1050 2293) 10000000 ⟨Clocked.toGo 6000, []⟩
      (.pass (hundredApart 50 1193))).map fun t => t.shifts.length) = some 0 := by
    decide +kernel
  obtain ⟨t, ht, -⟩ := Option.map_eq_some_iff.mp hx
  refine ⟨t, .single ht, (no_false_jump (by decide) ?_ (.single ht) ?_).1⟩
  · intro a ha
    obtain rfl := List.mem_singleton.mp ha
    exact ⟨by decide, by decide⟩
  · intro past a later hacts u hu
    cases past with
    | nil =>
      cases hacts
      cases hu
      exact ⟨by decide, by decide +kernel⟩
    | cons b past => simp at hacts

/-- The callbacks last 5000, and the pass waits for 743: the timer, due in 1000, comes 743 later. -/
theorem false_jump : ∃ t : Shifting Unit ℤ Unit,
    Runs Clocked.plain (twoReadings 6000 6743) 10000000 ⟨Clocked.toGo 6000, []⟩ [.pass (hundredApart 5000 743)] t ∧
    t.shifts = [743] ∧
    ¬ (Clocked.toGo 6000).allowed Clocked.plain (twoReadings 6000 6743) 10000000 (hundredApart 5000 743) ≤
      (Clocked.toGo 6000).maxBlock Clocked.plain (twoReadings 6000 6743) 10000000 (hundredApart 5000 743) := by
  have hx : ((step Clocked.plain (twoReadings 6000 6743) 10000000 ⟨Clocked.toGo 6000, []⟩
      (.pass (hundredApart 5000 743))).map fun t => t.shifts) = some [743] := by
    decide +kernel
  obtain ⟨t, ht, hshift⟩ := Option.map_eq_some_iff.mp hx
  exact ⟨t, .single ht, hshift, by decide +kernel⟩

end Shifting

end Qev
