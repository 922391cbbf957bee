/-
# The loop's clock

`time_update` reads the monotonic clock, derives the wall clock from it by the offset last
measured and measures that anew every half `MIN_TIMEJUMP`; an offset that moved by
`MIN_TIMEJUMP` or more is a jump of the wall clock, after which the periodics are asked anew.
`ev_now_set` does the same with a reading the embedder supplies.

The two agree on every reading (`now_set_agrees`). The loop's monotonic time never steps back
in a run exactly if no reading in it is behind a sample supplied before (`mn_now_steady`).
-/
import Qev.Loop.Timers

namespace Qev

/-- What the host's clocks answer: the `n`th `get_clock` and the `n`th `ev_time`; and the constants of
`time_update`, `MIN_TIMEJUMP` and the half of it. -/
structure Host (T : Type) where
  haveMonotonic : Bool
  getClock : ℕ → T
  evTime : ℕ → T
  minTimejump : T
  halfTimejump : T

/-- A loop with what it knows of the time, the pass that is polling, if one is, and whether that is an
`EVRUN_NOWAIT` one; the readings made so far and all the values `mn_now` was given, newest first. -/
structure Clocked (U T K : Type) where
  loop : Loop U T K
  rtmnDiff : T
  nowFloor : T
  nowSet : Bool
  polling : Option Bool
  clockReads : ℕ
  timeReads : ℕ
  past : List T

/-- The arithmetic of `time_jumped`: the absolute value of what the offset moved by. -/
def absMoved {T : Type} [LT T] [DecidableLT T] [Zero T] [Neg T] (moved : T) : T := if moved < 0 then -moved else moved

namespace Clocked

variable {U T K : Type} [DecidableEq U] [LinearOrder T] [Add T] [Sub T] [Neg T] [Zero T]

section

variable (e : Env U T) (h : Host T) (s : Clocked U T K)

def setMnNow (t : T) : Clocked U T K := { s with loop := { s.loop with mnNow := t }, past := t :: s.past }

def setEvRtNow (t : T) : Clocked U T K := { s with loop := { s.loop with evRtNow := t } }

def measure : Clocked U T K := { s with rtmnDiff := s.loop.evRtNow - s.loop.mnNow }

def periodicsReschedule : Clocked U T K := { s with loop := s.loop.periodicsReschedule e }

/-- `mn_now = get_clock ()`. -/
def readClock : Clocked U T K := { s.setMnNow (h.getClock s.clockReads) with clockReads := s.clockReads + 1 }

/-- `ev_rt_now = ev_time ()`. -/
def readTime : Clocked U T K := { s.setEvRtNow (h.evTime s.timeReads) with timeReads := s.timeReads + 1 }

def floorNow : Clocked U T K := { s with nowFloor := s.loop.mnNow }

/-- `ev_rt_now` by the offset last measured. -/
def interpolate : Clocked U T K := s.setEvRtNow (s.rtmnDiff + s.loop.mnNow)

/-- The loop of `time_update`, `n` rounds of it: both clocks are read again before a jump is believed. -/
def confirm (odiff : T) : ℕ → Clocked U T K → Clocked U T K
  | 0, s => s.periodicsReschedule e
  | n + 1, s =>
    let s := s.measure
    if absMoved (odiff - s.rtmnDiff) < h.minTimejump then s
    else confirm odiff n ((s.readTime h).readClock h).floorNow

/-- `time_update` without a monotonic clock, and what it shifts the timers by. -/
def wallUpdate (maxBlock : T) : Clocked U T K × List T :=
  let s := s.readTime h
  let rt := s.loop.evRtNow
  let mn := s.loop.mnNow
  if mn > rt ∨ rt > mn + maxBlock + h.minTimejump then
    let s := ({ s with loop := s.loop.timersReschedule e (rt - mn) } : Clocked U T K).periodicsReschedule e
    (s.setMnNow rt, [rt - mn])
  else (s.setMnNow rt, [])

/-- `time_update`. -/
def timeUpdate (maxBlock : T) : Clocked U T K :=
  if h.haveMonotonic then
    let odiff := s.rtmnDiff
    let s := s.readClock h
    if s.loop.mnNow - s.nowFloor < h.halfTimejump then s.interpolate
    else confirm e h odiff 3 (s.floorNow.readTime h)
  else (s.wallUpdate e h maxBlock).1

/-- `now_set_refresh`. -/
def nowSetRefresh : Clocked U T K :=
  let odiff := s.rtmnDiff
  let s := (s.floorNow.readTime h).measure
  if h.minTimejump ≤ absMoved (odiff - s.rtmnDiff) then s.periodicsReschedule e else s

/-- `ev_now_set`. `huge` is `EV_TSTAMP_HUGE`. -/
def evNowSet (huge mono : T) : Clocked U T K :=
  if h.haveMonotonic then
    let s := if mono > s.loop.mnNow then s.setMnNow mono else s
    let s := if s.loop.mnNow - s.nowFloor < h.halfTimejump then s.interpolate else s.nowSetRefresh e h
    { s with nowSet := true }
  else s.timeUpdate e h huge

/-- `ev_now_update`. -/
def evNowUpdate (huge : T) : Clocked U T K := s.timeUpdate e h huge

/-- The time a pass of `ev_run` takes before its poll. -/
def prePoll (huge : T) (nowait : Bool) : Clocked U T K := if nowait then s else s.timeUpdate e h huge

/-- The time a pass takes after its poll. -/
def postPoll (huge : T) (nowait : Bool) (maxBlock : T) : Clocked U T K :=
  let s := if s.nowSet && nowait then s else s.timeUpdate e h (if nowait then huge else maxBlock)
  { s with nowSet := false }

end

/-! ### A supplied clock and a read one -/

section

variable {e : Env U T} {h : Host T} {s t u : Clocked U T K} {m r : T}

/-- Two that know the same of the time and whose loops are the same. -/
structure Agree (s t : Clocked U T K) : Prop where
  loop : s.loop = t.loop
  rtmnDiff : s.rtmnDiff = t.rtmnDiff
  nowFloor : s.nowFloor = t.nowFloor

section

omit [DecidableEq U] [LinearOrder T] [Add T] [Sub T] [Neg T] [Zero T]

theorem Agree.refl (s : Clocked U T K) : Agree s s := ⟨rfl, rfl, rfl⟩

theorem Agree.trans (h₁ : Agree s t) (h₂ : Agree t u) : Agree s u :=
  ⟨h₁.loop.trans h₂.loop, h₁.rtmnDiff.trans h₂.rtmnDiff, h₁.nowFloor.trans h₂.nowFloor⟩

theorem Agree.symm (h : Agree s t) : Agree t s := ⟨h.loop.symm, h.rtmnDiff.symm, h.nowFloor.symm⟩

end

section

omit [Add T] [Sub T] [Neg T]

theorem Agree.reschedule (h : Agree s t) : Agree (s.periodicsReschedule e) (t.periodicsReschedule e) :=
  ⟨congrArg (Loop.periodicsReschedule e) h.loop, h.rtmnDiff, h.nowFloor⟩

end

/-- The clocks stand at `m` and `r`, and the loop has just read them. -/
structure Stands (s : Clocked U T K) (m r : T) : Prop where
  mnNow : s.loop.mnNow = m
  evRtNow : s.loop.evRtNow = r
  nowFloor : s.nowFloor = m

/-- The offset between `r` and `m` has moved by so much that it is a jump. -/
def Jumped (h : Host T) (s : Clocked U T K) (m r : T) : Prop := h.minTimejump ≤ absMoved (s.rtmnDiff - (r - m))

instance (s : Clocked U T K) (m r : T) : Decidable (Jumped h s m r) := inferInstanceAs (Decidable (_ ≤ _))

section

omit [DecidableEq U] [LinearOrder T] [Add T] [Neg T] [Zero T]

theorem Stands.measure (hs : Stands s m r) : s.measure.rtmnDiff = r - m := by
  unfold Clocked.measure
  rw [hs.mnNow, hs.evRtNow]

end

section

omit [DecidableEq U] [LinearOrder T] [Add T] [Sub T] [Neg T] [Zero T]

/-- Reading clocks that stand still again changes nothing. -/
theorem Stands.again (hs : Stands s m r) (hc : ∀ i, h.getClock i = m) (ht : ∀ i, h.evTime i = r) :
    Agree ((s.readTime h).readClock h).floorNow s := by
  obtain ⟨hm, hr, hf⟩ := hs
  refine ⟨?_, rfl, ?_⟩
  · show ({ s.loop with evRtNow := h.evTime _, mnNow := h.getClock _ } : Loop U T K) = s.loop
    rw [hc, ht, ← hm, ← hr]
  · show h.getClock _ = _
    rw [hc, hf]

end

section

omit [Add T]

/-- What `time_update` does once both clocks have been read, when they stand still. -/
theorem confirm_stands (odiff : T) (n : ℕ) (hs : Stands s m r) (hc : ∀ i, h.getClock i = m)
    (ht : ∀ i, h.evTime i = r) :
    Agree (confirm e h odiff (n + 1) s)
      (if absMoved (odiff - (r - m)) < h.minTimejump then s.measure else s.measure.periodicsReschedule e) := by
  induction n generalizing s with
  | zero =>
    unfold confirm
    dsimp only
    rw [hs.measure]
    split
    · exact .refl _
    · have ha : Agree ((s.measure.readTime h).readClock h).floorNow s.measure :=
        Stands.again (m := m) (r := r) ⟨hs.mnNow, hs.evRtNow, hs.nowFloor⟩ hc ht
      exact ha.reschedule
  | succ n ih =>
    unfold confirm
    dsimp only
    rw [hs.measure]
    split
    · exact .refl _
    · rename_i hj
      have ha : Agree ((s.measure.readTime h).readClock h).floorNow s.measure :=
        Stands.again (m := m) (r := r) ⟨hs.mnNow, hs.evRtNow, hs.nowFloor⟩ hc ht
      have hs' : Stands ((s.measure.readTime h).readClock h).floorNow m r := by
        refine ⟨?_, ?_, ?_⟩
        · rw [ha.loop]
          exact hs.mnNow
        · rw [ha.loop]
          exact hs.evRtNow
        · rw [ha.nowFloor]
          exact hs.nowFloor
      have hi := ih hs'
      rw [if_neg hj] at hi
      refine hi.trans (Agree.reschedule ⟨ha.loop, ?_, ha.nowFloor⟩)
      rw [hs'.measure]
      exact hs.measure.symm

end

/-- What the readings `m` and `r` mean for the loop: the wall clock by the offset known, or a new offset and,
if that shows a jump, the periodics asked anew. -/
def told (e : Env U T) (h : Host T) (s : Clocked U T K) (m r : T) : Clocked U T K :=
  if m - s.nowFloor < h.halfTimejump then
    { s with loop := { s.loop with mnNow := m, evRtNow := s.rtmnDiff + m } }
  else
    let t : Clocked U T K :=
      { s with loop := { s.loop with mnNow := m, evRtNow := r }, rtmnDiff := r - m, nowFloor := m }
    if Jumped h s m r then t.periodicsReschedule e else t

theorem timeUpdate_told (hmono : h.haveMonotonic) (hc : ∀ i, h.getClock i = m) (ht : ∀ i, h.evTime i = r)
    (maxBlock : T) : Agree (s.timeUpdate e h maxBlock) (s.told e h m r) := by
  unfold timeUpdate told
  rw [if_pos hmono]
  dsimp only
  have hread : (s.readClock h).loop = { s.loop with mnNow := m } := by
    show ({ s.loop with mnNow := h.getClock _ } : Loop U T K) = _
    rw [hc]
  have hfloor : (s.readClock h).nowFloor = s.nowFloor := rfl
  rw [hread, hfloor]
  by_cases hf : m - s.nowFloor < h.halfTimejump
  · rw [if_pos hf, if_pos hf]
    refine ⟨?_, rfl, rfl⟩
    show ({ (s.readClock h).loop with evRtNow := s.rtmnDiff + (s.readClock h).loop.mnNow } : Loop U T K) = _
    rw [hread]
  · rw [if_neg hf, if_neg hf]
    have hs : Stands ((s.readClock h).floorNow.readTime h) m r := by
      refine ⟨?_, ht _, ?_⟩
      · exact hc _
      · exact hc _
    refine (confirm_stands s.rtmnDiff 2 hs hc ht).trans ?_
    have hmeasured : Agree ((s.readClock h).floorNow.readTime h).measure
        { s with loop := { s.loop with mnNow := m, evRtNow := r }, rtmnDiff := r - m, nowFloor := m } := by
      refine ⟨?_, hs.measure, hs.nowFloor⟩
      show ({ s.loop with mnNow := h.getClock _, evRtNow := h.evTime _ } : Loop U T K) = _
      rw [hc, ht]
    by_cases hj : Jumped h s m r
    · rw [if_neg (not_lt.mpr hj), if_pos hj]
      exact hmeasured.reschedule
    · rw [if_pos (not_le.mp hj), if_neg hj]
      exact hmeasured

theorem evNowSet_told (hmono : h.haveMonotonic) (hm : s.loop.mnNow ≤ m) (ht : ∀ i, h.evTime i = r) (huge : T) :
    Agree (s.evNowSet e h huge m) (s.told e h m r) := by
  unfold evNowSet told
  rw [if_pos hmono]
  dsimp only
  -- the sample is the loop's time already, or replaces it
  have hset : Agree (if m > s.loop.mnNow then s.setMnNow m else s) { s with loop := { s.loop with mnNow := m } } := by
    split
    · exact ⟨rfl, rfl, rfl⟩
    · rename_i hle
      have he : s.loop.mnNow = m := le_antisymm hm (not_lt.mp hle)
      refine ⟨?_, rfl, rfl⟩
      rw [← he]
  generalize (if m > s.loop.mnNow then s.setMnNow m else s) = s' at hset ⊢
  obtain ⟨hloop, hdiff, hfloor⟩ := hset
  have hmn : s'.loop.mnNow = m := by rw [hloop]
  dsimp only at hdiff hfloor
  rw [hmn, hfloor]
  by_cases hf : m - s.nowFloor < h.halfTimejump
  · rw [if_pos hf, if_pos hf]
    refine ⟨?_, hdiff, hfloor⟩
    show ({ s'.loop with evRtNow := s'.rtmnDiff + s'.loop.mnNow } : Loop U T K) = _
    rw [hloop, hdiff]
  · rw [if_neg hf, if_neg hf]
    unfold nowSetRefresh
    dsimp only
    have hs : Stands (s'.floorNow.readTime h) m r := ⟨hmn, ht _, hmn⟩
    have hmeasured : Agree (s'.floorNow.readTime h).measure
        { s with loop := { s.loop with mnNow := m, evRtNow := r }, rtmnDiff := r - m, nowFloor := m } := by
      refine ⟨?_, hs.measure, hs.nowFloor⟩
      show ({ s'.loop with evRtNow := h.evTime _ } : Loop U T K) = _
      rw [hloop, ht]
    rw [hs.measure, hdiff]
    by_cases hj : Jumped h s m r
    · rw [if_pos (show h.minTimejump ≤ absMoved (s.rtmnDiff - (r - m)) from hj), if_pos hj]
      have ha := hmeasured.reschedule (e := e)
      exact ⟨ha.loop, ha.rtmnDiff, ha.nowFloor⟩
    · rw [if_neg (show ¬ h.minTimejump ≤ absMoved (s.rtmnDiff - (r - m)) from hj), if_neg hj]
      exact ⟨hmeasured.loop, hmeasured.rtmnDiff, hmeasured.nowFloor⟩

/-- Readings that show no jump leave the periodics as they are. -/
theorem periodics_told (hj : ¬ Jumped h s m r) : (s.told e h m r).loop.periodics = s.loop.periodics := by
  unfold told
  split
  · rfl
  · rfl

/-- **A supplied clock agrees with a read one.** `ev_now_set` with the reading `m` and `time_update` reading it,
where the wall clock reads `r`, leave the two times, the offset, the time of its measurement and all else of the
loop the same, and the periodics as they were unless the readings show a jump. -/
theorem now_set_agrees (e : Env U T) (h : Host T) (s : Clocked U T K) (huge maxBlock m r : T)
    (hmono : h.haveMonotonic) (hm : s.loop.mnNow ≤ m) :
    let supplied := s.evNowSet e { h with evTime := fun _ => r } huge m
    let read := s.timeUpdate e { h with getClock := fun _ => m, evTime := fun _ => r } maxBlock
    supplied.loop = read.loop ∧ supplied.rtmnDiff = read.rtmnDiff ∧ supplied.nowFloor = read.nowFloor ∧
      (¬ Jumped h s m r → supplied.loop.periodics = s.loop.periodics ∧
        read.loop.periodics = s.loop.periodics) := by
  intro supplied read
  have hs : Agree supplied (s.told e h m r) :=
    evNowSet_told (h := { h with evTime := fun _ => r }) hmono hm (fun _ => rfl) huge
  have hr : Agree read (s.told e h m r) :=
    timeUpdate_told (h := { h with getClock := fun _ => m, evTime := fun _ => r }) hmono (fun _ => rfl)
      (fun _ => rfl) maxBlock
  have ha : Agree supplied read := hs.trans hr.symm
  refine ⟨ha.loop, ha.rtmnDiff, ha.nowFloor, fun hj => ⟨?_, ?_⟩⟩
  · rw [hs.loop]
    exact periodics_told hj
  · rw [hr.loop]
    exact periodics_told hj

end

/-- A periodic every 5 of the wall clock, which is found to have jumped. -/
theorem now_set_agrees_jump : ∃ (e : Env Unit ℤ) (h : Host ℤ) (s : Clocked Unit ℤ Unit),
    Jumped h s 20 1000 ∧
    (s.evNowSet e { h with evTime := fun _ => 1000 } 0 20).loop =
      (s.timeUpdate e { h with getClock := fun _ => 20, evTime := fun _ => 1000 } 0).loop ∧
    (s.evNowSet e { h with evTime := fun _ => 1000 } 0 20).loop.periodics.wAt () = 1005 ∧
    s.loop.periodics.wAt () = 5 := by
  let e : Env Unit ℤ := ⟨.four, fun _ _ now => now, fun _ interval now => now + interval⟩
  let h : Host ℤ := ⟨true, fun _ => 0, fun _ => 0, 10, 5⟩
  let l : Loop Unit ℤ Unit := (Loop.init .select true false true ()).evPeriodicSet () 0 5 false
  let s : Clocked Unit ℤ Unit := ⟨l.evPeriodicStart e ⟨-1, 0, false⟩ (), 0, 0, false, none, 0, 0, []⟩
  exact ⟨e, h, s, by decide +kernel, (now_set_agrees e h s 0 0 20 1000 rfl (by decide +kernel)).1,
    by decide +kernel, by decide +kernel⟩

/-! ### The values of mn_now -/

/-- What happens to a loop's clock: calls of the embedder, at any time, and the two halves of a pass. -/
inductive Act (U T K : Type)
  | nowSet (mono : T)
  | nowUpdate
  | enter (nowait : Bool)
  | leave (maxBlock : T)
  | other (f : Loop U T K → Loop U T K)

section

variable (e : Env U T) (h : Host T) (huge : T)

/-- As `loop_init` leaves the clock. -/
def init (l : Loop U T K) : Clocked U T K :=
  { loop := { l with mnNow := h.getClock 0, evRtNow := h.evTime 0 }, rtmnDiff := h.evTime 0 - h.getClock 0
    nowFloor := h.getClock 0, nowSet := false, polling := none, clockReads := 1, timeReads := 1
    past := [h.getClock 0] }

def step (s : Clocked U T K) : Act U T K → Option (Clocked U T K)
  | .nowSet mono => some (s.evNowSet e h huge mono)
  | .nowUpdate => some (s.evNowUpdate e h huge)
  | .enter nowait =>
    if s.polling = none then some { s.prePoll e h huge nowait with polling := some nowait } else none
  | .leave maxBlock => s.polling.map fun nowait => { s.postPoll e h huge nowait maxBlock with polling := none }
  | .other f => some { s with loop := { f s.loop with mnNow := s.loop.mnNow, evRtNow := s.loop.evRtNow } }

abbrev Runs (s : Clocked U T K) (acts : List (Act U T K)) (t : Clocked U T K) : Prop :=
  Lib.Run (fun s a t => step e h huge s a = some t) s acts t

/-- Whether the loop reads the monotonic clock. -/
def Reads (s : Clocked U T K) : Act U T K → Prop
  | .nowSet _ => False
  | .nowUpdate => True
  | .enter nowait => nowait = false
  | .leave _ => ¬ (s.nowSet = true ∧ s.polling = some true)
  | .other _ => False

/-- If the loop reads the clock, the reading is not behind any sample supplied in `past`. -/
def Timely (past : List (Act U T K)) (s : Clocked U T K) (a : Act U T K) : Prop :=
  s.Reads a → ∀ mono, .nowSet mono ∈ past → mono ≤ h.getClock s.clockReads

/-- No value of `mn_now` was less than one before it. -/
def Steady (s : Clocked U T K) : Prop := s.past.Pairwise fun t u => u ≤ t

end

section

variable {e : Env U T} {h : Host T} {huge : T} {s t : Clocked U T K} {a : Act U T K} {acts : List (Act U T K)}

/-- The last of the values is the loop's. -/
def Headed (s : Clocked U T K) : Prop := s.past.head? = some s.loop.mnNow

/-- The values of `mn_now` have not gone back, and will not at the next reading. -/
structure Ahead (h : Host T) (s : Clocked U T K) : Prop where
  steady : s.Steady
  head : s.Headed
  next : s.loop.mnNow ≤ h.getClock s.clockReads

section

omit [DecidableEq U] [Add T] [Sub T] [Neg T] [Zero T]

/-- None of the values so far is more than the last. -/
theorem Steady.le (hs : s.Steady) (hh : s.Headed) : ∀ t ∈ s.past, t ≤ s.loop.mnNow := by
  obtain ⟨ts, hts⟩ : ∃ ts, s.past = s.loop.mnNow :: ts := by
    cases hp : s.past with
    | nil => simp [Headed, hp] at hh
    | cons t ts =>
      simp only [Headed, hp, List.head?_cons, Option.some.injEq] at hh
      exact ⟨ts, by rw [hh]⟩
  have hcons : (s.loop.mnNow :: ts).Pairwise fun t u => u ≤ t := by
    rw [← hts]
    exact hs
  intro t ht
  rw [hts] at ht
  rcases List.mem_cons.mp ht with rfl | ht
  · exact le_refl _
  · exact List.rel_of_pairwise_cons hcons ht

/-- A new value that is not less. -/
theorem Steady.setMnNow (hs : s.Steady) (hh : s.Headed) {u : T} (hu : s.loop.mnNow ≤ u) :
    (s.setMnNow u).Steady :=
  List.pairwise_cons.mpr ⟨fun t ht => (hs.le hh t ht).trans hu, hs⟩

end

section

omit [Neg T]

theorem mnNow_periodicsReschedule (e : Env U T) (l : Loop U T K) : (l.periodicsReschedule e).mnNow = l.mnNow := by
  obtain ⟨p, n, h⟩ := Loop.periodicsReschedule_touches e l
  rw [h]

end

theorem headed_confirm (odiff : T) (n : ℕ) (hh : s.Headed) : (confirm e h odiff n s).Headed := by
  induction n generalizing s with
  | zero => exact hh.trans (congrArg some (mnNow_periodicsReschedule ..).symm)
  | succ n ih =>
    unfold confirm
    dsimp only
    split
    · exact hh
    · exact ih (s := ((s.measure.readTime h).readClock h).floorNow) rfl

theorem headed_timeUpdate (hmono : h.haveMonotonic) (maxBlock : T) : (s.timeUpdate e h maxBlock).Headed := by
  unfold timeUpdate
  rw [if_pos hmono]
  dsimp only
  split
  · rfl
  · exact headed_confirm s.rtmnDiff 3 (s := (s.readClock h).floorNow.readTime h) rfl

section

omit [DecidableEq U] [Add T] [Sub T] [Neg T] [Zero T]

theorem Ahead.readClock (hclock : Monotone h.getClock) (ha : Ahead h s) : Ahead h (s.readClock h) where
  steady := ha.steady.setMnNow ha.head ha.next
  head := rfl
  next := hclock (Nat.le_succ _)

end

theorem Ahead.confirm (hclock : Monotone h.getClock) (odiff : T) (n : ℕ) (ha : Ahead h s) :
    Ahead h (confirm e h odiff n s) := by
  induction n generalizing s with
  | zero => exact ⟨ha.steady, headed_confirm odiff 0 ha.head, (mnNow_periodicsReschedule ..).le.trans ha.next⟩
  | succ n ih =>
    unfold Clocked.confirm
    dsimp only
    split
    · exact ⟨ha.steady, ha.head, ha.next⟩
    · have hm : Ahead h (s.measure.readTime h) := ⟨ha.steady, ha.head, ha.next⟩
      have hr := hm.readClock hclock
      exact ih ⟨hr.steady, hr.head, hr.next⟩

theorem Ahead.timeUpdate (hmono : h.haveMonotonic) (hclock : Monotone h.getClock) (maxBlock : T) (ha : Ahead h s) :
    Ahead h (s.timeUpdate e h maxBlock) := by
  have hr := ha.readClock hclock
  unfold Clocked.timeUpdate
  rw [if_pos hmono]
  dsimp only
  split
  · exact ⟨hr.steady, hr.head, hr.next⟩
  · exact Ahead.confirm hclock _ 3 ⟨hr.steady, hr.head, hr.next⟩

section

omit [Add T]

theorem past_confirm (odiff : T) (n : ℕ) (s : Clocked U T K) : s.past <:+ (confirm e h odiff n s).past := by
  induction n generalizing s with
  | zero => exact List.suffix_refl _
  | succ n ih =>
    unfold confirm
    dsimp only
    split
    · exact List.suffix_refl _
    · exact (List.suffix_cons (h.getClock s.clockReads) s.past).trans (ih ((s.measure.readTime h).readClock h).floorNow)

end

theorem past_timeUpdate (hmono : h.haveMonotonic) (maxBlock : T) :
    h.getClock s.clockReads :: s.past <:+ (s.timeUpdate e h maxBlock).past := by
  unfold timeUpdate
  rw [if_pos hmono]
  dsimp only
  split
  · exact List.suffix_refl _
  · exact past_confirm (s.rtmnDiff) 3 ((s.readClock h).floorNow.readTime h)

/-! ### Runs -/

theorem evNowSet_mono (huge : T) (hmono : h.haveMonotonic) (mono : T) :
    (s.evNowSet e h huge mono).past = (if mono > s.loop.mnNow then s.setMnNow mono else s).past ∧
      (s.evNowSet e h huge mono).loop.mnNow = (if mono > s.loop.mnNow then s.setMnNow mono else s).loop.mnNow ∧
      (s.evNowSet e h huge mono).clockReads = s.clockReads := by
  have hreads : (if mono > s.loop.mnNow then s.setMnNow mono else s).clockReads = s.clockReads := by
    split <;> rfl
  unfold evNowSet
  rw [if_pos hmono]
  dsimp only
  generalize (if mono > s.loop.mnNow then s.setMnNow mono else s) = s' at hreads ⊢
  by_cases hf : s'.loop.mnNow - s'.nowFloor < h.halfTimejump
  · rw [if_pos hf]
    exact ⟨rfl, rfl, hreads⟩
  · rw [if_neg hf]
    unfold nowSetRefresh
    dsimp only
    split
    · exact ⟨rfl, mnNow_periodicsReschedule .., hreads⟩
    · exact ⟨rfl, rfl, hreads⟩

/-- A step that does not read the clock and supplies no sample leaves `mn_now` alone. -/
theorem step_quiet (hs : step e h huge s a = some t) (hr : ¬ s.Reads a) (ha : ∀ mono, a ≠ .nowSet mono) :
    t.past = s.past ∧ t.loop.mnNow = s.loop.mnNow ∧ t.clockReads = s.clockReads := by
  cases a with
  | nowSet mono => exact absurd rfl (ha mono)
  | nowUpdate => exact absurd trivial hr
  | enter nowait =>
    have hn : nowait = true := by simpa [Reads] using hr
    simp only [step] at hs
    split at hs
    · cases hs
      subst hn
      exact ⟨rfl, rfl, rfl⟩
    · cases hs
  | leave maxBlock =>
    obtain ⟨hset, hpoll⟩ := not_not.mp hr
    simp only [step, hpoll, Option.map_some] at hs
    cases hs
    unfold postPoll
    rw [hset]
    exact ⟨rfl, rfl, rfl⟩
  | other f =>
    cases hs
    exact ⟨rfl, rfl, rfl⟩

/-- A step that reads the clock updates the time, and leaves what it came to. -/
theorem step_reads (hs : step e h huge s a = some t) (hr : s.Reads a) :
    ∃ maxBlock, t.past = (s.timeUpdate e h maxBlock).past ∧
      t.loop.mnNow = (s.timeUpdate e h maxBlock).loop.mnNow ∧
      t.clockReads = (s.timeUpdate e h maxBlock).clockReads := by
  cases a with
  | nowSet mono => exact absurd hr (by exact not_false)
  | nowUpdate =>
    cases hs
    exact ⟨huge, rfl, rfl, rfl⟩
  | enter nowait =>
    have hn : nowait = false := hr
    simp only [step] at hs
    split at hs
    · cases hs
      subst hn
      exact ⟨huge, rfl, rfl, rfl⟩
    · cases hs
  | leave maxBlock =>
    simp only [step, Option.map_eq_some_iff] at hs
    obtain ⟨nowait, hpoll, rfl⟩ := hs
    have hn : ¬ (s.nowSet && nowait) = true := by
      intro hb
      rw [Bool.and_eq_true] at hb
      exact hr ⟨hb.1, hpoll.trans (congrArg some hb.2)⟩
    refine ⟨if nowait then huge else maxBlock, ?_⟩
    unfold postPoll
    rw [if_neg hn]
    exact ⟨rfl, rfl, rfl⟩
  | other f => exact absurd hr (by exact not_false)

/-- What a run has come to when all its readings were in time: the values of `mn_now` do not go back, and the
last is a sample or is not ahead of the clock. -/
structure Kept (h : Host T) (acts : List (Act U T K)) (s : Clocked U T K) : Prop where
  steady : s.Steady
  next : s.loop.mnNow ≤ h.getClock s.clockReads ∨ .nowSet s.loop.mnNow ∈ acts

section

omit [DecidableEq U] [Add T] [Neg T] [Zero T]

theorem kept_init (hclock : Monotone h.getClock) (l : Loop U T K) : Kept h [] (init h l) where
  steady := List.pairwise_singleton ..
  next := .inl (hclock (Nat.zero_le _))

end

theorem headed_step (hmono : h.haveMonotonic) (hh : s.Headed) (hs : step e h huge s a = some t) : t.Headed := by
  unfold Headed
  by_cases hr : s.Reads a
  · obtain ⟨maxBlock, hp, hm, _⟩ := step_reads hs hr
    rw [hp, hm]
    exact headed_timeUpdate hmono maxBlock
  · by_cases hset : ∃ mono, a = .nowSet mono
    · obtain ⟨mono, rfl⟩ := hset
      cases hs
      obtain ⟨hp, hm, _⟩ := evNowSet_mono (s := s) (e := e) huge hmono mono
      rw [hp, hm]
      split
      · rfl
      · exact hh
    · obtain ⟨hp, hm, _⟩ := step_quiet hs hr fun mono he => hset ⟨mono, he⟩
      rw [hp, hm]
      exact hh

theorem Kept.step (hmono : h.haveMonotonic) (hclock : Monotone h.getClock) (hk : Kept h acts s) (hh : s.Headed)
    (ht : Timely h acts s a) (hs : step e h huge s a = some t) : Kept h (acts ++ [a]) t := by
  by_cases hr : s.Reads a
  · -- the sample that `mn_now` may be is not ahead of this reading
    have hnext : s.loop.mnNow ≤ h.getClock s.clockReads := hk.next.elim id (ht hr _)
    obtain ⟨maxBlock, hp, hm, hc⟩ := step_reads hs hr
    have ha : Ahead h (s.timeUpdate e h maxBlock) :=
      Ahead.timeUpdate hmono hclock maxBlock ⟨hk.steady, hh, hnext⟩
    refine ⟨?_, .inl ?_⟩
    · unfold Steady
      rw [hp]
      exact ha.steady
    · rw [hm, hc]
      exact ha.next
  · by_cases hset : ∃ mono, a = .nowSet mono
    · obtain ⟨mono, rfl⟩ := hset
      cases hs
      obtain ⟨hp, hm, hc⟩ := evNowSet_mono (s := s) (e := e) huge hmono mono
      by_cases hlt : mono > s.loop.mnNow
      · rw [if_pos hlt] at hp hm
        refine ⟨?_, .inr ?_⟩
        · unfold Steady
          rw [hp]
          exact hk.steady.setMnNow hh hlt.le
        · rw [hm]
          exact List.mem_append_right _ (List.mem_singleton.mpr rfl)
      · rw [if_neg hlt] at hp hm
        refine ⟨?_, ?_⟩
        · unfold Steady
          rw [hp]
          exact hk.steady
        · rw [hm, hc]
          exact hk.next.imp id (List.mem_append_left _)
    · obtain ⟨hp, hm, hc⟩ := step_quiet hs hr fun mono he => hset ⟨mono, he⟩
      refine ⟨?_, ?_⟩
      · unfold Steady
        rw [hp]
        exact hk.steady
      · rw [hm, hc]
        exact hk.next.imp id (List.mem_append_left _)

/-- Values are only added. -/
theorem past_step (hmono : h.haveMonotonic) (hs : step e h huge s a = some t) : s.past <:+ t.past := by
  by_cases hr : s.Reads a
  · obtain ⟨maxBlock, hp, _⟩ := step_reads hs hr
    rw [hp]
    exact (List.suffix_cons _ _).trans (past_timeUpdate hmono maxBlock)
  · by_cases hset : ∃ mono, a = .nowSet mono
    · obtain ⟨mono, rfl⟩ := hset
      cases hs
      rw [(evNowSet_mono (s := s) (e := e) huge hmono mono).1]
      split
      · exact List.suffix_cons _ _
      · exact List.suffix_refl _
    · rw [(step_quiet hs hr fun mono he => hset ⟨mono, he⟩).1]

theorem past_run (hmono : h.haveMonotonic) (hrun : Runs e h huge s acts t) : s.past <:+ t.past := by
  induction hrun with
  | nil _ => exact List.suffix_refl _
  | cons hs _ ih => exact (past_step hmono hs).trans ih

/-- Every sample supplied is no more than some value `mn_now` was given. -/
def Supplied (acts : List (Act U T K)) (s : Clocked U T K) : Prop :=
  ∀ mono, .nowSet mono ∈ acts → ∃ u ∈ s.past, mono ≤ u

theorem Supplied.step (hmono : h.haveMonotonic) (hsup : Supplied acts s) (hh : s.Headed)
    (hs : step e h huge s a = some t) : Supplied (acts ++ [a]) t := by
  intro mono hm
  rcases List.mem_append.mp hm with hm | hm
  · obtain ⟨u, hu, hle⟩ := hsup mono hm
    exact ⟨u, (past_step hmono hs).subset hu, hle⟩
  · have ha : a = .nowSet mono := (List.mem_singleton.mp hm).symm
    refine ⟨t.loop.mnNow, List.mem_of_mem_head? (headed_step hmono hh hs), ?_⟩
    subst ha
    cases hs
    rw [(evNowSet_mono (s := s) (e := e) huge hmono mono).2.1]
    split
    · exact le_refl _
    · rename_i hle
      exact not_lt.mp hle

theorem run_supplied (hmono : h.haveMonotonic) {l : Loop U T K} (hrun : Runs e h huge (init h l) acts s) :
    s.Headed ∧ Supplied acts s := by
  refine Lib.Run.history (I := fun acts s => s.Headed ∧ Supplied acts s) (l := []) ?_ hrun ⟨rfl, ?_⟩
  · exact fun _ _ _ _ hi hs => ⟨headed_step hmono hi.1 hs, hi.2.step hmono hi.1 hs⟩
  · exact fun _ hm => absurd hm List.not_mem_nil

/-- In a run whose values never went back, `mn_now` is not less than at any state before. -/
theorem Steady.mn_now_le (hmono : h.haveMonotonic) {l : Loop U T K} {past later : List (Act U T K)}
    (h₁ : Runs e h huge (init h l) past s) (h₂ : Runs e h huge s later t) (hs : t.Steady) :
    s.loop.mnNow ≤ t.loop.mnNow := by
  have hs' := (run_supplied hmono h₁).1
  have ht := (run_supplied hmono (h₁.append h₂)).1
  exact hs.le ht _ ((past_run hmono h₂).subset (List.mem_of_mem_head? hs'))

/-- **The loop's monotonic time never steps back** in a run exactly if the loop makes no reading of the clock in
it that is behind a sample supplied before. -/
theorem mn_now_steady (e : Env U T) (h : Host T) (huge : T) (l : Loop U T K) (hmono : h.haveMonotonic)
    (hclock : Monotone h.getClock) {acts : List (Act U T K)} {s : Clocked U T K}
    (hrun : Runs e h huge (init h l) acts s) :
    s.Steady ↔ ∀ past a later, acts = past ++ a :: later → ∀ t, Runs e h huge (init h l) past t →
      Timely h past t a := by
  refine ⟨?_, fun htimely => ?_⟩
  · rintro hs past a later rfl t ht hr mono hm
    obtain ⟨t', ht', hrest⟩ := hrun.of_append
    obtain rfl := Lib.Run.unique ht' ht
    cases hrest with
    | cons hstep hlater =>
      obtain ⟨u, hu, hle⟩ := (run_supplied hmono ht).2 mono hm
      obtain ⟨maxBlock, hp, _⟩ := step_reads hstep hr
      have hsuf : h.getClock t'.clockReads :: t'.past <:+ s.past := by
        refine (past_timeUpdate (e := e) hmono maxBlock).trans ?_
        rw [← hp]
        exact past_run hmono hlater
      exact hle.trans (List.rel_of_pairwise_cons (hs.sublist hsuf.sublist) hu)
  · have hkept : Kept h acts s := by
      refine Lib.Run.guarded (I := Kept h) (G := Timely h) ?_ (kept_init hclock l) htimely hrun
      exact fun past s a t hruns hk ht hstep => hk.step hmono hclock (run_supplied hmono hruns).1 ht hstep
    exact hkept.steady

end

/-- A sample and the readings of a pass that blocks after it. -/
theorem mn_now_steady_pass : ∃ (e : Env Unit ℤ) (h : Host ℤ) (l : Loop Unit ℤ Unit) (s t : Clocked Unit ℤ Unit),
    Runs e h 0 (init h l) [.nowSet 1, .enter false] t ∧ Runs e h 0 (init h l) [.nowSet 1, .enter false, .leave 0] s ∧
    s.past = [4, 2, 1, 0] ∧ Timely h [.nowSet 1, .enter false] t (.leave 0) := by
  let e : Env Unit ℤ := ⟨.four, fun _ _ now => now, fun _ _ now => now⟩
  let h : Host ℤ := ⟨true, fun n => 2 * n, fun _ => 0, 10, 5⟩
  let l : Loop Unit ℤ Unit := Loop.init .select true false true ()
  have hx : ((Lib.execFrom (step e h 0) (init h l) [.nowSet 1, .enter false]).bind fun t =>
      (step e h 0 t (.leave 0)).map fun s => s.past) = some [4, 2, 1, 0] := by
    decide +kernel
  obtain ⟨t, ht, hx⟩ := Option.bind_eq_some_iff.mp hx
  obtain ⟨s, hs, hp⟩ := Option.map_eq_some_iff.mp hx
  have hrun : Runs e h 0 (init h l) [.nowSet 1, .enter false] t := Lib.Run.iff_execFrom.mpr ht
  have hrun' : Runs e h 0 (init h l) [.nowSet 1, .enter false, .leave 0] s := hrun.snoc hs
  have hclock : Monotone h.getClock := fun i j hij => by
    show (2 * i : ℤ) ≤ 2 * j
    omega
  have hsteady : s.Steady := by
    unfold Steady
    rw [hp]
    decide
  exact ⟨e, h, l, s, t, hrun, hrun', hp,
    (mn_now_steady e h 0 l rfl hclock hrun').mp hsteady [.nowSet 1, .enter false] (.leave 0) [] rfl t hrun⟩

/-- A sample ahead of the clock is taken back by the next update. -/
theorem mn_now_back : ∃ (e : Env Unit ℤ) (h : Host ℤ) (l : Loop Unit ℤ Unit) (s t : Clocked Unit ℤ Unit),
    h.haveMonotonic ∧ Monotone h.getClock ∧ Runs e h 0 (init h l) [.nowSet 4] s ∧
    step e h 0 s .nowUpdate = some t ∧ t.loop.mnNow < s.loop.mnNow := by
  let e : Env Unit ℤ := ⟨.four, fun _ _ now => now, fun _ _ now => now⟩
  let h : Host ℤ := ⟨true, fun n => n, fun _ => 0, 10, 5⟩
  let l : Loop Unit ℤ Unit := Loop.init .select true false true ()
  have hx : ((Lib.execFrom (step e h 0) (init h l) [.nowSet 4]).bind fun s =>
      (step e h 0 s .nowUpdate).map fun t => (t.loop.mnNow, s.loop.mnNow)) = some (1, 4) := by
    decide +kernel
  obtain ⟨s, hs, hx⟩ := Option.bind_eq_some_iff.mp hx
  obtain ⟨t, ht, hp⟩ := Option.map_eq_some_iff.mp hx
  obtain ⟨h₁, h₂⟩ := Prod.mk.inj hp
  refine ⟨e, h, l, s, t, rfl, fun i j hij => Int.ofNat_le.mpr hij, Lib.Run.iff_execFrom.mpr hs, ht, ?_⟩
  rw [h₁, h₂]
  decide

end Clocked

end Qev
