/-
# The offset time_update leaves

`rtmn_diff` is what the passes to come derive the wall clock by, `ev_rt_now - mn_now` as last measured.
`time_update` measures it after each reading of both clocks but the last: when three offsets in a row
have moved too far, the loop falls through with a fourth pair of times and the offset of the third.
`ev_now_set` measures after its only reading (`synced_evNowSet`).

So the offset is the one of the times the loop is left with exactly if no jump is found, or the fourth
pair is as far apart as the third (`offset_kept`).
-/
import Qev.Loop.Next

namespace Qev

namespace Clocked

variable {U T K : Type} [DecidableEq U] [LinearOrder T]

section

variable [Add T] [Sub T] [Neg T] [Zero T] (h : Host T) (s : Clocked U T K)

/-- How far the wall clock is ahead of the monotonic clock, by the `i`th reading of each from here. -/
def offsetRead (i : ℕ) : T := h.evTime (s.timeReads + i) - h.getClock (s.clockReads + i)

/-- The clock was not read for long, and then three times in a row shows an offset that has moved too far. -/
def JumpRead : Prop :=
  ¬ h.getClock s.clockReads - s.nowFloor < h.halfTimejump ∧
    ∀ i < 3, ¬ absMoved (s.rtmnDiff - s.offsetRead h i) < h.minTimejump

instance : Decidable (s.JumpRead h) := inferInstanceAs (Decidable (_ ∧ _))

/-- Both times are the `i`th readings of `s`, and the next ones will be read next. -/
structure Latest (i : ℕ) (t : Clocked U T K) : Prop where
  mnNow : t.loop.mnNow = h.getClock (s.clockReads + i)
  evRtNow : t.loop.evRtNow = h.evTime (s.timeReads + i)
  clockReads : t.clockReads = s.clockReads + i + 1
  timeReads : t.timeReads = s.timeReads + i + 1

end

section

variable [AddCommGroup T] [IsOrderedAddMonoid T] {e : Env U T} {h : Host T} {s t : Clocked U T K} {i : ℕ}

section

omit [DecidableEq U] [LinearOrder T] [IsOrderedAddMonoid T]

theorem Latest.measure (hl : Latest h s i t) : t.measure.rtmnDiff = s.offsetRead h i := by
  show t.loop.evRtNow - t.loop.mnNow = _
  rw [hl.evRtNow, hl.mnNow]
  rfl

/-- Both clocks are read again. -/
theorem Latest.again (hl : Latest h s i t) : Latest h s (i + 1) ((t.measure.readTime h).readClock h).floorNow where
  mnNow := congrArg h.getClock hl.clockReads
  evRtNow := congrArg h.evTime hl.timeReads
  clockReads := congrArg (· + 1) hl.clockReads
  timeReads := congrArg (· + 1) hl.timeReads

end

section

omit [DecidableEq U] [IsOrderedAddMonoid T]

theorem outlasts_iff {odiff : T} (n : ℕ) (hl : Latest h s i t) : Outlasts h odiff n t ↔
    ∀ j < n, ¬ absMoved (odiff - s.offsetRead h (i + j)) < h.minTimejump := by
  induction n generalizing i t with
  | zero => exact iff_of_true trivial fun j hj => absurd hj (Nat.not_lt_zero j)
  | succ n ih =>
    unfold Outlasts
    rw [hl.measure, ih hl.again]
    constructor
    · rintro ⟨h0, hall⟩ j hj
      cases j with
      | zero => exact h0
      | succ j =>
        have hmoved := hall j (Nat.lt_of_succ_lt_succ hj)
        rwa [Nat.add_assoc, Nat.add_comm 1 j] at hmoved
    · refine fun hall => ⟨hall 0 (Nat.succ_pos n), fun j hj => ?_⟩
      rw [Nat.add_assoc, Nat.add_comm 1 j]
      exact hall (j + 1) (Nat.succ_lt_succ hj)

end

section

omit [IsOrderedAddMonoid T]

/-- Once the rounds have run out, the offset is of the readings before the last. -/
theorem confirm_outlasted {odiff : T} (n : ℕ) (hl : Latest h s i t) (ho : Outlasts h odiff (n + 1) t) :
    (confirm e h odiff (n + 1) t).rtmnDiff = s.offsetRead h (i + n) ∧
      (confirm e h odiff (n + 1) t).loop.evRtNow - (confirm e h odiff (n + 1) t).loop.mnNow =
        s.offsetRead h (i + n + 1) := by
  induction n generalizing i t with
  | zero =>
    have hread := hl.again
    unfold confirm
    dsimp only
    rw [if_neg ho.1]
    generalize hu : ((t.measure.readTime h).readClock h).floorNow = u at hread
    have hdiff : u.rtmnDiff = s.offsetRead h i := by
      rw [← hu]
      exact hl.measure
    obtain ⟨p, c, heq⟩ := u.loop.periodicsReschedule_touches e
    refine ⟨hdiff, ?_⟩
    show (u.loop.periodicsReschedule e).evRtNow - (u.loop.periodicsReschedule e).mnNow = _
    rw [heq, hread.evRtNow, hread.mnNow]
    rfl
  | succ n ih =>
    unfold confirm
    dsimp only
    rw [if_neg ho.1]
    obtain ⟨hdiff, hlast⟩ := ih hl.again ho.2
    have hi : i + 1 + n = i + (n + 1) := Nat.add_right_comm i 1 n
    rw [hi] at hdiff hlast
    exact ⟨hdiff, hlast⟩

end

section

omit [DecidableEq U] [LinearOrder T] [AddCommGroup T] [IsOrderedAddMonoid T]

theorem latest_first (s : Clocked U T K) : Latest h s 0 ((s.readClock h).floorNow.readTime h) := ⟨rfl, rfl, rfl, rfl⟩

end

section

omit [DecidableEq U] [IsOrderedAddMonoid T]

theorem jumps_iff : s.Jumps h ↔ s.JumpRead h := by
  unfold Jumps JumpRead
  rw [outlasts_iff 3 (latest_first s)]
  simp only [Nat.zero_add]
  rfl

end

section

omit [IsOrderedAddMonoid T]

/-- **time_update keeps the offset** of the times it leaves, whatever the clocks read, exactly if it finds no jump
or the fourth pair of readings is as far apart as the third. -/
theorem offset_kept (hmono : h.haveMonotonic) (maxBlock : T) :
    (s.timeUpdate e h maxBlock).rtmnDiff =
        (s.timeUpdate e h maxBlock).loop.evRtNow - (s.timeUpdate e h maxBlock).loop.mnNow ↔
      ¬ s.JumpRead h ∨ s.offsetRead h 3 = s.offsetRead h 2 := by
  by_cases hj : s.JumpRead h
  · have ho := (jumps_iff.mpr hj).2
    have htu : s.timeUpdate e h maxBlock = confirm e h s.rtmnDiff 3 ((s.readClock h).floorNow.readTime h) := by
      unfold timeUpdate
      rw [if_pos hmono]
      dsimp only
      rw [if_neg (by exact hj.1)]
    obtain ⟨hdiff, hlast⟩ := confirm_outlasted (e := e) 2 (latest_first s) ho
    rw [htu, hdiff, hlast, or_iff_right (not_not.mpr hj)]
    exact eq_comm
  · have hsync : (s.timeUpdate e h maxBlock).Synced := synced_timeUpdate hmono (fun hc => hj (jumps_iff.mp hc)) maxBlock
    exact iff_of_true (eq_sub_of_add_eq hsync.symm) (.inl hj)

end

end

/-! ### Two updates -/

/-- The monotonic clock stands at 1000, and the wall clock is at 1500 and goes by so much from one reading to the
next. -/
def racing (step : ℤ) : Host ℤ := ⟨true, fun _ => 1000, fun n => 1500 + step * n, 100, 50⟩

/-- A loop that has not read its clocks for long, when they agreed. -/
def stale : Clocked Unit ℤ Unit := { toGo 5 with nowFloor := 0 }

/-- The wall clock has jumped by 500 and stands still. -/
theorem offset_kept_still : (stale.timeUpdate plain (racing 0) 0).rtmnDiff =
    (stale.timeUpdate plain (racing 0) 0).loop.evRtNow - (stale.timeUpdate plain (racing 0) 0).loop.mnNow :=
  (offset_kept rfl 0).mpr (.inr (by decide +kernel))

/-- The wall clock goes by 500 from one reading to the next: the offset is 1500, and the times are 2000 apart. -/
theorem offset_lost : (stale.timeUpdate plain (racing 500) 0).rtmnDiff = 1500 ∧
    (stale.timeUpdate plain (racing 500) 0).loop.evRtNow - (stale.timeUpdate plain (racing 500) 0).loop.mnNow = 2000 := by
  decide +kernel

end Clocked

end Qev
