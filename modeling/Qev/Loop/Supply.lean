/-
# A supplied clock and the calls of ev_run

`ev_now_set` sets a flag, `now_set`, by which the tail of the next `EVRUN_NOWAIT` pass reads no clock,
and which every tail clears. A call of `ev_run` that a break ends before its tail, from a
fork or prepare watcher, leaves the flag to the next call, which then reads no clock although no
reading was supplied for it (`supply_outlives`).

As long as no call returns with the flag set, every `EVRUN_NOWAIT` tail without a supply since the last
return reads the clock (`supply_for_one_pass`), whatever callbacks, breaks and nested calls there are.
-/
import Qev.Loop.Break
import Qev.Loop.Jump

namespace Qev

/-- The calls of `ev_run` under way, the loop with its clocks, and, as history, whether a reading has been supplied
since a call last returned. -/
structure Supply (U T K : Type) where
  calls : Break.State
  clocked : Clocked U T K
  fresh : Bool

namespace Supply

variable {U T K : Type} [DecidableEq U] [LinearOrder T]

inductive Act (U T K : Type)
  | evRun (flags : Break.Flags)
  | evBreak (how : Break.LoopDone)
  | ref (n : ℤ)
  /-- The innermost call comes to its next phase; `maxBlock` is what its tail has computed. -/
  | advance (maxBlock : T)
  | nowSet (mono : T)
  | nowUpdate
  /-- What callbacks do besides. -/
  | other (f : Loop U T K → Loop U T K)

section

variable [Add T] [Sub T] [Neg T] [Zero T] (e : Env U T) (h : Host T) (huge : T) (ndebug : Bool)

/-- The time updates of a phase. -/
def phaseTime (c : Clocked U T K) (f : Break.Frame) (maxBlock : T) : Clocked U T K :=
  match f.phase with
  | .reify => c.prePoll e h huge f.flags.nowait
  | .collect => c.postPoll e h huge f.flags.nowait maxBlock
  | _ => c

def step (s : Supply U T K) : Act U T K → Option (Supply U T K)
  | .evRun flags => (Break.step ndebug s.calls (.evRun flags)).map fun calls => { s with calls := calls }
  | .evBreak how => some { s with calls := s.calls.evBreak how }
  | .ref n => (Break.step ndebug s.calls (.ref n)).map fun calls => { s with calls := calls }
  | .advance maxBlock =>
    match s.calls.runs with
    | [] => none
    | f :: outer => some
      { calls := s.calls.advance ndebug f outer
        clocked := phaseTime e h huge s.clocked f maxBlock
        fresh := s.fresh && f.phase ≠ .leave }
  | .nowSet mono => some { s with clocked := s.clocked.evNowSet e h huge mono, fresh := true }
  | .nowUpdate => some { s with clocked := s.clocked.evNowUpdate e h huge }
  | .other f => some { s with clocked := s.clocked.besides f }

abbrev Runs (s : Supply U T K) (acts : List (Act U T K)) (t : Supply U T K) : Prop :=
  Lib.Run (fun s a t => step e h huge ndebug s a = some t) s acts t

/-- The innermost call is of `EVRUN_NOWAIT`, and at its tail. -/
def Tail (s : Supply U T K) : Prop := ∃ f ∈ s.calls.runs.head?, f.phase = .collect ∧ f.flags.nowait = true

/-- The innermost call is about to return. -/
def Returning (s : Supply U T K) : Prop := ∃ f ∈ s.calls.runs.head?, f.phase = .leave

/-- No call returns with a supply that no tail has taken. -/
def Taken (s : Supply U T K) : Act U T K → Prop
  | .advance _ => s.Returning → s.clocked.nowSet = false
  | _ => True

end

/-- The readings of both clocks so far. -/
def reads (s : Supply U T K) : ℕ := s.clocked.clockReads + s.clocked.timeReads

/-! ### What an update does to the flag and the readings -/

section

variable [Add T] [Sub T] [Neg T] [Zero T] {e : Env U T} {h : Host T} {huge : T} {c : Clocked U T K}

section

omit [Add T]

/-- An update leaves the flag, and reads a clock. -/
theorem confirm_flag (odiff : T) (n : ℕ) : (c.confirm e h odiff n).nowSet = c.nowSet ∧
    c.clockReads + c.timeReads ≤ (c.confirm e h odiff n).clockReads + (c.confirm e h odiff n).timeReads := by
  induction n generalizing c with
  | zero => exact ⟨rfl, le_refl _⟩
  | succ n ih =>
    unfold Clocked.confirm
    dsimp only
    split
    · exact ⟨rfl, le_refl _⟩
    · obtain ⟨hset, hle⟩ := ih (c := ((c.measure.readTime h).readClock h).floorNow)
      refine ⟨hset, le_trans ?_ hle⟩
      show c.clockReads + c.timeReads ≤ c.clockReads + 1 + (c.timeReads + 1)
      omega

end

theorem timeUpdate_flag (maxBlock : T) : (c.timeUpdate e h maxBlock).nowSet = c.nowSet ∧
    c.clockReads + c.timeReads < (c.timeUpdate e h maxBlock).clockReads + (c.timeUpdate e h maxBlock).timeReads := by
  unfold Clocked.timeUpdate
  by_cases hmono : h.haveMonotonic
  · rw [if_pos hmono]
    dsimp only
    split
    · refine ⟨rfl, ?_⟩
      show c.clockReads + c.timeReads < c.clockReads + 1 + c.timeReads
      omega
    · obtain ⟨hset, hle⟩ := confirm_flag (e := e) (h := h) (c := (c.readClock h).floorNow.readTime h) c.rtmnDiff 3
      refine ⟨hset, lt_of_lt_of_le ?_ hle⟩
      show c.clockReads + c.timeReads < c.clockReads + 1 + (c.timeReads + 1)
      omega
  · rw [if_neg hmono]
    unfold Clocked.wallUpdate
    dsimp only
    split
    · refine ⟨rfl, ?_⟩
      show c.clockReads + c.timeReads < c.clockReads + (c.timeReads + 1)
      omega
    · refine ⟨rfl, ?_⟩
      show c.clockReads + c.timeReads < c.clockReads + (c.timeReads + 1)
      omega

/-- A phase does not set the flag, and a tail clears it. -/
theorem phaseTime_flag (f : Break.Frame) (maxBlock : T) (hset : (phaseTime e h huge c f maxBlock).nowSet = true) :
    c.nowSet = true := by
  unfold phaseTime at hset
  split at hset
  · unfold Clocked.prePoll at hset
    split at hset
    · exact hset
    · rwa [(timeUpdate_flag huge).1] at hset
  · cases hset
  · exact hset

/-! ### One pass -/

variable {ndebug : Bool} {s t u : Supply U T K} {a : Act U T K} {acts : List (Act U T K)}

/-- The flag is set only by a supply since the last return. -/
theorem fresh_step (hf : s.clocked.nowSet = true → s.fresh = true) (ht : s.Taken a)
    (hs : step e h huge ndebug s a = some t) : t.clocked.nowSet = true → t.fresh = true := by
  cases a with
  | evRun flags =>
    simp only [step, Option.map_eq_some_iff] at hs
    obtain ⟨calls, -, rfl⟩ := hs
    exact hf
  | evBreak how =>
    cases hs
    exact hf
  | ref n =>
    simp only [step, Option.map_eq_some_iff] at hs
    obtain ⟨calls, -, rfl⟩ := hs
    exact hf
  | advance maxBlock =>
    intro hset
    cases hruns : s.calls.runs with
    | nil =>
      simp only [step, hruns] at hs
      cases hs
    | cons f outer =>
      simp only [step, hruns] at hs
      cases hs
      have hold := phaseTime_flag f maxBlock hset
      have hphase : f.phase ≠ .leave := by
        intro hleave
        have hclear : s.clocked.nowSet = false := ht ⟨f, by simp [hruns], hleave⟩
        rw [hclear] at hold
        cases hold
      simp [hf hold, hphase]
  | nowSet mono =>
    cases hs
    exact fun _ => rfl
  | nowUpdate =>
    cases hs
    intro hset
    exact hf ((timeUpdate_flag huge).1.symm.trans hset)
  | other f =>
    cases hs
    exact hf

/-- A tail that finds the flag clear reads a clock. -/
theorem tail_reads {maxBlock : T} (htail : s.Tail) (hset : s.clocked.nowSet = false)
    (hs : step e h huge ndebug s (.advance maxBlock) = some t) : s.reads < t.reads := by
  obtain ⟨f, hf, hphase, hnowait⟩ := htail
  cases hruns : s.calls.runs with
  | nil =>
    rw [hruns] at hf
    cases hf
  | cons g outer =>
    rw [hruns] at hf
    obtain rfl : g = f := by simpa using hf
    simp only [step, hruns] at hs
    cases hs
    unfold reads phaseTime Clocked.postPoll
    rw [hphase, hnowait, hset]
    exact (timeUpdate_flag huge).2

/-- **A supplied clock stands for one pass.** In a run in which no call of `ev_run` returns with a supply that no
tail has taken, every `EVRUN_NOWAIT` tail reads a clock itself unless a reading has been supplied since a
call last returned. -/
theorem supply_for_one_pass {s₀ : Supply U T K} (h₀ : s₀.clocked.nowSet = false)
    (htaken : ∀ past a later, acts = past ++ a :: later → ∀ u, Runs e h huge ndebug s₀ past u → u.Taken a)
    (hrun : Runs e h huge ndebug s₀ acts s) {maxBlock : T} (htail : s.Tail) (hfresh : s.fresh = false)
    (hs : step e h huge ndebug s (.advance maxBlock) = some t) : s.reads < t.reads := by
  have hinv : s.clocked.nowSet = true → s.fresh = true := by
    refine Lib.Run.guarded (I := fun _ u => u.clocked.nowSet = true → u.fresh = true) (G := fun _ u a => u.Taken a)
      ?_ ?_ htaken hrun
    · exact fun past u a v _ hu hg hstep => fresh_step hu hg hstep
    · intro hset
      rw [h₀] at hset
      cases hset
  refine tail_reads htail ?_ hs
  by_contra hset
  rw [hinv (by simpa using hset)] at hfresh
  cases hfresh

end

/-! ### Two runs -/

/-- The build and its clocks, and a loop with nothing in it. -/
def quietHost : Host ℤ := ⟨true, fun n => n, fun n => n, 100, 50⟩

def quiet : Supply Unit ℤ Unit :=
  ⟨Break.initial, Clocked.init quietHost (Loop.init .select true false true ()), false⟩

/-- A pass for which a reading is supplied, up to its return, and the next up to its tail. -/
def twoPasses : List (Act Unit ℤ Unit) :=
  [.nowSet 5, .evRun ⟨false, true⟩] ++ List.replicate 8 (.advance 0) ++ [.evRun ⟨false, true⟩] ++
    List.replicate 5 (.advance 0)

/-- A pass for which a reading is supplied and which a prepare watcher breaks, and the next up to its tail. -/
def brokenPass : List (Act Unit ℤ Unit) :=
  [.nowSet 5, .evRun ⟨false, true⟩] ++ List.replicate 2 (.advance 0) ++ [.evBreak .one] ++
    List.replicate 2 (.advance 0) ++ [.evRun ⟨false, true⟩] ++ List.replicate 5 (.advance 0)

instance (s : Supply U T K) : Decidable s.Tail := by
  unfold Tail
  infer_instance

instance (s : Supply U T K) : Decidable s.Returning := by
  unfold Returning
  infer_instance

/-- What `Taken` says, evaluated. -/
def taken (s : Supply U T K) : Act U T K → Bool
  | .advance _ => decide (s.Returning → s.clocked.nowSet = false)
  | _ => true

section

omit [DecidableEq U] [LinearOrder T]

theorem taken_iff (s : Supply U T K) (a : Act U T K) : s.taken a = true ↔ s.Taken a := by
  cases a <;> simp only [taken, Taken, decide_eq_true_eq]

end

/-- What the tail of a pass reads of the clocks, at the end of a run. -/
def tailReads (acts : List (Act Unit ℤ Unit)) : Option (Bool × Bool × Bool × ℕ × ℕ) :=
  (Lib.execFrom (step Clocked.plain quietHost 1000 false) quiet acts).bind fun s =>
    (step Clocked.plain quietHost 1000 false s (.advance 0)).map fun t =>
      (s.Tail, s.fresh, s.clocked.nowSet, s.reads, t.reads)

theorem of_tailReads {acts : List (Act Unit ℤ Unit)} {tail fresh set : Bool} {before after : ℕ}
    (hx : tailReads acts = some (tail, fresh, set, before, after)) :
    ∃ s t, Runs Clocked.plain quietHost 1000 false quiet acts s ∧
      step Clocked.plain quietHost 1000 false s (.advance 0) = some t ∧
      decide s.Tail = tail ∧ s.fresh = fresh ∧ s.clocked.nowSet = set ∧ s.reads = before ∧ t.reads = after := by
  obtain ⟨s, hs, hx⟩ := Option.bind_eq_some_iff.mp hx
  obtain ⟨t, ht, hx⟩ := Option.map_eq_some_iff.mp hx
  simp only [Prod.mk.injEq] at hx
  exact ⟨s, t, Lib.Run.iff_execFrom.mpr hs, ht, hx⟩

theorem supply_for_one_pass_twice : ∃ s t : Supply Unit ℤ Unit,
    Runs Clocked.plain quietHost 1000 false quiet twoPasses s ∧
    step Clocked.plain quietHost 1000 false s (.advance 0) = some t ∧ s.reads < t.reads := by
  obtain ⟨s, t, hrun, hstep, htail, hfresh, -⟩ :=
    of_tailReads (by decide +kernel : tailReads twoPasses = some (true, false, false, 2, 3))
  have hchecks : Lib.checks (step Clocked.plain quietHost 1000 false) taken quiet twoPasses = true := by
    decide +kernel
  have htaken := fun past a later hl u hu => (taken_iff u a).mp (Lib.Run.of_checks hchecks past a later hl u hu)
  exact ⟨s, t, hrun, hstep, supply_for_one_pass (by decide +kernel) htaken hrun (by simpa using htail) hfresh hstep⟩

/-- A prepare watcher breaks the pass that a reading was supplied for: the next pass reads no clock either, and
nothing has been supplied for it. -/
theorem supply_outlives : ∃ s t : Supply Unit ℤ Unit,
    Runs Clocked.plain quietHost 1000 false quiet brokenPass s ∧ s.Tail ∧ s.fresh = false ∧
    step Clocked.plain quietHost 1000 false s (.advance 0) = some t ∧ t.reads = s.reads := by
  obtain ⟨s, t, hrun, hstep, htail, hfresh, -, hbefore, hafter⟩ :=
    of_tailReads (by decide +kernel : tailReads brokenPass = some (true, false, true, 2, 2))
  exact ⟨s, t, hrun, by simpa using htail, hfresh, hstep, hafter.trans hbefore.symm⟩

end Supply

end Qev
