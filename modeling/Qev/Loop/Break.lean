/-
# ev_break and the nested calls of ev_run

`loop_done` is what `ev_break` asks for, and the loop has one of it, however many calls of
`ev_run` are nested in one another: a call clears it when it is entered, each of its passes
looks at it twice, and a call that returns leaves all but `EVBREAK_ONE` to the call around it.
With assertions it is the guard against recursion too, and is overwritten before the poll and
after it.

`EVBREAK_ONE` ends the innermost call and `EVBREAK_ALL` all of them, none of which begins
another pass (`break_ends`), until `ev_break` or `ev_run` is called again. What is asked
between the two assertions' last effects is not heard (`break_unheard`).
-/
import Qev.Lib.Run

namespace Qev

open Lib

namespace Break

/-- `loop_done`. -/
inductive LoopDone
  | cancel
  | one
  | all
  | recurse
  deriving DecidableEq, Repr

/-- Where a call of `ev_run` stands, the callbacks it calls there included. -/
inductive Phase
  /-- The `EV_INVOKE_PENDING` before the first pass. -/
  | entry
  | fork
  | prepare
  /-- `loop_fork`, `fd_reify`, the first `time_update` and `ev_sleep`. -/
  | reify
  /-- `backend_poll`, from the release to the acquire callback and around them. -/
  | poll
  /-- The second `time_update`, `timers_reify` to the check watchers. -/
  | collect
  | invoke
  /-- Out of the loop, about to return. -/
  | leave
  deriving DecidableEq, Repr

structure Flags where
  once : Bool
  nowait : Bool
  deriving DecidableEq, Repr

/-- A call of `ev_run` under way. `passes` is history: the passes it has begun after its first. -/
structure Frame where
  flags : Flags
  phase : Phase
  passes : ℕ
  deriving DecidableEq, Repr

/-- The calls under way, the innermost first; their number is `loop_depth`. -/
structure State where
  loopDone : LoopDone
  activecnt : ℤ
  runs : List Frame
  deriving DecidableEq, Repr

def initial : State := ⟨.cancel, 0, []⟩

inductive Act
  | evRun (flags : Flags)
  | evBreak (how : LoopDone)
  /-- `ev_ref`, `ev_unref`, and the watchers started and stopped. -/
  | ref (n : ℤ)
  /-- The innermost call comes to its next phase. -/
  | advance
  deriving DecidableEq, Repr

variable (ndebug : Bool)

/-- The call's next phase and `loop_done` then, of a loop with so many references; no phase if the call returns. -/
def Frame.next (activecnt : ℤ) (done : LoopDone) (f : Frame) : Option Frame × LoopDone :=
  match f.phase with
  | .entry => (some { f with phase := .fork }, done)
  | .fork => (some { f with phase := .prepare }, done)
  | .prepare => (some { f with phase := if done ≠ .cancel then .leave else .reify }, done)
  -- the first assertion
  | .reify => (some { f with phase := .poll }, if ndebug then done else .recurse)
  -- the second
  | .poll => (some { f with phase := .collect }, if ndebug then done else .cancel)
  | .collect => (some { f with phase := .invoke }, done)
  | .invoke =>
    if activecnt ≠ 0 ∧ done = .cancel ∧ ¬ (f.flags.once ∨ f.flags.nowait) then
      (some { f with phase := .fork, passes := f.passes + 1 }, done)
    else (some { f with phase := .leave }, done)
  | .leave => (none, if done = .one then .cancel else done)

namespace State

variable (s : State)

def evBreak (how : LoopDone) : State := { s with loopDone := how }

def evRun (flags : Flags) : State := { s with loopDone := .cancel, runs := ⟨flags, .entry, 0⟩ :: s.runs }

/-- With the calls around the innermost as they are. -/
def advance (f : Frame) (outer : List Frame) : State :=
  let r := f.next ndebug s.activecnt s.loopDone
  { s with loopDone := r.2, runs := r.1.toList ++ outer }

end State

/-- One action. With assertions, a call of `ev_run` that finds the guard set does not go on. -/
def step (s : State) : Act → Option State
  | .evRun flags => if ndebug = false ∧ s.loopDone = .recurse then none else some (s.evRun flags)
  | .evBreak how => some (s.evBreak how)
  | .ref n => some { s with activecnt := s.activecnt + n }
  | .advance =>
    match s.runs with
    | [] => none
    | f :: outer => some (s.advance ndebug f outer)

/-! ### What a break asks for -/

/-- Neither `ev_break` nor `ev_run`: the break state stands. -/
def Act.Quiet : Act → Prop
  | .evRun _ => False
  | .evBreak _ => False
  | .ref _ => True
  | .advance => True

/-- The calls that `ev_break` asks to return, of those under way. -/
def asked : LoopDone → List Frame → List Frame
  | .one, runs => runs.take 1
  | .all, runs => runs
  | _, _ => []

/-- The phases a call in this one has before it, when it is to begin no other pass. -/
def Phase.left : Phase → ℕ
  | .entry => 4
  | .fork => 3
  | .prepare => 2
  | .reify => 5
  | .poll => 4
  | .collect => 3
  | .invoke => 2
  | .leave => 1

def left (runs : List Frame) : ℕ := (runs.map (·.phase.left)).sum

/-- In a build with assertions, `loop_done` is about to be overwritten. -/
def Frame.Guarded (f : Frame) : Prop := ndebug = false ∧ (f.phase = .reify ∨ f.phase = .poll)

def advances (acts : List Act) : ℕ := acts.count .advance

/-- Some of these calls, the innermost first, have returned and the next, in whichever phase, has begun no other
pass. -/
structure Ending (runs outer : List Frame) (acts : List Act) (t : State) : Prop where
  ending : ∃ gone f later f', runs = gone ++ f :: later ∧ t.runs = f' :: (later ++ outer) ∧
    f'.passes = f.passes ∧ f'.phase.left + advances acts = left gone + f.phase.left

/-- All of them have, at a state of the run in which the calls around them are as they were. -/
structure Ended (how : LoopDone) (runs outer : List Frame) (s : State) (acts : List Act) (t : State) : Prop where
  ended : ∃ past later u, acts = past ++ later ∧ Run (fun s a t => step ndebug s a = some t) s past u ∧
    Run (fun s a t => step ndebug s a = some t) u later t ∧ u.runs = outer ∧
    u.loopDone = (if how = .one then .cancel else how) ∧ advances past = left runs

section

variable {ndebug : Bool} {s t : State} {f f' : Frame} {how : LoopDone} {runs outer : List Frame} {acts : List Act}

theorem left_cons (f : Frame) (runs : List Frame) : left (f :: runs) = f.phase.left + left runs := by
  simp [left]

theorem phase_left_pos (p : Phase) : 0 < p.left := by
  cases p <;> simp [Phase.left]

/-- A call that finds a break asked for goes on to its end. -/
theorem next_broken (n : ℤ) (hhow : how = .one ∨ how = .all) (hg : ¬ f.Guarded ndebug) :
    (∃ f', f.next ndebug n how = (some f', how) ∧ f'.passes = f.passes ∧ f'.phase.left + 1 = f.phase.left ∧
      ¬ f'.Guarded ndebug) ∨
    f.phase = .leave ∧ f.next ndebug n how = (none, if how = .one then .cancel else how) := by
  obtain ⟨flags, phase, passes⟩ := f
  have hne : how ≠ .cancel := by rcases hhow with rfl | rfl <;> simp
  cases phase with
  | entry => exact .inl ⟨_, rfl, rfl, rfl, by simp [Frame.Guarded]⟩
  | fork => exact .inl ⟨_, rfl, rfl, rfl, by simp [Frame.Guarded]⟩
  | prepare =>
    refine .inl ⟨⟨flags, .leave, passes⟩, ?_, rfl, rfl, by simp [Frame.Guarded]⟩
    simp [Frame.next, hne]
  | reify =>
    have hnd : ndebug = true := by simpa [Frame.Guarded] using hg
    exact .inl ⟨⟨flags, .poll, passes⟩, by simp [Frame.next, hnd], rfl, rfl, by simp [Frame.Guarded, hnd]⟩
  | poll =>
    have hnd : ndebug = true := by simpa [Frame.Guarded] using hg
    exact .inl ⟨⟨flags, .collect, passes⟩, by simp [Frame.next, hnd], rfl, rfl, by simp [Frame.Guarded]⟩
  | collect => exact .inl ⟨_, rfl, rfl, rfl, by simp [Frame.Guarded]⟩
  | invoke =>
    refine .inl ⟨⟨flags, .leave, passes⟩, ?_, rfl, rfl, by simp [Frame.Guarded]⟩
    simp [Frame.next, hne]
  | leave => exact .inr ⟨rfl, rfl⟩

/-- A call that goes on is as far as it was, less the phase it came through. -/
theorem Ending.advanced (hp : f'.passes = f.passes) (hl : f'.phase.left + 1 = f.phase.left)
    (h : Ending (f' :: runs) outer acts t) : Ending (f :: runs) outer (.advance :: acts) t := by
  obtain ⟨gone, g, later, g', hruns, ht, hpass, hleft⟩ := h.ending
  have hcount : advances (.advance :: acts) = advances acts + 1 := by simp [advances]
  cases gone with
  | nil =>
    simp only [List.nil_append, List.cons.injEq] at hruns
    obtain ⟨rfl, rfl⟩ := hruns
    refine ⟨[], f, runs, g', rfl, ht, hpass.trans hp, ?_⟩
    simp only [left, List.map_nil, List.sum_nil] at hleft ⊢
    omega
  | cons g₀ gone =>
    simp only [List.cons_append, List.cons.injEq] at hruns
    obtain ⟨rfl, rfl⟩ := hruns
    refine ⟨f :: gone, g, later, g', rfl, ht, hpass, ?_⟩
    rw [left_cons] at hleft ⊢
    omega

/-- A call that returns is one of those gone. -/
theorem Ending.returned (hf : f.phase = .leave) (h : Ending runs outer acts t) :
    Ending (f :: runs) outer (.advance :: acts) t := by
  obtain ⟨gone, g, later, g', rfl, ht, hpass, hleft⟩ := h.ending
  refine ⟨f :: gone, g, later, g', rfl, ht, hpass, ?_⟩
  have hcount : advances (.advance :: acts) = advances acts + 1 := by simp [advances]
  have hone : f.phase.left = 1 := by rw [hf, Phase.left]
  rw [left_cons]
  omega

theorem Ended.cons {runs' : List Frame} {s₁ : State} {a : Act} (hs : step ndebug s a = some s₁)
    (hl : left runs' + advances [a] = left runs) (h : Ended ndebug how runs' outer s₁ acts t) :
    Ended ndebug how runs outer s (a :: acts) t := by
  obtain ⟨past, later, u, rfl, hpast, hlater, hruns, hdone, hcount⟩ := h.ended
  refine ⟨a :: past, later, u, rfl, .cons hs hpast, hlater, hruns, hdone, ?_⟩
  rw [← hl, ← hcount, advances, advances, advances, ← List.singleton_append, List.count_append, Nat.add_comm]

/-- While a break is asked for, the calls it asks to return do so in turn. -/
theorem ends (hhow : how = .one ∨ how = .all) (hrun : Run (fun s a t => step ndebug s a = some t) s acts t)
    (hq : ∀ a ∈ acts, a.Quiet) (hdone : s.loopDone = how) (hs : s.runs = f :: (runs ++ outer))
    (hone : how = .one → runs = []) (hg : ∀ g ∈ f :: runs, ¬ g.Guarded ndebug) :
    Ending (f :: runs) outer acts t ∨ Ended ndebug how (f :: runs) outer s acts t := by
  induction hrun generalizing f runs with
  | nil s => exact .inl ⟨[], f, runs, f, rfl, hs, rfl, by simp [advances, left]⟩
  | @cons s s₁ t a acts hstep hrun ih =>
    have hq' : ∀ a ∈ acts, a.Quiet := fun b hb => hq b (List.mem_cons_of_mem a hb)
    cases a with
    | evRun flags => exact (hq (.evRun flags) List.mem_cons_self).elim
    | evBreak how' => exact (hq (.evBreak how') List.mem_cons_self).elim
    | ref n =>
      cases hstep
      rcases ih hq' hdone hs hone hg with h | h
      · exact .inl ⟨h.ending⟩
      · exact .inr (h.cons rfl rfl)
    | advance =>
      have hs₁ : s₁ = s.advance ndebug f (runs ++ outer) := by
        simp only [step, hs] at hstep
        exact (Option.some.inj hstep).symm
      rcases next_broken (n := s.activecnt) hhow (hg f List.mem_cons_self) with ⟨f', hn, hp, hl, hgf⟩ | ⟨hf, hn⟩
      · -- the innermost call goes on
        have hruns₁ : s₁.runs = f' :: (runs ++ outer) := by
          rw [hs₁, State.advance, hdone, hn]
          rfl
        have hdone₁ : s₁.loopDone = how := by rw [hs₁, State.advance, hdone, hn]
        have hg' : ∀ g ∈ f' :: runs, ¬ g.Guarded ndebug := by
          intro g hgm
          rcases List.mem_cons.mp hgm with rfl | hgm
          · exact hgf
          · exact hg g (List.mem_cons_of_mem f hgm)
        rcases ih hq' hdone₁ hruns₁ hone hg' with h | h
        · exact .inl (h.advanced hp hl)
        · refine .inr (h.cons hstep ?_)
          rw [left_cons, left_cons, ← hl]
          simp [advances]
          omega
      · -- it returns, to the next of them or to the call around them all
        have hruns₁ : s₁.runs = runs ++ outer := by
          rw [hs₁, State.advance, hdone, hn]
          rfl
        have hdone₁ : s₁.loopDone = if how = .one then .cancel else how := by rw [hs₁, State.advance, hdone, hn]
        have hleave : f.phase.left = 1 := by rw [hf, Phase.left]
        cases runs with
        | nil =>
          refine .inr ⟨[.advance], acts, s₁, rfl, .single hstep, hrun, hruns₁, hdone₁, ?_⟩
          rw [left_cons, hleave]
          rfl
        | cons g runs =>
          have hall : how = .all := hhow.resolve_left fun he => by cases hone he
          have hdone₁ : s₁.loopDone = how := by rw [hdone₁, hall, if_neg (by decide)]
          have hg' : ∀ k ∈ g :: runs, ¬ k.Guarded ndebug := fun k hk => hg k (List.mem_cons_of_mem f hk)
          rcases ih hq' hdone₁ hruns₁ (fun he => by rw [hall] at he; cases he) hg' with h | h
          · exact .inl (h.returned hf)
          · refine .inr (h.cons hstep ?_)
            rw [left_cons f, hleave, Nat.add_comm]
            rfl

/-- A break is asked for and heeded: what is left of the run so far decides how far the calls are. -/
theorem asked_ends (hhow : how = .one ∨ how = .all) (hs : s.runs = f :: outer)
    (hg : ∀ g ∈ asked how s.runs, ¬ g.Guarded ndebug) (hq : ∀ a ∈ acts, a.Quiet)
    (hrun : Run (fun s a t => step ndebug s a = some t) (s.evBreak how) acts t) :
    Ending (asked how s.runs) (s.runs.drop (asked how s.runs).length) acts t ∨
      Ended ndebug how (asked how s.runs) (s.runs.drop (asked how s.runs).length) (s.evBreak how) acts t := by
  rcases hhow with rfl | rfl
  · have hasked : asked .one s.runs = [f] := by rw [hs]; rfl
    rw [hasked] at hg ⊢
    have hdrop : s.runs.drop [f].length = outer := by rw [hs]; rfl
    rw [hdrop]
    exact ends (.inl rfl) hrun hq rfl hs (fun _ => rfl) hg
  · have hasked : asked .all s.runs = f :: outer := by rw [hs]; rfl
    rw [hasked] at hg ⊢
    have hdrop : s.runs.drop (f :: outer).length = [] := by rw [hs, List.drop_length]
    rw [hdrop]
    refine ends (.inr rfl) hrun hq rfl ?_ (fun he => by cases he) hg
    rw [List.append_nil]
    exact hs

/-- As far as they are, in as many steps of theirs. -/
theorem Ending.lt (h : Ending runs outer acts t) : advances acts < left runs ∧ t.runs ≠ [] := by
  obtain ⟨gone, f, later, f', rfl, ht, -, hleft⟩ := h.ending
  have hpos := phase_left_pos f'.phase
  have hsum : left (gone ++ f :: later) = left gone + (f.phase.left + left later) := by
    simp [left]
  exact ⟨by omega, by rw [ht]; exact List.cons_ne_nil _ _⟩

theorem advances_replicate (n : ℕ) : advances (List.replicate n .advance) = n := List.count_replicate_self ..

/-- The calls under way can return. -/
theorem asked_return (hhow : how = .one ∨ how = .all) (hs : s.runs = f :: outer)
    (hg : ∀ g ∈ asked how s.runs, ¬ g.Guarded ndebug) :
    ∃ u, Run (fun s a t => step ndebug s a = some t) (s.evBreak how)
        (List.replicate (left (asked how s.runs)) .advance) u ∧
      u.runs = s.runs.drop (asked how s.runs).length := by
  have hquiet : ∀ n : ℕ, ∀ a ∈ List.replicate n Act.advance, a.Quiet := by
    intro n a ha
    rw [List.eq_of_mem_replicate ha]
    trivial
  have hsome : ∀ n ≤ left (asked how s.runs), ∃ u, Run (fun s a t => step ndebug s a = some t) (s.evBreak how)
      (List.replicate n .advance) u := by
    intro n
    induction n with
    | zero => exact fun _ => ⟨_, .nil _⟩
    | succ n ih =>
      intro hn
      obtain ⟨u, hu⟩ := ih (by omega)
      rw [List.replicate_succ']
      rcases asked_ends hhow hs hg (hquiet n) hu with h | h
      · cases hr : u.runs with
        | nil => exact (h.lt.2 hr).elim
        | cons g rest =>
          have hstep : step ndebug u .advance = some (u.advance ndebug g rest) := by simp only [step, hr]
          exact ⟨_, hu.snoc hstep⟩
      · -- they have not all returned in fewer steps
        obtain ⟨past, later, -, hacts, -, -, -, -, hcount⟩ := h.ended
        have hle : advances past ≤ advances (List.replicate n .advance) := by
          rw [hacts]
          exact (List.sublist_append_left past later).count_le _
        rw [hcount, advances_replicate] at hle
        omega
  obtain ⟨u, hu⟩ := hsome _ le_rfl
  refine ⟨u, hu, ?_⟩
  rcases asked_ends hhow hs hg (hquiet _) hu with h | h
  · have hlt := h.lt.1
    rw [advances_replicate] at hlt
    exact (lt_irrefl _ hlt).elim
  · obtain ⟨past, later, v, hacts, -, hlater, hv, -, hcount⟩ := h.ended
    have hnone : later = [] := by
      rw [List.eq_nil_iff_length_eq_zero]
      have hlen := congrArg List.length hacts
      rw [List.length_replicate, List.length_append] at hlen
      have hle : past.count .advance ≤ past.length := List.count_le_length
      rw [show past.count .advance = _ from hcount] at hle
      omega
    subst hnone
    cases hlater
    exact hv

/-- **ev_break.** However many calls of `ev_run` are nested and wherever they are, a break ends the innermost or
all of them, as it asks: each of them returns before the one around it, and begins no other pass before it does;
then the calls around them are as they were, and after `EVBREAK_ONE` no break is left for them. -/
theorem break_ends (hhow : how = .one ∨ how = .all) (hs : s.runs = f :: outer)
    (hg : ∀ g ∈ asked how s.runs, ¬ g.Guarded ndebug) (hq : ∀ a ∈ acts, a.Quiet)
    (hrun : Run (fun s a t => step ndebug s a = some t) (s.evBreak how) acts t) :
    (Ending (asked how s.runs) (s.runs.drop (asked how s.runs).length) acts t ∨
      Ended ndebug how (asked how s.runs) (s.runs.drop (asked how s.runs).length) (s.evBreak how) acts t) ∧
    ∃ u, Run (fun s a t => step ndebug s a = some t) (s.evBreak how)
        (List.replicate (left (asked how s.runs)) .advance) u ∧
      u.runs = s.runs.drop (asked how s.runs).length :=
  ⟨asked_ends hhow hs hg hq hrun, asked_return hhow hs hg⟩

/-- A build with assertions goes on from its poll as if nothing had been asked for there. -/
theorem break_unheard (how : LoopDone) (hs : s.runs = f :: outer) (hg : f.Guarded ndebug) :
    step ndebug (s.evBreak how) .advance = step ndebug s .advance := by
  obtain ⟨hnd, hphase⟩ := hg
  have hs' : (s.evBreak how).runs = f :: outer := hs
  simp only [step, hs, hs']
  rcases hphase with hphase | hphase
  · simp [State.advance, State.evBreak, Frame.next, hphase, hnd]
  · simp [State.advance, State.evBreak, Frame.next, hphase, hnd]

end

/-- A callback of a call made from a prepare watcher of another call asks for `EVBREAK_ALL`: both return. -/
theorem break_ends_nested : ∃ s t : State,
    Run (fun s a t => step false s a = some t) initial
      [.ref 2, .evRun ⟨false, false⟩, .advance, .advance, .evRun ⟨false, false⟩, .advance] s ∧
    Run (fun s a t => step false s a = some t) (s.evBreak .all)
      [.advance, .ref 1, .advance, .advance, .advance, .advance] t ∧
    t.runs = [] := by
  have hx : ((execFrom (step false) initial
      [.ref 2, .evRun ⟨false, false⟩, .advance, .advance, .evRun ⟨false, false⟩, .advance]).bind fun s =>
        (execFrom (step false) (s.evBreak .all) [.advance, .ref 1, .advance, .advance, .advance, .advance]).map
          fun t => (s.runs, t.runs)) =
      some ([⟨⟨false, false⟩, .fork, 0⟩, ⟨⟨false, false⟩, .prepare, 0⟩], []) := by
    decide +kernel
  obtain ⟨s, hs, hx⟩ := Option.bind_eq_some_iff.mp hx
  obtain ⟨t, ht, hx⟩ := Option.map_eq_some_iff.mp hx
  obtain ⟨hsr, -⟩ := Prod.mk.inj hx
  have hrun := Run.iff_execFrom.mpr ht
  refine ⟨s, t, Run.iff_execFrom.mpr hs, hrun, ?_⟩
  have hg : ∀ g ∈ asked .all s.runs, ¬ g.Guarded false := by
    intro g hgm
    rw [hsr] at hgm
    rcases List.mem_cons.mp hgm with rfl | hgm
    · exact fun h => by rcases h.2 with h | h <;> cases h
    · obtain rfl := List.mem_singleton.mp hgm
      exact fun h => by rcases h.2 with h | h <;> cases h
  have hq : ∀ a ∈ [Act.advance, .ref 1, .advance, .advance, .advance, .advance], a.Quiet := by
    intro a ha
    simp only [List.mem_cons, List.not_mem_nil, or_false] at ha
    rcases ha with rfl | rfl | rfl | rfl | rfl | rfl <;> trivial
  obtain ⟨h | h, -⟩ := break_ends (.inr rfl) hsr hg hq hrun
  · have hlt := h.lt.1
    rw [hsr] at hlt
    exact absurd hlt (by decide)
  · exact (Prod.mk.inj hx).2

/-- A callback asks for `EVBREAK_ALL`, and the next calls `ev_run`, which clears the break: the call around it
begins another pass. -/
theorem break_cleared : ∃ s t : State, ∃ f f' : Frame,
    Run (fun s a t => step true s a = some t) initial
      ([.ref 1, .evRun ⟨false, false⟩] ++ List.replicate 6 .advance) s ∧
    s.runs = [f] ∧ f.phase = .invoke ∧
    Run (fun s a t => step true s a = some t) (s.evBreak .all)
      (.evRun ⟨false, true⟩ :: List.replicate 9 .advance) t ∧
    t.runs = [f'] ∧ f.passes < f'.passes := by
  have hx : ((execFrom (step true) initial ([.ref 1, .evRun ⟨false, false⟩] ++ List.replicate 6 .advance)).bind
      fun s => (execFrom (step true) (s.evBreak .all) (.evRun ⟨false, true⟩ :: List.replicate 9 .advance)).map
        fun t => (s.runs, t.runs)) =
      some ([⟨⟨false, false⟩, .invoke, 0⟩], [⟨⟨false, false⟩, .fork, 1⟩]) := by
    decide +kernel
  obtain ⟨s, hs, hx⟩ := Option.bind_eq_some_iff.mp hx
  obtain ⟨t, ht, hx⟩ := Option.map_eq_some_iff.mp hx
  obtain ⟨hsr, htr⟩ := Prod.mk.inj hx
  exact ⟨s, t, _, _, Run.iff_execFrom.mpr hs, hsr, rfl, Run.iff_execFrom.mpr ht, htr, Nat.zero_lt_one⟩

end Break

end Qev
