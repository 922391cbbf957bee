/-
# Signals and their attachments

A signal is attached to a loop while a watcher of it is active. A raise reads the loop, sets
the signal's `pending` and asks that loop for a scan; `pipecb` feeds the watchers of each
signal it finds pending and clears it. The last `ev_signal_stop` ends the attachment and
leaves `pending` alone. So a raise that is still undelivered then is fed to whoever starts a
watcher of the signal next, and only then: while each first watcher of a signal is started
with nothing left of it, an event is fed only for a raise of the current attachment
(`no_phantom`).

The `signals` are global; loops, raises and scans take turns in any order, a scan at each of
the places it visits.
-/
import Qev.Lib.Run

namespace Qev

open Lib

namespace Attach

/-- One of the `signals`. -/
structure ANSIG (L V : Type) where
  pending : Bool
  loop : Option L
  head : List V

/-- A call of `ev_feed_signal` that has read the loop and not stored `pending` yet. `epoch` is history: the
attachment it was made in. -/
structure Raise (L : Type) where
  place : ℕ
  loop : L
  epoch : ℕ

/-- An event fed, and whether the signal was raised, and that not fed yet, in the attachment it was fed in. -/
structure Fed (V : Type) where
  watcher : V
  due : Bool

/-- The signals by their places, `signum - 1`; the watchers' places; of each loop `sig_pending` and what is left
of its scan; and the raises under way. History: how often each signal has been attached, the attachments of
the raises stored in its `pending`, and the events fed. -/
structure State (L V : Type) where
  signals : ℕ → ANSIG L V
  wPlace : V → ℕ
  active : V → Bool
  sigPending : L → Bool
  scan : L → List ℕ
  raises : List (Raise L)
  epoch : ℕ → ℕ
  marks : ℕ → List ℕ
  fed : List (Fed V)

variable {L V : Type} [DecidableEq L] [DecidableEq V]

/-- No signal is attached. -/
def initial (wPlace : V → ℕ) : State L V where
  signals _ := ⟨false, none, []⟩
  wPlace := wPlace
  active _ := false
  sigPending _ := false
  scan _ := []
  raises := []
  epoch _ := 0
  marks _ := []
  fed := []

inductive Act (L V : Type)
  /-- `ev_signal_set`. -/
  | set (w : V) (place : ℕ)
  | evSignalStart (l : L) (w : V)
  | evSignalStop (l : L) (w : V)
  /-- `ev_feed_signal`, from a signal handler or a thread, reads the loop. -/
  | evFeedSignal (place : ℕ)
  /-- One of the raises under way stores `pending` and asks for a scan. -/
  | store (k : ℕ)
  /-- `pipecb` reads and clears `sig_pending`. -/
  | pipecb (l : L)
  /-- The scan of `pipecb` comes to the next place. -/
  | visit (l : L)

namespace State

variable (s : State L V)

def setSignal (place : ℕ) (a : ANSIG L V) : State L V := { s with signals := Function.update s.signals place a }

def evSignalStart (l : L) (w : V) : State L V :=
  if s.active w then s
  else
    let place := s.wPlace w
    let a := s.signals place
    let s := s.setSignal place { a with loop := some l, head := w :: a.head }
    { s with
      active := Function.update s.active w true
      epoch := if a.head = [] then Function.update s.epoch place (s.epoch place + 1) else s.epoch }

def evSignalStop (w : V) : State L V :=
  if s.active w then
    let place := s.wPlace w
    let a := s.signals place
    let head := a.head.erase w
    let s := s.setSignal place { a with head := head, loop := if head = [] then none else a.loop }
    { s with active := Function.update s.active w false }
  else s

/-- A signal that is not attached is not raised. -/
def evFeedSignal (place : ℕ) : State L V :=
  match (s.signals place).loop with
  | none => s
  | some l => { s with raises := ⟨place, l, s.epoch place⟩ :: s.raises }

/-- The store of `pending`, and `evpipe_write`. -/
def store (k : ℕ) (r : Raise L) : State L V :=
  { s.setSignal r.place { s.signals r.place with pending := true } with
    sigPending := Function.update s.sigPending r.loop true
    raises := s.raises.eraseIdx k
    marks := Function.update s.marks r.place (r.epoch :: s.marks r.place) }

/-- `ev_feed_signal_event`. -/
def evFeedSignalEvent (l : L) (place : ℕ) : State L V :=
  let a := s.signals place
  if a.loop ≠ some l then s
  else
    let due := decide (s.epoch place ∈ s.marks place)
    { s.setSignal place { a with pending := false } with
      marks := Function.update s.marks place []
      fed := a.head.map (⟨·, due⟩) ++ s.fed }

/-- `pipecb`, of a loop that has so many `signals`, up to its scan. -/
def pipecb (places : ℕ) (l : L) : State L V :=
  if s.sigPending l then
    { s with sigPending := Function.update s.sigPending l false
             scan := Function.update s.scan l (List.range places).reverse }
  else s

/-- The scan's next place. -/
def visit (l : L) (place : ℕ) (rest : List ℕ) : State L V :=
  let s := { s with scan := Function.update s.scan l rest }
  if (s.signals place).pending then s.evFeedSignalEvent l place else s

end State

/-- One action. A signal is attached to one loop at a time, and a watcher stopped on its own. -/
def step (places : ℕ) (s : State L V) : Act L V → Option (State L V)
  | .set w place => if s.active w then none else some { s with wPlace := Function.update s.wPlace w place }
  | .evSignalStart l w =>
    if s.wPlace w < places ∧ ((s.signals (s.wPlace w)).loop = none ∨ (s.signals (s.wPlace w)).loop = some l) then
      some (s.evSignalStart l w)
    else none
  | .evSignalStop l w =>
    if s.active w ∧ (s.signals (s.wPlace w)).loop ≠ some l then none else some (s.evSignalStop w)
  | .evFeedSignal place => some (s.evFeedSignal place)
  | .store k => s.raises[k]?.map (s.store k)
  | .pipecb l => if s.scan l = [] then some (s.pipecb places l) else none
  | .visit l =>
    match s.scan l with
    | [] => none
    | place :: rest => some (s.visit l place rest)

/-- If this starts the first watcher of a signal, no raise of the signal is left: none is stored in its
`pending`, and none is under way. -/
def Clean (s : State L V) (a : Act L V) : Prop :=
  ∀ l w, a = .evSignalStart l w → s.active w = false → (s.signals (s.wPlace w)).head = [] →
    (s.signals (s.wPlace w)).pending = false ∧ ∀ r ∈ s.raises, r.place ≠ s.wPlace w

/-- The raises stored and those under way are of the attachment there is. -/
structure Inv (s : State L V) : Prop where
  marked : ∀ place, (s.signals place).pending = true → s.marks place ≠ []
  bare : ∀ place, (s.signals place).pending = false → s.marks place = []
  marks : ∀ place, ∀ i ∈ s.marks place, i = s.epoch place
  raises : ∀ r ∈ s.raises, r.epoch = s.epoch r.place
  due : ∀ f ∈ s.fed, f.due = true

section

variable {places : ℕ} {s t : State L V} {a : Act L V}

section

omit [DecidableEq L] [DecidableEq V]

theorem inv_initial (wPlace : V → ℕ) : Inv (initial wPlace : State L V) :=
  ⟨fun _ h => (by cases h), fun _ _ => rfl, fun _ _ h => (by cases h), fun _ h => (by cases h),
    fun _ h => (by cases h)⟩

/-- What a step does that sets no `pending` and begins no attachment. -/
theorem Inv.quiet (h : Inv s) (hp : ∀ place, (t.signals place).pending = (s.signals place).pending)
    (hm : t.marks = s.marks) (he : t.epoch = s.epoch) (hr : t.raises = s.raises) (hf : t.fed = s.fed) : Inv t :=
  ⟨fun place => by rw [hp, hm]; exact h.marked place, fun place => by rw [hp, hm]; exact h.bare place,
    by rw [hm, he]; exact h.marks, by rw [hr, he]; exact h.raises, by rw [hf]; exact h.due⟩

theorem pending_setSignal (s : State L V) (place : ℕ) (a : ANSIG L V) (place' : ℕ) :
    ((s.setSignal place a).signals place').pending =
      if place' = place then a.pending else (s.signals place').pending := by
  by_cases h : place' = place
  · simp [State.setSignal, h]
  · simp [State.setSignal, h]

end

section

omit [DecidableEq L]

/-- A signal of which nothing is left may be attached anew. -/
theorem Inv.start (h : Inv s) (l : L) (w : V) (hc : Clean s (.evSignalStart l w)) : Inv (s.evSignalStart l w) := by
  unfold State.evSignalStart
  by_cases hact : s.active w = true
  · rw [if_pos hact]
    exact h
  · rw [if_neg hact]
    have hp : ∀ place, ((s.setSignal (s.wPlace w) { s.signals (s.wPlace w) with
        loop := some l, head := w :: (s.signals (s.wPlace w)).head }).signals place).pending =
        (s.signals place).pending := by
      intro place
      rw [pending_setSignal]
      split
      · rename_i he
        rw [he]
      · rfl
    by_cases hhead : (s.signals (s.wPlace w)).head = []
    · obtain ⟨hpend, hraises⟩ := hc l w rfl (by simpa using hact) hhead
      have hnone := h.bare _ hpend
      refine ⟨fun place => ?_, fun place => ?_, fun place i hi => ?_, fun r hr => ?_, h.due⟩
      · exact fun hpl => h.marked place (by rwa [← hp place])
      · exact fun hpl => h.bare place (by rwa [← hp place])
      · replace hi : i ∈ s.marks place := hi
        show i = (if _ then _ else _ : ℕ → ℕ) place
        rw [if_pos hhead]
        by_cases he : place = s.wPlace w
        · rw [he, hnone] at hi
          cases hi
        · rw [Function.update_of_ne he]
          exact h.marks place i hi
      · show r.epoch = (if _ then _ else _ : ℕ → ℕ) r.place
        rw [if_pos hhead, Function.update_of_ne (hraises r hr)]
        exact h.raises r hr
    · refine h.quiet hp rfl ?_ rfl rfl
      show (if _ then _ else _ : ℕ → ℕ) = s.epoch
      rw [if_neg hhead]
      rfl

theorem Inv.stop (h : Inv s) (w : V) : Inv (s.evSignalStop w) := by
  unfold State.evSignalStop
  split
  · refine h.quiet (fun place => ?_) rfl rfl rfl rfl
    show ((s.setSignal _ _).signals place).pending = _
    rw [pending_setSignal]
    split
    · rename_i he
      rw [he]
    · rfl
  · exact h

end

section

omit [DecidableEq L] [DecidableEq V]

theorem Inv.raise (h : Inv s) (place : ℕ) : Inv (s.evFeedSignal place) := by
  unfold State.evFeedSignal
  cases hl : (s.signals place).loop with
  | none => exact h
  | some l =>
    refine ⟨h.marked, h.bare, h.marks, fun r hr => ?_, h.due⟩
    rcases List.mem_cons.mp hr with rfl | hr
    · rfl
    · exact h.raises r hr

end

section

omit [DecidableEq V]

theorem Inv.store (h : Inv s) (k : ℕ) {r : Raise L} (hr : r ∈ s.raises) : Inv (s.store k r) := by
  have hp : ∀ place, ((s.store k r).signals place).pending =
      if place = r.place then true else (s.signals place).pending := fun place => pending_setSignal ..
  have hm : ∀ place, (s.store k r).marks place = if place = r.place then r.epoch :: s.marks r.place else s.marks place :=
    fun place => Function.update_apply ..
  refine ⟨fun place => ?_, fun place => ?_, fun place i hi => ?_, fun q hq => ?_, h.due⟩
  · rw [hp, hm]
    split
    · exact fun _ => List.cons_ne_nil _ _
    · exact h.marked place
  · rw [hp, hm]
    split
    · exact fun hf => by cases hf
    · exact h.bare place
  · rw [hm] at hi
    show i = s.epoch place
    split at hi
    · rename_i he
      rw [he]
      rcases List.mem_cons.mp hi with rfl | hi
      · exact h.raises r hr
      · exact h.marks r.place i hi
    · exact h.marks place i hi
  · exact h.raises q (List.mem_of_mem_eraseIdx hq)

/-- What is fed is of the attachment there is. -/
theorem Inv.feed (h : Inv s) (l : L) {place : ℕ} (hpend : (s.signals place).pending = true) :
    Inv (s.evFeedSignalEvent l place) := by
  unfold State.evFeedSignalEvent
  dsimp only
  by_cases hl : (s.signals place).loop ≠ some l
  · rw [if_pos hl]
    exact h
  · rw [if_neg hl]
    have hdue : s.epoch place ∈ s.marks place := by
      obtain ⟨i, hi⟩ := List.exists_mem_of_ne_nil _ (h.marked place hpend)
      exact h.marks place i hi ▸ hi
    have hp : ∀ place', ((s.setSignal place { s.signals place with pending := false }).signals place').pending =
        if place' = place then false else (s.signals place').pending := fun place' => pending_setSignal ..
    have hm : ∀ place', Function.update s.marks place [] place' = if place' = place then [] else s.marks place' :=
      fun place' => Function.update_apply ..
    refine ⟨fun place' hpl => ?_, fun place' hpl => ?_, fun place' i hi => ?_, h.raises, fun f hf => ?_⟩
    · show Function.update s.marks place [] place' ≠ []
      rw [hm]
      replace hpl : ((s.setSignal place { s.signals place with pending := false }).signals place').pending = true := hpl
      rw [hp] at hpl
      split at hpl
      · cases hpl
      · rename_i hne
        rw [if_neg hne]
        exact h.marked place' hpl
    · show Function.update s.marks place [] place' = []
      rw [hm]
      replace hpl : ((s.setSignal place { s.signals place with pending := false }).signals place').pending = false := hpl
      rw [hp] at hpl
      split
      · rfl
      · rename_i hne
        rw [if_neg hne] at hpl
        exact h.bare place' hpl
    · replace hi : i ∈ Function.update s.marks place [] place' := hi
      rw [hm] at hi
      split at hi
      · cases hi
      · exact h.marks place' i hi
    · rcases List.mem_append.mp hf with hf | hf
      · obtain ⟨w, -, rfl⟩ := List.mem_map.mp hf
        exact decide_eq_true hdue
      · exact h.due f hf

end

theorem inv_step (h : Inv s) (hc : Clean s a) (hs : step places s a = some t) : Inv t := by
  cases a with
  | set w place =>
    simp only [step] at hs
    split at hs
    · cases hs
    · cases hs
      exact h.quiet (fun _ => rfl) rfl rfl rfl rfl
  | evSignalStart l w =>
    simp only [step] at hs
    split at hs
    · cases hs
      exact h.start l w hc
    · cases hs
  | evSignalStop l w =>
    simp only [step] at hs
    split at hs
    · cases hs
    · cases hs
      exact h.stop w
  | evFeedSignal place =>
    cases hs
    exact h.raise place
  | store k =>
    obtain ⟨r, hr, rfl⟩ := Option.map_eq_some_iff.mp hs
    exact h.store k (List.mem_of_getElem? hr)
  | pipecb l =>
    simp only [step] at hs
    split at hs
    · cases hs
      unfold State.pipecb
      split
      · exact h.quiet (fun _ => rfl) rfl rfl rfl rfl
      · exact h
    · cases hs
  | visit l =>
    simp only [step] at hs
    split at hs
    · cases hs
    · rename_i place rest _
      cases hs
      have h' : Inv { s with scan := Function.update s.scan l rest } := h.quiet (fun _ => rfl) rfl rfl rfl rfl
      unfold State.visit
      dsimp only
      split
      · rename_i hpend
        exact h'.feed l hpend
      · exact h'

/-- **No phantom signal.** In a run that starts the first watcher of a signal only when no raise of the signal is
left, an event is fed only for a raise of the signal's attachment. -/
theorem no_phantom {wPlace : V → ℕ} {acts : List (Act L V)}
    (hrun : Run (fun s a t => step places s a = some t ∧ Clean s a) (initial wPlace) acts s) :
    ∀ f ∈ s.fed, f.due = true :=
  (hrun.invariant (I := Inv) (fun _ _ _ h hs => inv_step h hs.2 hs.1) (inv_initial wPlace)).due

end

/-- A signal raised, and fed to the two watchers started for it. -/
theorem no_phantom_fed : ∃ s : State Unit Bool,
    Run (fun s a t => step 2 s a = some t ∧ Clean s a) (initial fun _ => 1)
      [.evSignalStart () true, .evFeedSignal 1, .evSignalStart () false, .store 0, .pipecb (), .visit ()] s ∧
    s.fed.map (·.watcher) = [false, true] ∧ ∀ f ∈ s.fed, f.due = true := by
  let s₀ : State Unit Bool := initial fun _ => 1
  let s₁ := s₀.evSignalStart () true
  let s₂ := s₁.evFeedSignal 1
  let s₃ := s₂.evSignalStart () false
  let s₄ := s₃.store 0 ⟨1, (), 1⟩
  let s₅ := s₄.pipecb 2 ()
  have hrun : Run (fun s a t => step 2 s a = some t ∧ Clean s a) s₀
      [.evSignalStart () true, .evFeedSignal 1, .evSignalStart () false, .store 0, .pipecb (), .visit ()]
      (s₅.visit () 1 [0]) := by
    have hfirst : Clean s₀ (.evSignalStart () true) := fun l w _ _ _ => ⟨rfl, fun r hr => by cases hr⟩
    have hsecond : Clean s₂ (.evSignalStart () false) := fun l w _ _ hhead => by cases hhead
    refine .cons ⟨rfl, hfirst⟩ (.cons ⟨rfl, ?_⟩ (.cons ⟨rfl, hsecond⟩ (.cons ⟨rfl, ?_⟩ (.cons ⟨rfl, ?_⟩
      (.single ⟨rfl, ?_⟩)))))
    · exact fun l w ha => by cases ha
    · exact fun l w ha => by cases ha
    · exact fun l w ha => by cases ha
    · exact fun l w ha => by cases ha
  exact ⟨_, hrun, rfl, no_phantom hrun⟩

/-- A raise left when the last watcher is stopped is fed to the watcher started next. -/
theorem no_phantom_stale : ∃ s : State Unit Bool,
    Run (fun s a t => step 1 s a = some t) (initial fun _ => 0)
      [.evSignalStart () true, .evFeedSignal 0, .store 0, .evSignalStop () true, .evSignalStart () false,
        .pipecb (), .visit ()] s ∧
    s.fed.map (fun f => (f.watcher, f.due)) = [(false, false)] ∧ ¬ ∀ f ∈ s.fed, f.due = true := by
  have hx : (execFrom (step 1) (initial fun _ => 0 : State Unit Bool)
      [.evSignalStart () true, .evFeedSignal 0, .store 0, .evSignalStop () true, .evSignalStart () false,
        .pipecb (), .visit ()]).map (fun s => s.fed.map fun f => (f.watcher, f.due)) = some [(false, false)] := by
    decide +kernel
  obtain ⟨s, hs, hfed⟩ := Option.map_eq_some_iff.mp hx
  refine ⟨s, Run.iff_execFrom.mpr hs, hfed, fun h => ?_⟩
  obtain ⟨f, hf, he⟩ := List.mem_map.mp (hfed ▸ List.mem_singleton_self (false, false) :
    (false, false) ∈ s.fed.map fun f => (f.watcher, f.due))
  have hdue : f.due = false := congrArg Prod.snd he
  exact absurd (h f hf) (by rw [hdue]; decide)

end Attach

end Qev
