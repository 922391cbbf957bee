/-
# What a loop that is destroyed calls

`ev_loop_destroy` queues the cleanup watchers with all else that is pending and has everything
invoked, in `ev_invoke_pending`, before `once_reclaim` frees what is left of `ev_once`. Without
a cleanup watcher it invokes nothing.

Each cleanup watcher that was active is invoked once and each block of `ev_once` is freed, but
the callbacks of `ev_once` stay uncalled exactly if there is no cleanup watcher, or no half is
pending when the loop is destroyed (`destroy_delivers`). This is under callbacks that leave the
pending state of the cleanup watchers and of the halves as it is (`Apart`).
-/
import Qev.Loop.Indexes
import Qev.Loop.OnceFreed

set_option linter.unusedSectionVars false

namespace Qev

open Lib

/-! ### The cursor -/

namespace Pend

variable {W : Type} [DecidableEq W] {p q r : Pend W} {fed : W → List Events} {n : ℕ}

/-- No empty queue was filled, or the cursor is above all of them. -/
def Raised (p q : Pend W) : Prop :=
  (q.pendingpri = p.pendingpri ∧ q.pendingcnt = p.pendingcnt) ∨ q.pendingpri = numpri - 1

theorem Raised.refl (p : Pend W) : Raised p p := .inl ⟨rfl, rfl⟩

theorem Raised.trans (h : Raised p q) (h' : Raised q r) : Raised p r := by
  rcases h' with ⟨hpri, hcnt⟩ | hpri
  · rcases h with ⟨hpri', hcnt'⟩ | hpri'
    · exact .inl ⟨hpri.trans hpri', hcnt.trans hcnt'⟩
    · exact .inr (hpri.trans hpri')
  · exact .inr hpri

theorem raised_feed (p : Pend W) (w : W) (revents : Events) : Raised p (p.evFeedEvent w revents) := .inr rfl

theorem raised_clear (p : Pend W) (w : W) : Raised p (p.clearPending w) := by
  obtain ⟨-, -, hcnt, hpri⟩ := clearPending_frame p w
  exact .inl ⟨hpri, hcnt⟩

/-- The watcher that is taken is no longer pending. -/
theorem pending_pop (p : Pend W) (pri : ℕ) (v : W) :
    (p.pop pri).pending v = if v = (p.entry pri (p.pendingcnt pri - 1)).w then 0 else p.pending v := by
  unfold pop
  exact Function.update_apply ..

theorem raised_foldl {X : Type} {f : Pend W → X → Pend W} (hf : ∀ p x, Raised p (f p x)) (xs : List X) (p : Pend W) :
    Raised p (xs.foldl f p) := by
  induction xs generalizing p with
  | nil => exact .refl p
  | cons x xs ih => exact (hf p x).trans (ih (f p x))

/-- Nothing is above a cursor that was raised. -/
theorem Raised.above (h : Raised p q) (hq : q.Ok fed) (hp : p.Above (p.pendingpri + 1)) :
    q.Above (q.pendingpri + 1) := by
  rcases h with ⟨hpri, hcnt⟩ | hpri
  · intro pri hle
    rw [hcnt]
    exact hp pri (hpri ▸ hle)
  · rw [hpri]
    exact hq.above

end Pend

namespace Loop

variable {U T K : Type} [DecidableEq U] [LinearOrder T] [Add T] [Sub T] [Zero T] {e : Env U T} {l m n : Loop U T K}

/-- The cursor does not miss anything, and the cleanup watchers are as they were. -/
structure Raised (l m : Loop U T K) : Prop where
  pend : Pend.Raised l.pend m.pend
  cleanups : m.cleanups = l.cleanups

theorem Raised.refl (l : Loop U T K) : Raised l l := ⟨.refl _, rfl⟩

theorem Raised.trans (h : Raised l m) (h' : Raised m n) : Raised l n :=
  ⟨h.pend.trans h'.pend, h'.cleanups.trans h.cleanups⟩

/-- Nothing is fed, and the cursor stays. -/
theorem raised_of (hpri : m.pend.pendingpri = l.pend.pendingpri) (hcnt : m.pend.pendingcnt = l.pend.pendingcnt)
    (hc : m.cleanups = l.cleanups) : Raised l m := ⟨.inl ⟨hpri, hcnt⟩, hc⟩

theorem raised_evFeedEvent (l : Loop U T K) (w : Watcher U) (revents : Events) :
    Raised l (l.evFeedEvent w revents) :=
  ⟨Pend.raised_feed l.pend w revents, rfl⟩

theorem raised_clearPending (l : Loop U T K) (w : Watcher U) : Raised l (l.clearPending w) :=
  ⟨Pend.raised_clear l.pend w, rfl⟩

theorem raised_evIoStart (l : Loop U T K) (w : IoW U) : Raised l (l.evIoStart w) := by
  unfold evIoStart
  split
  · exact .refl _
  · exact raised_of rfl rfl rfl

theorem raised_evIoStop (l : Loop U T K) (w : IoW U) : Raised l (l.evIoStop w) := by
  have hclear := raised_clearPending l (.io w)
  unfold evIoStop
  dsimp only
  split
  · exact hclear
  · exact hclear.trans (raised_of rfl rfl rfl)

theorem raised_evTimerStart (l : Loop U T K) (w : TimerW U) : Raised l (l.evTimerStart e w) := by
  unfold evTimerStart
  split
  · exact .refl _
  · exact raised_of rfl rfl rfl

theorem raised_evTimerStop (l : Loop U T K) (w : TimerW U) : Raised l (l.evTimerStop e w) := by
  have hclear := raised_clearPending l (.timer w)
  unfold evTimerStop
  dsimp only
  split
  · exact hclear
  · exact hclear.trans (raised_of rfl rfl rfl)

theorem raised_evTimerAgain (l : Loop U T K) (w : TimerW U) : Raised l (l.evTimerAgain e w) := by
  refine (raised_clearPending l (.timer w)).trans ?_
  unfold evTimerAgain
  generalize l.clearPending (.timer w) = m
  dsimp only
  split
  · split
    · exact raised_of rfl rfl rfl
    · exact raised_evTimerStop m w
  · split
    · exact Raised.trans (m := { m with timers := m.timers.setAt w (m.wRepeat w) }) (raised_of rfl rfl rfl)
        (raised_evTimerStart _ w)
    · exact .refl _

theorem raised_foldl {X : Type} {f : Loop U T K → X → Loop U T K} (hf : ∀ l x, Raised l (f l x)) (xs : List X)
    (l : Loop U T K) : Raised l (xs.foldl f l) := by
  induction xs generalizing l with
  | nil => exact .refl _
  | cons x xs ih => exact (hf l x).trans (ih (f l x))

theorem raised_fdEventNocheck (l : Loop U T K) (fd : ℕ) (revents : Events) :
    Raised l (l.fdEventNocheck fd revents) := by
  refine raised_foldl (fun l w => ?_) _ l
  dsimp only
  split
  · exact raised_evFeedEvent ..
  · exact .refl _

theorem raised_fdEvent (l : Loop U T K) (fd : ℕ) (revents : Events) : Raised l (l.fdEvent fd revents) := by
  unfold fdEvent
  split
  · exact raised_fdEventNocheck l fd revents
  · exact .refl _

theorem raised_fdKill (l : Loop U T K) (fd : ℕ) : Raised l (l.fdKill fd) :=
  fdKillLoop_induction l (P := fun m => Raised l m) fd
    (fun m w _ h => (h.trans (raised_evIoStop m w)).trans (raised_evFeedEvent ..)) _ (.refl _)

theorem raised_fdReify (l : Loop U T K) (refused : ℕ → Bool) :
    Raised l (l.fdReify fun fd _ _ l => if refused fd then l.fdKill fd else l) := by
  unfold fdReify
  dsimp only
  refine Raised.trans (m := l.fds.fdchanges.foldl _ l) (raised_foldl (fun l fd => ?_) _ l) (raised_of rfl rfl rfl)
  unfold fdReifyOne
  dsimp only
  split
  · exact raised_of rfl rfl rfl
  · split
    · exact Raised.trans (m := { l with fds := l.fds.reify fd }) (raised_of rfl rfl rfl) (raised_fdKill _ fd)
    · exact raised_of rfl rfl rfl

theorem raised_timersReify (l : Loop U T K) : Raised l (l.timersReify e) := by
  have hone : ∀ l : Loop U T K, Raised l (l.timersReifyOne e) := by
    intro l
    unfold timersReifyOne
    dsimp only
    split
    · exact raised_of rfl rfl rfl
    · exact (raised_evTimerStop l _).trans (raised_of rfl rfl rfl)
  have hloop : ∀ n (l : Loop U T K), Raised l (timersReifyLoop e n l) := by
    intro n
    induction n with
    | zero => exact fun _ => .refl _
    | succ n ih =>
      intro l
      unfold timersReifyLoop
      split
      · exact (hone l).trans (ih _)
      · exact .refl _
  unfold timersReify
  split
  · refine (hloop l.timers.cnt l).trans ⟨?_, rfl⟩
    generalize timersReifyLoop e l.timers.cnt l = m
    exact (Pend.raised_foldl (fun p w => Pend.raised_feed p w evTimer) m.pend.rfeeds m.pend).trans (.inl ⟨rfl, rfl⟩)
  · exact .refl _

theorem raised_timersReschedule (l : Loop U T K) (adjust : T) : Raised l (l.timersReschedule e adjust) := by
  unfold timersReschedule
  exact raised_foldl (f := timersRescheduleOne e adjust) (fun _ _ => raised_of rfl rfl rfl) _ l

end Loop

namespace Once

/-! ### The model -/

/-- The blocks of `ev_once`, and the watchers `ev_invoke_pending` has invoked, newest first. -/
structure Calls (U T F A : Type) where
  onces : Onces U T F A
  invoked : List (Watcher U)

/-- What is done: by the loop and by user code, also to cleanup watchers. -/
inductive Deed (U T F A : Type)
  | act (a : Act U T F A)
  | evCleanupStart (w : U)
  | evCleanupStop (w : U)

variable {U T F A : Type} [DecidableEq U] [LinearOrder T] [Add T] [Sub T] [Zero T]

/-- The watcher that the next step of `ev_invoke_pending` takes. -/
def Onces.popped (s : Onces U T F A) : Option (Watcher U) :=
  if s.ctl = .test ∧ s.loop.pend.pendingcnt s.loop.pend.pendingpri ≠ 0 then
    some (s.loop.pend.entry s.loop.pend.pendingpri (s.loop.pend.pendingcnt s.loop.pend.pendingpri - 1)).w
  else none

/-- The active cleanup watchers, in their order. -/
def Onces.cleanups (s : Onces U T F A) : List U := s.loop.cleanups.toList 0

/-- `ev_loop_destroy` queues the cleanup watchers that are active. -/
def deed (e : Env U T) (s : Calls U T F A) : Deed U T F A → Option (Calls U T F A)
  | .act (.evLoopDestroy cleanups) =>
    if cleanups = s.onces.cleanups then
      (step e s.onces (.evLoopDestroy cleanups)).map fun t => { s with onces := t }
    else none
  | .act .tick => (step e s.onces .tick).map fun t => ⟨t, s.onces.popped.toList ++ s.invoked⟩
  | .act a => (step e s.onces a).map fun t => { s with onces := t }
  | .evCleanupStart w =>
    if s.onces.destroyed = false ∧ s.onces.InUser then
      some { s with onces := { s.onces with loop := s.onces.loop.evCleanupStart w } }
    else none
  | .evCleanupStop w =>
    if s.onces.destroyed = false ∧ s.onces.InUser then
      some { s with onces := { s.onces with loop := s.onces.loop.evCleanupStop w } }
    else none

abbrev Deeds (e : Env U T) (s : Calls U T F A) (l : List (Deed U T F A)) (t : Calls U T F A) : Prop :=
  Run (fun s a t => deed e s a = some t) s l t

/-- User code leaves the pending state of the cleanup watchers and of the halves as it is. -/
def Apart (s : Calls U T F A) (a : Deed U T F A) (t : Calls U T F A) : Prop :=
  a ≠ .act .tick → ∀ w, (half w ≠ none ∨ ∃ u, w = .cleanup u) →
    (t.onces.loop.pend.pending w ≠ 0 ↔ s.onces.loop.pend.pending w ≠ 0)

/-- A callback of `ev_once` was called. -/
def Ev.isCalled : Ev U F A → Bool
  | .called .. => true
  | _ => false

/-! ### What user code does to the cursor -/

variable {e : Env U T} {s t : Onces U T F A}

theorem raised_evOnce (s : Onces U T F A) (u : U) (fd : ℤ) (events : Events) (timeout : T) (cb : Option F)
    (arg : A) : s.loop.Raised (s.evOnce e u fd events timeout cb arg).loop := by
  unfold Onces.evOnce
  dsimp only
  cases cb with
  | none => exact .refl _
  | some cb =>
    dsimp only
    split
    · exact .refl _
    · have hinit : ∀ (l : Loop U T Unit) (w : Watcher U), l.Raised (l.evInit w) := fun l w =>
        Loop.raised_of rfl rfl rfl
      have hio : s.loop.Raised
          (if 0 ≤ fd ∧ events &&& (evRead ||| evWrite) ≠ 0 then
            ((s.loop.evInit (.io (.once u))).evIoSet (.once u) fd.toNat (events &&& (evRead ||| evWrite))).evIoStart
              (.once u)
          else s.loop.evInit (.io (.once u))) := by
        split
        · exact Loop.Raised.trans (m := (s.loop.evInit (.io (.once u))).evIoSet (.once u) fd.toNat
            (events &&& (evRead ||| evWrite))) (Loop.raised_of rfl rfl rfl) (Loop.raised_evIoStart ..)
        · exact hinit ..
      generalize (if 0 ≤ fd ∧ events &&& (evRead ||| evWrite) ≠ 0 then _ else _ : Loop U T Unit) = m at hio ⊢
      refine hio.trans ((hinit m (.timer (.once u))).trans ?_)
      split
      · exact Loop.Raised.trans (m := (m.evInit (.timer (.once u))).evTimerSet (.once u) timeout 0)
          (Loop.raised_of rfl rfl rfl) (Loop.raised_evTimerStart ..)
      · exact .refl _

/-- What user code does, calls of `ev_invoke_pending` and `ev_loop_destroy` apart. -/
theorem raised_call {a : Act U T F A} (h₁ : a ≠ .invokePending) (h₂ : ∀ cleanups, a ≠ .evLoopDestroy cleanups) :
    s.loop.Raised (call e s a).loop := by
  cases a with
  | evOnce u fd events timeout cb arg => exact raised_evOnce s u fd events timeout cb arg
  | feedEvent w revents => exact Loop.raised_evFeedEvent ..
  | clearPending w => exact Loop.raised_clearPending ..
  | evSetPriority w pri => exact Loop.raised_of rfl rfl rfl
  | evIoSet w fd events => exact Loop.raised_of rfl rfl rfl
  | evIoStart w => exact Loop.raised_evIoStart s.loop w
  | evIoStop w => exact Loop.raised_evIoStop s.loop w
  | evIoModify w events => exact Loop.raised_of rfl rfl rfl
  | evTimerSet w after repeat' => exact Loop.raised_of rfl rfl rfl
  | evTimerStart w => exact Loop.raised_evTimerStart s.loop w
  | evTimerStop w => exact Loop.raised_evTimerStop s.loop w
  | evTimerAgain w => exact Loop.raised_evTimerAgain s.loop w
  | fdEvent fd revents => exact Loop.raised_fdEvent s.loop fd revents
  | fdEventNocheck fd revents => exact Loop.raised_fdEventNocheck s.loop fd revents
  | fdKill fd => exact Loop.raised_fdKill s.loop fd
  | fdReify refused => exact Loop.raised_fdReify s.loop refused
  | timersReify => exact Loop.raised_timersReify s.loop
  | timersReschedule adjust => exact Loop.raised_timersReschedule s.loop adjust
  | timeUpdate now => exact Loop.raised_of rfl rfl rfl
  | invokePending => exact absurd rfl h₁
  | ret => exact .refl _
  | evLoopDestroy cleanups => exact absurd rfl (h₂ cleanups)
  | tick => exact .refl _

theorem control_call {a : Act U T F A} (h₁ : a ≠ .invokePending) (h₂ : a ≠ .ret)
    (h₃ : ∀ cleanups, a ≠ .evLoopDestroy cleanups) :
    (call e s a).ctl = s.ctl ∧ (call e s a).depth = s.depth ∧ (call e s a).destroying = s.destroying := by
  cases a with
  | evOnce u fd events timeout cb arg =>
    unfold call Onces.evOnce
    dsimp only
    cases cb with
    | none => exact ⟨rfl, rfl, rfl⟩
    | some cb =>
      dsimp only
      split
      · exact ⟨rfl, rfl, rfl⟩
      · exact ⟨rfl, rfl, rfl⟩
  | invokePending => exact absurd rfl h₁
  | ret => exact absurd rfl h₂
  | evLoopDestroy cleanups => exact absurd rfl (h₃ cleanups)
  | _ => exact ⟨rfl, rfl, rfl⟩

/-! ### The cleanup watchers -/

/-- Blocks, queues and lists are well formed, and the active cleanup watchers are in their array. -/
structure Good (e : Env U T) (s : Onces U T F A) : Prop where
  inv : Inv e s
  cleanups : s.loop.cleanups.Filed fun _ => 0

theorem quiet_evCleanupStart (h : Inv e s) (w : U) : Quiet e s { s with loop := s.loop.evCleanupStart w } := by
  refine ⟨?_, rfl, rfl, rfl⟩
  dsimp only
  unfold Loop.evCleanupStart
  split
  · exact h.core.stays
  · unfold Loop.evStart
    rw [h.core.priAdjust]
    refine ⟨⟨h.core.linked, h.core.bound, h.core.timers, h.core.pend, h.core.dummy, h.core.rfeeds⟩,
      fun v hv => ?_, rfl⟩
    cases v with
    | cleanup v => exact absurd rfl hv
    | _ => exact Iff.rfl

theorem quiet_evCleanupStop (h : Inv e s) (w : U) : Quiet e s { s with loop := s.loop.evCleanupStop w } := by
  have hc : Loop.Stays e s.loop (s.loop.clearPending (.cleanup w)) := h.core.evClear rfl
  refine ⟨hc.trans ?_, rfl, rfl, rfl⟩
  have hcore := hc.core
  dsimp only
  unfold Loop.evCleanupStop
  generalize s.loop.clearPending (.cleanup w) = m at hcore ⊢
  dsimp only
  split
  · exact hcore.stays
  · refine ⟨⟨hcore.linked, hcore.bound, hcore.timers, hcore.pend, hcore.dummy, hcore.rfeeds⟩, fun v hv => ?_, rfl⟩
    cases v with
    | cleanup v => exact absurd rfl hv
    | _ => exact Iff.rfl

/-! ### A step of ev_invoke_pending -/

section

variable {w v : Watcher U} {revents : Events}

theorem raised_onceCb (s : Onces U T F A) (u : U) (revents : Events) :
    s.loop.Raised (s.onceCb e u revents).loop ∧ (s.onceCb e u revents).ctl = s.ctl ∧
      (s.onceCb e u revents).depth = s.depth ∧ (s.onceCb e u revents).destroying = s.destroying := by
  have hstop : s.loop.Raised ((s.loop.evIoStop (.once u)).evTimerStop e (.once u)) :=
    (Loop.raised_evIoStop ..).trans (Loop.raised_evTimerStop ..)
  unfold Onces.onceCb
  dsimp only
  cases s.blocks u with
  | none => exact ⟨hstop, rfl, rfl, rfl⟩
  | some b => exact ⟨hstop, rfl, rfl, rfl⟩

theorem raised_invoke (s : Onces U T F A) (w : Watcher U) (revents : Events) :
    s.loop.Raised (s.invoke e w revents).loop ∧ (s.invoke e w revents).ctl = s.ctl ∧
      (s.invoke e w revents).depth = s.depth ∧ (s.invoke e w revents).destroying = s.destroying := by
  unfold Onces.invoke
  split
  · obtain ⟨hr, h⟩ := raised_onceCb (e := e) { s with loop := s.loop.clearPending (.timer (.once _)) } _
      (revents ||| s.loop.pend.pendingEvents (.timer (.once _)))
    exact ⟨(Loop.raised_clearPending ..).trans hr, h⟩
  · obtain ⟨hr, h⟩ := raised_onceCb (e := e) { s with loop := s.loop.clearPending (.io (.once _)) } _
      (revents ||| s.loop.pend.pendingEvents (.io (.once _)))
    exact ⟨(Loop.raised_clearPending ..).trans hr, h⟩
  · exact ⟨.refl _, rfl, rfl, rfl⟩

/-- Only halves of the block are cleared. -/
theorem pending_onceCb (s : Onces U T F A) (u : U) (revents : Events) (hv : half v = none) :
    (s.onceCb e u revents).loop.pend.pending v = s.loop.pend.pending v := by
  have hne : ∀ x, half x ≠ none → v ≠ x := fun x hx he => hx (he ▸ hv)
  have hio : (s.loop.evIoStop (.once u)).pend.pending v = s.loop.pend.pending v := by
    have hc := Pend.pending_clear s.loop.pend (.io (.once u)) v
    rw [if_neg (hne _ (by simp [half]))] at hc
    unfold Loop.evIoStop
    dsimp only
    split
    · exact hc
    · exact hc
  have hto : ((s.loop.evIoStop (.once u)).evTimerStop e (.once u)).pend.pending v = s.loop.pend.pending v := by
    have hc := Pend.pending_clear (s.loop.evIoStop (.once u)).pend (.timer (.once u)) v
    rw [if_neg (hne _ (by simp [half]))] at hc
    unfold Loop.evTimerStop
    dsimp only
    split
    · exact hc.trans hio
    · exact hc.trans hio
  unfold Onces.onceCb
  dsimp only
  cases s.blocks u with
  | none => exact hto
  | some b => exact hto

theorem pending_invoke (s : Onces U T F A) (w : Watcher U) (revents : Events) (hv : half v = none) :
    (s.invoke e w revents).loop.pend.pending v = s.loop.pend.pending v := by
  have hne : ∀ x, half x ≠ none → v ≠ x := fun x hx he => hx (he ▸ hv)
  unfold Onces.invoke
  split
  · refine (pending_onceCb _ _ _ hv).trans ((Pend.pending_clear ..).trans (if_neg (hne _ ?_)))
    simp [half]
  · refine (pending_onceCb _ _ _ hv).trans ((Pend.pending_clear ..).trans (if_neg (hne _ ?_)))
    simp [half]
  · rfl

theorem invoke_other (s : Onces U T F A) (hw : half w = none) (revents : Events) : s.invoke e w revents = s := by
  unfold Onces.invoke
  split
  · simp [half] at hw
  · simp [half] at hw
  · rfl

/-- The block is freed, and its callback is called. -/
theorem invoke_half {u : U} {b : Block U F A} (hw : half w = some u) (hb : s.blocks u = some b) (revents : Events) :
    ∃ revents', (s.invoke e w revents).hist = .called u b.cb b.arg revents' :: .freed u :: s.hist ∧
      (s.invoke e w revents).blocks = Function.update s.blocks u none := by
  have hcb : ∀ (s' : Onces U T F A) (revents : Events), s'.blocks = s.blocks → s'.hist = s.hist →
      (s'.onceCb e u revents).hist = .called u b.cb b.arg revents :: .freed u :: s.hist ∧
        (s'.onceCb e u revents).blocks = Function.update s.blocks u none := by
    intro s' revents hb' hh
    unfold Onces.onceCb
    dsimp only
    rw [hb', hb, ← hh]
    exact ⟨rfl, rfl⟩
  rcases Loop.half_eq.mp hw with rfl | rfl
  · exact ⟨_, hcb _ _ rfl rfl⟩
  · exact ⟨_, hcb _ _ rfl rfl⟩

theorem calls_invoke {u : U} (hw : half w = some u) (hb : s.blocks u ≠ none) (revents : Events) :
    (s.invoke e w revents).hist.countP Ev.isCalled = s.hist.countP Ev.isCalled + 1 := by
  obtain ⟨b, hb⟩ := Option.ne_none_iff_exists'.mp hb
  obtain ⟨revents', hhist, -⟩ := invoke_half (e := e) hw hb revents
  rw [hhist, List.countP_cons_of_pos (by rfl), List.countP_cons_of_neg (by simp [Ev.isCalled])]

/-- The cursor moves, or a watcher is taken. -/
theorem tick_control (ht : s.tick e = some t) :
    (s.popped = none ∧ t.hist = s.hist ∧ t.blocks = s.blocks ∧ t.destroying = s.destroying ∧
      ∃ n, t.loop = { s.loop with pend := { s.loop.pend with pendingpri := n } } ∧
        (s.ctl = .dec ∧ t.ctl = .test ∧ t.depth = s.depth ∧ n = s.loop.pend.pendingpri - 1 ∨
          s.ctl = .test ∧ s.loop.pend.pendingcnt s.loop.pend.pendingpri = 0 ∧ n = s.loop.pend.pendingpri ∧
            (t.ctl = .dec ∧ t.depth = s.depth ∨ n = 0 ∧ t.ctl = .user ∧ t.depth = s.depth - 1))) ∨
    s.ctl = .test ∧ s.loop.pend.pendingcnt s.loop.pend.pendingpri ≠ 0 ∧ ∃ w revents, s.popped = some w ∧
      w = (s.loop.pend.entry s.loop.pend.pendingpri (s.loop.pend.pendingcnt s.loop.pend.pendingpri - 1)).w ∧
      t = ({ s with
        loop := { s.loop with pend := s.loop.pend.pop s.loop.pend.pendingpri }
        ctl := .user } : Onces U T F A).invoke e w revents := by
  have hnone : ¬ (s.ctl = .test ∧ s.loop.pend.pendingcnt s.loop.pend.pendingpri ≠ 0) → s.popped = none :=
    fun hn => if_neg hn
  unfold Onces.tick Pend.tick at ht
  dsimp only at ht
  cases hc : s.ctl with
  | user => simp [hc] at ht
  | dec =>
    rw [hc] at ht hnone
    cases ht
    exact .inl ⟨hnone (by simp), rfl, rfl, rfl, _, rfl, .inl ⟨rfl, rfl, rfl, rfl⟩⟩
  | test =>
    rw [hc] at ht
    dsimp only at ht
    split at ht
    · rename_i hcnt
      cases ht
      exact .inr ⟨rfl, hcnt, _, _, if_pos ⟨hc, hcnt⟩, rfl, rfl⟩
    · rename_i hcnt
      have hcnt := not_not.mp hcnt
      have hpop := hnone fun hn => hn.2 hcnt
      split at ht
      · cases ht
        exact .inl ⟨hpop, rfl, rfl, rfl, _, rfl, .inr ⟨rfl, hcnt, rfl, .inl ⟨rfl, rfl⟩⟩⟩
      · rename_i hpri
        cases ht
        exact .inl ⟨hpop, rfl, rfl, rfl, _, rfl, .inr ⟨rfl, hcnt, rfl, .inr ⟨not_not.mp hpri, rfl, rfl⟩⟩⟩

end

/-! ### The steps keep the loop in order -/

section

variable {a : Act U T F A} {w : U}

theorem cleanups_tick (ht : s.tick e = some t) : t.loop.cleanups = s.loop.cleanups := by
  rcases tick_control ht with ⟨-, -, -, -, n, hloop, -⟩ | ⟨-, -, w, revents, -, -, rfl⟩
  · rw [hloop]
  · exact (raised_invoke ..).1.cleanups

/-- A step of user code: it is at its place, and `ev_loop_destroy` apart it is a call. -/
theorem step_user (ha : a ≠ .tick) (hs : step e s a = some t) :
    s.destroyed = false ∧ s.InUser ∧ Allowed s a ∧ t = call e s a := by
  unfold step at hs
  split at hs
  · cases hs
  · rename_i hd
    split at hs
    · exact absurd rfl ha
    · rw [Option.ite_none_right_eq_some, Option.some.injEq] at hs
      exact ⟨Bool.eq_false_iff.mpr hd, hs.1.1, hs.1.2, hs.2.symm⟩

theorem step_tick (hs : step e s .tick = some t) :
    s.destroyed = false ∧ (s.Cleaned ∧ t = s.destroyRest e ∨ ¬ s.Cleaned ∧ s.tick e = some t) := by
  unfold step at hs
  split at hs
  · cases hs
  · rename_i hd
    refine ⟨Bool.eq_false_iff.mpr hd, ?_⟩
    dsimp only at hs
    unfold goOn at hs
    split at hs
    · rename_i hc
      cases hs
      exact .inl ⟨hc, rfl⟩
    · rename_i hc
      exact .inr ⟨hc, hs⟩

theorem Good.step [AddRightMono T] (h : Good e s) (hs : step e s a = some t) (ht : t.destroyed = false) :
    Good e t := by
  have hinv : Inv e t := by
    rcases (h.inv.step hs).1 with hi | hg
    · exact hi
    · rw [hg.destroyed] at ht
      cases ht
  refine ⟨hinv, ?_⟩
  have hc : t.loop.cleanups = s.loop.cleanups := by
    by_cases ha : a = .tick
    · rw [ha] at hs
      obtain ⟨-, ⟨-, rfl⟩ | ⟨-, htick⟩⟩ := step_tick hs
      · cases ht
      · exact cleanups_tick htick
    · obtain ⟨-, -, -, rfl⟩ := step_user ha hs
      by_cases hi : a = .invokePending
      · rw [hi]
        rfl
      · by_cases hd : ∃ cleanups, a = .evLoopDestroy cleanups
        · obtain ⟨cleanups, rfl⟩ := hd
          cases cleanups with
          | nil => cases ht
          | cons c cs => rfl
        · exact (raised_call hi fun cleanups hc => hd ⟨cleanups, hc⟩).cleanups
  rw [hc]
  exact h.cleanups

theorem Good.evCleanupStart (h : Good e s) (w : U) : Good e { s with loop := s.loop.evCleanupStart w } := by
  refine ⟨h.inv.quiet (quiet_evCleanupStart h.inv w), ?_⟩
  dsimp only
  unfold Loop.evCleanupStart
  split
  · exact h.cleanups
  · rename_i hw
    exact h.cleanups.start (not_not.mp hw)

theorem Good.evCleanupStop (h : Good e s) (w : U) : Good e { s with loop := s.loop.evCleanupStop w } := by
  refine ⟨h.inv.quiet (quiet_evCleanupStop h.inv w), ?_⟩
  dsimp only
  unfold Loop.evCleanupStop
  dsimp only
  split
  · exact h.cleanups
  · rename_i hw
    exact h.cleanups.stop hw

end

/-- What a deed is. -/
theorem deed_cases {s t : Calls U T F A} {a : Deed U T F A} (hs : deed e s a = some t) :
    (a = .act .tick ∧ step e s.onces .tick = some t.onces ∧ t.invoked = s.onces.popped.toList ++ s.invoked) ∨
    (∃ cleanups, a = .act (.evLoopDestroy cleanups) ∧ cleanups = s.onces.cleanups ∧
      step e s.onces (.evLoopDestroy cleanups) = some t.onces ∧ t.invoked = s.invoked) ∨
    (∃ a', a = .act a' ∧ a' ≠ .tick ∧ (∀ cleanups, a' ≠ .evLoopDestroy cleanups) ∧
      step e s.onces a' = some t.onces ∧ t.invoked = s.invoked) ∨
    (∃ w, (a = .evCleanupStart w ∧ t.onces = { s.onces with loop := s.onces.loop.evCleanupStart w } ∨
        a = .evCleanupStop w ∧ t.onces = { s.onces with loop := s.onces.loop.evCleanupStop w }) ∧
      s.onces.destroyed = false ∧ s.onces.InUser ∧ t.invoked = s.invoked) := by
  unfold deed at hs
  split at hs
  · rename_i cleanups
    rw [Option.ite_none_right_eq_some, Option.map_eq_some_iff] at hs
    obtain ⟨hc, x, hx, rfl⟩ := hs
    exact .inr (.inl ⟨cleanups, rfl, hc, hx, rfl⟩)
  · obtain ⟨x, hx, rfl⟩ := Option.map_eq_some_iff.mp hs
    exact .inl ⟨rfl, hx, rfl⟩
  · rename_i a' hd ht
    obtain ⟨x, hx, rfl⟩ := Option.map_eq_some_iff.mp hs
    exact .inr (.inr (.inl ⟨a', rfl, fun hc => ht hc, fun cleanups hc => hd cleanups hc, hx, rfl⟩))
  · rename_i w
    rw [Option.ite_none_right_eq_some, Option.some.injEq] at hs
    obtain ⟨⟨hd, hu⟩, rfl⟩ := hs
    exact .inr (.inr (.inr ⟨w, .inl ⟨rfl, rfl⟩, hd, hu, rfl⟩))
  · rename_i w
    rw [Option.ite_none_right_eq_some, Option.some.injEq] at hs
    obtain ⟨⟨hd, hu⟩, rfl⟩ := hs
    exact .inr (.inr (.inr ⟨w, .inr ⟨rfl, rfl⟩, hd, hu, rfl⟩))

theorem good_deed [AddRightMono T] {s t : Calls U T F A} {a : Deed U T F A} (h : Good e s.onces)
    (hs : deed e s a = some t) (ht : t.onces.destroyed = false) : Good e t.onces := by
  rcases deed_cases hs with ⟨-, hs, -⟩ | ⟨_, -, -, hs, -⟩ | ⟨_, -, -, -, hs, -⟩ | ⟨w, ⟨-, hw⟩ | ⟨-, hw⟩, -, -, -⟩
  · exact h.step hs ht
  · exact h.step hs ht
  · exact h.step hs ht
  · rw [hw]
    exact h.evCleanupStart w
  · rw [hw]
    exact h.evCleanupStop w

/-! ### The walk through the queues -/

/-- `ev_loop_destroy` was called at the depth `d`: until its `ev_invoke_pending` returns nothing is above the cursor,
and then nothing is queued. -/
structure Sweeping (d : ℕ) (s : Onces U T F A) : Prop where
  destroying : s.destroying = some d
  deep : s.ctl ≠ .user → d < s.depth
  dec : s.ctl = .dec → s.loop.pend.Above s.loop.pend.pendingpri
  test : s.ctl = .test → s.loop.pend.Above (s.loop.pend.pendingpri + 1)
  user : s.ctl = .user → d < s.depth → s.loop.pend.Above (s.loop.pend.pendingpri + 1)
  done : s.ctl = .user → ¬ d < s.depth → s.depth = d ∧ s.loop.pend.Above 0

section

variable {d : ℕ}

theorem Sweeping.inUser (h : Sweeping d s) (hu : s.InUser) : d < s.depth := by
  by_contra hd
  obtain ⟨heq, -⟩ := h.done hu.1 hd
  exact hu.2 (heq ▸ h.destroying)

/-- User code that stays at its depth. -/
theorem Sweeping.stay (h : Sweeping d s) (hu : s.InUser) (ht : Inv e t) (hr : s.loop.pend.Raised t.loop.pend)
    (hc : t.ctl = .user) (hdepth : t.depth = s.depth) (hd : t.destroying = s.destroying) : Sweeping d t := by
  have hdeep := h.inUser hu
  obtain ⟨fed, hok⟩ := ht.core.pend
  exact ⟨hd.trans h.destroying, fun hn => absurd hc hn, fun hn => (by rw [hc] at hn; cases hn),
    fun hn => (by rw [hc] at hn; cases hn), fun _ _ => hr.above hok (h.user hu.1 hdeep),
    fun _ hn => absurd (hdepth ▸ hdeep) hn⟩

theorem Sweeping.call [AddRightMono T] (h : Sweeping d s) {a : Act U T F A} (ha : a ≠ .tick)
    (hno : ∀ cleanups, a ≠ .evLoopDestroy cleanups) (hs : Once.step e s a = some t) (ht : Inv e t) :
    Sweeping d t := by
  obtain ⟨-, hu, hall, rfl⟩ := step_user ha hs
  have hdeep := h.inUser hu
  by_cases hi : a = .invokePending
  · rw [hi] at ht ⊢
    obtain ⟨fed, hok⟩ := ht.core.pend
    exact ⟨h.destroying, fun _ => hdeep.trans (Nat.lt_succ_self _), fun _ => hok.above, fun hn => (by cases hn),
      fun hn => (by cases hn), fun hn => (by cases hn)⟩
  · by_cases hret : a = .ret
    · rw [hret]
      exact ⟨h.destroying, fun _ => hdeep, fun hn => (by cases hn), fun _ => h.user hu.1 hdeep,
        fun hn => (by cases hn), fun hn => (by cases hn)⟩
    · refine h.stay hu ht (raised_call hi hno).pend ?_ ?_ ?_
      · exact (control_call hi hret hno).1.trans hu.1
      · exact (control_call hi hret hno).2.1
      · exact (control_call hi hret hno).2.2

theorem Sweeping.tick (h : Sweeping d s) (hs : s.tick e = some t) (ht : Inv e t) : Sweeping d t := by
  obtain ⟨fed, hok⟩ := ht.core.pend
  rcases tick_control hs with ⟨-, -, -, hd, n, hloop, hctl⟩ | ⟨hc, hcnt, w, revents, -, -, rfl⟩
  · have habove : ∀ k, s.loop.pend.Above k → t.loop.pend.Above k := fun k hk => by
      rw [hloop]
      exact hk
    have hn : t.loop.pend.pendingpri = n := by rw [hloop]
    rcases hctl with ⟨hc, hc', hdepth, hpri⟩ | ⟨hc, hcnt, hpri, ⟨hc', hdepth⟩ | ⟨hzero, hc', hdepth⟩⟩
    · have hdeep := h.deep (by rw [hc]; simp)
      refine ⟨hd.trans h.destroying, fun _ => hdepth ▸ hdeep, ?_, fun _ q hq => ?_, ?_, ?_⟩
      · rw [hc']
        exact fun hn => (by cases hn)
      · refine habove _ (h.dec hc) q ?_
        rw [hn, hpri] at hq
        omega
      · rw [hc']
        exact fun hn => (by cases hn)
      · rw [hc']
        exact fun hn => (by cases hn)
    · have hdeep := h.deep (by rw [hc]; simp)
      have hall : t.loop.pend.Above n := by
        refine habove _ fun q hq => ?_
        by_cases hqn : q = n
        · rw [hqn, hpri]
          exact hcnt
        · exact h.test hc q (by omega)
      refine ⟨hd.trans h.destroying, fun _ => hdepth ▸ hdeep, fun _ => hn ▸ hall, ?_, ?_, ?_⟩
      · rw [hc']
        exact fun hn => (by cases hn)
      · rw [hc']
        exact fun hn => (by cases hn)
      · rw [hc']
        exact fun hn => (by cases hn)
    · have hdeep := h.deep (by rw [hc]; simp)
      have hall : t.loop.pend.Above 0 := by
        refine habove _ fun q _ => ?_
        by_cases hq : q = n
        · rw [hq, hpri]
          exact hcnt
        · exact h.test hc q (by omega)
      refine ⟨hd.trans h.destroying, fun hn => absurd hc' hn, ?_, ?_, fun _ _ q _ => hall q (Nat.zero_le q),
        fun _ hn => ⟨by omega, hall⟩⟩
      · rw [hc']
        exact fun hn => (by cases hn)
      · rw [hc']
        exact fun hn => (by cases hn)
  · have hdeep := h.deep (by rw [hc]; simp)
    obtain ⟨hr, hctl, hdepth, hd⟩ := raised_invoke (e := e)
      ({ s with
        loop := { s.loop with pend := s.loop.pend.pop s.loop.pend.pendingpri }
        ctl := .user } : Onces U T F A) w revents
    have hpop : (s.loop.pend.pop s.loop.pend.pendingpri).Above (s.loop.pend.pendingpri + 1) :=
      Pend.above_pop (h.test hc)
    refine ⟨hd.trans h.destroying, fun hn => absurd hctl hn, ?_, ?_, fun _ _ => hr.pend.above hok hpop,
      fun _ hn => ?_⟩
    · rw [hctl]
      exact fun hn => (by cases hn)
    · rw [hctl]
      exact fun hn => (by cases hn)
    · rw [hdepth] at hn
      exact absurd hdeep hn

end

/-! ### What is called meanwhile -/

/-- The number of calls of `ev_once` callbacks, and of invocations of a watcher, so far. -/
def Calls.calledOnces (s : Calls U T F A) : ℕ := s.onces.hist.countP Ev.isCalled

/-- No half is pending. -/
def Idle (s : Calls U T F A) : Prop := ∀ w, half w ≠ none → s.onces.loop.pend.pending w = 0

/-- From `s₀`, before the call of `ev_loop_destroy`, to `s`: a cleanup watcher that was active is still pending, or
was invoked once; a half that was pending still is, unless callbacks of `ev_once` have been called; and without one
none have been. -/
structure Track (s₀ s : Calls U T F A) : Prop where
  cleanup : ∀ u, s₀.onces.loop.cleanups.active u ≠ 0 →
    s.onces.loop.pend.pending (.cleanup u) ≠ 0 ∧ s.invoked.count (.cleanup u) = s₀.invoked.count (.cleanup u) ∨
      s.onces.loop.pend.pending (.cleanup u) = 0 ∧
        s.invoked.count (.cleanup u) = s₀.invoked.count (.cleanup u) + 1
  called : s₀.calledOnces ≤ s.calledOnces
  waiting : s.calledOnces = s₀.calledOnces →
    ∀ w, half w ≠ none → s₀.onces.loop.pend.pending w ≠ 0 → s.onces.loop.pend.pending w ≠ 0
  idle : Idle s₀ → s.calledOnces = s₀.calledOnces ∧ Idle s

section

variable {s₀ s t : Calls U T F A} {a : Deed U T F A}

/-- User code calls nothing, and keeps apart. -/
theorem Track.user (h : Track s₀ s) (hc : t.calledOnces = s.calledOnces) (hi : t.invoked = s.invoked)
    (ha : ∀ w, (half w ≠ none ∨ ∃ u, w = .cleanup u) →
      (t.onces.loop.pend.pending w ≠ 0 ↔ s.onces.loop.pend.pending w ≠ 0)) : Track s₀ t := by
  refine ⟨fun u hu => ?_, hc ▸ h.called, fun hcalled w hw h₀ => ?_, fun hidle => ?_⟩
  · have hiff := ha (.cleanup u) (.inr ⟨u, rfl⟩)
    rw [hi]
    exact (h.cleanup u hu).imp (fun hp => ⟨hiff.mpr hp.1, hp.2⟩)
      fun hp => ⟨not_not.mp fun hn => hiff.mp hn hp.1, hp.2⟩
  · exact (ha w (.inl hw)).mpr (h.waiting (hc ▸ hcalled) w hw h₀)
  · obtain ⟨h₁, h₂⟩ := h.idle hidle
    exact ⟨hc.trans h₁, fun w hw => not_not.mp fun hn => (ha w (.inl hw)).mp hn (h₂ w hw)⟩

theorem called_call [AddRightMono T] {s : Onces U T F A} {a : Act U T F A} (h : Inv e s) (ha : Allowed s a)
    (hne : a ≠ .tick) (hno : ∀ cleanups, a ≠ .evLoopDestroy cleanups) :
    (call e s a).hist.countP Ev.isCalled = s.hist.countP Ev.isCalled := by
  rcases h.loopAct ha hne with hq | ⟨u, fd, events, timeout, cb, arg, rfl⟩ | rfl
  · rw [hq.hist]
  · unfold call Onces.evOnce
    dsimp only
    cases cb with
    | none => rfl
    | some cb =>
      dsimp only
      split
      · rfl
      · exact List.countP_cons_of_neg (by simp [Ev.isCalled])
  · exact absurd rfl (hno [])

/-- What is taken from the top of a queue is pending, and the dummy apart it was not the dummy's. -/
theorem popped_pending {s : Onces U T F A} (h : Inv e s)
    (hcnt : s.loop.pend.pendingcnt s.loop.pend.pendingpri ≠ 0) {w : Watcher U}
    (hw : w = (s.loop.pend.entry s.loop.pend.pendingpri (s.loop.pend.pendingcnt s.loop.pend.pendingpri - 1)).w)
    (hne : w ≠ .pendingW) : s.loop.pend.pending w ≠ 0 :=
  (pendingEvents_top h.core hcnt hw.symm hne).1

theorem Track.tick (h : Track s₀ s) (hinv : Inv e s.onces) (hs : s.onces.tick e = some t.onces)
    (hi : t.invoked = s.onces.popped.toList ++ s.invoked) : Track s₀ t := by
  rcases tick_control hs with ⟨hpop, hhist, -, -, n, hloop, -⟩ | ⟨-, hcnt, w, revents, hpop, hw, ht⟩
  · refine h.user (congrArg (List.countP Ev.isCalled) hhist) ?_ fun v _ => ?_
    · rw [hi, hpop]
      rfl
    · rw [hloop]
  · have hpend := popped_pending hinv hcnt hw
    have htaken := Pend.pending_pop s.onces.loop.pend s.onces.loop.pend.pendingpri
    rw [← hw] at htaken
    generalize s.onces.loop.pend.pop s.onces.loop.pend.pendingpri = p at ht htaken
    have hpending : ∀ v, half v = none →
        t.onces.loop.pend.pending v = if v = w then 0 else s.onces.loop.pend.pending v := by
      intro v hv
      rw [ht, pending_invoke _ _ _ hv]
      exact htaken v
    have hinvoked : t.invoked = w :: s.invoked := by
      rw [hi, hpop]
      rfl
    have hcleanup : ∀ u, s₀.onces.loop.cleanups.active u ≠ 0 →
        t.onces.loop.pend.pending (.cleanup u) ≠ 0 ∧
            t.invoked.count (.cleanup u) = s₀.invoked.count (.cleanup u) ∨
          t.onces.loop.pend.pending (.cleanup u) = 0 ∧
            t.invoked.count (.cleanup u) = s₀.invoked.count (.cleanup u) + 1 := by
      intro u hu
      rw [hpending (.cleanup u) rfl, hinvoked]
      by_cases huw : .cleanup u = w
      · rw [if_pos huw, ← huw, List.count_cons_self]
        refine .inr ⟨rfl, ?_⟩
        rcases h.cleanup u hu with ⟨-, hc⟩ | ⟨hp, -⟩
        · rw [hc]
        · exact absurd hp (huw ▸ hpend (by rw [← huw]; simp))
      · rw [if_neg huw, List.count_cons_of_ne (Ne.symm huw)]
        exact h.cleanup u hu
    by_cases hhalf : half w = none
    · have hcalled : t.calledOnces = s.calledOnces := by
        unfold Calls.calledOnces
        rw [ht, invoke_other _ hhalf]
      have hother : ∀ v, half v ≠ none → (t.onces.loop.pend.pending v = s.onces.loop.pend.pending v) := by
        intro v hv
        have hne : v ≠ w := fun hc => hv (hc ▸ hhalf)
        rw [ht, invoke_other _ hhalf]
        exact (htaken v).trans (if_neg hne)
      refine ⟨hcleanup, hcalled ▸ h.called, fun hc v hv h₀ => ?_, fun hidle => ?_⟩
      · rw [hother v hv]
        exact h.waiting (hcalled ▸ hc) v hv h₀
      · obtain ⟨h₁, h₂⟩ := h.idle hidle
        exact ⟨hcalled.trans h₁, fun v hv => (hother v hv).trans (h₂ v hv)⟩
    · obtain ⟨u, hu⟩ := Option.ne_none_iff_exists'.mp hhalf
      have hpend := hpend fun hc => by rw [hc] at hu; cases hu
      have hblock : s.onces.blocks u ≠ none := (hinv.live u).mpr (reached_iff.mpr ⟨w, hu, .inr (.inl hpend)⟩)
      have hcalled : t.calledOnces = s.calledOnces + 1 := by
        unfold Calls.calledOnces
        rw [ht]
        exact calls_invoke hu (by exact hblock) revents
      refine ⟨hcleanup, hcalled ▸ h.called.trans (Nat.le_succ _), fun hc => ?_, fun hidle => ?_⟩
      · have hle := h.called
        omega
      · exact absurd ((h.idle hidle).2 w hhalf) hpend

end

/-! ### From the call of ev_loop_destroy to its end -/

section

variable {s₀ s t : Calls U T F A} {a : Deed U T F A} {d : ℕ}

/-- The loop is gone, and what was called meanwhile. -/
structure Swept (e : Env U T) (s₀ t : Calls U T F A) : Prop where
  gone : Gone e t.onces
  cleanup : ∀ u, s₀.onces.loop.cleanups.active u ≠ 0 →
    t.invoked.count (.cleanup u) = s₀.invoked.count (.cleanup u) + 1
  called : t.calledOnces = s₀.calledOnces ↔ s₀.onces.loop.cleanups.cnt 0 = 0 ∨ Idle s₀

/-- `once_reclaim` calls nothing. -/
theorem called_destroyRest {s : Onces U T F A} (h : Inv e s) :
    (s.destroyRest e).hist.countP Ev.isCalled = s.hist.countP Ev.isCalled := by
  obtain ⟨-, L, hL⟩ := h.destroyRest
  have hnone : ((L.map .freed).reverse : List (Ev U F A)).countP Ev.isCalled = 0 := by
    rw [List.countP_eq_zero]
    intro x hx
    obtain ⟨u, -, rfl⟩ := List.mem_map.mp (List.mem_reverse.mp hx)
    simp [Ev.isCalled]
  rw [hL, List.countP_append, hnone, Nat.zero_add]

/-- Nothing is pending once nothing is queued. -/
theorem pending_none {s : Onces U T F A} (h : Inv e s) (habove : s.loop.pend.Above 0) (w : Watcher U) :
    s.loop.pend.pending w = 0 := by
  obtain ⟨fed, hok⟩ := h.core.pend
  by_contra hw
  obtain ⟨hle, -⟩ := hok.held w hw
  rw [habove _ (Nat.zero_le _)] at hle
  omega

/-- The queues are empty, and `ev_loop_destroy` goes on. -/
theorem Track.swept (h : Track s₀ s) (hcnt : s₀.onces.loop.cleanups.cnt 0 ≠ 0) (hinv : Inv e s.onces)
    (habove : s.onces.loop.pend.Above 0) (ht : t.onces = s.onces.destroyRest e) (hi : t.invoked = s.invoked) :
    Swept e s₀ t := by
  have hnone := pending_none hinv habove
  have hcalled : t.calledOnces = s.calledOnces := by
    unfold Calls.calledOnces
    rw [ht]
    exact called_destroyRest hinv
  refine ⟨ht ▸ hinv.destroyRest.1, fun u hu => ?_, ?_⟩
  · rw [hi]
    rcases h.cleanup u hu with ⟨hp, -⟩ | ⟨-, hc⟩
    · exact absurd (hnone _) hp
    · exact hc
  · rw [hcalled]
    refine ⟨fun hc => .inr fun w hw => ?_, fun hidle => ?_⟩
    · by_contra hp
      exact h.waiting hc w hw hp (hnone w)
    · exact (h.idle (hidle.resolve_left hcnt)).1

/-- `ev_loop_destroy` with a cleanup watcher: all of them are queued. -/
theorem Good.queued [AddRightMono T] (h : Good e s.onces) (hcnt : s.onces.loop.cleanups.cnt 0 ≠ 0)
    (hs : Once.step e s.onces (.evLoopDestroy s.onces.cleanups) = some t.onces) (hi : t.invoked = s.invoked) :
    Good e t.onces ∧ Sweeping s.onces.depth t.onces ∧ Track s t := by
  have hc : s.onces.cleanups ≠ [] := by simpa [Onces.cleanups, Slots.toList] using hcnt
  obtain ⟨hd, -, -, ht⟩ := step_user (by simp) hs
  replace ht : t.onces =
      { ({ s.onces with
          loop := s.onces.loop.queueEvents (s.onces.cleanups.map .cleanup)
            evCleanup } : Onces U T F A).invokePending with
        destroying := some s.onces.depth } := by
    rw [ht]
    exact if_pos hc
  have hgood : Good e t.onces := h.step hs (by rw [ht]; exact hd)
  have hpend : ∀ w, t.onces.loop.pend.pending w ≠ 0 ↔
      w ∈ s.onces.cleanups.map .cleanup ∨ s.onces.loop.pend.pending w ≠ 0 := by
    intro w
    rw [ht]
    exact Pend.pending_feeds ..
  have hhalf : ∀ w, half w ≠ none → (t.onces.loop.pend.pending w ≠ 0 ↔ s.onces.loop.pend.pending w ≠ 0) := by
    intro w hw
    rw [hpend w]
    refine or_iff_right fun hm => ?_
    obtain ⟨u, -, rfl⟩ := List.mem_map.mp hm
    exact hw rfl
  have hcalled : t.calledOnces = s.calledOnces := by
    unfold Calls.calledOnces
    rw [ht]
    rfl
  obtain ⟨fed, hok⟩ := hgood.inv.core.pend
  have hctl : t.onces.ctl = .dec := by rw [ht]; rfl
  refine ⟨hgood, ⟨by rw [ht], fun _ => ?_, fun _ => ?_, ?_, ?_, ?_⟩,
    ⟨fun u hu => ?_, hcalled.ge, fun _ w hw h₀ => ?_, fun hidle => ⟨hcalled, fun w hw => ?_⟩⟩⟩
  · rw [ht]
    exact Nat.lt_succ_self _
  · rw [show t.onces.loop.pend.pendingpri = numpri by rw [ht]; rfl]
    exact hok.above
  · rw [hctl]
    exact fun hn => (by cases hn)
  · rw [hctl]
    exact fun hn => (by cases hn)
  · rw [hctl]
    exact fun hn => (by cases hn)
  · refine .inl ⟨(hpend _).mpr (.inl (List.mem_map.mpr ⟨u, ?_, rfl⟩)), by rw [hi]⟩
    exact (h.cleanups.mem).mpr ⟨hu, rfl⟩
  · exact (hhalf w hw).mpr h₀
  · exact not_not.mp fun hn => (hhalf w hw).mp hn (hidle w hw)

/-- `ev_loop_destroy` without a cleanup watcher frees the blocks at once. -/
theorem Good.reclaimed (h : Good e s.onces) (hcnt : s.onces.loop.cleanups.cnt 0 = 0)
    (hs : Once.step e s.onces (.evLoopDestroy s.onces.cleanups) = some t.onces) : Swept e s t := by
  have hc : s.onces.cleanups = [] := by simpa [Onces.cleanups, Slots.toList] using hcnt
  obtain ⟨-, -, -, ht⟩ := step_user (by simp) hs
  replace ht : t.onces = s.onces.destroyRest e := by
    rw [ht]
    exact if_neg (not_not.mpr hc)
  refine ⟨ht ▸ h.inv.destroyRest.1, fun u hu => ?_, iff_of_true ?_ (.inl hcnt)⟩
  · have hm : u ∈ s.onces.cleanups := h.cleanups.mem.mpr ⟨hu, rfl⟩
    rw [hc] at hm
    cases hm
  · unfold Calls.calledOnces
    rw [ht]
    exact called_destroyRest h.inv

theorem raised_evCleanupStart (h : Inv e s.onces) (w : U) :
    s.onces.loop.pend.Raised (s.onces.loop.evCleanupStart w).pend := by
  unfold Loop.evCleanupStart
  split
  · exact .refl _
  · unfold Loop.evStart
    rw [h.core.priAdjust]
    exact .refl _

theorem raised_evCleanupStop (l : Loop U T Unit) (w : U) : l.pend.Raised (l.evCleanupStop w).pend := by
  have hclear := Pend.raised_clear l.pend (.cleanup w)
  unfold Loop.evCleanupStop
  dsimp only
  split
  · exact hclear
  · exact hclear

theorem inv_call [AddRightMono T] {s : Onces U T F A} {a : Act U T F A} (h : Inv e s) (ha : Allowed s a)
    (hne : a ≠ .tick) (hno : ∀ cleanups, a ≠ .evLoopDestroy cleanups) : Inv e (call e s a) := by
  rcases h.loopAct ha hne with hq | ⟨u, fd, events, timeout, cb, arg, rfl⟩ | rfl
  · exact h.quiet hq
  · exact h.once ha fd events timeout cb arg
  · exact absurd rfl (hno [])

/-- One step meanwhile. -/
theorem Track.step [AddRightMono T] (hcnt : s₀.onces.loop.cleanups.cnt 0 ≠ 0) (hg : Good e s.onces)
    (hw : Sweeping d s.onces) (h : Track s₀ s) (hs : deed e s a = some t) (hap : Apart s a t) :
    (Good e t.onces ∧ Sweeping d t.onces ∧ Track s₀ t) ∨ Swept e s₀ t := by
  rcases deed_cases hs with ⟨rfl, hstep, hi⟩ | ⟨cleanups, -, -, hstep, -⟩ | ⟨a', rfl, hne, hno, hstep, hi⟩ |
    ⟨w, hcase, hd, hu, hi⟩
  · obtain ⟨hd, ⟨hc, ht⟩ | ⟨hc, htick⟩⟩ := step_tick hstep
    · have hdeep : ¬ d < s.onces.depth := by
        have heq := Option.some.inj (hw.destroying.symm.trans hc.2)
        omega
      have hpop : s.onces.popped = none := if_neg fun hn => by
        rw [hc.1] at hn
        exact absurd hn.1 (by simp)
      rw [hpop] at hi
      exact .inr (h.swept hcnt hg.inv (hw.done hc.1 hdeep).2 ht hi)
    · have hgood := hg.step hstep (hg.inv.tick htick).1.alive
      exact .inl ⟨hgood, hw.tick htick hgood.inv, h.tick hg.inv htick hi⟩
  · obtain ⟨-, -, hall, -⟩ := step_user (by simp) hstep
    exact absurd (hall.symm.trans hw.destroying) (by simp)
  · obtain ⟨hd, -, hall, ht⟩ := step_user hne hstep
    have hcalled : t.calledOnces = s.calledOnces := by
      unfold Calls.calledOnces
      rw [ht]
      exact called_call hg.inv hall hne hno
    have hgood := hg.step hstep (ht ▸ (inv_call hg.inv hall hne hno).alive)
    exact .inl ⟨hgood, hw.call hne hno hstep hgood.inv, h.user hcalled hi (hap (by simpa using hne))⟩
  · have hgood : Good e t.onces ∧ s.onces.loop.pend.Raised t.onces.loop.pend ∧ t.onces.ctl = s.onces.ctl ∧
        t.onces.depth = s.onces.depth ∧ t.onces.destroying = s.onces.destroying ∧ t.onces.hist = s.onces.hist := by
      rcases hcase with ⟨-, ht⟩ | ⟨-, ht⟩
      · rw [ht]
        exact ⟨hg.evCleanupStart w, raised_evCleanupStart hg.inv w, rfl, rfl, rfl, rfl⟩
      · rw [ht]
        exact ⟨hg.evCleanupStop w, raised_evCleanupStop s.onces.loop w, rfl, rfl, rfl, rfl⟩
    obtain ⟨hgood, hr, hctl, hdepth, hdes, hhist⟩ := hgood
    refine .inl ⟨hgood, hw.stay hu hgood.inv hr (hctl.trans hu.1) hdepth hdes,
      h.user (congrArg (List.countP Ev.isCalled) hhist) hi (hap ?_)⟩
    rcases hcase with ⟨rfl, -⟩ | ⟨rfl, -⟩
    · simp
    · simp

/-- After `ev_loop_destroy` there is no step. -/
theorem deed_destroyed (hd : s.onces.destroyed = true) : deed e s a ≠ some t := by
  intro hs
  have hno : ∀ a t', Once.step e s.onces a ≠ some t' := fun a t' h => by
    unfold Once.step at h
    rw [if_pos hd] at h
    cases h
  rcases deed_cases hs with ⟨-, h, -⟩ | ⟨_, -, -, h, -⟩ | ⟨_, -, -, -, h, -⟩ | ⟨_, -, h, -⟩
  · exact hno _ _ h
  · exact hno _ _ h
  · exact hno _ _ h
  · rw [hd] at h
    cases h

theorem good_init [Inhabited U] (backend : Backend) (noinotify signalfd notimerfd : Bool) :
    Good e (init (F := F) (A := A) (Loop.init backend noinotify signalfd notimerfd ())) :=
  ⟨inv_init e backend noinotify signalfd notimerfd,
    ⟨fun _ _ hi => absurd hi (Nat.not_lt_zero _), fun _ h => absurd rfl h⟩⟩

/-- Whenever `ev_loop_destroy` is called, it invokes each active cleanup watcher once, calls no callback of `ev_once`
and frees each block, exactly if no cleanup watcher is active or no half is pending. -/
theorem destroy_delivers [Inhabited U] [AddRightMono T] (e : Env U T) (backend : Backend)
    (noinotify signalfd notimerfd : Bool) {before after : List (Deed U T F A)} {s s₁ t : Calls U T F A}
    (hbefore : Deeds e ⟨init (Loop.init backend noinotify signalfd notimerfd ()), []⟩ before s)
    (hdestroy : deed e s (.act (.evLoopDestroy s.onces.cleanups)) = some s₁)
    (hafter : Run (fun s a t => deed e s a = some t ∧ Apart s a t) s₁ after t) (hend : t.onces.destroyed = true) :
    ((∀ u, s.onces.loop.cleanups.active u ≠ 0 →
        t.invoked.count (.cleanup u) = s.invoked.count (.cleanup u) + 1) ∧
      t.calledOnces = s.calledOnces ∧
      ∀ u, ∃ st, Lives u t.onces.hist st ∧ ∀ cb arg, st ≠ .live cb arg) ↔
    s.onces.loop.cleanups.cnt 0 = 0 ∨ Idle s := by
  have hgood : Good e s.onces := by
    refine (Run.invariant (I := fun s => s.onces.destroyed = false → Good e s.onces) (fun s a t hs hst ht => ?_)
      hbefore fun _ => good_init backend noinotify signalfd notimerfd) ?_
    · exact good_deed (hs (Bool.eq_false_iff.mpr fun hd => deed_destroyed hd hst)) hst ht
    · exact Bool.eq_false_iff.mpr fun hd => deed_destroyed hd hdestroy
  have hswept : Swept e s t := by
    rcases deed_cases hdestroy with ⟨h, -⟩ | ⟨cleanups, -, rfl, hstep, hi⟩ | ⟨_, h, -, hno, -⟩ |
      ⟨_, ⟨h, -⟩ | ⟨h, -⟩, -⟩
    · cases h
    · by_cases hcnt : s.onces.loop.cleanups.cnt 0 = 0
      · have hswept := hgood.reclaimed hcnt hstep
        cases hafter with
        | nil => exact hswept
        | cons h _ => exact absurd h.1 (deed_destroyed hswept.gone.destroyed)
      · have h₁ := hgood.queued hcnt hstep hi
        refine (Run.invariant
          (I := fun t => (Good e t.onces ∧ Sweeping s.onces.depth t.onces ∧ Track s t) ∨ Swept e s t)
          (fun t a t' ht hst => ?_) hafter (.inl h₁)).resolve_left fun h => ?_
        · rcases ht with ⟨hg, hw, htrack⟩ | hswept
          · exact htrack.step hcnt hg hw hst.1 hst.2
          · exact absurd hst.1 (deed_destroyed hswept.gone.destroyed)
        · rw [h.1.inv.alive] at hend
          cases hend
    · cases h
      exact absurd rfl (hno _)
    · cases h
    · cases h
  refine Iff.trans ⟨fun h => h.2.1, fun h => ⟨hswept.cleanup, h, hswept.gone.told⟩⟩ hswept.called

/-- Callbacks that just return. -/
theorem deeds_apart {l : List (Deed U T F A)} (hl : ∀ a ∈ l, a = .act .tick ∨ a = .act .ret) (h : Deeds e s l t) :
    Run (fun s a t => deed e s a = some t ∧ Apart s a t) s l t := by
  induction h with
  | nil s => exact .nil s
  | cons h₁ _ ih =>
    refine .cons ⟨h₁, fun hne w _ => ?_⟩ (ih fun a ha => hl a (List.mem_cons_of_mem _ ha))
    obtain rfl := (hl _ List.mem_cons_self).resolve_left hne
    obtain ⟨t, ht, rfl⟩ := Option.map_eq_some_iff.mp (show (Once.step e _ .ret).map _ = some _ from h₁)
    obtain ⟨-, -, -, rfl⟩ := step_user (by simp) ht
    exact Iff.rfl

end

/-- A cleanup watcher, and the timer of a block; the time is `now` when the loop is destroyed. -/
def teardown (now : ℤ) : List (Deed Bool ℤ Unit Unit) :=
  [.evCleanupStart true, .act (.evOnce false (-1) 0 7 (some ()) ()), .act (.timeUpdate now), .act .timersReify]

/-- The callbacks that are called just return. -/
def sweep (called : ℕ) : List (Deed Bool ℤ Unit Unit) :=
  List.replicate 6 (.act .tick) ++ (List.replicate called [.act .ret, .act .tick]).flatten ++
    List.replicate 5 (.act .tick)

/-- The run up to the call of `ev_loop_destroy`, and from there. -/
theorem exists_teardown {e : Env Bool ℤ} (now : ℤ) (called : ℕ) {X : Type}
    {f : Calls Bool ℤ Unit Unit → Calls Bool ℤ Unit Unit → X} {x : X}
    (hx : ((execFrom (deed e) ⟨init (Loop.init .select true false true ()), []⟩ (teardown now)).bind fun s =>
      (execFrom (deed e) s (.act (.evLoopDestroy [true]) :: sweep called)).map fun t => (s.onces.cleanups, f s t)) =
        some ([true], x)) :
    ∃ s s₁ t, Deeds e ⟨init (Loop.init .select true false true ()), []⟩ (teardown now) s ∧
      deed e s (.act (.evLoopDestroy s.onces.cleanups)) = some s₁ ∧
      Run (fun s a t => deed e s a = some t ∧ Apart s a t) s₁ (sweep called) t ∧
      s.onces.cleanups = [true] ∧ f s t = x := by
  obtain ⟨s, hs, hx⟩ := Option.bind_eq_some_iff.mp hx
  obtain ⟨t, ht, hx⟩ := Option.map_eq_some_iff.mp hx
  obtain ⟨hc, hf⟩ := Prod.mk.inj hx
  cases Run.iff_execFrom.mpr ht with
  | cons h₁ h₂ =>
    refine ⟨s, _, t, Run.iff_execFrom.mpr hs, hc ▸ h₁, deeds_apart (fun a ha => ?_) h₂, hc, hf⟩
    simp only [sweep, List.mem_append, List.mem_replicate, List.mem_flatten] at ha
    rcases ha with (⟨-, rfl⟩ | ⟨l, ⟨-, rfl⟩, ha⟩) | ⟨-, rfl⟩
    · exact .inl rfl
    · simpa [or_comm] using ha
    · exact .inl rfl

/-- The timer is not due: the cleanup watcher is invoked, and the block is freed. -/
theorem destroy_delivers_idle :
    ∃ s t : Calls Bool ℤ Unit Unit, s.onces.cleanups = [true] ∧ s.onces.hist = [.allocated false () ()] ∧
      (∀ u, s.onces.loop.cleanups.active u ≠ 0 →
        t.invoked.count (.cleanup u) = s.invoked.count (.cleanup u) + 1) ∧
      t.calledOnces = s.calledOnces ∧ ∀ u, ∃ st, Lives u t.onces.hist st ∧ ∀ cb arg, st ≠ .live cb arg := by
  obtain ⟨s, s₁, t, hs, hd, ht, hc, hx⟩ := exists_teardown (e := ⟨.four, fun _ _ _ => 0, fun _ _ _ => 0⟩) 3 1
    (f := fun s t => (s.onces.hist, t.onces.destroyed, [Watcher.io (.once false), .io (.once true),
      .timer (.once false), .timer (.once true)].map s.onces.loop.pend.pending))
    (x := ([.allocated false () ()], true, [0, 0, 0, 0])) (by decide +kernel)
  obtain ⟨hhist, hx⟩ := Prod.mk.inj hx
  obtain ⟨hend, hx⟩ := Prod.mk.inj hx
  have hidle : Idle s := by
    intro w hw
    simp only [List.map_cons, List.map_nil, List.cons.injEq, and_true] at hx
    obtain ⟨u, hu⟩ := Option.ne_none_iff_exists'.mp hw
    rcases Loop.half_eq.mp hu with rfl | rfl
    · cases u with
      | false => exact hx.1
      | true => exact hx.2.1
    · cases u with
      | false => exact hx.2.2.1
      | true => exact hx.2.2.2
  exact ⟨s, t, hc, hhist, (destroy_delivers _ .select true false true hs hd ht hend).mpr (.inr hidle)⟩

/-- The timer is pending when the loop is destroyed, and its callback is called. -/
theorem destroy_delivers_fails :
    ¬ ∀ (e : Env Bool ℤ) (before after : List (Deed Bool ℤ Unit Unit)) (s s₁ t : Calls Bool ℤ Unit Unit),
      Deeds e ⟨init (Loop.init .select true false true ()), []⟩ before s →
      deed e s (.act (.evLoopDestroy s.onces.cleanups)) = some s₁ →
      Run (fun s a t => deed e s a = some t ∧ Apart s a t) s₁ after t → t.onces.destroyed = true →
        (∀ u, s.onces.loop.cleanups.active u ≠ 0 →
          t.invoked.count (.cleanup u) = s.invoked.count (.cleanup u) + 1) ∧
        t.calledOnces = s.calledOnces ∧ ∀ u, ∃ st, Lives u t.onces.hist st ∧ ∀ cb arg, st ≠ .live cb arg := by
  intro h
  obtain ⟨s, s₁, t, hs, hd, ht, -, hx⟩ := exists_teardown (e := ⟨.four, fun _ _ _ => 0, fun _ _ _ => 0⟩) 9 2
    (f := fun s t => (s.calledOnces, t.calledOnces, t.onces.destroyed)) (x := (0, 1, true)) (by decide +kernel)
  simp only [Prod.mk.injEq] at hx
  have hcalled := (h _ _ _ s s₁ t hs hd ht hx.2.2).2.1
  rw [hx.1, hx.2.1] at hcalled
  exact absurd hcalled one_ne_zero

end Once

end Qev
