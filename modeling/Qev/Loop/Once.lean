/-
# ev_once

`ev_once` allocates a block with an io watcher, a timer, or both started, that nobody else
has a handle on. The callback of either half stops both, frees the block and calls the
user's callback; `ev_loop_destroy` frees those that are left, which it finds by walking the
queues, the lists of the fds and the heap (`onceReclaim`).

A block is named by the `U` of its halves. `Onces.hist` records the allocations, the frees
and the calls.
-/
import Qev.Loop.Invoke
import Qev.Loop.Timers

namespace Qev

open Lib

/-- `EV_CLEANUP`. -/
def evCleanup : Events := 0x40000

/-- The block a watcher is a half of. -/
def half {U : Type} : Watcher U → Option U
  | .io (.once u) => some u
  | .timer (.once u) => some u
  | _ => none

namespace Once

/-- `struct ev_once` without its watchers. `reclaim` is another block of the list of `once_reclaim`, or the block
itself at its tail. -/
structure Block (U F A : Type) where
  cb : F
  arg : A
  reclaim : Option U

inductive Ev (U F A : Type)
  | allocated (u : U) (cb : F) (arg : A)
  | freed (u : U)
  | called (u : U) (cb : F) (arg : A) (revents : Events)
  deriving DecidableEq

/-- `destroying` is the depth `ev_loop_destroy` was called at, while it has cleanup watchers invoked. `hist` has
the newest first. -/
structure Onces (U T F A : Type) where
  loop : Loop U T Unit
  ctl : Pend.Ctl
  depth : ℕ
  blocks : U → Option (Block U F A)
  destroying : Option ℕ
  destroyed : Bool
  hist : List (Ev U F A)

variable {U T F A : Type} [DecidableEq U] [LinearOrder T] [Add T] [Sub T] [Zero T]

/-- The run starts with a new loop, outside `ev_invoke_pending`. -/
def init (loop : Loop U T Unit) : Onces U T F A := ⟨loop, .user, 0, fun _ => none, none, false, []⟩

namespace Onces

variable (e : Env U T) (s : Onces U T F A)

/-- `ev_free (once)`. -/
def free (u : U) : Onces U T F A :=
  { s with blocks := Function.update s.blocks u none, hist := .freed u :: s.hist }

/-! ### The callbacks -/

def onceCb (u : U) (revents : Events) : Onces U T F A :=
  let loop := (s.loop.evIoStop (.once u)).evTimerStop e (.once u)
  let s' := ({ s with loop := loop } : Onces U T F A).free u
  match s.blocks u with
  | none => s'
  | some b => { s' with hist := .called u b.cb b.arg revents :: s'.hist }

/-- `once_cb_io`. -/
def onceCbIo (u : U) (revents : Events) : Onces U T F A :=
  let pending := s.loop.pend.pendingEvents (.timer (.once u))
  ({ s with loop := s.loop.clearPending (.timer (.once u)) } : Onces U T F A).onceCb e u (revents ||| pending)

/-- `once_cb_to`. -/
def onceCbTo (u : U) (revents : Events) : Onces U T F A :=
  let pending := s.loop.pend.pendingEvents (.io (.once u))
  ({ s with loop := s.loop.clearPending (.io (.once u)) } : Onces U T F A).onceCb e u (revents ||| pending)

/-- A callback is called. Those of other watchers are user code, or like it. -/
def invoke (w : Watcher U) (revents : Events) : Onces U T F A :=
  match w with
  | .io (.once u) => s.onceCbIo e u revents
  | .timer (.once u) => s.onceCbTo e u revents
  | _ => s

/-! ### once_reclaim -/

/-- The block a watcher belongs to is added to the list the first time it is seen. -/
def onceCollect (s : Option U × (U → Option (Block U F A))) (w : Watcher U) :
    Option U × (U → Option (Block U F A)) :=
  match half w with
  | none => s
  | some u =>
    match s.2 u with
    | some ⟨cb, arg, none⟩ => (some u, Function.update s.2 u (some ⟨cb, arg, some (s.1.getD u)⟩))
    | _ => s

/-- What `once_reclaim` looks at. -/
def walk (l : Loop U T Unit) : List (Watcher U) :=
  ((List.range numpri).reverse.flatMap fun pri =>
    (List.range (l.pend.pendingcnt pri)).reverse.map fun i => (l.pend.entry pri i).w) ++
  ((List.range l.fds.anfdmax).flatMap fun fd => (l.fds.anfds fd).head.map .io) ++
  (List.range l.timers.cnt).reverse.map fun i => .timer (l.timers.heap.cells (i + e.heap.heap0)).anheW

/-- The last loop of `once_reclaim`, at most `n` rounds. -/
def freeLoop : ℕ → Option U → Onces U T F A → Onces U T F A
  | n + 1, some u, s =>
    match s.blocks u with
    | none => s.free u
    | some once => freeLoop n (if once.reclaim = some u then none else once.reclaim) (s.free u)
  | _, _, s => s

def onceReclaim : Onces U T F A :=
  let ws := walk e s.loop
  let (list, blocks) := ws.foldl onceCollect (none, s.blocks)
  freeLoop ws.length list { s with blocks := blocks }

/-! ### ev_once -/

/-- `ev_once`, when `ev_malloc` answers with `u`. -/
def evOnce (u : U) (fd : ℤ) (events : Events) (timeout : T) (cb : Option F) (arg : A) : Onces U T F A :=
  let events := events &&& (evRead ||| evWrite)
  match cb with
  | none => s
  | some cb =>
    if (fd < 0 ∨ events = 0) ∧ timeout < 0 then s
    else
      let l := s.loop.evInit (.io (.once u))
      let l :=
        if 0 ≤ fd ∧ events ≠ 0 then (l.evIoSet (.once u) fd.toNat events).evIoStart (.once u) else l
      let l := l.evInit (.timer (.once u))
      let l := if 0 ≤ timeout then (l.evTimerSet (.once u) timeout 0).evTimerStart e (.once u) else l
      { s with
        loop := l
        blocks := Function.update s.blocks u (some ⟨cb, arg, none⟩)
        hist := .allocated u cb arg :: s.hist }

/-! ### ev_loop_destroy -/

/-- `EV_INVOKE_PENDING`. -/
def invokePending : Onces U T F A :=
  { s with
    loop := { s.loop with pend := { s.loop.pend with pendingpri := numpri } }
    ctl := .dec
    depth := s.depth + 1 }

/-- From `once_reclaim` on. The arrays are freed. -/
def destroyRest : Onces U T F A :=
  let s := s.onceReclaim e
  { s with
    loop := { s.loop with
      pend := { s.loop.pend with pendingcnt := fun _ => 0, rfeeds := [] }
      fds := { s.loop.fds with
        anfds := fun _ => ⟨[], 0, 0, 0, 0⟩
        anfdmax := 0
        fdchanges := [] }
      timers := { s.loop.timers with cnt := 0 } }
    destroyed := true }

/-- `ev_loop_destroy`, with the active cleanup watchers. -/
def evLoopDestroy (cleanups : List U) : Onces U T F A :=
  if cleanups ≠ [] then
    { ({ s with loop := s.loop.queueEvents (cleanups.map .cleanup) evCleanup } : Onces U T F A).invokePending with
      destroying := some s.depth }
  else s.destroyRest e

/-- One step of `ev_invoke_pending`. -/
def tick : Option (Onces U T F A) :=
  (Pend.tick ⟨s.loop.pend, s.ctl, s.depth, []⟩).map fun d =>
    let s : Onces U T F A := { s with loop := { s.loop with pend := d.pend }, ctl := d.ctl, depth := d.depth }
    match d.log with
    | .invoked w revents :: _ => s.invoke e w revents
    | _ => s

/-- `EV_INVOKE_PENDING` has returned to `ev_loop_destroy`. -/
def Cleaned : Prop := s.ctl = .user ∧ s.destroying = some s.depth

/-- User code runs, or the loop between two calls of it. -/
def InUser : Prop := s.ctl = .user ∧ s.destroying ≠ some s.depth

instance : Decidable s.Cleaned := inferInstanceAs (Decidable (_ ∧ _))

instance : Decidable s.InUser := inferInstanceAs (Decidable (_ ∧ _))

end Onces

/-! ### Runs -/

/-- What user code and the loop's passes do, in any order. `fdReify` has the fds the backend refuses. -/
inductive Act (U T F A : Type)
  | evOnce (u : U) (fd : ℤ) (events : Events) (timeout : T) (cb : Option F) (arg : A)
  | feedEvent (w : Watcher U) (revents : Events)
  | clearPending (w : Watcher U)
  | evSetPriority (w : Watcher U) (pri : ℤ)
  | evIoSet (w : IoW U) (fd : ℕ) (events : Events)
  | evIoStart (w : IoW U)
  | evIoStop (w : IoW U)
  | evIoModify (w : IoW U) (events : Events)
  | evTimerSet (w : TimerW U) (after repeat' : T)
  | evTimerStart (w : TimerW U)
  | evTimerStop (w : TimerW U)
  | evTimerAgain (w : TimerW U)
  | fdEvent (fd : ℕ) (revents : Events)
  | fdEventNocheck (fd : ℕ) (revents : Events)
  | fdKill (fd : ℕ)
  | fdReify (refused : ℕ → Bool)
  | timersReify
  | timersReschedule (adjust : T)
  | timeUpdate (now : T)
  | invokePending
  | ret
  | evLoopDestroy (cleanups : List U)
  | tick

/-- Nobody else has a handle on a half, an active watcher is not set, and a priority is legal. -/
def Allowed (s : Onces U T F A) : Act U T F A → Prop
  | .evOnce u .. => s.blocks u = none
  | .feedEvent w _ => w ≠ .pendingW ∧ half w = none
  | .clearPending w => w ≠ .pendingW ∧ half w = none
  | .evSetPriority w pri => half w = none ∧ s.loop.pend.pending w = 0 ∧ minpri ≤ pri ∧ pri ≤ maxpri
  | .evIoSet w _ _ => half (.io w) = none ∧ s.loop.fds.active w = 0
  | .evIoStart w => half (.io w) = none
  | .evIoStop w => half (.io w) = none
  | .evIoModify w _ => half (.io w) = none
  | .evTimerSet w _ _ => half (.timer w) = none ∧ s.loop.timers.active w = 0
  | .evTimerStart w => half (.timer w) = none
  | .evTimerStop w => half (.timer w) = none
  | .evTimerAgain w => half (.timer w) = none
  | .evLoopDestroy _ => s.destroying = none
  | .ret => s.depth ≠ 0
  | _ => True

instance (s : Onces U T F A) (a : Act U T F A) : Decidable (Allowed s a) := by
  cases a <;> simp only [Allowed] <;> infer_instance

/-- What the actions of the user and the loop do. -/
def call (e : Env U T) (s : Onces U T F A) : Act U T F A → Onces U T F A
  | .evOnce u fd events timeout cb arg => s.evOnce e u fd events timeout cb arg
  | .feedEvent w revents => { s with loop := s.loop.evFeedEvent w revents }
  | .clearPending w => { s with loop := s.loop.clearPending w }
  | .evSetPriority w pri => { s with loop := s.loop.evSetPriority w pri }
  | .evIoSet w fd events => { s with loop := s.loop.evIoSet w fd events }
  | .evIoStart w => { s with loop := s.loop.evIoStart w }
  | .evIoStop w => { s with loop := s.loop.evIoStop w }
  | .evIoModify w events => { s with loop := s.loop.evIoModify w events }
  | .evTimerSet w after repeat' => { s with loop := s.loop.evTimerSet w after repeat' }
  | .evTimerStart w => { s with loop := s.loop.evTimerStart e w }
  | .evTimerStop w => { s with loop := s.loop.evTimerStop e w }
  | .evTimerAgain w => { s with loop := s.loop.evTimerAgain e w }
  | .fdEvent fd revents => { s with loop := s.loop.fdEvent fd revents }
  | .fdEventNocheck fd revents => { s with loop := s.loop.fdEventNocheck fd revents }
  | .fdKill fd => { s with loop := s.loop.fdKill fd }
  | .fdReify refused => { s with loop := s.loop.fdReify fun fd _ _ l => if refused fd then l.fdKill fd else l }
  | .timersReify => { s with loop := s.loop.timersReify e }
  | .timersReschedule adjust => { s with loop := s.loop.timersReschedule e adjust }
  | .timeUpdate now => { s with loop := { s.loop with mnNow := now } }
  | .invokePending => s.invokePending
  | .ret => { s with ctl := .test }
  | .evLoopDestroy cleanups => s.evLoopDestroy e cleanups
  | .tick => s

/-- The loop goes on. -/
def goOn (e : Env U T) (s : Onces U T F A) : Option (Onces U T F A) :=
  if s.Cleaned then some (s.destroyRest e) else s.tick e

/-- A step of a run. After `ev_loop_destroy` there is none. -/
def step (e : Env U T) (s : Onces U T F A) (a : Act U T F A) : Option (Onces U T F A) :=
  if s.destroyed = true then none
  else match a with
    | .tick => goOn e s
    | a => if s.InUser ∧ Allowed s a then some (call e s a) else none

/-! ### What happens to a block -/

inductive Life (F A : Type)
  | gone
  | live (cb : F) (arg : A)
  | freed (cb : F) (arg : A)

/-- The block an event is about. -/
def Ev.block : Ev U F A → U
  | .allocated u _ _ => u
  | .freed u => u
  | .called u _ _ _ => u

/-- The history of a block, and what it is at its end: each allocation is followed by one free before the next,
and the free by at most one call, of what the block had. -/
inductive Lives (u : U) : List (Ev U F A) → Life F A → Prop
  | nil : Lives u [] .gone
  | other {ev : Ev U F A} {hist : List (Ev U F A)} {st : Life F A} :
      ev.block ≠ u → Lives u hist st → Lives u (ev :: hist) st
  | allocated {hist : List (Ev U F A)} {st : Life F A} (cb : F) (arg : A) :
      (∀ cb arg, st ≠ .live cb arg) → Lives u hist st → Lives u (.allocated u cb arg :: hist) (.live cb arg)
  | freed {hist : List (Ev U F A)} {cb : F} {arg : A} :
      Lives u hist (.live cb arg) → Lives u (.freed u :: hist) (.freed cb arg)
  | called {hist : List (Ev U F A)} {cb : F} {arg : A} (revents : Events) :
      Lives u hist (.freed cb arg) → Lives u (.called u cb arg revents :: hist) .gone

/-- No list of an fd, no entry of the heap and no entry of the queues names a half of the block. -/
structure Unnamed (e : Env U T) (l : Loop U T Unit) (u : U) : Prop where
  fds : ∀ fd, .once u ∉ (l.fds.anfds fd).head
  heap : ∀ k, e.heap.heap0 ≤ k → k < e.heap.heap0 + l.timers.cnt → (l.timers.heap.cells k).anheW ≠ .once u
  queues : ∀ pri i, i < l.pend.pendingcnt pri → half (l.pend.entry pri i).w ≠ some u
  rfeeds : ∀ w ∈ l.pend.rfeeds, half w ≠ some u

abbrev Runs (e : Env U T) (s : Onces U T F A) (l : List (Act U T F A)) (t : Onces U T F A) : Prop :=
  Run (fun s a t => step e s a = some t) s l t

end Once

end Qev
