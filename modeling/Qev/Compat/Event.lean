/-
# The events of libevent

`event.c` keeps for a `struct event` two watchers: `iosig`, an `ev_io` or an `ev_signal` in the
same place, and the timer `to`. `event_add`, `event_del` and `event_active` start, stop and feed
them, and the callback of each decides on its own whether it removes the event before it calls the
event's callback.

The watchers of an event are the user's `.io`, `.signal` and `.timer` of its name, of which the first
two share their place. `Base.hist` records the calls of the events' callbacks.
-/
import Qev.Loop.Suspend
import Qev.Loop.Views

namespace Qev

open Lib

/-- The user's event that a watcher may be half of. -/
def owner {U : Type} : Watcher U → Option U
  | .io (.user u) => some u
  | .signal (.user u) => some u
  | .timer (.user u) => some u
  | _ => none

namespace Compat

/-- `EV_PERSIST`. -/
def evPersist : Events := 0x10

/-- `EVLIST_TIMEOUT`. -/
def evlistTimeout : BitVec 32 := 0x01

/-- `EVLIST_INSERTED`. -/
def evlistInserted : BitVec 32 := 0x02

/-- `EVLIST_SIGNAL`. -/
def evlistSignal : BitVec 32 := 0x04

/-- `EVLIST_ACTIVE`. -/
def evlistActive : BitVec 32 := 0x08

/-- `EVLIST_INIT`. -/
def evlistInit : BitVec 32 := 0x80

/-- `struct event` without its watchers. -/
structure Event (F A : Type) where
  evFd : ℤ
  evEvents : Events
  evCallback : F
  evArg : A
  evRes : Events
  evFlags : BitVec 32

/-- A call of an event's callback. -/
structure Call (U F A : Type) where
  ev : U
  cb : F
  fd : ℤ
  revents : Events
  arg : A
  deriving DecidableEq

/-- The loop of an event base, and the events that `event_set` was called for. `hist` has the newest first. -/
structure Base (U T K F A : Type) where
  loop : Loop U T K
  evs : U → Option (Event F A)
  hist : List (Call U F A)

/-- The build, with the `1e-6` that stands for no time at all and the read end of the loop's pipe. -/
structure Setup (U T : Type) extends Env U T where
  usec : T
  evpipe : ℕ

variable {U T K F A : Type} [DecidableEq U] [LinearOrder T] [Add T] [Sub T] [Zero T]

/-- The base starts with a new loop. -/
def init (loop : Loop U T K) : Base U T K F A := ⟨loop, fun _ => none, []⟩

/-- `ev_tv_get` of a time in seconds. -/
def evTvGet (e : Setup U T) (after : T) : T := if after ≠ 0 then after else e.usec

/-- What a flag says of the event. -/
def Event.has (ev : Event F A) (events : Events) : Bool := ev.evEvents &&& events ≠ 0

/-- The watcher in the place of `iosig`. -/
def iosig (u : U) (ev : Event F A) : Watcher U := if ev.has evSignal then .signal (.user u) else .io (.user u)

namespace Base

variable (e : Setup U T) (s : Base U T K F A)

def setEv (u : U) (ev : Event F A) : Base U T K F A := { s with evs := Function.update s.evs u (some ev) }

def eventSet (u : U) (fd : ℤ) (events : Events) (cb : F) (arg : A) : Base U T K F A :=
  let ev : Event F A := ⟨fd, events, cb, arg, 0, evlistInit⟩
  let l := if ev.has evSignal then s.loop.evInit (.signal (.user u)) else s.loop.evInit (.io (.user u))
  { s with loop := l.evInit (.timer (.user u)) }.setEv u ev

/-- What `event_add` does with `iosig`. -/
def addIosig (u : U) (ev : Event F A) : Loop U T K × BitVec 32 :=
  if ev.has evSignal then
    if s.loop.signals.active (.user u) = 0 then
      ((s.loop.evSignalSet (.user u) ev.evFd.toNat).evSignalStart e.evpipe (.user u), ev.evFlags ||| evlistSignal)
    else (s.loop, ev.evFlags)
  else if ev.has (evRead ||| evWrite) then
    if s.loop.fds.active (.user u) = 0 then
      ((s.loop.evIoSet (.user u) ev.evFd.toNat (ev.evEvents &&& (evRead ||| evWrite))).evIoStart (.user u),
        ev.evFlags ||| evlistInserted)
    else (s.loop, ev.evFlags)
  else (s.loop, ev.evFlags)

/-- What `event_add` does with `to`. -/
def addTo (u : U) (tv : Option T) (l : Loop U T K) (flags : BitVec 32) : Loop U T K × BitVec 32 :=
  match tv with
  | some tv =>
    ({ l with wRepeat := Function.update l.wRepeat (.user u) (evTvGet e tv) }.evTimerAgain e.toEnv (.user u),
      flags ||| evlistTimeout)
  | none => (l.evTimerStop e.toEnv (.user u), flags &&& ~~~evlistTimeout)

def eventAdd (u : U) (tv : Option T) : ℤ × Base U T K F A :=
  match s.evs u with
  | none => (-1, s)
  | some ev =>
    let (l, flags) := s.addIosig e u ev
    let (l, flags) := addTo e u tv l flags
    (0, { s with loop := l }.setEv u { ev with evFlags := flags ||| evlistActive })

/-- `event_del`, which answers 0. -/
def eventDel (u : U) : Base U T K F A :=
  match s.evs u with
  | none => s
  | some ev =>
    let l := if ev.has evSignal then s.loop.evSignalStop (.user u) else s.loop.evIoStop (.user u)
    { s with loop := l.evTimerStop e.toEnv (.user u) }.setEv u { ev with evFlags := evlistInit }

def eventActive (u : U) (res : Events) : Base U T K F A :=
  match s.evs u with
  | none => s
  | some ev =>
    let l := s.loop
    let l := if res &&& evTimer ≠ 0 then l.evFeedEvent (.timer (.user u)) (res &&& evTimer) else l
    let l := if res &&& evSignal ≠ 0 then l.evFeedEvent (iosig u ev) (res &&& evSignal) else l
    let l :=
      if res &&& (evRead ||| evWrite) ≠ 0 then l.evFeedEvent (iosig u ev) (res &&& (evRead ||| evWrite)) else l
    { s with loop := l }

/-- `ev_is_active (w) || ev_is_pending (w)`. -/
def isUsed (w : Watcher U) : Bool := s.loop.active w ≠ 0 ∨ s.loop.pend.pending w ≠ 0

/-- `event_pending`, and the time it writes if `tv` is not null. -/
def eventPending (u : U) (events : Events) (tv : Bool) : Events × Option T :=
  let requested := events &&& (evTimer ||| evRead ||| evWrite ||| evSignal)
  match s.evs u with
  | none => (0, none)
  | some ev =>
    let revents : Events :=
      if ev.has evSignal then
        if s.isUsed (.signal (.user u)) then evSignal else 0
      else if ev.has (evRead ||| evWrite) then
        if s.isUsed (.io (.user u)) then ev.evEvents &&& (evRead ||| evWrite) else 0
      else 0
    if s.isUsed (.timer (.user u)) then
      let at' :=
        if s.loop.timers.active (.user u) ≠ 0 then s.loop.evRtNow + s.loop.evTimerRemaining (.user u)
        else s.loop.evRtNow
      (requested &&& (revents ||| evTimer), if tv ∧ requested &&& evTimer ≠ 0 then some at' else none)
    else (requested &&& revents, none)

/-! ### The callbacks -/

def evXCb (u : U) (revents : Events) : Base U T K F A :=
  match s.evs u with
  | none => s
  | some ev =>
    let revents := revents &&& (evRead ||| evWrite ||| evTimer ||| evSignal)
    { s with hist := ⟨u, ev.evCallback, ev.evFd, revents, ev.evArg⟩ :: s.hist }.setEv u { ev with evRes := revents }

def evXCbSig (u : U) (revents : Events) : Base U T K F A :=
  (if revents &&& evError ≠ 0 then s.eventDel e u else s).evXCb u revents

def evXCbIo (u : U) (revents : Events) : Base U T K F A :=
  match s.evs u with
  | none => s
  | some ev => (if revents &&& evError ≠ 0 ∨ !ev.has evPersist then s.eventDel e u else s).evXCb u revents

def evXCbTo (u : U) (revents : Events) : Base U T K F A := (s.eventDel e u).evXCb u revents

/-- A callback is called. Those of watchers that are of no event are user code. -/
def invoke (w : Watcher U) (revents : Events) : Base U T K F A :=
  match w with
  | .io (.user u) => s.evXCbIo e u revents
  | .signal (.user u) => s.evXCbSig e u revents
  | .timer (.user u) => s.evXCbTo e u revents
  | _ => s

/-- `ev_invoke_pending` takes the last event of a priority, and calls its callback. -/
def invokePending (pri : ℕ) : Base U T K F A :=
  let p := s.loop.pend.entry pri (s.loop.pend.pendingcnt pri - 1)
  { s with loop := { s.loop with pend := s.loop.pend.pop pri } }.invoke e p.w p.events

/-- The calls of an event's callback. -/
def calls (u : U) : ℕ := s.hist.countP (·.ev = u)

/-- The watcher is not one of an event. -/
def Free (w : Watcher U) : Prop := w ≠ .pendingW ∧ ∀ u, owner w = some u → (s.evs u).isNone

instance (w : Watcher U) : Decidable (s.Free w) :=
  decidable_of_iff (w ≠ .pendingW ∧ (owner w).all fun u => (s.evs u).isNone) (by simp [Free, Option.all_eq_true])

end Base

/-! ### Runs -/

/-- What the events' user, the loop and the user of other watchers do, in any order. `fdReify` has the fds the
backend refuses. -/
inductive Act (U T F A : Type)
  | eventSet (u : U) (fd : ℤ) (events : Events) (cb : F) (arg : A)
  | eventAdd (u : U) (tv : Option T)
  | eventDel (u : U)
  | eventActive (u : U) (res : Events)
  | invokePending (pri : ℕ)
  | fdEvent (fd : ℕ) (revents : Events)
  | fdEventNocheck (fd : ℕ) (revents : Events)
  | fdKill (fd : ℕ)
  | fdReify (refused : ℕ → Bool)
  | evFeedSignalEvent (signum : ℕ)
  | timersReify
  | timersReschedule (adjust : T)
  | timeUpdate (mnNow rtNow : T)
  | feedEvent (w : Watcher U) (revents : Events)
  | clearPending (w : Watcher U)
  | evSetPriority (w : Watcher U) (pri : ℤ)
  | evIoSet (w : IoW U) (fd : ℕ) (events : Events)
  | evIoStart (w : IoW U)
  | evIoStop (w : IoW U)
  | evIoModify (w : IoW U) (events : Events)
  | evTimerSet (w : TimerW U) (after repeat' : T)
  | evTimerStart (w : TimerW U)
  | evTimerStop (w : TimerW U)
  | evTimerAgain (w : TimerW U)
  | evSignalSet (w : SignalW U) (signum : ℕ)
  | evSignalStart (w : SignalW U)
  | evSignalStop (w : SignalW U)

/-- An event is set while nothing of it is active or pending, `event_add` passes the assertions of the starts, and
nobody else has a handle on an event's watchers. An active watcher is not set. -/
def Allowed (s : Base U T K F A) : Act U T F A → Prop
  | .eventSet u .. => s.loop.view (.io (.user u)) = .idle ∧ s.loop.view (.signal (.user u)) = .idle ∧
      s.loop.view (.timer (.user u)) = .idle
  | .eventAdd u _ => (s.evs u).all fun ev =>
      if ev.has evSignal then 0 < ev.evFd else !ev.has (evRead ||| evWrite) ∨ 0 ≤ ev.evFd
  | .invokePending pri => s.loop.pend.pendingcnt pri ≠ 0
  | .feedEvent w _ => s.Free w
  | .clearPending w => s.Free w
  | .evSetPriority w pri => s.Free w ∧ s.loop.pend.pending w = 0 ∧ minpri ≤ pri ∧ pri ≤ maxpri
  | .evIoSet w _ _ => s.Free (.io w) ∧ s.loop.fds.active w = 0
  | .evIoStart w => s.Free (.io w)
  | .evIoStop w => s.Free (.io w)
  | .evIoModify w _ => s.Free (.io w)
  | .evTimerSet w _ _ => s.Free (.timer w) ∧ s.loop.timers.active w = 0
  | .evTimerStart w => s.Free (.timer w)
  | .evTimerStop w => s.Free (.timer w)
  | .evTimerAgain w => s.Free (.timer w) ∧ half (.timer w) = none
  | .evSignalSet w _ => s.Free (.signal w) ∧ s.loop.signals.active w = 0
  | .evSignalStart w => s.Free (.signal w)
  | .evSignalStop w => s.Free (.signal w)
  | _ => True

instance (s : Base U T K F A) (a : Act U T F A) : Decidable (Allowed s a) := by
  cases a <;> simp only [Allowed] <;> infer_instance

def Base.onLoop (s : Base U T K F A) (l : Loop U T K) : Base U T K F A := { s with loop := l }

def call (e : Setup U T) (s : Base U T K F A) : Act U T F A → Base U T K F A
  | .eventSet u fd events cb arg => s.eventSet u fd events cb arg
  | .eventAdd u tv => (s.eventAdd e u tv).2
  | .eventDel u => s.eventDel e u
  | .eventActive u res => s.eventActive u res
  | .invokePending pri => s.invokePending e pri
  | .fdEvent fd revents => s.onLoop (s.loop.fdEvent fd revents)
  | .fdEventNocheck fd revents => s.onLoop (s.loop.fdEventNocheck fd revents)
  | .fdKill fd => s.onLoop (s.loop.fdKill fd)
  | .fdReify refused => s.onLoop (s.loop.fdReify fun fd _ _ l => if refused fd then l.fdKill fd else l)
  | .evFeedSignalEvent signum => s.onLoop (s.loop.evFeedSignalEvent signum)
  | .timersReify => s.onLoop (s.loop.timersReify e.toEnv)
  | .timersReschedule adjust => s.onLoop (s.loop.timersReschedule e.toEnv adjust)
  | .timeUpdate mnNow rtNow => s.onLoop { s.loop with mnNow := mnNow, evRtNow := rtNow }
  | .feedEvent w revents => s.onLoop (s.loop.evFeedEvent w revents)
  | .clearPending w => s.onLoop (s.loop.clearPending w)
  | .evSetPriority w pri => s.onLoop (s.loop.evSetPriority w pri)
  | .evIoSet w fd events => s.onLoop (s.loop.evIoSet w fd events)
  | .evIoStart w => s.onLoop (s.loop.evIoStart w)
  | .evIoStop w => s.onLoop (s.loop.evIoStop w)
  | .evIoModify w events => s.onLoop (s.loop.evIoModify w events)
  | .evTimerSet w after repeat' => s.onLoop (s.loop.evTimerSet w after repeat')
  | .evTimerStart w => s.onLoop (s.loop.evTimerStart e.toEnv w)
  | .evTimerStop w => s.onLoop (s.loop.evTimerStop e.toEnv w)
  | .evTimerAgain w => s.onLoop (s.loop.evTimerAgain e.toEnv w)
  | .evSignalSet w signum => s.onLoop (s.loop.evSignalSet w signum)
  | .evSignalStart w => s.onLoop (s.loop.evSignalStart e.evpipe w)
  | .evSignalStop w => s.onLoop (s.loop.evSignalStop w)

/-- A step of a run. -/
def step (e : Setup U T) (s : Base U T K F A) (a : Act U T F A) : Option (Base U T K F A) :=
  if Allowed s a then some (call e s a) else none

abbrev Runs (e : Setup U T) (s : Base U T K F A) (acts : List (Act U T F A)) (t : Base U T K F A) : Prop :=
  Run (fun s a t => step e s a = some t) s acts t

/-- Neither half of the event is active or pending. -/
def Idle (l : Loop U T K) (u : U) : Prop := ∀ w, owner w = some u → l.view w = .idle

/-- It can make a half of the event active or pending on its own. -/
def Arms (u : U) : Act U T F A → Prop
  | .eventAdd v _ => v = u
  | .eventActive v _ => v = u
  | _ => False

end Compat
end Qev
