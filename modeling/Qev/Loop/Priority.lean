/-
# The index a priority is

`ABSPRI` is the stack of a watcher in `pendings` and `pendingcnt`, and C does not look whether there is
one: `ev_feed_event` and `clear_pending` go by the priority the watcher has. Only `ev_start` brings a
priority into range.

`Prios` keeps the queues, which watchers are active, and in `touched` the indices that were used, newest
first. Of the timers it keeps whether they go on once they are due. The functions are those of the source
as far as the queues and the priorities go.
-/
import Qev.Loop.Views

namespace Qev

open Lib

/-- `EV_CHILD`. -/
def evChild : Events := 0x800

structure Prios (U : Type) where
  pend : Pend (Watcher U)
  active : Watcher U → Bool
  again : Watcher U → Bool
  touched : List ℤ

namespace Prios

variable {U : Type} [DecidableEq U] (s : Prios U)

/-- The loop has set its pipe's watcher to `EV_MAXPRI`, and nothing is active. -/
def init : Prios U where
  pend := { pendingW := .pendingW, pendings := fun _ _ => ⟨.pendingW, 0, 0⟩, pendingcnt := fun _ => 0,
            pendingpri := 0, pending := fun _ => 0, priority := fun w => if w = .io .pipeW then maxpri else 0,
            rfeeds := [], clock := 0 }
  active := fun _ => false
  again := fun _ => false
  touched := []

/-- `ABSPRI`. -/
def abspri (w : Watcher U) : ℤ := s.pend.priority w - minpri

/-- `pendings[ABSPRI (w)]` is looked at. -/
def touch (w : Watcher U) : Prios U := { s with touched := s.abspri w :: s.touched }

/-! ### What every type of watcher has -/

def evFeedEvent (w : Watcher U) (revents : Events) : Prios U :=
  { s.touch w with pend := s.pend.evFeedEvent w revents }

/-- `clear_pending`, and what `ev_clear_pending` does to the queues. -/
def clearPending (w : Watcher U) : Prios U :=
  if s.pend.pending w ≠ 0 then { s.touch w with pend := s.pend.clearPending w } else s

def evSetPriority (w : Watcher U) (pri : ℤ) : Prios U := { s with pend := s.pend.setPriority w pri }

def evInit (w : Watcher U) : Prios U :=
  { s with pend := (s.pend.setPending w 0).setPriority w 0, active := Function.update s.active w false }

def evStart (w : Watcher U) : Prios U :=
  { s with pend := s.pend.priAdjust w, active := Function.update s.active w true }

def evStop (w : Watcher U) : Prios U := { s with active := Function.update s.active w false }

/-- `ev_TYPE_start`, but for stats and embeds. -/
def start (w : Watcher U) : Prios U := if s.active w then s else s.evStart w

/-- `ev_TYPE_stop`, but for stats and embeds. -/
def stop (w : Watcher U) : Prios U :=
  let s := s.clearPending w
  if !s.active w then s else s.evStop w

def queueEvents (events : List (Watcher U)) (type : Events) : Prios U :=
  events.foldl (fun s w => s.evFeedEvent w type) s

/-! ### Timers and periodics -/

def evTimerAgain (w : TimerW U) : Prios U :=
  let s := s.clearPending (.timer w)
  if s.active (.timer w) then
    if s.again (.timer w) then s else s.stop (.timer w)
  else if s.again (.timer w) then s.start (.timer w)
  else s

def evPeriodicAgain (w : U) : Prios U := (s.stop (.periodic w)).start (.periodic w)

/-- The loops of `timers_reify` and `periodics_reify`, for a watcher that is due. -/
def reifyOne (w : Watcher U) : Prios U :=
  let s := if s.again w then s else s.stop w
  { s with pend := s.pend.feedReverse w }

def feedReverseDone (revents : Events) : Prios U :=
  let s := s.pend.rfeeds.foldl (fun s w => s.evFeedEvent w revents) s
  { s with pend := { s.pend with rfeeds := [] } }

/-- `timers_reify` and `periodics_reify`, with those that are due. -/
def reify (ws : List (Watcher U)) (revents : Events) : Prios U :=
  (ws.foldl reifyOne s).feedReverseDone revents

/-! ### Stats -/

/-- What `infy_add` does to the private timer, when it is to poll or not. -/
def infyAdd (w : U) (repeats : Bool) : Prios U :=
  { s with again := Function.update s.again (.timer (.stat w)) repeats }.evTimerAgain (.stat w)

/-- `ev_stat_start`. There may be an inotify, and then `infy_add` polls or not. -/
def evStatStart (w : U) (inotify : Option Bool) : Prios U :=
  if s.active (.stat w) then s
  else
    let s := s.evInit (.timer (.stat w))
    let s := { s with again := Function.update s.again (.timer (.stat w)) true }
    let s := s.evSetPriority (.timer (.stat w)) (s.pend.priority (.stat w))
    let s :=
      match inotify with
      | some repeats => s.infyAdd w repeats
      | none => s.evTimerAgain (.stat w)
    s.evStart (.stat w)

def evStatStop (w : U) : Prios U :=
  let s := s.clearPending (.stat w)
  if !s.active (.stat w) then s
  else
    let s := if s.active (.timer (.stat w)) then s.stop (.timer (.stat w)) else s
    s.evStop (.stat w)

/-- `stat_timer_cb`, if the file changed. -/
def statTimerCb (w : U) (changed : Bool) (inotify : Option Bool) : Prios U :=
  if changed then
    let s :=
      match inotify with
      | some repeats => s.infyAdd w repeats
      | none => s
    s.evFeedEvent (.stat w) evStat
  else s

/-! ### Embeds -/

def evEmbedStart (w : U) : Prios U :=
  if s.active (.embed w) then s
  else
    let s := s.evInit (.io (.embed w))
    let s := s.evSetPriority (.io (.embed w)) (s.pend.priority (.embed w))
    let s := s.start (.io (.embed w))
    let s := s.evInit (.prepare (.embed w))
    let s := s.evSetPriority (.prepare (.embed w)) minpri
    let s := s.start (.prepare (.embed w))
    let s := s.evInit (.fork (.embed w))
    let s := s.start (.fork (.embed w))
    s.evStart (.embed w)

def evEmbedStop (w : U) : Prios U :=
  let s := s.clearPending (.embed w)
  if !s.active (.embed w) then s
  else (((s.stop (.io (.embed w))).stop (.prepare (.embed w))).stop (.fork (.embed w))).evStop (.embed w)

/-- `embed_io_cb`, where the embed may have a callback. -/
def embedIoCb (w : U) (cb : Bool) : Prios U := if cb then s.evFeedEvent (.embed w) evEmbed else s

def embedForkCb (w : U) : Prios U := (s.evEmbedStop w).evEmbedStart w

/-! ### ev_once -/

/-- `ev_once`, that waits for an fd, a time, or both. -/
def evOnce (w : U) (io timer : Bool) : Prios U :=
  let s := s.evInit (.io (.once w))
  let s := if io then s.start (.io (.once w)) else s
  let s := s.evInit (.timer (.once w))
  if timer then s.start (.timer (.once w)) else s

def onceCb (w : U) : Prios U := (s.stop (.io (.once w))).stop (.timer (.once w))

def onceCbIo (w : U) : Prios U := (s.clearPending (.timer (.once w))).onceCb w

def onceCbTo (w : U) : Prios U := (s.clearPending (.io (.once w))).onceCb w

/-! ### The loop -/

/-- `fd_kill`, with the watchers of the fd. -/
def fdKill (ws : List (IoW U)) : Prios U :=
  ws.foldl (fun s w => (s.stop (.io w)).evFeedEvent (.io w) (evError ||| evRead ||| evWrite)) s

/-- `child_reap`, with the watchers that the status is for. -/
def childReap (ws : List U) : Prios U :=
  ws.foldl (fun s w => (s.evSetPriority (.child w) maxpri).evFeedEvent (.child w) evChild) s

/-- `childcb`, once `waitpid` had a status. -/
def childcb (ws : List U) : Prios U := (s.evFeedEvent (.signal .childev) evSignal).childReap ws

/-- The loop sets up a watcher of its own: `pipe_w`, `sigfd_w`, `childev`, `fs_w`, `timerfd_w`, or a backend's. -/
def ownStart (w : Watcher U) (pri : ℤ) : Prios U := ((s.evInit w).evSetPriority w pri).start w

/-- What the callbacks of the private watchers are told: whether an embed has a callback, whether a file changed,
and what `infy_add` makes of its timer if there is an inotify. -/
structure Answers where
  embedCb : Bool
  changed : Bool
  inotify : Option Bool

/-- A callback is called. Those of other watchers are user code, or the loop's own. -/
def invoke (w : Watcher U) (a : Answers) : Prios U :=
  match w with
  | .timer (.stat w) => s.statTimerCb w a.changed a.inotify
  | .io (.embed w) => s.embedIoCb w a.embedCb
  | .fork (.embed w) => s.embedForkCb w
  | .io (.once w) => s.onceCbIo w
  | .timer (.once w) => s.onceCbTo w
  | _ => s

/-- `ev_invoke_pending` takes the last of the stack `pri`. -/
def invokePending (pri : ℕ) (a : Answers) : Prios U :=
  { s with pend := s.pend.pop pri, touched := pri :: s.touched }.invoke
    (s.pend.entry pri (s.pend.pendingcnt pri - 1)).w a

/-! ### Runs -/

/-- A watcher that is the user's. -/
def ofUser : Watcher U → Bool
  | .io (.user _) => true
  | .timer (.user _) => true
  | .signal (.user _) => true
  | .prepare (.user _) => true
  | .fork (.user _) => true
  | .periodic _ => true
  | .child _ => true
  | .stat _ => true
  | .idle _ => true
  | .check _ => true
  | .embed _ => true
  | .cleanup _ => true
  | .async _ => true
  | _ => false

/-- A watcher that is the loop's. -/
def ofLoop : Watcher U → Bool
  | .pendingW => true
  | .io (.user _) => false
  | .io (.embed _) => false
  | .io (.once _) => false
  | .io _ => true
  | .signal .childev => true
  | _ => false

/-- A watcher of a type with private ones. -/
def hasPrivate : Watcher U → Bool
  | .stat _ => true
  | .embed _ => true
  | _ => false

end Prios

namespace Priority

open Prios

variable {U : Type} [DecidableEq U]

/-- What the user and the loop do, in any order. Lists of watchers are those the loop finds: on an fd, due, active or
a child's. -/
inductive Act (U : Type)
  | evInit (w : Watcher U)
  | evSetPriority (w : Watcher U) (pri : ℤ)
  | evFeedEvent (w : Watcher U) (revents : Events)
  | evClearPending (w : Watcher U)
  | start (w : Watcher U)
  | stop (w : Watcher U)
  | setRepeat (w : Watcher U) (repeats : Bool)
  | evTimerAgain (w : U)
  | evPeriodicAgain (w : U)
  | evStatStart (w : U) (inotify : Option Bool)
  | evStatStop (w : U)
  | evEmbedStart (w : U)
  | evEmbedStop (w : U)
  | evOnce (w : U) (io timer : Bool)
  | ownStart (w : Watcher U) (pri : ℤ)
  | ownStop (w : Watcher U)
  | ownFeed (w : Watcher U) (revents : Events)
  | queueEvents (ws : List (Watcher U)) (type : Events)
  | fdKill (ws : List (IoW U))
  | timersReify (ws : List (TimerW U))
  | periodicsReify (ws : List U)
  | childcb (ws : List U)
  | infyAdd (w : U) (repeats : Bool)
  | infyWd (w : U) (changed : Bool) (inotify : Option Bool)
  | invokePending (pri : ℕ) (a : Answers)

/-- The user calls for watchers that are its own, and does not initialise them or set their priority while they are
active or pending; what the loop does of its own is for watchers that are active, or its own. -/
def Allowed (s : Prios U) : Act U → Prop
  | .evInit w => ofUser w ∧ s.active w = false ∧ s.pend.pending w = 0
  | .evSetPriority w _ => ofUser w ∧ s.active w = false ∧ s.pend.pending w = 0
  | .evFeedEvent w _ => ofUser w
  | .evClearPending w => ofUser w
  | .start w => ofUser w ∧ hasPrivate w = false
  | .stop w => ofUser w ∧ hasPrivate w = false
  | .setRepeat w _ => ofUser w
  | .evOnce w _ _ => ∀ x ∈ [Watcher.io (.once w), .timer (.once w)], s.active x = false ∧ s.pend.pending x = 0
  | .ownStart w pri => ofLoop w ∧ minpri ≤ pri ∧ pri ≤ maxpri
  | .ownStop w => ofLoop w
  | .ownFeed w _ => ofLoop w
  | .queueEvents ws _ => ∀ w ∈ ws, s.active w
  | .fdKill ws => ws.Nodup ∧ ∀ w ∈ ws, s.active (.io w)
  | .timersReify ws => ws.Nodup ∧ ∀ w ∈ ws, s.active (.timer w)
  | .periodicsReify ws => ws.Nodup ∧ ∀ w ∈ ws, s.active (.periodic w)
  | .childcb ws => ∀ w ∈ ws, s.active (.child w)
  | .infyAdd w _ => s.active (.stat w)
  | .infyWd w _ _ => s.active (.stat w)
  | .invokePending pri _ => pri < numpri ∧ s.pend.pendingcnt pri ≠ 0
  | _ => True

instance (s : Prios U) (a : Act U) : Decidable (Allowed s a) := by
  cases a <;> simp only [Allowed] <;> infer_instance

def call (s : Prios U) : Act U → Prios U
  | .evInit w => s.evInit w
  | .evSetPriority w pri => s.evSetPriority w pri
  | .evFeedEvent w revents => s.evFeedEvent w revents
  | .evClearPending w => s.clearPending w
  | .start w => s.start w
  | .stop w => s.stop w
  | .setRepeat w repeats => { s with again := Function.update s.again w repeats }
  | .evTimerAgain w => s.evTimerAgain (.user w)
  | .evPeriodicAgain w => s.evPeriodicAgain w
  | .evStatStart w inotify => s.evStatStart w inotify
  | .evStatStop w => s.evStatStop w
  | .evEmbedStart w => s.evEmbedStart w
  | .evEmbedStop w => s.evEmbedStop w
  | .evOnce w io timer => s.evOnce w io timer
  | .ownStart w pri => s.ownStart w pri
  | .ownStop w => s.stop w
  | .ownFeed w revents => s.evFeedEvent w revents
  | .queueEvents ws type => s.queueEvents ws type
  | .fdKill ws => s.fdKill ws
  | .timersReify ws => s.reify (ws.map .timer) evTimer
  | .periodicsReify ws => s.reify (ws.map .periodic) evPeriodic
  | .childcb ws => s.childcb ws
  | .infyAdd w repeats => s.infyAdd w repeats
  | .infyWd w changed inotify => s.statTimerCb w changed inotify
  | .invokePending pri a => s.invokePending pri a

/-- A step of a run. -/
def step (s : Prios U) (a : Act U) : Option (Prios U) := if Allowed s a then some (call s a) else none

abbrev Runs (s : Prios U) (acts : List (Act U)) (t : Prios U) : Prop := Run (fun s a t => step s a = some t) s acts t

/-- There is a stack for it. -/
def Indexes (i : ℤ) : Prop := 0 ≤ i ∧ i < numpri

/-- The user feeds a watcher whose priority is out of range, which no start has brought into it. -/
def Unclamped (s : Prios U) : Act U → Prop
  | .evFeedEvent w _ => s.pend.priority w < minpri ∨ maxpri < s.pend.priority w
  | _ => False

instance (s : Prios U) (a : Act U) : Decidable (Unclamped s a) := by
  cases a <;> simp only [Unclamped] <;> infer_instance

end Priority
end Qev
