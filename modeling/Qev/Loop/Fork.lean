/-
# Fork watchers and the passes of ev_run

`ev_run` as a machine over `ev_invoke_pending` (`Loop/Invoke.lean`). An activation of
`ev_run` calls `EV_INVOKE_PENDING` in up to four places: when it is entered, after it
queued the fork watchers, after it queued the prepare watchers, and at the end of each
pass (`At`). User code runs inside these calls and may do anything, `ev_run` included,
so the activations form a stack (`Running.frames`).

What the rest of a pass does is left open (`Pass`): which watchers the backend, the
timers and the others feed, and whether epoll asks to be re-created. None of it feeds a
fork watcher.

`Running.hist` records the marks of forks, the invocations with `EV_FORK` and the polls.
-/
import Qev.Loop.Invoke
import Qev.Loop.State

namespace Qev

open Lib

def evPrepare : Events := 0x4000

def evFork : Events := 0x20000

/-- What `ev_break` is called with, and `loop_done`. -/
inductive Break
  | cancel
  | one
  | all
  deriving DecidableEq

/-- `EVRUN_NOWAIT`. -/
def evrunNowait : BitVec 32 := 1

/-- `EVRUN_ONCE`. -/
def evrunOnce : BitVec 32 := 2

namespace Forks

open Pend

/-- The call of `EV_INVOKE_PENDING` an activation of `ev_run` is in. `forked` says that the pass has queued
the fork watchers. -/
inductive At
  | entry
  | forks
  | prepares (forked : Bool)
  | tail
  deriving DecidableEq

/-- The fork watchers were queued, and `loop_fork` is still to come. -/
def At.forked : At → Bool
  | .forks => true
  | .prepares forked => forked
  | _ => false

/-- Between the test for a fork and `loop_fork`. -/
def At.window : At → Bool
  | .forks => true
  | .prepares _ => true
  | _ => false

/-- An activation of `ev_run`, called `base` deep in `ev_invoke_pending`. -/
structure Frame where
  flags : BitVec 32
  base : ℕ
  pos : At

/-- A fork was marked and `told` are the watchers to be told of it; a watcher was invoked with `EV_FORK`; a
pass got to its poll. -/
inductive Ev (U : Type)
  | marked (told : List (ForkW U))
  | invoked (w : ForkW U)
  | polled
  deriving DecidableEq

/-- `frames` and `hist` have the innermost and the newest first. -/
structure Running (U : Type) where
  disp : Dispatch (Watcher U)
  forks : Slots (ForkW U)
  postfork : BitVec 8
  curpid : ℕ
  loopDone : Break
  frames : List Frame
  hist : List (Ev U)

/-- What a pass meets: the process id, the active prepare watchers, what `loop_fork`, `fd_reify`, the poll
and everything after it feed, whether `epoll_poll` finds its kernel state wrong, and whether `activecnt` is
not 0 at the end. -/
structure Pass (U : Type) where
  pid : ℕ
  prepares : List (PrepareW U)
  feeds : List (Watcher U × Events)
  recreate : Bool
  active : Bool

inductive Act (U : Type)
  | user (a : Pend.Act (Watcher U))
  | evForkStart (w : ForkW U)
  | evForkStop (w : ForkW U)
  | evLoopFork
  | epollRecreate
  | evBreak (how : Break)
  | evRun (flags : BitVec 32)
  | tick (i : Pass U)

section

variable {U : Type} [DecidableEq U]

def isFork : Watcher U → Bool
  | .fork _ => true
  | _ => false

/-- What user code may do to the queues. A fork watcher is started and stopped by `ev_fork_start` and
`ev_fork_stop`. -/
def Usable : Pend.Act (Watcher U) → Prop
  | .feedEvent w _ => w ≠ .pendingW
  | .clearPending w => w ≠ .pendingW
  | .stop w => w ≠ .pendingW ∧ isFork w = false
  | .start w => w ≠ .pendingW ∧ isFork w = false
  | .setPriority w _ => w ≠ .pendingW
  | .invokePending => True
  | .ret => True
  | _ => False

instance (a : Pend.Act (Watcher U)) : Decidable (Usable a) := by
  cases a <;> simp only [Usable] <;> infer_instance

def init [Inhabited U] (curpid : ℕ) : Running U where
  disp := .init .pendingW
  forks := ⟨fun _ _ => .user default, fun _ => 0, fun _ => 0⟩
  postfork := 0
  curpid := curpid
  loopDone := .cancel
  frames := []
  hist := []

namespace Running

variable (s : Running U)

/-! ### Who has control -/

/-- `EV_INVOKE_PENDING` has returned to the innermost `ev_run`. -/
def Resumes : Prop := s.disp.ctl = .user ∧ ∃ f ∈ s.frames.head?, f.base = s.disp.depth

/-- User code runs. -/
def InUser : Prop := s.disp.ctl = .user ∧ ∀ f ∈ s.frames.head?, f.base ≠ s.disp.depth

instance : Decidable s.Resumes := inferInstanceAs (Decidable (_ ∧ _))

instance : Decidable s.InUser := inferInstanceAs (Decidable (_ ∧ _))

/-! ### What the passes do -/

/-- The active fork watchers. -/
def forkers : List (ForkW U) := s.forks.toList 0

/-- Watchers are fed, in order. -/
def feed (feeds : List (Watcher U × Events)) : Running U :=
  { s with
    disp := feeds.foldl (fun d f =>
      { d with pend := d.pend.evFeedEvent f.1 f.2, log := .fed f.1 f.2 :: d.log }) s.disp }

/-- `EV_INVOKE_PENDING`, in an activation of `ev_run`. -/
def invoke (flags : BitVec 32) (base : ℕ) (pos : At) (fs : List Frame) : Running U :=
  { s with
    disp := { s.disp with
      pend := { s.disp.pend with pendingpri := numpri }, ctl := .dec, depth := s.disp.depth + 1 }
    frames := ⟨flags, base, pos⟩ :: fs }

/-- `ev_run` returns. -/
def leave (fs : List Frame) : Running U :=
  { s with loopDone := if s.loopDone = .one then .cancel else s.loopDone, frames := fs }

/-- A changed process id is a fork, when `EVFLAG_FORKCHECK` is set. -/
def checkPid (pid : ℕ) : Running U :=
  if s.curpid ≠ 0 ∧ pid ≠ s.curpid then
    { s with curpid := pid, postfork := 1, hist := .marked s.forkers :: s.hist }
  else s

/-- From the test of `loop_done` to the last `EV_INVOKE_PENDING` of the pass. `loop_fork` clears `postfork`;
what it feeds is in `feeds`. -/
def passRest (f : Frame) (fs : List Frame) (i : Pass U) : Running U :=
  if s.loopDone ≠ .cancel then s.leave fs
  else
    let s := if s.postfork ≠ 0 then { s with postfork := 0 } else s
    let s := { s with hist := .polled :: s.hist }
    let s := if i.recreate then { s with postfork := s.postfork ||| 2 } else s
    (s.feed i.feeds).invoke f.flags f.base .tail fs

/-- From the prepare watchers on. -/
def passPrepare (forked : Bool) (f : Frame) (fs : List Frame) (i : Pass U) : Running U :=
  if i.prepares ≠ [] then
    (s.feed (i.prepares.map fun w => (.prepare w, evPrepare))).invoke f.flags f.base (.prepares forked) fs
  else s.passRest f fs i

/-- From the top of the pass on. -/
def passTop (f : Frame) (fs : List Frame) (i : Pass U) : Running U :=
  let s := s.checkPid i.pid
  if s.postfork ≠ 0 ∧ s.forks.cnt 0 ≠ 0 then
    (s.feed (s.forkers.map fun w => (.fork w, evFork))).invoke f.flags f.base .forks fs
  else s.passPrepare false f fs i

/-- Whether there is another pass. -/
def again (f : Frame) (i : Pass U) : Prop :=
  i.active ∧ s.loopDone = .cancel ∧ f.flags &&& (evrunOnce ||| evrunNowait) = 0

instance (f : Frame) (i : Pass U) : Decidable (s.again f i) := inferInstanceAs (Decidable (_ ∧ _))

/-- `ev_run` goes on after `EV_INVOKE_PENDING`. -/
def resume (f : Frame) (fs : List Frame) (i : Pass U) : Running U :=
  match f.pos with
  | .entry => s.passTop f fs i
  | .forks => s.passPrepare true f fs i
  | .prepares _ => s.passRest f fs i
  | .tail => if s.again f i then s.passTop f fs i else s.leave fs

/-- The invocation an `ev_invoke_pending` has just made, if it told a fork watcher of a fork. -/
def told (d d' : Dispatch (Watcher U)) : List (Ev U) :=
  if d.log.length < d'.log.length then
    match d'.log with
    | .invoked (.fork w) revents :: _ => if revents &&& evFork ≠ 0 then [.invoked w] else []
    | _ => []
  else []

/-! ### What user code does -/

def evForkStart (w : ForkW U) : Running U :=
  if s.forks.active w ≠ 0 then s
  else
    { s with
      disp := { s.disp with pend := s.disp.pend.priAdjust (.fork w) }
      forks := s.forks.start 0 w }

def evForkStop (w : ForkW U) : Running U :=
  let s := { s with
    disp := { s.disp with
      pend := s.disp.pend.clearPending (.fork w), log := .cleared (.fork w) :: s.disp.log } }
  if s.forks.active w = 0 then s else { s with forks := s.forks.stop 0 w }

/-- `ev_loop_fork`. A mark between passes is for the fork watchers active then. -/
def evLoopFork : Running U :=
  { s with
    postfork := 1
    hist := .marked (if s.frames.all fun f => !f.pos.window then s.forkers else []) :: s.hist }

end Running

open Running

def step (s : Running U) : Act U → Option (Running U)
  | .user a =>
    if s.InUser ∧ Usable a then
      (Pend.call s.disp a).map fun d => { s with disp := d }
    else none
  | .evForkStart w => if s.InUser then some (s.evForkStart w) else none
  | .evForkStop w => if s.InUser then some (s.evForkStop w) else none
  | .evLoopFork => if s.InUser then some s.evLoopFork else none
  | .epollRecreate => if s.InUser then some { s with postfork := s.postfork ||| 2 } else none
  | .evBreak how => if s.InUser then some { s with loopDone := how } else none
  | .evRun flags =>
    if s.InUser then some ({ s with loopDone := .cancel }.invoke flags s.disp.depth .entry s.frames) else none
  | .tick i =>
    if s.disp.ctl ≠ .user then
      (Pend.tick s.disp).map fun d => { s with disp := d, hist := told s.disp d ++ s.hist }
    else match s.frames with
      | f :: fs =>
        if f.base = s.disp.depth ∧ ∀ e ∈ i.feeds, e.1 ≠ .pendingW ∧ isFork e.1 = false then some (s.resume f fs i)
        else none
      | [] => none

abbrev Runs (s : Running U) (l : List (Act U)) (t : Running U) : Prop := Run (fun s a t => step s a = some t) s l t

end

end Forks

end Qev
