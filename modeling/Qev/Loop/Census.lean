/-
# All the watchers of a loop

`ev_start` and `ev_stop` count the active watchers in `activecnt`, and `ev_run` returns when it is 0. A watcher that is
not to keep the loop alive is started before an `ev_unref` and stopped after an `ev_ref`: the loop's own, the timer in a
stat watcher, a cleanup watcher and the default loop's `childev`. With the other families, the user's `ev_ref` and
`ev_unref`, and `loop_fork`, these are what a run is made of here.

The loops of `fd_kill`, `fd_reify`, `timers_reify` and `periodics_reify` are taken round by round, since `ev_verify` is
called inside of them. A backend reports, kills and re-arms fds as it likes, and callbacks of the user may come between
any two steps.
-/
import Qev.Backend.FdKill
import Qev.Backend.ForkRefs
import Qev.Loop.StatRun
import Qev.Loop.Verify

namespace Qev

open Lib

/-! ### The families that are left -/

namespace Loop

section

variable {U T K : Type} [DecidableEq U] [LinearOrder T] [Add T] [Sub T] [Zero T] (e : Env U T) (l : Loop U T K)

/-- The part of `ev_signal_start` that opens the signalfd; `fd` is what `signalfd` returns. -/
def sigfdInit (fd : ℤ) : Loop U T K :=
  if l.sigfd ≠ -2 then l
  else
    let l := { l with sigfd := fd }
    if 0 ≤ fd then
      (((l.evIoInit .sigfdW fd.toNat evRead).evSetPriority (.io .sigfdW) maxpri).evIoStart .sigfdW).evUnref
    else l

/-- `ev_signal_start` with or without a signalfd. -/
def evSignalfdStart (fd : ℤ) (evpipe : ℕ) (w : SignalW U) : Loop U T K :=
  if l.signals.active w ≠ 0 then l
  else
    let l := (l.sigfdInit fd).evStart (.signal w)
    let l := { l with signals := l.signals.start (l.wSignum w - 1) w }
    if l.signals.head (l.wSignum w - 1) = [w] ∧ l.sigfd < 0 then l.evpipeInit evpipe else l

/-- `childev` is started by `ev_default_loop`, and does not keep the loop alive. -/
def childevStart (sigchld : ℕ) (fd : ℤ) (evpipe : ℕ) : Loop U T K :=
  let l := (l.evInit (.signal .childev)).evSignalSet .childev sigchld
  ((l.evSetPriority (.signal .childev) maxpri).evSignalfdStart fd evpipe .childev).evUnref

/-- `ev_child_start`, with `EV_PID_HASHSIZE`. -/
def evChildStart (hashsize : ℕ) (w : U) : Loop U T K :=
  if l.childs.active w ≠ 0 then l
  else
    let l := l.evStart (.child w)
    { l with childs := l.childs.start (l.wPid w % hashsize) w }

def evChildStop (hashsize : ℕ) (w : U) : Loop U T K :=
  let l := l.clearPending (.child w)
  if l.childs.active w = 0 then l
  else
    let l := { l with childs := l.childs.stop (l.wPid w % hashsize) w }
    l.evStop

/-- `ev_embed_start`, when the embedded loop has this `backend_fd`. -/
def evEmbedStart (backendFd : ℕ) (w : U) : Loop U T K :=
  if l.embeds w ≠ 0 then l
  else
    let l := l.evIoInit (.embed w) backendFd evRead
    let l := (l.evSetPriority (.io (.embed w)) (l.pend.priority (.embed w))).evIoStart (.embed w)
    let l := (l.evInit (.prepare (.embed w))).evSetPriority (.prepare (.embed w)) minpri
    let l := l.evPrepareStart (.embed w)
    let l := (l.evInit (.fork (.embed w))).evForkStart (.embed w)
    { l.evStart (.embed w) with embeds := Function.update l.embeds w 1 }

def evEmbedStop (w : U) : Loop U T K :=
  let l := l.clearPending (.embed w)
  if l.embeds w = 0 then l
  else
    let l := (l.evIoStop (.embed w)).evPrepareStop (.embed w)
    let l := l.evForkStop (.embed w)
    { l.evStop with embeds := Function.update l.embeds w 0 }

/-- What `ev_once` does to the loop, with the halves of a new block. -/
def evOnce (u : U) (fd : ℤ) (events : Events) (timeout : T) : Loop U T K :=
  let events := events &&& (evRead ||| evWrite)
  if (fd < 0 ∨ events = 0) ∧ timeout < 0 then l
  else
    let l := l.evInit (.io (.once u))
    let l := if 0 ≤ fd ∧ events ≠ 0 then (l.evIoSet (.once u) fd.toNat events).evIoStart (.once u) else l
    let l := l.evInit (.timer (.once u))
    if 0 ≤ timeout then (l.evTimerSet (.once u) timeout 0).evTimerStart e (.once u) else l

/-- What `once_cb` does to the loop. -/
def onceCb (u : U) : Loop U T K := (l.evIoStop (.once u)).evTimerStop e (.once u)

/-- A watcher of a backend is started, which does not keep the loop alive. -/
def backendStart (w : IoW U) (fd : ℕ) (pri : ℤ) : Loop U T K :=
  (((l.evIoInit w fd evRead).evSetPriority (.io w) pri).evIoStart w).evUnref

end

/-- It is `ev_once` of the blocks. -/
theorem loop_evOnce {U T F A : Type} [DecidableEq U] [LinearOrder T] [Add T] [Sub T] [Zero T] (e : Env U T)
    (s : Once.Onces U T F A) (u : U) (fd : ℤ) (events : Events) (timeout : T) (cb : F) (arg : A) :
    (s.evOnce e u fd events timeout (some cb) arg).loop = s.loop.evOnce e u fd events timeout := by
  unfold Once.Onces.evOnce evOnce
  dsimp only
  by_cases hnone : (fd < 0 ∨ events &&& (evRead ||| evWrite) = 0) ∧ timeout < 0
  · rw [if_pos hnone, if_pos hnone]
  · rw [if_neg hnone, if_neg hnone]

theorem loop_onceCb {U T F A : Type} [DecidableEq U] [LinearOrder T] [Add T] [Sub T] [Zero T] (e : Env U T)
    (s : Once.Onces U T F A) (u : U) (revents : Events) : (s.onceCb e u revents).loop = s.loop.onceCb e u := by
  unfold Once.Onces.onceCb onceCb
  cases s.blocks u with
  | none => rfl
  | some b => rfl

end Loop

/-! ### Runs -/

namespace Census

/-- `refs` is what the user's `ev_ref` and `ev_unref` come to, and `lost` what `fd_kill` and `loop_fork` have taken from
the count without making up for it. -/
structure State (U T A : Type) where
  loop : Loop U T (Infy.Kernel U A)
  refs : ℤ
  lost : ℤ

/-- The watchers that keep the loop alive while they are active. -/
def counted {U : Type} : Watcher U → Bool
  | .cleanup _ => false
  | .signal .childev => false
  | w => !isOwn w

inductive Act (U T : Type)
  -- the user
  | evRef
  | evUnref
  | evFeedEvent (w : Watcher U) (revents : Events)
  | evClearPending (w : Watcher U)
  | evSetPriority (w : Watcher U) (pri : ℤ)
  | evIoSet (w : U) (fd : ℕ) (events : Events)
  | evIoStart (w : U)
  | evIoStop (w : U)
  | evIoModify (w : U) (events : Events)
  | evTimerSet (w : U) (after repeat' : T)
  | timerRepeat (w : U) (repeat' : T)
  | evTimerStart (w : U)
  | evTimerStop (w : U)
  | evTimerAgain (w : U)
  | evPeriodicSet (w : U) (offset interval : T) (rescheduleCb : Bool)
  | evPeriodicStart (k : TimerfdCreate T) (w : U)
  | evPeriodicStop (w : U)
  | evPeriodicAgain (k : TimerfdCreate T) (w : U)
  | evSignalSet (w : U) (signum : ℕ)
  | evSignalStart (fd : ℤ) (evpipe : ℕ) (w : U)
  | evSignalStop (w : U)
  | evChildSet (w : U) (pid : ℕ)
  | evChildStart (w : U)
  | evChildStop (w : U)
  | evStatSet (w : U) (path : List Char) (interval : T)
  | evStatStart (o : Infy.Opened) (w : U)
  | evStatStop (w : U)
  | evStatStat (w : U)
  | evIdleStart (w : U)
  | evIdleStop (w : U)
  | evPrepareStart (w : U)
  | evPrepareStop (w : U)
  | evCheckStart (w : U)
  | evCheckStop (w : U)
  | evEmbedStart (backendFd : ℕ) (w : U)
  | evEmbedStop (w : U)
  | evForkStart (w : U)
  | evForkStop (w : U)
  | evCleanupStart (w : U)
  | evCleanupStop (w : U)
  | evAsyncStart (evpipe : ℕ) (w : U)
  | evAsyncStop (w : U)
  | evOnce (u : U) (fd : ℤ) (events : Events) (timeout : T)
  -- the callbacks of the loop's own watchers
  | onceCb (u : U)
  | statTimerCb (w : U)
  | infyCb (events : ℕ)
  | timerfdcb (k : TimerfdCreate T)
  -- a pass
  | clock (mn rt : T)
  | pop (pri : ℕ)
  | timersReifyOne
  | periodicsReifyOne
  | feedReverseDone (revents : Events)
  | timersReschedule (adjust : T)
  | periodicsReschedule
  | fdReifyOne (fd : ℕ)
  | fdShift (changecnt : ℕ)
  | loopFork (postfork : ℕ) (f : Reopened T)
  -- the backend
  | backendStart (w : IoW U) (fd : ℕ) (pri : ℤ)
  | fdEvent (fd : ℕ) (revents : Events)
  | fdEventNocheck (fd : ℕ) (revents : Events)
  | fdChange (fd : ℕ) (flags : BitVec 8)
  | fdRearm (fd : ℕ)
  | fdSet (fd : ℕ) (events emask : BitVec 8) (egen : ℕ)
  | fdKillOne (fd : ℕ)
  | childevStart (sigchld : ℕ) (fd : ℤ) (evpipe : ℕ)
  -- inotify
  | event (ev : Infy.Event)
  | vanish (wd : ℤ)
  | overflow (before after : List Infy.Event)


variable {U T A : Type} [DecidableEq U] [DecidableEq A] [LinearOrder T] [Add T] [Sub T] [Zero T]

/-- A watcher is set only while it is inactive, a priority is legal, and a block of `ev_once` is not in use twice. The
callbacks of the loop's own watchers are called only for those that may be pending, and a heap is looked at only while
its root is due. The kernel adds events, removes watches, and loses events when its queue is full. -/
def Allowed (e : Env U T) (l : Loop U T (Infy.Kernel U A)) : Act U T → Prop
  | .evSetPriority w pri => l.active w = 0 ∧ l.pend.pending w = 0 ∧ minpri ≤ pri ∧ pri ≤ maxpri
  | .evIoSet w _ _ => l.fds.active (.user w) = 0
  | .evTimerSet w _ _ => l.timers.active (.user w) = 0
  | .evSignalSet w _ => l.signals.active (.user w) = 0
  | .evChildSet w _ => l.childs.active w = 0
  | .evStatSet w _ _ => l.stats w = 0
  | .evOnce u _ _ _ => l.fds.active (.once u) = 0 ∧ l.timers.active (.once u) = 0
  | .statTimerCb w => l.stats w ≠ 0
  | .infyCb _ => 0 ≤ l.fsFd
  | .pop pri => l.pend.pendingcnt pri ≠ 0
  | .timersReifyOne => l.timersDue e
  | .periodicsReifyOne => l.periodicsDue e
  | .backendStart w _ pri =>
    (w = .iouringTfdW ∨ w = .linuxaioEpollW) ∧ l.fds.active w = 0 ∧ minpri ≤ pri ∧ pri ≤ maxpri
  | .childevStart _ _ _ => l.signals.active .childev = 0
  | .event ev => ev.mask &&& Infy.inIgnored = 0
  | .vanish wd => wd ∈ l.kernel.watches.map Prod.fst
  | .overflow before after => (before ++ after).Sublist l.kernel.queue
  | _ => True

instance (e : Env U T) (l : Loop U T (Infy.Kernel U A)) (a : Act U T) : Decidable (Allowed e l a) := by
  cases a <;> simp only [Allowed] <;> infer_instance

/-- What is done to the loop, and how the count is to be made up for. -/
def does (e : Env U T) (c : Infy.Consts T) (hashsize : ℕ) (l : Loop U T (Infy.Kernel U A)) :
    Act U T → Loop U T (Infy.Kernel U A)
  | .evRef => l.evRef
  | .evUnref => l.evUnref
  | .evFeedEvent w revents => l.evFeedEvent w revents
  | .evClearPending w => l.clearPending w
  | .evSetPriority w pri => l.evSetPriority w pri
  | .evIoSet w fd events => l.evIoSet (.user w) fd events
  | .evIoStart w => l.evIoStart (.user w)
  | .evIoStop w => l.evIoStop (.user w)
  | .evIoModify w events => l.evIoModify (.user w) events
  | .evTimerSet w after repeat' => l.evTimerSet (.user w) after repeat'
  | .timerRepeat w repeat' => { l with wRepeat := Function.update l.wRepeat (.user w) repeat' }
  | .evTimerStart w => l.evTimerStart e (.user w)
  | .evTimerStop w => l.evTimerStop e (.user w)
  | .evTimerAgain w => l.evTimerAgain e (.user w)
  | .evPeriodicSet w offset interval rescheduleCb => l.evPeriodicSet w offset interval rescheduleCb
  | .evPeriodicStart k w => l.evPeriodicStart e k w
  | .evPeriodicStop w => l.evPeriodicStop e w
  | .evPeriodicAgain k w => l.evPeriodicAgain e k w
  | .evSignalSet w signum => l.evSignalSet (.user w) signum
  | .evSignalStart fd evpipe w => l.evSignalfdStart fd evpipe (.user w)
  | .evSignalStop w => l.evSignalStop (.user w)
  | .evChildSet w pid => { l with wPid := Function.update l.wPid w pid }
  | .evChildStart w => l.evChildStart hashsize w
  | .evChildStop w => l.evChildStop hashsize w
  | .evStatSet w path interval => l.evStatSet w path interval
  | .evStatStart o w => Loop.evStatStart e c o w l
  | .evStatStop w => Loop.evStatStop e c w l
  | .evStatStat w => l.evStatStat w
  | .evIdleStart w => l.evIdleStart w
  | .evIdleStop w => l.evIdleStop w
  | .evPrepareStart w => l.evPrepareStart (.user w)
  | .evPrepareStop w => l.evPrepareStop (.user w)
  | .evCheckStart w => l.evCheckStart w
  | .evCheckStop w => l.evCheckStop w
  | .evEmbedStart backendFd w => l.evEmbedStart backendFd w
  | .evEmbedStop w => l.evEmbedStop w
  | .evForkStart w => l.evForkStart (.user w)
  | .evForkStop w => l.evForkStop (.user w)
  | .evCleanupStart w => l.evCleanupStart w
  | .evCleanupStop w => l.evCleanupStop w
  | .evAsyncStart evpipe w => l.evAsyncStart evpipe w
  | .evAsyncStop w => l.evAsyncStop w
  | .evOnce u fd events timeout => l.evOnce e u fd events timeout
  | .onceCb u => l.onceCb e u
  | .statTimerCb w => l.statTimerCb e c w
  | .infyCb events => l.infyCb e c events
  | .timerfdcb k => l.timerfdcb e k
  | .clock mn rt => { l with mnNow := mn, evRtNow := rt }
  | .pop pri => { l with pend := l.pend.pop pri }
  | .timersReifyOne => l.timersReifyOne e
  | .periodicsReifyOne => l.periodicsReifyOne e
  | .feedReverseDone revents => l.feedReverseDone revents
  | .timersReschedule adjust => l.timersReschedule e adjust
  | .periodicsReschedule => l.periodicsReschedule e
  | .fdReifyOne fd => { l with fds := l.fds.reify fd }
  | .fdShift changecnt => { l with fds := l.fds.shift changecnt }
  | .loopFork postfork f => Loop.loopFork e c f { l with postfork := postfork }
  | .backendStart w fd pri => l.backendStart w fd pri
  | .fdEvent fd revents => l.fdEvent fd revents
  | .fdEventNocheck fd revents => l.fdEventNocheck fd revents
  | .fdChange fd flags => l.fdChange fd flags
  | .fdRearm fd => { l with fds := l.fds.rearm fd }
  | .fdSet fd events emask egen =>
    { l with fds := l.fds.setFd fd { l.fds.anfds fd with events := events, emask := emask, egen := egen } }
  | .fdKillOne fd =>
    match (l.fds.anfds fd).head with
    | [] => l
    | w :: _ => l.fdKillOne w
  | .childevStart sigchld fd evpipe => l.childevStart sigchld fd evpipe
  | .event ev => { l with kernel := { l.kernel with queue := l.kernel.queue ++ [ev] } }
  | .vanish wd => { l with kernel := l.kernel.remove wd }
  | .overflow before after => { l with kernel := { l.kernel with queue := before ++ Infy.overflowEvent :: after } }

/-- What the user's references change by. -/
def refs : Act U T → ℤ
  | .evRef => 1
  | .evUnref => -1
  | _ => 0

/-- What is taken from the count: `fd_kill` stops a watcher of the loop as it does one of the user. -/
def takes (l : Loop U T (Infy.Kernel U A)) : Act U T → ℤ
  | .fdKillOne fd =>
    match (l.fds.anfds fd).head with
    | [] => 0
    | w :: _ => if isOwn (.io w) then 1 else 0
  | .loopFork _ _ => -l.shift
  | _ => 0

/-- A step of a run. -/
def step (e : Env U T) (c : Infy.Consts T) (hashsize : ℕ) (s : State U T A) (a : Act U T) : Option (State U T A) :=
  if Allowed e s.loop a then
    some ⟨does e c hashsize s.loop.untouched a, s.refs + refs a, s.lost + takes s.loop a⟩
  else none

abbrev Runs (e : Env U T) (c : Infy.Consts T) (hashsize : ℕ) (s : State U T A) (acts : List (Act U T))
    (t : State U T A) : Prop :=
  Run (fun s a t => step e c hashsize s a = some t) s acts t

end Census
end Qev
