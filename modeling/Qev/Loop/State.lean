/-
# The loop

The watchers of a loop are the user's, named by `U` within each family, the private
ones inside an embed, a stat or an `ev_once`, and the loop's own. `Loop` keeps for each
family the structure its active watchers are in: a heap (`Deadlines`), the lists of the
fds (`Fds`), an array (`Slots`) or hashed lists (`Lists`). A watcher's `active` is in the
structure of its family.

`K` is what the backend keeps.
-/
import Qev.Loop.Deadlines
import Qev.Loop.Pending

namespace Qev

/-! ### Watchers -/

/-- The `ev_io`s. -/
inductive IoW (U : Type)
  | user (w : U)
  | embed (w : U)
  | once (w : U)
  | pipeW
  | timerfdW
  | sigfdW
  | fsW
  | iouringTfdW
  | linuxaioEpollW
  deriving DecidableEq

/-- The `ev_timer`s. -/
inductive TimerW (U : Type)
  | user (w : U)
  | stat (w : U)
  | once (w : U)
  deriving DecidableEq

/-- The `ev_prepare`s. -/
inductive PrepareW (U : Type)
  | user (w : U)
  | embed (w : U)
  deriving DecidableEq

/-- The `ev_fork`s. -/
inductive ForkW (U : Type)
  | user (w : U)
  | embed (w : U)
  deriving DecidableEq

/-- The `ev_signal`s. -/
inductive SignalW (U : Type)
  | user (w : U)
  | childev
  deriving DecidableEq

inductive Watcher (U : Type)
  | pendingW
  | io (w : IoW U)
  | timer (w : TimerW U)
  | periodic (w : U)
  | signal (w : SignalW U)
  | child (w : U)
  | stat (w : U)
  | idle (w : U)
  | prepare (w : PrepareW U)
  | check (w : U)
  | embed (w : U)
  | fork (w : ForkW U)
  | cleanup (w : U)
  | async (w : U)
  deriving DecidableEq

/-! ### Their structures -/

/-- `EV_READ`. -/
def evRead : Events := 0x01

/-- `EV_WRITE`. -/
def evWrite : Events := 0x02

/-- `EV__IOFDSET`. -/
def evIofdset : Events := 0x80

/-- `EV_ANFD_REIFY`. -/
def evAnfdReify : BitVec 8 := 1

def evTimer : Events := 0x100

def evPeriodic : Events := 0x200

def evStat : Events := 0x1000

def evIdle : Events := 0x2000

def evEmbed : Events := 0x10000

def evCustom : Events := 0x1000000

/-- `EV_ERROR`. -/
def evError : Events := 0x80000000

/-- What the loop knows about an fd. `egen` counts beyond the 32 bits of the source. -/
structure ANFD (W : Type) where
  head : List W
  events : BitVec 8
  reify : BitVec 8
  emask : BitVec 8
  egen : ℕ

/-- The fds, those to be reified, oldest first, and the io watchers' `fd`, `events` and `active`. -/
structure Fds (W : Type) where
  anfds : ℕ → ANFD W
  anfdmax : ℕ
  fdchanges : List ℕ
  fd : W → ℕ
  events : W → Events
  active : W → ℕ

/-- Arrays of watchers, one for each priority where the family has that (idle), one in all elsewhere.
`active` is the place in the array, counted from 1. -/
structure Slots (W : Type) where
  cells : ℕ → ℕ → W
  cnt : ℕ → ℕ
  active : W → ℕ

/-- Lists of watchers by a key. -/
structure Lists (W : Type) where
  head : ℕ → List W
  active : W → ℕ

namespace Slots

variable {W : Type} [DecidableEq W] (s : Slots W)

def start (pri : ℕ) (w : W) : Slots W :=
  let active := s.cnt pri + 1
  { cells := Function.update s.cells pri (Function.update (s.cells pri) (active - 1) w)
    cnt := Function.update s.cnt pri active
    active := Function.update s.active w active }

/-- The last one takes the place of `w`. -/
def stop (pri : ℕ) (w : W) : Slots W :=
  let active := s.active w
  let cnt := s.cnt pri - 1
  let last := s.cells pri cnt
  { cells := Function.update s.cells pri (Function.update (s.cells pri) (active - 1) last)
    cnt := Function.update s.cnt pri cnt
    active := Function.update (Function.update s.active last active) w 0 }

/-- The watchers in the array. -/
def toList (pri : ℕ) : List W := (List.range (s.cnt pri)).map (s.cells pri)

end Slots

namespace Lists

variable {W : Type} [DecidableEq W] (s : Lists W)

def start (key : ℕ) (w : W) : Lists W :=
  { head := Function.update s.head key (w :: s.head key), active := Function.update s.active w 1 }

def stop (key : ℕ) (w : W) : Lists W :=
  { head := Function.update s.head key ((s.head key).erase w), active := Function.update s.active w 0 }

end Lists

/-! ### The loop -/

/-- The backends. -/
inductive Backend
  | select
  | poll
  | epoll
  | kqueue
  | port
  | iouring
  | linuxaio
  deriving DecidableEq

structure Loop (U T K : Type) where
  pend : Pend (Watcher U)
  activecnt : ℤ
  iocnt : ℤ
  mnNow : T
  evRtNow : T
  timers : Deadlines (TimerW U) T
  wRepeat : TimerW U → T
  periodics : Deadlines U T
  wOffset : U → T
  wInterval : U → T
  wRescheduleCb : U → Bool
  rescheduleCnt : ℕ
  fds : Fds (IoW U)
  signals : Lists (SignalW U)
  wSignum : SignalW U → ℕ
  childs : Lists U
  wPid : U → ℕ
  stats : U → ℕ
  wStatInterval : U → T
  wWd : U → ℤ
  fsHash : ℕ → List U
  idles : Slots U
  idleall : ℕ
  prepares : Slots (PrepareW U)
  checks : Slots U
  embeds : U → ℕ
  forks : Slots (ForkW U)
  cleanups : Slots U
  asyncs : Slots U
  backend : Backend
  postfork : ℕ
  fsFd : ℤ
  fs2625 : Bool
  sigfd : ℤ
  timerfd : ℤ
  kernel : K

/-- A loop without active watchers, as `loop_init` leaves it before its backend starts one. `noinotify`,
`signalfd` and `notimerfd` are the flags of these names. -/
def Loop.init {U T K : Type} [Inhabited U] [Zero T] (backend : Backend) (noinotify signalfd notimerfd : Bool)
    (kernel : K) : Loop U T K where
  pend := { pendingW := .pendingW, pendings := fun _ _ => ⟨.pendingW, 0, 0⟩, pendingcnt := fun _ => 0,
            pendingpri := 0, pending := fun _ => 0,
            priority := fun | .io .pipeW => maxpri | _ => 0, rfeeds := [], clock := 0 }
  activecnt := 0
  iocnt := 0
  mnNow := 0
  evRtNow := 0
  timers := { heap := { cells := fun _ => ⟨0, .user default⟩, active := fun _ => 0, touched := [] },
              cnt := 0, wAt := fun _ => 0 }
  wRepeat := fun _ => 0
  periodics := { heap := { cells := fun _ => ⟨0, default⟩, active := fun _ => 0, touched := [] },
                 cnt := 0, wAt := fun _ => 0 }
  wOffset := fun _ => 0
  wInterval := fun _ => 0
  wRescheduleCb := fun _ => false
  rescheduleCnt := 0
  fds := { anfds := fun _ => ⟨[], 0, 0, 0, 0⟩, anfdmax := 0, fdchanges := [], fd := fun _ => 0,
           events := fun _ => 0, active := fun _ => 0 }
  signals := ⟨fun _ => [], fun _ => 0⟩
  wSignum := fun _ => 1
  childs := ⟨fun _ => [], fun _ => 0⟩
  wPid := fun _ => 0
  stats := fun _ => 0
  wStatInterval := fun _ => 0
  wWd := fun _ => -1
  fsHash := fun _ => []
  idles := ⟨fun _ _ => default, fun _ => 0, fun _ => 0⟩
  idleall := 0
  prepares := ⟨fun _ _ => .user default, fun _ => 0, fun _ => 0⟩
  checks := ⟨fun _ _ => default, fun _ => 0, fun _ => 0⟩
  embeds := fun _ => 0
  forks := ⟨fun _ _ => .user default, fun _ => 0, fun _ => 0⟩
  cleanups := ⟨fun _ _ => default, fun _ => 0, fun _ => 0⟩
  asyncs := ⟨fun _ _ => default, fun _ => 0, fun _ => 0⟩
  backend := backend
  postfork := 0
  fsFd := if noinotify then -1 else -2
  fs2625 := false
  sigfd := if signalfd then -2 else -1
  timerfd := if notimerfd then -1 else -2
  kernel := kernel

theorem Loop.range_init {U T K : Type} [Inhabited U] [Zero T] (backend : Backend) (noinotify signalfd notimerfd : Bool)
    (kernel : K) (w : Watcher U) :
    minpri ≤ (Loop.init backend noinotify signalfd notimerfd kernel : Loop U T K).pend.priority w ∧
      (Loop.init backend noinotify signalfd notimerfd kernel : Loop U T K).pend.priority w ≤ maxpri := by
  unfold Loop.init
  dsimp only
  split
  · decide
  · decide

/-- The build, and what is asked of the user and of floating point: the heap, the answer of the user's
`reschedule_cb` to its `n`th call, and `periodic_recalc` by the watcher's offset and interval and the
time. -/
structure Env (U T : Type) where
  heap : Dheap
  rescheduleCb : ℕ → U → T → T
  periodicRecalc : T → T → T → T

namespace Loop

variable {U T K : Type} [DecidableEq U] (l : Loop U T K)

/-- `ev_active (w)`. -/
def active : Watcher U → ℕ
  | .pendingW => 0
  | .io w => l.fds.active w
  | .timer w => l.timers.active w
  | .periodic w => l.periodics.active w
  | .signal w => l.signals.active w
  | .child w => l.childs.active w
  | .stat w => l.stats w
  | .idle w => l.idles.active w
  | .prepare w => l.prepares.active w
  | .check w => l.checks.active w
  | .embed w => l.embeds w
  | .fork w => l.forks.active w
  | .cleanup w => l.cleanups.active w
  | .async w => l.asyncs.active w

def evRef : Loop U T K := { l with activecnt := l.activecnt + 1 }

def evUnref : Loop U T K := { l with activecnt := l.activecnt - 1 }

def evFeedEvent (w : Watcher U) (revents : Events) : Loop U T K :=
  { l with pend := l.pend.evFeedEvent w revents }

def feedReverse (w : Watcher U) : Loop U T K := { l with pend := l.pend.feedReverse w }

def feedReverseDone (revents : Events) : Loop U T K := { l with pend := l.pend.feedReverseDone revents }

def queueEvents (events : List (Watcher U)) (type : Events) : Loop U T K :=
  { l with pend := l.pend.queueEvents events type }

def clearPending (w : Watcher U) : Loop U T K := { l with pend := l.pend.clearPending w }

def evSetPriority (w : Watcher U) (pri : ℤ) : Loop U T K := { l with pend := l.pend.setPriority w pri }

/-- `ev_init`, but for `active`, which is 0 wherever the loop calls it. -/
def evInit (w : Watcher U) : Loop U T K :=
  { l with pend := (l.pend.setPending w 0).setPriority w 0 }

/-- `ev_start`, but for `active`, which the structure of the watcher's family stores. -/
def evStart (w : Watcher U) : Loop U T K := evRef { l with pend := l.pend.priAdjust w }

/-- `ev_stop`, but for `active`. -/
def evStop : Loop U T K := l.evUnref

end Loop

end Qev
