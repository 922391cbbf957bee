/-
# Walking the watchers

`ev_walk` goes through the arrays of a loop from the last entry down, and through the lists of `signals`, which are
the process's, and gives each watcher to a callback. The callback may stop it, and then the last entry of the array
takes its place.

A `Process` has its loops and the signals; what a loop by itself keeps of signals is not used. Of the types there is
no io, embed, stat or child: those lists and the private timers of stats are not walked.
-/
import Qev.Loop.Kept
import Qev.Loop.Views

namespace Qev

open Lib

namespace Loop

variable {U T K : Type} [DecidableEq U] [LinearOrder T] [Add T] [Sub T] [Zero T]

section

variable (l : Loop U T K)

def evPrepareStart (w : PrepareW U) : Loop U T K :=
  if l.prepares.active w ≠ 0 then l
  else
    let l := l.evStart (.prepare w)
    { l with prepares := l.prepares.start 0 w }

def evPrepareStop (w : PrepareW U) : Loop U T K :=
  let l := l.clearPending (.prepare w)
  if l.prepares.active w = 0 then l
  else
    let l := { l with prepares := l.prepares.stop 0 w }
    l.evStop

def evForkStart (w : ForkW U) : Loop U T K :=
  if l.forks.active w ≠ 0 then l
  else
    let l := l.evStart (.fork w)
    { l with forks := l.forks.start 0 w }

def evForkStop (w : ForkW U) : Loop U T K :=
  let l := l.clearPending (.fork w)
  if l.forks.active w = 0 then l
  else
    let l := { l with forks := l.forks.stop 0 w }
    l.evStop

def evAsyncStart (evpipe : ℕ) (w : U) : Loop U T K :=
  if l.asyncs.active w ≠ 0 then l
  else
    let l := l.evpipeInit evpipe
    let l := l.evStart (.async w)
    { l with asyncs := l.asyncs.start 0 w }

def evAsyncStop (w : U) : Loop U T K :=
  let l := l.clearPending (.async w)
  if l.asyncs.active w = 0 then l
  else
    let l := { l with asyncs := l.asyncs.stop 0 w }
    l.evStop

end

end Loop

namespace Walk

variable {L U T K : Type} [DecidableEq L] [DecidableEq U] [LinearOrder T] [Add T] [Sub T] [Zero T]

/-! ### The process -/

/-- The loops of a process, and `signals`: the watchers, and the loop a signal is attached to. -/
structure Process (L U T K : Type) where
  loops : L → Loop U T K
  signals : Lists (L × SignalW U)
  sigLoop : ℕ → Option L
  wSignum : L × SignalW U → ℕ

namespace Process

variable (e : Env U T) (s : Process L U T K)

def setLoop (l : L) (m : Loop U T K) : Process L U T K := { s with loops := Function.update s.loops l m }

/-- The place of a watcher's signal in `signals`. -/
def place (x : L × SignalW U) : ℕ := s.wSignum x - 1

/-- `ev_signal_start` without a signalfd. -/
def evSignalStart (evpipe : ℕ) (x : L × SignalW U) : Process L U T K :=
  if s.signals.active x ≠ 0 then s
  else
    let s := { s with sigLoop := Function.update s.sigLoop (s.place x) (some x.1) }
    let s := s.setLoop x.1 ((s.loops x.1).evStart (.signal x.2))
    let s := { s with signals := s.signals.start (s.place x) x }
    if s.signals.head (s.place x) = [x] then s.setLoop x.1 ((s.loops x.1).evpipeInit evpipe) else s

def evSignalStop (x : L × SignalW U) : Process L U T K :=
  let s := s.setLoop x.1 ((s.loops x.1).clearPending (.signal x.2))
  if s.signals.active x = 0 then s
  else
    let s := { s with signals := s.signals.stop (s.place x) x }
    let s := s.setLoop x.1 (s.loops x.1).evStop
    if s.signals.head (s.place x) = [] then { s with sigLoop := Function.update s.sigLoop (s.place x) none } else s

/-- `ev_TYPE_stop` in the watcher's loop, for the types that are walked. -/
def stop (x : L × Watcher U) : Process L U T K :=
  let l := s.loops x.1
  match x.2 with
  | .timer w => s.setLoop x.1 (l.evTimerStop e w)
  | .periodic w => s.setLoop x.1 (l.evPeriodicStop e w)
  | .idle w => s.setLoop x.1 (l.evIdleStop w)
  | .fork w => s.setLoop x.1 (l.evForkStop w)
  | .async w => s.setLoop x.1 (l.evAsyncStop w)
  | .prepare w => s.setLoop x.1 (l.evPrepareStop w)
  | .check w => s.setLoop x.1 (l.evCheckStop w)
  | .signal w => s.evSignalStop (x.1, w)
  | _ => s

/-- `ev_TYPE_start`, for these types but timers and periodics. -/
def start (evpipe : ℕ) (x : L × Watcher U) : Process L U T K :=
  let l := s.loops x.1
  match x.2 with
  | .idle w => s.setLoop x.1 (l.evIdleStart w)
  | .fork w => s.setLoop x.1 (l.evForkStart w)
  | .async w => s.setLoop x.1 (l.evAsyncStart evpipe w)
  | .prepare w => s.setLoop x.1 (l.evPrepareStart w)
  | .check w => s.setLoop x.1 (l.evCheckStart w)
  | .signal w => s.evSignalStart evpipe (x.1, w)
  | _ => s

/-- `ev_active (w)`. -/
def active (x : L × Watcher U) : ℕ :=
  match x.2 with
  | .signal w => s.signals.active (x.1, w)
  | w => (s.loops x.1).active w

end Process

/-- What a process does with its loops. -/
inductive Act (L U T K : Type)
  | time (l : L) (a : Loop.TimeAct U T)
  | start (evpipe : ℕ) (x : L × Watcher U)
  | stop (x : L × Watcher U)
  | signalSet (x : L × SignalW U) (signum : ℕ)
  | setPriority (x : L × Watcher U) (pri : ℤ)
  /-- Whatever else is done to a loop leaves the arrays and the idle watchers' priorities alone. -/
  | other (l : L) (m : Loop U T K)

/-- What `ev_signal_start` asserts: the signal is below `EV_NSIG`, and not attached to another loop. -/
def Asserted (nsig : ℕ) (s : Process L U T K) (x : L × Watcher U) : Prop :=
  match x.2 with
  | .signal w => 0 < s.wSignum (x.1, w) ∧ s.wSignum (x.1, w) < nsig ∧
      (s.sigLoop (s.place (x.1, w)) = none ∨ s.sigLoop (s.place (x.1, w)) = some x.1)
  | _ => True

instance (nsig : ℕ) (s : Process L U T K) (x : L × Watcher U) : Decidable (Asserted nsig s x) := by
  unfold Asserted
  cases x.2 <;> infer_instance

/-- Signals and priorities are set while the watcher is not active. -/
def call (e : Env U T) (nsig : ℕ) (s : Process L U T K) : Act L U T K → Option (Process L U T K)
  | .time l a => (Loop.timeStep e (s.loops l) a).map (s.setLoop l)
  | .start evpipe x => if Asserted nsig s x then some (s.start evpipe x) else none
  | .stop x => some (s.stop e x)
  | .signalSet x signum =>
    if s.signals.active x = 0 then some { s with wSignum := Function.update s.wSignum x signum } else none
  | .setPriority x pri =>
    if s.active x = 0 ∧ (s.loops x.1).pend.pending x.2 = 0 then
      some (s.setLoop x.1 ((s.loops x.1).evSetPriority x.2 pri))
    else none
  | .other l m =>
    let n := s.loops l
    some (s.setLoop l { m with
      timers := n.timers, periodics := n.periodics, idles := n.idles, forks := n.forks, asyncs := n.asyncs
      prepares := n.prepares, checks := n.checks
      pend := { m.pend with priority := n.pend.priority } })

abbrev Runs (e : Env U T) (nsig : ℕ) (s : Process L U T K) (acts : List (Act L U T K)) (t : Process L U T K) :
    Prop :=
  Run (fun s a t => call e nsig s a = some t) s acts t

/-- Every loop is as `loop_init` leaves it. -/
def init [Inhabited U] (kernel : K) : Process L U T K where
  loops := fun _ => Loop.init .select true false true kernel
  signals := ⟨fun _ => [], fun _ => 0⟩
  sigLoop := fun _ => none
  wSignum := fun _ => 1

/-! ### ev_walk -/

/-- The types it is asked for. -/
inductive WalkType
  | timer
  | periodic
  | idle
  | fork
  | async
  | prepare
  | check
  | signal
  deriving DecidableEq

/-- The type of a watcher, if it is walked. -/
def typeOf : Watcher U → Option WalkType
  | .timer _ => some .timer
  | .periodic _ => some .periodic
  | .idle _ => some .idle
  | .fork _ => some .fork
  | .async _ => some .async
  | .prepare _ => some .prepare
  | .check _ => some .check
  | .signal _ => some .signal
  | _ => none

/-- The callback is `stat_timer_cb`, `embed_fork_cb` or `embed_prepare_cb`. -/
def inner : Watcher U → Bool
  | .timer (.stat _) => true
  | .fork (.embed _) => true
  | .prepare (.embed _) => true
  | _ => false

/-- The arrays of a loop. -/
inductive Fam
  | timers
  | periodics
  | idles (pri : ℕ)
  | forks
  | asyncs
  | prepares
  | checks
  deriving DecidableEq

/-- The number of entries. -/
def Fam.cnt (l : Loop U T K) : Fam → ℕ
  | timers => l.timers.cnt
  | periodics => l.periodics.cnt
  | idles pri => l.idles.cnt pri
  | forks => l.forks.cnt 0
  | asyncs => l.asyncs.cnt 0
  | prepares => l.prepares.cnt 0
  | checks => l.checks.cnt 0

/-- The watcher of the entry `i`, counted from the first one. -/
def Fam.cell (e : Env U T) (l : Loop U T K) (f : Fam) (i : ℕ) : Watcher U :=
  match f with
  | timers => .timer (l.timers.heap.cells (i + e.heap.heap0)).anheW
  | periodics => .periodic (l.periodics.heap.cells (i + e.heap.heap0)).anheW
  | idles pri => .idle (l.idles.cells pri i)
  | forks => .fork (l.forks.cells 0 i)
  | asyncs => .async (l.asyncs.cells 0 i)
  | prepares => .prepare (l.prepares.cells 0 i)
  | checks => .check (l.checks.cells 0 i)

/-- What is left to do: a loop over an array from its end, one with `i` entries before it, a loop over the list at a
place of `signals`, and one at `ws` in it. The next of a list is known before its watcher may be stopped. -/
inductive Task (L U : Type)
  | array (f : Fam)
  | entries (f : Fam) (i : ℕ)
  | place (k : ℕ)
  | watchers (k : ℕ) (ws : List (L × SignalW U))

/-- A walk through a loop: the process, what is left to do, and the watchers the callback was given, newest first. -/
structure State (L U T K : Type) where
  proc : Process L U T K
  todo : List (Task L U)
  visited : List (L × Watcher U)

/-- The loops of `ev_walk`, in its order. -/
def tasks (nsig : ℕ) (types : WalkType → Bool) : List (Task L U) :=
  (if types .timer then [.array .timers] else []) ++
  (if types .periodic then [.array .periodics] else []) ++
  (if types .idle then (List.range numpri).reverse.map fun pri => .array (.idles pri) else []) ++
  (if types .fork then [.array .forks] else []) ++
  (if types .async then [.array .asyncs] else []) ++
  (if types .prepare then [.array .prepares] else []) ++
  (if types .check then [.array .checks] else []) ++
  (if types .signal then (List.range (nsig - 1)).map .place else [])

/-- The callback is given a watcher, and stops it or not. -/
def State.visit (e : Env U T) (s : State L U T K) (x : L × Watcher U) (stops : Bool) : State L U T K :=
  { s with proc := if stops then s.proc.stop e x else s.proc, visited := x :: s.visited }

/-- One round. -/
def next (e : Env U T) (l : L) (s : State L U T K) (stops : Bool) : State L U T K :=
  match s.todo with
  | [] => s
  | .array f :: rest => { s with todo := .entries f (f.cnt (s.proc.loops l)) :: rest }
  | .entries _ 0 :: rest => { s with todo := rest }
  | .entries f (i + 1) :: rest =>
    let s := { s with todo := .entries f i :: rest }
    let w := f.cell e (s.proc.loops l) i
    if inner w then s else s.visit e (l, w) stops
  | .place k :: rest => { s with todo := .watchers k (s.proc.signals.head k) :: rest }
  | .watchers _ [] :: rest => { s with todo := rest }
  | .watchers k (x :: ws) :: rest =>
    let s := { s with todo := .watchers k ws :: rest }
    s.visit e (x.1, .signal x.2) stops

/-- `ev_walk` after `n` rounds, where `stops` says what the callback does in each. -/
def evWalk (e : Env U T) (nsig : ℕ) (s : Process L U T K) (l : L) (types : WalkType → Bool) (stops : ℕ → Bool) :
    ℕ → State L U T K
  | 0 => ⟨s, tasks nsig types, []⟩
  | n + 1 => next e l (evWalk e nsig s l types stops n) (stops n)

/-- To fill the place of `w` the last entry goes up: it is before the parent of that place. -/
def Rises {W : Type} (b : Dheap) (d : Deadlines W T) (w : W) : Prop :=
  b.heap0 < d.active w ∧ d.active w < d.cnt - 1 + b.heap0 ∧
    d.heap.anheAt (d.cnt - 1 + b.heap0) < d.heap.anheAt (b.hparent (d.active w))

instance {W : Type} (b : Dheap) (d : Deadlines W T) (w : W) : Decidable (Rises b d w) :=
  inferInstanceAs (Decidable (_ ∧ _ ∧ _))

/-- The next round gives a timer or periodic to the callback whose place an entry would go up to fill. -/
def Unsteady (e : Env U T) (l : L) (s : State L U T K) : Prop :=
  let m := s.proc.loops l
  match s.todo with
  | .entries .timers (i + 1) :: _ =>
    let w := (m.timers.heap.cells (i + e.heap.heap0)).anheW
    inner (.timer w) = false ∧ Rises e.heap m.timers w
  | .entries .periodics (i + 1) :: _ => Rises e.heap m.periodics (m.periodics.heap.cells (i + e.heap.heap0)).anheW
  | _ => False

instance (e : Env U T) (l : L) (s : State L U T K) : Decidable (Unsteady e l s) := by
  unfold Unsteady
  rcases s.todo with _ | ⟨_ | ⟨f, i⟩ | _ | _, _⟩ <;> try infer_instance
  cases f <;> cases i <;> infer_instance

end Walk
end Qev
