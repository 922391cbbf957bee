/-
# The wake handshake of `ev_run`, one atomic access at a time

`evpipe_write`, `pipecb` and the tail of `ev_run`, as threads that take one
load or store of a shared variable each step. A sender runs `ev_async_send` or
`ev_feed_signal`; the loop thread runs passes: blocking, `EVRUN_NOWAIT` and
`EVRUN_NOWAIT | EVRUN_NOPOLL`. The evpipe exists and a write to it lands or
finds it non-empty already, so all that counts of it is whether it holds
something.

What the environment decides is an argument of the action: when a pass may
block (`idleall`, `activecnt`, the deadlines), when the backend's poll returns
and whether it reports the pipe, how many bytes a read leaves, which pending
watcher `ev_invoke_pending` takes and what user code does in between.
-/
import Qev.Lib.Run

namespace Qev
namespace Wake

/-- The flag `evpipe_write` is called with. -/
inductive Flag
  | sigPending
  | asyncPending
  deriving DecidableEq

/-- What a sender raises: the `sent` of an async watcher, or the `pending` of a signal. -/
inductive Source (A G : Type)
  | async (w : A)
  | signal (g : G)
  deriving DecidableEq

/-- `ev_async_send` writes for `asyncPending`, `ev_feed_signal` for `sigPending`. -/
def Source.flag {A G : Type} : Source A G → Flag
  | .async _ => .asyncPending
  | .signal _ => .sigPending

/-- The watchers that get an event: the async ones, and those attached to a signal. -/
inductive Handler (A V : Type)
  | async (w : A)
  | signal (v : V)
  deriving DecidableEq

/-- The signals: the order in which `pipecb` visits them, and the watchers on each
one's list. A signal is attached to this loop while its list is not empty
(`signals [i].loop`, which `ev_signal_stop` clears with the last watcher). -/
structure Setup (A G V : Type) where
  signums : List G
  watchers : G → List V
  covers : ∀ g, watchers g ≠ [] → g ∈ signums

/-- The next access of a sender. -/
inductive Stage
  | mark
  | testFlag
  | setFlag
  | setSkipped
  | testWanted
  | clearSkipped
  | write
  deriving DecidableEq

/-- One call of `ev_async_send` or `ev_feed_signal`. `calls` and `epoch` are history:
what the loop's counters were when the call stored its mark. -/
structure Send (A G V : Type) where
  src : Source A G
  calls : Handler A V → ℕ
  epoch : Handler A V → ℕ

inductive Sender (A G V : Type)
  | idle
  | busy (st : Stage) (m : Send A G V)

/-- The kind of a pass. -/
inductive Kind
  | block
  | nowait
  | nopoll
  deriving DecidableEq

/-- Where the loop thread is. User code runs at `idle`, `prep` and `invoke`. -/
inductive Pc (A G : Type)
  /-- Between two passes. -/
  | idle
  /-- A pass has begun: its fork and prepare watchers run. -/
  | prep (k : Kind)
  | setWanted
  | testSkipped
  /-- At the backend's poll, to sleep in it or not. -/
  | poll (k : Kind) (sleeps : Bool)
  | clearWanted
  | tailSkipped
  | tailSig
  | tailAsync (pending : Bool)
  /-- The pass is past its tail test: `ev_invoke_pending` runs. -/
  | invoke
  | cbDrain
  | cbSkipped
  | cbTestSig
  | cbClearSig
  | cbScanSig (rest : List G)
  | cbTakeSig (g : G) (rest : List G)
  | cbTestAsync
  | cbClearAsync
  | cbScanAsync (rest : List A)
  | cbTakeAsync (w : A) (rest : List A)
  deriving DecidableEq

/-- The shared variables, the senders and the loop. `pipeW` is the revents of
`pipeW` while it is pending: whether `EV_READ` is among them. `pend` holds the
other pending watchers. History: `calls` counts a watcher's callbacks, `epoch`
the times the user stopped, started or cleared it, `tails` the passes that
ended after their tail test, `returned` the calls that have returned. -/
structure State (T A G V : Type) where
  sender : T → Sender A G V
  mark : Source A G → Bool
  flag : Flag → Bool
  pipeWriteSkipped : Bool
  pipeWriteWanted : Bool
  evpipe : Bool
  pc : Pc A G
  asyncs : List A
  pipeW : Option Bool
  pend : List (Handler A V)
  calls : Handler A V → ℕ
  epoch : Handler A V → ℕ
  tails : ℕ
  returned : List (Send A G V)

variable {T A G V : Type} [DecidableEq T] [DecidableEq A] [DecidableEq G] [DecidableEq V]

/-- Nothing sent, nothing pending, `asyncs` active. -/
def initial (asyncs : List A) : State T A G V where
  sender _ := .idle
  mark _ := false
  flag _ := false
  pipeWriteSkipped := false
  pipeWriteWanted := false
  evpipe := false
  pc := .idle
  asyncs := asyncs
  pipeW := none
  pend := []
  calls _ := 0
  epoch _ := 0
  tails := 0
  returned := []

inductive Act (T A G V : Type)
  /-- Thread `t` calls `ev_async_send` or `ev_feed_signal`. -/
  | begin (t : T) (x : Source A G)
  /-- The next access of thread `t`'s call. -/
  | send (t : T)
  /-- A pass begins. -/
  | pass (k : Kind)
  /-- `ev_break` from a fork or prepare watcher: the pass ends before its poll. -/
  | brk
  /-- The next access of the loop thread; `b` is what the environment decides there. -/
  | go (b : Bool)
  /-- `ev_invoke_pending` takes this watcher. -/
  | call (h : Handler A V)
  /-- `ev_invoke_pending` takes `pipeW`. -/
  | pipecb
  /-- `ev_invoke_pending` finds nothing pending: the pass ends. -/
  | done
  | evAsyncStart (w : A)
  | evAsyncStop (w : A)
  /-- `ev_clear_pending`, or the stop of a signal watcher's event, on a pending watcher. -/
  | evClearPending (h : Handler A V)

/-- `ev_feed_event` on a watcher. -/
def feed (pend : List (Handler A V)) (h : Handler A V) : List (Handler A V) :=
  if h ∈ pend then pend else h :: pend

namespace State

variable (s : State T A G V)

def goto (pc : Pc A G) : State T A G V := { s with pc := pc }

def sendAt (t : T) (st : Stage) (m : Send A G V) : State T A G V :=
  { s with sender := Function.update s.sender t (.busy st m) }

/-- The call of thread `t` returns. -/
def sendRet (t : T) (m : Send A G V) : State T A G V :=
  { s with sender := Function.update s.sender t .idle, returned := m :: s.returned }

def feedAll (l : List (Handler A V)) : State T A G V := { s with pend := l.foldl feed s.pend }

/-- A watcher is stopped, started or cleared: what was sent to it before is void. -/
def renew (h : Handler A V) : State T A G V :=
  { s with pend := s.pend.filter (· ≠ h),
           epoch := Function.update s.epoch h (s.epoch h + 1) }

/-- `ev_feed_event (pipeW, EV_CUSTOM)` in the tail. -/
def feedPipe : State T A G V := { s with pipeW := some (s.pipeW.getD false), pc := .invoke }

end State

/-- `ev_async_send` and `ev_feed_signal`: the mark, then `evpipe_write`. -/
def sendStep (s : State T A G V) (t : T) (m : Send A G V) : Stage → State T A G V
  | .mark =>
    { s with mark := Function.update s.mark m.src true }.sendAt t .testFlag ⟨m.src, s.calls, s.epoch⟩
  | .testFlag => if s.flag m.src.flag then s.sendRet t m else s.sendAt t .setFlag m
  | .setFlag => { s with flag := Function.update s.flag m.src.flag true }.sendAt t .setSkipped m
  | .setSkipped => { s with pipeWriteSkipped := true }.sendAt t .testWanted m
  | .testWanted => if s.pipeWriteWanted then s.sendAt t .clearSkipped m else s.sendRet t m
  | .clearSkipped => { s with pipeWriteSkipped := false }.sendAt t .write m
  | .write => { s with evpipe := true }.sendRet t m

/-- The watchers an event of `x` goes to. -/
def targets (S : Setup A G V) : Source A G → List (Handler A V)
  | .async w => [.async w]
  | .signal g => (S.watchers g).map .signal

/-- The loop thread's accesses: the poll, the tail of `ev_run`, and `pipecb`. -/
def goStep (S : Setup A G V) (s : State T A G V) (b : Bool) : Option (State T A G V) :=
  match s.pc with
  | .prep .block => some (s.goto .setWanted)
  | .prep k => some (s.goto (.poll k false))
  | .setWanted => some ({ s with pipeWriteWanted := true }.goto .testSkipped)
  -- `b`: no idle watcher, an active one, and no deadline that is due
  | .testSkipped => some (s.goto (.poll .block (b && !s.pipeWriteSkipped)))
  -- `b`: the poll is made, and reports the pipe
  | .poll k sleeps =>
    if b then
      if s.evpipe ∧ (sleeps ∨ k ≠ .nopoll) then some ({ s with pipeW := some true }.goto .clearWanted)
      else none
    else some (s.goto .clearWanted)
  | .clearWanted => some ({ s with pipeWriteWanted := false }.goto .tailSkipped)
  | .tailSkipped => if s.pipeWriteSkipped then some s.feedPipe else some (s.goto .tailSig)
  | .tailSig => some (s.goto (.tailAsync (s.flag .sigPending)))
  | .tailAsync p =>
    if p || s.flag .asyncPending then some s.feedPipe else some (s.goto .invoke)
  -- `b`: the read leaves something
  | .cbDrain => some ({ s with evpipe := s.evpipe && b }.goto .cbSkipped)
  | .cbSkipped => some ({ s with pipeWriteSkipped := false }.goto .cbTestSig)
  | .cbTestSig => some (s.goto (if s.flag .sigPending then .cbClearSig else .cbTestAsync))
  | .cbClearSig =>
    some ({ s with flag := Function.update s.flag .sigPending false }.goto (.cbScanSig S.signums))
  | .cbScanSig [] => some (s.goto .cbTestAsync)
  | .cbScanSig (g :: rest) =>
    some (s.goto (if s.mark (.signal g) ∧ S.watchers g ≠ [] then .cbTakeSig g rest else .cbScanSig rest))
  | .cbTakeSig g rest =>
    some (({ s with mark := Function.update s.mark (.signal g) false }.feedAll
      (targets S (.signal g))).goto (.cbScanSig rest))
  | .cbTestAsync => some (s.goto (if s.flag .asyncPending then .cbClearAsync else .invoke))
  | .cbClearAsync =>
    some ({ s with flag := Function.update s.flag .asyncPending false }.goto
      (.cbScanAsync s.asyncs.reverse))
  | .cbScanAsync [] => some (s.goto .invoke)
  | .cbScanAsync (w :: rest) =>
    some (s.goto (if s.mark (.async w) then .cbTakeAsync w rest else .cbScanAsync rest))
  | .cbTakeAsync w rest =>
    some (({ s with mark := Function.update s.mark (.async w) false }.feedAll
      (targets S (.async w))).goto (.cbScanAsync rest))
  | .idle => none
  | .invoke => none

/-- User code runs: between passes, and in callbacks. -/
def Pc.user : Pc A G → Bool
  | .idle => true
  | .prep _ => true
  | .invoke => true
  | _ => false

def step (S : Setup A G V) (s : State T A G V) : Act T A G V → Option (State T A G V)
  | .begin t x =>
    match s.sender t with
    -- `ev_feed_signal` returns at once for a signal that is attached to no loop
    | .idle => if targets S x = [] then none else some (s.sendAt t .mark ⟨x, s.calls, s.epoch⟩)
    | .busy _ _ => none
  | .send t =>
    match s.sender t with
    | .idle => none
    | .busy st m => some (sendStep s t m st)
  | .pass k => if s.pc = .idle then some (s.goto (.prep k)) else none
  | .brk =>
    match s.pc with
    | .prep _ => some (s.goto .idle)
    | _ => none
  | .go b => goStep S s b
  | .call h =>
    if s.pc = .invoke ∧ h ∈ s.pend then
      some { s with pend := s.pend.filter (· ≠ h), calls := Function.update s.calls h (s.calls h + 1) }
    else none
  | .pipecb =>
    match s.pipeW with
    | some read =>
      if s.pc = .invoke then
        some ({ s with pipeW := none }.goto (if read then .cbDrain else .cbSkipped))
      else none
    | none => none
  | .done =>
    if s.pc = .invoke ∧ s.pend = [] ∧ s.pipeW = none then some ({ s with tails := s.tails + 1 }.goto .idle)
    else none
  -- one step: `sent` is all of it that a sender sees
  | .evAsyncStart w =>
    if s.pc.user ∧ w ∉ s.asyncs then
      some ({ s with mark := Function.update s.mark (.async w) false,
                     asyncs := s.asyncs ++ [w] }.renew (.async w))
    else none
  -- the last entry takes the place of `w`; the loop reads the array as a set
  | .evAsyncStop w =>
    if s.pc.user ∧ w ∈ s.asyncs then
      some ({ s with asyncs := s.asyncs.filter (· ≠ w) }.renew (.async w))
    else none
  | .evClearPending h => if s.pc.user then some (s.renew h) else none

/-- A run from the initial state. -/
abbrev Reach (S : Setup A G V) (asyncs : List A) (l : List (Act T A G V)) (s : State T A G V) : Prop :=
  Lib.Run (fun s a t => step S s a = some t) (initial asyncs) l s

end Wake
end Qev
