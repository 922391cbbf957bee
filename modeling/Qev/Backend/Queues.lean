/-
# The kqueue and port backends

`kqueue_modify` collects its changes and `kqueue_poll` hands them over with its one call of
`kevent`; an fd stays registered when it is reported. `port_modify` asks at once, and an fd
that `port_getn` reports is no longer associated: `port_poll` puts it back into
`fdchanges`. What the kernel answers and reports is supplied.
-/
import Qev.Backend.Epoll

namespace Qev

/-! ### kqueue -/

namespace Kqueue

/-- `EVFILT_READ`, `EVFILT_WRITE`. -/
inductive Filter
  | read
  | write
  deriving DecidableEq

def Filter.events : Filter → Events
  | .read => evRead
  | .write => evWrite

/-- A change with `EV_DELETE` or with `EV_ADD`. -/
structure Change where
  fd : ℕ
  filter : Filter
  add : Bool
  deriving DecidableEq

/-- The errors told apart, and for `EBADF` whether `fd_valid` finds the fd valid. -/
inductive Error
  | enoent
  | ebadf (valid : Bool)
  | other
  deriving DecidableEq

/-- Whether an error makes `kqueue_poll` give up the fd. -/
def Error.fatal : Error → Bool
  | .enoent => false
  | .ebadf valid => !valid
  | .other => true

/-- A `struct kevent` that is reported: an event, or with `EV_ERROR`. -/
inductive Kevent
  | event (fd : ℕ) (filter : Filter)
  | error (fd : ℕ) (err : Error)
  deriving DecidableEq

/-- `kqueue_changes`, and those handed over. -/
structure Kernel where
  changes : List Change
  taken : List Change

end Kqueue

namespace Loop

open Kqueue Epoll

variable {U T : Type} [DecidableEq U] (l : Loop U T Kqueue.Kernel)

def kqueueChange (fd : ℕ) (filter : Filter) (add : Bool) : Loop U T Kqueue.Kernel :=
  { l with kernel := { l.kernel with changes := l.kernel.changes ++ [⟨fd, filter, add⟩] } }

def kqueueModify (fd : ℕ) (oev nev : BitVec 8) (l : Loop U T Kqueue.Kernel) : Loop U T Kqueue.Kernel :=
  let l := if oev ≠ nev ∧ oev &&& readBit ≠ 0 then l.kqueueChange fd .read false else l
  let l := if oev ≠ nev ∧ oev &&& writeBit ≠ 0 then l.kqueueChange fd .write false else l
  -- to detect close and reopen reliably, requests are made again even when the masks agree
  let l := if nev &&& readBit ≠ 0 then l.kqueueChange fd .read true else l
  if nev &&& writeBit ≠ 0 then l.kqueueChange fd .write true else l

/-- What `kqueue_poll` does with one event. -/
def kqueueEvent (l : Loop U T Kqueue.Kernel) : Kevent → Loop U T Kqueue.Kernel
  | .event fd filter => if l.fds.anfdmax ≤ fd then l else l.fdEvent fd filter.events
  | .error fd err =>
    if l.fds.anfdmax ≤ fd then l
    else
      let events := (l.fds.anfds fd).events
      if events = 0 then l
      else
        match err with
        | .enoent => l.kqueueModify fd 0 events
        | .ebadf true => l.kqueueModify fd 0 events
        | .ebadf false => l.fdKill fd
        | .other => l.fdKill fd

/-- `kqueue_poll`, when `kevent` has filled in these events, or was interrupted each time. -/
def kqueuePoll : Option (List Kevent) → Loop U T Kqueue.Kernel
  | none => l
  | some evs =>
    evs.foldl kqueueEvent
      { l with kernel := ⟨[], l.kernel.taken ++ l.kernel.changes⟩ }

def kqueueFork : Loop U T Kqueue.Kernel := l.fdRearmAll

end Loop

/-! ### port -/

namespace Port

def pollin : BitVec 32 := 0x0001

def pollout : BitVec 32 := 0x0004

def pollerr : BitVec 32 := 0x0008

def pollhup : BitVec 32 := 0x0010

def pollrdhup : BitVec 32 := 0x4000

/-- What `port_associate` comes to. -/
inductive Answer
  | associated
  | ebadfd
  deriving DecidableEq

/-- A `port_event_t`, by its source. -/
inductive PortEvent
  | fd (fd : ℕ) (events : BitVec 32)
  | other
  deriving DecidableEq

/-- The events each fd is associated for, and the answers to the calls of `port_associate`. -/
structure Kernel where
  assoc : ℕ → Option (BitVec 32)
  answers : ℕ → Answer
  calls : ℕ

def kernelMask (ev : BitVec 8) : BitVec 32 :=
  (if ev &&& Epoll.readBit ≠ 0 then pollin ||| pollrdhup else 0) ||| (if ev &&& Epoll.writeBit ≠ 0 then pollout else 0)

/-- The events the kernel reported of an fd. -/
def got (events : BitVec 32) : Events :=
  (if events &&& (pollout ||| pollerr ||| pollhup) ≠ 0 then evWrite else 0) |||
    (if events &&& (pollin ||| pollerr ||| pollhup ||| pollrdhup) ≠ 0 then evRead else 0)

end Port

namespace Loop

open Port

variable {U T : Type} [DecidableEq U] (l : Loop U T Port.Kernel)

def setAssoc (fd : ℕ) (mask : Option (BitVec 32)) : Loop U T Port.Kernel :=
  { l with kernel := { l.kernel with assoc := Function.update l.kernel.assoc fd mask } }

def portAssociateAndCheck (fd : ℕ) (ev : BitVec 8) : Loop U T Port.Kernel :=
  let answer := l.kernel.answers l.kernel.calls
  let l : Loop U T Port.Kernel := { l with kernel := { l.kernel with calls := l.kernel.calls + 1 } }
  match answer with
  | .associated => l.setAssoc fd (some (Port.kernelMask ev))
  | .ebadfd => l.fdKill fd

def portModify (fd : ℕ) (oev nev : BitVec 8) (l : Loop U T Port.Kernel) : Loop U T Port.Kernel :=
  if nev = 0 then if oev ≠ 0 then l.setAssoc fd none else l
  else l.portAssociateAndCheck fd nev

/-- What `port_poll` does with one event: its fd has to be associated again. -/
def portEvent (l : Loop U T Port.Kernel) : PortEvent → Loop U T Port.Kernel
  | .fd fd events => ((l.setAssoc fd none).fdEvent fd (Port.got events)).fdChange fd (evIofdset.setWidth 8)
  | .other => l

/-- `port_poll`, when `port_getn` has filled in these events. -/
def portPoll (evs : List PortEvent) : Loop U T Port.Kernel := evs.foldl portEvent l

def portFork : Loop U T Port.Kernel := fdRearmAll { l with kernel := { l.kernel with assoc := fun _ => none } }

end Loop

end Qev
