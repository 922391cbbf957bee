/-
# The io_uring backend

`iouring_modify` asks for a poll of an fd, or for one to be removed, by putting a request
in the submission ring; `iouring_poll` hands what is in the ring to the kernel, waits and
reads the completions. A poll is one-shot: its fd goes back into `fdchanges` when it
completes. The completions that each reading of the completion ring finds are supplied to
the poll, as are the kernel's answers to `io_uring_enter`.
-/
import Qev.Backend.Ring
import Qev.Backend.Epoll

namespace Qev

namespace Uring

/-- The requests of `iouring_modify`, with the generation in the tag. -/
inductive Sqe
  | pollRemove (fd : ℕ) (gen : BitVec 32)
  | pollAdd (fd : ℕ) (gen mask : BitVec 32)
  deriving DecidableEq

/-- `res` of the completion of a poll: its events, or the errors told apart. -/
inductive Res
  | events (events : BitVec 32)
  | ended
  | ebadf
  | error
  deriving DecidableEq

/-- A completion: of a `POLL_REMOVE`, or of a poll. -/
inductive Cqe
  | removed
  | poll (fd : ℕ) (gen : BitVec 32) (res : Res)
  deriving DecidableEq

/-- The submission ring, the answers the kernel has yet to give, whether one was missing, and the requests
made of this ring. -/
structure Kernel where
  sq : Sq Sqe
  answers : List Answer
  silent : Bool
  asked : List Sqe

/-- What `io_uring_setup` and `timerfd_create` give. -/
structure Created where
  size : RingSize
  head : BitVec 32
  array : BitVec 32 → BitVec 32
  sqes : BitVec 32 → Sqe
  tfd : ℕ

def Kernel.init (c : Created) : Kernel := ⟨.init c.size c.head c.array c.sqes, [], false, []⟩

/-- `iouring_get_sqe` and `submit_sqe`; and whether there was a slot. -/
def Kernel.ask (s : Sqe) (k : Kernel) : Kernel × Bool :=
  match k.sq.getSqe k.answers with
  | none => ({ k with silent := true, asked := k.asked ++ [s] }, false)
  | some (none, q, as) => ({ k with sq := q, answers := as, asked := k.asked ++ [s] }, false)
  | some (some slot, q, as) =>
    ({ k with sq := q.submitSqe slot s, answers := as, asked := k.asked ++ [s] }, true)

def cqDrainBudget : ℕ := 4096

end Uring

namespace Loop

open Uring

variable {U T : Type} [DecidableEq U] (l : Loop U T Uring.Kernel)

/-- The generation as a tag carries it. -/
def gen (fd : ℕ) : BitVec 32 := BitVec.ofNat 32 (l.fds.anfds fd).egen

/-- `iouring_modify`, which returns early when there is no slot for the removal. -/
def iouringModify (fd : ℕ) (oev nev : BitVec 8) (l : Loop U T Uring.Kernel) : Loop U T Uring.Kernel :=
  let r :=
    if oev ≠ 0 then
      match l.kernel.ask (.pollRemove fd (l.gen fd)) with
      | (k, true) => ({ l with kernel := k, fds := l.fds.setEgen fd ((l.fds.anfds fd).egen + 1) }, true)
      | (k, false) => ({ l with kernel := k }, false)
    else (l, true)
  if r.2 ∧ nev ≠ 0 then
    { r.1 with kernel := (r.1.kernel.ask (.pollAdd fd (r.1.gen fd) (Epoll.kernelMask nev))).1 }
  else r.1

/-- The fd has no poll any more, so `fd_reify` has to ask for one. -/
def iouringRearm (fd : ℕ) : Loop U T Uring.Kernel :=
  ({ l with fds := l.fds.setFd fd { l.fds.anfds fd with events := 0 } } : Loop U T Uring.Kernel).fdChange fd evAnfdReify

/-- `iouring_cq_drain` for one completion. -/
def iouringCqe (l : Loop U T Uring.Kernel) : Cqe → Loop U T Uring.Kernel
  | .removed => l
  | .poll fd gen res =>
    if l.fds.anfdmax ≤ fd then l
    else if l.gen fd ≠ gen then l
    else
      match res with
      | .ebadf => l.fdKill fd
      | .ended => l.iouringRearm fd
      | .error => l
      | .events events =>
        let ev := got events
        if ev ≠ 0 then (l.fdEvent fd (ev.setWidth 32)).iouringRearm fd else l

/-- `iouring_cq_drain`, when these completions are visible. -/
def iouringCqDrain (l : Loop U T Uring.Kernel) (cqes : List Cqe) : Loop U T Uring.Kernel :=
  (cqes.take cqDrainBudget).foldl iouringCqe l

/-- `iouring_poll`: it reads the completion ring not at all, once or twice. -/
def iouringPoll (drains : List (List Cqe)) : Loop U T Uring.Kernel :=
  match l.kernel.sq.pollSubmit l.kernel.answers with
  | none => { l with kernel := { l.kernel with silent := true } }
  | some (q, as) => (drains.take 2).foldl iouringCqDrain { l with kernel := { l.kernel with sq := q, answers := as } }

/-- `iouring_init`, as far as it succeeds. -/
def iouringInit (c : Created) : Loop U T Uring.Kernel :=
  let l := l.evIoInit .iouringTfdW c.tfd evRead
  let l := l.evSetPriority (.io .iouringTfdW) minpri
  let l := l.evIoStart .iouringTfdW
  let l := l.evUnref
  { l with kernel := .init c }

def iouringDestroy : Loop U T Uring.Kernel := l.evIoStop .iouringTfdW

def iouringFork (c : Created) : Loop U T Uring.Kernel := (l.iouringDestroy.iouringInit c).fdRearmAll

end Loop

end Qev
