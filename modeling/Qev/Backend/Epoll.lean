/-
# The epoll backend

`epoll_modify` never deletes: it guesses between ADD and MOD from the mask it last gave
the kernel (`emask`) and tags each registration with a generation (`egen`), by which
`epoll_poll` knows the events of an earlier one. The kernel's set is a partial function
from the fd to its registration. To each call of `epoll_ctl` the environment may answer
EPERM, whatever the operation and the fd, and to an ADD of an fd that is not in the set
that the kernel has no room for it; else the set decides.
-/
import Qev.Loop.Interest

namespace Qev

open Lib

namespace Epoll

def epollin : BitVec 32 := 0x001

def epollout : BitVec 32 := 0x004

def epollerr : BitVec 32 := 0x008

def epollhup : BitVec 32 := 0x010

def epollrdhup : BitVec 32 := 0x2000

/-- `EV_EMASK_EPERM`. -/
def evEmaskEperm : BitVec 8 := 0x80

/-- `EV_READ`, `EV_WRITE` in a mask of the fds. -/
def readBit : BitVec 8 := 1

def writeBit : BitVec 8 := 2

/-- A mask of the fds for the kernel. -/
def kernelMask (ev : BitVec 8) : BitVec 32 :=
  (if ev &&& readBit ≠ 0 then epollin ||| epollrdhup else 0) ||| (if ev &&& writeBit ≠ 0 then epollout else 0)

/-- A `struct epoll_event`: `data.u64` is the fd and the generation. -/
structure EpollEvent where
  events : BitVec 32
  fd : ℕ
  gen : BitVec 32
  deriving DecidableEq

/-- What stands in the way of a call of `epoll_ctl`: nothing, the fd's file, or a limit of the kernel's. -/
inductive Answer
  | served
  | eperm
  | resource
  deriving DecidableEq

inductive Errno
  | eexist
  | enoent
  | eperm
  | resource
  deriving DecidableEq

inductive CtlOp
  | add
  | mod
  | del

/-- The kernel's set, `epoll_eperms`, and what is answered to the `n`th call of `epoll_ctl`, for an fd that is in
the set or not. -/
structure Kernel where
  set : ℕ → Option EpollEvent
  eperms : List ℕ
  answers : ℕ → Bool → Answer
  ctls : ℕ

def Kernel.init (answers : ℕ → Bool → Answer) : Kernel := ⟨fun _ => none, [], answers, 0⟩

/-- The kernel refuses no fd that it has in its set. -/
def Kernel.Accepts (k : Kernel) : Prop := ∀ n, k.answers n true ≠ .eperm

/-- What a kernel answers that refuses no fd that it has in its set. -/
def accepting (answers : ℕ → Answer) (n : ℕ) (present : Bool) : Answer := if present then .served else answers n

theorem accepts_accepting (answers : ℕ → Answer) : (Kernel.init (accepting answers)).Accepts := fun _ => nofun

/-- `epoll_ctl`. -/
def epollCtl (op : CtlOp) (fd : ℕ) (ev : EpollEvent) (k : Kernel) : Kernel × Option Errno :=
  let answer := k.answers k.ctls (k.set fd).isSome
  let k := { k with ctls := k.ctls + 1 }
  if answer = .eperm then (k, some .eperm)
  else
    match op, k.set fd with
    | .add, some _ => (k, some .eexist)
    | .add, none =>
      if answer = .resource then (k, some .resource)
      else ({ k with set := Function.update k.set fd (some ev) }, none)
    | .mod, some _ => ({ k with set := Function.update k.set fd (some ev) }, none)
    | .del, some _ => ({ k with set := Function.update k.set fd none }, none)
    | _, none => (k, some .enoent)

/-- How `epoll_modify` goes on after its calls of `epoll_ctl`. -/
inductive Outcome
  | done
  | eperm
  | decEgen
  | kill
  deriving DecidableEq

/-- The calls of `epoll_ctl` in `epoll_modify`, for `nev` not 0. -/
def register (fd : ℕ) (oev nev oldmask : BitVec 8) (ev : EpollEvent) (k : Kernel) : Kernel × Outcome :=
  match epollCtl (if oev ≠ 0 ∧ oldmask ≠ nev then .mod else .add) fd ev k with
  | (k, none) => (k, .done)
  | (k, some .enoent) =>
    match epollCtl .add fd ev k with
    | (k, none) => (k, .done)
    | (k, some _) => (k, .kill)
  | (k, some .eexist) =>
    if oldmask = nev then (k, .decEgen)
    else
      match epollCtl .mod fd ev k with
      | (k, none) => (k, .done)
      | (k, some _) => (k, .kill)
  | (k, some .eperm) => (k, .eperm)
  | (k, some .resource) => (k, .kill)

end Epoll

namespace Fds

variable {W : Type} (s : Fds W)

def setEmask (fd : ℕ) (emask : BitVec 8) : Fds W :=
  { s with anfds := Function.update s.anfds fd { s.anfds fd with emask := emask } }

def setEgen (fd : ℕ) (egen : ℕ) : Fds W :=
  { s with anfds := Function.update s.anfds fd { s.anfds fd with egen := egen } }

end Fds

namespace Loop

open Epoll

variable {U T : Type} [DecidableEq U] (l : Loop U T Kernel)

def setEmask (fd : ℕ) (emask : BitVec 8) : Loop U T Kernel := { l with fds := l.fds.setEmask fd emask }

def setEgen (fd : ℕ) (egen : ℕ) : Loop U T Kernel := { l with fds := l.fds.setEgen fd egen }

/-- The generation as `epoll_event` carries it. -/
def tag (fd : ℕ) : BitVec 32 := BitVec.ofNat 32 (l.fds.anfds fd).egen

def epollModify (fd : ℕ) (oev nev : BitVec 8) (l : Loop U T Kernel) : Loop U T Kernel :=
  if nev = 0 then l
  else
    let oldmask := (l.fds.anfds fd).emask
    let egen := (l.fds.anfds fd).egen
    let l := (l.setEmask fd nev).setEgen fd (egen + 1)
    match register fd oev nev oldmask ⟨kernelMask nev, fd, l.tag fd⟩ l.kernel with
    | (k, .done) => { l with kernel := k }
    | (k, .eperm) =>
      let k := if oldmask &&& evEmaskEperm = 0 then { k with eperms := k.eperms ++ [fd] } else k
      { l.setEmask fd evEmaskEperm with kernel := k }
    | (k, .decEgen) => ({ l with kernel := k } : Loop U T Kernel).setEgen fd egen
    | (k, .kill) => (({ l with kernel := k } : Loop U T Kernel).fdKill fd).setEgen fd egen

/-- The events the kernel reported of an fd. -/
def got (events : BitVec 32) : BitVec 8 :=
  (if events &&& (epollout ||| epollerr ||| epollhup) ≠ 0 then writeBit else 0) |||
    (if events &&& (epollin ||| epollerr ||| epollhup ||| epollrdhup) ≠ 0 then readBit else 0)

def recreate : Loop U T Kernel := { l with postfork := l.postfork ||| 2 }

/-- What `epoll_poll` does with one event. -/
def epollEvent (l : Loop U T Kernel) (ev : EpollEvent) : Loop U T Kernel :=
  if l.fds.anfdmax ≤ ev.fd then l
  else if l.tag ev.fd ≠ ev.gen then l.recreate
  else
    let want := (l.fds.anfds ev.fd).events
    let got := got ev.events
    if got &&& ~~~want ≠ 0 then
      let l := l.setEmask ev.fd want
      match epollCtl (if want ≠ 0 then .mod else .del) ev.fd { ev with events := kernelMask want } l.kernel with
      | (k, none) => ({ l with kernel := k } : Loop U T Kernel).fdEvent ev.fd (got.setWidth 32)
      | (k, some _) => ({ l with kernel := k } : Loop U T Kernel).recreate
    else l.fdEvent ev.fd (got.setWidth 32)

/-- One round of the sweep over `epoll_eperms`. -/
def epollEperm (l : Loop U T Kernel) (i : ℕ) : Loop U T Kernel :=
  match l.kernel.eperms[i]? with
  | none => l
  | some fd =>
    let events := (l.fds.anfds fd).events &&& (readBit ||| writeBit)
    if (l.fds.anfds fd).emask &&& evEmaskEperm ≠ 0 ∧ events ≠ 0 then l.fdEvent fd (events.setWidth 32)
    else
      let eperms := l.kernel.eperms
      let last := eperms[eperms.length - 1]?.getD fd
      { l.setEmask fd 0 with kernel := { l.kernel with eperms := (eperms.set i last).dropLast } }

/-- `epoll_poll`, when `epoll_wait` has filled in these events. -/
def epollPoll (evs : List EpollEvent) : Loop U T Kernel :=
  let l := evs.foldl epollEvent l
  (List.range l.kernel.eperms.length).reverse.foldl epollEperm l

/-- `epoll_fork`: the set of the new epoll fd is empty. -/
def epollFork : Loop U T Kernel := fdRearmAll { l with kernel := { l.kernel with set := fun _ => none } }

end Loop

namespace Epoll

/-- What `epoll_ctl` answers makes `epoll_modify` give up the fd. -/
def Unusable {U T : Type} [DecidableEq U] (fd : ℕ) (oev nev : BitVec 8) (l : Loop U T Kernel) : Prop :=
  nev ≠ 0 ∧ (register fd oev nev (l.fds.anfds fd).emask
    ⟨kernelMask nev, fd, BitVec.ofNat 32 ((l.fds.anfds fd).egen + 1)⟩ l.kernel).2 = .kill

end Epoll

end Qev
