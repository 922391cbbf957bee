/-
# The linuxaio backend

An fd is watched by an iocb: `linuxaio_modify` fills it in and queues it, `linuxaio_poll`
submits what is queued, and the kernel completes it once, into a ring the loop reads
itself. What `io_submit` does not take goes to an epoll set beside it, or, when the
context has to be created anew, back into `fdchanges`.

The kernel's side is the requests in flight and the ring; what it answers is supplied to
each call. The `POLL` flags have the values of their `EPOLL` namesakes, and `linuxaio_modify`
and `linuxaio_parse_events` translate masks as the epoll backend does.
-/
import Qev.Backend.Registration

namespace Qev

open Lib

namespace Aio

/-- `struct aniocb` of an fd: `aio_buf`, the generation in `aio_data`, `aio_reqprio`. -/
structure Iocb where
  buf : BitVec 32
  gen : BitVec 32
  reqprio : ℤ

def Iocb.zero : Iocb := ⟨0, 0, 0⟩

/-- A request in flight. -/
structure Request where
  fd : ℕ
  gen : BitVec 32
  mask : BitVec 32
  deriving DecidableEq

/-- A `struct io_event`. -/
structure Completion where
  fd : ℕ
  gen : BitVec 32
  res : BitVec 32
  deriving DecidableEq

/-! ### The ring -/

/-- `struct aio_ring`. -/
structure Ring where
  nr : ℕ
  head : ℕ
  tail : ℕ
  cells : ℕ → Completion
  head_lt : head < nr
  tail_lt : tail < nr

namespace Ring

/-- The completions not read yet, oldest first. -/
def unread (r : Ring) : List Completion :=
  (List.range ((r.tail + r.nr - r.head) % r.nr)).map fun i => r.cells ((r.head + i) % r.nr)

/-- The kernel posts a completion, if there is room. -/
def post (c : Completion) (r : Ring) : Option Ring :=
  if (r.tail + 1) % r.nr = r.head then none
  else some { r with cells := Function.update r.cells r.tail c, tail := (r.tail + 1) % r.nr,
                     tail_lt := Nat.mod_lt _ (r.head.zero_le.trans_lt r.head_lt) }

/-- `io_getevents` takes the oldest `n` completions. -/
def take (n : ℕ) (r : Ring) : Ring :=
  { r with head := (r.head + n) % r.nr, head_lt := Nat.mod_lt _ (r.head.zero_le.trans_lt r.head_lt) }

/-- The ring of a new context. -/
def fresh (nr : ℕ) (cells : ℕ → Completion) : Ring := ⟨nr + 1, 0, 0, cells, nr.succ_pos, nr.succ_pos⟩

end Ring

/-- What the backend and the kernel keep. -/
structure Kernel where
  epoll : Epoll.Kernel
  iocbs : ℕ → Iocb
  iocbpmax : ℕ
  submits : List ℕ
  inflight : List Request
  ring : Ring
  ringValid : Bool
  iteration : ℕ

/-- What one `io_submit` answers; after EAGAIN, whether a context with a ring of so many cells can be
set up. -/
inductive Submitted
  | accepted (n : ℕ)
  | einval
  | eagain (setup : Option ℕ)
  | ebadf
  | eintr
  | other

/-- What one `io_getevents` answers: the requests that complete meanwhile, and the number of completions
it returns, if it does not fail. -/
structure Gotten where
  completed : List (ℕ × BitVec 32)
  result : Option ℕ

end Aio

namespace Loop

open Aio Epoll

variable {U T : Type} [DecidableEq U]

def mapKernel {K K' : Type} (f : K → K') (l : Loop U T K) : Loop U T K' := { l with kernel := f l.kernel }

variable (l : Loop U T Aio.Kernel)

/-- The loop as the functions of the epoll backend see it. -/
def epollView : Loop U T Epoll.Kernel := l.mapKernel Aio.Kernel.epoll

/-- A function of the epoll backend. -/
def withEpoll (f : Loop U T Epoll.Kernel → Loop U T Epoll.Kernel) : Loop U T Aio.Kernel :=
  (f l.epollView).mapKernel fun k => { l.kernel with epoll := k }

def setIocb (fd : ℕ) (c : Iocb) : Loop U T Aio.Kernel :=
  { l with kernel := { l.kernel with iocbs := Function.update l.kernel.iocbs fd c } }

/-- What `linuxaio_modify` undoes first: the fd was handed over to epoll, or its iocb is active. The
`io_cancel` of the latter may have any outcome, since the generation is counted up. -/
def linuxaioCancel (fd : ℕ) : Loop U T Aio.Kernel :=
  let iocb := l.kernel.iocbs fd
  if iocb.reqprio < 0 then
    (l.withEpoll fun l =>
      ({ l with kernel := (epollCtl .del fd ⟨0, fd, 0⟩ l.kernel).1 } : Loop U T Epoll.Kernel).setEmask fd 0).setIocb fd
        { iocb with reqprio := 0 }
  else if iocb.buf ≠ 0 then l.withEpoll fun l => l.setEgen fd ((l.fds.anfds fd).egen + 1)
  else l

/-- `linuxaio_modify`. -/
def linuxaioModify (fd : ℕ) (_oev nev : BitVec 8) (l : Loop U T Aio.Kernel) : Loop U T Aio.Kernel :=
  let l : Loop U T Aio.Kernel := { l with kernel := { l.kernel with iocbpmax := max l.kernel.iocbpmax (fd + 1) } }
  let l := l.linuxaioCancel fd
  let l := l.setIocb fd { l.kernel.iocbs fd with buf := kernelMask nev }
  if nev ≠ 0 then
    let l := l.setIocb fd { l.kernel.iocbs fd with gen := l.epollView.tag fd }
    { l with kernel := { l.kernel with submits := l.kernel.submits ++ [fd] } }
  else l

def linuxaioFdRearm (fd : ℕ) : Loop U T Aio.Kernel :=
  let l : Loop U T Aio.Kernel :=
    { l with fds := l.fds.setFd fd { l.fds.anfds fd with events := 0 } }
  (l.setIocb fd { l.kernel.iocbs fd with buf := 0 }).fdChange fd evAnfdReify

/-- `linuxaio_parse_events` for one event. -/
def linuxaioParseEvent (l : Loop U T Aio.Kernel) (ev : Completion) : Loop U T Aio.Kernel :=
  if ev.gen = l.epollView.tag ev.fd then
    (l.fdEvent ev.fd ((got ev.res).setWidth 32)).linuxaioFdRearm ev.fd
  else l

/-- `linuxaio_parse_events`: `nr` events from `ev` on. -/
def linuxaioParseEvents (cells : ℕ → Completion) : ℕ → ℕ → Loop U T Aio.Kernel → Loop U T Aio.Kernel
  | _, 0, l => l
  | ev, nr + 1, l => linuxaioParseEvents cells (ev + 1) nr (l.linuxaioParseEvent (cells ev))

/-- `linuxaio_get_events_from_ring`, and whether there were any. -/
def linuxaioGetEventsFromRing : Loop U T Aio.Kernel × Bool :=
  let ring := l.kernel.ring
  if ring.head = ring.tail then (l, false)
  else
    let l :=
      if ring.head < ring.tail then linuxaioParseEvents ring.cells ring.head (ring.tail - ring.head) l
      else linuxaioParseEvents ring.cells 0 ring.tail
        (linuxaioParseEvents ring.cells ring.head (ring.nr - ring.head) l)
    ({ l with kernel := { l.kernel with ring := { l.kernel.ring with
        head := l.kernel.ring.tail, head_lt := l.kernel.ring.tail_lt } } }, true)

/-- The kernel completes the request in flight at this place. -/
def complete (l : Loop U T Aio.Kernel) (c : ℕ × BitVec 32) : Option (Loop U T Aio.Kernel) := do
  let r ← l.kernel.inflight[c.1]?
  let ring ← l.kernel.ring.post ⟨r.fd, r.gen, c.2⟩
  some { l with kernel := { l.kernel with inflight := l.kernel.inflight.eraseIdx c.1, ring := ring } }

/-- The loop of `linuxaio_get_events`. -/
def linuxaioGetEventsLoop (want : ℕ) : List Gotten → Loop U T Aio.Kernel → Option (Loop U T Aio.Kernel)
  | [], _ => none
  | a :: as, l => do
    let l ← a.completed.foldlM complete l
    match a.result with
    | none => linuxaioGetEventsLoop want as l
    | some res =>
      let ioev := l.kernel.ring.unread.take res
      if res ≤ want ∧ ioev.length = res then
        let l : Loop U T Aio.Kernel := { l with kernel := { l.kernel with ring := l.kernel.ring.take res } }
        if res = 0 then some l
        else
          let l := ioev.foldl linuxaioParseEvent l
          if l.kernel.ringValid then some l.linuxaioGetEventsFromRing.1
          else if res < want then some l
          else linuxaioGetEventsLoop want as l
      else none

/-- `linuxaio_get_events`; `timeout` is whether there is one. -/
def linuxaioGetEvents (timeout : Bool) (as : List Gotten) : Option (Loop U T Aio.Kernel) :=
  if l.kernel.ringValid then
    match l.linuxaioGetEventsFromRing with
    | (l, true) => some l
    | (l, false) => if timeout then linuxaioGetEventsLoop 1 as l else some l
  else linuxaioGetEventsLoop 8 as l

/-- The fds with active iocbs are rearmed. -/
def linuxaioRearmAll : Loop U T Aio.Kernel :=
  (List.range l.kernel.iocbpmax).foldl
    (fun l fd => if (l.kernel.iocbs fd).buf ≠ 0 then l.linuxaioFdRearm fd else l) l

/-- After EAGAIN a larger context replaces this one, or epoll replaces the backend. -/
def linuxaioRecreate (setup : Option ℕ) : Loop U T Aio.Kernel :=
  let l := linuxaioRearmAll { l with kernel := { l.kernel with submits := [] } }
  let k := { l.kernel with
    inflight := [], ring := .fresh (setup.getD 0) l.kernel.ring.cells, iteration := l.kernel.iteration + 1 }
  match setup with
  | some _ => { l with kernel := k }
  | none =>
    let l : Loop U T Aio.Kernel := { l with kernel := { k with iocbs := fun _ => .zero, iocbpmax := 0 } }
    { (l.evIoStop .linuxaioEpollW).evRef with backend := .epoll }

/-- The submission loop of `linuxaio_poll`; `fds` are those of the iocbs still to be submitted. The result
is whether the poll goes on. -/
def linuxaioSubmit : List Submitted → List ℕ → Loop U T Aio.Kernel → Option (Loop U T Aio.Kernel × Bool)
  | _, [], l => some ({ l with kernel := { l.kernel with submits := [] } }, true)
  | [], _ :: _, _ => none
  | .accepted n :: as, fd :: fds, l =>
    if 1 ≤ n ∧ n ≤ fds.length + 1 then
      let new := ((fd :: fds).take n).map fun fd => ⟨fd, (l.kernel.iocbs fd).gen, (l.kernel.iocbs fd).buf⟩
      linuxaioSubmit as ((fd :: fds).drop n)
        { l with kernel := { l.kernel with inflight := l.kernel.inflight ++ new } }
    else none
  | .einval :: as, fd :: fds, l =>
    let l := l.withEpoll fun l => epollModify fd 0 (l.fds.anfds fd).events l
    linuxaioSubmit as fds (l.setIocb fd { l.kernel.iocbs fd with reqprio := -1 })
  | .eagain setup :: _, _ :: _, l => some (l.linuxaioRecreate setup, false)
  | .ebadf :: as, fd :: fds, l => linuxaioSubmit as fds (l.fdKill fd)
  | .eintr :: as, fd :: fds, l => linuxaioSubmit as (fd :: fds) l
  | .other :: as, fd :: fds, l => linuxaioSubmit as (fd :: fds) l

/-- `linuxaio_poll`, when the kernel answers so. -/
def linuxaioPoll (timeout : Bool) (sas : List Submitted) (gas : List Gotten) : Option (Loop U T Aio.Kernel) :=
  (linuxaioSubmit sas l.kernel.submits l).bind fun r =>
    if r.2 then r.1.linuxaioGetEvents timeout gas else some r.1

end Loop

end Qev
