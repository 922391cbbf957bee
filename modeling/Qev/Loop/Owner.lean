/-
# What a loop owns

A loop opens descriptors, maps the rings of an io_uring, sets up an aio context and allocates its arrays.
`Owner` keeps the variables that name these, as `struct ev_loop` has them, the active fields of the loop's
own watchers that decide what is closed, the blocks of `ev_once`, and the ledger of the process. Functions that
open something have an argument for what the kernel or `ev_malloc` answers; a call that fails and is made again
until it succeeds leaves nothing behind, except in `iouring_fork`.

Arrays also grow inside these functions. That is `grow`, an act of its own. So is `fd_kill` for an fd that the
loop has opened for itself and that the kernel refuses to watch.
-/
import Qev.Lib.Ledger
import Qev.Loop.State
import Qev.Loop.Version

namespace Qev

/-! ### The variables -/

/-- A descriptor, a mapping, an aio context, an allocated block. -/
inductive Res
  | fd (n : ℕ)
  | map (addr : ℕ)
  | ctx (id : ℕ)
  | block (p : ℕ)
  deriving DecidableEq

/-- The arrays. `vecRi` to `vecWo` are the four vectors of select. -/
inductive Arr
  | pendings (pri : Fin 5)
  | idles (pri : Fin 5)
  | anfds
  | rfeeds
  | fdchanges
  | timers
  | periodics
  | forks
  | cleanups
  | prepares
  | checks
  | asyncs
  | epollEvents
  | epollEperms
  | kqueueEvents
  | kqueueChanges
  | portEvents
  | polls
  | pollidxs
  | vecRi
  | vecRo
  | vecWi
  | vecWo
  | linuxaioIocbps
  | linuxaioSubmits
  deriving DecidableEq

/-- The variables of an io_uring. -/
structure Iouring where
  fd : ℤ
  tfd : ℤ
  sqRing : ℤ
  cqRing : ℤ
  sqes : ℤ

/-- The watchers of the loop that decide what `ev_loop_destroy` closes. -/
inductive Inner
  | pipeW
  | sigfdW
  | timerfdW
  deriving DecidableEq

/-- -1 is the invalid descriptor and `MAP_FAILED`; in `fsFd`, `sigfd` and `timerfd` -2 is "not tried yet".
A null pointer is none. `iocbs` are the blocks of `linuxaio_iocbps`, `onces` those of `ev_once` that are not freed,
`pid` is what `getpid` answers. `abandoned` is left open on purpose. `killed` is history: what was open when
`fd_kill` stopped the watcher of it. -/
structure Owner where
  /-- The block of `struct ev_loop`. -/
  loop : Option ℕ
  backend : Option Backend
  backendFd : ℤ
  evpipe0 : ℤ
  evpipe1 : ℤ
  pipeW : Bool
  sigfd : ℤ
  sigfdW : Bool
  timerfd : ℤ
  timerfdW : Bool
  fsFd : ℤ
  iouring : Iouring
  linuxaioCtx : ℕ
  kqueueFdPid : ℕ
  pid : ℕ
  postfork : ℕ
  base : Arr → Option ℕ
  iocbs : List ℕ
  onces : List ℕ
  ledger : Ledger Res
  abandoned : Multiset Res
  killed : Multiset Res

namespace Owner

variable (s : Owner)

/-! ### The kernel and the allocator -/

/-- What a call returns that opens a descriptor, or maps. -/
def returned : Option ℕ → ℤ
  | none => -1
  | some n => n

def hold (r : Res) : Owner := { s with ledger := s.ledger.hold r }

def release (r : Res) : Owner := { s with ledger := s.ledger.release r }

/-- A call that may fail. -/
def opened (kind : ℕ → Res) (k : Option ℕ) : Owner :=
  { s with ledger := match k with
                     | none => s.ledger
                     | some n => s.ledger.hold (kind n) }

/-- `close`, which does nothing when there is no such descriptor. -/
def close (fd : ℤ) : Owner :=
  { s with ledger := if 0 ≤ fd then s.ledger.release (.fd fd.toNat) else s.ledger }

/-- `munmap`, but for `MAP_FAILED`. -/
def unmap (addr : ℤ) : Owner :=
  { s with ledger := if addr ≠ -1 then s.ledger.release (.map addr.toNat) else s.ledger }

def evFree (p : Option ℕ) : Owner :=
  { s with ledger := match p with
                     | none => s.ledger
                     | some p => s.ledger.release (.block p) }

/-- `ev_malloc`, into a variable. -/
def evMalloc (a : Arr) (p : ℕ) : Owner := { s.hold (.block p) with base := Function.update s.base a (some p) }

/-- `array_free`. -/
def arrayFree (a : Arr) : Owner := { s.evFree (s.base a) with base := Function.update s.base a none }

/-- `array_realloc`: the array is now this block. -/
def grow (a : Arr) (p : ℕ) : Owner := (s.evFree (s.base a)).evMalloc a p

/-! ### The backends -/

/-- The wake-up pipe: what `eventfd` answers in the end, and `pipe`. -/
structure Piped where
  eventfd : Option ℕ
  pipe : ℕ × ℕ

/-- `io_uring_params`, as far as the kernel fills it in. -/
structure UringParams where
  sqEntries : BitVec 32
  cqEntries : BitVec 32
  sqHead : BitVec 32
  sqTail : BitVec 32
  sqRingMask : BitVec 32
  sqFlags : BitVec 32
  sqArray : BitVec 32
  cqHead : BitVec 32
  cqTail : BitVec 32
  cqRingMask : BitVec 32
  cqCqes : BitVec 32

/-- `IOURING_MAX_RING_BYTES`. -/
def iouringMaxRingBytes : ℕ := 32 * 2 ^ 20

/-- `iouring_validate_ring_layout`: the sizes of the mappings, computed in 64 bits. An `unsigned` has 4 bytes,
a completion 16, a submission 64. -/
def iouringValidateRingLayout (p : UringParams) : Option (ℕ × ℕ × ℕ) :=
  if p.sqEntries = 0 ∨ p.cqEntries = 0 then none
  else
    let sq := (p.sqArray.toNat + p.sqEntries.toNat * 4) % 2 ^ 64
    if sq < p.sqArray.toNat ∨ iouringMaxRingBytes < sq ∨ 2 ^ 32 - 1 < sq then none
    else
      let cq := (p.cqCqes.toNat + p.cqEntries.toNat * 16) % 2 ^ 64
      if cq < p.cqCqes.toNat ∨ iouringMaxRingBytes < cq ∨ 2 ^ 32 - 1 < cq then none
      else
        let sqe := p.sqEntries.toNat * 64 % 2 ^ 64
        if iouringMaxRingBytes < sqe ∨ 2 ^ 32 - 1 < sqe then none else some (sq, cq, sqe)

/-- `iouring_validate_ptr_offsets`: whether what the loop reads and writes is inside the mappings. -/
def iouringValidatePtrOffsets (p : UringParams) (sqSz cqSz : ℕ) : Bool :=
  if p.sqHead.toNat + 4 > sqSz ∨ p.sqTail.toNat + 4 > sqSz ∨ p.sqRingMask.toNat + 4 > sqSz ∨
      p.sqFlags.toNat + 4 > sqSz ∨ p.sqArray.toNat + p.sqEntries.toNat * 4 > sqSz then false
  else if p.cqHead.toNat + 4 > cqSz ∨ p.cqTail.toNat + 4 > cqSz ∨ p.cqRingMask.toNat + 4 > cqSz ∨
      p.cqCqes.toNat + p.cqEntries.toNat * 16 > cqSz then false
  else true

/-- What the kernel answers to `iouring_init`. -/
structure UringSetup where
  setup : Option ℕ
  params : UringParams
  sqRing : Option ℕ
  cqRing : Option ℕ
  sqes : Option ℕ
  tfd : Option ℕ

/-- `io_uring_setup`. -/
def openRing (k : Option ℕ) : Owner := { s.opened .fd k with iouring := { s.iouring with fd := returned k } }

/-- The three calls of `iouring_mmap_region`. -/
def mapRings (k : UringSetup) : Owner :=
  { ((s.opened .map k.sqRing).opened .map k.cqRing).opened .map k.sqes with
    iouring := { s.iouring with sqRing := returned k.sqRing, cqRing := returned k.cqRing, sqes := returned k.sqes } }

def unmapRings : Owner :=
  { ((s.unmap s.iouring.sqRing).unmap s.iouring.cqRing).unmap s.iouring.sqes with
    iouring := { s.iouring with sqRing := -1, cqRing := -1, sqes := -1 } }

def openTfd (k : Option ℕ) : Owner := { s.opened .fd k with iouring := { s.iouring with tfd := returned k } }

/-- `iouring_init` returns 0. -/
def iouringGiveUp : Owner × Bool := ({ s.close s.iouring.fd with iouring := { s.iouring with fd := -1 } }, false)

/-- The end of `iouring_init`, when the rings are mapped. -/
def iouringTimer (k : UringSetup) : Owner × Bool :=
  let s := s.openTfd k.tfd
  if s.iouring.tfd < 0 then s.unmapRings.iouringGiveUp else ({ s with backendFd := s.iouring.fd }, true)

/-- `iouring_init`, when the layout of the rings is valid. -/
def iouringMap (k : UringSetup) : Owner × Bool :=
  let s := s.mapRings k
  if s.iouring.sqRing = -1 ∨ s.iouring.cqRing = -1 ∨ s.iouring.sqes = -1 then s.unmapRings.iouringGiveUp
  else s.iouringTimer k

/-- `iouring_init`, and whether it succeeds. -/
def iouringInit (k : UringSetup) : Owner × Bool :=
  let s := s.openRing k.setup
  if s.iouring.fd < 0 then (s, false)
  else
    match iouringValidateRingLayout k.params with
    | none => s.iouringGiveUp
    | some (sqSize, cqSize, _) =>
      if iouringValidatePtrOffsets k.params sqSize cqSize then s.iouringMap k else s.iouringGiveUp

def closeRing : Owner :=
  { (s.close s.iouring.fd).close s.iouring.tfd with iouring := { s.iouring with fd := -1, tfd := -1 } }

def iouringDestroy : Owner := s.unmapRings.closeRing

/-- The loop of `iouring_fork`, which ends when `iouring_init` succeeds. -/
def iouringRetry : List UringSetup → Owner → Option Owner
  | [], _ => none
  | k :: ks, s => if (s.iouringInit k).2 then some (s.iouringInit k).1 else iouringRetry ks (s.iouringInit k).1

def iouringFork (ks : List UringSetup) : Option Owner := iouringRetry ks s.iouringDestroy

/-- `epoll_epoll_create`. -/
def openEpoll (k : Option ℕ) : Owner := { s.opened .fd k with backendFd := returned k }

/-- `epoll_init`, with the block of `epoll_events`. -/
def epollInit (k : Option ℕ) (events : ℕ) : Owner × Bool :=
  let s := s.openEpoll k
  if s.backendFd = -1 then (s, false) else (s.evMalloc .epollEvents events, true)

def epollDestroy : Owner := (s.evFree (s.base .epollEvents)).arrayFree .epollEperms

/-- The backend's fd is closed, and another one opened. -/
def reopen (k : ℕ) : Owner := { (s.close s.backendFd).hold (.fd k) with backendFd := k }

/-- `epoll_fork`, with what `epoll_create` answers in the end. -/
def epollFork (k : ℕ) : Owner := s.reopen k

structure AioSetup where
  /-- The release that `uname` tells. -/
  uname : Option (List Char)
  epoll : Option ℕ
  events : ℕ
  ctx : Option ℕ

/-- `linuxaio_io_setup`. -/
def linuxaioIoSetup (k : Option ℕ) : Owner := { s.opened .ctx k with linuxaioCtx := k.getD 0 }

def closeBackend : Owner := { s.close s.backendFd with backendFd := -1 }

/-- The arrays of the aio are empty. -/
def linuxaioReset : Owner :=
  { s with iocbs := []
           base := Function.update (Function.update s.base .linuxaioIocbps none) .linuxaioSubmits none }

def linuxaioInit (k : AioSetup) : Owner × Bool :=
  if Version.evLinuxVersion k.uname < 0x041300 then (s, false)
  else
    let r := s.epollInit k.epoll k.events
    if !r.2 then r
    else
      let s := r.1.linuxaioIoSetup k.ctx
      if k.ctx = none then (if s.backendFd ≠ -1 then s.epollDestroy.closeBackend else s.epollDestroy, false)
      else (s.linuxaioReset, true)

/-- `linuxaio_free_iocbp`. -/
def linuxaioFreeIocbp : Owner :=
  { s with iocbs := [], ledger := s.iocbs.reverse.foldl (fun l p => l.release (.block p)) s.ledger }

def linuxaioFreeArrays : Owner := (s.linuxaioFreeIocbp.arrayFree .linuxaioIocbps).arrayFree .linuxaioSubmits

def linuxaioDestroy : Owner :=
  let s := s.epollDestroy.linuxaioFreeArrays.release (.ctx s.linuxaioCtx)
  if s.backendFd ≠ -1 then s.closeBackend else s

/-- `linuxaio_fork`, with the context and the epoll fd it gets in the end. -/
def linuxaioFork (ctx epoll : ℕ) : Owner :=
  let s := s.linuxaioFreeIocbp.release (.ctx s.linuxaioCtx)
  (s.linuxaioIoSetup (some ctx)).epollFork epoll

/-- `linuxaio_poll` when `io_submit` fails with `EAGAIN`: a larger ring, or no aio from now on. -/
def linuxaioAgain (k : Option ℕ) : Owner :=
  let s := (s.release (.ctx s.linuxaioCtx)).linuxaioIoSetup k
  if k = none then { s.linuxaioFreeArrays with linuxaioCtx := 0, backend := some .epoll } else s

/-- `linuxaio_iocbps` grows: another array, and a block for each new cell. -/
def linuxaioGrow (p : ℕ) (iocbs : List ℕ) : Owner :=
  let s := s.grow .linuxaioIocbps p
  { s with iocbs := s.iocbs ++ iocbs, ledger := iocbs.foldl (fun l p => l.hold (.block p)) s.ledger }

def kqueueInit (k : Option ℕ) (events : ℕ) : Owner × Bool :=
  match k with
  | none => ({ s with kqueueFdPid := s.pid }, false)
  | some kq =>
    let s := { s.hold (.fd kq) with kqueueFdPid := s.pid, backendFd := kq }
    ({ s.evMalloc .kqueueEvents events with
      base := Function.update (s.evMalloc .kqueueEvents events).base .kqueueChanges none }, true)

def kqueueDestroy : Owner := (s.evFree (s.base .kqueueEvents)).evFree (s.base .kqueueChanges)

/-- `kqueue_fork`. In another process the fd is not closed. -/
def kqueueFork (k : ℕ) : Owner :=
  let newpid := s.pid
  if newpid = s.kqueueFdPid then { s.reopen k with kqueueFdPid := newpid }
  else
    { s.hold (.fd k) with
      kqueueFdPid := newpid, backendFd := k, abandoned := .fd s.backendFd.toNat ::ₘ s.abandoned }

def portInit (k : Option ℕ) (events : ℕ) : Owner × Bool :=
  match k with
  | none => (s, false)
  | some portfd => (({ s.hold (.fd portfd) with backendFd := portfd } : Owner).evMalloc .portEvents events, true)

def portDestroy : Owner := s.evFree (s.base .portEvents)

def portFork (k : ℕ) : Owner := s.reopen k

def pollInit : Owner × Bool :=
  ({ s with base := Function.update (Function.update s.base .pollidxs none) .polls none }, true)

def pollDestroy : Owner := (s.evFree (s.base .pollidxs)).evFree (s.base .polls)

def selectInit : Owner × Bool :=
  ({ s with base := Function.update (Function.update (Function.update (Function.update s.base .vecRi none)
      .vecRo none) .vecWi none) .vecWo none }, true)

def selectDestroy : Owner :=
  (((s.evFree (s.base .vecRi)).evFree (s.base .vecRo)).evFree (s.base .vecWi)).evFree (s.base .vecWo)

/-! ### The descriptors that are opened when they are needed -/

/-- What `evpipe_init` opens. -/
def openPipe : Piped → Owner × ℤ × ℕ
  | ⟨some fd, _⟩ => (s.hold (.fd fd), -1, fd)
  | ⟨none, pipe⟩ => ((s.hold (.fd pipe.1)).hold (.fd pipe.2), pipe.1, pipe.2)

/-- `evpipe_init`. A second write end is put in the place of the first. -/
def evpipeInit (k : Piped) : Owner :=
  if s.pipeW then s
  else
    let r := s.openPipe k
    if r.1.evpipe1 < 0 then { r.1 with evpipe0 := r.2.1, evpipe1 := r.2.2, pipeW := true }
    else { r.1.close r.2.2 with evpipe0 := r.2.1, pipeW := true }

/-- The signalfd in `ev_signal_start`. -/
def sigfdInit (k : Option ℕ) : Owner :=
  if s.sigfd = -2 then
    { s.opened .fd k with sigfd := returned k, sigfdW := if 0 ≤ returned k then true else s.sigfdW }
  else s

/-- `evtimerfd_init`. -/
def evtimerfdInit (k : Option ℕ) : Owner :=
  if s.timerfdW then s
  else { s.opened .fd k with timerfd := returned k, timerfdW := if 0 ≤ returned k then true else s.timerfdW }

/-- `infy_init`. -/
def infyInit (k : Option ℕ) : Owner :=
  if s.fsFd ≠ -2 then s else { s.opened .fd k with fsFd := returned k }

/-- `infy_fork`. -/
def infyFork (k : Option ℕ) : Owner :=
  if s.fsFd < 0 then s else { (s.close s.fsFd).opened .fd k with fsFd := returned k }

/-! ### What is watched for the user -/

/-- `ev_once`, when it allocates. -/
def evOnce (p : ℕ) : Owner := { s.hold (.block p) with onces := p :: s.onces }

/-- `once_cb`, for a block. -/
def onceCb (p : ℕ) : Owner := { s.release (.block p) with onces := s.onces.erase p }

def onceReclaim : Owner :=
  { s with onces := [], ledger := s.onces.foldl (fun l p => l.release (.block p)) s.ledger }

/-! ### What the kernel refuses -/

def fdOf (fd : ℤ) : Multiset Res := if 0 ≤ fd then {.fd fd.toNat} else 0

def pipes : Multiset Res := fdOf s.evpipe0 + fdOf s.evpipe1

/-- Whether one of the loop's watchers is active, and what is open for it. -/
def watches : Inner → Bool
  | .pipeW => s.pipeW
  | .sigfdW => s.sigfdW
  | .timerfdW => s.timerfdW

def opens : Inner → Multiset Res
  | .pipeW => s.pipes
  | .sigfdW => fdOf s.sigfd
  | .timerfdW => fdOf s.timerfd

/-- `fd_kill` for the fd of a watcher of the loop's own. The watcher is stopped, and the fd stays open. -/
def fdKill (w : Inner) : Owner :=
  let s := { s with killed := s.opens w + s.killed }
  match w with
  | .pipeW => { s with pipeW := false }
  | .sigfdW => { s with sigfdW := false }
  | .timerfdW => { s with timerfdW := false }

/-! ### The loop -/

/-- The flags, and the backends they ask for of those the build has. -/
structure Flags where
  noinotify : Bool
  signalfd : Bool
  notimerfd : Bool
  backends : Backend → Bool

structure InitAnswers where
  port : Option ℕ
  kqueue : Option ℕ
  uring : UringSetup
  aio : AioSetup
  epoll : Option ℕ
  /-- The block for the events of a port, a kqueue or an epoll. -/
  events : ℕ

/-- `backend = init`, if there is none so far. -/
def tryInit (f : Flags) (b : Backend) (init : Owner → Owner × Bool) : Owner :=
  if s.backend = none ∧ f.backends b = true then
    let r := init s
    if r.2 then { r.1 with backend := some b } else r.1
  else s

/-- `loop_init` before it tries the backends. -/
def preset (f : Flags) : Owner :=
  { s with
    backendFd := -1, evpipe0 := -1, evpipe1 := -1
    fsFd := if f.noinotify then -1 else -2
    sigfd := if f.signalfd then -2 else -1
    timerfd := if f.notimerfd then -1 else -2 }

def loopInit (f : Flags) (k : InitAnswers) : Owner :=
  if s.backend ≠ none then s
  else
    let s := s.preset f
    let s := s.tryInit f .port (·.portInit k.port k.events)
    let s := s.tryInit f .kqueue (·.kqueueInit k.kqueue k.events)
    let s := s.tryInit f .iouring (·.iouringInit k.uring)
    let s := s.tryInit f .linuxaio (·.linuxaioInit k.aio)
    let s := s.tryInit f .epoll (·.epollInit k.epoll k.events)
    let s := s.tryInit f .poll pollInit
    let s := s.tryInit f .select selectInit
    { s with pipeW := false }

/-- The arrays that belong to no backend, in the order of `ev_loop_destroy`. -/
def loopArrays : List Arr :=
  ((List.finRange 5).reverse.flatMap fun i => [.pendings i, .idles i]) ++
    [.anfds, .rfeeds, .fdchanges, .timers, .periodics, .forks, .cleanups, .prepares, .checks, .asyncs]

/-- What the backend closes and frees. -/
def backendDestroy : Owner :=
  match s.backend with
  | some .port => s.portDestroy
  | some .kqueue => s.kqueueDestroy
  | some .iouring => s.iouringDestroy
  | some .linuxaio => s.linuxaioDestroy
  | some .epoll => s.epollDestroy
  | some .poll => s.pollDestroy
  | some .select => s.selectDestroy
  | none => s

/-- The pipe in `ev_loop_destroy`. -/
def evpipeClose : Owner := if s.pipeW then (s.close s.evpipe0).close s.evpipe1 else s

/-- The other descriptors in `ev_loop_destroy`. -/
def asidesClose : Owner :=
  let s := if s.sigfdW then s.close s.sigfd else s
  let s := if s.timerfdW then s.close s.timerfd else s
  s.close s.fsFd

/-- `ev_loop_destroy`, once the callbacks of the cleanup watchers have returned. The io_uring and the aio close
`backend_fd` themselves. -/
def evLoopDestroy : Owner :=
  let s := s.onceReclaim.evpipeClose.asidesClose
  let s :=
    if s.backendFd ≠ -1 ∧ s.backend ≠ some .iouring ∧ s.backend ≠ some .linuxaio then s.close s.backendFd else s
  let s := loopArrays.foldl arrayFree s.backendDestroy
  { s.evFree s.loop with backend := none, loop := none }

structure ForkAnswers where
  /-- The fd of a port, a kqueue or an epoll. -/
  backendFd : ℕ
  uring : List UringSetup
  ctx : ℕ
  fs : Option ℕ
  timerfd : Option ℕ
  pipe : Piped

/-- None if the backend is still trying. -/
def backendFork (k : ForkAnswers) : Option Owner :=
  match s.backend with
  | some .port => some (s.portFork k.backendFd)
  | some .kqueue => some (s.kqueueFork k.backendFd)
  | some .iouring => s.iouringFork k.uring
  | some .linuxaio => some (s.linuxaioFork k.ctx k.backendFd)
  | some .epoll => some (s.epollFork k.backendFd)
  | _ => some s

/-- `loop_fork` for the timerfd. -/
def timerfdFork (k : Option ℕ) : Owner :=
  if s.timerfdW then { s.close s.timerfd with timerfdW := false, timerfd := -2 }.evtimerfdInit k else s

/-- `loop_fork` for the pipe. -/
def evpipeFork (k : Piped) : Owner :=
  if s.pipeW then { s.close s.evpipe0 with pipeW := false }.evpipeInit k else s

def loopFork (k : ForkAnswers) : Option Owner :=
  (s.backendFork k).map fun s =>
    let s := s.infyFork k.fs
    let s := if s.postfork ≠ 2 then (s.timerfdFork k.timerfd).evpipeFork k.pipe else s
    { s with postfork := 0 }

/-- The block of `ev_loop_new`, or the static one of the default loop, before `loop_init`. -/
def zeroed (loop : Option ℕ) (pid : ℕ) : Owner where
  loop := loop
  backend := none
  backendFd := 0
  evpipe0 := 0
  evpipe1 := 0
  pipeW := false
  sigfd := 0
  sigfdW := false
  timerfd := 0
  timerfdW := false
  fsFd := 0
  iouring := ⟨0, 0, 0, 0, 0⟩
  linuxaioCtx := 0
  kqueueFdPid := 0
  pid := pid
  postfork := 0
  base := fun _ => none
  iocbs := []
  onces := []
  ledger := .init
  abandoned := 0
  killed := 0

/-- `ev_loop_new`, with the block it allocates. -/
def evLoopNew (p : ℕ) (pid : ℕ) (f : Flags) (k : InitAnswers) : Owner :=
  let s := ((zeroed (some p) pid).hold (.block p)).loopInit f k
  if s.backend ≠ none then s else { s.evFree s.loop with loop := none }

/-- `ev_default_loop` when it makes the loop the first time, but for its child watcher. -/
def evDefaultLoop (pid : ℕ) (f : Flags) (k : InitAnswers) : Owner := (zeroed none pid).loopInit f k

/-! ### Runs -/

/-- The kernel gives a forked child neither the aio contexts nor, on some systems, the kqueues. -/
def forked (pid : ℕ) (kqueues : Bool) : Owner :=
  { s with
    pid := pid
    ledger :=
      if s.backend = some .linuxaio then s.ledger.take (.ctx s.linuxaioCtx)
      else if s.backend = some .kqueue ∧ kqueues = false then s.ledger.take (.fd s.backendFd.toNat)
      else s.ledger }

/-- What happens to a loop. -/
inductive Act
  | grow (a : Arr) (p : ℕ)
  | linuxaioGrow (p : ℕ) (iocbs : List ℕ)
  | linuxaioAgain (k : Option ℕ)
  | evpipeInit (k : Piped)
  | sigfdInit (k : Option ℕ)
  | evtimerfdInit (k : Option ℕ)
  | infyInit (k : Option ℕ)
  | evOnce (p : ℕ)
  | onceCb (p : ℕ)
  | fdKill (w : Inner)
  | forked (pid : ℕ) (kqueues : Bool)
  | evLoopFork
  /-- `epoll_poll` finds an fd in the set that should not be there. -/
  | epollSpurious
  | loopFork (k : ForkAnswers)
  | evLoopDestroy

/-- Whether an array grows under a backend. -/
def growsUnder (b : Backend) : Arr → Bool
  | .epollEvents | .epollEperms => b = .epoll ∨ b = .linuxaio
  | .kqueueEvents | .kqueueChanges => b = .kqueue
  | .portEvents => b = .port
  | .polls | .pollidxs => b = .poll
  | .vecRi | .vecRo | .vecWi | .vecWo => b = .select
  | .linuxaioSubmits => b = .linuxaio
  | .linuxaioIocbps => false
  | _ => true

/-- There is a loop, and what is done to it belongs to its backend. A periodic tries the timerfd once, `once_cb` is
called for a block that is not freed, and what is stopped is active. -/
def Allowed : Act → Prop
  | .grow a _ => (s.backend.any fun b => growsUnder b a) = true
  | .linuxaioGrow _ _ | .linuxaioAgain _ => s.backend = some .linuxaio
  | .evtimerfdInit _ => s.backend ≠ none ∧ s.timerfd = -2
  | .onceCb p => s.backend ≠ none ∧ p ∈ s.onces
  | .fdKill w => s.backend ≠ none ∧ s.watches w = true
  | _ => s.backend ≠ none

instance : (a : Act) → Decidable (s.Allowed a)
  | .grow a _ => inferInstanceAs (Decidable ((s.backend.any fun b => growsUnder b a) = true))
  | .linuxaioGrow _ _ | .linuxaioAgain _ => inferInstanceAs (Decidable (s.backend = some .linuxaio))
  | .evtimerfdInit _ => inferInstanceAs (Decidable (s.backend ≠ none ∧ s.timerfd = -2))
  | .onceCb p => inferInstanceAs (Decidable (s.backend ≠ none ∧ p ∈ s.onces))
  | .fdKill w => inferInstanceAs (Decidable (s.backend ≠ none ∧ s.watches w = true))
  | .evpipeInit _ | .sigfdInit _ | .infyInit _ | .evOnce _ | .forked _ _ | .evLoopFork | .epollSpurious | .loopFork _
  | .evLoopDestroy => inferInstanceAs (Decidable (s.backend ≠ none))

/-- None if the act does not end. -/
def does : Act → Option Owner
  | .grow a p => some (s.grow a p)
  | .linuxaioGrow p iocbs => some (s.linuxaioGrow p iocbs)
  | .linuxaioAgain k => some (s.linuxaioAgain k)
  | .evpipeInit k => some (s.evpipeInit k)
  | .sigfdInit k => some (s.sigfdInit k)
  | .evtimerfdInit k => some (s.evtimerfdInit k)
  | .infyInit k => some (s.infyInit k)
  | .evOnce p => some (s.evOnce p)
  | .onceCb p => some (s.onceCb p)
  | .fdKill w => some (s.fdKill w)
  | .forked pid kqueues => some (s.forked pid kqueues)
  | .evLoopFork => some { s with postfork := 1 }
  | .epollSpurious => some { s with postfork := s.postfork ||| 2 }
  | .loopFork k => s.loopFork k
  | .evLoopDestroy => some s.evLoopDestroy

/-- Acts one after the other. -/
inductive Runs : Owner → List Act → Owner → Prop
  | nil (s : Owner) : Runs s [] s
  | cons {s t u : Owner} {a : Act} {acts : List Act} :
      s.Allowed a → s.does a = some t → Runs t acts u → Runs s (a :: acts) u

end Owner

end Qev
