/-
# Sockets under a loop

On Windows a watcher names a SOCKET, and the loop the index the registry gives it. The
index goes back with the last watcher on the socket and may stand for another one before
the next `fd_reify`. Both backends know the sockets alone: wepoll, whose registrations
are deleted by `ev_io_stop` itself, and winsock's `select`, whose sets `select_modify`
changes by the handle last started on the index.

The fds are those of every loop (`Fds`); `handle` is `anfds [fd].handle`, `wHandle` the
watcher's own.
-/
import Qev.Backend.Epoll
import Qev.Win32.Consistent

namespace Qev
namespace Win32

open Lib Epoll

/-- The loop's fds and its backend. wepoll's registrations have the SOCKET as key; `ri` and `wi` are the
`fd_set`s, of `setsize` places (`FD_SETSIZE`). -/
structure Sockets (W : Type) where
  fds : Fds W
  handle : ℕ → Handle
  wHandle : W → Handle
  backend : Backend
  kernel : Kernel
  ri : List Handle
  wi : List Handle
  setsize : ℕ

namespace Sockets

/-- A loop without watchers. wepoll takes a socket or refuses it. -/
def init {W : Type} (backend : Backend) (setsize : ℕ) (accepts : ℕ → Bool) : Sockets W where
  fds := { anfds := fun _ => ⟨[], 0, 0, 0, 0⟩, anfdmax := 0, fdchanges := [], fd := fun _ => 0,
           events := fun _ => 0, active := fun _ => 0 }
  handle := fun _ => 0
  wHandle := fun _ => 0
  backend := backend
  kernel := .init fun n _ => if accepts n then .served else .resource
  ri := []
  wi := []
  setsize := setsize

variable {W : Type} [DecidableEq W] (s : Sockets W)

/-- `EV_FD_TO_SOCK`. -/
def fdToSock (fd : ℕ) : ℕ := if s.handle fd ≠ 0 then (s.handle fd).toNat else fd

/-! ### The watchers -/

/-- `ev_io_init_sock`. -/
def evIoInitSock (w : W) (sock : Handle) (events : Events) : Sockets W :=
  { s with
    fds := { s.fds with events := Function.update s.fds.events w (events ||| evIofdset) }
    wHandle := Function.update s.wHandle w sock }

/-- `ev_io_start`, when the registry answered with `fd`. -/
def evIoStart (w : W) (fd : ℕ) : Sockets W :=
  { s with
    fds := ({ s.fds with fd := Function.update s.fds.fd w fd } : Fds W).start w
    handle := Function.update s.handle fd (s.wHandle w) }

/-- The registration goes with the last watcher, and what the loop has recorded of it. -/
def eagerDel (fd : ℕ) : Sockets W :=
  { s with
    kernel := (epollCtl .del (s.handle fd).toNat ⟨0, 0, 0⟩ s.kernel).1
    fds := s.fds.setFd fd { s.fds.anfds fd with events := 0, emask := 0 } }

def evIoStop (w : W) : Sockets W :=
  if s.fds.active w = 0 then s
  else
    let fd := s.fds.fd w
    let s := { s with fds := s.fds.stop w }
    if s.backend = .epoll ∧ (s.fds.anfds fd).head = [] then s.eagerDel fd else s

def evIoModify (w : W) (events : Events) : Sockets W := { s with fds := s.fds.modify w events }

/-- The loop of `fd_kill`. -/
def fdKillLoop (fd : ℕ) : ℕ → Sockets W → Sockets W
  | 0, s => s
  | n + 1, s =>
    match (s.fds.anfds fd).head with
    | [] => s
    | w :: _ => fdKillLoop fd n (s.evIoStop w)

def fdKill (fd : ℕ) : Sockets W := fdKillLoop fd (s.fds.anfds fd).head.length s

/-! ### The backends -/

def epollModify (fd : ℕ) (oev nev : BitVec 8) : Sockets W :=
  if nev = 0 then s
  else
    let oldmask := (s.fds.anfds fd).emask
    let egen := (s.fds.anfds fd).egen
    let s := { s with fds := (s.fds.setEmask fd nev).setEgen fd (egen + 1) }
    match register (s.fdToSock fd) oev nev oldmask ⟨kernelMask nev, fd, BitVec.ofNat 32 (egen + 1)⟩ s.kernel with
    | (k, .done) => { s with kernel := k }
    | (k, .eperm) =>
      let k := if oldmask &&& evEmaskEperm = 0 then { k with eperms := k.eperms ++ [fd] } else k
      { s with kernel := k, fds := s.fds.setEmask fd evEmaskEperm }
    | (k, .decEgen) => { s with kernel := k, fds := s.fds.setEgen fd egen }
    | (k, .kill) =>
      let s := ({ s with kernel := k } : Sockets W).fdKill fd
      { s with fds := s.fds.setEgen fd egen }

/-- `FD_SET`: nothing when the socket is in the set, or the set full. -/
def fdSet (sock : Handle) (set : List Handle) : List Handle :=
  if sock ∈ set ∨ s.setsize ≤ set.length then set else set ++ [sock]

/-- `FD_CLR`. -/
def fdClr (sock : Handle) (set : List Handle) : List Handle := set.erase sock

/-- What `select_modify` does to the set of one kind of event. -/
def selectSet (bit : BitVec 8) (sock : Handle) (oev nev : BitVec 8) (set : List Handle) : List Handle :=
  if (oev ^^^ nev) &&& bit ≠ 0 then
    if nev &&& bit ≠ 0 then s.fdSet sock set else fdClr sock set
  else set

def selectModify (fd : ℕ) (oev nev : BitVec 8) : Sockets W :=
  if oev = nev then s
  else
    { s with
      ri := s.selectSet readBit (s.handle fd) oev nev s.ri
      wi := s.selectSet writeBit (s.handle fd) oev nev s.wi }

def backendModify (fd : ℕ) (oev nev : BitVec 8) : Sockets W :=
  if s.backend = .epoll then s.epollModify fd oev nev else s.selectModify fd oev nev

/-- What `fd_reify` does for one of the fds queued. -/
def fdReifyOne (s : Sockets W) (fd : ℕ) : Sockets W :=
  let change := s.fds.change fd
  let s := { s with fds := s.fds.reify fd }
  match change with
  | none => s
  | some (oev, nev) => s.backendModify fd oev nev

def fdReify : Sockets W :=
  let changecnt := s.fds.fdchanges.length
  let s := s.fds.fdchanges.foldl fdReifyOne s
  { s with fds := s.fds.shift changecnt }

/-! ### What is watched -/

/-- An active watcher on the socket wants the bit. -/
def Wanted (sock : Handle) (i : ℕ) : Prop :=
  ∃ w, s.fds.active w ≠ 0 ∧ s.wHandle w = sock ∧ (s.fds.events w).getLsbD i = true

instance [Fintype W] (sock : Handle) (i : ℕ) : Decidable (s.Wanted sock i) :=
  inferInstanceAs (Decidable (∃ _, _ ∧ _ ∧ _))

/-- The union of the masks of a socket's active watchers. -/
def Union (sock : Handle) (m : BitVec 8) : Prop := ∀ i, m.getLsbD i = true ↔ i < 8 ∧ s.Wanted sock i

/-- The sets have the sockets with an active watcher that wants the event, and no others. -/
def SetsExact : Prop := ∀ sock : Handle, (sock ∈ s.ri ↔ s.Wanted sock 0) ∧ (sock ∈ s.wi ↔ s.Wanted sock 1)

/-- The backend watches the sockets that have active watchers, each with the union of their masks, and no
others. -/
def Exact : Prop :=
  if s.backend = .epoll then
    ∀ sock : Handle, ∃ m, s.Union sock m ∧
      (s.kernel.set sock.toNat).map EpollEvent.events = if m = 0 then none else some (kernelMask m)
  else s.SetsExact

/-- As `Exact`, but a socket keeps its registration when its watchers no longer want anything: `epoll_modify` is
not for taking one back. -/
def Told : Prop :=
  if s.backend = .epoll then
    ∀ sock : Handle, ∃ m, s.Union sock m ∧
      (m ≠ 0 → (s.kernel.set sock.toNat).map EpollEvent.events = some (kernelMask m)) ∧
      ((∀ w, s.fds.active w ≠ 0 → s.wHandle w ≠ sock) → s.kernel.set sock.toNat = none)
  else s.SetsExact

/-! ### Runs -/

/-- The index the registry answers with for a watcher's socket: the socket's, when it has active watchers, and
no other socket's. -/
def Fits (w : W) (fd : ℕ) : Prop := ∀ v, s.fds.active v ≠ 0 → (s.fds.fd v = fd ↔ s.wHandle v = s.wHandle w)

instance [Fintype W] (w : W) (fd : ℕ) : Decidable (s.Fits w fd) := inferInstanceAs (Decidable (∀ _, _ → _))

/-- `evIoStart w none`: the registry gives no index. -/
inductive Act (W : Type)
  | evIoInitSock (w : W) (sock : Handle) (events : Events)
  | evIoStart (w : W) (fd : Option ℕ)
  | evIoStop (w : W)
  | evIoModify (w : W) (events : Events)
  | fdReify

/-- An active watcher is not initialised, a watcher that is started has a socket and a legal mask, and
`select_modify` is not called with an index from `FD_SETSIZE` on. -/
def Allowed : Act W → Prop
  | .evIoInitSock w sock _ => s.fds.active w = 0 ∧ sock ≠ 0
  | .evIoStart w (some fd) => s.fds.active w = 0 → s.wHandle w ≠ 0 ∧
      s.fds.events w &&& ~~~(evIofdset ||| evRead ||| evWrite) = 0 ∧ s.Fits w fd
  | .fdReify => s.backend ≠ .epoll → ∀ fd ∈ s.fds.fdchanges, (s.fds.anfds fd).events ≠ s.fds.wanted fd →
      fd < s.setsize
  | _ => True

instance [Fintype W] : ∀ a, Decidable (s.Allowed a)
  | .evIoInitSock .. => inferInstanceAs (Decidable (_ ∧ _))
  | .evIoStart _ (some _) => inferInstanceAs (Decidable (_ → _ ∧ _ ∧ _))
  | .evIoStart _ none => inferInstanceAs (Decidable True)
  | .evIoStop _ => inferInstanceAs (Decidable True)
  | .evIoModify .. => inferInstanceAs (Decidable True)
  | .fdReify => inferInstanceAs (Decidable (_ → ∀ fd ∈ s.fds.fdchanges, _ → _))

/-- With `select`, a mask that is still recorded is the started socket's exactly when its index is the one the
registry gives. -/
def Settled : Act W → Prop
  | .evIoStart w (some fd) => s.fds.active w = 0 → s.backend ≠ .epoll → ∀ fd', (s.fds.anfds fd').events ≠ 0 →
      (s.handle fd' = s.wHandle w ↔ fd' = fd)
  | _ => True

def step : Act W → Sockets W
  | .evIoInitSock w sock events => s.evIoInitSock w sock events
  | .evIoStart w (some fd) => if s.fds.active w ≠ 0 then s else s.evIoStart w fd
  | .evIoStart _ none => s
  | .evIoStop w => s.evIoStop w
  | .evIoModify w events => s.evIoModify w events
  | .fdReify => s.fdReify

section

omit [DecidableEq W]

/-- The registry's answers fit, as long as it has the sockets with active watchers under their indices. -/
theorem fits_of_acquire {s : Sockets W} {w : W} {fd : ℕ} {r r' : Registry} {a : Alloc} (h : r.Ok)
    (hfresh : ∀ p ∈ a.entry, r.heap p = none)
    (hheld : ∀ v, s.fds.active v ≠ 0 → ∃ p e, r.heap p = some e ∧ e.fd = s.fds.fd v ∧ e.handle = s.wHandle v)
    (hr : r.fdAcquire (s.wHandle w) false a = some (r', .ok fd)) : s.Fits w fd := by
  intro v hv
  obtain ⟨p', e', he', hfd', hh'⟩ := hheld v hv
  obtain ⟨r₁, res, hr₁, hok, hcases⟩ := h.fdAcquire (s.wHandle w) false a hfresh
  rw [hr, Option.some.injEq, Prod.mk.injEq] at hr₁
  obtain ⟨rfl, rfl⟩ := hr₁
  rw [← hfd', ← hh']
  rcases hcases with ⟨p, e, he, hh, hres, -⟩ | ⟨p, e, hnone, hno, -, -, hres, hheap⟩ | ⟨⟨errno, hres⟩, -⟩
  · cases hres
    constructor
    · intro hfd
      have hp := h.fds he' he hfd
      rw [hp, he] at he'
      cases he'
      exact hh
    · intro hsock
      have hp := h.handles p' p e' e he' he (hsock.trans hh.symm)
      rw [hp, he] at he'
      cases he'
      rfl
  · cases hres
    refine iff_of_false (fun hfd => ?_) (hno p' e' he')
    have hne : p' ≠ p := fun hp => by
      rw [hp, hnone] at he'
      cases he'
    have he₁ : r'.heap p' = some e' := by rw [hheap, Function.update_of_ne hne, he']
    have he₂ : r'.heap p = some e := by rw [hheap, Function.update_self]
    exact hne (hok.fds he₁ he₂ hfd)
  · cases hres

end

end Sockets
end Win32
end Qev
