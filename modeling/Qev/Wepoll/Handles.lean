/-
# The handles of wepoll

On Windows `wepoll.c` emulates epoll. Threads call `epoll_create`, `epoll_ctl`, `epoll_wait` and
`epoll_close` at the same time, and each but the first has only a handle, which `epoll__handle_tree` leads to
a `port_state`. A reader-writer lock guards the tree and a reflock in the port keeps its memory: `epoll_close`
frees the port, but waits until no other thread has a reference.

Every step is one access of one thread: an interlocked operation, taking or giving back the lock, a search
or a change of the tree under the lock, an access to the port. `malloc` gives any address that is free, also
one that was freed before, and the handle of a new port may be any. `fault` says that memory was used that is
not a port, `failed` that an assertion of the reflock or of `port_delete` failed.
-/
import Qev.Lib.Run
import Qev.Lib.Threads

namespace Qev
namespace Wepoll
namespace Handles

/-- `REFLOCK__DESTROY`. -/
def reflockDestroy : BitVec 32 := 0x10000000

/-- `REFLOCK__REF_MASK`. -/
def reflockRefMask : BitVec 32 := 0x0fffffff

/-- `REFLOCK__DESTROY_MASK`. -/
def reflockDestroyMask : BitVec 32 := 0xf0000000

/-- `REFLOCK__POISON`. -/
def reflockPoison : BitVec 32 := 0x300dead0

/-- A `port_state`: what its handle is about. `key` is in the node of the tree that the port contains. -/
structure Port where
  iocpHandle : Option ℕ
  key : ℕ
  reflock : BitVec 32

/-- The next access of a thread. -/
inductive Pc
  /-- In none of the functions. -/
  | idle
  /-- `ts_tree_add` takes the lock. -/
  | addLock (port ephnd : ℕ)
  | add (port ephnd : ℕ)
  /-- It gives it back, with the port if the handle was in the tree already. -/
  | addUnlock (collided : Option ℕ)
  /-- `epoll__create` closes a port again. -/
  | closeCollided (port : ℕ)
  /-- `ts_tree_find_and_ref` takes the lock. -/
  | findLock (ephnd : ℕ)
  | find (ephnd : ℕ)
  | findRef (port : ℕ)
  | findUnlock (found : Option ℕ)
  /-- In `port_ctl` or `port_wait`. -/
  | use (port : ℕ)
  | unref (port : ℕ)
  /-- In `NtReleaseKeyedEvent`. -/
  | signal (port : ℕ)
  /-- `ts_tree_del_and_ref` takes the lock. -/
  | delLock (ephnd : ℕ)
  | del (ephnd : ℕ)
  | delRef (port : ℕ)
  | delUnlock (found : Option ℕ)
  | close (port : ℕ)
  /-- The first access of `reflock_unref_and_destroy`. -/
  | destroy (port : ℕ)
  /-- In `NtWaitForKeyedEvent`. -/
  | await (port : ℕ)
  /-- The last access of `reflock_unref_and_destroy`. -/
  | poison (port : ℕ)
  | delete (port : ℕ)
  deriving DecidableEq

/-- `tree` are the ports whose nodes are in `epoll__handle_tree`; their order is left out. `readers` and `writer`
are the lock. -/
structure State (T : Type) where
  pc : T → Pc
  heap : ℕ → Option Port
  tree : List ℕ
  readers : ℕ
  writer : Bool
  fault : Bool
  failed : Bool

/-- What begins in a thread. -/
inductive Call
  /-- `epoll_create`, with the memory and the handle that `port_new` gets. -/
  | create (port ephnd : ℕ)
  /-- `epoll_ctl` and `epoll_wait`. -/
  | use (ephnd : ℕ)
  | close (ephnd : ℕ)

inductive Act (T : Type)
  | begin (t : T) (c : Call)
  /-- The next access of a thread. -/
  | advance (t : T)
  /-- Another access to the port in `port_ctl` or `port_wait`. -/
  | access (t : T)
  /-- The one releases the keyed event that the other waits for: neither goes on before both are there. -/
  | meet (signaller awaiter : T)

namespace State

variable {T : Type} [DecidableEq T] (s : State T)

def init : State T := ⟨fun _ => .idle, fun _ => none, [], 0, false, false, false⟩

def goto (t : T) (p : Pc) : State T := { s with pc := Function.update s.pc t p }

def check (b : Bool) : State T := { s with failed := s.failed || !b }

/-- The memory of a port is written, or read if `f` is the identity. -/
def write (p : ℕ) (f : Port → Port) : State T :=
  match s.heap p with
  | none => { s with fault := true }
  | some q => { s with heap := Function.update s.heap p (some (f q)) }

/-- `InterlockedAdd`, and what it returns. -/
def interlockedAdd (p : ℕ) (n : BitVec 32) : State T × BitVec 32 :=
  (s.write p fun q => { q with reflock := q.reflock + n }, match s.heap p with
                                                            | none => 0
                                                            | some q => q.reflock + n)

/-- The functions of the tree read and write the nodes in it. -/
def visit : State T := { s with fault := s.fault || !s.tree.all fun p => (s.heap p).isSome }

/-- `ts_tree__find_node`. -/
def findNode (ephnd : ℕ) : Option ℕ := s.tree.find? fun p => (s.heap p).any fun q => q.key = ephnd

def acquireShared : Option (State T) := if s.writer then none else some { s with readers := s.readers + 1 }

def releaseShared : State T := { s with readers := s.readers - 1 }

def acquireExclusive : Option (State T) :=
  if s.writer ∨ s.readers ≠ 0 then none else some { s with writer := true }

def releaseExclusive : State T := { s with writer := false }

/-- `reflock_ref`. -/
def reflockRef (p : ℕ) : State T :=
  let r := s.interlockedAdd p 1
  r.1.check (r.2 &&& reflockDestroyMask = 0)

/-- `reflock_unref`. -/
def reflockUnref (t : T) (p : ℕ) : State T :=
  let r := s.interlockedAdd p (-1)
  let s := r.1.check (r.2 &&& reflockDestroyMask &&& ~~~reflockDestroy = 0)
  if r.2 = reflockDestroy then s.goto t (.signal p) else s.goto t .idle

/-- `reflock_unref_and_destroy`, up to the wait. -/
def reflockUnrefAndDestroy (t : T) (p : ℕ) : State T :=
  let r := s.interlockedAdd p (reflockDestroy - 1)
  let refCount := r.2 &&& reflockRefMask
  let s := r.1.check (r.2 &&& reflockDestroyMask = reflockDestroy)
  if refCount ≠ 0 then s.goto t (.await p) else s.goto t (.poison p)

/-- `InterlockedExchange` at the end of `reflock_unref_and_destroy`. -/
def reflockExchange (p : ℕ) : State T :=
  (s.write p fun q => { q with reflock := reflockPoison }).check ((s.heap p).any fun q => q.reflock = reflockDestroy)

/-- `port_close`. -/
def portClose (p : ℕ) : State T := s.write p fun q => { q with iocpHandle := none }

/-- `port_delete`. -/
def portDelete (p : ℕ) : State T :=
  let s := (s.write p id).check ((s.heap p).any fun q => q.iocpHandle = none)
  { s with heap := Function.update s.heap p none }

/-- `tree_add`, and what `epoll__create` does next. -/
def treeAdd (t : T) (p ephnd : ℕ) : State T :=
  match s.findNode ephnd with
  | some _ => s.visit.goto t (.addUnlock (some p))
  | none =>
    let s := (s.write p fun q => { q with key := ephnd }).visit
    { s with tree := p :: s.tree }.goto t (.addUnlock none)

/-- `tree_find` in `ts_tree_find_and_ref`. -/
def treeFind (t : T) (ephnd : ℕ) : State T :=
  match s.findNode ephnd with
  | none => s.visit.goto t (.findUnlock none)
  | some p => s.visit.goto t (.findRef p)

/-- `tree_find` and `tree_del` in `ts_tree_del_and_ref`. -/
def treeDel (t : T) (ephnd : ℕ) : State T :=
  match s.findNode ephnd with
  | none => s.visit.goto t (.delUnlock none)
  | some p => { s.visit with tree := s.tree.erase p }.goto t (.delRef p)

/-- A function begins; `port_new` gets the memory of a port. -/
def begin (t : T) : Call → Option (State T)
  | .create p ephnd =>
    if s.heap p = none then
      some ({ s with heap := Function.update s.heap p (some ⟨some ephnd, 0, 0⟩) }.goto t (.addLock p ephnd))
    else none
  | .use ephnd => some (s.goto t (.findLock ephnd))
  | .close ephnd => some (s.goto t (.delLock ephnd))

/-- None if the thread has to wait. -/
def advance (t : T) : Option (State T) :=
  match s.pc t with
  | .idle => none
  | .addLock p ephnd => s.acquireExclusive.map (·.goto t (.add p ephnd))
  | .add p ephnd => some (s.treeAdd t p ephnd)
  | .addUnlock none => some (s.releaseExclusive.goto t .idle)
  | .addUnlock (some p) => some (s.releaseExclusive.goto t (.closeCollided p))
  | .closeCollided p => some ((s.portClose p).goto t (.delete p))
  | .findLock ephnd => s.acquireShared.map (·.goto t (.find ephnd))
  | .find ephnd => some (s.treeFind t ephnd)
  | .findRef p => some ((s.reflockRef p).goto t (.findUnlock (some p)))
  | .findUnlock none => some (s.releaseShared.goto t .idle)
  | .findUnlock (some p) => some (s.releaseShared.goto t (.use p))
  | .use p => some (s.goto t (.unref p))
  | .unref p => some (s.reflockUnref t p)
  | .signal _ => none
  | .delLock ephnd => s.acquireExclusive.map (·.goto t (.del ephnd))
  | .del ephnd => some (s.treeDel t ephnd)
  | .delRef p => some ((s.reflockRef p).goto t (.delUnlock (some p)))
  | .delUnlock none => some (s.releaseExclusive.goto t .idle)
  | .delUnlock (some p) => some (s.releaseExclusive.goto t (.close p))
  | .close p => some ((s.portClose p).goto t (.destroy p))
  | .destroy p => some (s.reflockUnrefAndDestroy t p)
  | .await _ => none
  | .poison p => some ((s.reflockExchange p).goto t (.delete p))
  | .delete p => some ((s.portDelete p).goto t .idle)

def access (t : T) : Option (State T) :=
  match s.pc t with
  | .use p => some (s.write p id)
  | _ => none

/-- The keyed event is an address. -/
def meet (t u : T) : Option (State T) :=
  match s.pc t, s.pc u with
  | .signal p, .await q => if p = q then some ((s.goto t .idle).goto u (.poison q)) else none
  | _, _ => none

def step : Act T → Option (State T)
  | .begin t c => if s.pc t = .idle then s.begin t c else none
  | .advance t => s.advance t
  | .access t => s.access t
  | .meet t u => s.meet t u

end State

/-- A run of the threads. -/
def Runs {T : Type} [DecidableEq T] : State T → List (Act T) → State T → Prop :=
  Lib.Run fun s a t => s.step a = some t

end Handles
end Wepoll
end Qev
