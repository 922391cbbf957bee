/-
# The SOCKET registry

On Windows a socket is known to the loop by a small index. The registry of `ev.c`
keeps the two apart: hash chains from the handle, a table from the index, a list of
the indices given back, and the next index never given out. Every allocation can
fail, which is the environment's choice at each call (`Alloc`); every access to the
tables is checked against the storage behind them, so that a call that would write
past it has no result. Chains hold pointers to the entries, which stand on the heap.
-/
import Qev.Lib.Run

namespace Qev
namespace Win32

open Lib

abbrev Handle := BitVec 64

def invalidSocket : Handle := BitVec.allOnes 64

def intMax : ℕ := 2 ^ 31 - 1

/-- `ev_win32_fd_entry`, without the link to the next one of its chain. -/
structure Entry where
  fd : ℕ
  handle : Handle
  refcount : BitVec 32
  owned : Bool
  deriving DecidableEq

inductive Errno
  | ebadf
  | enomem
  | enfile
  deriving DecidableEq

/-- What the allocator answers during one call: the bucket array, the free list (with what
stands in its new cells), the table and the entry. -/
structure Alloc where
  buckets : Bool
  free : Option (ℕ → ℕ)
  byFd : Bool
  entry : Option ℕ

structure Registry where
  /-- the bucket array is allocated -/
  ready : Bool
  buckets : BitVec 64 → List ℕ
  byFd : List (Option ℕ)
  free : List ℕ
  byFdmax : ℕ
  freemax : ℕ
  freecnt : ℕ
  next : ℕ
  heap : ℕ → Option Entry

namespace Registry

def init : Registry := ⟨false, fun _ => [], [], [], 0, 0, 0, 0, fun _ => none⟩

def fdBuckets : BitVec 64 := 4096

def fdHash (value : Handle) : BitVec 64 :=
  (value ^^^ (value >>> 11) ^^^ (value >>> 23)) &&& (fdBuckets - 1)

def fdInit (a : Alloc) (r : Registry) : Option Registry :=
  if r.ready then some r else if a.buckets then some { r with ready := true } else none

/-! ### Growth -/

/-- The doubling of `ev_win32_fd_reserve`, for an index below `INT_MAX`. -/
def newmaxFrom (fd newmax : ℕ) : ℕ :=
  if newmax ≤ fd ∧ 0 < newmax ∧ fd < intMax then
    newmaxFrom fd (if intMax / 2 < newmax then intMax else newmax * 2)
  else newmax
termination_by intMax - newmax
decreasing_by
  unfold intMax at *
  split <;> omega

def fdReserve (fd : ℕ) (a : Alloc) (r : Registry) : Registry × Except Errno Unit :=
  if fd < r.byFdmax then (r, .ok ())
  else if fd = intMax then (r, .error .enfile)
  else
    let newmax := newmaxFrom fd (if r.byFdmax = 0 then 64 else r.byFdmax)
    let grown : Option Registry :=
      if r.freemax < newmax then
        a.free.map fun g =>
          { r with free := r.free ++ (List.range' r.freemax (newmax - r.freemax)).map g, freemax := newmax }
      else some r
    match grown with
    | none => (r, .error .enomem)
    | some r =>
      if a.byFd then
        ({ r with byFd := r.byFd ++ List.replicate (newmax - r.byFdmax) none, byFdmax := newmax }, .ok ())
      else (r, .error .enomem)

/-! ### Lookup -/

/-- The entry of a handle on a chain; the walk has no result when it meets a dangling pointer. -/
def findHandle (r : Registry) (handle : Handle) : List ℕ → Option (Option ℕ)
  | [] => some none
  | p :: l => do
    let e ← r.heap p
    if e.handle = handle then some (some p) else findHandle r handle l

def findFd (r : Registry) (fd : ℤ) : Option (Option ℕ) :=
  if 0 ≤ fd ∧ fd < r.byFdmax then r.byFd[fd.toNat]? else some none

/-! ### Indices -/

def fdAlloc (r : Registry) : Option (ℕ × Registry) :=
  if r.freecnt ≠ 0 then do
    let fd ← r.free[r.freecnt - 1]?
    some (fd, { r with freecnt := r.freecnt - 1 })
  else some (r.next, { r with next := r.next + 1 })

/-- `ev_win32_fd_push_free_unlocked`, with its assertion. -/
def pushFree (fd : ℕ) (r : Registry) : Option Registry :=
  if r.freecnt < r.freemax ∧ r.freecnt < r.free.length then
    some { r with free := r.free.set r.freecnt fd, freecnt := r.freecnt + 1 }
  else none

/-! ### The two calls -/

def setEntry (p : ℕ) (e : Option Entry) (r : Registry) : Registry :=
  { r with heap := Function.update r.heap p e }

def setBucket (b : BitVec 64) (l : List ℕ) (r : Registry) : Registry :=
  { r with buckets := Function.update r.buckets b l }

def setByFd (fd : ℕ) (p : Option ℕ) (r : Registry) : Option Registry :=
  if fd < r.byFd.length then some { r with byFd := r.byFd.set fd p } else none

/-- A handle the registry does not know. -/
def acquireNew (handle : Handle) (owned : Bool) (a : Alloc) (r : Registry) :
    Option (Registry × Except Errno ℕ) :=
  match (if r.freecnt = 0 then r.fdReserve r.next a else (r, .ok ())) with
  | (r, .error e) => some (r, .error e)
  | (r, .ok _) => do
    let (fd, r) ← r.fdAlloc
    match a.entry with
    | none =>
      let r ← r.pushFree fd
      some (r, .error .enomem)
    | some p =>
      let b := fdHash handle
      let r := (r.setEntry p (some ⟨fd, handle, 1, owned⟩)).setBucket b (p :: r.buckets b)
      let r ← r.setByFd fd (some p)
      some (r, .ok fd)

def fdAcquire (handle : Handle) (owned : Bool) (a : Alloc) (r : Registry) :
    Option (Registry × Except Errno ℕ) :=
  if handle = 0 ∨ handle = invalidSocket then some (r, .error .ebadf)
  else
    match r.fdInit a with
    | none => some (r, .error .enomem)
    | some r => do
      match ← r.findHandle handle (r.buckets (fdHash handle)) with
      | some p =>
        let e ← r.heap p
        some (r.setEntry p (some { e with refcount := e.refcount + 1 }), .ok e.fd)
      | none => r.acquireNew handle owned a

/-- The entry `p` of `fd` goes away. -/
def dropEntry (fd p : ℕ) (e : Entry) (r : Registry) : Option Registry := do
  let b := fdHash e.handle
  let r := r.setBucket b ((r.buckets b).erase p)
  let r ← r.setByFd fd none
  (r.setEntry p none).pushFree fd

/-- `ev_win32_fd_release`; the result is the handle that is closed, if one is. -/
def fdRelease (fd : ℤ) (closeHandle : Bool) (a : Alloc) (r : Registry) :
    Option (Registry × Except Errno (Option Handle)) :=
  match r.fdInit a with
  | none => some (r, .error .enomem)
  | some r => do
    match ← r.findFd fd with
    | none => some (r, .error .ebadf)
    | some p =>
      let e ← r.heap p
      if e.refcount - 1 ≠ 0 then
        some (r.setEntry p (some { e with refcount := e.refcount - 1 }), .ok none)
      else
        let r ← r.dropEntry fd.toNat p e
        some (r, .ok (if closeHandle && e.owned then some e.handle else none))

end Registry

/-! ### Runs of calls -/

inductive Call
  | acquire (handle : Handle) (owned : Bool) (alloc : Alloc)
  | release (fd : ℤ) (closeHandle : Bool) (alloc : Alloc)

def Call.alloc : Call → Alloc
  | .acquire _ _ a => a
  | .release _ _ a => a

/-- The registry with, for each handle, the successful acquires and releases so far. -/
structure State where
  reg : Registry
  acquired : Handle → ℕ
  released : Handle → ℕ

namespace State

def init : State := ⟨Registry.init, fun _ => 0, fun _ => 0⟩

/-- The acquires of a handle not yet released. -/
def outstanding (s : State) (h : Handle) : ℕ := s.acquired h - s.released h

/-- The handle an index stands for. -/
def handleOf (r : Registry) (fd : ℕ) : Option Handle :=
  (r.byFd[fd]?).join.bind fun p => (r.heap p).map Entry.handle

def call (s : State) : Call → Option State
  | .acquire h owned a =>
    (s.reg.fdAcquire h owned a).map fun r =>
      match r.2 with
      | .ok _ => { s with reg := r.1, acquired := Function.update s.acquired h (s.acquired h + 1) }
      | .error _ => { s with reg := r.1 }
  | .release fd c a =>
    (s.reg.fdRelease fd c a).map fun r =>
      match r.2, handleOf s.reg fd.toNat with
      | .ok _, some h => { s with reg := r.1, released := Function.update s.released h (s.released h + 1) }
      | _, _ => { s with reg := r.1 }

/-- The allocator hands out no block that is in use. -/
def Fresh (s : State) (c : Call) : Prop := ∀ p ∈ c.alloc.entry, s.reg.heap p = none

end State
end Win32
end Qev
