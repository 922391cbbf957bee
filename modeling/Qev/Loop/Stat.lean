/-
# Stat watchers and inotify

Each active stat watcher has a private timer that polls its path. With inotify it also
watches the path, or the first parent directory there is: its `wd` is the watch descriptor,
and it is in the bucket of `fs_hash` for that. The kernel gives one descriptor for each
inode, so watchers may share one. On a filesystem known to be local the timer is stopped.

The kernel's side is `Infy.Kernel`: what it makes of a path at each call is supplied.
-/
import Qev.Loop.Timers

namespace Qev

namespace Infy

def inDeleteSelf : BitVec 32 := 0x0400

def inUnmount : BitVec 32 := 0x2000

def inQOverflow : BitVec 32 := 0x4000

def inIgnored : BitVec 32 := 0x8000

/-- A `struct inotify_event`. -/
structure Event where
  wd : ℤ
  mask : BitVec 32
  deriving DecidableEq

inductive Errno
  | enoent
  | eacces
  | other
  deriving DecidableEq

/-- The `struct stat` of a path: `st_nlink`, and the ten other attributes that are compared. -/
structure Attr (A : Type) where
  nlink : ℕ
  rest : A
  deriving DecidableEq

/-- The inotify instance, with the descriptor it gives next, its watches, by descriptor and inode, and the
events not read yet; the answers to the system calls; and the stat watchers' `path`, `attr` and `prev`. -/
structure Kernel (U A : Type) where
  next : ℤ
  watches : List (ℤ × ℕ)
  queue : List Event
  resolve : ℕ → List Char → Except Errno ℕ
  statfs : ℕ → List Char → Option ℕ
  lstat : ℕ → List Char → Option (Attr A)
  calls : ℕ
  path : U → List Char
  attr : U → Attr A
  prev : U → Attr A

namespace Kernel

variable {U A : Type} (k : Kernel U A)

/-- `inotify_add_watch`. -/
def addWatch (path : List Char) : Kernel U A × Except Errno ℤ :=
  let answer := k.resolve k.calls path
  let k := { k with calls := k.calls + 1 }
  match answer with
  | .error err => (k, .error err)
  | .ok inode =>
    match k.watches.find? fun x => x.2 = inode with
    | some x => (k, .ok x.1)
    | none => ({ k with next := k.next + 1, watches := k.watches ++ [(k.next, inode)] }, .ok k.next)

/-- The descriptor has a watch. -/
def Live (wd : ℤ) : Prop := ∃ inode, (wd, inode) ∈ k.watches

/-- A watch is gone. -/
def remove (wd : ℤ) : Kernel U A :=
  { k with watches := k.watches.filter fun x => x.1 ≠ wd, queue := k.queue ++ [⟨wd, inIgnored⟩] }

/-- `inotify_rm_watch`. -/
def rmWatch (wd : ℤ) : Kernel U A := if wd ∈ k.watches.map Prod.fst then k.remove wd else k

/-- A new instance. -/
def reopen : Kernel U A := { k with next := 1, watches := [], queue := [] }

end Kernel

/-- The values of `f_type` that are known to be local. -/
def localTypes : List ℕ :=
  [0x1373, 0x4006, 0x4d44, 0xEF53, 0x72b6, 0x858458f6, 0x5346544e, 0x3153464a, 0x9123683e, 0x52654973, 0x01021994,
    0x58465342]

/-- `path` up to the last `/`, unless that is its first character. -/
def parent (path : List Char) : Option (List Char) :=
  match ((path.reverse.dropWhile (· ≠ '/')).drop 1).reverse with
  | [] => none
  | c :: cs => some (c :: cs)

/-- `EV_INOTIFY_HASHSIZE`, and `DEF_`, `NFS_` and `MIN_STAT_INTERVAL`. -/
structure Consts (T : Type) [LT T] [Zero T] where
  hashsize : ℕ
  defStat : T
  nfsStat : T
  minStat : T
  hash_pos : 0 < hashsize
  def_pos : 0 < defStat
  nfs_pos : 0 < nfsStat
  min_pos : 0 < minStat

namespace Consts

variable {T : Type} [LT T] [Zero T] (c : Consts T)

/-- The bucket of a descriptor. -/
def slot (wd : ℤ) : ℕ := wd.toNat % c.hashsize

end Consts

/-- What `infy_init` finds: whether the kernel is 2.6.25 or later, and the fd it gets. -/
structure Opened where
  is2625 : Bool
  fd : Option ℕ

end Infy

namespace Loop

open Infy

section

variable {U T K : Type} [DecidableEq U] (l : Loop U T K)

/-- `infy_init`. -/
def infyInit (o : Opened) : Loop U T K :=
  if l.fsFd ≠ -2 then l
  else
    let l := { l with fsFd := -1, fs2625 := o.is2625 }
    match o.fd with
    | none => l
    | some fd =>
      let l := ({ l with fsFd := fd } : Loop U T K).evIoInit .fsW fd evRead
      ((l.evSetPriority (.io .fsW) maxpri).evIoStart .fsW).evUnref

/-- `infy_fork` for `fs_w`. -/
def infyReopen (fs : Option ℕ) : Loop U T K :=
  if l.fsFd < 0 then l
  else
    let l := l.evRef.evIoStop .fsW
    match fs with
    | none => { l with fsFd := -1 }
    | some fd => (({ l with fsFd := fd } : Loop U T K).evIoSet .fsW fd evRead).evIoStart .fsW |>.evUnref

end

variable {U T A : Type} [DecidableEq U] [DecidableEq A] [LinearOrder T] [Add T] [Sub T] [Zero T]
  (e : Env U T) (c : Consts T)

section

variable (l : Loop U T (Kernel U A)) (w : U)

def setWd (wd : ℤ) : Loop U T (Kernel U A) := { l with wWd := Function.update l.wWd w wd }

def setRepeat (interval : T) : Loop U T (Kernel U A) :=
  { l with wRepeat := Function.update l.wRepeat (.stat w) interval }

/-- `wlist_add` and `wlist_del` for a bucket. -/
def fsAdd (slot : ℕ) : Loop U T (Kernel U A) :=
  { l with fsHash := Function.update l.fsHash slot (w :: l.fsHash slot) }

def fsDel (slot : ℕ) : Loop U T (Kernel U A) :=
  { l with fsHash := Function.update l.fsHash slot ((l.fsHash slot).erase w) }

/-- The interval of the watcher, or else this one. -/
def interval (default : T) : T := if l.wStatInterval w ≠ 0 then l.wStatInterval w else default

/-- The private timer is re-armed, if required; it does not keep the loop alive. -/
def statRearm : Loop U T (Kernel U A) :=
  let l := if l.timers.active (.stat w) ≠ 0 then l.evRef else l
  let l := l.evTimerAgain e (.stat w)
  if l.timers.active (.stat w) ≠ 0 then l.evUnref else l

/-- The loop of `infy_add` over the parent directories of `path`, which has at most `n` of them. -/
def infyParents : ℕ → List Char → Loop U T (Kernel U A) → Loop U T (Kernel U A)
  | 0, _, l => l
  | n + 1, path, l =>
    match parent path with
    | none => l
    | some path =>
      match l.kernel.addWatch path with
      | (k, .ok wd) => ({ l with kernel := k } : Loop U T (Kernel U A)).setWd w wd
      | (k, .error .other) => { l with kernel := k }
      | (k, .error _) => infyParents n path { l with kernel := k }

/-- `infy_add` up to the hash: a watch is asked for, and the interval of the timer is chosen. -/
def infyWatch : Loop U T (Kernel U A) :=
  let path := l.kernel.path w
  match l.kernel.addWatch path with
  | (k, .ok wd) =>
    let l := ({ l with kernel := k } : Loop U T (Kernel U A)).setWd w wd
    if l.fs2625 = false then l.setRepeat w (l.interval w c.defStat)
    else
      let sfs := l.kernel.statfs l.kernel.calls path
      let l := { l with kernel := { l.kernel with calls := l.kernel.calls + 1 } }
      if ∃ type ∈ sfs, type ∈ localTypes then l.setRepeat w 0 else l.setRepeat w (l.interval w c.nfsStat)
  | (k, .error err) =>
    let l := ({ l with kernel := k } : Loop U T (Kernel U A)).setWd w (-1)
    let l := l.setRepeat w (l.interval w c.defStat)
    if err ≠ .other ∧ path.length < 4096 then infyParents w path.length path l else l

def infyAdd : Loop U T (Kernel U A) :=
  let l := l.infyWatch c w
  let l := if 0 ≤ l.wWd w then l.fsAdd w (c.slot (l.wWd w)) else l
  l.statRearm e w

def infyDel : Loop U T (Kernel U A) :=
  let wd := l.wWd w
  if wd < 0 then l
  else
    let l := (l.setWd w (-2)).fsDel w (c.slot wd)
    { l with kernel := l.kernel.rmWatch wd }

def evStatStat : Loop U T (Kernel U A) :=
  let k := l.kernel
  let attr :=
    match k.lstat k.calls (k.path w) with
    | none => { k.attr w with nlink := 0 }
    | some attr => if attr.nlink = 0 then { attr with nlink := 1 } else attr
  { l with kernel := { k with calls := k.calls + 1, attr := Function.update k.attr w attr } }

/-- `stat_timer_cb` up to its call of `ev_feed_event`, and whether it makes that call. -/
def statTimerLook : Loop U T (Kernel U A) × Bool :=
  let prev := l.kernel.attr w
  let l := l.evStatStat w
  if prev ≠ l.kernel.attr w then
    let l := { l with kernel := { l.kernel with prev := Function.update l.kernel.prev w prev } }
    let l := if 0 ≤ l.fsFd then ((l.infyDel c w).infyAdd e c w).evStatStat w else l
    (l, true)
  else (l, false)

/-- The path is looked at again. -/
def statTimerCb : Loop U T (Kernel U A) :=
  match l.statTimerLook e c w with
  | (l, true) => l.evFeedEvent (.stat w) evStat
  | (l, false) => l

end

/-- The masks that have a watch added again. -/
def readds (mask : BitVec 32) : Prop := mask &&& (inIgnored ||| inUnmount ||| inDeleteSelf) ≠ 0

instance (mask : BitVec 32) : Decidable (readds mask) := inferInstanceAs (Decidable (_ ≠ _))

/-- `infy_wd` for one watcher of a bucket. -/
def infyWdOne (slot : ℕ) (wd : ℤ) (mask : BitVec 32) (l : Loop U T (Kernel U A)) (w : U) : Loop U T (Kernel U A) :=
  if l.wWd w = wd ∨ wd = -1 then
    let l := if readds mask then ((l.fsDel w slot).setWd w (-1)).infyAdd e c w else l
    l.statTimerCb e c w
  else l

/-- `infy_wd` for a bucket. It takes the next watcher before it moves one. -/
def infyWdSlot (wd : ℤ) (mask : BitVec 32) (l : Loop U T (Kernel U A)) (slot : ℕ) : Loop U T (Kernel U A) :=
  (l.fsHash slot).foldl (infyWdOne e c slot wd mask) l

/-- `infy_wd`, which checks all buckets after an overflow. -/
def infyWd (l : Loop U T (Kernel U A)) (ev : Event) : Loop U T (Kernel U A) :=
  if ev.wd < 0 then (List.range c.hashsize).foldl (infyWdSlot e c ev.wd ev.mask) l
  else infyWdSlot e c ev.wd ev.mask l (c.slot ev.wd)

/-- `infy_cb`, when its buffer takes `n` events. -/
def infyCb (n : ℕ) (l : Loop U T (Kernel U A)) : Loop U T (Kernel U A) :=
  (l.kernel.queue.take n).foldl (infyWd e c) { l with kernel := { l.kernel with queue := l.kernel.queue.drop n } }

/-- `infy_fork` for one watcher. -/
def infyForkOne (l : Loop U T (Kernel U A)) (w : U) : Loop U T (Kernel U A) :=
  let l := l.setWd w (-1)
  if 0 ≤ l.fsFd then l.infyAdd e c w else (l.setRepeat w (l.interval w c.defStat)).statRearm e w

/-- `infy_fork` for a bucket. -/
def infyForkSlot (l : Loop U T (Kernel U A)) (slot : ℕ) : Loop U T (Kernel U A) :=
  (l.fsHash slot).foldl (infyForkOne e c) { l with fsHash := Function.update l.fsHash slot [] }

def infyFork (fs : Option ℕ) (l : Loop U T (Kernel U A)) : Loop U T (Kernel U A) :=
  if l.fsFd < 0 then l
  else
    let l := { l.infyReopen fs with kernel := l.kernel.reopen }
    (List.range c.hashsize).foldl (infyForkSlot e c) l

/-- `ev_stat_set`. -/
def evStatSet (w : U) (path : List Char) (interval : T) (l : Loop U T (Kernel U A)) : Loop U T (Kernel U A) :=
  { l.setWd w (-2) with
    wStatInterval := Function.update l.wStatInterval w interval
    kernel := { l.kernel with path := Function.update l.kernel.path w path } }

def evStatStart (o : Opened) (w : U) (l : Loop U T (Kernel U A)) : Loop U T (Kernel U A) :=
  if l.stats w ≠ 0 then l
  else
    let l := l.evStatStat w
    let interval := l.wStatInterval w
    let interval := if interval < c.minStat ∧ interval ≠ 0 then c.minStat else interval
    let l := { l with wStatInterval := Function.update l.wStatInterval w interval }
    let l := (l.evInit (.timer (.stat w))).evTimerSet (.stat w) 0 (l.interval w c.defStat)
    let l := l.evSetPriority (.timer (.stat w)) (l.pend.priority (.stat w))
    let l := l.infyInit o
    let l := if 0 ≤ l.fsFd then l.infyAdd e c w else (l.evTimerAgain e (.stat w)).evUnref
    { l.evStart (.stat w) with stats := Function.update l.stats w 1 }

def evStatStop (w : U) (l : Loop U T (Kernel U A)) : Loop U T (Kernel U A) :=
  let l := l.clearPending (.stat w)
  if l.stats w = 0 then l
  else
    let l := l.infyDel c w
    let l := if l.timers.active (.stat w) ≠ 0 then l.evRef.evTimerStop e (.stat w) else l
    { l.evStop with stats := Function.update l.stats w 0 }

end Loop

end Qev
