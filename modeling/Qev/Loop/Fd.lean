/-
# File descriptors

Each fd has the list of its active io watchers, the mask the backend was last told
and flags that say why it has to be looked at again. `fd_change` queues an fd;
`fd_reify` computes the masks of the fds queued and calls the backend's `modify`.

`Fds` carries what these functions do to the fds. The functions of the loop are named as
in the source and add what they do elsewhere.
-/
import Qev.Loop.State

namespace Qev

namespace Fds

variable {W : Type} [DecidableEq W] (s : Fds W)

def setFd (fd : ℕ) (a : ANFD W) : Fds W := { s with anfds := Function.update s.anfds fd a }

/-- Something about the given fd changed. -/
def fdChange (fd : ℕ) (flags : BitVec 8) : Fds W :=
  let reify := (s.anfds fd).reify
  { s.setFd fd { s.anfds fd with reify := reify ||| flags } with
    fdchanges := if reify = 0 then s.fdchanges ++ [fd] else s.fdchanges }

/-- `ev_io_set`. -/
def evIoSet (w : W) (fd : ℕ) (events : Events) : Fds W :=
  { s with fd := Function.update s.fd w fd, events := Function.update s.events w (events ||| evIofdset) }

/-- `w` joins the list of its fd. -/
def wlistAdd (w : W) : Fds W :=
  let a := s.anfds (s.fd w)
  { s.setFd (s.fd w) { a with head := w :: a.head } with
    active := Function.update s.active w 1, anfdmax := max s.anfdmax (s.fd w + 1) }

/-- `w` leaves the list of its fd. -/
def wlistDel (w : W) : Fds W :=
  let a := s.anfds (s.fd w)
  { s.setFd (s.fd w) { a with head := a.head.erase w } with active := Function.update s.active w 0 }

/-- What `ev_io_start` does to the fds. -/
def start (w : W) : Fds W :=
  let s := (s.wlistAdd w).fdChange (s.fd w) ((s.events w &&& evIofdset).setWidth 8 ||| evAnfdReify)
  { s with events := Function.update s.events w (s.events w &&& ~~~evIofdset) }

/-- What `ev_io_stop` does to the fds. -/
def stop (w : W) : Fds W := (s.wlistDel w).fdChange (s.fd w) evAnfdReify

/-- `ev_io_modify`. -/
def modify (w : W) (events : Events) : Fds W :=
  let events := events &&& (evRead ||| evWrite)
  if s.events w = (s.events w &&& evIofdset) ||| events then s
  else
    let s := { s with events := Function.update s.events w ((s.events w &&& evIofdset) ||| events) }
    if s.active w ≠ 0 then s.fdChange (s.fd w) 0 else s

/-- The body of `fd_rearm_all`. -/
def rearm (fd : ℕ) : Fds W :=
  if (s.anfds fd).events ≠ 0 then
    (s.setFd fd { s.anfds fd with events := 0, emask := 0 }).fdChange fd (evIofdset.setWidth 8 ||| evAnfdReify)
  else s

/-- `fd_rearm_all`. -/
def rearmAll : Fds W := (List.range s.anfdmax).foldl (fun s fd => s.rearm fd) s

/-- The events of the watchers of an fd. -/
def wanted (fd : ℕ) : BitVec 8 := (s.anfds fd).head.foldl (fun e w => e ||| (s.events w).setWidth 8) 0

/-- What `fd_reify` does to the fds for one that was queued, before it calls `backend_modify`. -/
def reify (fd : ℕ) : Fds W := s.setFd fd { s.anfds fd with reify := 0, events := s.wanted fd }

/-- The masks `fd_reify` calls `backend_modify` with for one of the fds queued, if it does. -/
def change (fd : ℕ) : Option (BitVec 8 × BitVec 8) :=
  let oEvents := (s.anfds fd).events
  let oReify := (s.anfds fd).reify
  let oReify := if oEvents ≠ s.wanted fd then evIofdset.setWidth 8 else oReify
  if oReify &&& evIofdset.setWidth 8 ≠ 0 then some (oEvents, s.wanted fd) else none

/-- The first `n` of the fds queued have been dealt with. -/
def shift (n : ℕ) : Fds W := { s with fdchanges := s.fdchanges.drop n }

end Fds

namespace Loop

variable {U T K : Type} [DecidableEq U] (l : Loop U T K)

/-- The loop's own watchers are not pollable fds to the embedder. -/
def ioIsLoopOwn : IoW U → Bool
  | .pipeW => true
  | .iouringTfdW => true
  | _ => false

/-- What an io watcher counts in `iocnt`. -/
def ioWeight (w : IoW U) : ℤ := if ioIsLoopOwn w then 0 else 1

def fdChange (fd : ℕ) (flags : BitVec 8) : Loop U T K := { l with fds := l.fds.fdChange fd flags }

def evIoSet (w : IoW U) (fd : ℕ) (events : Events) : Loop U T K := { l with fds := l.fds.evIoSet w fd events }

/-- `ev_io_init`. -/
def evIoInit (w : IoW U) (fd : ℕ) (events : Events) : Loop U T K := (l.evInit (.io w)).evIoSet w fd events

def evIoStart (w : IoW U) : Loop U T K :=
  if l.fds.active w ≠ 0 then l
  else
    let l := l.evStart (.io w)
    { l with iocnt := l.iocnt + ioWeight w, fds := l.fds.start w }

def evIoStop (w : IoW U) : Loop U T K :=
  let l := l.clearPending (.io w)
  if l.fds.active w = 0 then l
  else
    let l := l.evStop
    { l with iocnt := l.iocnt - ioWeight w, fds := l.fds.stop w }

def evIoModify (w : IoW U) (events : Events) : Loop U T K := { l with fds := l.fds.modify w events }

/-- The loop of `fd_kill`. -/
def fdKillLoop (fd : ℕ) : ℕ → Loop U T K → Loop U T K
  | 0, l => l
  | n + 1, l =>
    match (l.fds.anfds fd).head with
    | [] => l
    | w :: _ => fdKillLoop fd n ((l.evIoStop w).evFeedEvent (.io w) (evError ||| evRead ||| evWrite))

/-- The given fd is unusable: its watchers are stopped. -/
def fdKill (fd : ℕ) : Loop U T K := fdKillLoop fd (l.fds.anfds fd).head.length l

def fdRearmAll : Loop U T K := { l with fds := l.fds.rearmAll }

/-- What `fd_reify` does for one of the fds queued. -/
def fdReifyOne (modify : ℕ → BitVec 8 → BitVec 8 → Loop U T K → Loop U T K) (l : Loop U T K) (fd : ℕ) :
    Loop U T K :=
  let change := l.fds.change fd
  let l := { l with fds := l.fds.reify fd }
  match change with
  | none => l
  | some (oev, nev) => modify fd oev nev l

/-- Make sure the backend is told what the watchers want. -/
def fdReify (modify : ℕ → BitVec 8 → BitVec 8 → Loop U T K → Loop U T K) : Loop U T K :=
  let changecnt := l.fds.fdchanges.length
  let l := l.fds.fdchanges.foldl (fdReifyOne modify) l
  { l with fds := l.fds.shift changecnt }

/-- `fd_event_nocheck`. -/
def fdEventNocheck (fd : ℕ) (revents : Events) : Loop U T K :=
  (l.fds.anfds fd).head.foldl
    (fun l w =>
      let ev := l.fds.events w &&& revents
      if ev ≠ 0 then l.evFeedEvent (.io w) ev else l) l

/-- No kernel events for fds that have reify set. -/
def fdEvent (fd : ℕ) (revents : Events) : Loop U T K :=
  if (l.fds.anfds fd).reify = 0 then l.fdEventNocheck fd revents else l

end Loop

/-! ### The lists of the fds -/

namespace Fds

variable {W : Type} [DecidableEq W]

/-- The list of each fd has its active watchers, each once. -/
structure Linked (s : Fds W) : Prop where
  mem : ∀ fd w, w ∈ (s.anfds fd).head ↔ s.active w ≠ 0 ∧ s.fd w = fd
  nodup : ∀ fd, (s.anfds fd).head.Nodup

variable {s : Fds W} {w : W} {fd : ℕ}

section

omit [DecidableEq W]

@[simp] theorem head_fdChange (s : Fds W) (fd : ℕ) (flags : BitVec 8) (fd' : ℕ) :
    ((s.fdChange fd flags).anfds fd').head = (s.anfds fd').head := by
  by_cases h : fd' = fd
  · simp [fdChange, setFd, h]
  · simp [fdChange, setFd, h]

@[simp] theorem events_fdChange (s : Fds W) (fd : ℕ) (flags : BitVec 8) (fd' : ℕ) :
    ((s.fdChange fd flags).anfds fd').events = (s.anfds fd').events := by
  by_cases h : fd' = fd
  · simp [fdChange, setFd, h]
  · simp [fdChange, setFd, h]

end

theorem head_stop (s : Fds W) (w : W) (fd : ℕ) :
    ((s.stop w).anfds fd).head = if fd = s.fd w then (s.anfds fd).head.erase w else (s.anfds fd).head := by
  unfold stop
  rw [head_fdChange]
  by_cases hfd : fd = s.fd w
  · simp [wlistDel, setFd, hfd]
  · simp [wlistDel, setFd, hfd]

theorem head_start (s : Fds W) (w : W) (fd : ℕ) :
    ((s.start w).anfds fd).head = if fd = s.fd w then w :: (s.anfds fd).head else (s.anfds fd).head := by
  unfold start
  simp only [head_fdChange, wlistAdd, setFd]
  by_cases h : fd = s.fd w
  · simp [h]
  · simp [h]

theorem active_start (s : Fds W) (w v : W) : (s.start w).active v = if v = w then 1 else s.active v :=
  Function.update_apply ..

theorem active_stop (s : Fds W) (w v : W) : (s.stop w).active v = if v = w then 0 else s.active v :=
  Function.update_apply ..

theorem head_modify (s : Fds W) (w : W) (events : Events) (fd : ℕ) :
    ((s.modify w events).anfds fd).head = (s.anfds fd).head := by
  unfold modify
  dsimp only
  split
  · rfl
  · split
    · exact head_fdChange ..
    · rfl

theorem active_modify (s : Fds W) (w : W) (events : Events) :
    (s.modify w events).active = s.active ∧ (s.modify w events).fd = s.fd := by
  unfold modify
  dsimp only
  split
  · exact ⟨rfl, rfl⟩
  · split
    · exact ⟨rfl, rfl⟩
    · exact ⟨rfl, rfl⟩

section

omit [DecidableEq W]

theorem Linked.fdChange (h : s.Linked) (fd : ℕ) (flags : BitVec 8) : (s.fdChange fd flags).Linked :=
  ⟨fun fd' w => by rw [head_fdChange]; exact h.mem fd' w, fun fd' => by rw [head_fdChange]; exact h.nodup fd'⟩

end

theorem Linked.evIoSet (h : s.Linked) (hw : s.active w = 0) (fd : ℕ) (events : Events) :
    (s.evIoSet w fd events).Linked := by
  refine ⟨fun fd' v => ?_, h.nodup⟩
  refine (h.mem fd' v).trans (and_congr_right fun hv => ?_)
  have hne : v ≠ w := fun he => hv (he ▸ hw)
  simp [Fds.evIoSet, hne]

theorem Linked.start (h : s.Linked) (hw : s.active w = 0) : (s.start w).Linked := by
  have hmem : ∀ fd, w ∉ (s.anfds fd).head := fun fd hm => ((h.mem fd w).mp hm).1 hw
  have hfds : (s.start w).fd = s.fd := rfl
  constructor
  · intro fd v
    rw [head_start, active_start, hfds]
    by_cases hv : v = w
    · subst hv
      by_cases hfd : fd = s.fd v
      · simp [hfd]
      · simp [hfd, hmem fd, Ne.symm hfd]
    · have := h.mem fd v
      by_cases hfd : fd = s.fd w
      · simpa [hv, hfd] using hfd ▸ this
      · simpa [hv, hfd] using this
  · intro fd
    rw [head_start]
    split
    · exact List.nodup_cons.mpr ⟨hmem fd, h.nodup fd⟩
    · exact h.nodup fd

theorem Linked.stop (h : s.Linked) (w : W) : (s.stop w).Linked := by
  have hhead : ∀ fd, ((s.stop w).anfds fd).head = (s.anfds fd).head.erase w := by
    intro fd
    rw [head_stop]
    split
    · rfl
    · rename_i hfd
      rw [List.erase_of_not_mem]
      exact fun hm => hfd ((h.mem fd w).mp hm).2.symm
  constructor
  · intro fd v
    rw [hhead, active_stop]
    by_cases hv : v = w
    · subst hv
      simp [(h.nodup fd).mem_erase_iff]
    · rw [List.mem_erase_of_ne hv, if_neg hv]
      exact h.mem fd v
  · intro fd
    rw [hhead]
    exact (h.nodup fd).erase w

end Fds

end Qev
