/-
# The fds epoll refuses

An fd for which `epoll_ctl` answers EPERM is put in `epoll_eperms` and flagged in its
`emask`; each `epoll_poll` sweeps the list, feeds the fds that are still flagged and wanted
and takes the others out. Only the flag says that an fd is in the list, and more than
`epoll_modify` and the sweep write to `emask`: re-creating the kernel state forgets it, and
so does a registration of the fd's next file. So the list has no fd twice exactly if each
EPERM of a run for an fd in the list finds its flag (`eperms_swept`).
-/
import Qev.Backend.Registration

namespace Qev

open Lib Epoll

/-! ### One sweep -/

namespace Fds

variable {U : Type} [DecidableEq U]

/-- What `fd_event` does to the pending events. -/
def feed (s : Fds (IoW U)) (fd : ℕ) (revents : Events) (p : Pend (Watcher U)) : Pend (Watcher U) :=
  if (s.anfds fd).reify = 0 then
    (s.anfds fd).head.foldl
      (fun p w =>
        let ev := s.events w &&& revents
        if ev ≠ 0 then p.evFeedEvent (.io w) ev else p) p
  else p

/-- The events a sweep feeds for an fd. -/
def sweepEvents (s : Fds (IoW U)) (fd : ℕ) : BitVec 8 := (s.anfds fd).events &&& (readBit ||| writeBit)

/-- The fd is flagged, and wanted as of the last `fd_reify`. -/
def ready (s : Fds (IoW U)) (fd : ℕ) : Bool :=
  decide ((s.anfds fd).emask &&& evEmaskEperm ≠ 0 ∧ s.sweepEvents fd ≠ 0)

/-- The flags of these fds are forgotten. -/
def forget (s : Fds (IoW U)) (fds : List ℕ) : Fds (IoW U) := fds.foldl (fun s fd => s.setEmask fd 0) s

section

omit [DecidableEq U]

theorem setEmask_anfds (s : Fds (IoW U)) (fd : ℕ) (emask : BitVec 8) (fd' : ℕ) :
    (s.setEmask fd emask).anfds fd' = { s.anfds fd' with emask := if fd' = fd then emask else (s.anfds fd').emask } := by
  by_cases h : fd' = fd
  · simp [setEmask, h]
  · simp [setEmask, h]

end

theorem feed_setEmask (s : Fds (IoW U)) (fd' : ℕ) (emask : BitVec 8) (fd : ℕ) (revents : Events)
    (p : Pend (Watcher U)) : (s.setEmask fd' emask).feed fd revents p = s.feed fd revents p := by
  unfold feed
  rw [setEmask_anfds]
  rfl

section

omit [DecidableEq U]

theorem sweepEvents_setEmask (s : Fds (IoW U)) (fd' : ℕ) (emask : BitVec 8) (fd : ℕ) :
    (s.setEmask fd' emask).sweepEvents fd = s.sweepEvents fd := by
  unfold sweepEvents
  rw [setEmask_anfds]

theorem ready_setEmask (s : Fds (IoW U)) {fd' fd : ℕ} (h : fd ≠ fd') (emask : BitVec 8) :
    (s.setEmask fd' emask).ready fd = s.ready fd := by
  unfold ready
  rw [sweepEvents_setEmask, setEmask_anfds]
  simp [h]

end

end Fds

namespace Loop

section

variable {U T K : Type} [DecidableEq U] (l : Loop U T K)

theorem fdEvent_feed (fd : ℕ) (revents : Events) :
    l.fdEvent fd revents = { l with pend := l.fds.feed fd revents l.pend } := by
  have hfold : ∀ (ws : List (IoW U)) (l : Loop U T K),
      ws.foldl (fun l w =>
        if l.fds.events w &&& revents ≠ 0 then l.evFeedEvent (.io w) (l.fds.events w &&& revents) else l) l =
        { l with pend := ws.foldl (fun p w =>
          if l.fds.events w &&& revents ≠ 0 then p.evFeedEvent (.io w) (l.fds.events w &&& revents) else p) l.pend } := by
    intro ws
    induction ws with
    | nil => exact fun _ => rfl
    | cons w ws ih =>
      intro l
      rw [List.foldl_cons, List.foldl_cons, ih]
      by_cases hw : l.fds.events w &&& revents ≠ 0
      · rw [if_pos hw, if_pos hw]
        rfl
      · rw [if_neg hw, if_neg hw]
  unfold fdEvent Fds.feed
  by_cases hr : (l.fds.anfds fd).reify = 0
  · rw [if_pos hr, if_pos hr]
    exact hfold _ l
  · rw [if_neg hr, if_neg hr]

end

variable {U T : Type} [DecidableEq U] (l : Loop U T Kernel)

/-- The sweep at the end of `epoll_poll`. -/
def epollSweep : Loop U T Kernel := (List.range l.kernel.eperms.length).reverse.foldl epollEperm l

theorem epollPoll_eq (evs : List EpollEvent) : l.epollPoll evs = (evs.foldl epollEvent l).epollSweep := rfl

/-- The last entry in the place of one that goes leaves the others. -/
theorem set_dropLast (a kept : List ℕ) (fd : ℕ) : ∃ kept', kept'.Perm kept ∧
    ((a ++ fd :: kept).set a.length ((a ++ fd :: kept)[(a ++ fd :: kept).length - 1]?.getD fd)).dropLast =
      a ++ kept' := by
  rcases List.eq_nil_or_concat kept with rfl | ⟨ks, k, hk⟩
  · refine ⟨[], .refl _, ?_⟩
    simp
  · rw [List.concat_eq_append] at hk
    subst hk
    refine ⟨k :: ks, (List.perm_append_singleton k ks).symm, ?_⟩
    have hlast : (a ++ fd :: (ks ++ [k]))[(a ++ fd :: (ks ++ [k])).length - 1]?.getD fd = k := by
      rw [← List.getLast?_eq_getElem?, show a ++ fd :: (ks ++ [k]) = (a ++ fd :: ks) ++ [k] by simp,
        List.getLast?_concat]
      rfl
    rw [hlast, List.set_append_right _ _ (le_refl _), Nat.sub_self, List.set_cons_zero,
      List.dropLast_append_of_ne_nil (by simp)]
    congr 1
    rw [← List.cons_append, List.dropLast_concat]

theorem epollEperm_ready {i fd : ℕ} (hget : l.kernel.eperms[i]? = some fd) (hr : l.fds.ready fd) :
    epollEperm l i = { l with pend := l.fds.feed fd ((l.fds.sweepEvents fd).setWidth 32) l.pend } := by
  have hr' : (l.fds.anfds fd).emask &&& evEmaskEperm ≠ 0 ∧ (l.fds.anfds fd).events &&& (readBit ||| writeBit) ≠ 0 :=
    of_decide_eq_true hr
  unfold epollEperm
  rw [hget]
  dsimp only
  rw [if_pos hr']
  exact fdEvent_feed l fd _

theorem epollEperm_other {i fd : ℕ} (hget : l.kernel.eperms[i]? = some fd) (hr : ¬ l.fds.ready fd) :
    epollEperm l i =
      { l with
        fds := l.fds.setEmask fd 0
        kernel := { l.kernel with
          eperms := (l.kernel.eperms.set i
            (l.kernel.eperms[l.kernel.eperms.length - 1]?.getD fd)).dropLast } } := by
  have hr' : ¬ ((l.fds.anfds fd).emask &&& evEmaskEperm ≠ 0 ∧
      (l.fds.anfds fd).events &&& (readBit ||| writeBit) ≠ 0) := fun h => hr (decide_eq_true h)
  unfold epollEperm
  rw [hget]
  dsimp only
  rw [if_neg hr']
  rfl

/-- What is left of the list `a ++ kept` when the sweep has come from its end to `a`. -/
theorem sweep_fold (a : List ℕ) : ∀ (kept : List ℕ) (l : Loop U T Kernel), l.kernel.eperms = a ++ kept → a.Nodup →
    ∃ kept', kept'.Perm (a.filter l.fds.ready ++ kept) ∧
      (List.range a.length).reverse.foldl epollEperm l =
        { l with
          pend := (a.filter l.fds.ready).reverse.foldl (fun p fd => l.fds.feed fd ((l.fds.sweepEvents fd).setWidth 32) p)
            l.pend
          fds := l.fds.forget (a.filter fun fd => !l.fds.ready fd).reverse
          kernel := { l.kernel with eperms := kept' } } := by
  induction a using List.reverseRecOn with
  | nil =>
    intro kept l hl _
    refine ⟨kept, .refl _, ?_⟩
    have hk : l.kernel = { l.kernel with eperms := kept } := by
      rw [← show l.kernel.eperms = kept from hl]
    exact congrArg (fun k => ({ l with kernel := k } : Loop U T Kernel)) hk
  | append_singleton a fd ih =>
    intro kept l hl hn
    have hn' : a.Nodup := (List.nodup_append.mp hn).1
    have hfd : fd ∉ a := fun hm => (List.nodup_append.mp hn).2.2 fd hm fd (List.mem_singleton.mpr rfl) rfl
    have hl' : l.kernel.eperms = a ++ fd :: kept := by rw [hl, List.append_assoc, List.singleton_append]
    have hget : l.kernel.eperms[a.length]? = some fd := by
      rw [hl', List.getElem?_append_right (le_refl _), Nat.sub_self]
      rfl
    rw [List.length_append, List.length_singleton, List.range_succ, List.reverse_append, List.reverse_singleton,
      List.singleton_append, List.foldl_cons]
    by_cases hr : l.fds.ready fd
    · -- the fd is fed, and stays
      rw [epollEperm_ready l hget hr]
      obtain ⟨kept', hperm, heq⟩ := ih (fd :: kept)
        { l with pend := l.fds.feed fd ((l.fds.sweepEvents fd).setWidth 32) l.pend } hl' hn'
      refine ⟨kept', ?_, ?_⟩
      · rw [List.filter_append, List.filter_cons_of_pos hr, List.filter_nil, List.append_assoc]
        exact hperm
      · rw [heq, List.filter_append, List.filter_append, List.filter_singleton, List.filter_singleton]
        simp [hr]
    · -- the fd goes, and what comes in its place has been dealt with
      obtain ⟨kept₁, hperm₁, hset⟩ := set_dropLast a kept fd
      rw [epollEperm_other l hget hr, hl', hset]
      obtain ⟨kept', hperm, heq⟩ := ih kept₁
        { l with fds := l.fds.setEmask fd 0, kernel := { l.kernel with eperms := a ++ kept₁ } } rfl hn'
      have hready : ∀ fd' ∈ a, (l.fds.setEmask fd 0).ready fd' = l.fds.ready fd' := fun fd' hm =>
        Fds.ready_setEmask l.fds (show fd' ≠ fd from fun he => hfd (he ▸ hm)) 0
      dsimp only at hperm heq
      rw [List.filter_congr hready] at hperm heq
      rw [List.filter_congr fun fd' hm => congrArg (!·) (hready fd' hm)] at heq
      refine ⟨kept', ?_, ?_⟩
      · rw [List.filter_append, List.filter_cons_of_neg hr, List.filter_nil, List.append_nil]
        exact hperm.trans (List.Perm.append_left _ hperm₁)
      · rw [heq, List.filter_append, List.filter_append, List.filter_singleton, List.filter_singleton]
        simp only [Fds.feed_setEmask, Fds.sweepEvents_setEmask]
        simp [hr, Fds.forget]

end Loop

/-! ### The queue of changes from the `n`th on -/

namespace Fds

variable {W : Type} [DecidableEq W] {s t : Fds W} {n : ℕ} {w : W} {fd : ℕ}

/-- What the watchers want that are not among the first `n` of the queue is known. -/
def TrackedFrom (s : Fds W) (n : ℕ) : Prop := n ≤ s.fdchanges.length ∧ s.Tracked (s.fdchanges.drop n)

theorem shift_stop (w : W) (hn : n ≤ s.fdchanges.length) : (s.stop w).shift n = (s.shift n).stop w := by
  have hq : (s.stop w).fdchanges.drop n = ((s.shift n).stop w).fdchanges := by
    show (Fds.fdChange _ _ _).fdchanges.drop n = (Fds.fdChange _ _ _).fdchanges
    rw [fdchanges_fdChange, fdchanges_fdChange]
    show (if ((s.wlistDel w).anfds (s.fd w)).reify = 0 then s.fdchanges ++ [s.fd w] else s.fdchanges).drop n =
      if ((s.wlistDel w).anfds (s.fd w)).reify = 0 then s.fdchanges.drop n ++ [s.fd w] else s.fdchanges.drop n
    split
    · exact List.drop_append_of_le_length hn
    · rfl
  unfold shift
  rw [hq]
  rfl

section

omit [DecidableEq W]

/-- The queue itself is no part of what is tracked. -/
theorem tracked_shift {queue : List ℕ} : (s.shift n).Tracked queue ↔ s.Tracked queue :=
  ⟨fun h => ⟨⟨h.linked.mem, h.linked.nodup⟩, h.bound, h.mask, h.queued, h.clean⟩,
    fun h => ⟨⟨h.linked.mem, h.linked.nodup⟩, h.bound, h.mask, h.queued, h.clean⟩⟩

end

theorem TrackedFrom.stop (h : s.TrackedFrom n) (w : W) : (s.stop w).TrackedFrom n := by
  obtain ⟨hn, h⟩ := h
  have hlen : s.fdchanges.length ≤ (s.stop w).fdchanges.length := by
    show _ ≤ (if _ then s.fdchanges ++ [s.fd w] else s.fdchanges).length
    split
    · simp
    · exact le_refl _
  refine ⟨hn.trans hlen, ?_⟩
  have hs : (s.shift n).Tracked (s.shift n).fdchanges := tracked_shift.mpr h
  have hs' := hs.stop w
  rw [← shift_stop w hn] at hs'
  exact tracked_shift.mp hs'

section

omit [DecidableEq W]

/-- The next of the queue is looked at. -/
theorem TrackedFrom.reify (h : s.TrackedFrom n) (hfd : s.fdchanges[n]? = some fd) : (s.reify fd).TrackedFrom (n + 1) := by
  obtain ⟨hn, h⟩ := h
  have hlt : n < s.fdchanges.length := (List.getElem?_eq_some_iff.mp hfd).1
  rw [List.drop_eq_getElem_cons hlt, (List.getElem?_eq_some_iff.mp hfd).2] at h
  exact ⟨hlt, h.reify⟩

/-- What a step does to the masks given to the kernel does not matter. -/
theorem TrackedFrom.congr (h : s.TrackedFrom n) (hq : t.fdchanges = s.fdchanges) (hmax : t.anfdmax = s.anfdmax)
    (ha : ∀ fd, (t.anfds fd).head = (s.anfds fd).head ∧ (t.anfds fd).events = (s.anfds fd).events ∧
      (t.anfds fd).reify = (s.anfds fd).reify)
    (hw : t.active = s.active ∧ t.fd = s.fd ∧ t.events = s.events) : t.TrackedFrom n := by
  obtain ⟨hn, h⟩ := h
  have hwanted : ∀ fd, t.wanted fd = s.wanted fd := fun fd =>
    wanted_congr (ha fd).1 fun _ _ => by rw [hw.2.2]
  refine ⟨by rw [hq]; exact hn, h.linked.congr (fun fd => (ha fd).1) hw.1 hw.2.1, fun fd hfd => ?_, ?_, ?_, ?_⟩
  · rw [(ha fd).1, (ha fd).2.1]
    exact h.bound fd (hmax ▸ hfd)
  · rw [hw.1, hw.2.2]
    exact h.mask
  · intro fd hr
    rw [hq]
    exact h.queued fd (by rwa [(ha fd).2.2] at hr)
  · intro fd hfd
    rw [hq] at hfd
    rw [(ha fd).2.1, hwanted]
    exact h.clean fd hfd

end

end Fds

/-! ### Runs -/

namespace Eperm

variable {U T : Type} [DecidableEq U]

/-- What `ev_io_start` asserts of the mask. -/
def legal (events : Events) : Prop := events &&& ~~~(evIofdset ||| evRead ||| evWrite) = 0

instance (events : Events) : Decidable (legal events) := inferInstanceAs (Decidable (_ = _))

/-- One action. A watcher is set only while it is inactive, and started only with a legal mask; a pass that leaves
out the poll is one without a `poll`. -/
def step (l : Loop U T Kernel) : Act U → Option (Loop U T Kernel)
  | .ioSet w fd events => if l.fds.active w ≠ 0 then none else some (l.evIoSet w fd events)
  | .ioStart w => if l.fds.active w ≠ 0 ∨ legal (l.fds.events w) then some (l.evIoStart w) else none
  | .ioStop w => some (l.evIoStop w)
  | .ioModify w events => some (l.evIoModify w events)
  | .fdReify => some (l.fdReify Loop.epollModify)
  | .close fd => some { l with kernel := { l.kernel with set := Function.update l.kernel.set fd none } }
  | .poll evs => some (l.epollPoll evs)
  | .fork => some l.epollFork

abbrev Runs (l : Loop U T Kernel) (acts : List (Act U)) (m : Loop U T Kernel) : Prop :=
  Run (fun l a m => step l a = some m) l acts m

/-- No io watcher is active, nothing is queued and no fd refused. -/
structure Fresh (l : Loop U T Kernel) : Prop where
  anfds : ∀ fd, l.fds.anfds fd = ⟨[], 0, 0, 0, 0⟩
  fdchanges : l.fds.fdchanges = []
  active : ∀ w, l.fds.active w = 0
  eperms : l.kernel.eperms = []

/-- What an fd's active watchers want. -/
def wantsSome (s : Fds (IoW U)) (fd : ℕ) : Prop :=
  ∃ w, s.active w ≠ 0 ∧ s.fd w = fd ∧ s.events w &&& (evRead ||| evWrite) ≠ 0

/-- What a sweep of this state does: it calls `fd_event` for the fds of the list that are flagged and wanted, in
turn, and leaves these in the list. -/
structure Swept (l : Loop U T Kernel) : Prop where
  fed : l.epollSweep.pend = (l.kernel.eperms.filter l.fds.ready).reverse.foldl
    (fun p fd => l.fds.feed fd ((l.fds.sweepEvents fd).setWidth 32) p) l.pend
  left : l.epollSweep.kernel.eperms.Perm (l.kernel.eperms.filter l.fds.ready)

/-- The list has no fd twice and has every fd that is flagged; a sweep, whatever `epoll_wait` reported before it,
feeds each fd that is flagged and wanted, once, and takes exactly the others out; and an fd is wanted, unless a
change of it is queued, if an active watcher wants something of it. -/
structure Listed (l : Loop U T Kernel) : Prop where
  nodup : l.kernel.eperms.Nodup
  flagged : ∀ fd, (l.fds.anfds fd).emask &&& evEmaskEperm ≠ 0 → fd ∈ l.kernel.eperms
  swept : ∀ evs : List EpollEvent, Swept (evs.foldl Loop.epollEvent l)
  wanted : ∀ fd, fd ∉ l.fds.fdchanges → (l.fds.sweepEvents fd ≠ 0 ↔ wantsSome l.fds fd)

/-- `epoll_ctl` answers EPERM to this call of `epoll_modify`. -/
def refused (l : Loop U T Kernel) (fd : ℕ) (oev nev : BitVec 8) : Prop :=
  (register fd oev nev (l.fds.anfds fd).emask ⟨kernelMask nev, fd, BitVec.ofNat 32 ((l.fds.anfds fd).egen + 1)⟩
    l.kernel).2 = .eperm

instance (l : Loop U T Kernel) (fd : ℕ) (oev nev : BitVec 8) : Decidable (refused l fd oev nev) :=
  inferInstanceAs (Decidable (_ = _))

/-- If the call of `epoll_modify` that `fd_reify` makes for this fd is answered EPERM, and the fd is in the list,
it is flagged. -/
def Marked (l : Loop U T Kernel) (fd : ℕ) : Prop :=
  ∀ oev nev, l.fds.change fd = some (oev, nev) → nev ≠ 0 → refused l fd oev nev → fd ∈ l.kernel.eperms →
    (l.fds.anfds fd).emask &&& evEmaskEperm ≠ 0

/-- So it is for each fd that the step reifies. -/
def MarkedStep (l : Loop U T Kernel) (a : Act U) : Prop :=
  a = .fdReify → ∀ past fd later, l.fds.fdchanges = past ++ fd :: later →
    Marked (past.foldl (Loop.fdReifyOne Loop.epollModify) l) fd

/-! ### epoll_modify -/

section

variable {l m : Loop U T Kernel} {n fd : ℕ} {oev nev : BitVec 8}

/-- What the watchers want beyond the first `n` queued is known, and no mask recorded is taken for a flag. -/
def Plain (n : ℕ) (s : Fds (IoW U)) : Prop :=
  s.TrackedFrom n ∧ ∀ fd, (s.anfds fd).events &&& evEmaskEperm = 0

theorem and_eperm (x : BitVec 8) : x &&& evEmaskEperm = 0 ↔ x.getLsbD 7 = false := by
  revert x
  decide

section

omit [DecidableEq U]

theorem plain_wanted {s : Fds (IoW U)} {queue : List ℕ} (h : s.Tracked queue) (fd : ℕ) :
    s.wanted fd &&& evEmaskEperm = 0 := by
  rw [and_eperm, ← Bool.not_eq_true, Fds.getLsbD_wanted]
  rintro ⟨-, w, hw, hbit⟩
  have hmask := h.mask w ((h.linked.mem fd w).mp hw).1
  have hlt : ¬ (s.events w).getLsbD 7 = true := by
    have := congrArg (fun x => x.getLsbD 7) hmask
    simpa [evRead, evWrite] using this
  exact hlt hbit

theorem Plain.setEmask {s : Fds (IoW U)} (h : Plain n s) (fd : ℕ) (emask : BitVec 8) :
    Plain n (s.setEmask fd emask) := by
  refine ⟨h.1.congr rfl rfl (fun fd' => ?_) ⟨rfl, rfl, rfl⟩, fun fd' => ?_⟩
  · rw [Fds.setEmask_anfds]
    exact ⟨rfl, rfl, rfl⟩
  · rw [Fds.setEmask_anfds]
    exact h.2 fd'

theorem Plain.setEgen {s : Fds (IoW U)} (h : Plain n s) (fd : ℕ) (egen : ℕ) : Plain n (s.setEgen fd egen) := by
  have ha : ∀ fd', (s.setEgen fd egen).anfds fd' =
      { s.anfds fd' with egen := if fd' = fd then egen else (s.anfds fd').egen } := by
    intro fd'
    by_cases hfd : fd' = fd
    · simp [Fds.setEgen, hfd]
    · simp [Fds.setEgen, hfd]
  refine ⟨h.1.congr rfl rfl (fun fd' => ?_) ⟨rfl, rfl, rfl⟩, fun fd' => ?_⟩
  · rw [ha]
    exact ⟨rfl, rfl, rfl⟩
  · rw [ha]
    exact h.2 fd'

end

theorem Plain.kill {l : Loop U T Kernel} (h : Plain n l.fds) (fd : ℕ) : Plain n (l.fdKill fd).fds := by
  refine Loop.fdKillLoop_induction l (P := fun l => Plain n l.fds) fd (fun l w _ h => ?_) _ h
  show Plain n (l.evIoStop w).fds
  rw [Loop.fds_evIoStop]
  split
  · exact h
  · exact ⟨h.1.stop w, fun fd => by rw [(Fds.still_stop l.fds w).events]; exact h.2 fd⟩

/-- What a call of `epoll_modify` does to the flags, the list and the rest of the fds. -/
structure Modified (n : ℕ) (l m : Loop U T Kernel) (fd : ℕ) (oev nev : BitVec 8) : Prop where
  emask : ∀ fd', (m.fds.anfds fd').emask =
    if fd' = fd then (if refused l fd oev nev then evEmaskEperm else nev) else (l.fds.anfds fd').emask
  eperms : m.kernel.eperms =
    if refused l fd oev nev ∧ (l.fds.anfds fd).emask &&& evEmaskEperm = 0 then l.kernel.eperms ++ [fd]
    else l.kernel.eperms
  plain : Plain n l.fds → Plain n m.fds
  queue : l.fds.fdchanges <+: m.fds.fdchanges

theorem queue_fdKill (l : Loop U T Kernel) (fd : ℕ) : l.fds.fdchanges <+: (l.fdKill fd).fds.fdchanges := by
  refine Loop.fdKillLoop_induction l (P := fun m => l.fds.fdchanges <+: m.fds.fdchanges) fd (fun m w _ h => ?_) _
    (List.prefix_refl _)
  refine h.trans ?_
  show m.fds.fdchanges <+: (m.evIoStop w).fds.fdchanges
  rw [Loop.fds_evIoStop]
  split
  · exact List.prefix_refl _
  · show m.fds.fdchanges <+: if _ then m.fds.fdchanges ++ [m.fds.fd w] else m.fds.fdchanges
    split
    · exact List.prefix_append ..
    · exact List.prefix_refl _

theorem modified (n : ℕ) (l : Loop U T Kernel) (fd : ℕ) (oev : BitVec 8) {nev : BitVec 8} (hn : nev ≠ 0) :
    Modified n l (Loop.epollModify fd oev nev l) fd oev nev := by
  obtain ⟨l₁, hl₁⟩ : ∃ l₁, l₁ = (l.setEmask fd nev).setEgen fd ((l.fds.anfds fd).egen + 1) := ⟨_, rfl⟩
  obtain ⟨-, -, heq⟩ := Loop.epollModify_eq fd oev hn hl₁
  have hemask : ∀ fd', (l₁.fds.anfds fd').emask = if fd' = fd then nev else (l.fds.anfds fd').emask := by
    intro fd'
    rw [hl₁, Loop.emask_setEgen, Loop.emask_setEmask]
  have hplain : Plain n l.fds → Plain n l₁.fds := fun h => by
    rw [hl₁]
    exact (h.setEmask fd nev).setEgen fd _
  have hqueue : l.fds.fdchanges = l₁.fds.fdchanges := by rw [hl₁]; rfl
  have heperms := (Loop.register_frame fd oev nev (l.fds.anfds fd).emask
    ⟨kernelMask nev, fd, BitVec.ofNat 32 ((l.fds.anfds fd).egen + 1)⟩ l.kernel).2
  have href : refused l fd oev nev ↔ (register fd oev nev (l.fds.anfds fd).emask
    ⟨kernelMask nev, fd, BitVec.ofNat 32 ((l.fds.anfds fd).egen + 1)⟩ l.kernel).2 = .eperm := Iff.rfl
  rw [heq]
  generalize register fd oev nev (l.fds.anfds fd).emask
    ⟨kernelMask nev, fd, BitVec.ofNat 32 ((l.fds.anfds fd).egen + 1)⟩ l.kernel = q at heperms href ⊢
  obtain ⟨k, out⟩ := q
  dsimp only at heperms href
  cases out with
  | done =>
    have hno : ¬ refused l fd oev nev := fun h => by cases href.mp h
    refine ⟨fun fd' => ?_, ?_, hplain, hqueue ▸ List.prefix_refl _⟩
    · rw [if_neg hno]
      exact hemask fd'
    · rw [if_neg fun h => hno h.1]
      exact heperms
  | eperm =>
    have hyes : refused l fd oev nev := href.mpr rfl
    refine ⟨fun fd' => ?_, ?_, fun h => (hplain h).setEmask fd _, hqueue ▸ List.prefix_refl _⟩
    · rw [if_pos hyes]
      show ((l₁.setEmask fd evEmaskEperm).fds.anfds fd').emask = _
      rw [Loop.emask_setEmask, hemask]
      split
      · rfl
      · rfl
    · show (if (l.fds.anfds fd).emask &&& evEmaskEperm = 0 then { k with eperms := k.eperms ++ [fd] } else k).eperms = _
      by_cases hold : (l.fds.anfds fd).emask &&& evEmaskEperm = 0
      · rw [if_pos hold, if_pos ⟨hyes, hold⟩]
        exact congrArg (· ++ [fd]) heperms
      · rw [if_neg hold, if_neg fun h => hold h.2]
        exact heperms
  | decEgen =>
    have hno : ¬ refused l fd oev nev := fun h => by cases href.mp h
    refine ⟨fun fd' => ?_, ?_, fun h => (hplain h).setEgen fd _, hqueue ▸ List.prefix_refl _⟩
    · rw [if_neg hno]
      show ((({ l₁ with kernel := k } : Loop U T Kernel).setEgen fd (l.fds.anfds fd).egen).fds.anfds fd').emask = _
      rw [Loop.emask_setEgen]
      exact hemask fd'
    · rw [if_neg fun h => hno h.1]
      exact heperms
  | kill =>
    have hno : ¬ refused l fd oev nev := fun h => by cases href.mp h
    refine ⟨fun fd' => ?_, ?_, fun h => ?_, hqueue ▸ queue_fdKill ({ l₁ with kernel := k } : Loop U T Kernel) fd⟩
    · rw [if_neg hno]
      show (((({ l₁ with kernel := k } : Loop U T Kernel).fdKill fd).setEgen fd
        (l.fds.anfds fd).egen).fds.anfds fd').emask = _
      rw [Loop.emask_setEgen, (Loop.still_fdKill _ fd).emask]
      exact hemask fd'
    · rw [if_neg fun h => hno h.1]
      show (({ l₁ with kernel := k } : Loop U T Kernel).fdKill fd).kernel.eperms = _
      rw [Loop.kernel_fdKill]
      exact heperms
    · exact Plain.setEgen (Plain.kill (l := { l₁ with kernel := k }) (hplain h) fd) fd _

/-! ### The flags and the list -/

/-- The list has no fd twice, and every fd that is flagged. -/
structure Flags (l : Loop U T Kernel) : Prop where
  nodup : l.kernel.eperms.Nodup
  flagged : ∀ fd, (l.fds.anfds fd).emask &&& evEmaskEperm ≠ 0 → fd ∈ l.kernel.eperms

section

omit [DecidableEq U]

/-- Flags may be forgotten. -/
theorem Flags.keeps (h : Flags l) (hk : m.kernel.eperms = l.kernel.eperms) (hf : Fds.Keeps l.fds m.fds) : Flags m := by
  refine ⟨hk ▸ h.nodup, fun fd hfd => ?_⟩
  rw [hk]
  rcases hf.emask fd with he | he
  · exact h.flagged fd (he ▸ hfd)
  · rw [he] at hfd
    exact absurd (by decide) hfd

theorem Flags.modify (h : Flags l) (hm : Modified n l m fd oev nev) (hplain : nev &&& evEmaskEperm = 0)
    (hmark : refused l fd oev nev → fd ∈ l.kernel.eperms → (l.fds.anfds fd).emask &&& evEmaskEperm ≠ 0) : Flags m := by
  have hother : ∀ fd', fd' ≠ fd → (m.fds.anfds fd').emask &&& evEmaskEperm ≠ 0 → fd' ∈ l.kernel.eperms := by
    intro fd' hne hfl
    rw [hm.emask, if_neg hne] at hfl
    exact h.flagged fd' hfl
  by_cases href : refused l fd oev nev
  · by_cases hold : (l.fds.anfds fd).emask &&& evEmaskEperm = 0
    · have hin : fd ∉ l.kernel.eperms := fun hin => hmark href hin hold
      have hlist : m.kernel.eperms = l.kernel.eperms ++ [fd] := by rw [hm.eperms, if_pos ⟨href, hold⟩]
      refine ⟨?_, fun fd' hfl => ?_⟩
      · rw [hlist]
        exact List.nodup_append.mpr ⟨h.nodup, List.nodup_singleton fd,
          fun a ha b hb => by rw [List.mem_singleton.mp hb]; exact fun he => hin (he ▸ ha)⟩
      · rw [hlist, List.mem_append, List.mem_singleton]
        by_cases hne : fd' = fd
        · exact .inr hne
        · exact .inl (hother fd' hne hfl)
    · have hlist : m.kernel.eperms = l.kernel.eperms := by rw [hm.eperms, if_neg fun h => hold h.2]
      refine ⟨hlist ▸ h.nodup, fun fd' hfl => ?_⟩
      rw [hlist]
      by_cases hne : fd' = fd
      · exact hne ▸ h.flagged fd hold
      · exact hother fd' hne hfl
  · have hlist : m.kernel.eperms = l.kernel.eperms := by rw [hm.eperms, if_neg fun h => href h.1]
    refine ⟨hlist ▸ h.nodup, fun fd' hfl => ?_⟩
    rw [hlist]
    by_cases hne : fd' = fd
    · rw [hm.emask, if_pos hne, if_neg href] at hfl
      exact absurd hplain hfl
    · exact hother fd' hne hfl

/-- An EPERM for an fd that is in the list and not flagged puts it there again. -/
theorem modify_unmarked (hm : Modified n l m fd oev nev) (href : refused l fd oev nev) (hin : fd ∈ l.kernel.eperms)
    (hold : (l.fds.anfds fd).emask &&& evEmaskEperm = 0) : ¬ m.kernel.eperms.Nodup := by
  rw [hm.eperms, if_pos ⟨href, hold⟩]
  exact fun hn => (List.nodup_append.mp hn).2.2 fd hin fd (List.mem_singleton.mpr rfl) rfl

end

/-! ### fd_reify -/

/-- One round of `fd_reify`: `m` is what it leads to. -/
structure Round (n : ℕ) (l m : Loop U T Kernel) (fd : ℕ) : Prop where
  flags : Marked l fd → Plain n l.fds → Flags l → Flags m
  plain : l.fds.fdchanges[n]? = some fd → Plain n l.fds → Plain (n + 1) m.fds
  queue : l.fds.fdchanges <+: m.fds.fdchanges
  eperms : l.kernel.eperms <+: m.kernel.eperms
  unmarked : ¬ Marked l fd → ¬ m.kernel.eperms.Nodup

section

omit [DecidableEq U]

theorem emask_reify (s : Fds (IoW U)) (fd fd' : ℕ) :
    ((s.reify fd).anfds fd').emask = (s.anfds fd').emask ∧ ((s.reify fd).anfds fd').egen = (s.anfds fd').egen := by
  by_cases h : fd' = fd
  · simp [Fds.reify, Fds.setFd, h]
  · simp [Fds.reify, Fds.setFd, h]

theorem Plain.reify {s : Fds (IoW U)} (h : Plain n s) (hfd : s.fdchanges[n]? = some fd) : Plain (n + 1) (s.reify fd) := by
  refine ⟨h.1.reify hfd, fun fd' => ?_⟩
  rw [Fds.events_reify]
  split
  · exact plain_wanted h.1.2 fd
  · exact h.2 fd'

end

theorem round (n : ℕ) (l : Loop U T Kernel) (fd : ℕ) : Round n l (Loop.fdReifyOne Loop.epollModify l fd) fd := by
  have hkeeps : Fds.Keeps l.fds (l.fds.reify fd) := Fds.keeps_reify l.fds fd
  -- without a call, or with one that does nothing
  have hnone : (∀ oev nev, l.fds.change fd = some (oev, nev) → nev = 0) →
      Round n l ({ l with fds := l.fds.reify fd } : Loop U T Kernel) fd := fun hno => by
    refine ⟨fun _ _ h => h.keeps rfl hkeeps, fun hfd h => h.reify hfd, List.prefix_refl _, List.prefix_refl _, ?_⟩
    exact fun hnot => absurd (fun oev nev hc hn => absurd (hno oev nev hc) hn) hnot
  unfold Loop.fdReifyOne
  dsimp only
  cases hc : l.fds.change fd with
  | none => exact hnone fun oev nev he => by rw [hc] at he; cases he
  | some c =>
    obtain ⟨oev, nev⟩ := c
    dsimp only
    by_cases hn : nev = 0
    · have hid : Loop.epollModify fd oev nev ({ l with fds := l.fds.reify fd } : Loop U T Kernel) =
          { l with fds := l.fds.reify fd } := by
        unfold Loop.epollModify
        rw [if_pos hn]
      rw [hid]
      refine hnone fun oev' nev' he => ?_
      rw [hc] at he
      exact (Prod.mk.inj (Option.some.inj he)).2 ▸ hn
    · have hmod := fun n => modified n ({ l with fds := l.fds.reify fd } : Loop U T Kernel) fd oev hn
      have hemask : ((l.fds.reify fd).anfds fd).emask = (l.fds.anfds fd).emask := (emask_reify l.fds fd fd).1
      have href : refused ({ l with fds := l.fds.reify fd } : Loop U T Kernel) fd oev nev ↔ refused l fd oev nev := by
        unfold refused
        dsimp only
        rw [hemask, (emask_reify l.fds fd fd).2]
      refine ⟨fun hmark hplain h => ?_, fun hfd hplain => ?_, ?_, ?_, fun hnot => ?_⟩
      · have hl : Flags ({ l with fds := l.fds.reify fd } : Loop U T Kernel) := h.keeps rfl hkeeps
        refine hl.modify (hmod 0) ?_ fun hr hin => ?_
        · rw [Fds.change_wanted hc]
          exact plain_wanted hplain.1.2 fd
        · show ((l.fds.reify fd).anfds fd).emask &&& _ ≠ 0
          rw [hemask]
          exact hmark oev nev hc hn (href.mp hr) hin
      · exact (hmod (n + 1)).plain (hplain.reify hfd)
      · exact (hmod 0).queue
      · rw [(hmod 0).eperms]
        split
        · exact List.prefix_append ..
        · exact List.prefix_refl _
      · have hex : refused l fd oev nev ∧ fd ∈ l.kernel.eperms ∧ (l.fds.anfds fd).emask &&& evEmaskEperm = 0 := by
          by_contra hno
          refine hnot fun oev' nev' he _ hr hin => ?_
          rw [hc] at he
          obtain ⟨rfl, rfl⟩ := Prod.mk.inj (Option.some.inj he)
          exact fun h0 => hno ⟨hr, hin, h0⟩
        refine modify_unmarked (hmod 0) (href.mpr hex.1) hex.2.1 ?_
        show ((l.fds.reify fd).anfds fd).emask &&& _ = 0
        rw [hemask]
        exact hex.2.2

/-- `fd_reify` keeps the list and the flags if each EPERM finds the flag of an fd in the list. -/
theorem fdReify_marked (hf : Flags l) (hp : Plain 0 l.fds) (hmark : MarkedStep l .fdReify) :
    Flags (l.fdReify Loop.epollModify) ∧ Plain 0 (l.fdReify Loop.epollModify).fds := by
  have hfold : ∀ (later past : List ℕ) (m : Loop U T Kernel), past ++ later <+: m.fds.fdchanges → Flags m →
      Plain past.length m.fds →
      (∀ p fd q, later = p ++ fd :: q → Marked (p.foldl (Loop.fdReifyOne Loop.epollModify) m) fd) →
      Flags (later.foldl (Loop.fdReifyOne Loop.epollModify) m) ∧
        Plain (past ++ later).length (later.foldl (Loop.fdReifyOne Loop.epollModify) m).fds := by
    intro later
    induction later with
    | nil =>
      intro past m _ hf hp _
      rw [List.append_nil]
      exact ⟨hf, hp⟩
    | cons fd later ih =>
      intro past m hq hf hp hmark
      have hr := round past.length m fd
      have hfd : m.fds.fdchanges[past.length]? = some fd := by
        obtain ⟨rest, hrest⟩ := hq
        rw [← hrest, List.append_assoc, List.getElem?_append_right (le_refl _), Nat.sub_self]
        rfl
      have hcons : past ++ fd :: later = (past ++ [fd]) ++ later := by simp
      rw [hcons] at hq ⊢
      refine ih (past ++ [fd]) _ (hq.trans hr.queue) (hr.flags (hmark [] fd later rfl) hp hf) ?_ fun p fd' q he => ?_
      · rw [List.length_append, List.length_singleton]
        exact hr.plain hfd hp
      · exact hmark (fd :: p) fd' q (by rw [he, List.cons_append])
  obtain ⟨h₁, h₂⟩ := hfold l.fds.fdchanges [] l (List.prefix_refl _) hf hp fun p fd q he => hmark rfl p fd q he
  refine ⟨⟨h₁.nodup, h₁.flagged⟩, ⟨Nat.zero_le _, ?_⟩, h₂.2⟩
  exact Fds.tracked_shift.mpr h₂.1.2

/-- If one does not, the list has an fd twice. -/
theorem fdReify_unmarked (hnot : ¬ MarkedStep l .fdReify) : ¬ (l.fdReify Loop.epollModify).kernel.eperms.Nodup := by
  have hgrow : ∀ (fds : List ℕ) (m : Loop U T Kernel),
      m.kernel.eperms <+: (fds.foldl (Loop.fdReifyOne Loop.epollModify) m).kernel.eperms := by
    intro fds
    induction fds with
    | nil => exact fun _ => List.prefix_refl _
    | cons fd fds ih => exact fun m => (round 0 m fd).eperms.trans (ih _)
  simp only [MarkedStep, true_imp_iff, not_forall] at hnot
  obtain ⟨past, fd, later, hq, hnot⟩ := hnot
  unfold Loop.fdReify
  show ¬ (l.fds.fdchanges.foldl (Loop.fdReifyOne Loop.epollModify) l).kernel.eperms.Nodup
  rw [hq, List.foldl_append, List.foldl_cons]
  intro hn
  exact (round 0 _ fd).unmarked hnot (hn.sublist (hgrow later _).sublist)

/-! ### epoll_poll -/

theorem Plain.event {l : Loop U T Kernel} (h : Plain n l.fds) (ev : EpollEvent) :
    Plain n (Loop.epollEvent l ev).fds ∧ (Flags l → Flags (Loop.epollEvent l ev)) := by
  have hplain := h.2 ev.fd
  have hset : Flags l → ∀ k : Kernel, k.eperms = l.kernel.eperms →
      Flags ({ l.setEmask ev.fd (l.fds.anfds ev.fd).events with kernel := k } : Loop U T Kernel) := by
    intro hf k hk
    refine ⟨hk ▸ hf.nodup, fun fd hfl => ?_⟩
    rw [hk]
    replace hfl : ((l.setEmask ev.fd (l.fds.anfds ev.fd).events).fds.anfds fd).emask &&& evEmaskEperm ≠ 0 := hfl
    rw [Loop.emask_setEmask] at hfl
    by_cases hfd : fd = ev.fd
    · rw [if_pos hfd] at hfl
      exact absurd hplain hfl
    · rw [if_neg hfd] at hfl
      exact hf.flagged fd hfl
  have hfeed : ∀ (m : Loop U T Kernel) (revents : Events), Flags m → Flags (m.fdEvent ev.fd revents) := by
    intro m revents hm
    rw [Loop.fdEvent_feed]
    exact ⟨hm.nodup, hm.flagged⟩
  unfold Loop.epollEvent
  split
  · exact ⟨h, id⟩
  · split
    · exact ⟨h, fun hf => ⟨hf.nodup, hf.flagged⟩⟩
    · dsimp only
      split
      · have hk := (Loop.epollCtl_frame (if (l.fds.anfds ev.fd).events ≠ 0 then .mod else .del) ev.fd
          { ev with events := kernelMask (l.fds.anfds ev.fd).events } l.kernel).2
        rw [show (l.setEmask ev.fd (l.fds.anfds ev.fd).events).kernel = l.kernel from rfl]
        generalize epollCtl (if (l.fds.anfds ev.fd).events ≠ 0 then .mod else .del) ev.fd
          { ev with events := kernelMask (l.fds.anfds ev.fd).events } l.kernel = q at hk ⊢
        obtain ⟨k, err⟩ := q
        cases err with
        | none =>
          refine ⟨?_, fun hf => hfeed _ _ (hset hf k hk)⟩
          dsimp only
          rw [Loop.fdEvent_feed]
          exact h.setEmask ev.fd _
        | some e => exact ⟨h.setEmask ev.fd _, fun hf => ⟨(hset hf k hk).nodup, (hset hf k hk).flagged⟩⟩
      · refine ⟨?_, hfeed l _⟩
        rw [Loop.fdEvent_feed]
        exact h

theorem Plain.events {l : Loop U T Kernel} (h : Plain n l.fds) (hf : Flags l) (evs : List EpollEvent) :
    Plain n (evs.foldl Loop.epollEvent l).fds ∧ Flags (evs.foldl Loop.epollEvent l) := by
  induction evs generalizing l with
  | nil => exact ⟨h, hf⟩
  | cons ev evs ih =>
    obtain ⟨h', hf'⟩ := h.event ev
    exact ih h' (hf' hf)

section

omit [DecidableEq U]

theorem emask_forget (fds : List ℕ) (s : Fds (IoW U)) (fd : ℕ) :
    ((s.forget fds).anfds fd).emask = if fd ∈ fds then 0 else (s.anfds fd).emask := by
  induction fds generalizing s with
  | nil => rfl
  | cons fd' fds ih =>
    show ((Fds.forget (s.setEmask fd' 0) fds).anfds fd).emask = _
    rw [ih, Fds.setEmask_anfds]
    by_cases h : fd ∈ fds
    · simp [h]
    · by_cases h' : fd = fd'
      · simp [h']
      · simp [h, h']

theorem Plain.forget {s : Fds (IoW U)} (h : Plain n s) (fds : List ℕ) : Plain n (s.forget fds) := by
  induction fds generalizing s with
  | nil => exact h
  | cons fd fds ih => exact ih (h.setEmask fd 0)

end

/-- What a sweep does when the list has no fd twice. -/
theorem sweep (hf : Flags l) : Swept l ∧ Flags l.epollSweep ∧ (Plain n l.fds → Plain n l.epollSweep.fds) := by
  obtain ⟨kept, hperm, heq⟩ := Loop.sweep_fold l.kernel.eperms [] l (List.append_nil _).symm hf.nodup
  rw [List.append_nil] at hperm
  have hsweep : l.epollSweep = _ := heq
  refine ⟨⟨?_, ?_⟩, ⟨?_, fun fd hfl => ?_⟩, fun h => ?_⟩
  · rw [hsweep]
  · rw [hsweep]
    exact hperm
  · rw [hsweep]
    exact hperm.nodup_iff.mpr (hf.nodup.filter _)
  · rw [hsweep] at hfl ⊢
    dsimp only at hfl ⊢
    rw [emask_forget] at hfl
    by_cases hgo : fd ∈ (l.kernel.eperms.filter fun fd => !l.fds.ready fd).reverse
    · rw [if_pos hgo] at hfl
      exact absurd (by decide) hfl
    · rw [if_neg hgo] at hfl
      have hin := hf.flagged fd hfl
      have hr : l.fds.ready fd = true := by
        by_contra hr
        exact hgo (List.mem_reverse.mpr (List.mem_filter.mpr ⟨hin, by simpa using hr⟩))
      exact hperm.mem_iff.mpr (List.mem_filter.mpr ⟨hin, hr⟩)
  · rw [hsweep]
    exact h.forget _

/-! ### The run -/

/-- What holds between the steps as long as each EPERM finds the flag of an fd in the list. -/
structure Inv (l : Loop U T Kernel) : Prop where
  flags : Flags l
  plain : Plain 0 l.fds

theorem bits_rw (x : BitVec 8) : x &&& (readBit ||| writeBit) ≠ 0 ↔ ∃ i < 2, x.getLsbD i = true := by
  revert x
  decide

theorem events_rw (x : Events) : x &&& (evRead ||| evWrite) ≠ 0 ↔ ∃ i < 2, x.getLsbD i = true := by
  have hbit : ∀ i, (evRead ||| evWrite).getLsbD i = decide (i < 2) := by
    intro i
    by_cases hi : i < 32
    · revert i
      decide
    · rw [BitVec.getLsbD_of_ge _ _ (not_lt.mp hi)]
      simp
      omega
  refine ⟨fun h => ?_, ?_⟩
  · by_contra hno
    refine h (BitVec.eq_of_getLsbD_eq fun i _ => ?_)
    rw [BitVec.getLsbD_and, hbit]
    by_cases hi : i < 2
    · have : ¬ x.getLsbD i = true := fun hx => hno ⟨i, hi, hx⟩
      simp [this]
    · simp [hi]
  · rintro ⟨i, hi, hx⟩ h0
    have := congrArg (fun y => y.getLsbD i) h0
    simp [hbit, hi, hx] at this

section

omit [DecidableEq U]

/-- An fd of which no change is queued is wanted if an active watcher wants something of it. -/
theorem wanted_iff {s : Fds (IoW U)} (h : s.Tracked s.fdchanges) {fd : ℕ} (hfd : fd ∉ s.fdchanges) :
    s.sweepEvents fd ≠ 0 ↔ wantsSome s fd := by
  unfold Fds.sweepEvents wantsSome
  rw [h.clean fd hfd, bits_rw]
  refine ⟨?_, ?_⟩
  · rintro ⟨i, hi, hbit⟩
    obtain ⟨-, w, hw, hx⟩ := (Fds.getLsbD_wanted s fd i).mp hbit
    obtain ⟨ha, hf⟩ := (h.linked.mem fd w).mp hw
    exact ⟨w, ha, hf, (events_rw _).mpr ⟨i, hi, hx⟩⟩
  · rintro ⟨w, ha, hf, hx⟩
    obtain ⟨i, hi, hx⟩ := (events_rw _).mp hx
    exact ⟨i, hi, (Fds.getLsbD_wanted s fd i).mpr ⟨by omega, w, (h.linked.mem fd w).mpr ⟨ha, hf⟩, hx⟩⟩

end

theorem Inv.listed (h : Inv l) : Listed l where
  nodup := h.flags.nodup
  flagged := h.flags.flagged
  swept evs := (sweep (n := 0) (h.plain.events h.flags evs).2).1
  wanted _ hfd := wanted_iff h.plain.1.2 hfd

section

omit [DecidableEq U]

theorem inv_fresh (h : Fresh l) : Inv l := by
  refine ⟨⟨?_, fun fd hfl => ?_⟩, ⟨Nat.zero_le _, Fds.tracked_fresh h.anfds h.active _⟩, fun fd => ?_⟩
  · rw [h.eperms]
    exact List.nodup_nil
  · simp [h.anfds] at hfl
  · simp [h.anfds]

end

theorem inv_step {a : Act U} (h : Inv l) (hmark : MarkedStep l a) (hs : step l a = some m) : Inv m := by
  obtain ⟨hf, ⟨-, ht⟩, hp⟩ := h
  rw [List.drop_zero] at ht
  have still : ∀ {m : Loop U T Kernel}, Fds.Still l.fds m.fds → m.kernel = l.kernel →
      m.fds.Tracked m.fds.fdchanges → Inv m := fun hst hk ht' =>
    ⟨hf.keeps (by rw [hk]) hst.keeps, ⟨Nat.zero_le _, ht'⟩, fun fd => by rw [hst.events]; exact hp fd⟩
  cases a with
  | ioSet w fd events =>
    simp only [step] at hs
    split at hs
    · cases hs
    · rename_i hw
      cases hs
      exact still ⟨fun _ => rfl, fun _ => rfl, fun _ => rfl⟩ rfl (ht.evIoSet (not_not.mp hw) fd events)
  | ioStart w =>
    simp only [step] at hs
    split at hs
    · rename_i hw
      cases hs
      refine still (Loop.still_evIoStart l w) (Loop.kernel_evIoStart ..) ?_
      rw [Loop.fds_evIoStart]
      split
      · exact ht
      · rename_i ha
        exact ht.start (not_not.mp ha) (hw.resolve_left ha)
    · cases hs
  | ioStop w =>
    cases hs
    refine still (Loop.still_evIoStop l w) (Loop.kernel_evIoStop ..) ?_
    rw [Loop.fds_evIoStop]
    split
    · exact ht
    · exact ht.stop w
  | ioModify w events =>
    cases hs
    exact still (Fds.still_modify ..) rfl (ht.modify w events)
  | fdReify =>
    cases hs
    obtain ⟨h₁, h₂⟩ := fdReify_marked hf ⟨⟨Nat.zero_le _, ht⟩, hp⟩ hmark
    exact ⟨h₁, h₂⟩
  | close fd =>
    cases hs
    exact ⟨⟨hf.nodup, hf.flagged⟩, ⟨Nat.zero_le _, ht⟩, hp⟩
  | poll evs =>
    cases hs
    obtain ⟨h₁, h₂⟩ := Plain.events (n := 0) ⟨⟨Nat.zero_le _, ht⟩, hp⟩ hf evs
    obtain ⟨-, h₃, h₄⟩ := sweep (n := 0) h₂
    exact ⟨h₃, h₄ h₁⟩
  | fork =>
    cases hs
    obtain ⟨h₁, h₂⟩ := ht.rearmAll
    refine ⟨hf.keeps rfl (Fds.keeps_rearmAll _), ⟨Nat.zero_le _, h₁⟩, fun fd => ?_⟩
    show (l.fds.rearmAll.anfds fd).events &&& evEmaskEperm = 0
    simp [h₂]

/-- **The list of refused fds.** In every state of a run from a new loop, the list has no fd twice and every fd
that is flagged, and sweeps feed and keep exactly the fds flagged and wanted, if and only if each EPERM of the
run for an fd in the list finds it flagged. -/
theorem eperms_swept {l₀ : Loop U T Kernel} {acts : List (Act U)} (h₀ : Fresh l₀) (hrun : Runs l₀ acts l) :
    (∀ past later, acts = past ++ later → ∀ m, Runs l₀ past m → Listed m) ↔
      ∀ past a later, acts = past ++ a :: later → ∀ m, Runs l₀ past m → MarkedStep m a := by
  refine ⟨fun h => ?_, fun h => ?_⟩
  · rintro past a later rfl m hm
    by_contra hnot
    have ha : a = .fdReify := by
      by_contra hne
      exact hnot fun he => absurd he hne
    subst ha
    obtain ⟨m', hm', hrest⟩ := hrun.of_append
    obtain rfl := Run.unique hm' hm
    cases hrest with
    | cons hstep _ =>
      have hlisted := h (past ++ [.fdReify]) later (by simp) _ (hm.snoc hstep)
      cases hstep
      exact fdReify_unmarked hnot hlisted.nodup
  · intro past later he m hm
    have hinv : Inv m := by
      refine Run.guarded (I := fun _ l => Inv l) (G := fun _ l a => MarkedStep l a) ?_ (inv_fresh h₀) ?_ hm
      · exact fun _ _ _ _ _ hi hmark hs => inv_step hi hmark hs
      · intro past' a later' he' m' hm'
        exact h past' a (later' ++ later) (by rw [he, he', List.append_assoc, List.cons_append]) m' hm'
    exact hinv.listed

end

/-- An fd is refused, and fed by the sweep. -/
theorem eperms_swept_one : ∃ l₀ l : Loop Bool ℤ Kernel, Fresh l₀ ∧
    Runs l₀ [.ioSet (.user true) 3 evRead, .ioStart (.user true), .fdReify] l ∧ Listed l ∧ l.kernel.eperms = [3] ∧
    l.fds.ready 3 := by
  let l₀ : Loop Bool ℤ Kernel := Loop.init .epoll true false true (Kernel.init fun _ _ => .eperm)
  have h₀ : Fresh l₀ := ⟨fun _ => rfl, rfl, fun _ => rfl, rfl⟩
  have hx : ((execFrom step l₀ [.ioSet (.user true) 3 evRead, .ioStart (.user true)]).bind fun m =>
      (step m .fdReify).map fun l => (m.kernel.eperms, m.fds.fdchanges, l.kernel.eperms, l.fds.ready 3)) =
        some ([], [3], [3], true) := by
    decide +kernel
  obtain ⟨m, hm, hx⟩ := Option.bind_eq_some_iff.mp hx
  obtain ⟨l, hl, hx⟩ := Option.map_eq_some_iff.mp hx
  simp only [Prod.mk.injEq] at hx
  obtain ⟨hnone, hq, hlist, hr⟩ := hx
  have hrun := (Run.iff_execFrom.mpr hm).snoc hl
  refine ⟨l₀, l, h₀, hrun, (eperms_swept h₀ hrun).mpr ?_ _ [] rfl l hrun, hlist, hr⟩
  intro past a later he m' hm' ha
  subst ha
  match past, he, hm' with
  | [_, _], he, hm' =>
    simp only [List.cons_append, List.nil_append, List.cons.injEq] at he
    obtain ⟨rfl, rfl, -⟩ := he
    obtain rfl := Run.unique hm' (Run.iff_execFrom.mpr hm)
    intro past fd later hq' _ _ _ _ _ hin
    rw [hq] at hq'
    match past, hq' with
    | [], _ =>
      replace hin : fd ∈ m'.kernel.eperms := hin
      rw [hnone] at hin
      cases hin
    | _ :: _, hq' => simp at hq'
  | _ :: _ :: _ :: _, he, _ => simp at he

/-- Refused again when its mask changes, the fd is in the list once and keeps its watcher. -/
example : (execFrom step (Loop.init .epoll true false true (Kernel.init fun _ _ => .eperm) : Loop Bool ℤ Kernel)
    [.ioSet (.user true) 3 evRead, .ioStart (.user true), .fdReify, .ioModify (.user true) (evRead ||| evWrite),
      .fdReify]).map (fun l => (l.kernel.eperms, (l.fds.anfds 3).head, l.fds.ready 3)) =
        some ([3], [.user true], true) := by
  decide +kernel

/-- An fd is refused again by a new epoll fd: it is in the list twice. -/
theorem eperms_swept_twice : ∃ l₀ l : Loop Bool ℤ Kernel, Fresh l₀ ∧
    Runs l₀ [.ioSet (.user true) 3 evRead, .ioStart (.user true), .fdReify, .fork, .fdReify] l ∧
    l.kernel.eperms = [3, 3] ∧ ¬ Listed l := by
  have hx : (execFrom step (Loop.init .epoll true false true (Kernel.init fun _ _ => .eperm) : Loop Bool ℤ Kernel)
      [.ioSet (.user true) 3 evRead, .ioStart (.user true), .fdReify, .fork, .fdReify]).map
        (fun l => l.kernel.eperms) = some [3, 3] := by
    decide +kernel
  obtain ⟨l, hl, hx⟩ := Option.map_eq_some_iff.mp hx
  refine ⟨_, l, ⟨fun _ => rfl, rfl, fun _ => rfl, rfl⟩, Run.iff_execFrom.mpr hl, hx, fun h => ?_⟩
  have hn := h.nodup
  rw [hx] at hn
  exact absurd hn (by decide)

end Eperm

end Qev
