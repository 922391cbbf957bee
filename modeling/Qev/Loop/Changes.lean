/-
# The queue of changes

`fd_change` queues an fd unless one of its flags says that it is queued. With flags that are
not empty the queue and the flags agree: an fd is queued exactly if it has a flag, and once,
also while `fd_reify` works it off and the backend queues more. `ev_io_modify` calls it with
no flags at all. So the agreement holds in a run exactly if each `ev_io_modify` in it that
changes an active watcher finds its fd queued already (`changes_agree`).
-/
import Qev.Loop.Interest

namespace Qev

open Lib

namespace Changes

/-- How a backend has an fd looked at again: as io_uring and linuxaio do, whose requests are one-shot, or as
port does. -/
inductive Rearm
  | oneShot
  | port

def Rearm.flags : Rearm → BitVec 8
  | .oneShot => evAnfdReify
  | .port => evIofdset.setWidth 8

/-- What a backend does to the fds, in its `modify` or its `poll`. -/
inductive Effect
  | event (fd : ℕ) (revents : Events)
  | kill (fd : ℕ)
  | rearm (fd : ℕ) (how : Rearm)

/-- A backend, by what its calls of `modify` come to. -/
structure Backend where
  effects : ℕ → List Effect
  calls : ℕ

end Changes

open Changes

namespace Loop

variable {U T : Type} [DecidableEq U] (l : Loop U T Changes.Backend)

/-- One-shot requests are over, and the mask with them. -/
def backendRearm (fd : ℕ) (how : Rearm) : Loop U T Changes.Backend :=
  let l :=
    match how with
    | .oneShot => { l with fds := l.fds.setFd fd { l.fds.anfds fd with events := 0 } }
    | .port => l
  l.fdChange fd how.flags

/-- A backend never touches an fd that `anfds` has no place for. -/
def backendEffect (l : Loop U T Changes.Backend) : Effect → Loop U T Changes.Backend
  | .event fd revents => if fd < l.fds.anfdmax then l.fdEvent fd revents else l
  | .kill fd => if fd < l.fds.anfdmax then l.fdKill fd else l
  | .rearm fd how => if fd < l.fds.anfdmax then l.backendRearm fd how else l

/-- `backend_modify`. -/
def backendModify (_ : ℕ) (_ _ : BitVec 8) (l : Loop U T Changes.Backend) : Loop U T Changes.Backend :=
  let effects := l.kernel.effects l.kernel.calls
  effects.foldl backendEffect { l with kernel := { l.kernel with calls := l.kernel.calls + 1 } }

end Loop

namespace Changes

variable {U T : Type} [DecidableEq U]

inductive Act (U : Type)
  | ioSet (w : IoW U) (fd : ℕ) (events : Events)
  | ioStart (w : IoW U)
  | ioStop (w : IoW U)
  | ioModify (w : IoW U) (events : Events)
  | fdRearmAll
  | effect (f : Effect)
  | fdReify

/-- One action. A watcher is set only while it is inactive. -/
def step (l : Loop U T Backend) : Act U → Option (Loop U T Backend)
  | .ioSet w fd events => if l.fds.active w ≠ 0 then none else some (l.evIoSet w fd events)
  | .ioStart w => some (l.evIoStart w)
  | .ioStop w => some (l.evIoStop w)
  | .ioModify w events => some (l.evIoModify w events)
  | .fdRearmAll => some l.fdRearmAll
  | .effect f => some (l.backendEffect f)
  | .fdReify => some (l.fdReify Loop.backendModify)

abbrev Runs (l : Loop U T Backend) (acts : List (Act U)) (m : Loop U T Backend) : Prop :=
  Run (fun l a m => step l a = some m) l acts m

/-- No io watcher is active and nothing is queued. -/
structure Fresh (l : Loop U T Backend) : Prop where
  reify : ∀ fd, (l.fds.anfds fd).reify = 0
  fdchanges : l.fds.fdchanges = []
  active : ∀ w, l.fds.active w = 0

/-- The queue and the flags agree. So the queue is no longer than there are fds, and no event is passed on of an
fd that is in it. -/
structure Agree (l : Loop U T Backend) : Prop where
  mem : ∀ fd, fd ∈ l.fds.fdchanges ↔ (l.fds.anfds fd).reify ≠ 0
  nodup : l.fds.fdchanges.Nodup
  length : l.fds.fdchanges.length ≤ l.fds.anfdmax
  quiet : ∀ fd ∈ l.fds.fdchanges, ∀ revents, l.fdEvent fd revents = l

/-- If this is an `ev_io_modify` that changes what an active watcher wants, its fd has a flag already. -/
def Flagged (l : Loop U T Backend) (a : Act U) : Prop :=
  ∀ w events, a = .ioModify w events → l.fds.active w ≠ 0 →
    l.fds.events w ≠ (l.fds.events w &&& evIofdset) ||| (events &&& (evRead ||| evWrite)) →
    (l.fds.anfds (l.fds.fd w)).reify ≠ 0

end Changes

/-! ### What is queued while the queue is worked off -/

namespace Fds

variable {W : Type} [DecidableEq W] {s t : Fds W} {done q : List ℕ} {w : W} {fd : ℕ}

/-- The fds `done` have been dealt with, and `q` are the ones with a flag. -/
structure Queued (s : Fds W) (done q : List ℕ) : Prop where
  fdchanges : s.fdchanges = done ++ q
  nodup : q.Nodup
  mem : ∀ fd, fd ∈ q ↔ (s.anfds fd).reify ≠ 0
  bound : ∀ fd ∈ q, fd < s.anfdmax
  active : ∀ w, s.active w ≠ 0 → s.fd w < s.anfdmax

section

omit [DecidableEq W]

/-- What else there is of the fds does not matter. -/
theorem Queued.congr (h : s.Queued done q) (hq : t.fdchanges = s.fdchanges)
    (hr : ∀ fd, (t.anfds fd).reify = (s.anfds fd).reify) (hm : s.anfdmax ≤ t.anfdmax)
    (ha : ∀ w, t.active w ≠ 0 → t.fd w < t.anfdmax) : t.Queued done q where
  fdchanges := hq.trans h.fdchanges
  nodup := h.nodup
  mem fd := by rw [hr]; exact h.mem fd
  bound fd hf := (h.bound fd hf).trans_le hm
  active := ha

/-- As `Queued`, with some more queued after `q`. -/
def Grown (s : Fds W) (done q : List ℕ) : Prop := ∃ new, s.Queued done (q ++ new)

theorem Queued.grown (h : s.Queued done q) : s.Grown done q := ⟨[], (List.append_nil q).symm ▸ h⟩

theorem Grown.bind (h : s.Grown done q) (hst : ∀ q, s.Queued done q → t.Grown done q) : t.Grown done q := by
  obtain ⟨n₁, h₁⟩ := h
  obtain ⟨n₂, h₂⟩ := hst _ h₁
  exact ⟨n₁ ++ n₂, List.append_assoc q n₁ n₂ ▸ h₂⟩

/-- With a flag, `fd_change` queues an fd that has none. -/
theorem Queued.fdChange (h : s.Queued done q) (hfd : fd < s.anfdmax) {flags : BitVec 8} (hf : flags ≠ 0) :
    (s.fdChange fd flags).Grown done q := by
  have hor : ∀ r : BitVec 8, r ||| flags ≠ 0 := fun r h0 => hf (BitVec.or_eq_zero_iff.mp h0).2
  by_cases hr : (s.anfds fd).reify = 0
  · have hin : fd ∉ q := fun hm => (h.mem fd).mp hm hr
    refine ⟨[fd], ?_, ?_, ?_, ?_, h.active⟩
    · rw [fdchanges_fdChange, if_pos hr, h.fdchanges, List.append_assoc]
    · exact List.nodup_append.mpr ⟨h.nodup, List.nodup_singleton fd,
        fun a ha b hb => by rw [List.mem_singleton.mp hb]; exact fun he => hin (he ▸ ha)⟩
    · intro fd'
      rw [reify_fdChange, List.mem_append, List.mem_singleton]
      by_cases he : fd' = fd
      · rw [if_pos he]
        exact iff_of_true (.inr he) (hor _)
      · simp [he, h.mem fd']
    · intro fd' hm
      rcases List.mem_append.mp hm with hm | hm
      · exact h.bound fd' hm
      · exact (List.mem_singleton.mp hm) ▸ hfd
  · refine ⟨[], ?_⟩
    rw [List.append_nil]
    refine ⟨?_, h.nodup, ?_, h.bound, h.active⟩
    · rw [fdchanges_fdChange, if_neg hr, h.fdchanges]
    · intro fd'
      rw [reify_fdChange]
      by_cases he : fd' = fd
      · rw [if_pos he]
        exact iff_of_true (he ▸ (h.mem fd).mpr hr) (hor _)
      · simp [he, h.mem fd']

/-- Without a flag, it changes nothing for an fd that has one. -/
theorem Queued.fdChange_zero (h : s.Queued done q) (hr : (s.anfds fd).reify ≠ 0) :
    (s.fdChange fd 0).Queued done q := by
  refine ⟨?_, h.nodup, ?_, h.bound, h.active⟩
  · rw [fdchanges_fdChange, if_neg hr, h.fdchanges]
  · intro fd'
    rw [reify_fdChange]
    by_cases he : fd' = fd
    · subst he
      simp [h.mem fd']
    · simp [he, h.mem fd']

end

theorem Queued.modify (h : s.Queued done q) (events : Events)
    (hf : s.active w ≠ 0 → s.events w ≠ (s.events w &&& evIofdset) ||| (events &&& (evRead ||| evWrite)) →
      (s.anfds (s.fd w)).reify ≠ 0) : (s.modify w events).Queued done q := by
  unfold Fds.modify
  dsimp only
  split
  · exact h
  · rename_i hne
    split
    · rename_i hw
      exact Queued.fdChange_zero (h.congr rfl (fun _ => rfl) (le_refl _) h.active) (hf hw hne)
    · exact h.congr rfl (fun _ => rfl) (le_refl _) h.active

/-- Without a flag, `ev_io_modify` queues the fd and still leaves it none. -/
theorem modify_unflagged (hw : s.active w ≠ 0) {events : Events}
    (hne : s.events w ≠ (s.events w &&& evIofdset) ||| (events &&& (evRead ||| evWrite)))
    (hr : (s.anfds (s.fd w)).reify = 0) :
    s.fd w ∈ (s.modify w events).fdchanges ∧ ((s.modify w events).anfds (s.fd w)).reify = 0 := by
  unfold Fds.modify
  dsimp only
  rw [if_neg hne, if_pos hw]
  refine ⟨?_, ?_⟩
  · rw [fdchanges_fdChange, if_pos hr]
    exact List.mem_append_right _ (List.mem_singleton.mpr rfl)
  · rw [reify_fdChange, if_pos rfl]
    show (s.anfds (s.fd w)).reify ||| 0 = 0
    rw [hr]
    rfl

theorem or_ne_zero {x y : BitVec 8} (hy : y ≠ 0) : x ||| y ≠ 0 := fun h => hy (BitVec.or_eq_zero_iff.mp h).2

theorem Queued.evIoSet (h : s.Queued done q) (hw : s.active w = 0) (fd : ℕ) (events : Events) :
    (s.evIoSet w fd events).Queued done q := by
  refine h.congr rfl (fun _ => rfl) (le_refl _) fun v hv => ?_
  have hne : v ≠ w := fun he => hv (he ▸ hw)
  show Function.update s.fd w fd v < s.anfdmax
  rw [Function.update_of_ne hne]
  exact h.active v hv

theorem Queued.start (h : s.Queued done q) (w : W) : (s.start w).Grown done q := by
  have hadd : (s.wlistAdd w).Queued done q := by
    refine h.congr rfl (fun fd => ?_) (le_max_left ..) fun v hv => ?_
    · by_cases hfd : fd = s.fd w
      · simp [wlistAdd, setFd, hfd]
      · simp [wlistAdd, setFd, hfd]
    · show s.fd v < max s.anfdmax (s.fd w + 1)
      by_cases he : v = w
      · subst he
        omega
      · have hv' : s.active v ≠ 0 := by
          have : Function.update s.active w 1 v ≠ 0 := hv
          rwa [Function.update_of_ne he] at this
        have := h.active v hv'
        omega
  have hbound : s.fd w < (s.wlistAdd w).anfdmax := by
    show s.fd w < max s.anfdmax (s.fd w + 1)
    omega
  have hflags : (s.events w &&& evIofdset).setWidth 8 ||| evAnfdReify ≠ 0 := or_ne_zero (by decide)
  obtain ⟨new, hnew⟩ := hadd.fdChange hbound hflags
  exact ⟨new, hnew.congr rfl (fun _ => rfl) (le_refl _) hnew.active⟩

theorem Queued.stop (h : s.Queued done q) (hw : s.active w ≠ 0) : (s.stop w).Grown done q := by
  have hdel : (s.wlistDel w).Queued done q := by
    refine h.congr rfl (fun fd => ?_) (le_refl _) fun v hv => ?_
    · by_cases hfd : fd = s.fd w
      · simp [wlistDel, setFd, hfd]
      · simp [wlistDel, setFd, hfd]
    · refine h.active v fun h0 => hv ?_
      show Function.update s.active w 0 v = 0
      by_cases he : v = w
      · rw [he, Function.update_self]
      · rw [Function.update_of_ne he, h0]
  exact hdel.fdChange (h.active w hw) (by decide)

section

omit [DecidableEq W]

theorem Queued.rearm (h : s.Queued done q) (hfd : fd < s.anfdmax) : (s.rearm fd).Grown done q := by
  unfold Fds.rearm
  split
  · have hset : (s.setFd fd { s.anfds fd with events := 0, emask := 0 }).Queued done q := by
      refine h.congr rfl (fun fd' => ?_) (le_refl _) h.active
      by_cases he : fd' = fd
      · simp [setFd, he]
      · simp [setFd, he]
    exact hset.fdChange hfd (or_ne_zero (by decide))
  · exact h.grown

theorem anfdmax_rearm (s : Fds W) (fd : ℕ) : (s.rearm fd).anfdmax = s.anfdmax := by
  unfold rearm
  split <;> rfl

theorem Queued.rearmAll (h : s.Queued done q) : s.rearmAll.Grown done q := by
  have hfold : ∀ (fds : List ℕ) (s : Fds W) (q : List ℕ), s.Queued done q → (∀ fd ∈ fds, fd < s.anfdmax) →
      (fds.foldl (fun s fd => s.rearm fd) s).Grown done q := by
    intro fds
    induction fds with
    | nil => exact fun s q h _ => h.grown
    | cons fd fds ih =>
      intro s q h hb
      refine (h.rearm (hb fd List.mem_cons_self)).bind fun q' h' => ih _ q' h' fun fd' hm => ?_
      rw [anfdmax_rearm]
      exact hb fd' (List.mem_cons_of_mem _ hm)
  exact hfold _ s q h fun fd hm => List.mem_range.mp hm

/-- The first of the queue is dealt with. -/
theorem Queued.reify (h : s.Queued done (fd :: q)) : (s.reify fd).Queued (done ++ [fd]) q := by
  obtain ⟨hnot, hnodup⟩ := List.nodup_cons.mp h.nodup
  refine ⟨?_, hnodup, ?_, fun fd' hm => h.bound fd' (List.mem_cons_of_mem _ hm), h.active⟩
  · rw [List.append_assoc]
    exact h.fdchanges
  · intro fd'
    rw [reify_reify]
    by_cases he : fd' = fd
    · subst he
      simp [hnot]
    · simpa [he] using h.mem fd'

end

end Fds

/-! ### What the loop's functions do to the queue -/

namespace Loop

section

variable {U T K : Type} [DecidableEq U] {l : Loop U T K} {done q : List ℕ}

theorem grown_evIoStart (h : l.fds.Queued done q) (w : IoW U) : (l.evIoStart w).fds.Grown done q := by
  rw [fds_evIoStart]
  split
  · exact h.grown
  · exact h.start w

theorem grown_evIoStop (h : l.fds.Queued done q) (w : IoW U) : (l.evIoStop w).fds.Grown done q := by
  rw [fds_evIoStop]
  split
  · exact h.grown
  · rename_i hw
    exact h.stop hw

theorem grown_fdKill (h : l.fds.Queued done q) (fd : ℕ) : (l.fdKill fd).fds.Grown done q :=
  fdKillLoop_induction l (P := fun l => l.fds.Grown done q) fd
    (fun _ w _ h => h.bind fun _ hq => grown_evIoStop hq w) _ h.grown

theorem fds_fdEventNocheck (l : Loop U T K) (fd : ℕ) (revents : Events) :
    (l.fdEventNocheck fd revents).fds = l.fds := by
  unfold fdEventNocheck
  generalize (l.fds.anfds fd).head = ws
  induction ws generalizing l with
  | nil => rfl
  | cons w ws ih =>
    rw [List.foldl_cons, ih]
    dsimp only
    split <;> rfl

theorem fds_fdEvent (l : Loop U T K) (fd : ℕ) (revents : Events) : (l.fdEvent fd revents).fds = l.fds := by
  unfold fdEvent
  split
  · exact fds_fdEventNocheck l fd revents
  · rfl

end

section

variable {U T : Type} [DecidableEq U] {l : Loop U T Changes.Backend} {done q : List ℕ}

section

omit [DecidableEq U]

theorem grown_backendRearm (h : l.fds.Queued done q) {fd : ℕ} (hfd : fd < l.fds.anfdmax) (how : Rearm) :
    (l.backendRearm fd how).fds.Grown done q := by
  unfold backendRearm
  cases how with
  | oneShot =>
    have hset : (l.fds.setFd fd { l.fds.anfds fd with events := 0 }).Queued done q := by
      refine h.congr rfl (fun fd' => ?_) (le_refl _) h.active
      by_cases he : fd' = fd
      · simp [Fds.setFd, he]
      · simp [Fds.setFd, he]
    exact hset.fdChange hfd (by decide)
  | port => exact h.fdChange hfd (by decide)

end

theorem grown_backendEffect (h : l.fds.Queued done q) (f : Effect) : (l.backendEffect f).fds.Grown done q := by
  cases f with
  | event fd revents =>
    unfold backendEffect
    dsimp only
    split
    · rw [fds_fdEvent]
      exact h.grown
    · exact h.grown
  | kill fd =>
    unfold backendEffect
    dsimp only
    split
    · exact grown_fdKill h fd
    · exact h.grown
  | rearm fd how =>
    unfold backendEffect
    dsimp only
    split
    · rename_i hfd
      exact grown_backendRearm h hfd how
    · exact h.grown

theorem grown_backendModify (h : l.fds.Queued done q) (fd : ℕ) (oev nev : BitVec 8) :
    (l.backendModify fd oev nev).fds.Grown done q := by
  have hfold : ∀ (fs : List Effect) (l : Loop U T Changes.Backend), l.fds.Grown done q →
      (fs.foldl backendEffect l).fds.Grown done q := by
    intro fs
    induction fs with
    | nil => exact fun _ h => h
    | cons f fs ih => exact fun l h => ih _ (h.bind fun _ hq => grown_backendEffect hq f)
  exact hfold _ _ h.grown

/-- One round of `fd_reify` deals with the first of the queue and may add to its end. -/
theorem grown_fdReifyOne {fd : ℕ} (h : l.fds.Queued done (fd :: q)) :
    (fdReifyOne backendModify l fd).fds.Grown (done ++ [fd]) q := by
  unfold fdReifyOne
  dsimp only
  cases l.fds.change fd with
  | none => exact h.reify.grown
  | some c => exact grown_backendModify (l := { l with fds := l.fds.reify fd }) h.reify fd c.1 c.2

theorem grown_fdReify (h : l.fds.Queued [] q) : ∃ q, (l.fdReify backendModify).fds.Queued [] q := by
  have hfold : ∀ (q done : List ℕ) (l : Loop U T Changes.Backend), l.fds.Grown done q →
      (q.foldl (fdReifyOne backendModify) l).fds.Grown (done ++ q) [] := by
    intro q
    induction q with
    | nil => exact fun done l h => (List.append_nil done).symm ▸ h
    | cons fd q ih =>
      rintro done l ⟨new, h⟩
      obtain ⟨n, h'⟩ := grown_fdReifyOne (q := q ++ new) h
      have := ih (done ++ [fd]) (fdReifyOne backendModify l fd) ⟨new ++ n, List.append_assoc q new n ▸ h'⟩
      rwa [List.append_assoc] at this
  obtain ⟨new, hnew⟩ := hfold q [] l h.grown
  have hq : l.fds.fdchanges = q := h.fdchanges
  refine ⟨new, ?_⟩
  unfold fdReify
  rw [hq]
  refine ⟨?_, hnew.nodup, hnew.mem, hnew.bound, hnew.active⟩
  show List.drop q.length _ = _
  rw [hnew.fdchanges]
  simp

end

end Loop

/-! ### Runs -/

namespace Changes

variable {U T : Type} [DecidableEq U] {l m : Loop U T Backend} {a : Act U} {acts : List (Act U)}

/-- The queue and the flags agree, and active watchers are on fds there is place for. -/
def Inv (l : Loop U T Backend) : Prop := l.fds.Queued [] l.fds.fdchanges

section

omit [DecidableEq U]

theorem inv_of (h : ∃ q, l.fds.Queued [] q) : Inv l := by
  obtain ⟨q, h⟩ := h
  have hq : l.fds.fdchanges = q := h.fdchanges
  unfold Inv
  rw [hq]
  exact h

theorem inv_of_grown {q : List ℕ} (h : l.fds.Grown [] q) : Inv l := inv_of ⟨_, h.choose_spec⟩

theorem inv_fresh (h : Fresh l) : Inv l where
  fdchanges := rfl
  nodup := by
    rw [h.fdchanges]
    exact List.nodup_nil
  mem fd := by simp [h.fdchanges, h.reify]
  bound fd hf := by simp [h.fdchanges] at hf
  active w hw := absurd (h.active w) hw

end

theorem Inv.agree (h : Inv l) : Agree l where
  mem := h.mem
  nodup := h.nodup
  length := by
    have hsub : l.fds.fdchanges ⊆ List.range l.fds.anfdmax := fun fd hf => List.mem_range.mpr (h.bound fd hf)
    simpa using (h.nodup.subperm hsub).length_le
  quiet fd hf revents := by
    unfold Loop.fdEvent
    rw [if_neg ((h.mem fd).mp hf)]

theorem inv_step (h : Inv l) (hf : Flagged l a) (hs : step l a = some m) : Inv m := by
  cases a with
  | ioSet w fd events =>
    simp only [step] at hs
    split at hs
    · cases hs
    · rename_i hw
      cases hs
      exact h.evIoSet (not_not.mp hw) fd events
  | ioStart w =>
    cases hs
    exact inv_of_grown (Loop.grown_evIoStart h w)
  | ioStop w =>
    cases hs
    exact inv_of_grown (Loop.grown_evIoStop h w)
  | ioModify w events =>
    cases hs
    exact inv_of ⟨_, h.modify events (hf w events rfl)⟩
  | fdRearmAll =>
    cases hs
    exact inv_of_grown h.rearmAll
  | effect f =>
    cases hs
    exact inv_of_grown (Loop.grown_backendEffect h f)
  | fdReify =>
    cases hs
    exact inv_of (Loop.grown_fdReify h)

/-- **The queue of changes has no duplicates.** In every state of a run from a new loop the queue and the flags
agree, exactly if every `ev_io_modify` of the run that changes an active watcher finds the fd flagged. -/
theorem changes_agree {l₀ : Loop U T Backend} (h₀ : Fresh l₀) (hrun : Runs l₀ acts l) :
    (∀ past later, acts = past ++ later → ∀ m, Runs l₀ past m → Agree m) ↔
      ∀ past a later, acts = past ++ a :: later → ∀ m, Runs l₀ past m → Flagged m a := by
  refine ⟨fun h => ?_, fun h => ?_⟩
  · rintro past a later rfl m hm w events rfl hw hne
    intro hr
    obtain ⟨m', hm', hrest⟩ := hrun.of_append
    obtain rfl := Run.unique hm' hm
    cases hrest with
    | cons hstep _ =>
      have ha := h (past ++ [.ioModify w events]) later (by simp) _ (hm.snoc hstep)
      cases hstep
      obtain ⟨hin, hzero⟩ := Fds.modify_unflagged hw hne hr
      exact (ha.mem _).mp hin hzero
  · intro past later he m hm
    have hinv : Inv m := by
      refine Run.guarded (I := fun _ l => Inv l) (G := fun _ l a => Flagged l a) ?_ (inv_fresh h₀) ?_ hm
      · exact fun _ _ _ _ _ hi hf hs => inv_step hi hf hs
      · intro past' a later' he' m' hm'
        exact h past' a (later' ++ later) (by rw [he, he', List.append_assoc, List.cons_append]) m' hm'
    exact hinv.agree

/-- A watcher is started, and its mask changed before the next `fd_reify`. -/
theorem changes_agree_flagged : ∃ l₀ l : Loop Bool ℤ Backend, Fresh l₀ ∧
    Runs l₀ [.ioSet (.user true) 3 evRead, .ioStart (.user true), .ioModify (.user true) evWrite] l ∧ Agree l ∧
    l.fds.fdchanges = [3] := by
  let l₀ : Loop Bool ℤ Backend := Loop.init .epoll true false true ⟨fun _ => [], 0⟩
  have h₀ : Fresh l₀ := ⟨fun _ => rfl, rfl, fun _ => rfl⟩
  have hx : (execFrom step l₀ [.ioSet (.user true) 3 evRead, .ioStart (.user true)]).bind (fun m =>
      (step m (.ioModify (.user true) evWrite)).map fun l =>
        ((m.fds.anfds 3).reify, m.fds.fd (.user true), l.fds.fdchanges)) = some (0x81, 3, [3]) := by
    decide +kernel
  obtain ⟨m, hm, hx⟩ := Option.bind_eq_some_iff.mp hx
  obtain ⟨l, hl, hx⟩ := Option.map_eq_some_iff.mp hx
  simp only [Prod.mk.injEq] at hx
  obtain ⟨hr, hfd, hq⟩ := hx
  have hrun := (Run.iff_execFrom.mpr hm).snoc hl
  refine ⟨l₀, l, h₀, hrun, (changes_agree h₀ hrun).mpr ?_ _ [] rfl l hrun, hq⟩
  intro past a later he m' hm' w events ha
  subst ha
  match past, he, hm' with
  | [_, _], he, hm' =>
    simp only [List.cons_append, List.nil_append, List.cons.injEq, Act.ioModify.injEq] at he
    obtain ⟨rfl, rfl, ⟨rfl, -⟩, -⟩ := he
    obtain rfl := Run.unique hm' (Run.iff_execFrom.mpr hm)
    intro _ _
    rw [hfd, hr]
    decide
  | _ :: _ :: _ :: _, he, _ => simp at he

/-- Two changes of an active watcher, after `fd_reify` has dealt with it: the fd is queued twice, without a
flag. -/
theorem changes_agree_twice : ∃ l₀ l : Loop Bool ℤ Backend, Fresh l₀ ∧
    Runs l₀ [.ioSet (.user true) 3 evRead, .ioStart (.user true), .fdReify, .ioModify (.user true) evWrite,
      .ioModify (.user true) evRead] l ∧ l.fds.fdchanges = [3, 3] ∧ (l.fds.anfds 3).reify = 0 ∧ ¬ Agree l := by
  have hx : (execFrom step (Loop.init .epoll true false true ⟨fun _ => [], 0⟩ : Loop Bool ℤ Backend)
      [.ioSet (.user true) 3 evRead, .ioStart (.user true), .fdReify, .ioModify (.user true) evWrite,
        .ioModify (.user true) evRead]).map (fun l => (l.fds.fdchanges, (l.fds.anfds 3).reify)) =
      some ([3, 3], 0) := by
    decide +kernel
  obtain ⟨l, hl, hx⟩ := Option.map_eq_some_iff.mp hx
  obtain ⟨hq, hr⟩ := Prod.mk.inj hx
  refine ⟨_, l, ⟨fun _ => rfl, rfl, fun _ => rfl⟩, Run.iff_execFrom.mpr hl, hq, hr, fun ha => ?_⟩
  have hn := ha.nodup
  rw [hq] at hn
  exact absurd hn (by decide)

end Changes

end Qev
