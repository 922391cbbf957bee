/-
# embed_prepare_cb on each backend

The polls of epoll and kqueue leave a ready fd registered. port and io_uring are one-shot:
their polls queue each fd they report, so that it is registered again. There
`embed_prepare_cb` goes on until a poll reports none, and for an fd that stays ready none
ever does (`embed_prepare_ends`).
-/
import Qev.Backend.EmbedLoop

namespace Qev

open Lib

/-! ### The events of a poll, one after the other -/

namespace Loop

variable {U T K A : Type} [DecidableEq U] (eff : Fds (IoW U) → A → Prop) {f : Loop U T K → A → Loop U T K}

section

omit [DecidableEq U]

theorem foldl_still (hno : ∀ l a, ¬ eff l.fds a → (f l a).fds = l.fds) (events : List A) (l : Loop U T K)
    (h : ¬ ∃ a ∈ events, eff l.fds a) : (events.foldl f l).fds = l.fds := by
  induction events generalizing l with
  | nil => rfl
  | cons a events ih =>
    rw [List.exists_mem_cons_iff, not_or] at h
    have hfds := hno l a h.1
    exact (ih (f l a) (hfds ▸ h.2)).trans hfds

/-- A poll whose events queue an fd or leave the fds alone. -/
theorem foldl_queue (hno : ∀ l a, ¬ eff l.fds a → (f l a).fds = l.fds)
    (hyes : ∀ l a, l.Wired → eff l.fds a → Fds.Later l.fds (f l a).fds ∧ (f l a).fds.fdchanges ≠ [])
    (events : List A) (l : Loop U T K) (h : l.Wired) :
    Fds.Later l.fds (events.foldl f l).fds ∧
      ((events.foldl f l).fds.fdchanges = [] ↔ l.fds.fdchanges = [] ∧ ¬ ∃ a ∈ events, eff l.fds a) := by
  induction events generalizing l with
  | nil => exact ⟨.refl _, by simp⟩
  | cons a events ih =>
    rw [List.foldl_cons]
    by_cases ha : eff l.fds a
    · obtain ⟨hlater, hne⟩ := hyes l a h ha
      obtain ⟨hlater', -⟩ := ih (f l a) (Fds.Wired.later h hlater)
      have hex : ∃ b ∈ a :: events, eff l.fds b := ⟨a, List.mem_cons_self, ha⟩
      exact ⟨hlater.trans hlater', fun he => absurd he (hlater'.ne_nil hne), fun he => absurd hex he.2⟩
    · have hfds := hno l a ha
      have := ih (f l a) (h.of_fds hfds)
      rw [hfds] at this
      simpa [ha] using this

theorem foldl_killing (hf : ∀ l a, l.fds.Linked → Fds.Killing l.fds (f l a).fds) (events : List A) (l : Loop U T K)
    (h : l.fds.Linked) : Fds.Killing l.fds (events.foldl f l).fds := by
  induction events generalizing l with
  | nil => exact .refl _
  | cons a events ih => exact (hf l a h).trans (ih _ ((hf l a h).linked h))

theorem foldl_alike (hf : ∀ l a, Fds.Alike l.fds (f l a).fds) (events : List A) (l : Loop U T K) :
    Fds.Alike l.fds (events.foldl f l).fds := by
  induction events generalizing l with
  | nil => exact .refl _
  | cons a events ih => exact (hf l a).trans (ih _)

theorem alike_fds {l m : Loop U T K} (h : m.fds = l.fds) : Fds.Alike l.fds m.fds := h ▸ .refl _

end

end Loop

/-! ### epoll -/

namespace Epoll

variable {U T : Type} [DecidableEq U] {l : Loop U T Kernel}

/-- `epoll_modify` kills the fd, or touches no watcher and queues nothing. -/
theorem epollModify_cases (l : Loop U T Kernel) (fd : ℕ) (oev nev : BitVec 8) :
    (¬ Unusable fd oev nev l ∧ Fds.Alike l.fds (l.epollModify fd oev nev).fds) ∨
    (Unusable fd oev nev l ∧ ∃ m : Loop U T Kernel, Fds.Alike l.fds m.fds ∧
      Fds.Alike (m.fdKill fd).fds (l.epollModify fd oev nev).fds) := by
  by_cases hn : nev = 0
  · unfold Loop.epollModify
    rw [if_pos hn]
    exact .inl ⟨fun h => h.1 hn, .refl _⟩
  · obtain ⟨l₁, hl₁⟩ : ∃ l₁, l₁ = (l.setEmask fd nev).setEgen fd ((l.fds.anfds fd).egen + 1) := ⟨_, rfl⟩
    obtain ⟨-, -, heq⟩ := Loop.epollModify_eq fd oev hn hl₁
    have ha₁ : Fds.Alike l.fds l₁.fds := by
      rw [hl₁]
      exact (Loop.alike_setEmask fd nev).trans (Loop.alike_setEgen fd _)
    have hun : Unusable fd oev nev l ↔ (register fd oev nev (l.fds.anfds fd).emask
        ⟨kernelMask nev, fd, BitVec.ofNat 32 ((l.fds.anfds fd).egen + 1)⟩ l.kernel).2 = .kill :=
      and_iff_right hn
    rw [hun, heq]
    generalize register fd oev nev (l.fds.anfds fd).emask
      ⟨kernelMask nev, fd, BitVec.ofNat 32 ((l.fds.anfds fd).egen + 1)⟩ l.kernel = q
    obtain ⟨k, out⟩ := q
    cases out with
    | done => exact .inl ⟨(fun h => by cases h), ha₁⟩
    | eperm => exact .inl ⟨(fun h => by cases h), ha₁.trans (Loop.alike_setEmask fd _)⟩
    | decEgen =>
      exact .inl ⟨(fun h => by cases h), ha₁.trans (Loop.alike_setEgen (l := { l₁ with kernel := k }) fd _)⟩
    | kill => exact .inr ⟨rfl, { l₁ with kernel := k }, ha₁, Loop.alike_setEgen fd _⟩

theorem alike_epollEvent (l : Loop U T Kernel) (ev : EpollEvent) : Fds.Alike l.fds (l.epollEvent ev).fds := by
  unfold Loop.epollEvent
  split
  · exact .refl _
  · split
    · exact .refl _
    · dsimp only
      split
      · refine (Loop.alike_setEmask ev.fd (l.fds.anfds ev.fd).events).trans ?_
        generalize epollCtl (if (l.fds.anfds ev.fd).events ≠ 0 then .mod else .del) ev.fd
          { ev with events := kernelMask (l.fds.anfds ev.fd).events } _ = q
        obtain ⟨k, err⟩ := q
        cases err with
        | none => exact Loop.alike_fds (Loop.fds_fdEvent ..)
        | some e => exact .refl _
      · exact Loop.alike_fds (Loop.fds_fdEvent ..)

theorem alike_epollEperm (l : Loop U T Kernel) (i : ℕ) : Fds.Alike l.fds (l.epollEperm i).fds := by
  unfold Loop.epollEperm
  cases l.kernel.eperms[i]? with
  | none => exact .refl _
  | some fd =>
    dsimp only
    split
    · exact Loop.alike_fds (Loop.fds_fdEvent ..)
    · exact Loop.alike_setEmask fd 0

theorem alike_epollPoll (l : Loop U T Kernel) (evs : List EpollEvent) : Fds.Alike l.fds (l.epollPoll evs).fds := by
  unfold Loop.epollPoll
  exact (Loop.foldl_alike alike_epollEvent evs l).trans (Loop.foldl_alike alike_epollEperm _ _)

/-- The epoll backend. A call of `epoll_wait` that fails reports no events. -/
def polling : Polling U T Kernel (List EpollEvent) Unit where
  answers _ k := k
  modify := Loop.epollModify
  poll evs l := l.epollPoll evs
  fork _ l := l.epollFork
  refuses := Unusable
  rearms _ _ := False
  level := True
  modify_killing l fd oev nev hl := by
    rcases epollModify_cases l fd oev nev with ⟨-, ha⟩ | ⟨-, m, hm, ha⟩
    · exact ha.killing
    · exact (hm.killing.trans (Loop.killing_fdKill (hm.killing.linked hl) fd)).trans ha.killing
  modify_queue l fd oev hl hr := by
    rcases epollModify_cases l fd oev (l.fds.wanted fd) with ⟨hno, ha⟩ | ⟨hyes, m, hm, ha⟩
    · rw [ha.fdchanges]
      exact ⟨fun h => absurd rfl h, fun h => absurd h hno⟩
    · refine ⟨fun _ => hyes, fun _ => ?_⟩
      rw [ha.fdchanges, ← hm.fdchanges, Loop.fdchanges_fdKill (hm.killing.linked hl) ((hm.reify fd).trans hr),
        hm.head]
      exact fun hnil => hyes.1 (Fds.wanted_nil hnil)
  poll_later evs l _ := (alike_epollPoll l evs).killing.toLater
  poll_queue evs l _ := by
    rw [(alike_epollPoll l evs).fdchanges]
    simp
  poll_killing _ evs l _ := (alike_epollPoll l evs).killing
  fork_wired _ _ h := Fds.Wired.rearmAll h

end Epoll

/-! ### kqueue -/

namespace Kqueue

variable {U T : Type} [DecidableEq U]

/-- An error that makes `kqueue_poll` give up an fd that has watchers. -/
def Unusable (s : Fds (IoW U)) : Kevent → Prop
  | .event _ _ => False
  | .error fd err => fd < s.anfdmax ∧ (s.anfds fd).events ≠ 0 ∧ err.fatal = true ∧ (s.anfds fd).head ≠ []

section

omit [DecidableEq U]

theorem fds_kqueueChange (c : Prop) [Decidable c] (fd : ℕ) (filter : Filter) (add : Bool) (l : Loop U T Kernel) :
    (if c then l.kqueueChange fd filter add else l).fds = l.fds := by
  split
  · rfl
  · rfl

theorem fds_kqueueModify (fd : ℕ) (oev nev : BitVec 8) (l : Loop U T Kernel) :
    (l.kqueueModify fd oev nev).fds = l.fds := by
  unfold Loop.kqueueModify
  dsimp only
  rw [fds_kqueueChange, fds_kqueueChange, fds_kqueueChange, fds_kqueueChange]

end

/-- An error that makes `kqueue_poll` give up the fd kills it; all else leaves the fds alone. -/
theorem kqueueEvent_cases (l : Loop U T Kernel) (ev : Kevent) :
    (l.kqueueEvent ev).fds = l.fds ∧ ¬ Unusable l.fds ev ∨
      ∃ fd, l.kqueueEvent ev = l.fdKill fd ∧ (Unusable l.fds ev ↔ (l.fds.anfds fd).head ≠ []) := by
  cases ev with
  | event fd filter =>
    refine .inl ⟨?_, id⟩
    show (if l.fds.anfdmax ≤ fd then l else l.fdEvent fd filter.events).fds = l.fds
    split
    · rfl
    · exact Loop.fds_fdEvent ..
  | error fd err =>
    unfold Loop.kqueueEvent Unusable
    dsimp only
    by_cases hmax : l.fds.anfdmax ≤ fd
    · rw [if_pos hmax]
      exact .inl ⟨rfl, fun h => absurd h.1 (not_lt.mpr hmax)⟩
    · rw [if_neg hmax]
      by_cases hev : (l.fds.anfds fd).events = 0
      · rw [if_pos hev]
        exact .inl ⟨rfl, fun h => h.2.1 hev⟩
      · rw [if_neg hev]
        have hiff : err.fatal = true → (fd < l.fds.anfdmax ∧ (l.fds.anfds fd).events ≠ 0 ∧ err.fatal = true ∧
            (l.fds.anfds fd).head ≠ [] ↔ (l.fds.anfds fd).head ≠ []) := fun hf =>
          ⟨fun h => h.2.2.2, fun h => ⟨not_le.mp hmax, hev, hf, h⟩⟩
        cases err with
        | enoent => exact .inl ⟨fds_kqueueModify .., fun h => by cases h.2.2.1⟩
        | ebadf valid =>
          cases valid with
          | true => exact .inl ⟨fds_kqueueModify .., fun h => by cases h.2.2.1⟩
          | false => exact .inr ⟨fd, rfl, hiff rfl⟩
        | other => exact .inr ⟨fd, rfl, hiff rfl⟩

theorem killing_kqueueEvent (l : Loop U T Kernel) (ev : Kevent) (hl : l.fds.Linked) :
    Fds.Killing l.fds (l.kqueueEvent ev).fds := by
  rcases kqueueEvent_cases l ev with ⟨hfds, -⟩ | ⟨fd, hkill, -⟩
  · exact (Loop.alike_fds hfds).killing
  · rw [hkill]
    exact Loop.killing_fdKill hl fd

theorem fds_kqueueEvent {l : Loop U T Kernel} {ev : Kevent} (h : ¬ Unusable l.fds ev) :
    (l.kqueueEvent ev).fds = l.fds := by
  rcases kqueueEvent_cases l ev with ⟨hfds, -⟩ | ⟨fd, hkill, hun⟩
  · exact hfds
  · rw [hkill, Loop.fdKill_nil (not_not.mp fun hh => h (hun.mpr hh))]

theorem kqueueEvent_unusable {l : Loop U T Kernel} {ev : Kevent} (hw : l.Wired) (h : Unusable l.fds ev) :
    Fds.Later l.fds (l.kqueueEvent ev).fds ∧ (l.kqueueEvent ev).fds.fdchanges ≠ [] := by
  refine ⟨(killing_kqueueEvent l ev hw.linked).toLater, ?_⟩
  rcases kqueueEvent_cases l ev with ⟨-, hun⟩ | ⟨fd, hkill, hun⟩
  · exact absurd h hun
  · rw [hkill]
    exact Loop.fdKill_ne_nil hw (hun.mp h)

/-- The kqueue backend. -/
def polling : Polling U T Kernel (Option (List Kevent)) Unit where
  answers _ k := k
  modify := Loop.kqueueModify
  poll evs l := l.kqueuePoll evs
  fork _ l := l.kqueueFork
  refuses _ _ _ _ := False
  rearms evs l := ∃ ev ∈ evs.getD [], Unusable l.fds ev
  level := True
  modify_killing l fd oev nev _ := (Loop.alike_fds (fds_kqueueModify fd oev nev l)).killing
  modify_queue l fd oev _ _ := by
    rw [fds_kqueueModify]
    simp
  poll_later evs l h := by
    cases evs with
    | none => exact .refl _
    | some evs =>
      exact (Loop.foldl_killing killing_kqueueEvent evs
        { l with kernel := ⟨[], l.kernel.taken ++ l.kernel.changes⟩ } h.linked).toLater
  poll_queue evs l h := by
    cases evs with
    | none => simp [Loop.kqueuePoll]
    | some evs =>
      exact (Loop.foldl_queue Unusable (fun _ _ hno => fds_kqueueEvent hno)
        (fun _ _ hw hyes => kqueueEvent_unusable hw hyes) evs { l with kernel := ⟨[], l.kernel.taken ++ l.kernel.changes⟩ } h).2
  poll_killing _ evs l h := by
    cases evs with
    | none => exact .refl _
    | some evs =>
      exact Loop.foldl_killing killing_kqueueEvent evs
        { l with kernel := ⟨[], l.kernel.taken ++ l.kernel.changes⟩ } h
  fork_wired _ _ h := Fds.Wired.rearmAll h

end Kqueue

/-! ### port -/

namespace Port

variable {U T : Type} [DecidableEq U]

/-- `port_associate` finds the fd bad. -/
def Unusable (_ : ℕ) (_ nev : BitVec 8) (l : Loop U T Kernel) : Prop :=
  nev ≠ 0 ∧ l.kernel.answers l.kernel.calls = .ebadfd

def IsFd : PortEvent → Prop
  | .fd _ _ => True
  | .other => False

theorem portModify_cases (l : Loop U T Kernel) (fd : ℕ) (oev nev : BitVec 8) :
    (l.portModify fd oev nev).fds = l.fds ∧ ¬ Unusable fd oev nev l ∨
      ∃ m : Loop U T Kernel, m.fds = l.fds ∧ l.portModify fd oev nev = m.fdKill fd ∧ Unusable fd oev nev l := by
  unfold Loop.portModify Unusable
  by_cases hn : nev = 0
  · rw [if_pos hn]
    refine .inl ⟨?_, fun h => h.1 hn⟩
    split
    · rfl
    · rfl
  · rw [if_neg hn]
    unfold Loop.portAssociateAndCheck
    cases l.kernel.answers l.kernel.calls with
    | associated => exact .inl ⟨rfl, fun h => by cases h.2⟩
    | ebadfd => exact .inr ⟨{ l with kernel := { l.kernel with calls := l.kernel.calls + 1 } }, rfl, rfl, hn, rfl⟩

theorem portEvent_cases (l : Loop U T Kernel) (ev : PortEvent) :
    l.portEvent ev = l ∧ ¬ IsFd ev ∨
      ∃ fd, (l.portEvent ev).fds = l.fds.fdChange fd (evIofdset.setWidth 8) ∧ IsFd ev := by
  cases ev with
  | fd fd events =>
    refine .inr ⟨fd, ?_, trivial⟩
    show ((l.setAssoc fd none).fdEvent fd (got events)).fds.fdChange fd (evIofdset.setWidth 8) = _
    rw [Loop.fds_fdEvent]
    rfl
  | other => exact .inl ⟨rfl, id⟩

theorem portEvent_other {l : Loop U T Kernel} {ev : PortEvent} (h : ¬ IsFd ev) : l.portEvent ev = l := by
  rcases portEvent_cases l ev with ⟨he, -⟩ | ⟨fd, -, hfd⟩
  · exact he
  · exact absurd hfd h

theorem portEvent_fd {l : Loop U T Kernel} {ev : PortEvent} (hw : l.Wired) (h : IsFd ev) :
    Fds.Later l.fds (l.portEvent ev).fds ∧ (l.portEvent ev).fds.fdchanges ≠ [] := by
  rcases portEvent_cases l ev with ⟨-, hno⟩ | ⟨fd, hfds, -⟩
  · exact absurd h hno
  · rw [hfds]
    exact ⟨Fds.later_fdChange .., Fds.Wired.fdChange_ne_nil hw _ _⟩

theorem portPoll_spec (evs : List PortEvent) (l : Loop U T Kernel) (h : l.Wired) :
    Fds.Later l.fds (l.portPoll evs).fds ∧
      ((l.portPoll evs).fds.fdchanges = [] ↔ l.fds.fdchanges = [] ∧ ¬ ∃ ev ∈ evs, IsFd ev) :=
  Loop.foldl_queue (fun _ ev => IsFd ev) (fun _ _ hno => congrArg Loop.fds (portEvent_other hno))
    (fun _ _ hw hyes => portEvent_fd hw hyes) evs l h

/-- The port backend. -/
def polling : Polling U T Kernel (List PortEvent) Unit where
  answers _ k := k
  modify := Loop.portModify
  poll evs l := l.portPoll evs
  fork _ l := l.portFork
  refuses := Unusable
  rearms evs _ := ∃ ev ∈ evs, IsFd ev
  level := False
  modify_killing l fd oev nev hl := by
    rcases portModify_cases l fd oev nev with ⟨hfds, -⟩ | ⟨m, hm, hkill, -⟩
    · exact (Loop.alike_fds hfds).killing
    · rw [hkill, ← hm]
      exact Loop.killing_fdKill (hm ▸ hl) fd
  modify_queue l fd oev hl hr := by
    rcases portModify_cases l fd oev (l.fds.wanted fd) with ⟨hfds, hno⟩ | ⟨m, hm, hkill, hyes⟩
    · rw [hfds]
      exact ⟨fun h => absurd rfl h, fun h => absurd h hno⟩
    · refine ⟨fun _ => hyes, fun _ => ?_⟩
      rw [hkill, ← hm, Loop.fdchanges_fdKill (hm ▸ hl) (hm ▸ hr), hm]
      exact fun hnil => hyes.1 (Fds.wanted_nil hnil)
  poll_later evs l h := (portPoll_spec evs l h).1
  poll_queue evs l h := (portPoll_spec evs l h).2
  poll_killing h := h.elim
  fork_wired _ _ h := Fds.Wired.rearmAll h

end Port

/-! ### io_uring -/

namespace Uring

variable {U T : Type} [DecidableEq U]

/-- A completion that ends the current poll of an fd: with an event, with none or cancelled; or with `EBADF`,
and the fd has watchers. -/
def Ends (s : Fds (IoW U)) : Cqe → Prop
  | .removed => False
  | .poll fd gen res =>
    fd < s.anfdmax ∧ BitVec.ofNat 32 (s.anfds fd).egen = gen ∧
      match res with
      | .ebadf => (s.anfds fd).head ≠ []
      | .ended => True
      | .error => False
      | .events events => Loop.got events ≠ 0

section

omit [DecidableEq U]

theorem alike_iouringModify (l : Loop U T Kernel) (fd : ℕ) (oev nev : BitVec 8) :
    Fds.Alike l.fds (l.iouringModify fd oev nev).fds := by
  have hegen : ∀ egen, Fds.Alike l.fds (l.fds.setEgen fd egen) := fun egen =>
    Fds.alike_setFd l.fds fd { l.fds.anfds fd with egen := egen } rfl rfl rfl
  unfold Loop.iouringModify
  by_cases ho : oev ≠ 0
  · rw [if_pos ho]
    obtain ⟨k, b⟩ := l.kernel.ask (.pollRemove fd (l.gen fd))
    cases b with
    | true =>
      dsimp only
      split
      · exact hegen _
      · exact hegen _
    | false =>
      dsimp only
      rw [if_neg (by simp)]
      exact .refl _
  · rw [if_neg ho]
    dsimp only
    split
    · exact .refl _
    · exact .refl _

theorem later_iouringRearm (l : Loop U T Kernel) (h : l.Wired) (fd : ℕ) :
    Fds.Later l.fds (l.iouringRearm fd).fds ∧ (l.iouringRearm fd).fds.fdchanges ≠ [] := by
  have hother : ∀ fd', ((l.fds.setFd fd { l.fds.anfds fd with events := 0 }).anfds fd').head = (l.fds.anfds fd').head ∧
      ((l.fds.setFd fd { l.fds.anfds fd with events := 0 }).anfds fd').reify = (l.fds.anfds fd').reify := by
    intro fd'
    by_cases hfd : fd' = fd
    · simp [Fds.setFd, hfd]
    · simp [Fds.setFd, hfd]
  have hset : Fds.Later l.fds (l.fds.setFd fd { l.fds.anfds fd with events := 0 }) :=
    ⟨fun hl => hl.congr (fun fd' => (hother fd').1) rfl rfl, fun _ => id, [], (List.append_nil _).symm,
      fun fd' hr => .inl ((hother fd').2 ▸ hr)⟩
  exact ⟨hset.trans (Fds.later_fdChange ..), Fds.Wired.fdChange_ne_nil (Fds.Wired.later h hset) _ _⟩

end

theorem iouringCqe_still {l : Loop U T Kernel} {cqe : Cqe} (h : ¬ Ends l.fds cqe) : l.iouringCqe cqe = l := by
  cases cqe with
  | removed => rfl
  | poll fd gen res =>
    unfold Loop.iouringCqe
    dsimp only
    by_cases hmax : l.fds.anfdmax ≤ fd
    · rw [if_pos hmax]
    · rw [if_neg hmax]
      by_cases hgen : l.gen fd = gen
      · rw [if_neg (not_not.mpr hgen)]
        have hres : ¬ _ := fun hres => h ⟨not_le.mp hmax, hgen, hres⟩
        cases res with
        | ebadf => exact Loop.fdKill_nil (not_not.mp hres)
        | ended => exact absurd trivial hres
        | error => rfl
        | events events => exact if_neg hres
      · rw [if_pos hgen]

theorem iouringCqe_ends {l : Loop U T Kernel} {cqe : Cqe} (hw : l.Wired) (h : Ends l.fds cqe) :
    Fds.Later l.fds (l.iouringCqe cqe).fds ∧ (l.iouringCqe cqe).fds.fdchanges ≠ [] := by
  cases cqe with
  | removed => exact h.elim
  | poll fd gen res =>
    obtain ⟨hmax, hgen, hres⟩ := h
    unfold Loop.iouringCqe
    dsimp only
    rw [if_neg (not_le.mpr hmax), if_neg (not_not.mpr (show l.gen fd = gen from hgen))]
    cases res with
    | ebadf => exact ⟨(Loop.killing_fdKill hw.linked fd).toLater, Loop.fdKill_ne_nil hw hres⟩
    | ended => exact later_iouringRearm l hw fd
    | error => exact hres.elim
    | events events =>
      dsimp only
      rw [if_pos (show Loop.got events ≠ 0 from hres)]
      have hfds := Loop.fds_fdEvent l fd ((Loop.got events).setWidth 32)
      have := later_iouringRearm (l.fdEvent fd ((Loop.got events).setWidth 32)) (hw.of_fds hfds) fd
      rwa [hfds] at this

theorem iouringCqDrain_spec (cqes : List Cqe) (l : Loop U T Kernel) (h : l.Wired) :
    Fds.Later l.fds (l.iouringCqDrain cqes).fds ∧
      ((l.iouringCqDrain cqes).fds.fdchanges = [] ↔
        l.fds.fdchanges = [] ∧ ¬ ∃ cqe ∈ cqes.take cqDrainBudget, Ends l.fds cqe) :=
  Loop.foldl_queue Ends (fun _ _ hno => congrArg Loop.fds (iouringCqe_still hno))
    (fun _ _ hw hyes => iouringCqe_ends hw hyes) _ l h

/-- The kernel has answered every `io_uring_enter` of the poll, and some completion ends the current poll of an
fd. -/
def Rearms (drains : List (List Cqe)) (l : Loop U T Kernel) : Prop :=
  l.kernel.sq.pollSubmit l.kernel.answers ≠ none ∧
    ∃ cqes ∈ drains.take 2, ∃ cqe ∈ cqes.take cqDrainBudget, Ends l.fds cqe

theorem iouringPoll_spec (drains : List (List Cqe)) (l : Loop U T Kernel) (h : l.Wired) :
    Fds.Later l.fds (l.iouringPoll drains).fds ∧
      ((l.iouringPoll drains).fds.fdchanges = [] ↔ l.fds.fdchanges = [] ∧ ¬ Rearms drains l) := by
  unfold Loop.iouringPoll Rearms
  cases hp : l.kernel.sq.pollSubmit l.kernel.answers with
  | none => exact ⟨.refl _, by simp⟩
  | some r =>
    obtain ⟨q, as⟩ := r
    dsimp only
    obtain ⟨m, hm⟩ : ∃ m : Loop U T Kernel, m = { l with kernel := { l.kernel with sq := q, answers := as } } :=
      ⟨_, rfl⟩
    have hfds : m.fds = l.fds := by rw [hm]
    have hdrain : ∀ (l : Loop U T Kernel) (cqes : List Cqe), l.Wired →
        (∃ cqe ∈ cqes.take cqDrainBudget, Ends l.fds cqe) →
        Fds.Later l.fds (l.iouringCqDrain cqes).fds ∧ (l.iouringCqDrain cqes).fds.fdchanges ≠ [] := by
      intro l cqes hw hyes
      obtain ⟨hlater, hiff⟩ := iouringCqDrain_spec cqes l hw
      exact ⟨hlater, fun he => (hiff.mp he).2 hyes⟩
    have hstill : ∀ (l : Loop U T Kernel) (cqes : List Cqe), (¬ ∃ cqe ∈ cqes.take cqDrainBudget, Ends l.fds cqe) →
        (l.iouringCqDrain cqes).fds = l.fds := fun l cqes hno =>
      Loop.foldl_still Ends (fun _ _ hno => congrArg Loop.fds (iouringCqe_still hno)) _ l hno
    have hdrains := Loop.foldl_queue (fun s cqes => ∃ cqe ∈ cqes.take cqDrainBudget, Ends s cqe) hstill hdrain
      (drains.take 2) m (h.of_fds hfds)
    rw [← hm, ← hfds]
    exact ⟨hdrains.1, hdrains.2.trans (and_congr_right fun _ => not_congr (and_iff_right (by simp)).symm)⟩

theorem wired_iouringFork (c : Created) (l : Loop U T Kernel) (h : l.Wired) : (l.iouringFork c).Wired :=
  Fds.Wired.rearmAll (Loop.Wired.of_fds (h.renew .iouringTfdW c.tfd evRead rfl) rfl)

/-- What the kernel answers in a pass. -/
structure Report where
  answers : List Answer
  drains : List (List Cqe)

/-- The io_uring backend. -/
def polling : Polling U T Kernel Report Created where
  answers r k := { k with answers := r.answers, silent := false }
  modify := Loop.iouringModify
  poll r l := l.iouringPoll r.drains
  fork c l := l.iouringFork c
  refuses _ _ _ _ := False
  rearms r l := Rearms r.drains l
  level := False
  modify_killing l fd oev nev _ := (alike_iouringModify l fd oev nev).killing
  modify_queue l fd oev _ _ := by
    rw [(alike_iouringModify l fd oev (l.fds.wanted fd)).fdchanges]
    simp
  poll_later r l h := (iouringPoll_spec r.drains l h).1
  poll_queue r l h := (iouringPoll_spec r.drains l h).2
  poll_killing h := h.elim
  fork_wired c l h := wired_iouringFork c l h

end Uring

/-! ### The backends that can be embedded -/

/-- `ev_embeddable_backends`, on a Linux that is not too old for epoll. -/
def evEmbeddableBackends : List Backend := [.epoll, .kqueue, .port, .iouring]

/-- One of them. -/
inductive Embeddable
  | epoll
  | kqueue
  | port
  | iouring
  deriving DecidableEq

namespace Embeddable

def backend : Embeddable → Backend
  | .epoll => .epoll
  | .kqueue => .kqueue
  | .port => .port
  | .iouring => .iouring

theorem mem_evEmbeddableBackends (b : Backend) : b ∈ evEmbeddableBackends ↔ ∃ e : Embeddable, e.backend = b := by
  constructor
  · intro h
    simp only [evEmbeddableBackends, List.mem_cons, List.not_mem_nil, or_false] at h
    rcases h with rfl | rfl | rfl | rfl
    · exact ⟨.epoll, rfl⟩
    · exact ⟨.kqueue, rfl⟩
    · exact ⟨.port, rfl⟩
    · exact ⟨.iouring, rfl⟩
  · rintro ⟨e, rfl⟩
    cases e <;> simp [backend, evEmbeddableBackends]

def Kernel : Embeddable → Type
  | .epoll => Epoll.Kernel
  | .kqueue => Kqueue.Kernel
  | .port => Port.Kernel
  | .iouring => Uring.Kernel

def Report : Embeddable → Type
  | .epoll => List Epoll.EpollEvent
  | .kqueue => Option (List Kqueue.Kevent)
  | .port => List Port.PortEvent
  | .iouring => Uring.Report

/-- What is opened anew in a new process. -/
def Opened : Embeddable → Type
  | .iouring => Uring.Created
  | _ => Unit

def polling (U T : Type) [DecidableEq U] : (b : Embeddable) → Polling U T b.Kernel b.Report b.Opened
  | .epoll => Epoll.polling
  | .kqueue => Kqueue.polling
  | .port => Port.polling
  | .iouring => Uring.polling

end Embeddable

/-! ### When embed_prepare_cb ends -/

namespace Polling

variable {U T K R F : Type} [DecidableEq U] {B : Polling U T K R F} {l : Loop U T K}

/-- The loops that the user's calls and the passes of `ev_run` lead to. -/
inductive Reached (B : Polling U T K R F) : Loop U T K → Prop
  | init {l : Loop U T K} (hfds : ∀ fd, l.fds.anfds fd = ⟨[], 0, 0, 0, 0⟩) (hact : ∀ w, l.fds.active w = 0) :
    Reached B l
  | ioSet {l : Loop U T K} (h : Reached B l) (w : IoW U) (fd : ℕ) (events : Events) (hw : l.fds.active w = 0) :
    Reached B (l.evIoSet w fd events)
  | ioStart {l : Loop U T K} (h : Reached B l) (w : IoW U) : Reached B (l.evIoStart w)
  | ioStop {l : Loop U T K} (h : Reached B l) (w : IoW U) : Reached B (l.evIoStop w)
  | ioModify {l : Loop U T K} (h : Reached B l) (w : IoW U) (events : Events) : Reached B (l.evIoModify w events)
  | loopFork {l : Loop U T K} (h : Reached B l) (f : Fresh F) : Reached B (B.loopFork f l)
  | fdReify {l : Loop U T K} (h : Reached B l) : Reached B (l.fdReify B.modify)
  | poll {l : Loop U T K} (h : Reached B l) (r : R) : Reached B (B.poll r l)
  | other {l m : Loop U T K} (h : Reached B l) (hm : m.fds = l.fds) : Reached B m

theorem Reached.wired (h : B.Reached l) : l.Wired := by
  induction h with
  | init hfds hact =>
    refine ⟨⟨fun fd w => ?_, fun fd => ?_⟩, ?_, fun fd hr => ?_⟩
    · simp [hfds, hact]
    · simp [hfds]
    · simp [hact]
    · rw [hfds] at hr
      exact absurd rfl hr
  | ioSet _ w fd events hw ih => exact Fds.Wired.evIoSet ih hw fd events
  | ioStart _ w ih => exact ih.evIoStart w
  | ioStop _ w ih => exact (ih.evIoStop w).1
  | ioModify _ w events ih => exact Fds.Wired.later ih (Fds.later_modify _ w events)
  | loopFork _ f ih => exact wired_loopFork ih f
  | fdReify _ ih => exact (handed ih).wired
  | poll _ r ih => exact Fds.Wired.later ih (B.poll_later r _ ih)
  | other _ hm ih => exact ih.of_fds hm

end Polling

/-! ### An fd that stays writable -/

/-- Callbacks that do nothing. -/
def Callbacks.idle (K : Type) : Callbacks Bool ℤ K := ⟨id, fun _ => rfl, fun _ => rfl, fun _ => rfl⟩

namespace Epoll

/-- The first poll reports fd 5 writable; in later rounds a prepare watcher calls `ev_break`. -/
def writable (n : ℕ) : Round Bool ℤ Kernel (List EpollEvent) Unit :=
  ⟨[⟨epollout, 5, 1⟩], .idle _, n ≠ 0, ⟨(), none, none, 0⟩, .idle _⟩

/-- A loop with a watcher that waits for fd 5 to be writable. -/
def writer : Loop Bool ℤ Kernel :=
  let l := Loop.init .epoll true false true (.init fun _ _ => .served)
  (l.evIoInit (.user false) 5 evWrite).evIoStart (.user false)

end Epoll

namespace Port

/-- Each poll reports fd 5 writable. -/
def writable (_ : ℕ) : Round Bool ℤ Kernel (List PortEvent) Unit :=
  ⟨[.fd 5 pollout], .idle _, false, ⟨(), none, none, 0⟩, .idle _⟩

/-- A loop with a watcher that waits for fd 5 to be writable. -/
def writer : Loop Bool ℤ Kernel :=
  let l := Loop.init .port true false true ⟨fun _ => none, fun _ => .associated, 0⟩
  (l.evIoInit (.user false) 5 evWrite).evIoStart (.user false)

/-- The watcher is active and its fd is to be associated again. -/
structure Waiting (l : Loop Bool ℤ Kernel) : Prop where
  queue : l.fds.fdchanges = [5]
  flagged : (l.fds.anfds 5).reify &&& evIofdset.setWidth 8 ≠ 0
  head : (l.fds.anfds 5).head = [.user false]
  events : l.fds.events (.user false) = evWrite
  iocnt : l.iocnt = 1
  postfork : l.postfork = 0
  answers : ∀ n, l.kernel.answers n = .associated

theorem Waiting.wanted {l : Loop Bool ℤ Kernel} (h : Waiting l) : l.fds.wanted 5 = Epoll.writeBit := by
  unfold Fds.wanted
  rw [h.head, List.foldl_cons, List.foldl_nil, h.events]
  rfl

/-- The fd is associated, and what is queued since is worked off. -/
theorem Waiting.reify {l : Loop Bool ℤ Kernel} (h : Waiting l) :
    ∃ k : Kernel, l.fdReify Loop.portModify = { l with fds := (l.fds.reify 5).shift 1, kernel := k } ∧
      k.assoc 5 = some pollout ∧ k.answers = l.kernel.answers := by
  have hc : l.fds.change 5 = some ((l.fds.anfds 5).events, Epoll.writeBit) := by
    rw [← h.wanted]
    unfold Fds.change
    dsimp only
    split
    · exact if_pos (by decide)
    · exact if_pos h.flagged
  refine ⟨⟨Function.update l.kernel.assoc 5 (some pollout), l.kernel.answers, l.kernel.calls + 1⟩, ?_, ?_, rfl⟩
  · unfold Loop.fdReify
    dsimp only
    rw [h.queue, List.foldl_cons, List.foldl_nil]
    unfold Loop.fdReifyOne
    dsimp only
    rw [hc]
    dsimp only
    unfold Loop.portModify
    rw [if_neg (by decide)]
    unfold Loop.portAssociateAndCheck
    dsimp only
    rw [h.answers]
    rfl
  · exact Function.update_self (5 : ℕ) (some pollout) l.kernel.assoc

theorem Waiting.round {l : Loop Bool ℤ Kernel} (h : Waiting l) (n : ℕ) :
    Waiting (polling.embedRound (writable n) l) := by
  obtain ⟨k, hk, -, hans⟩ := h.reify
  obtain ⟨m, hm⟩ : ∃ m : Loop Bool ℤ Kernel, m = { l with fds := (l.fds.reify 5).shift 1, kernel := k } := ⟨_, rfl⟩
  have hqueue : m.fds.fdchanges = [] := by
    rw [hm]
    show l.fds.fdchanges.drop 1 = []
    rw [h.queue]
    rfl
  have hagain : m.fdReify Loop.portModify = m := by
    unfold Loop.fdReify
    rw [hqueue]
    rfl
  obtain ⟨p, hp, -⟩ := (m.setAssoc 5 none).fdEvent_eq 5 (got pollout)
  have hround : polling.embedRound (writable n) l =
      { m with
        pend := p
        kernel := (m.setAssoc 5 none).kernel
        fds := m.fds.fdChange 5 (evIofdset.setWidth 8) } := by
    have hat : polling.atReify (writable n) m = m := if_neg fun hp => hp (by rw [hm]; exact h.postfork)
    show polling.evRun (writable n) (l.fdReify Loop.portModify) = _
    rw [hk, ← hm]
    unfold Polling.evRun
    rw [if_neg (show ¬ (writable n).broken = true from Bool.false_ne_true)]
    dsimp only
    rw [hat, show m.fdReify polling.modify = m from hagain, if_pos (by rw [hm]; exact h.iocnt ▸ one_ne_zero)]
    show ((m.setAssoc 5 none).fdEvent 5 (got pollout)).fdChange 5 (evIofdset.setWidth 8) = _
    rw [hp]
    rfl
  have hreify : (m.fds.anfds 5).reify = 0 := by
    rw [hm]
    exact (Fds.reify_reify l.fds 5 5).trans (if_pos rfl)
  rw [hround]
  refine ⟨?_, ?_, ?_, ?_, ?_, ?_, ?_⟩
  · show (m.fds.fdChange 5 (evIofdset.setWidth 8)).fdchanges = [5]
    rw [Fds.fdchanges_fdChange, if_pos hreify, hqueue]
    rfl
  · show ((m.fds.fdChange 5 (evIofdset.setWidth 8)).anfds 5).reify &&& evIofdset.setWidth 8 ≠ 0
    rw [Fds.reify_fdChange, if_pos rfl, hreify]
    decide
  · show ((m.fds.fdChange 5 (evIofdset.setWidth 8)).anfds 5).head = [.user false]
    rw [Fds.head_fdChange, hm]
    exact (Fds.head_reify l.fds 5 5).trans h.head
  · rw [hm]
    exact h.events
  · rw [hm]
    exact h.iocnt
  · rw [hm]
    exact h.postfork
  · intro n
    show m.kernel.answers n = _
    rw [hm]
    exact (congrFun hans n).trans (h.answers n)

theorem waiting_rounds (n : ℕ) : Waiting (rounds polling.embedRound writable writer n) := by
  induction n with
  | zero => exact ⟨by decide, by decide, by decide, by decide, by decide, by decide, fun _ => rfl⟩
  | succ n ih => exact ih.round n

end Port

open Polling

variable {U T : Type} [DecidableEq U]

/-- The loop of `embed_prepare_cb` ends exactly if it makes no round, or a round in which no `backend_modify`
finds its fd unusable and the poll, if there is one, queues no fd. On epoll and kqueue there is such a round
unless the kernel state is re-created again and again. -/
theorem embed_prepare_ends (b : Embeddable) {l : Loop U T b.Kernel} (h : (b.polling U T).Reached l)
    (rs : ℕ → Round U T b.Kernel b.Report b.Opened) :
    ((b.polling U T).EmbedPrepareEnds rs l ↔
      l.fds.fdchanges = [] ∨ ∃ n, (b.polling U T).Quiet (rs n) (rounds (b.polling U T).embedRound rs l n)) ∧
    ((b = .epoll ∨ b = .kqueue) →
      (∃ N, ∀ n, N ≤ n → ¬ (b.polling U T).Recreates (rs n) (rounds (b.polling U T).embedRound rs l n)) →
      (b.polling U T).EmbedPrepareEnds rs l) := by
  refine ⟨ends_iff_quiet h.wired rs, fun hb ⟨N, hN⟩ => ends_of_level ?_ h.wired rs hN⟩
  rcases hb with rfl | rfl
  · exact trivial
  · exact trivial

/-- On port the loop that waits for fd 5 has no quiet round; on epoll it ends, although its poll reports the fd. -/
theorem embed_prepare_ends_writable :
    (¬ ∃ n, (Embeddable.port.polling Bool ℤ).Quiet (Port.writable n)
      (rounds (Embeddable.port.polling Bool ℤ).embedRound Port.writable Port.writer n)) ∧
    (Embeddable.epoll.polling Bool ℤ).EmbedPrepareEnds Epoll.writable Epoll.writer := by
  have hport : (Embeddable.port.polling Bool ℤ).Reached Port.writer :=
    .ioStart (.ioSet (.init (fun _ => rfl) fun _ => rfl) (.user false) 5 evWrite rfl) (.user false)
  have hepoll : (Embeddable.epoll.polling Bool ℤ).Reached Epoll.writer :=
    .ioStart (.ioSet (.init (fun _ => rfl) fun _ => rfl) (.user false) 5 evWrite rfl) (.user false)
  refine ⟨fun hquiet => ?_, (embed_prepare_ends .epoll hepoll Epoll.writable).2 (.inl rfl) ⟨1, fun n hn hre => ?_⟩⟩
  · obtain ⟨n, hn⟩ := ends_iff.mp ((embed_prepare_ends .port hport Port.writable).1.mpr (.inr hquiet))
    exact hn fun hnil => absurd (hnil.symm.trans (Port.waiting_rounds n).queue) (List.cons_ne_nil 5 []).symm
  · cases n with
    | zero => exact absurd hn (by decide)
    | succ n => exact hre.1 rfl

/-- On port, the watcher's fd is associated and reported in every round, and queued again: the loop does not
end. -/
theorem embed_prepare_ends_not : ∃ (l : Loop Bool ℤ Embeddable.port.Kernel)
    (rs : ℕ → Round Bool ℤ Embeddable.port.Kernel Embeddable.port.Report Embeddable.port.Opened),
    (Embeddable.port.polling Bool ℤ).Reached l ∧
    (∀ n, (rs n).report = [.fd 5 Port.pollout] ∧
      ((rounds (Embeddable.port.polling Bool ℤ).embedRound rs l n).fdReify
        (Embeddable.port.polling Bool ℤ).modify).kernel.assoc 5 = some Port.pollout) ∧
    ¬ (Embeddable.port.polling Bool ℤ).EmbedPrepareEnds rs l := by
  refine ⟨Port.writer, Port.writable, ?_, fun n => ⟨rfl, ?_⟩, fun hends => ?_⟩
  · exact .ioStart (.ioSet (.init (fun _ => rfl) fun _ => rfl) (.user false) 5 evWrite rfl) (.user false)
  · obtain ⟨k, hk, hassoc, -⟩ := (Port.waiting_rounds n).reify
    show ((rounds Port.polling.embedRound Port.writable Port.writer n).fdReify Loop.portModify).kernel.assoc 5 = _
    rw [hk]
    exact hassoc
  · obtain ⟨n, hn⟩ := ends_iff.mp hends
    exact hn fun hnil => absurd (hnil.symm.trans (Port.waiting_rounds n).queue) (List.cons_ne_nil 5 []).symm

end Qev
