/-
# What kqueue has registered

`Inv` says of every state that the last change that is queued for a filter is what the loop wants, and that what the
kernel has is too where nothing is queued. So after a `kevent` without errors the kernel has what the loop wants
(`changelist`), but for an fd whose file was closed and whose number was opened again with none of its changes in the
queue: of that libev has to be told, by `ev_io_set` (`changelist_reopened`).
-/
import Qev.Backend.Changelist

namespace Qev
namespace Kqueue

open Lib

variable {U T : Type} [DecidableEq U]

/-! ### The invariant -/

section

variable {s t : System U T} {evs : List Kevent} {fd : ℕ}

/-- The last change that is queued for a filter is what the loop wants, and where none is queued so is what the
kernel has, but for fds that are unsaid. `evs` are errors that `kqueue_poll` has yet to come to. -/
structure Inv (s : System U T) (evs : List Kevent) : Prop where
  room : ∀ fd, (s.loop.fds.anfds fd).events ≠ 0 → fd < s.loop.fds.anfdmax
  queued : ∀ fd f b, verdict fd f s.loop.kernel.changes = some b → wants s.loop fd f = b
  extra : ∀ fd f, verdict fd f s.loop.kernel.changes = none → s.filters fd f = true → wants s.loop fd f = true
  closed : ∀ fd f, s.isOpen fd = false → s.filters fd f = false
  /-- An fd that has changes queued has one for each filter it is to have. -/
  whole : ∀ fd f, verdict fd f s.loop.kernel.changes = none → wants s.loop fd f = true →
    ∀ c ∈ s.loop.kernel.changes, c.fd ≠ fd
  held : ∀ fd f, s.isOpen fd = true → s.unsaid fd = false → verdict fd f s.loop.kernel.changes = none →
    wants s.loop fd f = true → s.filters fd f = true ∨ ∃ err, .error fd err ∈ evs

theorem has_zero (f : Filter) : has 0 f = false := by cases f <;> rfl

section

omit [DecidableEq U]

/-- The loop may change in everything but the changes and the masks. -/
theorem Inv.loop {l : Loop U T Kernel} (h : Inv s evs) (hk : l.kernel.changes = s.loop.kernel.changes)
    (he : ∀ fd, (l.fds.anfds fd).events = (s.loop.fds.anfds fd).events) (hmax : s.loop.fds.anfdmax ≤ l.fds.anfdmax) :
    Inv { s with loop := l } evs := by
  have hwants : ∀ fd f, wants l fd f = wants s.loop fd f := fun fd f => by
    unfold wants
    rw [he]
  refine ⟨fun fd hfd => ?_, fun fd f b hv => ?_, fun fd f hv => ?_, h.closed, fun fd f hv => ?_,
    fun fd f ho hu hv => ?_⟩
  · exact (h.room fd (he fd ▸ hfd)).trans_le hmax
  · rw [hk] at hv
    exact (hwants fd f).trans (h.queued fd f b hv)
  · rw [hk] at hv
    rw [hwants]
    exact h.extra fd f hv
  · rw [hk] at hv
    rw [hwants]
    show _ → ∀ c ∈ l.kernel.changes, c.fd ≠ fd
    rw [hk]
    exact h.whole fd f hv
  · rw [hk] at hv
    rw [hwants]
    exact h.held fd f ho hu hv

theorem Inv.mono {evs' : List Kevent} (h : Inv s evs) (hsub : evs ⊆ evs') : Inv s evs' :=
  ⟨h.room, h.queued, h.extra, h.closed, h.whole, fun fd f ho hu hv hw =>
    (h.held fd f ho hu hv hw).imp_right (Exists.imp fun _ hm => hsub hm)⟩

/-- `kqueue_modify` for an fd whose mask becomes `nev`. -/
theorem Inv.modify {l : Loop U T Kernel} {oev nev : BitVec 8} {unsaid : ℕ → Bool} (h : Inv s evs)
    (hroom : fd < l.fds.anfdmax)
    (hoev : oev = (s.loop.fds.anfds fd).events ∨ oev = 0 ∧ nev = (s.loop.fds.anfds fd).events)
    (hnev : (l.fds.anfds fd).events = nev)
    (he : ∀ fd', fd' ≠ fd → (l.fds.anfds fd').events = (s.loop.fds.anfds fd').events)
    (hk : l.kernel.changes = s.loop.kernel.changes ++ modification fd oev nev)
    (hmax : s.loop.fds.anfdmax = l.fds.anfdmax) (hu : ∀ fd', fd' ≠ fd → unsaid fd' = s.unsaid fd') :
    Inv { s with loop := l, unsaid := unsaid } evs := by
  have hother : ∀ fd' f, fd' ≠ fd → verdict fd' f l.kernel.changes = verdict fd' f s.loop.kernel.changes ∧
      wants l fd' f = wants s.loop fd' f := by
    intro fd' f hne
    refine ⟨?_, congrArg (has · f) (he fd' hne)⟩
    rw [hk, verdict_append, verdict_modification, if_neg hne.symm]
    exact Option.none_or
  have hself : ∀ f, wants l fd f = has nev f := fun f => congrArg (has · f) hnev
  have hverdict : ∀ f, verdict fd f l.kernel.changes = if has nev f then some true
      else if oev ≠ nev ∧ has oev f then some false else verdict fd f s.loop.kernel.changes := by
    intro f
    rw [hk, verdict_append, verdict_modification, if_pos rfl]
    split
    · rfl
    · split
      · rfl
      · exact Option.none_or
  -- where nothing new is queued the loop wanted the filter neither before nor now
  have hold : ∀ f, has nev f = false → ¬ (oev ≠ nev ∧ has oev f) → wants s.loop fd f = false := by
    intro f hn hno
    rcases hoev with ho | ⟨-, ho⟩
    · refine Bool.eq_false_iff.mpr fun hc => ?_
      have hhas : has oev f = true := by rw [ho]; exact hc
      have hne : oev ≠ nev := fun hc => by rw [hc, hn] at hhas; cases hhas
      exact hno ⟨hne, hhas⟩
    · rw [ho] at hn
      exact hn
  -- a filter that is wanted and has no change in the queue is another fd's
  have hne : ∀ fd' f, verdict fd' f l.kernel.changes = none → wants l fd' f = true → fd' ≠ fd := by
    intro fd' f hv hw hc
    subst hc
    rw [hverdict, if_pos ((hself f).symm.trans hw)] at hv
    cases hv
  refine ⟨fun fd' hfd => ?_, fun fd' f b hv => ?_, fun fd' f hv hF => ?_, h.closed, fun fd' f hv hw => ?_,
    fun fd' f ho hun hv hw => ?_⟩
  · by_cases hne : fd' = fd
    · rw [hne]
      exact hroom
    · exact hmax ▸ h.room fd' (he fd' hne ▸ hfd)
  · by_cases hne : fd' = fd
    · subst hne
      have hv : verdict fd' f l.kernel.changes = some b := hv
      rw [hverdict] at hv
      show wants l fd' f = b
      rw [hself]
      cases hn : has nev f with
      | true =>
        rw [hn, if_pos rfl] at hv
        exact Option.some.inj hv
      | false =>
        rw [hn, if_neg Bool.false_ne_true] at hv
        split at hv
        · exact Option.some.inj hv
        · rename_i hno
          exact (hold f hn hno).symm.trans (h.queued fd' f b hv)
    · have hv : verdict fd' f l.kernel.changes = some b := hv
      rw [(hother fd' f hne).1] at hv
      exact (hother fd' f hne).2.trans (h.queued fd' f b hv)
  · by_cases hne : fd' = fd
    · subst hne
      have hv : verdict fd' f l.kernel.changes = none := hv
      rw [hverdict] at hv
      split at hv
      · cases hv
      · rename_i hn
        split at hv
        · cases hv
        · rename_i hno
          have hw := h.extra fd' f hv hF
          rw [hold f (Bool.eq_false_iff.mpr hn) hno] at hw
          cases hw
    · have hv : verdict fd' f l.kernel.changes = none := hv
      rw [(hother fd' f hne).1] at hv
      exact (hother fd' f hne).2.trans (h.extra fd' f hv hF)
  · have hne := hne fd' f hv hw
    have hv : verdict fd' f l.kernel.changes = none := hv
    have hw : wants l fd' f = true := hw
    rw [(hother fd' f hne).1] at hv
    rw [(hother fd' f hne).2] at hw
    show ∀ c ∈ l.kernel.changes, c.fd ≠ fd'
    rw [hk]
    intro c hc
    rcases List.mem_append.mp hc with hc | hc
    · exact h.whole fd' f hv hw c hc
    · rw [mem_modification hc]
      exact hne.symm
  · have hne := hne fd' f hv hw
    have hv : verdict fd' f l.kernel.changes = none := hv
    have hw : wants l fd' f = true := hw
    rw [(hother fd' f hne).1] at hv
    rw [(hother fd' f hne).2] at hw
    exact h.held fd' f ho ((hu fd' hne).symm.trans hun) hv hw

theorem Inv.opens (h : Inv s evs) (fd : ℕ) : Inv (s.opens fd) evs := by
  unfold System.opens
  split
  · exact h
  · rename_i hclosed
    refine ⟨h.room, h.queued, h.extra, fun fd' f ho => ?_, h.whole, fun fd' f ho hu hv hw => ?_⟩
    · by_cases hne : fd' = fd
      · rw [hne]
        exact h.closed fd f (Bool.eq_false_iff.mpr hclosed)
      · exact h.closed fd' f ((Function.update_of_ne hne ..).symm.trans ho)
    · by_cases hne : fd' = fd
      · have hu : Function.update s.unsaid fd _ fd' = false := hu
        rw [hne, Function.update_self, Bool.or_eq_false_iff, Bool.not_eq_false'] at hu
        obtain ⟨c, hc, hcfd⟩ := List.any_eq_true.mp hu.2
        rw [hne] at hv hw
        exact absurd (of_decide_eq_true hcfd) (h.whole fd f hv hw c hc)
      · have ho : s.isOpen fd' = true := (Function.update_of_ne hne ..).symm.trans ho
        have hu : s.unsaid fd' = false := (Function.update_of_ne hne ..).symm.trans hu
        exact h.held fd' f ho hu hv hw

theorem Inv.opened (h : Inv s evs) (opened : List ℕ) : Inv (opened.foldl System.opens s) evs := by
  induction opened generalizing s with
  | nil => exact h
  | cons fd opened ih => exact ih (h.opens fd)

theorem Inv.closes (h : Inv s evs) (fd : ℕ) : Inv (s.closes fd) evs := by
  have hfilters : ∀ fd' f, (s.closes fd).filters fd' f = if fd' = fd then false else s.filters fd' f := by
    intro fd' f
    show Function.update s.filters fd (fun _ => false) fd' f = _
    rw [Function.update_apply]
    split
    · rfl
    · rfl
  have hopen : ∀ fd', (s.closes fd).isOpen fd' = if fd' = fd then false else s.isOpen fd' :=
    fun fd' => Function.update_apply ..
  refine ⟨h.room, h.queued, fun fd' f hv hF => ?_, fun fd' f ho => ?_, h.whole, fun fd' f ho hu hv hw => ?_⟩
  · rw [hfilters] at hF
    split at hF
    · cases hF
    · exact h.extra fd' f hv hF
  · rw [hopen] at ho
    rw [hfilters]
    split
    · rfl
    · rename_i hne
      rw [if_neg hne] at ho
      exact h.closed fd' f ho
  · rw [hopen] at ho
    rw [hfilters]
    split at ho
    · cases ho
    · rename_i hne
      rw [if_neg hne]
      exact h.held fd' f ho hu hv hw

theorem Inv.reify (h : Inv s evs) (hroom : fd < s.loop.fds.anfdmax) : Inv (s.reify fd) evs := by
  have hevents : ∀ fd', ((s.loop.fds.reify fd).anfds fd').events =
      if fd' = fd then s.loop.fds.wanted fd else (s.loop.fds.anfds fd').events := by
    intro fd'
    show (Function.update s.loop.fds.anfds fd _ fd').events = _
    rw [Function.update_apply]
    split
    · rfl
    · rfl
  have hother : ∀ fd', fd' ≠ fd → ((s.loop.fds.reify fd).anfds fd').events = (s.loop.fds.anfds fd').events :=
    fun fd' hne => (hevents fd').trans (if_neg hne)
  have hself : ((s.loop.fds.reify fd).anfds fd).events = s.loop.fds.wanted fd := (hevents fd).trans (if_pos rfl)
  unfold System.reify Loop.fdReifyOne
  dsimp only
  cases hc : s.loop.fds.change fd with
  | none =>
    refine h.loop rfl (fun fd' => ?_) (le_refl s.loop.fds.anfdmax)
    by_cases hne : fd' = fd
    · rw [hne, hself]
      by_contra hdiff
      unfold Fds.change at hc
      dsimp only at hc
      rw [if_pos (Ne.symm hdiff)] at hc
      cases hc
    · exact hother fd' hne
  | some m =>
    obtain ⟨oev, nev⟩ := m
    have hm : oev = (s.loop.fds.anfds fd).events ∧ nev = s.loop.fds.wanted fd := by
      unfold Fds.change at hc
      dsimp only at hc
      rw [Option.ite_none_right_eq_some] at hc
      cases hc.2
      exact ⟨rfl, rfl⟩
    dsimp only
    rw [kqueueModify_eq]
    exact h.modify hroom (.inl hm.1) (hself.trans hm.2.symm) hother rfl rfl
      fun fd' hne => Function.update_of_ne hne ..

theorem Inv.watchers (h : Inv s evs) (m : Loop U T Kernel) : Inv (s.watchers m) evs :=
  h.loop rfl (fun _ => rfl) (le_max_left ..)

/-- The kernel takes the changes, which may stay queued. -/
theorem Inv.taken {valid : ℕ → Bool} {refused : ℕ → Option Error} {k : Kernel} (h : Inv s [])
    (hk : k.changes = s.loop.kernel.changes ∨ k.changes = [])
    (hadd : ∀ fd f, s.isOpen fd = true → verdict fd f s.loop.kernel.changes = some true →
      (kevent s.isOpen valid refused s.loop.kernel.changes s.filters).1 fd f = true ∨ ∃ err, .error fd err ∈ evs) :
    Inv { s with filters := (kevent s.isOpen valid refused s.loop.kernel.changes s.filters).1
                 loop := { s.loop with kernel := k } } evs := by
  have hnone : ∀ fd f, verdict fd f s.loop.kernel.changes = none →
      (kevent s.isOpen valid refused s.loop.kernel.changes s.filters).1 fd f = s.filters fd f :=
    fun fd f hv => kevent_eq (.inr hv)
  refine ⟨h.room, fun fd f b hv => ?_, fun fd f hv hF => ?_, fun fd f ho => ?_, fun fd f hv hw => ?_,
    fun fd f ho hu hv hw => ?_⟩
  · have hv : verdict fd f k.changes = some b := hv
    rcases hk with hk | hk
    · exact h.queued fd f b (hk ▸ hv)
    · rw [hk] at hv
      cases hv
  · have hF : (kevent s.isOpen valid refused s.loop.kernel.changes s.filters).1 fd f = true := hF
    cases hold : verdict fd f s.loop.kernel.changes with
    | none => exact h.extra fd f hold ((hnone fd f hold).symm.trans hF)
    | some b =>
      cases b with
      | true => exact h.queued fd f true hold
      | false =>
        cases ho : s.isOpen fd with
        | true =>
          rw [kevent_deleted ho hold] at hF
          cases hF
        | false =>
          rw [kevent_eq (.inl ho), h.closed fd f ho] at hF
          cases hF
  · exact (kevent_eq (.inl ho)).trans (h.closed fd f ho)
  · have hv : verdict fd f k.changes = none := hv
    show ∀ c ∈ k.changes, c.fd ≠ fd
    rcases hk with hk | hk
    · rw [hk] at hv ⊢
      exact h.whole fd f hv hw
    · rw [hk]
      exact fun c hc => absurd hc List.not_mem_nil
  · cases hold : verdict fd f s.loop.kernel.changes with
    | none =>
      refine .inl ((hnone fd f hold).trans ((h.held fd f ho hu hold hw).resolve_right fun hc => ?_))
      obtain ⟨err, hm⟩ := hc
      cases hm
    | some b =>
      have hb : b = true := (h.queued fd f b hold).symm.trans hw
      exact hadd fd f ho (hb ▸ hold)

end

theorem Inv.interrupted (h : Inv s []) : Inv s.interrupted [] :=
  h.taken (k := s.loop.kernel) (.inl rfl) fun fd f ho hv => .inl (by rw [kevent_verdict ho, hv]; rfl)

section

omit [DecidableEq U]

/-- An error is dealt with once nothing its fd wants is without a change in the queue. -/
theorem Inv.drop {ev : Kevent} (h : Inv s (ev :: evs)) (hno : ∀ fd f err, ev = .error fd err →
    s.unsaid fd = false → wants s.loop fd f = true → verdict fd f s.loop.kernel.changes ≠ none) : Inv s evs := by
  refine ⟨h.room, h.queued, h.extra, h.closed, h.whole, fun fd f ho hu hv hw => ?_⟩
  refine (h.held fd f ho hu hv hw).imp_right fun hm => ?_
  obtain ⟨err, hm⟩ := hm
  rcases List.mem_cons.mp hm with he | hm
  · exact absurd hv (hno fd f err he.symm hu hw)
  · exact ⟨err, hm⟩

/-- An fd has its requests made again. -/
theorem Inv.resubmit {err : Error} (h : Inv s (.error fd err :: evs)) (hroom : fd < s.loop.fds.anfdmax) :
    Inv { s with loop := s.loop.kqueueModify fd 0 (s.loop.fds.anfds fd).events
                 unsaid := Function.update s.unsaid fd false } evs := by
  rw [kqueueModify_eq]
  refine Inv.drop (?_ : Inv _ (.error fd err :: evs)) fun fd' f err' he _ hw => ?_
  · exact h.modify hroom (.inr ⟨rfl, rfl⟩) rfl (fun _ _ => rfl) rfl rfl fun fd' hne => Function.update_of_ne hne ..
  · cases he
    have hw : has (s.loop.fds.anfds fd).events f = true := hw
    rw [verdict_append, verdict_modification, if_pos rfl, if_pos hw]
    exact Option.some_ne_none true

/-- An event for which nothing is queued: none of its fd's requests counts any more. -/
theorem Inv.unanswered {ev : Kevent} {l : Loop U T Kernel} {unsaid : ℕ → Bool} (h : Inv s (ev :: evs))
    (hk : l.kernel = s.loop.kernel) (he : ∀ fd, (l.fds.anfds fd).events = (s.loop.fds.anfds fd).events)
    (hmax : l.fds.anfdmax = s.loop.fds.anfdmax) (hun : ∀ fd, unsaid fd = false → s.unsaid fd = false)
    (hno : ∀ fd err, ev = .error fd err → unsaid fd = false → (s.loop.fds.anfds fd).events = 0) :
    Inv { s with loop := l, unsaid := unsaid } evs := by
  have hsaid : Inv { s with unsaid := unsaid } (ev :: evs) :=
    ⟨h.room, h.queued, h.extra, h.closed, h.whole, fun fd f ho hu => h.held fd f ho (hun fd hu)⟩
  refine (hsaid.drop fun fd f err hev hu hw => ?_).loop (by rw [hk]) he hmax.ge
  have hw : has (s.loop.fds.anfds fd).events f = true := hw
  rw [hno fd err hev hu, has_zero] at hw
  cases hw

end

theorem anfdmax_fdKill (l : Loop U T Kernel) (fd : ℕ) : (l.fdKill fd).fds.anfdmax = l.fds.anfdmax := by
  refine Loop.fdKillLoop_induction (P := fun m => m.fds.anfdmax = l.fds.anfdmax) l fd (fun m w _ hm => ?_) _ rfl
  refine Eq.trans ?_ hm
  show (m.evIoStop w).fds.anfdmax = m.fds.anfdmax
  rw [Loop.fds_evIoStop]
  split
  · rfl
  · rfl

/-- The fd of an error is given up. -/
theorem Inv.killed {err : Error} (h : Inv s (.error fd err :: evs)) :
    Inv { s with loop := s.loop.fdKill fd, unsaid := Function.update s.unsaid fd true } evs := by
  refine h.unanswered (Loop.kernel_fdKill ..) (Loop.still_fdKill s.loop fd).events (anfdmax_fdKill ..)
    (fun fd' hu => ?_) fun fd' err' he hu => ?_
  · rw [Function.update_apply] at hu
    split at hu
    · cases hu
    · exact hu
  · cases he
    rw [Function.update_self] at hu
    cases hu

theorem kqueueEvent_event (l : Loop U T Kernel) (fd : ℕ) (f : Filter) :
    (l.kqueueEvent (.event fd f)).kernel = l.kernel ∧ (l.kqueueEvent (.event fd f)).fds = l.fds := by
  show (if l.fds.anfdmax ≤ fd then l else l.fdEvent fd f.events).kernel = l.kernel ∧
    (if l.fds.anfdmax ≤ fd then l else l.fdEvent fd f.events).fds = l.fds
  split
  · exact ⟨rfl, rfl⟩
  · exact ⟨Loop.kernel_fdEvent .., Loop.fds_fdEvent ..⟩

theorem kqueueEvent_error (l : Loop U T Kernel) (fd : ℕ) (err : Error) : l.kqueueEvent (.error fd err) =
    if fd < l.fds.anfdmax ∧ (l.fds.anfds fd).events ≠ 0 then
      if err.fatal then l.fdKill fd else l.kqueueModify fd 0 (l.fds.anfds fd).events
    else l := by
  unfold Loop.kqueueEvent
  dsimp only
  split
  · rename_i hmax
    rw [if_neg fun h => absurd h.1 (not_lt.mpr hmax)]
  · rename_i hmax
    split
    · rename_i hz
      rw [if_neg fun h => h.2 hz]
    · rename_i hz
      rw [if_pos ⟨not_le.mp hmax, hz⟩]
      cases err with
      | enoent => rfl
      | ebadf valid => cases valid <;> rfl
      | other => rfl

theorem Inv.event {ev : Kevent} (h : Inv s (ev :: evs)) : Inv (s.event ev) evs := by
  cases ev with
  | event fd f =>
    obtain ⟨hk, hf⟩ := kqueueEvent_event s.loop fd f
    refine h.unanswered hk (fun fd' => by rw [hf]) (by rw [hf]) (fun _ hu => hu) fun fd' err he => ?_
    cases he
  | error fd err =>
    unfold System.event System.heard
    rw [kqueueEvent_error]
    dsimp only
    split
    · rename_i hheld
      split
      · rename_i hfatal
        rw [hfatal]
        exact h.killed
      · rename_i hfatal
        rw [Bool.eq_false_iff.mpr hfatal]
        exact h.resubmit hheld.1
    · rename_i hno
      refine h.unanswered rfl (fun _ => rfl) rfl (fun _ hu => hu) fun fd' err' he _ => ?_
      cases he
      by_contra hne
      exact hno ⟨h.room fd hne, hne⟩

theorem Inv.events (h : Inv s evs) : Inv (evs.foldl System.event s) [] := by
  induction evs generalizing s with
  | nil => exact h
  | cons ev evs ih => exact ih h.event

theorem Inv.answered (h : Inv s []) (refused : ℕ → Option Error) (opened : List ℕ) (evs : List (ℕ × Filter)) :
    Inv (s.answered refused opened evs) [] := by
  have htaken : Inv { s with
      filters := (s.taken refused opened).1
      loop := { s.loop with kernel := ⟨[], s.loop.kernel.taken ++ s.loop.kernel.changes⟩ } }
      (s.taken refused opened).2 :=
    h.taken (.inr rfl) fun fd f ho hv => (kevent_added ho hv).imp_right (Exists.imp fun _ => And.left)
  exact ((htaken.opened opened).mono (List.subset_append_left ..)).events


end

/-! ### Runs -/

section

variable {s t : System U T} {acts : List (Act U T)} {evs : List Kevent}

section

omit [DecidableEq U]

theorem inv_init [Inhabited U] [Zero T] : Inv (init : System U T) [] := by
  refine ⟨fun fd h => absurd rfl h, fun fd f b hv => ?_, fun fd f _ hF => ?_, fun _ _ _ => rfl,
    fun fd f _ _ c hc => ?_, fun fd f ho => ?_⟩
  · cases hv
  · cases hF
  · cases hc
  · cases ho

end

theorem inv_step {a : Act U T} (h : Inv s []) (hs : step s a = some t) : Inv t [] := by
  cases a with
  | opens fd =>
    cases hs
    exact h.opens fd
  | closes fd =>
    cases hs
    exact h.closes fd
  | reify fd =>
    unfold step at hs
    dsimp only at hs
    split at hs
    · rename_i hroom
      cases hs
      exact h.reify hroom
    · cases hs
  | watchers m =>
    cases hs
    exact h.watchers m
  | interrupted =>
    cases hs
    exact h.interrupted
  | answered refused opened evs =>
    cases hs
    exact h.answered refused opened evs

theorem inv_run (h : Inv s []) (hrun : Runs s acts t) : Inv t [] := by
  induction hrun with
  | nil => exact h
  | cons hs _ ih => exact ih (inv_step h hs)

/-! ### The queue -/

/-- All the changes there were. -/
def submitted (l : Loop U T Kernel) : List Change := l.kernel.taken ++ l.kernel.changes

section

omit [DecidableEq U]

theorem submitted_kqueueModify (fd : ℕ) (oev nev : BitVec 8) (l : Loop U T Kernel) :
    submitted (l.kqueueModify fd oev nev) = submitted l ++ modification fd oev nev := by
  rw [kqueueModify_eq]
  exact (List.append_assoc ..).symm

end

theorem submitted_kqueueEvent (l : Loop U T Kernel) (ev : Kevent) : submitted l <+: submitted (l.kqueueEvent ev) := by
  cases ev with
  | event fd f =>
    have hk : (l.kqueueEvent (.event fd f)).kernel = l.kernel := (kqueueEvent_event l fd f).1
    unfold submitted
    rw [hk]
  | error fd err =>
    rw [kqueueEvent_error]
    split
    · split
      · unfold submitted
        rw [Loop.kernel_fdKill]
      · rw [submitted_kqueueModify]
        exact List.prefix_append ..
    · exact List.prefix_rfl

/-- `kqueue_poll` drops no change. -/
theorem submitted_kqueuePoll (l : Loop U T Kernel) (r : Option (List Kevent)) :
    submitted l <+: submitted (l.kqueuePoll r) := by
  have hevents : ∀ (evs : List Kevent) (l : Loop U T Kernel),
      submitted l <+: submitted (evs.foldl Loop.kqueueEvent l) := by
    intro evs
    induction evs with
    | nil => exact fun _ => List.prefix_rfl
    | cons ev evs ih => exact fun l => (submitted_kqueueEvent l ev).trans (ih _)
  cases r with
  | none => exact List.prefix_rfl
  | some evs =>
    refine List.IsPrefix.trans ?_ (hevents evs _)
    show _ <+: submitted l ++ []
    rw [List.append_nil]

section

omit [DecidableEq U]

theorem loop_opened (s : System U T) (opened : List ℕ) : (opened.foldl System.opens s).loop = s.loop := by
  induction opened generalizing s with
  | nil => rfl
  | cons fd opened ih =>
    refine (ih _).trans ?_
    unfold System.opens
    split
    · rfl
    · rfl

end

/-- `answered` has `kqueue_poll` deal with the errors and then with the events. -/
theorem loop_answered (s : System U T) (refused : ℕ → Option Error) (opened : List ℕ) (evs : List (ℕ × Filter)) :
    (s.answered refused opened evs).loop =
      s.loop.kqueuePoll (some ((s.taken refused opened).2 ++ evs.map fun ev => .event ev.1 ev.2)) := by
  have hfold : ∀ (evs : List Kevent) (s : System U T),
      (evs.foldl System.event s).loop = evs.foldl Loop.kqueueEvent s.loop := by
    intro evs
    induction evs with
    | nil => exact fun _ => rfl
    | cons ev evs ih => exact fun s => ih (s.event ev)
  unfold System.answered Loop.kqueuePoll
  dsimp only
  rw [hfold, loop_opened]

theorem submitted_step {a : Act U T} (hs : step s a = some t) : submitted s.loop <+: submitted t.loop := by
  cases a with
  | opens fd =>
    cases hs
    unfold System.opens
    split
    · exact List.prefix_rfl
    · exact List.prefix_rfl
  | closes fd =>
    cases hs
    exact List.prefix_rfl
  | reify fd =>
    unfold step at hs
    dsimp only at hs
    split at hs
    · cases hs
      show _ <+: submitted (s.loop.fdReifyOne Loop.kqueueModify fd)
      unfold Loop.fdReifyOne
      dsimp only
      split
      · exact List.prefix_rfl
      · rw [submitted_kqueueModify]
        exact List.prefix_append ..
    · cases hs
  | watchers m =>
    cases hs
    exact List.prefix_rfl
  | interrupted =>
    cases hs
    exact submitted_kqueuePoll s.loop none
  | answered refused opened evs =>
    cases hs
    rw [loop_answered]
    exact submitted_kqueuePoll s.loop _

theorem submitted_run (hrun : Runs s acts t) : submitted s.loop <+: submitted t.loop := by
  induction hrun with
  | nil => exact List.prefix_rfl
  | cons hs _ ih => exact (submitted_step hs).trans ih

/-- Events that are not errors queue nothing. -/
theorem changes_events (s : System U T) (evs : List (ℕ × Filter)) :
    ((evs.map fun ev => Kevent.event ev.1 ev.2).foldl System.event s).loop.kernel = s.loop.kernel := by
  induction evs generalizing s with
  | nil => rfl
  | cons ev evs ih => exact (ih _).trans (kqueueEvent_event s.loop ev.1 ev.2).1

/-! ### The filter sets -/

/-- Once `kevent` has answered without errors, the kernel has for every fd the filters of the mask that was last
submitted, unless the number was opened again with none of its changes queued, or the fd was given up, and no
`kqueue_modify` has followed. The changes stay queued until then, and to take them once more changes nothing. -/
theorem changelist [Inhabited U] [Zero T] (hrun : Runs (init : System U T) acts s) :
    (∀ refused opened evs, (s.taken refused opened).2 = [] →
      ∀ fd, (s.answered refused opened evs).isOpen fd = true →
        ((s.answered refused opened evs).unsaid fd = false ∨
          ((s.answered refused opened evs).loop.fds.anfds fd).events = 0) →
        (s.answered refused opened evs).filters fd =
          has ((s.answered refused opened evs).loop.fds.anfds fd).events) ∧
      s.interrupted.loop = s.loop ∧ s.interrupted.interrupted = s.interrupted ∧
      ∀ later t, Runs s later t → submitted s.loop <+: submitted t.loop := by
  have hinv := inv_run inv_init hrun
  refine ⟨fun refused opened evs hno fd ho hun => ?_, rfl, ?_, fun later t hlater => ?_⟩
  · have ht := hinv.answered refused opened evs
    have hchanges : (s.answered refused opened evs).loop.kernel.changes = [] := by
      unfold System.answered
      dsimp only
      rw [hno, List.nil_append, changes_events, loop_opened]
    have hnone : ∀ f, verdict fd f (s.answered refused opened evs).loop.kernel.changes = none := by
      intro f
      rw [hchanges]
      rfl
    funext f
    refine Bool.eq_iff_iff.mpr ⟨fun hF => ht.extra fd f (hnone f) hF, fun hw => ?_⟩
    rcases hun with hun | hz
    · refine (ht.held fd f ho hun (hnone f) hw).resolve_right fun hc => ?_
      obtain ⟨err, hm⟩ := hc
      cases hm
    · rw [hz, has_zero] at hw
      cases hw
  · have hloop : s.loop.kqueuePoll none = s.loop := rfl
    unfold System.interrupted
    dsimp only
    rw [hloop, hloop, kevent_twice]
  · exact submitted_run hlater

end

/-- A watcher for fd 3 has been started. -/
def loop3 : Loop Bool ℕ Kernel :=
  let l : Loop Bool ℕ Kernel := Loop.init .kqueue true false true ⟨[], []⟩
  (l.evIoSet (.user true) 3 evRead).evIoStart (.user true)

/-- Its request is queued when the fd is closed and opened again; `kevent` is interrupted, and answers. -/
def acts3 : List (Act Bool ℕ) :=
  [.opens 3, .watchers loop3, .reify 3, .closes 3, .opens 3, .interrupted, .answered (fun _ => none) [] []]

theorem changelist_retried : ∃ s, Runs (init : System Bool ℕ) acts3 s ∧ s.filters 3 = has 1 ∧
    (s.answered (fun _ => none) [] []).filters 3 =
      has ((s.answered (fun _ => none) [] []).loop.fds.anfds 3).events := by
  obtain ⟨s, hs⟩ : ∃ s, execFrom step (init : System Bool ℕ) acts3 = some s := ⟨_, rfl⟩
  have hrun : Runs init acts3 s := Run.iff_execFrom.mpr hs
  have hno : (s.taken (fun _ => none) []).2 = [] ∧ (s.answered (fun _ => none) [] []).isOpen 3 = true ∧
      (s.answered (fun _ => none) [] []).unsaid 3 = false ∧ ∀ f, s.filters 3 f = has 1 f := by
    cases hs
    refine ⟨by decide, by decide, by decide, fun f => ?_⟩
    cases f with
    | read => decide
    | write => decide
  exact ⟨s, hrun, funext hno.2.2.2, (changelist hrun).1 _ [] [] hno.1 3 hno.2.1 (.inl hno.2.2.1)⟩

/-- Once the changes are taken, another file with the number goes unnoticed. -/
theorem changelist_reopened : ∃ s, Runs (init : System Bool ℕ) (acts3 ++ [.closes 3, .opens 3]) s ∧
    (s.taken (fun _ => none) []).2 = [] ∧ (s.answered (fun _ => none) [] []).isOpen 3 = true ∧
    ((s.answered (fun _ => none) [] []).loop.fds.anfds 3).head = [.user true] ∧
    ((s.answered (fun _ => none) [] []).loop.fds.anfds 3).events = 1 ∧
    (s.answered (fun _ => none) [] []).filters 3 .read = false := by
  obtain ⟨s, hs⟩ : ∃ s, execFrom step (init : System Bool ℕ) (acts3 ++ [.closes 3, .opens 3]) = some s :=
    ⟨_, rfl⟩
  refine ⟨s, Run.iff_execFrom.mpr hs, ?_⟩
  cases hs
  decide

end Kqueue
end Qev
