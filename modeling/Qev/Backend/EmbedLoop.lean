/-
# The loop of embed_prepare_cb

Before the outer loop polls, `embed_prepare_cb` has the embedded loop's changes handed to
its kernel: `while (fdchangecnt) { fd_reify; ev_run (EVRUN_NOWAIT); }`. A round works off
the queue, so what it leaves there has been queued by a `backend_modify` that found its fd
unusable, or by the poll. The loop ends exactly with a round in which neither happens
(`ends_iff_quiet`). An unusable fd loses its watchers, of which there are finitely many; so
with a backend whose poll queues nothing else the loop ends (`ends_of_level`).

What the loop relies on in a backend is in `Polling`.
-/
import Qev.Lib.While
import Qev.Backend.Placement
import Qev.Backend.Queues
import Qev.Backend.UringPass
import Qev.Loop.Changes
import Qev.Loop.Stat

namespace Qev

open Lib

/-! ### What can be queued -/

namespace Fds

variable {W : Type} [DecidableEq W] {s t u : Fds W}

/-- What `embed_prepare_cb` finds: an fd with change flags is in the queue. -/
structure Wired (s : Fds W) (queue : List ℕ) : Prop where
  linked : s.Linked
  finite : {w | s.active w ≠ 0}.Finite
  queued : ∀ fd, (s.anfds fd).reify ≠ 0 → fd ∈ queue

/-- From `s` to `t` watchers were only stopped, and fds were only queued. -/
structure Later (s t : Fds W) : Prop where
  linked : s.Linked → t.Linked
  active : ∀ w, t.active w ≠ 0 → s.active w ≠ 0
  queue : ∃ new, t.fdchanges = s.fdchanges ++ new ∧
    ∀ fd, (t.anfds fd).reify ≠ 0 → (s.anfds fd).reify ≠ 0 ∨ fd ∈ new

/-- And no fd was queued without a watcher stopped. -/
structure Killing (s t : Fds W) : Prop extends Later s t where
  stopped : t.fdchanges ≠ s.fdchanges → ∃ w, s.active w ≠ 0 ∧ t.active w = 0

section

omit [DecidableEq W]

theorem Later.refl (s : Fds W) : Later s s :=
  ⟨id, fun _ => id, [], (List.append_nil _).symm, fun _ => .inl⟩

theorem Later.trans (h : Later s t) (h' : Later t u) : Later s u := by
  obtain ⟨new, hnew, hr⟩ := h.queue
  obtain ⟨new', hnew', hr'⟩ := h'.queue
  refine ⟨h'.linked ∘ h.linked, fun w hw => h.active w (h'.active w hw), new ++ new', ?_, fun fd hfd => ?_⟩
  · rw [hnew', hnew, List.append_assoc]
  · rcases hr' fd hfd with hfd | hfd
    · exact (hr fd hfd).imp_right (List.mem_append_left _)
    · exact .inr (List.mem_append_right _ hfd)

theorem Killing.refl (s : Fds W) : Killing s s := ⟨.refl s, fun h => absurd rfl h⟩

theorem Killing.trans (h : Killing s t) (h' : Killing t u) : Killing s u := by
  refine ⟨h.toLater.trans h'.toLater, fun hne => ?_⟩
  by_cases hst : t.fdchanges = s.fdchanges
  · obtain ⟨w, hw, hw'⟩ := h'.stopped fun he => hne (he.trans hst)
    exact ⟨w, h.active w hw, hw'⟩
  · obtain ⟨w, hw, hw'⟩ := h.stopped hst
    exact ⟨w, hw, not_not.mp fun hu => h'.active w hu hw'⟩

theorem Alike.killing (h : Alike s t) : Killing s t := by
  refine ⟨⟨fun hl => ?_, fun w hw => h.active ▸ hw, [], ?_, fun fd hfd => .inl (h.reify fd ▸ hfd)⟩, fun hne => ?_⟩
  · exact hl.congr h.head h.active h.wfd
  · rw [h.fdchanges, List.append_nil]
  · exact absurd h.fdchanges hne

theorem later_fdChange (s : Fds W) (fd : ℕ) (flags : BitVec 8) : Later s (s.fdChange fd flags) := by
  refine ⟨fun hl => hl.fdChange fd flags, fun _ => id, if (s.anfds fd).reify = 0 then [fd] else [], ?_,
    fun fd' hr => ?_⟩
  · rw [fdchanges_fdChange]
    split
    · rfl
    · exact (List.append_nil _).symm
  · rw [reify_fdChange] at hr
    by_cases hfd : fd' = fd
    · by_cases h0 : (s.anfds fd).reify = 0
      · rw [if_pos h0, hfd]
        exact .inr (List.mem_singleton_self fd)
      · exact .inl (hfd ▸ h0)
    · rw [if_neg hfd] at hr
      exact .inl hr

end

theorem killing_stop (hl : s.Linked) {w : W} (hw : s.active w ≠ 0) : Killing s (s.stop w) := by
  have hdel : Later s (s.wlistDel w) := by
    refine ⟨fun _ => ?_, fun v hv => ?_, [], (List.append_nil _).symm, fun fd hr => .inl ?_⟩
    · have hstop := hl.stop w
      refine ⟨fun fd v => ?_, fun fd => ?_⟩
      · exact (head_fdChange (s.wlistDel w) (s.fd w) evAnfdReify fd) ▸ hstop.mem fd v
      · exact (head_fdChange (s.wlistDel w) (s.fd w) evAnfdReify fd) ▸ hstop.nodup fd
    · by_cases hvw : v = w
      · exact hvw ▸ hw
      · simpa [wlistDel, setFd, hvw] using hv
    · by_cases hfd : fd = s.fd w
      · simpa [wlistDel, setFd, hfd] using hr
      · simpa [wlistDel, setFd, hfd] using hr
  refine ⟨hdel.trans (later_fdChange _ _ _), fun _ => ⟨w, hw, ?_⟩⟩
  rw [active_stop, if_pos rfl]

theorem later_modify (s : Fds W) (w : W) (events : Events) : Later s (s.modify w events) := by
  unfold modify
  dsimp only
  split
  · exact .refl s
  · split
    · refine Later.trans (t := { s with events := _ }) ?_ (later_fdChange _ _ _)
      exact ⟨fun hl => hl.congr (fun _ => rfl) rfl rfl, fun _ => id, [], (List.append_nil _).symm, fun _ => .inl⟩
    · exact ⟨fun hl => hl.congr (fun _ => rfl) rfl rfl, fun _ => id, [], (List.append_nil _).symm, fun _ => .inl⟩

/-- An fd without flags is queued when its watchers are stopped. -/
theorem fdchanges_stop (s : Fds W) (w : W) :
    (s.stop w).fdchanges = if (s.anfds (s.fd w)).reify = 0 then s.fdchanges ++ [s.fd w] else s.fdchanges := by
  unfold stop
  rw [fdchanges_fdChange]
  simp [wlistDel, setFd]

namespace Wired

variable {queue : List ℕ}

section

omit [DecidableEq W]

theorem later (h : s.Wired s.fdchanges) (hst : Later s t) : t.Wired t.fdchanges := by
  obtain ⟨new, hnew, hr⟩ := hst.queue
  refine ⟨hst.linked h.linked, h.finite.subset hst.active, fun fd hfd => ?_⟩
  rw [hnew, List.mem_append]
  exact (hr fd hfd).imp_left (h.queued fd)

/-- `fd_change` leaves the queue not empty. -/
theorem fdChange_ne_nil (h : s.Wired s.fdchanges) (fd : ℕ) (flags : BitVec 8) :
    (s.fdChange fd flags).fdchanges ≠ [] :=
  List.ne_nil_of_mem (mem_fdChange h.queued fd flags)

end

theorem stop (h : s.Wired s.fdchanges) {w : W} (hw : s.active w ≠ 0) : (s.stop w).Wired (s.stop w).fdchanges :=
  h.later (killing_stop h.linked hw).toLater

theorem evIoSet (h : s.Wired s.fdchanges) {w : W} (hw : s.active w = 0) (fd : ℕ) (events : Events) :
    (s.evIoSet w fd events).Wired (s.evIoSet w fd events).fdchanges :=
  ⟨h.linked.evIoSet hw fd events, h.finite, h.queued⟩

theorem start (h : s.Wired s.fdchanges) {w : W} (hw : s.active w = 0) : (s.start w).Wired (s.start w).fdchanges := by
  have hadd : ∀ fd, ((s.wlistAdd w).anfds fd).reify = (s.anfds fd).reify := fun fd => by
    by_cases hfd : fd = s.fd w
    · simp [wlistAdd, setFd, hfd]
    · simp [wlistAdd, setFd, hfd]
  have hq : ∀ fd, ((s.wlistAdd w).anfds fd).reify ≠ 0 → fd ∈ (s.wlistAdd w).fdchanges := fun fd hfd =>
    h.queued fd (hadd fd ▸ hfd)
  refine ⟨h.linked.start hw, (h.finite.insert w).subset fun v hv => ?_, fun fd hfd => ?_⟩
  · rw [Set.mem_ofPred_eq, active_start] at hv
    by_cases hvw : v = w
    · exact .inl hvw
    · rw [if_neg hvw] at hv
      exact .inr hv
  · unfold Fds.start at hfd ⊢
    dsimp only at hfd ⊢
    rw [reify_fdChange] at hfd
    by_cases hne : fd = s.fd w
    · exact hne ▸ mem_fdChange hq _ _
    · rw [if_neg hne] at hfd
      exact sub_fdChange _ _ _ _ (hq fd hfd)

section

omit [DecidableEq W]

theorem rearm (h : s.Wired s.fdchanges) (fd : ℕ) : (s.rearm fd).Wired (s.rearm fd).fdchanges := by
  unfold Fds.rearm
  split
  · refine Wired.later (s := s.setFd fd _) ?_ (later_fdChange _ _ _)
    have hother : ∀ fd', ((s.setFd fd { s.anfds fd with events := 0, emask := 0 }).anfds fd').head =
        (s.anfds fd').head ∧ ((s.setFd fd { s.anfds fd with events := 0, emask := 0 }).anfds fd').reify =
        (s.anfds fd').reify := by
      intro fd'
      by_cases hfd : fd' = fd
      · simp [setFd, hfd]
      · simp [setFd, hfd]
    exact ⟨h.linked.congr (fun fd' => (hother fd').1) rfl rfl, h.finite, fun fd' hfd' =>
      h.queued fd' ((hother fd').2 ▸ hfd')⟩
  · exact h

theorem rearmAll (h : s.Wired s.fdchanges) : s.rearmAll.Wired s.rearmAll.fdchanges := by
  unfold Fds.rearmAll
  generalize List.range s.anfdmax = fds
  induction fds generalizing s with
  | nil => exact h
  | cons fd fds ih => exact ih (h.rearm fd)

end

end Wired

section

omit [DecidableEq W]

theorem Later.ne_nil (h : Later s t) (hs : s.fdchanges ≠ []) : t.fdchanges ≠ [] := by
  obtain ⟨new, hnew, -⟩ := h.queue
  rw [hnew]
  exact List.append_ne_nil_of_left_ne_nil hs new

end

end Fds

namespace Loop

variable {U T K : Type} [DecidableEq U] {l : Loop U T K} {fd : ℕ}

theorem killing_fdKillLoop (fd n : ℕ) (hl : l.fds.Linked) : Fds.Killing l.fds (fdKillLoop fd n l).fds := by
  refine (fdKillLoop_induction (P := fun m => m.fds.Linked ∧ Fds.Killing l.fds m.fds) l fd
    (fun m w hw hm => ?_) n ⟨hl, .refl _⟩).2
  · have hact := ((hm.1.mem fd w).mp hw).1
    have hfds : ((m.evIoStop w).evFeedEvent (.io w) (evError ||| evRead ||| evWrite)).fds = m.fds.stop w := by
      show (m.evIoStop w).fds = _
      rw [fds_evIoStop, if_neg hact]
    rw [hfds]
    exact ⟨hm.1.stop w, hm.2.trans (Fds.killing_stop hm.1 hact)⟩

theorem killing_fdKill (hl : l.fds.Linked) (fd : ℕ) : Fds.Killing l.fds (l.fdKill fd).fds := killing_fdKillLoop fd _ hl

/-- An fd without watchers is not killed. -/
theorem fdKill_nil (h : (l.fds.anfds fd).head = []) : l.fdKill fd = l := by
  unfold fdKill
  rw [h]
  rfl

/-- `fd_kill` begins by stopping the first watcher. -/
theorem fdKill_cons (hl : l.fds.Linked) {w : IoW U} {ws : List (IoW U)} (h : (l.fds.anfds fd).head = w :: ws) :
    Fds.Later (l.fds.stop w) (l.fdKill fd).fds ∧ l.fds.fd w = fd := by
  obtain ⟨hact, hfd⟩ := (hl.mem fd w).mp (h ▸ List.mem_cons_self)
  have hfds : ((l.evIoStop w).evFeedEvent (.io w) (evError ||| evRead ||| evWrite)).fds = l.fds.stop w := by
    show (l.evIoStop w).fds = _
    rw [fds_evIoStop, if_neg hact]
  refine ⟨?_, hfd⟩
  unfold fdKill
  rw [h, List.length_cons]
  unfold fdKillLoop
  rw [h]
  have hlater := (killing_fdKillLoop fd ws.length
    (l := (l.evIoStop w).evFeedEvent (.io w) (evError ||| evRead ||| evWrite)) (hfds ▸ hl.stop w)).toLater
  rwa [hfds] at hlater

/-- Killing an fd without flags queues it if it has a watcher. -/
theorem fdchanges_fdKill (hl : l.fds.Linked) (hr : (l.fds.anfds fd).reify = 0) :
    (l.fdKill fd).fds.fdchanges ≠ l.fds.fdchanges ↔ (l.fds.anfds fd).head ≠ [] := by
  cases h : (l.fds.anfds fd).head with
  | nil =>
    rw [fdKill_nil h]
    simp
  | cons w ws =>
    obtain ⟨hlater, hfd⟩ := fdKill_cons hl h
    obtain ⟨new, hnew, -⟩ := hlater.queue
    rw [Fds.fdchanges_stop, hfd, if_pos hr] at hnew
    rw [hnew, List.append_assoc]
    simp

/-- Killing an fd with a watcher leaves the queue not empty. -/
theorem fdKill_ne_nil (hw : l.fds.Wired l.fds.fdchanges) (h : (l.fds.anfds fd).head ≠ []) :
    (l.fdKill fd).fds.fdchanges ≠ [] := by
  obtain ⟨w, ws, hh⟩ := List.exists_cons_of_ne_nil h
  obtain ⟨hlater, -⟩ := fdKill_cons hw.linked hh
  refine hlater.ne_nil ?_
  rw [Fds.fdchanges_stop]
  split
  · simp
  · rename_i hr
    exact List.ne_nil_of_mem (hw.queued _ hr)

end Loop

/-! ### What a backend brings to the loop -/

/-- A backend. `report` is what its kernel answers and reports in a pass, `fresh` what it opens for a new
process. `refuses` are the calls of `modify` that find the fd unusable, `rearms` the polls that queue an fd,
`level` the backends whose polls do so only with a watcher stopped. -/
structure Polling (U T K R F : Type) [DecidableEq U] where
  answers : R → K → K
  modify : ℕ → BitVec 8 → BitVec 8 → Loop U T K → Loop U T K
  poll : R → Loop U T K → Loop U T K
  fork : F → Loop U T K → Loop U T K
  refuses : ℕ → BitVec 8 → BitVec 8 → Loop U T K → Prop
  rearms : R → Loop U T K → Prop
  level : Prop
  modify_killing : ∀ l fd oev nev, l.fds.Linked → Fds.Killing l.fds (modify fd oev nev l).fds
  modify_queue : ∀ l fd oev, l.fds.Linked → (l.fds.anfds fd).reify = 0 →
    ((modify fd oev (l.fds.wanted fd) l).fds.fdchanges ≠ l.fds.fdchanges ↔ refuses fd oev (l.fds.wanted fd) l)
  poll_later : ∀ r l, l.fds.Wired l.fds.fdchanges → Fds.Later l.fds (poll r l).fds
  poll_queue : ∀ r l, l.fds.Wired l.fds.fdchanges →
    ((poll r l).fds.fdchanges = [] ↔ l.fds.fdchanges = [] ∧ ¬ rearms r l)
  poll_killing : level → ∀ r l, l.fds.Linked → Fds.Killing l.fds (poll r l).fds
  fork_wired : ∀ f l, l.fds.Wired l.fds.fdchanges → (fork f l).fds.Wired (fork f l).fds.fdchanges

namespace Polling

variable {U T K R F : Type} [DecidableEq U] (B : Polling U T K R F) {l : Loop U T K} {q : List ℕ}

/-- Working off these fds, a call of `backend_modify` finds its fd unusable. -/
def Refused : List ℕ → Loop U T K → Prop
  | [], _ => False
  | fd :: q, l =>
    (∃ oev nev, l.fds.change fd = some (oev, nev) ∧ B.refuses fd oev nev { l with fds := l.fds.reify fd }) ∨
      Refused q (Loop.fdReifyOne B.modify l fd)

/-- From `l` to `m` the fds of `q` were worked off, and `new` were queued. -/
structure Reified (q new : List ℕ) (l m : Loop U T K) : Prop where
  queue : m.fds.fdchanges = l.fds.fdchanges ++ new
  refused : new ≠ [] ↔ B.Refused q l
  active : ∀ w, m.fds.active w ≠ 0 → l.fds.active w ≠ 0
  stopped : new ≠ [] → ∃ w, l.fds.active w ≠ 0 ∧ m.fds.active w = 0

variable {B}

/-- The step: what one of the fds does to the queue. -/
theorem reified_one {fd : ℕ} (h : l.fds.Wired (fd :: q)) :
    ∃ new, (Loop.fdReifyOne B.modify l fd).fds.Wired (q ++ new) ∧
      B.Reified [fd] new l (Loop.fdReifyOne B.modify l fd) := by
  have hr : (l.fds.reify fd).Wired q := by
    refine ⟨h.linked.congr (fun fd' => Fds.head_reify ..) rfl rfl, h.finite, fun fd' hfd' => ?_⟩
    rw [Fds.reify_reify] at hfd'
    by_cases hne : fd' = fd
    · rw [if_pos hne] at hfd'
      exact absurd rfl hfd'
    · rw [if_neg hne] at hfd'
      exact (List.mem_cons.mp (h.queued fd' hfd')).resolve_left hne
  unfold Loop.fdReifyOne
  cases hc : l.fds.change fd with
  | none =>
    refine ⟨[], (List.append_nil q).symm ▸ hr, (List.append_nil _).symm, ?_, fun _ => id, fun hn => absurd rfl hn⟩
    simp [Refused, hc]
  | some c =>
    obtain ⟨oev, nev⟩ := c
    dsimp only
    obtain ⟨m, hm⟩ : ∃ m : Loop U T K, m = { l with fds := l.fds.reify fd } := ⟨_, rfl⟩
    have hmfds : m.fds = l.fds.reify fd := by rw [hm]
    have hnev : nev = m.fds.wanted fd := by
      rw [hmfds, Fds.wanted_reify]
      exact Fds.change_wanted hc
    rw [← hm]
    have hkill := B.modify_killing m fd oev nev (hmfds ▸ hr.linked)
    have hqueue := B.modify_queue m fd oev (hmfds ▸ hr.linked) (by rw [hmfds, Fds.reify_reify, if_pos rfl])
    rw [← hnev] at hqueue
    obtain ⟨new, hnew, hreify⟩ := hkill.queue
    have hne : new ≠ [] ↔ (B.modify fd oev nev m).fds.fdchanges ≠ m.fds.fdchanges := by
      rw [hnew]
      simp
    refine ⟨new, ⟨hkill.linked (hmfds ▸ hr.linked), ?_, fun fd' hfd' => ?_⟩, ?_, ?_, fun w hw => ?_, fun hn => ?_⟩
    · exact hr.finite.subset fun w hw => hmfds ▸ hkill.active w hw
    · rw [List.mem_append]
      exact (hreify fd' hfd').imp_left fun hfd' => hr.queued fd' (hmfds ▸ hfd')
    · rw [hnew, hmfds]
      rfl
    · rw [hne, hqueue, hm]
      simp [Refused, hc]
    · have := hkill.active w hw
      rw [hmfds] at this
      exact this
    · have := hkill.stopped (hne.mp hn)
      rw [hmfds] at this
      exact this

theorem Reified.cons {fd : ℕ} {m n : Loop U T K} {new new' : List ℕ} (hm : m = Loop.fdReifyOne B.modify l fd)
    (h : B.Reified [fd] new l m) (h' : B.Reified q new' m n) : B.Reified (fd :: q) (new ++ new') l n := by
  refine ⟨by rw [h'.queue, h.queue, List.append_assoc], ?_, fun w hw => h.active w (h'.active w hw), fun hn => ?_⟩
  · have hone := h.refused
    have hall := h'.refused
    rw [hm] at hall
    simp only [Refused, or_false] at hone
    simp only [Refused, ← hone, ← hall, ne_eq, List.append_eq_nil_iff, not_and_or]
  · by_cases h0 : new = []
    · obtain ⟨w, hw, hw'⟩ := h'.stopped fun hn' => hn (by rw [h0, hn', List.append_nil])
      exact ⟨w, h.active w hw, hw'⟩
    · obtain ⟨w, hw, hw'⟩ := h.stopped h0
      exact ⟨w, hw, not_not.mp fun hn => h'.active w hn hw'⟩

/-- All of them: `q₀` was queued before or since. -/
theorem reified_all {q₀ : List ℕ} (h : l.fds.Wired (q ++ q₀)) :
    ∃ new, (q.foldl (Loop.fdReifyOne B.modify) l).fds.Wired (q₀ ++ new) ∧
      B.Reified q new l (q.foldl (Loop.fdReifyOne B.modify) l) := by
  induction q generalizing l q₀ with
  | nil =>
    refine ⟨[], (List.append_nil q₀).symm ▸ h, (List.append_nil _).symm, ?_, fun _ => id, fun hn => absurd rfl hn⟩
    simp [Refused]
  | cons fd q ih =>
    obtain ⟨new, hone, hre⟩ := reified_one (B := B) (q := q ++ q₀) h
    rw [List.append_assoc] at hone
    obtain ⟨new', hall, hre'⟩ := ih hone
    exact ⟨new ++ new', (List.append_assoc q₀ new new') ▸ hall, hre.cons rfl hre'⟩

/-- `fd_reify` empties the queue, unless an fd turns out to be unusable; then a watcher is stopped. -/
structure Handed (B : Polling U T K R F) (l m : Loop U T K) : Prop where
  wired : m.fds.Wired m.fds.fdchanges
  refused : m.fds.fdchanges = [] ↔ ¬ B.Refused l.fds.fdchanges l
  active : ∀ w, m.fds.active w ≠ 0 → l.fds.active w ≠ 0
  stopped : m.fds.fdchanges ≠ [] → ∃ w, l.fds.active w ≠ 0 ∧ m.fds.active w = 0

theorem handed (h : l.fds.Wired l.fds.fdchanges) : B.Handed l (l.fdReify B.modify) := by
  have hnil : l.fds.Wired (l.fds.fdchanges ++ []) := (List.append_nil l.fds.fdchanges).symm ▸ h
  obtain ⟨new, hw, hre⟩ := reified_all (B := B) hnil
  have hq : (l.fdReify B.modify).fds.fdchanges = new := by
    show (l.fds.fdchanges.foldl (Loop.fdReifyOne B.modify) l).fds.fdchanges.drop l.fds.fdchanges.length = new
    rw [hre.queue, List.drop_left]
  refine ⟨?_, ?_, hre.active, fun hn => hre.stopped (hq ▸ hn)⟩
  · rw [hq]
    exact ⟨hw.linked.congr (fun _ => rfl) rfl rfl, hw.finite, hw.queued⟩
  · rw [hq, ← hre.refused, not_not]

end Polling

/-! ### A round -/

/-- Callbacks, and what `ev_run` does around them, which change no io watcher. -/
structure Callbacks (U T K : Type) [DecidableEq U] where
  run : Loop U T K → Loop U T K
  fds : ∀ l, (run l).fds = l.fds
  iocnt : ∀ l, (run l).iocnt = l.iocnt
  kernel : ∀ l, (run l).kernel = l.kernel

/-- What `loop_fork` opens anew: for the backend, `fs_w`, `timerfd_w` and `pipe_w`. -/
structure Fresh (F : Type) where
  backend : F
  fs : Option ℕ
  timerfd : Option ℕ
  pipe : ℕ

/-- What a round meets: `before` are the callbacks up to the prepare watchers', `broken` says that they have
set `loop_done`; `after` is everything from the poll on. -/
structure Round (U T K R F : Type) [DecidableEq U] where
  report : R
  before : Callbacks U T K
  broken : Bool
  fresh : Fresh F
  after : Callbacks U T K

namespace Loop

variable {U T K : Type} [DecidableEq U] (l : Loop U T K)

/-- `loop_fork` for `timerfd_w`. -/
def timerfdFork (timerfd : Option ℕ) : Loop U T K :=
  if l.fds.active .timerfdW = 0 then l
  else
    let l := l.evRef.evIoStop .timerfdW
    let l :=
      match timerfd with
      | none => { l with timerfd := -1 }
      | some fd =>
        let l := ({ l with timerfd := fd } : Loop U T K).evIoInit .timerfdW fd evRead
        ((l.evSetPriority (.io .timerfdW) minpri).evIoStart .timerfdW).evUnref
    l.evFeedEvent (.io .timerfdW) evCustom

/-- `loop_fork` for `pipe_w`. -/
def evpipeFork (pipe : ℕ) : Loop U T K :=
  if l.fds.active .pipeW = 0 then l
  else
    let l := l.evRef.evIoStop .pipeW
    let l := ((l.evIoSet .pipeW pipe evRead).evIoStart .pipeW).evUnref
    l.evFeedEvent (.io .pipeW) evCustom

end Loop

namespace Polling

variable {U T K R F : Type} [DecidableEq U] (B : Polling U T K R F)

def loopFork (f : Fresh F) (l : Loop U T K) : Loop U T K :=
  let l := (B.fork f.backend l).infyReopen f.fs
  let l := if l.postfork ≠ 2 then (l.timerfdFork f.timerfd).evpipeFork f.pipe else l
  { l with postfork := 0 }

/-- `ev_run` up to its `fd_reify`. -/
def atReify (r : Round U T K R F) (l : Loop U T K) : Loop U T K :=
  let l := r.before.run l
  if l.postfork ≠ 0 then B.loopFork r.fresh l else l

/-- `ev_run (EVRUN_NOWAIT)`, which polls if `iocnt` is not 0 (`Loop.polls_nowait`). -/
def evRun (r : Round U T K R F) (l : Loop U T K) : Loop U T K :=
  if r.broken then r.before.run l
  else
    let l := (B.atReify r l).fdReify B.modify
    r.after.run (if l.iocnt ≠ 0 then B.poll r.report l else l)

/-- A round of the loop of `embed_prepare_cb`. -/
def embedRound (r : Round U T K R F) (l : Loop U T K) : Loop U T K :=
  B.evRun r (({ l with kernel := B.answers r.report l.kernel } : Loop U T K).fdReify B.modify)

/-- `while (fdchangecnt)` ends. -/
def EmbedPrepareEnds (rs : ℕ → Round U T K R F) (l : Loop U T K) : Prop :=
  Ends (fun l : Loop U T K => l.fds.fdchanges ≠ []) B.embedRound rs l

/-- In its last `fd_reify`, a round finds no fd unusable, and its poll, if there is one, queues none. -/
def Quiet (r : Round U T K R F) (l : Loop U T K) : Prop :=
  let l : Loop U T K := { l with kernel := B.answers r.report l.kernel }
  if r.broken then ¬ B.Refused l.fds.fdchanges l
  else
    let l := B.atReify r (l.fdReify B.modify)
    ¬ B.Refused l.fds.fdchanges l ∧
      ((l.fdReify B.modify).iocnt ≠ 0 → ¬ B.rearms r.report (l.fdReify B.modify))

/-- The round has its kernel state re-created. -/
def Recreates (r : Round U T K R F) (l : Loop U T K) : Prop :=
  let l : Loop U T K := { l with kernel := B.answers r.report l.kernel }
  ¬ r.broken ∧ (r.before.run (l.fdReify B.modify)).postfork ≠ 0

end Polling

/-! ### What a round comes to -/

namespace Loop

variable {U T K : Type} [DecidableEq U] {l : Loop U T K}

/-- The fds are wired. -/
def Wired (l : Loop U T K) : Prop := l.fds.Wired l.fds.fdchanges

section

omit [DecidableEq U]

theorem Wired.of_fds {m : Loop U T K} (h : l.Wired) (hfds : m.fds = l.fds) : m.Wired := by
  unfold Wired
  rw [hfds]
  exact h

end

theorem Wired.evIoStop (h : l.Wired) (w : IoW U) : (l.evIoStop w).Wired ∧ (l.evIoStop w).fds.active w = 0 := by
  unfold Wired
  rw [fds_evIoStop]
  by_cases hw : l.fds.active w = 0
  · rw [if_pos hw]
    exact ⟨h, hw⟩
  · rw [if_neg hw]
    exact ⟨Fds.Wired.stop h hw, by rw [Fds.active_stop, if_pos rfl]⟩

theorem Wired.evIoStart (h : l.Wired) (w : IoW U) : (l.evIoStart w).Wired := by
  unfold Wired
  rw [fds_evIoStart]
  by_cases hw : l.fds.active w = 0
  · rw [if_neg (not_not.mpr hw)]
    exact Fds.Wired.start h hw
  · rw [if_pos hw]
    exact h

/-- A watcher of the loop's own is stopped, set to another fd and started. -/
theorem Wired.renew (h : l.Wired) (w : IoW U) (fd : ℕ) (events : Events) {m : Loop U T K}
    (hm : m.fds = (l.evIoStop w).fds.evIoSet w fd events) : (m.evIoStart w).Wired := by
  obtain ⟨hstop, hact⟩ := h.evIoStop w
  refine Wired.evIoStart ?_ w
  unfold Wired
  rw [hm]
  exact Fds.Wired.evIoSet hstop hact fd events

theorem Wired.infyReopen (h : l.Wired) (fs : Option ℕ) : (l.infyReopen fs).Wired := by
  unfold Loop.infyReopen
  split
  · exact h
  · have href : l.evRef.Wired := h.of_fds rfl
    cases fs with
    | none => exact (href.evIoStop .fsW).1.of_fds rfl
    | some fd =>
      refine Wired.of_fds (href.renew .fsW fd evRead ?_) rfl
      rfl

theorem Wired.timerfdFork (h : l.Wired) (timerfd : Option ℕ) : (l.timerfdFork timerfd).Wired := by
  unfold Loop.timerfdFork
  split
  · exact h
  · have href : l.evRef.Wired := h.of_fds rfl
    cases timerfd with
    | none => exact (href.evIoStop .timerfdW).1.of_fds rfl
    | some fd =>
      refine Wired.of_fds (href.renew .timerfdW fd evRead ?_) rfl
      rfl

theorem Wired.evpipeFork (h : l.Wired) (pipe : ℕ) : (l.evpipeFork pipe).Wired := by
  unfold Loop.evpipeFork
  split
  · exact h
  · have href : l.evRef.Wired := h.of_fds rfl
    refine Wired.of_fds (href.renew .pipeW pipe evRead ?_) rfl
    rfl

end Loop

namespace Polling

open Loop

variable {U T K R F : Type} [DecidableEq U] {B : Polling U T K R F} {l : Loop U T K} {r : Round U T K R F}

theorem wired_loopFork (h : l.Wired) (f : Fresh F) : (B.loopFork f l).Wired := by
  have hfork : ((B.fork f.backend l).infyReopen f.fs).Wired := Wired.infyReopen (B.fork_wired f.backend l h) f.fs
  unfold loopFork
  dsimp only
  split
  · exact ((hfork.timerfdFork f.timerfd).evpipeFork f.pipe).of_fds rfl
  · exact hfork.of_fds rfl

theorem wired_atReify (h : l.Wired) : (B.atReify r l).Wired := by
  have hbefore : (r.before.run l).Wired := h.of_fds (r.before.fds l)
  unfold atReify
  dsimp only
  split
  · exact wired_loopFork hbefore r.fresh
  · exact hbefore

/-- What a round leaves in the queue. -/
theorem embedRound_spec (h : l.Wired) :
    (B.embedRound r l).Wired ∧ ((B.embedRound r l).fds.fdchanges = [] ↔ B.Quiet r l) := by
  obtain ⟨l₀, hl₀⟩ : ∃ l₀ : Loop U T K, l₀ = { l with kernel := B.answers r.report l.kernel } := ⟨_, rfl⟩
  have h₀ : l₀.Wired := h.of_fds (by rw [hl₀])
  have hfirst := handed (B := B) h₀
  have hat : (B.atReify r (l₀.fdReify B.modify)).Wired := wired_atReify hfirst.wired
  have hlast := handed (B := B) hat
  unfold embedRound evRun Quiet
  dsimp only
  rw [← hl₀]
  by_cases hb : r.broken
  · rw [if_pos hb, if_pos hb]
    refine ⟨Wired.of_fds hfirst.wired (r.before.fds _), ?_⟩
    rw [r.before.fds, hfirst.refused, hl₀]
  · rw [if_neg hb, if_neg hb]
    generalize B.atReify r (l₀.fdReify B.modify) = m at hlast ⊢
    by_cases hio : (m.fdReify B.modify).iocnt ≠ 0
    · rw [if_pos hio]
      refine ⟨Wired.of_fds (Fds.Wired.later hlast.wired (B.poll_later _ _ hlast.wired)) (r.after.fds _), ?_⟩
      rw [r.after.fds, B.poll_queue _ _ hlast.wired, hlast.refused]
      exact and_congr_right fun _ => ⟨fun hno _ => hno, fun hno => hno hio⟩
    · rw [if_neg hio]
      refine ⟨Wired.of_fds hlast.wired (r.after.fds _), ?_⟩
      rw [r.after.fds, hlast.refused]
      exact ⟨fun hno => ⟨hno, fun hc => absurd hc hio⟩, fun hno => hno.1⟩

/-- Where polls queue nothing on their own, a round that leaves something in the queue has stopped a watcher. -/
theorem embedRound_level (hlevel : B.level) (h : l.Wired) (hno : ¬ B.Recreates r l) :
    (∀ w, (B.embedRound r l).fds.active w ≠ 0 → l.fds.active w ≠ 0) ∧
      ((B.embedRound r l).fds.fdchanges ≠ [] → ∃ w, l.fds.active w ≠ 0 ∧ (B.embedRound r l).fds.active w = 0) := by
  obtain ⟨l₀, hl₀⟩ : ∃ l₀ : Loop U T K, l₀ = { l with kernel := B.answers r.report l.kernel } := ⟨_, rfl⟩
  have hfds₀ : l₀.fds = l.fds := by rw [hl₀]
  have h₀ : l₀.Wired := h.of_fds hfds₀
  have hfirst := handed (B := B) h₀
  have hbefore := r.before.fds (l₀.fdReify B.modify)
  unfold embedRound evRun
  unfold Recreates at hno
  dsimp only at hno ⊢
  rw [← hl₀] at hno ⊢
  rw [← hfds₀]
  by_cases hb : r.broken
  · rw [if_pos hb, hbefore]
    exact ⟨hfirst.active, hfirst.stopped⟩
  · rw [if_neg hb]
    have hat : B.atReify r (l₀.fdReify B.modify) = r.before.run (l₀.fdReify B.modify) := by
      unfold atReify
      exact if_neg fun hp => hno ⟨hb, hp⟩
    rw [hat]
    have hwired : (r.before.run (l₀.fdReify B.modify)).Wired := Wired.of_fds hfirst.wired hbefore
    have hlast := handed (B := B) hwired
    -- the watchers active there were active at the start
    have hsub : ∀ w, (r.before.run (l₀.fdReify B.modify)).fds.active w ≠ 0 → l₀.fds.active w ≠ 0 := fun w hw =>
      hfirst.active w (hbefore ▸ hw)
    generalize r.before.run (l₀.fdReify B.modify) = m at hlast hsub ⊢
    obtain ⟨n, hn⟩ : ∃ n, n = (if (m.fdReify B.modify).iocnt ≠ 0 then B.poll r.report (m.fdReify B.modify)
      else m.fdReify B.modify) := ⟨_, rfl⟩
    have hpoll : Fds.Killing (m.fdReify B.modify).fds n.fds := by
      rw [hn]
      split
      · exact B.poll_killing hlevel _ _ hlast.wired.linked
      · exact .refl _
    rw [← hn, r.after.fds]
    refine ⟨fun w hw => hsub w (hlast.active w (hpoll.active w hw)), fun hne => ?_⟩
    by_cases hq : (m.fdReify B.modify).fds.fdchanges = []
    · obtain ⟨w, hw, hw'⟩ := hpoll.stopped (hq.symm ▸ hne)
      exact ⟨w, hsub w (hlast.active w hw), hw'⟩
    · obtain ⟨w, hw, hw'⟩ := hlast.stopped hq
      exact ⟨w, hsub w hw, not_not.mp fun hn => hpoll.active w hn hw'⟩

theorem wired_rounds (h : l.Wired) (rs : ℕ → Round U T K R F) (n : ℕ) : (rounds B.embedRound rs l n).Wired :=
  rounds_invariant (P := Loop.Wired) (fun _ _ hw => (embedRound_spec (B := B) hw).1) h n

/-- The loop ends exactly with a quiet round, if it makes one at all. -/
theorem ends_iff_quiet (h : l.Wired) (rs : ℕ → Round U T K R F) :
    B.EmbedPrepareEnds rs l ↔ l.fds.fdchanges = [] ∨ ∃ n, B.Quiet (rs n) (rounds B.embedRound rs l n) := by
  unfold EmbedPrepareEnds
  rw [ends_iff]
  simp only [ne_eq, not_not]
  constructor
  · rintro ⟨n, hn⟩
    cases n with
    | zero => exact .inl hn
    | succ n => exact .inr ⟨n, (embedRound_spec (wired_rounds h rs n)).2.mp hn⟩
  · rintro (h₀ | ⟨n, hn⟩)
    · exact ⟨0, h₀⟩
    · exact ⟨n + 1, (embedRound_spec (wired_rounds h rs n)).2.mpr hn⟩

/-- Each round there stops one of finitely many watchers, once none are re-created any more. -/
theorem ends_of_level (hlevel : B.level) (h : l.Wired) (rs : ℕ → Round U T K R F) {N : ℕ}
    (hno : ∀ n, N ≤ n → ¬ B.Recreates (rs n) (rounds B.embedRound rs l n)) : B.EmbedPrepareEnds rs l := by
  refine ends_of_measure (fun l => {w | l.fds.active w ≠ 0}.ncard) (N := N) fun n hn hq => ?_
  obtain ⟨hsub, hstop⟩ := embedRound_level hlevel (wired_rounds h rs n) (hno n hn)
  obtain ⟨w, hw, hw'⟩ := hstop hq
  refine Set.ncard_lt_ncard ⟨hsub, fun hle => ?_⟩ (wired_rounds h rs n).finite
  exact hle hw hw'

end Polling

end Qev
