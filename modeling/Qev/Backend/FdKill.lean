/-
# An fd that is killed

`fd_kill` stops the watchers of an fd until it has none, and feeds each an error. It is called by backends, also from
within `fd_reify`, when the first fds of the queue are dealt with (`done`) and have no flag any more.

The fd is then among the others (`rest`), and working these off tells the backend that nothing is wanted of it
(`Reports`), if it was told anything before.
-/
import Qev.Backend.AioPlaces
import Qev.Backend.EmbedPrepare
import Qev.Loop.Views

namespace Qev

open Lib

/-! ### Entries and their watchers -/

namespace Pend

variable {W : Type} [DecidableEq W] {p q : Pend W} {v w : W}

/-- A pending watcher has a priority in range, and its entry. -/
structure Held (p : Pend W) : Prop where
  dummy : p.pending p.pendingW = 0
  range : ∀ w, p.pending w ≠ 0 → minpri ≤ p.priority w ∧ p.priority w ≤ maxpri
  place : ∀ w, p.pending w ≠ 0 → p.pending w ≤ p.pendingcnt (p.abspri w)
  entry : ∀ w, p.pending w ≠ 0 → (p.entry (p.abspri w) (p.pending w - 1)).w = w

section

omit [DecidableEq W]

theorem Held.place_ne (h : p.Held) (hv : p.pending v ≠ 0) (hw : p.pending w ≠ 0) (hne : v ≠ w) :
    ¬ (p.abspri v = p.abspri w ∧ p.pending v - 1 = p.pending w - 1) := by
  rintro ⟨hpri, hplace⟩
  apply hne
  rw [← h.entry v hv, ← h.entry w hw, hpri, hplace]

/-- What the queues have for a watcher is the same. -/
structure Same (p q : Pend W) (v : W) : Prop where
  pending : q.pending v = p.pending v
  pendingFor : q.pendingFor v = p.pendingFor v

/-- From `p` to `q` the queues were changed for `w` only. -/
structure Moved (p q : Pend W) (w : W) : Prop where
  held : q.Held
  priority : q.priority = p.priority
  pendingW : q.pendingW = p.pendingW
  others : ∀ v, v ≠ w → Same p q v

theorem Moved.trans {r : Pend W} (h : Moved p q w) (h' : Moved q r w) : Moved p r w :=
  ⟨h'.held, h'.priority.trans h.priority, h'.pendingW.trans h.pendingW, fun v hv =>
    ⟨(h'.others v hv).pending.trans (h.others v hv).pending,
      (h'.others v hv).pendingFor.trans (h.others v hv).pendingFor⟩⟩

theorem same_of_entry (hpend : q.pending v = p.pending v) (hprio : q.priority = p.priority)
    (hent : p.pending v ≠ 0 →
      (q.entry (p.abspri v) (p.pending v - 1)).events = (p.entry (p.abspri v) (p.pending v - 1)).events) :
    Same p q v := by
  refine ⟨hpend, ?_⟩
  unfold Pend.pendingFor pendingEvents
  rw [hpend, abspri_congr hprio]
  split
  · rename_i hv
    rw [hent hv]
  · rfl

end

theorem Held.clear (h : p.Held) (w : W) : Moved p (p.clearPending w) w ∧ (p.clearPending w).pending w = 0 := by
  unfold clearPending
  by_cases hw : p.pending w = 0
  · rw [if_neg (not_not.mpr hw)]
    exact ⟨⟨h, rfl, rfl, fun v _ => ⟨rfl, rfl⟩⟩, hw⟩
  · rw [if_pos hw]
    dsimp only
    generalize hq : (p.setEntry (p.abspri w) (p.pending w - 1)
      { p.entry (p.abspri w) (p.pending w - 1) with w := p.pendingW }).setPending w 0 = q
    have hself : q.pending w = 0 := by rw [← hq]; exact Function.update_self ..
    have hpend : ∀ v, v ≠ w → q.pending v = p.pending v := fun v hv => by
      rw [← hq]
      exact Function.update_of_ne hv ..
    have hprio : q.priority = p.priority := by rw [← hq]; rfl
    have habs := abspri_congr hprio
    have hne : ∀ v, q.pending v ≠ 0 → v ≠ w := fun v hv hvw => hv (hvw ▸ hself)
    -- the entries of the others are elsewhere
    have hent : ∀ v, v ≠ w → p.pending v ≠ 0 →
        q.entry (p.abspri v) (p.pending v - 1) = p.entry (p.abspri v) (p.pending v - 1) := by
      intro v hv hp
      rw [← hq, entry_setPending, entry_setEntry, if_neg (h.place_ne hp hw hv)]
    have hcnt : q.pendingcnt = p.pendingcnt := by rw [← hq]; rfl
    have hW : q.pendingW = p.pendingW := by rw [← hq]; rfl
    refine ⟨⟨⟨?_, fun v hv => ?_, fun v hv => ?_, fun v hv => ?_⟩, hprio, hW, fun v hv => ?_⟩, hself⟩
    · rw [hW]
      by_cases hd : p.pendingW = w
      · rw [hd, hself]
      · rw [hpend _ hd, h.dummy]
    · rw [hprio]
      exact h.range v (hpend v (hne v hv) ▸ hv)
    · rw [habs, hcnt, hpend v (hne v hv)]
      exact h.place v (hpend v (hne v hv) ▸ hv)
    · have hv' := hpend v (hne v hv)
      rw [habs, hv', hent v (hne v hv) (hv' ▸ hv)]
      exact h.entry v (hv' ▸ hv)
    · exact same_of_entry (hpend v hv) hprio fun hp => by rw [hent v hv hp]

/-- A watcher that is not pending is fed. -/
theorem Held.feed (h : p.Held) (hd : w ≠ p.pendingW) (hw : p.pending w = 0)
    (hr : minpri ≤ p.priority w ∧ p.priority w ≤ maxpri) (revents : Events) :
    Moved p (p.evFeedEvent w revents) w ∧ (p.evFeedEvent w revents).pendingFor w = some revents := by
  unfold evFeedEvent
  dsimp only
  rw [if_neg (not_not.mpr hw), Nat.add_sub_cancel]
  generalize hn : p.pendingcnt (p.abspri w) = n
  generalize hq : ({ ({ ((p.setCnt (p.abspri w) (n + 1)).setPending w (n + 1)).setEntry (p.abspri w) n
    ⟨w, revents, p.clock⟩ with clock := p.clock + 1 } : Pend W) with pendingpri := numpri - 1 } : Pend W) = q
  have hself : q.pending w = n + 1 := by rw [← hq]; exact Function.update_self ..
  have hpend : ∀ v, v ≠ w → q.pending v = p.pending v := fun v hv => by
    rw [← hq]
    exact Function.update_of_ne hv ..
  have hprio : q.priority = p.priority := by rw [← hq]; rfl
  have habs := abspri_congr hprio
  have hW : q.pendingW = p.pendingW := by rw [← hq]; rfl
  have hcnt : q.pendingcnt = Function.update p.pendingcnt (p.abspri w) (n + 1) := by rw [← hq]; rfl
  have hall : ∀ pri i, q.entry pri i = if pri = p.abspri w ∧ i = n then ⟨w, revents, p.clock⟩ else p.entry pri i :=
    fun pri i => by
      rw [← hq]
      exact entry_setEntry ..
  -- the entries of the others are below the new one
  have hent : ∀ v, p.pending v ≠ 0 →
      q.entry (p.abspri v) (p.pending v - 1) = p.entry (p.abspri v) (p.pending v - 1) := by
    intro v hv
    rw [hall, if_neg]
    rintro ⟨hpri, hplace⟩
    have hle := h.place v hv
    rw [hpri, hn] at hle
    omega
  refine ⟨⟨⟨?_, fun v hv => ?_, fun v hv => ?_, fun v hv => ?_⟩, hprio, hW, fun v hv => ?_⟩, ?_⟩
  · rw [hW, hpend _ hd.symm, h.dummy]
  · rw [hprio]
    by_cases hvw : v = w
    · rw [hvw]
      exact hr
    · exact h.range v (hpend v hvw ▸ hv)
  · rw [habs, hcnt]
    by_cases hvw : v = w
    · rw [hvw, hself, Function.update_self]
    · rw [hpend v hvw] at hv ⊢
      refine (h.place v hv).trans ?_
      rw [Function.update_apply]
      split
      · rename_i hpri
        rw [hpri, hn]
        exact Nat.le_succ n
      · rfl
  · rw [habs]
    by_cases hvw : v = w
    · rw [hvw, hself, Nat.add_sub_cancel, hall, if_pos ⟨rfl, rfl⟩]
    · rw [hpend v hvw] at hv ⊢
      rw [hent v hv]
      exact h.entry v hv
  · exact same_of_entry (hpend v hv) hprio fun hp => by rw [hent v hp]
  · unfold Pend.pendingFor pendingEvents
    rw [hself, habs, if_pos (Nat.succ_ne_zero n), if_pos (Nat.succ_ne_zero n), Nat.add_sub_cancel, hall,
      if_pos ⟨rfl, rfl⟩]

end Pend

/-! ### A watcher is stopped and fed -/

namespace Loop

variable {U T K : Type} [DecidableEq U]

/-- The lists, the flags and the queues agree when only `rest` is to be dealt with. -/
structure Killable (l : Loop U T K) (rest : List ℕ) : Prop where
  linked : l.fds.Linked
  queued : ∀ fd, (l.fds.anfds fd).reify ≠ 0 → fd ∈ rest
  clean : ∀ fd, fd ∉ rest → (l.fds.anfds fd).events = l.fds.wanted fd
  held : l.pend.Held
  dummy : l.pend.pendingW = .pendingW
  range : ∀ w, l.fds.active w ≠ 0 → minpri ≤ l.pend.priority (.io w) ∧ l.pend.priority (.io w) ≤ maxpri

/-- What `fd_kill` reports. -/
def killed : Events := evError ||| evRead ||| evWrite

/-- The body of `fd_kill`. -/
def fdKillOne (l : Loop U T K) (w : IoW U) : Loop U T K := (l.evIoStop w).evFeedEvent (.io w) killed

section

variable {l m : Loop U T K} {done rest : List ℕ} {fd : ℕ} {w : IoW U}

theorem fdKillOne_fields (hw : l.fds.active w ≠ 0) :
    (l.fdKillOne w).fds = l.fds.stop w ∧
      (l.fdKillOne w).pend = (l.pend.clearPending (.io w)).evFeedEvent (.io w) killed ∧
      (l.fdKillOne w).activecnt = l.activecnt - 1 ∧ (l.fdKillOne w).iocnt = l.iocnt - ioWeight w := by
  have hc : (l.clearPending (.io w)).fds.active w ≠ 0 := hw
  unfold fdKillOne evIoStop
  dsimp only
  rw [if_neg hc]
  exact ⟨rfl, rfl, rfl, rfl⟩

theorem active_fdKillOne {v : Watcher U} (hw : l.fds.active w ≠ 0) (hv : v ≠ .io w) :
    (l.fdKillOne w).active v = l.active v := by
  have hc : (l.clearPending (.io w)).fds.active w ≠ 0 := hw
  unfold fdKillOne evIoStop
  dsimp only
  rw [if_neg hc]
  cases v with
  | io u => exact (Fds.active_stop l.fds w u).trans (if_neg fun hc => hv (congrArg Watcher.io hc))
  | _ => rfl

/-- What is cleared and then fed has just what it was fed. -/
theorem Killable.moved (h : l.Killable rest) (hw : l.fds.active w ≠ 0) :
    Pend.Moved l.pend (l.fdKillOne w).pend (.io w) ∧ (l.fdKillOne w).pend.pendingFor (.io w) = some killed := by
  obtain ⟨-, hpend, -, -⟩ := fdKillOne_fields hw
  obtain ⟨hclear, hnone⟩ := h.held.clear (.io w)
  have hd : Watcher.io w ≠ (l.pend.clearPending (.io w)).pendingW := by
    rw [hclear.pendingW, h.dummy]
    simp
  have hr : minpri ≤ (l.pend.clearPending (.io w)).priority (.io w) ∧
      (l.pend.clearPending (.io w)).priority (.io w) ≤ maxpri := by
    rw [hclear.priority]
    exact h.range w hw
  obtain ⟨hfeed, hsome⟩ := hclear.held.feed hd hnone hr killed
  rw [hpend]
  exact ⟨hclear.trans hfeed, hsome⟩

/-- The fd is queued, after the others if it was not. -/
theorem Killable.one (h : l.Killable rest) (hq : l.fds.fdchanges = done ++ rest) (hw : w ∈ (l.fds.anfds fd).head) :
    ∃ new, (l.fdKillOne w).fds.fdchanges = done ++ (rest ++ new) ∧ (l.fdKillOne w).Killable (rest ++ new) ∧
      fd ∈ rest ++ new := by
  obtain ⟨hact, hfd⟩ := (h.linked.mem fd w).mp hw
  obtain ⟨hfds, -, -, -⟩ := fdKillOne_fields hact
  obtain ⟨hmoved, -⟩ := h.moved hact
  have hfds_queue := Fds.fdchanges_stop l.fds w
  rw [hfd] at hfds_queue
  have hstill := Fds.still_stop l.fds w
  obtain ⟨new, hnew, hin⟩ : ∃ new, (l.fds.stop w).fdchanges = done ++ (rest ++ new) ∧ fd ∈ rest ++ new := by
    by_cases hr : (l.fds.anfds fd).reify = 0
    · refine ⟨[fd], ?_, List.mem_append_right _ (List.mem_singleton_self fd)⟩
      rw [hfds_queue, if_pos hr, hq, List.append_assoc]
    · refine ⟨[], ?_, List.mem_append_left _ (h.queued fd hr)⟩
      rw [hfds_queue, if_neg hr, hq, List.append_nil]
  refine ⟨new, hfds ▸ hnew, ⟨?_, fun fd' hr => ?_, fun fd' hn => ?_, hmoved.held, ?_, fun v hv => ?_⟩, hin⟩
  · rw [hfds]
    exact h.linked.stop w
  · rw [hfds] at hr
    by_cases hne : fd' = fd
    · exact hne ▸ hin
    · rw [Fds.reify_stop _ _ (hfd ▸ hne)] at hr
      exact List.mem_append_left _ (h.queued fd' hr)
  · have hne : fd' ≠ fd := fun hc => hn (hc ▸ hin)
    rw [hfds, hstill.events, h.clean fd' fun hc => hn (List.mem_append_left _ hc)]
    refine (Fds.wanted_congr (s := l.fds) (t := l.fds.stop w) ?_ fun _ _ => rfl).symm
    rw [Fds.head_stop, if_neg (hfd ▸ hne)]
  · rw [hmoved.pendingW]
    exact h.dummy
  · rw [hmoved.priority]
    refine h.range v fun hc => hv ?_
    rw [hfds, Fds.active_stop]
    split
    · rfl
    · exact hc

/-! ### All of them -/

/-- From `l` to `m` the watchers `gone` of the fd were stopped and fed. -/
structure Stopped (fd : ℕ) (done rest : List ℕ) (l m : Loop U T K) (gone : List (IoW U)) : Prop where
  head : (l.fds.anfds fd).head = gone ++ (m.fds.anfds fd).head
  heads : ∀ fd', fd' ≠ fd → (m.fds.anfds fd').head = (l.fds.anfds fd').head
  events : ∀ fd', (m.fds.anfds fd').events = (l.fds.anfds fd').events
  stopped : ∀ w ∈ gone, m.fds.active w = 0 ∧ m.pend.pendingFor (.io w) = some killed
  others : ∀ v, (∀ w ∈ gone, v ≠ .io w) → m.active v = l.active v ∧ Pend.Same l.pend m.pend v
  activecnt : m.activecnt + gone.length = l.activecnt
  iocnt : m.iocnt + (gone.map ioWeight).sum = l.iocnt
  queue : ∃ new, m.fds.fdchanges = done ++ (rest ++ new) ∧ m.Killable (rest ++ new) ∧ (gone ≠ [] → fd ∈ rest ++ new)

section

omit [DecidableEq U]

theorem Stopped.refl (h : l.Killable rest) (hq : l.fds.fdchanges = done ++ rest) : Stopped fd done rest l l [] :=
  ⟨rfl, fun _ _ => rfl, fun _ => rfl, fun _ hw => absurd hw List.not_mem_nil, fun _ _ => ⟨rfl, rfl, rfl⟩,
    by simp, by simp, [], by rw [hq, List.append_nil], (List.append_nil rest).symm ▸ h, fun hn => absurd rfl hn⟩

end

/-- The step: the first of the list is stopped and fed. -/
theorem Stopped.step {gone ws : List (IoW U)} (h : Stopped fd done rest l m gone)
    (hm : (m.fds.anfds fd).head = w :: ws) : Stopped fd done rest l (m.fdKillOne w) (gone ++ [w]) := by
  obtain ⟨new, hq, hk, hin⟩ := h.queue
  have hmem : w ∈ (m.fds.anfds fd).head := hm ▸ List.mem_cons_self
  obtain ⟨hact, hfd⟩ := (hk.linked.mem fd w).mp hmem
  obtain ⟨hfds, -, hcnt, hiocnt⟩ := fdKillOne_fields hact
  obtain ⟨hmoved, hsome⟩ := hk.moved hact
  obtain ⟨new', hq', hk', hin'⟩ := hk.one hq hmem
  have hother : ∀ v, v ≠ .io w →
      (m.fdKillOne w).active v = m.active v ∧ Pend.Same m.pend (m.fdKillOne w).pend v := by
    intro v hv
    exact ⟨active_fdKillOne hact hv, hmoved.others v hv⟩
  refine ⟨?_, fun fd' hne => ?_, fun fd' => ?_, fun u hu => ?_, fun v hv => ?_, ?_, ?_,
    new ++ new', ?_, ?_, fun _ => ?_⟩
  · rw [hfds, Fds.head_stop, if_pos hfd.symm, hm, List.erase_cons_head, List.append_assoc, List.singleton_append,
      ← hm]
    exact h.head
  · rw [hfds, Fds.head_stop, if_neg (hfd ▸ hne)]
    exact h.heads fd' hne
  · rw [hfds, (Fds.still_stop m.fds w).events]
    exact h.events fd'
  · by_cases huw : u = w
    · rw [huw, hfds, Fds.active_stop, if_pos rfl]
      exact ⟨rfl, hsome⟩
    · have hgone := (List.mem_append.mp hu).resolve_right fun hc => huw (List.mem_singleton.mp hc)
      obtain ⟨hu₁, hu₂⟩ := h.stopped u hgone
      rw [hfds, Fds.active_stop, if_neg huw]
      refine ⟨hu₁, ?_⟩
      rw [(hmoved.others (.io u) fun hc => huw (Watcher.io.inj hc)).pendingFor]
      exact hu₂
  · obtain ⟨ha, hp⟩ := h.others v fun u hu => hv u (List.mem_append_left _ hu)
    obtain ⟨ha', hp'⟩ := hother v (hv w (List.mem_append_right _ (List.mem_singleton_self w)))
    exact ⟨ha'.trans ha, hp'.pending.trans hp.pending, hp'.pendingFor.trans hp.pendingFor⟩
  · rw [hcnt, ← h.activecnt]
    simp
  · rw [hiocnt, ← h.iocnt]
    simp
  · rw [hq', List.append_assoc rest]
  · rw [← List.append_assoc]
    exact hk'
  · rw [← List.append_assoc]
    exact hin'

theorem Stopped.run {gone : List (IoW U)} (h : Stopped fd done rest l m gone) {n : ℕ}
    (hn : (m.fds.anfds fd).head.length ≤ n) :
    Stopped fd done rest l (fdKillLoop fd n m) (l.fds.anfds fd).head ∧
      ((fdKillLoop fd n m).fds.anfds fd).head = [] := by
  have hend : ∀ {m : Loop U T K} {gone : List (IoW U)}, Stopped fd done rest l m gone → (m.fds.anfds fd).head = [] →
      Stopped fd done rest l m (l.fds.anfds fd).head ∧ (m.fds.anfds fd).head = [] := by
    intro m gone h hm
    have hgone := h.head
    rw [hm, List.append_nil] at hgone
    exact ⟨hgone ▸ h, hm⟩
  induction n generalizing m gone with
  | zero => exact hend h (List.eq_nil_of_length_eq_zero (Nat.le_zero.mp hn))
  | succ n ih =>
    unfold fdKillLoop
    cases hm : (m.fds.anfds fd).head with
    | nil => exact hend h hm
    | cons w ws =>
      have hstep := h.step hm
      have hrest : ((m.fdKillOne w).fds.anfds fd).head = ws := by
        have hh := hstep.head
        rw [h.head, hm, List.append_assoc, List.singleton_append] at hh
        exact (List.cons.inj (List.append_cancel_left hh)).2.symm
      refine ih hstep ?_
      rw [hm, List.length_cons] at hn
      exact hrest ▸ Nat.le_of_succ_le_succ hn

theorem stopped_fdKill (h : l.Killable rest) (hq : l.fds.fdchanges = done ++ rest) (fd : ℕ) :
    Stopped fd done rest l (l.fdKill fd) (l.fds.anfds fd).head ∧ ((l.fdKill fd).fds.anfds fd).head = [] :=
  (Stopped.refl h hq).run le_rfl

/-- More rounds than there are watchers change nothing. -/
theorem fdKillLoop_add (fd n k : ℕ) (l : Loop U T K) :
    fdKillLoop fd (n + k) l = fdKillLoop fd k (fdKillLoop fd n l) := by
  induction n generalizing l with
  | zero => rw [Nat.zero_add, fdKillLoop]
  | succ n ih =>
    rw [Nat.add_right_comm]
    cases hh : (l.fds.anfds fd).head with
    | nil =>
      have hnil : ∀ n, fdKillLoop fd n l = l := fun n => by
        cases n with
        | zero => rfl
        | succ n =>
          unfold fdKillLoop
          rw [hh]
      rw [hnil, hnil, hnil]
    | cons w ws =>
      rw [fdKillLoop, fdKillLoop, hh]
      exact ih _

theorem fdKillLoop_of_le (h : l.Killable rest) (hq : l.fds.fdchanges = done ++ rest) {n : ℕ}
    (hn : (l.fds.anfds fd).head.length ≤ n) : fdKillLoop fd n l = l.fdKill fd := by
  obtain ⟨k, rfl⟩ := Nat.exists_eq_add_of_le hn
  obtain ⟨-, hnil⟩ := stopped_fdKill h hq fd
  rw [fdKillLoop_add]
  show fdKillLoop fd k (l.fdKill fd) = l.fdKill fd
  cases k with
  | zero => rfl
  | succ k =>
    unfold fdKillLoop
    rw [hnil]

end

end Loop

/-! ### The backends -/

/-- The `backend_modify` of a backend: to the fds it does nothing but kill, if it finds its fd unusable. -/
structure Setting (U T K : Type) [DecidableEq U] where
  modify : ℕ → BitVec 8 → BitVec 8 → Loop U T K → Loop U T K
  kills : ∀ l fd oev nev, Fds.Alike l.fds (modify fd oev nev l).fds ∨
    ∃ m : Loop U T K, Fds.Alike l.fds m.fds ∧ Fds.Alike (m.fdKill fd).fds (modify fd oev nev l).fds

namespace Setting

variable {U T K : Type} [DecidableEq U]

def epoll : Setting U T Epoll.Kernel :=
  ⟨Loop.epollModify, fun l fd oev nev => (Epoll.epollModify_cases l fd oev nev).imp (·.2) (·.2)⟩

def kqueue : Setting U T Kqueue.Kernel :=
  ⟨Loop.kqueueModify, fun l fd oev nev => .inl (Loop.alike_fds (Kqueue.fds_kqueueModify fd oev nev l))⟩

def port : Setting U T Port.Kernel where
  modify := Loop.portModify
  kills l fd oev nev := by
    rcases Port.portModify_cases l fd oev nev with ⟨hfds, -⟩ | ⟨m, hm, hkill, -⟩
    · exact .inl (Loop.alike_fds hfds)
    · exact .inr ⟨m, Loop.alike_fds hm, hkill ▸ .refl _⟩

def linuxaio : Setting U T Aio.Kernel where
  modify := Loop.linuxaioModify
  kills l fd oev nev := by
    refine .inl ?_
    have hcancel : ∀ l : Loop U T Aio.Kernel, Fds.Alike l.fds (l.linuxaioCancel fd).fds := by
      intro l
      unfold Loop.linuxaioCancel
      dsimp only
      split
      · exact Fds.alike_setFd l.fds fd { l.fds.anfds fd with emask := 0 } rfl rfl rfl
      · split
        · exact Fds.alike_setFd l.fds fd { l.fds.anfds fd with egen := (l.fds.anfds fd).egen + 1 } rfl rfl rfl
        · exact .refl _
    unfold Loop.linuxaioModify
    dsimp only
    split
    · exact hcancel { l with kernel := { l.kernel with iocbpmax := max l.kernel.iocbpmax (fd + 1) } }
    · exact hcancel { l with kernel := { l.kernel with iocbpmax := max l.kernel.iocbpmax (fd + 1) } }

def iouring : Setting U T Uring.Kernel :=
  ⟨Loop.iouringModify, fun l fd oev nev => .inl (Uring.alike_iouringModify l fd oev nev)⟩

/-- A backend that keeps the masks itself, as poll and select do. -/
def masks (modify : ℕ → BitVec 8 → BitVec 8 → K → K) : Setting U T K :=
  ⟨fun fd oev nev l => { l with kernel := modify fd oev nev l.kernel }, fun l _ _ _ => .inl (.refl l.fds)⟩

variable (B : Setting U T K)

/-- Working off these fds, `fd_reify` tells the backend that nothing is wanted of `fd`. -/
def Reports (fd : ℕ) : List ℕ → Loop U T K → Prop
  | [], _ => False
  | fd' :: q, l =>
    fd' = fd ∧ (∃ oev, l.fds.change fd = some (oev, 0)) ∨ Reports fd q (Loop.fdReifyOne B.modify l fd')

variable {B} {l : Loop U T K} {fd fd' : ℕ}

theorem kept_fdKill (hl : l.fds.Linked) (hne : fd ≠ fd') :
    ((l.fdKill fd').fds.anfds fd).head = (l.fds.anfds fd).head := by
  refine (Loop.fdKillLoop_induction l (P := fun m : Loop U T K => m.fds.Linked ∧
    (m.fds.anfds fd).head = (l.fds.anfds fd).head) fd' (fun m w hw hm => ?_) _ ⟨hl, rfl⟩).2
  obtain ⟨hact, hfd⟩ := (hm.1.mem fd' w).mp hw
  show ((m.fdKillOne w).fds.Linked) ∧ ((m.fdKillOne w).fds.anfds fd).head = _
  rw [(Loop.fdKillOne_fields hact).1, Fds.head_stop, if_neg (hfd ▸ hne)]
  exact ⟨hm.1.stop w, hm.2⟩

/-- A call for another fd. -/
theorem kept_modify (hl : l.fds.Linked) (hne : fd ≠ fd') (oev nev : BitVec 8) :
    (B.modify fd' oev nev l).fds.Linked ∧
      ((B.modify fd' oev nev l).fds.anfds fd).head = (l.fds.anfds fd).head ∧
      ((B.modify fd' oev nev l).fds.anfds fd).events = (l.fds.anfds fd).events := by
  rcases B.kills l fd' oev nev with ha | ⟨m, ha, ha'⟩
  · exact ⟨hl.congr ha.head ha.active ha.wfd, ha.head fd, ha.events fd⟩
  · have hm := hl.congr ha.head ha.active ha.wfd
    have hkill := (Loop.killing_fdKill hm fd').linked hm
    refine ⟨hkill.congr ha'.head ha'.active ha'.wfd, ?_, ?_⟩
    · rw [ha'.head, kept_fdKill hm hne, ha.head]
    · rw [ha'.events, (Loop.still_fdKill m fd').events, ha.events]

theorem kept_one (hl : l.fds.Linked) (hne : fd ≠ fd') :
    (Loop.fdReifyOne B.modify l fd').fds.Linked ∧
      ((Loop.fdReifyOne B.modify l fd').fds.anfds fd).head = (l.fds.anfds fd).head ∧
      ((Loop.fdReifyOne B.modify l fd').fds.anfds fd).events = (l.fds.anfds fd).events := by
  have hr : (l.fds.reify fd').Linked := hl.congr (fun _ => Fds.head_reify ..) rfl rfl
  have hsame : (l.fds.reify fd').anfds fd = l.fds.anfds fd := Function.update_of_ne hne ..
  unfold Loop.fdReifyOne
  dsimp only
  split
  · exact ⟨hr, by rw [hsame], by rw [hsame]⟩
  · obtain ⟨h₁, h₂, h₃⟩ := kept_modify (B := B) (l := { l with fds := l.fds.reify fd' }) hr hne _ _
    exact ⟨h₁, h₂.trans (by rw [hsame]), h₃.trans (by rw [hsame])⟩

section

omit [DecidableEq U]

/-- Nothing is wanted of an fd without watchers. -/
theorem change_nil (hh : (l.fds.anfds fd).head = []) (he : (l.fds.anfds fd).events ≠ 0) :
    l.fds.change fd = some ((l.fds.anfds fd).events, 0) := by
  unfold Fds.change
  dsimp only
  rw [Fds.wanted_nil hh, if_pos he, if_pos]
  decide

end

theorem reports {q : List ℕ} (hl : l.fds.Linked) (hh : (l.fds.anfds fd).head = [])
    (he : (l.fds.anfds fd).events ≠ 0) (hq : fd ∈ q) : B.Reports fd q l := by
  induction q generalizing l with
  | nil => exact absurd hq List.not_mem_nil
  | cons fd' q ih =>
    by_cases hfd : fd' = fd
    · exact .inl ⟨hfd, _, change_nil hh he⟩
    · obtain ⟨hl', hh', he'⟩ := kept_one (B := B) hl (Ne.symm hfd)
      exact .inr (ih hl' (hh'.trans hh) (he' ▸ he) ((List.mem_cons.mp hq).resolve_left fun hc => hfd hc.symm))

end Setting

namespace Loop

variable {U T K : Type} [DecidableEq U]

/-! ### Main result -/

section

omit [DecidableEq U]

theorem ioWeight_sum (ws : List (IoW U)) :
    (ws.map ioWeight).sum = (ws.countP fun w => !ioIsLoopOwn w : ℕ) := by
  induction ws with
  | nil => rfl
  | cons w ws ih =>
    rw [List.map_cons, List.sum_cons, ih, List.countP_cons]
    unfold ioWeight
    cases ioIsLoopOwn w with
    | true => simp
    | false =>
      simp
      ring

end

/-- The loop of `fd_kill` ends, and what it has done then. -/
theorem fd_killed (B : Setting U T K) (l : Loop U T K) (done rest : List ℕ) (fd : ℕ) (h : l.Killable rest)
    (hq : l.fds.fdchanges = done ++ rest) :
    (∀ n, (l.fds.anfds fd).head.length ≤ n → fdKillLoop fd n l = l.fdKill fd) ∧
      ((l.fdKill fd).fds.anfds fd).head = [] ∧
      (∀ w ∈ (l.fds.anfds fd).head, (l.fdKill fd).fds.active w = 0 ∧
        (l.fdKill fd).pend.pendingFor (.io w) = some (evError ||| evRead ||| evWrite)) ∧
      (∀ v, (∀ w ∈ (l.fds.anfds fd).head, v ≠ .io w) → (l.fdKill fd).active v = l.active v ∧
        (l.fdKill fd).pend.pending v = l.pend.pending v ∧
        (l.fdKill fd).pend.pendingFor v = l.pend.pendingFor v) ∧
      (l.fdKill fd).activecnt = l.activecnt - (l.fds.anfds fd).head.length ∧
      (l.fdKill fd).iocnt = l.iocnt - ((l.fds.anfds fd).head.countP fun w => !ioIsLoopOwn w : ℕ) ∧
      ∃ new, (l.fdKill fd).fds.fdchanges = done ++ (rest ++ new) ∧ (l.fdKill fd).Killable (rest ++ new) ∧
        ((l.fds.anfds fd).head ≠ [] ∨ (l.fds.anfds fd).events ≠ 0 → fd ∈ rest ++ new) ∧
        ((l.fds.anfds fd).events ≠ 0 → B.Reports fd (rest ++ new) (l.fdKill fd)) := by
  obtain ⟨hs, hnil⟩ := stopped_fdKill h hq fd
  obtain ⟨new, hqueue, hk, hin⟩ := hs.queue
  have hin' : (l.fds.anfds fd).head ≠ [] ∨ (l.fds.anfds fd).events ≠ 0 → fd ∈ rest ++ new := by
    rintro (hh | he)
    · exact hin hh
    · by_contra hno
      have hclean := hk.clean fd hno
      rw [hs.events, Fds.wanted_nil hnil] at hclean
      exact he hclean
  refine ⟨fun n hn => fdKillLoop_of_le h hq hn, hnil, hs.stopped, fun v hv => ?_, ?_, ?_, new, hqueue, hk, hin',
    fun he => ?_⟩
  · obtain ⟨ha, hp⟩ := hs.others v hv
    exact ⟨ha, hp.pending, hp.pendingFor⟩
  · have hcnt := hs.activecnt
    omega
  · have hcnt := hs.iocnt
    rw [ioWeight_sum] at hcnt
    omega
  · exact Setting.reports hk.linked hnil (by rw [hs.events]; exact he) (hin' (.inr he))

/-- `ev_io_set` and `ev_io_start`. -/
def watching (l : Loop U T K) (w : IoW U) (fd : ℕ) (events : Events) : Loop U T K :=
  (l.evIoSet w fd events).evIoStart w

theorem watching_spec {l : Loop U T K} (hp : l.pend.InRange) (ht : l.fds.Tracked l.fds.fdchanges) {w : IoW U}
    (hw : l.fds.active w = 0) (fd : ℕ) (events : Events)
    (he : (events ||| evIofdset) &&& ~~~(evIofdset ||| evRead ||| evWrite) = 0) :
    (l.watching w fd events).pend = l.pend ∧
      (l.watching w fd events).fds.Tracked (l.watching w fd events).fds.fdchanges := by
  have hinactive : (l.evIoSet w fd events).fds.active w = 0 := hw
  unfold watching evIoStart
  rw [if_neg (not_not.mpr hinactive)]
  refine ⟨hp.priAdjust _, (ht.evIoSet hw fd events).start hw ?_⟩
  show Function.update l.fds.events w (events ||| evIofdset) w &&& _ = 0
  rw [Function.update_self]
  exact he

/-- A backend that counts its calls. -/
def counting : Setting ℕ ℤ ℕ := .masks fun _ _ _ n => n + 1

theorem fdReifyOne_counting (l : Loop ℕ ℤ ℕ) (fd : ℕ) :
    (fdReifyOne counting.modify l fd).fds = l.fds.reify fd ∧ (fdReifyOne counting.modify l fd).pend = l.pend := by
  unfold fdReifyOne
  dsimp only
  split
  · exact ⟨rfl, rfl⟩
  · exact ⟨rfl, rfl⟩

theorem fdReify_counting {l : Loop ℕ ℤ ℕ} (ht : l.fds.Tracked l.fds.fdchanges) (queue : List ℕ) :
    (l.fdReify counting.modify).pend = l.pend ∧ (l.fdReify counting.modify).fds.Tracked queue := by
  have hfold : ∀ (q : List ℕ) (l : Loop ℕ ℤ ℕ), l.fds.Tracked q →
      (q.foldl (fdReifyOne counting.modify) l).pend = l.pend ∧
        (q.foldl (fdReifyOne counting.modify) l).fds.Tracked [] := by
    intro q
    induction q with
    | nil => exact fun l h => ⟨rfl, h⟩
    | cons fd q ih =>
      intro l h
      obtain ⟨hfds, hpend⟩ := fdReifyOne_counting l fd
      obtain ⟨hp, hq⟩ := ih (fdReifyOne counting.modify l fd) (hfds ▸ h.reify)
      exact ⟨hp.trans hpend, hq⟩
  obtain ⟨hp, hq⟩ := hfold _ l ht
  exact ⟨hp, ⟨hq.linked.mem, hq.linked.nodup⟩, hq.bound, hq.mask,
    fun fd hr => absurd (hq.queued fd hr) List.not_mem_nil, fun fd _ => hq.clean fd List.not_mem_nil⟩

/-- Two watchers of an fd and one of another, which the backend is told of. -/
def told : Loop ℕ ℤ ℕ :=
  ((((Loop.init .epoll false false false 0).watching (.user 1) 3 evRead).watching (.user 2) 3 evWrite).watching
    (.user 3) 5 evRead).fdReify counting.modify

theorem told_spec : told.pend = (Loop.init .epoll false false false 0 : Loop ℕ ℤ ℕ).pend ∧ told.fds.Tracked [] := by
  have hp : (Loop.init .epoll false false false 0 : Loop ℕ ℤ ℕ).pend.InRange := fun w => range_init _ _ _ _ _ w
  have ht : (Loop.init .epoll false false false 0 : Loop ℕ ℤ ℕ).fds.Tracked [] :=
    Fds.tracked_fresh (fun _ => rfl) (fun _ => rfl) []
  obtain ⟨hp₁, ht₁⟩ := watching_spec hp ht (w := .user 1) rfl 3 evRead (by decide)
  rw [← hp₁] at hp
  obtain ⟨hp₂, ht₂⟩ := watching_spec hp ht₁ (w := .user 2) (by decide +kernel) 3 evWrite (by decide)
  rw [← hp₂] at hp
  obtain ⟨hp₃, ht₃⟩ := watching_spec hp ht₂ (w := .user 3) (by decide +kernel) 5 evRead (by decide)
  obtain ⟨hp₄, ht₄⟩ := fdReify_counting ht₃ []
  exact ⟨hp₄.trans (hp₃.trans (hp₂.trans hp₁)), ht₄⟩

/-- A watcher of either fd is pending, and of two more fds the first is dealt with. -/
def amidReify : Loop ℕ ℤ ℕ :=
  fdReifyOne counting.modify ((((told.evFeedEvent (.io (.user 1)) evRead).evFeedEvent (.io (.user 3)) evRead).watching
    (.user 4) 7 evRead).watching (.user 5) 9 evRead) 7

theorem killable_amidReify : amidReify.Killable [9] := by
  obtain ⟨hpend, ht⟩ := told_spec
  have hrange : told.pend.InRange := by
    rw [hpend]
    exact fun w => range_init _ _ _ _ _ w
  have hheld : told.pend.Held := by
    rw [hpend]
    exact ⟨rfl, fun w hw => absurd rfl hw, fun w hw => absurd rfl hw, fun w hw => absurd rfl hw⟩
  have hnone : told.pend.pending = fun _ => 0 := by
    rw [hpend]
    rfl
  have hdummy : told.pend.pendingW = .pendingW := by
    rw [hpend]
    rfl
  -- the events
  obtain ⟨hfed, -⟩ := hheld.feed (w := .io (.user 1)) (by rw [hdummy]; decide) (by rw [hnone]) (hrange _) evRead
  obtain ⟨hfed', -⟩ := hfed.held.feed (w := .io (.user 3)) (by rw [hfed.pendingW, hdummy]; decide)
    (by rw [(hfed.others _ (by decide)).pending, hnone]) (by rw [hfed.priority]; exact hrange _) evRead
  have hmoved : ((told.pend.evFeedEvent (.io (.user 1)) evRead).evFeedEvent (.io (.user 3)) evRead).InRange :=
    fun w => by
      rw [hfed'.priority, hfed.priority]
      exact hrange w
  have hq : told.fds.fdchanges = [] := by decide +kernel
  have hl : ((told.evFeedEvent (.io (.user 1)) evRead).evFeedEvent (.io (.user 3)) evRead).fds.Tracked
      ((told.evFeedEvent (.io (.user 1)) evRead).evFeedEvent (.io (.user 3)) evRead).fds.fdchanges := by
    show told.fds.Tracked told.fds.fdchanges
    rw [hq]
    exact ht
  -- the watchers that are started then
  obtain ⟨hp₁, ht₁⟩ := watching_spec hmoved hl (w := .user 4) (by decide +kernel) 7 evRead (by decide)
  obtain ⟨hp₂, ht₂⟩ := watching_spec (hp₁ ▸ hmoved) ht₁ (w := .user 5) (by decide +kernel) 9 evRead
    (by decide)
  have hqueue : ((((told.evFeedEvent (.io (.user 1)) evRead).evFeedEvent (.io (.user 3)) evRead).watching
      (.user 4) 7 evRead).watching (.user 5) 9 evRead).fds.fdchanges = [7, 9] := by decide +kernel
  rw [hqueue] at ht₂
  unfold amidReify
  generalize (((told.evFeedEvent (.io (.user 1)) evRead).evFeedEvent (.io (.user 3)) evRead).watching
      (.user 4) 7 evRead).watching (.user 5) 9 evRead = l at ht₂ hp₂ ⊢
  obtain ⟨hfds, hsame⟩ := fdReifyOne_counting l 7
  have hreified := ht₂.reify
  rw [← hfds] at hreified
  have hpend : (fdReifyOne counting.modify l 7).pend =
      (told.pend.evFeedEvent (.io (.user 1)) evRead).evFeedEvent (.io (.user 3)) evRead :=
    hsame.trans (hp₂.trans hp₁)
  exact ⟨hreified.linked, hreified.queued, hreified.clean, hpend ▸ hfed'.held,
    by rw [hpend, hfed'.pendingW, hfed.pendingW, hdummy], fun w _ => by rw [hpend]; exact hmoved _⟩

/-- Both watchers of the fd are stopped with the error pending, alone; the other that is pending stays so, and the
backend is told. -/
theorem fd_killed_amidReify :
    (∀ n, 2 ≤ n → fdKillLoop 3 n amidReify = amidReify.fdKill 3) ∧
      (∀ w ∈ [IoW.user 2, .user 1], (amidReify.fdKill 3).fds.active w = 0 ∧
        (amidReify.fdKill 3).pend.pendingFor (.io w) = some (evError ||| evRead ||| evWrite)) ∧
      (amidReify.fdKill 3).active (.io (.user 3)) = 1 ∧
      (amidReify.fdKill 3).pend.pendingFor (.io (.user 3)) = some evRead ∧
      (amidReify.fdKill 3).activecnt = amidReify.activecnt - 2 ∧
      ∃ new, (amidReify.fdKill 3).fds.fdchanges = [7] ++ ([9] ++ new) ∧
        counting.Reports 3 ([9] ++ new) (amidReify.fdKill 3) := by
  have hhead : (amidReify.fds.anfds 3).head = [.user 2, .user 1] := by decide +kernel
  have hevents : (amidReify.fds.anfds 3).events ≠ 0 := by decide +kernel
  obtain ⟨hterm, -, hgone, hothers, hcnt, -, new, hqueue, -, -, hreports⟩ :=
    fd_killed counting amidReify [7] [9] 3 killable_amidReify (by decide +kernel)
  rw [hhead] at hterm hgone hothers hcnt
  obtain ⟨hact, -, hpend⟩ := hothers (.io (.user 3)) (by decide)
  exact ⟨hterm, hgone, hact.trans (by decide +kernel), hpend.trans (by decide +kernel), hcnt, new, hqueue,
    hreports hevents⟩

end Loop

end Qev
