/-
# What ev_once allocates is freed once

A block is live exactly while one of its halves is held by the loop (`Inv.live`): active,
pending or about to be fed. What the loop does to its structures moves a half from one to
another and gives up none (`Stays`), but for the callbacks, which free the block.

`once_reclaim` sees everything that is held (`Core.held_walk`) and frees each block once,
for a block is on its list exactly when its `reclaim` is set (`Threaded`).
-/
import Qev.Loop.Interest
import Qev.Loop.Once

set_option linter.unusedSectionVars false

namespace Qev

open Lib

namespace Loop

variable {U T K : Type} [DecidableEq U] [LinearOrder T] [Add T] [Sub T] [Zero T]
variable {e : Env U T} {l l' : Loop U T K}

/-- The loop still has something to do with the watcher. -/
def InUse (l : Loop U T K) (w : Watcher U) : Prop :=
  l.active w ≠ 0 ∨ l.pend.pending w ≠ 0 ∨ w ∈ l.pend.rfeeds

/-- The lists of the fds, the heap of the timers and the queues are well formed. -/
structure Core (e : Env U T) (l : Loop U T K) : Prop where
  linked : l.fds.Linked
  bound : ∀ fd, l.fds.anfdmax ≤ fd → (l.fds.anfds fd).head = []
  timers : ∃ t, l.timers.Good e.heap t
  pend : ∃ fed, l.pend.Ok fed
  dummy : l.pend.pendingW = .pendingW
  rfeeds : ∀ w ∈ l.pend.rfeeds, w ≠ .pendingW

/-- What the loop does changes neither that its structures are well formed nor which halves it holds. -/
structure Stays (e : Env U T) (l l' : Loop U T K) : Prop where
  core : Core e l'
  held : ∀ w, half w ≠ none → (l'.InUse w ↔ l.InUse w)
  rfeeds : l'.pend.rfeeds = l.pend.rfeeds

theorem Core.stays (h : Core e l) : Stays e l l := ⟨h, fun _ _ => Iff.rfl, rfl⟩

theorem Stays.trans {l'' : Loop U T K} (h : Stays e l l') (h' : Stays e l' l'') : Stays e l l'' :=
  ⟨h'.core, fun w hw => (h'.held w hw).trans (h.held w hw), h'.rfeeds.trans h.rfeeds⟩

/-! ### Feeding and clearing -/

theorem Core.feed (h : Core e l) {w : Watcher U} (hw : w ≠ .pendingW) (revents : Events) :
    Core e (l.evFeedEvent w revents) := by
  obtain ⟨fed, hp⟩ := h.pend
  have hw' : w ≠ l.pend.pendingW := by
    rw [h.dummy]
    exact hw
  exact ⟨h.linked, h.bound, h.timers, ⟨_, Pend.ok_feed hp hw' revents⟩, (Pend.pendingW_feed ..).trans h.dummy,
    fun v hv => h.rfeeds v (by rwa [← Pend.rfeeds_feed l.pend w revents])⟩

theorem held_feed (l : Loop U T K) (w v : Watcher U) (revents : Events) :
    (l.evFeedEvent w revents).InUse v ↔ v = w ∨ l.InUse v := by
  have hp := Pend.pending_feed l.pend w v revents
  have hr := Pend.rfeeds_feed l.pend w revents
  have ha : (l.evFeedEvent w revents).active v = l.active v := by cases v <;> rfl
  unfold InUse
  rw [ha]
  show _ ∨ (l.pend.evFeedEvent w revents).pending v ≠ 0 ∨ v ∈ (l.pend.evFeedEvent w revents).rfeeds ↔ _
  rw [hp, hr]
  tauto

theorem Core.feedHeld (h : Core e l) {w : Watcher U} (hw : w ≠ .pendingW) (hh : half w ≠ none → l.InUse w)
    (revents : Events) : Stays e l (l.evFeedEvent w revents) := by
  refine ⟨h.feed hw revents, fun v hv => ?_, Pend.rfeeds_feed ..⟩
  rw [held_feed]
  refine ⟨?_, .inr⟩
  rintro (rfl | hv')
  · exact hh hv
  · exact hv'

theorem Core.clear (h : Core e l) (w : Watcher U) : Core e (l.clearPending w) := by
  obtain ⟨fed, hp⟩ := h.pend
  obtain ⟨hW, hr, -, -⟩ := Pend.clearPending_frame l.pend w
  exact ⟨h.linked, h.bound, h.timers, ⟨_, Pend.ok_clear hp⟩, hW.trans h.dummy, fun v hv => h.rfeeds v (hr ▸ hv)⟩

theorem held_clear (l : Loop U T K) {w v : Watcher U} (hv : v ≠ w) : (l.clearPending w).InUse v ↔ l.InUse v := by
  have hp := Pend.pending_clear l.pend w v
  have hr := (Pend.clearPending_frame l.pend w).2.1
  rw [if_neg hv] at hp
  have ha : (l.clearPending w).active v = l.active v := by cases v <;> rfl
  unfold InUse
  rw [ha]
  show _ ∨ (l.pend.clearPending w).pending v ≠ 0 ∨ v ∈ (l.pend.clearPending w).rfeeds ↔ _
  rw [hp, hr]

/-- A watcher that is not active is no longer held. -/
theorem held_clear_self (l : Loop U T K) (w : Watcher U) :
    (l.clearPending w).InUse w ↔ l.active w ≠ 0 ∨ w ∈ l.pend.rfeeds := by
  have hp := Pend.pending_clear l.pend w w
  have hr := (Pend.clearPending_frame l.pend w).2.1
  rw [if_pos rfl] at hp
  have ha : (l.clearPending w).active w = l.active w := by cases w <;> rfl
  unfold InUse
  rw [ha]
  show _ ∨ (l.pend.clearPending w).pending w ≠ 0 ∨ w ∈ (l.pend.clearPending w).rfeeds ↔ _
  rw [hp, hr]
  tauto

theorem Core.evClear (h : Core e l) {w : Watcher U} (hw : half w = none) : Stays e l (l.clearPending w) :=
  ⟨h.clear w, fun _ hv => held_clear l fun he => hv (he ▸ hw), (Pend.clearPending_frame l.pend w).2.1⟩

/-! ### The io watchers -/

theorem Core.priAdjust (h : Core e l) (w : Watcher U) : l.pend.priAdjust w = l.pend := by
  obtain ⟨fed, hp⟩ := h.pend
  exact hp.range.priAdjust w

theorem Core.ofFds (h : Core e l) (hl : l'.fds.Linked)
    (hb : ∀ fd, l'.fds.anfdmax ≤ fd → (l'.fds.anfds fd).head = []) (hp : l'.pend = l.pend)
    (ht : l'.timers = l.timers) : Core e l' :=
  ⟨hl, hb, by rw [ht]; exact h.timers, by rw [hp]; exact h.pend, by rw [hp]; exact h.dummy,
    by rw [hp]; exact h.rfeeds⟩

theorem held_congr {v : Watcher U} (hp : l'.pend = l.pend) (ha : l'.active v = l.active v) :
    l'.InUse v ↔ l.InUse v := by
  unfold InUse
  rw [hp, ha]

/-- The lists keep their watchers. -/
theorem Core.sameHeads (h : Core e l) (hhead : ∀ fd, (l'.fds.anfds fd).head = (l.fds.anfds fd).head)
    (hact : l'.fds.active = l.fds.active) (hfd : l'.fds.fd = l.fds.fd) (hmax : l'.fds.anfdmax = l.fds.anfdmax)
    (hp : l'.pend = l.pend) (ht : l'.timers = l.timers) : Core e l' :=
  h.ofFds (h.linked.congr hhead hact hfd) (fun fd hm => by rw [hhead]; exact h.bound fd (hmax ▸ hm)) hp ht

theorem Core.ioStart (h : Core e l) (w : IoW U) : Core e (l.evIoStart w) := by
  by_cases hw : l.fds.active w = 0
  · rw [show l.evIoStart w = _ from if_neg (not_not.mpr hw)]
    refine h.ofFds (h.linked.start hw) (fun fd hm => ?_) (h.priAdjust _) rfl
    replace hm : max l.fds.anfdmax (l.fds.fd w + 1) ≤ fd := hm
    refine (Fds.head_start l.fds w fd).trans ?_
    rw [if_neg (by omega)]
    exact h.bound fd (by omega)
  · rw [show l.evIoStart w = l from if_pos hw]
    exact h

theorem Core.rfeeds_ioStart (h : Core e l) (w : IoW U) : (l.evIoStart w).pend.rfeeds = l.pend.rfeeds := by
  unfold evIoStart
  split
  · rfl
  · show (l.pend.priAdjust _).rfeeds = _
    rw [h.priAdjust]

theorem held_ioStart (h : Core e l) {w : IoW U} (hw : l.fds.active w = 0) (v : Watcher U) :
    (l.evIoStart w).InUse v ↔ v = .io w ∨ l.InUse v := by
  rw [show l.evIoStart w = _ from if_neg (not_not.mpr hw)]
  have hp := h.priAdjust (.io w)
  by_cases hv : v = .io w
  · rw [hv]
    refine iff_of_true (.inl ?_) (.inl rfl)
    show (l.fds.start w).active w ≠ 0
    rw [Fds.active_start, if_pos rfl]
    exact one_ne_zero
  · rw [or_iff_right hv]
    refine held_congr hp ?_
    cases v with
    | io v =>
      show (l.fds.start w).active v = l.fds.active v
      rw [Fds.active_start, if_neg fun he => hv (by rw [he])]
    | _ => rfl

theorem Core.ioStop (h : Core e l) (w : IoW U) : Core e (l.evIoStop w) := by
  have h' := h.clear (.io w)
  by_cases hw : l.fds.active w = 0
  · rw [show l.evIoStop w = l.clearPending (.io w) from if_pos hw]
    exact h'
  · rw [show l.evIoStop w = _ from if_neg hw]
    refine h'.ofFds (h.linked.stop w) (fun fd hm => ?_) rfl rfl
    refine (Fds.head_stop l.fds w fd).trans ?_
    rw [h.bound fd hm]
    split <;> rfl

theorem rfeeds_ioStop (l : Loop U T K) (w : IoW U) : (l.evIoStop w).pend.rfeeds = l.pend.rfeeds := by
  have hr := (Pend.clearPending_frame l.pend (.io w)).2.1
  unfold evIoStop
  dsimp only
  split
  · exact hr
  · exact hr

theorem held_ioStop (l : Loop U T K) (w : IoW U) (v : Watcher U) :
    (l.evIoStop w).InUse v ↔ if v = .io w then v ∈ l.pend.rfeeds else l.InUse v := by
  by_cases hw : l.fds.active w = 0
  · rw [show l.evIoStop w = l.clearPending (.io w) from if_pos hw]
    split
    · rename_i hv
      rw [hv, held_clear_self]
      exact or_iff_right fun hact => hact hw
    · rename_i hv
      exact held_clear l hv
  · rw [show l.evIoStop w = _ from if_neg hw]
    split
    · rename_i hv
      have hself := held_clear_self l v
      have hp := Pend.pending_clear l.pend (.io w) v
      rw [if_pos hv] at hp
      have hr := (Pend.clearPending_frame l.pend (.io w)).2.1
      unfold InUse
      rw [hv] at hp ⊢
      show (l.fds.stop w).active w ≠ 0 ∨ (l.pend.clearPending (.io w)).pending (.io w) ≠ 0 ∨
        .io w ∈ (l.pend.clearPending (.io w)).rfeeds ↔ _
      rw [Fds.active_stop, if_pos rfl, hp, hr]
      tauto
    · rename_i hv
      rw [← held_clear l hv]
      refine held_congr rfl ?_
      cases v with
      | io v =>
        show (l.fds.stop w).active v = l.fds.active v
        rw [Fds.active_stop, if_neg fun he => hv (by rw [he])]
      | _ => rfl

theorem Core.evStop (h : Core e l) {w : IoW U} (hw : half (.io w) = none) : Stays e l (l.evIoStop w) := by
  refine ⟨h.ioStop w, fun v hv => ?_, rfeeds_ioStop l w⟩
  have hne : v ≠ .io w := fun he => hv (he ▸ hw)
  rw [held_ioStop, if_neg hne]

theorem Core.evStart (h : Core e l) {w : IoW U} (hw : half (.io w) = none) : Stays e l (l.evIoStart w) := by
  by_cases ha : l.fds.active w = 0
  · refine ⟨h.ioStart w, fun v hv => ?_, h.rfeeds_ioStart w⟩
    rw [held_ioStart h ha]
    exact or_iff_right fun he => hv (he ▸ hw)
  · rw [show l.evIoStart w = l from if_pos ha]
    exact h.stays

theorem Core.evSet (h : Core e l) {w : IoW U} (hw : l.fds.active w = 0) (fd : ℕ) (events : Events) :
    Stays e l (l.evIoSet w fd events) :=
  ⟨h.ofFds (h.linked.evIoSet hw fd events) h.bound rfl rfl, fun v _ => held_congr rfl (by cases v <;> rfl), rfl⟩

/-- What changes neither the lists nor which watchers are active. -/
theorem Core.sameFds (h : Core e l) {f : Fds (IoW U)} (hhead : ∀ fd, (f.anfds fd).head = (l.fds.anfds fd).head)
    (hact : f.active = l.fds.active) (hfd : f.fd = l.fds.fd) (hmax : f.anfdmax = l.fds.anfdmax) :
    Stays e l { l with fds := f } := by
  refine ⟨h.sameHeads hhead hact hfd hmax rfl rfl, fun v _ => held_congr rfl ?_, rfl⟩
  cases v with
  | io v => exact congrFun hact v
  | _ => rfl

theorem Core.evModify (h : Core e l) (w : IoW U) (events : Events) : Stays e l (l.evIoModify w events) := by
  obtain ⟨hact, hfd⟩ := Fds.active_modify l.fds w events
  refine h.sameFds (Fds.head_modify l.fds w events) hact hfd ?_
  unfold Fds.modify
  dsimp only
  split
  · rfl
  · split
    · rfl
    · rfl

/-- A watcher on the list of an fd is held. -/
theorem Core.head_held (h : Core e l) {fd : ℕ} {w : IoW U} (hw : w ∈ (l.fds.anfds fd).head) : l.InUse (.io w) :=
  .inl ((h.linked.mem fd w).mp hw).1

/-- `fd_kill` leaves the watchers it stops pending. -/
theorem Core.kill (h : Core e l) (fd : ℕ) : Stays e l (l.fdKill fd) := by
  refine fdKillLoop_induction l (P := Stays e l) fd (fun m w hw hm => hm.trans ?_) _ h.stays
  refine ⟨(hm.core.ioStop w).feed (w := .io w) nofun _, fun v _ => ?_, (Pend.rfeeds_feed ..).trans (rfeeds_ioStop m w)⟩
  rw [held_feed, held_ioStop]
  by_cases hv : v = .io w
  · rw [hv]
    exact iff_of_true (.inl rfl) (hm.core.head_held hw)
  · rw [or_iff_right hv, if_neg hv]

theorem Core.eventNocheck (h : Core e l) (fd : ℕ) (revents : Events) : Stays e l (l.fdEventNocheck fd revents) := by
  unfold fdEventNocheck
  have hin : ∀ w ∈ (l.fds.anfds fd).head, l.InUse (.io w) := fun w hw => h.head_held hw
  generalize (l.fds.anfds fd).head = ws at hin
  suffices hs : ∀ m, Stays e l m → Stays e l (ws.foldl _ m) from hs l h.stays
  intro m hm
  induction ws generalizing m with
  | nil => exact hm
  | cons w ws ih =>
    rw [List.foldl_cons]
    refine ih (fun v hv => hin v (List.mem_cons_of_mem _ hv)) _ ?_
    dsimp only
    split
    · exact hm.trans (hm.core.feedHeld (w := .io w) nofun (fun hw => (hm.held _ hw).mpr (hin w List.mem_cons_self)) _)
    · exact hm

theorem Core.event (h : Core e l) (fd : ℕ) (revents : Events) : Stays e l (l.fdEvent fd revents) := by
  unfold fdEvent
  split
  · exact h.eventNocheck fd revents
  · exact h.stays

theorem Core.reify (h : Core e l) (refused : ℕ → Bool) :
    Stays e l (l.fdReify fun fd _ _ l => if refused fd then l.fdKill fd else l) := by
  unfold fdReify
  dsimp only
  suffices hs : ∀ m, Stays e l m → Stays e l (l.fds.fdchanges.foldl
      (fdReifyOne fun fd _ _ l => if refused fd then l.fdKill fd else l) m) by
    have h' := hs l h.stays
    exact h'.trans (h'.core.sameFds (fun _ => rfl) rfl rfl rfl)
  intro m hm
  generalize l.fds.fdchanges = queue
  induction queue generalizing m with
  | nil => exact hm
  | cons fd queue ih =>
    rw [List.foldl_cons]
    refine ih _ ?_
    have h₁ := hm.trans (hm.core.sameFds (f := m.fds.reify fd) (Fds.head_reify m.fds fd) rfl rfl rfl)
    unfold fdReifyOne
    dsimp only
    split
    · exact h₁
    · split
      · exact h₁.trans (h₁.core.kill fd)
      · exact h₁

/-! ### The timers -/

theorem Core.ofTimers (h : Core e l) (ht : ∃ t, l'.timers.Good e.heap t) (hp : l'.pend = l.pend)
    (hf : l'.fds = l.fds) : Core e l' :=
  ⟨by rw [hf]; exact h.linked, by rw [hf]; exact h.bound, ht, by rw [hp]; exact h.pend, by rw [hp]; exact h.dummy,
    by rw [hp]; exact h.rfeeds⟩

theorem Core.timerStart (h : Core e l) (w : TimerW U) : Core e (l.evTimerStart e w) := by
  obtain ⟨t, ht⟩ := h.timers
  have hgood : ∃ t, (l.evTimerStart e w).timers.Good e.heap t := by
    refine ⟨max t (l.timers.cnt + 1), good_evTimerStart (Good.mono ht (le_max_left ..)) ?_⟩
    omega
  by_cases hw : l.timers.active w = 0
  · rw [show l.evTimerStart e w = _ from if_neg (not_not.mpr hw)] at hgood ⊢
    exact h.ofTimers hgood (h.priAdjust _) rfl
  · rw [show l.evTimerStart e w = l from if_pos hw]
    exact h

theorem Core.rfeeds_timerStart (h : Core e l) (w : TimerW U) :
    (l.evTimerStart e w).pend.rfeeds = l.pend.rfeeds := by
  unfold Loop.evTimerStart
  split
  · rfl
  · show (l.pend.priAdjust _).rfeeds = _
    rw [h.priAdjust]

theorem held_timerStart (h : Core e l) {w : TimerW U} (hw : l.timers.active w = 0) (v : Watcher U) :
    (l.evTimerStart e w).InUse v ↔ v = .timer w ∨ l.InUse v := by
  obtain ⟨t, ht⟩ := h.timers
  have hact := ((ht.setAt hw (l.timers.wAt w + l.mnNow)).ok.start (not_not.mpr hw)).active_iff
  rw [show l.evTimerStart e w = _ from if_neg (not_not.mpr hw)]
  have hp := h.priAdjust (.timer w)
  unfold InUse
  dsimp only [evStart, evRef]
  rw [hp]
  cases v with
  | timer v =>
    have hv := hact v
    show (Deadlines.start _ _ w).active v ≠ 0 ∨ _ ↔ _ ∨ l.timers.active v ≠ 0 ∨ _
    rw [hv, Watcher.timer.injEq]
    exact or_assoc
  | _ => exact (or_iff_right nofun).symm

theorem Core.timerStop (h : Core e l) (w : TimerW U) : Core e (l.evTimerStop e w) := by
  have h' := h.clear (.timer w)
  obtain ⟨t, ht⟩ := h.timers
  have hgood : ∃ t, (l.evTimerStop e w).timers.Good e.heap t := ⟨t, good_evTimerStop ht⟩
  by_cases hw : l.timers.active w = 0
  · rw [show l.evTimerStop e w = l.clearPending (.timer w) from if_pos hw]
    exact h'
  · rw [show l.evTimerStop e w = _ from if_neg hw] at hgood ⊢
    exact h'.ofTimers hgood rfl rfl

theorem rfeeds_timerStop (l : Loop U T K) (w : TimerW U) : (l.evTimerStop e w).pend.rfeeds = l.pend.rfeeds := by
  have hr := (Pend.clearPending_frame l.pend (.timer w)).2.1
  unfold evTimerStop
  dsimp only
  split
  · exact hr
  · exact hr

theorem held_timerStop (h : Core e l) (w : TimerW U) (v : Watcher U) :
    (l.evTimerStop e w).InUse v ↔ if v = .timer w then v ∈ l.pend.rfeeds else l.InUse v := by
  by_cases hw : l.timers.active w = 0
  · rw [show l.evTimerStop e w = l.clearPending (.timer w) from if_pos hw]
    split
    · rename_i hv
      rw [hv, held_clear_self]
      exact or_iff_right fun hact => hact hw
    · rename_i hv
      exact held_clear l hv
  · obtain ⟨t, ht⟩ := h.timers
    have hact := (ht.ok.stop hw).active_iff
    rw [show l.evTimerStop e w = _ from if_neg hw]
    split
    · rename_i hv
      have hp := Pend.pending_clear l.pend (.timer w) v
      rw [if_pos hv] at hp
      have hr := (Pend.clearPending_frame l.pend (.timer w)).2.1
      unfold InUse
      rw [hv] at hp ⊢
      show (l.timers.stop e.heap w).active w ≠ 0 ∨ (l.pend.clearPending (.timer w)).pending (.timer w) ≠ 0 ∨
        .timer w ∈ (l.pend.clearPending (.timer w)).rfeeds ↔ _
      rw [hact, hp, hr]
      tauto
    · rename_i hv
      rw [← held_clear l hv]
      unfold InUse
      cases v with
      | timer v =>
        show (l.timers.stop e.heap w).active v ≠ 0 ∨ _ ↔ l.timers.active v ≠ 0 ∨ _
        rw [hact v, and_iff_right fun he => hv (by rw [he])]
        exact Iff.rfl
      | _ => exact Iff.rfl

theorem Core.evTimerStop (h : Core e l) {w : TimerW U} (hw : half (.timer w) = none) :
    Stays e l (l.evTimerStop e w) := by
  refine ⟨h.timerStop w, fun v hv => ?_, rfeeds_timerStop l w⟩
  have hne : v ≠ .timer w := fun he => hv (he ▸ hw)
  rw [held_timerStop h, if_neg hne]

theorem Core.evTimerStart (h : Core e l) {w : TimerW U} (hw : half (.timer w) = none) :
    Stays e l (l.evTimerStart e w) := by
  by_cases ha : l.timers.active w = 0
  · refine ⟨h.timerStart w, fun v hv => ?_, h.rfeeds_timerStart w⟩
    rw [held_timerStart h ha]
    exact or_iff_right fun he => hv (he ▸ hw)
  · rw [show l.evTimerStart e w = l from if_pos ha]
    exact h.stays

/-- What keeps the active timers. -/
theorem Core.sameTimers (h : Core e l) (ht : ∃ t, l'.timers.Good e.heap t)
    (hact : ∀ w, l'.timers.active w ≠ 0 ↔ l.timers.active w ≠ 0) (hp : l'.pend = l.pend) (hf : l'.fds = l.fds)
    (ha : ∀ v, l'.active v = l.active v ∨ ∃ w, v = .timer w) : Stays e l l' := by
  refine ⟨h.ofTimers ht hp hf, fun v _ => ?_, by rw [hp]⟩
  unfold InUse
  rw [hp]
  rcases ha v with ha | ⟨w, rfl⟩
  · rw [ha]
  · exact or_congr (hact w) Iff.rfl

theorem Core.timerSet (h : Core e l) {w : TimerW U} (hw : l.timers.active w = 0) (after repeat' : T) :
    Stays e l (l.evTimerSet w after repeat') := by
  obtain ⟨t, ht⟩ := h.timers
  exact h.sameTimers ⟨t, ht.setAt hw _⟩ (fun _ => Iff.rfl) rfl rfl fun v => .inl (by cases v <;> rfl)

theorem Core.setPriority (h : Core e l) {w : Watcher U} {pri : ℤ} (hw : l.pend.pending w = 0)
    (hpri : minpri ≤ pri ∧ pri ≤ maxpri) : Stays e l (l.evSetPriority w pri) := by
  obtain ⟨fed, hp⟩ := h.pend
  exact ⟨⟨h.linked, h.bound, h.timers, ⟨fed, hp.setPriority hw hpri⟩, h.dummy, h.rfeeds⟩,
    fun v _ => by cases v <;> exact Iff.rfl, rfl⟩

theorem Core.timerAgain (h : Core e l) {w : TimerW U} (hw : half (.timer w) = none) :
    Stays e l (l.evTimerAgain e w) := by
  have hc := h.evClear hw
  refine hc.trans ?_
  have h' := hc.core
  unfold evTimerAgain
  generalize l.clearPending (.timer w) = m at h'
  dsimp only
  obtain ⟨t, ht⟩ := h'.timers
  split
  · rename_i ha
    split
    · refine h'.sameTimers ⟨t, ht.adjust ha _⟩ (fun v => ?_) rfl rfl fun v => ?_
      · have hact := (ht.ok.adjust ha (m.mnNow + m.wRepeat w)).active_iff v
        rw [← ht.ok.linked.retime_active ha] at hact
        exact hact
      · cases v with
        | timer v => exact .inr ⟨v, rfl⟩
        | _ => exact .inl rfl
    · exact h'.evTimerStop hw
  · rename_i ha
    split
    · have hset : Stays e m { m with timers := m.timers.setAt w (m.wRepeat w) } :=
        h'.sameTimers ⟨t, ht.setAt (not_not.mp ha) _⟩ (fun _ => Iff.rfl) rfl rfl fun v => .inl (by cases v <;> rfl)
      exact hset.trans (hset.core.evTimerStart hw)
    · exact h'.stays

theorem Core.feedReverse (h : Core e l) (w : TimerW U) :
    Core e (l.feedReverse (.timer w)) ∧ ∀ v, (l.feedReverse (.timer w)).InUse v ↔ v = .timer w ∨ l.InUse v := by
  obtain ⟨fed, hp⟩ := h.pend
  refine ⟨⟨h.linked, h.bound, h.timers, ⟨fed, hp.feedReverse _⟩, h.dummy, fun v hv => ?_⟩, fun v => ?_⟩
  · rcases List.mem_cons.mp hv with rfl | hv
    · exact nofun
    · exact h.rfeeds v hv
  · have hmem : v ∈ (l.feedReverse (.timer w)).pend.rfeeds ↔ v = .timer w ∨ v ∈ l.pend.rfeeds := List.mem_cons
    have hact : (l.feedReverse (.timer w)).active v = l.active v := by cases v <;> rfl
    unfold InUse
    rw [hmem, hact]
    show _ ∨ l.pend.pending v ≠ 0 ∨ _ ↔ _
    tauto

/-- A timer that `timers_reify` stops is about to be fed. -/
theorem Core.timersReifyOne (h : Core e l) (hd : l.timersDue e) :
    Core e (l.timersReifyOne e) ∧ ∀ v, (l.timersReifyOne e).InUse v ↔ l.InUse v := by
  obtain ⟨t, ht⟩ := h.timers
  have hroot : l.InUse (.timer (l.timers.rootW e.heap)) := .inl (ht.root_late hd.1 hd.2).1
  -- the timer is stopped or gets a new place
  have hfed : ∀ m : Loop U T K, Core e m → (∀ v, v ≠ .timer (l.timers.rootW e.heap) → (m.InUse v ↔ l.InUse v)) →
      Core e (m.feedReverse (.timer (l.timers.rootW e.heap))) ∧
        ∀ v, (m.feedReverse (.timer (l.timers.rootW e.heap))).InUse v ↔ l.InUse v := by
    intro m hm hheld
    obtain ⟨h₁, h₂⟩ := hm.feedReverse (l.timers.rootW e.heap)
    refine ⟨h₁, fun v => (h₂ v).trans ?_⟩
    by_cases hv : v = .timer (l.timers.rootW e.heap)
    · rw [hv]
      exact iff_of_true (.inl rfl) hroot
    · rw [or_iff_right hv, hheld v hv]
  unfold Loop.timersReifyOne
  dsimp only
  split
  · have hsink := fun x => (ht.ok.sink hd.1 x).active_iff
    refine hfed _ (h.ofTimers ⟨t, ht.sink hd.1 _⟩ rfl rfl) fun v _ => ?_
    unfold InUse
    cases v with
    | timer v => exact or_congr (hsink _ v) Iff.rfl
    | _ => exact Iff.rfl
  · refine hfed _ (h.timerStop _) fun v hv => ?_
    rw [held_timerStop h, if_neg hv]

theorem Core.timersReifyLoop (n : ℕ) (h : Core e l) :
    Core e (timersReifyLoop e n l) ∧ ∀ v, (timersReifyLoop e n l).InUse v ↔ l.InUse v := by
  induction n generalizing l with
  | zero => exact ⟨h, fun _ => Iff.rfl⟩
  | succ n ih =>
    unfold Loop.timersReifyLoop
    split
    · rename_i hd
      obtain ⟨h₁, h₂⟩ := h.timersReifyOne hd
      obtain ⟨h₃, h₄⟩ := ih h₁
      exact ⟨h₃, fun v => (h₄ v).trans (h₂ v)⟩
    · exact ⟨h, fun _ => Iff.rfl⟩

theorem Core.queue (h : Core e l) (ws : List (Watcher U)) (hws : ∀ w ∈ ws, w ≠ .pendingW) (revents : Events) :
    Core e (l.queueEvents ws revents) ∧ (∀ v, (l.queueEvents ws revents).InUse v ↔ v ∈ ws ∨ l.InUse v) ∧
      (l.queueEvents ws revents).pend.rfeeds = l.pend.rfeeds := by
  induction ws generalizing l with
  | nil => exact ⟨h, fun v => (or_iff_right List.not_mem_nil).symm, rfl⟩
  | cons w ws ih =>
    obtain ⟨h₁, h₂, h₃⟩ := ih (h.feed (hws w List.mem_cons_self) revents) fun v hv => hws v (List.mem_cons_of_mem _ hv)
    refine ⟨h₁, fun v => (h₂ v).trans ?_, h₃.trans (Pend.rfeeds_feed ..)⟩
    rw [held_feed, List.mem_cons]
    tauto

/-- What was about to be fed is pending. -/
theorem Core.feedReverseDone (h : Core e l) (revents : Events) :
    Core e (l.feedReverseDone revents) ∧ ∀ v, (l.feedReverseDone revents).InUse v ↔ l.InUse v := by
  obtain ⟨h₁, h₂, h₃⟩ := h.queue _ h.rfeeds revents
  obtain ⟨fed, hp⟩ := h₁.pend
  refine ⟨⟨h.linked, h.bound, h.timers, ⟨fed, hp.feedReverse []⟩, h₁.dummy, nofun⟩, fun v => ?_⟩
  have hpend : ∀ v, (l.feedReverseDone revents).pend.pending v ≠ 0 ↔ v ∈ l.pend.rfeeds ∨ l.pend.pending v ≠ 0 := fun v =>
    Pend.pending_feeds l.pend.rfeeds l.pend v revents
  have hact : (l.feedReverseDone revents).active v = l.active v := by cases v <;> rfl
  unfold InUse
  rw [hact, hpend, show (l.feedReverseDone revents).pend.rfeeds = [] from rfl]
  simp only [List.not_mem_nil, or_false]
  tauto

theorem Core.timersReify (h : Core e l) (hr : l.pend.rfeeds = []) : Stays e l (l.timersReify e) := by
  unfold Loop.timersReify
  split
  · obtain ⟨h₁, h₂⟩ := h.timersReifyLoop l.timers.cnt
    obtain ⟨h₃, h₄⟩ := h₁.feedReverseDone evTimer
    exact ⟨h₃, fun v _ => (h₄ v).trans (h₂ v), hr.symm⟩
  · exact h.stays

/-- `timers_reschedule` moves no timer in the heap or out of it. -/
theorem timersReschedule_active [AddRightMono T] {t : ℕ} (ht : l.timers.Good e.heap t) (adjust : T) :
    ∃ d, l.timersReschedule e adjust = { l with timers := d } ∧ ∀ w, d.active w ≠ 0 ↔ l.timers.active w ≠ 0 := by
  have hframe : ∀ (ns : List ℕ) (m : Loop U T K), ∃ d, ns.foldl (timersRescheduleOne e adjust) m = { m with timers := d } := by
    intro ns
    induction ns with
    | nil => exact fun m => ⟨m.timers, rfl⟩
    | cons n ns ih => exact fun m => ih (timersRescheduleOne e adjust m n)
  obtain ⟨d, hd⟩ := hframe (List.range l.timers.cnt) l
  obtain ⟨hl, -⟩ := timersReschedule_fold ht adjust l.timers.cnt (le_refl _) _ rfl
  rw [hd] at hl
  exact ⟨d, hd, hl.act⟩

theorem Core.timersReschedule [AddRightMono T] (h : Core e l) (adjust : T) :
    Stays e l (l.timersReschedule e adjust) := by
  obtain ⟨t, ht⟩ := h.timers
  have hgood := good_timersReschedule ht adjust
  obtain ⟨d, hd, hact⟩ := timersReschedule_active ht adjust
  rw [hd] at hgood ⊢
  refine h.sameTimers ⟨t, hgood⟩ hact rfl rfl fun v => ?_
  cases v with
  | timer w => exact .inr ⟨w, rfl⟩
  | _ => exact .inl rfl

/-- A loop without active watchers. -/
theorem Core.init [Inhabited U] (e : Env U T) (backend : Backend) (noinotify signalfd notimerfd : Bool) (kernel : K) :
    Core e (Loop.init backend noinotify signalfd notimerfd kernel) := by
  have htimers := (heapsOk_noTimers (e := e)
    (l := (Loop.init backend noinotify signalfd notimerfd kernel : Loop U T K))
    ⟨⟨rfl, fun _ => rfl⟩, rfl, fun _ => rfl⟩).untouched.1
  have hpend : (Loop.init backend noinotify signalfd notimerfd kernel : Loop U T K).pend.Ok fun _ => [] :=
    ⟨Loop.range_init backend noinotify signalfd notimerfd kernel, rfl, fun _ _ => rfl,
      fun pri i hi => absurd hi (Nat.not_lt_zero i), fun w hw => absurd rfl hw,
      fun w => iff_of_false (fun hw => hw rfl) (fun hw => hw rfl), fun w hw => absurd rfl hw,
      fun pri i j _ hj => absurd hj (Nat.not_lt_zero j), fun pri i hi => absurd hi (Nat.not_lt_zero i)⟩
  exact ⟨⟨fun fd w => iff_of_false List.not_mem_nil fun hc => hc.1 rfl, fun _ => .nil⟩, fun _ _ => rfl, ⟨_, htimers⟩,
    ⟨_, hpend⟩, rfl, fun _ hw => absurd hw List.not_mem_nil⟩

/-! ### ev_once and the callbacks -/

theorem Core.evInit (h : Core e l) {w : Watcher U} (hw : l.pend.pending w = 0) : Stays e l (l.evInit w) := by
  have hp : l.pend.setPending w 0 = l.pend := by
    unfold Pend.setPending
    rw [← hw, Function.update_eq_self]
  have hs := h.setPriority hw (by decide : minpri ≤ 0 ∧ (0 : ℤ) ≤ maxpri)
  unfold Loop.evInit
  rw [hp]
  exact hs

/-- The io half is started, or not. -/
theorem Core.onceIo (h : Core e l) {u : U} (hu : ¬ l.InUse (.io (.once u))) (c : Prop) [Decidable c] (fd : ℕ)
    (events : Events) (hm : l' = if c then ((l.evInit (.io (.once u))).evIoSet (.once u) fd events).evIoStart (.once u)
      else l.evInit (.io (.once u))) :
    Core e l' ∧ l'.pend.rfeeds = l.pend.rfeeds ∧
      ∀ v, half v ≠ none → (l'.InUse v ↔ v = .io (.once u) ∧ c ∨ l.InUse v) := by
  have hact : l.fds.active (.once u) = 0 := not_not.mp fun ha => hu (.inl ha)
  have hinit := h.evInit (not_not.mp fun hp => hu (.inr (.inl hp)) : l.pend.pending (.io (.once u)) = 0)
  by_cases hc : c
  · rw [if_pos hc] at hm
    have hset := hinit.trans (hinit.core.evSet (w := .once u) hact fd events)
    rw [hm]
    refine ⟨hset.core.ioStart _, (hset.core.rfeeds_ioStart _).trans hset.rfeeds, fun v hv => ?_⟩
    rw [held_ioStart hset.core (w := .once u) hact, hset.held v hv, and_iff_left hc]
  · rw [if_neg hc] at hm
    rw [hm]
    refine ⟨hinit.core, hinit.rfeeds, fun v hv => ?_⟩
    rw [hinit.held v hv]
    exact (or_iff_right fun hc' => hc hc'.2).symm

/-- The timer is started, or not. -/
theorem Core.onceTo (h : Core e l) {u : U} (hu : ¬ l.InUse (.timer (.once u))) (c : Prop) [Decidable c] (after : T)
    (hm : l' = if c then ((l.evInit (.timer (.once u))).evTimerSet (.once u) after 0).evTimerStart e (.once u)
      else l.evInit (.timer (.once u))) :
    Core e l' ∧ l'.pend.rfeeds = l.pend.rfeeds ∧
      ∀ v, half v ≠ none → (l'.InUse v ↔ v = .timer (.once u) ∧ c ∨ l.InUse v) := by
  have hact : l.timers.active (.once u) = 0 := not_not.mp fun ha => hu (.inl ha)
  have hinit := h.evInit (not_not.mp fun hp => hu (.inr (.inl hp)) : l.pend.pending (.timer (.once u)) = 0)
  by_cases hc : c
  · rw [if_pos hc] at hm
    have hset := hinit.trans (hinit.core.timerSet (w := .once u) hact after 0)
    rw [hm]
    refine ⟨hset.core.timerStart _, (hset.core.rfeeds_timerStart _).trans hset.rfeeds, fun v hv => ?_⟩
    rw [held_timerStart hset.core (w := .once u) hact, hset.held v hv, and_iff_left hc]
  · rw [if_neg hc] at hm
    rw [hm]
    refine ⟨hinit.core, hinit.rfeeds, fun v hv => ?_⟩
    rw [hinit.held v hv]
    exact (or_iff_right fun hc' => hc hc'.2).symm

theorem half_eq {v : Watcher U} {u : U} : half v = some u ↔ v = .io (.once u) ∨ v = .timer (.once u) := by
  constructor
  · intro hv
    unfold half at hv
    split at hv
    · rw [Option.some.inj hv]
      exact .inl rfl
    · rw [Option.some.inj hv]
      exact .inr rfl
    · cases hv
  · rintro (rfl | rfl)
    · rfl
    · rfl

/-- What the callback of a half leaves. -/
theorem Core.stopBoth (h : Core e l) (hr : l.pend.rfeeds = []) (u : U) :
    Core e ((l.evIoStop (.once u)).evTimerStop e (.once u)) ∧
      ((l.evIoStop (.once u)).evTimerStop e (.once u)).pend.rfeeds = [] ∧
      ∀ v, ((l.evIoStop (.once u)).evTimerStop e (.once u)).InUse v ↔ half v ≠ some u ∧ l.InUse v := by
  have h' := h.ioStop (.once u)
  have hr' := (rfeeds_ioStop l (.once u)).trans hr
  refine ⟨h'.timerStop _, (rfeeds_timerStop ..).trans hr', fun v => ?_⟩
  rw [held_timerStop h', held_ioStop, hr', hr, Ne, half_eq]
  by_cases hto : v = .timer (.once u)
  · rw [if_pos hto]
    exact iff_of_false List.not_mem_nil fun hc => hc.1 (.inr hto)
  · rw [if_neg hto]
    by_cases hio : v = .io (.once u)
    · rw [if_pos hio]
      exact iff_of_false List.not_mem_nil fun hc => hc.1 (.inl hio)
    · rw [if_neg hio]
      exact (and_iff_right fun hc => hc.elim hio hto).symm

/-- The cursor of `ev_invoke_pending` moves. -/
theorem Core.cursor (h : Core e l) (n : ℕ) :
    Stays e l { l with pend := { l.pend with pendingpri := n } } := by
  obtain ⟨fed, hp⟩ := h.pend
  exact ⟨⟨h.linked, h.bound, h.timers, ⟨fed, hp.cursor n⟩, h.dummy, h.rfeeds⟩,
    fun w _ => by cases w <;> exact Iff.rfl, rfl⟩

/-- The entry at the top of a queue is taken. -/
theorem Core.pop (h : Core e l) {pri : ℕ} (hcnt : l.pend.pendingcnt pri ≠ 0) (hr : l.pend.rfeeds = []) :
    Core e { l with pend := l.pend.pop pri } ∧ (l.pend.pop pri).rfeeds = [] ∧
      ∀ v, InUse { l with pend := l.pend.pop pri } v ↔
        l.active v ≠ 0 ∨ v ≠ (l.pend.entry pri (l.pend.pendingcnt pri - 1)).w ∧ l.pend.pending v ≠ 0 := by
  obtain ⟨fed, hp⟩ := h.pend
  refine ⟨⟨h.linked, h.bound, h.timers, ⟨_, Pend.ok_pop hp hcnt⟩, h.dummy, h.rfeeds⟩, hr, fun v => ?_⟩
  have hpend : (l.pend.pop pri).pending v =
      if v = (l.pend.entry pri (l.pend.pendingcnt pri - 1)).w then 0 else l.pend.pending v := Function.update_apply ..
  have hact : active { l with pend := l.pend.pop pri } v = l.active v := by cases v <;> rfl
  unfold InUse
  dsimp only
  rw [hact, hpend, show (l.pend.pop pri).rfeeds = [] from hr]
  split
  · rename_i hv
    simp [hv]
  · rename_i hv
    simp [hv]

end Loop

namespace Once

open Loop Onces

variable {U T F A : Type} [DecidableEq U] [LinearOrder T] [Add T] [Sub T] [Zero T]
variable {e : Env U T} {s t : Onces U T F A} {u v : U}

/-! ### The invariant -/

/-- The loop holds a half of the block. -/
def Reached (l : Loop U T Unit) (u : U) : Prop := l.InUse (.io (.once u)) ∨ l.InUse (.timer (.once u))

/-- What the history says of a block. -/
def Told (s : Onces U T F A) (u : U) : Prop :=
  Lives u s.hist (match s.blocks u with | some b => .live b.cb b.arg | none => .gone)

structure Inv (e : Env U T) (s : Onces U T F A) : Prop where
  core : Core e s.loop
  rfeeds : s.loop.pend.rfeeds = []
  live : ∀ u, s.blocks u ≠ none ↔ Reached s.loop u
  reclaim : ∀ u b, s.blocks u = some b → b.reclaim = none
  told : ∀ u, Told s u
  alive : s.destroyed = false

theorem reached_iff {l : Loop U T Unit} : Reached l u ↔ ∃ w, half w = some u ∧ l.InUse w := by
  constructor
  · rintro (h | h)
    · exact ⟨_, rfl, h⟩
    · exact ⟨_, rfl, h⟩
  · rintro ⟨w, hw, h⟩
    rcases half_eq.mp hw with rfl | rfl
    · exact .inl h
    · exact .inr h

theorem reached_congr {l m : Loop U T Unit} (h : ∀ w, half w = some u → (m.InUse w ↔ l.InUse w)) :
    Reached m u ↔ Reached l u := or_congr (h _ rfl) (h _ rfl)

/-- A step that has nothing to do with the blocks. -/
structure Quiet (e : Env U T) (s t : Onces U T F A) : Prop where
  loop : Stays e s.loop t.loop
  blocks : t.blocks = s.blocks
  hist : t.hist = s.hist
  destroyed : t.destroyed = s.destroyed

theorem Inv.quiet (h : Inv e s) (hq : Quiet e s t) : Inv e t := by
  refine ⟨hq.loop.core, hq.loop.rfeeds.trans h.rfeeds, fun u => ?_, fun u b hb => ?_, fun u => ?_,
    hq.destroyed.trans h.alive⟩
  · rw [hq.blocks, h.live]
    exact (reached_congr fun w hw => hq.loop.held w (by rw [hw]; exact nofun)).symm
  · rw [hq.blocks] at hb
    exact h.reclaim u b hb
  · unfold Told
    rw [hq.blocks, hq.hist]
    exact h.told u

/-- A new block has a half that is held. -/
theorem Inv.once (h : Inv e s) (hu : s.blocks u = none) (fd : ℤ) (events : Events) (timeout : T) (cb : Option F)
    (arg : A) : Inv e (s.evOnce e u fd events timeout cb arg) := by
  unfold evOnce
  dsimp only
  cases cb with
  | none => exact h
  | some cb =>
    dsimp only
    by_cases hno : (fd < 0 ∨ events &&& (evRead ||| evWrite) = 0) ∧ timeout < 0
    · rw [if_pos hno]
      exact h
    rw [if_neg hno]
    have hnot : ¬ Reached s.loop u := fun hr => (h.live u).mpr hr hu
    obtain ⟨m, hm⟩ : ∃ m, m = if 0 ≤ fd ∧ events &&& (evRead ||| evWrite) ≠ 0 then
      ((s.loop.evInit (.io (.once u))).evIoSet (.once u) fd.toNat (events &&& (evRead ||| evWrite))).evIoStart (.once u)
      else s.loop.evInit (.io (.once u)) := ⟨_, rfl⟩
    obtain ⟨h₁, hr₁, hheld₁⟩ := h.core.onceIo (fun hio => hnot (.inl hio)) _ _ _ hm
    have hto : ¬ m.InUse (.timer (.once u)) := by
      rw [hheld₁ (.timer (.once u)) nofun]
      rintro (⟨hc, -⟩ | hc)
      · cases hc
      · exact hnot (.inr hc)
    rw [← hm]
    obtain ⟨n, hn⟩ : ∃ n, n = if 0 ≤ timeout then
      ((m.evInit (.timer (.once u))).evTimerSet (.once u) timeout 0).evTimerStart e (.once u)
      else m.evInit (.timer (.once u)) := ⟨_, rfl⟩
    obtain ⟨h₂, hr₂, hheld₂⟩ := h₁.onceTo hto _ _ hn
    rw [← hn]
    have hother : ∀ v, v ≠ u → (Reached n v ↔ Reached s.loop v) := fun v hv => reached_congr fun w hw => by
      have hw' : half w ≠ none := by rw [hw]; exact nofun
      have hne : ∀ w', half w' = some u → w ≠ w' := fun w' hu' he => hv (Option.some.inj (hw.symm.trans (he ▸ hu')))
      rw [hheld₂ w hw', hheld₁ w hw', or_iff_right fun hc => hne _ rfl hc.1, or_iff_right fun hc => hne _ rfl hc.1]
    refine ⟨h₂, hr₂.trans (hr₁.trans h.rfeeds), fun v => ?_, fun v b hb => ?_, fun v => ?_, h.alive⟩
    · dsimp only
      by_cases hv : v = u
      · rw [hv, Function.update_self]
        refine iff_of_true nofun ?_
        -- one of the two was to be started
        by_cases hto : 0 ≤ timeout
        · exact .inr ((hheld₂ (.timer (.once u)) nofun).mpr (.inl ⟨rfl, hto⟩))
        · have hio : 0 ≤ fd ∧ events &&& (evRead ||| evWrite) ≠ 0 := by
            by_contra hc
            refine hno ⟨?_, not_le.mp hto⟩
            by_contra hc'
            rw [not_or, not_lt] at hc'
            exact hc hc'
          exact .inl ((hheld₂ (.io (.once u)) nofun).mpr (.inr ((hheld₁ (.io (.once u)) nofun).mpr (.inl ⟨rfl, hio⟩))))
      · rw [Function.update_of_ne hv, hother v hv]
        exact h.live v
    · replace hb : Function.update s.blocks u _ v = some b := hb
      by_cases hv : v = u
      · rw [hv, Function.update_self] at hb
        cases hb
        rfl
      · rw [Function.update_of_ne hv] at hb
        exact h.reclaim v b hb
    · have htold := h.told v
      unfold Told at htold ⊢
      dsimp only
      by_cases hv : v = u
      · rw [hv, hu] at htold
        rw [hv, Function.update_self]
        refine .allocated cb arg ?_ htold
        exact fun _ _ => nofun
      · rw [Function.update_of_ne hv]
        exact .other (fun he : u = v => hv he.symm) htold

/-- The callback of a half, once its entry is taken. -/
theorem Inv.callback {b : Block U F A} (hcore : Core e s.loop) (hr : s.loop.pend.rfeeds = []) (hb : s.blocks u = some b)
    (hlive : ∀ v, v ≠ u → (s.blocks v ≠ none ↔ Reached s.loop v))
    (hreclaim : ∀ v b, s.blocks v = some b → b.reclaim = none) (htold : ∀ v, Told s v)
    (halive : s.destroyed = false) (revents : Events) :
    Inv e (s.onceCb e u revents) ∧
      (s.onceCb e u revents).hist = .called u b.cb b.arg revents :: .freed u :: s.hist := by
  obtain ⟨h₁, h₂, h₃⟩ := hcore.stopBoth hr u
  have heq : s.onceCb e u revents = { s with
      loop := (s.loop.evIoStop (.once u)).evTimerStop e (.once u)
      blocks := Function.update s.blocks u none
      hist := .called u b.cb b.arg revents :: .freed u :: s.hist } := by
    unfold onceCb
    rw [hb]
    rfl
  rw [heq]
  refine ⟨⟨h₁, h₂, fun v => ?_, fun v b hb' => ?_, fun v => ?_, halive⟩, rfl⟩
  · dsimp only
    by_cases hv : v = u
    · rw [hv, Function.update_self]
      refine iff_of_false (fun hc => hc rfl) ?_
      rintro (hc | hc)
      · exact ((h₃ _).mp hc).1 rfl
      · exact ((h₃ _).mp hc).1 rfl
    · rw [Function.update_of_ne hv, hlive v hv]
      refine (reached_congr fun w hw => ?_).symm
      rw [h₃]
      refine and_iff_right fun hc => ?_
      rw [hw] at hc
      exact hv (Option.some.inj hc)
  · replace hb' : Function.update s.blocks u none v = some b := hb'
    by_cases hv : v = u
    · rw [hv, Function.update_self] at hb'
      cases hb'
    · rw [Function.update_of_ne hv] at hb'
      exact hreclaim v b hb'
  · have htold := htold v
    unfold Told at htold ⊢
    dsimp only
    by_cases hv : v = u
    · rw [hv, hb] at htold
      rw [hv, Function.update_self]
      exact .called revents (.freed htold)
    · rw [Function.update_of_ne hv]
      exact .other (fun he : u = v => hv he.symm) (.other (fun he : u = v => hv he.symm) htold)

/-! ### ev_invoke_pending -/

/-- The cursor moves, or the top entry of its queue is taken and the callback called. -/
theorem tick_cases (ht : s.tick e = some t) :
    (∃ n, t.loop = { s.loop with pend := { s.loop.pend with pendingpri := n } } ∧ t.blocks = s.blocks ∧
      t.hist = s.hist ∧ t.destroyed = s.destroyed) ∨
    ∃ pri, s.loop.pend.pendingcnt pri ≠ 0 ∧
      t = ({ s with loop := { s.loop with pend := s.loop.pend.pop pri }, ctl := .user } : Onces U T F A).invoke e
        (s.loop.pend.entry pri (s.loop.pend.pendingcnt pri - 1)).w
        (s.loop.pend.entry pri (s.loop.pend.pendingcnt pri - 1)).events := by
  unfold tick Pend.tick at ht
  dsimp only at ht
  cases hc : s.ctl with
  | user => simp [hc] at ht
  | dec =>
    rw [hc] at ht
    cases ht
    exact .inl ⟨_, rfl, rfl, rfl, rfl⟩
  | test =>
    rw [hc] at ht
    dsimp only at ht
    split at ht
    · rename_i hcnt
      cases ht
      exact .inr ⟨_, hcnt, rfl⟩
    · split at ht
      · cases ht
        exact .inl ⟨_, rfl, rfl, rfl, rfl⟩
      · cases ht
        exact .inl ⟨_, rfl, rfl, rfl, rfl⟩

/-- The events pending on both halves. -/
def due (l : Loop U T Unit) (u : U) : Events :=
  l.pend.pendingEvents (.io (.once u)) ||| l.pend.pendingEvents (.timer (.once u))

theorem pendingEvents_top {l : Loop U T Unit} (h : Core e l) {pri : ℕ} (hcnt : l.pend.pendingcnt pri ≠ 0) {w : Watcher U}
    (hw : (l.pend.entry pri (l.pend.pendingcnt pri - 1)).w = w) (hne : w ≠ .pendingW) :
    l.pend.pending w ≠ 0 ∧
      l.pend.pendingEvents w = (l.pend.entry pri (l.pend.pendingcnt pri - 1)).events ∧
      ∀ v, v ≠ w → (l.pend.pop pri).pendingEvents v = l.pend.pendingEvents v := by
  obtain ⟨fed, hp⟩ := h.pend
  have hne' : (l.pend.entry pri (l.pend.pendingcnt pri - 1)).w ≠ l.pend.pendingW := by
    rw [hw, h.dummy]
    exact hne
  obtain ⟨hpri, hpend⟩ := hp.live pri _ (by omega) hne'
  rw [hw] at hpri hpend
  have h0 : l.pend.pending w ≠ 0 := by
    rw [hpend]
    exact Nat.succ_ne_zero _
  refine ⟨h0, ?_, fun v hv => ?_⟩
  · unfold Pend.pendingEvents
    rw [if_pos h0, hpend, ← hpri, Nat.add_sub_cancel]
  · have hpop : (l.pend.pop pri).pending v = l.pend.pending v :=
      Function.update_of_ne (fun he => hv (he.trans hw)) ..
    unfold Pend.pendingEvents
    rw [hpop]
    rfl

/-- The callback of a half whose entry was taken, once the other half is cleared. -/
theorem Inv.taken (h : Inv e s) {pri : ℕ} (hcnt : s.loop.pend.pendingcnt pri ≠ 0)
    (other : Watcher U)
    (hw : half (s.loop.pend.entry pri (s.loop.pend.pendingcnt pri - 1)).w = some u) (ho : half other = some u) (revents : Events) : ∃ b, s.blocks u = some b ∧
      Inv e (({ s with
        loop := clearPending { s.loop with pend := s.loop.pend.pop pri } other
        ctl := .user } : Onces U T F A).onceCb e u revents) ∧
      (({ s with
        loop := clearPending { s.loop with pend := s.loop.pend.pop pri } other
        ctl := .user } : Onces U T F A).onceCb e u revents).hist =
          .called u b.cb b.arg revents :: .freed u :: s.hist := by
  obtain ⟨hcore, hr, hheld⟩ := h.core.pop hcnt h.rfeeds
  have hpend := (pendingEvents_top h.core hcnt rfl fun hc => by rw [hc] at hw; cases hw).1
  obtain ⟨b, hb⟩ := Option.ne_none_iff_exists'.mp ((h.live u).mpr (reached_iff.mpr ⟨_, hw, .inr (.inl hpend)⟩))
  refine ⟨b, hb, Inv.callback
    (s := { s with loop := clearPending { s.loop with pend := s.loop.pend.pop pri } other, ctl := .user })
    (hcore.clear other) ((Pend.clearPending_frame ..).2.1.trans hr) hb (fun v hv => ?_)
    h.reclaim h.told h.alive revents⟩
  refine (h.live v).trans (reached_congr fun x hx => ?_).symm
  have hne : ∀ w', half w' = some u → x ≠ w' := fun w' hu' he => hv (Option.some.inj (hx.symm.trans (he ▸ hu')))
  rw [held_clear _ (hne _ ho), hheld, and_iff_right (hne _ hw)]
  unfold InUse
  rw [h.rfeeds]
  simp only [List.not_mem_nil, or_false]

/-- The callbacks get what is pending on both halves. -/
theorem Inv.tick (h : Inv e s) (ht : s.tick e = some t) :
    Inv e t ∧ (t.hist = s.hist ∨ ∃ u b, s.blocks u = some b ∧
      t.hist = .called u b.cb b.arg (due s.loop u) :: .freed u :: s.hist) := by
  rcases tick_cases ht with ⟨n, hloop, hblocks, hhist, hd⟩ | ⟨pri, hcnt, rfl⟩
  · exact ⟨h.quiet ⟨by rw [hloop]; exact h.core.cursor n, hblocks, hhist, hd⟩, .inl hhist⟩
  · have htop := fun w => pendingEvents_top h.core hcnt (w := w)
    have htaken := fun u other => h.taken hcnt (u := u) other
    obtain ⟨hcore, hr, hheld⟩ := h.core.pop hcnt h.rfeeds
    generalize s.loop.pend.entry pri (s.loop.pend.pendingcnt pri - 1) = top at htop htaken hheld ⊢
    obtain ⟨w, events, stamp⟩ := top
    unfold Onces.invoke
    dsimp only at htop htaken hheld ⊢
    split
    · rename_i u
      obtain ⟨-, hown, hother⟩ := htop (.io (.once u)) rfl nofun
      obtain ⟨b, hb, h₁, h₂⟩ := htaken u (.timer (.once u)) rfl rfl (due s.loop u)
      have hrev : events ||| (s.loop.pend.pop pri).pendingEvents (.timer (.once u)) = due s.loop u := by
        rw [hother (.timer (.once u)) nofun, ← hown]
        rfl
      unfold onceCbIo
      dsimp only
      rw [hrev]
      exact ⟨h₁, .inr ⟨u, b, hb, h₂⟩⟩
    · rename_i u
      obtain ⟨-, hown, hother⟩ := htop (.timer (.once u)) rfl nofun
      obtain ⟨b, hb, h₁, h₂⟩ := htaken u (.io (.once u)) rfl rfl (due s.loop u)
      have hrev : events ||| (s.loop.pend.pop pri).pendingEvents (.io (.once u)) = due s.loop u := by
        rw [hother (.io (.once u)) nofun, ← hown]
        exact BitVec.or_comm ..
      unfold onceCbTo
      dsimp only
      rw [hrev]
      exact ⟨h₁, .inr ⟨u, b, hb, h₂⟩⟩
    · rename_i hio hto
      refine ⟨h.quiet ⟨⟨hcore, fun v hv => ?_, hr.trans h.rfeeds.symm⟩, rfl, rfl, rfl⟩, .inl rfl⟩
      have hne : v ≠ w := by
        rintro rfl
        obtain ⟨u, hu⟩ := Option.ne_none_iff_exists'.mp hv
        rcases half_eq.mp hu with rfl | rfl
        · exact hio u rfl
        · exact hto u rfl
      rw [hheld, and_iff_right hne]
      unfold InUse
      rw [h.rfeeds]
      simp only [List.not_mem_nil, or_false]

/-! ### once_reclaim -/

theorem mem_walk {l : Loop U T Unit} {w : Watcher U} : w ∈ walk e l ↔
    (∃ pri i, pri < numpri ∧ i < l.pend.pendingcnt pri ∧ (l.pend.entry pri i).w = w) ∨
    (∃ fd x, fd < l.fds.anfdmax ∧ x ∈ (l.fds.anfds fd).head ∧ .io x = w) ∨
    ∃ i, i < l.timers.cnt ∧ .timer (l.timers.heap.cells (i + e.heap.heap0)).anheW = w := by
  unfold walk
  simp only [List.mem_append, List.mem_flatMap, List.mem_reverse, List.mem_range, List.mem_map, or_assoc]
  refine or_congr ⟨?_, ?_⟩ (or_congr ⟨?_, ?_⟩ Iff.rfl)
  · rintro ⟨pri, hpri, i, hi, hw⟩
    exact ⟨pri, i, hpri, hi, hw⟩
  · rintro ⟨pri, i, hpri, hi, hw⟩
    exact ⟨pri, hpri, i, hi, hw⟩
  · rintro ⟨fd, hfd, x, hx, hw⟩
    exact ⟨fd, x, hfd, hx, hw⟩
  · rintro ⟨fd, x, hfd, hx, hw⟩
    exact ⟨fd, hfd, x, hx, hw⟩

/-- `once_reclaim` sees the halves that are held, and no others. -/
theorem Inv.walk_iff (h : Inv e s) (u : U) : (∃ w ∈ walk e s.loop, half w = some u) ↔ s.blocks u ≠ none := by
  obtain ⟨fed, hp⟩ := h.core.pend
  obtain ⟨t, ht⟩ := h.core.timers
  rw [h.live, reached_iff]
  constructor
  · rintro ⟨w, hw, hu⟩
    refine ⟨w, hu, ?_⟩
    rcases mem_walk.mp hw with ⟨pri, i, -, hi, rfl⟩ | ⟨fd, x, -, hx, rfl⟩ | ⟨i, hi, rfl⟩
    · have hne : (s.loop.pend.entry pri i).w ≠ s.loop.pend.pendingW := by
        intro hc
        rw [hc, h.core.dummy] at hu
        cases hu
      refine .inr (.inl ?_)
      rw [(hp.live pri i hi hne).2]
      exact Nat.succ_ne_zero i
    · exact h.core.head_held hx
    · exact .inl (ht.ok.linked.entry (by omega) (by omega))
  · rintro ⟨w, hu, hw⟩
    refine ⟨w, mem_walk.mpr ?_, hu⟩
    rcases hw with hact | hpend | hr
    · rcases half_eq.mp hu with rfl | rfl
      · have hm := (h.core.linked.mem _ (.once u)).mpr ⟨hact, rfl⟩
        refine .inr (.inl ⟨_, _, ?_, hm, rfl⟩)
        by_contra hmax
        rw [h.core.bound _ (not_lt.mp hmax)] at hm
        exact List.not_mem_nil hm
      · obtain ⟨h₁, h₂, h₃⟩ := ht.ok.linked.place hact
        refine .inr (.inr ⟨s.loop.timers.active (.once u) - e.heap.heap0, by omega, ?_⟩)
        rw [Nat.sub_add_cancel h₁, h₃]
    · obtain ⟨h₁, h₂⟩ := hp.held w hpend
      exact .inl ⟨_, _, hp.range.abspri_lt w, by omega, h₂⟩
    · rw [h.rfeeds] at hr
      exact absurd hr List.not_mem_nil

/-- The list of `once_reclaim`, by `reclaim`, has the blocks `L`, and the others are as they were. -/
structure Threaded (blocks : U → Option (Block U F A)) (st : Option U × (U → Option (Block U F A))) (L : List U) :
    Prop where
  nodup : L.Nodup
  head : st.1 = L.head?
  other : ∀ u, u ∉ L → st.2 u = blocks u
  chain : ∀ pre u post, L = pre ++ u :: post →
    ∃ b, blocks u = some b ∧ st.2 u = some { b with reclaim := some (post.head?.getD u) }

variable {blocks : U → Option (Block U F A)} {st : Option U × (U → Option (Block U F A))} {L : List U}

theorem Threaded.mem (h : Threaded blocks st L) (hu : u ∈ L) :
    ∃ b r, blocks u = some b ∧ st.2 u = some { b with reclaim := some r } := by
  obtain ⟨pre, post, hL⟩ := List.append_of_mem hu
  obtain ⟨b, hb, hst⟩ := h.chain pre u post hL
  exact ⟨b, _, hb, hst⟩

/-- A block is added the first time it is seen. -/
theorem Threaded.collect (h : Threaded blocks st L) (hnone : ∀ u b, blocks u = some b → b.reclaim = none)
    (w : Watcher U) : ∃ L', Threaded blocks (onceCollect st w) L' ∧ L'.length ≤ L.length + 1 ∧
      ∀ u, u ∈ L' ↔ u ∈ L ∨ half w = some u ∧ blocks u ≠ none := by
  unfold onceCollect
  cases hw : half w with
  | none =>
    refine ⟨L, h, Nat.le_succ _, fun u => (or_iff_left ?_).symm⟩
    rintro ⟨hc, -⟩
    cases hc
  | some v =>
    dsimp only
    by_cases hv : v ∈ L
    · obtain ⟨b, r, -, hst⟩ := h.mem hv
      rw [hst]
      refine ⟨L, h, Nat.le_succ _, fun u => (or_iff_left_of_imp ?_).symm⟩
      rintro ⟨hc, -⟩
      cases hc
      exact hv
    · rw [h.other v hv]
      cases hb : blocks v with
      | none =>
        refine ⟨L, h, Nat.le_succ _, fun u => (or_iff_left ?_).symm⟩
        rintro ⟨hc, hne⟩
        cases hc
        exact hne hb
      | some b =>
        obtain ⟨cb, arg, reclaim⟩ := b
        obtain rfl : reclaim = none := hnone v _ hb
        refine ⟨v :: L, ⟨List.nodup_cons.mpr ⟨hv, h.nodup⟩, rfl, fun u hu => ?_, fun pre u post hL => ?_⟩, le_rfl,
          fun u => ?_⟩
        · have hne : u ≠ v := fun he => hu (he ▸ List.mem_cons_self)
          exact (Function.update_of_ne hne ..).trans (h.other u fun hm => hu (List.mem_cons_of_mem _ hm))
        · cases pre with
          | nil =>
            cases hL
            refine ⟨_, hb, ?_⟩
            rw [← h.head]
            exact Function.update_self ..
          | cons v' pre =>
            cases hL
            obtain ⟨b, hb', hst⟩ := h.chain pre u post rfl
            have hne : u ≠ v := fun he => hv (he ▸ List.mem_append_right _ List.mem_cons_self)
            exact ⟨b, hb', (Function.update_of_ne hne ..).trans hst⟩
        · rw [List.mem_cons, or_comm]
          refine or_congr Iff.rfl ⟨?_, ?_⟩
          · rintro rfl
            exact ⟨rfl, by rw [hb]; exact nofun⟩
          · rintro ⟨hc, -⟩
            cases hc
            rfl

theorem Threaded.collects (ws : List (Watcher U)) (h : Threaded blocks st L)
    (hnone : ∀ u b, blocks u = some b → b.reclaim = none) :
    ∃ L', Threaded blocks (ws.foldl onceCollect st) L' ∧ L'.length ≤ L.length + ws.length ∧
      ∀ u, u ∈ L' ↔ u ∈ L ∨ (∃ w ∈ ws, half w = some u) ∧ blocks u ≠ none := by
  induction ws generalizing st L with
  | nil =>
    refine ⟨L, h, le_rfl, fun u => (or_iff_left ?_).symm⟩
    rintro ⟨⟨w, hw, -⟩, -⟩
    exact List.not_mem_nil hw
  | cons w ws ih =>
    obtain ⟨L₁, h₁, hlen₁, hmem₁⟩ := h.collect hnone w
    obtain ⟨L₂, h₂, hlen₂, hmem₂⟩ := ih h₁
    refine ⟨L₂, h₂, ?_, fun u => ?_⟩
    · rw [List.length_cons]
      omega
    · rw [hmem₂, hmem₁]
      simp only [List.mem_cons, exists_eq_or_imp]
      tauto

/-- The blocks of the list are freed, each once. -/
theorem freeLoop_eq (L : List U) (n : ℕ) (s : Onces U T F A) (hn : L.length ≤ n) (hnodup : L.Nodup)
    (hchain : ∀ pre u post, L = pre ++ u :: post → ∃ b, s.blocks u = some b ∧ b.reclaim = some (post.head?.getD u)) :
    freeLoop n L.head? s = { s with
      blocks := fun u => if u ∈ L then none else s.blocks u
      hist := (L.map .freed).reverse ++ s.hist } := by
  induction L generalizing n s with
  | nil =>
    have hs : s = { s with blocks := fun u => if u ∈ [] then none else s.blocks u, hist := s.hist } := by simp
    cases n with
    | zero => exact hs
    | succ n => exact hs
  | cons u L ih =>
    cases n with
    | zero => exact absurd hn (by rw [List.length_cons]; omega)
    | succ n =>
      obtain ⟨hu, hnodup'⟩ := List.nodup_cons.mp hnodup
      obtain ⟨b, hb, hrec⟩ := hchain [] u L rfl
      -- the tail of the list points to itself
      have hnext : (if b.reclaim = some u then none else b.reclaim) = L.head? := by
        rw [hrec]
        cases L with
        | nil => exact if_pos rfl
        | cons v L =>
          refine if_neg fun hc => hu ?_
          rw [← Option.some.inj hc]
          exact List.mem_cons_self
      rw [List.head?_cons]
      unfold freeLoop
      rw [hb]
      dsimp only
      rw [hnext, ih n (s.free u) (by rw [List.length_cons] at hn; omega) hnodup' fun pre v post hL => ?_]
      · unfold Onces.free
        dsimp only
        congr 1
        · funext v
          by_cases hv : v = u
          · simp [hv]
          · simp [hv]
        · simp
      · obtain ⟨b', hb', hrec'⟩ := hchain (u :: pre) v post (by rw [hL]; rfl)
        have hne : v ≠ u := by
          rintro rfl
          exact hu (hL ▸ List.mem_append_right _ List.mem_cons_self)
        exact ⟨b', (Function.update_of_ne hne ..).trans hb', hrec'⟩

/-- The history of a block that was freed, or of another. -/
theorem lives_freed (L : List U) (hnodup : L.Nodup) {hist : List (Ev U F A)} {st : Life F A}
    (h : Lives u hist st) : (u ∉ L → Lives u ((L.map .freed).reverse ++ hist) st) ∧
      ∀ cb arg, st = .live cb arg → u ∈ L → Lives u ((L.map .freed).reverse ++ hist) (.freed cb arg) := by
  induction L generalizing hist st with
  | nil => exact ⟨fun _ => h, fun _ _ _ hm => absurd hm List.not_mem_nil⟩
  | cons v L ih =>
    obtain ⟨hv, hnodup'⟩ := List.nodup_cons.mp hnodup
    simp only [List.map_cons, List.reverse_cons, List.append_assoc, List.singleton_append]
    by_cases hu : u = v
    · refine ⟨fun hm => absurd (hu ▸ List.mem_cons_self) hm, fun cb arg hst _ => ?_⟩
      rw [hst] at h
      rw [← hu] at hv ⊢
      exact (ih hnodup' (.freed h)).1 hv
    · obtain ⟨h₁, h₂⟩ := ih hnodup' (.other (fun he : v = u => hu he.symm) h : Lives u (.freed v :: hist) st)
      exact ⟨fun hm => h₁ fun hm' => hm (List.mem_cons_of_mem _ hm'),
        fun cb arg hst hm => h₂ cb arg hst ((List.mem_cons.mp hm).resolve_left hu)⟩

/-- The loop is gone: no block is left. -/
structure Gone (e : Env U T) (s : Onces U T F A) : Prop where
  destroyed : s.destroyed = true
  blocks : ∀ u, s.blocks u = none
  told : ∀ u, ∃ st, Lives u s.hist st ∧ ∀ cb arg, st ≠ .live cb arg
  unnamed : ∀ u, Unnamed e s.loop u

theorem Inv.destroyRest (h : Inv e s) : Gone e (s.destroyRest e) ∧
    ∃ L : List U, (s.destroyRest e).hist = (L.map .freed).reverse ++ s.hist := by
  have h0 : Threaded s.blocks ((none, s.blocks) : Option U × (U → Option (Block U F A))) [] :=
    ⟨.nil, rfl, fun _ _ => rfl, fun pre u post hL => absurd hL (by simp)⟩
  obtain ⟨L, hL, hlen, hmem⟩ := h0.collects (walk e s.loop) h.reclaim
  have hall : ∀ u, u ∈ L ↔ s.blocks u ≠ none := by
    intro u
    rw [hmem, h.walk_iff]
    simp
  have heq : s.onceReclaim e = { s with blocks := fun _ => none, hist := (L.map .freed).reverse ++ s.hist } := by
    unfold onceReclaim
    dsimp only
    rw [hL.head, freeLoop_eq L _ _ (by simpa using hlen) hL.nodup fun pre u post heq => ?_]
    · congr 1
      funext u
      split
      · rfl
      · rename_i hu
        exact (hL.other u hu).trans (not_not.mp fun hc => hu ((hall u).mpr hc))
    · obtain ⟨b, -, hb⟩ := hL.chain pre u post heq
      exact ⟨_, hb, rfl⟩
  unfold Onces.destroyRest
  dsimp only
  rw [heq]
  refine ⟨⟨rfl, fun _ => rfl, fun u => ?_, fun u => ⟨fun _ => List.not_mem_nil, fun k h₁ h₂ => ?_,
    fun pri i hi => absurd hi (Nat.not_lt_zero i), fun w hw => absurd hw List.not_mem_nil⟩⟩, L, rfl⟩
  · have htold := h.told u
    unfold Told at htold
    cases hb : s.blocks u with
    | none =>
      rw [hb] at htold
      exact ⟨_, (lives_freed L hL.nodup htold).1 fun hm => (hall u).mp hm hb, fun _ _ => nofun⟩
    | some b =>
      rw [hb] at htold
      exact ⟨_, (lives_freed L hL.nodup htold).2 _ _ rfl ((hall u).mpr (by rw [hb]; exact nofun)), fun _ _ => nofun⟩
  · replace h₂ : k < e.heap.heap0 + 0 := h₂
    omega

/-! ### Runs -/

/-- What user code and the passes do to the loop, blocks apart. -/
theorem Inv.loopAct [AddRightMono T] (h : Inv e s) {a : Act U T F A} (ha : Allowed s a) (hne : a ≠ .tick) :
    Quiet e s (call e s a) ∨ (∃ u fd events timeout cb arg, a = .evOnce u fd events timeout cb arg) ∨
      a = .evLoopDestroy [] := by
  cases a with
  | evOnce u fd events timeout cb arg => exact .inr (.inl ⟨_, _, _, _, _, _, rfl⟩)
  | feedEvent w revents => exact .inl ⟨h.core.feedHeld ha.1 (fun hw => absurd ha.2 hw) revents, rfl, rfl, rfl⟩
  | clearPending w => exact .inl ⟨h.core.evClear ha.2, rfl, rfl, rfl⟩
  | evSetPriority w pri => exact .inl ⟨h.core.setPriority ha.2.1 ha.2.2, rfl, rfl, rfl⟩
  | evIoSet w fd events => exact .inl ⟨h.core.evSet ha.2 fd events, rfl, rfl, rfl⟩
  | evIoStart w => exact .inl ⟨h.core.evStart ha, rfl, rfl, rfl⟩
  | evIoStop w => exact .inl ⟨h.core.evStop ha, rfl, rfl, rfl⟩
  | evIoModify w events => exact .inl ⟨h.core.evModify w events, rfl, rfl, rfl⟩
  | evTimerSet w after repeat' => exact .inl ⟨h.core.timerSet ha.2 after repeat', rfl, rfl, rfl⟩
  | evTimerStart w => exact .inl ⟨h.core.evTimerStart ha, rfl, rfl, rfl⟩
  | evTimerStop w => exact .inl ⟨h.core.evTimerStop ha, rfl, rfl, rfl⟩
  | evTimerAgain w => exact .inl ⟨h.core.timerAgain ha, rfl, rfl, rfl⟩
  | fdEvent fd revents => exact .inl ⟨h.core.event fd revents, rfl, rfl, rfl⟩
  | fdEventNocheck fd revents => exact .inl ⟨h.core.eventNocheck fd revents, rfl, rfl, rfl⟩
  | fdKill fd => exact .inl ⟨h.core.kill fd, rfl, rfl, rfl⟩
  | fdReify refused => exact .inl ⟨h.core.reify refused, rfl, rfl, rfl⟩
  | timersReify => exact .inl ⟨h.core.timersReify h.rfeeds, rfl, rfl, rfl⟩
  | timersReschedule adjust => exact .inl ⟨h.core.timersReschedule adjust, rfl, rfl, rfl⟩
  | timeUpdate now =>
    exact .inl ⟨⟨⟨h.core.linked, h.core.bound, h.core.timers, h.core.pend, h.core.dummy, h.core.rfeeds⟩,
      fun w _ => by cases w <;> exact Iff.rfl, rfl⟩, rfl, rfl, rfl⟩
  | invokePending => exact .inl ⟨h.core.cursor numpri, rfl, rfl, rfl⟩
  | ret => exact .inl ⟨h.core.stays, rfl, rfl, rfl⟩
  | evLoopDestroy cleanups =>
    cases cleanups with
    | nil => exact .inr (.inr rfl)
    | cons c cs =>
      obtain ⟨h₁, h₂, h₃⟩ := h.core.queue ((c :: cs).map .cleanup) (fun w hw => by
        obtain ⟨x, -, rfl⟩ := List.mem_map.mp hw
        exact nofun) evCleanup
      have hq : Stays e s.loop (s.loop.queueEvents ((c :: cs).map .cleanup) evCleanup) := by
        refine ⟨h₁, fun v hv => (h₂ v).trans (or_iff_right fun hm => ?_), h₃⟩
        obtain ⟨x, -, rfl⟩ := List.mem_map.mp hm
        exact hv rfl
      exact .inl ⟨hq.trans (hq.core.cursor numpri), rfl, rfl, rfl⟩
  | tick => exact absurd rfl hne

/-- A callback is called with what was pending on both halves before. -/
def CallsDue (s t : Onces U T F A) : Prop :=
  s.hist.length < t.hist.length → ∀ u cb arg revents, t.hist.head? = some (.called u cb arg revents) →
    revents = due s.loop u

theorem Inv.destroyDue (h : Inv e s) : Gone e (s.destroyRest e) ∧ CallsDue s (s.destroyRest e) := by
  obtain ⟨hg, L, hL⟩ := h.destroyRest
  refine ⟨hg, fun hlen u cb arg revents hcall => ?_⟩
  rw [hL] at hlen hcall
  cases hr : L.reverse with
  | nil =>
    rw [List.reverse_eq_nil_iff.mp hr] at hlen
    exact absurd hlen (lt_irrefl _)
  | cons v vs =>
    rw [← List.map_reverse, hr] at hcall
    cases hcall

theorem Inv.step [AddRightMono T] (h : Inv e s) {a : Act U T F A} (hs : step e s a = some t) :
    (Inv e t ∨ Gone e t) ∧ CallsDue s t := by
  unfold Once.step at hs
  rw [if_neg (by rw [h.alive]; exact nofun)] at hs
  split at hs
  · unfold goOn at hs
    split at hs
    · cases hs
      obtain ⟨h₁, h₂⟩ := h.destroyDue
      exact ⟨.inr h₁, h₂⟩
    · obtain ⟨h₁, h₂⟩ := h.tick hs
      refine ⟨.inl h₁, fun hlen u cb arg revents hcall => ?_⟩
      rcases h₂ with hhist | ⟨v, b, -, hhist⟩
      · rw [hhist] at hlen
        exact absurd hlen (lt_irrefl _)
      · rw [hhist] at hcall
        cases hcall
        rfl
  · rename_i hne
    rw [Option.ite_none_right_eq_some, Option.some.injEq] at hs
    obtain ⟨⟨-, hall⟩, rfl⟩ := hs
    rcases h.loopAct hall hne with hq | ⟨u, fd, events, timeout, cb, arg, rfl⟩ | rfl
    · refine ⟨.inl (h.quiet hq), fun hlen => ?_⟩
      rw [hq.hist] at hlen
      exact absurd hlen (lt_irrefl _)
    · refine ⟨.inl (h.once hall fd events timeout cb arg), fun hlen v cb' arg' revents hcall => ?_⟩
      replace hlen : s.hist.length < (s.evOnce e u fd events timeout cb arg).hist.length := hlen
      replace hcall : (s.evOnce e u fd events timeout cb arg).hist.head? = _ := hcall
      unfold evOnce at hlen hcall
      dsimp only at hlen hcall
      cases cb with
      | none => exact absurd hlen (lt_irrefl _)
      | some cb =>
        dsimp only at hlen hcall
        split at hlen
        · exact absurd hlen (lt_irrefl _)
        · rename_i hno
          rw [if_neg hno] at hcall
          cases hcall
    · obtain ⟨h₁, h₂⟩ := h.destroyDue
      exact ⟨.inr h₁, h₂⟩

/-- A loop without active watchers has no blocks. -/
theorem inv_init [Inhabited U] (e : Env U T) (backend : Backend) (noinotify signalfd notimerfd : Bool) :
    Inv e (init (F := F) (A := A) (Loop.init backend noinotify signalfd notimerfd ())) := by
  have hno : ∀ w : Watcher U, ¬ InUse (Loop.init (T := T) backend noinotify signalfd notimerfd ()) w := by
    rintro w (hw | hw | hw)
    · cases w <;> exact hw rfl
    · exact hw rfl
    · exact List.not_mem_nil hw
  exact ⟨Core.init e backend noinotify signalfd notimerfd (), rfl,
    fun u => iff_of_false (fun hc => hc rfl) fun hr => hr.elim (hno _) (hno _), fun _ _ hb => (by cases hb),
    fun _ => .nil, rfl⟩

theorem Inv.unnamed (h : Inv e s) (hu : s.blocks u = none) : Unnamed e s.loop u := by
  obtain ⟨fed, hp⟩ := h.core.pend
  obtain ⟨t, ht⟩ := h.core.timers
  have hnot : ∀ w, half w = some u → ¬ s.loop.InUse w := fun w hw hheld =>
    (h.live u).mpr (reached_iff.mpr ⟨w, hw, hheld⟩) hu
  refine ⟨fun fd hm => hnot (.io (.once u)) rfl (h.core.head_held hm), fun k hk hkn he => ?_, fun pri i hi hw => ?_,
    fun w hw hw' => hnot w hw' (.inr (.inr hw))⟩
  · have hact := ht.ok.linked.entry hk hkn
    rw [he] at hact
    exact hnot (.timer (.once u)) rfl (.inl hact)
  · have hne : (s.loop.pend.entry pri i).w ≠ s.loop.pend.pendingW := by
      intro hc
      rw [hc, h.core.dummy] at hw
      cases hw
    refine hnot _ hw (.inr (.inl ?_))
    rw [(hp.live pri i hi hne).2]
    exact Nat.succ_ne_zero i

/-- In every run each block that `ev_once` allocates is freed at most once before its name is used again, and once
the loop is destroyed exactly once; the callback is called at most once, after the free, with what was pending on both
halves; and a block that is free is named nowhere in the loop. -/
theorem once_freed_once [Inhabited U] [AddRightMono T] (e : Env U T) (backend : Backend)
    (noinotify signalfd notimerfd : Bool) {acts : List (Act U T F A)}
    (hrun : Runs e (init (Loop.init backend noinotify signalfd notimerfd ())) acts s) :
    (∀ u, ∃ st, Lives u s.hist st ∧ ((∃ cb arg, st = .live cb arg) ↔ s.blocks u ≠ none)) ∧
      (∀ u, s.blocks u = none → Unnamed e s.loop u) ∧
      (s.destroyed = true → ∀ u, s.blocks u = none) ∧
      ∀ a t, step e s a = some t → CallsDue s t := by
  have hinv : Inv e s ∨ Gone e s := by
    refine Run.invariant (I := fun s => Inv e s ∨ Gone e s) (fun s a t hs hst => ?_) hrun
      (.inl (inv_init e backend noinotify signalfd notimerfd))
    rcases hs with hs | hs
    · exact (hs.step hst).1
    · unfold Once.step at hst
      rw [if_pos hs.destroyed] at hst
      cases hst
  rcases hinv with h | h
  · refine ⟨fun u => ⟨_, h.told u, ?_⟩, fun u hu => h.unnamed hu, fun hd => ?_, fun a t hst => (h.step hst).2⟩
    · cases s.blocks u with
      | none => exact iff_of_false (fun ⟨_, _, hc⟩ => by cases hc) fun hc => hc rfl
      | some b => exact iff_of_true ⟨_, _, rfl⟩ nofun
    · rw [h.alive] at hd
      cases hd
  · refine ⟨fun u => ?_, fun u _ => h.unnamed u, fun _ => h.blocks, fun a t hst => ?_⟩
    · obtain ⟨st, hst, hne⟩ := h.told u
      exact ⟨st, hst, iff_of_false (fun ⟨cb, arg, hc⟩ => hne cb arg hc) fun hc => hc (h.blocks u)⟩
    · unfold Once.step at hst
      rw [if_pos h.destroyed] at hst
      cases hst

/-- Both halves of one block become pending in one pass; the other block is left to `ev_loop_destroy`. -/
def bothRun : List (Act Bool ℤ Unit Unit) :=
  [.evOnce false 3 evRead 5 (some ()) (), .evOnce true (-1) 0 7 (some ()) (), .fdReify fun _ => false, .fdEvent 3 evRead,
    .timeUpdate 6, .timersReify, .invokePending, .tick, .tick, .tick, .tick, .tick, .tick, .evLoopDestroy []]

theorem once_freed_both : ∃ s : Onces Bool ℤ Unit Unit,
    s.hist = [.freed true, .called false () () (evTimer ||| evRead), .freed false, .allocated true () (),
      .allocated false () ()] ∧ ∀ u, s.blocks u = none := by
  have hx : (execFrom (step ⟨.four, fun _ _ _ => 0, fun _ _ _ => 0⟩) (init (Loop.init .select true false true ())) bothRun).map
      (fun s => (s.hist, s.destroyed)) = some ([.freed true, .called false () () (evTimer ||| evRead), .freed false,
        .allocated true () (), .allocated false () ()], true) := by
    decide +kernel
  obtain ⟨s, hrun, hx⟩ := Option.map_eq_some_iff.mp hx
  obtain ⟨hhist, hd⟩ := Prod.mk.inj hx
  obtain ⟨-, -, hdead, -⟩ := once_freed_once _ .select true false true (Run.iff_execFrom.mpr hrun)
  exact ⟨s, hhist, hdead hd⟩

end Once

end Qev
