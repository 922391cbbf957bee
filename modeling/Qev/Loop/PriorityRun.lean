/-
# Priorities stay in range

The invariant `Inv` says which watchers have a priority in range: those that are active, pending or about to be
fed, and the loop's own. So whatever the loop does by itself, and every stop, goes by a priority that a start has
clamped, and only the user can feed a watcher with another (`priority_index`).

The private watchers of a stat and of an embed get the priority of their owner before that is clamped. They are
started at once, and while they are active or pending so is the owner (`Backed`), which their callbacks feed.
-/
import Qev.Loop.Priority

namespace Qev

open Lib

theorem Pend.priority_clear {W : Type} [DecidableEq W] (p : Pend W) (w : W) :
    (p.clearPending w).priority = p.priority := by
  unfold Pend.clearPending
  split
  · rfl
  · rfl

theorem Pend.pending_clear_ne {W : Type} [DecidableEq W] (p : Pend W) (w v : W) :
    (p.clearPending w).pending v ≠ 0 ↔ v ≠ w ∧ p.pending v ≠ 0 := by
  rw [pending_clear]
  split
  · rename_i hv
    exact iff_of_false (not_not.mpr rfl) fun hc => hc.1 hv
  · rename_i hv
    exact (and_iff_right hv).symm

namespace Prios

/-- A private watcher whose callback feeds its owner. -/
def feedsOwner {U : Type} : Watcher U → Bool
  | .timer (.stat _) => true
  | .io (.embed _) => true
  | _ => false

end Prios

namespace Pend

variable {U : Type} [DecidableEq U] {p : Pend (Watcher U)} {w : Watcher U}

/-- An entry of such a watcher is the one it is pending by. -/
def Live (p : Pend (Watcher U)) : Prop :=
  ∀ pri i, i < p.pendingcnt pri → Prios.feedsOwner (p.entry pri i).w = true →
    pri = p.abspri (p.entry pri i).w ∧ p.pending (p.entry pri i).w = i + 1

theorem Live.feed (h : p.Live) (w : Watcher U) (revents : Events) : (p.evFeedEvent w revents).Live := by
  intro pri i hi hf
  rw [abspri_congr (priority_feed p w revents), pending_feed_eq]
  by_cases hp : p.pending w = 0
  · have hent : ∀ q j, (p.evFeedEvent w revents).entry q j = if q = p.abspri w ∧ j = p.pendingcnt (p.abspri w)
        then ⟨w, revents, p.clock⟩ else p.entry q j := fun q j => by
      unfold evFeedEvent
      simp only [hp, ne_eq, not_true_eq_false, ↓reduceIte, Nat.add_sub_cancel]
      exact entry_setEntry ..
    have hcnt : (p.evFeedEvent w revents).pendingcnt pri =
        if pri = p.abspri w then p.pendingcnt (p.abspri w) + 1 else p.pendingcnt pri := by
      unfold evFeedEvent
      simp only [hp, ne_eq, not_true_eq_false, ↓reduceIte]
      exact Function.update_apply ..
    rw [hent] at hf ⊢
    rw [hcnt] at hi
    by_cases hnew : pri = p.abspri w ∧ i = p.pendingcnt (p.abspri w)
    · rw [if_pos hnew, if_pos ⟨rfl, hp⟩, hnew.2]
      exact ⟨hnew.1, rfl⟩
    · rw [if_neg hnew] at hf ⊢
      have hi' : i < p.pendingcnt pri := by
        split at hi
        · rename_i hpri
          have : i ≠ p.pendingcnt (p.abspri w) := fun hc => hnew ⟨hpri, hc⟩
          rw [hpri]
          omega
        · exact hi
      obtain ⟨h₁, h₂⟩ := h pri i hi' hf
      refine ⟨h₁, ?_⟩
      rw [if_neg, h₂]
      rintro ⟨hc, -⟩
      rw [hc, hp] at h₂
      cases h₂
  · have hent : ∀ q j, ((p.evFeedEvent w revents).entry q j).w = (p.entry q j).w := fun q j => by
      unfold evFeedEvent
      simp only [hp, ne_eq, not_false_eq_true, ↓reduceIte]
      refine (congrArg ANPENDING.w (entry_setEntry ..)).trans ?_
      split
      · rename_i hq
        rw [hq.1, hq.2]
      · rfl
    have hcnt : (p.evFeedEvent w revents).pendingcnt pri = p.pendingcnt pri := by
      unfold evFeedEvent
      simp only [hp, ne_eq, not_false_eq_true, ↓reduceIte]
      rfl
    rw [hent] at hf ⊢
    rw [hcnt] at hi
    rw [if_neg fun hc => hp hc.2]
    exact h pri i hi hf

theorem Live.clear (h : p.Live) (w : Watcher U) (hW : p.pendingW = .pendingW) : (p.clearPending w).Live := by
  intro pri i hi hf
  rw [abspri_congr (priority_clear p w), pending_clear]
  rw [(clearPending_frame p w).2.2.1] at hi
  by_cases hp : p.pending w = 0
  · have heq : p.clearPending w = p := if_neg (not_not.mpr hp)
    rw [heq] at hf ⊢
    obtain ⟨h₁, h₂⟩ := h pri i hi hf
    refine ⟨h₁, ?_⟩
    rw [if_neg, h₂]
    intro hc
    rw [hc, hp] at h₂
    cases h₂
  · have hent : ∀ q j, ((p.clearPending w).entry q j).w =
        if q = p.abspri w ∧ j = p.pending w - 1 then .pendingW else (p.entry q j).w := fun q j => by
      have heq : p.clearPending w = _ := if_pos hp
      rw [heq]
      refine (congrArg ANPENDING.w (entry_setEntry ..)).trans ?_
      split
      · exact hW
      · rfl
    rw [hent] at hf ⊢
    split at hf
    · cases hf
    · rename_i hne
      rw [if_neg hne]
      obtain ⟨h₁, h₂⟩ := h pri i hi hf
      refine ⟨h₁, ?_⟩
      rw [if_neg, h₂]
      intro hc
      rw [hc] at h₁ h₂
      exact hne ⟨h₁, by omega⟩

/-- The priority of another is set, or of one that is not pending. -/
theorem Live.setPriority (h : p.Live) {pri : ℤ} (hw : Prios.feedsOwner w = true → p.pending w = 0) :
    (p.setPriority w pri).Live := by
  intro q i hi hf
  obtain ⟨h₁, h₂⟩ := h q i hi hf
  refine ⟨?_, h₂⟩
  have hne : (p.entry q i).w ≠ w := by
    rintro rfl
    rw [hw hf] at h₂
    cases h₂
  unfold abspri
  show q = (Function.update p.priority w pri (p.entry q i).w - minpri).toNat
  rw [Function.update_of_ne hne]
  exact h₁

theorem Live.setPending (h : p.Live) (hw : Prios.feedsOwner w = true → p.pending w = 0) :
    (p.setPending w 0).Live := by
  intro q i hi hf
  obtain ⟨h₁, h₂⟩ := h q i hi hf
  refine ⟨h₁, ?_⟩
  show Function.update p.pending w 0 (p.entry q i).w = i + 1
  rw [Function.update_of_ne, h₂]
  rintro rfl
  rw [hw hf] at h₂
  cases h₂

theorem Live.pop (h : p.Live) {pri : ℕ} (hcnt : p.pendingcnt pri ≠ 0) : (p.pop pri).Live := by
  intro q i hi hf
  have hcnt' : (p.pop pri).pendingcnt q = if q = pri then p.pendingcnt pri - 1 else p.pendingcnt q :=
    Function.update_apply ..
  rw [hcnt'] at hi
  have hi' : i < p.pendingcnt q := by
    split at hi
    · rename_i hq
      rw [hq]
      omega
    · exact hi
  obtain ⟨h₁, h₂⟩ := h q i hi' hf
  refine ⟨h₁, ?_⟩
  show Function.update p.pending (p.entry pri (p.pendingcnt pri - 1)).w 0 (p.entry q i).w = i + 1
  rw [Function.update_of_ne, h₂]
  intro hc
  -- the top is another entry, and each has one
  obtain ⟨h₃, h₄⟩ := h pri (p.pendingcnt pri - 1) (by omega) (hc ▸ hf)
  rw [← hc] at h₃ h₄
  rw [if_pos (h₁.trans h₃.symm)] at hi
  omega

end Pend

namespace Prios

variable {U : Type} [DecidableEq U] {s t : Prios U} {w v : Watcher U} {u : U}

/-- The priority of the watcher is in range. -/
def Clamped (s : Prios U) (w : Watcher U) : Prop := minpri ≤ s.pend.priority w ∧ s.pend.priority w ≤ maxpri

/-- There may be events for the watcher: for a stat's timer if it is active, for the io watcher of an embed if the
embed is. -/
def Backed (s : Prios U) (w : Watcher U) : Prop :=
  (∀ u, w = .timer (.stat u) → s.active w = true) ∧ ∀ u, w = .io (.embed u) → s.active (.embed u) = true

/-- `x` are stats and embeds that are being started, of which a private watcher may be active already, and timers of
stats that are being set. -/
structure Inv (x : Watcher U → Prop) (s : Prios U) : Prop where
  live : s.pend.Live
  dummy : s.pend.pendingW = .pendingW
  pending : ∀ w, s.pend.pending w ≠ 0 → s.Clamped w ∧ s.Backed w
  rfeeds : ∀ w ∈ s.pend.rfeeds, s.Clamped w ∧ s.Backed w
  active : ∀ w, s.active w = true → s.Clamped w
  own : ∀ w, ofLoop w = true → s.Clamped w
  timer : ∀ u, s.active (.timer (.stat u)) = true →
    (s.again (.timer (.stat u)) = true ∨ x (.timer (.stat u))) ∧ (s.active (.stat u) = true ∨ x (.stat u))
  io : ∀ u, s.active (.io (.embed u)) = true → s.active (.embed u) = true ∨ x (.embed u)
  touched : ∀ i ∈ s.touched, Priority.Indexes i

variable {x y : Watcher U → Prop}

section

omit [DecidableEq U]

theorem Clamped.indexes (h : s.Clamped w) : Priority.Indexes (s.abspri w) := by
  obtain ⟨h₁, h₂⟩ := h
  unfold Priority.Indexes abspri numpri
  unfold minpri maxpri at *
  omega

end

/-! ### What the calls do to what is active, pending or goes on -/

theorem active_clear (s : Prios U) (w : Watcher U) : (s.clearPending w).active = s.active := by
  unfold clearPending
  split
  · rfl
  · rfl

theorem again_clear (s : Prios U) (w : Watcher U) : (s.clearPending w).again = s.again := by
  unfold clearPending
  split
  · rfl
  · rfl

theorem pend_clear (s : Prios U) (w : Watcher U) : (s.clearPending w).pend = s.pend.clearPending w := by
  unfold clearPending
  split
  · rfl
  · rename_i h
    exact (if_neg h).symm

theorem active_start (s : Prios U) (w v : Watcher U) :
    (s.start w).active v = if v = w then true else s.active v := by
  unfold start
  by_cases hw : s.active w = true
  · rw [if_pos hw]
    split
    · rename_i hv
      rw [hv, hw]
    · rfl
  · rw [if_neg hw]
    exact Function.update_apply ..

theorem again_start (s : Prios U) (w : Watcher U) : (s.start w).again = s.again := by
  unfold start
  split
  · rfl
  · rfl

theorem stop_eq (s : Prios U) (w : Watcher U) : s.stop w =
    if s.active w = true then (s.clearPending w).evStop w else s.clearPending w := by
  unfold stop
  dsimp only
  rw [active_clear]
  cases s.active w with
  | true => rfl
  | false => rfl

theorem active_stop (s : Prios U) (w v : Watcher U) :
    (s.stop w).active v = if v = w then false else s.active v := by
  rw [stop_eq]
  by_cases hw : s.active w = true
  · rw [if_pos hw]
    show Function.update (s.clearPending w).active w false v = _
    rw [active_clear, Function.update_apply]
  · rw [if_neg hw, active_clear]
    split
    · rename_i hv
      rw [hv]
      exact Bool.eq_false_iff.mpr hw
    · rfl

theorem again_stop (s : Prios U) (w : Watcher U) : (s.stop w).again = s.again := by
  rw [stop_eq]
  split
  · exact again_clear s w
  · exact again_clear s w

theorem pend_stop (s : Prios U) (w : Watcher U) : (s.stop w).pend = s.pend.clearPending w := by
  rw [stop_eq]
  split
  · exact pend_clear s w
  · exact pend_clear s w

@[simp] theorem rfeeds_clear (s : Prios U) (w : Watcher U) : (s.clearPending w).pend.rfeeds = s.pend.rfeeds := by
  rw [pend_clear]
  exact (Pend.clearPending_frame s.pend w).2.1

@[simp] theorem rfeeds_feed (s : Prios U) (w : Watcher U) (revents : Events) :
    (s.evFeedEvent w revents).pend.rfeeds = s.pend.rfeeds := Pend.rfeeds_feed s.pend w revents

@[simp] theorem rfeeds_start (s : Prios U) (w : Watcher U) : (s.start w).pend.rfeeds = s.pend.rfeeds := by
  unfold start
  split
  · rfl
  · rfl

@[simp] theorem rfeeds_stop (s : Prios U) (w : Watcher U) : (s.stop w).pend.rfeeds = s.pend.rfeeds := by
  rw [pend_stop]
  exact (Pend.clearPending_frame s.pend w).2.1

@[simp] theorem rfeeds_init (s : Prios U) (w : Watcher U) : (s.evInit w).pend.rfeeds = s.pend.rfeeds := rfl

@[simp] theorem rfeeds_setPriority (s : Prios U) (w : Watcher U) (pri : ℤ) :
    (s.evSetPriority w pri).pend.rfeeds = s.pend.rfeeds := rfl

/-- The four ways through `ev_timer_again`. -/
theorem evTimerAgain_eq (s : Prios U) (w : TimerW U) : s.evTimerAgain w =
    if s.active (.timer w) = s.again (.timer w) then s.clearPending (.timer w)
    else if s.again (.timer w) = true then (s.clearPending (.timer w)).start (.timer w)
    else (s.clearPending (.timer w)).stop (.timer w) := by
  unfold evTimerAgain
  dsimp only
  rw [active_clear, again_clear]
  cases s.active (.timer w) with
  | true =>
    cases s.again (.timer w) with
    | true => rfl
    | false => rfl
  | false =>
    cases s.again (.timer w) with
    | true => rfl
    | false => rfl

theorem active_timerAgain (s : Prios U) (w : TimerW U) (v : Watcher U) :
    (s.evTimerAgain w).active v = if v = .timer w then s.again (.timer w) else s.active v := by
  rw [evTimerAgain_eq]
  split
  · rename_i heq
    rw [active_clear]
    split
    · rename_i hv
      rw [hv, heq]
    · rfl
  · split
    · rename_i hag
      rw [active_start, active_clear, hag]
    · rename_i hag
      rw [active_stop, active_clear, Bool.eq_false_iff.mpr hag]

theorem again_timerAgain (s : Prios U) (w : TimerW U) : (s.evTimerAgain w).again = s.again := by
  rw [evTimerAgain_eq]
  split
  · exact again_clear ..
  · split
    · rw [again_start, again_clear]
    · rw [again_stop, again_clear]

/-! ### The invariant -/

section

omit [DecidableEq U]

/-- What changes no priority out of range, and makes no watcher active or pending. -/
theorem Inv.congr (h : Inv x s) (hlive : t.pend.Live) (hW : t.pend.pendingW = s.pend.pendingW)
    (hprio : ∀ v, s.Clamped v → t.Clamped v)
    (hpend : ∀ v, t.pend.pending v ≠ 0 → s.pend.pending v ≠ 0) (hr : ∀ v ∈ t.pend.rfeeds, v ∈ s.pend.rfeeds)
    (hact : t.active = s.active) (hag : t.again = s.again)
    (htouched : ∀ i ∈ t.touched, i ∈ s.touched ∨ Priority.Indexes i) : Inv x t := by
  have hback : ∀ v, s.Backed v → t.Backed v := fun v hv => by
    unfold Backed
    rw [hact]
    exact hv
  refine ⟨hlive, hW.trans h.dummy, fun v hv => ?_, fun v hv => ?_, fun v hv => ?_, fun v hv => hprio v (h.own v hv),
    ?_, ?_, fun i hi => ?_⟩
  · obtain ⟨h₁, h₂⟩ := h.pending v (hpend v hv)
    exact ⟨hprio v h₁, hback v h₂⟩
  · obtain ⟨h₁, h₂⟩ := h.rfeeds v (hr v hv)
    exact ⟨hprio v h₁, hback v h₂⟩
  · rw [hact] at hv
    exact hprio v (h.active v hv)
  · rw [hact, hag]
    exact h.timer
  · rw [hact]
    exact h.io
  · exact (htouched i hi).elim (h.touched i) id

end

theorem Inv.clear (h : Inv x s) (w : Watcher U) : Inv x (s.clearPending w) := by
  have hprio : (s.clearPending w).pend.priority = s.pend.priority := by rw [pend_clear, Pend.priority_clear]
  have hlive : (s.clearPending w).pend.Live := by
    rw [pend_clear]
    exact h.live.clear w h.dummy
  refine h.congr hlive (by rw [pend_clear, Pend.pendingW_clear]) (fun v hv => ?_) (fun v hv => ?_) (fun v hv => ?_)
    (active_clear s w) (again_clear s w) fun i hi => ?_
  · unfold Clamped
    rw [hprio]
    exact hv
  · rw [pend_clear, Pend.pending_clear_ne] at hv
    exact hv.2
  · rw [pend_clear, (Pend.clearPending_frame s.pend w).2.1] at hv
    exact hv
  · unfold clearPending at hi
    by_cases hp : s.pend.pending w ≠ 0
    · rw [if_pos hp] at hi
      rcases List.mem_cons.mp hi with rfl | hi
      · exact .inr (h.pending w hp).1.indexes
      · exact .inl hi
    · rw [if_neg hp] at hi
      exact .inl hi

/-- Watchers that may have events are fed. -/
theorem Inv.feed (h : Inv x s) (hc : s.Clamped w) (hb : s.Backed w) (revents : Events) :
    Inv x (s.evFeedEvent w revents) := by
  have hprio := Pend.priority_feed s.pend w revents
  have hclamped : ∀ v, (s.evFeedEvent w revents).Clamped v ↔ s.Clamped v := fun v => by
    unfold Clamped
    show minpri ≤ (s.pend.evFeedEvent w revents).priority v ∧ (s.pend.evFeedEvent w revents).priority v ≤ maxpri ↔ _
    rw [hprio]
  refine ⟨h.live.feed w revents, (Pend.pendingW_feed ..).trans h.dummy, fun v hv => ?_, fun v hv => ?_,
    fun v hv => (hclamped v).mpr (h.active v hv), fun v hv => (hclamped v).mpr (h.own v hv), h.timer, h.io,
    fun i hi => ?_⟩
  · rcases (Pend.pending_feed s.pend w v revents).mp hv with hv | rfl
    · exact ⟨(hclamped v).mpr (h.pending v hv).1, (h.pending v hv).2⟩
    · exact ⟨(hclamped v).mpr hc, hb⟩
  · have hv' := Pend.rfeeds_feed s.pend w revents ▸ hv
    exact ⟨(hclamped v).mpr (h.rfeeds v hv').1, (h.rfeeds v hv').2⟩
  · rcases List.mem_cons.mp hi with rfl | hi
    · exact hc.indexes
    · exact h.touched i hi

/-- The priority of a watcher is set: to one in range, or of one that is neither active nor pending. -/
theorem Inv.setPriority (h : Inv x s) (w : Watcher U) (pri : ℤ) (hpri : minpri ≤ pri ∧ pri ≤ maxpri ∨
    s.active w = false ∧ s.pend.pending w = 0 ∧ w ∉ s.pend.rfeeds ∧ ofLoop w = false)
    (hf : feedsOwner w = true → s.pend.pending w = 0) : Inv x (s.evSetPriority w pri) := by
  have hother : ∀ v, v ≠ w → s.Clamped v → (s.evSetPriority w pri).Clamped v := fun v hv hc => by
    unfold Clamped
    show minpri ≤ Function.update s.pend.priority w pri v ∧ Function.update s.pend.priority w pri v ≤ maxpri
    rw [Function.update_of_ne hv]
    exact hc
  have hself : minpri ≤ pri ∧ pri ≤ maxpri → (s.evSetPriority w pri).Clamped w := fun hc => by
    unfold Clamped
    show minpri ≤ Function.update s.pend.priority w pri w ∧ Function.update s.pend.priority w pri w ≤ maxpri
    rw [Function.update_self]
    exact hc
  have hclamped : ∀ v,
      (v = w → ¬ (s.active w = false ∧ s.pend.pending w = 0 ∧ w ∉ s.pend.rfeeds ∧ ofLoop w = false)) →
      s.Clamped v → (s.evSetPriority w pri).Clamped v := by
    intro v hv hc
    by_cases hvw : v = w
    · rw [hvw]
      exact hself (hpri.resolve_right (hv hvw))
    · exact hother v hvw hc
  refine ⟨h.live.setPriority hf, h.dummy, fun v hv => ⟨hclamped v ?_ (h.pending v hv).1, (h.pending v hv).2⟩,
    fun v hv => ⟨hclamped v ?_ (h.rfeeds v hv).1, (h.rfeeds v hv).2⟩, fun v hv => hclamped v ?_ (h.active v hv),
    fun v hv => hclamped v ?_ (h.own v hv), h.timer, h.io, h.touched⟩
  · rintro rfl hc
    exact hv hc.2.1
  · rintro rfl hc
    exact hc.2.2.1 hv
  · rintro rfl hc
    exact absurd (hv.symm.trans hc.1) Bool.true_eq_false.mp
  · rintro rfl hc
    exact absurd (hv.symm.trans hc.2.2.2) Bool.true_eq_false.mp

section

omit [DecidableEq U]

/-- What is exempt no longer needs to be. -/
theorem Inv.drop (h : Inv x s) (ht : ∀ u, x (.timer (.stat u)) → y (.timer (.stat u)) ∨
      (s.active (.timer (.stat u)) = true → s.again (.timer (.stat u)) = true))
    (hs : ∀ u, x (.stat u) → y (.stat u) ∨ s.active (.stat u) = true)
    (he : ∀ u, x (.embed u) → y (.embed u) ∨ s.active (.embed u) = true) : Inv y s := by
  refine ⟨h.live, h.dummy, h.pending, h.rfeeds, h.active, h.own, fun u hu => ⟨?_, ?_⟩, fun u hu => ?_, h.touched⟩
  · rcases (h.timer u hu).1 with hag | hx
    · exact .inl hag
    · exact (ht u hx).symm.imp (fun hc => hc hu) id
  · rcases (h.timer u hu).2 with hact | hx
    · exact .inl hact
    · exact (hs u hx).symm
  · rcases h.io u hu with hact | hx
    · exact .inl hact
    · exact (he u hx).symm

end

/-- A watcher that is neither pending nor about to be fed becomes inactive, and so do its private ones before. -/
theorem Inv.evStop (h : Inv x s) (hto : ∀ u, w = .timer (.stat u) → s.pend.pending w = 0 ∧ w ∉ s.pend.rfeeds)
    (hs : ∀ u, w = .stat u → s.active (.timer (.stat u)) = false)
    (he : ∀ u, w = .embed u → s.active (.io (.embed u)) = false ∧ s.pend.pending (.io (.embed u)) = 0 ∧
      .io (.embed u) ∉ s.pend.rfeeds) : Inv x (s.evStop w) := by
  have hact : ∀ v, (s.evStop w).active v = if v = w then false else s.active v := fun v => Function.update_apply ..
  have hback : ∀ v, (s.pend.pending v ≠ 0 ∨ v ∈ s.pend.rfeeds) → s.Backed v → (s.evStop w).Backed v := by
    intro v hv hb
    refine ⟨fun u hu => ?_, fun u hu => ?_⟩
    · rw [hact, if_neg]
      · exact hb.1 u hu
      · rintro rfl
        obtain ⟨h₁, h₂⟩ := hto u hu
        exact hv.elim (fun hc => hc h₁) h₂
    · rw [hact, if_neg]
      · exact hb.2 u hu
      · intro hc
        obtain ⟨-, h₁, h₂⟩ := he u hc.symm
        rw [hu] at hv
        exact hv.elim (fun hc => hc h₁) h₂
  refine ⟨h.live, h.dummy, fun v hv => ⟨(h.pending v hv).1, hback v (.inl hv) (h.pending v hv).2⟩,
    fun v hv => ⟨(h.rfeeds v hv).1, hback v (.inr hv) (h.rfeeds v hv).2⟩, fun v hv => ?_, h.own, fun u hu => ?_,
    fun u hu => ?_, h.touched⟩
  · rw [hact] at hv
    split at hv
    · cases hv
    · exact h.active v hv
  · rw [hact] at hu ⊢
    split at hu
    · cases hu
    · refine ⟨(h.timer u hu).1, (h.timer u hu).2.imp_left fun hc => ?_⟩
      rw [if_neg, hc]
      intro hw
      exact absurd (hu.symm.trans (hs u hw.symm)) Bool.true_eq_false.mp
  · rw [hact] at hu ⊢
    split at hu
    · cases hu
    · refine (h.io u hu).imp_left fun hc => ?_
      rw [if_neg, hc]
      intro hw
      exact absurd (hu.symm.trans (he u hw.symm).1) Bool.true_eq_false.mp

theorem clamped_evStart (s : Prios U) (w : Watcher U) : (s.evStart w).Clamped w := s.pend.clamped_priAdjust w

/-- `ev_start` clamps the priority. -/
theorem Inv.evStart (h : Inv x s)
    (hto : ∀ u, w = .timer (.stat u) → (s.again w = true ∨ x w) ∧ (s.active (.stat u) = true ∨ x (.stat u)))
    (hio : ∀ u, w = .io (.embed u) → s.active (.embed u) = true ∨ x (.embed u)) : Inv x (s.evStart w) := by
  have hact : ∀ v, (s.evStart w).active v = if v = w then true else s.active v := fun v => Function.update_apply ..
  have hmono : ∀ v, s.active v = true → (s.evStart w).active v = true := fun v hv => by
    rw [hact, hv, ite_self]
  have hclamped : ∀ v, s.Clamped v → (s.evStart w).Clamped v := fun v hv => by
    by_cases hvw : v = w
    · rw [hvw]
      exact clamped_evStart s w
    · unfold Clamped
      show minpri ≤ (s.pend.priAdjust w).priority v ∧ (s.pend.priAdjust w).priority v ≤ maxpri
      unfold Pend.priAdjust Pend.setPriority
      dsimp only
      rw [Function.update_of_ne hvw]
      exact hv
  have hback : ∀ v, s.Backed v → (s.evStart w).Backed v :=
    fun v hv => ⟨fun u hu => hmono v (hv.1 u hu), fun u hu => hmono _ (hv.2 u hu)⟩
  have hlive : (s.evStart w).pend.Live := by
    by_cases hp : s.pend.pending w = 0
    · exact h.live.setPriority fun _ => hp
    · show (s.pend.priAdjust w).Live
      rw [Pend.priAdjust_clamped (h.pending w hp).1]
      exact h.live
  refine ⟨hlive, h.dummy, fun v hv => ⟨hclamped v (h.pending v hv).1, hback v (h.pending v hv).2⟩,
    fun v hv => ⟨hclamped v (h.rfeeds v hv).1, hback v (h.rfeeds v hv).2⟩, fun v hv => ?_,
    fun v hv => hclamped v (h.own v hv), fun u hu => ?_, fun u hu => ?_, h.touched⟩
  · by_cases hvw : v = w
    · rw [hvw]
      exact clamped_evStart s w
    · rw [hact, if_neg hvw] at hv
      exact hclamped v (h.active v hv)
  · have hboth : (s.again (.timer (.stat u)) = true ∨ x (.timer (.stat u))) ∧
        (s.active (.stat u) = true ∨ x (.stat u)) := by
      rw [hact] at hu
      split at hu
      · rename_i hw
        rw [hw]
        exact hto u hw.symm
      · exact h.timer u hu
    exact ⟨hboth.1, hboth.2.imp_left (hmono _)⟩
  · have hone : s.active (.embed u) = true ∨ x (.embed u) := by
      rw [hact] at hu
      split at hu
      · rename_i hw
        exact hio u hw.symm
      · exact h.io u hu
    exact hone.imp_left (hmono _)

theorem Inv.start (h : Inv x s)
    (hto : ∀ u, w = .timer (.stat u) → (s.again w = true ∨ x w) ∧ (s.active (.stat u) = true ∨ x (.stat u)))
    (hio : ∀ u, w = .io (.embed u) → s.active (.embed u) = true ∨ x (.embed u)) : Inv x (s.start w) := by
  unfold Prios.start
  split
  · exact h
  · exact h.evStart hto hio

/-- A watcher without private ones. -/
theorem Inv.stop (h : Inv x s) (hw : hasPrivate w = false) (hr : ∀ u, w = .timer (.stat u) → w ∉ s.pend.rfeeds) :
    Inv x (s.stop w) := by
  rw [stop_eq]
  have hc := h.clear w
  split
  · refine hc.evStop (fun u hu => ?_) (fun u hu => ?_) fun u hu => ?_
    · rw [pend_clear, Pend.pending_clear, if_pos rfl, (Pend.clearPending_frame s.pend w).2.1]
      exact ⟨rfl, hr u hu⟩
    · rw [hu] at hw
      cases hw
    · rw [hu] at hw
      cases hw
  · exact hc

theorem Inv.init (h : Inv x s) (hr : s.pend.rfeeds = []) (hf : feedsOwner w = true → s.pend.pending w = 0)
    (hs : ∀ u, w = .stat u → s.active (.timer (.stat u)) = false)
    (he : ∀ u, w = .embed u → s.active (.io (.embed u)) = false ∧ s.pend.pending (.io (.embed u)) = 0) :
    Inv x (s.evInit w) := by
  have hpend : ∀ v, (s.pend.setPending w 0).pending v = if v = w then 0 else s.pend.pending v :=
    fun v => Function.update_apply ..
  have hcleared : Inv x { s with pend := s.pend.setPending w 0 } := by
    refine h.congr (h.live.setPending hf) rfl (fun _ hv => hv) (fun v hv => ?_) (fun _ hv => hv) rfl rfl
      fun _ hi => .inl hi
    replace hv : (s.pend.setPending w 0).pending v ≠ 0 := hv
    rw [hpend] at hv
    split at hv
    · exact absurd rfl hv
    · exact hv
  have hset := hcleared.setPriority w 0 (.inl (by decide)) fun _ => (hpend w).trans (if_pos rfl)
  refine hset.evStop (fun u hu => ⟨?_, ?_⟩) hs fun u hu => ⟨(he u hu).1, ?_, ?_⟩
  · exact (hpend w).trans (if_pos rfl)
  · show w ∉ s.pend.rfeeds
    rw [hr]
    exact List.not_mem_nil
  · refine (hpend _).trans ?_
    rw [(he u hu).2, ite_self]
  · show Watcher.io (.embed u) ∉ s.pend.rfeeds
    rw [hr]
    exact List.not_mem_nil

/-! ### Timers, stats and embeds -/

theorem Inv.timerAgain (h : Inv x s) (hr : s.pend.rfeeds = []) {w : TimerW U}
    (hs : ∀ u, w = .stat u → s.active (.stat u) = true ∨ x (.stat u)) :
    Inv (fun v => x v ∧ v ≠ .timer w) (s.evTimerAgain w) := by
  have hc := h.clear (.timer w)
  have hall : Inv x (s.evTimerAgain w) := by
    rw [evTimerAgain_eq]
    split
    · exact hc
    · split
      · rename_i hag
        refine hc.start (fun u hu => ⟨.inl ?_, ?_⟩) fun u hu => ?_
        · rw [again_clear]
          exact hag
        · rw [active_clear]
          exact hs u (Watcher.timer.inj hu)
        · cases hu
      · refine hc.stop rfl fun _ _ => ?_
        rw [rfeeds_clear, hr]
        exact List.not_mem_nil
  refine hall.drop (fun u hu => ?_) (fun u hu => .inl ⟨hu, by simp⟩) fun u hu => .inl ⟨hu, by simp⟩
  by_cases hw : TimerW.stat u = w
  · refine .inr fun hact => ?_
    rw [active_timerAgain, hw, if_pos rfl] at hact
    rw [again_timerAgain, hw]
    exact hact
  · exact .inl ⟨hu, fun hc => hw (Watcher.timer.inj hc)⟩

/-- The repeat of a stat's timer is set, and `ev_timer_again` is to follow. -/
theorem Inv.setAgain (h : Inv x s) (w : Watcher U) (repeats : Bool) :
    Inv (fun v => x v ∨ v = w) { s with again := Function.update s.again w repeats } := by
  refine ⟨h.live, h.dummy, h.pending, h.rfeeds, h.active, h.own, fun u hu => ?_,
    fun u hu => (h.io u hu).imp_right .inl, h.touched⟩
  obtain ⟨h₁, h₂⟩ := h.timer u hu
  refine ⟨?_, h₂.imp_right .inl⟩
  by_cases hw : Watcher.timer (.stat u) = w
  · exact .inr (.inr hw)
  · show Function.update s.again w repeats _ = true ∨ _
    rw [Function.update_of_ne hw]
    exact h₁.imp_right .inl

theorem Inv.setRepeat (h : Inv x s) (hw : ∀ u, w ≠ .timer (.stat u)) (repeats : Bool) :
    Inv x { s with again := Function.update s.again w repeats } := by
  refine ⟨h.live, h.dummy, h.pending, h.rfeeds, h.active, h.own, fun u hu => ?_, h.io, h.touched⟩
  show (Function.update s.again w repeats (.timer (.stat u)) = true ∨ _) ∧ _
  rw [Function.update_of_ne (hw u).symm]
  exact h.timer u hu

theorem Inv.infyAdd (h : Inv x s) (hr : s.pend.rfeeds = []) (hs : s.active (.stat u) = true ∨ x (.stat u))
    (repeats : Bool) : Inv x (s.infyAdd u repeats) := by
  have hset := h.setAgain (.timer (.stat u)) repeats
  have hagain := hset.timerAgain (w := .stat u) hr fun v hv => by
    cases hv
    exact hs.imp_right .inl
  exact hagain.drop (fun v hv => .inl (hv.1.resolve_right hv.2)) (fun v hv => .inl (hv.1.resolve_right (by simp)))
    fun v hv => .inl (hv.1.resolve_right (by simp))

theorem active_infyAdd (s : Prios U) (repeats : Bool) (hv : v ≠ .timer (.stat u)) :
    (s.infyAdd u repeats).active v = s.active v := (active_timerAgain _ _ v).trans (if_neg hv)

/-- The private timer is started, or not, before the stat. -/
theorem Inv.statStart (h : Inv (fun _ => False) s) (hr : s.pend.rfeeds = []) (inotify : Option Bool) :
    Inv (fun _ => False) (s.evStatStart u inotify) := by
  unfold evStatStart
  by_cases hact : s.active (.stat u) = true
  · rw [if_pos hact]
    exact h
  · rw [if_neg hact]
    have hto : s.active (.timer (.stat u)) = false :=
      Bool.eq_false_iff.mpr fun hc => hact ((h.timer u hc).2.resolve_right id)
    have hquiet : s.pend.pending (.timer (.stat u)) = 0 :=
      not_not.mp fun hp => absurd (hto.symm.trans ((h.pending _ hp).2.1 u rfl)) Bool.false_ne_true
    have hinit : Inv (fun _ => False) (s.evInit (.timer (.stat u))) :=
      h.init hr (fun _ => hquiet) (by simp) (by simp)
    have hset := hinit.setAgain (.timer (.stat u)) true
    have hidle : (s.evInit (.timer (.stat u))).active (.timer (.stat u)) = false := Function.update_self ..
    have hpend : (s.evInit (.timer (.stat u))).pend.pending (.timer (.stat u)) = 0 := Function.update_self ..
    have hpri := hset.setPriority (.timer (.stat u)) (s.pend.priority (.stat u))
      (.inr ⟨hidle, hpend, by simp [hr], rfl⟩) fun _ => hpend
    have hprio : (s.evInit (.timer (.stat u))).pend.priority (.stat u) = s.pend.priority (.stat u) := by
      show Function.update s.pend.priority (.timer (.stat u)) 0 (.stat u) = _
      rw [Function.update_of_ne (by simp)]
    dsimp only
    rw [hprio]
    -- the stat itself is exempt until it is started
    have hex := hpri.drop (y := fun v => v = .stat u) (fun v hv => .inr fun _ => by
      cases hv.resolve_left id
      exact Function.update_self ..) (fun v hv => absurd (hv.resolve_left id) (by simp))
      (fun v hv => absurd (hv.resolve_left id) (by simp))
    have hlast : ∀ m, Inv (fun v => v = .stat u) m → Inv (fun _ => False) (m.evStart (.stat u)) := fun m hm => by
      refine (hm.evStart (by simp) (by simp)).drop (by simp) (fun v hv => .inr ?_) (by simp)
      rw [Watcher.stat.inj hv]
      exact Function.update_self ..
    cases inotify with
    | some repeats => exact hlast _ (hex.infyAdd hr (.inr rfl) repeats)
    | none =>
      refine hlast _ ((hex.timerAgain (w := .stat u) hr fun v hv => .inr ?_).drop (by simp) (fun v hv => .inl hv.1)
        (by simp))
      cases hv
      rfl

theorem Inv.statStop (h : Inv x s) (hr : s.pend.rfeeds = []) : Inv x (s.evStatStop u) := by
  unfold evStatStop
  dsimp only
  have hc := h.clear (.stat u)
  have hrc : (s.clearPending (.stat u)).pend.rfeeds = [] := (rfeeds_clear ..).trans hr
  split
  · exact hc
  · split
    · refine (hc.stop (w := .timer (.stat u)) rfl fun _ _ => ?_).evStop (by simp) (fun v hv => ?_) (by simp)
      · rw [hrc]
        exact List.not_mem_nil
      · rw [active_stop, Watcher.stat.inj hv, if_pos rfl]
    · rename_i hto
      refine hc.evStop (by simp) (fun v hv => ?_) (by simp)
      rw [← Watcher.stat.inj hv]
      exact Bool.eq_false_iff.mpr hto

/-- The private watchers are started before the embed. -/
theorem Inv.embedStart (h : Inv (fun _ => False) s) (hr : s.pend.rfeeds = []) :
    Inv (fun _ => False) (s.evEmbedStart u) := by
  unfold evEmbedStart
  by_cases hact : s.active (.embed u) = true
  · rw [if_pos hact]
    exact h
  · rw [if_neg hact]
    have hex : Inv (fun v => v = .embed u) s := h.drop (by simp) (by simp) (by simp)
    have hquiet : s.pend.pending (.io (.embed u)) = 0 := not_not.mp fun hp => hact ((h.pending _ hp).2.2 u rfl)
    have hio : Inv (fun v => v = .embed u) (s.evInit (.io (.embed u))) :=
      hex.init hr (fun _ => hquiet) (by simp) (by simp)
    have hpend : (s.evInit (.io (.embed u))).pend.pending (.io (.embed u)) = 0 := Function.update_self ..
    have hset := hio.setPriority (.io (.embed u)) ((s.evInit (.io (.embed u))).pend.priority (.embed u))
      (.inr ⟨Function.update_self .., hpend, by simp [hr], rfl⟩) fun _ => hpend
    have hstart := hset.start (w := .io (.embed u)) (by simp) (fun v hv => .inr (by simpa using hv.symm))
    have hprep := ((hstart.init (w := .prepare (.embed u)) (by simp [hr]) (by simp [feedsOwner]) (by simp)
      (by simp)).setPriority (.prepare (.embed u)) minpri (.inl (by decide)) (by simp [feedsOwner])).start
      (w := .prepare (.embed u)) (by simp) (by simp)
    have hfork := (hprep.init (w := .fork (.embed u)) (by simp [hr]) (by simp [feedsOwner]) (by simp)
      (by simp)).start (w := .fork (.embed u)) (by simp) (by simp)
    refine (hfork.evStart (w := .embed u) (by simp) (by simp)).drop (by simp) (by simp) fun v hv => .inr ?_
    rw [Watcher.embed.inj hv]
    exact Function.update_self ..

theorem Inv.embedStop (h : Inv x s) (hr : s.pend.rfeeds = []) : Inv x (s.evEmbedStop u) := by
  unfold evEmbedStop
  dsimp only
  have hc := h.clear (.embed u)
  split
  · exact hc
  · have hstop := ((hc.stop (w := .io (.embed u)) rfl (by simp)).stop (w := .prepare (.embed u)) rfl (by simp)).stop
      (w := .fork (.embed u)) rfl (by simp)
    refine hstop.evStop (by simp) (by simp) fun v hv => ?_
    rw [← Watcher.embed.inj hv]
    refine ⟨?_, ?_, by simp [hr]⟩
    · simp [active_stop]
    · simp [pend_stop, Pend.pending_clear]

/-! ### ev_once and the loop -/

theorem Inv.periodicAgain (h : Inv x s) : Inv x (s.evPeriodicAgain u) :=
  (h.stop (w := .periodic u) rfl (by simp)).start (by simp) (by simp)

theorem Inv.once (h : Inv x s) (hr : s.pend.rfeeds = []) (io timer : Bool) : Inv x (s.evOnce u io timer) := by
  have hio : Inv x (s.evInit (.io (.once u))) := h.init hr (by simp [feedsOwner]) (by simp) (by simp)
  have hstart : ∀ (m : Prios U) (b : Bool) (w : Watcher U), Inv x m → m.pend.rfeeds = [] →
      (∀ u, w ≠ .timer (.stat u)) → (∀ u, w ≠ .io (.embed u)) →
      Inv x (if b then m.start w else m) ∧ (if b then m.start w else m).pend.rfeeds = [] := by
    intro m b w hm hmr hto hio
    split
    · exact ⟨hm.start (fun u hu => absurd hu (hto u)) fun u hu => absurd hu (hio u), (rfeeds_start ..).trans hmr⟩
    · exact ⟨hm, hmr⟩
  obtain ⟨h₁, hr₁⟩ := hstart _ io (.io (.once u)) hio hr (by simp) (by simp)
  have hto := h₁.init (w := .timer (.once u)) hr₁ (by simp [feedsOwner]) (by simp) (by simp)
  exact (hstart _ timer (.timer (.once u)) hto hr₁ (by simp) (by simp)).1

theorem Inv.onceCb (h : Inv x s) : Inv x (s.onceCb u) :=
  (h.stop (w := .io (.once u)) rfl (by simp)).stop rfl (by simp)

theorem clamped_stop (s : Prios U) (w v : Watcher U) : (s.stop w).Clamped v ↔ s.Clamped v := by
  unfold Clamped
  rw [pend_stop, Pend.priority_clear]

section

omit [DecidableEq U]

/-- What is active may be fed. -/
theorem Inv.backed (h : Inv (fun _ => False) s) (hw : s.active w = true) : s.Backed w := by
  refine ⟨fun _ _ => hw, fun u hu => ?_⟩
  rw [hu] at hw
  exact (h.io u hw).resolve_right id

end

theorem Inv.kill (ws : List (IoW U)) (h : Inv (fun _ => False) s)
    (hws : ws.Nodup ∧ ∀ w ∈ ws, s.active (.io w) = true) :
    Inv (fun _ => False) (s.fdKill ws) := by
  unfold fdKill
  induction ws generalizing s with
  | nil => exact h
  | cons w ws ih =>
    obtain ⟨hnot, hnodup⟩ := List.nodup_cons.mp hws.1
    have hw := hws.2 w List.mem_cons_self
    have hstop := h.stop (w := .io w) rfl (by simp)
    have hback : (s.stop (.io w)).Backed (.io w) := by
      refine ⟨by simp, fun u hu => ?_⟩
      rw [active_stop, if_neg (by simp)]
      exact (h.backed hw).2 u hu
    refine ih (hstop.feed ((clamped_stop ..).mpr (h.active _ hw)) hback _) ⟨hnodup, fun v hv => ?_⟩
    show (s.stop (.io w)).active (.io v) = true
    rw [active_stop, if_neg]
    · exact hws.2 v (List.mem_cons_of_mem w hv)
    · intro hc
      exact hnot (Watcher.io.inj hc ▸ hv)

theorem Inv.queue (ws : List (Watcher U)) (h : Inv x s) (hws : ∀ w ∈ ws, s.Clamped w ∧ s.Backed w) (type : Events) :
    Inv x (s.queueEvents ws type) := by
  unfold queueEvents
  induction ws generalizing s with
  | nil => exact h
  | cons w ws ih =>
    obtain ⟨hc, hb⟩ := hws w List.mem_cons_self
    refine ih (h.feed hc hb type) fun v hv => ?_
    obtain ⟨hc', hb'⟩ := hws v (List.mem_cons_of_mem w hv)
    refine ⟨?_, hb'⟩
    unfold Clamped
    show minpri ≤ (s.pend.evFeedEvent w type).priority v ∧ (s.pend.evFeedEvent w type).priority v ≤ maxpri
    rw [Pend.priority_feed]
    exact hc'

theorem Inv.reap (ws : List U) (h : Inv x s) : Inv x (s.childReap ws) := by
  unfold childReap
  induction ws generalizing s with
  | nil => exact h
  | cons w ws ih =>
    refine ih ((h.setPriority (.child w) maxpri (.inl (by decide)) (by simp [feedsOwner])).feed ?_
      (by unfold Backed; simp) _)
    unfold Clamped
    show minpri ≤ Function.update s.pend.priority (.child w) maxpri (.child w) ∧
      Function.update s.pend.priority (.child w) maxpri (.child w) ≤ maxpri
    rw [Function.update_self]
    decide

/-- A timer of a stat goes on when it is due. -/
theorem Inv.reifyOne (h : Inv (fun _ => False) s) (hw : s.active w = true)
    (hno : hasPrivate w = false ∧ ∀ u, w ≠ .io (.embed u)) : Inv (fun _ => False) (s.reifyOne w) := by
  have hpush : ∀ m : Prios U, Inv (fun _ => False) m → m.Clamped w → m.Backed w →
      Inv (fun _ => False) { m with pend := m.pend.feedReverse w } := by
    intro m hm hc hb
    refine ⟨hm.live, hm.dummy, hm.pending, fun v hv => ?_, hm.active, hm.own, hm.timer, hm.io, hm.touched⟩
    rcases List.mem_cons.mp hv with rfl | hv
    · exact ⟨hc, hb⟩
    · exact hm.rfeeds v hv
  unfold Prios.reifyOne
  dsimp only
  by_cases hag : s.again w = true
  · rw [if_pos hag]
    exact hpush s h (h.active w hw) (h.backed hw)
  · rw [if_neg hag]
    have hnot : ∀ u, w ≠ .timer (.stat u) := fun u hu => by
      rw [hu] at hw hag
      exact hag ((h.timer u hw).1.resolve_right id)
    refine hpush _ (h.stop hno.1 fun u hu => absurd hu (hnot u)) ((clamped_stop ..).mpr (h.active w hw)) ?_
    exact ⟨fun u hu => absurd hu (hnot u), fun u hu => absurd hu (hno.2 u)⟩

theorem active_reifyOne (s : Prios U) (hv : v ≠ w) : (s.reifyOne w).active v = s.active v := by
  unfold Prios.reifyOne
  by_cases hag : s.again w = true
  · rw [if_pos hag]
  · rw [if_neg hag]
    exact (active_stop s w v).trans (if_neg hv)

theorem Inv.reify (ws : List (Watcher U)) (h : Inv (fun _ => False) s) (hws : ws.Nodup ∧ ∀ w ∈ ws, s.active w = true)
    (hno : ∀ w ∈ ws, hasPrivate w = false ∧ ∀ u, w ≠ .io (.embed u)) (revents : Events) :
    Inv (fun _ => False) (s.reify ws revents) := by
  have hall : Inv (fun _ => False) (ws.foldl Prios.reifyOne s) := by
    induction ws generalizing s with
    | nil => exact h
    | cons w ws ih =>
      obtain ⟨hnot, hnodup⟩ := List.nodup_cons.mp hws.1
      refine ih (h.reifyOne (hws.2 w List.mem_cons_self) (hno w List.mem_cons_self)) ⟨hnodup, fun v hv => ?_⟩
        fun v hv => hno v (List.mem_cons_of_mem w hv)
      rw [active_reifyOne (v := v) (w := w) s fun hc => hnot (hc ▸ hv)]
      exact hws.2 v (List.mem_cons_of_mem w hv)
  unfold Prios.reify feedReverseDone
  dsimp only
  generalize ws.foldl Prios.reifyOne s = m at hall
  have hfed := hall.queue m.pend.rfeeds hall.rfeeds revents
  exact hfed.congr hfed.live rfl (fun _ hv => hv) (fun _ hv => hv) (fun _ hv => absurd hv List.not_mem_nil) rfl rfl
    fun _ hi => .inl hi

theorem Inv.statTimerCb (h : Inv (fun _ => False) s) (hr : s.pend.rfeeds = []) (hu : s.active (.stat u) = true)
    (changed : Bool) (inotify : Option Bool) : Inv (fun _ => False) (s.statTimerCb u changed inotify) := by
  have hfeed : ∀ m : Prios U, Inv (fun _ => False) m → m.active (.stat u) = true →
      Inv (fun _ => False) (m.evFeedEvent (.stat u) evStat) :=
    fun m hm hact => hm.feed (hm.active _ hact) (hm.backed hact) _
  unfold Prios.statTimerCb
  split
  · cases inotify with
    | some repeats =>
      refine hfeed _ (h.infyAdd hr (.inl hu) repeats) ?_
      rw [active_infyAdd s repeats (by simp)]
      exact hu
    | none => exact hfeed s h hu
  · exact h

/-- The owner of a private watcher that was pending is still active. -/
theorem Inv.invoke (h : Inv (fun _ => False) s) (hr : s.pend.rfeeds = []) (hb : s.Backed w) (a : Answers)
    : Inv (fun _ => False) (s.invoke w a) := by
  unfold Prios.invoke
  split
  · rename_i u
    exact h.statTimerCb hr ((h.timer u (hb.1 u rfl)).2.resolve_right id) a.changed a.inotify
  · rename_i u
    unfold embedIoCb
    split
    · have hact := hb.2 u rfl
      exact h.feed (h.active _ hact) (h.backed hact) _
    · exact h
  · rename_i u
    have hstop := h.embedStop (u := u) hr
    refine hstop.embedStart ?_
    unfold evEmbedStop
    dsimp only
    split
    · simp [hr]
    · show ((((s.clearPending _).stop _).stop _).stop _).pend.rfeeds = []
      simp [hr]
  · exact (h.clear _).onceCb
  · exact (h.clear _).onceCb
  · exact h

theorem Inv.invokePending (h : Inv (fun _ => False) s) (hr : s.pend.rfeeds = []) {pri : ℕ} (hpri : pri < numpri)
    (hcnt : s.pend.pendingcnt pri ≠ 0) (a : Answers) : Inv (fun _ => False) (s.invokePending pri a) := by
  have hpend : ∀ v, (s.pend.pop pri).pending v ≠ 0 → s.pend.pending v ≠ 0 := by
    intro v hv
    unfold Pend.pop Pend.setPending at hv
    dsimp only at hv
    rw [Function.update_apply] at hv
    split at hv
    · exact absurd rfl hv
    · exact hv
  have hpop : Inv (fun _ => False) { s with pend := s.pend.pop pri, touched := pri :: s.touched } := by
    refine h.congr (h.live.pop hcnt) rfl (fun _ hv => hv) hpend (fun _ hv => hv) rfl rfl fun i hi => ?_
    rcases List.mem_cons.mp hi with rfl | hi
    · exact .inr ⟨Int.natCast_nonneg pri, Int.ofNat_lt.mpr hpri⟩
    · exact .inl hi
  refine Inv.invoke hpop hr ?_ a
  -- the entry of a private watcher is the one it was pending by
  have hback : feedsOwner (s.pend.entry pri (s.pend.pendingcnt pri - 1)).w = true →
      s.Backed (s.pend.entry pri (s.pend.pendingcnt pri - 1)).w := fun hf => by
    have hp := (h.live pri (s.pend.pendingcnt pri - 1) (by omega) hf).2
    exact (h.pending _ (by rw [hp]; exact Nat.succ_ne_zero _)).2
  refine ⟨fun u hu => (hback ?_).1 u hu, fun u hu => (hback ?_).2 u hu⟩
  · rw [hu]
    rfl
  · rw [hu]
    rfl

/-! ### What no call takes back -/

/-- The indices used stay used, and nothing more is about to be fed. -/
structure Grows (s t : Prios U) : Prop where
  touched : s.touched ⊆ t.touched
  rfeeds : t.pend.rfeeds = s.pend.rfeeds

section

omit [DecidableEq U]

theorem Grows.refl (s : Prios U) : Grows s s := ⟨fun _ hi => hi, rfl⟩

theorem Grows.trans {r : Prios U} (h : Grows s t) (h' : Grows t r) : Grows s r :=
  ⟨fun _ hi => h'.touched (h.touched hi), h'.rfeeds.trans h.rfeeds⟩

end

theorem grows_feed (s : Prios U) (w : Watcher U) (revents : Events) : Grows s (s.evFeedEvent w revents) :=
  ⟨fun _ hi => List.mem_cons_of_mem _ hi, rfeeds_feed ..⟩

theorem grows_clear (s : Prios U) (w : Watcher U) : Grows s (s.clearPending w) := by
  refine ⟨fun i hi => ?_, rfeeds_clear ..⟩
  unfold clearPending
  split
  · exact List.mem_cons_of_mem _ hi
  · exact hi

theorem grows_init (s : Prios U) (w : Watcher U) : Grows s (s.evInit w) := ⟨fun _ hi => hi, rfl⟩

theorem grows_setPriority (s : Prios U) (w : Watcher U) (pri : ℤ) : Grows s (s.evSetPriority w pri) :=
  ⟨fun _ hi => hi, rfl⟩

theorem grows_evStart (s : Prios U) (w : Watcher U) : Grows s (s.evStart w) := ⟨fun _ hi => hi, rfl⟩

theorem grows_evStop (s : Prios U) (w : Watcher U) : Grows s (s.evStop w) := ⟨fun _ hi => hi, rfl⟩

section

omit [DecidableEq U]

theorem Grows.ite {c : Prop} [Decidable c] {r : Prios U} (h : Grows s t) (h' : Grows s r) :
    Grows s (if c then t else r) := by
  split
  · exact h
  · exact h'

end

theorem grows_start (s : Prios U) (w : Watcher U) : Grows s (s.start w) := .ite (.refl s) (grows_evStart s w)

theorem grows_stop (s : Prios U) (w : Watcher U) : Grows s (s.stop w) :=
  (grows_clear s w).trans (.ite (.refl _) (grows_evStop ..))

theorem grows_timerAgain (s : Prios U) (w : TimerW U) : Grows s (s.evTimerAgain w) :=
  (grows_clear s _).trans (.ite (.ite (.refl _) (grows_stop ..)) (.ite (grows_start ..) (.refl _)))

theorem grows_infyAdd (s : Prios U) (u : U) (repeats : Bool) : Grows s (s.infyAdd u repeats) := by
  have h : Grows s { s with again := Function.update s.again (.timer (.stat u)) repeats } := ⟨fun _ hi => hi, rfl⟩
  exact h.trans (grows_timerAgain ..)

theorem grows_statStart (s : Prios U) (u : U) (inotify : Option Bool) : Grows s (s.evStatStart u inotify) := by
  have hset : ∀ (m : Prios U) (again : Watcher U → Bool), Grows m { m with again := again } :=
    fun m _ => ⟨fun _ hi => hi, rfl⟩
  refine .ite (.refl s) ?_
  have hbase := fun pri => (grows_init s (.timer (.stat u))).trans
    ((hset _ (Function.update s.again (.timer (.stat u)) true)).trans (grows_setPriority _ (.timer (.stat u)) pri))
  cases inotify with
  | some repeats => exact (hbase _).trans ((grows_infyAdd ..).trans (grows_evStart ..))
  | none => exact (hbase _).trans ((grows_timerAgain ..).trans (grows_evStart ..))

theorem grows_statStop (s : Prios U) (u : U) : Grows s (s.evStatStop u) :=
  (grows_clear s _).trans (.ite (.refl _) (.trans (.ite (grows_stop ..) (.refl _)) (grows_evStop ..)))

theorem grows_embedStart (s : Prios U) (u : U) : Grows s (s.evEmbedStart u) :=
  .ite (.refl s) ((grows_init s _).trans ((grows_setPriority ..).trans ((grows_start ..).trans ((grows_init ..).trans
    ((grows_setPriority ..).trans ((grows_start ..).trans ((grows_init ..).trans ((grows_start ..).trans
      (grows_evStart ..)))))))))

theorem grows_embedStop (s : Prios U) (u : U) : Grows s (s.evEmbedStop u) :=
  (grows_clear s _).trans (.ite (.refl _) ((grows_stop ..).trans ((grows_stop ..).trans ((grows_stop ..).trans
    (grows_evStop ..)))))

theorem grows_once (s : Prios U) (u : U) (io timer : Bool) : Grows s (s.evOnce u io timer) :=
  (grows_init s _).trans ((Grows.ite (grows_start ..) (.refl _)).trans ((grows_init ..).trans
    (.ite (grows_start ..) (.refl _))))

theorem grows_onceCb (s : Prios U) (u : U) : Grows s (s.onceCb u) := (grows_stop s _).trans (grows_stop ..)

section

omit [DecidableEq U]

theorem grows_foldl {A : Type} (f : Prios U → A → Prios U) (hf : ∀ s a, Grows s (f s a)) (as : List A)
    (s : Prios U) :
    Grows s (as.foldl f s) := by
  induction as generalizing s with
  | nil => exact .refl s
  | cons a as ih => exact (hf s a).trans (ih _)

end

theorem grows_kill (s : Prios U) (ws : List (IoW U)) : Grows s (s.fdKill ws) :=
  grows_foldl _ (fun _ _ => (grows_stop ..).trans (grows_feed ..)) ws s

theorem grows_queue (s : Prios U) (ws : List (Watcher U)) (type : Events) : Grows s (s.queueEvents ws type) :=
  grows_foldl _ (fun _ _ => grows_feed ..) ws s

theorem grows_childcb (s : Prios U) (ws : List U) : Grows s (s.childcb ws) :=
  (grows_feed s _ _).trans (grows_foldl _ (fun _ _ => (grows_setPriority ..).trans (grows_feed ..)) ws _)

theorem touched_reifyOne (s : Prios U) (w : Watcher U) : s.touched ⊆ (s.reifyOne w).touched :=
  (Grows.ite (.refl s) (grows_stop s w)).touched

/-- What `timers_reify` was about to feed it feeds. -/
theorem grows_reify (s : Prios U) (hr : s.pend.rfeeds = []) (ws : List (Watcher U)) (revents : Events) :
    Grows s (s.reify ws revents) := by
  have hall : s.touched ⊆ (ws.foldl Prios.reifyOne s).touched := by
    clear hr
    induction ws generalizing s with
    | nil => exact fun _ hi => hi
    | cons w ws ih => exact fun _ hi => ih _ (touched_reifyOne s w hi)
  exact ⟨fun i hi => (grows_queue _ _ revents).touched (hall hi), hr.symm⟩

theorem grows_statTimerCb (s : Prios U) (u : U) (changed : Bool) (inotify : Option Bool) :
    Grows s (s.statTimerCb u changed inotify) := by
  refine .ite (.trans ?_ (grows_feed ..)) (.refl s)
  cases inotify with
  | some repeats => exact grows_infyAdd ..
  | none => exact .refl s

theorem grows_invoke (s : Prios U) (w : Watcher U) (a : Answers) : Grows s (s.invoke w a) := by
  unfold Prios.invoke
  split
  · exact grows_statTimerCb ..
  · exact .ite (grows_feed ..) (.refl _)
  · exact (grows_embedStop ..).trans (grows_embedStart ..)
  · exact (grows_clear ..).trans (grows_onceCb ..)
  · exact (grows_clear ..).trans (grows_onceCb ..)
  · exact .refl _

end Prios

namespace Priority

open Prios

variable {U : Type} [DecidableEq U] {s t : Prios U} {a : Act U}

theorem step_eq (hs : step s a = some t) : Allowed s a ∧ t = call s a := by
  unfold step at hs
  rw [Option.ite_none_right_eq_some, Option.some.injEq] at hs
  exact ⟨hs.1, hs.2.symm⟩

theorem grows_step (hr : s.pend.rfeeds = []) (hs : step s a = some t) : Grows s t := by
  obtain ⟨-, rfl⟩ := step_eq hs
  cases a with
  | evInit w => exact grows_init ..
  | evSetPriority w pri => exact grows_setPriority ..
  | evFeedEvent w revents => exact grows_feed ..
  | evClearPending w => exact grows_clear ..
  | start w => exact grows_start ..
  | stop w => exact grows_stop ..
  | setRepeat w repeats => exact ⟨fun _ hi => hi, rfl⟩
  | evTimerAgain w => exact grows_timerAgain ..
  | evPeriodicAgain w => exact (grows_stop ..).trans (grows_start ..)
  | evStatStart w inotify => exact grows_statStart ..
  | evStatStop w => exact grows_statStop ..
  | evEmbedStart w => exact grows_embedStart ..
  | evEmbedStop w => exact grows_embedStop ..
  | evOnce w io timer => exact grows_once ..
  | ownStart w pri => exact (grows_init ..).trans ((grows_setPriority ..).trans (grows_start ..))
  | ownStop w => exact grows_stop ..
  | ownFeed w revents => exact grows_feed ..
  | queueEvents ws type => exact grows_queue ..
  | fdKill ws => exact grows_kill ..
  | timersReify ws => exact grows_reify s hr ..
  | periodicsReify ws => exact grows_reify s hr ..
  | childcb ws => exact grows_childcb ..
  | infyAdd w repeats => exact grows_infyAdd ..
  | infyWd w changed inotify => exact grows_statTimerCb ..
  | invokePending pri a =>
    have h : Grows s { s with pend := s.pend.pop pri, touched := pri :: s.touched } :=
      ⟨fun _ hi => List.mem_cons_of_mem _ hi, rfl⟩
    exact h.trans (grows_invoke ..)

section

omit [DecidableEq U]

/-- A user's watcher is no private one. -/
theorem ofUser_private {w : Watcher U} (hw : ofUser w = true) :
    (∀ u, w ≠ .timer (.stat u)) ∧ (∀ u, w ≠ .io (.embed u)) ∧ ofLoop w = false ∧ feedsOwner w = false := by
  refine ⟨?_, ?_, ?_, ?_⟩
  · rintro u rfl
    cases hw
  · rintro u rfl
    cases hw
  · cases w with
    | io w => cases w <;> first | rfl | cases hw
    | signal w => cases w <;> first | rfl | cases hw
    | pendingW => cases hw
    | _ => rfl
  · cases w with
    | io w => cases w <;> first | rfl | cases hw
    | timer w => cases w <;> first | rfl | cases hw
    | _ => rfl

theorem ofLoop_private {w : Watcher U} (hw : ofLoop w = true) :
    (∀ u, w ≠ .timer (.stat u)) ∧ (∀ u, w ≠ .io (.embed u)) ∧ hasPrivate w = false ∧ feedsOwner w = false := by
  cases w with
  | io w => cases w <;> first | exact ⟨by simp, by simp, rfl, rfl⟩ | cases hw
  | signal w => exact ⟨by simp, by simp, rfl, rfl⟩
  | pendingW => exact ⟨by simp, by simp, rfl, rfl⟩
  | _ => cases hw

end

theorem inv_step (h : Inv (fun _ => False) s) (hr : s.pend.rfeeds = []) (hs : step s a = some t)
    (hno : ¬ Unclamped s a) : Inv (fun _ => False) t := by
  obtain ⟨ha, rfl⟩ := step_eq hs
  cases a with
  | evInit w =>
    obtain ⟨hw, hact, hpend⟩ := ha
    refine h.init hr (fun _ => hpend) ?_ ?_
    · rintro u rfl
      exact Bool.eq_false_iff.mpr fun hc =>
        absurd (hact.symm.trans ((h.timer u hc).2.resolve_right id)) Bool.false_ne_true
    · rintro u rfl
      refine ⟨Bool.eq_false_iff.mpr fun hc => ?_, not_not.mp fun hc => ?_⟩
      · exact absurd (hact.symm.trans ((h.io u hc).resolve_right id)) Bool.false_ne_true
      · exact absurd (hact.symm.trans ((h.pending _ hc).2.2 u rfl)) Bool.false_ne_true
  | evSetPriority w pri =>
    obtain ⟨hw, hact, hpend⟩ := ha
    exact h.setPriority w pri (.inr ⟨hact, hpend, by simp [hr], (ofUser_private hw).2.2.1⟩) fun _ => hpend
  | evFeedEvent w revents =>
    obtain ⟨hto, hio, -, -⟩ := ofUser_private ha
    have hc : s.Clamped w := by
      obtain ⟨h₁, h₂⟩ := not_or.mp hno
      exact ⟨not_lt.mp h₁, not_lt.mp h₂⟩
    exact h.feed hc ⟨fun u hu => absurd hu (hto u), fun u hu => absurd hu (hio u)⟩ revents
  | evClearPending w => exact h.clear w
  | start w =>
    obtain ⟨hto, hio, -, -⟩ := ofUser_private ha.1
    exact h.start (fun u hu => absurd hu (hto u)) fun u hu => absurd hu (hio u)
  | stop w => exact h.stop ha.2 (by simp [hr])
  | setRepeat w repeats =>
    obtain ⟨hto, -, -, -⟩ := ofUser_private ha
    exact h.setRepeat hto repeats
  | evTimerAgain w => exact (h.timerAgain (w := .user w) hr (by simp)).drop (by simp) (by simp) (by simp)
  | evPeriodicAgain w => exact h.periodicAgain
  | evStatStart w inotify => exact h.statStart hr inotify
  | evStatStop w => exact h.statStop hr
  | evEmbedStart w => exact h.embedStart hr
  | evEmbedStop w => exact h.embedStop hr
  | evOnce w io timer => exact h.once hr io timer
  | ownStart w pri =>
    obtain ⟨hto, hio, hp, hf⟩ := ofLoop_private ha.1
    have hnot : ∀ P : Prop, feedsOwner w = true → P := fun P hc => absurd (hf.symm.trans hc) Bool.false_ne_true
    have hinit : Inv (fun _ => False) (s.evInit w) := by
      refine h.init hr (hnot _) ?_ ?_
      · rintro u rfl
        cases hp
      · rintro u rfl
        cases hp
    exact (hinit.setPriority w pri (.inl ha.2) (hnot _)).start (fun u hu => absurd hu (hto u))
      fun u hu => absurd hu (hio u)
  | ownStop w => exact h.stop (ofLoop_private ha).2.2.1 (by simp [hr])
  | ownFeed w revents =>
    obtain ⟨hto, hio, -, -⟩ := ofLoop_private ha
    exact h.feed (h.own w ha) ⟨fun u hu => absurd hu (hto u), fun u hu => absurd hu (hio u)⟩ revents
  | queueEvents ws type => exact h.queue ws (fun w hw => ⟨h.active w (ha w hw), h.backed (ha w hw)⟩) type
  | fdKill ws => exact h.kill ws ha
  | timersReify ws =>
    refine h.reify (ws.map .timer) ⟨ha.1.map fun _ _ => Watcher.timer.inj, fun w hw => ?_⟩ (fun w hw => ?_) evTimer
    · obtain ⟨v, hv, rfl⟩ := List.mem_map.mp hw
      exact ha.2 v hv
    · obtain ⟨v, hv, rfl⟩ := List.mem_map.mp hw
      exact ⟨rfl, by simp⟩
  | periodicsReify ws =>
    refine h.reify (ws.map .periodic) ⟨ha.1.map fun _ _ => Watcher.periodic.inj, fun w hw => ?_⟩ (fun w hw => ?_)
      evPeriodic
    · obtain ⟨v, hv, rfl⟩ := List.mem_map.mp hw
      exact ha.2 v hv
    · obtain ⟨v, hv, rfl⟩ := List.mem_map.mp hw
      exact ⟨rfl, by simp⟩
  | childcb ws => exact (h.feed (h.own _ rfl) (by unfold Backed; simp) _).reap ws
  | infyAdd w repeats => exact h.infyAdd hr (.inl ha) repeats
  | infyWd w changed inotify => exact h.statTimerCb hr ha changed inotify
  | invokePending pri a => exact h.invokePending hr ha.1 ha.2 a

theorem inv_init : Inv (fun _ => False) (Prios.init : Prios U) := by
  have hprio : ∀ w, (Prios.init : Prios U).Clamped w := by
    intro w
    unfold Clamped Prios.init
    dsimp only
    split
    · decide
    · decide
  exact ⟨fun pri i hi => absurd hi (Nat.not_lt_zero i), rfl, fun w hw => absurd rfl hw,
    fun w hw => absurd hw List.not_mem_nil, fun w _ => hprio w, fun w _ => hprio w, fun u hu => (by cases hu),
    fun u hu => (by cases hu), fun i hi => absurd hi List.not_mem_nil⟩

theorem grows_run {acts : List (Act U)} (hrun : Runs s acts t) (hr : s.pend.rfeeds = []) : Grows s t := by
  induction hrun with
  | nil s => exact .refl s
  | cons hs _ ih =>
    have hg := grows_step hr hs
    exact hg.trans (ih (hg.rfeeds.trans hr))

/-- **Priority indexing stays in range** through a whole run, if and only if in none of its steps the user feeds a
watcher whose priority is out of range, which no start has clamped since it was set. -/
theorem priority_index {acts : List (Act U)} (hrun : Runs .init acts t) :
    (∀ i ∈ t.touched, Indexes i) ↔
      ∀ past a later, acts = past ++ a :: later → ∀ s, Runs .init past s → ¬ Unclamped s a := by
  constructor
  · intro hall past a later hl s hs hbad
    rw [hl] at hrun
    obtain ⟨s', h₁, h₂⟩ := hrun.of_append
    rw [Run.unique h₁ hs] at h₂
    have hr : s.pend.rfeeds = [] := (grows_run hs rfl).rfeeds
    cases h₂ with
    | cons hstep hrest =>
      have hg := grows_step hr hstep
      have hlast := grows_run hrest (hg.rfeeds.trans hr)
      obtain ⟨-, rfl⟩ := step_eq hstep
      cases a with
      | evFeedEvent w revents =>
        obtain ⟨h₁, h₂⟩ := hall (s.abspri w) (hlast.touched List.mem_cons_self)
        unfold abspri at h₁ h₂
        replace hbad : s.pend.priority w < minpri ∨ maxpri < s.pend.priority w := hbad
        unfold numpri at h₂
        unfold minpri maxpri at *
        omega
      | _ => exact hbad
  · intro hno
    have hinv : Inv (fun _ => False) t ∧ t.pend.rfeeds = [] :=
      Run.guarded (I := fun _ s => Inv (fun _ => False) s ∧ s.pend.rfeeds = []) (G := fun _ s a => ¬ Unclamped s a)
        (fun _ _ _ _ _ h hg hs => ⟨inv_step h.1 h.2 hs hg, (grows_step h.2 hs).rfeeds.trans h.2⟩) ⟨inv_init, rfl⟩ hno
        hrun
    exact hinv.1.touched

/-- An embed and a stat with priorities out of range, that are started before they are fed; the embed's fd is killed
and its watcher's callback feeds the embed. -/
def startedFirst : List (Act Bool) :=
  [.evSetPriority (.embed true) 100, .evEmbedStart true, .fdKill [.embed true], .invokePending 4 ⟨true, false, none⟩,
    .evSetPriority (.stat true) (-100), .evStatStart true none, .timersReify [.stat true],
    .invokePending 4 ⟨true, true, none⟩, .invokePending 0 ⟨true, true, none⟩, .evStatStop true, .evEmbedStop true]

theorem priority_index_started : ∃ t : Prios Bool, t.touched ≠ [] ∧ ∀ i ∈ t.touched, Indexes i := by
  have hx : (execFrom step Prios.init startedFirst).map (fun t =>
      (decide (t.touched ≠ []), checks step (fun s a => !Unclamped s a) Prios.init startedFirst)) =
        some (true, true) := by
    decide +kernel
  obtain ⟨t, ht, hx⟩ := Option.map_eq_some_iff.mp hx
  obtain ⟨hne, hok⟩ := Prod.mk.inj hx
  exact ⟨t, of_decide_eq_true hne, (priority_index (Run.iff_execFrom.mpr ht)).mpr
    fun past a later hl s hs => by simpa using Run.of_checks hok past a later hl s hs⟩

/-- An idle io watcher is given the priority 3 and fed, and never started. -/
theorem priority_index_out : ∃ t : Prios Bool,
    Runs .init
      [.evInit (.io (.user true)), .evSetPriority (.io (.user true)) 3, .evFeedEvent (.io (.user true)) evRead] t ∧
    t.touched = [5] ∧ ¬ Indexes 5 := by
  have hx : (execFrom step (Prios.init : Prios Bool)
      [.evInit (.io (.user true)), .evSetPriority (.io (.user true)) 3, .evFeedEvent (.io (.user true)) evRead]).map
        Prios.touched = some [5] := by
    decide +kernel
  obtain ⟨t, ht, hx⟩ := Option.map_eq_some_iff.mp hx
  exact ⟨t, Run.iff_execFrom.mpr ht, hx, by unfold Indexes; decide⟩

end Priority

end Qev
