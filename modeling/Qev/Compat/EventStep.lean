/-
# What one step leaves of an event

A step that is about another event, or about none, makes no watcher of the event active or pending
that was neither (`Calm`, `Inv.passes`). One that is about the event is one of six (`Done`). Through all
of them the place of `iosig` that the event does not use stays idle, and inactive if the event asked for no
events (`Fits`).
-/
import Qev.Compat.Event
import Qev.Lib.Bits

set_option linter.unusedSectionVars false

namespace Qev

open Lib

namespace Compat

variable {U T K F A : Type} [DecidableEq U] [LinearOrder T] [Add T] [Sub T] [Zero T]
variable {e : Setup U T} {l m n : Loop U T K} {s t : Base U T K F A} {u v : U} {ev : Event F A}

theorem owner_eq {w : Watcher U} :
    owner w = some u ↔ w = .io (.user u) ∨ w = .signal (.user u) ∨ w = .timer (.user u) := by
  constructor
  · intro h
    cases w with
    | io w =>
      cases w with
      | user x => exact .inl (by rw [Option.some.inj h])
      | _ => cases h
    | signal w =>
      cases w with
      | user x => exact .inr (.inl (by rw [Option.some.inj h]))
      | _ => cases h
    | timer w =>
      cases w with
      | user x => exact .inr (.inr (by rw [Option.some.inj h]))
      | _ => cases h
    | _ => cases h
  · rintro (rfl | rfl | rfl)
    · rfl
    · rfl
    · rfl

theorem idle_iff : Idle l u ↔ l.view (.io (.user u)) = .idle ∧ l.view (.signal (.user u)) = .idle ∧
    l.view (.timer (.user u)) = .idle := by
  refine ⟨fun h => ⟨h _ rfl, h _ rfl, h _ rfl⟩, fun h w hw => ?_⟩
  rcases owner_eq.mp hw with rfl | rfl | rfl
  · exact h.1
  · exact h.2.1
  · exact h.2.2

theorem owner_ne {w x : Watcher U} (hw : owner w = some u) (hx : owner x ≠ some u) : w ≠ x := fun hc => hx (hc ▸ hw)

/-! ### What changes little about an event -/

/-- No watcher of the event was made active or pending that was neither, and its signal watcher is active or not
as it was. -/
structure Calm (u : U) (l m : Loop U T K) : Prop where
  idle : ∀ w, owner w = some u → l.view w = .idle → m.view w = .idle
  inactive : ∀ w, owner w = some u → (l.view w).active = false → (m.view w).active = false
  signal : (m.view (.signal (.user u))).active = (l.view (.signal (.user u))).active

theorem Calm.trans (h : Calm u l m) (h' : Calm u m n) : Calm u l n :=
  ⟨fun w hw hl => h'.idle w hw (h.idle w hw hl), fun w hw hl => h'.inactive w hw (h.inactive w hw hl),
    h'.signal.trans h.signal⟩

theorem Calm.of_same (h : ∀ w, owner w = some u → m.view w = l.view w) : Calm u l m :=
  ⟨fun w hw hl => (h w hw).trans hl, fun w hw hl => (congrArg View.active (h w hw)).trans hl,
    congrArg View.active (h _ rfl)⟩

theorem Calm.of_spares {e : Env U T} (h : Loop.Spares e l m) (u : U) : Calm u l m := by
  refine ⟨fun w _ hl => (h.same w (by rw [hl]; rfl)).trans hl,
    fun w _ hl => (congrArg View.active (h.same w hl)).trans hl, ?_⟩
  show decide (m.signals.active _ ≠ 0) = decide (l.signals.active _ ≠ 0)
  rw [h.signals]

/-- It was done to the watcher of another. -/
theorem Calm.of_sets {e : Env U T} {w : Watcher U} {x : View} (h : Loop.Sets e w x l m) (hw : owner w ≠ some u) :
    Calm u l m := .of_same fun v hv => h.others v (owner_ne hv hw)

/-- What was pending for a watcher is taken. -/
theorem Calm.of_taken {e : Env U T} {w : Watcher U} (h : Loop.Sets e w ⟨(l.view w).active, none⟩ l m) (u : U) :
    Calm u l m := by
  have hact : ∀ v, (m.view v).active = (l.view v).active := fun v => by
    by_cases hv : v = w
    · rw [hv, h.self]
    · rw [h.others v hv]
  refine ⟨fun v _ hl => ?_, fun v _ hl => (hact v).trans hl, hact _⟩
  by_cases hv : v = w
  · rw [hv] at hl ⊢
    rw [h.self, hl]
    rfl
  · exact (h.others v hv).trans hl

/-! ### The watchers of an event -/

/-- The watcher that the event does not use is idle, and so, but for activations, is the one for which it asked for
no events. -/
structure Fits (l : Loop U T K) (u : U) (ev : Event F A) : Prop where
  io : ev.has evSignal = true → l.view (.io (.user u)) = .idle
  signal : ev.has evSignal = false → l.view (.signal (.user u)) = .idle
  unasked : ev.has evSignal = false → ev.has (evRead ||| evWrite) = false →
    (l.view (.io (.user u))).active = false

theorem has_congr {ev ev' : Event F A} (he : ev'.evEvents = ev.evEvents) (events : Events) :
    ev'.has events = ev.has events := by
  unfold Event.has
  rw [he]

theorem Fits.calm (h : Fits l u ev) (hc : Calm u l m) {ev' : Event F A} (he : ev'.evEvents = ev.evEvents) :
    Fits m u ev' := by
  have hhas := has_congr he
  refine ⟨fun hs => hc.idle _ rfl (h.io ((hhas _).symm.trans hs)),
    fun hs => hc.idle _ rfl (h.signal ((hhas _).symm.trans hs)), fun hs hr => hc.inactive _ rfl ?_⟩
  exact h.unasked ((hhas _).symm.trans hs) ((hhas _).symm.trans hr)

theorem iosig_cases (u : U) (ev : Event F A) : iosig u ev = .signal (.user u) ∧ ev.has evSignal = true ∨
    iosig u ev = .io (.user u) ∧ ev.has evSignal = false := by
  unfold iosig
  cases h : ev.has evSignal with
  | true => exact .inl ⟨if_pos rfl, rfl⟩
  | false => exact .inr ⟨if_neg Bool.false_ne_true, rfl⟩

theorem owner_iosig (u : U) (ev : Event F A) : owner (iosig u ev) = some u := by
  rcases iosig_cases u ev with ⟨h, -⟩ | ⟨h, -⟩
  · rw [h]
    rfl
  · rw [h]
    rfl

theorem Idle.fits (h : Idle l u) (ev : Event F A) : Fits l u ev :=
  ⟨fun _ => h _ rfl, fun _ => h _ rfl, fun _ _ => by rw [h _ rfl]; rfl⟩

/-! ### The calls -/

namespace Base

/-- `event_set` leaves the event idle. -/
theorem eventSet_views (h : Loop.Tidy e.toEnv s.loop) (hu : Idle s.loop u) (fd : ℤ) (events : Events) (cb : F)
    (arg : A) : Loop.Tidy e.toEnv (s.eventSet u fd events cb arg).loop ∧
      ∀ w, (s.eventSet u fd events cb arg).loop.view w = s.loop.view w := by
  have hp : ∀ l : Loop U T K, Idle l u → ∀ w, owner w = some u → l.pend.pending w = 0 :=
    fun l hl w hw => Pend.pendingFor_eq_none.mp (congrArg View.pending (hl w hw))
  have hw : ∀ w, owner w = some u → Loop.Same e.toEnv s.loop ((s.loop.evInit w).evInit (.timer (.user u))) :=
    fun w hw => by
      have h₁ := h.evInit (hp _ hu w hw)
      have h₂ := h₁.tidy.evInit (hp _ (fun v hv => (h₁.same v).trans (hu v hv)) (.timer (.user u)) rfl)
      exact h₁.trans h₂
  have heq : (s.eventSet u fd events cb arg).loop = ((s.loop.evInit
      (iosig u (⟨fd, events, cb, arg, 0, evlistInit⟩ : Event F A))).evInit (.timer (.user u))) := by
    unfold eventSet iosig setEv
    dsimp only
    split
    · rfl
    · rfl
  have hsame := hw _ (owner_iosig u (⟨fd, events, cb, arg, 0, evlistInit⟩ : Event F A))
  rw [heq]
  exact ⟨hsame.tidy, hsame.same⟩

/-- `iosig` is started, if there are events to start it for. -/
theorem addIosig_views (h : Loop.Tidy e.toEnv s.loop) (u : U) (ev : Event F A) :
    Loop.Tidy e.toEnv (s.addIosig e u ev).1 ∧
      (∀ w, w ≠ iosig u ev → w ≠ .io .pipeW → (s.addIosig e u ev).1.view w = s.loop.view w) ∧
      (ev.has evSignal = true → ((s.addIosig e u ev).1.view (.signal (.user u))).active = true) ∧
      (ev.has evSignal = false → ev.has (evRead ||| evWrite) = false → (s.addIosig e u ev).1 = s.loop) := by
  unfold addIosig
  rcases iosig_cases u ev with ⟨hw, hs⟩ | ⟨hw, hs⟩
  · rw [hw, if_pos hs]
    by_cases ha : s.loop.signals.active (.user u) = 0
    · rw [if_pos ha]
      have hset := h.signalSet ha ev.evFd.toNat
      obtain ⟨h₁, h₂, h₃⟩ := hset.tidy.signalStart e.evpipe (.user u)
      exact ⟨h₁, fun v hv hpipe => (h₃ v hv hpipe).trans (hset.same v), fun _ => congrArg View.active h₂,
        fun hc => absurd (hs.symm.trans hc) Bool.true_eq_false.mp⟩
    · rw [if_neg ha]
      exact ⟨h, fun _ _ _ => rfl, fun _ => decide_eq_true ha, fun _ _ => rfl⟩
  · rw [hw, if_neg (by rw [hs]; exact Bool.false_ne_true)]
    have hno : ∀ l : Loop U T K, ev.has evSignal = true → (l.view (.signal (.user u))).active = true :=
      fun l hc => absurd (hs.symm.trans hc) Bool.false_ne_true
    by_cases hr : ev.has (evRead ||| evWrite) = true
    · rw [if_pos hr]
      by_cases ha : s.loop.fds.active (.user u) = 0
      · rw [if_pos ha]
        have hset := h.ioSet ha ev.evFd.toNat (ev.evEvents &&& (evRead ||| evWrite))
        have hstart := hset.tidy.ioStart (.user u)
        exact ⟨hstart.tidy, fun v hv _ => (hstart.others v hv).trans (hset.same v), hno _,
          fun _ hc => absurd (hr.symm.trans hc) Bool.true_eq_false.mp⟩
      · rw [if_neg ha]
        exact ⟨h, fun _ _ _ => rfl, hno _, fun _ _ => rfl⟩
    · rw [if_neg hr]
      exact ⟨h, fun _ _ _ => rfl, hno _, fun _ _ => rfl⟩

theorem addTo_views (h : Loop.Tidy e.toEnv l) (u : U) (tv : Option T) (flags : BitVec 32) :
    Loop.Tidy e.toEnv (addTo e u tv l flags).1 ∧
      ∀ w, w ≠ .timer (.user u) → (addTo e u tv l flags).1.view w = l.view w := by
  cases tv with
  | none =>
    have hstop := h.timerStop (.user u)
    exact ⟨hstop.tidy, hstop.others⟩
  | some tv =>
    have hset : Loop.Tidy e.toEnv { l with wRepeat := Function.update l.wRepeat (.user u) (evTvGet e tv) } :=
      ⟨⟨h.core.linked, h.core.bound, h.core.timers, h.core.pend, h.core.dummy, h.core.rfeeds⟩, h.signals, h.rfeeds⟩
    have hagain := hset.timerAgain (w := .user u) rfl
    exact ⟨hagain.tidy, fun w hw => (hagain.others w hw).trans (Loop.view_congr (by cases w <;> exact Iff.rfl) rfl)⟩

theorem eventAdd_eq (hev : s.evs u = some ev) (tv : Option T) : ∃ flags, (s.eventAdd e u tv).2 =
    { s with loop := (addTo e u tv (s.addIosig e u ev).1 (s.addIosig e u ev).2).1
             evs := Function.update s.evs u (some { ev with evFlags := flags }) } := by
  unfold eventAdd
  rw [hev]
  exact ⟨_, rfl⟩

/-- `event_add` changes no watcher but the event's own two and the loop's of its pipe. -/
theorem eventAdd_views (h : Loop.Tidy e.toEnv s.loop) (hev : s.evs u = some ev) (tv : Option T) :
    Loop.Tidy e.toEnv (s.eventAdd e u tv).2.loop ∧
      (∀ w, w ≠ iosig u ev → w ≠ .timer (.user u) → w ≠ .io .pipeW →
        (s.eventAdd e u tv).2.loop.view w = s.loop.view w) ∧
      (ev.has evSignal = true → ((s.eventAdd e u tv).2.loop.view (.signal (.user u))).active = true) ∧
      (ev.has evSignal = false → ev.has (evRead ||| evWrite) = false →
        (s.eventAdd e u tv).2.loop.view (.io (.user u)) = s.loop.view (.io (.user u))) := by
  obtain ⟨flags, heq⟩ := eventAdd_eq (e := e) hev tv
  obtain ⟨h₁, h₂, h₃, h₄⟩ := addIosig_views h u ev
  obtain ⟨h₅, h₆⟩ := addTo_views h₁ u tv (s.addIosig e u ev).2
  rw [heq]
  refine ⟨h₅, fun w hw hto hpipe => (h₆ w hto).trans (h₂ w hw hpipe), fun hs => ?_, fun hs hr => ?_⟩
  · exact (congrArg View.active (h₆ _ (by simp))).trans (h₃ hs)
  · exact (h₆ _ (by simp)).trans (by rw [h₄ hs hr])

theorem eventDel_eq (hev : s.evs u = some ev) : s.eventDel e u =
    { s with loop := (if ev.has evSignal then s.loop.evSignalStop (.user u)
               else s.loop.evIoStop (.user u)).evTimerStop e.toEnv (.user u)
             evs := Function.update s.evs u (some { ev with evFlags := evlistInit }) } := by
  unfold eventDel
  rw [hev]
  rfl

/-- `event_del` leaves nothing of the event's two watchers, and does nothing to others. -/
theorem eventDel_views (h : Loop.Tidy e.toEnv s.loop) (hev : s.evs u = some ev) :
    Loop.Tidy e.toEnv (s.eventDel e u).loop ∧ (s.eventDel e u).loop.view (iosig u ev) = .idle ∧
      (s.eventDel e u).loop.view (.timer (.user u)) = .idle ∧
      ∀ w, w ≠ iosig u ev → w ≠ .timer (.user u) → (s.eventDel e u).loop.view w = s.loop.view w := by
  have hstop : ∀ {l : Loop U T K}, Loop.Sets e.toEnv (iosig u ev) .idle s.loop l →
      Loop.Tidy e.toEnv (l.evTimerStop e.toEnv (.user u)) ∧
      (l.evTimerStop e.toEnv (.user u)).view (iosig u ev) = .idle ∧
      (l.evTimerStop e.toEnv (.user u)).view (.timer (.user u)) = .idle ∧
      ∀ w, w ≠ iosig u ev → w ≠ .timer (.user u) → (l.evTimerStop e.toEnv (.user u)).view w = s.loop.view w := by
    intro l hl
    have hto := hl.tidy.timerStop (.user u)
    have hne : iosig u ev ≠ .timer (.user u) := by
      rcases iosig_cases u ev with ⟨hw, -⟩ | ⟨hw, -⟩
      · simp [hw]
      · simp [hw]
    exact ⟨hto.tidy, (hto.others _ hne).trans hl.self, hto.self,
      fun w hw hw' => (hto.others w hw').trans (hl.others w hw)⟩
  rw [eventDel_eq hev]
  rcases iosig_cases u ev with ⟨hw, hs⟩ | ⟨hw, hs⟩
  · rw [if_pos hs]
    refine hstop ?_
    rw [hw]
    exact h.signalStop _
  · rw [if_neg (by rw [hs]; exact Bool.false_ne_true)]
    refine hstop ?_
    rw [hw]
    exact h.ioStop _

/-- So nothing is left of the event. -/
theorem eventDel_idle (h : Loop.Tidy e.toEnv s.loop) (hev : s.evs u = some ev) (hfits : Fits s.loop u ev) :
    Idle (s.eventDel e u).loop u := by
  obtain ⟨-, h₂, h₃, h₄⟩ := eventDel_views h hev
  rcases iosig_cases u ev with ⟨hio, hs⟩ | ⟨hio, hs⟩
  · rw [hio] at h₂ h₄
    exact idle_iff.mpr ⟨(h₄ _ (by simp) (by simp)).trans (hfits.io hs), h₂, h₃⟩
  · rw [hio] at h₂ h₄
    exact idle_iff.mpr ⟨h₂, (h₄ _ (by simp) (by simp)).trans (hfits.signal hs), h₃⟩

/-- `event_active` makes watchers pending, and none active. -/
theorem eventActive_views (h : Loop.Tidy e.toEnv s.loop) (hev : s.evs u = some ev) (res : Events) :
    Loop.Tidy e.toEnv (s.eventActive u res).loop ∧
      (∀ w, ((s.eventActive u res).loop.view w).active = (s.loop.view w).active) ∧
      (∀ w, w ≠ iosig u ev → w ≠ .timer (.user u) → (s.eventActive u res).loop.view w = s.loop.view w) ∧
      (res &&& (evSignal ||| (evRead ||| evWrite)) = 0 →
        (s.eventActive u res).loop.view (iosig u ev) = s.loop.view (iosig u ev)) := by
  have hfeed : ∀ (c : Prop) [Decidable c] (w : Watcher U), owner w = some u → ∀ (l : Loop U T K) (revents : Events),
      Loop.Tidy e.toEnv l → Loop.Tidy e.toEnv (if c then l.evFeedEvent w revents else l) ∧
        (∀ v, ((if c then l.evFeedEvent w revents else l).view v).active = (l.view v).active) ∧
        ∀ v, (v ≠ w ∨ ¬ c) → (if c then l.evFeedEvent w revents else l).view v = l.view v := by
    intro c _ w hw l revents hl
    by_cases hc : c
    · rw [if_pos hc]
      have hset := hl.feed (w := w) (by rintro rfl; cases hw) revents
      refine ⟨hset.tidy, fun v => ?_, fun v hv => hset.others v (hv.resolve_right (not_not.mpr hc))⟩
      by_cases hv : v = w
      · rw [hv, hset.self]
      · rw [hset.others v hv]
    · rw [if_neg hc]
      exact ⟨hl, fun _ => rfl, fun _ _ => rfl⟩
  have hne : iosig u ev ≠ .timer (.user u) := by
    rcases iosig_cases u ev with ⟨hw, -⟩ | ⟨hw, -⟩
    · simp [hw]
    · simp [hw]
  unfold eventActive
  rw [hev]
  dsimp only
  obtain ⟨h₁, a₁, o₁⟩ := hfeed (res &&& evTimer ≠ 0) (.timer (.user u)) rfl s.loop (res &&& evTimer) h
  obtain ⟨h₂, a₂, o₂⟩ := hfeed (res &&& evSignal ≠ 0) (iosig u ev) (owner_iosig u ev) _ (res &&& evSignal) h₁
  obtain ⟨h₃, a₃, o₃⟩ := hfeed (res &&& (evRead ||| evWrite) ≠ 0) (iosig u ev) (owner_iosig u ev) _
    (res &&& (evRead ||| evWrite)) h₂
  refine ⟨h₃, fun w => (a₃ w).trans ((a₂ w).trans (a₁ w)), fun w hw hto => ?_, fun hres => ?_⟩
  · exact (o₃ w (.inl hw)).trans ((o₂ w (.inl hw)).trans (o₁ w (.inl hto)))
  · obtain ⟨hs, hr⟩ := not_or.mp fun hc => (and_or_ne_zero _ _ _).mpr hc hres
    exact (o₃ _ (.inr hr)).trans ((o₂ _ (.inr hs)).trans (o₁ _ (.inl hne)))

theorem evXCb_eq (hev : s.evs u = some ev) (revents : Events) : s.evXCb u revents =
    { s with evs := Function.update s.evs u (some { ev with
               evRes := revents &&& (evRead ||| evWrite ||| evTimer ||| evSignal) })
             hist := ⟨u, ev.evCallback, ev.evFd, revents &&& (evRead ||| evWrite ||| evTimer ||| evSignal),
               ev.evArg⟩ :: s.hist } := by
  unfold evXCb
  rw [hev]
  rfl

end Base

/-- Whether the callback of a half removes the event. -/
def removes (ev : Event F A) (w : Watcher U) (revents : Events) : Bool :=
  match w with
  | .io _ => revents &&& evError ≠ 0 ∨ !ev.has evPersist
  | .signal _ => revents &&& evError ≠ 0
  | _ => true

namespace Base

/-- The callback of a half removes the event, or not, and calls the event's callback. -/
theorem invoke_eq {w : Watcher U} (hw : owner w = some u) (hev : s.evs u = some ev) (revents : Events) :
    s.invoke e w revents = (if removes ev w revents then s.eventDel e u else s).evXCb u revents := by
  rcases owner_eq.mp hw with rfl | rfl | rfl
  · show s.evXCbIo e u revents = _
    unfold evXCbIo removes
    rw [hev]
    simp only [decide_eq_true_eq]
  · show s.evXCbSig e u revents = _
    unfold evXCbSig removes
    simp only [decide_eq_true_eq]
  · rfl

theorem invoke_none {w : Watcher U} (hw : ∀ u, owner w = some u → s.evs u = none) (revents : Events) :
    s.invoke e w revents = s := by
  unfold invoke
  split
  · rename_i u
    unfold evXCbIo
    rw [hw u rfl]
  · rename_i u
    have hdel : s.eventDel e u = s := by
      unfold eventDel
      rw [hw u rfl]
    unfold evXCbSig evXCb
    rw [hdel, ite_self, hw u rfl]
  · rename_i u
    have hdel : s.eventDel e u = s := by
      unfold eventDel
      rw [hw u rfl]
    unfold evXCbTo evXCb
    rw [hdel, hw u rfl]
  · rfl

/-- What a called half leaves: if it removed the event, nothing of it. -/
theorem invoke_views (h : Loop.Tidy e.toEnv s.loop) {w : Watcher U} (hw : owner w = some u) (hev : s.evs u = some ev)
    (hfits : Fits s.loop u ev) (revents : Events) :
    Loop.Tidy e.toEnv (s.invoke e w revents).loop ∧
      (∀ v, owner v ≠ some u → (s.invoke e w revents).loop.view v = s.loop.view v) ∧
      (if removes ev w revents then Idle (s.invoke e w revents).loop u
        else (s.invoke e w revents).loop = s.loop) ∧
      (∃ ev', (s.invoke e w revents).evs = Function.update s.evs u (some ev') ∧ ev'.evEvents = ev.evEvents) ∧
      ∃ c, c.ev = u ∧ (s.invoke e w revents).hist = c :: s.hist := by
  rw [invoke_eq hw hev]
  by_cases hr : removes ev w revents = true
  · obtain ⟨h₁, -, -, h₄⟩ := eventDel_views h hev
    have hev' : (s.eventDel e u).evs u = some { ev with evFlags := evlistInit } := by
      rw [eventDel_eq hev]
      exact Function.update_self ..
    have hothers : ∀ v, owner v ≠ some u → (s.eventDel e u).loop.view v = s.loop.view v := fun v hv =>
      h₄ v (fun hc => hv (hc ▸ owner_iosig u ev)) fun hc => hv (by rw [hc]; rfl)
    rw [if_pos hr, if_pos hr, evXCb_eq hev']
    have hhist : (s.eventDel e u).hist = s.hist := by rw [eventDel_eq hev]
    have hevs : (s.eventDel e u).evs = Function.update s.evs u (some { ev with evFlags := evlistInit }) := by
      rw [eventDel_eq hev]
    refine ⟨h₁, hothers, eventDel_idle h hev hfits, ⟨{ ev with
      evFlags := evlistInit, evRes := revents &&& (evRead ||| evWrite ||| evTimer ||| evSignal) }, ?_, rfl⟩,
      ⟨u, _, _, _, _⟩, rfl, congrArg _ hhist⟩
    show Function.update (s.eventDel e u).evs u _ = _
    rw [hevs, Function.update_idem]
  · rw [if_neg hr, if_neg hr, evXCb_eq hev]
    exact ⟨h, fun _ _ => rfl, rfl, ⟨_, rfl, rfl⟩, ⟨u, _, _, _, _⟩, rfl, rfl⟩

end Base

/-! ### Steps -/

/-- The structures are well formed, and each event's watchers fit what it was set to. -/
structure Inv (e : Setup U T) (s : Base U T K F A) : Prop where
  tidy : Loop.Tidy e.toEnv s.loop
  fits : ∀ u ev, s.evs u = some ev → Fits s.loop u ev

/-- The step was not about the event. -/
structure Passes (u : U) (s t : Base U T K F A) : Prop where
  calm : s.evs u ≠ none → Calm u s.loop t.loop
  evs : t.evs u = s.evs u
  calls : t.calls u = s.calls u

/-- What `ev_invoke_pending` takes next from a queue. -/
def top (s : Base U T K F A) (pri : ℕ) : ANPENDING (Watcher U) :=
  s.loop.pend.entry pri (s.loop.pend.pendingcnt pri - 1)

def About (s : Base U T K F A) (u : U) : Act U T F A → Prop
  | .eventSet v .. => v = u
  | .eventAdd v _ => v = u
  | .eventDel v => v = u
  | .eventActive v _ => v = u
  | .invokePending pri => owner (top s pri).w = some u
  | _ => False

variable {a : Act U T F A}

theorem step_eq (hs : step e s a = some t) : Allowed s a ∧ t = call e s a := by
  unfold step at hs
  rw [Option.ite_none_right_eq_some, Option.some.injEq] at hs
  exact ⟨hs.1, hs.2.symm⟩

theorem calls_cons {c : Call U F A} (hc : c.ev = v) (hh : t.hist = c :: s.hist) (u : U) :
    t.calls u = s.calls u + if v = u then 1 else 0 := by
  unfold Base.calls
  rw [hh, List.countP_cons, hc]
  simp only [decide_eq_true_eq]

/-- What the loop does of its own is about no event. -/
theorem passes_spares (h : Loop.Spares e.toEnv s.loop l) :
    Loop.Tidy e.toEnv (s.onLoop l).loop ∧ ∀ u, Passes u s (s.onLoop l) :=
  ⟨h.tidy, fun u => ⟨fun _ => .of_spares h u, rfl, rfl⟩⟩

theorem not_owner {w : Watcher U} (hw : s.Free w) (hu : s.evs u ≠ none) : owner w ≠ some u :=
  fun ho => hu (Option.isNone_iff_eq_none.mp (hw.2 u ho))

/-- What a user does with a watcher that is of no event is about no event. -/
theorem passes_sets {w : Watcher U} {x : View} (h : Loop.Sets e.toEnv w x s.loop l) (hw : s.Free w) :
    Loop.Tidy e.toEnv (s.onLoop l).loop ∧ ∀ u, Passes u s (s.onLoop l) :=
  ⟨h.tidy, fun _ => ⟨fun hu => .of_sets h (not_owner hw hu), rfl, rfl⟩⟩

/-- What is done to one event is not about another. -/
theorem passes_other {ev' : Event F A} (hne : v ≠ u) (hloop : ∀ w, owner w = some u → t.loop.view w = s.loop.view w)
    (hevs : t.evs = Function.update s.evs v (some ev')) (hhist : t.hist = s.hist) : Passes u s t := by
  refine ⟨fun _ => .of_same hloop, ?_, ?_⟩
  · rw [hevs, Function.update_of_ne hne.symm]
  · unfold Base.calls
    rw [hhist]

theorem passes_rfl (u : U) (s : Base U T K F A) : Passes u s s := ⟨fun _ => .of_same fun _ _ => rfl, rfl, rfl⟩

theorem ne_iosig {w : Watcher U} (hw : owner w = some u) (hne : v ≠ u) (ev : Event F A) : w ≠ iosig v ev :=
  owner_ne hw (by rw [owner_iosig]; exact fun hc => hne (Option.some.inj hc))

theorem ne_timer {w : Watcher U} (hw : owner w = some u) (hne : v ≠ u) : w ≠ .timer (.user v) :=
  owner_ne hw fun hc => hne (Option.some.inj hc)

theorem ne_pipeW {w : Watcher U} (hw : owner w = some u) : w ≠ .io .pipeW := owner_ne hw (by simp [owner])

/-- `ev_invoke_pending` takes the last of a queue, and calls its callback. -/
theorem Inv.invoked (h : Inv e s) {pri : ℕ} (hcnt : s.loop.pend.pendingcnt pri ≠ 0)
    (hw : owner (top s pri).w = some v) (hev : s.evs v = some ev) :
    Loop.Tidy e.toEnv (s.invokePending e pri).loop ∧ (s.loop.view (top s pri).w).pending ≠ none ∧
      (∀ u, u ≠ v → Passes u s (s.invokePending e pri)) ∧
      (if removes ev (top s pri).w (top s pri).events then Idle (s.invokePending e pri).loop v
        else Calm v s.loop (s.invokePending e pri).loop) ∧
      (∃ ev', (s.invokePending e pri).evs v = some ev' ∧ ev'.evEvents = ev.evEvents) ∧
      (s.invokePending e pri).calls v = s.calls v + 1 := by
  have hpop := h.tidy.pop hcnt
  obtain ⟨fed, hok⟩ := h.tidy.core.pend
  have hne : (top s pri).w ≠ s.loop.pend.pendingW := by
    rw [h.tidy.core.dummy]
    rintro hc
    rw [hc] at hw
    cases hw
  have hp := hok.pendingFor_top hcnt hne
  have hcalm := fun u => Calm.of_taken hpop u
  obtain ⟨h₁, h₂, h₃, ⟨ev', hevs, hev'⟩, c, hc, hhist⟩ := Base.invoke_views
    (s := { s with loop := { s.loop with pend := s.loop.pend.pop pri } }) hpop.tidy hw hev
    ((h.fits v ev hev).calm (hcalm v) rfl) (top s pri).events
  replace hevs : (s.invokePending e pri).evs = Function.update s.evs v (some ev') := hevs
  have hcalls := calls_cons (s := s) (t := s.invokePending e pri) hc hhist
  refine ⟨h₁, fun hc => ?_, fun u hu => ⟨fun _ => ?_, ?_, ?_⟩, ?_, ⟨ev', ?_, hev'⟩, ?_⟩
  · exact Option.some_ne_none _ (hp.symm.trans hc)
  · refine (hcalm u).trans (.of_same fun w hw' => h₂ w ?_)
    rw [hw']
    exact fun hc => hu (Option.some.inj hc)
  · rw [hevs, Function.update_of_ne hu]
  · rw [hcalls, if_neg hu.symm, Nat.add_zero]
  · by_cases hr : removes ev (top s pri).w (top s pri).events = true
    · rw [if_pos hr] at h₃ ⊢
      exact h₃
    · rw [if_neg hr] at h₃ ⊢
      have hloop : (s.invokePending e pri).loop = { s.loop with pend := s.loop.pend.pop pri } := h₃
      rw [hloop]
      exact hcalm v
  · rw [hevs, Function.update_self]
  · rw [hcalls, if_pos rfl]

/-- A watcher that is of no event. -/
theorem Inv.invokedOther (h : Inv e s) {pri : ℕ} (hcnt : s.loop.pend.pendingcnt pri ≠ 0)
    (hw : ∀ u, owner (top s pri).w = some u → s.evs u = none) :
    Loop.Tidy e.toEnv (s.invokePending e pri).loop ∧ ∀ u, Passes u s (s.invokePending e pri) := by
  have hpop := h.tidy.pop hcnt
  have heq : s.invokePending e pri = { s with loop := { s.loop with pend := s.loop.pend.pop pri } } :=
    Base.invoke_none (s := { s with loop := { s.loop with pend := s.loop.pend.pop pri } }) hw _
  rw [heq]
  exact ⟨hpop.tidy, fun u => ⟨fun _ => .of_taken hpop u, rfl, rfl⟩⟩

theorem Inv.passes [AddRightMono T] (h : Inv e s) (hs : step e s a = some t) :
    Loop.Tidy e.toEnv t.loop ∧ ∀ u, ¬ About s u a → Passes u s t := by
  obtain ⟨ha, rfl⟩ := step_eq hs
  have hall : ∀ {t : Base U T K F A}, (Loop.Tidy e.toEnv t.loop ∧ ∀ u, Passes u s t) →
      Loop.Tidy e.toEnv t.loop ∧ ∀ u, ¬ About s u a → Passes u s t := fun h => ⟨h.1, fun u _ => h.2 u⟩
  cases a with
  | eventSet v fd events cb arg =>
    obtain ⟨h₁, h₂⟩ := Base.eventSet_views h.tidy (idle_iff.mpr ha) fd events cb arg
    exact ⟨h₁, fun u hu => passes_other hu (fun w _ => h₂ w) rfl rfl⟩
  | eventAdd v tv =>
    cases hev : s.evs v with
    | none =>
      have heq : s.eventAdd e v tv = (-1, s) := by
        unfold Base.eventAdd
        rw [hev]
      show Loop.Tidy e.toEnv (s.eventAdd e v tv).2.loop ∧ ∀ u, _ → Passes u s (s.eventAdd e v tv).2
      rw [heq]
      exact ⟨h.tidy, fun u _ => passes_rfl u s⟩
    | some ev =>
      obtain ⟨h₁, h₂, -⟩ := Base.eventAdd_views h.tidy hev tv
      obtain ⟨flags, heq⟩ := Base.eventAdd_eq (e := e) hev tv
      have hhist : (s.eventAdd e v tv).2.hist = s.hist := by rw [heq]
      refine ⟨h₁, fun u hu => passes_other (v := v) hu (fun w hw => ?_) (congrArg Base.evs heq) hhist⟩
      exact h₂ w (ne_iosig hw hu ev) (ne_timer hw hu) (ne_pipeW hw)
  | eventDel v =>
    cases hev : s.evs v with
    | none =>
      have heq : s.eventDel e v = s := by
        unfold Base.eventDel
        rw [hev]
      show Loop.Tidy e.toEnv (s.eventDel e v).loop ∧ ∀ u, _ → Passes u s (s.eventDel e v)
      rw [heq]
      exact ⟨h.tidy, fun u _ => passes_rfl u s⟩
    | some ev =>
      obtain ⟨h₁, -, -, h₂⟩ := Base.eventDel_views h.tidy hev
      have heq := Base.eventDel_eq (e := e) hev
      have hhist : (s.eventDel e v).hist = s.hist := by rw [heq]
      exact ⟨h₁, fun u hu => passes_other (v := v) hu (fun w hw => h₂ w (ne_iosig hw hu ev) (ne_timer hw hu))
        (congrArg Base.evs heq) hhist⟩
  | eventActive v res =>
    cases hev : s.evs v with
    | none =>
      have heq : s.eventActive v res = s := by
        unfold Base.eventActive
        rw [hev]
      show Loop.Tidy e.toEnv (s.eventActive v res).loop ∧ ∀ u, _ → Passes u s (s.eventActive v res)
      rw [heq]
      exact ⟨h.tidy, fun u _ => passes_rfl u s⟩
    | some ev =>
      obtain ⟨h₁, -, h₂, -⟩ := Base.eventActive_views h.tidy hev res
      obtain ⟨l, heq⟩ : ∃ l, s.eventActive v res = { s with loop := l } := by
        unfold Base.eventActive
        rw [hev]
        exact ⟨_, rfl⟩
      refine ⟨h₁, fun u hu => ⟨fun _ => .of_same fun w hw => h₂ w (ne_iosig hw hu ev) (ne_timer hw hu), ?_, ?_⟩⟩
      · show (s.eventActive v res).evs u = _
        rw [heq]
      · show (s.eventActive v res).calls u = _
        rw [heq]
        rfl
  | invokePending pri =>
    by_cases hw : ∀ u, owner (top s pri).w = some u → s.evs u = none
    · exact hall (h.invokedOther ha hw)
    · obtain ⟨v, hw⟩ := not_forall.mp hw
      obtain ⟨hw, hev⟩ := Classical.not_imp.mp hw
      obtain ⟨ev, hev⟩ := Option.ne_none_iff_exists'.mp hev
      obtain ⟨h₁, -, h₂, -⟩ := h.invoked ha hw hev
      exact ⟨h₁, fun u hu => h₂ u fun hc => hu (hc ▸ hw)⟩
  | fdEvent fd revents => exact hall (passes_spares (h.tidy.fdEvent fd revents))
  | fdEventNocheck fd revents => exact hall (passes_spares (h.tidy.fdEventNocheck fd revents))
  | fdKill fd => exact hall (passes_spares (h.tidy.fdKill fd))
  | fdReify refused => exact hall (passes_spares (h.tidy.fdReify refused))
  | evFeedSignalEvent signum => exact hall (passes_spares (h.tidy.evFeedSignalEvent signum))
  | timersReify => exact hall (passes_spares h.tidy.timersReify)
  | timersReschedule adjust => exact hall (passes_spares (h.tidy.timersReschedule adjust).spares)
  | timeUpdate mnNow rtNow => exact hall (passes_spares (h.tidy.timeUpdate mnNow rtNow).spares)
  | feedEvent w revents => exact hall (passes_sets (h.tidy.feed ha.1 revents) ha)
  | clearPending w => exact hall (passes_sets (h.tidy.clear w) ha)
  | evSetPriority w pri => exact hall (passes_spares (h.tidy.setPriority ha.2.1 ha.2.2).spares)
  | evIoSet w fd events => exact hall (passes_spares (h.tidy.ioSet ha.2 fd events).spares)
  | evIoStart w => exact hall (passes_sets (h.tidy.ioStart w) ha)
  | evIoStop w => exact hall (passes_sets (h.tidy.ioStop w) ha)
  | evIoModify w events => exact hall (passes_spares (h.tidy.ioModify w events).spares)
  | evTimerSet w after repeat' => exact hall (passes_spares (h.tidy.timerSet ha.2 after repeat').spares)
  | evTimerStart w => exact hall (passes_sets (h.tidy.timerStart w) ha)
  | evTimerStop w => exact hall (passes_sets (h.tidy.timerStop w) ha)
  | evTimerAgain w => exact hall (passes_sets (h.tidy.timerAgain ha.2) ha.1)
  | evSignalSet w signum => exact hall (passes_spares (h.tidy.signalSet ha.2 signum).spares)
  | evSignalStart w =>
    obtain ⟨h₁, -, h₂⟩ := h.tidy.signalStart e.evpipe w
    refine ⟨h₁, fun u _ => ⟨fun hu => .of_same fun v hv => ?_, rfl, rfl⟩⟩
    exact h₂ v (owner_ne hv (not_owner ha hu)) (ne_pipeW hv)
  | evSignalStop w => exact hall (passes_sets (h.tidy.signalStop w) ha)

/-- The steps that are about an event, and what each leaves of it. -/
inductive Done (e : Setup U T) (u : U) (ev : Event F A) (s t : Base U T K F A) (a : Act U T F A) : Prop
  | set : Idle s.loop u → Idle t.loop u → t.calls u = s.calls u → Done e u ev s t a
  | added (tv : Option T) : a = .eventAdd u tv → (∃ ev', t.evs u = some ev' ∧ ev'.evEvents = ev.evEvents) →
      t.loop = (s.eventAdd e u tv).2.loop → t.calls u = s.calls u → Done e u ev s t a
  | deleted : Idle t.loop u → t.calls u = s.calls u → Done e u ev s t a
  | activated (res : Events) : a = .eventActive u res → t = s.eventActive u res → t.evs = s.evs →
      t.calls u = s.calls u → Done e u ev s t a
  | invoked (pri : ℕ) : a = .invokePending pri → owner (top s pri).w = some u →
      (s.loop.view (top s pri).w).pending ≠ none → t.calls u = s.calls u + 1 →
      (∃ ev', t.evs u = some ev' ∧ ev'.evEvents = ev.evEvents) →
      (if removes ev (top s pri).w (top s pri).events then Idle t.loop u else Calm u s.loop t.loop) →
      Done e u ev s t a

theorem Inv.done (h : Inv e s) (hs : step e s a = some t) (hev : s.evs u = some ev) (hu : About s u a) :
    t.evs u ≠ none ∧ Done e u ev s t a := by
  obtain ⟨ha, rfl⟩ := step_eq hs
  cases a with
  | eventSet v fd events cb arg =>
    replace hu : v = u := hu
    rw [← hu] at hev ⊢
    have hidle := idle_iff.mpr ha
    obtain ⟨-, h₂⟩ := Base.eventSet_views h.tidy hidle fd events cb arg
    refine ⟨?_, .set hidle (fun w hw => (h₂ w).trans (hidle w hw)) rfl⟩
    show Function.update s.evs v _ v ≠ none
    rw [Function.update_self]
    exact Option.some_ne_none _
  | eventAdd v tv =>
    replace hu : v = u := hu
    rw [← hu] at hev ⊢
    obtain ⟨flags, heq⟩ := Base.eventAdd_eq (e := e) hev tv
    have hself : (s.eventAdd e v tv).2.evs v = some { ev with evFlags := flags } := by
      rw [heq]
      exact Function.update_self ..
    have hcalls : (s.eventAdd e v tv).2.calls v = s.calls v := by
      rw [heq]
      rfl
    exact ⟨fun hc => Option.some_ne_none _ (hself.symm.trans hc), .added tv rfl ⟨_, hself, rfl⟩ rfl hcalls⟩
  | eventDel v =>
    replace hu : v = u := hu
    rw [← hu] at hev ⊢
    have heq := Base.eventDel_eq (e := e) hev
    have hself : (s.eventDel e v).evs v = some { ev with evFlags := evlistInit } := by
      rw [heq]
      exact Function.update_self ..
    have hcalls : (s.eventDel e v).calls v = s.calls v := by
      rw [heq]
      rfl
    exact ⟨fun hc => Option.some_ne_none _ (hself.symm.trans hc),
      .deleted (Base.eventDel_idle h.tidy hev (h.fits v ev hev)) hcalls⟩
  | eventActive v res =>
    replace hu : v = u := hu
    rw [← hu] at hev ⊢
    obtain ⟨l, heq⟩ : ∃ l, s.eventActive v res = { s with loop := l } := by
      unfold Base.eventActive
      rw [hev]
      exact ⟨_, rfl⟩
    have hevs : (s.eventActive v res).evs = s.evs := by rw [heq]
    have hcalls : (s.eventActive v res).calls v = s.calls v := by
      rw [heq]
      rfl
    refine ⟨fun hc => ?_, .activated res rfl rfl hevs hcalls⟩
    exact Option.some_ne_none _ (hev.symm.trans ((congrFun hevs v).symm.trans hc))
  | invokePending pri =>
    obtain ⟨-, h₂, -, h₄, ⟨ev', hself, hev'⟩, h₆⟩ := h.invoked ha hu hev
    exact ⟨fun hc => Option.some_ne_none _ (hself.symm.trans hc),
      .invoked pri rfl hu h₂ h₆ ⟨ev', hself, hev'⟩ h₄⟩
  | _ => exact hu.elim

/-- Of what is not yet an event only `event_set` makes one. -/
theorem Inv.setFirst (h : Inv e s) (hs : step e s a = some t) (hev : s.evs u = none) (hu : About s u a) :
    Idle t.loop u ∨ t.evs u = none := by
  obtain ⟨ha, rfl⟩ := step_eq hs
  cases a with
  | eventSet v fd events cb arg =>
    replace hu : v = u := hu
    rw [← hu]
    have hidle := idle_iff.mpr ha
    obtain ⟨-, h₂⟩ := Base.eventSet_views h.tidy hidle fd events cb arg
    exact .inl fun w hw => (h₂ w).trans (hidle w hw)
  | eventAdd v tv =>
    replace hu : v = u := hu
    rw [← hu] at hev ⊢
    refine .inr ?_
    show (s.eventAdd e v tv).2.evs v = none
    unfold Base.eventAdd
    rw [hev]
    exact hev
  | eventDel v =>
    replace hu : v = u := hu
    rw [← hu] at hev ⊢
    refine .inr ?_
    show (s.eventDel e v).evs v = none
    unfold Base.eventDel
    rw [hev]
    exact hev
  | eventActive v res =>
    replace hu : v = u := hu
    rw [← hu] at hev ⊢
    refine .inr ?_
    show (s.eventActive v res).evs v = none
    unfold Base.eventActive
    rw [hev]
    exact hev
  | invokePending pri =>
    obtain ⟨-, h₂⟩ := h.invokedOther ha fun v hv => (Option.some.inj (hv.symm.trans hu)) ▸ hev
    exact .inr ((h₂ u).evs.trans hev)
  | _ => exact hu.elim

theorem Fits.added (h : Fits s.loop u ev) (ht : Loop.Tidy e.toEnv s.loop) (hev : s.evs u = some ev) (tv : Option T) :
    Fits (s.eventAdd e u tv).2.loop u ev := by
  obtain ⟨-, h₂, -, h₄⟩ := Base.eventAdd_views ht hev tv
  rcases iosig_cases u ev with ⟨hw, hs⟩ | ⟨hw, hs⟩
  · rw [hw] at h₂
    refine ⟨fun _ => (h₂ _ (by simp) (by simp) (by simp)).trans (h.io hs), fun hc => ?_, fun hc => ?_⟩
    · exact absurd (hs.symm.trans hc) Bool.true_eq_false.mp
    · exact absurd (hs.symm.trans hc) Bool.true_eq_false.mp
  · rw [hw] at h₂
    refine ⟨fun hc => absurd (hs.symm.trans hc) Bool.false_ne_true,
      fun _ => (h₂ _ (by simp) (by simp) (by simp)).trans (h.signal hs), fun _ hr => ?_⟩
    rw [h₄ hs hr]
    exact h.unasked hs hr

theorem Fits.activated (h : Fits s.loop u ev) (ht : Loop.Tidy e.toEnv s.loop) (hev : s.evs u = some ev)
    (res : Events) : Fits (s.eventActive u res).loop u ev := by
  obtain ⟨-, h₂, h₃, -⟩ := Base.eventActive_views ht hev res
  rcases iosig_cases u ev with ⟨hw, hs⟩ | ⟨hw, hs⟩
  · rw [hw] at h₃
    refine ⟨fun _ => (h₃ _ (by simp) (by simp)).trans (h.io hs), fun hc => ?_, fun hc => ?_⟩
    · exact absurd (hs.symm.trans hc) Bool.true_eq_false.mp
    · exact absurd (hs.symm.trans hc) Bool.true_eq_false.mp
  · rw [hw] at h₃
    refine ⟨fun hc => absurd (hs.symm.trans hc) Bool.false_ne_true,
      fun _ => (h₃ _ (by simp) (by simp)).trans (h.signal hs), fun _ hr => (h₂ _).trans (h.unasked hs hr)⟩

theorem Fits.congr (h : Fits l u ev) {ev' : Event F A} (he : ev'.evEvents = ev.evEvents) : Fits l u ev' :=
  h.calm (.of_same fun _ _ => rfl) he

theorem Inv.step [AddRightMono T] (h : Inv e s) (hs : step e s a = some t) : Inv e t := by
  obtain ⟨htidy, hpasses⟩ := h.passes hs
  refine ⟨htidy, fun u ev' hev' => ?_⟩
  by_cases hu : About s u a
  · cases hev : s.evs u with
    | none =>
      rcases h.setFirst hs hev hu with hidle | hnone
      · exact hidle.fits ev'
      · cases hnone.symm.trans hev'
    | some ev =>
      have hfits := h.fits u ev hev
      obtain ⟨-, hdone⟩ := h.done hs hev hu
      cases hdone with
      | set _ hidle _ => exact hidle.fits ev'
      | added tv _ hself hloop _ =>
        obtain ⟨ev'', hself, he⟩ := hself
        have hev'' := Option.some.inj (hself.symm.trans hev')
        rw [hloop]
        exact (hfits.added h.tidy hev tv).congr (hev'' ▸ he)
      | deleted hidle _ => exact hidle.fits ev'
      | activated res _ heq hevs _ =>
        have hev'' := Option.some.inj (hev.symm.trans ((congrFun hevs u).symm.trans hev'))
        rw [heq, ← hev'']
        exact hfits.activated h.tidy hev res
      | invoked pri _ _ _ _ hself hleft =>
        split at hleft
        · exact Idle.fits hleft ev'
        · obtain ⟨ev'', hself, he⟩ := hself
          have hev'' := Option.some.inj (hself.symm.trans hev')
          exact hfits.calm hleft (hev'' ▸ he)
  · have hp := hpasses u hu
    rw [hp.evs] at hev'
    exact (h.fits u ev' hev').calm (hp.calm fun hc => Option.some_ne_none _ (hev'.symm.trans hc)) rfl

theorem inv_init [Inhabited U] (e : Setup U T) (backend : Backend) (noinotify signalfd notimerfd : Bool)
    (kernel : K) : Inv e (init (F := F) (A := A) (Loop.init backend noinotify signalfd notimerfd kernel)) :=
  ⟨.init e.toEnv backend noinotify signalfd notimerfd kernel, fun _ _ hev => by cases hev⟩

theorem inv_run [AddRightMono T] {acts : List (Act U T F A)} (hrun : Runs e s acts t) (h : Inv e s) : Inv e t :=
  Run.invariant (I := Inv e) (fun _ _ _ h hs => h.step hs) hrun h

end Compat
end Qev
