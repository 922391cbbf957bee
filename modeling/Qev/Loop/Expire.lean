/-
# What expires

`timers_reify` and `periodics_reify` drain their heaps: each watcher that is due comes off the
root once, is stopped or put back with a deadline that is not due, and is fed its event. They
are fed in reverse, so that those of one priority are invoked by ascending deadline
(`expired`).

A watcher that is stopped is cleared before it is fed, one that is put back is not. So an
event that was pending for it before is lost exactly if it is a timer that does not repeat or
an absolute periodic (`fed_kept`).
-/
import Qev.Loop.PassOrder

namespace Qev

open Lib

/-! ### Clearing and feeding in a row -/

namespace Pend

variable {W : Type} [DecidableEq W] {p : Pend W} {fed : W → List Events} {ws : List W}

theorem pending_clearAll (p : Pend W) (ws : List W) (v : W) :
    (p.clearAll ws).pending v = if v ∈ ws then 0 else p.pending v := by
  induction ws generalizing p with
  | nil => rfl
  | cons w ws ih =>
    refine (ih (p.clearPending w)).trans ?_
    rw [pending_clear]
    by_cases hv : v ∈ ws
    · rw [if_pos hv, if_pos (List.mem_cons_of_mem w hv)]
    · simp [hv]

theorem ok_clearAll (h : p.Ok fed) (ws : List W) :
    (p.clearAll ws).Ok fun w => if w ∈ ws then [] else fed w := by
  induction ws generalizing p fed with
  | nil => exact h
  | cons w ws ih =>
    have hfed : (fun v => if v ∈ w :: ws then [] else fed v) =
        fun v => if v ∈ ws then [] else Function.update fed w [] v := by
      funext v
      by_cases hv : v = w
      · simp [hv]
      · simp [hv]
    rw [hfed]
    exact ih (ok_clear h)

theorem pending_queueEvents {v : W} (hv : v ∉ ws) (p : Pend W) (type : Events) :
    (p.queueEvents ws type).pending v = p.pending v := by
  induction ws generalizing p with
  | nil => rfl
  | cons w ws ih =>
    refine (ih (fun hm => hv (List.mem_cons_of_mem w hm)) _).trans ((pending_feed_eq ..).trans (if_neg ?_))
    exact fun hc => hv (hc.1 ▸ List.mem_cons_self)

theorem queueEvents_frame (p : Pend W) (ws : List W) (type : Events) :
    (p.queueEvents ws type).pendingW = p.pendingW ∧ (p.queueEvents ws type).priority = p.priority ∧
      (p.queueEvents ws type).rfeeds = p.rfeeds := by
  induction ws generalizing p with
  | nil => exact ⟨rfl, rfl, rfl⟩
  | cons w ws ih =>
    obtain ⟨h₁, h₂, h₃⟩ := ih (p.evFeedEvent w type)
    exact ⟨h₁.trans (pendingW_feed ..), h₂.trans (priority_feed ..), h₃.trans (rfeeds_feed ..)⟩

theorem pendingW_clearAll (p : Pend W) (ws : List W) : (p.clearAll ws).pendingW = p.pendingW := by
  induction ws generalizing p with
  | nil => rfl
  | cons w ws ih => exact (ih _).trans (clearPending_frame p w).1

theorem ok_queueEvents (h : p.Ok fed) (hn : ws.Nodup) (hW : ∀ w ∈ ws, w ≠ p.pendingW) (type : Events) :
    (p.queueEvents ws type).Ok fun w => if w ∈ ws then type :: fed w else fed w := by
  induction ws generalizing p fed with
  | nil => exact h
  | cons w ws ih =>
    obtain ⟨hw, hn⟩ := List.nodup_cons.mp hn
    have hfed : (fun v => if v ∈ w :: ws then type :: fed v else fed v) =
        fun v => if v ∈ ws then type :: Function.update fed w (type :: fed w) v
          else Function.update fed w (type :: fed w) v := by
      funext v
      by_cases hv : v = w
      · subst hv
        simp [hw]
      · simp [hv]
    rw [hfed]
    refine ih (ok_feed h (hW w List.mem_cons_self) type) hn fun v hv => ?_
    rw [pendingW_feed]
    exact hW v (List.mem_cons_of_mem w hv)

/-- Watchers that are not pending, each once, come to the ends of their queues. -/
theorem queue_queueEvents (hn : ws.Nodup) (hidle : ∀ w ∈ ws, p.pending w = 0) (type : Events) (q : ℕ) :
    (p.queueEvents ws type).queue q = p.queue q ++ ws.filter (p.abspri · = q) := by
  induction ws generalizing p with
  | nil => exact (List.append_nil _).symm
  | cons w ws ih =>
    obtain ⟨hw, hn⟩ := List.nodup_cons.mp hn
    have hidle' : ∀ v ∈ ws, (p.evFeedEvent w type).pending v = 0 := by
      intro v hv
      have hne : v ≠ w := fun he => hw (he ▸ hv)
      rw [pending_feed_eq, if_neg fun hc => hne hc.1]
      exact hidle v (List.mem_cons_of_mem w hv)
    have habs : (fun v => decide ((p.evFeedEvent w type).abspri v = q)) = fun v => decide (p.abspri v = q) := by
      funext v
      rw [abspri_congr (priority_feed p w type)]
    refine (ih hn hidle').trans ?_
    rw [queue_feed_new (hidle w List.mem_cons_self), Function.update_apply, habs, List.filter_cons]
    by_cases hq : q = p.abspri w
    · subst hq
      simp
    · simp [hq, Ne.symm hq]

section

omit [DecidableEq W]

/-- Only pending watchers are in the queues, each in that of its priority. -/
theorem Ok.mem_queue (h : p.Ok fed) {w : W} {q : ℕ} (hw : w ≠ p.pendingW) (hm : w ∈ p.queue q) :
    p.pending w ≠ 0 ∧ p.abspri w = q := by
  obtain ⟨i, hi, he⟩ := List.mem_map.mp hm
  obtain ⟨hq, hp⟩ := h.live q i (List.mem_range.mp hi) (by rw [he]; exact hw)
  rw [he] at hq hp
  exact ⟨by omega, hq.symm⟩

end

end Pend

/-! ### The watchers of a drained heap -/

/-- The watchers of a heap, `fam w` each, that were due at `now` are pending, each once and with this event, and no
active one is due any longer; those of one priority are invoked by ascending deadline. -/
structure Expired {W V T : Type} [DecidableEq W] [DecidableEq V] [LinearOrder T] (fam : W → V) (type : Events) (now : T)
    (d d' : Deadlines W T) (p : Pend V) : Prop where
  due : ∀ w, p.pending (fam w) ≠ 0 ↔ d.active w ≠ 0 ∧ d.wAt w < now
  once : ∀ w, d.active w ≠ 0 → d.wAt w < now → (p.queue (p.abspri (fam w))).count (fam w) = 1
  events : ∀ w, d.active w ≠ 0 → d.wAt w < now → p.pendingEvents (fam w) = type
  done : ∀ w, d'.active w ≠ 0 → now ≤ d'.wAt w
  ascending : ∀ depth acts t, Pend.Runs ⟨p, .user, depth, []⟩ (.invokePending :: acts) t → (∀ a ∈ acts, a.Mild) →
    (Pend.invocations t.log).Pairwise fun x y => ∀ v w, x = fam v → y = fam w → p.abspri x = p.abspri y →
      d.wAt v ≤ d.wAt w

section

variable {W V T : Type} [DecidableEq W] [DecidableEq V] [LinearOrder T] {fam : W → V} {type : Events} {now : T}
  {d d' : Deadlines W T} {p : Pend V} {fed : V → List Events} {ws : List W} {out : W → T → Option T → Prop}

section

omit [DecidableEq W]

/-- In the queues, the watchers of the heap stand by descending deadline. -/
theorem order_ascending (hp : p.Ok fed) (hfam : Function.Injective fam) (hW : ∀ w, fam w ≠ p.pendingW)
    (hidle : ∀ w, p.pending (fam w) = 0) (hn : ws.Nodup) (hsorted : ws.Pairwise fun v w => d.wAt v ≤ d.wAt w) (n : ℕ) :
    ((p.queueEvents (ws.map fam).reverse type).orderBelow n).Pairwise (fun x y => ∀ v w, x = fam v → y = fam w →
      p.abspri x = p.abspri y → d.wAt v ≤ d.wAt w) ∧
    ∀ w, fam w ∈ (p.queueEvents (ws.map fam).reverse type).orderBelow n → p.abspri (fam w) < n := by
  have hq := Pend.queue_queueEvents (p := p)
    (List.nodup_reverse.mpr (hn.map hfam)) (fun x hx => by
      obtain ⟨w, -, rfl⟩ := List.mem_map.mp (List.mem_reverse.mp hx)
      exact hidle w) type
  have hold : ∀ w q, fam w ∉ p.queue q := fun w q hm => (hp.mem_queue (hW w) hm).1 (hidle w)
  induction n with
  | zero => exact ⟨List.Pairwise.nil, fun w hm => by cases hm⟩
  | succ n ih =>
    have hmem : ∀ w, fam w ∈ (p.queueEvents (ws.map fam).reverse type).queue n → p.abspri (fam w) = n := by
      intro w hm
      rw [hq n, List.mem_append] at hm
      rcases hm with hm | hm
      · exact absurd hm (hold w n)
      · simpa using (List.mem_filter.mp hm).2
    have hrev : ((p.queueEvents (ws.map fam).reverse type).queue n).reverse =
        (ws.map fam).filter (p.abspri · = n) ++ (p.queue n).reverse := by
      rw [hq n, List.reverse_append, List.filter_reverse, List.reverse_reverse]
    refine ⟨List.pairwise_append.mpr ⟨?_, ih.1, ?_⟩, fun w hm => ?_⟩
    · rw [hrev]
      refine List.pairwise_append.mpr ⟨List.Pairwise.filter _ (List.pairwise_map.mpr ?_), ?_, ?_⟩
      · refine hsorted.imp fun hvw v' w' hv hw _ => ?_
        rwa [← hfam hv, ← hfam hw]
      · refine List.pairwise_of_forall_mem_list fun x hx y hy v w hv hw _ => ?_
        exact absurd (List.mem_reverse.mp (hv ▸ hx)) (hold v n)
      · rintro x hx y hy v w hv rfl
        exact absurd (List.mem_reverse.mp hy) (hold w n)
    · -- the others are of a lower priority
      rintro x hx y hy v w rfl rfl he
      have h₁ := hmem v (List.mem_reverse.mp hx)
      have h₂ := ih.2 w hy
      omega
    · rcases List.mem_append.mp hm with hm | hm
      · have h₁ := hmem w (List.mem_reverse.mp hm)
        omega
      · have h₂ := ih.2 w hm
        omega

end

/-- **What a drained heap leaves pending**, if none of its watchers was before. -/
theorem expired (hp : p.Ok fed) (hfam : Function.Injective fam) (hW : ∀ w, fam w ≠ p.pendingW)
    (hidle : ∀ w, p.pending (fam w) = 0) (hd : Deadlines.Drained out now d ws d') :
    Expired fam type now d d' (p.queueEvents (ws.map fam).reverse type) := by
  have hn : (ws.map fam).reverse.Nodup := List.nodup_reverse.mpr (hd.once.map hfam)
  have hmem : ∀ w, fam w ∈ (ws.map fam).reverse ↔ w ∈ d.late now := by
    intro w
    rw [List.mem_reverse, List.mem_map_of_injective hfam, hd.late]
  have hWs : ∀ x ∈ (ws.map fam).reverse, x ≠ p.pendingW := by
    intro x hx
    obtain ⟨w, -, rfl⟩ := List.mem_map.mp (List.mem_reverse.mp hx)
    exact hW w
  have hidle' : ∀ x ∈ (ws.map fam).reverse, p.pending x = 0 := by
    intro x hx
    obtain ⟨w, -, rfl⟩ := List.mem_map.mp (List.mem_reverse.mp hx)
    exact hidle w
  obtain ⟨hW', hprio, -⟩ := Pend.queueEvents_frame p (ws.map fam).reverse type
  have hq := Pend.queue_queueEvents hn hidle' type
  have habs := Pend.abspri_congr hprio
  have hok := Pend.ok_queueEvents hp hn hWs type
  have hfed : ∀ w, fed (fam w) = [] := by
    intro w
    by_contra hne
    exact (hp.queued (fam w)).mpr hne (hidle w)
  refine ⟨fun w => ?_, fun w hw hlt => ?_, fun w hw hlt => ?_, fun w hw => ?_, fun depth acts t hrun hmild => ?_⟩
  · rw [hok.queued]
    by_cases hl : w ∈ d.late now
    · rw [if_pos ((hmem w).mpr hl)]
      exact iff_of_true (List.cons_ne_nil _ _) hl
    · rw [if_neg fun hm => hl ((hmem w).mp hm), hfed]
      exact iff_of_false (fun hc => hc rfl) hl
  · have hold : fam w ∉ p.queue (p.abspri (fam w)) := fun hm => (hp.mem_queue (hW w) hm).1 (hidle w)
    rw [habs, hq, List.count_append, List.count_eq_zero_of_not_mem hold, Nat.zero_add, List.count_filter (by simp)]
    exact List.count_eq_one_of_mem hn ((hmem w).mpr ⟨hw, hlt⟩)
  · rw [hok.pendingEvents_eq, if_pos ((hmem w).mpr ⟨hw, hlt⟩), hfed]
    exact BitVec.or_zero
  · by_contra hlt
    have hmem : w ∈ d'.late now := ⟨hw, not_le.mp hlt⟩
    rw [hd.done] at hmem
    exact hmem
  · have hsub := (Pend.invoke_order (fun q hq => hok.top q hq) hrun hmild).1
    have hall : List.Pairwise _ ((p.queueEvents (ws.map fam).reverse type).orderBelow numpri) :=
      (order_ascending hp hfam hW hidle hd.once hd.sorted numpri).1
    have hord := hall.sublist hsub
    rw [List.pairwise_filter] at hord
    refine hord.imp fun {x y} hxy v w hv hw he => ?_
    rw [habs, habs] at he
    refine hxy ?_ ?_ v w hv hw he
    · rw [hv, hW']
      simpa using hW v
    · rw [hw, hW']
      simpa using hW w

end

namespace Loop

variable {U T K : Type} [DecidableEq U] [LinearOrder T]

section

variable [Add T] [Sub T] [Zero T] {e : Env U T} {l : Loop U T K} {t : ℕ} {fed : Watcher U → List Events}

section

omit [Sub T] [Zero T]

theorem evTimerStart_frame {w : TimerW U} (h : l.pend.InRange) :
    (l.evTimerStart e w).pend = l.pend ∧ (l.evTimerStart e w).wRepeat = l.wRepeat := by
  unfold evTimerStart
  split
  · exact ⟨rfl, rfl⟩
  · exact ⟨h.priAdjust (.timer w), rfl⟩

end

/-- **timers_reify**, with no timer pending before. It ends, with no active timer due; those that were due are
pending, each once and with `EV_TIMER`, those of a priority to be invoked by ascending deadline; those that do not
repeat are stopped, the others come `repeat` later, but not before the loop's time. The assertion that what
repeats does so forwards holds. -/
theorem timers_reify_expires (h : l.timers.Good e.heap t) (hp : l.pend.Ok fed) (hW : l.pend.pendingW = .pendingW)
    (hr : l.pend.rfeeds = []) (hrep : ∀ w, l.timers.active w ≠ 0 → 0 ≤ l.wRepeat w)
    (hidle : ∀ w, l.pend.pending (.timer w) = 0) :
    ¬ (l.timersReify e).timersDue e ∧
    Expired .timer evTimer l.mnNow l.timers (l.timersReify e).timers (l.timersReify e).pend ∧
    (∀ w, l.timers.active w ≠ 0 → l.timers.wAt w < l.mnNow →
      (l.wRepeat w = 0 → (l.timersReify e).timers.active w = 0) ∧
      (l.wRepeat w ≠ 0 → 0 < l.wRepeat w ∧ (l.timersReify e).timers.active w ≠ 0 ∧
        (l.timersReify e).timers.wAt w = max (l.timers.wAt w + l.wRepeat w) l.mnNow)) ∧
    (∀ w, ¬ (l.timers.active w ≠ 0 ∧ l.timers.wAt w < l.mnNow) →
      (l.timersReify e).timers.wAt w = l.timers.wAt w ∧
        ((l.timersReify e).timers.active w ≠ 0 ↔ l.timers.active w ≠ 0)) ∧
    Sound e.heap (l.timersReify e).timers := by
  have hdue := timersReify_done h
  obtain ⟨d, ws, heq, hd, hgood⟩ := timersReify_spec h hr
  have hclear : l.pend.clearAll ((l.oneShots ws).map .timer) = l.pend := by
    refine Pend.clearAll_idle fun w hw => ?_
    obtain ⟨v, -, rfl⟩ := List.mem_map.mp hw
    exact hidle v
  rw [hclear] at heq
  rw [heq] at hdue ⊢
  refine ⟨hdue, expired hp (fun _ _ => Watcher.timer.inj) (fun w => by rw [hW]; simp) hidle hd, fun w hw hlt => ?_,
    fun w hw => hd.became.stays w fun hm => hw ((hd.late w).mp hm), sound_of_ok hgood.ok⟩
  have hout := hd.became.out w ((hd.late w).mpr ⟨hw, hlt⟩)
  unfold timerOut Deadlines.deadline at hout
  by_cases hact : d.active w = 0
  · rw [if_neg (not_not.mpr hact)] at hout
    split at hout
    · rename_i hz
      exact ⟨fun _ => hact, fun hc => absurd hz hc⟩
    · cases hout
  · rw [if_pos hact] at hout
    split at hout
    · cases hout
    · rename_i hz
      exact ⟨fun hc => absurd hc hz, fun _ => ⟨lt_of_le_of_ne (hrep w hw) (Ne.symm hz), hact, Option.some.inj hout⟩⟩

end

/-- The build, with a `reschedule_cb` that answers with its `now`. -/
def atNow : Env Bool ℤ := ⟨.four, fun _ _ now => now, fun _ _ now => now⟩

/-- A timer that repeats every 7, due at 5, and one that does not, due at 3, when the time is 10. -/
def dueLoop : Loop Bool ℤ Unit :=
  let l := (Loop.init .select true false true ()).untouched.evTimerSet (.user false) 5 7
  let l := l.untouched.evTimerStart atNow (.user false)
  let l := l.untouched.evTimerSet (.user true) 3 0
  let l := l.untouched.evTimerStart atNow (.user true)
  { l.untouched with mnNow := 10, evRtNow := 10 }

theorem dueLoop_good : HeapsGood atNow dueLoop.timers.cnt dueLoop.periodics.cnt dueLoop.untouched := by
  have hrun : TimeRuns atNow (Loop.init .select true false true ()) [.timerSet (.user false) 5 7,
      .timerStart (.user false), .timerSet (.user true) 3 0, .timerStart (.user true), .clock 10 10] dueLoop :=
    .cons rfl (.cons rfl (.cons (if_neg (by decide +kernel)) (.cons rfl (.single rfl))))
  exact (heapsOk_run hrun (heapsOk_noTimers ⟨⟨rfl, fun _ => rfl⟩, rfl, fun _ => rfl⟩)).untouched

theorem dueLoop_eq : dueLoop.pend = (Loop.init .select true false true () : Loop Bool ℤ Unit).pend ∧
    dueLoop.wRepeat = Function.update (Function.update (fun _ => 0) (.user false) 7) (.user true) 0 := by
  have hr : (Loop.init .select true false true () : Loop Bool ℤ Unit).pend.InRange :=
    Loop.range_init (T := ℤ) .select true false true ()
  obtain ⟨l₁, h₁⟩ : ∃ l : Loop Bool ℤ Unit,
      l = ((Loop.init .select true false true ()).untouched.evTimerSet (.user false) 5 7) := ⟨_, rfl⟩
  obtain ⟨hp₁, hw₁⟩ := evTimerStart_frame (e := atNow) (l := l₁) (w := .user false) (by rw [h₁]; exact hr)
  obtain ⟨l₂, h₂⟩ : ∃ l : Loop Bool ℤ Unit,
      l = (l₁.evTimerStart atNow (.user false)).untouched.evTimerSet (.user true) 3 0 := ⟨_, rfl⟩
  have hp : l₂.pend = (Loop.init .select true false true () : Loop Bool ℤ Unit).pend := by
    rw [h₂]
    refine Eq.trans (b := (l₁.evTimerStart atNow (.user false)).pend) rfl ?_
    rw [hp₁, h₁]
    rfl
  obtain ⟨hp₂, hw₂⟩ := evTimerStart_frame (e := atNow) (l := l₂) (w := .user true) (by rw [hp]; exact hr)
  have hdue : dueLoop = { (l₂.evTimerStart atNow (.user true)).untouched with mnNow := 10, evRtNow := 10 } := by
    rw [h₂, h₁]
    rfl
  rw [hdue]
  refine ⟨hp₂.trans hp, hw₂.trans ?_⟩
  rw [h₂]
  show Function.update (l₁.evTimerStart atNow (.user false)).wRepeat _ _ = _
  rw [hw₁, h₁]
  rfl

theorem dueLoop_pend : dueLoop.pend.Ok (fun _ => []) ∧ dueLoop.pend.pendingW = .pendingW ∧ dueLoop.pend.rfeeds = [] ∧
    ∀ w, dueLoop.pend.pending w = 0 := by
  rw [dueLoop_eq.1]
  exact ⟨Pend.Empty.ok ⟨fun _ => rfl, fun _ => rfl, rfl⟩ (Loop.range_init (T := ℤ) .select true false true ()), rfl, rfl,
    fun _ => rfl⟩

theorem timers_reify_expires_two :
    Expired .timer evTimer 10 dueLoop.timers (dueLoop.untouched.timersReify atNow).timers
      (dueLoop.untouched.timersReify atNow).pend ∧
    (dueLoop.untouched.timersReify atNow).timers.active (.user true) = 0 ∧
    (dueLoop.untouched.timersReify atNow).timers.wAt (.user false) = 12 := by
  have hrep : ∀ w, dueLoop.timers.active w ≠ 0 → 0 ≤ dueLoop.wRepeat w := by
    intro w _
    rw [dueLoop_eq.2, Function.update_apply, Function.update_apply]
    split
    · exact le_rfl
    · split <;> decide
  obtain ⟨hok, hW, hr, hidle⟩ := dueLoop_pend
  obtain ⟨-, hexp, hlate, -⟩ := timers_reify_expires dueLoop_good.1 hok hW hr hrep fun _ => hidle _
  refine ⟨hexp, (hlate (.user true) (by decide +kernel) (by decide +kernel)).1 (by decide +kernel), ?_⟩
  obtain ⟨-, -, hat⟩ := (hlate (.user false) (by decide +kernel) (by decide +kernel)).2 (by decide +kernel)
  exact hat.trans (by decide +kernel)

section

variable [Add T] [Sub T] [Zero T] {e : Env U T} {l : Loop U T K} {t : ℕ} {fed : Watcher U → List Events}

/-! ### What was pending before -/

/-- The timers and periodics that are due. -/
def Expiring (l : Loop U T K) : Watcher U → Prop
  | .timer w => l.timers.active w ≠ 0 ∧ l.timers.wAt w < l.mnNow
  | .periodic u => l.periodics.active u ≠ 0 ∧ l.periodics.wAt u < l.evRtNow
  | _ => False

/-- Those that are stopped when they are. -/
def StopsDue (l : Loop U T K) : Watcher U → Prop
  | .timer w => l.wRepeat w = 0
  | .periodic u => l.Absolute u
  | _ => False

def expiryEvent : Watcher U → Events
  | .timer _ => evTimer
  | .periodic _ => evPeriodic
  | _ => 0

/-- From `l` to `m`, what expires is pending with what it was pending with and its own event; what is pending for
the others is as it was. -/
structure FedKept (l m : Loop U T K) : Prop where
  expiring : ∀ x, l.Expiring x →
    m.pend.pending x ≠ 0 ∧ m.pend.pendingEvents x = l.pend.pendingEvents x ||| expiryEvent x
  others : ∀ x, ¬ l.Expiring x → m.pend.pending x = l.pend.pending x ∧ m.pend.pendingEvents x = l.pend.pendingEvents x

section

omit [LinearOrder T] [Add T] [Sub T] [Zero T]

/-- Some are cleared, and some fed, some of both. -/
theorem ok_clear_queue (hp : l.pend.Ok fed) {A : List (Watcher U)} (C : List (Watcher U)) (hn : A.Nodup)
    (hA : ∀ x ∈ A, x ≠ l.pend.pendingW) (type : Events) :
    ((l.pend.clearAll C).queueEvents A type).Ok (fun x =>
        if x ∈ A then type :: (if x ∈ C then [] else fed x) else if x ∈ C then [] else fed x) ∧
      ∀ x, x ∉ A → x ∉ C → ((l.pend.clearAll C).queueEvents A type).pending x = l.pend.pending x := by
  refine ⟨Pend.ok_queueEvents (Pend.ok_clearAll hp C) hn ?_ type, fun x hxA hxC => ?_⟩
  · rw [Pend.pendingW_clearAll]
    exact hA
  · rw [Pend.pending_queueEvents hxA, Pend.pending_clearAll, if_neg hxC]

end

/-- What is fed to whom, once both heaps are drained: what stops is cleared first. -/
theorem reify_fed {n : ℕ} (ht : l.timers.Good e.heap t) (hper : l.periodics.Good e.heap n) (hp : l.pend.Ok fed)
    (hW : l.pend.pendingW = .pendingW) (hr : l.pend.rfeeds = []) (hnext : NextAhead e l) {m : Loop U T K}
    (hm : m = (l.timersReify e).periodicsReify e l.periodics.cnt) :
    ∃ fed', m.pend.Ok fed' ∧ (∀ x, l.Expiring x → l.StopsDue x → fed' x = [expiryEvent x]) ∧
      (∀ x, l.Expiring x → ¬ l.StopsDue x → fed' x = expiryEvent x :: fed x) ∧
      ∀ x, ¬ l.Expiring x → fed' x = fed x ∧ m.pend.pending x = l.pend.pending x := by
  obtain ⟨d, ws, heq, hd, -⟩ := timersReify_spec ht hr
  have hpend : (l.timersReify e).pend =
      (l.pend.clearAll ((l.oneShots ws).map .timer)).queueEvents (ws.map .timer).reverse evTimer := by rw [heq]
  have hkept : (l.timersReify e).periodics = l.periodics := periodics_timersReify
  obtain ⟨d', c, us, heq', hd', -⟩ := periodicsReify_spec (l := l.timersReify e) (e := e) (t := n) (hkept ▸ hper)
    (by rw [hpend, (Pend.queueEvents_frame ..).2.2, Pend.rfeeds_clearAll, hr]) (by rw [heq]; exact hnext)
  have habs : (l.timersReify e).absolutes us = l.absolutes us := by
    rw [heq]
    rfl
  have hnow : (l.timersReify e).evRtNow = l.evRtNow := by rw [heq]
  rw [hkept, hnow] at hd'
  rw [hkept, habs] at heq'
  -- who is in the four lists
  have htimer : ∀ w, (.timer w : Watcher U) ∈ (ws.map .timer).reverse ↔ l.Expiring (.timer w) := fun w => by
    rw [List.mem_reverse, List.mem_map_of_injective fun _ _ => Watcher.timer.inj]
    exact hd.late w
  have hshot : ∀ w, (.timer w : Watcher U) ∈ (l.oneShots ws).map .timer ↔
      l.Expiring (.timer w) ∧ l.StopsDue (.timer w) := fun w => by
    rw [List.mem_map_of_injective fun _ _ => Watcher.timer.inj, oneShots, List.mem_filter, decide_eq_true_eq, hd.late]
    rfl
  have hperiodic : ∀ u, (.periodic u : Watcher U) ∈ (us.map .periodic).reverse ↔ l.Expiring (.periodic u) := fun u => by
    rw [List.mem_reverse, List.mem_map_of_injective fun _ _ => Watcher.periodic.inj]
    exact hd'.late u
  have habsolute : ∀ u, (.periodic u : Watcher U) ∈ (l.absolutes us).map .periodic ↔
      l.Expiring (.periodic u) ∧ l.StopsDue (.periodic u) := fun u => by
    rw [List.mem_map_of_injective fun _ _ => Watcher.periodic.inj, absolutes, List.mem_filter, decide_eq_true_eq,
      hd'.late]
    rfl
  -- first the timers, then the periodics
  obtain ⟨hok₁, hp₁⟩ := ok_clear_queue hp ((l.oneShots ws).map .timer)
    (List.nodup_reverse.mpr (hd.once.map fun _ _ => Watcher.timer.inj)) (fun x hx => by
      obtain ⟨w, -, rfl⟩ := List.mem_map.mp (List.mem_reverse.mp hx)
      rw [hW]
      exact fun hc => by cases hc) evTimer
  rw [← hpend] at hok₁ hp₁
  obtain ⟨hok₂, hp₂⟩ := ok_clear_queue hok₁ ((l.absolutes us).map .periodic)
    (List.nodup_reverse.mpr (hd'.once.map fun _ _ => Watcher.periodic.inj)) (fun x hx => by
      obtain ⟨u, -, rfl⟩ := List.mem_map.mp (List.mem_reverse.mp hx)
      rw [hpend, (Pend.queueEvents_frame ..).1, Pend.pendingW_clearAll, hW]
      exact fun hc => by cases hc) evPeriodic
  have hpend' : m.pend = ((l.timersReify e).pend.clearAll ((l.absolutes us).map .periodic)).queueEvents
      (us.map .periodic).reverse evPeriodic := by rw [hm, heq']
  rw [← hpend'] at hok₂ hp₂
  refine ⟨_, hok₂, fun x hx hs => ?_, fun x hx hs => ?_, fun x hx => ?_⟩
  · cases x with
    | timer w => simp [htimer, hshot, hx, hs, expiryEvent]
    | periodic u => simp [hperiodic, habsolute, hx, hs, expiryEvent]
    | _ => exact hx.elim
  · cases x with
    | timer w => simp [htimer, hshot, hx, hs, expiryEvent]
    | periodic u => simp [hperiodic, habsolute, hx, hs, expiryEvent]
    | _ => exact hx.elim
  · have hnot : (x ∉ ((ws.map .timer).reverse : List (Watcher U)) ∧ x ∉ ((l.oneShots ws).map .timer : List (Watcher U))) ∧
        x ∉ ((us.map .periodic).reverse : List (Watcher U)) ∧ x ∉ ((l.absolutes us).map .periodic : List (Watcher U)) := by
      cases x with
      | timer w => simp [htimer, hshot, hx]
      | periodic u => simp [hperiodic, habsolute, hx]
      | _ => simp
    obtain ⟨⟨h₁, h₂⟩, h₃, h₄⟩ := hnot
    rw [if_neg h₃, if_neg h₄, if_neg h₁, if_neg h₂]
    exact ⟨rfl, (hp₂ x h₃ h₄).trans (hp₁ x h₁ h₂)⟩

/-- **No fed event is lost** when timers and periodics expire, exactly if none of those that stop is pending with
anything but the event of its expiry. -/
theorem fed_kept {n : ℕ} (ht : l.timers.Good e.heap t) (hper : l.periodics.Good e.heap n) (hp : l.pend.Ok fed)
    (hW : l.pend.pendingW = .pendingW) (hr : l.pend.rfeeds = []) (hnext : NextAhead e l) :
    FedKept l ((l.timersReify e).periodicsReify e l.periodics.cnt) ↔
      ∀ x, l.Expiring x → l.StopsDue x → l.pend.pendingEvents x ||| expiryEvent x = expiryEvent x := by
  obtain ⟨fed', hok, hstop, hrep, hother⟩ := reify_fed ht hper hp hW hr hnext rfl
  have hev := hok.pendingEvents_eq
  have hold := hp.pendingEvents_eq
  constructor
  · intro hk x hx hs
    rw [← (hk.expiring x hx).2, hev, hstop x hx hs]
    exact BitVec.or_zero
  · refine fun hc => ⟨fun x hx => ?_, fun x hx => ⟨(hother x hx).2, ?_⟩⟩
    · by_cases hs : l.StopsDue x
      · rw [hok.queued, hev, hstop x hx hs, hc x hx hs]
        exact ⟨List.cons_ne_nil _ _, BitVec.or_zero⟩
      · rw [hok.queued, hev, hrep x hx hs, hold, BitVec.or_comm]
        exact ⟨List.cons_ne_nil _ _, rfl⟩
    · rw [hev, hold, (hother x hx).1]

end

theorem nextAhead_atNow (l : Loop Bool ℤ Unit) : NextAhead atNow l := by
  intro n u x _ hx
  unfold periodicAt at hx
  split at hx
  · exact (Option.some.inj hx).le
  · split at hx
    · exact (Option.some.inj hx).le
    · cases hx

/-- An event of the user's for one of the two timers. -/
theorem dueLoop_fed (w : TimerW Bool) :
    (∃ fed, (dueLoop.untouched.evFeedEvent (.timer w) evCustom).pend.Ok fed) ∧
    (dueLoop.untouched.evFeedEvent (.timer w) evCustom).pend.pendingW = .pendingW ∧
    (dueLoop.untouched.evFeedEvent (.timer w) evCustom).pend.rfeeds = [] := by
  obtain ⟨hok, hW, hr, -⟩ := dueLoop_pend
  exact ⟨⟨_, Pend.ok_feed hok (by rw [hW]; simp) evCustom⟩, (Pend.pendingW_feed ..).trans hW,
    (Pend.rfeeds_feed ..).trans hr⟩

/-- The timer that repeats keeps what was fed to it. -/
theorem fed_kept_repeating : FedKept (dueLoop.untouched.evFeedEvent (.timer (.user false)) evCustom)
    (((dueLoop.untouched.evFeedEvent (.timer (.user false)) evCustom).timersReify atNow).periodicsReify atNow
      dueLoop.periodics.cnt) := by
  obtain ⟨⟨fed, hok⟩, hW, hr⟩ := dueLoop_fed (.user false)
  have hgood : (dueLoop.untouched.evFeedEvent (.timer (.user false)) evCustom).timers.Good _ _ := dueLoop_good.1
  refine (fed_kept hgood dueLoop_good.2 hok hW hr (nextAhead_atNow _)).mpr fun x hx hs => ?_
  have hne : x ≠ .timer (.user false) := by
    rintro rfl
    have hrep : dueLoop.wRepeat (.user false) ≠ 0 := by decide +kernel
    exact hrep hs
  have hidle : (dueLoop.untouched.evFeedEvent (.timer (.user false)) evCustom).pend.pendingEvents x = 0 := by
    refine if_neg (not_not.mpr ?_)
    refine (Pend.pending_feed_eq ..).trans ((if_neg fun hc => hne hc.1).trans ?_)
    exact dueLoop_pend.2.2.2 x
  rw [hidle]
  exact BitVec.zero_or

/-- The timer that does not repeat loses what was fed to it. -/
theorem fed_kept_lost : ∃ l : Loop Bool ℤ Unit, l.timers.Good atNow.heap l.timers.cnt ∧
    l.periodics.Good atNow.heap l.periodics.cnt ∧ (∃ fed, l.pend.Ok fed) ∧ l.pend.pendingW = .pendingW ∧
    l.pend.rfeeds = [] ∧ NextAhead atNow l ∧ l.pend.pendingEvents (.timer (.user true)) = evCustom ∧
    ((l.timersReify atNow).periodicsReify atNow l.periodics.cnt).pend.pendingEvents (.timer (.user true)) = evTimer ∧
    ¬ FedKept l ((l.timersReify atNow).periodicsReify atNow l.periodics.cnt) := by
  obtain ⟨hok, hW, hr⟩ := dueLoop_fed (.user true)
  have hlost : ((((dueLoop.untouched.evFeedEvent (.timer (.user true)) evCustom).timersReify atNow).periodicsReify
      atNow dueLoop.periodics.cnt).pend.pendingEvents (.timer (.user true))) = evTimer := by
    decide +kernel
  refine ⟨dueLoop.untouched.evFeedEvent (.timer (.user true)) evCustom, dueLoop_good.1, dueLoop_good.2, hok, hW, hr,
    nextAhead_atNow _, by decide +kernel, hlost, fun hk => ?_⟩
  have hdue : dueLoop.timers.active (.user true) ≠ 0 ∧ dueLoop.timers.wAt (.user true) < dueLoop.mnNow := by
    decide +kernel
  exact absurd (hlost.symm.trans (hk.expiring (.timer (.user true)) hdue).2) (by decide +kernel)

end Loop

end Qev
