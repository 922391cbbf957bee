/-
# Counting watchers

What it takes for `activecnt` to be the number of the active watchers that keep the loop alive, but for a difference that
is known (`Tallied`). A call that starts or stops one watcher (`Turns`) keeps the difference if the watcher counts.
-/
import Qev.Loop.Census

set_option linter.unusedSectionVars false

namespace Qev

open Lib

namespace Census

/-! ### The count -/

section

variable {U T K : Type} [DecidableEq U] [LinearOrder T] [Add T] [Sub T] [Zero T]
variable {e : Env U T} {l m n : Loop U T K} {w : Watcher U} {b : Bool} {d : ℤ}

theorem own_of_counted {w : Watcher U} (h : counted w = true) : isOwn w = false := by
  unfold counted at h
  split at h
  · cases h
  · cases h
  · exact Bool.not_eq_true' _ ▸ h

/-- The watchers that keep the loop alive. -/
def alive (l : Loop U T K) : Set (Watcher U) := {w | counted w = true ∧ l.active w ≠ 0}

/-- `ev_verify` finds nothing wrong, and the count is by `d` off the number of watchers that keep the loop alive. -/
structure Tallied (e : Env U T) (d : ℤ) (l : Loop U T K) : Prop where
  built : Loop.Built e l
  finite : (alive l).Finite
  count : l.activecnt = (alive l).ncard + d

/-- `w` is active or not, no other watcher was started or stopped, and the count follows. -/
structure Turns (e : Env U T) (w : Watcher U) (b : Bool) (l m : Loop U T K) : Prop where
  built : Loop.Built e m
  self : m.active w ≠ 0 ↔ b = true
  others : ∀ v, v ≠ w → (m.active v ≠ 0 ↔ l.active v ≠ 0)
  count : m.activecnt = l.activecnt + (if b = true then 1 else 0) - (if l.active w ≠ 0 then 1 else 0)

theorem Turns.congr (h : Turns e w b l m) (hb : Loop.Built e n) (ha : n.active = m.active)
    (hn : n.activecnt = m.activecnt) : Turns e w b l n :=
  ⟨hb, by rw [ha]; exact h.self, fun v hv => by rw [ha]; exact h.others v hv, hn.trans h.count⟩

/-- A watcher that does not count was started or stopped, or none. -/
theorem Tallied.ignored (h : Tallied e d l) (hb : Loop.Built e m) (hw : counted w = false)
    (ho : ∀ v, v ≠ w → (m.active v ≠ 0 ↔ l.active v ≠ 0)) {k : ℤ} (hn : m.activecnt = l.activecnt + k) :
    Tallied e (d + k) m := by
  have hset : alive m = alive l := by
    ext v
    refine and_congr_right fun hv => ho v ?_
    rintro rfl
    rw [hw] at hv
    cases hv
  refine ⟨hb, hset ▸ h.finite, ?_⟩
  rw [hn, hset, h.count]
  ring

/-- One that counts. -/
theorem Tallied.turned (h : Tallied e d l) (ht : Turns e w b l m) (hw : counted w = true) : Tallied e d m := by
  have hmem : ∀ v, v ≠ w → (v ∈ alive m ↔ v ∈ alive l) := fun v hv => and_congr_right fun _ => ht.others v hv
  have hself : w ∈ alive m ↔ b = true := (and_iff_right hw).trans ht.self
  have hwas : w ∈ alive l ↔ l.active w ≠ 0 := and_iff_right hw
  -- the others that keep the loop alive are the same
  have hrest : alive m \ {w} = alive l \ {w} := by
    ext v
    exact and_congr_left fun hv => hmem v hv
  have hcard : ∀ (s : Set (Watcher U)) (p : Prop) [Decidable p], s.Finite → (w ∈ s ↔ p) →
      (s.ncard : ℤ) = (s \ {w}).ncard + if p then 1 else 0 := by
    intro s p _ hs hp
    split
    · rename_i hin
      exact_mod_cast (Set.ncard_sdiff_singleton_add_one (hp.mpr hin) hs).symm
    · rename_i hout
      rw [Set.sdiff_singleton_eq_self fun hin => hout (hp.mp hin), add_zero]
  have hfin : (alive m).Finite := by
    refine (h.finite.insert w).subset fun v hv => ?_
    by_cases hvw : v = w
    · exact .inl hvw
    · exact .inr ((hmem v hvw).mp hv)
  refine ⟨ht.built, hfin, ?_⟩
  rw [ht.count, h.count, hcard _ _ hfin hself, hcard _ _ h.finite hwas, hrest]
  ring

/-- Nothing was started or stopped. -/
structure Rests (e : Env U T) (l m : Loop U T K) : Prop where
  built : Loop.Built e m
  active : ∀ w, m.active w ≠ 0 ↔ l.active w ≠ 0
  count : m.activecnt = l.activecnt

theorem Rests.trans (h : Rests e l m) (h' : Rests e m n) : Rests e l n :=
  ⟨h'.built, fun w => (h'.active w).trans (h.active w), h'.count.trans h.count⟩

theorem Tallied.rests (h : Tallied e d l) (hr : Rests e l m) : Tallied e d m := by
  have hset : alive m = alive l := by
    ext v
    exact and_congr_right fun _ => hr.active v
  refine ⟨hr.built, hset ▸ h.finite, ?_⟩
  rw [hr.count, hset, h.count]

theorem Tallied.counts (h : Tallied e d l) {k : ℤ} : Tallied e (d + k) { l with activecnt := l.activecnt + k } := by
  have hset : alive ({ l with activecnt := l.activecnt + k } : Loop U T K) = alive l := by
    ext v
    exact and_congr_right fun _ => by cases v <;> exact Iff.rfl
  refine ⟨⟨h.built.indexes.of ⟨h.built.indexes.arranged.heaps, h.built.indexes.arranged.arrays⟩ rfl, h.built.listed,
    h.built.named⟩, hset ▸ h.finite, ?_⟩
  rw [hset]
  show l.activecnt + k = _
  rw [h.count]
  ring

theorem Tallied.evRef (h : Tallied e d l) : Tallied e (d + 1) l.evRef := h.counts

theorem Tallied.evUnref (h : Tallied e d l) : Tallied e (d - 1) l.evUnref := h.counts (k := -1)

end

/-! ### What stays well formed -/

section

variable {U T K : Type} [DecidableEq U] [LinearOrder T] [Add T] [Sub T] [Zero T]
variable {e : Env U T} {l m n : Loop U T K} {w : Watcher U}

/-- The arrays stay as they are, and the lists of the fds and the queues stay well formed. -/
structure Keeps (l m : Loop U T K) : Prop where
  arrays : m.arrays = l.arrays
  counts : Indexes.counts m = Indexes.counts l
  listed : l.fds.Listed → m.fds.Listed
  named : l.pend.Named → m.pend.Named

theorem Keeps.refl (l : Loop U T K) : Keeps l l := ⟨rfl, rfl, id, id⟩

theorem Keeps.trans (h : Keeps l m) (h' : Keeps m n) : Keeps l n :=
  ⟨h'.arrays.trans h.arrays, h'.counts.trans h.counts, h'.listed ∘ h.listed, h'.named ∘ h.named⟩

theorem Keeps.built (h : Keeps l m) (hb : Loop.Built e l) (hh : Loop.HeapsOk e m) : Loop.Built e m :=
  ⟨hb.indexes.of (hb.indexes.arranged.congr hh h.arrays) h.counts, h.listed hb.listed, h.named hb.named⟩

/-- Only the queues change. -/
theorem Keeps.pend {p : Pend (Watcher U)} (hn : l.pend.Named → p.Named)
    (hp : ∀ u, p.priority (.idle u) = l.pend.priority (.idle u)) : Keeps l { l with pend := p } :=
  ⟨Loop.arrays_pend l hp, rfl, id, hn⟩

theorem Keeps.fds {f : Fds (IoW U)} (hf : l.fds.Listed → f.Listed) : Keeps l { l with fds := f } :=
  ⟨rfl, rfl, hf, id⟩

/-! ### The queues -/

theorem keeps_evFeedEvent (l : Loop U T K) (w : Watcher U) (revents : Events) : Keeps l (l.evFeedEvent w revents) :=
  .pend (·.feed w revents) fun _ => by rw [Pend.priority_feed]

theorem keeps_clearPending (l : Loop U T K) (w : Watcher U) : Keeps l (l.clearPending w) :=
  .pend (·.clear w) fun _ => by rw [(Loop.priority_clearPending l.pend w).1]

theorem keeps_feedReverse (l : Loop U T K) (w : Watcher U) : Keeps l (l.feedReverse w) :=
  .pend (·.congr rfl rfl rfl rfl) fun _ => rfl

theorem keeps_feedReverseDone (l : Loop U T K) (revents : Events) : Keeps l (l.feedReverseDone revents) :=
  .pend (fun h => (h.feeds l.pend.rfeeds revents).congr rfl rfl rfl rfl) fun u =>
    congrFun (Loop.priority_feeds l.pend.rfeeds l.pend revents).1 (.idle u)

/-- A watcher is initialised, which is not an idle one. -/
theorem keeps_evInit (l : Loop U T K) (hw : Loop.notIdle w = true) : Keeps l (l.evInit w) := by
  refine .pend (fun h => (h.drop w).setPriority (Function.update_self ..) ?_) fun u => ?_
  · decide
  · refine Function.update_of_ne ?_ ..
    rintro rfl
    cases hw

theorem keeps_evSetPriority (l : Loop U T K) (hw : Loop.notIdle w = true) (hp : l.pend.pending w = 0) {p : ℤ}
    (hpri : minpri ≤ p ∧ p ≤ maxpri) : Keeps l (l.evSetPriority w p) := by
  refine .pend (fun h => h.setPriority hp hpri) fun u => ?_
  refine Function.update_of_ne ?_ ..
  rintro rfl
  cases hw

theorem keeps_evStart (l : Loop U T K) (hw : Loop.notIdle w = true) : Keeps l (l.evStart w) :=
  ⟨Loop.arrays_evStart l hw, rfl, id, fun h => by
    show (l.pend.priAdjust w).Named
    rw [h.priAdjust]
    exact h⟩

end

end Census

/-! ### The lists of the fds -/

namespace Fds

variable {W : Type} [DecidableEq W] {s t : Fds W} {w : W}

/-- The lists and the watchers on them are as before. -/
theorem Listed.same (h : s.Listed) (hhead : ∀ fd, (t.anfds fd).head = (s.anfds fd).head) (hact : t.active = s.active)
    (hfd : t.fd = s.fd) : t.Listed :=
  ⟨h.linked.congr hhead hact hfd, fun w => by rw [hact]; exact h.one w⟩

theorem Listed.start (h : s.Listed) (hw : s.active w = 0) : (s.start w).Listed := by
  refine ⟨h.linked.start hw, fun v => ?_⟩
  rw [active_start]
  split
  · exact le_refl 1
  · exact h.one v

theorem Listed.stop (h : s.Listed) (w : W) : (s.stop w).Listed := by
  refine ⟨h.linked.stop w, fun v => ?_⟩
  rw [active_stop]
  split
  · exact Nat.zero_le 1
  · exact h.one v

theorem Listed.rearm (h : s.Listed) (fd : ℕ) : (s.rearm fd).Listed := by
  unfold Fds.rearm
  split
  · refine h.same (fun fd' => ?_) rfl rfl
    rw [head_fdChange]
    by_cases hfd : fd' = fd
    · simp [setFd, hfd]
    · simp [setFd, hfd]
  · exact h

theorem Listed.rearmAll (h : s.Listed) : s.rearmAll.Listed := by
  unfold Fds.rearmAll
  induction List.range s.anfdmax generalizing s with
  | nil => exact h
  | cons fd fds ih => exact ih (h.rearm fd)

end Fds

namespace Census

/-! ### io watchers -/

section

variable {U T K : Type} [DecidableEq U] [LinearOrder T] [Add T] [Sub T] [Zero T]
variable {e : Env U T} {l m n : Loop U T K} {w : IoW U}

theorem keeps_evIoSet (hw : l.fds.active w = 0) (fd : ℕ) (events : Events) : Keeps l (l.evIoSet w fd events) :=
  .fds fun h => ⟨h.linked.evIoSet hw fd events, h.one⟩

theorem keeps_evIoInit (hw : l.fds.active w = 0) (fd : ℕ) (events : Events) : Keeps l (l.evIoInit w fd events) :=
  (keeps_evInit l (w := .io w) rfl).trans (keeps_evIoSet (l := l.evInit (.io w)) hw fd events)

theorem keeps_evIoStart (l : Loop U T K) (w : IoW U) : Keeps l (l.evIoStart w) := by
  unfold Loop.evIoStart
  split
  · exact .refl l
  · rename_i hw
    have hs := keeps_evStart l (w := .io w) rfl
    exact ⟨hs.arrays, hs.counts, fun h => h.start (not_not.mp hw), hs.named⟩

theorem keeps_evIoStop (l : Loop U T K) (w : IoW U) : Keeps l (l.evIoStop w) := by
  have hc := keeps_clearPending l (.io w)
  unfold Loop.evIoStop
  dsimp only
  split
  · exact hc
  · exact ⟨hc.arrays, hc.counts, fun h => h.stop w, hc.named⟩

theorem keeps_fdRearmAll (l : Loop U T K) : Keeps l l.fdRearmAll := .fds fun h => h.rearmAll

theorem turns_evIoStart (h : Loop.Built e l) (w : IoW U) : Turns e (.io w) true l (l.evIoStart w) := by
  obtain ⟨ht, hp⟩ := Loop.timers_evIoStart l w
  have hheaps : Loop.HeapsOk e (l.evIoStart w) := by
    unfold Loop.HeapsOk
    rw [ht, hp]
    exact h.indexes.arranged.heaps
  have hbuilt := (keeps_evIoStart l w).built h hheaps
  by_cases hw : l.fds.active w = 0
  · rw [show l.evIoStart w = _ from if_neg (not_not.mpr hw)] at hbuilt ⊢
    refine ⟨hbuilt, iff_of_true ?_ rfl, fun v hv => ?_, ?_⟩
    · show (l.fds.start w).active w ≠ 0
      rw [Fds.active_start, if_pos rfl]
      exact one_ne_zero
    · cases v with
      | io v =>
        show (l.fds.start w).active v ≠ 0 ↔ l.fds.active v ≠ 0
        rw [Fds.active_start, if_neg fun hc => hv (by rw [hc])]
      | _ => exact Iff.rfl
    · show l.activecnt + 1 = l.activecnt + 1 - if l.fds.active w ≠ 0 then 1 else 0
      rw [if_neg (not_not.mpr hw)]
      omega
  · rw [show l.evIoStart w = l from if_pos hw] at hbuilt ⊢
    refine ⟨hbuilt, iff_of_true hw rfl, fun _ _ => Iff.rfl, ?_⟩
    show l.activecnt = l.activecnt + 1 - if l.fds.active w ≠ 0 then 1 else 0
    rw [if_pos hw]
    omega

theorem turns_evIoStop (h : Loop.Built e l) (w : IoW U) : Turns e (.io w) false l (l.evIoStop w) := by
  have hheaps : Loop.HeapsOk e (l.evIoStop w) := by
    unfold Loop.evIoStop
    dsimp only
    split
    · exact h.indexes.arranged.heaps
    · exact h.indexes.arranged.heaps
  have hbuilt := (keeps_evIoStop l w).built h hheaps
  by_cases hw : l.fds.active w = 0
  · rw [show l.evIoStop w = l.clearPending (.io w) from if_pos hw] at hbuilt ⊢
    refine ⟨hbuilt, iff_of_false (not_not.mpr hw) Bool.false_ne_true, fun v _ => by cases v <;> exact Iff.rfl, ?_⟩
    show l.activecnt = l.activecnt + 0 - if l.fds.active w ≠ 0 then 1 else 0
    rw [if_neg (not_not.mpr hw)]
    omega
  · rw [show l.evIoStop w = _ from if_neg hw] at hbuilt ⊢
    refine ⟨hbuilt, iff_of_false (not_not.mpr ?_) Bool.false_ne_true, fun v hv => ?_, ?_⟩
    · show (l.fds.stop w).active w = 0
      rw [Fds.active_stop, if_pos rfl]
    · cases v with
      | io v =>
        show (l.fds.stop w).active v ≠ 0 ↔ l.fds.active v ≠ 0
        rw [Fds.active_stop, if_neg fun hc => hv (by rw [hc])]
      | _ => exact Iff.rfl
    · show l.activecnt - 1 = l.activecnt + 0 - if l.fds.active w ≠ 0 then 1 else 0
      rw [if_pos hw]
      omega

end

/-! ### Timers -/

section

variable {U T K : Type} [DecidableEq U] [LinearOrder T] [Add T] [Sub T] [Zero T]
variable {e : Env U T} {l m n : Loop U T K} {w : TimerW U}

theorem keeps_timers (l : Loop U T K) {p : Pend (Watcher U)} {n : ℤ} {d : Deadlines (TimerW U) T}
    (hn : l.pend.Named → p.Named) (hp : p.priority = l.pend.priority) :
    Keeps l { l with pend := p, activecnt := n, timers := d } :=
  ⟨Loop.arrays_pend l fun u => by rw [hp], rfl, id, hn⟩

/-- The timer `w` is in the heap or not, and the others as before. -/
theorem turns_timers (h : Loop.Built e l) {p : Pend (Watcher U)} {n : ℤ} {d : Deadlines (TimerW U) T} {b : Bool}
    (hp : p.Named) (hpri : p.priority = l.pend.priority)
    (hd : d.Ok e.heap fun v => if v = w then b = true else l.timers.active v ≠ 0)
    (hn : n = l.activecnt + (if b = true then 1 else 0) - (if l.timers.active w ≠ 0 then 1 else 0)) :
    Turns e (.timer w) b l { l with pend := p, activecnt := n, timers := d } := by
  have hact := hd.active_iff
  refine ⟨(keeps_timers l (fun _ => hp) hpri).built h ⟨hd.self, h.indexes.arranged.heaps.2⟩, ?_, fun v hv => ?_, hn⟩
  · refine (hact w).trans ?_
    rw [if_pos rfl]
  · cases v with
    | timer v =>
      refine (hact v).trans ?_
      rw [if_neg fun hc => hv (by rw [hc])]
      exact Iff.rfl
    | _ => exact Iff.rfl

theorem turns_evTimerStart (h : Loop.Built e l) (w : TimerW U) : Turns e (.timer w) true l (l.evTimerStart e w) := by
  by_cases hw : l.timers.active w = 0
  · rw [show l.evTimerStart e w = _ from if_neg (not_not.mpr hw)]
    have hno : ¬ l.timers.active w ≠ 0 := not_not.mpr hw
    have hadjust := h.named.priAdjust (.timer w)
    refine turns_timers h (p := l.pend.priAdjust (.timer w)) (by rw [hadjust]; exact h.named) (by rw [hadjust])
      (((h.indexes.arranged.heaps.1.setAt hno _).start hno).congr fun v => ?_) ?_
    · by_cases hv : v = w
      · rw [if_pos hv]
        exact ⟨fun _ => .inl hv, fun _ => rfl⟩
      · rw [if_neg hv]
        exact ⟨.inr, fun h => h.resolve_left hv⟩
    · rw [if_neg hno]
      show l.activecnt + 1 = l.activecnt + 1 - 0
      omega
  · rw [show l.evTimerStart e w = l from if_pos hw]
    refine ⟨h, iff_of_true hw rfl, fun _ _ => Iff.rfl, ?_⟩
    show l.activecnt = l.activecnt + 1 - if l.timers.active w ≠ 0 then 1 else 0
    rw [if_pos hw]
    omega

theorem turns_evTimerStop (h : Loop.Built e l) (w : TimerW U) : Turns e (.timer w) false l (l.evTimerStop e w) := by
  have hpri := (Loop.priority_clearPending l.pend (.timer w)).1
  by_cases hw : l.timers.active w = 0
  · rw [show l.evTimerStop e w = l.clearPending (.timer w) from if_pos hw]
    refine turns_timers h (h.named.clear _) hpri (h.indexes.arranged.heaps.1.congr fun v => ?_) ?_
    · split
      · rename_i hv
        rw [hv]
        exact iff_of_false Bool.false_ne_true (not_not.mpr hw)
      · exact Iff.rfl
    · rw [if_neg (not_not.mpr hw)]
      show l.activecnt = l.activecnt + 0 - 0
      omega
  · rw [show l.evTimerStop e w = _ from if_neg hw]
    refine turns_timers h (h.named.clear _) hpri
      (((h.indexes.arranged.heaps.1.stop hw).setAt (fun hn => hn.1 rfl) _).congr fun v => ?_) ?_
    · by_cases hv : v = w
      · rw [if_pos hv]
        exact iff_of_false Bool.false_ne_true fun hn => hn.1 hv
      · rw [if_neg hv]
        exact (and_iff_right hv).symm
    · rw [if_pos hw]
      show l.activecnt - 1 = l.activecnt + 0 - 1
      omega

/-- The timer is active after it if it has an interval. -/
theorem turns_evTimerAgain (h : Loop.Built e l) (w : TimerW U) :
    Turns e (.timer w) (decide (l.wRepeat w ≠ 0)) l (l.evTimerAgain e w) := by
  have hpri := (Loop.priority_clearPending l.pend (.timer w)).1
  have hclear : Rests e l (l.clearPending (.timer w)) :=
    ⟨(keeps_clearPending l _).built h h.indexes.arranged.heaps, fun v => by cases v <;> exact Iff.rfl, rfl⟩
  unfold Loop.evTimerAgain
  dsimp only
  by_cases hw : l.timers.active w ≠ 0
  · rw [if_pos (by exact hw)]
    by_cases hr : l.wRepeat w ≠ 0
    · rw [if_pos (by exact hr), decide_eq_true hr]
      have hadjust := Deadlines.Ok.adjust h.indexes.arranged.heaps.1 hw (l.mnNow + l.wRepeat w)
      rw [← Deadlines.Linked.retime_active h.indexes.arranged.heaps.1.linked hw] at hadjust
      refine turns_timers h (h.named.clear _) hpri (hadjust.congr fun v => ?_) ?_
      · split
        · rename_i hv
          rw [hv]
          exact iff_of_true rfl hw
        · exact Iff.rfl
      · rw [if_pos hw]
        show l.activecnt = l.activecnt + 1 - 1
        omega
    · rw [if_neg (by exact hr), decide_eq_false hr]
      have hstop := turns_evTimerStop hclear.built w
      exact ⟨hstop.built, hstop.self, fun v hv => (hstop.others v hv).trans (hclear.active v), hstop.count⟩
  · rw [if_neg (by exact hw)]
    by_cases hr : l.wRepeat w ≠ 0
    · rw [if_pos (by exact hr), decide_eq_true hr]
      have hset : Rests e l { l.clearPending (.timer w) with timers := l.timers.setAt w (l.wRepeat w) } :=
        ⟨(keeps_timers l (·.clear (.timer w)) hpri).built h
          ⟨h.indexes.arranged.heaps.1.setAt hw _, h.indexes.arranged.heaps.2⟩,
          fun v => by cases v <;> exact Iff.rfl, rfl⟩
      have hstart := turns_evTimerStart hset.built w
      exact ⟨hstart.built, hstart.self, fun v hv => (hstart.others v hv).trans (hset.active v), hstart.count⟩
    · rw [if_neg (by exact hr), decide_eq_false hr]
      refine ⟨hclear.built, iff_of_false hw Bool.false_ne_true, fun v _ => hclear.active v, ?_⟩
      show l.activecnt = l.activecnt + 0 - if l.timers.active w ≠ 0 then 1 else 0
      rw [if_neg hw]
      omega

/-- The root of the heap is given another time, or is stopped. -/
theorem turns_timersReifyOne (h : Loop.Built e l) (hd : l.timersDue e) :
    Turns e (.timer (l.timers.rootW e.heap)) (decide (l.wRepeat (l.timers.rootW e.heap) ≠ 0)) l
      (l.timersReifyOne e) := by
  have hroot := (h.indexes.arranged.heaps.1.linked.root hd.1).1
  unfold Loop.timersReifyOne
  dsimp only
  by_cases hr : l.wRepeat (l.timers.rootW e.heap) ≠ 0
  · rw [if_pos hr, decide_eq_true hr]
    refine turns_timers h (h.named.congr rfl rfl rfl rfl) rfl
      ((h.indexes.arranged.heaps.1.sink hd.1 _).congr fun v => ?_) ?_
    · split
      · rename_i hv
        rw [hv]
        exact iff_of_true rfl hroot
      · exact Iff.rfl
    · rw [if_pos hroot]
      show l.activecnt = l.activecnt + 1 - 1
      omega
  · rw [if_neg hr, decide_eq_false hr]
    have hstop := turns_evTimerStop h (l.timers.rootW e.heap)
    refine hstop.congr ?_ (by funext v; cases v <;> rfl) rfl
    exact (keeps_feedReverse _ _).built hstop.built hstop.built.indexes.arranged.heaps

theorem rests_timersReschedule [AddRightMono T] (h : Loop.Built e l.untouched) (adjust : T) :
    Rests e l.untouched (l.untouched.timersReschedule e adjust) := by
  have hstep := h.indexes.arranged.timeStep (a := .timersReschedule adjust) rfl
  obtain ⟨d, heq, hact⟩ := Loop.timersReschedule_active h.indexes.arranged.heaps.untouched.1 adjust
  replace heq : l.untouched.timersReschedule e adjust = { l.untouched with timers := d } := heq
  replace hstep : Loop.Arranged e (l.untouched.timersReschedule e adjust) := hstep
  rw [heq] at hstep ⊢
  refine ⟨(keeps_timers l.untouched id rfl).built h hstep.heaps, fun v => ?_, rfl⟩
  cases v with
  | timer v => exact hact v
  | _ => exact Iff.rfl

end

/-! ### Periodics -/

section

variable {U T K : Type} [DecidableEq U] [LinearOrder T] [Add T] [Sub T] [Zero T]
variable {e : Env U T} {l m n : Loop U T K} {w : U} {t : ℕ}

theorem keeps_periodics (l : Loop U T K) {p : Pend (Watcher U)} {n : ℤ} {d : Deadlines U T} {c : ℕ}
    (hn : l.pend.Named → p.Named) (hp : p.priority = l.pend.priority) :
    Keeps l { l with pend := p, activecnt := n, periodics := d, rescheduleCnt := c } :=
  ⟨Loop.arrays_pend l fun u => by rw [hp], rfl, id, hn⟩

/-- The periodic `w` is in the heap or not, and the others as before. -/
theorem turns_periodics (h : Loop.Built e l) {p : Pend (Watcher U)} {n : ℤ} {d : Deadlines U T} {c : ℕ} {b : Bool}
    (hp : p.Named) (hpri : p.priority = l.pend.priority)
    (hd : d.Ok e.heap fun v => if v = w then b = true else l.periodics.active v ≠ 0)
    (hn : n = l.activecnt + (if b = true then 1 else 0) - (if l.periodics.active w ≠ 0 then 1 else 0)) :
    Turns e (.periodic w) b l { l with pend := p, activecnt := n, periodics := d, rescheduleCnt := c } := by
  have hact := hd.active_iff
  refine ⟨(keeps_periodics l (fun _ => hp) hpri).built h ⟨h.indexes.arranged.heaps.1, hd.self⟩, ?_, fun v hv => ?_, hn⟩
  · refine (hact w).trans ?_
    rw [if_pos rfl]
  · cases v with
    | periodic v =>
      refine (hact v).trans ?_
      rw [if_neg fun hc => hv (by rw [hc])]
      exact Iff.rfl
    | _ => exact Iff.rfl

theorem turns_evPeriodicStop (h : Loop.Built e l) (w : U) : Turns e (.periodic w) false l (l.evPeriodicStop e w) := by
  have hpri := (Loop.priority_clearPending l.pend (.periodic w)).1
  by_cases hw : l.periodics.active w = 0
  · rw [show l.evPeriodicStop e w = l.clearPending (.periodic w) from if_pos hw]
    refine turns_periodics h (h.named.clear _) hpri (h.indexes.arranged.heaps.2.congr fun v => ?_) ?_
    · split
      · rename_i hv
        rw [hv]
        exact iff_of_false Bool.false_ne_true (not_not.mpr hw)
      · exact Iff.rfl
    · rw [if_neg (not_not.mpr hw)]
      show l.activecnt = l.activecnt + 0 - 0
      omega
  · rw [show l.evPeriodicStop e w = _ from if_neg hw]
    refine turns_periodics h (h.named.clear _) hpri ((h.indexes.arranged.heaps.2.stop hw).congr fun v => ?_) ?_
    · by_cases hv : v = w
      · rw [if_pos hv]
        exact iff_of_false Bool.false_ne_true fun hn => hn.1 hv
      · rw [if_neg hv]
        exact (and_iff_right hv).symm
    · rw [if_pos hw]
      show l.activecnt - 1 = l.activecnt + 0 - 1
      omega

/-- The root of the heap is given its next time, or is stopped if it has none. -/
theorem turns_periodicsReifyOne (h : Loop.Built e l) (hd : l.periodicsDue e) :
    ∃ b, Turns e (.periodic (l.periodics.rootW e.heap)) b l (l.periodicsReifyOne e) := by
  have hroot := (h.indexes.arranged.heaps.2.linked.root hd.1).1
  unfold Loop.periodicsReifyOne
  rcases Loop.periodicNext_cases e l (l.periodics.rootW e.heap) with ⟨x, c, hx⟩ | hx
  · refine ⟨true, ?_⟩
    simp only [hx]
    refine turns_periodics h (h.named.congr rfl rfl rfl rfl) rfl
      ((h.indexes.arranged.heaps.2.sink hd.1 x).congr fun v => ?_) ?_
    · split
      · rename_i hv
        rw [hv]
        exact iff_of_true rfl hroot
      · exact Iff.rfl
    · rw [if_pos hroot]
      show l.activecnt = l.activecnt + 1 - 1
      omega
  · refine ⟨false, ?_⟩
    simp only [hx]
    have hstop := turns_evPeriodicStop h (l.periodics.rootW e.heap)
    refine hstop.congr ?_ (by funext v; cases v <;> rfl) rfl
    exact (keeps_feedReverse _ _).built hstop.built hstop.built.indexes.arranged.heaps

theorem rests_periodicsReschedule (h : Loop.Built e l) (hg : l.periodics.Good e.heap t) :
    Rests e l (l.periodicsReschedule e) := by
  obtain ⟨p, c, heq, hgood, -, hact⟩ := Loop.periodicsReschedule_eq hg
  rw [heq]
  refine ⟨(keeps_periodics l id rfl).built h ⟨h.indexes.arranged.heaps.1, hgood.ok⟩, fun v => ?_, rfl⟩
  cases v with
  | periodic v => exact hact v
  | _ => exact Iff.rfl

theorem rests_timerfdcb (h : Loop.Built e l) (hg : l.periodics.Good e.heap t) (k : TimerfdCreate T) :
    Rests e l (l.timerfdcb e k) := by
  have hnow : Rests e l { l with evRtNow := k.now } :=
    ⟨Keeps.built (l := l) ⟨rfl, rfl, id, id⟩ h h.indexes.arranged.heaps, fun v => by cases v <;> exact Iff.rfl, rfl⟩
  unfold Loop.timerfdcb
  dsimp only
  split
  · exact hnow.trans (rests_periodicsReschedule hnow.built hg)
  · exact hnow

/-- A periodic that is not active is given a time, and started. -/
theorem turns_periodicStart (h : Loop.Built e l) (hw : l.periodics.active w = 0) {x : T} {c : ℕ} {m : Loop U T K}
    (hm : m = { l with periodics := l.periodics.setAt w x, rescheduleCnt := c }) :
    Turns e (.periodic w) true l
      { m.evStart (.periodic w) with periodics := (m.evStart (.periodic w)).periodics.start e.heap w } := by
  have hno : ¬ l.periodics.active w ≠ 0 := not_not.mpr hw
  have hadjust := h.named.priAdjust (.periodic w)
  subst hm
  refine turns_periodics h (p := l.pend.priAdjust (.periodic w)) (by rw [hadjust]; exact h.named) (by rw [hadjust])
    (((h.indexes.arranged.heaps.2.setAt hno _).start hno).congr fun v => ?_) ?_
  · by_cases hv : v = w
    · rw [if_pos hv]
      exact ⟨fun _ => .inl hv, fun _ => rfl⟩
    · rw [if_neg hv]
      exact ⟨.inr, fun h => h.resolve_left hv⟩
  · rw [if_neg hno]
    show l.activecnt + 1 = l.activecnt + 1 - 0
    omega

end

/-! ### Arrays and lists -/

section

variable {U T K : Type} [DecidableEq U] [LinearOrder T] [Add T] [Sub T] [Zero T]
variable {e : Env U T} {l m n : Loop U T K}

/-- A watcher of the family `f` is started. -/
theorem Turns.started {W : Type} {act : W → ℕ} {w : W} {f : W → Watcher U} (h : Loop.Built e m) (hw : act w = 0)
    (hin : ∀ u, l.active (f u) = act u) (hself : m.active (f w) ≠ 0) (hout : ∀ u, u ≠ w → m.active (f u) = act u)
    (hother : ∀ v, (∀ u, v ≠ f u) → m.active v = l.active v) (hn : m.activecnt = l.activecnt + 1) :
    Turns e (f w) true l m := by
  refine ⟨h, iff_of_true hself rfl, fun v hv => ?_, ?_⟩
  · by_cases hf : ∃ u, v = f u
    · obtain ⟨u, rfl⟩ := hf
      rw [hin, hout u fun hc => hv (congrArg f hc)]
    · rw [hother v fun u hc => hf ⟨u, hc⟩]
  · rw [hn, hin, hw]
    simp

/-- A watcher that is active already is left alone. -/
theorem Turns.already {w : Watcher U} (h : Loop.Built e l) (hw : l.active w ≠ 0) : Turns e w true l l := by
  refine ⟨h, iff_of_true hw rfl, fun _ _ => Iff.rfl, ?_⟩
  rw [if_pos hw]
  show l.activecnt = l.activecnt + 1 - 1
  omega

/-- A watcher is stopped: it no longer is active, and the count follows. -/
theorem Turns.stopped {w : Watcher U} (h : Loop.Built e m)
    (hm : m.active w = 0 ∧ ∀ v, v ≠ w → (m.active v ≠ 0 ↔ l.active v ≠ 0))
    (hn : m.activecnt = l.activecnt - if l.active w ≠ 0 then 1 else 0) : Turns e w false l m := by
  refine ⟨h, iff_of_false (not_not.mpr hm.1) Bool.false_ne_true, hm.2, hn.trans ?_⟩
  show _ = l.activecnt + 0 - _
  rw [add_zero]

/-- What changes neither the lists of the fds nor the queues. -/
theorem built_of (hi : Indexes.Inv e m) (h : Loop.Built e l) (hf : m.fds = l.fds) (hp : m.pend = l.pend) :
    Loop.Built e m := ⟨hi, hf ▸ h.listed, hp ▸ h.named⟩

/-- An entry of an array is made. -/
theorem Turns.placed {W : Type} [DecidableEq W] {s : Slots W} {pri : ℕ} {w : W} {f : W → Watcher U}
    (h : Loop.Built e m) (hw : s.active w = 0) (hin : ∀ u, l.active (f u) = s.active u)
    (hout : ∀ u, m.active (f u) = (s.start pri w).active u)
    (hother : ∀ v, (∀ u, v ≠ f u) → m.active v = l.active v) (hn : m.activecnt = l.activecnt + 1) :
    Turns e (f w) true l m := by
  have hact : ∀ u, (s.start pri w).active u = if u = w then s.cnt pri + 1 else s.active u := fun u =>
    Function.update_apply ..
  refine .started h hw hin ?_ (fun u hu => ?_) hother hn
  · rw [hout, hact, if_pos rfl]
    exact Nat.succ_ne_zero _
  · rw [hout, hact, if_neg hu]

/-- A list is made longer. -/
theorem Turns.linked {W : Type} [DecidableEq W] {s : Lists W} {key : ℕ} {w : W} {f : W → Watcher U}
    (h : Loop.Built e m) (hw : s.active w = 0) (hin : ∀ u, l.active (f u) = s.active u)
    (hout : ∀ u, m.active (f u) = (s.start key w).active u)
    (hother : ∀ v, (∀ u, v ≠ f u) → m.active v = l.active v) (hn : m.activecnt = l.activecnt + 1) :
    Turns e (f w) true l m := by
  refine .started h hw hin ?_ (fun u hu => ?_) hother hn
  · rw [hout, Lists.active_start, if_pos rfl]
    exact one_ne_zero
  · rw [hout, Lists.active_start, if_neg hu]

/-- A list is made shorter. -/
theorem Turns.unlinked {W : Type} [DecidableEq W] {s : Lists W} {key : ℕ} {w : W} {f : W → Watcher U}
    (h : Loop.Built e m) (hw : s.active w ≠ 0) (hin : ∀ u, l.active (f u) = s.active u)
    (hout : ∀ u, m.active (f u) = (s.stop key w).active u)
    (hother : ∀ v, (∀ u, v ≠ f u) → m.active v = l.active v) (hn : m.activecnt = l.activecnt - 1) :
    Turns e (f w) false l m := by
  refine .stopped h ⟨?_, fun v hv => ?_⟩ ?_
  · rw [hout, Lists.active_stop, if_pos rfl]
  · by_cases hf : ∃ u, v = f u
    · obtain ⟨u, rfl⟩ := hf
      rw [hin, hout, Lists.active_stop, if_neg fun hc => hv (congrArg f hc)]
    · rw [hother v fun u hc => hf ⟨u, hc⟩]
  · rw [hn, hin, if_pos hw]

/-- The entry of a watcher is taken out of its array. -/
theorem Turns.removed {w : Watcher U} (h : Loop.Built e l) (hi : Indexes.Inv e m)
    (ho : m.active w = 0 ∧ ∀ v, v ≠ w → (m.active v ≠ 0 ↔ l.active v ≠ 0))
    (hm : m = l.clearPending w ∧ l.active w = 0 ∨
      l.active w ≠ 0 ∧ m.fds = l.fds ∧ m.pend = l.pend.clearPending w ∧ m.activecnt = l.activecnt - 1) :
    Turns e w false l m := by
  obtain ⟨rfl, hw⟩ | ⟨hw, hf, hp, hn⟩ := hm
  · refine .stopped ⟨hi, h.listed, h.named.clear w⟩ ho ?_
    rw [if_neg (not_not.mpr hw), sub_zero]
    rfl
  · refine .stopped ⟨hi, hf ▸ h.listed, hp ▸ h.named.clear w⟩ ho ?_
    rw [if_pos hw, hn]

theorem turns_evPrepareStart (h : Loop.Built e l) (w : PrepareW U) :
    Turns e (.prepare w) true l (l.evPrepareStart w) := by
  have hi := h.indexes.of (h.indexes.arranged.evPrepareStart w) (Indexes.counts_evPrepareStart l w)
  by_cases hw : l.prepares.active w = 0
  · rw [show l.evPrepareStart w = _ from if_neg (not_not.mpr hw)] at hi ⊢
    refine .placed (built_of hi h rfl (h.named.priAdjust _)) hw (fun _ => rfl) (fun _ => rfl) (fun v hv => ?_) rfl
    cases v with
    | prepare u => exact absurd rfl (hv u)
    | _ => rfl
  · rw [show l.evPrepareStart w = l from if_pos hw]
    exact .already h hw

theorem turns_evPrepareStop (h : Loop.Built e l) (w : PrepareW U) :
    Turns e (.prepare w) false l (l.evPrepareStop w) := by
  have hi := h.indexes.of (h.indexes.arranged.evPrepareStop w) (Indexes.counts_evPrepareStop l w)
  refine .removed h hi (Indexes.others_evPrepareStop h.indexes w) ?_
  by_cases hw : l.prepares.active w = 0
  · exact .inl ⟨if_pos hw, hw⟩
  · rw [show l.evPrepareStop w = _ from if_neg hw]
    exact .inr ⟨hw, rfl, rfl, rfl⟩

theorem turns_evCheckStart (h : Loop.Built e l) (w : U) : Turns e (.check w) true l (l.evCheckStart w) := by
  have hi := h.indexes.of (h.indexes.arranged.evCheckStart w) (Indexes.counts_evCheckStart l w)
  by_cases hw : l.checks.active w = 0
  · rw [show l.evCheckStart w = _ from if_neg (not_not.mpr hw)] at hi ⊢
    refine .placed (built_of hi h rfl (h.named.priAdjust _)) hw (fun _ => rfl) (fun _ => rfl) (fun v hv => ?_) rfl
    cases v with
    | check u => exact absurd rfl (hv u)
    | _ => rfl
  · rw [show l.evCheckStart w = l from if_pos hw]
    exact .already h hw

theorem turns_evCheckStop (h : Loop.Built e l) (w : U) : Turns e (.check w) false l (l.evCheckStop w) := by
  have hi := h.indexes.of (h.indexes.arranged.evCheckStop w) (Indexes.counts_evCheckStop l w)
  refine .removed h hi (Indexes.others_evCheckStop h.indexes w) ?_
  by_cases hw : l.checks.active w = 0
  · exact .inl ⟨if_pos hw, hw⟩
  · rw [show l.evCheckStop w = _ from if_neg hw]
    exact .inr ⟨hw, rfl, rfl, rfl⟩

theorem turns_evForkStart (h : Loop.Built e l) (w : ForkW U) : Turns e (.fork w) true l (l.evForkStart w) := by
  have hi := h.indexes.of (h.indexes.arranged.evForkStart w) (Indexes.counts_evForkStart l w)
  by_cases hw : l.forks.active w = 0
  · rw [show l.evForkStart w = _ from if_neg (not_not.mpr hw)] at hi ⊢
    refine .placed (built_of hi h rfl (h.named.priAdjust _)) hw (fun _ => rfl) (fun _ => rfl) (fun v hv => ?_) rfl
    cases v with
    | fork u => exact absurd rfl (hv u)
    | _ => rfl
  · rw [show l.evForkStart w = l from if_pos hw]
    exact .already h hw

theorem turns_evForkStop (h : Loop.Built e l) (w : ForkW U) : Turns e (.fork w) false l (l.evForkStop w) := by
  have hi := h.indexes.of (h.indexes.arranged.evForkStop w) (Indexes.counts_evForkStop l w)
  refine .removed h hi (Indexes.others_evForkStop h.indexes w) ?_
  by_cases hw : l.forks.active w = 0
  · exact .inl ⟨if_pos hw, hw⟩
  · rw [show l.evForkStop w = _ from if_neg hw]
    exact .inr ⟨hw, rfl, rfl, rfl⟩

theorem turns_evIdleStart (h : Loop.Built e l) (w : U) : Turns e (.idle w) true l (l.evIdleStart w) := by
  have hi := h.indexes.evIdleStart w
  by_cases hw : l.idles.active w = 0
  · have hpend : (l.pend.priAdjust (.idle w)).priAdjust (.idle w) = l.pend := by
      rw [h.named.priAdjust, h.named.priAdjust]
    rw [show l.evIdleStart w = _ from if_neg (not_not.mpr hw)] at hi ⊢
    refine .placed (built_of hi h rfl hpend) hw (fun _ => rfl) (fun _ => rfl) (fun v hv => ?_) rfl
    cases v with
    | idle u => exact absurd rfl (hv u)
    | _ => rfl
  · rw [show l.evIdleStart w = l from if_pos hw]
    exact .already h hw

theorem turns_evIdleStop (h : Loop.Built e l) (w : U) : Turns e (.idle w) false l (l.evIdleStop w) := by
  refine .removed h (h.indexes.evIdleStop w) (Indexes.others_evIdleStop h.indexes w) ?_
  by_cases hw : l.idles.active w = 0
  · exact .inl ⟨if_pos hw, hw⟩
  · rw [show l.evIdleStop w = _ from if_neg hw]
    exact .inr ⟨hw, rfl, rfl, rfl⟩

theorem turns_evAsyncStop (h : Loop.Built e l) (w : U) : Turns e (.async w) false l (l.evAsyncStop w) := by
  have hi := h.indexes.of (h.indexes.arranged.evAsyncStop w) (Indexes.counts_evAsyncStop l w)
  refine .removed h hi (Indexes.others_evAsyncStop h.indexes w) ?_
  by_cases hw : l.asyncs.active w = 0
  · exact .inl ⟨if_pos hw, hw⟩
  · rw [show l.evAsyncStop w = _ from if_neg hw]
    exact .inr ⟨hw, rfl, rfl, rfl⟩

/-- The list of a signal gets a watcher. -/
theorem turns_signalStart (h : Loop.Built e l) {w : SignalW U} (hw : l.signals.active w = 0) (key : ℕ) :
    Turns e (.signal w) true l { l.evStart (.signal w) with signals := l.signals.start key w } := by
  have hi := h.indexes.of (m := { l.evStart (.signal w) with signals := l.signals.start key w })
    ((h.indexes.arranged.evStart (w := .signal w) rfl).congr h.indexes.arranged.heaps rfl) rfl
  refine .linked (built_of hi h rfl (h.named.priAdjust _)) hw (fun _ => rfl) (fun _ => rfl) (fun v hv => ?_) rfl
  cases v with
  | signal u => exact absurd rfl (hv u)
  | _ => rfl

theorem turns_evSignalStop (h : Loop.Built e l) (w : SignalW U) :
    Turns e (.signal w) false l (l.evSignalStop w) := by
  have hc := h.indexes.clearPending (.signal w)
  by_cases hw : l.signals.active w = 0
  · rw [show l.evSignalStop w = l.clearPending (.signal w) from if_pos hw]
    refine .removed h hc ⟨hw, fun v _ => by cases v <;> exact Iff.rfl⟩ (.inl ⟨rfl, hw⟩)
  · rw [show l.evSignalStop w = _ from if_neg hw]
    refine .unlinked (s := l.signals) ⟨hc.of ⟨hc.arranged.heaps, hc.arranged.arrays⟩ rfl, h.listed, h.named.clear _⟩ hw
      (fun _ => rfl) (fun _ => rfl) (fun v hv => ?_) rfl
    cases v with
    | signal u => exact absurd rfl (hv u)
    | _ => rfl

theorem turns_evChildStart (h : Loop.Built e l) (hashsize : ℕ) (w : U) :
    Turns e (.child w) true l (l.evChildStart hashsize w) := by
  by_cases hw : l.childs.active w = 0
  · have hi := h.indexes.of (m := { l.evStart (.child w) with childs := l.childs.start (l.wPid w % hashsize) w })
      ((h.indexes.arranged.evStart (w := .child w) rfl).congr h.indexes.arranged.heaps rfl) rfl
    rw [show l.evChildStart hashsize w = _ from if_neg (not_not.mpr hw)]
    refine .linked (built_of hi h rfl (h.named.priAdjust _)) hw (fun _ => rfl) (fun _ => rfl) (fun v hv => ?_) rfl
    cases v with
    | child u => exact absurd rfl (hv u)
    | _ => rfl
  · rw [show l.evChildStart hashsize w = l from if_pos hw]
    exact .already h hw

theorem turns_evChildStop (h : Loop.Built e l) (hashsize : ℕ) (w : U) :
    Turns e (.child w) false l (l.evChildStop hashsize w) := by
  have hc := h.indexes.clearPending (.child w)
  by_cases hw : l.childs.active w = 0
  · rw [show l.evChildStop hashsize w = l.clearPending (.child w) from if_pos hw]
    refine .removed h hc ⟨hw, fun v _ => by cases v <;> exact Iff.rfl⟩ (.inl ⟨rfl, hw⟩)
  · rw [show l.evChildStop hashsize w = _ from if_neg hw]
    refine .unlinked (s := l.childs) ⟨hc.of ⟨hc.arranged.heaps, hc.arranged.arrays⟩ rfl, h.listed, h.named.clear _⟩ hw
      (fun _ => rfl) (fun _ => rfl) (fun v hv => ?_) rfl
    cases v with
    | child u => exact absurd rfl (hv u)
    | _ => rfl

/-- The flag of a stat watcher is set, and of an embed. -/
theorem turns_flag {f : U → Watcher U} {act : U → ℕ} {w : U} (h : Loop.Built e m) (hw : act w = 0)
    (hin : ∀ u, l.active (f u) = act u) (hout : ∀ u, m.active (f u) = Function.update act w 1 u)
    (hother : ∀ v, (∀ u, v ≠ f u) → m.active v = l.active v) (hn : m.activecnt = l.activecnt + 1) :
    Turns e (f w) true l m := by
  refine .started h hw hin ?_ (fun u hu => ?_) hother hn
  · rw [hout, Function.update_self]
    exact one_ne_zero
  · rw [hout, Function.update_of_ne hu]

/-- The flag is cleared. -/
theorem turns_unflag {f : U → Watcher U} {act : U → ℕ} {w : U} (h : Loop.Built e m) (hw : act w ≠ 0)
    (hin : ∀ u, l.active (f u) = act u) (hout : ∀ u, m.active (f u) = Function.update act w 0 u)
    (hother : ∀ v, (∀ u, v ≠ f u) → m.active v = l.active v) (hn : m.activecnt = l.activecnt - 1) :
    Turns e (f w) false l m := by
  refine .stopped h ⟨?_, fun v hv => ?_⟩ ?_
  · rw [hout, Function.update_self]
  · by_cases hf : ∃ u, v = f u
    · obtain ⟨u, rfl⟩ := hf
      rw [hin, hout, Function.update_of_ne fun hc => hv (congrArg f hc)]
    · rw [hother v fun u hc => hf ⟨u, hc⟩]
  · rw [hn, hin, if_pos hw]

end

/-! ### What a call comes to -/

section

variable {U T A : Type} [DecidableEq U] [DecidableEq A] [LinearOrder T] [Add T] [Sub T] [Zero T]
variable {e : Env U T} {l m n : Loop U T (Infy.Kernel U A)} {w : Watcher U} {b : Bool} {d d' : ℤ}

/-- What must hold for a watcher to be active that others start: those inside an embed are while it is, and those for
inotify and for the signalfd once their fd was asked for. -/
def Owned (l : Loop U T (Infy.Kernel U A)) : Watcher U → Prop
  | .io (.embed u) => l.embeds u ≠ 0
  | .prepare (.embed u) => l.embeds u ≠ 0
  | .fork (.embed u) => l.embeds u ≠ 0
  | .io .fsW => l.fsFd ≠ -2
  | .io .sigfdW => l.sigfd ≠ -2
  | _ => True

/-- No watcher is active without the one that has started it. -/
def Lone (l : Loop U T (Infy.Kernel U A)) : Prop := ∀ w, l.active w ≠ 0 → Owned l w

theorem owned_congr (he : m.embeds = l.embeds) (hf : m.fsFd = l.fsFd) (hs : m.sigfd = l.sigfd) :
    Owned m = Owned l := by
  unfold Owned
  rw [he, hf, hs]

/-- What stat watchers and the loop's own fds go by is not touched. -/
structure Side (l m : Loop U T (Infy.Kernel U A)) : Prop where
  stats : m.stats = l.stats
  wd : m.wWd = l.wWd
  hash : m.fsHash = l.fsHash
  kernel : m.kernel = l.kernel
  wRepeat : ∀ v, m.wRepeat (.stat v) = l.wRepeat (.stat v)
  embeds : m.embeds = l.embeds
  fsFd : m.fsFd = l.fsFd
  sigfd : m.sigfd = l.sigfd

theorem Side.refl (l : Loop U T (Infy.Kernel U A)) : Side l l := ⟨rfl, rfl, rfl, rfl, fun _ => rfl, rfl, rfl, rfl⟩

theorem Side.owned (h : Side l m) : Owned m = Owned l := owned_congr h.embeds h.fsFd h.sigfd

theorem Lone.turned (h : Lone l) (ho : ∀ v, v ≠ w → (m.active v ≠ 0 ↔ l.active v ≠ 0))
    (hup : m.active w ≠ 0 → Owned m w) (hs : ∀ v, Owned l v → Owned m v) : Lone m := by
  intro v hv
  by_cases hvw : v = w
  · rw [hvw] at hv ⊢
    exact hup hv
  · exact hs v (h v ((ho v hvw).mp hv))

/-- From `l` to `m`, where the count is off by `d`. -/
structure Goes (e : Env U T) (d : ℤ) (l m : Loop U T (Infy.Kernel U A)) : Prop where
  tallied : Tallied e d m
  lone : Lone l → Lone m
  aside : Infy.Aside e l m

theorem Goes.trans (h : Goes e d l m) (h' : Goes e d' m n) : Goes e d' l n :=
  ⟨h'.tallied, h'.lone ∘ h.lone, h.aside.trans h'.aside⟩

theorem Side.aside (h : Side l m) (hb : Loop.Built e m)
    (ho : ∀ u, m.active (.timer (.stat u)) ≠ 0 ↔ l.active (.timer (.stat u)) ≠ 0) : Infy.Aside e l m :=
  ⟨h.stats, h.wd, h.hash, h.kernel, h.wRepeat, hb.indexes.arranged.heaps.1, ho⟩

/-- A watcher that counts is started or stopped. -/
theorem Goes.turned (h : Tallied e d l) (ht : Turns e w b l m) (hs : Side l m) (hw : counted w = true)
    (hup : b = true → Owned l w) : Goes e d l m := by
  refine ⟨h.turned ht hw, fun hl => ?_, hs.aside ht.built fun u => ht.others _ ?_⟩
  · refine hl.turned ht.others (fun hm => ?_) fun v hv => ?_
    · rw [hs.owned]
      exact hup (ht.self.mp hm)
    · rw [hs.owned]
      exact hv
  · rintro rfl
    cases hw

/-- Of the others the count is what it is. -/
theorem Goes.ignored (h : Tallied e d l) (hb : Loop.Built e m) (ho : ∀ v, v ≠ w → (m.active v ≠ 0 ↔ l.active v ≠ 0))
    (hs : Side l m) (hw : counted w = false) (hup : m.active w ≠ 0 → Owned l w) (hr : ∀ u, .timer (.stat u) ≠ w)
    {k : ℤ} (hn : m.activecnt = l.activecnt + k) : Goes e (d + k) l m := by
  refine ⟨h.ignored hb hw ho hn, fun hl => ?_, hs.aside hb fun u => ho _ (hr u)⟩
  refine hl.turned ho (fun hm => ?_) fun v hv => ?_
  · rw [hs.owned]
    exact hup hm
  · rw [hs.owned]
    exact hv

theorem Goes.rests (h : Tallied e d l) (hr : Rests e l m) (hs : Side l m) : Goes e d l m := by
  refine ⟨h.rests hr, fun hl v hv => ?_, hs.aside hr.built fun u => hr.active _⟩
  rw [hs.owned]
  exact hl v ((hr.active v).mp hv)

theorem Goes.refl (h : Tallied e d l) : Goes e d l l := .rests h ⟨h.built, fun _ => Iff.rfl, rfl⟩ (.refl l)

theorem Lone.same (h : Lone l) (ha : m.active = l.active) (ho : Owned m = Owned l) : Lone m := by
  intro v hv
  rw [ha] at hv
  rw [ho]
  exact h v hv

theorem goes_evRef (h : Tallied e d l) : Goes e (d + 1) l l.evRef :=
  ⟨h.evRef, fun hl => hl.same (by funext v; cases v <;> rfl) rfl,
    .of_eq h.built.indexes.arranged.heaps.1 rfl rfl rfl rfl rfl rfl⟩

theorem goes_evUnref (h : Tallied e d l) : Goes e (d - 1) l l.evUnref :=
  ⟨h.evUnref, fun hl => hl.same (by funext v; cases v <;> rfl) rfl,
    .of_eq h.built.indexes.arranged.heaps.1 rfl rfl rfl rfl rfl rfl⟩

/-- Nothing is touched but what the source keeps besides the watchers. -/
theorem Keeps.rests (hk : Keeps l m) (h : Loop.Built e l) (ht : m.timers = l.timers) (hp : m.periodics = l.periodics)
    (ha : m.active = l.active) (hn : m.activecnt = l.activecnt) : Rests e l m := by
  refine ⟨hk.built h ?_, fun v => by rw [ha], hn⟩
  unfold Loop.HeapsOk
  rw [ht, hp]
  exact h.indexes.arranged.heaps

/-! ### The loop's own watchers -/

/-- One of the loop's own io watchers is started, and is not to keep the loop alive. -/
theorem goes_ownStart (h : Tallied e d l) {w : IoW U} (hw : counted (.io w) = false) (hidle : l.fds.active w = 0)
    (hl : Owned l (.io w)) : Goes e d l (l.evIoStart w).evUnref := by
  have ht := turns_evIoStart h.built w
  have hn : (l.evIoStart w).activecnt = l.activecnt + 1 := by
    rw [ht.count, if_pos rfl, show l.active (.io w) = 0 from hidle]
    simp
  have hstart : Goes e (d + 1) l (l.evIoStart w) := by
    refine .ignored h ht.built ht.others ?_ hw (fun _ => hl) (fun _ hc => by cases hc) hn
    unfold Loop.evIoStart
    split
    · exact .refl l
    · exact ⟨rfl, rfl, rfl, rfl, fun _ => rfl, rfl, rfl, rfl⟩
  simpa using hstart.trans (goes_evUnref hstart.tallied)

theorem side_evIoStop (l : Loop U T (Infy.Kernel U A)) (w : IoW U) : Side l (l.evIoStop w) := by
  unfold Loop.evIoStop
  dsimp only
  split
  · exact ⟨rfl, rfl, rfl, rfl, fun _ => rfl, rfl, rfl, rfl⟩
  · exact ⟨rfl, rfl, rfl, rfl, fun _ => rfl, rfl, rfl, rfl⟩

theorem goes_evpipeInit (h : Tallied e d l) (fd : ℕ) : Goes e d l (l.evpipeInit fd) := by
  unfold Loop.evpipeInit
  split
  · exact .refl h
  · rename_i hw
    have hset : Goes e d l (l.evIoSet .pipeW fd evRead) :=
      .rests h ((keeps_evIoSet (not_not.mp hw) fd evRead).rests h.built rfl rfl rfl rfl)
        ⟨rfl, rfl, rfl, rfl, fun _ => rfl, rfl, rfl, rfl⟩
    exact hset.trans (goes_ownStart hset.tallied rfl (not_not.mp hw) trivial)

/-- A watcher of the loop is made ready to be started. -/
theorem goes_ownInit (h : Tallied e d l) {w : IoW U} (hidle : l.fds.active w = 0) (fd : ℕ) {p : ℤ}
    (hpri : minpri ≤ p ∧ p ≤ maxpri) : Goes e d l ((l.evIoInit w fd evRead).evSetPriority (.io w) p) := by
  have hk := (keeps_evIoInit hidle fd evRead).trans
    (keeps_evSetPriority (l.evIoInit w fd evRead) (w := .io w) rfl (Function.update_self ..) hpri)
  exact .rests h (hk.rests h.built rfl rfl (by funext v; cases v <;> rfl) rfl)
    ⟨rfl, rfl, rfl, rfl, fun _ => rfl, rfl, rfl, rfl⟩

theorem goes_evtimerfdInit {t : ℕ} (h : Tallied e d l) (hg : l.periodics.Good e.heap t) (k : TimerfdCreate T) :
    Goes e d l (l.evtimerfdInit e k) := by
  unfold Loop.evtimerfdInit
  split
  · exact .refl h
  · rename_i hw
    have hfd : Goes e d l { l with timerfd := k.fd } :=
      .rests h (Keeps.rests ⟨rfl, rfl, id, id⟩ h.built rfl rfl (by funext v; cases v <;> rfl) rfl)
        ⟨rfl, rfl, rfl, rfl, fun _ => rfl, rfl, rfl, rfl⟩
    dsimp only
    split
    · have hinit := goes_ownInit (w := .timerfdW) hfd.tallied (not_not.mp hw) k.fd.toNat (p := minpri) (by decide)
      have hstart := goes_ownStart (w := .timerfdW) hinit.tallied rfl (not_not.mp hw) trivial
      have hall := (hfd.trans hinit).trans hstart
      have hsame : ((((({ l with timerfd := k.fd } : Loop U T (Infy.Kernel U A)).evIoInit .timerfdW k.fd.toNat
          evRead).evSetPriority (.io .timerfdW) minpri).evIoStart .timerfdW).evUnref).periodics = l.periodics :=
        (Loop.timers_evIoStart _ .timerfdW).2
      generalize ((((({ l with timerfd := k.fd } : Loop U T (Infy.Kernel U A)).evIoInit .timerfdW k.fd.toNat
          evRead).evSetPriority (.io .timerfdW) minpri).evIoStart .timerfdW).evUnref) = m at hall hsame ⊢
      have hgood : m.periodics.Good e.heap t := by
        rw [hsame]
        exact hg
      refine hall.trans (.rests hall.tallied (rests_timerfdcb hall.tallied.built hgood k) ?_)
      unfold Loop.timerfdcb
      dsimp only
      split
      · obtain ⟨p, n, heq⟩ := Loop.periodicsReschedule_touches e { m with evRtNow := k.now }
        rw [heq]
        exact ⟨rfl, rfl, rfl, rfl, fun _ => rfl, rfl, rfl, rfl⟩
      · exact ⟨rfl, rfl, rfl, rfl, fun _ => rfl, rfl, rfl, rfl⟩
    · exact hfd

end

end Census
end Qev
