/-
# The order of the callbacks of a pass

A pass ends with one `EV_INVOKE_PENDING`. With nothing pending before the poll, it invokes, from
the highest priority down: the check watchers, the idle watchers, if it is their turn, the periodics
that were due by ascending deadline, the timers that were due by ascending deadline, and
the io watchers, the one the backend fed last first (`pass_order`).

What the queues hold at the end of the pass is put together from what each producer adds
(`passEnd_queues`). `ev_invoke_pending` then follows the queues, whatever the callbacks do, as
long as they feed nothing and stop nobody (`invocations_run`).
-/
import Qev.Loop.Kept

namespace Qev

open Lib

/-! ### Following the queues -/

namespace Pend

variable {W : Type} [DecidableEq W]

/-- The pending watchers of the priorities below `n`, in the order `ev_invoke_pending` takes them. -/
def orderBelow (p : Pend W) : ℕ → List W
  | 0 => []
  | n + 1 => (p.queue n).reverse ++ p.orderBelow n

def order (p : Pend W) : List W := p.orderBelow numpri

/-- The watchers of a list of which the priority is below `n`, the highest priority first. -/
def byPriority (abspri : W → ℕ) (ws : List W) : ℕ → List W
  | 0 => []
  | n + 1 => ws.filter (abspri · = n) ++ byPriority abspri ws n

/-- The watchers invoked, the first one first. -/
def invocations : List (Hist W) → List W
  | [] => []
  | .invoked w _ :: l => invocations l ++ [w]
  | .fed _ _ :: l => invocations l
  | .cleared _ :: l => invocations l

/-- What a callback may do that feeds nothing and stops nobody. `ev_clear_pending` leaves an entry of the queue
to the dummy. -/
def Act.Mild : Act W → Prop
  | .clearPending _ => True
  | .start _ => True
  | .setPriority _ _ => True
  | .invokePending => True
  | .ret => True
  | .tick => True
  | _ => False

/-- In an activation called `d` deep or deeper the cursor has nothing above it, and outside of these nothing
is pending. -/
structure Following (d : ℕ) (s : Dispatch W) : Prop where
  dec : s.ctl = .dec → 0 < s.pend.pendingpri ∧ s.pend.Above s.pend.pendingpri
  test : s.ctl = .test → s.pend.Above (s.pend.pendingpri + 1)
  user : s.ctl = .user → d < s.depth → s.pend.Above (s.pend.pendingpri + 1)
  done : s.depth ≤ d → ∀ q, s.pend.pendingcnt q = 0
  top : s.pend.Above numpri

section

variable {p r : Pend W} {s t : Dispatch W} {a : Act W} {acts : List (Act W)} {d n : ℕ}

section

omit [DecidableEq W]

theorem orderBelow_byPriority {abspri : W → ℕ} {ws : List W}
    (h : ∀ q, (p.queue q).reverse = ws.filter (abspri · = q)) (n : ℕ) :
    p.orderBelow n = byPriority abspri ws n := by
  induction n with
  | zero => rfl
  | succ n ih => rw [orderBelow, byPriority, h n, ih]

theorem byPriority_descending (abspri : W → ℕ) (ws : List W) (n : ℕ) :
    (byPriority abspri ws n).Pairwise (fun v w => abspri w ≤ abspri v) ∧
      ∀ w ∈ byPriority abspri ws n, abspri w < n := by
  induction n with
  | zero => exact ⟨List.Pairwise.nil, fun w hw => by cases hw⟩
  | succ n ih =>
    have hhigh : ∀ w ∈ ws.filter (abspri · = n), abspri w = n :=
      fun w hw => of_decide_eq_true (List.mem_filter.mp hw).2
    refine ⟨List.pairwise_append.mpr ⟨?_, ih.1, fun v hv w hw => ?_⟩, fun w hw => ?_⟩
    · refine List.pairwise_iff_forall_sublist.mpr fun {v w} hs => ?_
      rw [hhigh v (hs.subset (by simp)), hhigh w (hs.subset (by simp))]
    · rw [hhigh v hv]
      exact (ih.2 w hw).le
    · rcases List.mem_append.mp hw with hw | hw
      · rw [hhigh w hw]
        exact Nat.lt_succ_self n
      · exact (ih.2 w hw).trans (Nat.lt_succ_self n)

/-- Below a cursor that has nothing above it there is everything. -/
theorem order_of_above (ha : p.Above n) (hn : n ≤ numpri) : p.order = p.orderBelow n := by
  obtain ⟨k, hk⟩ := Nat.exists_eq_add_of_le hn
  unfold order
  rw [hk]
  clear hk
  induction k with
  | zero => rfl
  | succ k ih =>
    have hnil : p.queue (n + k) = [] := by
      rw [← List.length_eq_zero_iff, length_queue]
      exact ha (n + k) (Nat.le_add_right n k)
    rw [← Nat.add_assoc, orderBelow, hnil, ih]
    rfl

theorem order_nil (h : ∀ q, p.pendingcnt q = 0) : p.order = [] :=
  order_of_above (fun q _ => h q) (Nat.zero_le numpri)

end

theorem queue_pop (p : Pend W) {pri i : ℕ} (hi : p.pendingcnt pri = i + 1) :
    p.queue pri = (p.pop pri).queue pri ++ [(p.entry pri i).w] ∧
      ∀ q, q ≠ pri → (p.pop pri).queue q = p.queue q := by
  have hcnt : ∀ q, (p.pop pri).pendingcnt q = if q = pri then i else p.pendingcnt q := by
    intro q
    show Function.update p.pendingcnt pri (p.pendingcnt pri - 1) q = _
    rw [Function.update_apply, hi, Nat.add_sub_cancel]
  constructor
  · rw [queue, queue, hi, hcnt, if_pos rfl, List.range_succ, List.map_append]
    rfl
  · intro q hq
    rw [queue, queue, hcnt, if_neg hq]
    rfl

/-- The entry popped is the first in order. -/
theorem order_pop {pri i : ℕ} (hi : p.pendingcnt pri = i + 1) (ha : p.Above (pri + 1)) (hn : pri < numpri) :
    p.order = (p.entry pri i).w :: (p.pop pri).order := by
  obtain ⟨hq, hother⟩ := queue_pop p hi
  have hbelow : ∀ n ≤ pri, p.orderBelow n = (p.pop pri).orderBelow n := by
    intro n hn
    induction n with
    | zero => rfl
    | succ n ih => rw [orderBelow, orderBelow, hother n (by omega), ih (by omega)]
  rw [order_of_above ha hn, order_of_above (above_pop ha) hn, orderBelow, orderBelow, hq, hbelow pri le_rfl,
    List.reverse_append]
  rfl

theorem filter_set_sublist (l : List W) (i : ℕ) (w : W) :
    ((l.set i w).filter (· ≠ w)).Sublist (l.filter (· ≠ w)) := by
  induction l generalizing i with
  | nil => exact List.Sublist.refl _
  | cons v l ih =>
    cases i with
    | zero =>
      rw [List.set_cons_zero, List.filter_cons_of_neg (by simp)]
      exact (List.sublist_cons_self v l).filter _
    | succ i =>
      rw [List.set_cons_succ, List.filter_cons, List.filter_cons]
      split
      · exact (ih i).cons_cons v
      · exact ih i

theorem queue_clear (p : Pend W) (w : W) (q : ℕ) :
    (p.clearPending w).queue q = p.queue q ∨ ∃ i, (p.clearPending w).queue q = (p.queue q).set i p.pendingW := by
  unfold clearPending
  by_cases hp : p.pending w = 0
  · rw [if_neg (not_not.mpr hp)]
    exact .inl rfl
  · rw [if_pos hp]
    by_cases hq : q = p.abspri w
    · refine .inr ⟨p.pending w - 1, List.ext_getElem (by simp [queue]; rfl) fun j hj hj' => ?_⟩
      rw [List.getElem_set]
      simp only [queue, List.getElem_map, List.getElem_range, entry_setPending, entry_setEntry]
      by_cases hji : p.pending w - 1 = j
      · rw [if_pos hji, if_pos ⟨hq, hji.symm⟩]
      · rw [if_neg hji, if_neg fun hc => hji hc.2.symm]
    · refine .inl (List.map_congr_left fun i _ => ?_)
      rw [entry_setPending, entry_setEntry, if_neg fun hc => hq hc.1]

/-- A watcher that is cleared is no longer waited for; the others are, in the same order. -/
theorem order_clear (p : Pend W) (w : W) :
    ((p.clearPending w).order.filter (· ≠ p.pendingW)).Sublist (p.order.filter (· ≠ p.pendingW)) := by
  have hq : ∀ q, (((p.clearPending w).queue q).filter (· ≠ p.pendingW)).Sublist
      ((p.queue q).filter (· ≠ p.pendingW)) := by
    intro q
    rcases queue_clear p w q with h | ⟨i, h⟩
    · rw [h]
    · rw [h]
      exact filter_set_sublist ..
  unfold order
  generalize numpri = n
  induction n with
  | zero => exact List.Sublist.refl _
  | succ n ih =>
    rw [orderBelow, orderBelow, List.filter_append, List.filter_append, List.filter_reverse, List.filter_reverse]
    exact (hq n).reverse.append ih

theorem pendingcnt_clear (p : Pend W) (w : W) : (p.clearPending w).pendingcnt = p.pendingcnt :=
  (clearPending_frame p w).2.2.1

theorem pendingpri_clear (p : Pend W) (w : W) : (p.clearPending w).pendingpri = p.pendingpri :=
  (clearPending_frame p w).2.2.2

section

omit [DecidableEq W]

/-- What happens in user code that leaves the lengths of the queues and the cursor alone. -/
theorem Following.same (h : Following d s) (hu : s.ctl = .user) (hc : t.ctl = .user) (hd : t.depth = s.depth)
    (hcnt : t.pend.pendingcnt = s.pend.pendingcnt) (hpri : t.pend.pendingpri = s.pend.pendingpri) :
    Following d t where
  dec h' := by
    rw [hc] at h'
    cases h'
  test h' := by
    rw [hc] at h'
    cases h'
  user _ hlt q hq := by
    rw [hcnt]
    rw [hd] at hlt
    rw [hpri] at hq
    exact h.user hu hlt q hq
  done hle q := by
    rw [hcnt]
    exact h.done (hd ▸ hle) q
  top q hq := by
    rw [hcnt]
    exact h.top q hq

end

theorem Following.call (h : Following d s) (hu : s.ctl = .user) (hm : a.Mild) (hs : call s a = some t) :
    Following d t := by
  cases a with
  | feedEvent w revents => exact hm.elim
  | feedReverse w => exact hm.elim
  | feedReverseDone revents => exact hm.elim
  | queueEvents events type => exact hm.elim
  | stop w => exact hm.elim
  | clearPending w =>
    cases hs
    exact h.same hu hu rfl (pendingcnt_clear ..) (pendingpri_clear ..)
  | start w =>
    cases hs
    exact h.same hu hu rfl rfl rfl
  | setPriority w pri =>
    simp only [Pend.call, Option.ite_none_right_eq_some] at hs
    obtain ⟨-, hs⟩ := hs
    cases hs
    exact h.same hu hu rfl rfl rfl
  | invokePending =>
    cases hs
    refine ⟨fun _ => ⟨show 0 < numpri by decide, h.top⟩, fun hc => (by cases hc), fun hc => (by cases hc),
      fun hle => h.done ?_, h.top⟩
    exact (Nat.le_succ s.depth).trans hle
  | ret =>
    simp only [Pend.call, Option.ite_none_left_eq_some] at hs
    obtain ⟨hd, hs⟩ := hs
    cases hs
    refine ⟨fun hc => (by cases hc), fun _ => ?_, fun hc => (by cases hc), h.done, h.top⟩
    by_cases hlt : d < s.depth
    · exact h.user hu hlt
    · exact fun q _ => h.done (not_lt.mp hlt) q
  | tick => cases hs

theorem Following.tick (h : Following d s) (hs : tick s = some t) : Following d t := by
  rcases tick_cases hs with ⟨hc, rfl⟩ | ⟨hc, i, hi, rfl⟩ | ⟨hc, hcnt, hpos, rfl⟩ | ⟨hc, hcnt, h0, rfl⟩
  · obtain ⟨hpos, ha⟩ := h.dec hc
    refine ⟨fun hc => (by cases hc), fun _ q hq => ha q ?_, fun hc => (by cases hc), h.done, h.top⟩
    simp only at hq
    omega
  · refine ⟨fun hc => (by cases hc), fun hc => (by cases hc), fun _ _ => above_pop (h.test hc), fun hle q => ?_,
      above_pop h.top⟩
    have h0 := h.done hle s.pend.pendingpri
    rw [hi] at h0
    cases h0
  · refine ⟨fun _ => ⟨hpos, fun q hq => ?_⟩, fun hc => (by cases hc), fun hc => (by cases hc), h.done, h.top⟩
    rcases Nat.eq_or_lt_of_le hq with rfl | hlt
    · exact hcnt
    · exact h.test hc q hlt
  · have hall : ∀ q, s.pend.pendingcnt q = 0 := by
      intro q
      rcases Nat.eq_zero_or_pos q with rfl | hq
      · exact h0 ▸ hcnt
      · exact h.test hc q (by omega)
    exact ⟨fun hc => (by cases hc), fun hc => (by cases hc), fun _ _ q _ => hall q, fun _ => hall, h.top⟩

theorem following_step (h : Following d s) (hm : a.Mild) (hs : step s a = some t) : Following d t := by
  unfold step at hs
  by_cases hu : s.ctl = .user
  · rw [if_pos hu] at hs
    exact h.call hu hm hs
  · rw [if_neg hu] at hs
    cases a with
    | tick => exact h.tick hs
    | _ => cases hs

/-- A step takes the first watcher in order, or none; `ev_clear_pending` takes one out. -/
theorem order_step (h : Following d s) (hm : a.Mild) (hs : step s a = some t) :
    t.pend.pendingW = s.pend.pendingW ∧
    ((∀ w, a ≠ .clearPending w) → invocations t.log ++ t.pend.order = invocations s.log ++ s.pend.order) ∧
    ((invocations t.log ++ t.pend.order).filter (· ≠ s.pend.pendingW)).Sublist
      ((invocations s.log ++ s.pend.order).filter (· ≠ s.pend.pendingW)) := by
  have hsame : ∀ t : Dispatch W, t.pend.pendingW = s.pend.pendingW →
      invocations t.log ++ t.pend.order = invocations s.log ++ s.pend.order →
      t.pend.pendingW = s.pend.pendingW ∧
      ((∀ w, a ≠ .clearPending w) → invocations t.log ++ t.pend.order = invocations s.log ++ s.pend.order) ∧
      ((invocations t.log ++ t.pend.order).filter (· ≠ s.pend.pendingW)).Sublist
        ((invocations s.log ++ s.pend.order).filter (· ≠ s.pend.pendingW)) := by
    intro t hW ho
    exact ⟨hW, fun _ => ho, by rw [ho]⟩
  unfold step at hs
  by_cases hu : s.ctl = .user
  · rw [if_pos hu] at hs
    cases a with
    | feedEvent w revents => exact hm.elim
    | feedReverse w => exact hm.elim
    | feedReverseDone revents => exact hm.elim
    | queueEvents events type => exact hm.elim
    | stop w => exact hm.elim
    | clearPending w =>
      cases hs
      refine ⟨(clearPending_frame s.pend w).1, fun hne => absurd rfl (hne w), ?_⟩
      rw [List.filter_append, List.filter_append]
      exact (List.Sublist.refl _).append (order_clear s.pend w)
    | start w =>
      cases hs
      exact hsame _ rfl rfl
    | setPriority w pri =>
      simp only [Pend.call, Option.ite_none_right_eq_some] at hs
      obtain ⟨-, hs⟩ := hs
      cases hs
      exact hsame _ rfl rfl
    | invokePending =>
      cases hs
      exact hsame _ rfl rfl
    | ret =>
      simp only [Pend.call, Option.ite_none_left_eq_some] at hs
      obtain ⟨-, hs⟩ := hs
      cases hs
      exact hsame _ rfl rfl
    | tick => cases hs
  · rw [if_neg hu] at hs
    cases a with
    | tick =>
      rcases tick_cases hs with ⟨-, rfl⟩ | ⟨hc, i, hi, rfl⟩ | ⟨-, -, -, rfl⟩ | ⟨-, -, -, rfl⟩
      · exact hsame _ rfl rfl
      · refine hsame _ rfl ?_
        have hlt : s.pend.pendingpri < numpri := by
          by_contra hle
          rw [h.top _ (not_lt.mp hle)] at hi
          cases hi
        rw [order_pop hi (h.test hc) hlt]
        simp [invocations]
      · exact hsame _ rfl rfl
      · exact hsame _ rfl rfl
    | _ => cases hs

/-- A run of `ev_invoke_pending` and its callbacks. What has been invoked and what is still to be is what was
pending, in order, but for what was cleared. -/
theorem invocations_run (hrun : Runs s acts t) (hm : ∀ a ∈ acts, a.Mild) (h : Following d s) :
    Following d t ∧ t.pend.pendingW = s.pend.pendingW ∧
    ((∀ w, .clearPending w ∉ acts) → invocations t.log ++ t.pend.order = invocations s.log ++ s.pend.order) ∧
    ((invocations t.log ++ t.pend.order).filter (· ≠ s.pend.pendingW)).Sublist
      ((invocations s.log ++ s.pend.order).filter (· ≠ s.pend.pendingW)) := by
  induction hrun with
  | nil s => exact ⟨h, rfl, fun _ => rfl, List.Sublist.refl _⟩
  | @cons s u t a acts hs hrun ih =>
    obtain ⟨hW, heq, hsub⟩ := order_step h (hm a List.mem_cons_self) hs
    obtain ⟨hf, hW', heq', hsub'⟩ := ih (fun b hb => hm b (List.mem_cons_of_mem a hb))
      (following_step h (hm a List.mem_cons_self) hs)
    refine ⟨hf, hW'.trans hW, fun hno => ?_, ?_⟩
    · rw [heq' fun w hw => hno w (List.mem_cons_of_mem a hw)]
      exact heq fun w hw => hno w (hw ▸ List.mem_cons_self)
    · rw [hW] at hsub'
      exact hsub'.trans hsub

/-- `ev_invoke_pending` invokes what is pending, in order: nothing else, and all of it once it returns. -/
theorem invoke_order (ha : p.Above numpri) (hrun : Runs ⟨p, .user, d, []⟩ (.invokePending :: acts) t)
    (hm : ∀ a ∈ acts, a.Mild) :
    ((invocations t.log).filter (· ≠ p.pendingW)).Sublist p.order ∧
      ((∀ w, .clearPending w ∉ acts) → ∃ rest, invocations t.log ++ rest = p.order ∧ (t.depth ≤ d → rest = [])) := by
  cases hrun with
  | cons hfirst hrest =>
    cases hfirst
    have hf : Following d ⟨{ p with pendingpri := numpri }, .dec, d + 1, []⟩ :=
      ⟨fun _ => ⟨show 0 < numpri by decide, ha⟩, fun hc => (by cases hc), fun hc => (by cases hc),
        fun hle => absurd hle (Nat.not_succ_le_self d), ha⟩
    obtain ⟨hf', -, heq, hsub⟩ := invocations_run hrest hm hf
    refine ⟨?_, fun hno => ⟨t.pend.order, heq hno, fun hle => order_nil (hf'.done hle)⟩⟩
    rw [List.filter_append] at hsub
    exact (List.sublist_append_left ..).trans (hsub.trans List.filter_sublist)

end

/-! ### What the queues hold -/

/-- The queues hold these watchers, each in the queue of its priority and all in this order. -/
structure Holds (p : Pend W) (priority : W → ℤ) (l : List W) : Prop where
  listed : p.Listed
  rfeeds : p.rfeeds = []
  priority : p.priority = priority
  queue : ∀ pri, p.queue pri = l.filter (p.abspri · = pri)

section

variable {p : Pend W} {prio : W → ℤ} {l : List W} {w : W}

theorem filter_dedup (l : List W) (q : W → Bool) : (l.filter q).dedup = l.dedup.filter q := by
  induction l with
  | nil => rfl
  | cons v l ih =>
    by_cases hv : q v = true
    · rw [List.filter_cons_of_pos hv]
      by_cases hm : v ∈ l
      · rw [List.dedup_cons_of_mem (List.mem_filter.mpr ⟨hm, hv⟩), List.dedup_cons_of_mem hm, ih]
      · rw [List.dedup_cons_of_notMem (fun h => hm (List.mem_filter.mp h).1), List.dedup_cons_of_notMem hm, ih,
          List.filter_cons_of_pos hv]
    · rw [List.filter_cons_of_neg hv, ih]
      by_cases hm : v ∈ l
      · rw [List.dedup_cons_of_mem hm]
      · rw [List.dedup_cons_of_notMem hm, List.filter_cons_of_neg hv]

/-- What is fed while nothing is pending is held in the order of the first feeds. -/
theorem holds_feeds (h : p.Empty) (reported : List (W × Events)) :
    Holds (reported.foldl (fun p r => p.evFeedEvent r.1 r.2) p) p.priority
      (reported.map (·.1)).reverse.dedup.reverse := by
  obtain ⟨hl, hprio, hr, -, hq⟩ := queue_feeds reported p _ h.listed rfl
  refine ⟨hl, hr.trans h.rfeeds, hprio, fun pri => ?_⟩
  have hnil : p.queue pri = [] := by
    rw [← List.length_eq_zero_iff, length_queue, h.cnt]
  have habs : (fun w => decide ((reported.foldl (fun p r => p.evFeedEvent r.1 r.2) p).abspri w = pri)) =
      fun w => decide (p.abspri w = pri) := funext fun w => by rw [abspri_congr hprio]
  rw [hq pri, hnil, foldl_queued_nil, habs, ← List.filter_reverse, filter_dedup, List.filter_reverse]

section

omit [DecidableEq W]

theorem Holds.pending (h : Holds p prio l) (hw : w ∉ l) : p.pending w = 0 := by
  by_contra hp
  have hm := (h.listed w).mp hp
  rw [h.queue] at hm
  exact hw (List.mem_filter.mp hm).1

theorem Holds.busy (h : Holds p prio l) (pri : ℕ) : p.pendingcnt pri ≠ 0 ↔ ∃ w ∈ l, p.abspri w = pri := by
  rw [← length_queue, h.queue]
  simp [List.filter_eq_nil_iff]

end

/-- Watchers that are not held, each once, come to the end. -/
theorem Holds.queueEvents (h : Holds p prio l) {ws : List W} (hn : ws.Nodup) (hd : ∀ w ∈ ws, w ∉ l) (type : Events) :
    Holds (p.queueEvents ws type) prio (l ++ ws) := by
  have hfold : p.queueEvents ws type = (ws.map fun w => (w, type)).foldl (fun p r => p.evFeedEvent r.1 r.2) p := by
    rw [List.foldl_map]
    rfl
  obtain ⟨hl, hprio, hr, -, hq⟩ := queue_feeds (ws.map fun w => (w, type)) p _ h.listed rfl
  rw [hfold]
  refine ⟨hl, hr.trans h.rfeeds, hprio.trans h.priority, fun pri => ?_⟩
  have habs : (fun w => decide (((ws.map fun w => (w, type)).foldl (fun p r => p.evFeedEvent r.1 r.2) p).abspri w =
      pri)) = fun w => decide (p.abspri w = pri) := funext fun w => by rw [abspri_congr hprio]
  have hmap : (ws.map fun w => (w, type)).map (·.1) = ws := by
    rw [List.map_map]
    exact List.map_id ws
  rw [hq pri, habs, hmap, h.queue pri, List.filter_append]
  refine foldl_queued_new _ _ (hn.filter _) fun w hw hm => ?_
  exact hd w (List.mem_filter.mp hw).1 (List.mem_filter.mp hm).1

section

omit [DecidableEq W]

/-- Held watchers are invoked from the highest priority down, and the one held last first. -/
theorem Holds.order (h : Holds p prio l) : p.order = byPriority p.abspri l.reverse numpri :=
  orderBelow_byPriority (fun q => by rw [h.queue, List.filter_reverse]) numpri

theorem Holds.above (h : Holds p prio l) (hr : p.InRange) : p.Above numpri := by
  intro q hq
  by_contra hne
  obtain ⟨w, -, hw⟩ := (h.busy q).mp hne
  have hlt := hr.abspri_lt w
  omega

end

end

end Pend

/-! ### The end of a pass -/

namespace Loop

variable {U T K : Type} [DecidableEq U] [LinearOrder T] [Add T] [Sub T] [Zero T]

/-- What a pass of `ev_run` makes pending once its poll is over and the time is known. -/
def collect (e : Env U T) (l : Loop U T K) : Loop U T K :=
  let l := l.timersReify e
  let l := l.periodicsReify e l.periodics.cnt
  l.idleReify.checkReify

/-- The watchers of the events the backend reported. -/
def reportedW (reported : List (IoW U × Events)) : List (Watcher U) := reported.map fun r => .io r.1

/-- What runs at the end of a pass that finds the loop so after its poll: the timers and periodics that are due,
each once, by ascending deadline, and the idle watchers of which it is the turn. -/
structure Due (l : Loop U T K) (reported : List (IoW U × Events)) (timers : List (TimerW U))
    (periodics idles : List U) : Prop where
  timersOnce : timers.Nodup
  timersDue : ∀ w, w ∈ timers ↔ l.timers.active w ≠ 0 ∧ l.timers.wAt w < l.mnNow
  timersOrder : timers.Pairwise fun v w => l.timers.wAt v ≤ l.timers.wAt w
  periodicsOnce : periodics.Nodup
  periodicsDue : ∀ w, w ∈ periodics ↔ l.periodics.active w ≠ 0 ∧ l.periodics.wAt w < l.evRtNow
  periodicsOrder : periodics.Pairwise fun v w => l.periodics.wAt v ≤ l.periodics.wAt w
  idle : Idle l.idles
    (fun pri => ∃ w ∈ reportedW reported ++ timers.map .timer ++ periodics.map .periodic, l.pend.abspri w = pri)
    idles

/-- The order they run in: by priority, and within one the check watchers, the idle watchers, the periodics, the
timers and the io watchers, the one last fed first. -/
def runOrder (l : Loop U T K) (reported : List (IoW U × Events)) (timers : List (TimerW U))
    (periodics idles : List U) : List (Watcher U) :=
  Pend.byPriority l.pend.abspri
    (((l.checks.toList 0).map .check).reverse ++ (idles.map .idle).reverse ++ periodics.map .periodic ++
      timers.map .timer ++ (reportedW reported).reverse.dedup) numpri

section

variable {e : Env U T} {l m : Loop U T K} {reported : List (IoW U × Events)}

/-- The turns in which a pass feeds its watchers. -/
def turn : Watcher U → ℕ
  | .io _ => 0
  | .timer _ => 1
  | .periodic _ => 2
  | .idle _ => 3
  | .check _ => 4
  | _ => 5

/-- Only watchers of the turns before `k` are held. -/
structure HoldsTurns (p : Pend (Watcher U)) (priority : Watcher U → ℤ) (ws : List (Watcher U)) (k : ℕ) : Prop where
  holds : p.Holds priority ws
  before : ∀ w ∈ ws, turn w < k

section

omit [DecidableEq U]

theorem HoldsTurns.pending {p : Pend (Watcher U)} {priority : Watcher U → ℤ} {ws : List (Watcher U)} {k : ℕ}
    (h : HoldsTurns p priority ws k) {w : Watcher U} (hw : k ≤ turn w) : p.pending w = 0 :=
  h.holds.pending fun hm => absurd (h.before w hm) (not_lt.mpr hw)

end

/-- The watchers of the next turn are fed. -/
theorem HoldsTurns.queueEvents {p : Pend (Watcher U)} {priority : Watcher U → ℤ} {ws vs : List (Watcher U)} {k : ℕ}
    (h : HoldsTurns p priority ws k) (hn : vs.Nodup) (hvs : ∀ w ∈ vs, turn w = k) (type : Events) :
    HoldsTurns (p.queueEvents vs type) priority (ws ++ vs) (k + 1) where
  holds := h.holds.queueEvents hn (fun w hw hm => absurd (h.before w hm) (by rw [hvs w hw]; exact lt_irrefl k)) type
  before w hw := by
    rcases List.mem_append.mp hw with hw | hw
    · exact (h.before w hw).trans (Nat.lt_succ_self k)
    · rw [hvs w hw]
      exact Nat.lt_succ_self k

section

omit [DecidableEq U]

theorem turn_map {V : Type} (c : V → Watcher U) {k : ℕ} (hc : ∀ v, turn (c v) = k) (vs : List V) :
    ∀ w ∈ vs.map c, turn w = k := by
  intro w hw
  obtain ⟨v, -, rfl⟩ := List.mem_map.mp hw
  exact hc v

theorem Idle.congr {s : Slots U} {busy busy' : ℕ → Prop} {ws : List U} (h : Idle s busy ws)
    (hb : ∀ q, busy q ↔ busy' q) : Idle s busy' ws := by
  rwa [show busy' = busy from funext fun q => propext (hb q).symm]

end

/-- What a pass makes pending, from what the backend fed. -/
theorem collect_holds (h : Kept e l)
    (hnext : ∀ (l : Loop U T K) u x l', l.periodicNext e u = (some x, l') → l.evRtNow ≤ x)
    (hp : l.pend.Holds l.pend.priority (reportedW reported).reverse.dedup.reverse) :
    ∃ timers periodics idles, Due l reported timers periodics idles ∧ ∃ ws,
      (l.collect e).pend.Holds l.pend.priority ws ∧ (l.collect e).pend.pendingW = l.pend.pendingW ∧
      ws.reverse = ((l.checks.toList 0).map .check).reverse ++ (idles.map .idle).reverse ++
        periodics.map .periodic ++ timers.map .timer ++ (reportedW reported).reverse.dedup := by
  obtain ⟨n₁, n₂, hg₁, hg₂⟩ := h.heaps
  have hp₀ : HoldsTurns l.pend l.pend.priority (reportedW reported).reverse.dedup.reverse 1 := by
    refine ⟨hp, fun w hw => ?_⟩
    have hw' : w ∈ reportedW reported := by simpa using hw
    obtain ⟨r, -, rfl⟩ := List.mem_map.mp hw'
    exact Nat.zero_lt_one
  -- the timers
  obtain ⟨d₁, c₁, timers, heq₁, honce₁, hsort₁, hdue₁⟩ :=
    timersReify_eq hg₁ (fun w => hp₀.pending (le_refl 1)) hp.rfeeds
  obtain ⟨m₁, hm₁⟩ : ∃ m₁, m₁ = l.timersReify e := ⟨_, rfl⟩
  have hb₁ : Beside l m₁ := hm₁ ▸ beside_timersReify
  have hper : m₁.periodics = l.periodics := hm₁ ▸ periodics_timersReify
  have hrt : m₁.evRtNow = l.evRtNow := by rw [hm₁, heq₁]
  have hp₁ : HoldsTurns m₁.pend l.pend.priority
      ((reportedW reported).reverse.dedup.reverse ++ (timers.map .timer).reverse) 2 := by
    rw [hm₁, heq₁]
    refine hp₀.queueEvents (List.nodup_reverse.mpr (honce₁.map fun _ _ => Watcher.timer.inj)) (fun w hw => ?_) _
    exact turn_map .timer (fun _ => rfl) _ w (List.mem_reverse.mp hw)
  -- the periodics
  obtain ⟨d₂, c₂, r₂, periodics, heq₂, honce₂, hsort₂, hdue₂⟩ := periodicsReify_eq (l := m₁)
    (e := e) (t := n₂) (hper ▸ hg₂) (fun w => hp₁.pending (le_refl 2)) hp₁.holds.rfeeds hnext
  obtain ⟨m₂, hm₂⟩ : ∃ m₂, m₂ = m₁.periodicsReify e m₁.periodics.cnt := ⟨_, rfl⟩
  have hb₂ : Beside l m₂ := hm₂ ▸ hb₁.trans (beside_periodicsReify _)
  have hp₂ : HoldsTurns m₂.pend l.pend.priority
      ((reportedW reported).reverse.dedup.reverse ++ (timers.map .timer).reverse ++
        (periodics.map .periodic).reverse) 3 := by
    rw [hm₂, heq₂]
    refine hp₁.queueEvents (List.nodup_reverse.mpr (honce₂.map fun _ _ => Watcher.periodic.inj)) (fun w hw => ?_) _
    exact turn_map .periodic (fun _ => rfl) _ w (List.mem_reverse.mp hw)
  -- the idle watchers
  have hrange := (hb₂.priority h.range).1
  obtain ⟨idles, heq₃, hidle⟩ := idleReify_eq m₂ (fun h0 q => by
      rw [hb₂.idles]
      exact h.idleall_eq (hb₂.idleall ▸ h0) q) (fun q hq => by
      rw [hb₂.idles]
      exact h.high hq) (hp₂.holds.above hrange)
  rw [hb₂.idles] at hidle
  have honce₃ : idles.Nodup := by
    by_cases hnil : idles = []
    · rw [hnil]
      exact List.nodup_nil
    · obtain ⟨pri, hpri, -⟩ := hidle.some hnil
      rw [hpri]
      exact h.idles.nodup pri
  have hp₃ : HoldsTurns m₂.idleReify.pend l.pend.priority
      ((reportedW reported).reverse.dedup.reverse ++ (timers.map .timer).reverse ++
        (periodics.map .periodic).reverse ++ idles.map .idle) 4 := by
    rw [heq₃]
    exact hp₂.queueEvents (honce₃.map fun _ _ => Watcher.idle.inj) (turn_map .idle (fun _ => rfl) _) _
  have hchecks : m₂.idleReify.checks = l.checks := by
    rw [heq₃]
    exact hb₂.checks
  -- the check watchers
  have hp₄ : HoldsTurns m₂.idleReify.checkReify.pend l.pend.priority
      ((reportedW reported).reverse.dedup.reverse ++ (timers.map .timer).reverse ++
        (periodics.map .periodic).reverse ++ idles.map .idle ++ (l.checks.toList 0).map .check) 5 := by
    rw [checkReify_eq, hchecks]
    exact hp₃.queueEvents ((h.checks.nodup 0).map fun _ _ => Watcher.check.inj)
      (turn_map .check (fun _ => rfl) _) _
  have hcollect : l.collect e = m₂.idleReify.checkReify := by rw [collect, hm₂, hm₁]
  refine ⟨timers, periodics, idles, ⟨honce₁, hdue₁, hsort₁, honce₂, ?_, ?_, hidle.congr fun pri => ?_⟩, _,
    hcollect ▸ hp₄.holds, ?_, ?_⟩
  · rw [← hper, ← hrt]
    exact hdue₂
  · rw [← hper]
    exact hsort₂
  · rw [hp₂.holds.busy]
    have habs : ∀ w, m₂.pend.abspri w = l.pend.abspri w := Pend.abspri_congr hp₂.holds.priority
    simp only [habs, List.mem_append, List.mem_reverse, List.mem_dedup]
  · rw [hcollect, checkReify_eq, heq₃]
    show (Pend.queueEvents (Pend.queueEvents m₂.pend _ _) _ _).pendingW = _
    unfold Pend.queueEvents
    rw [(priority_feeds ..).2, (priority_feeds ..).2, hb₂.dummy]
  · simp [List.reverse_append, List.append_assoc]

end

end Loop

namespace Clocked

variable {U T K : Type} [DecidableEq U] [LinearOrder T] [Add T] [Sub T] [Neg T] [Zero T]

section

variable (e : Env U T) (h : Host T) (huge : T) (nowait : Bool) (maxBlock : T) (reported : List (IoW U × Events))
  (s : Clocked U T K)

/-- The backend has fed these events, in this order, and no wake-up was found. -/
def report : Clocked U T K :=
  { s with loop := { s.loop with
    pend := (reported.map fun r => (.io r.1, r.2)).foldl (fun p r => p.evFeedEvent r.1 r.2) s.loop.pend } }

/-- As the timers and periodics are looked at after the poll. -/
def afterPoll : Clocked U T K := (s.report reported).postPoll e h huge nowait maxBlock

/-- A pass of `ev_run`, from its poll to its last `EV_INVOKE_PENDING`. -/
def passEnd : Clocked U T K :=
  let s := s.afterPoll e h huge nowait maxBlock reported
  { s with loop := s.loop.collect e }

end

section

variable {e : Env U T} {h : Host T} {huge : T} {nowait : Bool} {maxBlock : T} {reported : List (IoW U × Events)}
  {s : Clocked U T K}

/-- What the clocks do to the loop: the two times, and the deadlines once they jump. -/
theorem timeUpdate_rule {P : Loop U T K → Prop} (hmn : ∀ l t, P l → P { l with mnNow := t })
    (hrt : ∀ l t, P l → P { l with evRtNow := t }) (hperiodics : ∀ l, P l → P (l.periodicsReschedule e))
    (htimers : ¬ h.haveMonotonic → ∀ l a, P l → P (l.timersReschedule e a)) (hs : P s.loop) :
    P (s.timeUpdate e h maxBlock).loop := by
  have hconfirm : ∀ n odiff (s : Clocked U T K), P s.loop → P (confirm e h odiff n s).loop := by
    intro n
    induction n with
    | zero => exact fun odiff s hs => hperiodics _ hs
    | succ n ih =>
      intro odiff s hs
      unfold confirm
      dsimp only
      split
      · exact hs
      · exact ih odiff _ (hmn _ _ (hrt _ _ hs))
  have hread : P (s.readClock h).loop := hmn _ _ hs
  have htime : P (s.readTime h).loop := hrt _ _ hs
  unfold timeUpdate
  split
  · dsimp only
    split
    · exact hrt _ _ hread
    · exact hconfirm 3 _ _ (hrt _ _ hread)
  · rename_i hmono
    unfold wallUpdate
    dsimp only
    split
    · exact hmn _ _ (hperiodics _ (htimers hmono _ _ htime))
    · exact hmn _ _ htime

theorem kept_postPoll [AddRightMono T] (h : Host T) (huge : T) (nowait : Bool) (maxBlock : T)
    (hk : Loop.Kept e s.loop) :
    Loop.Kept e (s.postPoll e h huge nowait maxBlock).loop ∧
      (s.postPoll e h huge nowait maxBlock).loop.pend = s.loop.pend := by
  unfold postPoll
  dsimp only
  split
  · exact ⟨hk, rfl⟩
  · refine timeUpdate_rule (P := fun l => Loop.Kept e l ∧ l.pend = s.loop.pend) (fun l t hl => ⟨?_, hl.2⟩)
      (fun l t hl => ⟨?_, hl.2⟩) (fun l hl => ⟨?_, ?_⟩) (fun _ l a hl => ⟨?_, ?_⟩) ⟨hk, rfl⟩
    · exact hl.1.beside (.of_priority rfl rfl rfl rfl rfl) hl.1.heaps
    · exact hl.1.beside (.of_priority rfl rfl rfl rfl rfl) hl.1.heaps
    · obtain ⟨t, p, hg₁, hg₂⟩ := hl.1.heaps
      refine hl.1.beside Loop.pend_periodicsReschedule.2 ⟨t, p, ?_⟩
      obtain ⟨d, c, heq, hg, -, -⟩ := Loop.periodicsReschedule_eq hg₂
      rw [heq]
      exact ⟨hg₁, hg⟩
    · exact Loop.pend_periodicsReschedule.1.trans hl.2
    · obtain ⟨t, p, hg₁, hg₂⟩ := hl.1.heaps
      refine hl.1.beside (Loop.pend_timersReschedule a).2 ⟨t, p, Loop.good_timersReschedule hg₁ a, ?_⟩
      rw [Loop.periodics_timersReschedule]
      exact hg₂
    · exact (Loop.pend_timersReschedule a).1.trans hl.2

/-- As the timers are looked at, the queues hold what the backend has fed. -/
theorem afterPoll_holds [AddRightMono T] (hk : Loop.Kept e s.loop) (hempty : s.loop.pend.Empty) {l : Loop U T K}
    (hl : l = (s.afterPoll e h huge nowait maxBlock reported).loop) :
    Loop.Kept e l ∧ l.pend.priority = s.loop.pend.priority ∧
      l.pend.Holds l.pend.priority (Loop.reportedW reported).reverse.dedup.reverse := by
  have hio : (reported.map fun r => ((.io r.1 : Watcher U), r.2)).map (·.1) = Loop.reportedW reported := by
    rw [List.map_map]
    rfl
  obtain ⟨-, hprio, -, hW, -⟩ := Pend.queue_feeds (reported.map fun r => (.io r.1, r.2)) s.loop.pend _
    hempty.listed rfl
  have hheld := Pend.holds_feeds hempty (reported.map fun r => (.io r.1, r.2))
  have hreport : Loop.Beside s.loop (s.report reported).loop := .of_priority rfl rfl rfl hW hprio
  obtain ⟨hkl, hpend⟩ := kept_postPoll h huge nowait maxBlock (hk.beside hreport hk.heaps)
  rw [hl, afterPoll, hpend]
  refine ⟨hkl, hprio, ?_⟩
  rw [show (s.report reported).loop.pend.priority = s.loop.pend.priority from hprio, ← hio]
  exact hheld

/-- A pass that nothing is pending before invokes what is due, from the highest priority down and within a
priority in the order of `runOrder`: all of it when `ev_invoke_pending` returns, and never anything else. What a
callback clears is left out. -/
theorem pass_order [AddRightMono T] [Inhabited U] {backend : Backend} {noinotify signalfd notimerfd : Bool}
    {kernel : K} {calls : List (Loop.Call U T)}
    (hnext : ∀ (l : Loop U T K) u x l', l.periodicNext e u = (some x, l') → l.evRtNow ≤ x)
    (hrun : Loop.Calls e (Loop.init backend noinotify signalfd notimerfd kernel) calls s.loop)
    (hempty : s.loop.pend.Empty) :
    ∃ timers periodics idles,
      (s.afterPoll e h huge nowait maxBlock reported).loop.Due reported timers periodics idles ∧
      ((s.afterPoll e h huge nowait maxBlock reported).loop.runOrder reported timers periodics idles).Pairwise
        (fun v w => s.loop.pend.abspri w ≤ s.loop.pend.abspri v) ∧
      ∀ d acts t, Pend.Runs ⟨(s.passEnd e h huge nowait maxBlock reported).loop.pend, .user, d, []⟩
          (.invokePending :: acts) t → (∀ a ∈ acts, a.Mild) →
        ((Pend.invocations t.log).filter (· ≠ .pendingW)).Sublist
          ((s.afterPoll e h huge nowait maxBlock reported).loop.runOrder reported timers periodics idles) ∧
        ((∀ w, .clearPending w ∉ acts) → ∃ rest, Pend.invocations t.log ++ rest =
            (s.afterPoll e h huge nowait maxBlock reported).loop.runOrder reported timers periodics idles ∧
          (t.depth ≤ d → rest = [])) := by
  obtain ⟨l, hl⟩ : ∃ l, l = (s.afterPoll e h huge nowait maxBlock reported).loop := ⟨_, rfl⟩
  obtain ⟨hk, hprio, hheld⟩ := afterPoll_holds
    (Loop.kept_run hrun (Loop.kept_init backend noinotify signalfd notimerfd kernel)) hempty hl
  have hend : (s.passEnd e h huge nowait maxBlock reported).loop = l.collect e := by rw [hl]; rfl
  rw [hend, ← hl]
  -- what is made pending
  obtain ⟨timers, periodics, idles, hdue, ws, hws, hW, horder⟩ := Loop.collect_holds hk hnext hheld
  have hpend : (l.collect e).pend.order = l.runOrder reported timers periodics idles := by
    rw [hws.order, Loop.runOrder, ← horder,
      show (l.collect e).pend.abspri = l.pend.abspri from funext (Pend.abspri_congr hws.priority)]
  have hrange : (l.collect e).pend.InRange := by
    unfold Pend.InRange
    rw [hws.priority]
    exact hk.range
  refine ⟨timers, periodics, idles, hdue, ?_, fun d acts t hacts hmild => ?_⟩
  · rw [show s.loop.pend.abspri = l.pend.abspri from funext (Pend.abspri_congr hprio.symm)]
    exact (Pend.byPriority_descending ..).1
  · have hinv := Pend.invoke_order (hws.above hrange) hacts hmild
    rwa [hW.trans hk.dummy, hpend] at hinv

end

/-- A timer, a check watcher and an io watcher of one priority; the timer repeats. -/
theorem pass_order_three : ∃ (e : Env Unit ℤ) (h : Host ℤ) (s : Clocked Unit ℤ Unit)
    (acts : List (Pend.Act (Watcher Unit))) (t : Pend.Dispatch (Watcher Unit)),
    Pend.Runs ⟨(s.passEnd e h 100 true 0 [(.user (), evRead)]).loop.pend, .user, 0, []⟩ (.invokePending :: acts) t ∧
    Pend.invocations t.log = [.check (), .timer (.user ()), .io (.user ())] ∧
    ∃ timers periodics idles,
      (s.afterPoll e h 100 true 0 [(.user (), evRead)]).loop.Due [(.user (), evRead)] timers periodics idles ∧
      Pend.invocations t.log = (s.afterPoll e h 100 true 0 [(.user (), evRead)]).loop.runOrder [(.user (), evRead)]
        timers periodics idles := by
  let acts : List (Pend.Act (Watcher Unit)) :=
    [.tick, .tick, .tick, .tick, .tick, .tick, .ret, .tick, .ret, .tick, .ret, .tick, .tick, .tick, .tick, .tick]
  have hmild : ∀ a ∈ acts, a.Mild := by simp [acts, Pend.Act.Mild]
  have hno : ∀ w, .clearPending w ∉ acts := by simp [acts]
  let e : Env Unit ℤ := ⟨.four, fun _ _ now => now, fun _ _ now => now⟩
  let h : Host ℤ := ⟨true, fun _ => 10, fun _ => 10, 10, 5⟩
  let l₀ : Loop Unit ℤ Unit := Loop.init .select true false true ()
  let l₁ : Loop Unit ℤ Unit := l₀.untouched.evTimerSet (.user ()) 5 7
  let l₂ : Loop Unit ℤ Unit := l₁.untouched.evTimerStart e (.user ())
  let l : Loop Unit ℤ Unit := l₂.evCheckStart ()
  let s : Clocked Unit ℤ Unit := ⟨l, 0, 0, false, none, 0, 0, []⟩
  have hset : Loop.call e l₀ (.time (.timerSet (.user ()) 5 7)) = some l₁ := rfl
  have hstart : Loop.call e l₁ (.time (.timerStart (.user ()))) = some l₂ := rfl
  have hcheck : Loop.call e l₂ (.checkStart ()) = some l := rfl
  have hnext : ∀ (l : Loop Unit ℤ Unit) u x l', l.periodicNext e u = (some x, l') → l.evRtNow ≤ x := by
    intro l u x l' hx
    unfold Loop.periodicNext at hx
    split at hx
    · cases hx
      exact le_rfl
    · split at hx
      · cases hx
        exact le_rfl
      · cases hx
  have hx : (execFrom Pend.step ⟨(s.passEnd e h 100 true 0 [(.user (), evRead)]).loop.pend, .user, 0, []⟩
      (.invokePending :: acts)).map (fun t => (Pend.invocations t.log, t.depth)) =
        some ([.check (), .timer (.user ()), .io (.user ())], 0) := by
    decide +kernel
  have hempty : s.loop.pend.Empty := ⟨fun _ => rfl, fun _ => rfl, rfl⟩
  obtain ⟨t, ht, hx⟩ := Option.map_eq_some_iff.mp hx
  obtain ⟨hlog, hdepth⟩ := Prod.mk.inj hx
  have hrun := Run.iff_execFrom.mpr ht
  obtain ⟨timers, periodics, idles, hdue, -, hall⟩ :=
    @pass_order _ _ _ _ _ _ _ _ _ e h 100 true 0 [(.user (), evRead)] s _ _ _ _ _ _ _ _ hnext
      (.cons hset (.cons hstart (.single hcheck))) hempty
  obtain ⟨rest, hrest, hdone⟩ := (hall 0 acts t hrun hmild).2 hno
  rw [hdone hdepth.le, List.append_nil] at hrest
  exact ⟨e, h, s, acts, t, hrun, hlog, timers, periodics, idles, hdue, hrest⟩

end Clocked

end Qev
