/-
# What a pass makes pending

After its poll a pass feeds the timers that are due, the periodics that are due, the idle
watchers of one priority and the check watchers, in this order. A queue is a stack, so that
what is fed last is invoked first; timers and periodics are fed in the reverse of the order
they come off their heaps in (`feed_reverse`).

Here each producer is what it adds to the queues, as lists (`Pend.queue`): a list of feeds adds
the watchers that are not queued yet (`queue_feeds`), and a heap hands over the watchers
that are late, each once, by ascending deadline (`Collected`), although those that repeat are
put back while it does.
-/
import Qev.Loop.Timers

namespace Qev

/-! ### The queues as lists -/

namespace Pend

variable {W : Type} [DecidableEq W]

/-- The watchers of the queue of a priority, the one queued last at the end. -/
def queue (p : Pend W) (pri : ℕ) : List W := (List.range (p.pendingcnt pri)).map fun i => (p.entry pri i).w

/-- Nothing is pending. -/
structure Empty (p : Pend W) : Prop where
  cnt : ∀ pri, p.pendingcnt pri = 0
  pending : ∀ w, p.pending w = 0
  rfeeds : p.rfeeds = []

/-- A watcher is pending if and only if it is in the queue of its priority. -/
def Listed (p : Pend W) : Prop := ∀ w, p.pending w ≠ 0 ↔ w ∈ p.queue (p.abspri w)

/-- `w` at the end, if it is not there yet. -/
def queued (l : List W) (w : W) : List W := if w ∈ l then l else l ++ [w]

variable {p : Pend W} {w : W}

section

omit [DecidableEq W]

theorem length_queue (p : Pend W) (pri : ℕ) : (p.queue pri).length = p.pendingcnt pri := by
  simp [queue]

theorem Empty.ok (h : p.Empty) (hr : p.InRange) : p.Ok fun _ => [] where
  range := hr
  dummy := h.pending _
  top pri _ := h.cnt pri
  live pri i hi := absurd hi (by rw [h.cnt]; exact Nat.not_lt_zero i)
  held w hw := absurd (h.pending w) hw
  queued w := iff_of_false (fun hw => hw (h.pending w)) fun hw => hw rfl
  events w hw := absurd (h.pending w) hw
  stamps pri i j _ hj := absurd hj (by rw [h.cnt]; exact Nat.not_lt_zero j)
  clock pri i hi := absurd hi (by rw [h.cnt]; exact Nat.not_lt_zero i)

theorem Empty.listed (h : p.Empty) : p.Listed := by
  intro w
  simp [queue, h.cnt, h.pending]

end

theorem queue_push (p : Pend W) (w : W) (e : ANPENDING W) (pri : ℕ) :
    (((p.setCnt pri (p.pendingcnt pri + 1)).setPending w (p.pendingcnt pri + 1)).setEntry pri (p.pendingcnt pri)
      e).queue = Function.update p.queue pri (p.queue pri ++ [e.w]) := by
  funext q
  have hcnt : (((p.setCnt pri (p.pendingcnt pri + 1)).setPending w (p.pendingcnt pri + 1)).setEntry pri
      (p.pendingcnt pri) e).pendingcnt q = if q = pri then p.pendingcnt pri + 1 else p.pendingcnt q :=
    Function.update_apply ..
  rw [queue, hcnt, Function.update_apply]
  split
  · rename_i hq
    subst hq
    rw [List.range_succ, List.map_append, List.map_singleton, entry_setEntry, if_pos ⟨rfl, rfl⟩]
    congr 1
    refine List.map_congr_left fun i hi => ?_
    have hne : i ≠ p.pendingcnt q := (List.mem_range.mp hi).ne
    rw [entry_setEntry, if_neg (fun hc => hne hc.2)]
    rfl
  · rename_i hq
    refine List.map_congr_left fun i _ => ?_
    rw [entry_setEntry, if_neg (fun hc => hq hc.1)]
    rfl

theorem queue_feed_new (hp : p.pending w = 0) (revents : Events) :
    (p.evFeedEvent w revents).queue = Function.update p.queue (p.abspri w) (p.queue (p.abspri w) ++ [w]) := by
  unfold evFeedEvent
  simp only [hp, ne_eq, not_true_eq_false, ↓reduceIte, Nat.add_sub_cancel]
  exact queue_push p w ⟨w, revents, p.clock⟩ (p.abspri w)

theorem queue_feed (h : p.Listed) (w : W) (revents : Events) :
    (p.evFeedEvent w revents).queue = Function.update p.queue (p.abspri w) (queued (p.queue (p.abspri w)) w) := by
  by_cases hp : p.pending w = 0
  · have hnot : w ∉ p.queue (p.abspri w) := fun hm => (h w).mpr hm hp
    rw [queue_feed_new hp, queued, if_neg hnot]
  · have hin : w ∈ p.queue (p.abspri w) := (h w).mp hp
    unfold evFeedEvent queued
    simp only [hp, ne_eq, not_false_eq_true, ↓reduceIte, hin, Function.update_eq_self]
    funext q
    refine List.map_congr_left fun i _ => ?_
    show ((p.setEntry (p.abspri w) (p.pending w - 1) _).entry q i).w = _
    rw [entry_setEntry]
    split
    · rename_i hqi
      rw [hqi.1, hqi.2]
    · rfl

theorem priority_feed (p : Pend W) (w : W) (revents : Events) : (p.evFeedEvent w revents).priority = p.priority := by
  unfold evFeedEvent
  by_cases hp : p.pending w = 0
  · simp [hp, setCnt, setPending, setEntry]
  · simp [hp, setEntry]

theorem listed_feed (h : p.Listed) (w : W) (revents : Events) : (p.evFeedEvent w revents).Listed := by
  intro v
  rw [pending_feed, abspri_congr (priority_feed p w revents), queue_feed h, Function.update_apply, h v]
  split
  · rename_i heq
    rw [heq]
    unfold queued
    split
    · rename_i hin
      exact ⟨fun hv => hv.elim id fun he => he ▸ hin, .inl⟩
    · simp
  · rename_i hne
    refine ⟨fun hv => hv.resolve_right fun he => hne (he ▸ rfl), .inl⟩

/-- A list of feeds: each watcher comes to the end of its queue, if it is not queued. -/
theorem queue_feeds (reported : List (W × Events)) (p q : Pend W) (h : p.Listed)
    (hq : q = reported.foldl (fun p r => p.evFeedEvent r.1 r.2) p) :
    q.Listed ∧ q.priority = p.priority ∧ q.rfeeds = p.rfeeds ∧ q.pendingW = p.pendingW ∧
      ∀ pri, q.queue pri = ((reported.map (·.1)).filter (p.abspri · = pri)).foldl queued (p.queue pri) := by
  induction reported generalizing p with
  | nil =>
    subst hq
    exact ⟨h, rfl, rfl, rfl, fun _ => rfl⟩
  | cons r reported ih =>
    obtain ⟨h₁, h₂, h₃, hW, h₄⟩ := ih _ (listed_feed h r.1 r.2) hq
    have hprio := priority_feed p r.1 r.2
    refine ⟨h₁, h₂.trans hprio, h₃.trans (rfeeds_feed p r.1 r.2), hW.trans (pendingW_feed p r.1 r.2), fun pri => ?_⟩
    rw [h₄ pri, queue_feed h, Function.update_apply, List.map_cons, List.filter_cons]
    have habs : (fun w => decide ((p.evFeedEvent r.1 r.2).abspri w = pri)) = fun w => decide (p.abspri w = pri) := by
      funext w
      rw [abspri_congr hprio]
    rw [habs]
    by_cases hpri : pri = p.abspri r.1
    · subst hpri
      simp
    · simp [hpri, Ne.symm hpri]

theorem rfeeds_foldl (ws : List W) (p : Pend W) (r : List W) (revents : Events) :
    ws.foldl (fun p w => p.evFeedEvent w revents) { p with rfeeds := r } =
      { ws.foldl (fun p w => p.evFeedEvent w revents) p with rfeeds := r } := by
  induction ws generalizing p with
  | nil => rfl
  | cons w ws ih =>
    have hone : ({ p with rfeeds := r } : Pend W).evFeedEvent w revents =
        { p.evFeedEvent w revents with rfeeds := r } := by
      unfold evFeedEvent
      by_cases hp : p.pending w = 0
      · simp only [hp, ne_eq, not_true_eq_false, ↓reduceIte]
        rfl
      · simp only [hp, ne_eq, not_false_eq_true, ↓reduceIte]
        rfl
    rw [List.foldl_cons, hone, ih, List.foldl_cons]

/-- The watchers of `rfeeds` are fed as those of any list. -/
theorem feedReverseDone_eq (hr : p.rfeeds = []) (ws : List W) (revents : Events) :
    ({ p with rfeeds := ws } : Pend W).feedReverseDone revents = p.queueEvents ws revents := by
  unfold feedReverseDone queueEvents
  dsimp only
  rw [rfeeds_foldl]
  have hsame := rfeeds_foldl ws p [] revents
  have hp : ({ p with rfeeds := [] } : Pend W) = p := by rw [← hr]
  rw [hp] at hsame
  exact hsame.symm

/-- `clear_pending` of each. -/
def clearAll (p : Pend W) (ws : List W) : Pend W := ws.foldl clearPending p

theorem clearPending_idle (h : p.pending w = 0) : p.clearPending w = p := by
  unfold clearPending
  rw [if_neg (not_not.mpr h)]

theorem clearAll_idle {ws : List W} (h : ∀ w ∈ ws, p.pending w = 0) : p.clearAll ws = p := by
  induction ws with
  | nil => rfl
  | cons w ws ih =>
    rw [clearAll, List.foldl_cons, clearPending_idle (h w List.mem_cons_self)]
    exact ih fun v hv => h v (List.mem_cons_of_mem w hv)

theorem clearPending_rfeeds (p : Pend W) (r : List W) (w : W) :
    ({ p with rfeeds := r } : Pend W).clearPending w = { p.clearPending w with rfeeds := r } := by
  unfold clearPending
  by_cases hp : p.pending w = 0
  · simp only [hp, ne_eq, not_true_eq_false, ↓reduceIte]
  · simp only [hp, ne_eq, not_false_eq_true, ↓reduceIte]
    rfl

theorem clearAll_rfeeds (p : Pend W) (r ws : List W) :
    ({ p with rfeeds := r } : Pend W).clearAll ws = { p.clearAll ws with rfeeds := r } := by
  induction ws generalizing p with
  | nil => rfl
  | cons w ws ih => exact (congrArg (List.foldl clearPending · ws) (clearPending_rfeeds p r w)).trans (ih _)

theorem rfeeds_clearAll (p : Pend W) (ws : List W) : (p.clearAll ws).rfeeds = p.rfeeds := by
  have h := clearAll_rfeeds p p.rfeeds ws
  rw [show ({ p with rfeeds := p.rfeeds } : Pend W) = p from rfl] at h
  rw [h]

/-! ### Lists that are queued -/

theorem queued_new {l : List W} (h : w ∉ l) : queued l w = l ++ [w] := if_neg h

/-- Watchers that are not queued, each once, all come to the end. -/
theorem foldl_queued_new (l ws : List W) (hn : ws.Nodup) (hd : ∀ w ∈ ws, w ∉ l) : ws.foldl queued l = l ++ ws := by
  induction ws generalizing l with
  | nil => exact (List.append_nil l).symm
  | cons w ws ih =>
    obtain ⟨hw, hn⟩ := List.nodup_cons.mp hn
    rw [List.foldl_cons, queued_new (hd w List.mem_cons_self), ih (l ++ [w]) hn, List.append_assoc,
      List.singleton_append]
    intro v hv hmem
    rcases List.mem_append.mp hmem with hmem | hmem
    · exact hd v (List.mem_cons_of_mem w hv) hmem
    · exact hw (List.mem_singleton.mp hmem ▸ hv)

/-- In an empty queue the first feed of a watcher is its place. -/
theorem foldl_queued_nil (ws : List W) : ws.foldl queued [] = ws.reverse.dedup.reverse := by
  induction ws using List.reverseRecOn with
  | nil => rfl
  | append_singleton ws w ih =>
    rw [List.foldl_append, ih, List.foldl_cons, List.foldl_nil, List.reverse_append, List.reverse_singleton,
      List.singleton_append, queued]
    by_cases hw : w ∈ ws
    · rw [if_pos (by simpa using hw), List.dedup_cons_of_mem (by simpa using hw)]
    · rw [if_neg (by simpa using hw), List.dedup_cons_of_notMem (by simpa using hw), List.reverse_cons]

end Pend

/-! ### What comes off a heap -/

namespace Deadlines

variable {W T : Type} [DecidableEq W] [LinearOrder T] {b : Dheap} {now : T} {d d' d'' : Deadlines W T} {ws : List W}

/-- The watchers that a loop takes off the root while it is due, in this order; each is stopped, or put back
with a deadline that is not due. -/
inductive Collected (b : Dheap) (now : T) : Deadlines W T → List W → Deadlines W T → Prop
  | nil (d : Deadlines W T) : Collected b now d [] d
  | cons {d d' d'' : Deadlines W T} {ws : List W} : (∀ w ∈ d.late now, d.wAt (d.rootW b) ≤ d.wAt w) →
      d.rootW b ∈ d.late now → d'.late now = d.late now \ {d.rootW b} →
      (∀ w, w ≠ d.rootW b → d'.wAt w = d.wAt w) → Collected b now d' ws d'' →
      Collected b now d (d.rootW b :: ws) d''

/-- Each of them once, by ascending deadline, and with those that are still late all the late ones. -/
theorem Collected.spec (h : Collected b now d ws d') :
    ws.Nodup ∧ ws.Pairwise (fun v w => d.wAt v ≤ d.wAt w) ∧ ∀ w, w ∈ d.late now ↔ w ∈ ws ∨ w ∈ d'.late now := by
  induction h with
  | nil d => exact ⟨List.nodup_nil, List.Pairwise.nil, fun w => by simp⟩
  | @cons d d₁ d' ws hle hroot hlate hat hrest ih =>
    obtain ⟨hn, hsorted, hall⟩ := ih
    have hsub : ∀ w ∈ ws, w ∈ d.late now ∧ w ≠ d.rootW b := by
      intro w hw
      have hmem : w ∈ d₁.late now := (hall w).mpr (.inl hw)
      rw [hlate] at hmem
      exact hmem
    refine ⟨List.nodup_cons.mpr ⟨fun hm => (hsub _ hm).2 rfl, hn⟩,
      List.pairwise_cons.mpr ⟨fun w hw => hle w (hsub w hw).1, ?_⟩, fun w => ?_⟩
    · refine hsorted.imp_of_mem fun {v w} hv hw hvw => ?_
      rwa [hat v (hsub v hv).2, hat w (hsub w hw).2] at hvw
    · rw [List.mem_cons, or_assoc, ← hall w, hlate]
      by_cases hw : w = d.rootW b
      · rw [hw]
        exact iff_of_true hroot (.inl rfl)
      · simp [hw]

/-- When an active watcher is due. -/
def deadline (d : Deadlines W T) (w : W) : Option T := if d.active w ≠ 0 then some (d.wAt w) else none

/-- What becomes of the watchers of `ws`, by the deadline they had: another deadline, or none if they are stopped.
The others stay as they are. -/
structure Became (out : W → T → Option T → Prop) (d : Deadlines W T) (ws : List W) (d' : Deadlines W T) : Prop where
  out : ∀ w ∈ ws, out w (d.wAt w) (d'.deadline w)
  stays : ∀ w, w ∉ ws → d'.wAt w = d.wAt w ∧ (d'.active w ≠ 0 ↔ d.active w ≠ 0)

section

omit [DecidableEq W] [LinearOrder T]

theorem Became.nil {out : W → T → Option T → Prop} (d : Deadlines W T) : Became out d [] d :=
  ⟨fun _ hw => absurd hw List.not_mem_nil, fun _ _ => ⟨rfl, Iff.rfl⟩⟩

theorem Became.cons {out : W → T → Option T → Prop} {w : W} (h : Became out d [w] d') (hrest : Became out d' ws d'')
    (hw : w ∉ ws) : Became out d (w :: ws) d'' := by
  have hdead : d''.deadline w = d'.deadline w := by
    obtain ⟨hat, hact⟩ := hrest.stays w hw
    simp only [deadline, hat, hact]
  constructor
  · intro v hv
    rcases List.mem_cons.mp hv with rfl | hv
    · rw [hdead]
      exact h.out v List.mem_cons_self
    · have hne : v ∉ [w] := fun hm => hw (List.mem_singleton.mp hm ▸ hv)
      rw [← (h.stays v hne).1]
      exact hrest.out v hv
  · intro v hv
    have hne : v ∉ [w] := fun hm => hv (List.mem_singleton.mp hm ▸ List.mem_cons_self)
    obtain ⟨hat, hact⟩ := h.stays v hne
    obtain ⟨hat', hact'⟩ := hrest.stays v fun hm => hv (List.mem_cons_of_mem w hm)
    exact ⟨hat'.trans hat, hact'.trans hact⟩

end

/-- A loop that takes the root off while it is due has taken off `ws` until none was late: each once, by ascending
deadline. -/
structure Drained (out : W → T → Option T → Prop) (now : T) (d : Deadlines W T) (ws : List W) (d' : Deadlines W T) :
    Prop where
  once : ws.Nodup
  sorted : ws.Pairwise fun v w => d.wAt v ≤ d.wAt w
  late : ∀ w, w ∈ ws ↔ w ∈ d.late now
  became : Became out d ws d'
  done : d'.late now = ∅

variable {t : ℕ}

/-- The watcher is stopped. -/
theorem Good.stop_became {out : W → T → Option T → Prop} (h : d.Good b t) {w : W} (hw : d.active w ≠ 0) (x : T)
    (ho : out w (d.wAt w) none) : Became out d [w] ((d.stop b w).setAt w x) := by
  have hact := (h.ok.stop hw).active_iff
  constructor
  · intro v hv
    obtain rfl := List.mem_singleton.mp hv
    rwa [deadline, if_neg (by exact fun hne => ((hact v).mp hne).1 rfl)]
  · intro v hv
    have hne : v ≠ w := fun he => hv (List.mem_singleton.mpr he)
    exact ⟨Function.update_of_ne hne .., (hact v).trans ⟨And.right, fun hv => ⟨hne, hv⟩⟩⟩

/-- The root is put back. -/
theorem Good.sink_became {out : W → T → Option T → Prop} (h : d.Good b t) (hcnt : d.cnt ≠ 0) {x : T}
    (ho : out (d.rootW b) (d.wAt (d.rootW b)) (some x)) :
    Became out d [d.rootW b] (((d.setAt (d.rootW b) x).atCache b.heap0).downheap b b.heap0) := by
  have hact := (h.ok.sink hcnt x).active_iff
  constructor
  · intro v hv
    obtain rfl := List.mem_singleton.mp hv
    have hroot : (((d.setAt (d.rootW b) x).atCache b.heap0).downheap b b.heap0).active (d.rootW b) ≠ 0 :=
      (hact _).mpr (h.ok.linked.root hcnt).1
    rw [deadline, if_pos hroot]
    show out _ _ (some (Function.update d.wAt (d.rootW b) x (d.rootW b)))
    rwa [Function.update_self]
  · intro v hv
    have hne : v ≠ d.rootW b := fun he => hv (List.mem_singleton.mpr he)
    exact ⟨Function.update_of_ne hne .., hact v⟩

/-- The root is stopped. -/
theorem Good.late_stop_eq (h : d.Good b t) (now : T) {w : W} (hw : d.active w ≠ 0) (x : T) :
    ((d.stop b w).setAt w x).late now = d.late now \ {w} := by
  refine Set.Subset.antisymm (h.late_stop hw x) ?_
  rintro v ⟨⟨hv, hlt⟩, hne⟩
  refine ⟨((h.ok.stop hw).active_iff v).mpr ⟨hne, hv⟩, ?_⟩
  show Function.update d.wAt w x v < now
  rwa [Function.update_of_ne hne]

/-- The root is put back, later. -/
theorem Good.late_sink_eq (h : d.Good b t) (hcnt : d.cnt ≠ 0) {x : T} (hx : now ≤ x) :
    (((d.setAt (d.rootW b) x).atCache b.heap0).downheap b b.heap0).late now = d.late now \ {d.rootW b} := by
  refine Set.Subset.antisymm (h.late_sink hcnt hx) ?_
  rintro v ⟨⟨hv, hlt⟩, hne⟩
  refine ⟨((h.ok.sink hcnt x).active_iff v).mpr hv, ?_⟩
  show Function.update d.wAt (d.rootW b) x v < now
  rwa [Function.update_of_ne hne]

section

omit [DecidableEq W]

/-- The root is the first of the late ones. -/
theorem Good.root_first (h : d.Good b t) (hcnt : d.cnt ≠ 0) {w : W} (hw : w ∈ d.late now) :
    d.wAt (d.rootW b) ≤ d.wAt w := by
  rw [← (h.ok.linked.root hcnt).2]
  exact h.ok.root_le hw.1

/-- When the root is not due, nobody is late. -/
theorem Good.late_empty (h : d.Good b t) (hd : ¬ (d.cnt ≠ 0 ∧ d.rootAt b < now)) : d.late now = ∅ := by
  refine Set.eq_empty_of_forall_notMem fun w hw => hd ⟨fun hcnt => ?_, (h.ok.root_le hw.1).trans_lt hw.2⟩
  obtain ⟨hk, hkn, -⟩ := h.ok.linked.place hw.1
  omega

end

theorem Collected.notMem (h : Collected b now d' ws d'') {w : W} (hlate : d'.late now = d.late now \ {w}) : w ∉ ws := by
  intro hm
  have hm' : w ∈ d'.late now := (h.spec.2.2 w).mpr (.inl hm)
  rw [hlate] at hm'
  exact hm'.2 rfl

section

omit [DecidableEq W]

/-- One more before. -/
theorem Collected.step {out : W → T → Option T → Prop} (h : Collected b now d' ws d'') (hg : d.Good b t)
    (hd : d.cnt ≠ 0 ∧ d.rootAt b < now) (hlate : d'.late now = d.late now \ {d.rootW b})
    (hout : Became out d [d.rootW b] d') : Collected b now d (d.rootW b :: ws) d'' :=
  .cons (fun _ hw => hg.root_first hd.1 hw) (hg.root_late hd.1 hd.2) hlate
    (fun w hw => (hout.stays w fun hm => hw (List.mem_singleton.mp hm)).1) h

end

end Deadlines

/-! ### Arrays of watchers -/

namespace Slots

variable {W : Type} [DecidableEq W] {s : Slots W} {key key' : W → ℕ} {w : W} {pri : ℕ}

/-- Each array has the watchers of one key, and `active` is the watcher's place in its array. -/
structure Filed (s : Slots W) (key : W → ℕ) : Prop where
  cell : ∀ pri, ∀ i < s.cnt pri, key (s.cells pri i) = pri ∧ s.active (s.cells pri i) = i + 1
  active : ∀ w, s.active w ≠ 0 → s.active w ≤ s.cnt (key w) ∧ s.cells (key w) (s.active w - 1) = w

section

omit [DecidableEq W]

theorem Filed.congr (h : s.Filed key) (hk : ∀ w, key' w = key w) : s.Filed key' := by
  rwa [show key' = key from funext hk]

theorem Filed.mem (h : s.Filed key) : w ∈ s.toList pri ↔ s.active w ≠ 0 ∧ key w = pri := by
  simp only [toList, List.mem_map, List.mem_range]
  constructor
  · rintro ⟨i, hi, rfl⟩
    obtain ⟨hk, ha⟩ := h.cell pri i hi
    exact ⟨by rw [ha]; exact Nat.succ_ne_zero i, hk⟩
  · rintro ⟨hw, rfl⟩
    obtain ⟨hle, hc⟩ := h.active w hw
    exact ⟨s.active w - 1, by omega, hc⟩

theorem Filed.nodup (h : s.Filed key) (pri : ℕ) : (s.toList pri).Nodup := by
  refine List.Nodup.map_on (fun i hi j hj he => ?_) List.nodup_range
  have hi' := (h.cell pri i (List.mem_range.mp hi)).2
  have hj' := (h.cell pri j (List.mem_range.mp hj)).2
  rw [he, hj'] at hi'
  omega

end

theorem Filed.start (h : s.Filed key) (hw : s.active w = 0) : (s.start (key w) w).Filed key := by
  have hcnt : ∀ q, (s.start (key w) w).cnt q = if q = key w then s.cnt (key w) + 1 else s.cnt q :=
    fun q => Function.update_apply ..
  have hact : ∀ v, (s.start (key w) w).active v = if v = w then s.cnt (key w) + 1 else s.active v :=
    fun v => Function.update_apply ..
  have hcells : ∀ q i, (s.start (key w) w).cells q i = if q = key w ∧ i = s.cnt (key w) then w else s.cells q i := by
    intro q i
    by_cases hq : q = key w
    · simp [Slots.start, hq, Function.update_apply]
    · simp [Slots.start, hq]
  constructor
  · intro q i hi
    rw [hcnt] at hi
    rw [hcells]
    by_cases hqi : q = key w ∧ i = s.cnt (key w)
    · rw [if_pos hqi, hact, if_pos rfl, hqi.2]
      exact ⟨hqi.1.symm, rfl⟩
    · have hlt : i < s.cnt q := by
        split at hi
        · rename_i hq
          have hne : i ≠ s.cnt (key w) := fun he => hqi ⟨hq, he⟩
          rw [hq]
          omega
        · exact hi
      obtain ⟨hk, ha⟩ := h.cell q i hlt
      have hne : s.cells q i ≠ w := fun he => by
        rw [he, hw] at ha
        exact absurd ha (Nat.succ_ne_zero i).symm
      rw [if_neg hqi, hact, if_neg hne]
      exact ⟨hk, ha⟩
  · intro v hv
    rw [hact] at hv ⊢
    rw [hcnt, hcells]
    by_cases he : v = w
    · rw [if_pos he, he, if_pos rfl, if_pos ⟨rfl, rfl⟩]
      exact ⟨le_refl _, rfl⟩
    · rw [if_neg he] at hv ⊢
      obtain ⟨hle, hc⟩ := h.active v hv
      refine ⟨?_, ?_⟩
      · split
        · rename_i hk
          rw [hk] at hle
          omega
        · exact hle
      · rw [if_neg, hc]
        rintro ⟨hk, hi⟩
        rw [hk] at hle
        omega

/-- The last watcher of the array takes the place of the one that is stopped. -/
theorem Filed.active_stop (h : s.Filed key) (hw : s.active w ≠ 0) (v : W) :
    (s.stop (key w) w).active v =
      if v = w then 0 else if key v = key w ∧ s.active v = s.cnt (key w) then s.active w else s.active v := by
  obtain ⟨hle, hc⟩ := h.active w hw
  obtain ⟨hlastk, hlast⟩ := h.cell (key w) (s.cnt (key w) - 1) (by omega)
  simp only [Slots.stop]
  by_cases he : v = w
  · rw [he, Function.update_self, if_pos rfl]
  · rw [Function.update_of_ne he, if_neg he]
    by_cases hl : v = s.cells (key w) (s.cnt (key w) - 1)
    · rw [hl, Function.update_self, if_pos ⟨hlastk, by rw [hlast]; omega⟩]
    · rw [Function.update_of_ne hl, if_neg]
      rintro ⟨hk, hcnt⟩
      obtain ⟨-, hc'⟩ := h.active v (by omega)
      rw [hk, hcnt] at hc'
      exact hl hc'.symm

theorem Filed.stop (h : s.Filed key) (hw : s.active w ≠ 0) : (s.stop (key w) w).Filed key := by
  obtain ⟨hle, hc⟩ := h.active w hw
  obtain ⟨hlastk, hlast⟩ := h.cell (key w) (s.cnt (key w) - 1) (by omega)
  have hcells : ∀ q i, (s.stop (key w) w).cells q i =
      if q = key w ∧ i = s.active w - 1 then s.cells (key w) (s.cnt (key w) - 1) else s.cells q i := by
    intro q i
    by_cases hq : q = key w
    · simp [Slots.stop, hq, Function.update_apply]
    · simp [Slots.stop, hq]
  have hcnt : ∀ q, (s.stop (key w) w).cnt q = if q = key w then s.cnt (key w) - 1 else s.cnt q :=
    fun q => Function.update_apply ..
  constructor
  · intro q i hi
    rw [hcnt] at hi
    rw [hcells, h.active_stop hw]
    by_cases hqi : q = key w ∧ i = s.active w - 1
    · rw [if_pos hqi, if_neg, if_pos ⟨hlastk, by omega⟩, hqi.1]
      · exact ⟨hlastk, by omega⟩
      · -- the last one is another, since the place of `w` is still in use
        intro he
        rw [he] at hlast
        rw [if_pos hqi.1] at hi
        omega
    · have hlt : i < s.cnt q := by
        split at hi
        · rename_i hq
          rw [hq]
          omega
        · exact hi
      obtain ⟨hk, ha⟩ := h.cell q i hlt
      have hne : s.cells q i ≠ w := by
        intro he
        rw [he] at hk ha
        exact hqi ⟨hk.symm, by omega⟩
      rw [if_neg hqi, if_neg hne, if_neg]
      · exact ⟨hk, ha⟩
      · rintro ⟨hk', ha'⟩
        rw [hk] at hk'
        rw [if_pos hk'] at hi
        omega
  · intro v hv
    rw [h.active_stop hw] at hv ⊢
    by_cases he : v = w
    · rw [if_pos he] at hv
      exact absurd rfl hv
    · rw [if_neg he] at hv ⊢
      rw [hcnt, hcells]
      by_cases hl : key v = key w ∧ s.active v = s.cnt (key w)
      · obtain ⟨-, hc'⟩ := h.active v (by omega)
        rw [hl.1, hl.2] at hc'
        have hne : s.active w ≠ s.cnt (key w) := by
          intro h'
          rw [← h', hc] at hc'
          exact he hc'.symm
        rw [if_pos hl, if_pos hl.1, if_pos ⟨hl.1, rfl⟩]
        exact ⟨by omega, hc'⟩
      · rw [if_neg hl] at hv ⊢
        obtain ⟨hle', hc'⟩ := h.active v hv
        refine ⟨?_, ?_⟩
        · split
          · rename_i hk
            have hne : s.active v ≠ s.cnt (key w) := fun h' => hl ⟨hk, h'⟩
            rw [hk] at hle'
            omega
          · exact hle'
        · rw [if_neg, hc']
          rintro ⟨hk, hi⟩
          rw [hk, hi, hc] at hc'
          exact he hc'.symm

end Slots

namespace Loop

variable {U T K : Type} [DecidableEq U] [LinearOrder T] [Add T] [Sub T] [Zero T]

/-! ### timers_reify and periodics_reify -/

section

variable {e : Env U T} {l m : Loop U T K} {t : ℕ}

/-- Those of the timers that do not repeat. -/
def oneShots (l : Loop U T K) (ws : List (TimerW U)) : List (TimerW U) := ws.filter (l.wRepeat · = 0)

/-- A periodic with a time of its own. -/
def Absolute (l : Loop U T K) (u : U) : Prop := l.wRescheduleCb u = false ∧ l.wInterval u = 0

instance (l : Loop U T K) (u : U) : Decidable (l.Absolute u) := inferInstanceAs (Decidable (_ ∧ _))

def absolutes (l : Loop U T K) (us : List U) : List U := us.filter (l.Absolute ·)

/-- A timer that expires is stopped, or repeats, but not before the loop's time. -/
def timerOut (l : Loop U T K) (w : TimerW U) (t : T) (o : Option T) : Prop :=
  o = if l.wRepeat w = 0 then none else some (max (t + l.wRepeat w) l.mnNow)

/-- The next time of a periodic, if it has one, when its callback is asked for the `n`th time. -/
def periodicAt (e : Env U T) (l : Loop U T K) (n : ℕ) (u : U) : Option T :=
  if l.wRescheduleCb u then some (e.rescheduleCb n u l.evRtNow)
  else if l.wInterval u ≠ 0 then some (e.periodicRecalc (l.wOffset u) (l.wInterval u) l.evRtNow)
  else none

/-- A periodic that expires gets its next time, or is stopped. -/
def periodicOut (e : Env U T) (l : Loop U T K) (u : U) (_ : T) (o : Option T) : Prop :=
  ∃ n, o = l.periodicAt e n u

/-- No active periodic is put back in the past. -/
def NextAhead (e : Env U T) (l : Loop U T K) : Prop :=
  ∀ n u x, l.periodics.active u ≠ 0 → l.periodicAt e n u = some x → l.evRtNow ≤ x

section

omit [DecidableEq U] [Add T] [Sub T]

/-- A periodic with a next time is asked for it; an absolute one has none. -/
theorem periodicNext_eq (e : Env U T) (l : Loop U T K) (u : U) :
    (∃ x n, l.periodicNext e u = (some x, { l with rescheduleCnt := n }) ∧
      l.periodicAt e l.rescheduleCnt u = some x ∧ ¬ l.Absolute u) ∨
    l.periodicNext e u = (none, l) ∧ l.periodicAt e l.rescheduleCnt u = none ∧ l.Absolute u := by
  unfold periodicNext periodicAt Absolute
  by_cases hcb : l.wRescheduleCb u
  · simp [hcb]
  · by_cases hint : l.wInterval u = 0
    · simp [hcb, hint]
    · simp only [hcb, Bool.false_eq_true, ↓reduceIte, hint, ne_eq, not_false_eq_true]
      exact .inl ⟨_, l.rescheduleCnt, rfl, rfl, fun hc => hc.2.elim⟩

theorem nextAhead (hnext : ∀ (l : Loop U T K) u x l', l.periodicNext e u = (some x, l') → l.evRtNow ≤ x) :
    NextAhead e l := by
  intro n u x _ hx
  rcases periodicNext_eq e { l with rescheduleCnt := n } u with ⟨y, c, hy, hat, -⟩ | ⟨-, hat, -⟩
  · obtain rfl : y = x := Option.some.inj (hat.symm.trans hx)
    exact hnext { l with rescheduleCnt := n } u y _ hy
  · exact absurd (hat.symm.trans hx) (by simp)

end

/-- A round of `timers_reify` stops its timer or puts it back, and adds it to `rfeeds`. -/
theorem timersReifyOne_eq (h : l.timers.Good e.heap t) (hd : l.timersDue e) :
    ∃ d, l.timersReifyOne e = { l with
        timers := d, activecnt := l.activecnt - (l.oneShots [l.timers.rootW e.heap]).length
        pend := { l.pend.clearAll ((l.oneShots [l.timers.rootW e.heap]).map .timer) with
          rfeeds := .timer (l.timers.rootW e.heap) :: l.pend.rfeeds } } ∧
      d.Good e.heap t ∧ d.late l.mnNow = l.timers.late l.mnNow \ {l.timers.rootW e.heap} ∧
      Deadlines.Became l.timerOut l.timers [l.timers.rootW e.heap] d := by
  have hroot := h.root_late hd.1 hd.2
  have hgood := good_timersReifyOne h hd
  unfold timersReifyOne at hgood ⊢
  dsimp only at hgood ⊢
  generalize hr : l.timers.rootW e.heap = r at hroot hgood ⊢
  by_cases hrep : l.wRepeat r = 0
  · have hshots : l.oneShots [r] = [r] := by simp [oneShots, hrep]
    have hstop : l.evTimerStop e r = { l with
        timers := (l.timers.stop e.heap r).setAt r (l.timers.wAt r - l.mnNow)
        activecnt := l.activecnt - 1, pend := l.pend.clearPending (.timer r) } := by
      unfold evTimerStop
      dsimp only
      rw [if_neg (by exact hroot.1)]
      rfl
    rw [if_neg (not_not.mpr hrep), hstop] at hgood ⊢
    rw [hshots]
    refine ⟨_, ?_, hgood, h.late_stop_eq _ hroot.1 _, h.stop_became hroot.1 _ (if_pos hrep).symm⟩
    unfold feedReverse Pend.feedReverse
    dsimp only
    rw [show (l.pend.clearPending (.timer r)).rfeeds = _ from Pend.rfeeds_clearAll l.pend [.timer r]]
    rfl
  · have hshots : l.oneShots [r] = [] := by simp [oneShots, hrep]
    have hat : (if l.timers.wAt r + l.wRepeat r < l.mnNow then l.mnNow else l.timers.wAt r + l.wRepeat r) =
        max (l.timers.wAt r + l.wRepeat r) l.mnNow := by
      split
      · rename_i hlt
        exact (max_eq_right hlt.le).symm
      · rename_i hle
        exact (max_eq_left (not_lt.mp hle)).symm
    rw [if_pos hrep, hat] at hgood ⊢
    rw [hshots]
    subst hr
    refine ⟨_, ?_, hgood, h.late_sink_eq hd.1 (le_max_right _ _), h.sink_became hd.1 (if_neg hrep).symm⟩
    simp only [List.length_nil, Nat.cast_zero, sub_zero]
    rfl

section

omit [DecidableEq U] [Add T] [Sub T]

theorem oneShots_cons (l : Loop U T K) (w : TimerW U) (ws : List (TimerW U)) :
    l.oneShots (w :: ws) = l.oneShots [w] ++ l.oneShots ws := List.filter_append [w] ws

theorem absolutes_cons (l : Loop U T K) (u : U) (us : List U) :
    l.absolutes (u :: us) = l.absolutes [u] ++ l.absolutes us := List.filter_append [u] us

end

/-- Clearing and feeding in two goes. -/
theorem clearAll_append (p : Pend (Watcher U)) (w : Watcher U) (cs cs' ws : List (Watcher U)) :
    ({ ({ p.clearAll cs with rfeeds := w :: p.rfeeds } : Pend (Watcher U)).clearAll cs' with
        rfeeds := ws.reverse ++ (w :: p.rfeeds) } : Pend (Watcher U)) =
      { p.clearAll (cs ++ cs') with rfeeds := (w :: ws).reverse ++ p.rfeeds } := by
  rw [Pend.clearAll_rfeeds, Pend.clearAll, Pend.clearAll, ← List.foldl_append, List.reverse_cons, List.append_assoc]
  rfl

/-- The loop of `timers_reify`: it collects the timers, and touches the heap, the queues and `activecnt` only. In
enough rounds it collects all that are late. -/
theorem timersReifyLoop_eq (n : ℕ) (h : l.timers.Good e.heap t) :
    ∃ d, ∃ ws : List (TimerW U), timersReifyLoop e n l = { l with
        timers := d, activecnt := l.activecnt - (l.oneShots ws).length
        pend := { l.pend.clearAll ((l.oneShots ws).map .timer) with
          rfeeds := (ws.map .timer).reverse ++ l.pend.rfeeds } } ∧
      Deadlines.Collected e.heap l.mnNow l.timers ws d ∧ Deadlines.Became l.timerOut l.timers ws d ∧
      d.Good e.heap t ∧ ((l.timers.late l.mnNow).ncard ≤ n → d.late l.mnNow = ∅) := by
  have hnil : ∀ l : Loop U T K, l = { l with
      timers := l.timers, activecnt := l.activecnt - (l.oneShots []).length
      pend := { l.pend.clearAll ((l.oneShots []).map .timer) with
        rfeeds := (([] : List (TimerW U)).map .timer).reverse ++ l.pend.rfeeds } } := by
    intro l
    show l = { l with activecnt := l.activecnt - (0 : ℕ) }
    rw [Nat.cast_zero, sub_zero]
  induction n generalizing l with
  | zero =>
    exact ⟨l.timers, [], hnil l, .nil _, .nil _, h, fun hn =>
      (Set.ncard_eq_zero (h.late_finite _)).mp (Nat.le_zero.mp hn)⟩
  | succ n ih =>
    unfold timersReifyLoop
    by_cases hd : l.timersDue e
    · rw [if_pos hd]
      obtain ⟨d, heq, hgood, hlate, hout⟩ := timersReifyOne_eq h hd
      have hroot := h.root_late hd.1 hd.2
      rw [heq]
      obtain ⟨d', ws, heq', hcol, hout', hgood', hdone⟩ := ih (l := { l with
        timers := d, activecnt := l.activecnt - (l.oneShots [l.timers.rootW e.heap]).length
        pend := { l.pend.clearAll ((l.oneShots [l.timers.rootW e.heap]).map .timer) with
          rfeeds := .timer (l.timers.rootW e.heap) :: l.pend.rfeeds } }) hgood
      refine ⟨d', l.timers.rootW e.heap :: ws, ?_, hcol.step h hd hlate hout,
        hout.cons hout' (hcol.notMem hlate), hgood', fun hn => hdone ?_⟩
      · rw [heq', oneShots_cons l _ ws, List.map_append, List.length_append, Nat.cast_add, ← sub_sub]
        exact congrArg (fun p => ({ l with timers := d', activecnt := _, pend := p } : Loop U T K))
          (clearAll_append l.pend _ _ _ (ws.map .timer))
      · have hlt := h.late_lt hroot hlate.le
        show (d.late l.mnNow).ncard ≤ n
        omega
    · rw [if_neg hd]
      exact ⟨l.timers, [], hnil l, .nil _, .nil _, h, fun _ => h.late_empty hd⟩

/-- `timers_reify` clears those of the late timers that do not repeat, and feeds them all, the latest deadline
first. -/
theorem timersReify_spec (h : l.timers.Good e.heap t) (hr : l.pend.rfeeds = []) :
    ∃ d, ∃ ws : List (TimerW U), l.timersReify e = { l with
        timers := d, activecnt := l.activecnt - (l.oneShots ws).length
        pend := (l.pend.clearAll ((l.oneShots ws).map .timer)).queueEvents (ws.map .timer).reverse evTimer } ∧
      Deadlines.Drained l.timerOut l.mnNow l.timers ws d ∧ d.Good e.heap t := by
  obtain ⟨d, ws, heq, hcol, hout, hgood, hdone⟩ := timersReifyLoop_eq l.timers.cnt h
  have hempty := hdone (h.late_ncard _)
  obtain ⟨hn, hsorted, hall⟩ := hcol.spec
  have hdrained : Deadlines.Drained l.timerOut l.mnNow l.timers ws d :=
    ⟨hn, hsorted, fun w => by rw [hall w, hempty]; simp, hout, hempty⟩
  refine ⟨d, ws, ?_, hdrained, hgood⟩
  unfold timersReify
  by_cases hd : l.timersDue e
  · rw [if_pos hd, heq, hr, List.append_nil]
    unfold feedReverseDone
    rw [Pend.feedReverseDone_eq ((Pend.rfeeds_clearAll ..).trans hr)]
  · have hno : timersReifyLoop e l.timers.cnt l = l := by
      cases l.timers.cnt with
      | zero => rfl
      | succ n => exact if_neg hd
    have hws : ws = [] := by
      refine List.eq_nil_iff_forall_not_mem.mpr fun w hw => ?_
      have hw' := (hdrained.late w).mp hw
      rw [h.late_empty hd] at hw'
      exact hw'
    rw [hws] at heq ⊢
    rw [if_neg hd]
    exact hno.symm.trans heq

/-- As `timersReify_spec`, when no timer is pending before. -/
theorem timersReify_eq (h : l.timers.Good e.heap t) (hp : ∀ w, l.pend.pending (.timer w) = 0)
    (hr : l.pend.rfeeds = []) :
    ∃ d c, ∃ ws : List (TimerW U), l.timersReify e = { l with
        timers := d, activecnt := c
        pend := l.pend.queueEvents (ws.map .timer).reverse evTimer } ∧
      ws.Nodup ∧ ws.Pairwise (fun v w => l.timers.wAt v ≤ l.timers.wAt w) ∧
      ∀ w, w ∈ ws ↔ w ∈ l.timers.late l.mnNow := by
  obtain ⟨d, ws, heq, hdrained, -⟩ := timersReify_spec h hr
  have hidle : l.pend.clearAll ((l.oneShots ws).map .timer) = l.pend := by
    refine Pend.clearAll_idle fun w hw => ?_
    obtain ⟨v, -, rfl⟩ := List.mem_map.mp hw
    exact hp v
  rw [hidle] at heq
  exact ⟨d, _, ws, heq, hdrained.once, hdrained.sorted, hdrained.late⟩

/-- A round of `periodics_reify`, as `timersReifyOne_eq`. -/
theorem periodicsReifyOne_eq (h : l.periodics.Good e.heap t) (hd : l.periodicsDue e) (hnext : NextAhead e l) :
    ∃ d n, l.periodicsReifyOne e = { l with
        periodics := d, activecnt := l.activecnt - (l.absolutes [l.periodics.rootW e.heap]).length, rescheduleCnt := n
        pend := { l.pend.clearAll ((l.absolutes [l.periodics.rootW e.heap]).map .periodic) with
          rfeeds := .periodic (l.periodics.rootW e.heap) :: l.pend.rfeeds } } ∧
      d.Good e.heap t ∧ d.late l.evRtNow = l.periodics.late l.evRtNow \ {l.periodics.rootW e.heap} ∧
      Deadlines.Became (l.periodicOut e) l.periodics [l.periodics.rootW e.heap] d := by
  have hroot := h.root_late hd.1 hd.2
  have hgood := (good_periodicsReifyOne h hd).1
  unfold periodicsReifyOne at hgood ⊢
  dsimp only at hgood ⊢
  rcases periodicNext_eq e l (l.periodics.rootW e.heap) with ⟨x, n, hx, hat, habs⟩ | ⟨hx, hat, habs⟩
  · have hnone : l.absolutes [l.periodics.rootW e.heap] = [] := by simp [absolutes, habs]
    rw [hx] at hgood ⊢
    rw [hnone]
    refine ⟨_, n, ?_, hgood, h.late_sink_eq hd.1 (hnext _ _ _ hroot.1 hat), h.sink_became hd.1 ⟨_, hat.symm⟩⟩
    simp only [List.length_nil, Nat.cast_zero, sub_zero]
    rfl
  · have hself : l.absolutes [l.periodics.rootW e.heap] = [l.periodics.rootW e.heap] := by simp [absolutes, habs]
    generalize l.periodics.rootW e.heap = r at hroot hgood hx hat habs hself ⊢
    have hstop : l.evPeriodicStop e r = { l with
        periodics := (l.periodics.stop e.heap r).setAt r (l.periodics.wAt r)
        activecnt := l.activecnt - 1, pend := l.pend.clearPending (.periodic r) } := by
      have hkeep : (l.periodics.stop e.heap r).setAt r (l.periodics.wAt r) = l.periodics.stop e.heap r := by
        unfold Deadlines.setAt Deadlines.stop
        simp only [Function.update_eq_self]
      unfold evPeriodicStop
      dsimp only
      rw [if_neg (by exact hroot.1), hkeep]
      rfl
    rw [hx] at hgood ⊢
    dsimp only at hgood ⊢
    rw [hstop] at hgood ⊢
    rw [hself]
    refine ⟨_, l.rescheduleCnt, ?_, hgood, h.late_stop_eq _ hroot.1 _, h.stop_became hroot.1 _ ⟨_, hat.symm⟩⟩
    unfold feedReverse Pend.feedReverse
    dsimp only
    rw [show (l.pend.clearPending (.periodic r)).rfeeds = _ from Pend.rfeeds_clearAll l.pend [.periodic r]]
    rfl

/-- The loop of `periodics_reify`, as `timersReifyLoop_eq`. -/
theorem periodicsReifyLoop_eq (n : ℕ) (h : l.periodics.Good e.heap t) (hnext : NextAhead e l) :
    ∃ d c, ∃ us : List U, periodicsReifyLoop e n l = { l with
        periodics := d, activecnt := l.activecnt - (l.absolutes us).length, rescheduleCnt := c
        pend := { l.pend.clearAll ((l.absolutes us).map .periodic) with
          rfeeds := (us.map .periodic).reverse ++ l.pend.rfeeds } } ∧
      Deadlines.Collected e.heap l.evRtNow l.periodics us d ∧ Deadlines.Became (l.periodicOut e) l.periodics us d ∧
      d.Good e.heap t ∧ ((l.periodics.late l.evRtNow).ncard ≤ n → d.late l.evRtNow = ∅) := by
  have hnil : ∀ l : Loop U T K, l = { l with
      periodics := l.periodics, activecnt := l.activecnt - (l.absolutes []).length, rescheduleCnt := l.rescheduleCnt
      pend := { l.pend.clearAll ((l.absolutes []).map .periodic) with
        rfeeds := (([] : List U).map .periodic).reverse ++ l.pend.rfeeds } } := by
    intro l
    show l = { l with activecnt := l.activecnt - (0 : ℕ) }
    rw [Nat.cast_zero, sub_zero]
  induction n generalizing l with
  | zero =>
    exact ⟨l.periodics, l.rescheduleCnt, [], hnil l, .nil _, .nil _, h, fun hn =>
      (Set.ncard_eq_zero (h.late_finite _)).mp (Nat.le_zero.mp hn)⟩
  | succ n ih =>
    unfold periodicsReifyLoop
    by_cases hd : l.periodicsDue e
    · rw [if_pos hd]
      obtain ⟨d, c, heq, hgood, hlate, hout⟩ := periodicsReifyOne_eq h hd hnext
      have hroot := h.root_late hd.1 hd.2
      have hactive : ∀ u, d.active u ≠ 0 → l.periodics.active u ≠ 0 := by
        intro u hu
        by_cases hr : u = l.periodics.rootW e.heap
        · rw [hr]
          exact hroot.1
        · exact (hout.stays u fun hm => hr (List.mem_singleton.mp hm)).2.mp hu
      rw [heq]
      obtain ⟨d', c', us, heq', hcol, hout', hgood', hdone⟩ := ih (l := { l with
        periodics := d, activecnt := l.activecnt - (l.absolutes [l.periodics.rootW e.heap]).length, rescheduleCnt := c
        pend := { l.pend.clearAll ((l.absolutes [l.periodics.rootW e.heap]).map .periodic) with
          rfeeds := .periodic (l.periodics.rootW e.heap) :: l.pend.rfeeds } }) hgood
            fun n u x hu => hnext n u x (hactive u hu)
      refine ⟨d', c', l.periodics.rootW e.heap :: us, ?_, hcol.step h hd hlate hout,
        hout.cons hout' (hcol.notMem hlate), hgood', fun hn => hdone ?_⟩
      · rw [heq', absolutes_cons l _ us, List.map_append, List.length_append, Nat.cast_add, ← sub_sub]
        exact congrArg (fun p => ({ l with periodics := d', activecnt := _, rescheduleCnt := c', pend := p } :
          Loop U T K)) (clearAll_append l.pend _ _ _ (us.map .periodic))
      · have hlt := h.late_lt hroot hlate.le
        show (d.late l.evRtNow).ncard ≤ n
        omega
    · rw [if_neg hd]
      exact ⟨l.periodics, l.rescheduleCnt, [], hnil l, .nil _, .nil _, h, fun _ => h.late_empty hd⟩

/-- `periodics_reify` clears the absolute ones of the late periodics, and feeds them all, the latest deadline
first. -/
theorem periodicsReify_spec (h : l.periodics.Good e.heap t) (hr : l.pend.rfeeds = []) (hnext : NextAhead e l) :
    ∃ d c, ∃ us : List U, l.periodicsReify e l.periodics.cnt = { l with
        periodics := d, activecnt := l.activecnt - (l.absolutes us).length, rescheduleCnt := c
        pend := (l.pend.clearAll ((l.absolutes us).map .periodic)).queueEvents (us.map .periodic).reverse evPeriodic } ∧
      Deadlines.Drained (l.periodicOut e) l.evRtNow l.periodics us d ∧ d.Good e.heap t := by
  obtain ⟨d, c, us, heq, hcol, hout, hgood, hdone⟩ := periodicsReifyLoop_eq l.periodics.cnt h hnext
  have hempty := hdone (h.late_ncard _)
  obtain ⟨hn, hsorted, hall⟩ := hcol.spec
  have hdrained : Deadlines.Drained (l.periodicOut e) l.evRtNow l.periodics us d :=
    ⟨hn, hsorted, fun u => by rw [hall u, hempty]; simp, hout, hempty⟩
  refine ⟨d, c, us, ?_, hdrained, hgood⟩
  unfold periodicsReify
  by_cases hd : l.periodicsDue e
  · rw [if_pos hd, heq, hr, List.append_nil]
    unfold feedReverseDone
    rw [Pend.feedReverseDone_eq ((Pend.rfeeds_clearAll ..).trans hr)]
  · have hno : periodicsReifyLoop e l.periodics.cnt l = l := by
      cases l.periodics.cnt with
      | zero => rfl
      | succ n => exact if_neg hd
    have hus : us = [] := by
      refine List.eq_nil_iff_forall_not_mem.mpr fun u hu => ?_
      have hu' := (hdrained.late u).mp hu
      rw [h.late_empty hd] at hu'
      exact hu'
    rw [hus] at heq ⊢
    rw [if_neg hd]
    exact hno.symm.trans heq

/-- As `periodicsReify_spec`, when no periodic is pending before. -/
theorem periodicsReify_eq (h : l.periodics.Good e.heap t) (hp : ∀ w, l.pend.pending (.periodic w) = 0)
    (hr : l.pend.rfeeds = [])
    (hnext : ∀ (l : Loop U T K) u x l', l.periodicNext e u = (some x, l') → l.evRtNow ≤ x) :
    ∃ d c r, ∃ ws : List U, l.periodicsReify e l.periodics.cnt = { l with
        periodics := d, activecnt := c, rescheduleCnt := r
        pend := l.pend.queueEvents (ws.map .periodic).reverse evPeriodic } ∧
      ws.Nodup ∧ ws.Pairwise (fun v w => l.periodics.wAt v ≤ l.periodics.wAt w) ∧
      ∀ w, w ∈ ws ↔ w ∈ l.periodics.late l.evRtNow := by
  obtain ⟨d, c, us, heq, hdrained, -⟩ := periodicsReify_spec h hr (nextAhead hnext)
  have hidle : l.pend.clearAll ((l.absolutes us).map .periodic) = l.pend := by
    refine Pend.clearAll_idle fun w hw => ?_
    obtain ⟨v, -, rfl⟩ := List.mem_map.mp hw
    exact hp v
  rw [hidle] at heq
  exact ⟨d, _, c, us, heq, hdrained.once, hdrained.sorted, hdrained.late⟩

end

/-! ### Idle and check watchers -/

/-- `EV_CHECK`. -/
def evCheck : Events := 0x8000

section

variable (l : Loop U T K)

def evIdleStart (w : U) : Loop U T K :=
  if l.idles.active w ≠ 0 then l
  else
    let l := { l with pend := l.pend.priAdjust (.idle w) }
    let pri := l.pend.abspri (.idle w)
    let l := { l with idleall := l.idleall + 1 }
    let l := l.evStart (.idle w)
    { l with idles := l.idles.start pri w }

def evIdleStop (w : U) : Loop U T K :=
  let l := l.clearPending (.idle w)
  if l.idles.active w = 0 then l
  else
    let l := { l with idles := l.idles.stop (l.pend.abspri (.idle w)) w }
    let l := l.evStop
    { l with idleall := l.idleall - 1 }

def evCheckStart (w : U) : Loop U T K :=
  if l.checks.active w ≠ 0 then l
  else
    let l := l.evStart (.check w)
    { l with checks := l.checks.start 0 w }

def evCheckStop (w : U) : Loop U T K :=
  let l := l.clearPending (.check w)
  if l.checks.active w = 0 then l
  else
    let l := { l with checks := l.checks.stop 0 w }
    l.evStop

/-- The loop of `idle_reify`, from the priorities below `pri` down. -/
def idleReifyLoop : ℕ → Loop U T K → Loop U T K
  | 0, l => l
  | pri + 1, l =>
    if l.pend.pendingcnt pri ≠ 0 then l
    else if l.idles.cnt pri ≠ 0 then l.queueEvents ((l.idles.toList pri).map .idle) evIdle
    else idleReifyLoop pri l

/-- Make idle watchers pending: "call-idle only when higher priorities are idle". -/
def idleReify : Loop U T K := if l.idleall ≠ 0 then idleReifyLoop numpri l else l

/-- Make check watchers pending. -/
def checkReify : Loop U T K :=
  if l.checks.cnt 0 ≠ 0 then l.queueEvents ((l.checks.toList 0).map .check) evCheck else l

end

/-- The idle watchers that may run: those of the highest priority that has any, if nothing is pending there or
above, else none. -/
structure Idle (s : Slots U) (busy : ℕ → Prop) (ws : List U) : Prop where
  some : ws ≠ [] → ∃ pri, ws = s.toList pri ∧ (∀ q, pri < q → s.cnt q = 0) ∧ ∀ q, pri ≤ q → ¬ busy q
  none : ws = [] → ∀ pri, s.cnt pri ≠ 0 → ∃ q, pri ≤ q ∧ busy q

section

variable {l : Loop U T K}

section

omit [DecidableEq U]

theorem toList_ne_nil {s : Slots U} {pri : ℕ} : s.toList pri ≠ [] ↔ s.cnt pri ≠ 0 := by
  simp [Slots.toList]

end

section

omit [LinearOrder T] [Add T] [Sub T] [Zero T]

theorem idleReifyLoop_eq (n : ℕ) (l : Loop U T K) (hi : ∀ q, n ≤ q → l.idles.cnt q = 0)
    (hp : ∀ q, n ≤ q → l.pend.pendingcnt q = 0) :
    ∃ ws : List U, idleReifyLoop n l = l.queueEvents (ws.map .idle) evIdle ∧
      Idle l.idles (fun q => l.pend.pendingcnt q ≠ 0) ws := by
  induction n with
  | zero => exact ⟨[], rfl, fun h => absurd rfl h, fun _ pri hpri => absurd (hi pri (Nat.zero_le pri)) hpri⟩
  | succ n ih =>
    unfold idleReifyLoop
    by_cases hpn : l.pend.pendingcnt n = 0
    · rw [if_neg (not_not.mpr hpn)]
      have hp' : ∀ q, n ≤ q → l.pend.pendingcnt q = 0 := by
        intro q hq
        rcases Nat.eq_or_lt_of_le hq with rfl | hq
        · exact hpn
        · exact hp q hq
      by_cases hin : l.idles.cnt n = 0
      · rw [if_neg (not_not.mpr hin)]
        refine ih (fun q hq => ?_) hp'
        rcases Nat.eq_or_lt_of_le hq with rfl | hq
        · exact hin
        · exact hi q hq
      · rw [if_pos hin]
        refine ⟨l.idles.toList n, rfl, fun _ => ⟨n, rfl, hi, fun q hq hb => hb (hp' q hq)⟩, fun hnil => ?_⟩
        exact absurd hnil (toList_ne_nil.mpr hin)
    · rw [if_pos hpn]
      refine ⟨[], rfl, fun h => absurd rfl h, fun _ pri hpri => ⟨n, ?_, hpn⟩⟩
      by_contra hlt
      exact hpri (hi pri (by omega))

/-- `idle_reify` queues the idle watchers that may run. -/
theorem idleReify_eq (l : Loop U T K) (hall : l.idleall = 0 → ∀ q, l.idles.cnt q = 0)
    (hi : ∀ q, numpri ≤ q → l.idles.cnt q = 0) (hp : ∀ q, numpri ≤ q → l.pend.pendingcnt q = 0) :
    ∃ ws : List U, l.idleReify = l.queueEvents (ws.map .idle) evIdle ∧
      Idle l.idles (fun q => l.pend.pendingcnt q ≠ 0) ws := by
  unfold idleReify
  by_cases h0 : l.idleall = 0
  · rw [if_neg (not_not.mpr h0)]
    exact ⟨[], rfl, fun h => absurd rfl h, fun _ pri hpri => absurd (hall h0 pri) hpri⟩
  · rw [if_pos h0]
    exact idleReifyLoop_eq numpri l hi hp

theorem checkReify_eq (l : Loop U T K) :
    l.checkReify = l.queueEvents ((l.checks.toList 0).map .check) evCheck := by
  unfold checkReify
  by_cases h0 : l.checks.cnt 0 = 0
  · have hnil : l.checks.toList 0 = [] := by simp [Slots.toList, h0]
    rw [if_neg (not_not.mpr h0), hnil]
    rfl
  · rw [if_pos h0]

end

end

end Loop

end Qev
