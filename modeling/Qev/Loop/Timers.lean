/-
# Timers and periodics

`ev_timer_start`, `_stop`, `_again` and `timers_reify`, the same for periodics, and the
two passes that move all deadlines: `timers_reschedule` by an offset, which keeps the
order, and `periodics_reschedule`, which asks each periodic anew and rebuilds the heap.

A run of these from a loop without timers keeps both heaps well formed, and no step
looks outside the entries there were before it or are after it (`heap_invariant`).
-/
import Qev.Lib.Run
import Qev.Loop.Fd

set_option linter.unusedSectionVars false

namespace Qev

/-- What the system answers `evtimerfd_init`: the new fd, the wall clock, and whether that has jumped. -/
structure TimerfdCreate (T : Type) where
  fd : ℤ
  now : T
  jumped : Bool

namespace Loop

variable {U T K : Type} [DecidableEq U] [LinearOrder T] [Add T] [Sub T] [Zero T]

section

variable (e : Env U T) (l : Loop U T K)

/-! ### Timers -/

/-- `ev_timer_set`. -/
def evTimerSet (w : TimerW U) (after repeat' : T) : Loop U T K :=
  { l with timers := l.timers.setAt w after, wRepeat := Function.update l.wRepeat w repeat' }

def evTimerStart (w : TimerW U) : Loop U T K :=
  if l.timers.active w ≠ 0 then l
  else
    let l := { l with timers := l.timers.setAt w (l.timers.wAt w + l.mnNow) }
    let l := l.evStart (.timer w)
    { l with timers := l.timers.start e.heap w }

def evTimerStop (w : TimerW U) : Loop U T K :=
  let l := l.clearPending (.timer w)
  if l.timers.active w = 0 then l
  else
    let l := { l with timers := (l.timers.stop e.heap w).setAt w (l.timers.wAt w - l.mnNow) }
    l.evStop

def evTimerAgain (w : TimerW U) : Loop U T K :=
  let l := l.clearPending (.timer w)
  if l.timers.active w ≠ 0 then
    if l.wRepeat w ≠ 0 then
      let active := l.timers.active w
      { l with timers := ((l.timers.setAt w (l.mnNow + l.wRepeat w)).atCache active).adjustheap e.heap active }
    else l.evTimerStop e w
  else if l.wRepeat w ≠ 0 then
    evTimerStart e { l with timers := l.timers.setAt w (l.wRepeat w) } w
  else l

/-- The condition of both loops of `timers_reify`. -/
def timersDue : Prop := l.timers.cnt ≠ 0 ∧ l.timers.rootAt e.heap < l.mnNow

instance : Decidable (l.timersDue e) := inferInstanceAs (Decidable (_ ∧ _))

/-- The body of the loop of `timers_reify`. -/
def timersReifyOne : Loop U T K :=
  let w := l.timers.rootW e.heap
  let l :=
    if l.wRepeat w ≠ 0 then
      let at' := l.timers.wAt w + l.wRepeat w
      let at' := if at' < l.mnNow then l.mnNow else at'
      { l with timers := ((l.timers.setAt w at').atCache e.heap.heap0).downheap e.heap e.heap.heap0 }
    else l.evTimerStop e w
  l.feedReverse (.timer w)

/-- At most `n` rounds. -/
def timersReifyLoop : ℕ → Loop U T K → Loop U T K
  | 0, l => l
  | n + 1, l => if l.timersDue e then timersReifyLoop n (l.timersReifyOne e) else l

/-- Make timers pending. -/
def timersReify : Loop U T K :=
  if l.timersDue e then (timersReifyLoop e l.timers.cnt l).feedReverseDone evTimer else l

/-- The body of the loop of `timers_reschedule`. -/
def timersRescheduleOne (adjust : T) (l : Loop U T K) (i : ℕ) : Loop U T K :=
  let k := i + e.heap.heap0
  let w := (l.timers.heap.cells k).anheW
  { l with timers := (l.timers.setAt w (l.timers.wAt w + adjust)).atCache k }

/-- Adjust all timers by a given offset. -/
def timersReschedule (adjust : T) : Loop U T K :=
  (List.range l.timers.cnt).foldl (timersRescheduleOne e adjust) l

/-! ### Periodics -/

/-- `ev_periodic_set`. -/
def evPeriodicSet (w : U) (offset interval : T) (rescheduleCb : Bool) : Loop U T K :=
  { l with wOffset := Function.update l.wOffset w offset
           wInterval := Function.update l.wInterval w interval
           wRescheduleCb := Function.update l.wRescheduleCb w rescheduleCb }

/-- The next time of a periodic that has one, and the loop with its callback asked. -/
def periodicNext (w : U) : Option T × Loop U T K :=
  if l.wRescheduleCb w then
    (some (e.rescheduleCb l.rescheduleCnt w l.evRtNow), { l with rescheduleCnt := l.rescheduleCnt + 1 })
  else if l.wInterval w ≠ 0 then
    (some (e.periodicRecalc (l.wOffset w) (l.wInterval w) l.evRtNow), l)
  else (none, l)

/-- The body of the loop of `periodics_reschedule`. -/
def periodicsRescheduleOne (l : Loop U T K) (i : ℕ) : Loop U T K :=
  let k := i + e.heap.heap0
  let w := (l.periodics.heap.cells k).anheW
  let l :=
    match l.periodicNext e w with
    | (some t, l) => { l with periodics := l.periodics.setAt w t }
    | (none, l) => l
  { l with periodics := l.periodics.atCache k }

/-- Simply recalculate all periodics. -/
def periodicsReschedule : Loop U T K :=
  let l := (List.range l.periodics.cnt).foldl (periodicsRescheduleOne e) l
  { l with periodics := l.periodics.reheap e.heap }

/-- `timerfdcb`. -/
def timerfdcb (k : TimerfdCreate T) : Loop U T K :=
  let l := { l with evRtNow := k.now }
  if k.jumped then l.periodicsReschedule e else l

def evtimerfdInit (k : TimerfdCreate T) : Loop U T K :=
  if l.fds.active .timerfdW ≠ 0 then l
  else
    let l := { l with timerfd := k.fd }
    if k.fd ≥ 0 then
      let l := l.evIoInit .timerfdW k.fd.toNat evRead
      let l := l.evSetPriority (.io .timerfdW) minpri
      let l := l.evIoStart .timerfdW
      let l := l.evUnref
      l.timerfdcb e k
    else l

def evPeriodicStart (k : TimerfdCreate T) (w : U) : Loop U T K :=
  if l.periodics.active w ≠ 0 then l
  else
    let l := if l.timerfd = -2 then l.evtimerfdInit e k else l
    let l :=
      match l.periodicNext e w with
      | (some t, l) => { l with periodics := l.periodics.setAt w t }
      | (none, l) => { l with periodics := l.periodics.setAt w (l.wOffset w) }
    let l := l.evStart (.periodic w)
    { l with periodics := l.periodics.start e.heap w }

def evPeriodicStop (w : U) : Loop U T K :=
  let l := l.clearPending (.periodic w)
  if l.periodics.active w = 0 then l
  else
    let l := { l with periodics := l.periodics.stop e.heap w }
    l.evStop

def evPeriodicAgain (k : TimerfdCreate T) (w : U) : Loop U T K := (l.evPeriodicStop e w).evPeriodicStart e k w

/-- The condition of the loops of `periodics_reify`. -/
def periodicsDue : Prop := l.periodics.cnt ≠ 0 ∧ l.periodics.rootAt e.heap < l.evRtNow

instance : Decidable (l.periodicsDue e) := inferInstanceAs (Decidable (_ ∧ _))

/-- The body of the inner loop of `periodics_reify`. -/
def periodicsReifyOne : Loop U T K :=
  let w := l.periodics.rootW e.heap
  let l :=
    match l.periodicNext e w with
    | (some t, l) =>
      { l with periodics := ((l.periodics.setAt w t).atCache e.heap.heap0).downheap e.heap e.heap.heap0 }
    | (none, l) => l.evPeriodicStop e w
  l.feedReverse (.periodic w)

/-- At most `n` rounds. -/
def periodicsReifyLoop : ℕ → Loop U T K → Loop U T K
  | 0, l => l
  | n + 1, l => if l.periodicsDue e then periodicsReifyLoop n (l.periodicsReifyOne e) else l

/-- Make periodics pending, in at most `n` rounds: the outer loop runs once, since the inner one has the
same condition. -/
def periodicsReify (n : ℕ) : Loop U T K :=
  if l.periodicsDue e then (periodicsReifyLoop e n l).feedReverseDone evPeriodic else l

end

/-! ### One timer -/

section

variable {e : Env U T} {l : Loop U T K} {w : TimerW U} {t : ℕ}

theorem timers_evTimerStart : (l.evTimerStart e w).timers =
    if l.timers.active w ≠ 0 then l.timers
    else (l.timers.setAt w (l.timers.wAt w + l.mnNow)).start e.heap w := by
  unfold evTimerStart
  split <;> rfl

theorem timers_evTimerStop : (l.evTimerStop e w).timers =
    if l.timers.active w = 0 then l.timers
    else (l.timers.stop e.heap w).setAt w (l.timers.wAt w - l.mnNow) := by
  unfold evTimerStop
  by_cases hw : l.timers.active w = 0
  · rw [if_pos hw, if_pos (by exact hw)]
    rfl
  · rw [if_neg hw, if_neg (by exact hw)]
    rfl

theorem good_evTimerStart (h : l.timers.Good e.heap t) (ht : l.timers.cnt < t) :
    (l.evTimerStart e w).timers.Good e.heap t := by
  rw [timers_evTimerStart]
  split
  · exact h
  · rename_i hw
    have hw' := not_not.mp hw
    exact (h.setAt hw' _).start hw' ht

theorem good_evTimerStop (h : l.timers.Good e.heap t) : (l.evTimerStop e w).timers.Good e.heap t := by
  rw [timers_evTimerStop]
  split
  · exact h
  · rename_i hw
    exact (h.stop hw).setAt (Deadlines.active_stop ..) _

theorem good_evTimerAgain (h : l.timers.Good e.heap t)
    (ht : l.timers.active w = 0 → l.wRepeat w ≠ 0 → l.timers.cnt < t) :
    (l.evTimerAgain e w).timers.Good e.heap t := by
  have h' : (l.clearPending (.timer w)).timers.Good e.heap t := h
  have ht' : (l.clearPending (.timer w)).timers.active w = 0 → (l.clearPending (.timer w)).wRepeat w ≠ 0 →
    (l.clearPending (.timer w)).timers.cnt < t := ht
  unfold evTimerAgain
  generalize l.clearPending (.timer w) = l' at h' ht' ⊢
  dsimp only
  split
  · rename_i hw
    split
    · exact h'.adjust hw _
    · exact good_evTimerStop h'
  · rename_i hw
    have hw' := not_not.mp hw
    split
    · rename_i hr
      exact good_evTimerStart (h'.setAt hw' _) (ht' hw' hr)
    · exact h'

theorem cnt_evTimerStart (hw : l.timers.active w = 0) : (l.evTimerStart e w).timers.cnt = l.timers.cnt + 1 := by
  rw [timers_evTimerStart, if_neg (not_not.mpr hw)]
  rfl

theorem cnt_evTimerAgain (hw : l.timers.active w = 0) (hr : l.wRepeat w ≠ 0) :
    (l.evTimerAgain e w).timers.cnt = l.timers.cnt + 1 := by
  unfold evTimerAgain
  dsimp only
  rw [if_neg (not_not.mpr (by exact hw)), if_pos (by exact hr)]
  exact cnt_evTimerStart hw

theorem good_timersReifyOne (h : l.timers.Good e.heap t) (hd : l.timersDue e) :
    (l.timersReifyOne e).timers.Good e.heap t := by
  unfold timersReifyOne
  dsimp only
  split
  · exact h.sink hd.1 _
  · exact good_evTimerStop h

theorem good_timersReifyLoop (n : ℕ) (h : l.timers.Good e.heap t) :
    (timersReifyLoop e n l).timers.Good e.heap t := by
  induction n generalizing l with
  | zero => exact h
  | succ n ih =>
    unfold timersReifyLoop
    split
    · rename_i hd
      exact ih (good_timersReifyOne h hd)
    · exact h

theorem good_timersReify (h : l.timers.Good e.heap t) : (l.timersReify e).timers.Good e.heap t := by
  unfold timersReify
  split
  · exact good_timersReifyLoop _ h
  · exact h

/-! ### timers_reify comes to its end -/

theorem late_timersReifyOne (h : l.timers.Good e.heap t) (hd : l.timersDue e) :
    ((l.timersReifyOne e).timers.late (l.timersReifyOne e).mnNow).ncard < (l.timers.late l.mnNow).ncard := by
  have hroot := h.root_late hd.1 hd.2
  unfold timersReifyOne
  dsimp only
  split
  · refine h.late_lt hroot (h.late_sink hd.1 ?_)
    split
    · exact le_refl _
    · rename_i hlt
      exact not_lt.mp hlt
  · have hmn : (l.evTimerStop e (l.timers.rootW e.heap)).mnNow = l.mnNow := by
      unfold evTimerStop
      dsimp only
      split <;> rfl
    show ((l.evTimerStop e (l.timers.rootW e.heap)).timers.late
      (l.evTimerStop e (l.timers.rootW e.heap)).mnNow).ncard < _
    rw [hmn, timers_evTimerStop, if_neg hroot.1]
    exact h.late_lt hroot (h.late_stop hroot.1 _)

theorem timersReifyLoop_done (n : ℕ) (h : l.timers.Good e.heap t) (hn : (l.timers.late l.mnNow).ncard ≤ n) :
    ¬ (timersReifyLoop e n l).timersDue e := by
  induction n generalizing l with
  | zero =>
    rintro ⟨hcnt, hdue⟩
    have hmem : l.timers.rootW e.heap ∈ l.timers.late l.mnNow := h.root_late hcnt hdue
    rw [(Set.ncard_eq_zero (h.late_finite _)).mp (Nat.le_zero.mp hn)] at hmem
    exact hmem
  | succ n ih =>
    unfold timersReifyLoop
    split
    · rename_i hd
      have hlt := late_timersReifyOne h hd
      exact ih (good_timersReifyOne h hd) (by omega)
    · rename_i hd
      exact hd

/-- No timer is due after `timers_reify`. -/
theorem timersReify_done (h : l.timers.Good e.heap t) : ¬ (l.timersReify e).timersDue e := by
  unfold timersReify
  split
  · exact timersReifyLoop_done _ h (h.late_ncard _)
  · rename_i hd
    exact hd

/-! ### All timers by an offset -/

theorem timersReschedule_fold (h : l.timers.Good e.heap t) (adjust : T) (n : ℕ) (hn : n ≤ l.timers.cnt)
    (m : Loop U T K) (hm : m = (List.range n).foldl (timersRescheduleOne e adjust) l) :
    m.timers.Linked e.heap (fun w => l.timers.active w ≠ 0) ∧ m.timers.cnt = l.timers.cnt ∧
      m.timers.heap.Inside e.heap t ∧
      ∀ j, m.timers.heap.anheAt j =
        if e.heap.heap0 ≤ j ∧ j < e.heap.heap0 + n then l.timers.heap.anheAt j + adjust
        else l.timers.heap.anheAt j := by
  induction n generalizing m with
  | zero =>
    subst hm
    refine ⟨h.ok.linked, rfl, h.inside, fun j => ?_⟩
    rw [if_neg (by omega)]
  | succ n ih =>
    obtain ⟨hl, hcnt, hin, hat⟩ := ih (by omega) _ rfl
    rw [List.range_succ, List.foldl_append, List.foldl_cons, List.foldl_nil] at hm
    generalize (List.range n).foldl (timersRescheduleOne e adjust) l = m' at hm hl hcnt hin hat
    have hk : e.heap.heap0 ≤ n + e.heap.heap0 := by omega
    have hkn : n + e.heap.heap0 < e.heap.heap0 + m'.timers.cnt := by omega
    have hc := h.cnt
    have hcell := hl.cells _ hk hkn
    rw [hm]
    refine ⟨hl.retime hk hkn _, hcnt, Deadlines.retime_inside hin hk (by omega), fun j => ?_⟩
    refine (congrFun (Deadlines.anheAt_retime m'.timers (n + e.heap.heap0) _) j).trans ?_
    have hself : m'.timers.wAt (m'.timers.heap.cells (n + e.heap.heap0)).anheW =
        l.timers.heap.anheAt (n + e.heap.heap0) := by
      rw [← hcell]
      exact (hat _).trans (if_neg (by omega))
    rw [Function.update_apply, hself]
    by_cases hj : j = n + e.heap.heap0
    · rw [if_pos hj, if_pos (by omega), hj]
    · rw [if_neg hj, hat]
      by_cases hjn : e.heap.heap0 ≤ j ∧ j < e.heap.heap0 + n
      · rw [if_pos hjn, if_pos (by omega)]
      · rw [if_neg hjn, if_neg (by omega)]

theorem good_timersReschedule [AddRightMono T] (h : l.timers.Good e.heap t) (adjust : T) :
    (l.timersReschedule e adjust).timers.Good e.heap t := by
  obtain ⟨hl, hcnt, hin, hat⟩ := timersReschedule_fold h adjust l.timers.cnt (le_refl _) _ rfl
  have hord : Lib.Ordered e.heap.tree (l.timersReschedule e adjust).timers.heap.anheAt l.timers.cnt := by
    intro j hr hj
    have hp := e.heap.heap0_le_hparent j hr
    have hpj := e.heap.hparent_lt j hr
    rw [show (l.timersReschedule e adjust).timers.heap.anheAt j = _ from hat j,
      show (l.timersReschedule e adjust).timers.heap.anheAt (e.heap.tree.parent j) = _ from hat _,
      if_pos ⟨hp, hpj.trans hj⟩, if_pos ⟨hr.le, hj⟩]
    exact add_le_add_left (h.ok.order j hr hj) adjust
  have hok : (l.timersReschedule e adjust).timers.Ok e.heap (fun w => l.timers.active w ≠ 0) :=
    ⟨hl, by rw [show (l.timersReschedule e adjust).timers.cnt = l.timers.cnt from hcnt]; exact hord⟩
  exact ⟨hok.self, hin, hcnt.trans_le h.cnt⟩

/-! ### One periodic -/

variable {u : U} {k : TimerfdCreate T}

/-- A periodic that has a next time may have been asked; one that has none has not. -/
theorem periodicNext_cases (e : Env U T) (l : Loop U T K) (u : U) :
    (∃ x n, l.periodicNext e u = (some x, { l with rescheduleCnt := n })) ∨ l.periodicNext e u = (none, l) := by
  unfold periodicNext
  split
  · exact .inl ⟨_, _, rfl⟩
  · split
    · exact .inl ⟨_, l.rescheduleCnt, rfl⟩
    · exact .inr rfl

theorem periodicsRescheduleOne_eq (e : Env U T) (l : Loop U T K) (i : ℕ) :
    ∃ x n, periodicsRescheduleOne e l i =
      { l with periodics := l.periodics.retime (i + e.heap.heap0) x, rescheduleCnt := n } := by
  unfold periodicsRescheduleOne
  rcases periodicNext_cases e l (l.periodics.heap.cells (i + e.heap.heap0)).anheW with ⟨x, n, h⟩ | h
  · exact ⟨x, n, by simp only [h]; rfl⟩
  · refine ⟨l.periodics.wAt (l.periodics.heap.cells (i + e.heap.heap0)).anheW, l.rescheduleCnt, ?_⟩
    simp only [h, Deadlines.retime, Deadlines.setAt, Function.update_eq_self]

/-- `periodics_reschedule` touches the periodics only. -/
theorem periodicsReschedule_touches (e : Env U T) (l : Loop U T K) :
    ∃ p n, l.periodicsReschedule e = { l with periodics := p, rescheduleCnt := n } := by
  have hfold : ∀ (is : List ℕ) (l : Loop U T K), ∃ p n,
      is.foldl (periodicsRescheduleOne e) l = { l with periodics := p, rescheduleCnt := n } := by
    intro is
    induction is with
    | nil => exact fun l => ⟨l.periodics, l.rescheduleCnt, rfl⟩
    | cons i is ih =>
      intro l
      obtain ⟨x, n, h₁⟩ := periodicsRescheduleOne_eq e l i
      obtain ⟨p', n', h₂⟩ := ih { l with periodics := l.periodics.retime (i + e.heap.heap0) x, rescheduleCnt := n }
      refine ⟨p', n', ?_⟩
      rw [List.foldl_cons, h₁, h₂]
  obtain ⟨p, n, h⟩ := hfold (List.range l.periodics.cnt) l
  refine ⟨p.reheap e.heap, n, ?_⟩
  unfold periodicsReschedule
  rw [h]

/-- The loop of `periodics_reschedule` keeps the links, in whatever order. -/
theorem periodicsReschedule_fold (h : l.periodics.Good e.heap t) (n : ℕ) (hn : n ≤ l.periodics.cnt) :
    ∃ p c, (List.range n).foldl (periodicsRescheduleOne e) l = { l with periodics := p, rescheduleCnt := c } ∧
      p.Linked e.heap (fun w => l.periodics.active w ≠ 0) ∧ p.cnt = l.periodics.cnt ∧ p.heap.Inside e.heap t := by
  induction n with
  | zero => exact ⟨l.periodics, l.rescheduleCnt, rfl, h.ok.linked, rfl, h.inside⟩
  | succ n ih =>
    obtain ⟨p, c, heq, hl, hcnt, hin⟩ := ih (by omega)
    have hk : e.heap.heap0 ≤ n + e.heap.heap0 := by omega
    have hkn : n + e.heap.heap0 < e.heap.heap0 + p.cnt := by omega
    have hc := h.cnt
    rw [List.range_succ, List.foldl_append, List.foldl_cons, List.foldl_nil, heq]
    obtain ⟨x, c', hx⟩ := periodicsRescheduleOne_eq e { l with periodics := p, rescheduleCnt := c } n
    exact ⟨_, c', hx, hl.retime hk hkn x, hcnt, Deadlines.retime_inside hin hk (by omega)⟩

theorem periodicsReschedule_eq (h : l.periodics.Good e.heap t) :
    ∃ p c, l.periodicsReschedule e = { l with periodics := p, rescheduleCnt := c } ∧ p.Good e.heap t ∧
      p.cnt = l.periodics.cnt ∧ ∀ w, p.active w ≠ 0 ↔ l.periodics.active w ≠ 0 := by
  obtain ⟨p, c, heq, hl, hcnt, hin⟩ := periodicsReschedule_fold h l.periodics.cnt (le_refl _)
  have hok := hl.reheap
  have ht := hcnt.trans_le h.cnt
  refine ⟨p.reheap e.heap, c, ?_, ⟨hok.self, Deadlines.reheap_inside hin ht, ht⟩, hcnt, hok.active_iff⟩
  unfold periodicsReschedule
  rw [heq]

/-- A loop whose periodics are as in `l`, or the same ones with other times, with the timers of `l`. -/
def Periodics (e : Env U T) (t : ℕ) (l m : Loop U T K) : Prop :=
  m.periodics.Good e.heap t ∧ m.periodics.cnt = l.periodics.cnt ∧ m.timers = l.timers ∧
    ∀ w, m.periodics.active w ≠ 0 ↔ l.periodics.active w ≠ 0

theorem timers_evIoStart (l : Loop U T K) (w : IoW U) :
    (l.evIoStart w).timers = l.timers ∧ (l.evIoStart w).periodics = l.periodics := by
  unfold evIoStart
  split <;> exact ⟨rfl, rfl⟩

theorem periodics_timerfdcb (h : l.periodics.Good e.heap t) (k : TimerfdCreate T) :
    Periodics e t l (l.timerfdcb e k) := by
  unfold timerfdcb
  dsimp only
  split
  · obtain ⟨p, c, heq, hg, hcnt, hact⟩ := periodicsReschedule_eq (l := { l with evRtNow := k.now }) h
    rw [heq]
    exact ⟨hg, hcnt, rfl, hact⟩
  · exact ⟨h, rfl, rfl, fun _ => Iff.rfl⟩

theorem periodics_evtimerfdInit (h : l.periodics.Good e.heap t) (k : TimerfdCreate T) :
    Periodics e t l (l.evtimerfdInit e k) := by
  unfold evtimerfdInit
  split
  · exact ⟨h, rfl, rfl, fun _ => Iff.rfl⟩
  · dsimp only
    split
    · generalize hm : ((({ l with timerfd := k.fd }.evIoInit .timerfdW k.fd.toNat evRead).evSetPriority
        (.io .timerfdW) minpri).evIoStart .timerfdW).evUnref = m
      have hp : m.periodics = l.periodics := by
        rw [← hm]
        exact (timers_evIoStart ..).2
      have ht : m.timers = l.timers := by
        rw [← hm]
        exact (timers_evIoStart ..).1
      obtain ⟨h₁, h₂, h₃, h₄⟩ := periodics_timerfdcb (l := m) (hp ▸ h) k
      exact ⟨h₁, by rw [h₂, hp], by rw [h₃, ht], fun w => by rw [h₄, hp]⟩
    · exact ⟨h, rfl, rfl, fun _ => Iff.rfl⟩

theorem periodics_evPeriodicStop : (l.evPeriodicStop e u).periodics =
    if l.periodics.active u = 0 then l.periodics else l.periodics.stop e.heap u := by
  unfold evPeriodicStop
  by_cases hw : l.periodics.active u = 0
  · rw [if_pos hw, if_pos (by exact hw)]
    rfl
  · rw [if_neg hw, if_neg (by exact hw)]
    rfl

theorem timers_evPeriodicStop : (l.evPeriodicStop e u).timers = l.timers ∧
    (l.evPeriodicStop e u).evRtNow = l.evRtNow := by
  unfold evPeriodicStop
  dsimp only
  split <;> exact ⟨rfl, rfl⟩

theorem good_evPeriodicStop (h : l.periodics.Good e.heap t) : (l.evPeriodicStop e u).periodics.Good e.heap t := by
  rw [periodics_evPeriodicStop]
  split
  · exact h
  · rename_i hw
    exact h.stop hw

theorem good_evPeriodicStart (h : l.periodics.Good e.heap t)
    (ht : l.periodics.active u = 0 → l.periodics.cnt < t) :
    (l.evPeriodicStart e k u).periodics.Good e.heap t ∧ (l.evPeriodicStart e k u).timers = l.timers ∧
      (l.periodics.active u = 0 → (l.evPeriodicStart e k u).periodics.cnt = l.periodics.cnt + 1) := by
  unfold evPeriodicStart
  split
  · rename_i hw
    exact ⟨h, rfl, fun hw' => absurd hw' hw⟩
  · rename_i hw
    have hw' := not_not.mp hw
    obtain ⟨m, hm⟩ : ∃ m, m = if l.timerfd = -2 then l.evtimerfdInit e k else l := ⟨_, rfl⟩
    have hper : Periodics e t l m := by
      rw [hm]
      split
      · exact periodics_evtimerfdInit h k
      · exact ⟨h, rfl, rfl, fun _ => Iff.rfl⟩
    obtain ⟨hg, hcnt, htim, hact⟩ := hper
    have hmw : m.periodics.active u = 0 := by
      by_contra hne
      exact hw ((hact u).mp hne)
    have hlt : m.periodics.cnt < t := hcnt ▸ ht hw'
    rw [← hm]
    rcases periodicNext_cases e m u with ⟨x, n, hn⟩ | hn
    · simp only [hn]
      exact ⟨(hg.setAt hmw x).start hmw hlt, htim, fun _ => congrArg (· + 1) hcnt⟩
    · simp only [hn]
      exact ⟨(hg.setAt hmw _).start hmw hlt, htim, fun _ => congrArg (· + 1) hcnt⟩

theorem good_evPeriodicAgain (h : l.periodics.Good e.heap t)
    (ht : l.periodics.active u = 0 → l.periodics.cnt < t) :
    (l.evPeriodicAgain e k u).periodics.Good e.heap t ∧ (l.evPeriodicAgain e k u).timers = l.timers ∧
      (l.periodics.active u = 0 → (l.evPeriodicAgain e k u).periodics.cnt = l.periodics.cnt + 1) := by
  unfold evPeriodicAgain
  obtain ⟨h₁, h₂, h₃⟩ := good_evPeriodicStart (k := k) (u := u) (good_evPeriodicStop (u := u) h) fun _ => by
    rw [periodics_evPeriodicStop]
    split
    · rename_i hw
      exact ht hw
    · rename_i hw
      have hpl := (h.ok.linked.place hw)
      have hc := h.cnt
      show l.periodics.cnt - 1 < t
      omega
  refine ⟨h₁, h₂.trans timers_evPeriodicStop.1, fun hw => ?_⟩
  have hs : (l.evPeriodicStop e u).periodics = l.periodics := by rw [periodics_evPeriodicStop, if_pos hw]
  rw [h₃ (by rw [hs]; exact hw), hs]

theorem good_periodicsReifyOne (h : l.periodics.Good e.heap t) (hd : l.periodicsDue e) :
    (l.periodicsReifyOne e).periodics.Good e.heap t ∧ (l.periodicsReifyOne e).timers = l.timers := by
  unfold periodicsReifyOne
  rcases periodicNext_cases e l (l.periodics.rootW e.heap) with ⟨x, n, hn⟩ | hn
  · simp only [hn]
    exact ⟨h.sink hd.1 x, rfl⟩
  · simp only [hn]
    exact ⟨good_evPeriodicStop h, timers_evPeriodicStop.1⟩

theorem good_periodicsReifyLoop (n : ℕ) (h : l.periodics.Good e.heap t) :
    (periodicsReifyLoop e n l).periodics.Good e.heap t ∧ (periodicsReifyLoop e n l).timers = l.timers := by
  induction n generalizing l with
  | zero => exact ⟨h, rfl⟩
  | succ n ih =>
    unfold periodicsReifyLoop
    split
    · rename_i hd
      obtain ⟨h₁, h₂⟩ := good_periodicsReifyOne h hd
      obtain ⟨h₃, h₄⟩ := ih h₁
      exact ⟨h₃, h₄.trans h₂⟩
    · exact ⟨h, rfl⟩

theorem good_periodicsReify (n : ℕ) (h : l.periodics.Good e.heap t) :
    (l.periodicsReify e n).periodics.Good e.heap t ∧ (l.periodicsReify e n).timers = l.timers := by
  unfold periodicsReify
  split
  · exact good_periodicsReifyLoop n h
  · exact ⟨h, rfl⟩

/-- With rescheduling that does not answer with the past, no periodic is due after as many rounds as there
are periodics. -/
theorem periodicsReify_done (hnext : ∀ (l : Loop U T K) u x l', l.periodicNext e u = (some x, l') → l.evRtNow ≤ x)
    (h : l.periodics.Good e.heap t) : ¬ (l.periodicsReify e l.periodics.cnt).periodicsDue e := by
  have hloop : ∀ (n : ℕ) (l : Loop U T K), l.periodics.Good e.heap t →
      (l.periodics.late l.evRtNow).ncard ≤ n → ¬ (periodicsReifyLoop e n l).periodicsDue e := by
    intro n
    induction n with
    | zero =>
      rintro l h hn ⟨hcnt, hdue⟩
      have hmem : l.periodics.rootW e.heap ∈ l.periodics.late l.evRtNow := h.root_late hcnt hdue
      rw [(Set.ncard_eq_zero (h.late_finite _)).mp (Nat.le_zero.mp hn)] at hmem
      exact hmem
    | succ n ih =>
      intro l h hn
      unfold periodicsReifyLoop
      split
      · rename_i hd
        have hroot := h.root_late hd.1 hd.2
        refine ih _ (good_periodicsReifyOne h hd).1 ?_
        have hlt : ((l.periodicsReifyOne e).periodics.late (l.periodicsReifyOne e).evRtNow).ncard <
            (l.periodics.late l.evRtNow).ncard := by
          unfold periodicsReifyOne
          rcases periodicNext_cases e l (l.periodics.rootW e.heap) with ⟨x, c, hx⟩ | hx
          · have hle : l.evRtNow ≤ x := hnext l _ _ _ hx
            simp only [hx]
            exact h.late_lt hroot (h.late_sink hd.1 hle)
          · simp only [hx]
            show ((l.evPeriodicStop e (l.periodics.rootW e.heap)).periodics.late
              (l.evPeriodicStop e (l.periodics.rootW e.heap)).evRtNow).ncard < _
            rw [timers_evPeriodicStop.2, periodics_evPeriodicStop, if_neg hroot.1]
            refine h.late_lt hroot ?_
            obtain ⟨r, hr⟩ : ∃ r, r = l.periodics.rootW e.heap := ⟨_, rfl⟩
            have hs : ((l.periodics.stop e.heap r).setAt r ((l.periodics.stop e.heap r).wAt r)).late l.evRtNow ⊆
                l.periodics.late l.evRtNow \ {r} := h.late_stop (hr ▸ hroot.1) _
            rw [← hr]
            rwa [Deadlines.setAt, Function.update_eq_self] at hs
        omega
      · rename_i hd
        exact hd
  unfold periodicsReify
  split
  · exact hloop _ l h (h.late_ncard _)
  · rename_i hd
    exact hd

end

/-! ### Runs -/

/-- What a run does to the timers and periodics. -/
inductive TimeAct (U T : Type)
  | clock (mn rt : T)
  | timerSet (w : TimerW U) (after repeat' : T)
  | timerRepeat (w : TimerW U) (repeat' : T)
  | timerStart (w : TimerW U)
  | timerStop (w : TimerW U)
  | timerAgain (w : TimerW U)
  | timersReify
  | timersReschedule (adjust : T)
  | periodicSet (w : U) (offset interval : T) (rescheduleCb : Bool)
  | periodicStart (k : TimerfdCreate T) (w : U)
  | periodicStop (w : U)
  | periodicAgain (k : TimerfdCreate T) (w : U)
  | periodicsReify (rounds : ℕ)
  | periodicsReschedule

/-- The heaps' history starts anew. -/
def untouched (l : Loop U T K) : Loop U T K :=
  { l with timers := { l.timers with heap := { l.timers.heap with touched := [] } }
           periodics := { l.periodics with heap := { l.periodics.heap with touched := [] } } }

/-- One action. A timer is set only while it is inactive. -/
def timeCall (e : Env U T) (l : Loop U T K) : TimeAct U T → Option (Loop U T K)
  | .clock mn rt => some { l with mnNow := mn, evRtNow := rt }
  | .timerSet w after repeat' => if l.timers.active w ≠ 0 then none else some (l.evTimerSet w after repeat')
  | .timerRepeat w repeat' => some { l with wRepeat := Function.update l.wRepeat w repeat' }
  | .timerStart w => some (l.evTimerStart e w)
  | .timerStop w => some (l.evTimerStop e w)
  | .timerAgain w => some (l.evTimerAgain e w)
  | .timersReify => some (l.timersReify e)
  | .timersReschedule adjust => some (l.timersReschedule e adjust)
  | .periodicSet w offset interval rescheduleCb => some (l.evPeriodicSet w offset interval rescheduleCb)
  | .periodicStart k w => some (l.evPeriodicStart e k w)
  | .periodicStop w => some (l.evPeriodicStop e w)
  | .periodicAgain k w => some (l.evPeriodicAgain e k w)
  | .periodicsReify rounds => some (l.periodicsReify e rounds)
  | .periodicsReschedule => some (l.periodicsReschedule e)

def timeStep (e : Env U T) (l : Loop U T K) (a : TimeAct U T) : Option (Loop U T K) := timeCall e l.untouched a

abbrev TimeRuns (e : Env U T) (l : Loop U T K) (acts : List (TimeAct U T)) (m : Loop U T K) : Prop :=
  Lib.Run (fun l a m => timeStep e l a = some m) l acts m

/-- No timers and no periodics. -/
structure NoTimers (l : Loop U T K) : Prop where
  timers : l.timers.cnt = 0 ∧ ∀ w, l.timers.active w = 0
  periodics : l.periodics.cnt = 0 ∧ ∀ w, l.periodics.active w = 0

/-- Both heaps are well formed. -/
def HeapsOk (e : Env U T) (l : Loop U T K) : Prop :=
  l.timers.Ok e.heap (fun w => l.timers.active w ≠ 0) ∧ l.periodics.Ok e.heap fun w => l.periodics.active w ≠ 0

/-- Both heaps are well formed, with nothing touched outside the first `t` and `p` entries. -/
def HeapsGood (e : Env U T) (t p : ℕ) (l : Loop U T K) : Prop :=
  l.timers.Good e.heap t ∧ l.periodics.Good e.heap p

section

variable {e : Env U T} {l m : Loop U T K} {a : TimeAct U T} {t p : ℕ}

theorem HeapsOk.untouched (h : HeapsOk e l) : HeapsGood e l.timers.cnt l.periodics.cnt l.untouched :=
  ⟨⟨⟨⟨h.1.linked.links, h.1.linked.cells, h.1.linked.act⟩, h.1.order⟩, fun _ hi => (by cases hi), le_refl _⟩,
    ⟨⟨⟨h.2.linked.links, h.2.linked.cells, h.2.linked.act⟩, h.2.order⟩, fun _ hi => (by cases hi), le_refl _⟩⟩

theorem HeapsGood.ok (h : HeapsGood e t p l) : HeapsOk e l := ⟨h.1.ok, h.2.ok⟩

theorem Good.mono {W : Type} [DecidableEq W] {d : Deadlines W T} {b : Dheap} {n n' : ℕ} (h : d.Good b n)
    (hn : n ≤ n') : d.Good b n' :=
  ⟨h.ok, fun i hi => ⟨(h.inside i hi).1, (h.inside i hi).2.trans_le (Nat.add_le_add_left hn _)⟩, h.cnt.trans hn⟩

theorem HeapsGood.mono {t' p' : ℕ} (h : HeapsGood e t p l) (ht : t ≤ t') (hp : p ≤ p') : HeapsGood e t' p' l :=
  ⟨Good.mono h.1 ht, Good.mono h.2 hp⟩

theorem heapsGood_timerStart {w : TimerW U} (h : HeapsGood e l.timers.cnt l.periodics.cnt l) :
    HeapsGood e (max l.timers.cnt (l.evTimerStart e w).timers.cnt) l.periodics.cnt (l.evTimerStart e w) := by
  have hp : (l.evTimerStart e w).periodics = l.periodics := by
    unfold evTimerStart
    split <;> rfl
  refine ⟨?_, hp ▸ h.2⟩
  by_cases hw : l.timers.active w = 0
  · rw [cnt_evTimerStart hw]
    exact good_evTimerStart (Good.mono h.1 (le_max_left _ _)) (by omega)
  · rw [evTimerStart, if_pos hw]
    exact Good.mono h.1 (le_max_left _ _)

theorem periodics_evTimerStop {w : TimerW U} : (l.evTimerStop e w).periodics = l.periodics := by
  unfold evTimerStop
  dsimp only
  split <;> rfl

theorem periodics_evTimerAgain {w : TimerW U} : (l.evTimerAgain e w).periodics = l.periodics := by
  unfold evTimerAgain evTimerStart
  dsimp only
  split
  · split
    · rfl
    · exact periodics_evTimerStop
  · split
    · split <;> rfl
    · rfl

theorem heapsGood_timerAgain {w : TimerW U} (h : HeapsGood e l.timers.cnt l.periodics.cnt l) :
    HeapsGood e (max l.timers.cnt (l.evTimerAgain e w).timers.cnt) l.periodics.cnt (l.evTimerAgain e w) := by
  constructor
  · refine good_evTimerAgain (Good.mono h.1 (le_max_left _ _)) fun hw hr => ?_
    rw [cnt_evTimerAgain hw hr]
    omega
  · rw [periodics_evTimerAgain]
    exact h.2

theorem periodics_timersReify : (l.timersReify e).periodics = l.periodics := by
  have hone : ∀ l : Loop U T K, (l.timersReifyOne e).periodics = l.periodics := by
    intro l
    unfold timersReifyOne
    dsimp only
    split
    · rfl
    · exact periodics_evTimerStop
  have hloop : ∀ n (l : Loop U T K), (timersReifyLoop e n l).periodics = l.periodics := by
    intro n
    induction n with
    | zero => exact fun _ => rfl
    | succ n ih =>
      intro l
      unfold timersReifyLoop
      split
      · exact (ih _).trans (hone l)
      · rfl
  unfold timersReify
  split
  · exact hloop _ l
  · rfl

theorem periodics_timersReschedule (adjust : T) : (l.timersReschedule e adjust).periodics = l.periodics := by
  unfold timersReschedule
  generalize List.range l.timers.cnt = r
  induction r generalizing l with
  | nil => rfl
  | cons i r ih => exact ih.trans rfl

/-- No action breaks a heap, or looks beyond the entries there were before and are after. -/
theorem heapsGood_timeCall [AddRightMono T] (h : HeapsGood e l.timers.cnt l.periodics.cnt l)
    (hs : timeCall e l a = some m) :
    HeapsGood e (max l.timers.cnt m.timers.cnt) (max l.periodics.cnt m.periodics.cnt) m := by
  have hmt := le_max_left l.timers.cnt m.timers.cnt
  have hmp := le_max_left l.periodics.cnt m.periodics.cnt
  have hmax := h.mono hmt hmp
  cases a with
  | clock mn rt =>
    cases hs
    exact hmax
  | timerSet w after repeat' =>
    simp only [timeCall] at hs
    split at hs
    · cases hs
    · rename_i hw
      cases hs
      exact ⟨hmax.1.setAt (not_not.mp hw) after, hmax.2⟩
  | timerRepeat w repeat' =>
    cases hs
    exact hmax
  | timerStart w =>
    cases hs
    exact (heapsGood_timerStart h).mono (le_refl _) hmp
  | timerStop w =>
    cases hs
    refine ⟨good_evTimerStop hmax.1, ?_⟩
    rw [periodics_evTimerStop]
    exact Good.mono h.2 (le_max_left _ _)
  | timerAgain w =>
    cases hs
    exact (heapsGood_timerAgain h).mono (le_refl _) hmp
  | timersReify =>
    cases hs
    refine ⟨good_timersReify hmax.1, ?_⟩
    rw [periodics_timersReify]
    exact Good.mono h.2 (le_max_left _ _)
  | timersReschedule adjust =>
    cases hs
    refine ⟨good_timersReschedule hmax.1 adjust, ?_⟩
    rw [periodics_timersReschedule]
    exact Good.mono h.2 (le_max_left _ _)
  | periodicSet w offset interval rescheduleCb =>
    cases hs
    exact hmax
  | periodicStart k w =>
    cases hs
    obtain ⟨-, -, hcnt⟩ := good_evPeriodicStart (k := k) (u := w) (Good.mono h.2 (Nat.le_succ _))
      fun _ => Nat.lt_succ_self _
    obtain ⟨hg, ht, -⟩ := good_evPeriodicStart (k := k) (u := w) hmax.2 fun hw => by
      rw [hcnt hw]
      omega
    exact ⟨ht ▸ hmax.1, hg⟩
  | periodicStop w =>
    cases hs
    refine ⟨?_, good_evPeriodicStop hmax.2⟩
    rw [timers_evPeriodicStop.1]
    exact Good.mono h.1 (le_max_left _ _)
  | periodicAgain k w =>
    cases hs
    obtain ⟨-, -, hcnt⟩ := good_evPeriodicAgain (k := k) (u := w) (Good.mono h.2 (Nat.le_succ _))
      fun _ => Nat.lt_succ_self _
    obtain ⟨hg, ht, -⟩ := good_evPeriodicAgain (k := k) (u := w) hmax.2 fun hw => by
      rw [hcnt hw]
      omega
    exact ⟨ht ▸ hmax.1, hg⟩
  | periodicsReify rounds =>
    cases hs
    obtain ⟨hg, ht⟩ := good_periodicsReify rounds hmax.2
    exact ⟨ht ▸ hmax.1, hg⟩
  | periodicsReschedule =>
    cases hs
    obtain ⟨p, c, heq, hg, -, -⟩ := periodicsReschedule_eq h.2
    rw [heq]
    exact HeapsGood.mono (t := l.timers.cnt) (p := l.periodics.cnt) ⟨h.1, hg⟩ (le_max_left _ _) (le_max_left _ _)

theorem heapsOk_run [AddRightMono T] {acts : List (TimeAct U T)} (hrun : TimeRuns e l acts m) (h : HeapsOk e l) :
    HeapsOk e m :=
  Lib.Run.invariant (fun _ _ _ h hs => (heapsGood_timeCall h.untouched hs).ok) hrun h

theorem heapsOk_noTimers (h : NoTimers l) : HeapsOk e l := by
  refine ⟨⟨⟨⟨fun j hj hjn => ?_, fun w _ hp => absurd (h.timers.2 w) hp⟩, fun j hj hjn => ?_, fun _ => Iff.rfl⟩,
      fun j hr hj => ?_⟩,
    ⟨⟨⟨fun j hj hjn => ?_, fun w _ hp => absurd (h.periodics.2 w) hp⟩, fun j hj hjn => ?_, fun _ => Iff.rfl⟩,
      fun j hr hj => ?_⟩⟩
  all_goals first
    | rw [h.timers.1] at hjn
      omega
    | rw [h.periodics.1] at hjn
      omega
    | rw [h.timers.1] at hj
      exact absurd hj (not_lt.mpr hr.le)
    | rw [h.periodics.1] at hj
      exact absurd hj (not_lt.mpr hr.le)

/-- What the entries and the watchers have to do with each other, spelled out. -/
structure Sound {W : Type} (b : Dheap) (d : Deadlines W T) : Prop where
  entry : ∀ k, b.heap0 ≤ k → k < b.heap0 + d.cnt →
    d.active (d.heap.cells k).anheW = k ∧ d.heap.anheAt k = d.wAt (d.heap.cells k).anheW
  watcher : ∀ w, d.active w ≠ 0 →
    b.heap0 ≤ d.active w ∧ d.active w < b.heap0 + d.cnt ∧ (d.heap.cells (d.active w)).anheW = w
  parent : ∀ k, b.heap0 < k → k < b.heap0 + d.cnt → d.heap.anheAt (b.hparent k) ≤ d.heap.anheAt k
  root : ∀ w, d.active w ≠ 0 → d.rootAt b ≤ d.wAt w

theorem sound_of_ok {W : Type} [DecidableEq W] {b : Dheap} {d : Deadlines W T}
    (h : d.Ok b fun w => d.active w ≠ 0) : Sound b d :=
  ⟨fun k hk hkn => ⟨(h.linked.links.back k hk hkn).1, h.linked.cells k hk hkn⟩, fun _ hw => h.linked.place hw,
    fun k hk hkn => h.order k hk hkn, fun _ hw => h.root_le hw⟩

/-- In every state reached both heaps are sound, and the next action touches no index outside the entries
there are before or after it. -/
theorem heap_invariant [AddRightMono T] {l₀ : Loop U T K} {acts : List (TimeAct U T)} (h₀ : NoTimers l₀)
    (hrun : TimeRuns e l₀ acts l) :
    (Sound e.heap l.timers ∧ Sound e.heap l.periodics) ∧
    ∀ a m, timeStep e l a = some m →
      (∀ i ∈ m.timers.heap.touched, e.heap.heap0 ≤ i ∧ i < e.heap.heap0 + max l.timers.cnt m.timers.cnt) ∧
      ∀ i ∈ m.periodics.heap.touched,
        e.heap.heap0 ≤ i ∧ i < e.heap.heap0 + max l.periodics.cnt m.periodics.cnt := by
  have h := heapsOk_run hrun (heapsOk_noTimers h₀)
  refine ⟨⟨sound_of_ok h.1, sound_of_ok h.2⟩, fun a m hs => ?_⟩
  have hg := heapsGood_timeCall h.untouched hs
  exact ⟨hg.1.inside, hg.2.inside⟩

end

/-- Two timers in a 4-heap, the second due first. -/
theorem heap_invariant_two : ∃ (e : Env Bool ℤ) (l₀ l m : Loop Bool ℤ Unit), NoTimers l₀ ∧
    TimeRuns e l₀ [.timerSet (.user false) 5 0, .timerStart (.user false), .timerSet (.user true) 2 0,
      .timerStart (.user true)] l ∧ timeStep e l (.timerStop (.user true)) = some m ∧
    l.timers.rootAt e.heap ≤ l.timers.wAt (.user false) ∧
    ∀ i ∈ m.timers.heap.touched, e.heap.heap0 ≤ i ∧ i < e.heap.heap0 + max l.timers.cnt m.timers.cnt := by
  have hr : ∃ (e : Env Bool ℤ) (l₀ l m : Loop Bool ℤ Unit), NoTimers l₀ ∧
      TimeRuns e l₀ [.timerSet (.user false) 5 0, .timerStart (.user false), .timerSet (.user true) 2 0,
        .timerStart (.user true)] l ∧ timeStep e l (.timerStop (.user true)) = some m ∧
      l.timers.active (.user false) ≠ 0 := by
    have hx : ((Lib.execFrom (timeStep ⟨.four, fun _ _ _ => 0, fun _ _ _ => 0⟩)
        (Loop.init .select true false true ()) [.timerSet (.user false) 5 0, .timerStart (.user false),
          .timerSet (.user true) 2 0, .timerStart (.user true)]).bind fun l : Loop Bool ℤ Unit =>
        (timeStep ⟨.four, fun _ _ _ => 0, fun _ _ _ => 0⟩ l (.timerStop (.user true))).map
          fun _ => l.timers.active (.user false)) = some 4 := by
      decide +kernel
    obtain ⟨l, hrun, hx⟩ := Option.bind_eq_some_iff.mp hx
    obtain ⟨m, hs, hact⟩ := Option.map_eq_some_iff.mp hx
    exact ⟨_, _, l, m, ⟨⟨rfl, fun _ => rfl⟩, rfl, fun _ => rfl⟩, Lib.Run.iff_execFrom.mpr hrun, hs,
      by rw [hact]; decide⟩
  obtain ⟨e, l₀, l, m, h₀, hrun, hs, hact⟩ := hr
  obtain ⟨⟨ht, -⟩, htouch⟩ := heap_invariant h₀ hrun
  exact ⟨e, l₀, l, m, h₀, hrun, hs, ht.root _ hact, (htouch _ m hs).1⟩

end Loop

end Qev
