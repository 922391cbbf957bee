/-
# The periodics, at their times and after a jump

`periodics_reify` makes the periodics that are due pending, and gives those with a next time
that time: the point of their grid after now (`periodic_recalc`), or what their callback
answers. `periodics_reschedule` gives every periodic its next time, wherever the wall clock has
gone, and puts the heap in order from any order.

In exact arithmetic the next time is after now by an interval at most (`periodics_expire`). In
doubles an interval can be lost beside now, and `periodic_recalc` then answers now itself
(`periodics_expire_lost`).
-/
import Qev.Loop.Recalc

namespace Qev

open Lib

section

variable {T : Type} [LinearOrder T] [Zero T] [One T] [NatCast T] [Neg T] [Add T] [Sub T] [Mul T] [Div T] [ToULong T]

/-- The build's `periodic_recalc` is what the source computes, wherever that comes to an end. -/
def Env.Recalculates {U : Type} (e : Env U T) (c : Target) : Prop :=
  ∀ offset interval now at', 0 < interval →
    (∃ n, ∀ m, n ≤ m → Qev.periodicRecalc c m offset interval now = some at') →
      e.periodicRecalc offset interval now = at'

/-- There is such a function. -/
theorem exists_recalculates (c : Target) : ∃ recalc : T → T → T → T, ∀ {U : Type} (e : Env U T),
    e.periodicRecalc = recalc → e.Recalculates c := by
  have hone : ∀ offset interval now : T, ∃ x, ∀ at',
      (∃ n, ∀ m, n ≤ m → Qev.periodicRecalc c m offset interval now = some at') → x = at' := by
    intro offset interval now
    by_cases hends : ∃ x, ∃ n, ∀ m, n ≤ m → Qev.periodicRecalc c m offset interval now = some x
    · obtain ⟨x, n, hx⟩ := hends
      refine ⟨x, fun y hy => ?_⟩
      obtain ⟨n', hy⟩ := hy
      exact Option.some.inj ((hx (max n n') (le_max_left _ _)).symm.trans (hy (max n n') (le_max_right _ _)))
    · exact ⟨now, fun y hy => absurd ⟨y, hy⟩ hends⟩
  choose recalc hrecalc using hone
  exact ⟨recalc, fun e he offset interval now at' _ hat => by rw [he]; exact hrecalc offset interval now at' hat⟩

end

section

variable {T : Type} [Field T] [LinearOrder T] [IsStrictOrderedRing T] [FloorRing T] {interval : T}

theorem Env.Recalculates.next {U : Type} {e : Env U T} {c : Target} (he : e.Recalculates c) (offset now : T)
    (hi : 0 < interval) :
    now < e.periodicRecalc offset interval now ∧ e.periodicRecalc offset interval now ≤ now + interval := by
  rw [he offset interval now _ hi (periodicRecalc_eq c offset now hi)]
  exact pointAfter_bounds hi

end

namespace Loop

variable {U T K : Type} [DecidableEq U]

/-! ### Every periodic asked -/

section

variable [LinearOrder T] [Add T] [Sub T] [Zero T] {e : Env U T} {l : Loop U T K} {t : ℕ}

section

omit [Add T] [Sub T]

/-- As `periodicsRescheduleOne_eq`: the time is the periodic's next one, or the one it has. -/
theorem periodicsRescheduleOne_at (e : Env U T) (l : Loop U T K) (i : ℕ) :
    ∃ n, periodicsRescheduleOne e l i =
      { l with
        periodics := l.periodics.retime (i + e.heap.heap0)
          ((l.periodicAt e l.rescheduleCnt (l.periodics.heap.cells (i + e.heap.heap0)).anheW).getD
            (l.periodics.wAt (l.periodics.heap.cells (i + e.heap.heap0)).anheW))
        rescheduleCnt := n } := by
  unfold periodicsRescheduleOne
  rcases periodicNext_eq e l (l.periodics.heap.cells (i + e.heap.heap0)).anheW with
    ⟨x, n, h, hat, -⟩ | ⟨h, hat, -⟩
  · refine ⟨n, ?_⟩
    simp only [h, hat, Option.getD_some]
    rfl
  · refine ⟨l.rescheduleCnt, ?_⟩
    simp only [h, hat, Option.getD_none, Deadlines.retime, Deadlines.setAt, Function.update_eq_self]

/-- `periodics_reschedule` gives every active periodic its next time, if it has one, and keeps the heap. -/
theorem periodicsReschedule_next (h : l.periodics.Good e.heap t) :
    ∃ d c, l.periodicsReschedule e = { l with periodics := d, rescheduleCnt := c } ∧
      d.Ok e.heap (fun u => l.periodics.active u ≠ 0) ∧
      ∀ u, l.periodics.active u ≠ 0 → ∃ k, d.wAt u = (l.periodicAt e k u).getD (l.periodics.wAt u) := by
  let next u at' x := ∃ k, x = (l.periodicAt e k u).getD at'
  have hfold : ∀ n ≤ l.periodics.cnt, ∃ d c,
      (List.range n).foldl (periodicsRescheduleOne e) l = { l with periodics := d, rescheduleCnt := c } ∧
        Deadlines.Retimed e.heap next l.periodics n d := by
    intro n
    induction n with
    | zero => exact fun _ => ⟨l.periodics, l.rescheduleCnt, rfl, h.retimed_none next⟩
    | succ n ih =>
      intro hn
      obtain ⟨d, c, heq, hasked⟩ := ih (by omega)
      obtain ⟨c', hone⟩ := periodicsRescheduleOne_at e { l with periodics := d, rescheduleCnt := c } n
      refine ⟨_, c', ?_, hasked.step hn rfl ⟨c, rfl⟩⟩
      rw [List.range_succ, List.foldl_append, List.foldl_cons, List.foldl_nil, heq, hone]
      rfl
  obtain ⟨d, c, heq, hasked⟩ := hfold l.periodics.cnt (le_refl _)
  refine ⟨d.reheap e.heap, c, ?_, hasked.linked.reheap, fun u hu => hasked.all hu⟩
  unfold periodicsReschedule
  rw [heq]

end

/-- What is promised of the active periodics: no interval is negative, and no callback answers with a time before
its `now`. -/
structure Forward (e : Env U T) (l : Loop U T K) : Prop where
  interval : ∀ u, l.periodics.active u ≠ 0 → l.wRescheduleCb u = false → 0 ≤ l.wInterval u
  callback : ∀ u, l.periodics.active u ≠ 0 → l.wRescheduleCb u = true → ∀ n now, now ≤ e.rescheduleCb n u now

end

/-! ### Every periodic at its time -/

section

variable [Field T] [LinearOrder T] [IsStrictOrderedRing T] [FloorRing T] {e : Env U T} {l : Loop U T K} {t : ℕ}
  {fed : Watcher U → List Events}

/-- The next time of a periodic at `now`: after it by an interval at most, or not before it. -/
structure NextTime (l : Loop U T K) (u : U) (now x : T) : Prop where
  interval : l.wRescheduleCb u = false → 0 < l.wInterval u → now < x ∧ x ≤ now + l.wInterval u
  callback : l.wRescheduleCb u = true → now ≤ x

section

omit [IsStrictOrderedRing T] [FloorRing T] [DecidableEq U]

theorem periodicAt_absolute {u : U} (hu : l.Absolute u) (k : ℕ) : l.periodicAt e k u = none := by
  unfold periodicAt
  simp [hu.1, hu.2]

end

section

omit [DecidableEq U]

theorem periodicAt_next {c : Target} (he : e.Recalculates c) (hf : Forward e l) {u : U}
    (hu : l.periodics.active u ≠ 0) (hnot : ¬ l.Absolute u) (k : ℕ) :
    ∃ x, l.periodicAt e k u = some x ∧ l.evRtNow ≤ x ∧ NextTime l u l.evRtNow x := by
  unfold periodicAt
  by_cases hcb : l.wRescheduleCb u = true
  · have hle := hf.callback u hu hcb k l.evRtNow
    exact ⟨_, if_pos hcb, hle, fun hc => by simp [hcb] at hc, fun _ => hle⟩
  · have hno : l.wRescheduleCb u = false := by simpa using hcb
    have hne : l.wInterval u ≠ 0 := fun hc => hnot ⟨hno, hc⟩
    have hpos : 0 < l.wInterval u := lt_of_le_of_ne (hf.interval u hu hno) (Ne.symm hne)
    have hnext := he.next (l.wOffset u) l.evRtNow hpos
    rw [if_neg hcb, if_pos hne]
    exact ⟨_, rfl, hnext.1.le, fun _ _ => hnext, fun hc => absurd hc hcb⟩

theorem nextAhead_forward {c : Target} (he : e.Recalculates c) (hf : Forward e l) : NextAhead e l := by
  intro k u x hu hx
  by_cases habs : l.Absolute u
  · rw [periodicAt_absolute habs] at hx
    cases hx
  · obtain ⟨y, hy, hle, -⟩ := periodicAt_next he hf hu habs k
    rwa [← Option.some.inj (hy.symm.trans hx)]

/-- What is asked about an absolute periodic stays, and any other gets its next time. -/
theorem NextTime.of_asked {c : Target} (he : e.Recalculates c) (hf : Forward e l) {u : U}
    (hu : l.periodics.active u ≠ 0) {k : ℕ} {x : T} (hx : x = (l.periodicAt e k u).getD (l.periodics.wAt u)) :
    (l.Absolute u → x = l.periodics.wAt u) ∧ NextTime l u l.evRtNow x := by
  by_cases habs : l.Absolute u
  · rw [periodicAt_absolute habs] at hx
    refine ⟨fun _ => hx, fun _ hi => absurd habs.2 hi.ne', fun hc => ?_⟩
    rw [habs.1] at hc
    cases hc
  · obtain ⟨y, hy, -, hnext⟩ := periodicAt_next he hf hu habs k
    rw [hy] at hx
    exact ⟨fun hc => absurd hc habs, hx ▸ hnext⟩

end

/-- **The periodics' pass and the wall clock's jump**, with no periodic pending before. `periodics_reify` ends, with
no active periodic due; those that were due are pending, each once and with `EV_PERIODIC`, those of a priority to be
invoked by ascending deadline; the absolute ones are stopped, the others come at their next time. From whatever
time the wall clock jumps to, `periodics_reschedule` leaves the same periodics active in a well-formed heap, all
but the absolute ones at their next time. -/
theorem periodics_expire {c : Target} (he : e.Recalculates c) (h : l.periodics.Good e.heap t) (hf : Forward e l)
    (hp : l.pend.Ok fed) (hW : l.pend.pendingW = .pendingW) (hr : l.pend.rfeeds = [])
    (hidle : ∀ u, l.pend.pending (.periodic u) = 0) :
    (¬ (l.periodicsReify e l.periodics.cnt).periodicsDue e ∧
      Expired .periodic evPeriodic l.evRtNow l.periodics (l.periodicsReify e l.periodics.cnt).periodics
        (l.periodicsReify e l.periodics.cnt).pend ∧
      (∀ u, l.periodics.active u ≠ 0 → l.periodics.wAt u < l.evRtNow →
        (l.Absolute u → (l.periodicsReify e l.periodics.cnt).periodics.active u = 0) ∧
        (¬ l.Absolute u → (l.periodicsReify e l.periodics.cnt).periodics.active u ≠ 0 ∧
          NextTime l u l.evRtNow ((l.periodicsReify e l.periodics.cnt).periodics.wAt u))) ∧
      (∀ u, ¬ (l.periodics.active u ≠ 0 ∧ l.periodics.wAt u < l.evRtNow) →
        (l.periodicsReify e l.periodics.cnt).periodics.wAt u = l.periodics.wAt u ∧
          ((l.periodicsReify e l.periodics.cnt).periodics.active u ≠ 0 ↔ l.periodics.active u ≠ 0)) ∧
      Sound e.heap (l.periodicsReify e l.periodics.cnt).periodics) ∧
    ∀ rt m, m = { l with evRtNow := rt }.periodicsReschedule e →
      (∀ u, m.periodics.active u ≠ 0 ↔ l.periodics.active u ≠ 0) ∧
      (∀ u, l.periodics.active u ≠ 0 →
        (l.Absolute u → m.periodics.wAt u = l.periodics.wAt u) ∧ NextTime l u rt (m.periodics.wAt u)) ∧
      Sound e.heap m.periodics := by
  refine ⟨?_, fun rt m hm => ?_⟩
  · obtain ⟨d, k, us, heq, hd, hgood⟩ := periodicsReify_spec h hr (nextAhead_forward he hf)
    have hclear : l.pend.clearAll ((l.absolutes us).map .periodic) = l.pend := by
      refine Pend.clearAll_idle fun w hw => ?_
      obtain ⟨u, -, rfl⟩ := List.mem_map.mp hw
      exact hidle u
    rw [hclear] at heq
    rw [heq]
    refine ⟨fun hdue => ?_, expired hp (fun _ _ => Watcher.periodic.inj) (fun u => by rw [hW]; simp) hidle hd,
      fun u hu hlt => ?_, fun u hu => hd.became.stays u fun hm => hu ((hd.late u).mp hm), sound_of_ok hgood.ok⟩
    · have hroot : d.rootW e.heap ∈ d.late l.evRtNow := hgood.root_late hdue.1 hdue.2
      rw [hd.done] at hroot
      exact hroot
    · obtain ⟨n, hout⟩ := hd.became.out u ((hd.late u).mpr ⟨hu, hlt⟩)
      unfold Deadlines.deadline at hout
      by_cases habs : l.Absolute u
      · rw [periodicAt_absolute habs] at hout
        refine ⟨fun _ => ?_, fun hc => absurd habs hc⟩
        by_contra hact
        rw [if_pos hact] at hout
        cases hout
      · obtain ⟨x, hx, -, hnext⟩ := periodicAt_next he hf hu habs n
        rw [hx] at hout
        refine ⟨fun hc => absurd hc habs, fun _ => ?_⟩
        by_cases hact : d.active u = 0
        · rw [if_neg (not_not.mpr hact)] at hout
          cases hout
        · rw [if_pos hact] at hout
          exact ⟨hact, Option.some.inj hout ▸ hnext⟩
  · obtain ⟨d, k, heq, hok, hat⟩ := periodicsReschedule_next (l := { l with evRtNow := rt }) (e := e) h
    rw [hm, heq]
    refine ⟨hok.active_iff, fun u hu => ?_, sound_of_ok hok.self⟩
    obtain ⟨n, hn⟩ := hat u hu
    obtain ⟨habs, hnext⟩ := NextTime.of_asked (l := { l with evRtNow := rt }) he ⟨hf.interval, hf.callback⟩ hu hn
    exact ⟨habs, hnext.interval, hnext.callback⟩

end

/-- The build in exact arithmetic, with a `reschedule_cb` that answers with its `now`. -/
def exact : Env Bool ℚ := ⟨.four, fun _ _ now => now, nextPoint⟩

theorem exact_recalculates : exact.Recalculates ⟨true, true⟩ := by
  rintro offset interval now at' hi ⟨n, hn⟩
  obtain ⟨n', hx⟩ := periodicRecalc_eq ⟨true, true⟩ offset now hi
  exact Option.some.inj ((hx (max n n') (le_max_right _ _)).symm.trans (hn (max n n') (le_max_left _ _)))

/-- A periodic for every 5, and one for the time 3, started at 0 and seen at 12. -/
def twelve : Loop Bool ℚ Unit :=
  let l := (Loop.init .select true false true ()).untouched.evPeriodicSet false 0 5 false
  let l := l.untouched.evPeriodicStart exact ⟨-1, 0, false⟩ false
  let l := l.untouched.evPeriodicSet true 3 0 false
  let l := l.untouched.evPeriodicStart exact ⟨-1, 0, false⟩ true
  { l.untouched with mnNow := 12, evRtNow := 12 }

theorem twelve_good : HeapsGood exact twelve.timers.cnt twelve.periodics.cnt twelve.untouched := by
  have hrun : TimeRuns exact (Loop.init .select true false true ()) [.periodicSet false 0 5 false,
      .periodicStart ⟨-1, 0, false⟩ false, .periodicSet true 3 0 false, .periodicStart ⟨-1, 0, false⟩ true,
      .clock 12 12] twelve :=
    .cons rfl (.cons rfl (.cons rfl (.cons rfl (.single rfl))))
  exact (heapsOk_run hrun (heapsOk_noTimers ⟨⟨rfl, fun _ => rfl⟩, rfl, fun _ => rfl⟩)).untouched

theorem evPeriodicStart_pend [LinearOrder T] [Add T] [Sub T] [Zero T] {e : Env U T} {l : Loop U T K} {u : U}
    (k : TimerfdCreate T) (h : l.pend.InRange) (ht : l.timerfd ≠ -2) :
    (l.evPeriodicStart e k u).pend = l.pend ∧ (l.evPeriodicStart e k u).timerfd ≠ -2 := by
  unfold evPeriodicStart
  by_cases hu : l.periodics.active u = 0
  · rw [if_neg (not_not.mpr hu)]
    simp only [ht, ↓reduceIte]
    rcases periodicNext_cases e l u with ⟨x, n, hn⟩ | hn
    · simp only [hn]
      exact ⟨h.priAdjust (.periodic u), ht⟩
    · simp only [hn]
      exact ⟨h.priAdjust (.periodic u), ht⟩
  · rw [if_pos hu]
    exact ⟨rfl, ht⟩

theorem twelve_pend : twelve.pend = (Loop.init .select true false true () : Loop Bool ℚ Unit).pend := by
  obtain ⟨l₁, h₁⟩ : ∃ l : Loop Bool ℚ Unit,
      l = (Loop.init .select true false true ()).untouched.evPeriodicSet false 0 5 false := ⟨_, rfl⟩
  have hr : l₁.pend.InRange := by
    rw [h₁]
    exact Loop.range_init (T := ℚ) .select true false true ()
  obtain ⟨hp₁, ht₁⟩ := evPeriodicStart_pend (e := exact) (u := false) ⟨-1, 0, false⟩ hr (by rw [h₁]; decide)
  obtain ⟨l₂, h₂⟩ : ∃ l : Loop Bool ℚ Unit,
      l = (l₁.evPeriodicStart exact ⟨-1, 0, false⟩ false).untouched.evPeriodicSet true 3 0 false := ⟨_, rfl⟩
  have hp : l₂.pend = l₁.pend := by
    rw [h₂]
    exact hp₁
  obtain ⟨hp₂, -⟩ := evPeriodicStart_pend (e := exact) (u := true) ⟨-1, 0, false⟩ (hp ▸ hr) (by rw [h₂]; exact ht₁)
  have htwelve : twelve =
      { (l₂.evPeriodicStart exact ⟨-1, 0, false⟩ true).untouched with mnNow := 12, evRtNow := 12 } := by
    rw [h₂, h₁]
    rfl
  rw [htwelve]
  refine Eq.trans (b := (l₂.evPeriodicStart exact ⟨-1, 0, false⟩ true).pend) rfl ?_
  rw [hp₂, hp, h₁]
  rfl

/-- The one for 3 is late and stopped, the other comes at 15; if the clock goes back to -7 it comes at -5. -/
theorem periodics_expire_twelve :
    Expired .periodic evPeriodic 12 twelve.periodics
      (twelve.untouched.periodicsReify exact twelve.periodics.cnt).periodics
      (twelve.untouched.periodicsReify exact twelve.periodics.cnt).pend ∧
    (twelve.untouched.periodicsReify exact twelve.periodics.cnt).periodics.active true = 0 ∧
    (twelve.untouched.periodicsReify exact twelve.periodics.cnt).periodics.wAt false ≤ 17 ∧
    ({ twelve.untouched with evRtNow := -7 }.periodicsReschedule exact).periodics.wAt false ≤ -2 := by
  have hempty : twelve.pend.Empty := by
    rw [twelve_pend]
    exact ⟨fun _ => rfl, fun _ => rfl, rfl⟩
  have hok : twelve.pend.Ok fun _ => [] := by
    refine hempty.ok ?_
    rw [twelve_pend]
    exact Loop.range_init (T := ℚ) .select true false true ()
  have hf : Forward exact twelve.untouched := ⟨by decide +kernel, fun _ _ _ _ _ => le_refl _⟩
  obtain ⟨⟨-, hexp, hlate, -⟩, hjump⟩ := periodics_expire (c := ⟨true, true⟩)
    exact_recalculates twelve_good.2 hf hok
    (by rw [show twelve.untouched.pend = _ from twelve_pend]; rfl) hempty.rfeeds fun _ => hempty.pending _
  have hfalse := (hlate false (by decide +kernel) (by decide +kernel)).2 (by decide +kernel)
  have hmove := ((hjump (-7) _ rfl).2.1 false (by decide +kernel)).2.interval (by decide +kernel)
    (by decide +kernel)
  refine ⟨hexp, (hlate true (by decide +kernel) (by decide +kernel)).1 (by decide +kernel), ?_, ?_⟩
  · have hle : twelve.untouched.evRtNow + twelve.untouched.wInterval false ≤ 17 := by decide +kernel
    exact (hfalse.2.interval (by decide +kernel) (by decide +kernel)).2.trans hle
  · have hle : -7 + twelve.untouched.wInterval false ≤ -2 := by decide +kernel
    exact hmove.2.trans hle

/-! ### In doubles -/

/-- A hundred-millionth of a second. -/
def tick : Binary 53 := .ofRat (1 / 10 ^ 8)

/-- A time to which it adds nothing. -/
def today : Binary 53 := 1700000000

theorem periodicRecalc_tick {n : ℕ} (hn : 1 ≤ n) : Qev.periodicRecalc ⟨true, true⟩ n 0 tick today = some today := by
  obtain ⟨n, rfl⟩ : ∃ m, n = m + 1 := ⟨n - 1, by omega⟩
  have hi : (if tick > minInterval then tick else minInterval) = minInterval := by decide +kernel
  -- the time is a point of the grid, and the loop does not get off it
  have hgrid : Qev.evFloor ⟨true, true⟩ (n + 1) ((today - 0) / minInterval) = some (Binary.ofRat 13926400000000) := by
    unfold Qev.evFloor
    rw [if_neg (by decide +kernel), if_neg (by decide +kernel)]
    exact congrArg some (by decide +kernel)
  unfold Qev.periodicRecalc
  rw [hi]
  dsimp only
  rw [hgrid, Option.bind_some]
  unfold recalcLoop
  rw [if_pos (by decide +kernel)]
  exact if_pos (by decide +kernel)

/-- The build in doubles, with a `reschedule_cb` that answers with its `now`. -/
def double (recalc : Binary 53 → Binary 53 → Binary 53 → Binary 53) : Env Bool (Binary 53) :=
  ⟨.four, fun _ _ now => now, recalc⟩

/-- A periodic for the time 0, given an interval when it was active. -/
def ticking : Loop Bool (Binary 53) Unit :=
  let l := (Loop.init .select true false true ()).untouched.evPeriodicSet false 0 0 false
  let l := l.evPeriodicStart (double fun _ _ now => now) ⟨-1, 0, false⟩ false
  { l with wInterval := Function.update l.wInterval false tick }

/-- Rescheduled at a time beside which its interval is lost, the periodic is due at that time, not after it. -/
theorem periodics_expire_lost : ∃ (e : Env Bool (Binary 53)) (l m : Loop Bool (Binary 53) Unit),
    e.Recalculates ⟨true, true⟩ ∧ l.periodics.Good e.heap 1 ∧ Forward e l ∧ l.pend.Ok (fun _ => []) ∧
    l.pend.pendingW = .pendingW ∧ l.pend.rfeeds = [] ∧ (∀ u, l.pend.pending (.periodic u) = 0) ∧
    m = { l with evRtNow := today }.periodicsReschedule e ∧
    l.periodics.active false ≠ 0 ∧ l.wRescheduleCb false = false ∧ 0 < l.wInterval false ∧
    m.periodics.wAt false = today ∧ ¬ (today < m.periodics.wAt false) := by
  obtain ⟨recalc, hrecalc⟩ := exists_recalculates (T := Binary 53) ⟨true, true⟩
  have he : (double recalc).Recalculates ⟨true, true⟩ := hrecalc (double recalc) rfl
  obtain ⟨l₀, hl₀⟩ : ∃ l : Loop Bool (Binary 53) Unit,
      l = (Loop.init .select true false true ()).untouched.evPeriodicSet false 0 0 false := ⟨_, rfl⟩
  have hr : l₀.pend.InRange := by
    rw [hl₀]
    exact Loop.range_init (T := Binary 53) .select true false true ()
  have hpend : ticking.pend = l₀.pend := by
    obtain ⟨hp, -⟩ := evPeriodicStart_pend (e := double fun _ _ now => now) (u := false) ⟨-1, 0, false⟩ hr
      (by rw [hl₀]; decide)
    rw [← hp, hl₀]
    rfl
  have hempty : ticking.pend.Empty := by
    rw [hpend, hl₀]
    exact ⟨fun _ => rfl, fun _ => rfl, rfl⟩
  have hgood : ticking.periodics.Good (double recalc).heap 1 := by
    have hnone : l₀.periodics.Good (double recalc).heap 0 := by
      rw [hl₀]
      exact (heapsOk_noTimers (l := (Loop.init .select true false true () : Loop Bool (Binary 53) Unit))
        (e := double recalc) ⟨⟨rfl, fun _ => rfl⟩, rfl, fun _ => rfl⟩).untouched.2
    obtain ⟨hg, -⟩ := good_evPeriodicStart (e := double fun _ _ now => now) (k := ⟨-1, 0, false⟩) (u := false)
      (Good.mono hnone (Nat.zero_le 1)) fun _ => by rw [hl₀]; decide
    rw [hl₀] at hg
    exact hg
  have hactive : ticking.periodics.active false ≠ 0 := by decide +kernel
  obtain ⟨d, k, heq, -, hat⟩ := periodicsReschedule_next (l := { ticking with evRtNow := today }) hgood
  refine ⟨double recalc, ticking, _, he, hgood, ⟨by decide +kernel, fun _ _ _ _ _ => le_refl _⟩, hempty.ok ?_, ?_,
    hempty.rfeeds, fun _ => hempty.pending _, rfl, hactive, by decide +kernel, by decide +kernel, ?_⟩
  · rw [hpend]
    exact hr
  · rw [hpend, hl₀]
    rfl
  · have hwAt : d.wAt false = today := by
      obtain ⟨n, hn⟩ := hat false hactive
      rw [hn]
      have hnext : recalc 0 tick today = today :=
        he 0 tick today today (by decide +kernel) ⟨1, fun m hm => periodicRecalc_tick hm⟩
      unfold periodicAt
      rw [if_neg (by decide +kernel), if_pos (by decide +kernel), Option.getD_some]
      show recalc (ticking.wOffset false) (ticking.wInterval false) today = today
      rw [show ticking.wOffset false = 0 by decide +kernel, show ticking.wInterval false = tick by decide +kernel]
      exact hnext
    rw [heq]
    exact ⟨hwAt, fun hlt => absurd hwAt hlt.ne'⟩

end Loop

end Qev
