/-
# Runs of stat watchers

The watchers are set, started and stopped, their timers and the inotify fd are served, the
loop is forked, and meanwhile the kernel adds events, removes watches and may lose events
when its queue is full. In any such run each watcher with a descriptor is in its bucket
(`stat_buckets`). It learns of changes as long as no announcement that its watch is gone is
lost while it does not poll (`stat_sighted`): the overflow that the kernel reports instead
has the path looked at, but no watch added again.
-/
import Qev.Lib.Run
import Qev.Loop.StatEvents

namespace Qev

open Lib

namespace Infy

variable {U T A : Type} [DecidableEq U] [DecidableEq A] [LinearOrder T] [Add T] [Sub T] [Zero T]

/-! ### The steps -/

/-- What is done by the user (`set`, `start`, `stop`, `stat`), by the loop (`reify`, `timer`, `read`, `fork`), by the
kernel (`event`, `vanish`, `overflow`), and to other watchers. -/
inductive Act (U T : Type)
  | set (w : U) (path : List Char) (interval : T)
  | start (o : Opened) (w : U)
  | stop (w : U)
  | stat (w : U)
  | reify
  | timer (w : U)
  | read (events : ℕ)
  | fork (fs : Option ℕ)
  | event (ev : Event)
  | vanish (wd : ℤ)
  | overflow (before after : List Event)
  | other

/-- `IN_Q_OVERFLOW`. -/
def overflowEvent : Event := ⟨-1, inQOverflow⟩

/-- A watcher is set only while it is inactive, its private timer runs only while it is active, and `fs_w` is
served only while it has an fd. A watch vanishes with its inode; a full queue keeps some of its events, in order,
and reports the rest as lost. -/
inductive Step (e : Env U T) (c : Consts T) : Loop U T (Kernel U A) → Act U T → Loop U T (Kernel U A) → Prop
  | set (l) (w : U) (path : List Char) (interval : T) (h : l.stats w = 0) :
      Step e c l (.set w path interval) (l.evStatSet w path interval)
  | start (l) (o : Opened) (w : U) : Step e c l (.start o w) (Loop.evStatStart e c o w l)
  | stop (l) (w : U) : Step e c l (.stop w) (Loop.evStatStop e c w l)
  | stat (l) (w : U) : Step e c l (.stat w) (l.evStatStat w)
  | reify (l) : Step e c l .reify (l.timersReify e)
  | timer (l) (w : U) (h : l.stats w ≠ 0) : Step e c l (.timer w) (l.statTimerCb e c w)
  | read (l) (events : ℕ) (h : 0 ≤ l.fsFd) : Step e c l (.read events) (l.infyCb e c events)
  | fork (l) (fs : Option ℕ) : Step e c l (.fork fs) (Loop.infyFork e c fs l)
  | event (l) (ev : Event) (h : ev.mask &&& inIgnored = 0) :
      Step e c l (.event ev) { l with kernel := { l.kernel with queue := l.kernel.queue ++ [ev] } }
  | vanish (l) (wd : ℤ) (h : l.kernel.Live wd) : Step e c l (.vanish wd) { l with kernel := l.kernel.remove wd }
  | overflow (l) (before after : List Event) (h : (before ++ after).Sublist l.kernel.queue) :
      Step e c l (.overflow before after)
        { l with kernel := { l.kernel with queue := before ++ overflowEvent :: after } }
  | other (l m) (h : Aside e l m) : Step e c l .other m

/-- An overflow loses no announcement that a watch is gone which a watcher goes by: one that is active and
does not poll. -/
def Spared (l : Loop U T (Kernel U A)) : Act U T → Prop
  | .overflow before after => ∀ w, l.stats w ≠ 0 → l.timers.active (.stat w) = 0 →
      Announced l.kernel.queue (l.wWd w) → Announced (before ++ after) (l.wWd w)
  | _ => True

/-- No stat watcher has been started, and inotify is not in use. -/
structure NoStats (e : Env U T) (l : Loop U T (Kernel U A)) : Prop where
  stats : ∀ w, l.stats w = 0
  wd : ∀ w, l.wWd w < 0
  hash : ∀ k, l.fsHash k = []
  timersOk : l.TimersOk e
  timer : ∀ w, l.timers.active (.stat w) = 0
  next : l.kernel.next = 1
  watches : l.kernel.watches = []
  queue : l.kernel.queue = []

/-! ### What a step keeps -/

/-- The active watchers are in order, and the others have neither descriptor nor timer. -/
structure Inv (e : Env U T) (c : Consts T) (l : Loop U T (Kernel U A)) : Prop where
  fit : Fit e c [] {v | l.stats v ≠ 0} l
  idle : ∀ v, l.stats v = 0 → l.wWd v < 0 ∧ l.timers.active (.stat v) = 0

variable {e : Env U T} {c : Consts T} {w v : U} {l m n : Loop U T (Kernel U A)}

section

omit [DecidableEq U] [DecidableEq A] [Add T] [Sub T]

/-- What leaves the inactive watchers alone. -/
theorem Inv.keeps (h : Inv e c l) (hfit : Fit e c [] {v | l.stats v ≠ 0} m) (hk : Keeps {v | l.stats v ≠ 0} l m) :
    Inv e c m := by
  refine ⟨by rw [hk.stats]; exact hfit, fun v hv => ?_⟩
  rw [hk.stats] at hv
  have hout : v ∉ {v | l.stats v ≠ 0} := fun hn => hn hv
  rw [hk.wd v hout]
  exact ⟨(h.idle v hv).1, not_not.mp fun hn => (hk.timer v hout).mp hn (h.idle v hv).2⟩

theorem Inv.aside (h : Inv e c l) (ha : Aside e l m) : Inv e c m ∧ ∀ v, Sees [] l v → Sees [] m v := by
  obtain ⟨hfit, hmoves⟩ := h.fit.aside ha
  exact ⟨h.keeps hfit (hmoves.toKeeps.mono (Set.empty_subset _)), fun v => hmoves.sees (Set.notMem_empty v)⟩

/-- What only the kernel and the pending queues see. -/
theorem Inv.kernel (h : Inv e c l) {k : Kernel U A} (hk : k.Sound []) : Inv e c { l with kernel := k } :=
  ⟨⟨h.fit.timersOk, h.fit.armed, hk, h.fit.filed.congr (fun _ _ => rfl) rfl⟩, h.idle⟩

theorem Inv.tells (h : Inv e c l) {k : Kernel U A} (hk : k.Sound [] ∧ l.kernel.Tells k) :
    Inv e c { l with kernel := k } ∧ ∀ v, Sees [] l v → Sees [] { l with kernel := k } v :=
  ⟨h.kernel hk.1, fun v => (Moves.kernel ∅ hk.2).sees (Set.notMem_empty v)⟩

end

section

omit [DecidableEq A] [Add T] [Sub T]

theorem Inv.evStatSet (h : Inv e c l) (hw : l.stats w = 0) (path : List Char) (interval : T) :
    Inv e c (l.evStatSet w path interval) ∧
      ∀ v, l.stats v ≠ 0 → Sees [] l v → Sees [] (l.evStatSet w path interval) v := by
  have hne : ∀ v, l.stats v ≠ 0 → Function.update l.wWd w (-2) v = l.wWd v := fun v hv =>
    Function.update_of_ne (by rintro rfl; exact hv hw) ..
  have hsound := (h.fit.sound.congr (l.evStatSet w path interval).kernel rfl rfl rfl).1
  refine ⟨⟨⟨h.fit.timersOk, h.fit.armed, hsound, h.fit.filed.congr hne rfl⟩, fun v hv => ?_⟩, fun v hv hs => ?_⟩
  · refine ⟨?_, (h.idle v hv).2⟩
    show Function.update l.wWd w (-2) v < 0
    by_cases hvw : v = w
    · subst hvw
      rw [Function.update_self]
      decide
    · rw [Function.update_of_ne hvw]
      exact (h.idle v hv).1
  · unfold Sees
    show _ ∨ 0 ≤ Function.update l.wWd w (-2) v ∧ (l.kernel.Live (Function.update l.wWd w (-2) v) ∨
      Announced ([] ++ l.kernel.queue) (Function.update l.wWd w (-2) v))
    rw [hne v hv]
    exact hs

/-- A watcher has become active. -/
theorem Inv.started (h : Inv e c l) (hfit : Fit e c [] (insert w {v | l.stats v ≠ 0}) m) (hmoves : Moves {w} l m)
    (hs : Sees [] m w) : Inv e c { m with stats := Function.update m.stats w 1 } ∧
      ∀ v, (l.stats v ≠ 0 → Sees [] l v) → Function.update m.stats w 1 v ≠ 0 → Sees [] m v := by
  have hset : {v | Function.update m.stats w 1 v ≠ 0} = insert w {v | l.stats v ≠ 0} := by
    ext v
    rw [Set.mem_insert_iff, Set.mem_ofPred_eq, Set.mem_ofPred_eq, hmoves.stats]
    by_cases hvw : v = w
    · subst hvw
      rw [Function.update_self]
      exact iff_of_true Nat.one_ne_zero (.inl rfl)
    · rw [Function.update_of_ne hvw]
      exact (or_iff_right hvw).symm
  refine ⟨⟨?_, fun v hv => ?_⟩, fun v hv hactive => ?_⟩
  · show Fit e c [] {v | Function.update m.stats w 1 v ≠ 0} _
    rw [hset]
    exact ⟨hfit.timersOk, hfit.armed, hfit.sound, hfit.filed.congr (fun _ _ => rfl) rfl⟩
  · have hv' : v ∉ insert w {v | l.stats v ≠ 0} := fun hn =>
      (hset ▸ hn : v ∈ {v | Function.update m.stats w 1 v ≠ 0}) hv
    rw [Set.mem_insert_iff, not_or] at hv'
    obtain ⟨hwd, htimer⟩ := h.idle v (not_not.mp hv'.2)
    show m.wWd v < 0 ∧ m.timers.active (.stat v) = 0
    rw [hmoves.wd v hv'.1]
    exact ⟨hwd, not_not.mp fun hn => (hmoves.timer v hv'.1).mp hn htimer⟩
  · have hv' : v ∈ insert w {v | l.stats v ≠ 0} := hset ▸ hactive
    by_cases hvw : v = w
    · exact hvw ▸ hs
    · exact hmoves.sees hvw (hv (hv'.resolve_left hvw))

/-- The private timer of an inactive watcher is set. -/
theorem Inv.timerSet (h : Inv e c l) (hw : l.stats w = 0) (after repeat' : T) {p : Pend (Watcher U)} :
    Inv e c { l.evTimerSet (.stat w) after repeat' with pend := p } ∧
      Moves {w} l { l.evTimerSet (.stat w) after repeat' with pend := p } := by
  have htimer : ¬ l.timers.active (.stat w) ≠ 0 := not_not.mpr (h.idle w hw).2
  have hrep : ∀ v ≠ w, Function.update l.wRepeat (.stat w) repeat' (.stat v) = l.wRepeat (.stat v) := fun v hv =>
    Function.update_of_ne (fun he => hv (TimerW.stat.inj he)) ..
  refine ⟨⟨⟨Deadlines.Ok.setAt h.fit.timersOk htimer after, fun v hv => ?_, h.fit.sound,
    h.fit.filed.congr (fun _ _ => rfl) rfl⟩, h.idle⟩,
    ⟨⟨rfl, fun _ _ => rfl, fun _ _ => .rfl, hrep⟩, .refl _, fun _ _ _ => .rfl⟩⟩
  show _ → Function.update l.wRepeat (.stat w) repeat' (.stat v) ≠ 0
  rw [hrep v fun he => hv (he ▸ hw)]
  exact h.fit.armed v hv

end

section

omit [DecidableEq A]

theorem Inv.evStatStart (h : Inv e c l) (o : Opened) (w : U) : Inv e c (Loop.evStatStart e c o w l) ∧
    ∀ v, (l.stats v ≠ 0 → Sees [] l v) → (Loop.evStatStart e c o w l).stats v ≠ 0 →
      Sees [] (Loop.evStatStart e c o w l) v := by
  unfold Loop.evStatStart
  split
  · exact ⟨h, fun v => id⟩
  · rename_i hw
    rw [not_not] at hw
    have hout : w ∉ {v | l.stats v ≠ 0} := fun hn => hn hw
    -- The path is looked at, and the private timer set.
    obtain ⟨hfit, hmoves⟩ := h.fit.evStatStat w
    let interval := if l.wStatInterval w < c.minStat ∧ l.wStatInterval w ≠ 0 then c.minStat else l.wStatInterval w
    let l₁ : Loop U T (Kernel U A) :=
      { l.evStatStat w with wStatInterval := Function.update (l.evStatStat w).wStatInterval w interval }
    obtain ⟨hfit₁, hm₁⟩ := hfit.aside (m := l₁) (.of_eq hfit.timersOk rfl rfl rfl rfl rfl rfl)
    have h₁ : Inv e c l₁ := ⟨hfit₁, h.idle⟩
    let l₂ := ((l₁.evInit (.timer (.stat w))).evTimerSet (.stat w) 0 (l₁.interval w c.defStat)).evSetPriority
      (.timer (.stat w)) (l₁.pend.priority (.stat w))
    obtain ⟨h₂, hm₂⟩ : Inv e c l₂ ∧ Moves {w} l₁ l₂ := h₁.timerSet hw 0 (l₁.interval w c.defStat)
    have haside := aside_infyInit h₂.fit.timersOk o
    obtain ⟨hfit₃, hm₃⟩ := h₂.fit.aside haside
    have hmoves₃ : Moves {w} l (l₂.infyInit o) :=
      (((hmoves.trans hm₁).mono (Set.empty_subset _)).trans hm₂).trans (hm₃.mono (Set.empty_subset _))
    let m := if 0 ≤ (l₂.infyInit o).fsFd then (l₂.infyInit o).infyAdd e c w
      else ((l₂.infyInit o).evTimerAgain e (.stat w)).evUnref
    -- It gets a watch, or else polls.
    obtain ⟨hfit₄, hm₄, hs⟩ : Fit e c [] (insert w {v | l.stats v ≠ 0}) m ∧ Moves {w} (l₂.infyInit o) m ∧
        Sees [] m w := by
      show Fit e c [] _ (if _ then _ else _) ∧ Moves {w} _ (if _ then _ else _) ∧ Sees [] (if _ then _ else _) w
      split
      · exact Fit.infyAdd hfit₃ hout
      · obtain ⟨p, k, d, heq, hd⟩ := rearmed_evTimerAgain hfit₃.timersOk w
        have hn : Rearm e w (l₂.infyInit o) ((l₂.infyInit o).evTimerAgain e (.stat w)).evUnref :=
          Rearmed.rearm ⟨p, k - 1, d, by rw [heq]; rfl, hd⟩
        have hwd : (l₂.infyInit o).wWd w < 0 := by
          rw [haside.wd]
          exact (h.idle w hw).1
        refine ⟨hfit₃.enter (hfit₃.filed.skip hout hwd) rfl rfl rfl hn, hn.toMoves, .inl (hn.runs.mpr ?_)⟩
        rw [haside.wRepeat]
        show Function.update l₁.wRepeat (.stat w) (l₁.interval w c.defStat) (.stat w) ≠ 0
        rw [Function.update_self]
        exact interval_ne c.def_pos l₁ w
    obtain ⟨hfit₅, hm₅⟩ := hfit₄.aside (m := m.evStart (.stat w)) (.of_eq hfit₄.timersOk rfl rfl rfl rfl rfl rfl)
    exact h.started (m := m.evStart (.stat w)) hfit₅ ((hmoves₃.trans hm₄).trans (hm₅.mono (Set.empty_subset _))) hs

end

section

omit [DecidableEq A] [Add T] [Sub T]

/-- A watcher has become inactive. -/
theorem Inv.stopped (h : Inv e c l) (hfit : Fit e c [] ({v | l.stats v ≠ 0} \ {w}) m) (hmoves : Moves {w} l m)
    (hwd : m.wWd w < 0) (ht : m.timers.active (.stat w) = 0) :
    Inv e c { m with stats := Function.update m.stats w 0 } ∧
      ∀ v, (l.stats v ≠ 0 → Sees [] l v) → Function.update m.stats w 0 v ≠ 0 → Sees [] m v := by
  have hset : {v | Function.update m.stats w 0 v ≠ 0} = {v | l.stats v ≠ 0} \ {w} := by
    ext v
    rw [Set.mem_sdiff_singleton, Set.mem_ofPred_eq, Set.mem_ofPred_eq, hmoves.stats]
    by_cases hvw : v = w
    · subst hvw
      rw [Function.update_self]
      exact iff_of_false (not_not.mpr rfl) fun hn => hn.2 rfl
    · rw [Function.update_of_ne hvw]
      exact (and_iff_left hvw).symm
  refine ⟨⟨?_, fun v hv => ?_⟩, fun v hv hactive => ?_⟩
  · show Fit e c [] {v | Function.update m.stats w 0 v ≠ 0} _
    rw [hset]
    exact ⟨hfit.timersOk, hfit.armed, hfit.sound, hfit.filed.congr (fun _ _ => rfl) rfl⟩
  · show m.wWd v < 0 ∧ m.timers.active (.stat v) = 0
    by_cases hvw : v = w
    · subst hvw
      exact ⟨hwd, ht⟩
    · have hv' : l.stats v = 0 := by
        rw [← hmoves.stats, ← hv]
        exact (Function.update_of_ne hvw ..).symm
      obtain ⟨hwd', htimer⟩ := h.idle v hv'
      rw [hmoves.wd v hvw]
      exact ⟨hwd', not_not.mp fun hn => (hmoves.timer v hvw).mp hn htimer⟩
  · have hv' : v ∈ {v | l.stats v ≠ 0} \ {w} := hset ▸ hactive
    exact hmoves.sees hv'.2 (hv hv'.1)

end

section

omit [DecidableEq A] [Add T]

theorem Inv.evStatStop (h : Inv e c l) (w : U) : Inv e c (Loop.evStatStop e c w l) ∧
    ∀ v, (l.stats v ≠ 0 → Sees [] l v) → (Loop.evStatStop e c w l).stats v ≠ 0 →
      Sees [] (Loop.evStatStop e c w l) v := by
  obtain ⟨h₀, hs₀⟩ := h.aside (m := l.clearPending (.stat w)) (.of_eq h.fit.timersOk rfl rfl rfl rfl rfl rfl)
  unfold Loop.evStatStop
  dsimp only
  split
  · exact ⟨h₀, fun v hv hactive => hs₀ v (hv hactive)⟩
  · rename_i hw
    obtain ⟨hfit, hmoves, hwd⟩ := h₀.fit.infyDel (w := w) hw
    let m := if ((l.clearPending (.stat w)).infyDel c w).timers.active (.stat w) ≠ 0 then
        ((l.clearPending (.stat w)).infyDel c w).evRef.evTimerStop e (.stat w)
      else (l.clearPending (.stat w)).infyDel c w
    obtain ⟨hfit', hmoves', hwd', ht⟩ : Fit e c [] ({v | l.stats v ≠ 0} \ {w}) m ∧
        Moves {w} ((l.clearPending (.stat w)).infyDel c w) m ∧ m.wWd w < 0 ∧ m.timers.active (.stat w) = 0 := by
      show Fit e c [] _ (if _ then _ else _) ∧ Moves {w} _ (if _ then _ else _) ∧
        (if _ then _ else _ : Loop U T _).wWd w < 0 ∧ (if _ then _ else _ : Loop U T _).timers.active (.stat w) = 0
      split
      · let l₁ := ((l.clearPending (.stat w)).infyDel c w).evRef
        obtain ⟨p, k, d, heq, hd⟩ := Loop.evTimerStop_eq (l := l₁) hfit.timersOk (.stat w)
        rw [heq]
        refine ⟨⟨hd.self, fun v hv ha => hfit.armed v hv ((hd.active_iff (.stat v)).mp ha).2, hfit.sound,
          hfit.filed.congr (fun _ _ => rfl) rfl⟩, ⟨⟨rfl, fun _ _ => rfl, fun v hv => ?_, fun _ _ => rfl⟩, .refl _,
          fun _ _ _ => .rfl⟩, hwd, not_not.mp fun hn => ((hd.active_iff (.stat w)).mp hn).1 rfl⟩
        exact (hd.active_iff (.stat v)).trans (and_iff_right fun he => hv (TimerW.stat.inj he))
      · rename_i ht
        exact ⟨hfit, .refl _ _, hwd, not_not.mp ht⟩
    obtain ⟨hfit'', hm''⟩ := hfit'.aside (m := m.evStop) (.of_eq hfit'.timersOk rfl rfl rfl rfl rfl rfl)
    obtain ⟨hinv, hsees⟩ := h₀.stopped (m := m.evStop) hfit''
      ((hmoves.trans hmoves').trans (hm''.mono (Set.empty_subset _))) hwd' ht
    exact ⟨hinv, fun v hv => hsees v fun ha => hs₀ v (hv ha)⟩

end

section

omit [DecidableEq U] [DecidableEq A] [Add T] [Sub T]

/-- An event other than an announcement that a watch is gone. -/
theorem Kernel.Sound.event {k : Kernel U A} (h : k.Sound []) {ev : Event} (hev : ev.mask &&& inIgnored = 0) :
    ({ k with queue := k.queue ++ [ev] } : Kernel U A).Sound [] ∧ k.Tells { k with queue := k.queue ++ [ev] } := by
  refine ⟨⟨h.next_pos, h.live, fun wd ⟨ev', hmem, he⟩ => h.gone wd ⟨ev', ?_, he⟩⟩,
    fun ev' hmem => List.mem_append_left _ hmem, fun wd hl => .inl hl⟩
  replace hmem : ev' ∈ k.queue ++ [ev] := hmem
  refine (List.mem_append.mp hmem).resolve_right fun hlast => ?_
  rw [List.mem_singleton.mp hlast] at he
  exact he.2 hev

/-- The announcements after an overflow are those it has kept. -/
theorem announced_overflow {before after : List Event} {wd : ℤ} :
    Announced (before ++ overflowEvent :: after) wd ↔ Announced (before ++ after) wd := by
  constructor
  · rintro ⟨ev, hmem, he⟩
    refine ⟨ev, ?_, he⟩
    rcases List.mem_append.mp hmem with hb | ha
    · exact List.mem_append_left _ hb
    · refine List.mem_append_right _ ((List.mem_cons.mp ha).resolve_left ?_)
      rintro rfl
      exact he.2 (by decide)
  · refine fun h => h.mono fun ev hmem => ?_
    rcases List.mem_append.mp hmem with hb | ha
    · exact List.mem_append_left _ hb
    · exact List.mem_append_right _ (List.mem_cons_of_mem _ ha)

theorem Inv.overflow (h : Inv e c l) {before after : List Event} (hsub : (before ++ after).Sublist l.kernel.queue) :
    Inv e c { l with kernel := { l.kernel with queue := before ++ overflowEvent :: after } } := by
  refine h.kernel ⟨h.fit.sound.next_pos, h.fit.sound.live, fun wd ha => h.fit.sound.gone wd ?_⟩
  exact (announced_overflow.mp ha).mono fun ev hmem => hsub.subset hmem

/-- What an overflow is to lose for a watcher to go blind. -/
theorem Inv.overflow_sees (h : Inv e c l) {before after : List Event} (hs : Sees [] l w) :
    Sees [] { l with kernel := { l.kernel with queue := before ++ overflowEvent :: after } } w ↔
      (l.timers.active (.stat w) = 0 → Announced l.kernel.queue (l.wWd w) →
        Announced (before ++ after) (l.wWd w)) := by
  show l.timers.active (.stat w) ≠ 0 ∨ 0 ≤ l.wWd w ∧
    (l.kernel.Live (l.wWd w) ∨ Announced (before ++ overflowEvent :: after) (l.wWd w)) ↔ _
  rw [announced_overflow]
  constructor
  · rintro (ht | ⟨-, hl | ha⟩)
    · exact fun hn => absurd hn ht
    · exact fun _ ha => absurd hl (h.fit.sound.gone _ ha).2
    · exact fun _ _ => ha
  · intro hkept
    rcases hs with ht | ⟨hwd, hl | ha⟩
    · exact .inl ht
    · exact .inr ⟨hwd, .inl hl⟩
    · by_cases ht : l.timers.active (.stat w) = 0
      · exact .inr ⟨hwd, .inr (hkept ht ha)⟩
      · exact .inl ht

end

/-- The active watchers all learn of changes. -/
def Sighted (l : Loop U T (Kernel U A)) : Prop := ∀ w, l.stats w ≠ 0 → Sees [] l w

theorem Inv.step {a : Act U T} (h : Inv e c l) (hs : Step e c l a m) :
    Inv e c m ∧ (Sighted l → Spared l a → Sighted m) := by
  cases hs with
  | set w path interval hw =>
    obtain ⟨hinv, hsees⟩ := h.evStatSet hw path interval
    exact ⟨hinv, fun hl _ v hv => hsees v hv (hl v hv)⟩
  | start o w =>
    obtain ⟨hinv, hsees⟩ := h.evStatStart o w
    exact ⟨hinv, fun hl _ v => hsees v (hl v)⟩
  | stop w =>
    obtain ⟨hinv, hsees⟩ := h.evStatStop w
    exact ⟨hinv, fun hl _ v => hsees v (hl v)⟩
  | stat w =>
    obtain ⟨hinv, hsees⟩ := h.tells (h.fit.sound.congr (l.evStatStat w).kernel rfl rfl rfl)
    exact ⟨hinv, fun hl _ v hv => hsees v (hl v hv)⟩
  | reify =>
    have harmed : ∀ v, l.timers.active (.stat v) ≠ 0 → l.wRepeat (.stat v) ≠ 0 := fun v ht =>
      h.fit.armed v (fun hn => ht (h.idle v hn).2) ht
    have haside := aside_timersReify h.fit.timersOk harmed
    obtain ⟨hinv, hsees⟩ := h.aside haside
    exact ⟨hinv, fun hl _ v hv => hsees v (hl v (haside.stats ▸ hv))⟩
  | timer w hw =>
    obtain ⟨hfit, hmoves, hsees⟩ := h.fit.statTimerCb (w := w) hw
    refine ⟨h.keeps hfit (hmoves.toKeeps.mono (Set.singleton_subset_iff.mpr hw)), fun hl _ v hv => ?_⟩
    rw [hmoves.stats] at hv
    by_cases hvw : v = w
    · subst hvw
      exact hsees (hl v hv)
    · exact hmoves.sees hvw (hl v hv)
  | read events _ =>
    obtain ⟨hfit, hkeeps, hsees⟩ := h.fit.infyCb events
    exact ⟨h.keeps hfit hkeeps, fun hl _ v hv => hsees v (hkeeps.stats ▸ hv) (hl v (hkeeps.stats ▸ hv))⟩
  | fork fs =>
    obtain ⟨hfit, hkeeps, hsees⟩ := h.fit.infyFork fs
    exact ⟨h.keeps hfit hkeeps, fun hl _ v hv => hsees v (hkeeps.stats ▸ hv) (hl v (hkeeps.stats ▸ hv))⟩
  | event ev hev =>
    obtain ⟨hinv, hsees⟩ := h.tells (h.fit.sound.event hev)
    exact ⟨hinv, fun hl _ v hv => hsees v (hl v hv)⟩
  | vanish wd hwd =>
    obtain ⟨hinv, hsees⟩ := h.tells (h.fit.sound.remove hwd)
    exact ⟨hinv, fun hl _ v hv => hsees v (hl v hv)⟩
  | overflow before after hsub =>
    exact ⟨h.overflow hsub, fun hl hspared v hv => (h.overflow_sees (hl v hv)).mpr (hspared v hv)⟩
  | other _ haside =>
    obtain ⟨hinv, hsees⟩ := h.aside haside
    exact ⟨hinv, fun hl _ v hv => hsees v (hl v (haside.stats ▸ hv))⟩

section

omit [DecidableEq U] [DecidableEq A] [Add T] [Sub T]

theorem NoStats.inv (h : NoStats e l) : Inv e c l := by
  have hnone : ∀ wd, ¬ l.kernel.Live wd := fun wd ⟨_, hmem⟩ => by
    rw [h.watches] at hmem
    exact List.not_mem_nil hmem
  refine ⟨⟨h.timersOk, fun v hv => absurd (h.stats v) hv, ⟨h.next.ge, fun wd hl => absurd hl (hnone wd), ?_⟩,
    ?_, ?_⟩, fun v _ => ⟨h.wd v, h.timer v⟩⟩
  · rintro wd ⟨ev, hmem, -⟩
    rw [List.nil_append, h.queue] at hmem
    exact absurd hmem List.not_mem_nil
  · intro k w
    rw [h.hash]
    exact iff_of_false List.not_mem_nil fun hn => hn.1 (h.stats w)
  · intro k
    rw [h.hash]
    exact List.nodup_nil

end

section

omit [DecidableEq A]

/-- A fresh loop. -/
theorem noStats_init [Inhabited U] (backend : Backend) (noinotify signalfd notimerfd : Bool) {k : Kernel U A}
    (hnext : k.next = 1) (hwatches : k.watches = []) (hqueue : k.queue = []) :
    NoStats e (Loop.init backend noinotify signalfd notimerfd k : Loop U T (Kernel U A)) where
  stats _ := rfl
  wd _ := (by decide : (-1 : ℤ) < 0)
  hash _ := rfl
  timersOk := (Loop.heapsOk_noTimers ⟨⟨rfl, fun _ => rfl⟩, rfl, fun _ => rfl⟩).1
  timer _ := rfl
  next := hnext
  watches := hwatches
  queue := hqueue

end

/-- **The buckets.** In any run an active watcher with a descriptor is in the bucket of that, once,
and in no other. -/
theorem stat_buckets {l₀ : Loop U T (Kernel U A)} {acts : List (Act U T)} (h₀ : NoStats e l₀)
    (hrun : Run (Step e c) l₀ acts l) (w : U) (hw : l.stats w ≠ 0) (hwd : 0 ≤ l.wWd w) :
    (∀ k, w ∈ l.fsHash k ↔ k = c.slot (l.wWd w)) ∧ (l.fsHash (c.slot (l.wWd w))).count w = 1 := by
  have hfiled := (hrun.invariant (I := Inv e c) (fun _ _ _ h hs => (h.step hs).1) h₀.inv).fit.filed
  refine ⟨fun k => (hfiled.mem k w).trans ⟨fun hk => hk.2.2, fun hk => ⟨hw, hwd, hk⟩⟩, ?_⟩
  exact List.count_eq_one_of_mem (hfiled.nodup _) ((hfiled.mem _ w).mpr ⟨hw, hwd, rfl⟩)

/-- **No stat watcher goes blind** in a run whose overflows lose no announcement that a watcher goes by: each active
watcher is in the bucket of its descriptor, if it has one, and learns of changes. -/
theorem stat_sighted {l₀ : Loop U T (Kernel U A)} {acts : List (Act U T)} (h₀ : NoStats e l₀)
    (hrun : Run (fun l a m => Step e c l a m ∧ Spared l a) l₀ acts l) (w : U) (hw : l.stats w ≠ 0) :
    (0 ≤ l.wWd w → (∀ k, w ∈ l.fsHash k ↔ k = c.slot (l.wWd w)) ∧ (l.fsHash (c.slot (l.wWd w))).count w = 1) ∧
      Sees [] l w := by
  refine ⟨stat_buckets h₀ (hrun.mono fun _ _ _ h => h.1) w hw, ?_⟩
  have hinv := hrun.invariant (I := fun l => Inv e c l ∧ Sighted l)
    (fun _ _ _ h hs => ⟨(h.1.step hs.1).1, (h.1.step hs.1).2 h.2 hs.2⟩) ⟨h₀.inv, fun v hv => absurd (h₀.stats v) hv⟩
  exact hinv.2 w hw

/-- Two watchers of one path share a watch. One is stopped, and the other asks for a new one. -/
theorem stat_sighted_shared : ∃ (e : Env Bool ℤ) (c : Consts ℤ) (l₀ l : Loop Bool ℤ (Kernel Bool Unit)),
    NoStats e l₀ ∧ Run (fun l a m => Step e c l a m ∧ Spared l a) l₀
      [.start ⟨true, some 9⟩ false, .start ⟨true, some 9⟩ true, .stop false, .read 1] l ∧
    l.stats true ≠ 0 ∧ l.timers.active (.stat true) = 0 ∧ l.wWd true = 2 ∧ Sees [] l true := by
  let e : Env Bool ℤ := ⟨.four, fun _ _ _ => 0, fun _ _ _ => 0⟩
  let c : Consts ℤ := ⟨16, 5, 30, 1, by decide, by decide, by decide, by decide⟩
  let k : Kernel Bool Unit := ⟨1, [], [], fun _ _ => .ok 7, fun _ _ => some 0xEF53, fun _ _ => some ⟨1, ()⟩, 0,
    fun _ => ['f'], fun _ => ⟨1, ()⟩, fun _ => ⟨1, ()⟩⟩
  let l₀ : Loop Bool ℤ (Kernel Bool Unit) := Loop.init .epoll false false true k
  let l₁ := Loop.evStatStart e c ⟨true, some 9⟩ false l₀
  let l₂ := Loop.evStatStart e c ⟨true, some 9⟩ true l₁
  let l₃ := Loop.evStatStop e c false l₂
  let l₄ := l₃.infyCb e c 1
  have h₀ : NoStats e l₀ := noStats_init .epoll false false true rfl rfl rfl
  have hrun : Run (fun l a m => Step e c l a m ∧ Spared l a) l₀
      [.start ⟨true, some 9⟩ false, .start ⟨true, some 9⟩ true, .stop false, .read 1] l₄ :=
    .cons ⟨.start l₀ _ _, trivial⟩ (.cons ⟨.start l₁ _ _, trivial⟩ (.cons ⟨.stop l₂ _, trivial⟩
      (.single ⟨.read l₃ 1 (by decide +kernel), trivial⟩)))
  have hx : (l₄.stats true, l₄.timers.active (.stat true), l₄.wWd true) = (1, 0, 2) := by decide +kernel
  simp only [Prod.mk.injEq] at hx
  have hactive : l₄.stats true ≠ 0 := by
    rw [hx.1]
    decide
  exact ⟨e, c, l₀, l₄, h₀, hrun, hactive, hx.2.1, hx.2.2, (stat_sighted h₀ hrun true hactive).2⟩

/-- As before, but the queue is full, and what is lost is that the watch is gone. The overflow has the path looked
at, and the second watcher keeps a descriptor without a watch, no timer, and nothing to wait for. -/
theorem stat_sighted_lost : ∃ (e : Env Bool ℤ) (c : Consts ℤ) (l₀ l : Loop Bool ℤ (Kernel Bool Unit)), NoStats e l₀ ∧
    Run (Step e c) l₀ [.start ⟨true, some 9⟩ false, .start ⟨true, some 9⟩ true, .event ⟨1, 0x2⟩, .stop false,
      .overflow [⟨1, 0x2⟩] [], .read 2] l ∧
    l.stats true ≠ 0 ∧ ¬ Sees [] l true := by
  let e : Env Bool ℤ := ⟨.four, fun _ _ _ => 0, fun _ _ _ => 0⟩
  let c : Consts ℤ := ⟨16, 5, 30, 1, by decide, by decide, by decide, by decide⟩
  let k : Kernel Bool Unit := ⟨1, [], [], fun _ _ => .ok 7, fun _ _ => some 0xEF53, fun _ _ => some ⟨1, ()⟩, 0,
    fun _ => ['f'], fun _ => ⟨1, ()⟩, fun _ => ⟨1, ()⟩⟩
  let l₀ : Loop Bool ℤ (Kernel Bool Unit) := Loop.init .epoll false false true k
  let l₁ := Loop.evStatStart e c ⟨true, some 9⟩ false l₀
  let l₂ := Loop.evStatStart e c ⟨true, some 9⟩ true l₁
  let l₃ : Loop Bool ℤ (Kernel Bool Unit) :=
    { l₂ with kernel := { l₂.kernel with queue := l₂.kernel.queue ++ [⟨1, 0x2⟩] } }
  let l₄ := Loop.evStatStop e c false l₃
  let l₅ : Loop Bool ℤ (Kernel Bool Unit) :=
    { l₄ with kernel := { l₄.kernel with queue := [⟨1, 0x2⟩] ++ overflowEvent :: [] } }
  let l₆ := l₅.infyCb e c 2
  have hq : l₄.kernel.queue = [⟨1, 0x2⟩, ⟨1, inIgnored⟩] := by decide +kernel
  have hsub : ([⟨1, 0x2⟩] ++ [] : List Event).Sublist l₄.kernel.queue := by
    rw [hq]
    decide
  have hrun : Run (Step e c) l₀ [.start ⟨true, some 9⟩ false, .start ⟨true, some 9⟩ true, .event ⟨1, 0x2⟩,
      .stop false, .overflow [⟨1, 0x2⟩] [], .read 2] l₆ :=
    .cons (.start l₀ _ _) (.cons (.start l₁ _ _) (.cons (.event l₂ _ (by decide)) (.cons (.stop l₃ _)
      (.cons (.overflow l₄ _ _ hsub) (.single (.read l₅ 2 (by decide +kernel)))))))
  have hx : (l₆.stats true, l₆.timers.active (.stat true), l₆.kernel.watches, l₆.kernel.queue) = (1, 0, [], []) := by
    decide +kernel
  simp only [Prod.mk.injEq] at hx
  refine ⟨e, c, l₀, l₆, noStats_init .epoll false false true rfl rfl rfl, hrun, by rw [hx.1]; decide, ?_⟩
  rintro (ht | ⟨-, ⟨inode, hmem⟩ | ⟨ev, hmem, -⟩⟩)
  · exact ht hx.2.1
  · rw [hx.2.2.1] at hmem
    exact List.not_mem_nil hmem
  · rw [List.nil_append, hx.2.2.2] at hmem
    exact List.not_mem_nil hmem

end Infy

end Qev
