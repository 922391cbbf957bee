/-
# What EV_STAT says

`stat_timer_cb` compares the attributes of a path with those it had, and saves the old ones in `prev` if they
differ. With inotify it then watches the path anew and looks at it a second time, so what is in `attr` when `EV_STAT`
is queued is not what was compared.

A run keeps a record of each call (`Check`): with the pending events before and after it, and with `prev` and `attr`
where the call feeds `EV_STAT`. Those differ whenever it does so exactly if no second look finds the old attributes
again (`stat_differs`).
-/
import Qev.Loop.StatRun
import Qev.Loop.Views

namespace Qev

open Lib

namespace Infy

variable {U T A : Type} [DecidableEq U] [DecidableEq A] [LinearOrder T] [Add T] [Sub T] [Zero T]

/-! ### The calls of stat_timer_cb -/

/-- What `ev_stat_stat` makes of the attributes when `lstat` answers this. -/
def seen (attr : Attr A) : Option (Attr A) → Attr A
  | none => { attr with nlink := 0 }
  | some new => if new.nlink = 0 then { new with nlink := 1 } else new

/-- A call of `stat_timer_cb` for `watcher`: the attributes before it, whether inotify is in use, what `lstat` answers
at the first look and would answer at a second one, `prev` and `attr` when `EV_STAT` is queued, and the pending events
before and after the call. -/
structure Check (U A : Type) where
  watcher : U
  before : Attr A
  inotify : Bool
  first : Option (Attr A)
  second : Option (Attr A)
  queued : Option (Attr A × Attr A)
  pend : Pend (Watcher U)
  pended : Pend (Watcher U)

/-- The call feeds `EV_STAT` if that is queued, and else no events. -/
structure Check.Feeds (k : Check U A) : Prop where
  quiet : k.queued = none → k.pended = k.pend
  fed : k.queued ≠ none → ∃ p : Pend (Watcher U), k.pended = p.evFeedEvent (.stat k.watcher) evStat

/-- The first look finds other attributes, and the second one those from before again. -/
def Check.Undone (k : Check U A) : Prop :=
  seen k.before k.first ≠ k.before ∧ k.inotify = true ∧ seen (seen k.before k.first) k.second = k.before

/-- What the steps of a walk over a list add to a record. -/
def trace {S X Y : Type} (f : S → X → S) (g : S → X → List Y) : List X → S → List Y
  | [], _ => []
  | x :: xs, s => g s x ++ trace f g xs (f s x)

theorem mem_trace {S X Y : Type} {f : S → X → S} {g : S → X → List Y} {xs : List X} {s : S} {y : Y}
    (h : y ∈ trace f g xs s) : ∃ s x, y ∈ g s x := by
  induction xs generalizing s with
  | nil => exact absurd h List.not_mem_nil
  | cons x xs ih =>
    rcases List.mem_append.mp h with h | h
    · exact ⟨s, x, h⟩
    · exact ih h

end Infy

namespace Loop

open Infy

variable {U T A : Type} [DecidableEq U] [DecidableEq A] [LinearOrder T] [Add T] [Sub T] [Zero T]
  (e : Env U T) (c : Consts T)

/-- `stat_timer_cb` before its second look. -/
def rewatched (l : Loop U T (Kernel U A)) (w : U) : Loop U T (Kernel U A) :=
  let prev := l.kernel.attr w
  let l := l.evStatStat w
  let l := { l with kernel := { l.kernel with prev := Function.update l.kernel.prev w prev } }
  (l.infyDel c w).infyAdd e c w

def check (l : Loop U T (Kernel U A)) (w : U) : Check U A where
  watcher := w
  before := l.kernel.attr w
  inotify := decide (0 ≤ l.fsFd)
  first := l.kernel.lstat l.kernel.calls (l.kernel.path w)
  second :=
    let k := (l.rewatched e c w).kernel
    k.lstat k.calls (k.path w)
  queued :=
    match l.statTimerLook e c w with
    | (l, true) => some (l.kernel.prev w, l.kernel.attr w)
    | (_, false) => none
  pend := l.pend
  pended := (l.statTimerCb e c w).pend

/-- The calls `infy_wd` makes, for one watcher of a bucket and for a bucket, and all. -/
def infyWdOneChecks (slot : ℕ) (wd : ℤ) (mask : BitVec 32) (l : Loop U T (Kernel U A)) (w : U) : List (Check U A) :=
  if l.wWd w = wd ∨ wd = -1 then
    let l := if readds mask then ((l.fsDel w slot).setWd w (-1)).infyAdd e c w else l
    [l.check e c w]
  else []

def infyWdSlotChecks (wd : ℤ) (mask : BitVec 32) (l : Loop U T (Kernel U A)) (slot : ℕ) : List (Check U A) :=
  trace (infyWdOne e c slot wd mask) (infyWdOneChecks e c slot wd mask) (l.fsHash slot) l

def infyWdChecks (l : Loop U T (Kernel U A)) (ev : Event) : List (Check U A) :=
  if ev.wd < 0 then
    trace (infyWdSlot e c ev.wd ev.mask) (infyWdSlotChecks e c ev.wd ev.mask) (List.range c.hashsize) l
  else infyWdSlotChecks e c ev.wd ev.mask l (c.slot ev.wd)

/-- The calls of `stat_timer_cb` in a step. -/
def statChecks (l : Loop U T (Kernel U A)) : Act U T → List (Check U A)
  | .timer w => [l.check e c w]
  | .read n =>
    trace (infyWd e c) (infyWdChecks e c) (l.kernel.queue.take n)
      { l with kernel := { l.kernel with queue := l.kernel.queue.drop n } }
  | _ => []

variable {e : Env U T} {c : Consts T} {l m : Loop U T (Kernel U A)} {w : U}

theorem check_of_mem {a : Act U T} {k : Check U A} (h : k ∈ l.statChecks e c a) :
    ∃ (m : Loop U T (Kernel U A)) (w : U), k = m.check e c w := by
  have hone : ∀ (slot : ℕ) (wd : ℤ) (mask : BitVec 32) (l : Loop U T (Kernel U A)) (w : U),
      k ∈ infyWdOneChecks e c slot wd mask l w → ∃ (m : Loop U T (Kernel U A)) (w : U), k = m.check e c w := by
    intro slot wd mask l w h
    unfold infyWdOneChecks at h
    split at h
    · exact ⟨_, w, List.mem_singleton.mp h⟩
    · exact absurd h List.not_mem_nil
  have hslot : ∀ (wd : ℤ) (mask : BitVec 32) (l : Loop U T (Kernel U A)) (slot : ℕ),
      k ∈ infyWdSlotChecks e c wd mask l slot → ∃ (m : Loop U T (Kernel U A)) (w : U), k = m.check e c w := by
    intro wd mask l slot h
    obtain ⟨l, w, h⟩ := mem_trace h
    exact hone slot wd mask l w h
  cases a with
  | timer w => exact ⟨l, w, List.mem_singleton.mp h⟩
  | read n =>
    obtain ⟨l, ev, h⟩ := mem_trace h
    unfold infyWdChecks at h
    split at h
    · obtain ⟨l, slot, h⟩ := mem_trace h
      exact hslot _ _ l slot h
    · exact hslot _ _ l _ h
  | _ => exact absurd h List.not_mem_nil

/-! ### What stays while a path is watched anew -/

/-- The attributes of all watchers are the same, and the saved ones. -/
structure Looks (l m : Loop U T (Kernel U A)) : Prop where
  attr : m.kernel.attr = l.kernel.attr
  prev : m.kernel.prev = l.kernel.prev

section

omit [DecidableEq U] [DecidableEq A] [LinearOrder T] [Add T] [Sub T] [Zero T]

theorem Looks.refl (l : Loop U T (Kernel U A)) : Looks l l := ⟨rfl, rfl⟩

theorem Looks.trans {n : Loop U T (Kernel U A)} (h : Looks l m) (h' : Looks m n) : Looks l n :=
  ⟨h'.attr.trans h.attr, h'.prev.trans h.prev⟩

theorem addWatch_looks (k : Kernel U A) (path : List Char) :
    (k.addWatch path).1.attr = k.attr ∧ (k.addWatch path).1.prev = k.prev := by
  unfold Kernel.addWatch
  dsimp only
  split
  · exact ⟨rfl, rfl⟩
  · split
    · exact ⟨rfl, rfl⟩
    · exact ⟨rfl, rfl⟩

end

section

omit [DecidableEq A] [LinearOrder T] [Add T] [Sub T] [Zero T]

theorem looks_infyParents (n : ℕ) (path : List Char) (l : Loop U T (Kernel U A)) :
    Looks l (infyParents w n path l) := by
  induction n generalizing path l with
  | zero => exact .refl l
  | succ n ih =>
    unfold infyParents
    split
    · exact .refl l
    · rename_i path' _
      obtain ⟨h₁, h₂⟩ := addWatch_looks l.kernel path'
      split
      · rename_i k wd hk
        rw [hk] at h₁ h₂
        exact ⟨h₁, h₂⟩
      · rename_i k hk
        rw [hk] at h₁ h₂
        exact ⟨h₁, h₂⟩
      · rename_i k err _ hk
        rw [hk] at h₁ h₂
        exact Looks.trans (m := { l with kernel := k }) ⟨h₁, h₂⟩ (ih path' _)

end

section

omit [DecidableEq A] [Add T] [Sub T]

theorem looks_infyWatch (l : Loop U T (Kernel U A)) : Looks l (l.infyWatch c w) := by
  obtain ⟨h₁, h₂⟩ := addWatch_looks l.kernel (l.kernel.path w)
  unfold infyWatch
  dsimp only
  split
  · rename_i k wd hk
    rw [hk] at h₁ h₂
    split
    · exact ⟨h₁, h₂⟩
    · split
      · exact ⟨h₁, h₂⟩
      · exact ⟨h₁, h₂⟩
  · rename_i k err hk
    rw [hk] at h₁ h₂
    split
    · refine Looks.trans (m := (({ l with kernel := k } : Loop U T (Kernel U A)).setWd w (-1)).setRepeat w
        ((({ l with kernel := k } : Loop U T (Kernel U A)).setWd w (-1)).interval w c.defStat)) ⟨h₁, h₂⟩ ?_
      exact looks_infyParents _ _ _
    · exact ⟨h₁, h₂⟩

end

section

omit [DecidableEq A] [Add T] [Zero T]

theorem kernel_evTimerStop (l : Loop U T (Kernel U A)) (x : TimerW U) : (l.evTimerStop e x).kernel = l.kernel := by
  unfold evTimerStop
  dsimp only
  split
  · rfl
  · rfl

end

section

omit [DecidableEq A]

theorem kernel_evTimerAgain (l : Loop U T (Kernel U A)) (x : TimerW U) :
    (l.evTimerAgain e x).kernel = l.kernel := by
  unfold evTimerAgain
  dsimp only
  split
  · split
    · rfl
    · exact kernel_evTimerStop _ x
  · split
    · unfold evTimerStart
      split
      · rfl
      · rfl
    · rfl

theorem looks_statRearm (l : Loop U T (Kernel U A)) : Looks l (l.statRearm e w) := by
  have hk : (l.statRearm e w).kernel = l.kernel := by
    unfold statRearm
    dsimp only
    have href : (if l.timers.active (.stat w) ≠ 0 then l.evRef else l).kernel = l.kernel := by
      split
      · rfl
      · rfl
    generalize (if l.timers.active (.stat w) ≠ 0 then l.evRef else l) = m at href
    split
    · exact (kernel_evTimerAgain m _).trans href
    · exact (kernel_evTimerAgain m _).trans href
  exact ⟨congrArg Kernel.attr hk, congrArg Kernel.prev hk⟩

theorem looks_infyAdd (l : Loop U T (Kernel U A)) : Looks l (l.infyAdd e c w) := by
  have hw := looks_infyWatch (c := c) (w := w) l
  unfold infyAdd
  dsimp only
  generalize l.infyWatch c w = m at hw
  split
  · exact hw.trans (Looks.trans (m := m.fsAdd w (c.slot (m.wWd w))) ⟨rfl, rfl⟩ (looks_statRearm _))
  · exact hw.trans (looks_statRearm m)

end

section

omit [DecidableEq A] [Add T] [Sub T]

theorem looks_infyDel (l : Loop U T (Kernel U A)) : Looks l (l.infyDel c w) := by
  unfold infyDel
  dsimp only
  split
  · exact .refl l
  · unfold Kernel.rmWatch
    split
    · exact ⟨rfl, rfl⟩
    · exact ⟨rfl, rfl⟩

end

/-! ### What is found when EV_STAT is queued -/

section

omit [DecidableEq A] [LinearOrder T] [Add T] [Sub T] [Zero T]

theorem attr_evStatStat (l : Loop U T (Kernel U A)) (w : U) :
    (l.evStatStat w).kernel.attr w = seen (l.kernel.attr w) (l.kernel.lstat l.kernel.calls (l.kernel.path w)) := by
  unfold evStatStat seen
  dsimp only
  refine (Function.update_self ..).trans ?_
  cases l.kernel.lstat l.kernel.calls (l.kernel.path w) with
  | none => rfl
  | some attr => rfl

end

/-- `stat_timer_cb` once the old attributes are saved. -/
def saved (l : Loop U T (Kernel U A)) (w : U) : Loop U T (Kernel U A) :=
  let prev := l.kernel.attr w
  let l := l.evStatStat w
  { l with kernel := { l.kernel with prev := Function.update l.kernel.prev w prev } }

theorem statTimerLook_differs (hne : l.kernel.attr w ≠ (l.evStatStat w).kernel.attr w) :
    l.statTimerLook e c w = (if 0 ≤ l.fsFd then (l.rewatched e c w).evStatStat w else l.saved w, true) := by
  unfold statTimerLook
  dsimp only
  rw [if_pos hne]
  rfl

theorem statTimerLook_same (heq : ¬ l.kernel.attr w ≠ (l.evStatStat w).kernel.attr w) :
    l.statTimerLook e c w = (l.evStatStat w, false) := by
  unfold statTimerLook
  dsimp only
  rw [if_neg heq]

/-- What is fed is what the record says. -/
theorem feeds_check (l : Loop U T (Kernel U A)) (w : U) : (l.check e c w).Feeds := by
  have hcb : (l.check e c w).pended = (l.statTimerCb e c w).pend := rfl
  by_cases hne : l.kernel.attr w ≠ (l.evStatStat w).kernel.attr w
  · have hlook := statTimerLook_differs (e := e) (c := c) hne
    refine ⟨fun hq => ?_, fun _ => ?_⟩
    · unfold check at hq
      rw [hlook] at hq
      exact absurd hq (Option.some_ne_none _)
    · rw [hcb]
      unfold statTimerCb
      rw [hlook]
      exact ⟨_, rfl⟩
  · have hlook := statTimerLook_same (e := e) (c := c) hne
    refine ⟨fun _ => ?_, fun hq => absurd ?_ hq⟩
    · rw [hcb]
      unfold statTimerCb
      rw [hlook]
      rfl
    · unfold check
      rw [hlook]

section

omit [DecidableEq A]

theorem looks_rewatched (l : Loop U T (Kernel U A)) (w : U) : Looks (l.saved w) (l.rewatched e c w) :=
  (looks_infyDel (c := c) (l.saved w)).trans (looks_infyAdd _)

end

/-- `EV_STAT` is queued for a difference to `prev`, and then `attr` is what the last look has found. -/
theorem queued_check (l : Loop U T (Kernel U A)) (w : U) :
    (l.check e c w).queued =
      if seen (l.check e c w).before (l.check e c w).first ≠ (l.check e c w).before then
        some ((l.check e c w).before,
          if (l.check e c w).inotify = true then
            seen (seen (l.check e c w).before (l.check e c w).first) (l.check e c w).second
          else seen (l.check e c w).before (l.check e c w).first)
      else none := by
  unfold check
  dsimp only
  rw [← attr_evStatStat]
  by_cases hne : (l.evStatStat w).kernel.attr w ≠ l.kernel.attr w
  · rw [if_pos hne]
    have hlook := looks_rewatched (e := e) (c := c) l w
    have hprev : (l.saved w).kernel.prev w = l.kernel.attr w := Function.update_self ..
    rw [statTimerLook_differs (Ne.symm hne)]
    by_cases hfs : 0 ≤ l.fsFd
    · rw [if_pos hfs, if_pos (decide_eq_true hfs)]
      have hattr := attr_evStatStat (l.rewatched e c w) w
      rw [hlook.attr] at hattr
      exact congrArg some (Prod.ext ((congrFun hlook.prev w).trans hprev) hattr)
    · rw [if_neg hfs, if_neg (by simpa using hfs)]
      exact congrArg some (Prod.ext hprev rfl)
  · rw [if_neg hne, statTimerLook_same fun hc => hne (Ne.symm hc)]

theorem check_differs (l : Loop U T (Kernel U A)) (w : U) :
    (∀ x ∈ (l.check e c w).queued, x.1 ≠ x.2) ↔ ¬ (l.check e c w).Undone := by
  rw [queued_check]
  generalize l.check e c w = k
  unfold Check.Undone
  split
  · rename_i hne
    simp only [Option.mem_some_iff, forall_eq']
    split
    · rename_i hin
      exact ⟨fun h hu => h hu.2.2.symm, fun h hc => h ⟨hne, hin, hc.symm⟩⟩
    · rename_i hout
      exact iff_of_true hne.symm fun hu => hout hu.2.1
  · rename_i heq
    exact iff_of_true (fun x hx => absurd hx (Option.not_mem_none x)) fun hu => heq hu.1

end Loop

namespace Infy

variable {U T A : Type} [DecidableEq U] [DecidableEq A] [LinearOrder T] [Add T] [Sub T] [Zero T]

/-! ### Main result -/

/-- A step, and its calls of `stat_timer_cb` are recorded. -/
def Recorded (e : Env U T) (c : Consts T) (s : Loop U T (Kernel U A) × List (Check U A)) (a : Act U T)
    (t : Loop U T (Kernel U A) × List (Check U A)) : Prop :=
  Step e c s.1 a t.1 ∧ t.2 = s.2 ++ s.1.statChecks e c a

section

variable {e : Env U T} {c : Consts T} {l : Loop U T (Kernel U A)} {w : U} {record : List (Check U A)}

theorem recorded_start (o : Opened) :
    Recorded e c (l, record) (.start o w) (Loop.evStatStart e c o w l, record) :=
  ⟨.start l o w, (List.append_nil record).symm⟩

theorem recorded_timer (h : l.stats w ≠ 0) :
    Recorded e c (l, record) (.timer w) (l.statTimerCb e c w, record ++ [l.check e c w]) :=
  ⟨.timer l w h, rfl⟩

end

/-- In any run each call feeds `EV_STAT` if that is queued and nothing else. `prev` and `attr` differ whenever it is
queued exactly if no second look finds the old attributes again. -/
theorem stat_differs {e : Env U T} {c : Consts T} {l₀ l : Loop U T (Kernel U A)} {acts : List (Act U T)}
    {record : List (Check U A)} (hrun : Run (Recorded e c) (l₀, []) acts (l, record)) :
    (∀ k ∈ record, k.Feeds) ∧
      ((∀ k ∈ record, ∀ x ∈ k.queued, x.1 ≠ x.2) ↔ ∀ k ∈ record, ¬ k.Undone) := by
  have hrecord := hrun.invariant (I := fun s => ∀ k ∈ s.2, ∃ (m : Loop U T (Kernel U A)) (w : U), k = m.check e c w)
    (fun s a t hs hstep k hk => by
      rw [hstep.2] at hk
      rcases List.mem_append.mp hk with hk | hk
      · exact hs k hk
      · exact Loop.check_of_mem hk) fun k hk => absurd hk List.not_mem_nil
  refine ⟨fun k hk => ?_, forall₂_congr fun k hk => ?_⟩
  · obtain ⟨m, w, rfl⟩ := hrecord k hk
    exact Loop.feeds_check m w
  · obtain ⟨m, w, rfl⟩ := hrecord k hk
    exact Loop.check_differs m w

/-- The environment of the runs below: a path on a filesystem that is not local, with these answers of `lstat`. -/
def remote (lstat : ℕ → Option (Attr Unit)) : Kernel Bool Unit :=
  ⟨1, [], [], fun _ _ => .ok 7, fun _ _ => some 0x6969, fun n _ => lstat n, 0, fun _ => ['f'], fun _ => ⟨1, ()⟩,
    fun _ => ⟨1, ()⟩⟩

/-- The path is away at the first look and still away at the second one. -/
theorem stat_differs_away : ∃ (e : Env Bool ℤ) (c : Consts ℤ) (l : Loop Bool ℤ (Kernel Bool Unit))
    (record : List (Check Bool Unit)),
    Run (Recorded e c) (Loop.init .epoll false false true (remote fun n => if n = 0 then some ⟨1, ()⟩ else none), [])
      [.start ⟨true, some 9⟩ false, .timer false] (l, record) ∧
    record.map Check.queued = [some (⟨1, ()⟩, ⟨0, ()⟩)] ∧ ∀ k ∈ record, ∀ x ∈ k.queued, x.1 ≠ x.2 := by
  let e : Env Bool ℤ := ⟨.four, fun _ _ _ => 0, fun _ _ _ => 0⟩
  let c : Consts ℤ := ⟨16, 5, 30, 1, by decide, by decide, by decide, by decide⟩
  let l₀ : Loop Bool ℤ (Kernel Bool Unit) :=
    Loop.init .epoll false false true (remote fun n => if n = 0 then some ⟨1, ()⟩ else none)
  let l₁ := Loop.evStatStart e c ⟨true, some 9⟩ false l₀
  have hrun : Run (Recorded e c) (l₀, []) [.start ⟨true, some 9⟩ false, .timer false]
      (l₁.statTimerCb e c false, [l₁.check e c false]) :=
    .cons (recorded_start _) (.single (recorded_timer (by decide +kernel)))
  have hq : (l₁.check e c false).queued = some (⟨1, ()⟩, ⟨0, ()⟩) := by decide +kernel
  refine ⟨e, c, _, _, hrun, congrArg (fun x => [x]) hq, (stat_differs hrun).2.mpr fun k hk => ?_⟩
  rw [List.mem_singleton.mp hk]
  exact (Loop.check_differs l₁ false).mp fun x hx => by
    rw [hq] at hx
    cases hx
    decide

/-- The path is away at the first look and back at the second one: the watcher was told of a change, and `prev` is
what `attr` is. -/
theorem stat_differs_fails : ∃ (e : Env Bool ℤ) (c : Consts ℤ) (l₀ l : Loop Bool ℤ (Kernel Bool Unit))
    (record : List (Check Bool Unit)), NoStats e l₀ ∧
    Run (Recorded e c) (l₀, []) [.start ⟨true, some 9⟩ false, .timer false] (l, record) ∧
    l.pend.pendingFor (.stat false) = some evStat ∧ ∃ k ∈ record, ∃ x ∈ k.queued, x.1 = x.2 := by
  let e : Env Bool ℤ := ⟨.four, fun _ _ _ => 0, fun _ _ _ => 0⟩
  let c : Consts ℤ := ⟨16, 5, 30, 1, by decide, by decide, by decide, by decide⟩
  let l₀ : Loop Bool ℤ (Kernel Bool Unit) :=
    Loop.init .epoll false false true (remote fun n => if n = 3 then none else some ⟨1, ()⟩)
  let l₁ := Loop.evStatStart e c ⟨true, some 9⟩ false l₀
  have hrun : Run (Recorded e c) (l₀, []) [.start ⟨true, some 9⟩ false, .timer false]
      (l₁.statTimerCb e c false, [l₁.check e c false]) :=
    .cons (recorded_start _) (.single (recorded_timer (by decide +kernel)))
  have hq : (l₁.check e c false).queued = some (⟨1, ()⟩, ⟨1, ()⟩) := by decide +kernel
  have hp : (l₁.statTimerCb e c false).pend.pendingFor (.stat false) = some evStat := by decide +kernel
  exact ⟨e, c, l₀, _, _, noStats_init .epoll false false true rfl rfl rfl, hrun, hp, _, List.mem_singleton_self _,
    (⟨1, ()⟩, ⟨1, ()⟩), hq, rfl⟩

end Infy

end Qev
