/-
# What stat watchers, forks and embeds count

A stat watcher has a timer that does not keep the loop alive, and inotify an io watcher; a fork stops and starts the
loop's own watchers; and an embed starts three watchers that do count.
-/
import Qev.Loop.TallyCalls

namespace Qev

open Lib

namespace Census

section

variable {U T A : Type} [DecidableEq U] [DecidableEq A] [LinearOrder T] [Add T] [Sub T] [Zero T]
variable {e : Env U T} {l m n : Loop U T (Infy.Kernel U A)} {w : Watcher U} {b : Bool} {d d' : ℤ}

/-! ### Stat watchers and a fork -/

/-- What was well formed stays so. -/
structure Tends (l m : Loop U T (Infy.Kernel U A)) : Prop where
  keeps : Keeps l m
  lone : Lone l → Lone m

/-- No watcher of the user is started or stopped, and the count changes by `k`. -/
structure Minds (e : Env U T) (k : ℤ) (l m : Loop U T (Infy.Kernel U A)) : Prop extends Tends l m where
  shifts : Loop.Shifts e k l m

variable {k k' : ℤ}

section

omit [DecidableEq A]

theorem Tends.refl (l : Loop U T (Infy.Kernel U A)) : Tends l l := ⟨.refl l, id⟩

theorem Tends.trans (h : Tends l m) (h' : Tends m n) : Tends l n := ⟨h.keeps.trans h'.keeps, h'.lone ∘ h.lone⟩

theorem Minds.refl (h : Loop.Heaped e l) : Minds e 0 l l := ⟨.refl l, h.shifts⟩

theorem Minds.trans (h : Minds e k l m) (h' : Minds e k' m n) : Minds e (k + k') l n :=
  ⟨h.toTends.trans h'.toTends, h.shifts.trans h'.shifts⟩

end

section

omit [DecidableEq U] [DecidableEq A] [Add T] [Sub T] [Zero T]

theorem Minds.heaped (h : Minds e k l m) : Loop.Heaped e m := h.shifts.heaped

end

theorem Tallied.minds (h : Tallied e d l) (hm : Minds e k l m) : Tallied e (d + k) m := by
  have hset : alive m = alive l := by
    ext v
    exact and_congr_right fun hv => hm.shifts.active v (own_of_counted hv)
  refine ⟨hm.keeps.built h.built hm.heaped.ok, hset ▸ h.finite, ?_⟩
  rw [hm.shifts.count, hset, h.count]
  ring

section

omit [DecidableEq A]

theorem minds_foldl {X : Type} {f : Loop U T (Infy.Kernel U A) → X → Loop U T (Infy.Kernel U A)}
    (hf : ∀ l x, Loop.Heaped e l → Minds e 0 l (f l x)) (xs : List X) (h : Loop.Heaped e l) :
    Minds e 0 l (xs.foldl f l) := by
  induction xs generalizing l with
  | nil => exact .refl h
  | cons x xs ih => exact (hf l x h).trans (ih (hf l x h).heaped)

end

/-- What changes no watcher at all. -/
theorem minds_data (h : Loop.Heaped e l) (hk : Keeps l m) (hh : m.timers = l.timers ∧ m.periodics = l.periodics)
    (ha : m.active = l.active) (hn : m.activecnt = l.activecnt) (ho : Owned m = Owned l) : Minds e 0 l m :=
  ⟨⟨hk, fun hl => hl.same ha ho⟩, h.aside hh.1 hh.2 hn ha⟩

theorem minds_evFeedEvent (h : Loop.Heaped e l) (w : Watcher U) (revents : Events) :
    Minds e 0 l (l.evFeedEvent w revents) :=
  minds_data h (keeps_evFeedEvent l w revents) ⟨rfl, rfl⟩ (by funext v; cases v <;> rfl) rfl rfl

section

omit [DecidableEq A]

theorem keeps_evTimerStart (l : Loop U T (Infy.Kernel U A)) (w : TimerW U) : Keeps l (l.evTimerStart e w) := by
  unfold Loop.evTimerStart
  split
  · exact .refl l
  · have hs := keeps_evStart l (w := .timer w) rfl
    exact ⟨hs.arrays, hs.counts, id, hs.named⟩

theorem keeps_evTimerStop (l : Loop U T (Infy.Kernel U A)) (w : TimerW U) : Keeps l (l.evTimerStop e w) := by
  have hc := keeps_clearPending l (.timer w)
  unfold Loop.evTimerStop
  dsimp only
  split
  · exact hc
  · exact ⟨hc.arrays, hc.counts, id, hc.named⟩

theorem keeps_evTimerAgain (l : Loop U T (Infy.Kernel U A)) (w : TimerW U) : Keeps l (l.evTimerAgain e w) := by
  have hc := keeps_clearPending l (.timer w)
  unfold Loop.evTimerAgain
  dsimp only
  split
  · split
    · exact ⟨hc.arrays, hc.counts, id, hc.named⟩
    · exact hc.trans (keeps_evTimerStop _ w)
  · split
    · refine .trans ?_ (keeps_evTimerStart _ w)
      exact ⟨hc.arrays, hc.counts, id, hc.named⟩
    · exact hc

end

section

omit [DecidableEq U] [DecidableEq A] [LinearOrder T] [Add T] [Sub T] [Zero T]

/-- A timer owns nothing, and is not owned. -/
theorem Lone.frame (h : Lone l) (hf : m.fds = l.fds) (hp : m.prepares = l.prepares) (hk : m.forks = l.forks)
    (ho : Owned m = Owned l) : Lone m := by
  intro v hv
  rw [ho]
  cases v with
  | io v =>
    refine h (.io v) ?_
    rw [show l.active (.io v) = l.fds.active v from rfl, ← hf]
    exact hv
  | prepare v =>
    refine h (.prepare v) ?_
    rw [show l.active (.prepare v) = l.prepares.active v from rfl, ← hp]
    exact hv
  | fork v =>
    refine h (.fork v) ?_
    rw [show l.active (.fork v) = l.forks.active v from rfl, ← hk]
    exact hv
  | _ => trivial

end

theorem minds_statRearm (h : Loop.Heaped e l) (w : U) : Minds e 0 l (l.statRearm e w) := by
  have hshift := h.statRearm w
  suffices htends : Tends l (l.statRearm e w) from ⟨htends, hshift⟩
  unfold Loop.statRearm
  dsimp only
  obtain ⟨href, ht⟩ : Tends l (if l.timers.active (.stat w) ≠ 0 then l.evRef else l) ∧
      (if l.timers.active (.stat w) ≠ 0 then l.evRef else l).timers = l.timers := by
    split
    · exact ⟨⟨⟨rfl, rfl, id, id⟩, fun hl => hl.frame rfl rfl rfl rfl⟩, rfl⟩
    · exact ⟨.refl l, rfl⟩
  generalize (if l.timers.active (.stat w) ≠ 0 then l.evRef else l) = m at href ht ⊢
  have hok : m.TimersOk e := by
    unfold Loop.TimersOk
    rw [ht]
    exact h.timers
  have hagain := keeps_evTimerAgain (e := e) m (.stat w)
  obtain ⟨p, k, d, heq, -⟩ := Loop.evTimerAgain_eq hok (.stat w)
  rw [heq] at hagain ⊢
  split
  · exact href.trans ⟨hagain.trans ⟨rfl, rfl, id, id⟩, fun hl => hl.frame rfl rfl rfl rfl⟩
  · exact href.trans ⟨hagain, fun hl => hl.frame rfl rfl rfl rfl⟩

section

variable {c : Infy.Consts T}

/-- What the kernel is asked, and what is known of the path. -/
theorem minds_stat (h : Loop.Heaped e l) {kernel : Infy.Kernel U A} {wd : U → ℤ} {hash : ℕ → List U}
    {wRepeat : TimerW U → T} : Minds e 0 l { l with kernel := kernel, wWd := wd, fsHash := hash, wRepeat := wRepeat } :=
  minds_data h ⟨rfl, rfl, id, id⟩ ⟨rfl, rfl⟩ (by funext v; cases v <;> rfl) rfl rfl

theorem minds_infyParents (n : ℕ) (path : List Char) (h : Loop.Heaped e l) (w : U) :
    Minds e 0 l (Loop.infyParents w n path l) := by
  induction n generalizing path l with
  | zero => exact .refl h
  | succ n ih =>
    unfold Loop.infyParents
    split
    · exact .refl h
    · rename_i path' _
      split
      · exact minds_stat h
      · exact minds_stat h
      · rename_i kernel _ _ _
        have hk : Minds e 0 l { l with kernel := kernel } := minds_stat h
        exact hk.trans (ih path' hk.heaped)

theorem minds_infyWatch (h : Loop.Heaped e l) (w : U) : Minds e 0 l (l.infyWatch c w) := by
  unfold Loop.infyWatch
  dsimp only
  split
  · split
    · exact minds_stat h
    · split
      · exact minds_stat h
      · exact minds_stat h
  · rename_i kernel err _
    have hset : Minds e 0 l ((({ l with kernel := kernel } : Loop U T (Infy.Kernel U A)).setWd w (-1)).setRepeat w
        ((({ l with kernel := kernel } : Loop U T (Infy.Kernel U A)).setWd w (-1)).interval w c.defStat)) :=
      minds_stat h
    split
    · exact hset.trans (minds_infyParents _ _ hset.heaped w)
    · exact hset

theorem minds_infyAdd (h : Loop.Heaped e l) (w : U) : Minds e 0 l (l.infyAdd e c w) := by
  have hwatch := minds_infyWatch (c := c) h w
  unfold Loop.infyAdd
  dsimp only
  generalize l.infyWatch c w = m at hwatch ⊢
  have hadd : Minds e 0 m (if 0 ≤ m.wWd w then m.fsAdd w (c.slot (m.wWd w)) else m) := by
    split
    · exact minds_stat hwatch.heaped
    · exact .refl hwatch.heaped
  exact (hwatch.trans hadd).trans (minds_statRearm hadd.heaped w)

theorem minds_infyDel (h : Loop.Heaped e l) (w : U) : Minds e 0 l (l.infyDel c w) := by
  unfold Loop.infyDel
  dsimp only
  split
  · exact .refl h
  · exact minds_stat h

theorem minds_statTimerLook (h : Loop.Heaped e l) (w : U) : Minds e 0 l (l.statTimerLook e c w).1 := by
  have hstat : Minds e 0 l (l.evStatStat w) := minds_stat h
  unfold Loop.statTimerLook
  dsimp only
  split
  · have hagain : ∀ n : Loop U T (Infy.Kernel U A), Loop.Heaped e n →
        Minds e 0 n (if 0 ≤ n.fsFd then ((n.infyDel c w).infyAdd e c w).evStatStat w else n) := by
      intro n hn
      split
      · have hdel := minds_infyDel (c := c) hn w
        have hadd := minds_infyAdd (c := c) hdel.heaped w
        exact (hdel.trans hadd).trans (minds_stat hadd.heaped)
      · exact .refl hn
    have hprev : Minds e 0 l { l.evStatStat w with kernel := { (l.evStatStat w).kernel with
        prev := Function.update (l.evStatStat w).kernel.prev w (l.kernel.attr w) } } := minds_stat h
    exact hprev.trans (hagain _ hprev.heaped)
  · exact hstat

theorem minds_statTimerCb (h : Loop.Heaped e l) (w : U) : Minds e 0 l (l.statTimerCb e c w) := by
  have hlook := minds_statTimerLook (c := c) h w
  unfold Loop.statTimerCb
  generalize l.statTimerLook e c w = x at hlook
  obtain ⟨n, b⟩ := x
  cases b with
  | true => exact hlook.trans (minds_evFeedEvent hlook.heaped _ _)
  | false => exact hlook

theorem minds_infyWdOne (slot : ℕ) (wd : ℤ) (mask : BitVec 32) (h : Loop.Heaped e l) (w : U) :
    Minds e 0 l (Loop.infyWdOne e c slot wd mask l w) := by
  unfold Loop.infyWdOne
  dsimp only
  split
  · have hread : Minds e 0 l
        (if Loop.readds mask then ((l.fsDel w slot).setWd w (-1)).infyAdd e c w else l) := by
      split
      · have hdel : Minds e 0 l ((l.fsDel w slot).setWd w (-1)) := minds_stat h
        exact hdel.trans (minds_infyAdd hdel.heaped w)
      · exact .refl h
    exact hread.trans (minds_statTimerCb hread.heaped w)
  · exact .refl h

theorem minds_infyWd (h : Loop.Heaped e l) (ev : Infy.Event) : Minds e 0 l (Loop.infyWd e c l ev) := by
  have hslot : ∀ (l : Loop U T (Infy.Kernel U A)) (slot : ℕ), Loop.Heaped e l →
      Minds e 0 l (Loop.infyWdSlot e c ev.wd ev.mask l slot) := fun l slot h =>
    minds_foldl (fun _ w h => minds_infyWdOne slot ev.wd ev.mask h w) _ h
  unfold Loop.infyWd
  split
  · exact minds_foldl hslot _ h
  · exact hslot l _ h

theorem minds_infyCb (h : Loop.Heaped e l) (events : ℕ) : Minds e 0 l (l.infyCb e c events) := by
  have hread : Minds e 0 l { l with kernel := { l.kernel with queue := l.kernel.queue.drop events } } := minds_stat h
  exact hread.trans (minds_foldl (fun _ ev h => minds_infyWd h ev) _ hread.heaped)

/-! A fork, where the count is known already. -/

theorem tends_data (hk : Keeps l m) (ha : m.active = l.active) (ho : Owned m = Owned l) : Tends l m :=
  ⟨hk, fun hl => hl.same ha ho⟩

theorem tends_evIoStop (l : Loop U T (Infy.Kernel U A)) (w : IoW U) :
    Tends l (l.evIoStop w) ∧ (l.evIoStop w).fds.active w = 0 := by
  have hk := keeps_evIoStop l w
  unfold Loop.evIoStop at hk ⊢
  dsimp only at hk ⊢
  split at hk
  · rename_i hw
    rw [if_pos hw]
    exact ⟨⟨hk, fun hl => hl.same (by funext v; cases v <;> rfl) rfl⟩, hw⟩
  · rename_i hw
    rw [if_neg hw]
    have hact : (l.fds.stop w).active w = 0 := (Fds.active_stop ..).trans (if_pos rfl)
    refine ⟨⟨hk, fun hl => hl.turned (w := .io w) (fun v hv => ?_) (fun hn => absurd hact hn) fun _ => id⟩, hact⟩
    cases v with
    | io v =>
      refine iff_of_eq (congrArg (· ≠ 0) ((Fds.active_stop ..).trans (if_neg ?_)))
      rintro rfl
      exact hv rfl
    | _ => exact Iff.rfl

theorem tends_evIoStart {w : IoW U} (hw : Owned l (.io w)) : Tends l (l.evIoStart w) := by
  have hk := keeps_evIoStart l w
  unfold Loop.evIoStart at hk ⊢
  split at hk
  · rename_i hact
    rw [if_pos hact]
    exact .refl l
  · rename_i hact
    rw [if_neg hact]
    refine ⟨hk, fun hl => hl.turned (w := .io w) (fun v hv => ?_) (fun _ => hw) fun _ => id⟩
    cases v with
    | io v =>
      refine iff_of_eq (congrArg (· ≠ 0) ((Fds.active_start ..).trans (if_neg ?_)))
      rintro rfl
      exact hv rfl
    | _ => exact Iff.rfl

theorem tends_evUnref (l : Loop U T (Infy.Kernel U A)) : Tends l l.evUnref :=
  tends_data ⟨rfl, rfl, id, id⟩ (by funext v; cases v <;> rfl) rfl

theorem tends_fdRearmAll (l : Loop U T (Infy.Kernel U A)) : Tends l l.fdRearmAll := by
  refine tends_data (keeps_fdRearmAll l) ?_ rfl
  funext v
  cases v with
  | io v => exact congrFun (Loop.active_rearmAll l.fds) v
  | _ => rfl

theorem tends_evIoSet {w : IoW U} (hw : l.fds.active w = 0) (fd : ℕ) (events : Events) :
    Tends l (l.evIoSet w fd events) :=
  tends_data (keeps_evIoSet hw fd events) (by funext v; cases v <;> rfl) rfl

theorem tends_ownInit {w : IoW U} (hw : l.fds.active w = 0) (fd : ℕ) {p : ℤ} (hpri : minpri ≤ p ∧ p ≤ maxpri) :
    Tends l ((l.evIoInit w fd evRead).evSetPriority (.io w) p) :=
  tends_data ((keeps_evIoInit hw fd evRead).trans (keeps_evSetPriority (l.evIoInit w fd evRead) (w := .io w) rfl
    (Function.update_self ..) hpri)) (by funext v; cases v <;> rfl) rfl

theorem tends_iouringRestart (l : Loop U T (Infy.Kernel U A)) (tfd : ℕ) : Tends l (l.iouringRestart tfd) := by
  obtain ⟨hstop, hidle⟩ := tends_evIoStop l .iouringTfdW
  unfold Loop.iouringRestart
  dsimp only
  generalize l.evIoStop .iouringTfdW = m at hstop hidle ⊢
  have hinit := tends_ownInit (w := .iouringTfdW) hidle tfd (p := minpri) (by decide)
  exact (((hstop.trans hinit).trans (tends_evIoStart (w := .iouringTfdW) trivial)).trans (tends_evUnref _)).trans
    (tends_fdRearmAll _)

theorem tends_linuxaioRestart (l : Loop U T (Infy.Kernel U A)) (backendFd : ℕ) :
    Tends l (l.linuxaioRestart backendFd) := by
  obtain ⟨hstop, hidle⟩ := tends_evIoStop l.fdRearmAll .linuxaioEpollW
  unfold Loop.linuxaioRestart
  dsimp only
  have hall := (tends_fdRearmAll l).trans hstop
  generalize l.fdRearmAll.evIoStop .linuxaioEpollW = m at hall hidle ⊢
  exact (hall.trans (tends_evIoSet hidle backendFd evRead)).trans (tends_evIoStart trivial)

theorem tends_backendFork (l : Loop U T (Infy.Kernel U A)) (backendFd : ℕ) : Tends l (l.backendFork backendFd) := by
  unfold Loop.backendFork
  cases l.backend with
  | iouring => exact tends_iouringRestart l backendFd
  | linuxaio => exact tends_linuxaioRestart l backendFd
  | select => exact .refl l
  | poll => exact .refl l
  | _ => exact tends_fdRearmAll l

theorem tends_timerfdcb (l : Loop U T (Infy.Kernel U A)) (kernel : TimerfdCreate T) :
    Tends l (l.timerfdcb e kernel) := by
  have hnow : Tends l { l with evRtNow := kernel.now } :=
    tends_data ⟨rfl, rfl, id, id⟩ (by funext v; cases v <;> rfl) rfl
  unfold Loop.timerfdcb
  dsimp only
  split
  · obtain ⟨p, n, heq⟩ := Loop.periodicsReschedule_touches e { l with evRtNow := kernel.now }
    rw [heq]
    exact hnow.trans ⟨⟨rfl, rfl, id, id⟩, fun hl => hl.frame rfl rfl rfl rfl⟩
  · exact hnow

theorem tends_evtimerfdInit (l : Loop U T (Infy.Kernel U A)) (kernel : TimerfdCreate T) :
    Tends l (l.evtimerfdInit e kernel) := by
  unfold Loop.evtimerfdInit
  split
  · exact .refl l
  · rename_i hidle
    have hfd : Tends l { l with timerfd := kernel.fd } :=
      tends_data ⟨rfl, rfl, id, id⟩ (by funext v; cases v <;> rfl) rfl
    dsimp only
    split
    · have hinit := tends_ownInit (l := { l with timerfd := kernel.fd }) (w := .timerfdW) (not_not.mp hidle)
        kernel.fd.toNat (p := minpri) (by decide)
      exact (((hfd.trans hinit).trans (tends_evIoStart (w := .timerfdW) trivial)).trans (tends_evUnref _)).trans
        (tends_timerfdcb _ kernel)
    · exact hfd

theorem tends_evFeedEvent (l : Loop U T (Infy.Kernel U A)) (w : Watcher U) (revents : Events) :
    Tends l (l.evFeedEvent w revents) :=
  tends_data (keeps_evFeedEvent l w revents) (by funext v; cases v <;> rfl) rfl

theorem tends_evRef (l : Loop U T (Infy.Kernel U A)) : Tends l l.evRef :=
  tends_data ⟨rfl, rfl, id, id⟩ (by funext v; cases v <;> rfl) rfl

theorem tends_timerfdReopen (l : Loop U T (Infy.Kernel U A)) (kernel : TimerfdCreate T) :
    Tends l (l.timerfdReopen e kernel) := by
  unfold Loop.timerfdReopen
  split
  · exact .refl l
  · obtain ⟨hstop, -⟩ := tends_evIoStop l.evRef .timerfdW
    have hall := (tends_evRef l).trans hstop
    dsimp only
    generalize l.evRef.evIoStop .timerfdW = m at hall ⊢
    have hfd : Tends m { m with timerfd := -2 } := tends_data ⟨rfl, rfl, id, id⟩ (by funext v; cases v <;> rfl) rfl
    exact ((hall.trans hfd).trans (tends_evtimerfdInit _ kernel)).trans (tends_evFeedEvent ..)

theorem tends_evpipeFork (l : Loop U T (Infy.Kernel U A)) (pipe : ℕ) : Tends l (l.evpipeFork pipe) := by
  unfold Loop.evpipeFork
  split
  · exact .refl l
  · obtain ⟨hstop, hidle⟩ := tends_evIoStop l.evRef .pipeW
    have hall := (tends_evRef l).trans hstop
    dsimp only
    generalize l.evRef.evIoStop .pipeW = m at hall hidle ⊢
    exact (((hall.trans (tends_evIoSet hidle pipe evRead)).trans (tends_evIoStart (w := .pipeW) trivial)).trans
      (tends_evUnref _)).trans (tends_evFeedEvent ..)

section

omit [DecidableEq U] [DecidableEq A] [LinearOrder T] [Add T] [Sub T] [Zero T]

/-- inotify has another fd, or has none any more. -/
theorem tends_fsFd (hw : l.fds.active .fsW = 0) (fd : ℤ) : Tends l { l with fsFd := fd } := by
  refine ⟨⟨rfl, rfl, id, id⟩, fun hl v hv => ?_⟩
  have hact : l.active v ≠ 0 := by cases v <;> exact hv
  have hown := hl v hact
  unfold Owned at hown ⊢
  split
  · exact hown
  · exact hown
  · exact hown
  · exact absurd hw hact
  · exact hown
  · trivial

end

theorem tends_infyReopen (l : Loop U T (Infy.Kernel U A)) (fs : Option ℕ) : Tends l (l.infyReopen fs) := by
  unfold Loop.infyReopen
  split
  · exact .refl l
  · obtain ⟨hstop, hidle⟩ := tends_evIoStop l.evRef .fsW
    have hall := (tends_evRef l).trans hstop
    dsimp only
    generalize l.evRef.evIoStop .fsW = m at hall hidle ⊢
    cases fs with
    | none => exact hall.trans (tends_fsFd hidle (-1))
    | some fd =>
      have hset := tends_evIoSet (l := { m with fsFd := fd }) (w := .fsW) hidle fd evRead
      have hstart := tends_evIoStart (l := ({ m with fsFd := fd } : Loop U T (Infy.Kernel U A)).evIoSet .fsW fd evRead)
        (w := .fsW) (show (fd : ℤ) ≠ -2 by omega)
      exact (((hall.trans (tends_fsFd hidle fd)).trans hset).trans hstart).trans (tends_evUnref _)

theorem minds_infyForkOne (h : Loop.Heaped e l) (w : U) : Minds e 0 l (Loop.infyForkOne e c l w) := by
  have hset : Minds e 0 l (l.setWd w (-1)) := minds_stat h
  unfold Loop.infyForkOne
  dsimp only
  split
  · exact hset.trans (minds_infyAdd hset.heaped w)
  · generalize l.setWd w (-1) = m at hset ⊢
    have hrepeat : Minds e 0 m (m.setRepeat w (m.interval w c.defStat)) := minds_stat hset.heaped
    exact (hset.trans hrepeat).trans (minds_statRearm hrepeat.heaped w)

theorem minds_infyFork (h : Loop.Heaped e l) (fs : Option ℕ) : Minds e l.infyShift l (Loop.infyFork e c fs l) := by
  suffices htends : Tends l (Loop.infyFork e c fs l) from ⟨htends, h.infyFork fs⟩
  have hopen := h.infyReopen fs
  unfold Loop.infyFork
  split
  · exact .refl l
  · have hkernel : Minds e 0 (l.infyReopen fs) { l.infyReopen fs with kernel := l.kernel.reopen } :=
      minds_stat hopen.heaped
    have hslots := minds_foldl (f := Loop.infyForkSlot e c) (fun l slot hl => by
      have hclear : Minds e 0 l { l with fsHash := Function.update l.fsHash slot [] } := minds_stat hl
      exact hclear.trans (minds_foldl (fun l w hl => minds_infyForkOne hl w) _ hclear.heaped)) (List.range c.hashsize)
      hkernel.heaped
    exact ((tends_infyReopen l fs).trans hkernel.toTends).trans hslots.toTends

theorem minds_loopFork (h : Loop.Heaped e l) (f : Reopened T) : Minds e l.shift l (Loop.loopFork e c f l) := by
  suffices htends : Tends l (Loop.loopFork e c f l) from ⟨htends, h.loopFork f⟩
  have hbackend := tends_backendFork l f.backendFd
  have hinfy := minds_infyFork (c := c) (h.backendFork f.backendFd).heaped f.fs
  have hall := hbackend.trans hinfy.toTends
  unfold Loop.loopFork
  dsimp only
  generalize Loop.infyFork e c f.fs (l.backendFork f.backendFd) = m at hall ⊢
  have hdone : ∀ n : Loop U T (Infy.Kernel U A), Tends n { n with postfork := 0 } := fun n =>
    tends_data ⟨rfl, rfl, id, id⟩ (by funext v; cases v <;> rfl) rfl
  refine Tends.trans ?_ (hdone _)
  split
  · exact (hall.trans (tends_timerfdReopen m f.timerfd)).trans (tends_evpipeFork ..)
  · exact hall

/-! Stat watchers are started and stopped. -/

theorem minds_infyInit (h : Loop.Heaped e l) (hl : Lone l) (o : Infy.Opened) : Minds e 0 l (l.infyInit o) := by
  unfold Loop.infyInit
  split
  · exact .refl h
  · rename_i hfd
    have hidle : l.fds.active .fsW = 0 := not_not.mp fun hact => hl (.io .fsW) hact (not_not.mp hfd)
    have hopen : ∀ fd : ℤ, Minds e 0 l { l with fsFd := fd, fs2625 := o.is2625 } := fun fd =>
      ⟨⟨⟨rfl, rfl, id, id⟩, (tends_fsFd hidle fd).lone⟩, h.aside rfl rfl rfl (by funext v; cases v <;> rfl)⟩
    dsimp only
    split
    · exact hopen (-1)
    · rename_i fd _
      have hinit := tends_ownInit (l := { l with fsFd := fd, fs2625 := o.is2625 }) (w := .fsW) hidle fd
        (p := maxpri) (by decide)
      have hset : Minds e 0 l ((({ l with fsFd := fd, fs2625 := o.is2625 } : Loop U T (Infy.Kernel U A)).evIoInit
          .fsW fd evRead).evSetPriority (.io .fsW) maxpri) :=
        ⟨(hopen fd).toTends.trans hinit, h.aside rfl rfl rfl (by funext v; cases v <;> rfl)⟩
      have hstart := hset.heaped.evIoStart (w := .fsW) rfl hidle
      exact ⟨(hset.toTends.trans (tends_evIoStart (w := .fsW) (show (fd : ℤ) ≠ -2 by omega))).trans (tends_evUnref _),
        (hset.shifts.trans hstart).trans hstart.heaped.evUnref⟩

section

omit [DecidableEq A]

/-- The timer in a stat watcher is made ready. -/
theorem minds_statTimer (h : Loop.Heaped e l) (w : U) (hidle : l.timers.active (.stat w) = 0) (repeat' : T) :
    Minds e 0 l (((l.evInit (.timer (.stat w))).evTimerSet (.stat w) 0 repeat').evSetPriority (.timer (.stat w))
      (l.pend.priority (.stat w))) := by
  have hinit := keeps_evInit l (w := .timer (.stat w)) rfl
  have hprio : ∀ u, (((l.pend.setPending (.timer (.stat w)) 0).setPriority (.timer (.stat w)) 0).setPriority
      (.timer (.stat w)) (l.pend.priority (.stat w))).priority (.idle u) = l.pend.priority (.idle u) := by
    intro u
    have hne : (.idle u : Watcher U) ≠ .timer (.stat w) := fun hc => by cases hc
    have hset : ∀ (p : Pend (Watcher U)) (pri : ℤ),
        (p.setPriority (.timer (.stat w)) pri).priority (.idle u) = p.priority (.idle u) := fun p pri =>
      Function.update_of_ne hne pri p.priority
    rw [hset, hset]
    rfl
  have hnamed : l.pend.Named → (((l.pend.setPending (.timer (.stat w)) 0).setPriority (.timer (.stat w)) 0).setPriority
      (.timer (.stat w)) (l.pend.priority (.stat w))).Named := fun hn =>
    (hinit.named hn).setPriority (Function.update_self ..) (hn.range (.stat w))
  refine ⟨⟨⟨Loop.arrays_pend l hprio, rfl, id, hnamed⟩, fun hl => hl.frame rfl rfl rfl rfl⟩,
    ⟨⟨?_, h.periodics⟩, ?_, fun v _ => ?_⟩⟩
  · exact Deadlines.Ok.setAt h.timers (not_not.mpr hidle) 0
  · exact (add_zero _).symm
  · cases v <;> exact Iff.rfl

/-- Without inotify the timer is started, as it is where it is to poll. -/
theorem statRearm_eq (h : Loop.Heaped e l) {w : U} (hidle : l.timers.active (.stat w) = 0)
    (hr : l.wRepeat (.stat w) ≠ 0) : l.statRearm e w = (l.evTimerAgain e (.stat w)).evUnref := by
  obtain ⟨p, k, d, heq, hd⟩ := Loop.evTimerAgain_eq h.timers (.stat w)
  unfold Loop.statRearm
  dsimp only
  rw [if_neg (not_not.mpr hidle), heq]
  refine if_pos ((hd.active_iff (.stat w)).mpr ?_)
  rw [if_pos rfl]
  exact hr

end

theorem evStatStart_tallied (h : Tallied e d l) (hl : Lone l) (hh : Loop.Heaped e l) (o : Infy.Opened) {w : U}
    (hoff : l.stats w = 0 → l.timers.active (.stat w) = 0) :
    Tallied e d (Loop.evStatStart e c o w l) ∧ Lone (Loop.evStatStart e c o w l) := by
  unfold Loop.evStatStart
  split
  · exact ⟨h, hl⟩
  · rename_i hw
    rw [not_not] at hw
    have hidle := hoff hw
    let interval := if l.wStatInterval w < c.minStat ∧ l.wStatInterval w ≠ 0 then c.minStat else l.wStatInterval w
    let l₁ : Loop U T (Infy.Kernel U A) :=
      { l.evStatStat w with wStatInterval := Function.update (l.evStatStat w).wStatInterval w interval }
    have h₁ : Minds e 0 l l₁ := minds_data hh ⟨rfl, rfl, id, id⟩ ⟨rfl, rfl⟩ (by funext v; cases v <;> rfl) rfl rfl
    let l₂ := ((l₁.evInit (.timer (.stat w))).evTimerSet (.stat w) 0 (l₁.interval w c.defStat)).evSetPriority
      (.timer (.stat w)) (l₁.pend.priority (.stat w))
    have h₂ : Minds e 0 l₁ l₂ := minds_statTimer h₁.heaped w hidle (l₁.interval w c.defStat)
    have h₃ := minds_infyInit (h₁.trans h₂).heaped ((h₁.trans h₂).lone hl) o
    let m := if 0 ≤ (l₂.infyInit o).fsFd then (l₂.infyInit o).infyAdd e c w
      else ((l₂.infyInit o).evTimerAgain e (.stat w)).evUnref
    have h₄ : Minds e 0 (l₂.infyInit o) m := by
      show Minds e 0 _ (if _ then _ else _)
      split
      · exact minds_infyAdd h₃.heaped w
      · have haside := Infy.aside_infyInit (l := l₂) h₂.heaped.timers o
        have hidle' : (l₂.infyInit o).timers.active (.stat w) = 0 :=
          not_not.mp fun hn => (haside.timer w).mp hn hidle
        have hr : (l₂.infyInit o).wRepeat (.stat w) ≠ 0 := by
          rw [haside.wRepeat]
          show Function.update l₁.wRepeat (.stat w) (l₁.interval w c.defStat) (.stat w) ≠ 0
          rw [Function.update_self]
          exact Infy.interval_ne c.def_pos l₁ w
        rw [← statRearm_eq h₃.heaped hidle' hr]
        exact minds_statRearm h₃.heaped w
    have hall := ((h₁.trans h₂).trans h₃).trans h₄
    have hm : Tallied e d m := by simpa using h.minds hall
    have hmstats : m.stats w = 0 := not_not.mp fun hn => (hall.shifts.active (.stat w) rfl).mp hn hw
    have hb : Loop.Built e { m.evStart (.stat w) with stats := Function.update m.stats w 1 } := by
      have hk := keeps_evStart m (w := .stat w) rfl
      exact Keeps.built (l := m) ⟨hk.arrays, hk.counts, id, hk.named⟩ hm.built hm.built.indexes.arranged.heaps
    refine ⟨hm.turned (turns_flag (f := .stat) hb hmstats (fun _ => rfl) (fun _ => rfl) (fun v hv => ?_) rfl) rfl, ?_⟩
    · cases v with
      | stat v => exact absurd rfl (hv v)
      | _ => rfl
    · exact (hall.lone hl).frame rfl rfl rfl rfl

theorem evStatStop_tallied (h : Tallied e d l) (hl : Lone l) (hh : Loop.Heaped e l) (w : U) :
    Tallied e d (Loop.evStatStop e c w l) ∧ Lone (Loop.evStatStop e c w l) := by
  have hclear : Minds e 0 l (l.clearPending (.stat w)) :=
    minds_data hh (keeps_clearPending l _) ⟨rfl, rfl⟩ (by funext v; cases v <;> rfl) rfl rfl
  unfold Loop.evStatStop
  dsimp only
  split
  · exact ⟨by simpa using h.minds hclear, hclear.lone hl⟩
  · rename_i hw
    have hdel := hclear.trans (minds_infyDel (c := c) hclear.heaped w)
    have hstop : ∀ n : Loop U T (Infy.Kernel U A), Tallied e d n → Lone n → n.stats w ≠ 0 →
        Tallied e d (if n.timers.active (.stat w) ≠ 0 then n.evRef.evTimerStop e (.stat w) else n) ∧
        Lone (if n.timers.active (.stat w) ≠ 0 then n.evRef.evTimerStop e (.stat w) else n) ∧
        (if n.timers.active (.stat w) ≠ 0 then n.evRef.evTimerStop e (.stat w) else n).stats w ≠ 0 := by
      intro n hn hlone hstat
      split
      · rename_i hact
        have href := hn.evRef
        have ht := turns_evTimerStop href.built (.stat w)
        have hcount : (n.evRef.evTimerStop e (.stat w)).activecnt = n.evRef.activecnt + -1 := by
          rw [ht.count, if_pos (show n.evRef.active (.timer (.stat w)) ≠ 0 from hact)]
          show n.evRef.activecnt + 0 - 1 = _
          omega
        have hside := side_evTimerStop (e := e) n.evRef (.stat w)
        refine ⟨by simpa using href.ignored ht.built rfl ht.others hcount,
          (hlone.frame (m := n.evRef) rfl rfl rfl rfl).turned ht.others (fun _ => trivial) (fun v hv => ?_), ?_⟩
        · rw [hside.owned]
          exact hv
        · rw [hside.stats]
          exact hstat
      · exact ⟨hn, hlone, hstat⟩
    have hstat : ((l.clearPending (.stat w)).infyDel c w).stats w ≠ 0 := (hdel.shifts.active (.stat w) rfl).mpr hw
    obtain ⟨hm, hlone, hon⟩ := hstop _ (by simpa using h.minds hdel) (hdel.lone hl) hstat
    generalize (if ((l.clearPending (.stat w)).infyDel c w).timers.active (.stat w) ≠ 0 then
      ((l.clearPending (.stat w)).infyDel c w).evRef.evTimerStop e (.stat w)
      else (l.clearPending (.stat w)).infyDel c w) = m at hm hlone hon ⊢
    have hb : Loop.Built e { m.evStop with stats := Function.update m.stats w 0 } :=
      Keeps.built (l := m) ⟨rfl, rfl, id, id⟩ hm.built hm.built.indexes.arranged.heaps
    refine ⟨hm.turned (turns_unflag (f := .stat) hb hon (fun _ => rfl) (fun _ => rfl) (fun v hv => ?_) rfl) rfl, ?_⟩
    · cases v with
      | stat v => exact absurd rfl (hv v)
      | _ => rfl
    · exact hlone.frame rfl rfl rfl rfl

end

/-! ### Embeds -/

section

variable {o : Watcher U → Prop}

/-- As `Goes`, for watchers that are within `o`. -/
structure Fares (o : Watcher U → Prop) (e : Env U T) (d : ℤ) (l m : Loop U T (Infy.Kernel U A)) : Prop where
  tallied : Tallied e d m
  within : (∀ v, l.active v ≠ 0 → o v) → ∀ v, m.active v ≠ 0 → o v
  side : Side l m
  aside : Infy.Aside e l m

section

omit [DecidableEq U] [DecidableEq A] [Add T] [Sub T] [Zero T]

theorem Fares.trans (h : Fares o e d l m) (h' : Fares o e d m n) : Fares o e d l n :=
  ⟨h'.tallied, h'.within ∘ h.within, h.side.trans h'.side, h.aside.trans h'.aside⟩

end

theorem Fares.rests (h : Tallied e d l) (hr : Rests e l m) (hs : Side l m) : Fares o e d l m :=
  ⟨h.rests hr, fun ho v hv => ho v ((hr.active v).mp hv), hs, hs.aside hr.built fun _ => hr.active _⟩

theorem Fares.turned (h : Tallied e d l) (ht : Turns e w b l m) (hs : Side l m) (hw : counted w = true)
    (hup : b = true → o w) : Fares o e d l m := by
  refine ⟨h.turned ht hw, fun ho v hv => ?_, hs, hs.aside ht.built fun u => ht.others _ ?_⟩
  · by_cases hvw : v = w
    · rw [hvw] at hv ⊢
      exact hup (ht.self.mp hv)
    · exact ho v ((ht.others v hvw).mp hv)
  · rintro rfl
    cases hw

/-- A watcher is made ready. -/
theorem Fares.init (h : Tallied e d l) (hw : Loop.notIdle w = true) : Fares o e d l (l.evInit w) :=
  .rests h ((keeps_evInit l hw).rests h.built rfl rfl (by funext v; cases v <;> rfl) rfl)
    ⟨rfl, rfl, rfl, rfl, fun _ => rfl, rfl, rfl, rfl⟩

theorem Fares.priority (h : Tallied e d l) (hw : Loop.notIdle w = true) (hp : l.pend.pending w = 0) {p : ℤ}
    (hpri : minpri ≤ p ∧ p ≤ maxpri) : Fares o e d l (l.evSetPriority w p) :=
  .rests h ((keeps_evSetPriority l hw hp hpri).rests h.built rfl rfl (by funext v; cases v <;> rfl) rfl)
    ⟨rfl, rfl, rfl, rfl, fun _ => rfl, rfl, rfl, rfl⟩

/-- The watchers inside an embed. -/
def partOf (w : U) : Watcher U → Prop
  | .io (.embed u) => u = w
  | .prepare (.embed u) => u = w
  | .fork (.embed u) => u = w
  | _ => False

/-- The io watcher of an embed is started. -/
theorem fares_embedIo (h : Tallied e d l) {w : U} (hidle : l.fds.active (.embed w) = 0) (ho : o (.io (.embed w)))
    (fd : ℕ) : Fares o e d l (((l.evIoInit (.embed w) fd evRead).evSetPriority (.io (.embed w))
      ((l.evIoInit (.embed w) fd evRead).pend.priority (.embed w))).evIoStart (.embed w)) := by
  have hinit : Fares o e d l (l.evIoInit (.embed w) fd evRead) :=
    .rests h ((keeps_evIoInit hidle fd evRead).rests h.built rfl rfl (by funext v; cases v <;> rfl) rfl)
      ⟨rfl, rfl, rfl, rfl, fun _ => rfl, rfl, rfl, rfl⟩
  have hnone : (l.evIoInit (.embed w) fd evRead).pend.pending (.io (.embed w)) = 0 := Function.update_self ..
  generalize l.evIoInit (.embed w) fd evRead = m at hinit hnone ⊢
  have hpri : Fares o e d m (m.evSetPriority (.io (.embed w)) (m.pend.priority (.embed w))) :=
    .priority hinit.tallied rfl hnone (hinit.tallied.built.named.range (.embed w))
  generalize m.evSetPriority (.io (.embed w)) (m.pend.priority (.embed w)) = n at hpri ⊢
  refine (hinit.trans hpri).trans
    (.turned hpri.tallied (turns_evIoStart hpri.tallied.built (.embed w)) ?_ rfl fun _ => ho)
  unfold Loop.evIoStart
  split
  · exact .refl n
  · exact ⟨rfl, rfl, rfl, rfl, fun _ => rfl, rfl, rfl, rfl⟩

/-- And the prepare watcher. -/
theorem fares_embedPrepare (h : Tallied e d l) {w : U} (ho : o (.prepare (.embed w))) :
    Fares o e d l (((l.evInit (.prepare (.embed w))).evSetPriority (.prepare (.embed w)) minpri).evPrepareStart
      (.embed w)) := by
  have hinit : Fares o e d l (l.evInit (.prepare (.embed w))) := .init h rfl
  have hnone : (l.evInit (.prepare (.embed w))).pend.pending (.prepare (.embed w)) = 0 := pending_evInit l _
  generalize l.evInit (.prepare (.embed w)) = m at hinit hnone ⊢
  have hpri : Fares o e d m (m.evSetPriority (.prepare (.embed w)) minpri) :=
    .priority hinit.tallied rfl hnone (by decide)
  generalize m.evSetPriority (.prepare (.embed w)) minpri = n at hpri ⊢
  refine (hinit.trans hpri).trans
    (.turned hpri.tallied (turns_evPrepareStart hpri.tallied.built (.embed w)) ?_ rfl fun _ => ho)
  unfold Loop.evPrepareStart
  split
  · exact .refl n
  · exact ⟨rfl, rfl, rfl, rfl, fun _ => rfl, rfl, rfl, rfl⟩

/-- And the fork watcher. -/
theorem fares_embedFork (h : Tallied e d l) {w : U} (ho : o (.fork (.embed w))) :
    Fares o e d l ((l.evInit (.fork (.embed w))).evForkStart (.embed w)) := by
  have hinit : Fares o e d l (l.evInit (.fork (.embed w))) := .init h rfl
  generalize l.evInit (.fork (.embed w)) = m at hinit ⊢
  refine hinit.trans (.turned hinit.tallied (turns_evForkStart hinit.tallied.built (.embed w)) ?_ rfl fun _ => ho)
  unfold Loop.evForkStart
  split
  · exact .refl m
  · exact ⟨rfl, rfl, rfl, rfl, fun _ => rfl, rfl, rfl, rfl⟩

section

omit [DecidableEq A]

/-- The flag is set when its watchers are started. -/
theorem goes_embedFlag {w : U} (h : Fares (fun v => Owned l v ∨ partOf w v) e d l m) (hl : Lone l)
    (hw : l.embeds w = 0) : Goes e d l { m.evStart (.embed w) with embeds := Function.update m.embeds w 1 } := by
  have hembeds : m.embeds w = 0 := by
    rw [h.side.embeds]
    exact hw
  have hb : Loop.Built e { m.evStart (.embed w) with embeds := Function.update m.embeds w 1 } := by
    have hk := keeps_evStart m (w := .embed w) rfl
    exact Keeps.built (l := m) ⟨hk.arrays, hk.counts, id, hk.named⟩ h.tallied.built
      h.tallied.built.indexes.arranged.heaps
  have ht : Turns e (.embed w) true m { m.evStart (.embed w) with embeds := Function.update m.embeds w 1 } := by
    refine turns_flag (f := .embed) hb hembeds (fun _ => rfl) (fun _ => rfl) (fun v hv => ?_) rfl
    cases v with
    | embed v => exact absurd rfl (hv v)
    | _ => rfl
  refine ⟨h.tallied.turned ht rfl, fun _ v hv => ?_, h.aside.trans
    (.of_eq h.tallied.built.indexes.arranged.heaps.1 rfl rfl rfl rfl rfl rfl)⟩
  have hmono : ∀ u, l.embeds u ≠ 0 → Function.update m.embeds w 1 u ≠ 0 := by
    intro u hu
    rw [h.side.embeds, Function.update_of_ne]
    · exact hu
    · rintro rfl
      exact hu hw
  have hself : ∀ u, u = w → Function.update m.embeds w 1 u ≠ 0 := by
    rintro u rfl
    rw [Function.update_self]
    exact one_ne_zero
  have hwithin := h.within fun v hv => .inl (hl v hv)
  cases v with
  | io v =>
    have hown := hwithin (.io v) hv
    cases v with
    | embed u => exact hown.elim (hmono u) (hself u)
    | fsW => exact hown.elim (fun hf => (show m.fsFd ≠ -2 from h.side.fsFd ▸ hf)) False.elim
    | sigfdW => exact hown.elim (fun hf => (show m.sigfd ≠ -2 from h.side.sigfd ▸ hf)) False.elim
    | _ => trivial
  | prepare v =>
    have hown := hwithin (.prepare v) hv
    cases v with
    | embed u => exact hown.elim (hmono u) (hself u)
    | _ => trivial
  | fork v =>
    have hown := hwithin (.fork v) hv
    cases v with
    | embed u => exact hown.elim (hmono u) (hself u)
    | _ => trivial
  | _ => trivial

end

theorem goes_evEmbedStart (h : Tallied e d l) (hl : Lone l) (backendFd : ℕ) (w : U) :
    Goes e d l (l.evEmbedStart backendFd w) := by
  unfold Loop.evEmbedStart
  split
  · exact .refl h
  · rename_i hw
    rw [not_not] at hw
    have hidle : l.fds.active (.embed w) = 0 := not_not.mp fun hn => hl (.io (.embed w)) hn hw
    have hio := fares_embedIo (o := fun v => Owned l v ∨ partOf w v) h hidle (.inr rfl) backendFd
    have hprepare := hio.trans (fares_embedPrepare hio.tallied (.inr rfl))
    exact goes_embedFlag (hprepare.trans (fares_embedFork hprepare.tallied (.inr rfl))) hl hw

section

omit [DecidableEq A]

/-- The flag is cleared when its watchers are stopped. -/
theorem goes_embedUnflag {w : U} (h : Goes e d l m) (hw : m.embeds w ≠ 0)
    (hpart : ∀ v, partOf w v → m.active v = 0) :
    Goes e d l { m.evStop with embeds := Function.update m.embeds w 0 } := by
  have hb : Loop.Built e { m.evStop with embeds := Function.update m.embeds w 0 } :=
    Keeps.built (l := m) ⟨rfl, rfl, id, id⟩ h.tallied.built h.tallied.built.indexes.arranged.heaps
  have ht : Turns e (.embed w) false m { m.evStop with embeds := Function.update m.embeds w 0 } := by
    refine turns_unflag (f := .embed) hb hw (fun _ => rfl) (fun _ => rfl) (fun v hv => ?_) rfl
    cases v with
    | embed v => exact absurd rfl (hv v)
    | _ => rfl
  refine ⟨h.tallied.turned ht rfl, fun hl v hv => ?_, h.aside.trans
    (.of_eq h.tallied.built.indexes.arranged.heaps.1 rfl rfl rfl rfl rfl rfl)⟩
  have hother : ∀ u, u ≠ w → m.embeds u ≠ 0 → Function.update m.embeds w 0 u ≠ 0 := by
    intro u hu
    rw [Function.update_of_ne hu]
    exact id
  cases v with
  | io v =>
    have hown := h.lone hl (.io v) hv
    cases v with
    | embed u => exact hother u (fun hu => hv (hpart (.io (.embed u)) hu)) hown
    | fsW => exact hown
    | sigfdW => exact hown
    | _ => trivial
  | prepare v =>
    have hown := h.lone hl (.prepare v) hv
    cases v with
    | embed u => exact hother u (fun hu => hv (hpart (.prepare (.embed u)) hu)) hown
    | _ => trivial
  | fork v =>
    have hown := h.lone hl (.fork v) hv
    cases v with
    | embed u => exact hother u (fun hu => hv (hpart (.fork (.embed u)) hu)) hown
    | _ => trivial
  | _ => trivial

end

theorem goes_evEmbedStop (h : Tallied e d l) (w : U) : Goes e d l (l.evEmbedStop w) := by
  have hclear : Goes e d l (l.clearPending (.embed w)) := goes_pend h (keeps_clearPending l _)
  unfold Loop.evEmbedStop
  dsimp only
  split
  · exact hclear
  · rename_i hw
    have hio := turns_evIoStop hclear.tallied.built (.embed w)
    have hprepare := turns_evPrepareStop hio.built (.embed w)
    have hfork := turns_evForkStop hprepare.built (.embed w)
    have hstop₁ := hclear.trans (goes_evIoStop hclear.tallied (w := .embed w) rfl)
    have hstop₂ := hstop₁.trans (goes_evPrepareStop hstop₁.tallied (.embed w))
    refine goes_embedUnflag (hstop₂.trans (goes_evForkStop hstop₂.tallied (.embed w))) ?_ fun v hv => ?_
    · refine (hfork.others (.embed w) (by simp)).mpr ?_
      exact (hprepare.others (.embed w) (by simp)).mpr ((hio.others (.embed w) (by simp)).mpr hw)
    · refine not_not.mp fun hn => ?_
      cases v with
      | io v =>
        cases v with
        | embed u =>
          have hu : u = w := hv
          subst hu
          have hn' := (hprepare.others (.io (.embed u)) (by simp)).mp ((hfork.others (.io (.embed u)) (by simp)).mp hn)
          exact Bool.false_ne_true (hio.self.mp hn')
        | _ => exact hv
      | prepare v =>
        cases v with
        | embed u =>
          have hu : u = w := hv
          subst hu
          exact Bool.false_ne_true (hprepare.self.mp ((hfork.others (.prepare (.embed u)) (by simp)).mp hn))
        | _ => exact hv
      | fork v =>
        cases v with
        | embed u =>
          have hu : u = w := hv
          subst hu
          exact Bool.false_ne_true (hfork.self.mp hn)
        | _ => exact hv
      | _ => exact hv

end

end

end Census
end Qev
