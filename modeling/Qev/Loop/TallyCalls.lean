/-
# What the calls count

Each call but those for stat watchers and embeds: by how much the count is then off, that no watcher is active without
the one that has started it, and that the stat watchers are left alone.
-/
import Qev.Loop.Tally

namespace Qev

open Lib

namespace Census

/-! ### Watchers with a watcher of the loop -/

section

variable {U T A : Type} [DecidableEq U] [DecidableEq A] [LinearOrder T] [Add T] [Sub T] [Zero T]
variable {e : Env U T} {l m n : Loop U T (Infy.Kernel U A)} {w : Watcher U} {b : Bool} {d d' : ℤ}

section

omit [DecidableEq A] [LinearOrder T] [Add T] [Sub T] [Zero T]

theorem pending_evInit (l : Loop U T (Infy.Kernel U A)) (w : Watcher U) : (l.evInit w).pend.pending w = 0 :=
  Function.update_self ..

end

theorem goes_sigfdInit (h : Tallied e d l) (hl : Lone l) (fd : ℤ) : Goes e d l (l.sigfdInit fd) := by
  unfold Loop.sigfdInit
  split
  · exact .refl h
  · rename_i hfd
    rw [not_not] at hfd
    have hidle : l.fds.active .sigfdW = 0 := not_not.mp fun hact => hl (.io .sigfdW) hact hfd
    have hopen : Goes e d l { l with sigfd := fd } := by
      have hk : Keeps l { l with sigfd := fd } := ⟨rfl, rfl, id, id⟩
      refine ⟨h.rests (hk.rests h.built rfl rfl (by funext v; cases v <;> rfl) rfl), fun hl v hv => ?_,
        .of_eq h.built.indexes.arranged.heaps.1 rfl rfl rfl rfl rfl rfl⟩
      have hne : v ≠ .io .sigfdW := by
        rintro rfl
        exact hv hidle
      have hown := hl v (by cases v <;> exact hv)
      unfold Owned at hown ⊢
      split
      · exact hown
      · exact hown
      · exact hown
      · exact hown
      · exact absurd rfl hne
      · trivial
    dsimp only
    split
    · rename_i hfd'
      have hinit := goes_ownInit (w := .sigfdW) hopen.tallied hidle fd.toNat (p := maxpri) (by decide)
      refine (hopen.trans hinit).trans (goes_ownStart (w := .sigfdW) hinit.tallied rfl hidle ?_)
      show fd ≠ -2
      omega
    · exact hopen

/-- A signal watcher is started, or `childev`. -/
theorem goes_evSignalfdStart (h : Tallied e d l) (hl : Lone l) (fd : ℤ) (evpipe : ℕ) {w : SignalW U}
    (hw : l.signals.active w = 0) :
    Goes e (d + if counted (.signal w) = true then 0 else 1) l (l.evSignalfdStart fd evpipe w) := by
  have hsig := goes_sigfdInit h hl fd
  have hidle : (l.sigfdInit fd).signals.active w = 0 := by
    have heq : (l.sigfdInit fd).signals = l.signals := by
      unfold Loop.sigfdInit
      split
      · rfl
      · dsimp only
        split
        · unfold Loop.evIoStart
          split
          · rfl
          · rfl
        · rfl
    rw [heq]
    exact hw
  have hstart : ∀ m : Loop U T (Infy.Kernel U A), Tallied e d m → m.signals.active w = 0 →
      Goes e (d + if counted (.signal w) = true then 0 else 1) m
        { m.evStart (.signal w) with signals := m.signals.start (m.wSignum w - 1) w } := by
    intro m hm hidle
    have ht := turns_signalStart hm.built hidle (m.wSignum w - 1)
    have hside : Side m { m.evStart (.signal w) with signals := m.signals.start (m.wSignum w - 1) w } :=
      ⟨rfl, rfl, rfl, rfl, fun _ => rfl, rfl, rfl, rfl⟩
    split
    · rename_i hc
      rw [add_zero]
      exact .turned hm ht hside hc fun _ => trivial
    · rename_i hc
      exact .ignored hm ht.built ht.others hside ((Bool.not_eq_true _).mp hc) (fun _ => trivial)
        (fun _ hc => by cases hc) rfl
  have hall := hsig.trans (hstart _ hsig.tallied hidle)
  unfold Loop.evSignalfdStart
  rw [if_neg (not_not.mpr hw)]
  generalize (if counted (.signal w) = true then 0 else 1 : ℤ) = k at hall ⊢
  dsimp only
  split
  · exact hall.trans (goes_evpipeInit hall.tallied evpipe)
  · exact hall

theorem goes_evSignalStart (h : Tallied e d l) (hl : Lone l) (fd : ℤ) (evpipe : ℕ) {w : SignalW U}
    (hc : counted (.signal w) = true) : Goes e d l (l.evSignalfdStart fd evpipe w) := by
  by_cases hw : l.signals.active w = 0
  · have hstart := goes_evSignalfdStart h hl fd evpipe hw
    rwa [if_pos hc, add_zero] at hstart
  · rw [show l.evSignalfdStart fd evpipe w = l from if_pos hw]
    exact .refl h

theorem goes_childevStart (h : Tallied e d l) (hl : Lone l) (hw : l.signals.active .childev = 0) (sigchld : ℕ) (fd : ℤ)
    (evpipe : ℕ) : Goes e d l (l.childevStart sigchld fd evpipe) := by
  unfold Loop.childevStart
  have hk := (keeps_evInit l (w := .signal .childev) rfl).trans
    (keeps_evSetPriority _ rfl (pending_evInit l _) (p := maxpri) (by decide))
  have hset : Goes e d l
      (((l.evInit (.signal .childev)).evSignalSet .childev sigchld).evSetPriority (.signal .childev) maxpri) :=
    .rests h
      (Keeps.rests ⟨hk.arrays, hk.counts, hk.listed, hk.named⟩ h.built rfl rfl (by funext v; cases v <;> rfl) rfl)
      ⟨rfl, rfl, rfl, rfl, fun _ => rfl, rfl, rfl, rfl⟩
  have hstart := goes_evSignalfdStart hset.tallied (hset.lone hl) fd evpipe (w := .childev) hw
  have hall := (hset.trans hstart).trans (goes_evUnref hstart.tallied)
  have hown : ¬ counted (.signal .childev : Watcher U) = true := Bool.false_ne_true
  rw [if_neg hown, add_sub_cancel_right] at hall
  exact hall

theorem goes_evPeriodicStart {t : ℕ} (h : Tallied e d l) (hg : l.periodics.Good e.heap t) (k : TimerfdCreate T)
    (w : U) : Goes e d l (l.evPeriodicStart e k w) := by
  unfold Loop.evPeriodicStart
  split
  · exact .refl h
  · rename_i hw
    rw [not_not] at hw
    obtain ⟨hfd, hidle⟩ : Goes e d l (if l.timerfd = -2 then l.evtimerfdInit e k else l) ∧
        (if l.timerfd = -2 then l.evtimerfdInit e k else l).periodics.active w = 0 := by
      split
      · obtain ⟨-, -, -, hact⟩ := Loop.periodics_evtimerfdInit hg k
        exact ⟨goes_evtimerfdInit h hg k, not_not.mp fun hn => (hact w).mp hn hw⟩
      · exact ⟨.refl h, hw⟩
    generalize (if l.timerfd = -2 then l.evtimerfdInit e k else l) = m at hfd hidle ⊢
    -- it gets its next time, or else its offset
    rcases Loop.periodicNext_cases e m w with ⟨x, c, hx⟩ | hx
    · simp only [hx]
      exact hfd.trans (.turned hfd.tallied (turns_periodicStart hfd.tallied.built hidle (x := x) (c := c) rfl)
        ⟨rfl, rfl, rfl, rfl, fun _ => rfl, rfl, rfl, rfl⟩ rfl fun _ => trivial)
    · simp only [hx]
      exact hfd.trans (.turned hfd.tallied
        (turns_periodicStart hfd.tallied.built hidle (x := m.wOffset w) (c := m.rescheduleCnt) rfl)
        ⟨rfl, rfl, rfl, rfl, fun _ => rfl, rfl, rfl, rfl⟩ rfl fun _ => trivial)

theorem goes_evPeriodicStop (h : Tallied e d l) (w : U) : Goes e d l (l.evPeriodicStop e w) := by
  refine .turned h (turns_evPeriodicStop h.built w) ?_ rfl fun _ => trivial
  unfold Loop.evPeriodicStop
  dsimp only
  split
  · exact ⟨rfl, rfl, rfl, rfl, fun _ => rfl, rfl, rfl, rfl⟩
  · exact ⟨rfl, rfl, rfl, rfl, fun _ => rfl, rfl, rfl, rfl⟩

theorem goes_evPeriodicAgain {t : ℕ} (h : Tallied e d l) (hg : l.periodics.Good e.heap t) (k : TimerfdCreate T)
    (w : U) : Goes e d l (l.evPeriodicAgain e k w) := by
  have hstop := goes_evPeriodicStop h w
  exact hstop.trans (goes_evPeriodicStart hstop.tallied (Loop.good_evPeriodicStop hg) k w)

theorem goes_evAsyncStart (h : Tallied e d l) (evpipe : ℕ) (w : U) : Goes e d l (l.evAsyncStart evpipe w) := by
  unfold Loop.evAsyncStart
  split
  · exact .refl h
  · rename_i hw
    have hpipe := goes_evpipeInit h evpipe
    have hidle : (l.evpipeInit evpipe).asyncs.active w = 0 := by
      unfold Loop.evpipeInit
      split
      · exact not_not.mp hw
      · unfold Loop.evIoStart
        split
        · exact not_not.mp hw
        · exact not_not.mp hw
    generalize l.evpipeInit evpipe = m at hpipe hidle ⊢
    have hb := hpipe.tallied.built
    have hs := hb.indexes.arranged.evStart (w := .async w) rfl
    have hi : Indexes.Inv e { m.evStart (.async w) with asyncs := m.asyncs.start 0 w } :=
      hb.indexes.of ⟨hs.heaps, hs.arrays.idles, hs.arrays.range, hs.arrays.prepares, hs.arrays.checks,
        hs.arrays.forks, hs.arrays.asyncs.start hidle⟩ rfl
    have ht : Turns e (.async w) true m { m.evStart (.async w) with asyncs := m.asyncs.start 0 w } := by
      refine .placed (built_of hi hb rfl (hb.named.priAdjust _)) hidle (fun _ => rfl) (fun _ => rfl)
        (fun v hv => ?_) rfl
      cases v with
      | async u => exact absurd rfl (hv u)
      | _ => rfl
    exact hpipe.trans (.turned hpipe.tallied ht ⟨rfl, rfl, rfl, rfl, fun _ => rfl, rfl, rfl, rfl⟩ rfl fun _ => trivial)

/-- A cleanup watcher is started, which does not keep the loop alive. -/
theorem goes_evCleanupStart (h : Tallied e d l) (w : U) : Goes e d l (l.evCleanupStart w) := by
  have hi := h.built.indexes.evCleanupStart w
  by_cases hw : l.cleanups.active w = 0
  · rw [show l.evCleanupStart w = _ from if_neg (not_not.mpr hw)] at hi ⊢
    have hothers : ∀ v, v ≠ .cleanup w → ((({ l.evStart (.cleanup w) with cleanups := l.cleanups.start 0 w } :
        Loop U T (Infy.Kernel U A)).evUnref).active v ≠ 0 ↔ l.active v ≠ 0) := by
      intro v hv
      cases v with
      | cleanup u =>
        show (l.cleanups.start 0 w).active u ≠ 0 ↔ l.cleanups.active u ≠ 0
        rw [show (l.cleanups.start 0 w).active u = l.cleanups.active u from
          Function.update_of_ne (fun hc => hv (congrArg _ hc)) ..]
      | _ => exact Iff.rfl
    have hall := Goes.ignored (k := 0) h (built_of hi h.built rfl (h.built.named.priAdjust _)) hothers
      ⟨rfl, rfl, rfl, rfl, fun _ => rfl, rfl, rfl, rfl⟩ rfl (fun _ => trivial) (fun _ hc => by cases hc)
      (show l.activecnt + 1 - 1 = l.activecnt + 0 by omega)
    rwa [add_zero] at hall
  · rw [show l.evCleanupStart w = l from if_pos hw]
    exact .refl h

theorem goes_evCleanupStop (h : Tallied e d l) (w : U) : Goes e d l (l.evCleanupStop w) := by
  have hi := h.built.indexes.evCleanupStop w
  obtain ⟨-, hothers⟩ := Indexes.others_evCleanupStop h.built.indexes w
  have hall : Goes e (d + 0) l (l.evCleanupStop w) := by
    by_cases hw : l.cleanups.active w = 0
    · rw [show l.evCleanupStop w = l.clearPending (.cleanup w) from if_pos hw] at hi hothers ⊢
      exact .ignored h ⟨hi, h.built.listed, h.built.named.clear _⟩ hothers
        ⟨rfl, rfl, rfl, rfl, fun _ => rfl, rfl, rfl, rfl⟩ rfl (fun _ => trivial) (fun _ hc => by cases hc)
        (add_zero _).symm
    · rw [show l.evCleanupStop w = _ from if_neg hw] at hi hothers ⊢
      exact .ignored h ⟨hi, h.built.listed, h.built.named.clear _⟩ hothers
        ⟨rfl, rfl, rfl, rfl, fun _ => rfl, rfl, rfl, rfl⟩ rfl (fun _ => trivial) (fun _ hc => by cases hc)
        (show l.activecnt + 1 - 1 = l.activecnt + 0 by omega)
  rwa [add_zero] at hall

/-! ### fds and queues -/

theorem goes_fds (h : Tallied e d l) {f : Fds (IoW U)} (hf : l.fds.Listed → f.Listed) (ha : f.active = l.fds.active) :
    Goes e d l { l with fds := f } := by
  refine .rests h ((Keeps.fds hf).rests h.built rfl rfl ?_ rfl) ⟨rfl, rfl, rfl, rfl, fun _ => rfl, rfl, rfl, rfl⟩
  funext v
  cases v with
  | io v => exact congrFun ha v
  | _ => rfl

theorem goes_pend (h : Tallied e d l) {p : Pend (Watcher U)} (hk : Keeps l { l with pend := p }) :
    Goes e d l { l with pend := p } :=
  .rests h (hk.rests h.built rfl rfl (by funext v; cases v <;> rfl) rfl)
    ⟨rfl, rfl, rfl, rfl, fun _ => rfl, rfl, rfl, rfl⟩

theorem goes_evFeedEvent (h : Tallied e d l) (w : Watcher U) (revents : Events) :
    Goes e d l (l.evFeedEvent w revents) :=
  goes_pend h (keeps_evFeedEvent l w revents)

theorem goes_evSetPriority (h : Tallied e d l) (hw : l.active w = 0) (hp : l.pend.pending w = 0) {p : ℤ}
    (hpri : minpri ≤ p ∧ p ≤ maxpri) : Goes e d l (l.evSetPriority w p) := by
  have hkeep : ∀ u, l.idles.active u ≠ 0 →
      (l.pend.setPriority w p).priority (.idle u) = l.pend.priority (.idle u) := by
    refine fun u hu => Function.update_of_ne ?_ ..
    rintro rfl
    exact hu hw
  have hb : Loop.Built e (l.evSetPriority w p) :=
    ⟨h.built.indexes.of (h.built.indexes.arranged.priority hkeep) rfl, h.built.listed,
      h.built.named.setPriority hp hpri⟩
  exact .rests h ⟨hb, fun v => by cases v <;> exact Iff.rfl, rfl⟩ ⟨rfl, rfl, rfl, rfl, fun _ => rfl, rfl, rfl, rfl⟩

theorem goes_foldl {X : Type} {f : Loop U T (Infy.Kernel U A) → X → Loop U T (Infy.Kernel U A)}
    (hf : ∀ l x, Tallied e d l → Goes e d l (f l x)) (xs : List X) (h : Tallied e d l) : Goes e d l (xs.foldl f l) := by
  induction xs generalizing l with
  | nil => exact .refl h
  | cons x xs ih => exact (hf l x h).trans (ih (hf l x h).tallied)

theorem goes_fdEventNocheck (h : Tallied e d l) (fd : ℕ) (revents : Events) :
    Goes e d l (l.fdEventNocheck fd revents) := by
  refine goes_foldl (fun l x hl => ?_) _ h
  dsimp only
  split
  · exact goes_evFeedEvent hl ..
  · exact .refl hl

theorem goes_fdEvent (h : Tallied e d l) (fd : ℕ) (revents : Events) : Goes e d l (l.fdEvent fd revents) := by
  unfold Loop.fdEvent
  split
  · exact goes_fdEventNocheck h ..
  · exact .refl h

theorem goes_evIoModify (h : Tallied e d l) (w : IoW U) (events : Events) : Goes e d l (l.evIoModify w events) := by
  have hmodify : (∀ fd, ((l.fds.modify w events).anfds fd).head = (l.fds.anfds fd).head) ∧
      (l.fds.modify w events).active = l.fds.active ∧ (l.fds.modify w events).fd = l.fds.fd := by
    unfold Fds.modify
    dsimp only
    split
    · exact ⟨fun _ => rfl, rfl, rfl⟩
    · split
      · exact ⟨fun fd => Fds.head_fdChange .., rfl, rfl⟩
      · exact ⟨fun _ => rfl, rfl, rfl⟩
  exact goes_fds h (fun hl => hl.same hmodify.1 hmodify.2.1 hmodify.2.2) hmodify.2.1

/-- What is known of an fd, besides its watchers. -/
theorem goes_setFd (h : Tallied e d l) {fd : ℕ} {a : ANFD (IoW U)} (ha : a.head = (l.fds.anfds fd).head) :
    Goes e d l { l with fds := l.fds.setFd fd a } := by
  refine goes_fds h (fun hl => hl.same (fun fd' => ?_) rfl rfl) rfl
  by_cases hfd : fd' = fd
  · simp [Fds.setFd, hfd, ha]
  · simp [Fds.setFd, hfd]

theorem goes_evIoStart (h : Tallied e d l) {w : IoW U} (hw : counted (.io w) = true) (hup : Owned l (.io w)) :
    Goes e d l (l.evIoStart w) := by
  refine .turned h (turns_evIoStart h.built w) ?_ hw fun _ => hup
  unfold Loop.evIoStart
  split
  · exact .refl l
  · exact ⟨rfl, rfl, rfl, rfl, fun _ => rfl, rfl, rfl, rfl⟩

theorem goes_evIoStop (h : Tallied e d l) {w : IoW U} (hw : counted (.io w) = true) : Goes e d l (l.evIoStop w) :=
  .turned h (turns_evIoStop h.built w) (side_evIoStop l w) hw fun hc => absurd hc Bool.false_ne_true

/-- `fd_kill` takes one from the count for a watcher of the loop. -/
theorem goes_fdKillOne (h : Tallied e d l) {w : IoW U} (hw : l.fds.active w ≠ 0) :
    Goes e (d - if isOwn (.io w) = true then 1 else 0) l (l.fdKillOne w) := by
  have hstop : Goes e (d - if isOwn (.io w) = true then 1 else 0) l (l.evIoStop w) := by
    have ht := turns_evIoStop h.built w
    split
    · rename_i hown
      have hn : (l.evIoStop w).activecnt = l.activecnt + -1 := by
        rw [ht.count, if_pos (show l.active (.io w) ≠ 0 from hw)]
        show l.activecnt + 0 - 1 = _
        omega
      refine .ignored h ht.built ht.others (side_evIoStop l w) ?_ (fun hc => absurd (ht.self.mp hc) Bool.false_ne_true)
        (fun _ hc => by cases hc) hn
      unfold counted
      simp [hown]
    · rename_i hown
      rw [sub_zero]
      refine goes_evIoStop h ?_
      unfold counted
      simp [hown]
  exact hstop.trans (goes_evFeedEvent hstop.tallied ..)

theorem goes_backendStart (h : Tallied e d l) {w : IoW U} (hw : w = .iouringTfdW ∨ w = .linuxaioEpollW)
    (hidle : l.fds.active w = 0) (fd : ℕ) {p : ℤ} (hpri : minpri ≤ p ∧ p ≤ maxpri) :
    Goes e d l (l.backendStart w fd p) := by
  have hinit := goes_ownInit h hidle fd hpri
  obtain rfl | rfl := hw
  · exact hinit.trans (goes_ownStart (w := .iouringTfdW) hinit.tallied rfl hidle trivial)
  · exact hinit.trans (goes_ownStart (w := .linuxaioEpollW) hinit.tallied rfl hidle trivial)

/-! ### Timers and periodics -/

theorem goes_evTimerSet (h : Tallied e d l) {w : TimerW U} (hidle : l.timers.active w = 0)
    (hw : counted (.timer w) = true) (after repeat' : T) : Goes e d l (l.evTimerSet w after repeat') := by
  have hk : Keeps l (l.evTimerSet w after repeat') := ⟨rfl, rfl, id, id⟩
  have hb := hk.built h.built
    ⟨Deadlines.Ok.setAt h.built.indexes.arranged.heaps.1 (not_not.mpr hidle) after, h.built.indexes.arranged.heaps.2⟩
  refine .rests h ⟨hb, fun v => by cases v <;> exact Iff.rfl, rfl⟩
    ⟨rfl, rfl, rfl, rfl, fun v => Function.update_of_ne ?_ .., rfl, rfl, rfl⟩
  rintro rfl
  cases hw

theorem side_evTimerStart (l : Loop U T (Infy.Kernel U A)) (w : TimerW U) : Side l (l.evTimerStart e w) := by
  unfold Loop.evTimerStart
  split
  · exact .refl l
  · exact ⟨rfl, rfl, rfl, rfl, fun _ => rfl, rfl, rfl, rfl⟩

section

omit [DecidableEq A] [Add T] [Zero T]

theorem side_evTimerStop (l : Loop U T (Infy.Kernel U A)) (w : TimerW U) : Side l (l.evTimerStop e w) := by
  unfold Loop.evTimerStop
  dsimp only
  split
  · exact ⟨rfl, rfl, rfl, rfl, fun _ => rfl, rfl, rfl, rfl⟩
  · exact ⟨rfl, rfl, rfl, rfl, fun _ => rfl, rfl, rfl, rfl⟩

end

section

omit [DecidableEq U] [DecidableEq A] [LinearOrder T] [Add T] [Sub T] [Zero T]

theorem Side.trans (h : Side l m) (h' : Side m n) : Side l n :=
  ⟨h'.stats.trans h.stats, h'.wd.trans h.wd, h'.hash.trans h.hash, h'.kernel.trans h.kernel,
    fun v => (h'.wRepeat v).trans (h.wRepeat v), h'.embeds.trans h.embeds, h'.fsFd.trans h.fsFd,
    h'.sigfd.trans h.sigfd⟩

end

theorem side_evTimerAgain (l : Loop U T (Infy.Kernel U A)) (w : TimerW U) : Side l (l.evTimerAgain e w) := by
  unfold Loop.evTimerAgain
  dsimp only
  split
  · split
    · exact ⟨rfl, rfl, rfl, rfl, fun _ => rfl, rfl, rfl, rfl⟩
    · refine .trans ?_ (side_evTimerStop _ w)
      exact ⟨rfl, rfl, rfl, rfl, fun _ => rfl, rfl, rfl, rfl⟩
  · split
    · refine .trans ?_ (side_evTimerStart _ w)
      exact ⟨rfl, rfl, rfl, rfl, fun _ => rfl, rfl, rfl, rfl⟩
    · exact ⟨rfl, rfl, rfl, rfl, fun _ => rfl, rfl, rfl, rfl⟩

theorem goes_evTimerStart (h : Tallied e d l) {w : TimerW U} (hw : counted (.timer w) = true) :
    Goes e d l (l.evTimerStart e w) :=
  .turned h (turns_evTimerStart h.built w) (side_evTimerStart l w) hw fun _ => trivial

theorem goes_evTimerStop (h : Tallied e d l) {w : TimerW U} (hw : counted (.timer w) = true) :
    Goes e d l (l.evTimerStop e w) :=
  .turned h (turns_evTimerStop h.built w) (side_evTimerStop l w) hw fun _ => trivial

theorem goes_evTimerAgain (h : Tallied e d l) {w : TimerW U} (hw : counted (.timer w) = true) :
    Goes e d l (l.evTimerAgain e w) :=
  .turned h (turns_evTimerAgain h.built w) (side_evTimerAgain l w) hw fun _ => trivial

/-- The timer in a stat watcher is due again. -/
theorem goes_timersReifyOne (h : Tallied e d l) (hd : l.timersDue e)
    (harmed : ∀ v, l.timers.active (.stat v) ≠ 0 → l.wRepeat (.stat v) ≠ 0) : Goes e d l (l.timersReifyOne e) := by
  have ht := turns_timersReifyOne h.built hd
  have haside := Infy.aside_timersReifyOne h.built.indexes.arranged.heaps.1 harmed hd
  have hroot := (h.built.indexes.arranged.heaps.1.linked.root hd.1).1
  have howned : Owned (l.timersReifyOne e) = Owned l := by
    unfold Loop.timersReifyOne
    dsimp only
    split
    · rfl
    · exact owned_congr (side_evTimerStop (e := e) l _).embeds (side_evTimerStop (e := e) l _).fsFd
        (side_evTimerStop (e := e) l _).sigfd
  refine ⟨?_, fun hl => hl.turned ht.others (fun _ => trivial) fun v hv => by rw [howned]; exact hv, haside⟩
  by_cases hc : counted (.timer (l.timers.rootW e.heap)) = true
  · exact h.turned ht hc
  · have hstat : ∃ v, l.timers.rootW e.heap = .stat v := by
      cases hr : l.timers.rootW e.heap with
      | stat v => exact ⟨v, rfl⟩
      | _ =>
        rw [hr] at hc
        exact absurd rfl hc
    obtain ⟨v, hv⟩ := hstat
    have hn : (l.timersReifyOne e).activecnt = l.activecnt + 0 := by
      have hr : l.wRepeat (l.timers.rootW e.heap) ≠ 0 := by
        rw [hv] at hroot ⊢
        exact harmed v hroot
      rw [ht.count, decide_eq_true hr, if_pos rfl, if_pos (show l.active (.timer _) ≠ 0 from hroot)]
      omega
    have hall := h.ignored ht.built ((Bool.not_eq_true _).mp hc) ht.others hn
    rwa [add_zero] at hall

theorem goes_timersReschedule [AddRightMono T] (h : Tallied e d l.untouched) (adjust : T) :
    Goes e d l.untouched (l.untouched.timersReschedule e adjust) := by
  refine .rests h (rests_timersReschedule h.built adjust) ?_
  obtain ⟨d, heq, -⟩ := Loop.timersReschedule_active (h.built.indexes.arranged.heaps.untouched).1 adjust
  replace heq : l.untouched.timersReschedule e adjust = { l.untouched with timers := d } := heq
  rw [heq]
  exact ⟨rfl, rfl, rfl, rfl, fun _ => rfl, rfl, rfl, rfl⟩

/-- A periodic has its next time, or is stopped. -/
theorem goes_periodicsReifyOne (h : Tallied e d l) (hd : l.periodicsDue e) : Goes e d l (l.periodicsReifyOne e) := by
  obtain ⟨b, ht⟩ := turns_periodicsReifyOne h.built hd
  refine .turned h ht ?_ rfl fun _ => trivial
  unfold Loop.periodicsReifyOne
  rcases Loop.periodicNext_cases e l (l.periodics.rootW e.heap) with ⟨x, c, hx⟩ | hx
  · simp only [hx]
    exact ⟨rfl, rfl, rfl, rfl, fun _ => rfl, rfl, rfl, rfl⟩
  · simp only [hx]
    unfold Loop.evPeriodicStop
    dsimp only
    split
    · exact ⟨rfl, rfl, rfl, rfl, fun _ => rfl, rfl, rfl, rfl⟩
    · exact ⟨rfl, rfl, rfl, rfl, fun _ => rfl, rfl, rfl, rfl⟩

theorem goes_periodicsReschedule {t : ℕ} (h : Tallied e d l) (hg : l.periodics.Good e.heap t) :
    Goes e d l (l.periodicsReschedule e) := by
  refine .rests h (rests_periodicsReschedule h.built hg) ?_
  obtain ⟨p, n, heq⟩ := Loop.periodicsReschedule_touches e l
  rw [heq]
  exact ⟨rfl, rfl, rfl, rfl, fun _ => rfl, rfl, rfl, rfl⟩

theorem goes_timerfdcb {t : ℕ} (h : Tallied e d l) (hg : l.periodics.Good e.heap t) (k : TimerfdCreate T) :
    Goes e d l (l.timerfdcb e k) := by
  refine .rests h (rests_timerfdcb h.built hg k) ?_
  unfold Loop.timerfdcb
  dsimp only
  split
  · obtain ⟨p, n, heq⟩ := Loop.periodicsReschedule_touches e { l with evRtNow := k.now }
    rw [heq]
    exact ⟨rfl, rfl, rfl, rfl, fun _ => rfl, rfl, rfl, rfl⟩
  · exact ⟨rfl, rfl, rfl, rfl, fun _ => rfl, rfl, rfl, rfl⟩

/-! ### The other families -/

theorem goes_evIdleStart (h : Tallied e d l) (w : U) : Goes e d l (l.evIdleStart w) := by
  refine .turned h (turns_evIdleStart h.built w) ?_ rfl fun _ => trivial
  unfold Loop.evIdleStart
  split
  · exact .refl l
  · exact ⟨rfl, rfl, rfl, rfl, fun _ => rfl, rfl, rfl, rfl⟩

theorem goes_evIdleStop (h : Tallied e d l) (w : U) : Goes e d l (l.evIdleStop w) := by
  refine .turned h (turns_evIdleStop h.built w) ?_ rfl fun hc => absurd hc Bool.false_ne_true
  unfold Loop.evIdleStop
  dsimp only
  split
  · exact ⟨rfl, rfl, rfl, rfl, fun _ => rfl, rfl, rfl, rfl⟩
  · exact ⟨rfl, rfl, rfl, rfl, fun _ => rfl, rfl, rfl, rfl⟩

theorem goes_evPrepareStart (h : Tallied e d l) {w : PrepareW U} (hup : Owned l (.prepare w)) :
    Goes e d l (l.evPrepareStart w) := by
  refine .turned h (turns_evPrepareStart h.built w) ?_ rfl fun _ => hup
  unfold Loop.evPrepareStart
  split
  · exact .refl l
  · exact ⟨rfl, rfl, rfl, rfl, fun _ => rfl, rfl, rfl, rfl⟩

theorem goes_evPrepareStop (h : Tallied e d l) (w : PrepareW U) : Goes e d l (l.evPrepareStop w) := by
  refine .turned h (turns_evPrepareStop h.built w) ?_ rfl fun hc => absurd hc Bool.false_ne_true
  unfold Loop.evPrepareStop
  dsimp only
  split
  · exact ⟨rfl, rfl, rfl, rfl, fun _ => rfl, rfl, rfl, rfl⟩
  · exact ⟨rfl, rfl, rfl, rfl, fun _ => rfl, rfl, rfl, rfl⟩

theorem goes_evCheckStart (h : Tallied e d l) (w : U) : Goes e d l (l.evCheckStart w) := by
  refine .turned h (turns_evCheckStart h.built w) ?_ rfl fun _ => trivial
  unfold Loop.evCheckStart
  split
  · exact .refl l
  · exact ⟨rfl, rfl, rfl, rfl, fun _ => rfl, rfl, rfl, rfl⟩

theorem goes_evCheckStop (h : Tallied e d l) (w : U) : Goes e d l (l.evCheckStop w) := by
  refine .turned h (turns_evCheckStop h.built w) ?_ rfl fun hc => absurd hc Bool.false_ne_true
  unfold Loop.evCheckStop
  dsimp only
  split
  · exact ⟨rfl, rfl, rfl, rfl, fun _ => rfl, rfl, rfl, rfl⟩
  · exact ⟨rfl, rfl, rfl, rfl, fun _ => rfl, rfl, rfl, rfl⟩

theorem goes_evForkStart (h : Tallied e d l) {w : ForkW U} (hup : Owned l (.fork w)) :
    Goes e d l (l.evForkStart w) := by
  refine .turned h (turns_evForkStart h.built w) ?_ rfl fun _ => hup
  unfold Loop.evForkStart
  split
  · exact .refl l
  · exact ⟨rfl, rfl, rfl, rfl, fun _ => rfl, rfl, rfl, rfl⟩

theorem goes_evForkStop (h : Tallied e d l) (w : ForkW U) : Goes e d l (l.evForkStop w) := by
  refine .turned h (turns_evForkStop h.built w) ?_ rfl fun hc => absurd hc Bool.false_ne_true
  unfold Loop.evForkStop
  dsimp only
  split
  · exact ⟨rfl, rfl, rfl, rfl, fun _ => rfl, rfl, rfl, rfl⟩
  · exact ⟨rfl, rfl, rfl, rfl, fun _ => rfl, rfl, rfl, rfl⟩

theorem goes_evAsyncStop (h : Tallied e d l) (w : U) : Goes e d l (l.evAsyncStop w) := by
  refine .turned h (turns_evAsyncStop h.built w) ?_ rfl fun _ => trivial
  unfold Loop.evAsyncStop
  dsimp only
  split
  · exact ⟨rfl, rfl, rfl, rfl, fun _ => rfl, rfl, rfl, rfl⟩
  · exact ⟨rfl, rfl, rfl, rfl, fun _ => rfl, rfl, rfl, rfl⟩

theorem goes_evSignalStop (h : Tallied e d l) {w : SignalW U} (hw : counted (.signal w) = true) :
    Goes e d l (l.evSignalStop w) := by
  refine .turned h (turns_evSignalStop h.built w) ?_ hw fun _ => trivial
  unfold Loop.evSignalStop
  dsimp only
  split
  · exact ⟨rfl, rfl, rfl, rfl, fun _ => rfl, rfl, rfl, rfl⟩
  · exact ⟨rfl, rfl, rfl, rfl, fun _ => rfl, rfl, rfl, rfl⟩

theorem goes_evChildStart (h : Tallied e d l) (hashsize : ℕ) (w : U) : Goes e d l (l.evChildStart hashsize w) := by
  refine .turned h (turns_evChildStart h.built hashsize w) ?_ rfl fun _ => trivial
  unfold Loop.evChildStart
  split
  · exact .refl l
  · exact ⟨rfl, rfl, rfl, rfl, fun _ => rfl, rfl, rfl, rfl⟩

theorem goes_evChildStop (h : Tallied e d l) (hashsize : ℕ) (w : U) : Goes e d l (l.evChildStop hashsize w) := by
  refine .turned h (turns_evChildStop h.built hashsize w) ?_ rfl fun _ => trivial
  unfold Loop.evChildStop
  dsimp only
  split
  · exact ⟨rfl, rfl, rfl, rfl, fun _ => rfl, rfl, rfl, rfl⟩
  · exact ⟨rfl, rfl, rfl, rfl, fun _ => rfl, rfl, rfl, rfl⟩

/-- What changes neither the watchers, the queues nor the fds. -/
theorem goes_data (h : Tallied e d l) (hk : Keeps l m) (hh : m.timers = l.timers ∧ m.periodics = l.periodics)
    (ha : m.active = l.active) (hn : m.activecnt = l.activecnt) (hs : Side l m) : Goes e d l m :=
  .rests h (hk.rests h.built hh.1 hh.2 ha hn) hs

theorem goes_evOnce (h : Tallied e d l) {u : U} (hio : l.fds.active (.once u) = 0) (ht : l.timers.active (.once u) = 0)
    (fd : ℤ) (events : Events) (timeout : T) : Goes e d l (l.evOnce e u fd events timeout) := by
  unfold Loop.evOnce
  dsimp only
  split
  · exact .refl h
  · have hinit : Goes e d l (l.evInit (.io (.once u))) := goes_pend h (keeps_evInit l (w := .io (.once u)) rfl)
    have hio' : Goes e d l (if 0 ≤ fd ∧ events &&& (evRead ||| evWrite) ≠ 0 then
          ((l.evInit (.io (.once u))).evIoSet (.once u) fd.toNat (events &&& (evRead ||| evWrite))).evIoStart (.once u)
        else l.evInit (.io (.once u))) ∧
        (if 0 ≤ fd ∧ events &&& (evRead ||| evWrite) ≠ 0 then
          ((l.evInit (.io (.once u))).evIoSet (.once u) fd.toNat (events &&& (evRead ||| evWrite))).evIoStart (.once u)
        else l.evInit (.io (.once u))).timers = l.timers := by
      split
      · have hset := goes_fds hinit.tallied (f := (l.evInit (.io (.once u))).fds.evIoSet (.once u) fd.toNat
            (events &&& (evRead ||| evWrite))) (fun hl => ⟨hl.linked.evIoSet hio _ _, hl.one⟩) rfl
        exact ⟨(hinit.trans hset).trans (goes_evIoStart hset.tallied rfl trivial), (Loop.timers_evIoStart ..).1⟩
      · exact ⟨hinit, rfl⟩
    obtain ⟨hio', hsame⟩ := hio'
    generalize (if 0 ≤ fd ∧ events &&& (evRead ||| evWrite) ≠ 0 then
          ((l.evInit (.io (.once u))).evIoSet (.once u) fd.toNat (events &&& (evRead ||| evWrite))).evIoStart (.once u)
        else l.evInit (.io (.once u))) = m at hio' hsame ⊢
    have hinit' : Goes e d m (m.evInit (.timer (.once u))) :=
      goes_pend hio'.tallied (keeps_evInit m (w := .timer (.once u)) rfl)
    split
    · have hset := goes_evTimerSet hinit'.tallied (w := .once u) (by rw [← hsame] at ht; exact ht) rfl timeout 0
      exact ((hio'.trans hinit').trans hset).trans (goes_evTimerStart hset.tallied rfl)
    · exact hio'.trans hinit'

theorem goes_onceCb (h : Tallied e d l) (u : U) : Goes e d l (l.onceCb e u) := by
  have hio := goes_evIoStop h (w := .once u) rfl
  exact hio.trans (goes_evTimerStop hio.tallied rfl)

theorem goes_untouched (h : Tallied e d l) : Goes e d l l.untouched := by
  have hk : Keeps l l.untouched := ⟨rfl, rfl, id, id⟩
  have hheaps := h.built.indexes.arranged.heaps.untouched
  exact .rests h ⟨hk.built h.built ⟨hheaps.1.ok, hheaps.2.ok⟩, fun v => by cases v <;> exact Iff.rfl, rfl⟩
    ⟨rfl, rfl, rfl, rfl, fun _ => rfl, rfl, rfl, rfl⟩

end

end Census
end Qev
