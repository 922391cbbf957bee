/-
# Reference accounting

In any run of any of the families, in any order, `activecnt` is the number of active watchers that keep the loop alive,
with the references of the user, less what was lost (`references`), and `ev_verify` finds nothing wrong (`verified`).
-/
import Qev.Loop.TallyStat

namespace Qev

open Lib

namespace Census

variable {U T A : Type} [DecidableEq U] [DecidableEq A] [LinearOrder T] [Add T] [Sub T] [Zero T]
variable {e : Env U T} {c : Infy.Consts T} {hashsize : ℕ} {l m n : Loop U T (Infy.Kernel U A)} {d d' : ℤ}

/-! ### What a fork leaves to the stat watchers -/

section

omit [DecidableEq U] [DecidableEq A] [Add T] [Sub T] [Zero T]

theorem aside_evUnref (h : l.TimersOk e) : Infy.Aside e l l.evUnref := .of_eq h rfl rfl rfl rfl rfl rfl

end

section

omit [DecidableEq A] [Add T] [Sub T] [Zero T]

theorem aside_iouringRestart (h : l.TimersOk e) (tfd : ℕ) : Infy.Aside e l (l.iouringRestart tfd) := by
  have hstop := Infy.aside_evIoStop h .iouringTfdW
  unfold Loop.iouringRestart
  dsimp only
  generalize l.evIoStop .iouringTfdW = m at hstop ⊢
  have hset : Infy.Aside e m ((m.evIoInit .iouringTfdW tfd evRead).evSetPriority (.io .iouringTfdW) minpri) :=
    .of_eq hstop.timersOk rfl rfl rfl rfl rfl rfl
  have hstart := Infy.aside_evIoStart hset.timersOk .iouringTfdW
  exact ((hstop.trans hset).trans hstart).trans (.of_eq hstart.timersOk rfl rfl rfl rfl rfl rfl)

theorem aside_linuxaioRestart (h : l.TimersOk e) (backendFd : ℕ) : Infy.Aside e l (l.linuxaioRestart backendFd) := by
  have hrearm : Infy.Aside e l l.fdRearmAll := .of_eq h rfl rfl rfl rfl rfl rfl
  have hstop := Infy.aside_evIoStop hrearm.timersOk .linuxaioEpollW
  have hset : Infy.Aside e (l.fdRearmAll.evIoStop .linuxaioEpollW)
      ((l.fdRearmAll.evIoStop .linuxaioEpollW).evIoSet .linuxaioEpollW backendFd evRead) :=
    .of_eq hstop.timersOk rfl rfl rfl rfl rfl rfl
  exact ((hrearm.trans hstop).trans hset).trans (Infy.aside_evIoStart hset.timersOk .linuxaioEpollW)

theorem aside_backendFork (h : l.TimersOk e) (backendFd : ℕ) : Infy.Aside e l (l.backendFork backendFd) := by
  unfold Loop.backendFork
  cases l.backend with
  | iouring => exact aside_iouringRestart h backendFd
  | linuxaio => exact aside_linuxaioRestart h backendFd
  | _ => exact .of_eq h rfl rfl rfl rfl rfl rfl

end

section

omit [DecidableEq A]

theorem aside_evtimerfdInit (h : l.TimersOk e) (k : TimerfdCreate T) : Infy.Aside e l (l.evtimerfdInit e k) := by
  unfold Loop.evtimerfdInit
  split
  · exact .of_eq h rfl rfl rfl rfl rfl rfl
  · dsimp only
    split
    · have hset : Infy.Aside e l ((({ l with timerfd := k.fd } : Loop U T (Infy.Kernel U A)).evIoInit .timerfdW
          k.fd.toNat evRead).evSetPriority (.io .timerfdW) minpri) := .of_eq h rfl rfl rfl rfl rfl rfl
      have hstart := hset.trans (Infy.aside_evIoStart hset.timersOk .timerfdW)
      have hunref := hstart.trans (aside_evUnref hstart.timersOk)
      generalize (((({ l with timerfd := k.fd } : Loop U T (Infy.Kernel U A)).evIoInit .timerfdW k.fd.toNat
        evRead).evSetPriority (.io .timerfdW) minpri).evIoStart .timerfdW).evUnref = m at hunref ⊢
      refine hunref.trans ?_
      unfold Loop.timerfdcb
      dsimp only
      split
      · obtain ⟨p, n, heq⟩ := Loop.periodicsReschedule_touches e { m with evRtNow := k.now }
        rw [heq]
        exact .of_eq hunref.timersOk rfl rfl rfl rfl rfl rfl
      · exact .of_eq hunref.timersOk rfl rfl rfl rfl rfl rfl
    · exact .of_eq h rfl rfl rfl rfl rfl rfl

theorem aside_timerfdReopen (h : l.TimersOk e) (k : TimerfdCreate T) : Infy.Aside e l (l.timerfdReopen e k) := by
  unfold Loop.timerfdReopen
  split
  · exact .of_eq h rfl rfl rfl rfl rfl rfl
  · have href : Infy.Aside e l l.evRef := .of_eq h rfl rfl rfl rfl rfl rfl
    have hstop := href.trans (Infy.aside_evIoStop href.timersOk .timerfdW)
    dsimp only
    generalize l.evRef.evIoStop .timerfdW = m at hstop ⊢
    have hfd : Infy.Aside e m { m with timerfd := -2 } := .of_eq hstop.timersOk rfl rfl rfl rfl rfl rfl
    have hinit := aside_evtimerfdInit hfd.timersOk k
    exact ((hstop.trans hfd).trans hinit).trans (.of_eq hinit.timersOk rfl rfl rfl rfl rfl rfl)

end

section

omit [DecidableEq A] [Add T] [Sub T] [Zero T]

theorem aside_evpipeFork (h : l.TimersOk e) (pipe : ℕ) : Infy.Aside e l (l.evpipeFork pipe) := by
  unfold Loop.evpipeFork
  split
  · exact .of_eq h rfl rfl rfl rfl rfl rfl
  · have href : Infy.Aside e l l.evRef := .of_eq h rfl rfl rfl rfl rfl rfl
    have hstop := href.trans (Infy.aside_evIoStop href.timersOk .pipeW)
    dsimp only
    generalize l.evRef.evIoStop .pipeW = m at hstop ⊢
    have hset : Infy.Aside e m (m.evIoSet .pipeW pipe evRead) := .of_eq hstop.timersOk rfl rfl rfl rfl rfl rfl
    have hstart := Infy.aside_evIoStart hset.timersOk .pipeW
    exact ((hstop.trans hset).trans hstart).trans (.of_eq hstart.timersOk rfl rfl rfl rfl rfl rfl)

end

theorem stat_loopFork (h : Infy.Inv e c l) (f : Reopened T) : Infy.Inv e c (Loop.loopFork e c f l) := by
  have hbackend := (h.aside (aside_backendFork h.fit.timersOk f.backendFd)).1
  have hinfy := (hbackend.step (.fork _ f.fs)).1
  unfold Loop.loopFork
  dsimp only
  generalize Loop.infyFork e c f.fs (l.backendFork f.backendFd) = m at hinfy ⊢
  have hpipe : Infy.Inv e c (if m.postfork ≠ 2 then (m.timerfdReopen e f.timerfd).evpipeFork f.pipe else m) := by
    split
    · have htfd := aside_timerfdReopen hinfy.fit.timersOk f.timerfd
      exact (hinfy.aside (htfd.trans (aside_evpipeFork htfd.timersOk f.pipe))).1
    · exact hinfy
  generalize (if m.postfork ≠ 2 then _ else _ : Loop U T (Infy.Kernel U A)) = n at hpipe ⊢
  exact (hpipe.aside (m := { n with postfork := 0 }) (.of_eq hpipe.fit.timersOk rfl rfl rfl rfl rfl rfl)).1

/-! ### The invariant -/

/-- The count is by `d` off, and what the calls go by is in order. -/
structure Sound (e : Env U T) (c : Infy.Consts T) (d : ℤ) (l : Loop U T (Infy.Kernel U A)) : Prop where
  tallied : Tallied e d l
  lone : Lone l
  stat : Infy.Inv e c l

section

omit [DecidableEq U] [DecidableEq A] [Add T] [Sub T]

theorem Sound.goes (h : Sound e c d l) (hg : Goes e d' l m) : Sound e c d' m :=
  ⟨hg.tallied, hg.lone h.lone, (h.stat.aside hg.aside).1⟩

end

theorem Sound.minds (h : Sound e c d l) {k : ℤ} (hm : Minds e k l m) (hs : Infy.Inv e c m) : Sound e c (d + k) m :=
  ⟨h.tallied.minds hm, hm.lone h.lone, hs⟩

theorem Sound.data (h : Sound e c d l) (hk : Keeps l m) (hh : m.timers = l.timers ∧ m.periodics = l.periodics)
    (ha : m.active = l.active) (hn : m.activecnt = l.activecnt) (hs : Side l m) : Sound e c d m :=
  h.goes (goes_data h.tallied hk hh ha hn hs)

/-- What is done to a loop that is in order. -/
theorem Sound.does [AddRightMono T] (h : Sound e c d l) {a : Act U T} (ha : Allowed e l a) :
    Sound e c (d + refs a - takes l a) (does e c hashsize l.untouched a) := by
  have h₀ : Sound e c d l.untouched := h.goes (goes_untouched h.tallied)
  have ht := h₀.tallied
  have hheaped := Loop.heaped_untouched h.tallied.built.indexes.arranged.heaps
  obtain ⟨t, hgood⟩ := hheaped.periodics
  -- most calls neither count for the user nor lose a reference
  have hz : ∀ {m : Loop U T (Infy.Kernel U A)}, Sound e c d m → Sound e c (d + 0 - 0) m := fun hm => by
    rwa [add_zero, sub_zero]
  have hm0 : ∀ {m : Loop U T (Infy.Kernel U A)}, Sound e c (d + 0) m → Sound e c (d + 0 - 0) m := fun hm => by
    rwa [sub_zero]
  cases a with
  | evRef =>
    have href := h₀.goes (goes_evRef ht)
    show Sound e c (d + 1 - 0) _
    rwa [sub_zero]
  | evUnref =>
    have hunref := h₀.goes (goes_evUnref ht)
    show Sound e c (d + -1 - 0) _
    rwa [sub_zero]
  | evFeedEvent w revents => exact hz (h₀.goes (goes_evFeedEvent ht w revents))
  | evClearPending w => exact hz (h₀.goes (goes_pend ht (keeps_clearPending _ w)))
  | evSetPriority w pri => exact hz (h₀.goes (goes_evSetPriority ht (by cases w <;> exact ha.1) ha.2.1 ha.2.2))
  | evIoSet w fd events =>
    have hidle : l.untouched.fds.active (.user w) = 0 := ha
    exact hz (h₀.goes (goes_fds ht (fun hl => ⟨hl.linked.evIoSet hidle fd events, hl.one⟩) rfl))
  | evIoStart w => exact hz (h₀.goes (goes_evIoStart ht rfl trivial))
  | evIoStop w => exact hz (h₀.goes (goes_evIoStop ht rfl))
  | evIoModify w events => exact hz (h₀.goes (goes_evIoModify ht (.user w) events))
  | evTimerSet w after repeat' => exact hz (h₀.goes (goes_evTimerSet ht (w := .user w) ha rfl after repeat'))
  | timerRepeat w repeat' =>
    have hother : ∀ v, Function.update l.wRepeat (.user w) repeat' (.stat v) = l.wRepeat (.stat v) := fun v =>
      Function.update_of_ne (fun hc => by cases hc) ..
    exact hz (h₀.data ⟨rfl, rfl, id, id⟩ ⟨rfl, rfl⟩ (by funext v; cases v <;> rfl) rfl
      ⟨rfl, rfl, rfl, rfl, hother, rfl, rfl, rfl⟩)
  | evTimerStart w => exact hz (h₀.goes (goes_evTimerStart ht rfl))
  | evTimerStop w => exact hz (h₀.goes (goes_evTimerStop ht rfl))
  | evTimerAgain w => exact hz (h₀.goes (goes_evTimerAgain ht rfl))
  | evPeriodicSet w offset interval rescheduleCb =>
    exact hz (h₀.data ⟨rfl, rfl, id, id⟩ ⟨rfl, rfl⟩ (by funext v; cases v <;> rfl) rfl
      ⟨rfl, rfl, rfl, rfl, fun _ => rfl, rfl, rfl, rfl⟩)
  | evPeriodicStart k w => exact hz (h₀.goes (goes_evPeriodicStart ht hgood k w))
  | evPeriodicStop w => exact hz (h₀.goes (goes_evPeriodicStop ht w))
  | evPeriodicAgain k w => exact hz (h₀.goes (goes_evPeriodicAgain ht hgood k w))
  | evSignalSet w signum =>
    exact hz (h₀.data ⟨rfl, rfl, id, id⟩ ⟨rfl, rfl⟩ (by funext v; cases v <;> rfl) rfl
      ⟨rfl, rfl, rfl, rfl, fun _ => rfl, rfl, rfl, rfl⟩)
  | evSignalStart fd evpipe w => exact hz (h₀.goes (goes_evSignalStart ht h₀.lone fd evpipe rfl))
  | evSignalStop w => exact hz (h₀.goes (goes_evSignalStop ht rfl))
  | evChildSet w pid =>
    exact hz (h₀.data ⟨rfl, rfl, id, id⟩ ⟨rfl, rfl⟩ (by funext v; cases v <;> rfl) rfl
      ⟨rfl, rfl, rfl, rfl, fun _ => rfl, rfl, rfl, rfl⟩)
  | evChildStart w => exact hz (h₀.goes (goes_evChildStart ht hashsize w))
  | evChildStop w => exact hz (h₀.goes (goes_evChildStop ht hashsize w))
  | evStatSet w path interval =>
    refine hm0 (h₀.minds (minds_data hheaped ⟨rfl, rfl, id, id⟩ ⟨rfl, rfl⟩ (by funext v; cases v <;> rfl) rfl rfl) ?_)
    exact (h₀.stat.step (.set _ w path interval ha)).1
  | evStatStart o w =>
    obtain ⟨htally, hlone⟩ := evStatStart_tallied (c := c) ht h₀.lone hheaped o (w := w) fun hw => (h₀.stat.idle w hw).2
    exact hz ⟨htally, hlone, (h₀.stat.step (.start _ o w)).1⟩
  | evStatStop w =>
    obtain ⟨htally, hlone⟩ := evStatStop_tallied (c := c) ht h₀.lone hheaped w
    exact hz ⟨htally, hlone, (h₀.stat.step (.stop _ w)).1⟩
  | evStatStat w => exact hm0 (h₀.minds (minds_stat hheaped) (h₀.stat.step (.stat _ w)).1)
  | evIdleStart w => exact hz (h₀.goes (goes_evIdleStart ht w))
  | evIdleStop w => exact hz (h₀.goes (goes_evIdleStop ht w))
  | evPrepareStart w => exact hz (h₀.goes (goes_evPrepareStart ht trivial))
  | evPrepareStop w => exact hz (h₀.goes (goes_evPrepareStop ht _))
  | evCheckStart w => exact hz (h₀.goes (goes_evCheckStart ht w))
  | evCheckStop w => exact hz (h₀.goes (goes_evCheckStop ht w))
  | evEmbedStart backendFd w => exact hz (h₀.goes (goes_evEmbedStart ht h₀.lone backendFd w))
  | evEmbedStop w => exact hz (h₀.goes (goes_evEmbedStop ht w))
  | evForkStart w => exact hz (h₀.goes (goes_evForkStart ht trivial))
  | evForkStop w => exact hz (h₀.goes (goes_evForkStop ht _))
  | evCleanupStart w => exact hz (h₀.goes (goes_evCleanupStart ht w))
  | evCleanupStop w => exact hz (h₀.goes (goes_evCleanupStop ht w))
  | evAsyncStart evpipe w => exact hz (h₀.goes (goes_evAsyncStart ht evpipe w))
  | evAsyncStop w => exact hz (h₀.goes (goes_evAsyncStop ht w))
  | evOnce u fd events timeout => exact hz (h₀.goes (goes_evOnce ht ha.1 ha.2 fd events timeout))
  | onceCb u => exact hz (h₀.goes (goes_onceCb ht u))
  | statTimerCb w => exact hm0 (h₀.minds (minds_statTimerCb hheaped w) (h₀.stat.step (.timer _ w ha)).1)
  | infyCb events => exact hm0 (h₀.minds (minds_infyCb hheaped events) (h₀.stat.step (.read _ events ha)).1)
  | timerfdcb k => exact hz (h₀.goes (goes_timerfdcb ht hgood k))
  | clock mn rt =>
    exact hz (h₀.data ⟨rfl, rfl, id, id⟩ ⟨rfl, rfl⟩ (by funext v; cases v <;> rfl) rfl
      ⟨rfl, rfl, rfl, rfl, fun _ => rfl, rfl, rfl, rfl⟩)
  | pop pri => exact hz (h₀.goes (goes_pend ht (.pend (·.pop pri) fun _ => rfl)))
  | timersReifyOne =>
    exact hz (h₀.goes (goes_timersReifyOne ht ha fun v hv =>
      h₀.stat.fit.armed v (fun hs => hv (h₀.stat.idle v hs).2) hv))
  | periodicsReifyOne => exact hz (h₀.goes (goes_periodicsReifyOne ht ha))
  | feedReverseDone revents => exact hz (h₀.goes (goes_pend ht (keeps_feedReverseDone _ revents)))
  | timersReschedule adjust => exact hz (h₀.goes (goes_timersReschedule ht adjust))
  | periodicsReschedule => exact hz (h₀.goes (goes_periodicsReschedule ht hgood))
  | fdReifyOne fd => exact hz (h₀.goes (goes_setFd ht rfl))
  | fdShift changecnt => exact hz (h₀.goes (goes_fds ht (fun hl => hl.same (fun _ => rfl) rfl rfl) rfl))
  | loopFork postfork f =>
    have hmark : Minds e 0 l.untouched { l.untouched with postfork := postfork } :=
      minds_data hheaped ⟨rfl, rfl, id, id⟩ ⟨rfl, rfl⟩ (by funext v; cases v <;> rfl) rfl rfl
    have hstat := (h₀.stat.aside (m := { l.untouched with postfork := postfork })
      (.of_eq hheaped.timers rfl rfl rfl rfl rfl rfl)).1
    have hfork := h₀.minds (hmark.trans (minds_loopFork (c := c) hmark.heaped f)) (stat_loopFork hstat f)
    show Sound e c (d + 0 - -l.shift) _
    rwa [show d + 0 - -l.shift = d + (0 + l.shift) by ring]
  | backendStart w fd pri => exact hz (h₀.goes (goes_backendStart ht ha.1 ha.2.1 fd ha.2.2))
  | fdEvent fd revents => exact hz (h₀.goes (goes_fdEvent ht fd revents))
  | fdEventNocheck fd revents => exact hz (h₀.goes (goes_fdEventNocheck ht fd revents))
  | fdChange fd flags =>
    exact hz (h₀.goes (goes_fds ht (fun hl => hl.same (fun _ => Fds.head_fdChange ..) rfl rfl) rfl))
  | fdRearm fd =>
    have hact : (l.untouched.fds.rearm fd).active = l.untouched.fds.active := by
      unfold Fds.rearm
      split
      · rfl
      · rfl
    exact hz (h₀.goes (goes_fds ht (·.rearm fd) hact))
  | fdSet fd events emask egen => exact hz (h₀.goes (goes_setFd ht rfl))
  | fdKillOne fd =>
    have hlinked := ht.built.listed.linked.mem fd
    replace hlinked : ∀ w, w ∈ (l.fds.anfds fd).head ↔ l.fds.active w ≠ 0 ∧ l.fds.fd w = fd := hlinked
    have hwatch : (l.untouched.fds.anfds fd).head = (l.fds.anfds fd).head := rfl
    cases hhead : (l.fds.anfds fd).head with
    | nil =>
      have hdo : Census.does e c hashsize l.untouched (.fdKillOne fd) = l.untouched ∧ takes l (.fdKillOne fd) = 0 := by
        simp only [Census.does, takes, hwatch, hhead, and_self]
      rw [hdo.1, hdo.2]
      exact hz h₀
    | cons w ws =>
      have hdo : Census.does e c hashsize l.untouched (.fdKillOne fd) = l.untouched.fdKillOne w ∧
          takes l (.fdKillOne fd) = if isOwn (.io w) = true then 1 else 0 := by
        simp only [Census.does, takes, hwatch, hhead, and_self]
      have hw := ((hlinked w).mp (by rw [hhead]; exact List.mem_cons_self)).1
      have hkill := h₀.goes (goes_fdKillOne ht (w := w) hw)
      rw [hdo.1, hdo.2]
      show Sound e c (d + 0 - _) _
      rwa [add_zero]
  | childevStart sigchld fd evpipe => exact hz (h₀.goes (goes_childevStart ht h₀.lone ha sigchld fd evpipe))
  | event ev => exact hm0 (h₀.minds (minds_stat hheaped) (h₀.stat.step (.event _ ev ha)).1)
  | vanish wd =>
    obtain ⟨⟨wd', inode⟩, hmem, rfl⟩ := List.mem_map.mp ha
    exact hm0 (h₀.minds (minds_stat hheaped) (h₀.stat.step (.vanish _ wd' ⟨inode, hmem⟩)).1)
  | overflow before after => exact hm0 (h₀.minds (minds_stat hheaped) (h₀.stat.step (.overflow _ before after ha)).1)

section

omit [DecidableEq A]

theorem sound_init [Inhabited U] (backend : Backend) (noinotify signalfd notimerfd : Bool) {k : Infy.Kernel U A}
    (hnext : k.next = 1) (hwatches : k.watches = []) (hqueue : k.queue = []) :
    Sound e c 0 (Loop.init backend noinotify signalfd notimerfd k : Loop U T (Infy.Kernel U A)) := by
  have hidle : ∀ w, (Loop.init backend noinotify signalfd notimerfd k : Loop U T (Infy.Kernel U A)).active w = 0 :=
    fun w => by cases w <;> rfl
  have hnone : alive (Loop.init backend noinotify signalfd notimerfd k : Loop U T (Infy.Kernel U A)) = ∅ :=
    Set.eq_empty_of_forall_notMem fun w hw => hw.2 (hidle w)
  refine ⟨⟨⟨Indexes.inv_init backend noinotify signalfd notimerfd k, ⟨?_, fun _ => Nat.zero_le 1⟩, ?_⟩, ?_, ?_⟩,
    fun w hw => absurd (hidle w) hw, (Infy.noStats_init backend noinotify signalfd notimerfd hnext hwatches hqueue).inv⟩
  · exact ⟨fun _ _ => iff_of_false List.not_mem_nil fun hw => hw.1 rfl, fun _ => List.nodup_nil⟩
  · exact ⟨Loop.range_init backend noinotify signalfd notimerfd k, fun _ hw => absurd rfl hw⟩
  · rw [hnone]
    exact Set.finite_empty
  · rw [hnone, Set.ncard_empty]
    rfl

end

theorem sound_run [AddRightMono T] {s t : State U T A} {acts : List (Act U T)}
    (h : Sound e c (s.refs - s.lost) s.loop) (hrun : Runs e c hashsize s acts t) :
    Sound e c (t.refs - t.lost) t.loop := by
  refine hrun.invariant (I := fun s => Sound e c (s.refs - s.lost) s.loop) (fun s a t hs hstep => ?_) h
  unfold step at hstep
  split at hstep
  · rename_i ha
    cases hstep
    have hdoes : Sound e c _ (Census.does e c hashsize s.loop.untouched a) := hs.does ha
    show Sound e c (s.refs + refs a - (s.lost + takes s.loop a)) _
    rwa [show s.refs + refs a - (s.lost + takes s.loop a) = s.refs - s.lost + refs a - takes s.loop a by ring]
  · cases hstep

/-! ### The results -/

section

variable [Inhabited U] [AddRightMono T] {backend : Backend} {noinotify signalfd notimerfd : Bool}
  {kernel : Infy.Kernel U A} {acts : List (Act U T)} {s : State U T A}

/-- **`activecnt` is the number of active watchers that keep the loop alive**, with the user's references, less what was
lost, in any run. -/
theorem references (hnext : kernel.next = 1) (hwatches : kernel.watches = []) (hqueue : kernel.queue = [])
    (hrun : Runs e c hashsize ⟨Loop.init backend noinotify signalfd notimerfd kernel, 0, 0⟩ acts s) :
    (alive s.loop).Finite ∧ s.loop.activecnt = (alive s.loop).ncard + s.refs - s.lost := by
  have h := sound_run (sound_init backend noinotify signalfd notimerfd hnext hwatches hqueue) hrun
  exact ⟨h.tallied.finite, h.tallied.count.trans (add_sub_assoc ..).symm⟩

/-- **`ev_verify` finds nothing wrong** in any run: it returns exactly if the references of the user do not go below the
number of watchers that keep the loop alive by more than one. -/
theorem verified (hnext : kernel.next = 1) (hwatches : kernel.watches = []) (hqueue : kernel.queue = [])
    (hrun : Runs e c hashsize ⟨Loop.init backend noinotify signalfd notimerfd kernel, 0, 0⟩ acts s) :
    s.loop.evVerify e = true ↔ s.lost - s.refs ≤ (alive s.loop).ncard + 1 := by
  have h := sound_run (sound_init backend noinotify signalfd notimerfd hnext hwatches hqueue) hrun
  rw [h.tallied.built.verify_iff, h.tallied.count]
  constructor
  · intro hle
    omega
  · intro hle
    omega

end

/-- A kernel that lets every path be watched. -/
def watching : Infy.Kernel Bool Unit :=
  ⟨1, [], [], fun _ _ => .ok 7, fun _ _ => some 0xEF53, fun _ _ => some ⟨1, ()⟩, 0, fun _ => ['f'], fun _ => ⟨1, ()⟩,
    fun _ => ⟨1, ()⟩⟩

/-- A stat watcher and an embed are started, the loop is unreferenced, and the fd of inotify is killed. -/
def killedActs : List (Act Bool ℤ) := [.evStatStart ⟨true, some 9⟩ false, .evEmbedStart 3 true, .evUnref, .fdKillOne 9]

theorem killed_runs : ∃ s,
    Runs Loop.envFour Loop.statConsts 16 ⟨Loop.init .epoll false false true watching, 0, 0⟩ killedActs s ∧
    s.loop.activecnt = 3 ∧ s.refs = -1 ∧ s.lost = 1 := by
  have hexec : (execFrom (step Loop.envFour Loop.statConsts 16) ⟨Loop.init .epoll false false true watching, 0, 0⟩
      killedActs).map (fun s => (s.loop.activecnt, s.refs, s.lost)) = some (3, -1, 1) := by decide +kernel
  obtain ⟨s, hs, hvals⟩ := Option.map_eq_some_iff.mp hexec
  simp only [Prod.mk.injEq] at hvals
  exact ⟨s, Run.iff_execFrom.mpr hs, hvals⟩

/-- Of the watchers that keep the loop alive five are active, and `fd_kill` has lost a reference. -/
theorem references_killed : ∃ s : State Bool ℤ Unit, s.loop.activecnt = 3 ∧ (alive s.loop).ncard = 5 := by
  obtain ⟨s, hrun, hcount, hrefs, hlost⟩ := killed_runs
  obtain ⟨-, htally⟩ := references rfl rfl rfl hrun
  exact ⟨s, hcount, by omega⟩

theorem verified_killed : ∃ s : State Bool ℤ Unit, s.lost = 1 ∧ s.loop.evVerify Loop.envFour = true := by
  obtain ⟨s, hrun, hcount, hrefs, hlost⟩ := killed_runs
  have htally := (sound_run (sound_init .epoll false false true rfl rfl rfl) hrun).tallied.count
  exact ⟨s, hlost, (verified rfl rfl rfl hrun).mpr (by omega)⟩

end Census
end Qev
