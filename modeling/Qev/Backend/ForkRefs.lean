/-
# What loop_fork does to the reference count

`loop_fork` stops and starts again the loop's own watchers, and makes up for what `ev_io_start` and
`ev_io_stop` count with `ev_ref` and `ev_unref`; the timers of stat watchers are re-armed. All of it
leaves the user's watchers active that were (`Shifts`).

Of the counts, three do not add up (`shift`): `iouring_destroy` stops `iouring_tfd_w` without an
`ev_ref`; `linuxaio_fork` starts `linuxaio_epoll_w`, and `infy_fork` calls `ev_ref`, also where the
watcher was not active. So the count stays exactly if these cancel out (`fork_refs`).
-/
import Qev.Backend.EmbedLoop
import Qev.Backend.Queues
import Qev.Loop.StatSight

set_option linter.unusedSectionVars false

namespace Qev

open Lib

/-! ### loop_fork -/

/-- The watchers of the loop itself. -/
def isOwn {U : Type} : Watcher U → Bool
  | .io .pipeW => true
  | .io .timerfdW => true
  | .io .sigfdW => true
  | .io .fsW => true
  | .io .iouringTfdW => true
  | .io .linuxaioEpollW => true
  | .timer (.stat _) => true
  | _ => false

/-- What `loop_fork` opens anew: `backendFd` is the fd of io_uring's timerfd, or of linuxaio's epoll. -/
structure Reopened (T : Type) where
  backendFd : ℕ
  fs : Option ℕ
  timerfd : TimerfdCreate T
  pipe : ℕ

namespace Loop

section

variable {U T K : Type} [DecidableEq U] [LinearOrder T] [Add T] [Sub T] [Zero T] (e : Env U T) (l : Loop U T K)

/-- `iouring_fork`, but for the ring. -/
def iouringRestart (tfd : ℕ) : Loop U T K :=
  let l := l.evIoStop .iouringTfdW
  let l := l.evIoInit .iouringTfdW tfd evRead
  let l := l.evSetPriority (.io .iouringTfdW) minpri
  let l := l.evIoStart .iouringTfdW
  l.evUnref.fdRearmAll

/-- `linuxaio_fork`, but for the context. -/
def linuxaioRestart (backendFd : ℕ) : Loop U T K :=
  let l := l.fdRearmAll
  let l := l.evIoStop .linuxaioEpollW
  (l.evIoSet .linuxaioEpollW backendFd evRead).evIoStart .linuxaioEpollW

/-- The `fork` of the backend; `select` and `poll` have none. -/
def backendFork (backendFd : ℕ) : Loop U T K :=
  match l.backend with
  | .port => l.fdRearmAll
  | .kqueue => l.fdRearmAll
  | .iouring => l.iouringRestart backendFd
  | .linuxaio => l.linuxaioRestart backendFd
  | .epoll => l.fdRearmAll
  | .poll => l
  | .select => l

/-- `loop_fork` for `timerfd_w`, with all that `evtimerfd_init` does. -/
def timerfdReopen (k : TimerfdCreate T) : Loop U T K :=
  if l.fds.active .timerfdW = 0 then l
  else
    let l := l.evRef.evIoStop .timerfdW
    let l := ({ l with timerfd := -2 } : Loop U T K).evtimerfdInit e k
    l.evFeedEvent (.io .timerfdW) evCustom

end

variable {U T A : Type} [DecidableEq U] [DecidableEq A] [LinearOrder T] [Add T] [Sub T] [Zero T]
  (e : Env U T) (c : Infy.Consts T)

def loopFork (f : Reopened T) (l : Loop U T (Infy.Kernel U A)) : Loop U T (Infy.Kernel U A) :=
  let l := infyFork e c f.fs (l.backendFork f.backendFd)
  let l := if l.postfork ≠ 2 then (l.timerfdReopen e f.timerfd).evpipeFork f.pipe else l
  { l with postfork := 0 }

/-! ### The forks of the backends -/

section

variable {K K' : Type} (l : Loop U T K)

/-- The loop over another kernel. -/
def onKernel (k : K') : Loop U T K' :=
  { l with kernel := k }

theorem onKernel_evIoStop (k : K') (w : IoW U) : (l.evIoStop w).onKernel k = (l.onKernel k).evIoStop w := by
  unfold evIoStop
  dsimp only
  by_cases hw : l.fds.active w = 0
  · rw [if_pos (by exact hw), if_pos (by exact hw)]
    rfl
  · rw [if_neg (by exact hw), if_neg (by exact hw)]
    rfl

theorem onKernel_evIoStart (k : K') (w : IoW U) : (l.evIoStart w).onKernel k = (l.onKernel k).evIoStart w := by
  unfold evIoStart
  by_cases hw : l.fds.active w ≠ 0
  · rw [if_pos hw, if_pos (by exact hw)]
  · rw [if_neg hw, if_neg (by exact hw)]
    rfl

theorem iouringFork_restart (l : Loop U T Uring.Kernel) (c : Uring.Created) (k : K') :
    (l.iouringFork c).onKernel k = (l.onKernel k).iouringRestart c.tfd := by
  unfold iouringRestart
  dsimp only
  rw [← onKernel_evIoStop]
  unfold iouringFork iouringInit iouringDestroy
  dsimp only
  exact congrArg (fun m : Loop U T K' => m.evUnref.fdRearmAll) (onKernel_evIoStart _ k .iouringTfdW)

theorem epollFork_rearm (l : Loop U T Epoll.Kernel) (k : K') : l.epollFork.onKernel k = (l.onKernel k).fdRearmAll :=
  rfl

theorem kqueueFork_rearm (l : Loop U T Kqueue.Kernel) (k : K') :
    l.kqueueFork.onKernel k = (l.onKernel k).fdRearmAll := rfl

theorem portFork_rearm (l : Loop U T Port.Kernel) (k : K') : l.portFork.onKernel k = (l.onKernel k).fdRearmAll := rfl

end

/-! ### What is counted -/

section

variable {K : Type} {e : Env U T} {l m n : Loop U T K} {d d' : ℤ}

/-- The heap of the timers is well formed, and that of the periodics. -/
structure Heaped (e : Env U T) (l : Loop U T K) : Prop where
  timers : l.TimersOk e
  periodics : ∃ p, l.periodics.Good e.heap p

/-- The count has changed by `d`, and the user's watchers are active that were. -/
structure Shifts (e : Env U T) (d : ℤ) (l m : Loop U T K) : Prop where
  heaped : Heaped e m
  count : m.activecnt = l.activecnt + d
  active : ∀ w, isOwn w = false → (m.active w ≠ 0 ↔ l.active w ≠ 0)

theorem Heaped.shifts (h : Heaped e l) : Shifts e 0 l l := ⟨h, (add_zero _).symm, fun _ _ => Iff.rfl⟩

theorem Shifts.trans (h : Shifts e d l m) (h' : Shifts e d' m n) : Shifts e (d + d') l n :=
  ⟨h'.heaped, by rw [h'.count, h.count, add_assoc], fun w hw => (h'.active w hw).trans (h.active w hw)⟩

/-- Only io watchers are touched. -/
theorem Heaped.ofIo (h : Heaped e l) {p : Pend (Watcher U)} {n : ℤ} {i : ℤ} {fds : Fds (IoW U)}
    (hd : n = l.activecnt + d) (ha : ∀ w, isOwn (.io w) = false → (fds.active w ≠ 0 ↔ l.fds.active w ≠ 0)) :
    Shifts e d l { l with pend := p, activecnt := n, iocnt := i, fds := fds } := by
  refine ⟨⟨h.timers, h.periodics⟩, hd, fun w hw => ?_⟩
  cases w with
  | io w => exact ha w hw
  | _ => exact Iff.rfl

theorem Heaped.evRef (h : Heaped e l) : Shifts e 1 l l.evRef := h.ofIo rfl fun _ _ => Iff.rfl

theorem Heaped.evUnref (h : Heaped e l) : Shifts e (-1) l l.evUnref := h.ofIo rfl fun _ _ => Iff.rfl

/-- What touches neither the count nor which watchers are active. -/
theorem Heaped.aside (h : Heaped e l) (ht : m.timers = l.timers) (hp : m.periodics = l.periodics)
    (hc : m.activecnt = l.activecnt) (ha : m.active = l.active) : Shifts e 0 l m :=
  ⟨⟨by unfold TimersOk; rw [ht]; exact h.timers, by rw [hp]; exact h.periodics⟩, by rw [hc, add_zero],
    fun w _ => by rw [ha]⟩

theorem Heaped.evFeedEvent (h : Heaped e l) (w : Watcher U) (revents : Events) :
    Shifts e 0 l (l.evFeedEvent w revents) :=
  h.ofIo (add_zero _).symm fun _ _ => Iff.rfl

theorem active_rearmAll (s : Fds (IoW U)) : s.rearmAll.active = s.active := by
  unfold Fds.rearmAll
  induction List.range s.anfdmax generalizing s with
  | nil => rfl
  | cons fd fds ih =>
    refine (ih (s.rearm fd)).trans ?_
    unfold Fds.rearm
    split
    · rfl
    · rfl

theorem Heaped.fdRearmAll (h : Heaped e l) : Shifts e 0 l l.fdRearmAll :=
  h.ofIo (add_zero _).symm fun w _ => iff_of_eq (congrArg (fun f => f w ≠ 0) (active_rearmAll l.fds))

/-- One of the loop's own watchers is stopped. -/
theorem Heaped.evIoStop (h : Heaped e l) {w : IoW U} (hw : isOwn (.io w) = true) :
    Shifts e (if l.fds.active w = 0 then 0 else -1) l (l.evIoStop w) ∧ (l.evIoStop w).fds.active w = 0 := by
  unfold Loop.evIoStop
  dsimp only
  by_cases ha : l.fds.active w = 0
  · rw [if_pos ha, if_pos (by exact ha)]
    exact ⟨h.ofIo (add_zero _).symm fun _ _ => Iff.rfl, ha⟩
  · rw [if_neg ha, if_neg (by exact ha)]
    refine ⟨h.ofIo rfl fun v hv => ?_, (Fds.active_stop ..).trans (if_pos rfl)⟩
    refine iff_of_eq (congrArg (· ≠ 0) ((Fds.active_stop ..).trans (if_neg ?_)))
    rintro rfl
    rw [hw] at hv
    cases hv

/-- One of the loop's own watchers is started. -/
theorem Heaped.evIoStart (h : Heaped e l) {w : IoW U} (hw : isOwn (.io w) = true) (ha : l.fds.active w = 0) :
    Shifts e 1 l (l.evIoStart w) := by
  unfold Loop.evIoStart
  rw [if_neg (not_not.mpr ha)]
  refine h.ofIo rfl fun v hv => ?_
  refine iff_of_eq (congrArg (· ≠ 0) ((Fds.active_start ..).trans (if_neg ?_)))
  rintro rfl
  rw [hw] at hv
  cases hv

/-- What `iouring_fork` and `linuxaio_fork` shift the count by. -/
def backendShift (l : Loop U T K) : ℤ :=
  if l.backend = .iouring ∧ l.fds.active .iouringTfdW ≠ 0 then -1
  else if l.backend = .linuxaio ∧ l.fds.active .linuxaioEpollW = 0 then 1
  else 0

theorem Heaped.iouringRestart (h : Heaped e l) (tfd : ℕ) :
    Shifts e (if l.fds.active .iouringTfdW = 0 then 0 else -1) l (l.iouringRestart tfd) := by
  obtain ⟨hstop, hidle⟩ := h.evIoStop (w := .iouringTfdW) rfl
  unfold Loop.iouringRestart
  dsimp only
  generalize l.evIoStop .iouringTfdW = m at hstop hidle ⊢
  have hset : Shifts e 0 m ((m.evIoInit .iouringTfdW tfd evRead).evSetPriority (.io .iouringTfdW) minpri) :=
    hstop.heaped.ofIo (add_zero _).symm fun _ _ => Iff.rfl
  have hstart := hset.heaped.evIoStart (w := .iouringTfdW) rfl hidle
  have hunref := hstart.heaped.evUnref
  have hall := (((hstop.trans hset).trans hstart).trans hunref).trans hunref.heaped.fdRearmAll
  simpa using hall

theorem Heaped.linuxaioRestart (h : Heaped e l) (backendFd : ℕ) :
    Shifts e (if l.fds.active .linuxaioEpollW = 0 then 1 else 0) l (l.linuxaioRestart backendFd) := by
  have hrearm := h.fdRearmAll
  have hact : l.fdRearmAll.fds.active .linuxaioEpollW = 0 ↔ l.fds.active .linuxaioEpollW = 0 :=
    iff_of_eq (congrArg (fun f => f .linuxaioEpollW = 0) (active_rearmAll l.fds))
  obtain ⟨hstop, hidle⟩ := hrearm.heaped.evIoStop (w := .linuxaioEpollW) rfl
  unfold Loop.linuxaioRestart
  dsimp only
  generalize l.fdRearmAll.evIoStop .linuxaioEpollW = m at hstop hidle ⊢
  have hset : Shifts e 0 m (m.evIoSet .linuxaioEpollW backendFd evRead) :=
    hstop.heaped.ofIo (add_zero _).symm fun _ _ => Iff.rfl
  have hall := ((hrearm.trans hstop).trans hset).trans (hset.heaped.evIoStart (w := .linuxaioEpollW) rfl hidle)
  split
  · rename_i ha
    rw [if_pos (hact.mpr ha)] at hall
    simpa using hall
  · rename_i ha
    rw [if_neg fun hn => ha (hact.mp hn)] at hall
    simpa using hall

theorem Heaped.backendFork (h : Heaped e l) (backendFd : ℕ) :
    Shifts e l.backendShift l (l.backendFork backendFd) := by
  unfold Loop.backendFork backendShift
  cases hb : l.backend with
  | iouring => simpa [ite_not] using h.iouringRestart backendFd
  | linuxaio => simpa using h.linuxaioRestart backendFd
  | select => simpa using h.shifts
  | poll => simpa using h.shifts
  | epoll => simpa using h.fdRearmAll
  | kqueue => simpa using h.fdRearmAll
  | port => simpa using h.fdRearmAll

theorem Heaped.evtimerfdInit (h : Heaped e l) (hidle : l.fds.active .timerfdW = 0) (k : TimerfdCreate T) :
    Shifts e 0 l (l.evtimerfdInit e k) := by
  unfold Loop.evtimerfdInit
  rw [if_neg (not_not.mpr hidle)]
  dsimp only
  split
  · have hset : Shifts e 0 l ((({ l with timerfd := k.fd } : Loop U T K).evIoInit .timerfdW k.fd.toNat
        evRead).evSetPriority (.io .timerfdW) minpri) :=
      h.aside rfl rfl rfl rfl
    have hstart := hset.heaped.evIoStart (w := .timerfdW) rfl hidle
    have hunref := hstart.heaped.evUnref
    generalize (((({ l with timerfd := k.fd } : Loop U T K).evIoInit .timerfdW k.fd.toNat evRead).evSetPriority
      (.io .timerfdW) minpri).evIoStart .timerfdW).evUnref = m at hunref ⊢
    have hcb : Shifts e 0 m (m.timerfdcb e k) := by
      have hnow : Shifts e 0 m { m with evRtNow := k.now } := hunref.heaped.aside rfl rfl rfl rfl
      unfold timerfdcb
      dsimp only
      split
      · obtain ⟨p, hp⟩ := hnow.heaped.periodics
        obtain ⟨d, n, heq, hgood, -, hact⟩ := periodicsReschedule_eq hp
        have hre : Shifts e 0 { m with evRtNow := k.now } (periodicsReschedule e { m with evRtNow := k.now }) := by
          rw [heq]
          refine ⟨⟨hnow.heaped.timers, p, hgood⟩, (add_zero _).symm, fun w _ => ?_⟩
          cases w with
          | periodic w => exact hact w
          | _ => exact Iff.rfl
        exact hnow.trans hre
      · exact hnow
    simpa using ((hset.trans hstart).trans hunref).trans hcb
  · exact h.aside rfl rfl rfl rfl

theorem Heaped.timerfdReopen (h : Heaped e l) (k : TimerfdCreate T) : Shifts e 0 l (l.timerfdReopen e k) := by
  unfold Loop.timerfdReopen
  split
  · exact h.shifts
  · rename_i ha
    have href := h.evRef
    obtain ⟨hstop, hidle⟩ := href.heaped.evIoStop (w := .timerfdW) rfl
    rw [if_neg (by exact ha)] at hstop
    dsimp only
    generalize l.evRef.evIoStop .timerfdW = m at hstop hidle ⊢
    have hfd : Shifts e 0 m ({ m with timerfd := -2 } : Loop U T K) := hstop.heaped.aside rfl rfl rfl rfl
    have hinit := hfd.heaped.evtimerfdInit (k := k) hidle
    simpa using (((href.trans hstop).trans hfd).trans hinit).trans (hinit.heaped.evFeedEvent ..)

theorem Heaped.evpipeFork (h : Heaped e l) (pipe : ℕ) : Shifts e 0 l (l.evpipeFork pipe) := by
  unfold Loop.evpipeFork
  split
  · exact h.shifts
  · rename_i ha
    have href := h.evRef
    obtain ⟨hstop, hidle⟩ := href.heaped.evIoStop (w := .pipeW) rfl
    rw [if_neg (by exact ha)] at hstop
    dsimp only
    generalize l.evRef.evIoStop .pipeW = m at hstop hidle ⊢
    have hset : Shifts e 0 m (m.evIoSet .pipeW pipe evRead) := hstop.heaped.ofIo (add_zero _).symm fun _ _ => Iff.rfl
    have hstart := hset.heaped.evIoStart (w := .pipeW) rfl hidle
    have hunref := hstart.heaped.evUnref
    simpa using ((((href.trans hstop).trans hset).trans hstart).trans hunref).trans (hunref.heaped.evFeedEvent ..)

/-- What `infy_fork` shifts the count by. -/
def infyShift (l : Loop U T K) : ℤ := if 0 ≤ l.fsFd ∧ l.fds.active .fsW = 0 then 1 else 0

theorem Heaped.infyReopen (h : Heaped e l) (fs : Option ℕ) : Shifts e l.infyShift l (l.infyReopen fs) := by
  unfold Loop.infyReopen infyShift
  by_cases hfs : l.fsFd < 0
  · rw [if_pos hfs, if_neg fun hn => absurd hfs (not_lt.mpr hn.1)]
    exact h.shifts
  · have href := h.evRef
    obtain ⟨hstop, hidle⟩ := href.heaped.evIoStop (w := .fsW) rfl
    have hall := href.trans hstop
    have hd : (1 + if l.evRef.fds.active .fsW = 0 then 0 else -1 : ℤ) =
        if 0 ≤ l.fsFd ∧ l.fds.active .fsW = 0 then 1 else 0 := by
      by_cases ha : l.fds.active .fsW = 0
      · rw [if_pos (by exact ha), if_pos ⟨not_lt.mp hfs, ha⟩]
        rfl
      · rw [if_neg (by exact ha), if_neg fun hn => ha hn.2]
        rfl
    rw [hd] at hall
    rw [if_neg hfs]
    dsimp only
    generalize l.evRef.evIoStop .fsW = m at hall hidle ⊢
    cases fs with
    | none => simpa using hall.trans (hall.heaped.aside (m := { m with fsFd := -1 }) rfl rfl rfl rfl)
    | some fd =>
      have hset : Shifts e 0 m (({ m with fsFd := fd } : Loop U T K).evIoSet .fsW fd evRead) :=
        hall.heaped.aside rfl rfl rfl rfl
      have hstart := hset.heaped.evIoStart (w := .fsW) rfl hidle
      simpa using ((hall.trans hset).trans hstart).trans hstart.heaped.evUnref

/-- `fs_w` is left to `infy_fork`. -/
theorem fs_backendFork (l : Loop U T K) (backendFd : ℕ) :
    (l.backendFork backendFd).fsFd = l.fsFd ∧ (l.backendFork backendFd).fds.active .fsW = l.fds.active .fsW := by
  have hstop : ∀ (l : Loop U T K) (w : IoW U), w ≠ .fsW →
      (l.evIoStop w).fsFd = l.fsFd ∧ (l.evIoStop w).fds.active .fsW = l.fds.active .fsW := by
    intro l w hw
    unfold Loop.evIoStop
    dsimp only
    split
    · exact ⟨rfl, rfl⟩
    · exact ⟨rfl, (Fds.active_stop ..).trans (if_neg (Ne.symm hw))⟩
  have hstart : ∀ (l : Loop U T K) (w : IoW U), w ≠ .fsW →
      (l.evIoStart w).fsFd = l.fsFd ∧ (l.evIoStart w).fds.active .fsW = l.fds.active .fsW := by
    intro l w hw
    unfold Loop.evIoStart
    split
    · exact ⟨rfl, rfl⟩
    · exact ⟨rfl, (Fds.active_start ..).trans (if_neg (Ne.symm hw))⟩
  have hrearm : ∀ l : Loop U T K,
      l.fdRearmAll.fsFd = l.fsFd ∧ l.fdRearmAll.fds.active .fsW = l.fds.active .fsW := fun l =>
    ⟨rfl, congrFun (active_rearmAll l.fds) _⟩
  unfold Loop.backendFork
  cases l.backend with
  | iouring =>
    obtain ⟨h₁, h₂⟩ := hstop l .iouringTfdW (by simp)
    unfold Loop.iouringRestart
    dsimp only
    generalize l.evIoStop .iouringTfdW = m at h₁ h₂ ⊢
    obtain ⟨h₃, h₄⟩ := hstart ((m.evIoInit .iouringTfdW backendFd evRead).evSetPriority (.io .iouringTfdW) minpri)
      .iouringTfdW (by simp)
    obtain ⟨h₅, h₆⟩ := hrearm (((m.evIoInit .iouringTfdW backendFd evRead).evSetPriority (.io .iouringTfdW)
      minpri).evIoStart .iouringTfdW).evUnref
    exact ⟨h₅.trans (h₃.trans h₁), h₆.trans (h₄.trans h₂)⟩
  | linuxaio =>
    obtain ⟨h₁, h₂⟩ := hrearm l
    obtain ⟨h₃, h₄⟩ := hstop l.fdRearmAll .linuxaioEpollW (by simp)
    unfold Loop.linuxaioRestart
    dsimp only
    generalize l.fdRearmAll.evIoStop .linuxaioEpollW = m at h₃ h₄ ⊢
    obtain ⟨h₅, h₆⟩ := hstart (m.evIoSet .linuxaioEpollW backendFd evRead) .linuxaioEpollW (by simp)
    exact ⟨h₅.trans (h₃.trans h₁), h₆.trans (h₄.trans h₂)⟩
  | select => exact ⟨rfl, rfl⟩
  | poll => exact ⟨rfl, rfl⟩
  | _ => exact hrearm l

/-- What `ev_timer_again` counts. -/
theorem count_evTimerAgain (l : Loop U T K) (w : TimerW U) : (l.evTimerAgain e w).activecnt = l.activecnt +
    ((if l.wRepeat w ≠ 0 then 1 else 0) - if l.timers.active w ≠ 0 then 1 else 0) := by
  unfold Loop.evTimerAgain
  dsimp only
  by_cases hw : l.timers.active w ≠ 0
  · rw [if_pos (by exact hw), if_pos hw]
    by_cases hr : l.wRepeat w ≠ 0
    · rw [if_pos (by exact hr), if_pos hr]
      exact (add_zero _).symm
    · rw [if_neg (by exact hr), if_neg hr]
      unfold evTimerStop
      dsimp only
      rw [if_neg (by exact hw)]
      rfl
  · rw [if_neg (by exact hw), if_neg hw]
    by_cases hr : l.wRepeat w ≠ 0
    · rw [if_pos (by exact hr), if_pos hr]
      unfold evTimerStart
      rw [if_neg (by exact hw)]
      rfl
    · rw [if_neg (by exact hr), if_neg hr]
      exact (add_zero _).symm

end

end Loop

/-! ### The timers of stat watchers -/

namespace Loop

variable {U T A : Type} [DecidableEq U] [DecidableEq A] [LinearOrder T] [Add T] [Sub T] [Zero T]
  {e : Env U T} {c : Infy.Consts T} {l m : Loop U T (Infy.Kernel U A)} {d : ℤ}

/-- The timer of a stat watcher is re-armed, and does not count. -/
theorem Heaped.statRearm (h : Heaped e l) (w : U) : Shifts e 0 l (l.statRearm e w) := by
  unfold Loop.statRearm
  dsimp only
  obtain ⟨n, hn, hcnt⟩ : ∃ n : Loop U T (Infy.Kernel U A),
      n = (if l.timers.active (.stat w) ≠ 0 then l.evRef else l) ∧
        n.activecnt = l.activecnt + if l.timers.active (.stat w) ≠ 0 then 1 else 0 := by
    refine ⟨_, rfl, ?_⟩
    split
    · rfl
    · exact (add_zero _).symm
  have hsame : n.timers = l.timers ∧ n.periodics = l.periodics ∧ n.wRepeat = l.wRepeat ∧ n.active = l.active := by
    rw [hn]
    split
    · exact ⟨rfl, rfl, rfl, rfl⟩
    · exact ⟨rfl, rfl, rfl, rfl⟩
  obtain ⟨ht, hp, hr, hact⟩ := hsame
  have hok : n.TimersOk e := by
    unfold TimersOk
    rw [ht]
    exact h.timers
  have hagain := count_evTimerAgain (e := e) n (.stat w)
  obtain ⟨p, k, d, heq, hd⟩ := evTimerAgain_eq hok (.stat w)
  rw [← hn, heq]
  rw [heq] at hagain
  replace hagain : k = l.activecnt + if n.wRepeat (.stat w) ≠ 0 then 1 else 0 := by
    rw [ht, hcnt] at hagain
    exact hagain.trans (by ring)
  have hself : d.active (.stat w) ≠ 0 ↔ n.wRepeat (.stat w) ≠ 0 := by
    rw [hd.active_iff, if_pos rfl]
  have hheaped : Heaped e { n with pend := p, activecnt := k, timers := d } := by
    obtain ⟨q, hq⟩ := h.periodics
    exact ⟨hd.self, q, by rw [← hp] at hq; exact hq⟩
  have hact' : ∀ v, isOwn v = false →
      (active { n with pend := p, activecnt := k, timers := d } v ≠ 0 ↔ l.active v ≠ 0) := by
    intro v hv
    rw [← hact]
    cases v with
    | timer v =>
      have hne : v ≠ .stat w := by
        rintro rfl
        cases hv
      refine (hd.active_iff v).trans ?_
      rw [if_neg hne]
      exact Iff.rfl
    | _ => exact Iff.rfl
  split
  · rename_i ha
    rw [if_pos (hself.mp ha)] at hagain
    have hcount : k - 1 = l.activecnt + 0 := by
      rw [hagain]
      ring
    exact ⟨⟨hheaped.timers, hheaped.periodics⟩, hcount, hact'⟩
  · rename_i ha
    rw [if_neg fun hr => ha (hself.mpr hr)] at hagain
    exact ⟨hheaped, hagain, hact'⟩

theorem Heaped.infyParents (n : ℕ) (path : List Char) (h : Heaped e l) (w : U) :
    Shifts e 0 l (infyParents w n path l) := by
  induction n generalizing path l with
  | zero => exact h.shifts
  | succ n ih =>
    unfold Loop.infyParents
    split
    · exact h.shifts
    · rename_i path' _
      split
      · exact h.aside rfl rfl rfl rfl
      · exact h.aside rfl rfl rfl rfl
      · rename_i k _ _ _
        have hk : Shifts e 0 l { l with kernel := k } := h.aside rfl rfl rfl rfl
        exact hk.trans (ih path' hk.heaped)

theorem Heaped.infyWatch (h : Heaped e l) (w : U) : Shifts e 0 l (l.infyWatch c w) := by
  unfold Loop.infyWatch
  dsimp only
  split
  · split
    · exact h.aside rfl rfl rfl rfl
    · split
      · exact h.aside rfl rfl rfl rfl
      · exact h.aside rfl rfl rfl rfl
  · rename_i k err _
    have hset : Shifts e 0 l ((({ l with kernel := k } : Loop U T (Infy.Kernel U A)).setWd w (-1)).setRepeat w
        ((({ l with kernel := k } : Loop U T (Infy.Kernel U A)).setWd w (-1)).interval w c.defStat)) :=
      h.aside rfl rfl rfl rfl
    split
    · exact hset.trans (hset.heaped.infyParents _ _ w)
    · exact hset

theorem Heaped.infyAdd (h : Heaped e l) (w : U) : Shifts e 0 l (l.infyAdd e c w) := by
  have hwatch := h.infyWatch (c := c) w
  unfold Loop.infyAdd
  dsimp only
  generalize l.infyWatch c w = m at hwatch ⊢
  have hadd : Shifts e 0 l (if 0 ≤ m.wWd w then m.fsAdd w (c.slot (m.wWd w)) else m) := by
    split
    · exact hwatch.trans (hwatch.heaped.aside (m := m.fsAdd w (c.slot (m.wWd w))) rfl rfl rfl rfl)
    · exact hwatch
  exact hadd.trans (hadd.heaped.statRearm w)

theorem Heaped.infyForkOne (h : Heaped e l) (w : U) : Shifts e 0 l (infyForkOne e c l w) := by
  have hset : Shifts e 0 l (l.setWd w (-1)) := h.aside rfl rfl rfl rfl
  unfold Loop.infyForkOne
  dsimp only
  split
  · exact hset.trans (hset.heaped.infyAdd w)
  · generalize l.setWd w (-1) = m at hset ⊢
    have hrepeat : Shifts e 0 m (m.setRepeat w (m.interval w c.defStat)) := hset.heaped.aside rfl rfl rfl rfl
    exact (hset.trans hrepeat).trans (hrepeat.heaped.statRearm w)

theorem Heaped.foldl {X : Type} {f : Loop U T (Infy.Kernel U A) → X → Loop U T (Infy.Kernel U A)}
    (hf : ∀ l x, Heaped e l → Shifts e 0 l (f l x)) (xs : List X) (h : Heaped e l) :
    Shifts e 0 l (xs.foldl f l) := by
  induction xs generalizing l with
  | nil => exact h.shifts
  | cons x xs ih => exact (hf l x h).trans (ih (hf l x h).heaped)

theorem Heaped.infyFork (h : Heaped e l) (fs : Option ℕ) : Shifts e l.infyShift l (infyFork e c fs l) := by
  unfold Loop.infyFork
  by_cases hfs : l.fsFd < 0
  · rw [if_pos hfs, infyShift, if_neg fun hn => absurd hfs (not_lt.mpr hn.1)]
    exact h.shifts
  · rw [if_neg hfs]
    have hopen := h.infyReopen fs
    have hkernel : Shifts e 0 (l.infyReopen fs) ({ l.infyReopen fs with kernel := l.kernel.reopen }) :=
      hopen.heaped.aside rfl rfl rfl rfl
    have hslots := hkernel.heaped.foldl (f := infyForkSlot e c) (fun l slot hl => by
      have hclear : Shifts e 0 l { l with fsHash := Function.update l.fsHash slot [] } := hl.aside rfl rfl rfl rfl
      exact hclear.trans (hclear.heaped.foldl (fun l w hl => hl.infyForkOne w) _)) (List.range c.hashsize)
    simpa using (hopen.trans hkernel).trans hslots

/-- What `loop_fork` shifts the count by. -/
def shift (l : Loop U T (Infy.Kernel U A)) : ℤ := l.backendShift + l.infyShift

theorem Heaped.loopFork (h : Heaped e l) (f : Reopened T) : Shifts e l.shift l (loopFork e c f l) := by
  have hbackend := h.backendFork f.backendFd
  have hfs : (l.backendFork f.backendFd).infyShift = l.infyShift := by
    obtain ⟨hfd, hact⟩ := fs_backendFork l f.backendFd
    unfold infyShift
    rw [hfd, hact]
  have hinfy := hbackend.heaped.infyFork (c := c) f.fs
  rw [hfs] at hinfy
  have hall := hbackend.trans hinfy
  unfold Loop.loopFork
  dsimp only
  generalize Loop.infyFork e c f.fs (l.backendFork f.backendFd) = m at hall ⊢
  have hpipe : Shifts e 0 m (if m.postfork ≠ 2 then (m.timerfdReopen e f.timerfd).evpipeFork f.pipe else m) := by
    split
    · have htfd := hall.heaped.timerfdReopen f.timerfd
      exact htfd.trans (htfd.heaped.evpipeFork f.pipe)
    · exact hall.heaped.shifts
  generalize (if m.postfork ≠ 2 then _ else _ : Loop U T (Infy.Kernel U A)) = n at hpipe ⊢
  simpa [shift] using (hall.trans hpipe).trans (hpipe.heaped.aside (m := { n with postfork := 0 }) rfl rfl rfl rfl)

/-! ### Forks -/

/-- The loop is marked with this `postfork`, and `loop_fork` called. -/
def forked (e : Env U T) (c : Infy.Consts T) (l : Loop U T (Infy.Kernel U A)) (f : ℕ × Reopened T) :
    Loop U T (Infy.Kernel U A) :=
  loopFork e c f.2 { l.untouched with postfork := f.1 }

/-- The count is what it was, and the user's watchers are active that were. -/
def KeepsRefs (l m : Loop U T (Infy.Kernel U A)) : Prop :=
  m.activecnt = l.activecnt ∧ ∀ w, isOwn w = false → (m.active w ≠ 0 ↔ l.active w ≠ 0)

/-- linuxaio's watcher is active, and io_uring's only if the fd of inotify is open without `fs_w` active, and if
it is, then only with io_uring's. -/
def Balanced (l : Loop U T (Infy.Kernel U A)) : Prop :=
  ¬ (l.backend = .linuxaio ∧ l.fds.active .linuxaioEpollW = 0) ∧
    ((l.backend = .iouring ∧ l.fds.active .iouringTfdW ≠ 0) ↔ (0 ≤ l.fsFd ∧ l.fds.active .fsW = 0))

instance (l : Loop U T (Infy.Kernel U A)) : Decidable l.Balanced := inferInstanceAs (Decidable (_ ∧ _))

theorem shift_eq_zero : l.shift = 0 ↔ l.Balanced := by
  unfold shift backendShift infyShift Balanced
  by_cases hfs : 0 ≤ l.fsFd ∧ l.fds.active .fsW = 0
  · rw [if_pos hfs, iff_true_right hfs]
    by_cases huring : l.backend = .iouring ∧ l.fds.active .iouringTfdW ≠ 0
    · rw [if_pos huring]
      simp [huring]
    · rw [if_neg huring]
      split
      · simp [huring]
      · simp [huring]
  · rw [if_neg hfs, iff_false_right hfs]
    by_cases huring : l.backend = .iouring ∧ l.fds.active .iouringTfdW ≠ 0
    · rw [if_pos huring]
      simp [huring]
    · rw [if_neg huring]
      split
      · rename_i haio
        simp [haio]
      · rename_i haio
        simp [haio, huring]

theorem heaped_untouched (h : HeapsOk e l) : Heaped e l.untouched := by
  obtain ⟨ht, hp⟩ := h.untouched
  exact ⟨ht.ok, _, hp⟩

theorem Heaped.ok (h : Heaped e l) : HeapsOk e l := by
  obtain ⟨p, hp⟩ := h.periodics
  exact ⟨h.timers, hp.ok⟩

theorem forked_shifts (h : HeapsOk e l) (f : ℕ × Reopened T) :
    HeapsOk e (forked e c l f) ∧ (forked e c l f).activecnt = l.activecnt + l.shift ∧
      ∀ w, isOwn w = false → ((forked e c l f).active w ≠ 0 ↔ l.active w ≠ 0) := by
  have hmark : Shifts e 0 l { l.untouched with postfork := f.1 } := by
    have huntouched := heaped_untouched h
    refine ⟨⟨huntouched.timers, huntouched.periodics⟩, (add_zero _).symm, fun w _ => ?_⟩
    cases w <;> exact Iff.rfl
  have hall := hmark.trans (hmark.heaped.loopFork (c := c) f.2)
  exact ⟨hall.heaped.ok, hall.count.trans (by rw [zero_add]; rfl), hall.active⟩

theorem keepsRefs_iff (h : HeapsOk e l) (f : ℕ × Reopened T) : KeepsRefs l (forked e c l f) ↔ l.Balanced := by
  obtain ⟨-, hcount, hactive⟩ := forked_shifts (c := c) h f
  rw [← shift_eq_zero]
  constructor
  · rintro ⟨hkept, -⟩
    rw [hcount] at hkept
    omega
  · intro hzero
    exact ⟨by rw [hcount, hzero, add_zero], hactive⟩

theorem heapsOk_forked (h : HeapsOk e l) (forks : List (ℕ × Reopened T)) :
    HeapsOk e (forks.foldl (forked e c) l) := by
  induction forks generalizing l with
  | nil => exact h
  | cons f forks ih => exact ih (forked_shifts h f).1

/-- **In any state, any number of `loop_fork`s each keep the count** and the user's active watchers, exactly if the
state before each is balanced; and then they all do. -/
theorem fork_refs [AddRightMono T] (e : Env U T) (c : Infy.Consts T) {l₀ l : Loop U T (Infy.Kernel U A)}
    {acts : List (TimeAct U T)} (h₀ : NoTimers l₀) (hrun : TimeRuns e l₀ acts l) (forks : List (ℕ × Reopened T)) :
    ((∀ past f later, forks = past ++ f :: later →
        KeepsRefs (past.foldl (forked e c) l) ((past ++ [f]).foldl (forked e c) l)) ↔
      ∀ past f later, forks = past ++ f :: later → (past.foldl (forked e c) l).Balanced) ∧
    ((∀ past f later, forks = past ++ f :: later → (past.foldl (forked e c) l).Balanced) →
      KeepsRefs l (forks.foldl (forked e c) l)) := by
  have hok := heapsOk_run hrun (heapsOk_noTimers h₀)
  refine ⟨forall₃_congr fun past f later => imp_congr_right fun _ => ?_, fun hall => ?_⟩
  · rw [List.foldl_append, List.foldl_cons, List.foldl_nil]
    exact keepsRefs_iff (heapsOk_forked hok past) f
  · clear hrun
    induction forks generalizing l with
    | nil => exact ⟨rfl, fun _ _ => Iff.rfl⟩
    | cons f forks ih =>
      obtain ⟨hcount, hactive⟩ := (keepsRefs_iff (c := c) hok f).mpr (hall [] f forks rfl)
      obtain ⟨hcount', hactive'⟩ := ih (forked_shifts hok f).1 fun past g later hl => by
        have hb := hall (f :: past) g later (by rw [hl, List.cons_append])
        exact hb
      exact ⟨hcount'.trans hcount, fun w hw => (hactive' w hw).trans (hactive w hw)⟩

def envFour : Env Bool ℤ := ⟨.four, fun _ _ _ => 0, fun _ _ _ => 0⟩

/-- The intervals in milliseconds. -/
def statConsts : Infy.Consts ℤ := ⟨2 ^ 4, 5007, 30107, 107, by decide, by decide, by decide, by decide⟩

/-- Descriptors for everything. -/
def reopened : Reopened ℤ := ⟨8, some 9, ⟨-1, 0, false⟩, 10⟩

/-- A loop with its backend's own watcher, and an io watcher of the user. -/
def ownStarted (backend : Backend) (own : IoW Bool) : Loop Bool ℤ (Infy.Kernel Bool Unit) :=
  let l := Loop.init backend true false true
    ⟨1, [], [], fun _ _ => .ok 7, fun _ _ => some 0xEF53, fun _ _ => none, 0, fun _ => ['f'], fun _ => ⟨1, ()⟩,
      fun _ => ⟨1, ()⟩⟩
  let l := ((l.evIoInit own 5 evRead).evIoStart own).evUnref
  (l.evIoInit (.user true) 3 evRead).evIoStart (.user true)

theorem noTimers_ownStarted (backend : Backend) {own : IoW Bool} : NoTimers (ownStarted backend own) := by
  have hio : ∀ (l : Loop Bool ℤ (Infy.Kernel Bool Unit)) (w : IoW Bool), NoTimers l → NoTimers (l.evIoStart w) := by
    intro l w h
    unfold Loop.evIoStart
    split
    · exact h
    · exact ⟨h.timers, h.periodics⟩
  have hinit : ∀ (l : Loop Bool ℤ (Infy.Kernel Bool Unit)) (w : IoW Bool) (fd : ℕ), NoTimers l →
      NoTimers (l.evIoInit w fd evRead) := fun l w fd h => ⟨h.timers, h.periodics⟩
  have hunref : ∀ l : Loop Bool ℤ (Infy.Kernel Bool Unit), NoTimers l → NoTimers l.evUnref := fun l h =>
    ⟨h.timers, h.periodics⟩
  exact hio _ _ (hinit _ _ _ (hunref _ (hio _ _ (hinit _ _ _ ⟨⟨rfl, fun _ => rfl⟩, rfl, fun _ => rfl⟩))))

/-- A linuxaio loop is forked, and later its epoll fd is opened again. -/
theorem fork_refs_linuxaio : KeepsRefs (ownStarted .linuxaio .linuxaioEpollW)
    ([(1, reopened), (2, reopened)].foldl (forked envFour statConsts) (ownStarted .linuxaio .linuxaioEpollW)) := by
  refine (fork_refs envFour statConsts (noTimers_ownStarted .linuxaio) (.nil _) [(1, reopened), (2, reopened)]).2
    fun past f later hl => ?_
  rcases past with _ | ⟨g, _ | ⟨g', past⟩⟩
  · decide +kernel
  · obtain ⟨rfl, -⟩ := List.cons.inj hl
    decide +kernel
  · have hlen := congrArg List.length hl
    simp at hlen

/-- Each fork of an io_uring loop takes one from the count. -/
theorem fork_refs_iouring : ¬ ∀ (e : Env Bool ℤ) (c : Infy.Consts ℤ) (l : Loop Bool ℤ (Infy.Kernel Bool Unit))
    (f : ℕ × Reopened ℤ), NoTimers l → KeepsRefs l (forked e c l f) := by
  intro h
  have hcount := (h envFour statConsts (ownStarted .iouring .iouringTfdW) (1, reopened)
    (noTimers_ownStarted .iouring)).1
  exact absurd hcount (by decide +kernel)

end Loop

end Qev
