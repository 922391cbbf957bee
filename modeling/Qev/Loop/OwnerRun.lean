/-
# Nothing is leaked, nothing is closed twice

`ev_loop_destroy` releases what a loop names, except where the watcher of it is not active. So over any run, with any
failures, a loop releases something it does not hold only where a fork took it away, and when the loop is destroyed
it holds nothing, but for the kqueues that `kqueue_fork` leaves open in a child, and the descriptors whose watcher
`fd_kill` has stopped.
-/
import Qev.Loop.OwnerFork

namespace Qev
namespace Owner

variable {s : Owner} {lost gone n : Multiset Res} {mode : Mode}

/-! ### The end -/

/-- Only the ledger differs. -/
def Drained (s t : Owner) : Prop := t = { s with ledger := t.ledger }

theorem Drained.trans {t u : Owner} (hst : Drained s t) (htu : Drained t u) : Drained s u := by
  unfold Drained at hst htu ⊢
  calc u
    _ = { t with ledger := u.ledger } := htu
    _ = { s with ledger := u.ledger } := by rw [hst]

/-- `ev_loop_destroy` closes the fd of a watcher if that is active. -/
theorem accounts_closeIf {w : Bool} {fd : ℤ} (h : s.ledger.Accounts lost (fdOf fd + n)) :
    Drained s (if w = true then s.close fd else s) ∧
      (if w = true then s.close fd else s).ledger.Accounts lost ((if w = true then 0 else fdOf fd) + n) := by
  split
  · exact ⟨rfl, (accounts_close h).congr (zero_add n).symm⟩
  · exact ⟨rfl, h⟩

theorem accounts_evpipeClose (h : s.ledger.Accounts lost (s.pipes + n)) :
    Drained s s.evpipeClose ∧ s.evpipeClose.ledger.Accounts lost (s.idle .pipeW + n) := by
  unfold evpipeClose idle
  rw [watches]
  split
  · exact ⟨rfl, (accounts_close (accounts_close (h.congr (add_assoc _ _ _)))).congr (zero_add n).symm⟩
  · exact ⟨rfl, h⟩

theorem accounts_asidesClose (h : s.ledger.Accounts lost (s.asides + n)) :
    Drained s s.asidesClose ∧ s.asidesClose.ledger.Accounts lost (s.idle .sigfdW + s.idle .timerfdW + n) := by
  obtain ⟨htdrained, ht⟩ := accounts_closeIf (w := s.sigfdW) (n := fdOf s.timerfd + (fdOf s.fsFd + n))
    (h.congr (by unfold asides; abel))
  unfold asidesClose
  simp only
  generalize (if s.sigfdW = true then s.close s.sigfd else s) = t at htdrained ht ⊢
  have htsame : t.timerfd = s.timerfd ∧ t.timerfdW = s.timerfdW ∧ t.fsFd = s.fsFd := by
    rw [htdrained]
    exact ⟨rfl, rfl, rfl⟩
  rw [htsame.1, htsame.2.1]
  obtain ⟨hudrained, hu⟩ := accounts_closeIf (w := s.timerfdW) (n := s.idle .sigfdW + (fdOf s.fsFd + n))
    (ht.congr (by change s.idle .sigfdW + _ = _; abel))
  generalize (if s.timerfdW = true then t.close s.timerfd else t) = u at hudrained hu ⊢
  have hudrained := htdrained.trans hudrained
  have hfs : u.fsFd = s.fsFd := by rw [hudrained]
  refine ⟨hudrained.trans rfl, ?_⟩
  rw [hfs]
  apply accounts_close
  refine hu.congr ?_
  change s.idle .timerfdW + _ = _
  abel

/-- The end of a backend: `backend_fd`, and what its destroy function does. -/
def backendEnd (s : Owner) : Owner :=
  (if s.backendFd ≠ -1 ∧ s.backend ≠ some .iouring ∧ s.backend ≠ some .linuxaio then s.close s.backendFd
    else s).backendDestroy

theorem backendEnd_eq (hb : s.backend = some .port ∨ s.backend = some .kqueue ∨ s.backend = some .epoll)
    (hfd : 0 ≤ s.backendFd) : s.backendEnd = (s.close s.backendFd).backendDestroy := by
  unfold backendEnd
  rw [if_pos]
  refine ⟨by omega, ?_⟩
  rcases hb with hb | hb | hb
  · rw [hb]
    decide
  · rw [hb]
    decide
  · rw [hb]
    decide

theorem backendEnd_eq_destroy (h : s.backendFd = -1 ∨ s.backend = some .iouring ∨ s.backend = some .linuxaio) :
    s.backendEnd = s.backendDestroy := by
  unfold backendEnd
  rw [if_neg]
  rintro ⟨hfd, huring, haio⟩
  rcases h with h | h | h
  · exact hfd h
  · exact huring h
  · exact haio h

theorem backed_evFree (s : Owner) (p : Option ℕ) : Backed s (s.evFree p) := ⟨rfl, fun _ _ => rfl⟩

theorem backed_close (s : Owner) (fd : ℤ) : Backed s (s.close fd) := ⟨rfl, fun _ _ => rfl⟩

theorem accounts_selectDestroy (h : s.ledger.Accounts lost (s.polled .select + n)) :
    s.selectDestroy.ledger.Accounts lost n := by
  apply accounts_evFree
  apply accounts_evFree
  apply accounts_evFree
  apply accounts_evFree
  refine h.congr ?_
  change blockOf (s.base .vecRi) + blockOf (s.base .vecRo) + blockOf (s.base .vecWi) + blockOf (s.base .vecWo) + n =
    blockOf (s.base .vecRi) + (blockOf (s.base .vecRo) + (blockOf (s.base .vecWi) + (blockOf (s.base .vecWo) + n)))
  abel

theorem backed_selectDestroy (s : Owner) : Backed s s.selectDestroy :=
  (((backed_evFree s _).trans (backed_evFree _ _)).trans (backed_evFree _ _)).trans (backed_evFree _ _)

theorem epollDestroy_base (s : Owner) {a : Arr} (ha : a ≠ .epollEperms) : s.epollDestroy.base a = s.base a := by
  unfold epollDestroy arrayFree
  simp only [Function.update_of_ne ha]
  rfl

theorem epollDestroy_iocbBlocks (s : Owner) : s.epollDestroy.iocbBlocks = s.iocbBlocks := rfl

theorem accounts_linuxaioDestroy (hfd : 0 ≤ s.backendFd) (h : s.ledger.Accounts lost (s.polled .linuxaio + n)) :
    Backed s s.linuxaioDestroy ∧ s.linuxaioDestroy.ledger.Accounts lost n := by
  have hbacked : Backed s (s.epollDestroy.linuxaioFreeArrays.release (.ctx s.linuxaioCtx)) :=
    ((backed_epollDestroy s).trans (backed_linuxaioFreeArrays _)).trans ⟨rfl, fun _ _ => rfl⟩
  have hsame : (s.epollDestroy.linuxaioFreeArrays.release (.ctx s.linuxaioCtx)).backendFd = s.backendFd :=
    linuxaioFreeArrays_backendFd s.epollDestroy
  unfold linuxaioDestroy
  simp only
  rw [if_pos (by rw [hsame]; omega)]
  refine ⟨hbacked.trans (backed_closeBackend _), ?_⟩
  apply accounts_closeBackend
  apply accounts_release
  apply accounts_linuxaioFreeArrays
  rw [epollDestroy_iocbBlocks, epollDestroy_base s (by decide), epollDestroy_base s (by decide), hsame]
  apply accounts_epollDestroy
  refine h.congr ?_
  change fdOf s.backendFd + blockOf (s.base .epollEvents) + blockOf (s.base .epollEperms) + ({.ctx s.linuxaioCtx} +
    s.iocbBlocks + blockOf (s.base .linuxaioIocbps) + blockOf (s.base .linuxaioSubmits)) + n = _
  abel

/-- The backend closes and frees what it names. -/
theorem accounts_backendEnd {b : Backend} (hb : s.backend = some b) (hpolls : s.Polls b)
    (h : s.ledger.Accounts lost (s.polled b + n)) :
    Backed s s.backendEnd ∧ s.backendEnd.ledger.Accounts lost n := by
  cases b with
  | select =>
    rw [backendEnd_eq_destroy (.inl hpolls)]
    unfold backendDestroy
    rw [hb]
    exact ⟨backed_selectDestroy s, accounts_selectDestroy h⟩
  | poll =>
    rw [backendEnd_eq_destroy (.inl hpolls)]
    unfold backendDestroy
    rw [hb]
    exact ⟨(backed_evFree s _).trans (backed_evFree _ _),
      accounts_evFree (accounts_evFree (h.congr (add_assoc _ _ _)))⟩
  | iouring =>
    rw [backendEnd_eq_destroy (.inr (.inl hb))]
    unfold backendDestroy
    rw [hb]
    refine ⟨?_, accounts_iouringDestroy h⟩
    have hringed : s.iouringDestroy =
        { s with iouring := s.iouringDestroy.iouring, ledger := s.iouringDestroy.ledger } :=
      ringed_iouringDestroy
    simp only
    rw [hringed]
    exact ⟨rfl, fun _ _ => rfl⟩
  | linuxaio =>
    rw [backendEnd_eq_destroy (.inr (.inr hb))]
    unfold backendDestroy
    rw [hb]
    exact accounts_linuxaioDestroy hpolls h
  | port =>
    rw [backendEnd_eq (.inl hb) hpolls]
    have hclosed : (s.close s.backendFd).backend = some .port := hb
    unfold backendDestroy
    rw [hclosed]
    exact ⟨(backed_close s _).trans (backed_evFree _ _), accounts_evFree (accounts_close (h.congr (add_assoc _ _ _)))⟩
  | kqueue =>
    rw [backendEnd_eq (.inr (.inl hb)) hpolls]
    have hclosed : (s.close s.backendFd).backend = some .kqueue := hb
    unfold backendDestroy
    rw [hclosed]
    refine ⟨(backed_close s _).trans ((backed_evFree _ _).trans (backed_evFree _ _)), ?_⟩
    apply accounts_evFree
    apply accounts_evFree
    apply accounts_close
    refine h.congr ?_
    change fdOf s.backendFd + blockOf (s.base .kqueueEvents) + blockOf (s.base .kqueueChanges) + n =
      fdOf s.backendFd + (blockOf (s.base .kqueueEvents) + (blockOf (s.base .kqueueChanges) + n))
    abel
  | epoll =>
    rw [backendEnd_eq (.inr (.inr hb)) hpolls]
    have hclosed : (s.close s.backendFd).backend = some .epoll := hb
    unfold backendDestroy
    rw [hclosed]
    refine ⟨(backed_close s _).trans (backed_epollDestroy _), ?_⟩
    apply accounts_epollDestroy
    apply accounts_close
    refine h.congr ?_
    change fdOf s.backendFd + blockOf (s.base .epollEvents) + blockOf (s.base .epollEperms) + n =
      fdOf s.backendFd + (blockOf (s.base .epollEvents) + blockOf (s.base .epollEperms) + n)
    abel

theorem accounts_arrayFrees {l : List Arr} (hnodup : l.Nodup)
    (h : s.ledger.Accounts lost ((l.map fun a => blockOf (s.base a)).sum + n)) :
    (l.foldl arrayFree s).ledger.Accounts lost n ∧ (l.foldl arrayFree s).loop = s.loop ∧
      (l.foldl arrayFree s).abandoned = s.abandoned ∧ (l.foldl arrayFree s).killed = s.killed := by
  induction l generalizing s with
  | nil => exact ⟨h.congr (zero_add n), rfl, rfl, rfl⟩
  | cons a l ih =>
    obtain ⟨ha, hnodup⟩ := List.nodup_cons.mp hnodup
    rw [List.map_cons, List.sum_cons, add_assoc] at h
    have hothers : (l.map fun c => blockOf ((s.arrayFree a).base c)) = l.map fun c => blockOf (s.base c) := by
      apply List.map_congr_left
      intro c hc
      apply congrArg blockOf
      apply Function.update_of_ne
      rintro rfl
      exact ha hc
    exact ih hnodup (hothers ▸ accounts_arrayFree h)

theorem loopArrays_nodup : loopArrays.Nodup := by decide

/-- `ev_loop_destroy` from the pipe on. -/
def loopEnd (s : Owner) : Owner := loopArrays.foldl arrayFree s.evpipeClose.asidesClose.backendEnd

theorem evLoopDestroy_eq (s : Owner) : s.evLoopDestroy =
    { s.onceReclaim.loopEnd.evFree s.onceReclaim.loopEnd.loop with backend := none, loop := none } :=
  rfl

theorem sound_onceReclaim (h : Sound mode lost gone s) (hb : s.backend ≠ none) :
    Sound mode lost gone s.onceReclaim :=
  h.of_onces hb rfl fun _ hn => (accounts_releases s.onces hn).congr (zero_add _).symm

/-- What is closed and freed from the pipe on: what is named, but for the descriptors whose watcher is not active. -/
theorem accounts_loopEnd {b : Backend} (hb : s.backend = some b) (hpolls : s.Polls b)
    (h : s.ledger.Accounts lost (s.pipes + s.asides + s.blocks + s.polled b + n)) :
    s.loopEnd.ledger.Accounts lost (s.unwatched + n) ∧ s.loopEnd.loop = s.loop ∧
      s.loopEnd.abandoned = s.abandoned ∧ s.loopEnd.killed = s.killed := by
  -- the descriptors that are no backend's
  obtain ⟨hpdrained, hp⟩ := accounts_evpipeClose (n := s.asides + (s.blocks + s.polled b + n)) (h.congr (by abel))
  have hpsame : s.evpipeClose.asides = s.asides ∧
      s.evpipeClose.idle .sigfdW + s.evpipeClose.idle .timerfdW = s.idle .sigfdW + s.idle .timerfdW := by
    rw [hpdrained]
    exact ⟨rfl, rfl⟩
  obtain ⟨hqdrained, hq⟩ := accounts_asidesClose (s := s.evpipeClose)
    (n := s.idle .pipeW + (s.blocks + s.polled b + n)) (hp.congr (by rw [hpsame.1]; abel))
  rw [hpsame.2] at hq
  have hdrained := hpdrained.trans hqdrained
  unfold loopEnd
  generalize s.evpipeClose.asidesClose = q at hq hdrained ⊢
  -- the backend
  have hqsame : q.backend = s.backend ∧ q.polled b = s.polled b ∧ q.Polls b ∧ Backed s q := by
    rw [hdrained]
    refine ⟨rfl, ?_, ?_, rfl, fun _ _ => rfl⟩
    · cases b <;> rfl
    · cases b <;> exact hpolls
  obtain ⟨hqb, hqpolled, hqpolls, hqbacked⟩ := hqsame
  obtain ⟨hrbacked, hr⟩ := accounts_backendEnd (n := s.blocks + (s.unwatched + n)) (hqb.trans hb) hqpolls
    (hq.congr (by rw [hqpolled, unwatched_eq (hb.trans_ne (Option.some_ne_none b))]; abel))
  have hbacked := hqbacked.trans hrbacked
  generalize q.backendEnd = r at hr hbacked ⊢
  -- the arrays
  have hblocks : s.blocks = (loopArrays.map fun a => blockOf (r.base a)).sum := by
    unfold blocks
    rw [List.map_congr_left fun a ha => congrArg blockOf (hbacked.2 a ha).symm]
  rw [hblocks] at hr
  obtain ⟨hu, hloop, habandoned, hkilled⟩ := accounts_arrayFrees loopArrays_nodup hr
  obtain ⟨hrloop, -, hrabandoned, -, hrkilled⟩ := hbacked.same
  exact ⟨hu, hloop.trans hrloop, habandoned.trans hrabandoned, hkilled.trans hrkilled⟩

/-- `ev_loop_destroy` leaves nothing but what was abandoned, and what has no watcher any more. -/
theorem sound_evLoopDestroy (h : Sound mode lost gone s) (hne : s.backend ≠ none) :
    (∃ old, Sound mode lost (old + gone) s.evLoopDestroy) ∧ s.evLoopDestroy.killed = s.killed := by
  have hreclaimed := sound_onceReclaim h hne
  have hmemory : s.onceReclaim.memory = blockOf s.onceReclaim.loop := add_zero _
  have hrsame : s.onceReclaim.backend ≠ none ∧ s.onceReclaim.killed = s.killed := ⟨hne, rfl⟩
  rw [evLoopDestroy_eq]
  generalize s.onceReclaim = r at hreclaimed hmemory hrsame ⊢
  obtain ⟨hrne, hrkilled⟩ := hrsame
  obtain ⟨b, hb⟩ := Option.ne_none_iff_exists'.mp hrne
  obtain ⟨hended, hloop, habandoned, hkilled⟩ := accounts_loopEnd (n := blockOf r.loop + r.abandoned + gone) hb
    (hreclaimed.polls b hb) (hreclaimed.accounts.congr (by rw [named_eq hb, hmemory]; abel))
  generalize r.loopEnd = t at hended hloop habandoned hkilled ⊢
  refine ⟨⟨r.unwatched, ?_, ?_, fun c hc => absurd hc.symm (Option.some_ne_none c), ?_⟩, hkilled.trans hrkilled⟩
  · rw [named_none rfl]
    refine (accounts_evFree (n := r.unwatched + (r.abandoned + gone)) (hended.congr ?_)).congr ?_
    · rw [hloop]
      abel
    · change _ = 0 + t.abandoned + (r.unwatched + gone)
      rw [habandoned]
      abel
  · rw [unwatched_none rfl, zero_add]
    exact hreclaimed.killed.trans_eq hkilled.symm
  · exact hreclaimed.calm.other habandoned fun he => by cases he

/-! ### Runs -/

/-- What one act keeps. Only `fd_kill` adds to what was stopped. -/
theorem Sound.does {t : Owner} {a : Act} (h : Sound mode lost gone s) (ha : s.Allowed a) (ht : s.does a = some t) :
    ((∃ pid kqueues, a = .forked pid kqueues) ∨ ∃ old, Sound mode lost (old + gone) t) ∧
      ((∀ w, a ≠ .fdKill w) → t.killed = s.killed) := by
  have hkept : Sound mode lost gone t → ∃ old, Sound mode lost (old + gone) t :=
    fun hsound => ⟨0, (zero_add gone).symm ▸ hsound⟩
  cases a with
  | grow a p =>
    cases ht
    obtain ⟨b, hb, hgrows⟩ := (Option.any_eq_true _ _).mp ha
    exact ⟨.inr (hkept (sound_grow h hb hgrows p)), fun _ => rfl⟩
  | linuxaioGrow p iocbs =>
    cases ht
    exact ⟨.inr (hkept (sound_linuxaioGrow h ha p iocbs)), fun _ => rfl⟩
  | linuxaioAgain k =>
    cases ht
    exact ⟨.inr (hkept (sound_linuxaioAgain h ha k)), fun _ => linuxaioAgain_killed s k⟩
  | evpipeInit k =>
    cases ht
    exact ⟨.inr (sound_evpipeInit h ha k), fun _ => evpipeInit_killed s k⟩
  | sigfdInit k =>
    cases ht
    exact ⟨.inr (hkept (sound_sigfdInit h ha k)), fun _ => by unfold sigfdInit; split <;> rfl⟩
  | evtimerfdInit k =>
    cases ht
    have hneg : s.timerfd < 0 := by
      rw [ha.2]
      decide
    exact ⟨.inr (hkept (sound_evtimerfdInit h ha.1 hneg k)), fun _ => by unfold evtimerfdInit; split <;> rfl⟩
  | infyInit k =>
    cases ht
    exact ⟨.inr (hkept (sound_infyInit h ha k)), fun _ => by unfold infyInit; split <;> rfl⟩
  | evOnce p =>
    cases ht
    exact ⟨.inr (hkept (sound_evOnce h ha p)), fun _ => rfl⟩
  | onceCb p =>
    cases ht
    exact ⟨.inr (hkept (sound_onceCb h ha.1 ha.2)), fun _ => rfl⟩
  | fdKill w =>
    cases ht
    exact ⟨.inr (hkept (sound_fdKill h ha.1 ha.2)), fun hkill => absurd rfl (hkill w)⟩
  | forked pid kqueues =>
    cases ht
    exact ⟨.inl ⟨pid, kqueues, rfl⟩, fun _ => rfl⟩
  | evLoopFork =>
    cases ht
    exact ⟨.inr (hkept (h.postfork 1)), fun _ => rfl⟩
  | epollSpurious =>
    cases ht
    exact ⟨.inr (hkept (h.postfork _)), fun _ => rfl⟩
  | loopFork k =>
    obtain ⟨hsound, hkilled⟩ := sound_loopFork h ha k ht
    exact ⟨.inr (hkept hsound), fun _ => hkilled⟩
  | evLoopDestroy =>
    cases ht
    obtain ⟨hsound, hkilled⟩ := sound_evLoopDestroy h ha
    exact ⟨.inr hsound, fun _ => hkilled⟩

/-- What a run keeps. -/
theorem Sound.runs {t : Owner} {acts : List Act} (h : Sound mode lost gone s) (hmode : mode ≠ .unforked)
    (hruns : Runs s acts t) :
    (∃ gone, Sound mode t.ledger.lost gone t) ∧ ((∀ a ∈ acts, ∀ w, a ≠ .fdKill w) → t.killed = s.killed) := by
  induction hruns generalizing lost gone with
  | nil s =>
    have hlost := h.accounts.1
    subst hlost
    exact ⟨⟨gone, h⟩, fun _ => rfl⟩
  | @cons s t u a acts ha ht _ ih =>
    have hnext : ∃ lost gone, Sound mode lost gone t := by
      rcases (h.does ha ht).1 with ⟨pid, kqueues, rfl⟩ | ⟨old, hsound⟩
      · cases ht
        exact ⟨_, _, sound_forked h hmode pid kqueues⟩
      · exact ⟨_, _, hsound⟩
    obtain ⟨lost', gone', hsound⟩ := hnext
    obtain ⟨hlast, hkilled⟩ := ih hsound
    refine ⟨hlast, fun hkill => ?_⟩
    exact (hkilled fun a hmem => hkill a (List.mem_cons_of_mem _ hmem)).trans
      ((h.does ha ht).2 (hkill a List.mem_cons_self))

/-- Without a fork nothing is lost. -/
theorem Sound.runs_unforked {t : Owner} {acts : List Act} (h : Sound mode lost gone s) (hruns : Runs s acts t)
    (hforks : ∀ a ∈ acts, ∀ pid kqueues, a ≠ .forked pid kqueues) : ∃ gone, Sound mode lost gone t := by
  induction hruns generalizing gone with
  | nil s => exact ⟨gone, h⟩
  | cons ha ht _ ih =>
    rcases (h.does ha ht).1 with ⟨pid, kqueues, rfl⟩ | ⟨old, hsound⟩
    · exact absurd rfl (hforks _ (List.mem_cons_self) pid kqueues)
    · exact ih hsound fun a hmem => hforks a (List.mem_cons_of_mem _ hmem)

/-- A loop made by `ev_loop_new` or `ev_default_loop`. -/
def Made (f : Flags) (s : Owner) : Prop :=
  ∃ pid k, (∃ p, s = evLoopNew p pid f k) ∨ s = evDefaultLoop pid f k

theorem Trying.sound {f : Flags} {s₀ : Owner} (h : Trying lost (blockOf s₀.loop) f s₀ s)
    (habandoned : s₀.abandoned = 0)
    {b : Backend} (hb : s.backend = some b) (hcalm : Calm mode s) : Sound mode lost 0 s := by
  obtain ⟨haccounts, hpolls, -, -⟩ := h.made b hb
  refine ⟨haccounts.congr ?_, ?_, ?_, hcalm⟩
  · rw [h.bare.named_eq hb, h.loop, h.abandoned, habandoned, add_zero, add_zero]
  · rw [h.bare.unwatched_eq_zero, add_zero]
    exact Multiset.zero_le _
  · intro c hc
    cases hb.symm.trans hc
    exact hpolls

/-- Nothing is left of a loop that could not be made. -/
theorem sound_none (hb : s.backend = none) (habandoned : s.abandoned = 0) (h : s.ledger.Accounts lost 0) :
    Sound mode lost 0 s := by
  refine ⟨h.congr ?_, ?_, fun b hc => ?_, ?_⟩
  · rw [named_none hb, habandoned, add_zero, add_zero]
  · rw [unwatched_none hb, add_zero]
    exact Multiset.zero_le _
  · exact absurd (hb.symm.trans hc) (Option.some_ne_none b).symm
  · cases mode with
    | any => trivial
    | unforked => exact ⟨habandoned, fun hc => absurd (hb.symm.trans hc) (Option.some_ne_none _).symm⟩
    | kqueueless => exact ⟨habandoned, fun hc => absurd (hb.symm.trans hc) (Option.some_ne_none _).symm⟩

theorem Trying.calm {f : Flags} {s₀ : Owner} (h : Trying lost n f s₀ s) (habandoned : s₀.abandoned = 0)
    (hmode : mode = .kqueueless → f.backends .kqueue = false) : Calm mode s := by
  have hnone : s.abandoned = 0 := h.abandoned.trans habandoned
  cases mode with
  | any => trivial
  | unforked => exact ⟨hnone, fun hb => (h.made _ hb).2.2.1 rfl⟩
  | kqueueless => exact ⟨hnone, fun hb => absurd ((h.made _ hb).2.2.2.symm.trans (hmode rfl)) (by decide)⟩

theorem Made.sound {f : Flags} (h : Made f s) (hmode : mode = .kqueueless → f.backends .kqueue = false) :
    Sound mode 0 0 s := by
  obtain ⟨pid, k, ⟨p, rfl⟩ | rfl⟩ := h
  · have hzero : ((zeroed (some p) pid).hold (.block p)).abandoned = 0 := rfl
    have hheld : ((zeroed (some p) pid).hold (.block p)).ledger.Accounts 0
        (blockOf ((zeroed (some p) pid).hold (.block p)).loop) := Ledger.accounts_init.hold (Res.block p)
    have htry := trying_loopInit hheld rfl (fun _ => rfl) rfl f k
    unfold evLoopNew
    generalize ((zeroed (some p) pid).hold (.block p)).loopInit f k = t at htry ⊢
    simp only
    split
    case isTrue hne =>
      obtain ⟨b, hb⟩ := Option.ne_none_iff_exists'.mp hne
      exact htry.sound hzero hb (htry.calm hzero hmode)
    case isFalse hnone =>
      have hnone := not_not.mp hnone
      obtain ⟨haccounts, -⟩ := htry.untried hnone
      refine sound_none hnone htry.abandoned (accounts_evFree (haccounts.congr ?_))
      rw [htry.loop]
      exact (add_zero _).symm
  · have hzero : (zeroed none pid).abandoned = 0 := rfl
    have hheld : (zeroed none pid).ledger.Accounts 0 (blockOf (zeroed none pid).loop) := Ledger.accounts_init
    have htry := trying_loopInit hheld rfl (fun _ => rfl) rfl f k
    unfold evDefaultLoop
    generalize (zeroed none pid).loopInit f k = t at htry ⊢
    cases hb : t.backend with
    | none => exact sound_none hb htry.abandoned (htry.untried hb).1
    | some b => exact htry.sound hzero hb (htry.calm hzero hmode)

theorem Made.killed {f : Flags} (h : Made f s) : s.killed = 0 := by
  obtain ⟨pid, k, ⟨p, rfl⟩ | rfl⟩ := h
  · have htry := trying_loopInit (s := (zeroed (some p) pid).hold (.block p)) (Ledger.accounts_init.hold (Res.block p))
      rfl (fun _ => rfl) rfl f k
    unfold evLoopNew
    generalize ((zeroed (some p) pid).hold (.block p)).loopInit f k = t at htry ⊢
    simp only
    split
    · exact htry.killed
    · exact htry.killed
  · exact (trying_loopInit Ledger.accounts_init rfl (fun _ => rfl) rfl f k).killed

/-- Over any run of a loop, with any failures: it releases nothing it does not hold, but for what a fork took
from it; it holds nothing that it does not name, has given up on purpose or has seen the watcher of stopped by
`fd_kill`, so nothing else when it is destroyed; only the kqueues of another process are given up. Without a fork it
holds exactly what it names, and some of what was stopped. -/
theorem released_once {f : Flags} {s t : Owner} {acts : List Act} (hmade : Made f s) (hruns : Runs s acts t) :
    t.ledger.wrong ≤ t.ledger.lost ∧ t.ledger.held ≤ t.named + t.abandoned + t.killed ∧
      (t.backend = none → t.ledger.held ≤ t.abandoned + t.killed) ∧ (f.backends .kqueue = false → t.abandoned = 0) ∧
      ((∀ a ∈ acts, ∀ w, a ≠ .fdKill w) → t.killed = 0) ∧
      ((∀ a ∈ acts, ∀ pid kqueues, a ≠ .forked pid kqueues) →
        ∃ gone ≤ t.killed, t.ledger.held = t.named + gone ∧ t.ledger.wrong = 0) := by
  have hstart : Sound .any 0 0 s := hmade.sound fun he => by cases he
  obtain ⟨⟨gone, hany⟩, hkilled⟩ := hstart.runs (fun he => by cases he) hruns
  have hheld : t.ledger.held ≤ t.named + t.abandoned + t.killed :=
    hany.accounts.held_le.trans (add_le_add_right hany.gone_le _)
  refine ⟨hany.accounts.wrong_le, hheld, fun hnone => ?_, fun hkqueue => ?_, fun hacts => ?_, fun hforks => ?_⟩
  · rw [named_none hnone, zero_add] at hheld
    exact hheld
  · have hstart : Sound .kqueueless 0 0 s := hmade.sound fun _ => hkqueue
    obtain ⟨⟨_, hsound⟩, -⟩ := hstart.runs (fun he => by cases he) hruns
    exact hsound.calm.1
  · exact (hkilled hacts).trans hmade.killed
  · have hstart : Sound .unforked 0 0 s := hmade.sound fun he => by cases he
    obtain ⟨left, hunforked⟩ := hstart.runs_unforked hruns hforks
    have hexact := hunforked.accounts.exact
    rw [hunforked.calm.1, add_zero] at hexact
    exact ⟨left, hunforked.gone_le, hexact⟩

/-- A loop with an epoll. -/
def epollLoop : Owner :=
  evLoopNew 1 1 ⟨true, false, true, (· = .epoll)⟩
    { port := none, kqueue := none, uring := ⟨none, ⟨0, 0, 0, 0, 0, 0, 0, 0, 0, 0, 0⟩, none, none, none, none⟩
      aio := ⟨none, none, 0, none⟩, epoll := some 3, events := 2 }

/-- Its process forks, the child's loop recovers and is destroyed while an `ev_once` waits. -/
theorem released_once_forked : ∃ t, Runs epollLoop [.evpipeInit ⟨some 4, (0, 0)⟩, .evOnce 7, .evOnce 8, .forked 2 true,
    .evLoopFork, .loopFork ⟨5, [], 0, none, none, ⟨some 6, (0, 0)⟩⟩, .onceCb 7, .evLoopDestroy] t ∧
    t.ledger.held = 0 := by
  have hmade : Made ⟨true, false, true, (· = .epoll)⟩ epollLoop := ⟨1, _, .inl ⟨1, rfl⟩⟩
  have hruns : Runs epollLoop [.evpipeInit ⟨some 4, (0, 0)⟩, .evOnce 7, .evOnce 8, .forked 2 true, .evLoopFork,
      .loopFork ⟨5, [], 0, none, none, ⟨some 6, (0, 0)⟩⟩, .onceCb 7, .evLoopDestroy] _ :=
    .cons (by decide) rfl (.cons (by decide) rfl (.cons (by decide) rfl (.cons (by decide) rfl
      (.cons (by decide) rfl (.cons (by decide) rfl (.cons (by decide) rfl (.cons (by decide) rfl (.nil _))))))))
  have hkills : ∀ a ∈ [.evpipeInit ⟨some 4, (0, 0)⟩, .evOnce 7, .evOnce 8, .forked 2 true, .evLoopFork,
      .loopFork ⟨5, [], 0, none, none, ⟨some 6, (0, 0)⟩⟩, .onceCb 7, Act.evLoopDestroy], ∀ w, a ≠ .fdKill w := by
    simp
  obtain ⟨-, -, hdestroyed, hkqueue, hkilled, -⟩ := released_once hmade hruns
  refine ⟨_, hruns, ?_⟩
  have hheld := hdestroyed rfl
  rw [hkqueue rfl, hkilled hkills] at hheld
  exact Multiset.le_zero.mp hheld

/-- The kernel refuses the eventfd, and it stays open. -/
example : ∃ t, Runs epollLoop [.evpipeInit ⟨some 4, (0, 0)⟩, .fdKill .pipeW, .evLoopDestroy] t ∧
    t.ledger.held = {.fd 4} ∧ t.killed = {.fd 4} :=
  ⟨_, .cons (by decide) rfl (.cons (by decide) rfl (.cons (by decide) rfl (.nil _))), by decide, by decide⟩

end Owner

end Qev
