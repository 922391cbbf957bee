/-
# What a loop opens and closes while it runs

What the variables of a loop name is what it holds, with what has been left open (`Sound`). Each function that opens,
closes, maps or allocates keeps the ledger in step with them.
-/
import Qev.Loop.OwnerInit

namespace Qev
namespace Owner

variable {s : Owner} {lost gone n : Multiset Res}

/-! ### The whole loop -/

def asides (s : Owner) : Multiset Res := fdOf s.sigfd + fdOf s.timerfd + fdOf s.fsFd

def blocks (s : Owner) : Multiset Res := (loopArrays.map fun a => blockOf (s.base a)).sum

/-- The block of the loop, and those of `ev_once`. -/
def memory (s : Owner) : Multiset Res := blockOf s.loop + (s.onces.map Res.block : List Res)

/-- What the variables of a loop name, while there is one. -/
def named (s : Owner) : Multiset Res :=
  match s.backend with
  | none => 0
  | some b => s.pipes + s.asides + s.blocks + s.polled b + s.memory

/-- What is open for a watcher of the loop's own that is not active. -/
def idle (s : Owner) (w : Inner) : Multiset Res := if s.watches w then 0 else s.opens w

def unwatched (s : Owner) : Multiset Res :=
  if s.backend = none then 0 else s.idle .pipeW + s.idle .sigfdW + s.idle .timerfdW

/-- Of all runs, those without a fork, and those of another backend than kqueue. -/
inductive Mode
  | any
  | unforked
  | kqueueless

/-- Where nothing is abandoned. -/
def Calm : Mode → Owner → Prop
  | .any, _ => True
  | .unforked, s => s.abandoned = 0 ∧ (s.backend = some .kqueue → s.kqueueFdPid = s.pid)
  | .kqueueless, s => s.abandoned = 0 ∧ s.backend ≠ some .kqueue

theorem Calm.congr {mode : Mode} {t : Owner} (h : Calm mode s) (habandoned : t.abandoned = s.abandoned)
    (hbackend : t.backend = s.backend) (hkqueue : t.kqueueFdPid = s.kqueueFdPid) (hpid : t.pid = s.pid) :
    Calm mode t := by
  cases mode with
  | any => trivial
  | unforked => exact ⟨habandoned.trans h.1, fun hb => hkqueue.trans ((h.2 (hbackend.symm.trans hb)).trans hpid.symm)⟩
  | kqueueless => exact ⟨habandoned.trans h.1, hbackend.trans_ne h.2⟩

theorem Calm.other {mode : Mode} {t : Owner} (h : Calm mode s) (habandoned : t.abandoned = s.abandoned)
    (hbackend : t.backend ≠ some .kqueue) : Calm mode t := by
  cases mode with
  | any => trivial
  | unforked => exact ⟨habandoned.trans h.1, fun hb => absurd hb hbackend⟩
  | kqueueless => exact ⟨habandoned.trans h.1, hbackend⟩

/-- What is named is held, and so is what was given up, on purpose or not. The latter, `gone`, and what is open for a
watcher that is not active were open when `fd_kill` stopped the watcher. -/
structure Sound (mode : Mode) (lost gone : Multiset Res) (s : Owner) : Prop where
  accounts : s.ledger.Accounts lost (s.named + s.abandoned + gone)
  killed : s.unwatched + gone ≤ s.killed
  polls : ∀ b, s.backend = some b → s.Polls b
  calm : Calm mode s

variable {mode : Mode}

theorem named_eq {b : Backend} (h : s.backend = some b) :
    s.named = s.pipes + s.asides + s.blocks + s.polled b + s.memory := by
  unfold named
  rw [h]

theorem named_none (h : s.backend = none) : s.named = 0 := by
  unfold named
  rw [h]

theorem unwatched_eq (h : s.backend ≠ none) : s.unwatched = s.idle .pipeW + s.idle .sigfdW + s.idle .timerfdW :=
  if_neg h

theorem unwatched_none (h : s.backend = none) : s.unwatched = 0 := if_pos h

theorem idle_of_active {w : Inner} (h : s.watches w = true) : s.idle w = 0 := if_pos h

theorem idle_le (w : Inner) : s.idle w ≤ s.opens w := by
  unfold idle
  split
  · exact Multiset.zero_le _
  · exact le_refl _

theorem named_congr {t : Owner} (hbackend : t.backend = s.backend) (hmemory : t.memory = s.memory)
    (hpipes : t.pipes = s.pipes) (hasides : t.asides = s.asides) (hblocks : t.blocks = s.blocks)
    (hpolled : ∀ b, t.polled b = s.polled b) : t.named = s.named := by
  cases hb : s.backend with
  | none => rw [named_none hb, named_none (hbackend.trans hb)]
  | some b => rw [named_eq hb, named_eq (hbackend.trans hb), hmemory, hpipes, hasides, hblocks, hpolled]

theorem Bare.named_eq (h : Bare s) {b : Backend} (hb : s.backend = some b) :
    s.named = s.polled b + blockOf s.loop := by
  have hpipes : s.pipes = 0 := by
    unfold pipes
    rw [h.evpipe0, h.evpipe1]
    rfl
  have hasides : s.asides = 0 := by
    unfold asides
    rw [fdOf_of_neg h.sigfd, fdOf_of_neg h.timerfd, fdOf_of_neg h.fsFd]
    rfl
  have hblocks : s.blocks = 0 := by
    unfold blocks
    rw [List.map_congr_left fun a ha => congrArg blockOf (h.base a ha)]
    apply List.sum_eq_zero
    intro x hx
    obtain ⟨a, -, rfl⟩ := List.mem_map.mp hx
    rfl
  have hmemory : s.memory = blockOf s.loop := by
    unfold memory
    rw [h.onces]
    exact add_zero _
  rw [Owner.named_eq hb, hpipes, hasides, hblocks, hmemory]
  simp only [zero_add]

theorem Bare.unwatched_eq_zero (h : Bare s) : s.unwatched = 0 := by
  have hpipes : s.idle .pipeW ≤ 0 := (idle_le _).trans_eq (by rw [opens, pipes, h.evpipe0, h.evpipe1]; rfl)
  have hsigfd : s.idle .sigfdW ≤ 0 := (idle_le _).trans_eq (fdOf_of_neg h.sigfd)
  have htimerfd : s.idle .timerfdW ≤ 0 := (idle_le _).trans_eq (fdOf_of_neg h.timerfd)
  unfold unwatched
  split
  · rfl
  · rw [Multiset.le_zero.mp hpipes, Multiset.le_zero.mp hsigfd, Multiset.le_zero.mp htimerfd, add_zero, add_zero]

theorem Sound.gone_le (h : Sound mode lost gone s) : gone ≤ s.killed :=
  (Multiset.le_add_left _ _).trans h.killed

/-! ### The functions -/

theorem accounts_openPipe (h : s.ledger.Accounts lost n) (k : Piped) :
    (s.openPipe k).1.ledger.Accounts lost (fdOf (s.openPipe k).2.1 + ({.fd (s.openPipe k).2.2} + n)) := by
  obtain ⟨eventfd, pipe⟩ := k
  cases eventfd with
  | some fd => exact (accounts_hold h (.fd fd)).congr (zero_add _).symm
  | none =>
    refine (accounts_hold (accounts_hold h (.fd pipe.1)) (.fd pipe.2)).congr ?_
    change {Res.fd pipe.2} + ({Res.fd pipe.1} + n) = fdOf (pipe.1 : ℤ) + ({Res.fd pipe.2} + n)
    rw [fdOf_natCast]
    abel

/-- Only the pipe differs. -/
def Piping (s t : Owner) : Prop :=
  t = { s with evpipe0 := t.evpipe0, evpipe1 := t.evpipe1, pipeW := t.pipeW, ledger := t.ledger }

theorem openPipe_ledger (s : Owner) (k : Piped) :
    (s.openPipe k).1 = { s with ledger := (s.openPipe k).1.ledger } := by
  obtain ⟨eventfd, pipe⟩ := k
  cases eventfd <;> rfl

theorem piping_evpipeInit (s : Owner) (k : Piped) : Piping s (s.evpipeInit k) ∧ (s.evpipeInit k).pipeW = true := by
  have hopen := openPipe_ledger s k
  unfold evpipeInit
  split
  case isTrue hw => exact ⟨rfl, hw⟩
  case isFalse =>
    simp only
    generalize s.openPipe k = r at hopen ⊢
    obtain ⟨t, fd0, fd1⟩ := r
    simp only at hopen ⊢
    rw [hopen]
    split
    · exact ⟨rfl, rfl⟩
    · exact ⟨rfl, rfl⟩

/-- `evpipe_init`, when there is no read end. -/
theorem accounts_evpipeInit (hw : s.pipeW = false) (h : s.ledger.Accounts lost (fdOf s.evpipe1 + n)) (k : Piped) :
    (s.evpipeInit k).ledger.Accounts lost ((s.evpipeInit k).pipes + n) := by
  have hopen := accounts_openPipe h k
  have hend : (s.openPipe k).1.evpipe1 = s.evpipe1 := by rw [openPipe_ledger]
  unfold evpipeInit
  rw [if_neg (by rw [hw]; exact Bool.false_ne_true)]
  simp only
  generalize s.openPipe k = r at hopen hend ⊢
  obtain ⟨t, fd0, fd1⟩ := r
  simp only at hopen hend ⊢
  split
  case isTrue hneg =>
    rw [hend] at hneg
    rw [fdOf_of_neg hneg, zero_add] at hopen
    refine hopen.congr ?_
    change fdOf fd0 + ({Res.fd fd1} + n) = fdOf fd0 + fdOf (fd1 : ℤ) + n
    rw [fdOf_natCast, add_assoc]
  case isFalse =>
    apply accounts_close
    refine hopen.congr ?_
    change fdOf fd0 + ({Res.fd fd1} + (fdOf s.evpipe1 + n)) = fdOf (fd1 : ℤ) + (fdOf fd0 + fdOf t.evpipe1 + n)
    rw [fdOf_natCast, hend]
    abel

/-- The pipe changes and nothing else. What is still held of the old one is gone, if it had no watcher. -/
theorem Sound.of_piping {t : Owner} {old : Multiset Res} (h : Sound mode lost gone s) (hb : s.backend ≠ none)
    (ht : Piping s t)
    (haccounts : ∀ n, s.ledger.Accounts lost (s.pipes + n) → t.ledger.Accounts lost (t.pipes + (old + n)))
    (hold : t.idle .pipeW + old ≤ s.idle .pipeW) : Sound mode lost (old + gone) t := by
  have hne := hb
  obtain ⟨b, hb⟩ := Option.ne_none_iff_exists'.mp hb
  have hheld := haccounts (s.asides + s.blocks + s.polled b + s.memory + s.abandoned + gone)
    (h.accounts.congr (by rw [named_eq hb]; abel))
  have hsame : t.backend = s.backend ∧ t.asides = s.asides ∧ t.blocks = s.blocks ∧ t.memory = s.memory ∧
      t.abandoned = s.abandoned ∧ t.polled b = s.polled b ∧ t.killed = s.killed ∧
      t.idle .sigfdW + t.idle .timerfdW = s.idle .sigfdW + s.idle .timerfdW := by
    rw [ht]
    refine ⟨rfl, rfl, rfl, rfl, rfl, ?_, rfl, rfl⟩
    cases b <;> rfl
  obtain ⟨hbackend, hasides, hblocks, hmemory, habandoned, hpolled, hkilled, hidle⟩ := hsame
  refine ⟨hheld.congr ?_, ?_, ?_, ?_⟩
  · rw [named_eq (hbackend.trans hb), hasides, hblocks, hmemory, habandoned, hpolled]
    abel
  · rw [unwatched_eq (hbackend.trans_ne hne), hkilled]
    refine le_trans ?_ h.killed
    rw [unwatched_eq hne]
    calc t.idle .pipeW + t.idle .sigfdW + t.idle .timerfdW + (old + gone)
      _ = t.idle .pipeW + old + (t.idle .sigfdW + t.idle .timerfdW) + gone := by abel
      _ ≤ s.idle .pipeW + (s.idle .sigfdW + s.idle .timerfdW) + gone := by
          rw [hidle]
          exact add_le_add_left (add_le_add_left hold _) _
      _ = s.idle .pipeW + s.idle .sigfdW + s.idle .timerfdW + gone := by abel
  · intro c hc
    have hpolls := h.polls c (hbackend.symm.trans hc)
    rw [ht]
    cases c <;> exact hpolls
  · rw [ht]
    exact h.calm.congr rfl rfl rfl rfl

/-- `evpipe_init` for a pipe whose watcher was stopped leaves the old read end open. -/
theorem sound_evpipeInit (h : Sound mode lost gone s) (hb : s.backend ≠ none) (k : Piped) :
    ∃ old, Sound mode lost (old + gone) (s.evpipeInit k) := by
  cases hw : s.pipeW with
  | true =>
    refine ⟨0, ?_⟩
    unfold evpipeInit
    rw [if_pos hw, zero_add]
    exact h
  | false =>
    obtain ⟨hpiping, hactive⟩ := piping_evpipeInit s k
    refine ⟨fdOf s.evpipe0, h.of_piping hb hpiping (fun n hn => ?_) ?_⟩
    · apply accounts_evpipeInit hw
      refine hn.congr ?_
      unfold pipes
      abel
    · have hidle : s.idle .pipeW = s.pipes := if_neg (by rw [watches, hw]; exact Bool.false_ne_true)
      rw [idle_of_active (w := .pipeW) hactive, zero_add, hidle]
      exact Multiset.le_add_right _ _

theorem sound_evpipeFork (h : Sound mode lost gone s) (hb : s.backend ≠ none) (k : Piped) :
    Sound mode lost gone (s.evpipeFork k) := by
  unfold evpipeFork
  split
  case isFalse => exact h
  case isTrue =>
    obtain ⟨hpiping, hactive⟩ := piping_evpipeInit { s.close s.evpipe0 with pipeW := false } k
    rw [← zero_add gone]
    refine h.of_piping hb ?_ (fun n hn => ?_) ?_
    · unfold Piping at hpiping ⊢
      rw [hpiping]
      rfl
    · apply accounts_evpipeInit rfl
      apply accounts_close
      refine hn.congr ?_
      unfold pipes
      rw [add_assoc, zero_add]
      rfl
    · rw [idle_of_active (w := .pipeW) hactive, zero_add]
      exact Multiset.zero_le _

/-- The signalfd, the timerfd or the inotify changes and nothing else. -/
def Siding (s t : Owner) : Prop :=
  t = { s with
    sigfd := t.sigfd, sigfdW := t.sigfdW, timerfd := t.timerfd, timerfdW := t.timerfdW, fsFd := t.fsFd
    ledger := t.ledger }

theorem Sound.of_siding {t : Owner} (h : Sound mode lost gone s) (hb : s.backend ≠ none) (ht : Siding s t)
    (haccounts : ∀ n, s.ledger.Accounts lost (s.asides + n) → t.ledger.Accounts lost (t.asides + n))
    (hsigfd : t.idle .sigfdW ≤ s.idle .sigfdW) (htimerfd : t.idle .timerfdW ≤ s.idle .timerfdW) :
    Sound mode lost gone t := by
  have hne := hb
  obtain ⟨b, hb⟩ := Option.ne_none_iff_exists'.mp hb
  have hheld := haccounts (s.pipes + s.blocks + s.polled b + s.memory + s.abandoned + gone)
    (h.accounts.congr (by rw [named_eq hb]; abel))
  have hsame : t.backend = s.backend ∧ t.pipes = s.pipes ∧ t.blocks = s.blocks ∧ t.memory = s.memory ∧
      t.abandoned = s.abandoned ∧ t.polled b = s.polled b ∧ t.killed = s.killed ∧ t.idle .pipeW = s.idle .pipeW := by
    rw [ht]
    refine ⟨rfl, rfl, rfl, rfl, rfl, ?_, rfl, rfl⟩
    cases b <;> rfl
  obtain ⟨hbackend, hpipes, hblocks, hmemory, habandoned, hpolled, hkilled, hidle⟩ := hsame
  refine ⟨hheld.congr ?_, ?_, ?_, ?_⟩
  · rw [named_eq (hbackend.trans hb), hpipes, hblocks, hmemory, habandoned, hpolled]
    abel
  · rw [unwatched_eq (hbackend.trans_ne hne), hkilled, hidle]
    refine le_trans ?_ h.killed
    rw [unwatched_eq hne]
    exact add_le_add_left (add_le_add (add_le_add_right hsigfd _) htimerfd) _
  · intro c hc
    have hpolls := h.polls c (hbackend.symm.trans hc)
    rw [ht]
    cases c <;> exact hpolls
  · rw [ht]
    exact h.calm.congr rfl rfl rfl rfl

/-- What a call that may fail has opened for a watcher, it has started. -/
theorem idle_returned {w : Bool} (k : Option ℕ) :
    (if (if 0 ≤ returned k then true else w) = true then 0 else fdOf (returned k)) = 0 := by
  by_cases hfd : 0 ≤ returned k
  · rw [if_pos hfd]
    exact if_pos rfl
  · rw [fdOf_of_neg (not_le.mp hfd)]
    exact ite_self 0

theorem sound_sigfdInit (h : Sound mode lost gone s) (hb : s.backend ≠ none) (k : Option ℕ) :
    Sound mode lost gone (s.sigfdInit k) := by
  unfold sigfdInit
  split
  case isFalse => exact h
  case isTrue hfd =>
    refine h.of_siding hb rfl (fun n hn => ?_) ?_ (le_refl _)
    · have hneg : fdOf s.sigfd = 0 := fdOf_of_neg (by omega)
      refine (accounts_opened hn k).congr ?_
      change _ = fdOf (returned k) + fdOf s.timerfd + fdOf s.fsFd + n
      unfold asides
      rw [hneg]
      abel
    · exact (idle_returned k).trans_le (Multiset.zero_le _)

theorem sound_evtimerfdInit (h : Sound mode lost gone s) (hb : s.backend ≠ none) (hfd : s.timerfd < 0)
    (k : Option ℕ) : Sound mode lost gone (s.evtimerfdInit k) := by
  unfold evtimerfdInit
  split
  case isTrue => exact h
  case isFalse =>
    refine h.of_siding hb rfl (fun n hn => ?_) (le_refl _) ?_
    · refine (accounts_opened hn k).congr ?_
      change _ = fdOf s.sigfd + fdOf (returned k) + fdOf s.fsFd + n
      unfold asides
      rw [fdOf_of_neg hfd]
      abel
    · exact (idle_returned k).trans_le (Multiset.zero_le _)

theorem sound_timerfdFork (h : Sound mode lost gone s) (hb : s.backend ≠ none) (k : Option ℕ) :
    Sound mode lost gone (s.timerfdFork k) := by
  unfold timerfdFork
  split
  case isFalse => exact h
  case isTrue =>
    have hclosed : Sound mode lost gone { s.close s.timerfd with timerfdW := false, timerfd := -2 } := by
      refine h.of_siding hb rfl (fun n hn => ?_) (le_refl _) (Multiset.zero_le _)
      apply accounts_close
      refine hn.congr ?_
      change fdOf s.sigfd + fdOf s.timerfd + fdOf s.fsFd + n = fdOf s.timerfd + (fdOf s.sigfd + 0 + fdOf s.fsFd + n)
      abel
    exact sound_evtimerfdInit hclosed hb (by decide : (-2 : ℤ) < 0) k

theorem sound_infyInit (h : Sound mode lost gone s) (hb : s.backend ≠ none) (k : Option ℕ) :
    Sound mode lost gone (s.infyInit k) := by
  unfold infyInit
  split
  case isTrue => exact h
  case isFalse hfd =>
    refine h.of_siding hb rfl (fun n hn => ?_) (le_refl _) (le_refl _)
    have hneg : fdOf s.fsFd = 0 := fdOf_of_neg (by omega)
    refine (accounts_opened hn k).congr ?_
    change _ = fdOf s.sigfd + fdOf s.timerfd + fdOf (returned k) + n
    unfold asides
    rw [hneg]
    abel

theorem sound_infyFork (h : Sound mode lost gone s) (hb : s.backend ≠ none) (k : Option ℕ) :
    Sound mode lost gone (s.infyFork k) := by
  unfold infyFork
  split
  case isTrue => exact h
  case isFalse =>
    refine h.of_siding hb rfl (fun n hn => ?_) (le_refl _) (le_refl _)
    have hclosed : (s.close s.fsFd).ledger.Accounts lost (fdOf s.sigfd + fdOf s.timerfd + n) := by
      apply accounts_close
      refine hn.congr ?_
      unfold asides
      abel
    refine (accounts_opened hclosed k).congr ?_
    change _ = fdOf s.sigfd + fdOf s.timerfd + fdOf (returned k) + n
    abel

/-! ### ev_once, and fd_kill -/

/-- The blocks of `ev_once` change and nothing else. -/
theorem Sound.of_onces {t : Owner} (h : Sound mode lost gone s) (hb : s.backend ≠ none)
    (ht : t = { s with onces := t.onces, ledger := t.ledger })
    (haccounts : ∀ n, s.ledger.Accounts lost ((s.onces.map Res.block : List Res) + n) →
      t.ledger.Accounts lost ((t.onces.map Res.block : List Res) + n)) : Sound mode lost gone t := by
  obtain ⟨b, hb⟩ := Option.ne_none_iff_exists'.mp hb
  have hheld := haccounts (s.pipes + s.asides + s.blocks + s.polled b + blockOf s.loop + s.abandoned + gone)
    (h.accounts.congr (by rw [named_eq hb, memory]; abel))
  have hsame : t.backend = s.backend ∧ t.pipes = s.pipes ∧ t.asides = s.asides ∧ t.blocks = s.blocks ∧
      t.loop = s.loop ∧ t.abandoned = s.abandoned ∧ t.polled b = s.polled b := by
    rw [ht]
    refine ⟨rfl, rfl, rfl, rfl, rfl, rfl, ?_⟩
    cases b <;> rfl
  obtain ⟨hbackend, hpipes, hasides, hblocks, hloop, habandoned, hpolled⟩ := hsame
  refine ⟨hheld.congr ?_, ?_, ?_, ?_⟩
  · rw [named_eq (hbackend.trans hb), memory, hpipes, hasides, hblocks, hloop, habandoned, hpolled]
    abel
  · rw [ht]
    exact h.killed
  · intro c hc
    have hpolls := h.polls c (hbackend.symm.trans hc)
    rw [ht]
    cases c <;> exact hpolls
  · rw [ht]
    exact h.calm.congr rfl rfl rfl rfl

theorem sound_evOnce (h : Sound mode lost gone s) (hb : s.backend ≠ none) (p : ℕ) :
    Sound mode lost gone (s.evOnce p) := by
  refine h.of_onces hb rfl fun n hn => (accounts_hold hn (.block p)).congr ?_
  change _ = ((Res.block p :: s.onces.map Res.block : List Res) : Multiset Res) + n
  rw [← Multiset.cons_coe, ← Multiset.singleton_add, add_assoc]

theorem sound_onceCb (h : Sound mode lost gone s) (hb : s.backend ≠ none) {p : ℕ} (hp : p ∈ s.onces) :
    Sound mode lost gone (s.onceCb p) := by
  refine h.of_onces hb rfl fun n hn => ?_
  have hperm : ((s.onces.map Res.block : List Res) : Multiset Res) =
      {Res.block p} + ((s.onces.erase p).map Res.block : List Res) := by
    rw [Multiset.singleton_add, Multiset.cons_coe]
    exact Multiset.coe_eq_coe.mpr ((List.perm_cons_erase hp).map Res.block)
  rw [hperm, add_assoc] at hn
  exact accounts_release hn

/-- What was open for the watcher may stay open for ever. -/
theorem sound_fdKill (h : Sound mode lost gone s) (hb : s.backend ≠ none) {w : Inner} (hw : s.watches w = true) :
    Sound mode lost gone (s.fdKill w) := by
  have hbackend : (s.fdKill w).backend ≠ none := by cases w <;> exact hb
  have hkilled : (s.fdKill w).unwatched ≤ s.opens w + s.unwatched := by
    have hactive := idle_of_active hw
    rw [unwatched_eq hb, unwatched_eq hbackend]
    cases w with
    | pipeW =>
      change (s.fdKill .pipeW).idle .pipeW + s.idle .sigfdW + s.idle .timerfdW ≤ _
      rw [hactive, zero_add, ← add_assoc]
      exact add_le_add_left (add_le_add_left (idle_le _) _) _
    | sigfdW =>
      change s.idle .pipeW + (s.fdKill .sigfdW).idle .sigfdW + s.idle .timerfdW ≤ _
      rw [hactive, add_zero, add_comm (s.idle .pipeW), ← add_assoc]
      exact add_le_add_left (add_le_add_left (idle_le _) _) _
    | timerfdW =>
      change s.idle .pipeW + s.idle .sigfdW + (s.fdKill .timerfdW).idle .timerfdW ≤ _
      rw [hactive, add_zero, add_comm]
      exact add_le_add_left (idle_le _) _
  have hnamed : (s.fdKill w).named = s.named := by
    refine named_congr ?_ ?_ ?_ ?_ ?_ fun b => ?_
    all_goals cases w
    all_goals try cases b
    all_goals rfl
  refine ⟨?_, ?_, fun b hb' => ?_, ?_⟩
  · rw [hnamed]
    cases w <;> exact h.accounts
  · have hghost : (s.fdKill w).killed = s.opens w + s.killed := by cases w <;> rfl
    calc (s.fdKill w).unwatched + gone
      _ ≤ s.opens w + s.unwatched + gone := add_le_add_left hkilled _
      _ = s.opens w + (s.unwatched + gone) := add_assoc _ _ _
      _ ≤ s.opens w + s.killed := add_le_add_right h.killed _
      _ = (s.fdKill w).killed := hghost.symm
  · have hpolls : s.Polls b := h.polls b (by cases w <;> exact hb')
    cases w <;> cases b <;> exact hpolls
  · cases w <;> exact h.calm.congr rfl rfl rfl rfl

/-! ### Arrays -/

/-- The arrays that a backend names. -/
def backendArrays : Backend → List Arr
  | .port => [.portEvents]
  | .kqueue => [.kqueueEvents, .kqueueChanges]
  | .iouring => []
  | .linuxaio => [.epollEvents, .epollEperms, .linuxaioIocbps, .linuxaioSubmits]
  | .epoll => [.epollEvents, .epollEperms]
  | .poll => [.pollidxs, .polls]
  | .select => [.vecRi, .vecRo, .vecWi, .vecWo]

/-- What a backend names besides its arrays. -/
def fixed (s : Owner) : Backend → Multiset Res
  | .port | .kqueue | .epoll => fdOf s.backendFd
  | .iouring => s.ring
  | .linuxaio => fdOf s.backendFd + ({.ctx s.linuxaioCtx} + s.iocbBlocks)
  | .poll | .select => 0

theorem polled_eq (s : Owner) (b : Backend) :
    s.polled b = s.fixed b + ((backendArrays b).map fun a => blockOf (s.base a)).sum := by
  cases b with
  | iouring => exact (add_zero _).symm
  | select | poll | epoll | kqueue | port | linuxaio =>
    simp only [polled, fixed, backendArrays, epolled, aio, List.map_cons, List.map_nil, List.sum_cons, List.sum_nil,
      add_zero, zero_add]
    try abel

def arraysUnder (b : Backend) : List Arr := loopArrays ++ backendArrays b

theorem arraysUnder_nodup (b : Backend) : (arraysUnder b).Nodup := by
  cases b <;> decide

theorem arrays_eq (s : Owner) (b : Backend) :
    s.blocks + s.polled b = s.fixed b + ((arraysUnder b).map fun a => blockOf (s.base a)).sum := by
  rw [polled_eq]
  unfold blocks arraysUnder
  rw [List.map_append, List.sum_append]
  abel

/-- One array of those that are named, and the others. -/
theorem sum_blocks (b : Backend) {a : Arr} (ha : a ∈ arraysUnder b) (base : Arr → Option ℕ) (p : Option ℕ) :
    ∃ rest, ((arraysUnder b).map fun a => blockOf (base a)).sum = blockOf (base a) + rest ∧
      ((arraysUnder b).map fun c => blockOf (Function.update base a p c)).sum = blockOf p + rest := by
  refine ⟨(((arraysUnder b).erase a).map fun a => blockOf (base a)).sum, ?_, ?_⟩
  · exact (List.sum_map_erase (fun a => blockOf (base a)) ha).symm
  · rw [← List.sum_map_erase (fun c => blockOf (Function.update base a p c)) ha, Function.update_self]
    congr 2
    apply List.map_congr_left
    intro c hc
    rw [Function.update_of_ne]
    rintro rfl
    exact (arraysUnder_nodup b).not_mem_erase hc

theorem mem_arraysUnder {b : Backend} {a : Arr} (h : growsUnder b a = true) : a ∈ arraysUnder b := by
  revert h
  cases b <;> cases a <;> decide +revert

/-- Only the arrays differ. -/
def Growing (s t : Owner) : Prop := t = { s with base := t.base, iocbs := t.iocbs, ledger := t.ledger }

theorem Sound.of_growing {t : Owner} (h :
    Sound mode lost gone s) {b : Backend} (hb : s.backend = some b) (ht : Growing s t)
    (haccounts : ∀ n, s.ledger.Accounts lost (s.blocks + s.polled b + n) →
      t.ledger.Accounts lost (t.blocks + t.polled b + n)) : Sound mode lost gone t := by
  have hheld := haccounts (s.pipes + s.asides + s.memory + s.abandoned + gone)
    (h.accounts.congr (by rw [named_eq hb]; abel))
  have hsame : t.backend = s.backend ∧ t.pipes = s.pipes ∧ t.asides = s.asides ∧ t.memory = s.memory ∧
      t.abandoned = s.abandoned := by
    rw [ht]
    exact ⟨rfl, rfl, rfl, rfl, rfl⟩
  obtain ⟨hbackend, hpipes, hasides, hmemory, habandoned⟩ := hsame
  refine ⟨hheld.congr ?_, ?_, ?_, ?_⟩
  · rw [named_eq (hbackend.trans hb), hpipes, hasides, hmemory, habandoned]
    abel
  · rw [ht]
    exact h.killed
  · intro c hc
    have hpolls := h.polls c (hbackend.symm.trans hc)
    rw [ht]
    cases c <;> exact hpolls
  · rw [ht]
    exact h.calm.congr rfl rfl rfl rfl

theorem fixed_grow (s : Owner) (b : Backend) (a : Arr) (p : ℕ) : (s.grow a p).fixed b = s.fixed b := by
  cases b <;> rfl

theorem accounts_growUnder {b : Backend} {a : Arr} (ha : a ∈ arraysUnder b) (p : ℕ)
    (h : s.ledger.Accounts lost (s.blocks + s.polled b + n)) :
    (s.grow a p).ledger.Accounts lost ((s.grow a p).blocks + (s.grow a p).polled b + n) := by
  obtain ⟨rest, hold, hnew⟩ := sum_blocks b ha s.base (some p)
  rw [arrays_eq, hold] at h
  rw [arrays_eq, fixed_grow]
  change Ledger.Accounts lost (s.fixed b + ((arraysUnder b).map fun c =>
    blockOf (Function.update s.base a (some p) c)).sum + n) _
  rw [hnew]
  have hgrown := accounts_grow (n := s.fixed b + rest + n) (a := a) (h.congr (by abel)) p
  refine hgrown.congr ?_
  change {Res.block p} + (s.fixed b + rest + n) = s.fixed b + ({Res.block p} + rest) + n
  abel

theorem sound_grow (h :
    Sound mode lost gone s) {b : Backend} (hb : s.backend = some b) {a : Arr} (ha : growsUnder b a = true)
    (p : ℕ) : Sound mode lost gone (s.grow a p) :=
  h.of_growing hb rfl fun _ => accounts_growUnder (mem_arraysUnder ha) p

/-! ### The aio -/

theorem accounts_holds (ps : List ℕ) {l : Ledger Res} (h : l.Accounts lost n) :
    (ps.foldl (fun l p => l.hold (.block p)) l).Accounts lost ((ps.map Res.block : List Res) + n) := by
  induction ps generalizing l n with
  | nil => exact h.congr (zero_add n).symm
  | cons p ps ih =>
    refine (ih (h.hold (.block p))).congr ?_
    rw [List.map_cons, ← Multiset.cons_coe, Multiset.cons_add, Multiset.add_cons]

theorem accounts_releases (ps : List ℕ) {l : Ledger Res} (h : l.Accounts lost ((ps.map Res.block : List Res) + n)) :
    (ps.foldl (fun l p => l.release (.block p)) l).Accounts lost n := by
  induction ps generalizing l with
  | nil => exact h.congr (zero_add n)
  | cons p ps ih =>
    apply ih
    apply Ledger.Accounts.release
    rw [← Multiset.cons_add, Multiset.cons_coe]
    exact h

theorem polled_iocbs (s : Owner) (ps : List ℕ) (l : Ledger Res) :
    ({ s with iocbs := s.iocbs ++ ps, ledger := l } : Owner).polled .linuxaio =
      (ps.map Res.block : List Res) + s.polled .linuxaio := by
  change s.epolled + ({Res.ctx s.linuxaioCtx} + ((s.iocbs ++ ps).map Res.block : List Res) +
    blockOf (s.base .linuxaioIocbps) + blockOf (s.base .linuxaioSubmits)) = (ps.map Res.block : List Res) +
      (s.epolled + ({Res.ctx s.linuxaioCtx} + (s.iocbs.map Res.block : List Res) +
        blockOf (s.base .linuxaioIocbps) + blockOf (s.base .linuxaioSubmits)))
  rw [List.map_append, ← Multiset.coe_add]
  abel

theorem sound_linuxaioGrow (h : Sound mode lost gone s) (hb : s.backend = some .linuxaio) (p : ℕ) (iocbs : List ℕ) :
    Sound mode lost gone (s.linuxaioGrow p iocbs) := by
  refine h.of_growing hb rfl fun n hn => ?_
  have hgrown := accounts_growUnder (b := .linuxaio) (a := .linuxaioIocbps) (by decide) p hn
  have hpolled := polled_iocbs (s.grow .linuxaioIocbps p) iocbs (s.linuxaioGrow p iocbs).ledger
  refine (accounts_holds iocbs hgrown).congr ?_
  calc (iocbs.map Res.block : List Res) + ((s.grow .linuxaioIocbps p).blocks +
          (s.grow .linuxaioIocbps p).polled .linuxaio + n)
    _ = (s.grow .linuxaioIocbps p).blocks + ((iocbs.map Res.block : List Res) +
          (s.grow .linuxaioIocbps p).polled .linuxaio) + n := by abel
    _ = (s.grow .linuxaioIocbps p).blocks + (s.linuxaioGrow p iocbs).polled .linuxaio + n := by
          rw [← hpolled]
          rfl

theorem accounts_linuxaioFreeIocbp (h : s.ledger.Accounts lost (s.iocbBlocks + n)) :
    s.linuxaioFreeIocbp.ledger.Accounts lost n := by
  apply accounts_releases
  refine h.congr ?_
  unfold iocbBlocks
  rw [List.map_reverse, Multiset.coe_reverse]

theorem accounts_linuxaioFreeArrays (h : s.ledger.Accounts lost (s.iocbBlocks +
    (blockOf (s.base .linuxaioIocbps) + (blockOf (s.base .linuxaioSubmits) + n)))) :
    s.linuxaioFreeArrays.ledger.Accounts lost n := by
  apply accounts_arrayFree
  apply accounts_arrayFree (s := s.linuxaioFreeIocbp)
  exact accounts_linuxaioFreeIocbp h

/-- The variables that the backends have differ, and none of the arrays of the loop. -/
theorem Sound.of_backed {t u : Owner} (h : Sound mode lost gone s) (abandoned : Multiset Res)
    {b c : Backend} (hb : s.backend = some b) (ht : Backed s t)
    (hu : u = { t with backend := some c, abandoned := abandoned })
    (haccounts : ∀ n, s.ledger.Accounts lost (s.polled b + (s.abandoned + n)) →
      t.ledger.Accounts lost (t.polled c + (abandoned + n)))
    (hpolls : t.Polls c)
    (hcalm : Calm mode u) : Sound mode lost gone u := by
  have hheld := haccounts (s.pipes + s.asides + s.blocks + s.memory + gone)
    (h.accounts.congr (by rw [named_eq hb]; abel))
  obtain ⟨heq, hbase⟩ := ht
  have hsame : t.pipes = s.pipes ∧ t.asides = s.asides ∧ t.memory = s.memory := by
    rw [heq]
    exact ⟨rfl, rfl, rfl⟩
  obtain ⟨hpipes, hasides, hmemory⟩ := hsame
  have hblocks : t.blocks = s.blocks := by
    unfold blocks
    rw [List.map_congr_left fun a ha => congrArg blockOf (hbase a ha)]
  have hne : s.backend ≠ none := by
    rw [hb]
    exact Option.some_ne_none b
  have hkilled : t.idle .pipeW + t.idle .sigfdW + t.idle .timerfdW + gone ≤ t.killed := by
    have hbefore := h.killed
    rw [unwatched_eq hne] at hbefore
    rw [heq]
    exact hbefore
  have hpolled : ({ t with backend := some c, abandoned := abandoned } : Owner).polled c = t.polled c := by
    cases c <;> rfl
  subst hu
  refine ⟨hheld.congr ?_, ?_, ?_, hcalm⟩
  · rw [named_eq (b := c) rfl, hpolled]
    change _ = t.pipes + t.asides + t.blocks + t.polled c + t.memory + abandoned + gone
    rw [hpipes, hasides, hblocks, hmemory]
    abel
  · rw [unwatched_eq (Option.some_ne_none c)]
    exact hkilled
  · intro d hd
    cases hd
    cases c <;> exact hpolls

theorem Backed.eq_set {t : Owner} (h : Backed s t) {b : Backend} (hb : s.backend = some b) :
    t = { t with backend := some b, abandoned := s.abandoned } := by
  obtain ⟨-, -, habandoned, hbackend, -⟩ := h.same
  rw [← habandoned, ← hbackend.trans hb]

/-- A backend that is no kqueue goes on as one. -/
theorem Sound.calm_backed {t : Owner} (h :
    Sound mode lost gone s) (ht : Backed s t) {b : Backend} (hb : s.backend = some b)
    (hkind : b ≠ .kqueue) : Calm mode t := by
  apply h.calm.other ht.same.2.2.1
  rw [ht.same.2.2.2.1, hb]
  exact fun he => hkind (Option.some.inj he)

theorem accounts_reopen (h : s.ledger.Accounts lost (fdOf s.backendFd + n)) (k : ℕ) :
    (s.reopen k).ledger.Accounts lost (fdOf (k : ℤ) + n) := by
  rw [fdOf_natCast]
  exact accounts_hold (accounts_close h) (.fd k)

theorem backed_reopen (s : Owner) (k : ℕ) : Backed s (s.reopen k) := ⟨rfl, fun _ _ => rfl⟩

/-- A backend that closes its fd and opens another one. -/
theorem sound_reopen (h : Sound mode lost gone s) {b : Backend} (hb : s.backend = some b)
    (hkind : b = .port ∨ b = .epoll) (k : ℕ) : Sound mode lost gone (s.reopen k) := by
  refine h.of_backed _ hb (backed_reopen s k) ((backed_reopen s k).eq_set hb) (fun n hn => ?_) ?_ ?_
  · rcases hkind with rfl | rfl
    · refine (accounts_reopen (n := blockOf (s.base .portEvents) + (s.abandoned + n))
        (hn.congr (add_assoc _ _ _)) k).congr ?_
      exact (add_assoc _ _ _).symm
    · refine (accounts_reopen (n := blockOf (s.base .epollEvents) + blockOf (s.base .epollEperms) + (s.abandoned + n))
        (hn.congr ?_) k).congr ?_
      · change fdOf s.backendFd + blockOf (s.base .epollEvents) + blockOf (s.base .epollEperms) + (s.abandoned + n) = _
        abel
      · change _ = fdOf (k : ℤ) + blockOf (s.base .epollEvents) + blockOf (s.base .epollEperms) + (s.abandoned + n)
        abel
  · rcases hkind with rfl | rfl
    · exact Int.natCast_nonneg k
    · exact Int.natCast_nonneg k
  · apply h.calm_backed (backed_reopen s k) hb
    rcases hkind with rfl | rfl <;> decide

theorem backed_kqueueFork (s : Owner) (k : ℕ) : Backed s { s.kqueueFork k with abandoned := s.abandoned } := by
  unfold kqueueFork
  simp only
  split
  · exact ⟨rfl, fun _ _ => rfl⟩
  · exact ⟨rfl, fun _ _ => rfl⟩

/-- `kqueue_fork` in another process gives the old kqueue up. -/
theorem sound_kqueueFork (h : Sound mode lost gone s) (hb : s.backend = some .kqueue) (k : ℕ) :
    Sound mode lost gone (s.kqueueFork k) := by
  have hbacked := backed_kqueueFork s k
  have hfd : 0 ≤ s.backendFd := h.polls _ hb
  refine h.of_backed (s.kqueueFork k).abandoned hb hbacked (c := .kqueue) ?_ (fun n hn => ?_) ?_ ?_
  · rw [← hbacked.same.2.2.2.1.trans hb]
  · unfold kqueueFork
    simp only
    split
    · refine (accounts_reopen (n := blockOf (s.base .kqueueEvents) + blockOf (s.base .kqueueChanges) +
        (s.abandoned + n)) (hn.congr ?_) k).congr ?_
      · change fdOf s.backendFd + blockOf (s.base .kqueueEvents) + blockOf (s.base .kqueueChanges) +
          (s.abandoned + n) = _
        abel
      · change _ = fdOf (k : ℤ) + blockOf (s.base .kqueueEvents) + blockOf (s.base .kqueueChanges) +
          (s.abandoned + n)
        abel
    · refine (accounts_hold hn (.fd k)).congr ?_
      change {Res.fd k} + (fdOf s.backendFd + blockOf (s.base .kqueueEvents) + blockOf (s.base .kqueueChanges) +
        (s.abandoned + n)) = fdOf (k : ℤ) + blockOf (s.base .kqueueEvents) + blockOf (s.base .kqueueChanges) +
          ((Res.fd s.backendFd.toNat ::ₘ s.abandoned) + n)
      rw [fdOf_natCast, fdOf_of_nonneg hfd, ← Multiset.singleton_add]
      abel
  · unfold kqueueFork
    simp only
    split
    · exact Int.natCast_nonneg k
    · exact Int.natCast_nonneg k
  · have hcalm := h.calm
    cases mode with
    | any => trivial
    | kqueueless => exact absurd hb hcalm.2
    | unforked =>
      have hsame : s.pid = s.kqueueFdPid := (hcalm.2 hb).symm
      unfold kqueueFork
      simp only [hsame, if_true]
      exact ⟨hcalm.1, fun _ => hsame.symm⟩

theorem backed_iouringFork {ks : List UringSetup} {r : Owner} (h : s.ledger.Accounts lost (s.ring + n))
    (hr : s.iouringFork ks = some r) : Backed s r ∧ r.ledger.Accounts lost (r.ring + n) := by
  obtain ⟨t, hringed, rfl, haccounts⟩ := accounts_iouringFork ks h hr
  refine ⟨?_, haccounts⟩
  change t = { s with iouring := t.iouring, ledger := t.ledger } at hringed
  rw [hringed]
  exact ⟨rfl, fun _ _ => rfl⟩

theorem sound_iouringFork (h : Sound mode lost gone s) (hb : s.backend = some .iouring) (ks : List UringSetup) {r : Owner}
    (hr : s.iouringFork ks = some r) : Sound mode lost gone r := by
  have hring : s.ledger.Accounts lost
      (s.ring + (s.pipes + s.asides + s.blocks + s.memory + s.abandoned + gone)) := by
    refine h.accounts.congr ?_
    rw [named_eq hb]
    change s.pipes + s.asides + s.blocks + s.ring + s.memory + s.abandoned + gone = _
    abel
  have hbacked := (backed_iouringFork hring hr).1
  exact h.of_backed _ hb hbacked (hbacked.eq_set hb) (fun _ hn => (backed_iouringFork hn hr).2) trivial
    (h.calm_backed hbacked hb (by decide))

/-- The aio's iocbs and context go. -/
def aioless (s : Owner) : Owner := s.linuxaioFreeIocbp.release (.ctx s.linuxaioCtx)

theorem accounts_aioless (h : s.ledger.Accounts lost (s.polled .linuxaio + n)) :
    s.aioless.ledger.Accounts lost
      (s.epolled + blockOf (s.base .linuxaioIocbps) + blockOf (s.base .linuxaioSubmits) + n) := by
  apply accounts_release
  apply accounts_linuxaioFreeIocbp
  refine h.congr ?_
  change s.epolled + ({Res.ctx s.linuxaioCtx} + s.iocbBlocks + blockOf (s.base .linuxaioIocbps) +
    blockOf (s.base .linuxaioSubmits)) + n = _
  abel

theorem linuxaioFork_eq (s : Owner) (ctx epoll : ℕ) :
    s.linuxaioFork ctx epoll = (s.aioless.linuxaioIoSetup (some ctx)).reopen epoll := rfl

theorem reopen_polled (s : Owner) (k : ℕ) : (s.reopen k).polled .linuxaio =
    fdOf (k : ℤ) + blockOf (s.base .epollEvents) + blockOf (s.base .epollEperms) + s.aio := rfl

theorem linuxaioIoSetup_aio (s : Owner) (c : ℕ) : (s.linuxaioIoSetup (some c)).aio =
    {.ctx c} + s.iocbBlocks + blockOf (s.base .linuxaioIocbps) + blockOf (s.base .linuxaioSubmits) := rfl

theorem linuxaioIoSetup_base (s : Owner) (k : Option ℕ) : (s.linuxaioIoSetup k).base = s.base := rfl

theorem aioless_base (s : Owner) : s.aioless.base = s.base := rfl

theorem aioless_iocbBlocks (s : Owner) : s.aioless.iocbBlocks = 0 := rfl

theorem backed_aioless (s : Owner) : Backed s s.aioless := ⟨rfl, fun _ _ => rfl⟩

theorem backed_linuxaioFork (s : Owner) (ctx epoll : ℕ) : Backed s (s.linuxaioFork ctx epoll) :=
  (backed_aioless s).trans ((backed_linuxaioIoSetup _ _).trans (backed_reopen _ _))

theorem sound_linuxaioFork (h : Sound mode lost gone s) (hb : s.backend = some .linuxaio) (ctx epoll : ℕ) :
    Sound mode lost gone (s.linuxaioFork ctx epoll) := by
  have hbacked := backed_linuxaioFork s ctx epoll
  refine h.of_backed _ hb hbacked (hbacked.eq_set hb) (fun n hn => ?_) ?_ (h.calm_backed hbacked hb (by decide))
  · rw [linuxaioFork_eq, reopen_polled, linuxaioIoSetup_aio, linuxaioIoSetup_base, aioless_base, aioless_iocbBlocks]
    refine (accounts_reopen (n := {.ctx ctx} + blockOf (s.base .epollEvents) + blockOf (s.base .epollEperms) +
      blockOf (s.base .linuxaioIocbps) + blockOf (s.base .linuxaioSubmits) + (s.abandoned + n))
      ((accounts_hold (accounts_aioless hn) (.ctx ctx)).congr ?_) epoll).congr ?_
    · change {Res.ctx ctx} + (fdOf s.backendFd + blockOf (s.base .epollEvents) + blockOf (s.base .epollEperms) +
        blockOf (s.base .linuxaioIocbps) + blockOf (s.base .linuxaioSubmits) + (s.abandoned + n)) =
        fdOf s.backendFd + _
      abel
    · abel
  · exact Int.natCast_nonneg epoll

theorem backed_arrayFree (s : Owner) {a : Arr} (ha : a ∉ loopArrays) : Backed s (s.arrayFree a) :=
  ⟨rfl, fun _ hb => update_backend hb ha _⟩

theorem backed_linuxaioFreeArrays (s : Owner) : Backed s s.linuxaioFreeArrays :=
  have hiocbs : Backed s s.linuxaioFreeIocbp := ⟨rfl, fun _ _ => rfl⟩
  hiocbs.trans ((backed_arrayFree _ (by decide)).trans (backed_arrayFree _ (by decide)))

theorem arrayFree_epolled (s : Owner) {a : Arr} (hevents : .epollEvents ≠ a) (heperms : .epollEperms ≠ a) :
    (s.arrayFree a).epolled = s.epolled := by
  unfold arrayFree epolled
  simp only [Function.update_of_ne hevents, Function.update_of_ne heperms]
  rfl

theorem arrayFree_backendFd (s : Owner) (a : Arr) : (s.arrayFree a).backendFd = s.backendFd := rfl

theorem linuxaioFreeArrays_backendFd (s : Owner) : s.linuxaioFreeArrays.backendFd = s.backendFd := by
  unfold linuxaioFreeArrays
  rw [arrayFree_backendFd, arrayFree_backendFd]
  rfl

theorem linuxaioFreeArrays_epolled (s : Owner) : s.linuxaioFreeArrays.epolled = s.epolled := by
  unfold linuxaioFreeArrays
  rw [arrayFree_epolled _ (by decide) (by decide), arrayFree_epolled _ (by decide) (by decide)]
  rfl

/-- The aio's context goes, and another may come. -/
def again (s : Owner) (k : Option ℕ) : Owner := (s.release (.ctx s.linuxaioCtx)).linuxaioIoSetup k

theorem sound_linuxaioAgain (h : Sound mode lost gone s) (hb : s.backend = some .linuxaio) (k : Option ℕ) :
    Sound mode lost gone (s.linuxaioAgain k) := by
  have hfd : 0 ≤ s.backendFd := h.polls _ hb
  have hctx : ∀ n, s.ledger.Accounts lost (s.polled .linuxaio + n) →
      (s.release (.ctx s.linuxaioCtx)).ledger.Accounts lost (s.epolled + s.iocbBlocks +
        blockOf (s.base .linuxaioIocbps) + blockOf (s.base .linuxaioSubmits) + n) := by
    intro n hn
    apply accounts_release
    refine hn.congr ?_
    change s.epolled + ({Res.ctx s.linuxaioCtx} + s.iocbBlocks + blockOf (s.base .linuxaioIocbps) +
      blockOf (s.base .linuxaioSubmits)) + n = _
    abel
  have hbacked : Backed s (s.again k) := ⟨rfl, fun _ _ => rfl⟩
  unfold linuxaioAgain
  cases k with
  | some c =>
    refine h.of_backed _ hb hbacked (hbacked.eq_set hb) (fun n hn => ?_) hfd (h.calm_backed hbacked hb (by decide))
    refine (accounts_hold (hctx _ hn) (.ctx c)).congr ?_
    change {Res.ctx c} + (s.epolled + s.iocbBlocks + blockOf (s.base .linuxaioIocbps) +
      blockOf (s.base .linuxaioSubmits) + (s.abandoned + n)) = s.epolled + ({Res.ctx c} + s.iocbBlocks +
        blockOf (s.base .linuxaioIocbps) + blockOf (s.base .linuxaioSubmits)) + (s.abandoned + n)
    abel
  | none =>
    have hfree := backed_linuxaioFreeArrays (s.again none)
    have hzero : Backed (s.again none).linuxaioFreeArrays
        { (s.again none).linuxaioFreeArrays with linuxaioCtx := 0 } :=
      ⟨rfl, fun _ _ => rfl⟩
    refine h.of_backed s.abandoned hb (hbacked.trans (hfree.trans hzero)) (c := .epoll) ?_
      (fun n hn => ?_) ?_ ?_
    · rw [← (hbacked.trans hfree).same.2.2.1]
      rfl
    · change Ledger.Accounts lost ((s.again none).linuxaioFreeArrays.epolled + (s.abandoned + n))
        (s.again none).linuxaioFreeArrays.ledger
      rw [linuxaioFreeArrays_epolled]
      apply accounts_linuxaioFreeArrays
      refine (hctx _ hn).congr ?_
      change s.epolled + s.iocbBlocks + blockOf (s.base .linuxaioIocbps) + blockOf (s.base .linuxaioSubmits) +
        (s.abandoned + n) = s.iocbBlocks + (blockOf (s.base .linuxaioIocbps) +
          (blockOf (s.base .linuxaioSubmits) + (s.epolled + (s.abandoned + n))))
      abel
    · change 0 ≤ (s.again none).linuxaioFreeArrays.backendFd
      rw [linuxaioFreeArrays_backendFd]
      exact hfd
    · exact h.calm.other (hbacked.trans hfree).same.2.2.1 fun he => by cases he

theorem linuxaioAgain_killed (s : Owner) (k : Option ℕ) : (s.linuxaioAgain k).killed = s.killed := by
  unfold linuxaioAgain
  cases k with
  | some c => rfl
  | none => exact (backed_linuxaioFreeArrays (s.again none)).same.2.2.2.2

/-! ### Forks -/

theorem sound_backendFork (h : Sound mode lost gone s) (k : ForkAnswers) {r : Owner} (hr : s.backendFork k = some r) :
    Sound mode lost gone r ∧ r.backend = s.backend ∧ r.killed = s.killed := by
  unfold backendFork at hr
  split at hr
  case h_1 hb =>
    cases hr
    exact ⟨sound_reopen h hb (.inl rfl) k.backendFd, rfl, rfl⟩
  case h_2 hb =>
    cases hr
    exact ⟨sound_kqueueFork h hb k.backendFd, (backed_kqueueFork s k.backendFd).same.2.2.2⟩
  case h_3 hb =>
    have hring := h.accounts
    rw [named_eq hb] at hring
    have hbacked := backed_iouringFork (n := s.pipes + s.asides + s.blocks + s.memory + s.abandoned + gone)
      (hring.congr (by change s.pipes + s.asides + s.blocks + s.ring + s.memory + s.abandoned + gone = _; abel)) hr
    exact ⟨sound_iouringFork h hb k.uring hr, hbacked.1.same.2.2.2⟩
  case h_4 hb =>
    cases hr
    exact ⟨sound_linuxaioFork h hb k.ctx k.backendFd, (backed_linuxaioFork s k.ctx k.backendFd).same.2.2.2⟩
  case h_5 hb =>
    cases hr
    exact ⟨sound_reopen h hb (.inr rfl) k.backendFd, rfl, rfl⟩
  case h_6 =>
    cases hr
    exact ⟨h, rfl, rfl⟩

theorem Sound.postfork (h : Sound mode lost gone s) (n : ℕ) : Sound mode lost gone { s with postfork := n } := by
  have hnamed : ({ s with postfork := n } : Owner).named = s.named :=
    named_congr rfl rfl rfl rfl rfl fun b => by cases b <;> rfl
  refine ⟨?_, h.killed, fun b hb => ?_, h.calm.congr rfl rfl rfl rfl⟩
  · rw [hnamed]
    exact h.accounts
  · have hpolls := h.polls b hb
    cases b <;> exact hpolls

theorem infyFork_same (s : Owner) (k : Option ℕ) :
    (s.infyFork k).backend = s.backend ∧ (s.infyFork k).killed = s.killed := by
  unfold infyFork
  split
  · exact ⟨rfl, rfl⟩
  · exact ⟨rfl, rfl⟩

theorem timerfdFork_same (s : Owner) (k : Option ℕ) :
    (s.timerfdFork k).backend = s.backend ∧ (s.timerfdFork k).killed = s.killed := by
  unfold timerfdFork evtimerfdInit
  split
  · split
    · exact ⟨rfl, rfl⟩
    · exact ⟨rfl, rfl⟩
  · exact ⟨rfl, rfl⟩

theorem evpipeInit_killed (s : Owner) (k : Piped) : (s.evpipeInit k).killed = s.killed := by
  rw [(piping_evpipeInit s k).1]

theorem evpipeFork_killed (s : Owner) (k : Piped) : (s.evpipeFork k).killed = s.killed := by
  unfold evpipeFork
  split
  · exact evpipeInit_killed _ k
  · rfl

theorem sound_loopFork (h : Sound mode lost gone s) (hb : s.backend ≠ none) (k : ForkAnswers) {r : Owner}
    (hr : s.loopFork k = some r) : Sound mode lost gone r ∧ r.killed = s.killed := by
  unfold loopFork at hr
  obtain ⟨t, ht, rfl⟩ := Option.map_eq_some_iff.mp hr
  obtain ⟨hsound, hbackend, hkilled⟩ := sound_backendFork h k ht
  have hfs := sound_infyFork hsound (hbackend.trans_ne hb) k.fs
  obtain ⟨hfsb, hfsk⟩ := infyFork_same t k.fs
  have hne : (t.infyFork k.fs).backend ≠ none := (hfsb.trans hbackend).trans_ne hb
  generalize t.infyFork k.fs = u at hfs hfsk hne ⊢
  obtain ⟨htb, htk⟩ := timerfdFork_same u k.timerfd
  simp only
  split
  · exact ⟨(sound_evpipeFork (sound_timerfdFork hfs hne k.timerfd) (htb.trans_ne hne) k.pipe).postfork 0,
      (evpipeFork_killed _ k.pipe).trans (htk.trans (hfsk.trans hkilled))⟩
  · exact ⟨hfs.postfork 0, hfsk.trans hkilled⟩

/-- What a fork takes away goes on the ledger. -/
theorem sound_forked (h : Sound mode lost gone s) (hmode : mode ≠ .unforked) (pid : ℕ) (kqueues : Bool) :
    Sound mode (s.forked pid kqueues).ledger.lost gone (s.forked pid kqueues) := by
  have hnamed : (s.forked pid kqueues).named = s.named :=
    named_congr rfl rfl rfl rfl rfl fun b => by cases b <;> rfl
  refine ⟨?_, h.killed, fun b hb => ?_, ?_⟩
  · rw [hnamed]
    unfold forked
    simp only
    split
    · exact h.accounts.take _
    · split
      · exact h.accounts.take _
      · exact h.accounts.1 ▸ h.accounts
  · have hpolls := h.polls b hb
    cases b <;> exact hpolls
  · have hcalm := h.calm
    cases mode with
    | any => trivial
    | kqueueless => exact hcalm
    | unforked => exact absurd rfl hmode

end Owner

end Qev
