/-
# A socket is polled for what is asked of it

Every function of the port changes one `sock_state`, its place in the tree and the queues, and the driver's poll
for it, and leaves the others alone (`Does`). So what holds of a `sock_state` between two steps (`Fits`) is
proved of one address.
-/
import Qev.Lib.Bits
import Qev.Wepoll.Socks

namespace Qev
namespace Wepoll
namespace Socks

open Lib State

/-! ### What holds of a socket -/

/-- How often an address is in the tree and in the queues, and how many of its polls are not fed yet. -/
structure Counts where
  tree : ℕ
  update : ℕ
  deleted : ℕ
  outstanding : ℕ

/-- The driver polls for all that is of interest, or the poll was cancelled and what it completes is awaited. -/
def Polled (k : Sock) : Prop := k.pollStatus = .cancelled ∨ k.pollStatus = .pending ∧ unpolled k = 0

structure Sane (k : Sock) (c : Counts) : Prop where
  tree : c.tree = if k.deletePending then 0 else 1
  update : c.update ≤ c.tree
  deleted : c.deleted = if k.deletePending then 1 else 0
  outstanding : c.outstanding = if k.pollStatus = .idle then 0 else 1
  idle : k.pollStatus = .idle → k.pendingEvents = 0
  asked : k.pollStatus = .pending → k.pollEvents = sockEventsToAfdEvents k.pendingEvents

structure Fits (k : Sock) (c : Counts) : Prop extends Sane k c where
  busy : k.deletePending = true → k.pollStatus ≠ .idle
  polled : k.deletePending = false → c.update = 0 → Polled k

theorem Sane.tree_eq_zero {k : Sock} {c : Counts} (hk : Sane k c) : c.tree = 0 ↔ k.deletePending = true := by
  rw [hk.tree]
  cases k.deletePending with
  | true => exact iff_of_true (if_pos rfl) rfl
  | false => exact iff_of_false one_ne_zero Bool.false_ne_true

/-- A `sock_state` in the tree is not to be deleted. -/
theorem Sane.kept {k : Sock} {c : Counts} (hk : Sane k c) (htree : c.tree ≠ 0) : k.deletePending = false :=
  Bool.eq_false_iff.mpr fun hp => htree (hk.tree_eq_zero.mpr hp)

/-- Nothing is left of a `sock_state` that was freed. -/
def FitsAt : Option Sock → Counts → Prop
  | none, c => c = ⟨0, 0, 0, 0⟩
  | some k, c => Fits k c

/-- A socket stays in the set with what is asked of it, or it was closed. -/
def Stays (closed : Prop) (k : Sock) (h : Option Sock) (c : Counts) : Prop :=
  closed ∧ c.tree = 0 ∨ c.tree ≠ 0 ∧
    ∃ k', h = some k' ∧ k'.socket = k.socket ∧ k'.userEvents = k.userEvents ∧ k'.userData = k.userData

/-- The driver reports that the socket was closed. -/
def Completion.Closed (o : Completion) : Prop := ∃ e, o = .events e ∧ e &&& afdPollLocalClose ≠ 0

namespace State

def counts (s : State) (a : ℕ) : Counts :=
  ⟨s.sockTree.count a, s.sockUpdateQueue.count a, s.sockDeletedQueue.count a,
    s.polls.count a + (s.completions.map Prod.fst).count a⟩

end State

/-- The invariant. -/
structure Sound (s : State) : Prop where
  fits : ∀ a, FitsAt (s.heap a) (s.counts a)
  fault : s.fault = false
  failed : s.failed = false

/-- From `s` to `t` only address `a` has changed; what is there now is `h`, with the counts `c`. -/
structure Does (a : ℕ) (s t : State) (h : Option Sock) (c : Counts) : Prop where
  others : ∀ b, b ≠ a → t.heap b = s.heap b ∧ t.counts b = s.counts b
  heap : t.heap a = h
  counts : t.counts a = c
  fault : t.fault = s.fault
  failed : t.failed = s.failed

variable {s t u : State} {a b : ℕ} {h : Option Sock} {k : Sock} {c : Counts}

theorem Does.refl (a : ℕ) (s : State) : Does a s s (s.heap a) (s.counts a) :=
  ⟨fun _ _ => ⟨rfl, rfl⟩, rfl, rfl, rfl, rfl⟩

theorem Does.sound (hd : Does a s t h c) (hs : Sound s) (hc : FitsAt h c) : Sound t := by
  refine ⟨fun b => ?_, hd.fault.trans hs.fault, hd.failed.trans hs.failed⟩
  rcases eq_or_ne b a with rfl | hne
  · rw [hd.heap, hd.counts]
    exact hc
  · rw [(hd.others b hne).1, (hd.others b hne).2]
    exact hs.fits b

/-- What is asked for a socket: the events, and the data that is reported with them. -/
structure Interest where
  events : BitVec 32
  data : ℕ

/-- What is asked for the socket of a `sock_state` in the tree. -/
def State.entry (s : State) (a : ℕ) : Option (ℕ × Interest) :=
  if a ∈ s.sockTree then (s.heap a).map fun k => (k.socket, ⟨k.userEvents, k.userData⟩) else none

/-- Nothing is asked that was not, but sockets that were closed may have left the set. -/
def Dropped (closed : ℕ → Prop) (s t : State) : Prop := ∀ b, t.entry b = s.entry b ∨ closed b ∧ t.entry b = none

/-- One socket is asked for something, a new one or one in the set. -/
def Sets (a n : ℕ) (i : Interest) (s t : State) : Prop :=
  t.entry a = some (n, i) ∧ (∀ b, b ≠ a → t.entry b = s.entry b) ∧ ∀ m j, s.entry a = some (m, j) → m = n

theorem Dropped.refl (closed : ℕ → Prop) (s : State) : Dropped closed s s := fun _ => .inl rfl

theorem Dropped.trans {closed : ℕ → Prop} (h : Dropped closed s t) (h' : Dropped closed t u) : Dropped closed s u := by
  intro b
  rcases h' b with hb | hb
  · rw [hb]
    exact h b
  · exact .inr hb

theorem Dropped.mono {closed closed' : ℕ → Prop} (h : Dropped closed s t) (hc : ∀ b, closed b → closed' b) :
    Dropped closed' s t :=
  fun b => (h b).imp_right fun hb => ⟨hc b hb.1, hb.2⟩

theorem mem_sockTree : a ∈ s.sockTree ↔ (s.counts a).tree ≠ 0 := by
  rw [← Nat.pos_iff_ne_zero]
  exact List.count_pos_iff.symm

theorem Does.entry_of_ne (hd : Does a s t h c) (hb : b ≠ a) : t.entry b = s.entry b := by
  obtain ⟨hheap, hcounts⟩ := hd.others b hb
  unfold State.entry
  simp only [mem_sockTree, hheap, hcounts]

theorem Does.entry_self (hd : Does a s t h c) : t.entry a =
    if c.tree ≠ 0 then h.map fun k => (k.socket, ⟨k.userEvents, k.userData⟩) else none := by
  unfold State.entry
  simp only [mem_sockTree, hd.heap, hd.counts]

theorem entry_of_mem (ha : a ∈ s.sockTree) (hk : s.heap a = some k) :
    s.entry a = some (k.socket, ⟨k.userEvents, k.userData⟩) := by
  unfold State.entry
  rw [if_pos ha, hk, Option.map_some]

theorem entry_of_not_mem (ha : a ∉ s.sockTree) : s.entry a = none := if_neg ha

theorem Does.sets (hd : Does a s t (some k) c) (hc : c.tree ≠ 0)
    (hold : ∀ m j, s.entry a = some (m, j) → m = k.socket) : Sets a k.socket ⟨k.userEvents, k.userData⟩ s t :=
  ⟨hd.entry_self.trans (if_pos hc), fun _ hb => hd.entry_of_ne hb, hold⟩

theorem Does.entry_none (hd : Does a s t h c) (hc : c.tree = 0) : t.entry a = none :=
  hd.entry_self.trans (if_neg (not_not.mpr hc))

/-- Nothing changes for a `sock_state` that was not in the set. -/
theorem Does.gone {closed : ℕ → Prop} (hd : Does a s t h c) (ha : a ∉ s.sockTree) (hc : c.tree = 0) :
    Dropped closed s t := by
  intro b
  rcases eq_or_ne b a with rfl | hne
  · exact .inl ((hd.entry_none hc).trans (entry_of_not_mem ha).symm)
  · exact .inl (hd.entry_of_ne hne)

theorem Does.dropped {closed : ℕ → Prop} (hd : Does a s t h c) (hk : s.heap a = some k) (ha : a ∈ s.sockTree)
    (hst : Stays (closed a) k h c) : Dropped closed s t := by
  intro b
  rcases eq_or_ne b a with rfl | hne
  · rcases hst with ⟨hclosed, hzero⟩ | ⟨hc, k', rfl, hsocket, hevents, hdata⟩
    · exact .inr ⟨hclosed, hd.entry_none hzero⟩
    · refine .inl ?_
      rw [hd.entry_self, if_pos hc, entry_of_mem ha hk, Option.map_some, hsocket, hevents, hdata]
  · exact .inl (hd.entry_of_ne hne)

/-! ### What the functions on one socket do -/

theorem Does.put (hd : Does a s t h c) (k : Sock) : Does a s (t.put a k) (some k) c := by
  refine ⟨fun b hb => ⟨?_, (hd.others b hb).2⟩, Function.update_self .., hd.counts, hd.fault, hd.failed⟩
  exact (Function.update_of_ne hb _ _).trans (hd.others b hb).1

theorem Does.free (hd : Does a s t h c) : Does a s { t with heap := Function.update t.heap a none } none c := by
  refine ⟨fun b hb => ⟨?_, (hd.others b hb).2⟩, Function.update_self .., hd.counts, hd.fault, hd.failed⟩
  exact (Function.update_of_ne hb _ _).trans (hd.others b hb).1

theorem Does.check (hd : Does a s t h c) {b : Bool} (hb : b = true) : Does a s (t.check b) h c := by
  have hsame : t.check b = t := by
    unfold State.check
    rw [hb, Bool.not_true, Bool.or_false]
  rw [hsame]
  exact hd

theorem Does.unregister (hd : Does a s t h c) :
    Does a s (t.portUnregisterSocket a) h { c with tree := c.tree - 1 } := by
  refine ⟨fun b hb => ⟨(hd.others b hb).1, ?_⟩, hd.heap, ?_, hd.fault, hd.failed⟩
  · rw [← (hd.others b hb).2]
    simp only [State.counts, portUnregisterSocket, List.count_erase_of_ne hb]
  · rw [← hd.counts]
    simp only [State.counts, portUnregisterSocket, List.count_erase_self]

theorem Does.submit (hd : Does a s t h c) :
    Does a s { t with polls := a :: t.polls } h { c with outstanding := c.outstanding + 1 } := by
  refine ⟨fun b hb => ⟨(hd.others b hb).1, ?_⟩, hd.heap, ?_, hd.fault, hd.failed⟩
  · rw [← (hd.others b hb).2]
    simp only [State.counts, List.count_cons_of_ne hb.symm]
  · rw [← hd.counts]
    simp only [State.counts, List.count_cons_self]
    congr 1
    omega

theorem isEnqueued_iff : s.isEnqueued a = true ↔ 0 < (s.counts a).update + (s.counts a).deleted := by
  simp only [isEnqueued, Bool.or_eq_true, List.contains_iff_mem, ← List.count_pos_iff, State.counts]
  omega

theorem Does.log (hd : Does a s t h c) (x : ℕ × Submitted) :
    Does a s { t with afdPolls := x :: t.afdPolls } h c :=
  ⟨hd.others, hd.heap, hd.counts, hd.fault, hd.failed⟩

theorem Does.queueRemove (hd : Does a s t h c) :
    Does a s (t.queueRemove a) h { c with update := c.update - 1, deleted := c.deleted - 1 } := by
  refine ⟨fun b hb => ⟨(hd.others b hb).1, ?_⟩, hd.heap, ?_, hd.fault, hd.failed⟩
  · rw [← (hd.others b hb).2]
    simp only [State.counts, State.queueRemove, List.count_erase_of_ne hb]
  · rw [← hd.counts]
    simp only [State.counts, State.queueRemove, List.count_erase_self]

theorem Does.cancel (hd : Does a s t h c) :
    Does a s (t.portCancelSocketUpdate a) h { c with update := c.update - 1, deleted := c.deleted - 1 } := by
  unfold portCancelSocketUpdate dequeue
  split
  · rename_i hno
    have hzero : ¬ 0 < (t.counts a).update + (t.counts a).deleted := by
      rw [← isEnqueued_iff]
      simpa using hno
    rw [hd.counts] at hzero
    have hsame : ({ c with update := c.update - 1, deleted := c.deleted - 1 } : Counts) = c := by
      rw [Nat.sub_eq_zero_of_le (by omega), Nat.sub_eq_zero_of_le (by omega)]
      cases c
      simp only at hzero ⊢
      congr 1 <;> omega
    rw [hsame]
    exact hd
  · exact hd.queueRemove

theorem Does.request (hd : Does a s t h c) : Does a s (t.portRequestSocketUpdate a) h
    { c with update := if c.update + c.deleted = 0 then 1 else c.update } := by
  unfold portRequestSocketUpdate
  split
  · rename_i hyes
    rw [isEnqueued_iff, hd.counts] at hyes
    rw [if_neg (by omega)]
    exact hd
  · rename_i hno
    rw [isEnqueued_iff, hd.counts] at hno
    rw [if_pos (by omega)]
    refine ⟨fun b hb => ⟨(hd.others b hb).1, ?_⟩, hd.heap, ?_, hd.fault, hd.failed⟩
    · rw [← (hd.others b hb).2]
      simp [State.counts, List.count_append, hb.symm]
    · have hc := hd.counts
      rw [← hc] at hno ⊢
      simp only [State.counts] at hno ⊢
      simp only [List.count_append, List.count_singleton_self, Counts.mk.injEq, true_and, and_true]
      omega

theorem Does.addDeleted (hd : Does a s t h c) : Does a s (t.portAddDeletedSocket a) h
    { c with deleted := if c.update + c.deleted = 0 then 1 else c.deleted } := by
  unfold portAddDeletedSocket
  split
  · rename_i hyes
    rw [isEnqueued_iff, hd.counts] at hyes
    rw [if_neg (by omega)]
    exact hd
  · rename_i hno
    rw [isEnqueued_iff, hd.counts] at hno
    rw [if_pos (by omega)]
    refine ⟨fun b hb => ⟨(hd.others b hb).1, ?_⟩, hd.heap, ?_, hd.fault, hd.failed⟩
    · rw [← (hd.others b hb).2]
      simp [State.counts, List.count_append, hb.symm]
    · have hc := hd.counts
      rw [← hc] at hno ⊢
      simp only [State.counts] at hno ⊢
      simp only [List.count_append, List.count_singleton_self, Counts.mk.injEq, true_and, and_true]
      omega

theorem Does.cancelPoll (hd : Does a s t (some k) c) (hk : k.pollStatus = .pending) (ok : Bool) :
    Does a s (t.sockCancelPoll a ok).1
        (some (if ok then { k with pollStatus := .cancelled, pendingEvents := 0 } else k)) c ∧
      (t.sockCancelPoll a ok).2 = ok := by
  have hcheck := hd.check (decide_eq_true hk)
  unfold sockCancelPoll
  rw [hd.heap]
  cases ok with
  | false => exact ⟨hcheck, rfl⟩
  | true => exact ⟨hcheck.put _, rfl⟩

/-- The first half of `sock__delete`: the poll is cancelled or not. -/
theorem Does.unregistered (hd : Does a s t (some k) c) (ok : Bool) :
    ∃ k', Does a s (t.sockUnregister a k ok) (some k')
        { c with tree := c.tree - 1, update := c.update - 1, deleted := c.deleted - 1 } ∧
      k'.deletePending = true ∧ (k'.pollStatus = .idle ↔ k.pollStatus = .idle) ∧
      (k'.pollStatus = .idle → k'.pendingEvents = k.pendingEvents) ∧
      (k'.pollStatus = .pending → k'.pollEvents = k.pollEvents ∧ k'.pendingEvents = k.pendingEvents ∧
        k.pollStatus = .pending) := by
  unfold sockUnregister
  by_cases hk : k.pollStatus = .pending
  · have hcancel := ((hd.cancelPoll hk ok).1.cancel).unregister
    simp only [if_pos hk, hcancel.heap]
    cases ok with
    | false =>
      refine ⟨_, hcancel.put _, rfl, ?_, ?_, ?_⟩
      all_goals simp [hk]
    | true =>
      refine ⟨_, hcancel.put _, rfl, ?_, ?_, ?_⟩
      all_goals simp [hk]
  · have hcancel := (hd.cancel).unregister
    simp only [if_neg hk, hcancel.heap]
    exact ⟨_, hcancel.put _, rfl, Iff.rfl, fun _ => rfl, fun hp => absurd hp hk⟩

/-- The second half of `sock__delete`. -/
theorem Does.released (hd : Does a s t (some k) c) {force : Bool} (hf : force = true ∨ k.pollStatus = .idle) :
    Does a s (t.sockRelease a force) none { c with update := c.update - 1, deleted := c.deleted - 1 } := by
  unfold sockRelease
  rw [hd.heap]
  simp only [if_pos hf]
  exact hd.cancel.free

theorem Does.postponed (hd : Does a s t (some k) c) (hk : k.pollStatus ≠ .idle) :
    Does a s (t.sockRelease a false) (some k)
      { c with deleted := if c.update + c.deleted = 0 then 1 else c.deleted } := by
  unfold sockRelease
  rw [hd.heap]
  simp only [Bool.false_eq_true, false_or, if_neg hk]
  exact hd.addDeleted

/-- `sock_delete`. -/
theorem Does.deleted (hd : Does a s t (some k) c) (hk : Sane k c) (ok : Bool) :
    ∃ h' c', Does a s (t.sockDelete a false ok) h' c' ∧ FitsAt h' c' ∧ c'.update = 0 ∧ c'.tree = 0 := by
  obtain ⟨htree, hupdate, hdeleted, houtstanding, hidle, hasked⟩ := hk
  have hdel : t.sockDelete a false ok = if !k.deletePending then (t.sockUnregister a k ok).sockRelease a false
      else t.sockRelease a false := by
    unfold sockDelete
    rw [hd.heap]
  rw [hdel]
  cases hp : k.deletePending with
  | true =>
    rw [hp] at htree hdeleted
    simp only [if_true] at htree hdeleted
    by_cases hi : k.pollStatus = .idle
    · rw [if_pos hi] at houtstanding
      refine ⟨_, _, hd.released (.inr hi), ?_, ?_, htree⟩
      · simp only [FitsAt, Counts.mk.injEq]
        omega
      · simp only
        omega
    · rw [if_neg hi] at houtstanding
      refine ⟨_, _, hd.postponed hi, ⟨⟨?_, ?_, ?_, ?_, hidle, hasked⟩, fun _ => hi, fun hno => ?_⟩, ?_, htree⟩
      · simpa [hp] using htree
      · exact hupdate
      · simp [hp, hdeleted]
      · simpa [hi] using houtstanding
      · rw [hp] at hno
        cases hno
      · simp only
        omega
  | false =>
    rw [hp] at htree hdeleted
    simp only [Bool.false_eq_true, if_false] at htree hdeleted
    obtain ⟨k', hd', hp', hi', hpending, hasked'⟩ := hd.unregistered ok
    by_cases hi : k.pollStatus = .idle
    · rw [if_pos hi] at houtstanding
      refine ⟨_, _, hd'.released (.inr (hi'.mpr hi)), ?_, ?_, ?_⟩
      · simp only [FitsAt, Counts.mk.injEq]
        omega
      · simp only
        omega
      · simp only
        omega
    · rw [if_neg hi] at houtstanding
      have hno : k'.pollStatus ≠ .idle := fun hk' => hi (hi'.mp hk')
      refine ⟨_, _, hd'.postponed hno, ⟨⟨?_, ?_, ?_, ?_, fun hk' => absurd hk' hno, fun hk' => ?_⟩, fun _ => hno,
        fun hno => ?_⟩, ?_, ?_⟩
      · simp only [hp', if_true]
        omega
      · simp only
        omega
      · simp only [hp', if_true]
        rw [if_pos (by omega)]
      · simp only [if_neg hno]
        exact houtstanding
      · obtain ⟨hevents, hpend, hk⟩ := hasked' hk'
        rw [hevents, hpend]
        exact hasked hk
      · rw [hp'] at hno
        cases hno
      · simp only
        omega
      · simp only
        omega

/-- `sock_force_delete`. -/
theorem Does.forced (hd : Does a s t (some k) c) (hk : Fits k c) (ok : Bool) :
    Does a s (t.sockDelete a true ok) none ⟨0, 0, 0, c.outstanding⟩ := by
  obtain ⟨⟨htree, hupdate, hdeleted, -, -, -⟩, -, -⟩ := hk
  have hdel : t.sockDelete a true ok = if !k.deletePending then (t.sockUnregister a k ok).sockRelease a true
      else t.sockRelease a true := by
    unfold sockDelete
    rw [hd.heap]
  rw [hdel]
  cases hp : k.deletePending with
  | true =>
    rw [hp] at htree hdeleted
    simp only [if_true] at htree hdeleted
    have hfree := hd.released (.inl (rfl : true = true))
    have hzero :
        ({ c with update := c.update - 1, deleted := c.deleted - 1 } : Counts) = ⟨0, 0, 0, c.outstanding⟩ := by
      rw [Counts.mk.injEq]
      exact ⟨by omega, by omega, by omega, rfl⟩
    rw [← hzero]
    exact hfree
  | false =>
    rw [hp] at htree hdeleted
    simp only [Bool.false_eq_true, if_false] at htree hdeleted
    obtain ⟨k', hd', -⟩ := hd.unregistered ok
    have hfree := hd'.released (.inl (rfl : true = true))
    have hzero : ({ c with tree := c.tree - 1, update := c.update - 1 - 1, deleted := c.deleted - 1 - 1 } : Counts) =
        ⟨0, 0, 0, c.outstanding⟩ := by
      rw [Counts.mk.injEq]
      exact ⟨by omega, by omega, by omega, rfl⟩
    rw [← hzero]
    exact hfree

/-- Errors and hang-ups are always of interest. -/
theorem unpolled_ne_zero {events : BitVec 32} (hk : k.userEvents = events ||| epollErr ||| epollHup)
    (hp : k.pendingEvents = 0) : unpolled k ≠ 0 := by
  intro hzero
  have hbit := congrArg (fun x : BitVec 32 => x.getLsbD 3) hzero
  simp [unpolled, hk, hp, sockKnownEvents, epollErr, epollHup, epollIn, epollPri, epollOut, epollRdnorm, epollRdband,
    epollWrnorm, epollWrband, epollMsg, epollRdhup] at hbit

/-- `sock_set_event`, also for a new socket. -/
theorem Does.setEvent (hd : Does a s t (some k) c) (hk : Sane k c) (hp : k.deletePending = false)
    (events : BitVec 32) (data : ℕ) :
    ∃ k' c', Does a s (t.sockSetEvent a events data) (some k') c' ∧ Fits k' c' ∧ c'.tree = c.tree ∧
      k'.socket = k.socket ∧ k'.userEvents = events ||| epollErr ||| epollHup ∧ k'.userData = data := by
  obtain ⟨htree, hupdate, hdeleted, houtstanding, hidle, hasked⟩ := hk
  have hnone : c.deleted = 0 := by simpa [hp] using hdeleted
  have hone : c.tree = 1 := by simpa [hp] using htree
  unfold sockSetEvent
  rw [hd.heap]
  simp only
  split
  · refine ⟨_, _, (hd.put _).request, ⟨⟨htree, ?_, hdeleted, houtstanding, hidle, hasked⟩, ?_, fun _ hno => ?_⟩,
      rfl, rfl, rfl, rfl⟩
    · simp only
      split
      · omega
      · exact hupdate
    · simp [hp]
    · simp only at hno
      split at hno
      · omega
      · omega
  · rename_i hpolled
    rw [not_not] at hpolled
    refine ⟨_, _, hd.put _, ⟨⟨htree, hupdate, hdeleted, houtstanding, hidle, hasked⟩, ?_, fun _ _ => ?_⟩,
      rfl, rfl, rfl, rfl⟩
    · simp [hp]
    · cases hst : k.pollStatus with
      | idle => exact absurd hpolled (unpolled_ne_zero rfl (hidle hst))
      | pending => exact .inr ⟨rfl, hpolled⟩
      | cancelled => exact .inl rfl

/-- `sock_update` of a socket in the queue. -/
theorem Does.updated (hd : Does a s t (some k) c) (hk : Fits k c) (hc : c.update ≠ 0) (answer : Answer) :
    ∃ h' c', Does a s (t.sockUpdate a answer).1 h' c' ∧ FitsAt h' c' ∧
      ((t.sockUpdate a answer).2 = true → c'.update = 0) ∧
      Stays (k.pollStatus = .idle ∧ answer.poll = .invalidHandle) k h' c' := by
  have hsane := hk.toSane
  obtain ⟨⟨htree, hupdate, hdeleted, houtstanding, hidle, hasked⟩, hbusy, hpolled⟩ := hk
  have hp : k.deletePending = false := hsane.kept (by omega)
  have hone : c.tree = 1 := by simpa [hp] using htree
  have hin : c.tree ≠ 0 := hone ▸ one_ne_zero
  have hnone : c.deleted = 0 := by simpa [hp] using hdeleted
  have hcheck : Does a s (t.check !k.deletePending) (some k) c := hd.check (by rw [hp]; rfl)
  unfold sockUpdate
  rw [hd.heap]
  simp only
  cases hst : k.pollStatus with
  | pending =>
    simp only
    split
    · rename_i hzero
      refine ⟨_, _, hcheck.cancel, ⟨⟨htree, ?_, ?_, houtstanding, hidle, hasked⟩, hbusy,
        fun _ _ => .inr ⟨hst, hzero⟩⟩, fun _ => ?_, .inr ⟨hin, _, rfl, rfl, rfl, rfl⟩⟩
      · simp only
        omega
      · simp [hp, hnone]
      · simp only
        omega
    · obtain ⟨hcancel, hok⟩ := hcheck.cancelPoll hst answer.cancelled
      cases hans : answer.cancelled with
      | false =>
        rw [hans] at hcancel hok
        simp only [hok, Bool.false_eq_true, if_false]
        exact ⟨_, _, hcancel, ⟨hsane, hbusy, hpolled⟩, False.elim, .inr ⟨hin, _, rfl, rfl, rfl, rfl⟩⟩
      | true =>
        rw [hans] at hcancel hok
        simp only [hok, if_true]
        refine ⟨_, _, hcancel.cancel, ⟨⟨htree, ?_, ?_, ?_, fun _ => rfl, ?_⟩, ?_, fun _ _ => .inl rfl⟩, fun _ => ?_,
          .inr ⟨hin, _, rfl, rfl, rfl, rfl⟩⟩
        · simp only
          omega
        · simp [hp, hnone]
        · simpa [hst] using houtstanding
        · simp
        · simp [hp]
        · simp only
          omega
  | cancelled =>
    simp only
    refine ⟨_, _, hcheck.cancel, ⟨⟨htree, ?_, ?_, houtstanding, hidle, hasked⟩, hbusy, fun _ _ => .inl hst⟩,
      fun _ => ?_, .inr ⟨hin, _, rfl, rfl, rfl, rfl⟩⟩
    · simp only
      omega
    · simp [hp, hnone]
    · simp only
      omega
  | idle =>
    have hzero : c.outstanding = 0 := by simpa [hst] using houtstanding
    simp only
    cases hpoll : answer.poll with
    | ok =>
      simp only
      have hput := (hcheck.log (a, .ok)).put { k with
        pollEvents := sockEventsToAfdEvents k.userEvents, pollStatus := .pending, pendingEvents := k.userEvents }
      refine ⟨_, _, hput.submit.cancel, ⟨⟨htree, ?_, ?_, ?_, ?_, fun _ => rfl⟩, ?_,
        fun _ _ => .inr ⟨rfl, ?_⟩⟩, fun _ => ?_, .inr ⟨hin, _, rfl, rfl, rfl, rfl⟩⟩
      · simp only
        omega
      · simp [hp, hnone]
      · simp [hzero]
      · simp
      · simp [hp]
      · simp only [unpolled]
        rw [BitVec.and_comm k.userEvents, BitVec.and_assoc, BitVec.and_not_self]
        exact BitVec.and_zero
      · simp only
        omega
    | invalidHandle =>
      simp only
      obtain ⟨h', c', hd', hfits, hq, hgone⟩ :=
        ((hcheck.log (a, .invalidHandle)).put
          { k with pollEvents := sockEventsToAfdEvents k.userEvents, pollStatus := .idle }).deleted
          ⟨htree, hupdate, hdeleted, hzero, fun _ => hidle hst, by simp⟩ answer.cancelled
      exact ⟨h', c', hd', hfits, fun _ => hq, .inl ⟨⟨trivial, trivial⟩, hgone⟩⟩
    | error =>
      simp only
      refine ⟨_, _, (hcheck.log (a, .error)).put _, ⟨⟨htree, hupdate, hdeleted, hzero, fun _ => hidle hst, by simp⟩, ?_,
        fun _ hno => absurd hno hc⟩, fun hno => ?_, .inr ⟨hin, _, rfl, rfl, rfl, rfl⟩⟩
      · simp [hp]
      · cases hno

/-- What `sock_feed_event` reports of a socket: events that are asked for, and nothing any more after a one-shot. -/
def Reported (closed : Prop) (k : Sock) (r : Option (BitVec 32 × ℕ)) (h : Option Sock) (c : Counts) : Prop :=
  r = none ∧ (k.deletePending = true ∧ c.tree = 0 ∨ k.deletePending = false ∧ Stays closed k h c) ∨
    ∃ events k', r = some (events, k.userData) ∧ events ≠ 0 ∧ events &&& ~~~k.userEvents = 0 ∧ h = some k' ∧
      k'.socket = k.socket ∧ k'.userData = k.userData ∧
      (k'.userEvents = if k.userEvents &&& epollOneshot ≠ 0 then 0 else k.userEvents) ∧
      k.deletePending = false ∧ c.tree = 1

theorem Does.reported {closed : Prop} (hd : Does a s t (some k) c) (hk : Sane k c) (hp : k.deletePending = false)
    (events : BitVec 32) :
    ∃ h' c', Does a s (t.sockReport a events).1 h' c' ∧ FitsAt h' c' ∧
      Reported closed k (t.sockReport a events).2 h' c' := by
  obtain ⟨htree, hupdate, hdeleted, houtstanding, hidle, hasked⟩ := hk
  have hone : c.tree = 1 := by simpa [hp] using htree
  have hnone : c.deleted = 0 := by simpa [hp] using hdeleted
  have hreq := hd.request
  have hqueued : (if c.update + c.deleted = 0 then 1 else c.update) = 1 := by
    split
    · rfl
    · omega
  have hasked' : events &&& k.userEvents &&& ~~~k.userEvents = 0 := by
    rw [BitVec.and_assoc, BitVec.and_not_self]
    exact BitVec.and_zero
  rw [hqueued] at hreq
  unfold sockReport
  simp only [hreq.heap]
  split
  · exact ⟨_, _, hreq, ⟨⟨htree, hone.ge, hdeleted, houtstanding, hidle, hasked⟩, by simp [hp], by simp⟩,
      .inl ⟨rfl, .inr ⟨hp, .inr ⟨hone.trans_ne one_ne_zero, _, rfl, rfl, rfl, rfl⟩⟩⟩⟩
  · rename_i hsome
    split
    · rename_i honeshot
      exact ⟨_, _, hreq.put _, ⟨⟨htree, hone.ge, hdeleted, houtstanding, hidle, hasked⟩, by simp [hp], by simp⟩,
        .inr ⟨_, _, rfl, hsome, hasked', rfl, rfl, rfl, (if_pos honeshot).symm, hp, hone⟩⟩
    · rename_i hoften
      exact ⟨_, _, hreq, ⟨⟨htree, hone.ge, hdeleted, houtstanding, hidle, hasked⟩, by simp [hp], by simp⟩,
        .inr ⟨_, _, rfl, hsome, hasked', rfl, rfl, rfl, (if_neg hoften).symm, hp, hone⟩⟩

/-- `sock_feed_event`, when the poll is no longer outstanding. -/
theorem Does.fed (hd : Does a s t (some k) { c with outstanding := c.outstanding - 1 }) (hk : Fits k c)
    (hc : c.outstanding ≠ 0) (o : Completion) :
    ∃ h' c', Does a s (t.sockFeedEvent a o).1 h' c' ∧ FitsAt h' c' ∧
      Reported o.Closed k (t.sockFeedEvent a o).2 h' c' := by
  obtain ⟨⟨htree, hupdate, hdeleted, houtstanding, hidle, hasked⟩, hbusy, hpolled⟩ := hk
  have hone : c.outstanding = 1 := by
    split at houtstanding
    · exact absurd houtstanding hc
    · exact houtstanding
  have hput := hd.put { k with pollStatus := .idle, pendingEvents := 0 }
  have hsane : Sane { k with pollStatus := .idle, pendingEvents := 0 } { c with outstanding := c.outstanding - 1 } :=
    ⟨htree, hupdate, hdeleted, by simp [hone], fun _ => rfl, by simp⟩
  obtain ⟨h', c', hd', hfits, -, hgone⟩ := hput.deleted hsane true
  unfold sockFeedEvent
  rw [hd.heap]
  simp only
  split
  · rename_i hp
    exact ⟨h', c', hd', hfits, .inl ⟨rfl, .inl ⟨hp, hgone⟩⟩⟩
  · rename_i hno
    have hp : k.deletePending = false := Bool.eq_false_iff.mpr hno
    cases o with
    | cancelled | nothing => exact hput.reported hsane hp 0
    | failed => exact hput.reported hsane hp epollErr
    | events e =>
      simp only
      split
      · rename_i hclosed
        exact ⟨h', c', hd', hfits, .inl ⟨rfl, .inr ⟨hp, .inl ⟨⟨e, rfl, hclosed⟩, hgone⟩⟩⟩⟩
      · exact hput.reported hsane hp _

/-! ### The history -/

@[simp] theorem afdPolls_portRequestSocketUpdate : (s.portRequestSocketUpdate a).afdPolls = s.afdPolls := by
  unfold portRequestSocketUpdate
  split
  · rfl
  · rfl

@[simp] theorem afdPolls_portAddDeletedSocket : (s.portAddDeletedSocket a).afdPolls = s.afdPolls := by
  unfold portAddDeletedSocket
  split
  · rfl
  · rfl

@[simp] theorem afdPolls_dequeue : (s.dequeue a).afdPolls = s.afdPolls := by
  unfold dequeue
  split
  · rfl
  · rfl

@[simp] theorem afdPolls_sockCancelPoll (ok : Bool) : (s.sockCancelPoll a ok).1.afdPolls = s.afdPolls := by
  unfold sockCancelPoll
  split
  · rfl
  · simp only
    split
    · rfl
    · rfl

@[simp] theorem afdPolls_sockUnregister (ok : Bool) : (s.sockUnregister a k ok).afdPolls = s.afdPolls := by
  have hcancel : (if k.pollStatus = .pending then (s.sockCancelPoll a ok).1 else s).afdPolls = s.afdPolls := by
    split
    · exact afdPolls_sockCancelPoll ok
    · rfl
  unfold sockUnregister
  simp only
  split
  · exact afdPolls_dequeue.trans hcancel
  · exact afdPolls_dequeue.trans hcancel

@[simp] theorem afdPolls_sockRelease (force : Bool) : (s.sockRelease a force).afdPolls = s.afdPolls := by
  unfold sockRelease
  split
  · rfl
  · split
    · exact afdPolls_dequeue
    · exact afdPolls_portAddDeletedSocket

@[simp] theorem afdPolls_sockDelete (force ok : Bool) : (s.sockDelete a force ok).afdPolls = s.afdPolls := by
  unfold sockDelete
  split
  · rfl
  · split
    · rw [afdPolls_sockRelease, afdPolls_sockUnregister]
    · exact afdPolls_sockRelease force

@[simp] theorem afdPolls_sockSetEvent (events : BitVec 32) (data : ℕ) :
    (s.sockSetEvent a events data).afdPolls = s.afdPolls := by
  unfold sockSetEvent
  split
  · rfl
  · simp only
    split
    · exact afdPolls_portRequestSocketUpdate
    · rfl

/-- `sock_update` calls `afd_poll` for a socket that the driver does not poll for. -/
theorem afdPolls_sockUpdate (hk : s.heap a = some k) (answer : Answer) : (s.sockUpdate a answer).1.afdPolls =
    if k.pollStatus = .idle then (a, answer.poll) :: s.afdPolls else s.afdPolls := by
  unfold sockUpdate
  rw [hk]
  simp only
  cases k.pollStatus with
  | pending =>
    simp only
    split
    · exact afdPolls_dequeue
    · split
      · exact afdPolls_dequeue.trans (afdPolls_sockCancelPoll _)
      · exact afdPolls_sockCancelPoll _
  | cancelled => exact afdPolls_dequeue
  | idle =>
    simp only [if_true]
    cases answer.poll with
    | ok => exact afdPolls_dequeue
    | invalidHandle => exact afdPolls_sockDelete false answer.cancelled
    | error => rfl

/-- How often `afd_poll` has answered that a socket was closed. -/
def State.refusals (s : State) (a : ℕ) : ℕ := s.afdPolls.count (a, .invalidHandle)

/-- From `s` to `t`, `afd_poll` answers that the socket was closed. -/
def Refused (s t : State) (a : ℕ) : Prop := s.refusals a < t.refusals a

theorem Refused.before_sockSetEvent {events : BitVec 32} {data : ℕ}
    (h : Refused (s.sockSetEvent a events data) t b) : Refused s t b := by
  unfold Refused State.refusals at h ⊢
  rwa [afdPolls_sockSetEvent] at h

/-- `sock_update` appends to the history. -/
theorem refusals_sockUpdate (hk : s.heap a = some k) (answer : Answer) :
    (∀ b, s.refusals b ≤ (s.sockUpdate a answer).1.refusals b) ∧
      (k.pollStatus = .idle → answer.poll = .invalidHandle → Refused s (s.sockUpdate a answer).1 a) := by
  unfold Refused State.refusals
  rw [afdPolls_sockUpdate hk answer]
  constructor
  · intro b
    split
    · exact List.count_le_count_cons
    · exact le_rfl
  · intro hidle hpoll
    rw [if_pos hidle, hpoll, List.count_cons_self]
    exact Nat.lt_succ_self _

/-! ### The steps -/

theorem sound_init : Sound init := ⟨fun _ => rfl, rfl, rfl⟩

theorem Sound.live (hs : Sound s) (hc : s.counts a ≠ ⟨0, 0, 0, 0⟩) : ∃ k, s.heap a = some k ∧ Fits k (s.counts a) := by
  have hfits := hs.fits a
  cases hk : s.heap a with
  | none =>
    rw [hk] at hfits
    exact absurd hfits hc
  | some k =>
    rw [hk] at hfits
    exact ⟨k, rfl, hfits⟩

theorem live_update (hmem : a ∈ s.sockUpdateQueue) : (s.counts a).update ≠ 0 :=
  (List.count_pos_iff.mpr hmem).ne'

/-- `sock_update` of the first socket in the queue takes it off, or fails. -/
theorem Sound.updated (hs : Sound s) (hmem : a ∈ s.sockUpdateQueue) (answer : Answer) :
    Sound (s.sockUpdate a answer).1 ∧
      Dropped (Refused s (s.sockUpdate a answer).1) s (s.sockUpdate a answer).1 ∧
      (∀ b, s.refusals b ≤ (s.sockUpdate a answer).1.refusals b) ∧
      ((s.sockUpdate a answer).2 = true →
        (s.sockUpdate a answer).1.sockUpdateQueue.length + 1 = s.sockUpdateQueue.length) := by
  have hpos := live_update hmem
  obtain ⟨k, hk, hfits⟩ := hs.live (a := a) (fun hzero => hpos (by rw [hzero]))
  have hd : Does a s s (some k) (s.counts a) := hk ▸ Does.refl a s
  obtain ⟨h', c', hd', hfits', hq, hstays⟩ := hd.updated hfits hpos answer
  have htree : a ∈ s.sockTree := mem_sockTree.mpr fun hzero => hpos (Nat.le_zero.mp (hzero ▸ hfits.update))
  obtain ⟨hless, hrefused⟩ := refusals_sockUpdate hk answer
  have hdropped : Dropped (Refused s (s.sockUpdate a answer).1) s (s.sockUpdate a answer).1 :=
    hd'.dropped hk htree (hstays.imp_left (And.imp_left fun h => hrefused h.1 h.2))
  refine ⟨hd'.sound hs hfits', hdropped, hless, fun hok => ?_⟩
  have hperm : (s.sockUpdate a answer).1.sockUpdateQueue.Perm (s.sockUpdateQueue.erase a) := by
    rw [List.perm_iff_count]
    intro b
    rcases eq_or_ne b a with rfl | hne
    · have hzero : ((s.sockUpdate b answer).1.counts b).update = 0 := by
        rw [hd'.counts]
        exact hq hok
      have hone : s.sockUpdateQueue.count b ≤ 1 := by
        have hle := hfits.update
        have htree := hfits.tree
        simp only [State.counts] at hle htree
        split at htree <;> omega
      rw [List.count_erase_self]
      simp only [State.counts] at hzero
      omega
    · rw [List.count_erase_of_ne hne]
      exact congrArg Counts.update (hd'.others b hne).2
  rw [hperm.length_eq, List.length_erase_of_mem hmem]
  exact Nat.sub_add_cancel (List.length_pos_of_mem hmem)

/-- `port__update_events` ends, and where it succeeds, the queue is empty. -/
theorem Sound.updatedAll (hs : Sound s) (answers : ℕ → Answer) {n : ℕ} (hn : s.sockUpdateQueue.length ≤ n) :
    ∃ r, portUpdateEvents answers n s = some r ∧ Sound r.1 ∧ Dropped (Refused s r.1) s r.1 ∧
      (∀ b, s.refusals b ≤ r.1.refusals b) ∧ (r.2 = true → r.1.sockUpdateQueue = []) := by
  induction n generalizing s with
  | zero =>
    have hnil : s.sockUpdateQueue = [] := List.eq_nil_of_length_eq_zero (Nat.le_zero.mp hn)
    unfold portUpdateEvents
    rw [hnil]
    exact ⟨_, rfl, hs, .refl _ s, fun _ => le_rfl, fun _ => hnil⟩
  | succ n ih =>
    unfold portUpdateEvents
    cases hq : s.sockUpdateQueue with
    | nil => exact ⟨_, rfl, hs, .refl _ s, fun _ => le_rfl, fun _ => hq⟩
    | cons a l =>
      have hmem : a ∈ s.sockUpdateQueue := hq ▸ List.mem_cons_self
      obtain ⟨hnext, hdropped, hmore, hless⟩ := hs.updated hmem (answers a)
      simp only
      split
      · rename_i hok
        obtain ⟨r, hr, hsound, hdropped', hmore', hq'⟩ := ih hnext (by have := hless hok; omega)
        refine ⟨r, hr, hsound, ?_, fun b => (hmore b).trans (hmore' b), hq'⟩
        exact (hdropped.mono fun b hb => hb.trans_le (hmore' b)).trans
          (hdropped'.mono fun b hb => (hmore b).trans_lt hb)
      · exact ⟨_, rfl, hnext, hdropped, hmore, fun hok => absurd hok Bool.false_ne_true⟩

theorem Sound.polling (hs : Sound s) (answers : ℕ → Answer) (ht : s.portUpdateEventsIfPolling answers = some t) :
    Sound t ∧ Dropped (Refused s t) s t := by
  unfold portUpdateEventsIfPolling at ht
  split at ht
  · obtain ⟨r, hr, hsound, hdropped, -⟩ := hs.updatedAll answers le_rfl
    rw [hr, Option.map_some] at ht
    cases ht
    exact ⟨hsound, hdropped⟩
  · cases ht
    exact ⟨hs, .refl _ s⟩

theorem Sound.found {socket : ℕ} (hs : Sound s) (hf : s.portFindSocket socket = some a) :
    ∃ k, s.heap a = some k ∧ Fits k (s.counts a) ∧ k.socket = socket ∧ (s.counts a).tree ≠ 0 ∧
      k.deletePending = false := by
  have hpos : 0 < (s.counts a).tree := List.count_pos_iff.mpr (List.mem_of_find?_eq_some hf)
  obtain ⟨k, hk, hfits⟩ := hs.live (a := a) (fun hzero => hpos.ne' (by rw [hzero]))
  have hsocket := List.find?_some hf
  rw [hk] at hsocket
  exact ⟨k, hk, hfits, of_decide_eq_true hsocket, hpos.ne', hfits.toSane.kept hpos.ne'⟩

theorem sound_portCtlAdd {socket data : ℕ} {events : BitVec 32} {answers : ℕ → Answer} (hs : Sound s)
    (ht : s.portCtlAdd (some a) socket events data answers = some t) :
    Sound t ∧ ((∃ b, s.portFindSocket socket = some b) ∧ t = s ∨ s.portFindSocket socket = none ∧
      ∃ u, Sound u ∧ Sets a socket ⟨events ||| epollErr ||| epollHup, data⟩ s u ∧
        Dropped (Refused s t) u t) := by
  simp only [portCtlAdd] at ht
  split at ht
  · cases ht
  · rename_i hfree
    rw [not_not] at hfree
    cases hf : s.portFindSocket socket with
    | some b =>
      rw [hf] at ht
      cases ht
      exact ⟨hs, .inl ⟨⟨b, rfl⟩, rfl⟩⟩
    | none =>
      rw [hf] at ht
      simp only at ht
      have hzero := hs.fits a
      rw [hfree] at hzero
      have hnew : Does a s { s.put a ⟨socket, 0, 0, 0, 0, .idle, false⟩ with sockTree := a :: s.sockTree }
          (some ⟨socket, 0, 0, 0, 0, .idle, false⟩) ⟨1, 0, 0, 0⟩ := by
        refine ⟨fun b hb => ⟨Function.update_of_ne hb _ _, ?_⟩, Function.update_self .., ?_, rfl, rfl⟩
        · simp only [State.counts, State.put, List.count_cons_of_ne hb.symm]
        · injection hzero with htree hupdate hdeleted houtstanding
          simp only [State.counts, State.put, List.count_cons_self, htree, hupdate, hdeleted, houtstanding]
      have hsane : Sane ⟨socket, 0, 0, 0, 0, .idle, false⟩ ⟨1, 0, 0, 0⟩ :=
        ⟨rfl, Nat.zero_le 1, rfl, rfl, fun _ => rfl, by simp⟩
      obtain ⟨k', c', hd, hfits, htree, hsocket, hevents, hdata⟩ := hnew.setEvent hsane rfl events data
      have hu := hd.sound hs hfits
      obtain ⟨hsound, hdropped⟩ := hu.polling answers ht
      have hout : a ∉ s.sockTree := fun ha => mem_sockTree.mp ha (congrArg Counts.tree hzero)
      have hsets := hd.sets (htree ▸ one_ne_zero) fun m j hm => by cases (entry_of_not_mem hout).symm.trans hm
      rw [hsocket, hevents, hdata] at hsets
      exact ⟨hsound, .inr ⟨rfl, _, hu, hsets, hdropped.mono fun _ hb => hb.before_sockSetEvent⟩⟩

theorem sound_portCtlMod {socket data : ℕ} {events : BitVec 32} {answers : ℕ → Answer} (hs : Sound s)
    (ht : s.portCtlMod socket events data answers = some t) :
    Sound t ∧ (s.portFindSocket socket = none ∧ t = s ∨ ∃ a, s.portFindSocket socket = some a ∧
      ∃ u, Sound u ∧ Sets a socket ⟨events ||| epollErr ||| epollHup, data⟩ s u ∧
        Dropped (Refused s t) u t) := by
  unfold portCtlMod at ht
  cases hf : s.portFindSocket socket with
  | none =>
    rw [hf] at ht
    cases ht
    exact ⟨hs, .inl ⟨rfl, rfl⟩⟩
  | some a =>
    rw [hf] at ht
    obtain ⟨k, hk, hfits, hsocket, htree, hp⟩ := hs.found hf
    have hd : Does a s s (some k) (s.counts a) := hk ▸ Does.refl a s
    obtain ⟨k', c', hd', hfits', htree', hsocket', hevents, hdata⟩ := hd.setEvent hfits.toSane hp events data
    have hu := hd'.sound hs hfits'
    obtain ⟨hsound, hdropped⟩ := hu.polling answers ht
    have hsets := hd'.sets (htree' ▸ htree) fun m j hm => by
      rw [entry_of_mem (mem_sockTree.mpr htree) hk] at hm
      cases hm
      exact hsocket'.symm
    rw [hsocket', hsocket, hevents, hdata] at hsets
    exact ⟨hsound, .inr ⟨a, rfl, _, hu, hsets, hdropped.mono fun _ hb => hb.before_sockSetEvent⟩⟩

theorem sound_portCtlDel (hs : Sound s) (socket : ℕ) (cancelled : Bool) :
    Sound (s.portCtlDel socket cancelled) ∧ (s.portFindSocket socket = none ∧ s.portCtlDel socket cancelled = s ∨
      ∃ a, s.portFindSocket socket = some a ∧ (s.portCtlDel socket cancelled).entry a = none ∧
        ∀ b, b ≠ a → (s.portCtlDel socket cancelled).entry b = s.entry b) := by
  unfold portCtlDel
  cases hf : s.portFindSocket socket with
  | none => exact ⟨hs, .inl ⟨rfl, rfl⟩⟩
  | some a =>
    obtain ⟨k, hk, hfits, -, htree, -⟩ := hs.found hf
    have hd : Does a s s (some k) (s.counts a) := hk ▸ Does.refl a s
    obtain ⟨h', c', hd', hfits', -, hgone⟩ := hd.deleted hfits.toSane cancelled
    exact ⟨hd'.sound hs hfits', .inr ⟨a, rfl, hd'.entry_none hgone, fun _ hb => hd'.entry_of_ne hb⟩⟩

theorem sound_portPoll {answers : ℕ → Answer} (hs : Sound s) (ht : s.portPoll answers = some t) :
    Sound t ∧ Dropped (Refused s t) s t := by
  obtain ⟨r, hr, hsound, hdropped, -⟩ := hs.updatedAll answers le_rfl
  unfold portPoll at ht
  rw [hr, Option.map_some] at ht
  cases ht
  split
  · exact ⟨⟨hsound.fits, hsound.fault, hsound.failed⟩, hdropped⟩
  · exact ⟨hsound, hdropped⟩

theorem sound_complete {c : Completion} (hs : Sound s) (ht : s.complete a c = some t) :
    Sound t ∧ ∀ b, t.entry b = s.entry b := by
  unfold complete at ht
  split at ht
  · rename_i hmem
    cases ht
    refine ⟨⟨fun b => ?_, hs.fault, hs.failed⟩, fun _ => rfl⟩
    have hpos := List.count_pos_iff.mpr hmem
    have hcounts : ({ s with polls := s.polls.erase a, completions := s.completions ++ [(a, c)] } : State).counts b =
        s.counts b := by
      simp only [State.counts, List.map_append, List.count_append, List.map_cons, List.map_nil, Counts.mk.injEq,
        true_and]
      rcases eq_or_ne b a with rfl | hne
      · rw [List.count_erase_self, List.count_singleton_self]
        omega
      · rw [List.count_erase_of_ne hne, List.count_singleton, if_neg (by simpa using hne.symm)]
        omega
    rw [hcounts]
    exact hs.fits b
  · cases ht

/-- The completion that is fed is of a `sock_state`, and a report is of a socket in the set. -/
theorem sound_feed {i : ℕ} (hs : Sound s) (ht : s.feed i = some t) :
    Sound t ∧ ∃ a o k, s.completions[i]? = some (a, o) ∧ s.heap a = some k ∧ (
      ({ s with completions := s.completions.eraseIdx i }.sockFeedEvent a o).2 = none ∧
        Dropped (fun b => b = a ∧ o.Closed) s t ∨
      ∃ events, ({ s with completions := s.completions.eraseIdx i }.sockFeedEvent a o).2 = some (events, k.userData) ∧
        events ≠ 0 ∧ events &&& ~~~k.userEvents = 0 ∧ a ∈ s.sockTree ∧
        Sets a k.socket ⟨if k.userEvents &&& epollOneshot ≠ 0 then 0 else k.userEvents, k.userData⟩ s t) := by
  unfold feed at ht
  cases hi : s.completions[i]? with
  | none =>
    rw [hi] at ht
    cases ht
  | some x =>
    obtain ⟨a, o⟩ := x
    rw [hi] at ht
    cases ht
    have hperm : s.completions.Perm ((a, o) :: s.completions.eraseIdx i) := by
      obtain ⟨hlt, hget⟩ := List.getElem?_eq_some_iff.mp hi
      rw [← hget]
      exact (List.getElem_cons_eraseIdx_perm hlt).symm
    have hcount : ∀ b, (s.completions.map Prod.fst).count b =
        (a :: (s.completions.eraseIdx i).map Prod.fst).count b := fun b => (hperm.map Prod.fst).count_eq b
    have hpos : (s.counts a).outstanding ≠ 0 := by
      have ha := hcount a
      rw [List.count_cons_self] at ha
      simp only [State.counts]
      omega
    obtain ⟨k, hk, hfits⟩ := hs.live (a := a) (fun hzero => hpos (by rw [hzero]))
    have hd : Does a s { s with completions := s.completions.eraseIdx i } (some k)
        { s.counts a with outstanding := (s.counts a).outstanding - 1 } := by
      refine ⟨fun b hb => ⟨rfl, ?_⟩, hk, ?_, rfl, rfl⟩
      · have hb' := hcount b
        rw [List.count_cons_of_ne hb.symm] at hb'
        simp only [State.counts, hb']
      · have ha := hcount a
        rw [List.count_cons_self] at ha
        simp only [State.counts, Counts.mk.injEq, true_and]
        omega
    obtain ⟨h', c', hd', hfits', hreport⟩ := hd.fed hfits hpos o
    refine ⟨hd'.sound hs hfits', a, o, k, rfl, hk, ?_⟩
    rcases hreport with
      ⟨hnone, ⟨hp, hgone⟩ | ⟨hp, hstays⟩⟩ | ⟨events, k', hsome, hne, hasked, rfl, hsocket, hdata, hevents, hp, hone⟩
    · have htree : a ∉ s.sockTree := fun ha => mem_sockTree.mp ha (hfits.toSane.tree_eq_zero.mpr hp)
      exact .inl ⟨hnone, hd'.gone htree hgone⟩
    · have htree : a ∈ s.sockTree := mem_sockTree.mpr fun hzero =>
        Bool.false_ne_true (hp.symm.trans (hfits.toSane.tree_eq_zero.mp hzero))
      exact .inl ⟨hnone, hd'.dropped hk htree (hstays.imp_left (And.imp_left fun h => ⟨rfl, h⟩))⟩
    · have htree : a ∈ s.sockTree := mem_sockTree.mpr fun hzero =>
        Bool.false_ne_true (hp.symm.trans (hfits.toSane.tree_eq_zero.mp hzero))
      have hsets := hd'.sets (hone ▸ one_ne_zero) fun m j hm => by
        rw [entry_of_mem htree hk] at hm
        cases hm
        exact hsocket.symm
      rw [hsocket, hdata, hevents] at hsets
      exact .inr ⟨events, hsome, hne, hasked, htree, hsets⟩

theorem sound_step {act : Act} (hs : Sound s) (ht : s.step act = some t) : Sound t := by
  cases act with
  | ctlAdd memory socket events data answers =>
    cases memory with
    | none =>
      cases ht
      exact hs
    | some a => exact (sound_portCtlAdd hs ht).1
  | ctlMod socket events data answers => exact (sound_portCtlMod hs ht).1
  | ctlDel socket cancelled =>
    cases ht
    exact (sound_portCtlDel hs socket cancelled).1
  | poll answers => exact (sound_portPoll hs ht).1
  | complete a c => exact (sound_complete hs ht).1
  | leave =>
    simp only [step] at ht
    split at ht
    · cases ht
      exact ⟨hs.fits, hs.fault, hs.failed⟩
    · cases ht
  | feed i => exact (sound_feed hs ht).1
  | update answers => exact (hs.polling answers ht).1

theorem sound_run {acts : List Act} (hrun : Runs init acts s) : Sound s :=
  Run.invariant (fun _ _ _ hs ht => sound_step hs ht) hrun sound_init

/-! ### The end of a port -/

/-- As `Sound`, but what the driver still polls for may have been freed. -/
structure Closing (s : State) : Prop where
  gone : ∀ a, s.heap a = none → ∃ n, s.counts a = ⟨0, 0, 0, n⟩
  fits : ∀ a k, s.heap a = some k → Fits k (s.counts a)
  fault : s.fault = false
  failed : s.failed = false

theorem Sound.closing (hs : Sound s) : Closing s := by
  refine ⟨fun a ha => ?_, fun a k hk => ?_, hs.fault, hs.failed⟩
  · have hfits := hs.fits a
    rw [ha] at hfits
    exact ⟨0, hfits⟩
  · have hfits := hs.fits a
    rwa [hk] at hfits

theorem Closing.forced (hs : Closing s) (hk : s.heap a = some k) (ok : Bool) :
    Does a s (s.sockDelete a true ok) none ⟨0, 0, 0, (s.counts a).outstanding⟩ ∧ Closing (s.sockDelete a true ok) := by
  have hd : Does a s s (some k) (s.counts a) := hk ▸ Does.refl a s
  have hforced := hd.forced (hs.fits a k hk) ok
  refine ⟨hforced, fun b hb => ?_, fun b k' hb => ?_, hforced.fault.trans hs.fault, hforced.failed.trans hs.failed⟩
  · rcases eq_or_ne b a with rfl | hne
    · exact ⟨_, hforced.counts⟩
    · rw [(hforced.others b hne).1] at hb
      rw [(hforced.others b hne).2]
      exact hs.gone b hb
  · rcases eq_or_ne b a with rfl | hne
    · rw [hforced.heap] at hb
      cases hb
    · rw [(hforced.others b hne).1] at hb
      rw [(hforced.others b hne).2]
      exact hs.fits b k' hb

/-- The loops of `port_delete`: `l` is the tree or a queue, `f` how often an address is in it. -/
theorem Closing.forceDelete {l : State → List ℕ} {f : Counts → ℕ} (hl : ∀ s a, (l s).count a = f (s.counts a))
    (hone : ∀ k c, Fits k c → f c ≤ 1) (hnone : ∀ n, f ⟨0, 0, 0, n⟩ = 0) (ok : ℕ → Bool) {n : ℕ} (hs : Closing s)
    (hn : (l s).length ≤ n) :
    Closing (State.forceDelete l ok n s) ∧ l (State.forceDelete l ok n s) = [] ∧
      ∀ b, (State.forceDelete l ok n s).counts b = s.counts b ∨
        ∃ m, (State.forceDelete l ok n s).counts b = ⟨0, 0, 0, m⟩ := by
  induction n generalizing s with
  | zero => exact ⟨hs, List.eq_nil_of_length_eq_zero (Nat.le_zero.mp hn), fun _ => .inl rfl⟩
  | succ n ih =>
    unfold State.forceDelete
    cases hq : l s with
    | nil => exact ⟨hs, hq, fun _ => .inl rfl⟩
    | cons a rest =>
      have hcount : f (s.counts a) ≠ 0 := by
        rw [← hl, hq, List.count_cons_self]
        exact Nat.succ_ne_zero _
      obtain ⟨k, hk⟩ : ∃ k, s.heap a = some k := by
        refine Option.ne_none_iff_exists'.mp fun hno => ?_
        obtain ⟨m, hm⟩ := hs.gone a hno
        rw [hm, hnone] at hcount
        exact hcount rfl
      obtain ⟨hforced, hnext⟩ := hs.forced hk (ok a)
      have hperm : (l (s.sockDelete a true (ok a))).Perm rest := by
        rw [List.perm_iff_count]
        intro b
        rcases eq_or_ne b a with rfl | hne
        · have hle := hone k _ (hs.fits b k hk)
          rw [← hl, hq, List.count_cons_self] at hle
          rw [hl, hforced.counts, hnone]
          omega
        · have hsame := hl s b
          rw [hq, List.count_cons_of_ne hne.symm] at hsame
          rw [hl, (hforced.others b hne).2, hsame]
      have hless : (l (s.sockDelete a true (ok a))).length ≤ n := by
        rw [hq, List.length_cons] at hn
        rw [hperm.length_eq]
        omega
      obtain ⟨hclosing, hempty, hcounts⟩ := ih hnext hless
      refine ⟨hclosing, hempty, fun b => ?_⟩
      rcases hcounts b with hb | hb
      · rcases eq_or_ne b a with rfl | hne
        · exact .inr ⟨_, hb.trans hforced.counts⟩
        · exact .inl (hb.trans (hforced.others b hne).2)
      · exact .inr hb

/-- `port_delete` frees every `sock_state`, and once. -/
theorem Sound.portDelete (hs : Sound s) (ok : ℕ → Bool) :
    (s.portDelete ok).fault = false ∧ (s.portDelete ok).failed = false ∧ ∀ a, (s.portDelete ok).heap a = none := by
  obtain ⟨htree, hnil, -⟩ := hs.closing.forceDelete (l := sockTree) (f := Counts.tree) (fun _ _ => rfl)
    (fun k c hc => by rw [hc.tree]; split <;> omega) (fun _ => rfl) ok le_rfl
  obtain ⟨hall, hnil', hcounts⟩ := htree.forceDelete (l := sockDeletedQueue) (f := Counts.deleted) (fun _ _ => rfl)
    (fun k c hc => by rw [hc.deleted]; split <;> omega) (fun _ => rfl) ok le_rfl
  unfold State.portDelete
  simp only
  generalize State.forceDelete sockTree ok s.sockTree.length s = t at *
  generalize State.forceDelete sockDeletedQueue ok t.sockDeletedQueue.length t = u at *
  have hzero : ∀ a, (u.counts a).tree = 0 := by
    intro a
    rcases hcounts a with ha | ⟨m, ha⟩
    · rw [ha]
      simp [State.counts, hnil]
    · rw [ha]
  have hfree : ∀ a, u.heap a = none := by
    intro a
    rw [Option.eq_none_iff_forall_ne_some]
    intro k hk
    have hfits := hall.fits a k hk
    have hp : k.deletePending = true := hfits.toSane.tree_eq_zero.mp (hzero a)
    have hdeleted := hfits.deleted
    rw [hp, if_pos rfl] at hdeleted
    have hdel : (u.counts a).deleted = 0 := by simp [State.counts, hnil']
    omega
  have hqueue : u.sockUpdateQueue = [] := by
    refine List.eq_nil_iff_forall_not_mem.mpr fun a ha => ?_
    obtain ⟨m, hm⟩ := hall.gone a (hfree a)
    exact live_update ha (by rw [hm])
  refine ⟨hall.fault, ?_, hfree⟩
  simp [State.check, hall.failed, hqueue]

/-! ### What is polled for -/

/-- More events of interest are more events of the driver. -/
theorem sockEventsToAfdEvents_mono {events events' : BitVec 32} (h : events &&& sockKnownEvents &&& ~~~events' = 0) :
    sockEventsToAfdEvents events &&& ~~~sockEventsToAfdEvents events' = 0 := by
  have hbits : ∀ m : BitVec 32, m &&& ~~~sockKnownEvents = 0 → events &&& m ≠ 0 → events' &&& m ≠ 0 :=
    fun m hm => and_ne_zero_of_and_not h hm
  unfold sockEventsToAfdEvents
  refine and_not_or (and_not_or (and_not_or (and_not_or (and_not_or (and_not_or
    (BitVec.and_not_self _) ?_) ?_) ?_) ?_) ?_) ?_
  all_goals exact and_not_ite (hbits _ (by decide)) _

/-- Threads add sockets to a port, change and delete them and wait, and the driver completes polls, in any order.
No memory is used that is not a `sock_state`, and no assertion on these and their queues fails; the driver polls for
exactly the `sock_state`s that say so, once each, and none of them has been freed. A socket in the set is in the update
queue, or polled for all the events of interest, or waits for the end of a poll that was cancelled.
`port__update_events` ends, with an empty queue if it succeeds; `port_delete` frees everything. -/
theorem socks_polled {acts : List Act} (hrun : Runs init acts s) :
    s.fault = false ∧ s.failed = false ∧
      (∀ a, s.heap a = none → a ∉ s.polls ∧ a ∉ s.completions.map Prod.fst) ∧
      (∀ a k, s.heap a = some k →
        s.polls.count a + (s.completions.map Prod.fst).count a = if k.pollStatus = .idle then 0 else 1) ∧
      (∀ a ∈ s.sockTree, ∃ k, s.heap a = some k ∧ (a ∈ s.sockUpdateQueue ∨ k.pollStatus = .cancelled ∨
        k.pollStatus = .pending ∧ sockEventsToAfdEvents k.userEvents &&& ~~~k.pollEvents = 0)) ∧
      (∀ answers, ∃ r, portUpdateEvents answers s.sockUpdateQueue.length s = some r ∧
        (r.2 = true → r.1.sockUpdateQueue = [])) ∧
      ∀ ok, (s.portDelete ok).fault = false ∧ (s.portDelete ok).failed = false ∧
        ∀ a, (s.portDelete ok).heap a = none := by
  have hs := sound_run hrun
  refine ⟨hs.fault, hs.failed, fun a ha => ?_, fun a k hk => ?_, fun a ha => ?_, fun answers => ?_, hs.portDelete⟩
  · have hfits := hs.fits a
    rw [ha] at hfits
    injection hfits with _ _ _ hzero
    rw [Nat.add_eq_zero_iff] at hzero
    exact ⟨List.count_eq_zero.mp hzero.1, List.count_eq_zero.mp hzero.2⟩
  · have hfits := hs.fits a
    rw [hk] at hfits
    exact hfits.outstanding
  · have hpos : 0 < (s.counts a).tree := List.count_pos_iff.mpr ha
    obtain ⟨k, hk, hfits⟩ := hs.live (a := a) (fun hzero => hpos.ne' (by rw [hzero]))
    have hp : k.deletePending = false := hfits.toSane.kept hpos.ne'
    refine ⟨k, hk, ?_⟩
    by_cases hq : a ∈ s.sockUpdateQueue
    · exact .inl hq
    · rcases hfits.polled hp (List.count_eq_zero.mpr hq) with hcancelled | ⟨hpending, hzero⟩
      · exact .inr (.inl hcancelled)
      · rw [hfits.asked hpending]
        exact .inr (.inr ⟨hpending, sockEventsToAfdEvents_mono hzero⟩)
  · obtain ⟨r, hr, -, -, -, hq⟩ := hs.updatedAll answers le_rfl
    exact ⟨r, hr, hq⟩

/-- A socket is added, and a thread waits. -/
def waiting : List Act :=
  [.ctlAdd (some 1) 9 epollIn 5 fun _ => ⟨.ok, true⟩, .poll fun _ => ⟨.ok, true⟩]

/-- While the driver polls, other events are asked for one socket, and another one is deleted and added again; the poll
for its first `sock_state` ends late, and the poll that was cancelled is still out. -/
def overtaken : List Act :=
  waiting ++ [.ctlAdd (some 2) 8 epollIn 6 fun _ => ⟨.ok, true⟩, .ctlMod 9 epollOut 7 fun _ => ⟨.ok, true⟩,
    .ctlDel 8 false, .ctlAdd (some 3) 8 epollIn 6 fun _ => ⟨.ok, true⟩, .complete 2 (.events afdPollReceive), .feed 0]

theorem socks_polled_overtaken : ∃ s, Runs init overtaken s ∧ s.sockTree = [3, 1] ∧
    (s.heap 1).map Sock.pollStatus = some .cancelled ∧ s.fault = false ∧ s.failed = false ∧
    (2 ∉ s.polls ∧ 2 ∉ s.completions.map Prod.fst) ∧
    (∀ a ∈ [3, 1], ∃ k, s.heap a = some k ∧ (a ∈ s.sockUpdateQueue ∨ k.pollStatus = .cancelled ∨
      k.pollStatus = .pending ∧ sockEventsToAfdEvents k.userEvents &&& ~~~k.pollEvents = 0)) ∧
    (s.portDelete fun _ => true).failed = false := by
  have hend : (execFrom step init overtaken).map
      (fun s => (s.sockTree, (s.heap 1).map Sock.pollStatus, (s.heap 2).isNone)) =
        some ([3, 1], some .cancelled, true) := by decide +kernel
  obtain ⟨s, hs, hend⟩ := Option.map_eq_some_iff.mp hend
  obtain ⟨htree, hrest⟩ := Prod.mk.inj hend
  obtain ⟨hcancelled, hfree⟩ := Prod.mk.inj hrest
  have hrun : Runs init overtaken s := Run.iff_execFrom.mpr hs
  obtain ⟨hfault, hfailed, hgone, -, hpolled, -, hdelete⟩ := socks_polled hrun
  exact ⟨s, hrun, htree, hcancelled, hfault, hfailed, hgone 2 (Option.isNone_iff_eq_none.mp hfree),
    fun a ha => hpolled a (htree ▸ ha), (hdelete _).2.1⟩

end Socks
end Wepoll
end Qev
