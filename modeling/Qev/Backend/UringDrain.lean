/-
# Completed polls

`iouring_cq_drain` takes completions off the completion ring, up to a budget, and answers
each by its tag and its result. A poll is one-shot, so an fd whose poll has completed has
to be queued for another one (`Rearmed`), or its watchers stopped and told of an error
(`Killed`). The kernel may post completions before every reading of the tail; what it has
posted and what was taken are history variables.

The ring hands every completion over once and in order, whatever the budget cuts off. A
positive result without an event `libev` knows, and an error it does not expect, leave the fd
as it was: its watchers hear nothing any more (`completed_polls`).
-/
import Qev.Backend.Placement
import Qev.Backend.Uring
import Qev.Lib.Bits
import Qev.Loop.Collect

namespace Qev

open Lib

namespace Uring

/-! ### The completions -/

/-- A `struct io_uring_cqe`. -/
structure IoUringCqe where
  userData : BitVec 64
  res : BitVec 32
  deriving DecidableEq

def pollin : BitVec 32 := 0x001

def pollout : BitVec 32 := 0x004

def pollerr : BitVec 32 := 0x008

def pollhup : BitVec 32 := 0x010

def pollrdhup : BitVec 32 := 0x2000

def ebadf : ℤ := 9

def ecanceled : ℤ := 125

def eintr : ℤ := 4

def enoent : ℤ := 2

/-- `USERDATA_REMOVE`. -/
def userdataRemove : BitVec 64 := -2

/-- How `iouring_cq_drain` tells results apart. It goes on where a `syserr` callback returns to. -/
def result (res : BitVec 32) : Res :=
  if res.toInt ≤ 0 then
    if res.toInt = -ebadf then .ebadf
    else if res.toInt = 0 ∨ res.toInt = -ecanceled ∨ res.toInt = -eintr ∨ res.toInt = -enoent then .ended
    else .error
  else .events res

/-- The tag of a completion is the fd and its generation. -/
def IoUringCqe.decode (cqe : IoUringCqe) : Cqe :=
  if cqe.userData = userdataRemove then .removed
  else
    let fd := cqe.userData.setWidth 32
    if fd.toInt < 0 then .removed
    else .poll fd.toNat ((cqe.userData >>> 32).setWidth 32) (result cqe.res)

/-- A result that says the poll has ended or the fd is gone, or one with an event. -/
def Recognised (res : BitVec 32) : Prop :=
  res.toInt = -ebadf ∨ res.toInt = 0 ∨ res.toInt = -ecanceled ∨ res.toInt = -eintr ∨ res.toInt = -enoent ∨
    0 < res.toInt ∧ res &&& (pollin ||| pollrdhup ||| pollout ||| pollerr ||| pollhup) ≠ 0

instance (res : BitVec 32) : Decidable (Recognised res) := inferInstanceAs (Decidable (_ ∨ _))

/-- The results `iouring_cq_drain` does something for. -/
def Res.Answered : Res → Prop
  | .events bits => Loop.got bits ≠ 0
  | .ended => True
  | .ebadf => True
  | .error => False

theorem got_ne_zero (bits : BitVec 32) :
    Loop.got bits ≠ 0 ↔ bits &&& (pollin ||| pollrdhup ||| pollout ||| pollerr ||| pollhup) ≠ 0 := by
  have hmask : pollin ||| pollrdhup ||| pollout ||| pollerr ||| pollhup =
      (Epoll.epollout ||| Epoll.epollerr ||| Epoll.epollhup) |||
        (Epoll.epollin ||| Epoll.epollerr ||| Epoll.epollhup ||| Epoll.epollrdhup) := by decide
  unfold Loop.got
  rw [or_ne_zero, ite_ne_zero (by decide), ite_ne_zero (by decide), hmask, ← and_or_ne_zero]

theorem answered_result (res : BitVec 32) : (result res).Answered ↔ Recognised res := by
  unfold result Recognised
  split
  · rename_i hle
    have hneg : ¬0 < res.toInt := not_lt.mpr hle
    split
    · rename_i hbad
      exact iff_of_true trivial (.inl hbad)
    · rename_i hbad
      split
      · rename_i hend
        exact iff_of_true trivial (by tauto)
      · rename_i hend
        exact iff_of_false (fun h => h) (by tauto)
  · rename_i hpos
    have hlt : 0 < res.toInt := not_le.mp hpos
    refine (got_ne_zero res).trans ?_
    have hcodes : res.toInt ≠ -ebadf ∧ res.toInt ≠ -ecanceled ∧ res.toInt ≠ -eintr ∧ res.toInt ≠ -enoent := by
      unfold ebadf ecanceled eintr enoent
      omega
    have hzero : res.toInt ≠ 0 := hlt.ne'
    tauto

/-! ### The ring -/

/-- The completion ring, what the kernel has posted in it and what was taken. -/
structure Cq where
  size : RingSize
  head : BitVec 32
  tail : BitVec 32
  cqes : BitVec 32 → IoUringCqe
  posted : List IoUringCqe
  taken : List IoUringCqe

namespace Cq

/-- The ring as `iouring_init` maps it, both counters at `h`. -/
def init (size : RingSize) (h : BitVec 32) (cqes : BitVec 32 → IoUringCqe) : Cq := ⟨size, h, h, cqes, [], []⟩

/-- The kernel posts a completion, if it sees room for it. -/
def post (q : Cq) (cqe : IoUringCqe) : Cq :=
  if q.size.entries ≤ q.tail - q.head then q
  else
    { q with
      cqes := Function.update q.cqes (q.tail &&& q.size.ringMask) cqe
      tail := q.tail + 1
      posted := q.posted ++ [cqe] }

/-- The completion at a counter. -/
def at' (q : Cq) (h : BitVec 32) : IoUringCqe := q.cqes (h &&& q.size.ringMask)

def take (q : Cq) (h : BitVec 32) : Cq := { q with taken := q.taken ++ [q.at' h] }

/-- The completions that wait to be taken. -/
def waiting (q : Cq) : List IoUringCqe := window q.at' (q.tail - q.head).toNat q.head

/-- The loop has come to the counter `h`, `m` from where the kernel knows it to be; there are `n` more. -/
structure Ringed (q : Cq) (h : BitVec 32) (m n : ℕ) : Prop where
  read : h = q.head + BitVec.ofNat 32 m
  tail : q.tail = h + BitVec.ofNat 32 n
  room : m + n ≤ q.size.entries.toNat
  once : q.posted = q.taken ++ window q.at' n h

variable {q : Cq} {h : BitVec 32} {m n : ℕ}

theorem ringed_init (size : RingSize) (h : BitVec 32) (cqes : BitVec 32 → IoUringCqe) :
    (init size h cqes).Ringed h 0 0 :=
  ⟨(BitVec.add_zero h).symm, (BitVec.add_zero h).symm, Nat.zero_le _, rfl⟩

theorem Ringed.small (hq : q.Ringed h m n) : m + n < 2 ^ 32 := by
  obtain ⟨k, hk, he⟩ := q.size.pow
  have hlt : 2 ^ k < 2 ^ 32 := Nat.pow_lt_pow_right (by omega) hk
  have hroom := hq.room
  rw [he, BitVec.toNat_ofNat, Nat.mod_eq_of_lt hlt] at hroom
  omega

/-- There is something to take exactly if the counters differ. -/
theorem Ringed.eq_tail (hq : q.Ringed h m n) : h = q.tail ↔ n = 0 := by
  have hsmall := hq.small
  rw [hq.tail]
  constructor
  · intro he
    have hn := congrArg BitVec.toNat (BitVec.self_eq_add_right.mp he)
    rw [BitVec.toNat_ofNat, Nat.mod_eq_of_lt (by omega)] at hn
    exact hn
  · rintro rfl
    exact (BitVec.add_zero h).symm

theorem Ringed.used (hq : q.Ringed h m n) : (q.tail - q.head).toNat = m + n := by
  have hsum : q.tail - q.head = BitVec.ofNat 32 (m + n) := by
    rw [hq.tail, hq.read, BitVec.ofNat_add, add_assoc, add_comm q.head, BitVec.add_sub_cancel]
  rw [hsum, BitVec.toNat_ofNat, Nat.mod_eq_of_lt hq.small]

/-- What is posted waits behind the rest. -/
theorem Ringed.post (hq : q.Ringed h m n) (cqe : IoUringCqe) : ∃ n', (q.post cqe).Ringed h m n' := by
  unfold Cq.post
  split
  · exact ⟨n, hq⟩
  · rename_i hfree
    rw [BitVec.le_def, hq.used, not_le] at hfree
    obtain ⟨k, hk, he⟩ := q.size.pow
    have hp : 2 ^ k < 2 ^ 32 := Nat.pow_lt_pow_right (by omega) hk
    have hlt : m + n < 2 ^ k := by rwa [he, BitVec.toNat_ofNat, Nat.mod_eq_of_lt hp] at hfree
    have htail : q.tail = q.head + BitVec.ofNat 32 (m + n) := by
      rw [hq.tail, hq.read, BitVec.ofNat_add, add_assoc]
    refine ⟨n + 1, hq.read, ?_, hfree, ?_⟩
    · show q.tail + 1 = _
      rw [hq.tail, BitVec.ofNat_add, ← add_assoc]
      rfl
    · -- the slot behind the tail is none of those to be taken
      have hold : window q.at' n h =
          window (fun c => Function.update q.cqes (q.tail &&& q.size.ringMask) cqe (c &&& q.size.ringMask)) n h := by
        refine window_congr fun i hi => ?_
        have hne : (h + BitVec.ofNat 32 i) &&& q.size.ringMask ≠ q.tail &&& q.size.ringMask := by
          rw [hq.read, htail, add_assoc, ← BitVec.ofNat_add, q.size.masked, he]
          exact mask_ne hk q.head (by omega) hlt
        exact (Function.update_of_ne hne ..).symm
      have hnew : Function.update q.cqes (q.tail &&& q.size.ringMask) cqe
          ((h + BitVec.ofNat 32 n) &&& q.size.ringMask) = cqe := by
        rw [← hq.tail]
        exact Function.update_self ..
      show q.posted ++ [cqe] = q.taken ++ window (fun c =>
        Function.update q.cqes (q.tail &&& q.size.ringMask) cqe (c &&& q.size.ringMask)) (n + 1) h
      rw [window_succ, ← hold, hnew, hq.once, List.append_assoc]

theorem Ringed.arrive (hq : q.Ringed h m n) (cqes : List IoUringCqe) :
    ∃ n', (cqes.foldl Cq.post q).Ringed h m n' := by
  induction cqes generalizing q n with
  | nil => exact ⟨n, hq⟩
  | cons cqe cqes ih =>
    obtain ⟨n', hq'⟩ := hq.post cqe
    exact ih hq'

theorem Ringed.take (hq : q.Ringed h m (n + 1)) : (q.take h).Ringed (h + 1) (m + 1) n := by
  refine ⟨?_, ?_, ?_, ?_⟩
  · show h + 1 = q.head + _
    rw [hq.read, BitVec.ofNat_add, ← add_assoc]
    rfl
  · show q.tail = h + 1 + _
    rw [hq.tail, BitVec.ofNat_add, add_comm (BitVec.ofNat 32 n), ← add_assoc]
    rfl
  · have hroom := hq.room
    show m + 1 + n ≤ q.size.entries.toNat
    omega
  · show q.posted = (q.taken ++ [q.at' h]) ++ window q.at' n (h + 1)
    rw [hq.once, List.append_assoc]
    rfl

/-- The head is published. -/
theorem Ringed.publish (hq : q.Ringed h m n) : ({ q with head := h } : Cq).Ringed h 0 n :=
  ⟨(BitVec.add_zero h).symm, hq.tail, (by have := hq.room; show 0 + n ≤ q.size.entries.toNat; omega), hq.once⟩

@[simp] theorem taken_post (q : Cq) (cqe : IoUringCqe) : (q.post cqe).taken = q.taken := by
  unfold post
  split
  · rfl
  · rfl

theorem head_post (q : Cq) (cqe : IoUringCqe) : (q.post cqe).head = q.head := by
  unfold post
  split
  · rfl
  · rfl

@[simp] theorem taken_arrive (q : Cq) (cqes : List IoUringCqe) : (cqes.foldl post q).taken = q.taken := by
  induction cqes generalizing q with
  | nil => rfl
  | cons cqe cqes ih => exact (ih _).trans (taken_post q cqe)

end Cq
end Uring

open Uring

/-! ### The drain -/

/-- A loop and its completion ring. -/
structure Draining (U T : Type) where
  loop : Loop U T Uring.Kernel
  cq : Cq

namespace Draining

variable {U T : Type} [DecidableEq U]

/-- The loop of `iouring_cq_drain`, with the head read before and what is left of the budget. The kernel posts
`arrivals budget` before the tail is read. -/
def drainLoop (arrivals : ℕ → List IoUringCqe) : ℕ → BitVec 32 → Draining U T → Draining U T
  | 0, h, s => { s with cq := { (arrivals 0).foldl Cq.post s.cq with head := h } }
  | budget + 1, h, s =>
    let q := (arrivals (budget + 1)).foldl Cq.post s.cq
    if h = q.tail then { s with cq := { q with head := h } }
    else drainLoop arrivals budget (h + 1) ⟨s.loop.iouringCqe (q.at' h).decode, q.take h⟩

def iouringCqDrain (arrivals : ℕ → List IoUringCqe) (s : Draining U T) : Draining U T :=
  drainLoop arrivals cqDrainBudget s.cq.head s

variable {s : Draining U T} {h : BitVec 32} {m n : ℕ}

/-- The drain takes the next completions, and stops short of the budget only when there are no more. -/
theorem drainLoop_spec (arrivals : ℕ → List IoUringCqe) (budget : ℕ) (hq : s.cq.Ringed h m n) : ∃ cs n',
    (drainLoop arrivals budget h s).cq.taken = s.cq.taken ++ cs ∧ cs.length ≤ budget ∧
    (drainLoop arrivals budget h s).loop = (cs.map IoUringCqe.decode).foldl Loop.iouringCqe s.loop ∧
    (drainLoop arrivals budget h s).cq.Ringed (drainLoop arrivals budget h s).cq.head 0 n' ∧
    (cs.length < budget → n' = 0) := by
  induction budget generalizing s h m n with
  | zero =>
    obtain ⟨n', hq'⟩ := hq.arrive (arrivals 0)
    exact ⟨[], n', (Cq.taken_arrive ..).trans (List.append_nil _).symm, le_rfl, rfl, hq'.publish,
      fun hlt => absurd hlt (Nat.lt_irrefl 0)⟩
  | succ budget ih =>
    obtain ⟨n', hq'⟩ := hq.arrive (arrivals (budget + 1))
    unfold drainLoop
    dsimp only
    split
    · rename_i htail
      exact ⟨[], n', (Cq.taken_arrive ..).trans (List.append_nil _).symm, Nat.zero_le _, rfl, hq'.publish,
        fun _ => hq'.eq_tail.mp htail⟩
    · rename_i htail
      obtain ⟨k, rfl⟩ : ∃ k, n' = k + 1 := Nat.exists_eq_succ_of_ne_zero fun h0 => htail (hq'.eq_tail.mpr h0)
      generalize hq₁ : (arrivals (budget + 1)).foldl Cq.post s.cq = q at hq'
      have htaken : q.taken = s.cq.taken := by rw [← hq₁, Cq.taken_arrive]
      obtain ⟨cs, n'', h₁, h₂, h₃, h₄, h₅⟩ :=
        ih (s := ⟨s.loop.iouringCqe (q.at' h).decode, q.take h⟩) hq'.take
      refine ⟨q.at' h :: cs, n'', ?_, Nat.succ_le_succ h₂, h₃, h₄, fun hlt => h₅ (Nat.lt_of_succ_lt_succ hlt)⟩
      rw [h₁]
      show (q.taken ++ [q.at' h]) ++ cs = _
      rw [htaken, List.append_assoc]
      rfl

end Draining

/-! ### Answers -/

namespace Fds

variable {W : Type} [DecidableEq W] {s t u : Fds W} {fd : ℕ}

/-- One fd was handled: the others are as they were, and what was queued or stopped stays so. -/
structure Handles (fd : ℕ) (s t : Fds W) : Prop where
  max : t.anfdmax = s.anfdmax
  egen : ∀ fd', (t.anfds fd').egen = (s.anfds fd').egen
  others : ∀ fd' ≠ fd, (t.anfds fd').head = (s.anfds fd').head ∧ (t.anfds fd').events = (s.anfds fd').events ∧
    (fd' ∈ t.fdchanges ↔ fd' ∈ s.fdchanges)
  queued : fd ∈ s.fdchanges → fd ∈ t.fdchanges
  events : (s.anfds fd).events = 0 → (t.anfds fd).events = 0
  stopped : ∀ w, s.active w = 0 → t.active w = 0

section

omit [DecidableEq W]

theorem Handles.refl (fd : ℕ) (s : Fds W) : Handles fd s s :=
  ⟨rfl, fun _ => rfl, fun _ _ => ⟨rfl, rfl, Iff.rfl⟩, fun h => h, fun h => h, fun _ h => h⟩

theorem Handles.trans (h : Handles fd s t) (h' : Handles fd t u) : Handles fd s u where
  max := h'.max.trans h.max
  egen fd' := (h'.egen fd').trans (h.egen fd')
  others fd' hne := by
    obtain ⟨h₁, h₂, h₃⟩ := h.others fd' hne
    obtain ⟨h₁', h₂', h₃'⟩ := h'.others fd' hne
    exact ⟨h₁'.trans h₁, h₂'.trans h₂, h₃'.trans h₃⟩
  queued hm := h'.queued (h.queued hm)
  events he := h'.events (h.events he)
  stopped w hw := h'.stopped w (h.stopped w hw)

theorem handles_setFd (s : Fds W) (fd : ℕ) {a : ANFD W} (hg : a.egen = (s.anfds fd).egen)
    (he : (s.anfds fd).events = 0 → a.events = 0) : Handles fd s (s.setFd fd a) := by
  have hself : (s.setFd fd a).anfds fd = a := Function.update_self ..
  have hne : ∀ fd' ≠ fd, (s.setFd fd a).anfds fd' = s.anfds fd' := fun fd' h => Function.update_of_ne h ..
  refine ⟨rfl, fun fd' => ?_, fun fd' h => ?_, fun h => h, fun h => ?_, fun _ h => h⟩
  · by_cases h : fd' = fd
    · rw [h, hself, hg]
    · rw [hne fd' h]
  · rw [hne fd' h]
    exact ⟨rfl, rfl, Iff.rfl⟩
  · rw [hself]
    exact he h

theorem handles_fdChange (s : Fds W) (fd : ℕ) (flags : BitVec 8) : Handles fd s (s.fdChange fd flags) where
  max := rfl
  egen := (still_fdChange s fd flags).egen
  others fd' hne := by
    refine ⟨head_fdChange .., events_fdChange .., ?_⟩
    rw [fdchanges_fdChange]
    split
    · simp [hne]
    · rfl
  queued hm := sub_fdChange s fd flags fd hm
  events he := (events_fdChange ..).trans he
  stopped _ hw := hw

end

theorem handles_stop (s : Fds W) (w : W) : Handles (s.fd w) s (s.stop w) := by
  have hset : Handles (s.fd w) s (s.setFd (s.fd w)
      { s.anfds (s.fd w) with head := (s.anfds (s.fd w)).head.erase w }) := handles_setFd s _ rfl fun h => h
  have hdel : Handles (s.fd w) s (s.wlistDel w) := by
    refine ⟨hset.max, hset.egen, hset.others, hset.queued, hset.events, fun v hv => ?_⟩
    refine (Function.update_apply ..).trans ?_
    split
    · rfl
    · exact hv
  exact hdel.trans (handles_fdChange ..)

end Fds

namespace Loop

variable {U T : Type} [DecidableEq U] {l m k : Loop U T Uring.Kernel} {fd : ℕ} {w : IoW U}

/-- The fd waits for its next poll to be asked for. -/
def Rearmed (l : Loop U T Uring.Kernel) (fd : ℕ) : Prop := (l.fds.anfds fd).events = 0 ∧ fd ∈ l.fds.fdchanges

/-- These watchers were stopped and told of an error. -/
def Killed (l : Loop U T Uring.Kernel) (ws : List (IoW U)) : Prop :=
  ∀ w ∈ ws, l.fds.active w = 0 ∧ l.pend.pendingEvents (.io w) &&& evError ≠ 0

/-- What every step keeps. -/
structure Orderly (l : Loop U T Uring.Kernel) : Prop where
  tracked : l.fds.Tracked l.fds.fdchanges
  dummy : l.pend.pendingW = .pendingW
  queues : ∃ fed, l.pend.Ok fed

/-- One fd was handled, and what a stopped watcher was told of is not taken back. -/
structure Touches (fd : ℕ) (l m : Loop U T Uring.Kernel) : Prop where
  fds : Fds.Handles fd l.fds m.fds
  told : ∀ w, l.fds.active w = 0 → l.pend.pendingEvents (.io w) &&& evError ≠ 0 →
    m.pend.pendingEvents (.io w) &&& evError ≠ 0

section

omit [DecidableEq U]

theorem Touches.refl (fd : ℕ) (l : Loop U T Uring.Kernel) : Touches fd l l := ⟨.refl fd _, fun _ _ h => h⟩

theorem Touches.trans (h : Touches fd l m) (h' : Touches fd m k) : Touches fd l k :=
  ⟨h.fds.trans h'.fds, fun w hw ht => h'.told w (h.fds.stopped w hw) (h.told w hw ht)⟩

theorem Touches.gen (h : Touches fd l m) : m.gen = l.gen := by
  funext fd'
  unfold Loop.gen
  rw [h.fds.egen]

theorem Touches.rearmed (h : Touches fd l m) {fd' : ℕ} (hr : l.Rearmed fd') : m.Rearmed fd' := by
  by_cases hfd : fd' = fd
  · subst hfd
    exact ⟨h.fds.events hr.1, h.fds.queued hr.2⟩
  · obtain ⟨-, h₂, h₃⟩ := h.fds.others fd' hfd
    exact ⟨h₂.trans hr.1, h₃.mpr hr.2⟩

theorem Touches.killed (h : Touches fd l m) {ws : List (IoW U)} (hk : l.Killed ws) : m.Killed ws :=
  fun w hw => ⟨h.fds.stopped w (hk w hw).1, h.told w (hk w hw).1 (hk w hw).2⟩

end

/-- What feeding the watchers of an fd keeps, `fd_event` keeps. -/
theorem fdEvent_induction {K : Type} {P : Loop U T K → Prop} {l : Loop U T K} (fd : ℕ) (revents : Events)
    (h : ∀ l w ev, P l → P (l.evFeedEvent (.io w) ev)) (hl : P l) : P (l.fdEvent fd revents) := by
  have hfold : ∀ (ws : List (IoW U)) (l : Loop U T K), P l → P (ws.foldl (fun l w =>
      if l.fds.events w &&& revents ≠ 0 then l.evFeedEvent (.io w) (l.fds.events w &&& revents) else l) l) := by
    intro ws
    induction ws with
    | nil => exact fun _ hl => hl
    | cons w ws ih =>
      intro l hl
      rw [List.foldl_cons]
      apply ih
      split
      · exact h l w _ hl
      · exact hl
  unfold fdEvent
  split
  · exact hfold _ l hl
  · exact hl

theorem Orderly.feed (h : l.Orderly) (fd : ℕ) (w : IoW U) (ev : Events) :
    (l.evFeedEvent (.io w) ev).Orderly ∧ Touches fd l (l.evFeedEvent (.io w) ev) ∧
      (l.evFeedEvent (.io w) ev).pend.pendingEvents (.io w) = ev ||| l.pend.pendingEvents (.io w) := by
  obtain ⟨fed, hok⟩ := h.queues
  have hne : Watcher.io w ≠ l.pend.pendingW := by
    rw [h.dummy]
    simp
  have hev := hok.pendingEvents_feed hne ev
  refine ⟨⟨h.tracked, (Pend.pendingW_feed ..).trans h.dummy, _, Pend.ok_feed hok hne ev⟩,
    ⟨.refl fd _, fun v _ ht => ?_⟩, (hev _).trans (if_pos rfl)⟩
  show (l.pend.evFeedEvent (.io w) ev).pendingEvents (.io v) &&& evError ≠ 0
  rw [hev]
  split
  · rename_i hvw
    rw [← hvw, or_and_ne_zero]
    exact .inr ht
  · exact ht

theorem Orderly.event (h : l.Orderly) (fd : ℕ) (revents : Events) :
    (l.fdEvent fd revents).Orderly ∧ Touches fd l (l.fdEvent fd revents) :=
  fdEvent_induction (P := fun m => m.Orderly ∧ Touches fd l m) fd revents
    (fun m w ev hm => by
      obtain ⟨h₁, h₂, -⟩ := hm.1.feed fd w ev
      exact ⟨h₁, hm.2.trans h₂⟩) ⟨h, .refl fd l⟩

/-- A watcher of the fd is stopped. -/
theorem Orderly.stop (h : l.Orderly) (hw : w ∈ (l.fds.anfds fd).head) :
    (l.evIoStop w).Orderly ∧ Touches fd l (l.evIoStop w) ∧ (l.evIoStop w).fds.active w = 0 ∧
      ((l.evIoStop w).fds.anfds fd).head = (l.fds.anfds fd).head.erase w := by
  obtain ⟨fed, hok⟩ := h.queues
  obtain ⟨hact, rfl⟩ := (h.tracked.linked.mem fd w).mp hw
  have hfds : (l.evIoStop w).fds = l.fds.stop w := (fds_evIoStop l w).trans (if_neg hact)
  have hpend : (l.evIoStop w).pend = l.pend.clearPending (.io w) := by
    unfold evIoStop
    rw [if_neg (by exact hact)]
    rfl
  refine ⟨⟨?_, ?_, _, hpend ▸ Pend.ok_clear hok⟩, ⟨?_, fun v hv ht => ?_⟩, ?_, ?_⟩
  · rw [hfds]
    exact h.tracked.stop w
  · rw [hpend, Pend.pendingW_clear, h.dummy]
  · rw [hfds]
    exact Fds.handles_stop l.fds w
  · have hne : Watcher.io v ≠ .io w := fun hc => hact (by injection hc with hc; rw [← hc]; exact hv)
    rw [hpend, hok.pendingEvents_clear, if_neg hne]
    exact ht
  · rw [hfds, Fds.active_stop, if_pos rfl]
  · rw [hfds, Fds.head_stop, if_pos rfl]

/-- The watchers of an fd that is killed were stopped and told. -/
theorem Orderly.kill (h : l.Orderly) (fd : ℕ) :
    (l.fdKill fd).Orderly ∧ Touches fd l (l.fdKill fd) ∧ (l.fdKill fd).Killed (l.fds.anfds fd).head := by
  unfold fdKill
  generalize hws : (l.fds.anfds fd).head = ws
  induction ws generalizing l with
  | nil => exact ⟨h, .refl fd l, fun w hw => absurd hw List.not_mem_nil⟩
  | cons w ws ih =>
    obtain ⟨h₁, t₁, ha, hhead⟩ := h.stop (hws ▸ List.mem_cons_self)
    obtain ⟨h₂, t₂, hev⟩ := h₁.feed fd w (evError ||| evRead ||| evWrite)
    obtain ⟨h₃, t₃, hk⟩ := ih h₂ (by rw [hws, List.erase_cons_head] at hhead; exact hhead)
    have hloop : fdKillLoop fd (w :: ws).length l =
        fdKillLoop fd ws.length ((l.evIoStop w).evFeedEvent (.io w) (evError ||| evRead ||| evWrite)) := by
      rw [List.length_cons, fdKillLoop, hws]
    rw [hloop]
    refine ⟨h₃, (t₁.trans t₂).trans t₃, fun v hv => ?_⟩
    rcases List.mem_cons.mp hv with rfl | hv
    · refine ⟨t₃.fds.stopped v ha, t₃.told v ha ?_⟩
      rw [hev, or_and_ne_zero]
      exact .inl (by decide)
    · exact hk v hv

section

omit [DecidableEq U]

theorem Orderly.rearm (h : l.Orderly) (fd : ℕ) :
    (l.iouringRearm fd).Orderly ∧ Touches fd l (l.iouringRearm fd) ∧ (l.iouringRearm fd).Rearmed fd := by
  obtain ⟨fed, hok⟩ := h.queues
  generalize hs : l.fds.setFd fd { l.fds.anfds fd with events := 0 } = s
  have hfds : (l.iouringRearm fd).fds = s.fdChange fd evAnfdReify := by rw [← hs]; rfl
  have hself : s.anfds fd = { l.fds.anfds fd with events := 0 } := by
    rw [← hs]
    exact Function.update_self ..
  have hreify : ∀ fd', (s.anfds fd').reify = (l.fds.anfds fd').reify := fun fd' => by
    by_cases hfd : fd' = fd
    · rw [hfd, hself]
    · rw [← hs]
      exact congrArg ANFD.reify (Function.update_of_ne hfd ..)
  have hset : Fds.Handles fd l.fds s := hs ▸ Fds.handles_setFd _ _ rfl fun _ => rfl
  have hqueue : s.fdchanges = l.fds.fdchanges := by rw [← hs]; rfl
  refine ⟨⟨?_, h.dummy, fed, hok⟩, ⟨hfds ▸ hset.trans (Fds.handles_fdChange ..), fun _ _ ht => ht⟩, ?_, ?_⟩
  · exact h.tracked.ask fd (a := { l.fds.anfds fd with events := 0 }) rfl rfl rfl evAnfdReify
  · rw [hfds, Fds.events_fdChange, hself]
  · rw [hfds]
    refine Fds.mem_fdChange (fun fd' hr => ?_) fd evAnfdReify
    rw [hreify] at hr
    rw [hqueue]
    exact h.tracked.queued fd' hr

end

/-- A completion of this fd's poll of the current generation, with a result something is done for. -/
def Answers (l : Loop U T Uring.Kernel) (fd : ℕ) (c : Cqe) : Prop :=
  ∃ res, c = .poll fd (l.gen fd) res ∧ fd < l.fds.anfdmax ∧ res.Answered

/-- A completion either changes nothing, or one fd, which then waits for its next poll or has lost its watchers. -/
theorem Orderly.cqe (h : l.Orderly) (c : Cqe) : (l.iouringCqe c).Orderly ∧
    (l.iouringCqe c = l ∧ (∀ fd, ¬l.Answers fd c) ∨
      ∃ fd, l.Answers fd c ∧ Touches fd l (l.iouringCqe c) ∧
        ((l.iouringCqe c).Rearmed fd ∨ (l.iouringCqe c).Killed (l.fds.anfds fd).head)) := by
  cases c with
  | removed =>
    refine ⟨h, .inl ⟨rfl, ?_⟩⟩
    rintro fd ⟨res, hc, -, -⟩
    cases hc
  | poll fd gen res =>
    have hfd : ∀ fd', l.Answers fd' (.poll fd gen res) →
        fd' = fd ∧ fd < l.fds.anfdmax ∧ l.gen fd = gen ∧ res.Answered := by
      rintro fd' ⟨res', hc, hlt, hans⟩
      cases hc
      exact ⟨rfl, hlt, rfl, hans⟩
    unfold iouringCqe
    dsimp only
    by_cases hmax : l.fds.anfdmax ≤ fd
    · rw [if_pos hmax]
      exact ⟨h, .inl ⟨rfl, fun fd' ha => absurd (hfd fd' ha).2.1 (not_lt.mpr hmax)⟩⟩
    · rw [if_neg hmax]
      by_cases hgen : l.gen fd ≠ gen
      · rw [if_pos hgen]
        exact ⟨h, .inl ⟨rfl, fun fd' ha => hgen (hfd fd' ha).2.2.1⟩⟩
      · rw [if_neg hgen]
        have hans : res.Answered → l.Answers fd (.poll fd gen res) :=
          fun ha => ⟨res, by rw [not_not.mp hgen], not_le.mp hmax, ha⟩
        cases res with
        | ebadf =>
          obtain ⟨h₁, h₂, h₃⟩ := h.kill fd
          exact ⟨h₁, .inr ⟨fd, hans trivial, h₂, .inr h₃⟩⟩
        | ended =>
          obtain ⟨h₁, h₂, h₃⟩ := h.rearm fd
          exact ⟨h₁, .inr ⟨fd, hans trivial, h₂, .inl h₃⟩⟩
        | error => exact ⟨h, .inl ⟨rfl, fun fd' ha => (hfd fd' ha).2.2.2⟩⟩
        | events bits =>
          dsimp only
          split
          · rename_i hgot
            obtain ⟨h₁, h₂⟩ := h.event fd ((got bits).setWidth 32)
            obtain ⟨h₃, h₄, h₅⟩ := h₁.rearm fd
            exact ⟨h₃, .inr ⟨fd, hans hgot, h₂.trans h₄, .inl h₅⟩⟩
          · rename_i hgot
            exact ⟨h, .inl ⟨rfl, fun fd' ha => hgot (hfd fd' ha).2.2.2⟩⟩

section

omit [DecidableEq U]

theorem answers_congr (hgen : m.gen = l.gen) (hmax : m.fds.anfdmax = l.fds.anfdmax) (fd : ℕ) (c : Cqe) :
    m.Answers fd c ↔ l.Answers fd c := by
  unfold Answers
  rw [hgen, hmax]

end

/-- What one completion leaves of another fd, and of what was done for this one. -/
theorem Orderly.cqe_keeps (h : l.Orderly) (c : Cqe) (fd : ℕ) (ws : List (IoW U)) :
    (l.iouringCqe c).gen = l.gen ∧ (l.iouringCqe c).fds.anfdmax = l.fds.anfdmax ∧
    (l.Rearmed fd → (l.iouringCqe c).Rearmed fd) ∧ (l.Killed ws → (l.iouringCqe c).Killed ws) ∧
    (¬l.Answers fd c → ((l.iouringCqe c).fds.anfds fd).head = (l.fds.anfds fd).head ∧
      ((l.iouringCqe c).Rearmed fd ↔ l.Rearmed fd)) := by
  rcases (h.cqe c).2 with ⟨heq, -⟩ | ⟨fd', ha, ht, -⟩
  · rw [heq]
    exact ⟨rfl, rfl, fun h => h, fun h => h, fun _ => ⟨rfl, Iff.rfl⟩⟩
  · refine ⟨ht.gen, ht.fds.max, ht.rearmed, ht.killed, fun hno => ?_⟩
    have hne : fd ≠ fd' := by
      rintro rfl
      exact hno ha
    obtain ⟨h₁, h₂, h₃⟩ := ht.fds.others fd hne
    refine ⟨h₁, ?_⟩
    unfold Rearmed
    rw [h₂, h₃]

/-- A drain answers an fd if one of its completions does, and leaves it otherwise. -/
theorem Orderly.drain (h : l.Orderly) (cs : List Cqe) (fd : ℕ) {ws : List (IoW U)}
    (hws : (l.fds.anfds fd).head = ws) :
    (cs.foldl iouringCqe l).Orderly ∧
    (l.Rearmed fd ∨ l.Killed ws ∨ (∃ c ∈ cs, l.Answers fd c) →
      (cs.foldl iouringCqe l).Rearmed fd ∨ (cs.foldl iouringCqe l).Killed ws) ∧
    ((∀ c ∈ cs, ¬l.Answers fd c) → ((cs.foldl iouringCqe l).fds.anfds fd).head = ws ∧
      ((cs.foldl iouringCqe l).Rearmed fd ↔ l.Rearmed fd)) := by
  have hstays : ∀ (cs : List Cqe) (l : Loop U T Uring.Kernel), l.Orderly →
      (cs.foldl iouringCqe l).Orderly ∧ (l.Rearmed fd ∨ l.Killed ws →
        (cs.foldl iouringCqe l).Rearmed fd ∨ (cs.foldl iouringCqe l).Killed ws) := by
    intro cs
    induction cs with
    | nil => exact fun l h => ⟨h, fun h => h⟩
    | cons c cs ih =>
      intro l h
      obtain ⟨-, -, hr, hk, -⟩ := h.cqe_keeps c fd ws
      obtain ⟨h₁, h₂⟩ := ih (l.iouringCqe c) (h.cqe c).1
      exact ⟨h₁, fun hd => h₂ (hd.imp hr hk)⟩
  refine ⟨(hstays cs l h).1, ?_, ?_⟩
  · rintro (hr | hk | ⟨c, hc, ha⟩)
    · exact (hstays cs l h).2 (.inl hr)
    · exact (hstays cs l h).2 (.inr hk)
    · induction cs generalizing l with
      | nil => exact absurd hc List.not_mem_nil
      | cons c' cs ih =>
        obtain ⟨hgen, hmax, -, -, hother⟩ := h.cqe_keeps c' fd ws
        by_cases ha' : l.Answers fd c'
        · -- the first answer is enough, as nothing takes it back
          refine (hstays cs _ (h.cqe c').1).2 ?_
          rcases (h.cqe c').2 with ⟨-, hno⟩ | ⟨fd', ⟨res, hc', -, -⟩, -, hdone⟩
          · exact absurd ha' (hno fd)
          · obtain ⟨res', hc'', -, -⟩ := ha'
            obtain ⟨rfl, -, -⟩ : fd' = fd ∧ _ ∧ _ := by
              rw [hc''] at hc'
              injection hc' with h₁ h₂ h₃
              exact ⟨h₁.symm, h₂, h₃⟩
            rwa [hws] at hdone
        · have hmem : c ∈ cs := by
            rcases List.mem_cons.mp hc with rfl | hm
            · exact absurd ha ha'
            · exact hm
          exact ih (h.cqe c').1 ((hother ha').1.trans hws) hmem ((answers_congr hgen hmax fd c).mpr ha)
  · intro hno
    induction cs generalizing l with
    | nil => exact ⟨hws, Iff.rfl⟩
    | cons c cs ih =>
      obtain ⟨hgen, hmax, -, -, hother⟩ := h.cqe_keeps c fd ws
      obtain ⟨hhead, hre⟩ := hother (hno c List.mem_cons_self)
      obtain ⟨h₁, h₂⟩ := ih (h.cqe c).1 (hhead.trans hws) fun c' hc' ha' =>
        hno c' (List.mem_cons_of_mem c hc') ((answers_congr hgen hmax fd c').mp ha')
      exact ⟨h₁, h₂.trans hre⟩

section

omit [DecidableEq U]

theorem Orderly.congr (h : l.Orderly) (hf : m.fds = l.fds) (hp : m.pend = l.pend) : m.Orderly := by
  obtain ⟨htr, hd, hq⟩ := h
  rw [← hf] at htr
  rw [← hp] at hd hq
  exact ⟨htr, hd, hq⟩

/-- `iouring_modify` changes the generation, and its ring. -/
theorem iouringModify_alike (fd : ℕ) (oev nev : BitVec 8) (l : Loop U T Uring.Kernel) :
    Fds.Alike l.fds (iouringModify fd oev nev l).fds ∧ (iouringModify fd oev nev l).pend = l.pend := by
  have hgen : Fds.Alike l.fds (l.fds.setEgen fd ((l.fds.anfds fd).egen + 1)) := Fds.alike_setFd _ _ _ rfl rfl rfl
  unfold iouringModify
  dsimp only
  by_cases ho : oev ≠ 0
  · rw [if_pos ho]
    obtain ⟨k, slot⟩ := l.kernel.ask (.pollRemove fd (l.gen fd))
    cases slot with
    | true =>
      dsimp only
      split
      · exact ⟨hgen, rfl⟩
      · exact ⟨hgen, rfl⟩
    | false =>
      dsimp only
      rw [if_neg (by simp)]
      exact ⟨.refl _, rfl⟩
  · rw [if_neg ho]
    dsimp only
    split
    · exact ⟨.refl _, rfl⟩
    · exact ⟨.refl _, rfl⟩

theorem Orderly.reify (h : l.Orderly) : (l.fdReify iouringModify).Orderly := by
  have hfold : ∀ (queue : List ℕ) (m : Loop U T Uring.Kernel), m.fds.Tracked queue → m.pend = l.pend →
      (queue.foldl (fdReifyOne iouringModify) m).fds.Tracked [] ∧
        (queue.foldl (fdReifyOne iouringModify) m).pend = l.pend := by
    intro queue
    induction queue with
    | nil => exact fun m ht hp => ⟨ht, hp⟩
    | cons fd queue ih =>
      intro m ht hp
      have hre := ht.reify
      rw [List.foldl_cons]
      apply ih
      · unfold fdReifyOne
        dsimp only
        split
        · exact hre
        · exact hre.alike (iouringModify_alike fd _ _ { m with fds := m.fds.reify fd }).1
      · unfold fdReifyOne
        dsimp only
        split
        · exact hp
        · exact (iouringModify_alike ..).2.trans hp
  obtain ⟨ht, hp⟩ := hfold l.fds.fdchanges l h.tracked rfl
  unfold fdReify
  dsimp only
  refine ⟨⟨⟨ht.linked.mem, ht.linked.nodup⟩, ht.bound, ht.mask,
    fun fd hr => absurd (ht.queued fd hr) List.not_mem_nil, fun fd _ => ht.clean fd List.not_mem_nil⟩, ?_, ?_⟩
  · show Pend.pendingW _ = _
    rw [hp, h.dummy]
  · show ∃ fed, Pend.Ok _ fed
    rw [hp]
    exact h.queues

end

end Loop

/-! ### Runs -/

namespace Draining

variable {U T : Type} [DecidableEq U]

/-- The user's calls, the loop's own, what the kernel posts, and the drain. `queues` is whatever else happens to
the pending queues, and `ring` a ring set up anew. -/
inductive Act (U : Type)
  | ioSet (w : IoW U) (fd : ℕ) (events : Events)
  | ioStart (w : IoW U)
  | ioStop (w : IoW U)
  | ioModify (w : IoW U) (events : Events)
  | fdKill (fd : ℕ)
  | fdReify
  | rearmAll
  | queues
  | other
  | ring (size : RingSize) (h : BitVec 32) (cqes : BitVec 32 → IoUringCqe)
  | post (cqe : IoUringCqe)
  | drain (arrivals : ℕ → List IoUringCqe)

/-- A watcher is set while it is stopped, and started with events it may have. -/
inductive Step (s : Draining U T) : Act U → Draining U T → Prop
  | ioSet {w : IoW U} {fd : ℕ} {events : Events} (h : s.loop.fds.active w = 0) :
    Step s (.ioSet w fd events) { s with loop := s.loop.evIoSet w fd events }
  | ioStart {w : IoW U} (h : Interest.legal (s.loop.fds.events w)) :
    Step s (.ioStart w) { s with loop := s.loop.evIoStart w }
  | ioStop {w : IoW U} : Step s (.ioStop w) { s with loop := s.loop.evIoStop w }
  | ioModify {w : IoW U} {events : Events} :
    Step s (.ioModify w events) { s with loop := s.loop.evIoModify w events }
  | fdKill {fd : ℕ} : Step s (.fdKill fd) { s with loop := s.loop.fdKill fd }
  | fdReify : Step s .fdReify { s with loop := s.loop.fdReify Loop.iouringModify }
  | rearmAll : Step s .rearmAll { s with loop := s.loop.fdRearmAll }
  | queues {p : Pend (Watcher U)} {fed : Watcher U → List Events} (hd : p.pendingW = .pendingW) (h : p.Ok fed) :
    Step s .queues { s with loop := { s.loop with pend := p } }
  | other {l : Loop U T Uring.Kernel} (hf : l.fds = s.loop.fds) (hp : l.pend = s.loop.pend) :
    Step s .other { s with loop := l }
  | ring {size : RingSize} {h : BitVec 32} {cqes : BitVec 32 → IoUringCqe} :
    Step s (.ring size h cqes) { s with cq := .init size h cqes }
  | post {cqe : IoUringCqe} : Step s (.post cqe) { s with cq := s.cq.post cqe }
  | drain {arrivals : ℕ → List IoUringCqe} : Step s (.drain arrivals) (s.iouringCqDrain arrivals)

abbrev Runs (s : Draining U T) (acts : List (Act U)) (t : Draining U T) : Prop := Run Step s acts t

/-- Before any watcher was started, with a ring as it was set up. -/
def init [Inhabited U] [Zero T] (noinotify signalfd notimerfd : Bool) (kernel : Uring.Kernel) (size : RingSize)
    (h : BitVec 32) (cqes : BitVec 32 → IoUringCqe) : Draining U T :=
  ⟨.init .iouring noinotify signalfd notimerfd kernel, .init size h cqes⟩

variable {s₀ s t : Draining U T} {acts : List (Act U)}

/-- The loop is in order, and the ring hands over what was posted. -/
structure Good (s : Draining U T) : Prop where
  orderly : s.loop.Orderly
  ringed : ∃ n, s.cq.Ringed s.cq.head 0 n

section

omit [DecidableEq U]

theorem good_init [Inhabited U] [Zero T] (noinotify signalfd notimerfd : Bool) (kernel : Uring.Kernel)
    (size : RingSize) (h : BitVec 32) (cqes : BitVec 32 → IoUringCqe) :
    Good (init noinotify signalfd notimerfd kernel size h cqes : Draining U T) := by
  have hok : Pend.Ok (init noinotify signalfd notimerfd kernel size h cqes : Draining U T).loop.pend fun _ => [] :=
    Pend.Empty.ok ⟨fun _ => rfl, fun _ => rfl, rfl⟩ (Loop.range_init .iouring noinotify signalfd notimerfd kernel)
  exact ⟨⟨Fds.tracked_fresh (fun _ => rfl) (fun _ => rfl) _, rfl, _, hok⟩, 0, Cq.ringed_init size h cqes⟩

end

theorem Good.drain (h : Good s) (arrivals : ℕ → List IoUringCqe) : Good (s.iouringCqDrain arrivals) := by
  obtain ⟨n, hr⟩ := h.ringed
  obtain ⟨cs, n', -, -, hl, hr', -⟩ := drainLoop_spec arrivals cqDrainBudget hr
  refine ⟨?_, n', hr'⟩
  show (drainLoop arrivals cqDrainBudget s.cq.head s).loop.Orderly
  rw [hl]
  exact (h.orderly.drain (cs.map IoUringCqe.decode) 0 rfl).1

theorem good_step {a : Act U} (h : Good s) (hs : Step s a t) : Good t := by
  obtain ⟨ho, hr⟩ := h
  have hstop : ∀ w, (s.loop.evIoStop w).Orderly := by
    intro w
    by_cases hw : s.loop.fds.active w = 0
    · have heq : s.loop.evIoStop w = s.loop.clearPending (.io w) := if_pos hw
      obtain ⟨fed, hok⟩ := ho.queues
      rw [heq]
      exact ⟨ho.tracked, (Pend.pendingW_clear ..).trans ho.dummy, _, Pend.ok_clear hok⟩
    · exact (ho.stop ((ho.tracked.linked.mem _ w).mpr ⟨hw, rfl⟩)).1
  cases hs with
  | ioSet hw => exact ⟨⟨ho.tracked.evIoSet hw .., ho.dummy, ho.queues⟩, hr⟩
  | @ioStart w hlegal =>
    by_cases hw : s.loop.fds.active w ≠ 0
    · have heq : s.loop.evIoStart w = s.loop := if_pos hw
      rw [heq]
      exact ⟨ho, hr⟩
    · obtain ⟨fed, hok⟩ := ho.queues
      have hfds : (s.loop.evIoStart w).fds = s.loop.fds.start w := (Loop.fds_evIoStart ..).trans (if_neg hw)
      have hpend : (s.loop.evIoStart w).pend = s.loop.pend := by
        unfold Loop.evIoStart
        rw [if_neg hw]
        exact hok.range.priAdjust _
      have htr := ho.tracked.start (not_not.mp hw) hlegal
      rw [← hfds] at htr
      exact ⟨⟨htr, by rw [hpend, ho.dummy], fed, by rw [hpend]; exact hok⟩, hr⟩
  | @ioStop w => exact ⟨hstop w, hr⟩
  | @ioModify w events => exact ⟨⟨ho.tracked.modify w events, ho.dummy, ho.queues⟩, hr⟩
  | @fdKill fd => exact ⟨(ho.kill fd).1, hr⟩
  | fdReify => exact ⟨ho.reify, hr⟩
  | rearmAll => exact ⟨⟨ho.tracked.rearmAll.1, ho.dummy, ho.queues⟩, hr⟩
  | queues hd hok => exact ⟨⟨ho.tracked, hd, _, hok⟩, hr⟩
  | other hf hp => exact ⟨ho.congr hf hp, hr⟩
  | ring => exact ⟨ho, 0, Cq.ringed_init ..⟩
  | @post cqe =>
    obtain ⟨n, hr⟩ := hr
    obtain ⟨n', hr'⟩ := hr.post cqe
    refine ⟨ho, n', ?_⟩
    show (s.cq.post cqe).Ringed (s.cq.post cqe).head 0 n'
    rwa [Cq.head_post]
  | @drain arrivals => exact Good.drain ⟨ho, hr⟩ arrivals

theorem good_run [Inhabited U] [Zero T] {noinotify signalfd notimerfd : Bool} {kernel : Uring.Kernel}
    {size : RingSize} {h : BitVec 32} {cqes : BitVec 32 → IoUringCqe}
    (hrun : Runs (init noinotify signalfd notimerfd kernel size h cqes) acts s) : Good s :=
  hrun.invariant (fun _ _ _ h hs => good_step h hs) (good_init ..)

/-- A completion of this fd's poll of the current generation. -/
def Completes (l : Loop U T Uring.Kernel) (fd : ℕ) (cqe : IoUringCqe) : Prop :=
  fd < l.fds.anfdmax ∧ cqe.decode = .poll fd (l.gen fd) (result cqe.res)

section

omit [DecidableEq U]

theorem answers_decode (l : Loop U T Uring.Kernel) (fd : ℕ) (cqe : IoUringCqe) :
    l.Answers fd cqe.decode ↔ Completes l fd cqe ∧ Recognised cqe.res := by
  constructor
  · rintro ⟨res, hc, hlt, ha⟩
    have hres : res = result cqe.res := by
      unfold IoUringCqe.decode at hc
      split at hc
      · cases hc
      · dsimp only at hc
        split at hc
        · cases hc
        · injection hc with _ _ hres
          exact hres.symm
    rw [hres] at hc ha
    exact ⟨⟨hlt, hc⟩, (answered_result _).mp ha⟩
  · rintro ⟨⟨hlt, hc⟩, ha⟩
    exact ⟨_, hc, hlt, (answered_result _).mpr ha⟩

end

/-- **Completed polls.** In every run a drain takes the next of the completions posted, each once and in order, and
all that are visible unless its budget is used up. An fd, be it one whose poll has completed, is then queued for
its next poll or its watchers were stopped and told of an error, exactly if one of the completions taken for its
generation has a result that is recognised, it was queued before, or it has no watchers. -/
theorem completed_polls [Inhabited U] [Zero T] {noinotify signalfd notimerfd : Bool} {kernel : Uring.Kernel}
    {size : RingSize} {h : BitVec 32} {cqes : BitVec 32 → IoUringCqe}
    (hrun : Runs (init noinotify signalfd notimerfd kernel size h cqes) acts s) (arrivals : ℕ → List IoUringCqe) :
    (s.iouringCqDrain arrivals).cq.posted =
      (s.iouringCqDrain arrivals).cq.taken ++ (s.iouringCqDrain arrivals).cq.waiting ∧
    ∃ cs, (s.iouringCqDrain arrivals).cq.taken = s.cq.taken ++ cs ∧ cs.length ≤ cqDrainBudget ∧
      (cs.length < cqDrainBudget → (s.iouringCqDrain arrivals).cq.waiting = []) ∧
      (s.iouringCqDrain arrivals).loop = s.loop.iouringCqDrain (cs.map IoUringCqe.decode) ∧
      ∀ fd, ((s.iouringCqDrain arrivals).loop.Rearmed fd ∨
          (s.iouringCqDrain arrivals).loop.Killed (s.loop.fds.anfds fd).head) ↔
        (∃ cqe ∈ cs, Completes s.loop fd cqe ∧ Recognised cqe.res) ∨ s.loop.Rearmed fd ∨
          (s.loop.fds.anfds fd).head = [] := by
  have hgood := good_run hrun
  obtain ⟨n, hr⟩ := hgood.ringed
  obtain ⟨cs, n', htaken, hlen, hloop, hr', hall⟩ :=
    drainLoop_spec arrivals cqDrainBudget hr
  have hwait : (s.iouringCqDrain arrivals).cq.waiting =
      window (s.iouringCqDrain arrivals).cq.at' n' (s.iouringCqDrain arrivals).cq.head := by
    have hused : ((s.iouringCqDrain arrivals).cq.tail - (s.iouringCqDrain arrivals).cq.head).toNat = 0 + n' :=
      hr'.used
    unfold Cq.waiting
    rw [hused, Nat.zero_add]
  refine ⟨?_, cs, htaken, hlen, fun hlt => ?_, ?_, fun fd => ?_⟩
  · rw [hwait]
    exact hr'.once
  · rw [hwait, hall hlt]
    rfl
  · unfold Loop.iouringCqDrain
    rw [List.take_of_length_le (by rw [List.length_map]; exact hlen)]
    exact hloop
  · obtain ⟨-, hdone, hleft⟩ := hgood.orderly.drain (cs.map IoUringCqe.decode) fd rfl
    rw [← show (s.iouringCqDrain arrivals).loop = _ from hloop] at hdone hleft
    have hany : (∃ c ∈ cs.map IoUringCqe.decode, s.loop.Answers fd c) ↔
        ∃ cqe ∈ cs, Completes s.loop fd cqe ∧ Recognised cqe.res := by
      simp only [List.mem_map, exists_exists_and_eq_and, answers_decode]
    constructor
    · intro hd
      by_contra hno
      rw [← hany, not_or, not_or] at hno
      obtain ⟨hans, hre, hne⟩ := hno
      obtain ⟨hhead, hsame⟩ := hleft fun c hc ha => hans ⟨c, hc, ha⟩
      rcases hd with hd | hd
      · exact hre (hsame.mp hd)
      · -- a watcher that is still in the list is active
        obtain ⟨w, hw⟩ := List.exists_mem_of_ne_nil _ hne
        have hlinked := (hgood.drain arrivals).orderly.tracked.linked
        exact ((hlinked.mem fd w).mp (hhead ▸ hw)).1 (hd w hw).1
    · rintro (hans | hre | hne)
      · exact hdone (.inr (.inr (hany.mpr hans)))
      · exact hdone (.inl hre)
      · exact .inr (by rw [hne]; exact fun w hw => absurd hw List.not_mem_nil)

def start4 : Draining Bool ℤ :=
  init true false true (.init ⟨Sq.size4, 0, fun _ => 0, fun _ => .pollRemove 0 0, 9⟩) Sq.size4 0 fun _ => ⟨0, 0⟩

/-- A watcher is started, its poll asked for, and completed with this result. -/
def watch4 (res : BitVec 32) : List (Act Bool) :=
  [.ioSet (.user true) 3 evRead, .ioStart (.user true), .fdReify, .post ⟨3, res⟩]

def watched4 (res : BitVec 32) : Draining Bool ℤ :=
  let loop := ((start4.loop.evIoSet (.user true) 3 evRead).evIoStart (.user true)).fdReify Loop.iouringModify
  ⟨loop, start4.cq.post ⟨3, res⟩⟩

theorem runs_watch4 (res : BitVec 32) : Runs start4 (watch4 res) (watched4 res) :=
  .cons (.ioSet rfl) (.cons (.ioStart (by decide)) (.cons .fdReify (.cons .post (.nil _))))

/-- A poll that the kernel has cancelled is asked for again. -/
theorem completed_polls_canceled :
    ((watched4 (-125)).iouringCqDrain fun _ => []).loop.Rearmed 3 ∨
      ((watched4 (-125)).iouringCqDrain fun _ => []).loop.Killed ((watched4 (-125)).loop.fds.anfds 3).head := by
  obtain ⟨-, cs, htaken, -, -, -, hiff⟩ := completed_polls (runs_watch4 (-125)) fun _ => []
  have hcs : cs = [⟨3, -125⟩] := by
    have htaken' : ((watched4 (-125)).iouringCqDrain fun _ => []).cq.taken = [⟨3, -125⟩] := by decide +kernel
    rw [htaken'] at htaken
    exact htaken.symm
  refine (hiff 3).mpr (.inl ⟨⟨3, -125⟩, by rw [hcs]; exact List.mem_singleton_self _, ⟨?_, ?_⟩, ?_⟩)
  · decide +kernel
  · decide +kernel
  · decide

/-- After an error that is not expected the watcher stays started, and no poll is asked for. -/
theorem completed_polls_enomem : ∃ s : Draining Bool ℤ, Runs start4 (watch4 (-12)) s ∧
    Completes s.loop 3 ⟨3, -12⟩ ∧ (s.iouringCqDrain fun _ => []).cq.taken = [⟨3, -12⟩] ∧
    ¬((s.iouringCqDrain fun _ => []).loop.Rearmed 3 ∨
      (s.iouringCqDrain fun _ => []).loop.Killed (s.loop.fds.anfds 3).head) := by
  refine ⟨watched4 (-12), runs_watch4 (-12), ⟨by decide +kernel, by decide +kernel⟩, by decide +kernel, ?_⟩
  rintro (⟨hev, -⟩ | hk)
  · exact absurd hev (by decide +kernel)
  · have hmem : IoW.user true ∈ ((watched4 (-12)).loop.fds.anfds 3).head := by decide +kernel
    exact absurd (hk _ hmem).1 (by decide +kernel)

end Draining
end Qev
