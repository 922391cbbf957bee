/-
# The io_uring submission ring

The submission ring of `ev_iouring.c`: the loop writes requests at the tail, the kernel
consumes them at the head inside `io_uring_enter`, and `iouring_to_submit` shadows the
distance between the two. What the kernel answers to each `io_uring_enter` is a list the
environment supplies; the requests submitted and consumed so far are history variables.
The ring itself hands over every request once and in order, whatever the answers. The
shadow is exact as long as no `io_uring_enter` fails for another reason than a signal
(`submission_ring`).
-/
import Qev.Lib.Run
import Qev.Lib.Window

namespace Qev
namespace Uring

open Lib

/-- What one `io_uring_enter` answers; an error is one a `syserr` callback returns from. -/
inductive Answer
  | consumed (r : ℕ)
  | eintr
  | error
  deriving DecidableEq

/-- The geometry the kernel reports: a power of two and its mask. -/
structure RingSize where
  entries : BitVec 32
  ringMask : BitVec 32
  pow : ∃ k < 32, entries = BitVec.ofNat 32 (2 ^ k)
  masked : ringMask = entries - 1

structure Sq (S : Type) where
  size : RingSize
  head : BitVec 32
  tail : BitVec 32
  array : BitVec 32 → BitVec 32
  sqes : BitVec 32 → S
  toSubmit : BitVec 32
  submitted : List S
  consumed : List S

namespace Sq

variable {S : Type} {q q' : Sq S} {as as' : List Answer} {slot : BitVec 32}

/-- The ring as `iouring_init` maps it, both counters at `h`. -/
def init (size : RingSize) (h : BitVec 32) (array : BitVec 32 → BitVec 32) (sqes : BitVec 32 → S) : Sq S :=
  ⟨size, h, h, array, sqes, 0, [], []⟩

/-- How many requests the kernel has yet to consume. -/
def pending (q : Sq S) : ℕ := (q.tail - q.head).toNat

/-- The slots the kernel has yet to consume. -/
def waiting (q : Sq S) : List (BitVec 32) :=
  window (fun c => q.array (c &&& q.size.ringMask)) q.pending q.head

def unconsumed (q : Sq S) : List S := q.waiting.map q.sqes

/-! ### The kernel -/

def consumeOne (q : Sq S) : Sq S :=
  { q with
    head := q.head + 1
    consumed := q.consumed ++ [q.sqes (q.array (q.head &&& q.size.ringMask))] }

def consume : ℕ → Sq S → Sq S
  | 0, q => q
  | r + 1, q => consume r q.consumeOne

/-! ### The loop -/

def accountConsumed (consumed : BitVec 32) (q : Sq S) : Sq S :=
  if q.toSubmit ≤ consumed then { q with toSubmit := 0 }
  else { q with toSubmit := q.toSubmit - consumed }

/-- `iouring_enter_submit`: the return value is narrowed to unsigned also when it is -1. An
`io_uring_enter` that consumes nothing calls `ev_syserr` too, which changes nothing here. -/
def enterSubmit (q : Sq S) (toSubmit : BitVec 32) : List Answer → Option (Sq S × List Answer)
  | [] => none
  | .eintr :: as => enterSubmit q toSubmit as
  | .error :: as => some (q.accountConsumed (BitVec.ofInt 32 (-1)), as)
  | .consumed r :: as =>
    if r ≤ toSubmit.toNat ∧ r ≤ q.pending then
      some ((q.consume r).accountConsumed (BitVec.ofInt 32 r), as)
    else none

def sqeTry (q : Sq S) : Option (BitVec 32) :=
  if q.size.entries ≤ q.tail - q.head then none else some (q.tail &&& q.size.ringMask)

def sqFlush (q : Sq S) (as : List Answer) : Option (Sq S × List Answer) :=
  if q.toSubmit = 0 then some (q, as) else q.enterSubmit q.toSubmit as

def sqFlushMaxSpin : ℕ := 64

def getSqeLoop : ℕ → Sq S → List Answer → Option (Option (BitVec 32) × Sq S × List Answer)
  | 0, q, as => some (none, q, as)
  | spin + 1, q, as =>
    match q.sqeTry with
    | some slot => some (some slot, q, as)
    | none => (q.sqFlush as).bind fun r => getSqeLoop spin r.1 r.2

def getSqe (q : Sq S) (as : List Answer) : Option (Option (BitVec 32) × Sq S × List Answer) :=
  getSqeLoop sqFlushMaxSpin q as

/-- `submit_sqe` of a slot `iouring_modify` has filled with `s`. -/
def submitSqe (slot : BitVec 32) (s : S) (q : Sq S) : Sq S :=
  let index := q.tail &&& q.size.ringMask
  { q with
    sqes := Function.update q.sqes slot s
    array := Function.update q.array index index
    tail := q.tail + 1
    toSubmit := q.toSubmit + 1
    submitted := q.submitted ++ [s] }

theorem enterSubmit_length {n : BitVec 32} (h : q.enterSubmit n as = some (q', as')) :
    as'.length < as.length := by
  induction as with
  | nil => cases h
  | cons a as ih =>
    cases a with
    | eintr => exact (ih h).trans (Nat.lt_succ_self _)
    | error =>
      cases h
      exact Nat.lt_succ_self _
    | consumed r =>
      simp only [enterSubmit] at h
      split at h
      · cases h
        exact Nat.lt_succ_self _
      · cases h

/-- The submission loop of `iouring_poll`. -/
def pollSubmit (q : Sq S) (as : List Answer) : Option (Sq S × List Answer) :=
  if q.toSubmit = 0 then some (q, as)
  else
    match _h : q.enterSubmit q.toSubmit as with
    | none => none
    | some (q', as') => pollSubmit q' as'
termination_by as.length
decreasing_by exact enterSubmit_length _h

/-! ### The ring keeps what it is given -/

theorem head_add_pending (q : Sq S) : q.head + BitVec.ofNat 32 q.pending = q.tail := by
  unfold pending
  rw [BitVec.ofNat_toNat, BitVec.setWidth_eq, add_comm, BitVec.sub_add_cancel]

theorem entries_le (q : Sq S) : 0 < q.size.entries.toNat ∧ q.size.entries.toNat ≤ 2 ^ 31 := by
  obtain ⟨k, hk, he⟩ := q.size.pow
  have hlt : 2 ^ k < 2 ^ 32 := Nat.pow_lt_pow_right (by omega) hk
  rw [he, BitVec.toNat_ofNat, Nat.mod_eq_of_lt hlt]
  exact ⟨Nat.two_pow_pos k, Nat.pow_le_pow_right (by omega) (by omega)⟩

/-- The ring's own part: no more requests than slots, each standing in the slot of its
counter, and what was submitted is what was consumed and what is still waiting. -/
structure Ringed (q : Sq S) : Prop where
  room : q.pending ≤ q.size.entries.toNat
  slots : ∀ i < q.pending, q.array ((q.head + BitVec.ofNat 32 i) &&& q.size.ringMask) =
    (q.head + BitVec.ofNat 32 i) &&& q.size.ringMask
  once : q.consumed ++ q.unconsumed = q.submitted

theorem ringed_init (size : RingSize) (h : BitVec 32) (array : BitVec 32 → BitVec 32)
    (sqes : BitVec 32 → S) : (init size h array sqes).Ringed := by
  have hp : (init size h array sqes).pending = 0 := by simp [pending, init]
  refine ⟨by omega, fun i hi => by omega, ?_⟩
  unfold unconsumed waiting
  rw [hp]
  rfl

/-- The slot behind the tail is none of those waiting, as long as the ring is not full. -/
theorem tail_slot (hlt : q.pending < q.size.entries.toNat) (i : ℕ) (hi : i < q.pending) :
    (q.head + BitVec.ofNat 32 i) &&& q.size.ringMask ≠ q.tail &&& q.size.ringMask := by
  obtain ⟨k, hk, he⟩ := q.size.pow
  have hp : 2 ^ k < 2 ^ 32 := Nat.pow_lt_pow_right (by omega) hk
  rw [he, BitVec.toNat_ofNat, Nat.mod_eq_of_lt hp] at hlt
  rw [← q.head_add_pending, q.size.masked, he]
  exact mask_ne hk q.head hi hlt

theorem sqeTry_some (h : q.sqeTry = some slot) :
    slot = q.tail &&& q.size.ringMask ∧ q.pending < q.size.entries.toNat := by
  unfold sqeTry at h
  split at h
  · cases h
  · rename_i hle
    cases h
    exact ⟨rfl, by simpa [BitVec.le_def, pending] using hle⟩

theorem sqeTry_none (h : q.sqeTry = none) : q.size.entries.toNat ≤ q.pending := by
  unfold sqeTry at h
  split at h
  · rename_i hle
    simpa [BitVec.le_def, pending] using hle
  · cases h

theorem Ringed.slot_free (h : q.Ringed) (hs : q.sqeTry = some slot) : slot ∉ q.waiting := by
  obtain ⟨rfl, hlt⟩ := sqeTry_some hs
  intro hmem
  obtain ⟨i, hi, he⟩ := mem_window.mp hmem
  rw [h.slots i hi] at he
  exact tail_slot hlt i hi he

theorem pending_submitSqe (s : S) (hlt : q.pending < q.size.entries.toNat) :
    (q.submitSqe slot s).pending = q.pending + 1 := by
  have hle := q.entries_le
  have h1 : q.tail + 1 - q.head = q.tail - q.head + 1 := by
    rw [BitVec.sub_eq_add_neg, BitVec.sub_eq_add_neg, add_right_comm]
  unfold pending at hlt ⊢
  simp only [submitSqe]
  rw [h1, BitVec.toNat_add]
  generalize (q.tail - q.head).toNat = n at hlt ⊢
  exact Nat.mod_eq_of_lt (by simp; omega)

theorem Ringed.submitSqe (h : q.Ringed) (s : S) (hs : q.sqeTry = some slot) : (q.submitSqe slot s).Ringed := by
  obtain ⟨hslot, hlt⟩ := sqeTry_some hs
  have hp : (q.submitSqe slot s).pending = q.pending + 1 := pending_submitSqe s hlt
  have hne : ∀ i < q.pending, (q.head + BitVec.ofNat 32 i) &&& q.size.ringMask ≠ q.tail &&& q.size.ringMask :=
    tail_slot hlt
  have hw : (q.submitSqe slot s).waiting = q.waiting ++ [slot] := by
    unfold waiting
    rw [hp, window_succ]
    congr 1
    · refine window_congr fun i hi => ?_
      simp only [Sq.submitSqe]
      rw [Function.update_of_ne (hne i hi)]
    · simp only [Sq.submitSqe]
      rw [q.head_add_pending, Function.update_self, hslot]
  refine ⟨by rw [hp]; exact hlt, fun i hi => ?_, ?_⟩
  · rw [hp] at hi
    simp only [Sq.submitSqe]
    by_cases heq : i = q.pending
    · rw [heq, q.head_add_pending, Function.update_self]
    · rw [Function.update_of_ne (hne i (by omega))]
      exact h.slots i (by omega)
  · have hold : q.waiting.map (Function.update q.sqes slot s) = q.unconsumed := by
      refine List.map_congr_left fun x hx => ?_
      rw [Function.update_of_ne]
      rintro rfl
      exact h.slot_free hs hx
    unfold unconsumed
    rw [hw, List.map_append]
    simp only [Sq.submitSqe, List.map_cons, List.map_nil, Function.update_self]
    rw [hold, ← List.append_assoc, h.once]

theorem pending_consumeOne (hpos : 0 < q.pending) : q.consumeOne.pending = q.pending - 1 := by
  have h1 : q.tail - (q.head + 1) = q.tail - q.head - 1 := by
    rw [BitVec.sub_eq_add_neg, BitVec.sub_eq_add_neg, BitVec.sub_eq_add_neg, neg_add, add_assoc]
  unfold pending at hpos ⊢
  simp only [consumeOne]
  rw [h1]
  generalize q.tail - q.head = d at hpos ⊢
  rw [BitVec.toNat_sub_of_le (by simpa [BitVec.le_def] using Nat.succ_le_of_lt hpos)]
  rfl

theorem consume_submitted (r : ℕ) (q : Sq S) : (q.consume r).submitted = q.submitted := by
  induction r generalizing q with
  | zero => rfl
  | succ r ih => exact ih q.consumeOne

theorem unconsumed_consumeOne (hpos : 0 < q.pending) :
    q.unconsumed = q.sqes (q.array (q.head &&& q.size.ringMask)) :: q.consumeOne.unconsumed := by
  have hp := pending_consumeOne hpos
  obtain ⟨n, hn⟩ : ∃ n, q.pending = n + 1 := ⟨q.pending - 1, by omega⟩
  unfold unconsumed waiting
  rw [hp, hn]
  rfl

/-- What the kernel consumes goes over to the consumed requests; the loop's count is not its. -/
theorem Ringed.consume {r : ℕ} (h : q.Ringed) (hr : r ≤ q.pending) :
    (q.consume r).Ringed ∧ (q.consume r).pending = q.pending - r ∧ (q.consume r).toSubmit = q.toSubmit := by
  induction r generalizing q with
  | zero => exact ⟨h, rfl, rfl⟩
  | succ r ih =>
    have hp := pending_consumeOne (q := q) (by omega)
    have hone : q.consumeOne.Ringed := by
      refine ⟨by rw [hp]; exact (Nat.sub_le _ _).trans h.room, fun i hi => ?_, ?_⟩
      · have hs := h.slots (i + 1) (by omega)
        rw [BitVec.ofNat_add, add_comm (BitVec.ofNat 32 i), ← add_assoc] at hs
        exact hs
      · have ho := h.once
        rw [unconsumed_consumeOne (by omega : 0 < q.pending)] at ho
        simpa [consumeOne] using ho
    obtain ⟨h1, h2, h3⟩ := ih hone (by omega)
    exact ⟨h1, by rw [Sq.consume, h2, hp]; omega, h3⟩

/-! ### The shadow count -/

/-- `iouring_to_submit` is `lost` short of what the kernel has yet to consume. -/
def Short (q : Sq S) (lost : ℕ) : Prop := q.toSubmit.toNat + lost = q.pending

/-- From `q` to `q'` with these answers the ring stays in order, and the count falls
further short exactly when one of the answers is an error. -/
def Kept (q q' : Sq S) (used : List Answer) : Prop :=
  q.Ringed → ∀ lost, q.Short lost →
    q'.Ringed ∧ ∃ lost', q'.Short lost' ∧ lost ≤ lost' ∧ (lost' = lost ↔ .error ∉ used)

theorem Kept.refl (q : Sq S) : Kept q q [] :=
  fun hq lost hl => ⟨hq, lost, hl, le_rfl, by simp⟩

theorem Kept.trans {q'' : Sq S} {used used' : List Answer} (h : Kept q q' used) (h' : Kept q' q'' used') :
    Kept q q'' (used ++ used') := by
  intro hq lost hl
  obtain ⟨hq', lost', hl', hle', hiff'⟩ := h hq lost hl
  obtain ⟨hq'', lost'', hl'', hle'', hiff''⟩ := h' hq' lost' hl'
  refine ⟨hq'', lost'', hl'', hle'.trans hle'', ?_⟩
  rw [List.mem_append, not_or, ← hiff', ← hiff'']
  omega

theorem pending_accountConsumed (c : BitVec 32) : (q.accountConsumed c).pending = q.pending := by
  unfold accountConsumed
  split <;> rfl

theorem Ringed.accountConsumed (h : q.Ringed) (c : BitVec 32) : (q.accountConsumed c).Ringed := by
  unfold Sq.accountConsumed
  split
  · exact ⟨h.room, h.slots, h.once⟩
  · exact ⟨h.room, h.slots, h.once⟩

theorem toSubmit_accountConsumed (c : BitVec 32) :
    (q.accountConsumed c).toSubmit.toNat = q.toSubmit.toNat - c.toNat := by
  unfold accountConsumed
  split
  · rename_i hle
    rw [BitVec.le_def] at hle
    simp only [BitVec.ofNat_eq_ofNat, BitVec.toNat_ofNat]
    omega
  · rename_i hle
    rw [BitVec.le_def] at hle
    exact BitVec.toNat_sub_of_le (by rw [BitVec.le_def]; omega)

/-- An `io_uring_enter` for all that is counted. The count after an error is 0: -1 narrowed
to unsigned is the largest count there is. -/
theorem enterSubmit_kept (hpos : q.toSubmit ≠ 0) (h : q.enterSubmit q.toSubmit as = some (q', as')) :
    q'.submitted = q.submitted ∧ ∃ used, as = used ++ as' ∧ Kept q q' used := by
  induction as with
  | nil => cases h
  | cons a as ih =>
    cases a with
    | eintr =>
      obtain ⟨hsub, used, rfl, hk⟩ := ih h
      refine ⟨hsub, .eintr :: used, rfl, fun hq lost hl => ?_⟩
      simpa using hk hq lost hl
    | error =>
      cases h
      refine ⟨by unfold accountConsumed; split <;> rfl, [.error], rfl, fun hq lost hl => ?_⟩
      have h0 : (q.accountConsumed (BitVec.ofInt 32 (-1))).toSubmit.toNat = 0 := by
        rw [toSubmit_accountConsumed, show (BitVec.ofInt 32 (-1)).toNat = 2 ^ 32 - 1 by decide]
        have := q.toSubmit.isLt
        omega
      have hne : q.toSubmit.toNat ≠ 0 := fun he => hpos (BitVec.eq_of_toNat_eq he)
      refine ⟨hq.accountConsumed _, lost + q.toSubmit.toNat, ?_, by omega, by simp [hne]⟩
      unfold Short at hl ⊢
      rw [h0, pending_accountConsumed, ← hl]
      omega
    | consumed r =>
      simp only [enterSubmit] at h
      split at h
      · rename_i hr
        cases h
        refine ⟨?_, [.consumed r], rfl, fun hq lost hl => ?_⟩
        · unfold accountConsumed
          split <;> exact consume_submitted r q
        · obtain ⟨h1, h2, h3⟩ := hq.consume hr.2
          have hr32 : (BitVec.ofInt 32 (r : ℤ)).toNat = r := by
            rw [BitVec.ofInt_natCast, BitVec.toNat_ofNat]
            exact Nat.mod_eq_of_lt (hr.1.trans_lt q.toSubmit.isLt)
          refine ⟨h1.accountConsumed _, lost, ?_, le_rfl, by simp⟩
          unfold Short at hl ⊢
          rw [toSubmit_accountConsumed, pending_accountConsumed, h2, h3, hr32]
          omega
      · cases h

theorem sqFlush_kept (h : q.sqFlush as = some (q', as')) : ∃ used, as = used ++ as' ∧ Kept q q' used := by
  unfold sqFlush at h
  split at h
  · cases h
    exact ⟨[], rfl, .refl _⟩
  · rename_i hpos
    exact (enterSubmit_kept hpos h).2

theorem getSqeLoop_kept {spin : ℕ} {r : Option (BitVec 32)} (h : getSqeLoop spin q as = some (r, q', as')) :
    (∀ slot, r = some slot → q'.sqeTry = some slot) ∧ ∃ used, as = used ++ as' ∧ Kept q q' used := by
  induction spin generalizing q as with
  | zero =>
    cases h
    exact ⟨fun _ hs => (by cases hs), [], rfl, .refl _⟩
  | succ spin ih =>
    unfold getSqeLoop at h
    split at h
    · rename_i slot hs
      cases h
      refine ⟨fun slot' hs' => ?_, [], rfl, .refl _⟩
      cases hs'
      exact hs
    · obtain ⟨⟨q₁, as₁⟩, hf, hl⟩ := Option.bind_eq_some_iff.mp h
      obtain ⟨used, rfl, hk⟩ := sqFlush_kept hf
      obtain ⟨hs, used', rfl, hk'⟩ := ih hl
      exact ⟨hs, used ++ used', by rw [List.append_assoc], hk.trans hk'⟩

theorem submitSqe_kept (s : S) (hs : q.sqeTry = some slot) : Kept q (q.submitSqe slot s) [] := by
  intro hq lost hl
  refine ⟨hq.submitSqe s hs, lost, ?_, le_rfl, by simp⟩
  obtain ⟨-, hlt⟩ := sqeTry_some hs
  have hle := q.entries_le
  unfold Short at hl ⊢
  rw [pending_submitSqe s hlt]
  have h1 : (q.submitSqe slot s).toSubmit.toNat = q.toSubmit.toNat + 1 := by
    simp only [submitSqe, BitVec.toNat_add]
    generalize q.toSubmit.toNat = n at hl ⊢
    exact Nat.mod_eq_of_lt (by simp; omega)
  omega

/-- When the submission loop of `iouring_poll` ends, nothing is counted any more. -/
theorem pollSubmit_kept (q : Sq S) (as : List Answer) (h : q.pollSubmit as = some (q', as')) :
    q'.toSubmit = 0 ∧ q'.submitted = q.submitted ∧ ∃ used, as = used ++ as' ∧ Kept q q' used := by
  rw [pollSubmit] at h
  split at h
  · rename_i h0
    cases h
    exact ⟨h0, rfl, [], rfl, .refl _⟩
  · rename_i hpos
    split at h
    · cases h
    · rename_i q₁ as₁ he
      have hlen := enterSubmit_length he
      obtain ⟨hsub, used, rfl, hk⟩ := enterSubmit_kept hpos he
      obtain ⟨h0, hsub', used', rfl, hk'⟩ := pollSubmit_kept q₁ as₁ h
      exact ⟨h0, hsub'.trans hsub, used ++ used', by rw [List.append_assoc], hk.trans hk'⟩
termination_by as.length

/-! ### Runs -/

/-- What uses the ring: a request of `iouring_modify`, a flush, the submission of a poll. Each
comes with all the answers of the kernel it gets. -/
inductive Op (S : Type)
  | modify (s : S) (answers : List Answer)
  | flush (answers : List Answer)
  | poll (answers : List Answer)

def Op.answers : Op S → List Answer
  | .modify _ as => as
  | .flush as => as
  | .poll as => as

/-- A call, when the kernel answers exactly this. -/
def returned (r : Option (Sq S × List Answer)) : Option (Sq S) :=
  r.bind fun r => if r.2 = [] then some r.1 else none

/-- A request for which no slot is found is not made. -/
def modifyOne (q : Sq S) (s : S) (as : List Answer) : Option (Sq S × List Answer) :=
  (q.getSqe as).map fun r =>
    match r.1 with
    | none => r.2
    | some slot => (r.2.1.submitSqe slot s, r.2.2)

def step (q : Sq S) : Op S → Option (Sq S)
  | .modify s as => returned (q.modifyOne s as)
  | .flush as => returned (q.sqFlush as)
  | .poll as => returned (q.pollSubmit as)

theorem returned_eq_some {r : Option (Sq S × List Answer)} : returned r = some q ↔ r = some (q, []) := by
  unfold returned
  rw [Option.bind_eq_some_iff]
  constructor
  · rintro ⟨⟨q₁, as₁⟩, rfl, h⟩
    split at h
    · rename_i h0
      cases h
      rw [show as₁ = [] from h0]
    · cases h
  · rintro rfl
    exact ⟨(q, []), rfl, by simp⟩

theorem modifyOne_kept {s : S} (h : q.modifyOne s as = some (q', as')) :
    ∃ used, as = used ++ as' ∧ Kept q q' used := by
  obtain ⟨⟨r, q₁, as₁⟩, hg, he⟩ := Option.map_eq_some_iff.mp h
  obtain ⟨hs, used, rfl, hk⟩ := getSqeLoop_kept hg
  cases r with
  | none =>
    cases he
    exact ⟨used, rfl, hk⟩
  | some slot =>
    cases he
    refine ⟨used, rfl, ?_⟩
    have := hk.trans (submitSqe_kept s (hs slot rfl))
    rwa [List.append_nil] at this

theorem step_kept {op : Op S} (h : q.step op = some q') : Kept q q' op.answers := by
  cases op with
  | modify s as =>
    obtain ⟨used, hu, hk⟩ := modifyOne_kept (returned_eq_some.mp h)
    rw [List.append_nil] at hu
    exact hu ▸ hk
  | flush as =>
    obtain ⟨used, hu, hk⟩ := sqFlush_kept (returned_eq_some.mp h)
    rw [List.append_nil] at hu
    exact hu ▸ hk
  | poll as =>
    obtain ⟨-, -, used, hu, hk⟩ := pollSubmit_kept q as (returned_eq_some.mp h)
    rw [List.append_nil] at hu
    exact hu ▸ hk

theorem run_kept {ops : List (Op S)} (h : Run (fun q op q' => q.step op = some q') q ops q') :
    Kept q q' (ops.flatMap Op.answers) := by
  induction h with
  | nil q => exact .refl q
  | cons hs _ ih => exact (step_kept hs).trans ih

/-- The accounting of the ring: the count is the distance between the counters, which is no
more than there are slots; the slot handed out next is none that waits; what was submitted
is what was consumed, then what waits; and a poll no `io_uring_enter` of which fails leaves
everything consumed. -/
structure Accounted (q : Sq S) : Prop where
  count : q.toSubmit = q.tail - q.head
  room : q.tail - q.head ≤ q.size.entries
  free : ∀ as slot q' as', q.getSqe as = some (some slot, q', as') → slot ∉ q'.waiting
  once : q.consumed ++ q.unconsumed = q.submitted
  polled : ∀ as q', q.pollSubmit as = some (q', []) → .error ∉ as → q'.consumed = q.submitted

theorem Ringed.accounted (h : q.Ringed) (hl : q.Short 0) : q.Accounted := by
  have hcount : q.toSubmit = q.tail - q.head := BitVec.eq_of_toNat_eq hl
  refine ⟨hcount, h.room, fun as slot q' as' hg => ?_, h.once, fun as q' hp he => ?_⟩
  · obtain ⟨hs, used, -, hk⟩ := getSqeLoop_kept hg
    exact (hk h 0 hl).1.slot_free (hs slot rfl)
  · obtain ⟨h0, hsub, used, hu, hk⟩ := pollSubmit_kept q as hp
    rw [List.append_nil] at hu
    subst hu
    obtain ⟨hq', lost, hl', -, hiff⟩ := hk h 0 hl
    have hnone : q'.unconsumed = [] := by
      have hpend : q'.pending = 0 := by
        rw [← show q'.toSubmit.toNat + lost = q'.pending from hl', h0, hiff.mpr he]
        rfl
      unfold unconsumed waiting
      rw [hpend]
      rfl
    rw [← hsub, ← hq'.once, hnone, List.append_nil]

/-- The accounting of the submission ring is right exactly as long as no `io_uring_enter` has
failed, a signal apart: the count of one that fails is cleared although nothing was consumed. -/
theorem submission_ring {size : RingSize} {h : BitVec 32} {array : BitVec 32 → BitVec 32} {sqes : BitVec 32 → S}
    {ops : List (Op S)} (hrun : Run (fun q op q' => q.step op = some q') (init size h array sqes) ops q) :
    q.Accounted ↔ ∀ op ∈ ops, Answer.error ∉ op.answers := by
  have h0 : (init size h array sqes).Short 0 := by simp [Short, pending, init]
  obtain ⟨hq, lost, hl, -, hiff⟩ := run_kept hrun (ringed_init ..) 0 h0
  have hall : (∀ op ∈ ops, Answer.error ∉ op.answers) ↔ Answer.error ∉ ops.flatMap Op.answers := by
    simp [List.mem_flatMap]
  rw [hall, ← hiff]
  constructor
  · intro ha
    have hc := congrArg BitVec.toNat ha.count
    unfold Short pending at hl
    omega
  · rintro rfl
    exact hq.accounted hl

/-- A ring of one slot. -/
def size1 : RingSize := ⟨1, 0, ⟨0, by omega, rfl⟩, rfl⟩

/-- A ring of four slots. -/
def size4 : RingSize := ⟨4, 3, ⟨2, by omega, rfl⟩, rfl⟩

/-- The `io_uring_enter` of a flush fails: the request still waits, and is no longer counted. -/
theorem submission_ring_flush :
    ∃ q : Sq Unit, Run (fun q op q' => q.step op = some q') (init size1 0 (fun _ => 0) fun _ => ())
        [.modify () [], .flush [.error]] q ∧ ¬ q.Accounted :=
  ⟨_, Run.iff_execFrom.mpr rfl, fun h => absurd h.count (by decide)⟩

/-- The second request finds the ring full, at counters that wrap. -/
theorem submission_ring_two :
    ∃ q : Sq Unit, Run (fun q op q' => q.step op = some q') (init size1 (-1) (fun _ => 0) fun _ => ())
        [.modify () [], .modify () [.consumed 0, .eintr, .consumed 1]] q ∧ q.Accounted := by
  obtain ⟨q, hq⟩ : ∃ q : Sq Unit, execFrom step (init size1 (-1) (fun _ => 0) fun _ => ())
      [.modify () [], .modify () [.consumed 0, .eintr, .consumed 1]] = some q := ⟨_, rfl⟩
  have hrun := Run.iff_execFrom.mpr hq
  exact ⟨q, hrun, (submission_ring hrun).mpr (by decide)⟩

end Sq
end Uring
end Qev
