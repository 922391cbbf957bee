/-
# A deadline looked at in rounds

Time passes in rounds. The round that finds the deadline in its past makes a delivery due, and puts the
deadline back by the period, or to its own time if that is later; without a period there is no other
deadline. What is due is delivered before the next round.

Late rounds shift the deadline, but never to before where the deliveries so far have it (`Recurs`): a round
that makes the `k`th is later than the first deadline and `k - 1` periods (`recurs`). Without a period the
one delivery is that of the first round past the deadline (`fires`).
-/
import Qev.Lib.Run

namespace Qev
namespace Lib

/-- A round's time, and how often was delivered in it. -/
structure Round (T : Type*) where
  time : T
  given : ℕ

/-- The rounds so far, the newest first. -/
structure Clockwork (T : Type*) where
  deadline : Option T
  due : Bool
  rounds : List (Round T)

namespace Clockwork

variable {T : Type*}

inductive Act (T : Type*)
  | round (time : T)
  | deliver

/-- One more delivery in the newest round. -/
def give : List (Round T) → List (Round T)
  | [] => []
  | r :: rs => { r with given := r.given + 1 } :: rs

def deliveries (rounds : List (Round T)) : ℕ := (rounds.map Round.given).sum

theorem deliveries_cons (r : Round T) (rs : List (Round T)) : deliveries (r :: rs) = r.given + deliveries rs :=
  List.sum_cons

/-- The rounds before one of those, the newest with one delivery more, are the rounds before it. -/
theorem give_eq_append {rs newer older : List (Round T)} {r : Round T} (h : give rs = newer ++ r :: older) :
    (newer = [] ∧ ∃ q, rs = q :: older ∧ r = { q with given := q.given + 1 }) ∨
      ∃ q newer', rs = q :: (newer' ++ r :: older) := by
  cases rs with
  | nil => simp [give] at h
  | cons q rs =>
    cases newer with
    | nil =>
      obtain ⟨rfl, rfl⟩ := List.cons.inj h
      exact .inl ⟨rfl, q, rfl, rfl⟩
    | cons p newer =>
      obtain ⟨-, rfl⟩ := List.cons.inj h
      exact .inr ⟨q, newer, rfl⟩

section

variable [LinearOrder T] [Add T] [Zero T] (period : T)

/-- Where a deadline is put that a round at `time` has found in its past. -/
def next (deadline time : T) : Option T := if period = 0 then none else some (max (deadline + period) time)

/-- A round at `time`. -/
def round (time : T) (s : Clockwork T) : Clockwork T :=
  match s.deadline with
  | none => { s with rounds := ⟨time, 0⟩ :: s.rounds }
  | some d =>
    if d < time then ⟨next period d time, true, ⟨time, 0⟩ :: s.rounds⟩
    else { s with rounds := ⟨time, 0⟩ :: s.rounds }

def step (s : Clockwork T) : Act T → Option (Clockwork T)
  | .round time => if s.due then none else some (s.round period time)
  | .deliver => if s.due then some { s with due := false, rounds := give s.rounds } else none

theorem round_past {s : Clockwork T} {d time : T} (hd : s.deadline = some d) (hlt : d < time) :
    s.round period time = ⟨next period d time, true, ⟨time, 0⟩ :: s.rounds⟩ := by
  simp only [round, hd, if_pos hlt]

theorem round_idle {s : Clockwork T} {time : T} (h : ∀ d, s.deadline = some d → ¬ d < time) :
    s.round period time = { s with rounds := ⟨time, 0⟩ :: s.rounds } := by
  unfold round
  split
  · rfl
  · rename_i d hd
    exact if_neg (h d hd)

theorem rounds_round (s : Clockwork T) (time : T) : (s.round period time).rounds = ⟨time, 0⟩ :: s.rounds := by
  unfold round
  split
  · rfl
  · split
    · rfl
    · rfl

/-- A round begins with nothing due. -/
theorem step_round {s t : Clockwork T} {time : T} (hs : step period s (.round time) = some t) :
    s.due = false ∧ t = s.round period time := by
  simp only [step, Option.ite_none_left_eq_some, Option.some.injEq] at hs
  exact ⟨Bool.eq_false_of_not_eq_true hs.1, hs.2.symm⟩

abbrev Runs (s : Clockwork T) (acts : List (Act T)) (t : Clockwork T) : Prop :=
  Run (fun s a t => step period s a = some t) s acts t

end

/-- The deliveries made in the rounds, and the one that is due. -/
def owed (s : Clockwork T) : ℕ := deliveries s.rounds + if s.due ∧ s.rounds ≠ [] then 1 else 0

section

variable [LinearOrder T] [AddCommMonoid T] [IsOrderedAddMonoid T] {period d : T} {s t : Clockwork T}
  {acts : List (Act T)}

/-! ### With a period -/

/-- Every round that delivers, or is to, is later than the deadline first set and as many periods as there were
deliveries before it. -/
structure Recurs (period d : T) (s : Clockwork T) : Prop where
  deadline : ∃ d', s.deadline = some d' ∧ d + s.owed • period ≤ d'
  once : ∀ r ∈ s.rounds, r.given ≤ 1
  due : s.due = true → ∀ r older, s.rounds = r :: older → r.given = 0 ∧ d + deliveries older • period < r.time
  late : ∀ newer r older, s.rounds = newer ++ r :: older → r.given ≠ 0 → d + deliveries older • period < r.time

section

omit [IsOrderedAddMonoid T]

theorem recurs_start (due : Bool) : Recurs period d ⟨some d, due, []⟩ where
  deadline := ⟨d, rfl, by simp [owed, deliveries]⟩
  once := fun _ hr => absurd hr List.not_mem_nil
  due := fun _ _ _ h => by cases h
  late := fun newer _ _ h => by cases newer <;> cases h

/-- A round that finds nothing due. -/
theorem Recurs.idle (h : Recurs period d s) (hdue : s.due = false) (time : T) :
    Recurs period d { s with rounds := ⟨time, 0⟩ :: s.rounds } := by
  obtain ⟨d', hd', hle⟩ := h.deadline
  have howed : owed { s with rounds := ⟨time, 0⟩ :: s.rounds } = s.owed := by
    simp [owed, hdue, deliveries_cons]
  refine ⟨⟨d', hd', howed ▸ hle⟩, fun r hr => ?_, fun hd => ?_, fun newer r older he hg => ?_⟩
  · rcases List.mem_cons.mp hr with rfl | hr
    · exact Nat.zero_le 1
    · exact h.once r hr
  · rw [show s.due = true from hd] at hdue
    cases hdue
  · cases newer with
    | nil =>
      obtain ⟨rfl, -⟩ := List.cons.inj he
      exact (hg rfl).elim
    | cons q newer => exact h.late newer r older (List.cons.inj he).2 hg

end

/-- A round that finds the deadline past. -/
theorem Recurs.past (hperiod : 0 < period) (h : Recurs period d s) (hdue : s.due = false) {d' time : T}
    (hd' : s.deadline = some d') (hlt : d' < time) :
    Recurs period d ⟨next period d' time, true, ⟨time, 0⟩ :: s.rounds⟩ := by
  obtain ⟨d'', hd'', hle⟩ := h.deadline
  obtain rfl : d'' = d' := Option.some.inj (hd''.symm.trans hd')
  have howed : s.owed = deliveries s.rounds := by simp [owed, hdue]
  have hbound : d + deliveries s.rounds • period < time := lt_of_le_of_lt (howed ▸ hle) hlt
  refine ⟨⟨max (d'' + period) time, if_neg hperiod.ne', ?_⟩, fun r hr => ?_, fun _ r older he => ?_,
    fun newer r older he hg => ?_⟩
  · have hmore : owed ⟨next period d'' time, true, ⟨time, 0⟩ :: s.rounds⟩ = s.owed + 1 := by
      simp [owed, hdue, deliveries_cons]
    rw [hmore, succ_nsmul, ← add_assoc]
    exact le_max_of_le_left (add_le_add_left hle period)
  · rcases List.mem_cons.mp hr with rfl | hr
    · exact Nat.zero_le 1
    · exact h.once r hr
  · obtain ⟨rfl, rfl⟩ := List.cons.inj he
    exact ⟨rfl, hbound⟩
  · cases newer with
    | nil =>
      obtain ⟨rfl, -⟩ := List.cons.inj he
      exact (hg rfl).elim
    | cons q newer => exact h.late newer r older (List.cons.inj he).2 hg

section

omit [IsOrderedAddMonoid T]

theorem Recurs.deliver (h : Recurs period d s) (hdue : s.due = true) :
    Recurs period d { s with due := false, rounds := give s.rounds } := by
  obtain ⟨d', hd', hle⟩ := h.deadline
  have howed : owed { s with due := false, rounds := give s.rounds } = s.owed := by
    unfold owed
    cases s.rounds with
    | nil => simp [give]
    | cons r rs =>
      simp [give, hdue, deliveries_cons]
      omega
  refine ⟨⟨d', hd', howed ▸ hle⟩, fun r hr => ?_, fun hd => absurd hd Bool.false_ne_true,
    fun newer r older he hg => ?_⟩
  · obtain ⟨newer, older, he⟩ := List.append_of_mem hr
    rcases give_eq_append he with ⟨-, q, hq, rfl⟩ | ⟨q, newer', hq⟩
    · exact Nat.succ_le_succ (h.due hdue q older hq).1.le
    · refine h.once r ?_
      rw [hq]
      simp
  · rcases give_eq_append he with ⟨-, q, hq, rfl⟩ | ⟨q, newer', hq⟩
    · exact (h.due hdue q older hq).2
    · exact h.late (q :: newer') r older hq hg

end

theorem Recurs.step {a : Act T} (hperiod : 0 < period) (h : Recurs period d s) (hs : step period s a = some t) :
    Recurs period d t := by
  cases a with
  | round time =>
    obtain ⟨hdue, hs⟩ := step_round period hs
    obtain ⟨d', hd', -⟩ := h.deadline
    by_cases hlt : d' < time
    · rw [hs, round_past period hd' hlt]
      exact h.past hperiod hdue hd' hlt
    · rw [hs, round_idle period fun d'' hd'' => Option.some.inj (hd'.symm.trans hd'') ▸ hlt]
      exact h.idle hdue time
  | deliver =>
    simp only [Clockwork.step, Option.ite_none_right_eq_some] at hs
    obtain ⟨hdue, hs⟩ := hs
    cases hs
    exact h.deliver hdue

theorem recurs (hperiod : 0 < period) {due : Bool} (hrun : Runs period ⟨some d, due, []⟩ acts s) :
    Recurs period d s :=
  hrun.invariant (fun _ _ _ h hs => h.step hperiod hs) (recurs_start due)

/-! ### Without one -/

/-- This round, after those, is the first past the deadline. -/
def First (d : T) (r : Round T) (older : List (Round T)) : Prop := d < r.time ∧ ∀ q ∈ older, q.time ≤ d

instance (d : T) (r : Round T) (older : List (Round T)) : Decidable (First d r older) :=
  inferInstanceAs (Decidable (_ ∧ _))

/-- The first round past the deadline delivers, or is to, and no other does. -/
structure Fires (d : T) (s : Clockwork T) : Prop where
  deadline : s.deadline = if ∀ r ∈ s.rounds, r.time ≤ d then some d else none
  given : ∀ newer r older, s.rounds = newer ++ r :: older →
    r.given + (if newer = [] ∧ s.due = true then 1 else 0) = if First d r older then 1 else 0

section

omit [AddCommMonoid T] [IsOrderedAddMonoid T]

theorem fires_start (due : Bool) : Fires d ⟨some d, due, []⟩ where
  deadline := (if_pos fun _ hr => absurd hr List.not_mem_nil).symm
  given := fun newer _ _ h => by cases newer <;> cases h

/-- Another round, which delivers nothing so far, finds nothing due and leaves this. -/
theorem Fires.round (h : Fires d s) (hdue : s.due = false) {time : T} {o : Option T} {due : Bool}
    (ho : o = if ∀ r ∈ (⟨time, 0⟩ :: s.rounds : List (Round T)), r.time ≤ d then some d else none)
    (hd : due = true ↔ First d ⟨time, 0⟩ s.rounds) : Fires d ⟨o, due, ⟨time, 0⟩ :: s.rounds⟩ := by
  refine ⟨ho, fun newer r older he => ?_⟩
  cases newer with
  | nil =>
    obtain ⟨rfl, rfl⟩ := List.cons.inj he
    simp only [true_and, hd, zero_add]
  | cons q newer =>
    have hr := h.given newer r older (List.cons.inj he).2
    rw [hdue] at hr
    simpa using hr

end

section

omit [IsOrderedAddMonoid T]

theorem Fires.step {a : Act T} (h : Fires d s) (hs : step 0 s a = some t) : Fires d t := by
  cases a with
  | round time =>
    obtain ⟨hdue, hs⟩ := step_round 0 hs
    by_cases hall : ∀ r ∈ s.rounds, r.time ≤ d
    · have hd : s.deadline = some d := h.deadline.trans (if_pos hall)
      by_cases hlt : d < time
      · rw [hs, round_past 0 hd hlt]
        refine h.round hdue ?_ (iff_of_true rfl ⟨hlt, hall⟩)
        rw [if_neg fun hc => not_lt.mpr (hc _ List.mem_cons_self) hlt]
        exact if_pos rfl
      · rw [hs, round_idle 0 fun d' hd' => Option.some.inj (hd.symm.trans hd') ▸ hlt]
        refine h.round hdue ?_ (iff_of_false (by simp [hdue]) fun hc => hlt hc.1)
        have hnone : ∀ r ∈ (⟨time, 0⟩ :: s.rounds : List (Round T)), r.time ≤ d :=
          List.forall_mem_cons.mpr ⟨not_lt.mp hlt, hall⟩
        exact hd.trans (if_pos hnone).symm
    · have hd : s.deadline = none := h.deadline.trans (if_neg hall)
      rw [hs, round_idle 0 fun d' hd' => by rw [hd] at hd'; cases hd']
      refine h.round hdue ?_ (iff_of_false (by simp [hdue]) fun hc => hall hc.2)
      exact hd.trans (if_neg fun hc => hall fun r hr => hc r (List.mem_cons_of_mem _ hr)).symm
  | deliver =>
    simp only [Clockwork.step, Option.ite_none_right_eq_some] at hs
    obtain ⟨hdue, hs⟩ := hs
    cases hs
    -- the newest round has what was due, and the times are as they were
    have htimes : ∀ rs : List (Round T), (∀ r ∈ give rs, r.time ≤ d) ↔ ∀ r ∈ rs, r.time ≤ d := fun rs => by
      cases rs with
      | nil => exact Iff.rfl
      | cons q rs => simp only [give, List.forall_mem_cons]
    refine ⟨?_, fun newer r older he => ?_⟩
    · simp only [htimes]
      exact h.deadline
    · rcases give_eq_append he with ⟨rfl, q, hq, rfl⟩ | ⟨q, newer', hq⟩
      · have hr := h.given [] q older hq
        have hone : q.given + 1 = if First d q older then 1 else 0 := by simpa [hdue] using hr
        exact (add_zero _).trans hone
      · have hr := h.given (q :: newer') r older hq
        simpa using hr

theorem fires {due : Bool} (hrun : Runs 0 ⟨some d, due, []⟩ acts s) : Fires d s :=
  hrun.invariant (fun _ _ _ h hs => h.step hs) (fires_start due)

end

section

omit [AddCommMonoid T] [IsOrderedAddMonoid T]

/-- Then no round delivers twice. -/
theorem Fires.once (h : Fires d s) : ∀ r ∈ s.rounds, r.given ≤ 1 := by
  intro r hr
  obtain ⟨newer, older, he⟩ := List.append_of_mem hr
  have hg := h.given newer r older he
  split at hg
  · split at hg <;> omega
  · split at hg <;> omega

end

end

end Clockwork

end Lib
end Qev
