/-
# periodic_recalc

The next time of a periodic with an interval: `ev_floor` finds a point of the grid at or
before now, and from there the interval is added until now is past. The point is found with an
interval of at least `MIN_INTERVAL`, so that for a shorter one it is any point not after now;
otherwise the result is the least point of the grid after now (`periodic_recalc_spec`).

The functions are those of the source in any arithmetic; what they come to is in exact
arithmetic, over any ordered field with a floor to compare `ev_floor` with.
-/
import Qev.Lib.Binary
import Qev.Loop.Expire

namespace Qev

open Lib

/-! ### ev_floor -/

/-- What `ev_floor` is compiled for: `FLT_RADIX`, 2 or not, and the size of an `unsigned long`, 8 or less. -/
structure Target where
  radix2 : Bool
  long8 : Bool

/-- The shift factor of `ev_floor`. -/
def Target.shift (c : Target) : ℕ :=
  if c.radix2 then if c.long8 then 18446744073709551616 else 4294967296
  else if c.long8 then 10000000000000000000 else 1000000000

theorem Target.one_lt_shift (c : Target) : 1 < c.shift := by
  unfold shift
  split <;> split <;> decide

/-- The conversion of a time that is not negative to `unsigned long`. -/
class ToULong (T : Type) where
  toULong : T → ℕ

instance {T : Type} [Semiring T] [LinearOrder T] [FloorSemiring T] : ToULong T := ⟨fun v => ⌊v⌋₊⟩

instance {p : ℕ} : ToULong (Binary p) := ⟨fun v => ⌊v.val⌋₊⟩

section

variable {T : Type} [LinearOrder T] [Zero T] [One T] [NatCast T] [Neg T] [Add T] [Sub T] [Mul T] [Div T] [ToULong T]
  (c : Target)

/-- The replacement for `floor`, given up when it has called itself `n` times. -/
def evFloor : ℕ → T → Option T
  | 0, _ => none
  | n + 1, v =>
    if v < 0 then (evFloor n (-v)).map fun g =>
      let f := -g
      f - if f = v then 0 else 1
    else if v ≥ c.shift then
      if v = v - 1 then some v
      else (evFloor n (v * (1 / c.shift))).bind fun g =>
        let f := c.shift * g
        (evFloor n (v - f)).map (f + ·)
    else some (ToULong.toULong v : ℕ)

/-- `MIN_INTERVAL`. -/
def minInterval : T := 1 / (2 ^ 13 : ℕ)

/-- The loop of `periodic_recalc`, given up after `n` tests. -/
def recalcLoop (interval now : T) : ℕ → T → Option T
  | 0, _ => none
  | n + 1, at' =>
    if at' ≤ now then
      let nat := at' + interval
      -- when resolution fails us
      if nat = at' then some now else recalcLoop interval now n nat
    else some at'

/-- The `at` that `periodic_recalc` sets, given up when its loop has made `n` tests or `ev_floor` as many calls. -/
def periodicRecalc (n : ℕ) (offset wInterval now : T) : Option T :=
  let interval := if wInterval > minInterval then wInterval else minInterval
  (evFloor c n ((now - offset) / interval)).bind fun f =>
    recalcLoop wInterval now n (offset + interval * f)

end

/-! ### The floor -/

section

variable {T : Type} [Field T] [LinearOrder T] [IsStrictOrderedRing T] [FloorRing T] {c : Target}

section

omit [FloorRing T]

theorem shift_pos : (0 : T) < c.shift := Nat.cast_pos.mpr (Nat.zero_lt_of_lt c.one_lt_shift)

end

section

omit [IsStrictOrderedRing T]

theorem evFloor_small {v : T} (h0 : 0 ≤ v) (hlt : v < c.shift) (n : ℕ) : evFloor c (n + 1) v = some (⌊v⌋ : T) := by
  unfold evFloor
  rw [if_neg (not_lt.mpr h0), if_neg (not_le.mpr hlt)]
  exact congrArg some (natCast_floor_eq_intCast_floor h0)

end

/-- As many calls as `v` has digits. -/
theorem evFloor_nonneg {v : T} (k : ℕ) (h0 : 0 ≤ v) (hlt : v < (c.shift : T) ^ (k + 1)) {n : ℕ} (hn : k < n) :
    evFloor c n v = some (⌊v⌋ : T) := by
  induction k generalizing v n with
  | zero =>
    obtain ⟨n, rfl⟩ : ∃ m, n = m + 1 := ⟨n - 1, by omega⟩
    exact evFloor_small h0 (by simpa using hlt) n
  | succ k ih =>
    obtain ⟨n, rfl⟩ : ∃ m, n = m + 1 + 1 := ⟨n - 2, by omega⟩
    by_cases hs : v < c.shift
    · exact evFloor_small h0 hs (n + 1)
    · have hpos : (0 : T) < c.shift := shift_pos
      have hdiv : v * (1 / (c.shift : T)) = v / c.shift := by rw [mul_one_div]
      have hlow : evFloor c (n + 1) (v / (c.shift : T)) = some (⌊v / (c.shift : T)⌋ : T) := by
        refine ih (div_nonneg h0 hpos.le) ?_ (by omega)
        rw [div_lt_iff₀ hpos, ← pow_succ]
        exact hlt
      -- the multiple of the shift is taken off, and the rest fits
      have hf : ((c.shift : T) * ⌊v / (c.shift : T)⌋ : T) = ((c.shift * ⌊v / (c.shift : T)⌋ : ℤ) : T) := by
        push_cast
        rfl
      have hrest0 : 0 ≤ v - (c.shift : T) * ⌊v / (c.shift : T)⌋ := by
        have hle := Int.floor_le (v / (c.shift : T))
        rw [le_div_iff₀ hpos] at hle
        linarith
      have hrest : v - (c.shift : T) * ⌊v / (c.shift : T)⌋ < c.shift := by
        have hlt := Int.lt_floor_add_one (v / (c.shift : T))
        rw [div_lt_iff₀ hpos] at hlt
        linarith
      have hone : v ≠ v - 1 := fun he => by linarith
      unfold evFloor
      rw [if_neg (not_lt.mpr h0), if_pos (not_lt.mp hs), if_neg hone, hdiv, hlow, Option.bind_some]
      dsimp only
      rw [evFloor_small hrest0 hrest, hf, Int.floor_sub_intCast]
      simp

/-- **ev_floor** comes to its end, with the floor. -/
theorem ev_floor_eq (c : Target) (v : T) : ∃ n, ∀ m, n ≤ m → evFloor c m v = some (⌊v⌋ : T) := by
  have hone : (1 : T) < c.shift := Nat.one_lt_cast.mpr c.one_lt_shift
  have hnonneg : ∀ v : T, 0 ≤ v → ∃ n, ∀ m, n ≤ m → evFloor c m v = some (⌊v⌋ : T) := by
    intro v h0
    obtain ⟨k, hk⟩ := pow_unbounded_of_one_lt v hone
    refine ⟨k + 1, fun m hm => evFloor_nonneg k h0 (hk.trans ?_) hm⟩
    exact pow_lt_pow_right₀ hone (Nat.lt_succ_self k)
  by_cases h0 : 0 ≤ v
  · exact hnonneg v h0
  · have hneg : v < 0 := not_le.mp h0
    obtain ⟨n, hn⟩ := hnonneg (-v) (neg_nonneg.mpr hneg.le)
    refine ⟨n + 1, fun m hm => ?_⟩
    obtain ⟨m, rfl⟩ : ∃ k, m = k + 1 := ⟨m - 1, by omega⟩
    unfold evFloor
    rw [if_pos hneg, hn m (by omega), Option.map_some]
    refine congrArg some ?_
    have hle := Int.floor_le (-v)
    have hlt := Int.lt_floor_add_one (-v)
    dsimp only
    by_cases he : -((⌊-v⌋ : ℤ) : T) = v
    · rw [if_pos he, sub_zero, he]
      nth_rewrite 2 [← he]
      rw [← Int.cast_neg, Int.floor_intCast, Int.cast_neg, he]
    · have hne : ((⌊-v⌋ : ℤ) : T) < -v := lt_of_le_of_ne hle fun hc => he (by rw [hc, neg_neg])
      rw [if_neg he]
      have hfloor : ⌊v⌋ = -⌊-v⌋ - 1 := by
        rw [Int.floor_eq_iff]
        push_cast
        constructor <;> linarith
      rw [hfloor]
      push_cast
      rfl

end

/-! ### The next point after now -/

section

variable {T : Type} [Field T] [LinearOrder T] [IsStrictOrderedRing T] [FloorRing T] {c : Target}
  {offset interval now at' : T}

theorem minInterval_pos : (0 : T) < minInterval := by
  unfold minInterval
  positivity

/-- The loop goes to the first of the points `at'`, `at' + interval`, and so on that is after now. -/
theorem recalcLoop_eq (hi : 0 < interval) (j : ℕ) (hle : at' + j * interval ≤ now)
    (hlt : now < at' + (j + 1) * interval) {n : ℕ} (hn : j + 2 ≤ n) :
    recalcLoop interval now n at' = some (at' + (j + 1) * interval) := by
  obtain ⟨n, rfl⟩ : ∃ m, n = m + 1 := ⟨n - 1, by omega⟩
  have hne : at' + interval ≠ at' := fun he => by linarith
  have hat : at' ≤ now := by
    have hj : 0 ≤ (j : T) * interval := by positivity
    linarith
  unfold recalcLoop
  dsimp only
  rw [if_pos hat, if_neg hne]
  induction j generalizing at' n with
  | zero =>
    obtain ⟨n, rfl⟩ : ∃ m, n = m + 1 := ⟨n - 1, by omega⟩
    simp only [Nat.cast_zero, zero_add, one_mul] at hlt ⊢
    exact if_neg (not_le.mpr hlt)
  | succ j ih =>
    obtain ⟨n, rfl⟩ : ∃ m, n = m + 1 := ⟨n - 1, by omega⟩
    have hshift : at' + interval + (j + 1) * interval = at' + ((j + 1 : ℕ) + 1) * interval := by
      push_cast
      ring
    have hle' : at' + interval + j * interval ≤ now := by
      have he : at' + interval + j * interval = at' + (j + 1 : ℕ) * interval := by
        push_cast
        ring
      rwa [he]
    have hat' : at' + interval ≤ now := by
      have hj : 0 ≤ (j : T) * interval := by positivity
      linarith
    have hne' : at' + interval + interval ≠ at' + interval := fun he => by linarith
    unfold recalcLoop
    dsimp only
    rw [if_pos hat', if_neg hne', ← hshift]
    exact ih hle' (by rwa [hshift]) n (by omega) hne' hat'

/-- The first of the points `at'`, `at' + interval`, and so on that is after now. -/
def pointAfter (at' interval now : T) : T := at' + (⌊(now - at') / interval⌋ + 1) * interval

/-- Where `periodic_recalc` gets to. -/
def nextPoint (offset interval now : T) : T :=
  let i := if interval > minInterval then interval else minInterval
  pointAfter (offset + i * (⌊(now - offset) / i⌋ : T)) interval now

theorem pointAfter_bounds (hi : 0 < interval) :
    now < pointAfter at' interval now ∧ pointAfter at' interval now ≤ now + interval := by
  have hle := Int.floor_le ((now - at') / interval)
  have hlt := Int.lt_floor_add_one ((now - at') / interval)
  rw [le_div_iff₀ hi] at hle
  rw [div_lt_iff₀ hi] at hlt
  unfold pointAfter
  constructor <;> linarith

/-- From a point at or before now the loop ends. -/
theorem recalcLoop_spec (hi : 0 < interval) (hat : at' ≤ now) :
    ∃ n, ∀ m, n ≤ m → recalcLoop interval now m at' = some (pointAfter at' interval now) := by
  have hdiv : 0 ≤ (now - at') / interval := div_nonneg (sub_nonneg.mpr hat) hi.le
  have hle := Nat.floor_le hdiv
  have hlt := Nat.lt_floor_add_one ((now - at') / interval)
  have hint := natCast_floor_eq_intCast_floor hdiv
  unfold pointAfter
  rw [← hint]
  generalize ⌊(now - at') / interval⌋₊ = j at hle hlt
  rw [le_div_iff₀ hi] at hle
  rw [div_lt_iff₀ hi] at hlt
  exact ⟨j + 2, fun m hm => recalcLoop_eq hi j (by linarith) (by linarith) hm⟩

/-- The interval that the grid is entered with. -/
theorem gridInterval_pos (hi : 0 < interval) : 0 < if interval > minInterval then interval else minInterval := by
  split
  · exact hi
  · exact minInterval_pos

theorem periodicRecalc_eq (c : Target) (offset now : T) (hi : 0 < interval) :
    ∃ n, ∀ m, n ≤ m → periodicRecalc c m offset interval now = some (nextPoint offset interval now) := by
  have hpos := gridInterval_pos hi
  unfold periodicRecalc nextPoint
  generalize (if interval > minInterval then interval else minInterval) = i at hpos
  obtain ⟨n₁, hfloor⟩ := ev_floor_eq c ((now - offset) / i)
  have hstart : offset + i * (⌊(now - offset) / i⌋ : T) ≤ now := by
    have hle := Int.floor_le ((now - offset) / i)
    rw [le_div_iff₀ hpos] at hle
    linarith
  obtain ⟨n₂, hloop⟩ := recalcLoop_spec hi hstart
  refine ⟨max n₁ n₂, fun m hm => ?_⟩
  dsimp only
  rw [hfloor m (by omega), Option.bind_some, hloop m (by omega)]

/-- With an interval that is not too short, it is the least point of the grid after now. -/
theorem nextPoint_least (offset now : T) (hi : 0 < interval) (hmin : minInterval ≤ interval) :
    (∃ k : ℤ, nextPoint offset interval now - offset = k * interval) ∧
      ∀ k : ℤ, now < offset + k * interval → nextPoint offset interval now ≤ offset + k * interval := by
  have hsame : (if interval > minInterval then interval else minInterval) = interval := by
    split
    · rfl
    · rename_i hngt
      exact le_antisymm hmin (not_lt.mp hngt)
  have hle : nextPoint offset interval now ≤ now + interval := (pointAfter_bounds hi).2
  unfold nextPoint at hle ⊢
  unfold pointAfter at hle ⊢
  dsimp only at hle ⊢
  rw [hsame] at hle ⊢
  generalize ⌊(now - offset) / interval⌋ = f at hle
  generalize ⌊(now - (offset + interval * f)) / interval⌋ = j at hle
  have hgrid : offset + interval * (f : T) + (j + 1) * interval = offset + ((f + j + 1 : ℤ) : T) * interval := by
    push_cast
    ring
  refine ⟨⟨f + j + 1, by rw [hgrid, add_sub_cancel_left]⟩, fun k hk => ?_⟩
  -- an earlier point of the grid is an interval or more before
  rw [hgrid] at hle ⊢
  by_contra hgt
  rw [not_le, add_lt_add_iff_left, mul_lt_mul_iff_left₀ hi, Int.cast_lt] at hgt
  have hk' : (k : T) ≤ ((f + j + 1 : ℤ) : T) - 1 := by
    have hle' : k ≤ f + j + 1 - 1 := Int.le_sub_one_of_lt hgt
    exact_mod_cast hle'
  have hmul := mul_le_mul_of_nonneg_right hk' hi.le
  linarith

/-- **periodic_recalc** comes to its end, within one interval after now; with an interval of at least
`MIN_INTERVAL` it is the least point of the grid after now. So does the `ev_floor` it calls, with the floor. -/
theorem periodic_recalc_spec (c : Target) :
    (∀ v : T, ∃ n, ∀ m, n ≤ m → evFloor c m v = some (⌊v⌋ : T)) ∧
    ∀ offset interval now : T, 0 < interval →
      ∃ at' : T, (∃ n, ∀ m, n ≤ m → periodicRecalc c m offset interval now = some at') ∧
        now < at' ∧ at' ≤ now + interval ∧
        (minInterval ≤ interval → (∃ k : ℤ, at' - offset = k * interval) ∧
          ∀ k : ℤ, now < offset + k * interval → at' ≤ offset + k * interval) :=
  ⟨ev_floor_eq c, fun offset _ now hi => ⟨_, periodicRecalc_eq c offset now hi, (pointAfter_bounds hi).1,
    (pointAfter_bounds hi).2, nextPoint_least offset now hi⟩⟩

end

/-- Every 5 from 1 on: the next after 12 is 16. -/
theorem periodic_recalc_spec_five : ∃ at' : ℚ,
    (∃ n, ∀ m, n ≤ m → periodicRecalc ⟨true, true⟩ m 1 5 12 = some at') ∧ 12 < at' ∧ at' ≤ 16 := by
  obtain ⟨at', hcalc, hlt, -, hgrid⟩ := (periodic_recalc_spec (T := ℚ) ⟨true, true⟩).2 1 5 12 (by norm_num)
  have hmin : (minInterval : ℚ) ≤ 5 := by
    unfold minInterval
    norm_num
  have hle := (hgrid hmin).2 3 (by norm_num)
  exact ⟨at', hcalc, hlt, hle.trans (by norm_num)⟩

end Qev
