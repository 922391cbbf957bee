/-
# Arrays that grow

The arrays of the loop are allocated for more entries than they have. `array_needsize` is called with a count before
the entries are used, and `array_nextsize` finds the next capacity: the one there is and one more, doubled until it
suffices, and in bytes rounded up to less than a multiple of `MALLOC_ROUND` by what an allocator needs for itself.

Its arithmetic is that of `size_t`. For the sizes there are none of it wraps, not even where the outcome is clamped or
left unrounded, and the capacity covers the count (`array_growth`).
-/
import Qev.Lib.Sized

namespace Qev

open Lib

namespace Grow

/-- `INT_MAX`. -/
def intMax : ℕ := 2 ^ 31 - 1

/-- `LONG_MAX`. -/
def longMax : ℕ := 2 ^ 63 - 1

/-- `MALLOC_ROUND` is a power of two. -/
def mallocBits : ℕ := 12

def mallocRound : ℕ := 2 ^ mallocBits

/-- `sizeof (void *)`. -/
def pointerSize : ℕ := 8

/-- `(size_t) n`. -/
def size (n : ℕ) : Sized 64 := .ofNat n

/-! ### array_nextsize -/

/-- `do ncur <<= 1; while (cnt > ncur)`, given up after `fuel` rounds. -/
def doubled (cnt : ℕ) : ℕ → Sized 64 → Option (Sized 64)
  | 0, _ => none
  | fuel + 1, ncur =>
    let ncur := ncur.double
    if ncur.value.toNat < cnt then doubled cnt fuel ncur else some ncur

/-- A large size is rounded, in bytes. -/
def rounded (elem : ℕ) (ncur : Sized 64) : Sized 64 :=
  let nbytes := (size elem).mul ncur
  if mallocRound - pointerSize * 4 < nbytes.value.toNat then
    let nbytes := ((nbytes.add (size elem)).add (size (mallocRound - 1))).add (size (pointerSize * 4))
    let nbytes := nbytes.clearLow mallocBits
    let nbytes := nbytes.sub (size (pointerSize * 4))
    nbytes.div (size elem)
  else ncur.after nbytes

def clamped (ncur : Sized 64) : Sized 64 := if intMax < ncur.value.toNat then (size intMax).after ncur else ncur

/-- Before the cast to `int`. It is exact if no operation on the way wrapped, those with no part in the result too. -/
def arrayNextsize (fuel elem cur cnt : ℕ) : Option (Sized 64) :=
  (doubled cnt fuel ((size cur).add (size 1))).map fun ncur => clamped (rounded elem ncur)

/-- `(int) n`. -/
def toInt (n : Sized 64) : ℤ := (n.value.setWidth 32).toInt

/-! ### array_needsize -/

/-- An array, with its capacity. `base` are the cells that are allocated. -/
structure Arr (α : Type) where
  base : List α
  cur : ℕ

/-- The cells of a block that `ev_realloc` has made as large as so many bytes. What is in new ones is not said. -/
def evRealloc {α : Type} (elem : ℕ) (junk : ℕ → α) (base : List α) (nbytes : ℕ) : List α :=
  (List.range (nbytes / elem)).map fun i => base.getD i (junk i)

/-- `none` where it gives up: the loop does not end, or the size is no `long`. -/
def arrayRealloc {α : Type} (fuel elem : ℕ) (junk : ℕ → α) (a : Arr α) (cnt : ℕ) : Option (Arr α) :=
  (arrayNextsize fuel elem a.cur cnt).bind fun ncur =>
    let cur := (toInt ncur).toNat
    let nbytes := (size elem).mul (size cur)
    if longMax < nbytes.value.toNat then none else some ⟨evRealloc elem junk a.base nbytes.value.toNat, cur⟩

/-- `array_needsize_zerofill`. -/
def zerofill {α : Type} [Zero α] (base : List α) (offset count : ℕ) : List α :=
  base.take offset ++ List.replicate count 0 ++ base.drop (offset + count)

/-- `array_needsize`, and what it calls `init` with. -/
def arrayNeedsize {α : Type} (fuel elem : ℕ) (junk : ℕ → α) (init : List α → ℕ → ℕ → List α) (a : Arr α)
    (cnt : ℕ) : Option (Arr α × Option (ℕ × ℕ)) :=
  if a.cur < cnt then
    (arrayRealloc fuel elem junk a cnt).map fun b =>
      ({ b with base := init b.base a.cur (b.cur - a.cur) }, some (a.cur, b.cur - a.cur))
  else some (a, none)

/-- The capacity after that. -/
def capacity (elem cur cnt : ℕ) : ℕ :=
  if cur < cnt then (arrayNextsize 31 elem cur cnt).elim cur fun ncur => (toInt ncur).toNat else cur

/-! ### The next size -/

section

variable {elem cur cnt fuel n : ℕ} {x : Sized 64}

theorem is_size (h : n < 2 ^ 64) : (size n).Is n := Sized.is_ofNat h

/-- The doubling ends, with at least twice what it began with and at least the count. -/
theorem is_doubled (hx : x.Is n) (hn : n ≤ cnt) (hcnt : cnt ≤ intMax) (hfuel : cnt ≤ n * 2 ^ fuel) (hpos : 0 < fuel) :
    ∃ y m, doubled cnt fuel x = some y ∧ y.Is m ∧ 2 * n ≤ m ∧ cnt ≤ m ∧ m < 2 ^ 32 := by
  unfold intMax at hcnt
  induction fuel generalizing x n with
  | zero => exact absurd hpos (lt_irrefl 0)
  | succ fuel ih =>
    have hy : x.double.Is (2 * n) := hx.double (by omega)
    unfold doubled
    dsimp only
    rw [hy.value]
    split
    · rename_i hlt
      have hfuel' : cnt ≤ 2 * n * 2 ^ fuel := by
        rw [pow_succ'] at hfuel
        calc cnt ≤ n * (2 * 2 ^ fuel) := hfuel
          _ = 2 * n * 2 ^ fuel := by ring
      have hpos' : 0 < fuel := by
        by_contra hz
        rw [Nat.eq_zero_of_not_pos hz, pow_zero, mul_one] at hfuel'
        omega
      obtain ⟨y, m, hdoubled, hm, h₁, h₂, h₃⟩ := ih hy hlt.le hfuel' hpos'
      exact ⟨y, m, hdoubled, hm, by omega, h₂, h₃⟩
    · exact ⟨x.double, 2 * n, rfl, hy, le_refl _, by omega, by omega⟩

/-- The rounding adds room for one entry before it rounds down. -/
theorem is_rounded (hx : x.Is n) (hn : n < 2 ^ 32) (hpos : 0 < elem) (helem : elem ≤ 2 ^ 20) :
    ∃ m, (rounded elem x).Is m ∧ n ≤ m := by
  have hbytes : elem * n < 2 ^ 52 := by
    calc elem * n ≤ 2 ^ 20 * n := Nat.mul_le_mul_right n helem
      _ < 2 ^ 20 * 2 ^ 32 := Nat.mul_lt_mul_of_pos_left hn (by decide)
  have helem' : (size elem).Is elem := is_size (by omega)
  have hmul := helem'.mul hx (by omega)
  unfold rounded
  dsimp only
  split
  · have hround : (size (mallocRound - 1)).Is (mallocRound - 1) := is_size (by decide)
    have hptr : (size (pointerSize * 4)).Is (pointerSize * 4) := is_size (by decide)
    unfold mallocRound mallocBits pointerSize at *
    have hsum := ((hmul.add helem' (by omega)).add hround (by omega)).add hptr (by omega)
    have hlow := hsum.clearLow (k := 12) (by decide)
    have hsub := hlow.sub hptr (by omega)
    refine ⟨_, hsub.div helem', ?_⟩
    rw [Nat.le_div_iff_mul_le hpos, mul_comm n elem]
    omega
  · exact ⟨n, hx.after hmul, le_refl n⟩

theorem is_clamped (hx : x.Is n) : (clamped x).Is (min n intMax) := by
  unfold clamped
  rw [hx.value]
  split
  · rename_i hlt
    rw [min_eq_right hlt.le]
    exact (is_size (by decide)).after hx
  · rename_i hle
    rw [min_eq_left (not_lt.mp hle)]
    exact hx

theorem is_arrayNextsize (hpos : 0 < elem) (helem : elem ≤ 2 ^ 20) (hcur : cur < cnt) (hcnt : cnt ≤ intMax)
    (hfuel : 31 ≤ fuel) :
    ∃ y m, arrayNextsize fuel elem cur cnt = some y ∧ y.Is m ∧ cnt ≤ m ∧ m ≤ intMax := by
  have hmax : intMax = 2147483647 := rfl
  have hstart : ((size cur).add (size 1)).Is (cur + 1) :=
    (is_size (by omega)).add (is_size (by decide)) (by omega)
  have hpow : cnt ≤ (cur + 1) * 2 ^ fuel := by
    calc cnt ≤ 2 ^ 31 := by omega
      _ ≤ 2 ^ fuel := Nat.pow_le_pow_right (by decide) hfuel
      _ ≤ (cur + 1) * 2 ^ fuel := Nat.le_mul_of_pos_left _ (Nat.succ_pos cur)
  obtain ⟨y, m, hdoubled, hm, -, hle, hlt⟩ := is_doubled hstart hcur hcnt hpow (by omega)
  obtain ⟨r, hr, hmr⟩ := is_rounded hm hlt hpos helem
  refine ⟨clamped (rounded elem y), min r intMax, ?_, is_clamped hr, ?_, min_le_right ..⟩
  · unfold arrayNextsize
    rw [hdoubled]
    rfl
  · exact le_min (hle.trans hmr) hcnt

theorem toInt_of_is (hx : x.Is n) (hn : n ≤ intMax) : toInt x = n := by
  unfold toInt intMax at *
  rw [BitVec.toInt_eq_toNat_of_lt (by rw [BitVec.toNat_setWidth, hx.value]; omega), BitVec.toNat_setWidth, hx.value,
    Nat.mod_eq_of_lt (by omega)]

end

/-! ### Growing -/

section

variable {α : Type} {elem cur cnt fuel : ℕ} {a : Arr α}

/-- What `ev_realloc` was asked for it has, with the cells there were. -/
theorem evRealloc_spec {n : ℕ} (hpos : 0 < elem) (junk : ℕ → α) (base : List α) (hn : base.length ≤ n) :
    (evRealloc elem junk base (elem * n)).length = n ∧
      (evRealloc elem junk base (elem * n)).take base.length = base := by
  unfold evRealloc
  rw [Nat.mul_div_cancel_left n hpos]
  refine ⟨by rw [List.length_map, List.length_range], ?_⟩
  refine List.ext_getElem (by simp [hn]) fun i h₁ h₂ => ?_
  rw [List.getElem_take, List.getElem_map, List.getElem_range, List.getD_eq_getElem _ _ h₂]

/-- `array_realloc`, when the next size is `n`. -/
theorem arrayRealloc_eq {y : Sized 64} {n : ℕ} (hy : arrayNextsize fuel elem a.cur cnt = some y) (hn : y.Is n)
    (hmax : n ≤ intMax) (helem : elem ≤ 2 ^ 20) (junk : ℕ → α) :
    ((size elem).mul (size n)).Is (elem * n) ∧
      arrayRealloc fuel elem junk a cnt = some ⟨evRealloc elem junk a.base (elem * n), n⟩ := by
  have hbytes : elem * n ≤ 2 ^ 20 * 2 ^ 31 := Nat.mul_le_mul helem (hmax.trans (Nat.sub_le ..))
  have hmul : ((size elem).mul (size n)).Is (elem * n) :=
    (is_size (by omega)).mul (is_size (by unfold intMax at hmax; omega)) (by omega)
  refine ⟨hmul, ?_⟩
  unfold arrayRealloc
  rw [hy]
  dsimp only [Option.bind_some]
  rw [toInt_of_is hn hmax, Int.toNat_natCast, hmul.value, if_neg (by unfold longMax; omega)]

theorem le_capacity (hpos : 0 < elem) (helem : elem ≤ 2 ^ 20) (hcnt : cnt ≤ intMax) :
    cnt ≤ capacity elem cur cnt := by
  unfold capacity
  split
  · rename_i hcur
    obtain ⟨y, n, hy, hn, hle, hmax⟩ := is_arrayNextsize hpos helem hcur hcnt (le_refl 31)
    rw [hy, Option.elim_some, toInt_of_is hn hmax, Int.toNat_natCast]
    exact hle
  · rename_i hcur
    exact not_lt.mp hcur

theorem cur_le_capacity (hpos : 0 < elem) (helem : elem ≤ 2 ^ 20) (hcnt : cnt ≤ intMax) :
    cur ≤ capacity elem cur cnt := by
  by_cases hcur : cur < cnt
  · exact hcur.le.trans (le_capacity hpos helem hcnt)
  · rw [capacity, if_neg hcur]

/-- **An array that is asked for more has it.** The search for the next size ends, none of its arithmetic wraps, and
the size is at least the count and an `int`; so the array keeps its cells, and the rest is what `init` is given. -/
theorem array_growth (hpos : 1 ≤ elem) (helem : elem ≤ 2 ^ 20) (hcur : cur < cnt) (hcnt : cnt ≤ intMax)
    (hfuel : 31 ≤ fuel) :
    ∃ y, arrayNextsize fuel elem cur cnt = some y ∧ y.exact = true ∧ (cnt : ℤ) ≤ toInt y ∧ (cur : ℤ) < toInt y ∧
      toInt y ≤ intMax ∧ ((size elem).mul (size (toInt y).toNat)).exact = true ∧
      ∀ (α : Type) (junk : ℕ → α) (init : List α → ℕ → ℕ → List α) (base : List α), base.length = cur →
        ∃ b grown, arrayNeedsize fuel elem junk init ⟨base, cur⟩ cnt = some (b, some (cur, b.cur - cur)) ∧
          cnt ≤ b.cur ∧ b.base = init grown cur (b.cur - cur) ∧ grown.length = b.cur ∧ grown.take cur = base := by
  obtain ⟨y, n, hy, hn, hle, hmax⟩ := is_arrayNextsize hpos helem hcur hcnt hfuel
  have hint := toInt_of_is hn hmax
  refine ⟨y, hy, hn.exact, ?_, ?_, ?_, ?_, fun α junk init base hbase => ?_⟩
  · rw [hint]
    exact_mod_cast hle
  · rw [hint]
    exact_mod_cast hcur.trans_le hle
  · rw [hint]
    exact_mod_cast hmax
  · rw [hint, Int.toNat_natCast]
    exact (arrayRealloc_eq (a := ⟨([] : List ℕ), cur⟩) hy hn hmax helem id).1.exact
  · have hrealloc := (arrayRealloc_eq (a := ⟨base, cur⟩) hy hn hmax helem junk).2
    obtain ⟨hlen, htake⟩ := evRealloc_spec hpos junk base (n := n) (by omega)
    rw [hbase] at htake
    refine ⟨⟨init (evRealloc elem junk base (elem * n)) cur (n - cur), n⟩, _, ?_, hle, rfl, hlen, htake⟩
    unfold arrayNeedsize
    rw [if_pos hcur, hrealloc]
    rfl

/-- Elements of a terabyte: the doubled size fits, its bytes wrap. -/
example : (arrayNextsize 31 (2 ^ 40) (2 ^ 24 - 1) (2 ^ 24)).map Sized.exact = some false := by decide +kernel

/-- With `array_needsize_zerofill` the new cells are zero. -/
theorem zerofill_grown [Zero α] {grown base : List α} (htake : grown.take base.length = base)
    (hlen : base.length ≤ grown.length) : zerofill grown base.length (grown.length - base.length) =
      base ++ List.replicate (grown.length - base.length) 0 := by
  unfold zerofill
  rw [htake, Nat.add_sub_cancel' hlen, List.drop_length, List.append_nil]

/-- Entries of 16 bytes. -/
theorem array_growth_rounded : ∃ y, arrayNextsize 31 16 300 400 = some y ∧ toInt y = 766 ∧ (400 : ℤ) ≤ toInt y := by
  have h : 1 ≤ 16 ∧ 16 ≤ 2 ^ 20 ∧ 300 < 400 ∧ 400 ≤ intMax ∧ 31 ≤ 31 := by decide
  obtain ⟨y, hy, -, hle, -⟩ := array_growth h.1 h.2.1 h.2.2.1 h.2.2.2.1 h.2.2.2.2
  refine ⟨y, hy, ?_, hle⟩
  have hval : arrayNextsize 31 16 300 400 = some ⟨766, true⟩ := rfl
  rw [hval] at hy
  cases hy
  decide

end

end Grow

end Qev
