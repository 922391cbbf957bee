/-
# The version of the kernel

`ev_linux_version` reads three numbers off the release and puts each into the low byte of what there is, shifted. The
first two are below 256, but the third need not be: the bits that it has above a byte go into the second number, and
those above 32 are lost. So a long-term kernel may be taken for a later one (`version_order_fails`), or, where the
second number has these bits already, for an earlier one.
-/
import Mathlib

namespace Qev
namespace Version

/-! ### The scanner -/

def isDigit (p : Char) : Bool := decide ('0' ≤ p) && decide (p ≤ '9')

/-- The inner loop: the digits go to `c`, and a dot behind them is passed. -/
def field : BitVec 32 → List Char → BitVec 32 × List Char
  | c, [] => (c, [])
  | c, ch :: p =>
    if isDigit ch then field (c * 10 + BitVec.ofNat 32 ch.toNat - BitVec.ofNat 32 '0'.toNat) p
    else (c, if ch = '.' then p else ch :: p)

/-- The outer loop, for three numbers. -/
def fields : ℕ → BitVec 32 → List Char → BitVec 32
  | 0, v, _ => v
  | i + 1, v, p =>
    let r := field 0 p
    fields i ((v <<< 8) ||| r.1) r.2

/-- `ev_linux_version`, by the release that `uname` tells. -/
def evLinuxVersion : Option (List Char) → BitVec 32
  | none => 0
  | some release => fields 3 0 release

/-- A threshold. -/
def threshold (M m p : ℕ) : BitVec 32 := BitVec.ofNat 32 (M <<< 16 ||| m <<< 8 ||| p)

/-! ### Releases -/

/-- The number that a list of digits is. -/
def number (l : List Char) : ℕ := l.foldl (fun n d => n * 10 + (d.toNat - '0'.toNat)) 0

/-- The first three numbers of a release. -/
def Names (release : List Char) (a b c : ℕ) : Prop :=
  ∃ x y z rest, release = x ++ '.' :: (y ++ '.' :: (z ++ rest)) ∧ x.all isDigit ∧ y.all isDigit ∧ z.all isDigit ∧
    number x = a ∧ number y = b ∧ number z = c ∧ ∀ d ∈ rest.head?, isDigit d = false

/-- The version `a.b.c` is `M.m.p` or later. -/
def AtLeast (M m p a b c : ℕ) : Prop := M < a ∨ M = a ∧ (m < b ∨ m = b ∧ p ≤ c)

instance (M m p a b c : ℕ) : Decidable (AtLeast M m p a b c) := inferInstanceAs (Decidable (_ ∨ _ ∧ (_ ∨ _ ∧ _)))

/-- The third number is a byte, or what there is of it in a word changes nothing above the byte and fills that, or no
threshold is later anyway. -/
def Fits (a b c : ℕ) : Prop :=
  c < 256 ∨
  c % 2 ^ 32 % 256 = 255 ∧ (a * 256 + b) ||| (c % 2 ^ 32 / 256) = a * 256 + b ∨
  a = 255 ∧ b = 255 ∧ 2 ^ 24 ≤ c % 2 ^ 32

/-! ### What is read -/

variable {l rest : List Char} {ch : Char}

theorem isDigit_iff : isDigit ch = true ↔ 48 ≤ ch.toNat ∧ ch.toNat ≤ 57 := by
  unfold isDigit
  rw [Bool.and_eq_true, decide_eq_true_iff, decide_eq_true_iff]
  rfl

/-- A digit behind a number. -/
theorem field_digit (n : ℕ) (h : isDigit ch = true) :
    BitVec.ofNat 32 n * 10 + BitVec.ofNat 32 ch.toNat - BitVec.ofNat 32 '0'.toNat =
      BitVec.ofNat 32 (n * 10 + (ch.toNat - '0'.toNat)) := by
  have hge := (isDigit_iff.mp h).1
  have hsplit : ch.toNat = (ch.toNat - '0'.toNat) + '0'.toNat := (Nat.sub_add_cancel hge).symm
  rw [show (10 : BitVec 32) = BitVec.ofNat 32 10 from rfl, ← BitVec.ofNat_mul]
  conv_lhs => rw [hsplit]
  rw [BitVec.ofNat_add (ch.toNat - '0'.toNat), ← add_assoc, BitVec.add_sub_cancel, ← BitVec.ofNat_add]

/-- The inner loop reads a number, in a word, and leaves what is behind it. -/
theorem field_eq (n : ℕ) (hl : l.all isDigit) (hrest : ∀ d ∈ rest.head?, isDigit d = false) :
    (field (BitVec.ofNat 32 n) (l ++ rest)).1 =
        BitVec.ofNat 32 (l.foldl (fun n d => n * 10 + (d.toNat - '0'.toNat)) n) ∧
      (field (BitVec.ofNat 32 n) (l ++ rest)).2 = if rest.head? = some '.' then rest.tail else rest := by
  induction l generalizing n with
  | nil =>
    cases rest with
    | nil => exact ⟨rfl, rfl⟩
    | cons d rest =>
      have hd := hrest d rfl
      rw [List.nil_append, field, if_neg (by rw [hd]; exact Bool.false_ne_true), List.head?_cons, List.tail_cons]
      refine ⟨rfl, ?_⟩
      by_cases hdot : d = '.'
      · rw [if_pos hdot, if_pos (by rw [hdot])]
      · rw [if_neg hdot, if_neg fun hc => hdot (Option.some.inj hc)]
  | cons d l ih =>
    rw [List.all_cons, Bool.and_eq_true] at hl
    rw [List.cons_append, field, if_pos hl.1, field_digit n hl.1]
    exact ih _ hl.2

/-- The release is read as its three numbers, each in a word. -/
theorem evLinuxVersion_eq {release : List Char} {a b c : ℕ} (h : Names release a b c) :
    evLinuxVersion (some release) =
      (((BitVec.ofNat 32 a <<< 8) ||| BitVec.ofNat 32 b) <<< 8) ||| BitVec.ofNat 32 c := by
  obtain ⟨x, y, z, rest, rfl, hx, hy, hz, rfl, rfl, rfl, hrest⟩ := h
  have hdot : ∀ s : List Char, ∀ d ∈ ('.' :: s).head?, isDigit d = false := by
    intro s d hd
    cases hd
    rfl
  obtain ⟨hx₁, hx₂⟩ := field_eq 0 hx (hdot (y ++ '.' :: (z ++ rest)))
  obtain ⟨hy₁, hy₂⟩ := field_eq 0 hy (hdot (z ++ rest))
  obtain ⟨hz₁, -⟩ := field_eq 0 hz hrest
  rw [List.head?_cons, if_pos rfl, List.tail_cons] at hx₂ hy₂
  show (((((0 : BitVec 32) <<< 8) ||| (field 0 _).1) <<< 8) ||| (field 0 (field 0 _).2).1) <<< 8 |||
    (field 0 (field 0 (field 0 _).2).2).1 = _
  rw [show (0 : BitVec 32) = BitVec.ofNat 32 0 from rfl, hx₁, hx₂, hy₁, hy₂, hz₁]
  rw [show BitVec.ofNat 32 0 <<< 8 = 0#32 from rfl, BitVec.zero_or]
  rfl

/-! ### Its order -/

section

variable {a b c M m p : ℕ}

/-- The third number's bits above a byte are put to the two before it. -/
theorem toNat_version (ha : a < 256) (hb : b < 256) (c : ℕ) :
    ((((BitVec.ofNat 32 a <<< 8) ||| BitVec.ofNat 32 b) <<< 8) ||| BitVec.ofNat 32 c).toNat =
      256 * ((a * 256 + b) ||| (c % 2 ^ 32 / 256)) + c % 2 ^ 32 % 256 := by
  have hab : ((BitVec.ofNat 32 a <<< 8) ||| BitVec.ofNat 32 b).toNat = a * 256 + b := by
    rw [BitVec.toNat_or, BitVec.toNat_shiftLeft, BitVec.toNat_ofNat, BitVec.toNat_ofNat, Nat.mod_eq_of_lt (by omega),
      Nat.mod_eq_of_lt (by omega), Nat.shiftLeft_eq, Nat.mod_eq_of_lt (by omega), mul_comm a]
    exact (Nat.two_pow_add_eq_or_of_lt (i := 8) hb a).symm.trans (by ring)
  rw [BitVec.toNat_or, BitVec.toNat_shiftLeft, hab, BitVec.toNat_ofNat, Nat.shiftLeft_eq,
    Nat.mod_eq_of_lt (by omega)]
  generalize a * 256 + b = B
  generalize c % 2 ^ 32 = n
  have hdiv : (B * 2 ^ 8 ||| n) / 256 = B ||| n / 256 := by
    rw [show (256 : ℕ) = 2 ^ 8 from rfl, Nat.or_div_two_pow, Nat.mul_div_cancel _ (by decide)]
  have hmod : (B * 2 ^ 8 ||| n) % 256 = n % 256 := by
    rw [show (256 : ℕ) = 2 ^ 8 from rfl, Nat.or_mod_two_pow, Nat.mul_mod_left, Nat.zero_or]
  rw [← Nat.div_add_mod (B * 2 ^ 8 ||| n) 256, hdiv, hmod]

theorem toNat_threshold (hM : M < 256) (hm : m < 256) (hp : p < 256) :
    (threshold M m p).toNat = M * 65536 + m * 256 + p := by
  have hhigh : M <<< 16 ||| m <<< 8 = (M * 256 + m) <<< 8 := by
    rw [← Nat.shiftLeft_add_eq_or_of_lt (by rw [Nat.shiftLeft_eq]; omega), Nat.shiftLeft_eq, Nat.shiftLeft_eq,
      Nat.shiftLeft_eq]
    ring
  unfold threshold
  rw [hhigh, ← Nat.shiftLeft_add_eq_or_of_lt hp, Nat.shiftLeft_eq, BitVec.toNat_ofNat]
  omega

/-- As numbers, versions are in order if the third number counts for no more than a byte holds. -/
theorem atLeast_iff (hb : b < 256) (hm : m < 256) (hp : p < 256) :
    AtLeast M m p a b c ↔ M * 65536 + m * 256 + p ≤ a * 65536 + b * 256 + min c 255 := by
  unfold AtLeast
  omega

/-- A third number that does not fit a byte is read as one that fills it, just if it fits. -/
theorem reads_iff {V : ℕ} (ha : a < 256) (hb : b < 256)
    (hV : V = 256 * ((a * 256 + b) ||| (c % 2 ^ 32 / 256)) + c % 2 ^ 32 % 256) :
    Fits a b c ↔ V = a * 65536 + b * 256 + min c 255 ∨ a = 255 ∧ b = 255 ∧ 255 ≤ c ∧ 2 ^ 24 ≤ V := by
  have hle := Nat.left_le_or (n := a * 256 + b) (m := c % 2 ^ 32 / 256)
  have hge := Nat.right_le_or (n := a * 256 + b) (m := c % 2 ^ 32 / 256)
  unfold Fits
  by_cases hc : c < 256
  · have hz : c % 2 ^ 32 / 256 = 0 := by omega
    rw [hz, Nat.or_zero] at hV
    exact iff_of_true (.inl hc) (.inl (by omega))
  · rw [min_eq_right (by omega)]
    constructor
    · rintro (hlt | ⟨hlow, hhigh⟩ | ⟨rfl, rfl, hbig⟩)
      · exact absurd hlt hc
      · left
        omega
      · right
        omega
    · rintro (hr | ⟨rfl, rfl, -, hbig⟩)
      · exact .inr (.inl (by omega))
      · by_cases hword : 2 ^ 24 ≤ c % 2 ^ 32
        · exact .inr (.inr ⟨rfl, rfl, hword⟩)
        · have hlt : 255 * 256 + 255 ||| c % 2 ^ 32 / 256 < 2 ^ 16 := Nat.or_lt_two_pow (by decide) (by omega)
          omega

/-- **Kernel versions compare as they are ordered**, against every threshold, if and only if the third number fits:
it is below 256, or the bits above change nothing. -/
theorem version_order {release : List Char} (h : Names release a b c) (ha : a < 256) (hb : b < 256) :
    (∀ M m p, M < 256 → m < 256 → p < 256 →
      (threshold M m p ≤ evLinuxVersion (some release) ↔ AtLeast M m p a b c)) ↔ Fits a b c := by
  have hV := toNat_version ha hb c
  rw [← evLinuxVersion_eq h] at hV
  rw [reads_iff ha hb hV]
  have hcmp : ∀ {M m p}, M < 256 → m < 256 → p < 256 →
      ((threshold M m p ≤ evLinuxVersion (some release) ↔ AtLeast M m p a b c) ↔
        (M * 65536 + m * 256 + p ≤ (evLinuxVersion (some release)).toNat ↔
          M * 65536 + m * 256 + p ≤ a * 65536 + b * 256 + min c 255)) := by
    intro M m p hM hm hp
    rw [BitVec.le_def, toNat_threshold hM hm hp, atLeast_iff hb hm hp]
  generalize (evLinuxVersion (some release)).toNat = V at hcmp ⊢
  constructor
  · intro hall
    -- the version itself, and the next threshold
    have hself := (hcmp ha hb (by omega : min c 255 < 256)).mp (hall a b _ ha hb (by omega))
    have hnext : ∀ R, R = a * 65536 + b * 256 + min c 255 → R + 1 < 2 ^ 24 → V < R + 1 := by
      intro R hR hlt
      have hM : (R + 1) / 65536 < 256 := by omega
      have hm : (R + 1) / 256 % 256 < 256 := Nat.mod_lt _ (by decide)
      have hp : (R + 1) % 256 < 256 := Nat.mod_lt _ (by decide)
      have := (hcmp hM hm hp).mp (hall _ _ _ hM hm hp)
      omega
    have hle := hself.mpr (le_refl _)
    by_cases hlast : a * 65536 + b * 256 + min c 255 + 1 < 2 ^ 24
    · left
      have := hnext _ rfl hlast
      omega
    · by_cases hV : V = a * 65536 + b * 256 + min c 255
      · exact .inl hV
      · right
        omega
  · intro hr M m p hM hm hp
    rw [hcmp hM hm hp]
    rcases hr with rfl | ⟨rfl, rfl, hc, hbig⟩
    · exact Iff.rfl
    · rw [min_eq_right hc]
      exact iff_of_true (by omega) (by omega)

theorem version_order_suffix :
    threshold 5 6 0 ≤ evLinuxVersion (some ['5', '.', '6', '.', '1', '-', 'r', 'c', '2']) ↔ AtLeast 5 6 0 5 6 1 :=
  (version_order ⟨['5'], ['6'], ['1'], ['-', 'r', 'c', '2'], rfl, rfl, rfl, rfl, rfl, rfl, rfl, by simp; rfl⟩
    (by decide) (by decide)).mpr (.inl (by decide)) 5 6 0 (by decide) (by decide) (by decide)

/-- A kernel 4.14.336 is taken for one from 4.15 on. -/
theorem version_order_fails : Names ['4', '.', '1', '4', '.', '3', '3', '6'] 4 14 336 ∧
    threshold 4 15 0 ≤ evLinuxVersion (some ['4', '.', '1', '4', '.', '3', '3', '6']) ∧ ¬ AtLeast 4 15 0 4 14 336 :=
  ⟨⟨['4'], ['1', '4'], ['3', '3', '6'], [], rfl, rfl, rfl, rfl, rfl, rfl, rfl, by simp⟩, by decide, by decide⟩

end

end Version
end Qev
