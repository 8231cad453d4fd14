import Mathlib.Algebra.Order.Archimedean.Basic
import Mathlib.Algebra.Order.Field.Power
import Mathlib.Algebra.Order.Field.Rat
import Mathlib.Data.Int.Log
import Mathlib.Tactic.FieldSimp
import Mathlib.Tactic.Linarith
import Mathlib.Tactic.Positivity
import Mathlib.Tactic.Ring
import ProtoModels.Decimal.Nearest
import ProtoModels.Decimal.Shortest
/-!
# Rounding to 64 bits

What the exact steps of rounding compute, as a fact about rationals: the exponent is that of the binary
logarithm (`BinaryFormat.exponentFor_eq`), the quotient is the nearest whole number
(`roundedQuotient_eq`). The rationals around a number that round to it are those of its interval, below
a power of two as well, where the spacing is halved (`nearest_of_contains`). So a decimal in the interval
of a number is read as this number, with its sign (`round_ofDecimal`).
-/
namespace ProtoModels

/-! ## Powers and logarithms -/

/-- A power with a whole exponent, as the fraction that exact steps use. -/
theorem zpow_eq_div {b : Nat} (hb : 0 < b) (e : Int) :
    (b : ℚ) ^ e = ((b ^ e.toNat : Nat) : ℚ) / ((b ^ (-e).toNat : Nat) : ℚ) := by
  have hb' : (b : ℚ) ≠ 0 := by exact_mod_cast hb.ne'
  rw [eq_div_iff (by exact_mod_cast (pow_pos hb _).ne')]
  push_cast
  rw [← zpow_natCast, ← zpow_natCast, ← zpow_add₀ hb']
  congr 1
  omega

theorem zpow_log2_le {n : Nat} (hn : 0 < n) :
    (2 : ℚ) ^ (n.log2 : Int) ≤ n ∧ (n : ℚ) < 2 ^ ((n.log2 : Int) + 1) := by
  constructor
  · rw [zpow_natCast]
    exact_mod_cast Nat.log2_self_le hn.ne'
  · rw [show (n.log2 : Int) + 1 = ((n.log2 + 1 : Nat) : Int) from rfl, zpow_natCast]
    exact_mod_cast Nat.lt_log2_self

theorem le_log_iff {v : ℚ} (hv : 0 < v) (l : Int) : l ≤ Int.log 2 v ↔ (2 : ℚ) ^ l ≤ v := by
  rw [← Int.zpow_le_iff_le_log (by decide) hv]
  norm_cast

theorem log_eq_of_le_of_lt {v : ℚ} {l : Int} (hle : (2 : ℚ) ^ l ≤ v) (hlt : v < 2 ^ (l + 1)) :
    Int.log 2 v = l := by
  have hv : 0 < v := lt_of_lt_of_le (by positivity) hle
  have hlow := (le_log_iff hv l).2 hle
  have hhigh := mt (le_log_iff hv (l + 1)).1 (not_le.2 hlt)
  omega

/-! ## The exponent and the quotient -/

section
variable {num den : Nat}

theorem scaled_le_iff (hden : 0 < den) (e : Int) :
    den * Nat.pow 2 e.toNat ≤ num * Nat.pow 2 (-e).toNat ↔ (2 : ℚ) ^ e ≤ num / den := by
  have hpow := zpow_eq_div (b := 2) (by decide) e
  push_cast at hpow
  have hden' : (0 : ℚ) < den := by exact_mod_cast hden
  rw [hpow, div_le_div_iff₀ (by positivity) hden', mul_comm _ (den : ℚ)]
  exact_mod_cast Iff.rfl

theorem scaledQuotient_eq (num den : Nat) (e : Int) :
    ((num * Nat.pow 2 (-e).toNat : Nat) : ℚ) / ((den * Nat.pow 2 e.toNat : Nat) : ℚ) =
      (num / den) / 2 ^ e := by
  have hpow := zpow_eq_div (b := 2) (by decide) e
  simp only [Nat.pow_eq]
  push_cast at hpow ⊢
  rw [hpow]
  field_simp

/-- The exponent leaves as many bits before the point as the format has, unless it is the lowest one. -/
theorem BinaryFormat.exponentFor_eq (f : BinaryFormat) (hnum : 0 < num) (hden : 0 < den) :
    f.exponentFor num den = max f.lowest (Int.log 2 ((num : ℚ) / den) - (f.precision - 1)) := by
  have hden' : (0 : ℚ) < den := by exact_mod_cast hden
  have htwo : (2 : ℚ) ≠ 0 := by norm_num
  obtain ⟨hnumLow, hnumHigh⟩ := zpow_log2_le hnum
  obtain ⟨hdenLow, hdenHigh⟩ := zpow_log2_le hden
  rw [exponentFor]
  set estimate : Int := (num.log2 : Int) - den.log2 with hestimate
  -- the difference of the logarithms is right, or too large by one
  have hupper : (num : ℚ) / den < 2 ^ (estimate + 1) := by
    rw [div_lt_iff₀ hden']
    calc (num : ℚ) < 2 ^ ((num.log2 : Int) + 1) := hnumHigh
      _ = 2 ^ (estimate + 1) * 2 ^ (den.log2 : Int) := by
        rw [← zpow_add₀ htwo]
        congr 1
        omega
      _ ≤ 2 ^ (estimate + 1) * den := by gcongr
  have hlower : (2 : ℚ) ^ (estimate - 1) ≤ num / den := by
    rw [le_div_iff₀ hden']
    calc (2 : ℚ) ^ (estimate - 1) * den ≤ 2 ^ (estimate - 1) * 2 ^ ((den.log2 : Int) + 1) := by gcongr
      _ = 2 ^ (num.log2 : Int) := by
        rw [← zpow_add₀ htwo]
        congr 1
        omega
      _ ≤ num := hnumLow
  by_cases hreached : (2 : ℚ) ^ estimate ≤ num / den
  · rw [if_pos ((scaled_le_iff hden estimate).2 hreached), log_eq_of_le_of_lt hreached hupper]
  · rw [if_neg (mt (scaled_le_iff hden estimate).1 hreached), log_eq_of_le_of_lt hlower]
    rw [Int.sub_add_cancel]
    exact not_le.1 hreached

/-- The whole number nearest to a rational, and of two nearest ones the even one. -/
def RoundsTo (v : ℚ) (n : Nat) : Prop := |v - n| < 1 / 2 ∨ n % 2 = 0 ∧ |v - n| ≤ 1 / 2

/-- Rounding of a fraction, without division. -/
theorem RoundsTo.bounds {n : Nat} (hden : 0 < den) (h : RoundsTo ((num : ℚ) / den) n) :
    (2 * (den * n) ≤ 2 * num + den ∧ 2 * num ≤ 2 * (den * n) + den) ∧
      (n % 2 = 0 ∨ 2 * (den * n) < 2 * num + den ∧ 2 * num < 2 * (den * n) + den) := by
  have hden' : (0 : ℚ) < den := by exact_mod_cast hden
  have hscaled : ((num : ℚ) / den - n) * den = num - den * n := by
    rw [sub_mul, div_mul_cancel₀ _ hden'.ne', mul_comm (n : ℚ)]
  have hle : ∀ a b : Nat, a ≤ b ↔ (a : ℚ) ≤ b := fun _ _ => Nat.cast_le.symm
  have hlt : ∀ a b : Nat, a < b ↔ (a : ℚ) < b := fun _ _ => Nat.cast_lt.symm
  simp only [hle, hlt]
  push_cast
  rcases h with hnear | ⟨heven, hnear⟩
  · rw [abs_lt] at hnear
    exact ⟨⟨by nlinarith, by nlinarith⟩, Or.inr ⟨by nlinarith, by nlinarith⟩⟩
  · rw [abs_le] at hnear
    exact ⟨⟨by nlinarith, by nlinarith⟩, Or.inl heven⟩

theorem roundedQuotient_eq {n : Nat} (hden : 0 < den) (h : RoundsTo ((num : ℚ) / den) n) :
    roundedQuotient num den = n := by
  obtain ⟨⟨hlow, hhigh⟩, hstrict⟩ := h.bounds hden
  have hdivision := Nat.div_add_mod num den
  have hrest := Nat.mod_lt num hden
  unfold roundedQuotient
  dsimp only
  generalize num / den = below at hdivision
  generalize num % den = rest at hdivision hrest
  -- the nearest number is the whole part or the one above it, since the rest is less than one
  rcases lt_trichotomy n below with hlt | rfl | hgt
  · have := Nat.mul_le_mul_left den (show n + 1 ≤ below from hlt)
    rw [Nat.mul_add, Nat.mul_one] at this
    omega
  · split <;> omega
  · rcases eq_or_lt_of_le (show below + 1 ≤ n from hgt) with rfl | hgt
    · rw [Nat.mul_add, Nat.mul_one] at *
      split <;> omega
    · have := Nat.mul_le_mul_left den (show below + 2 ≤ n from hgt)
      rw [Nat.mul_add] at this
      omega

/-- The nearest number, where its exponent is known. -/
theorem nearest_eq {n : Nat} {e : Int} (hnum : num ≠ 0) (hden : 0 < den)
    (he : BinaryFormat.double.exponentFor num den = e)
    (hround : RoundsTo ((num : ℚ) / den / 2 ^ e) n)
    (hfinite : (e + 1074).toNat * 2 ^ 52 + n ≤ BinaryFormat.double.infinity) :
    BinaryFormat.double.nearest num den = (e + 1074).toNat * 2 ^ 52 + n := by
  have hquotient : roundedQuotient (num * Nat.pow 2 (-e).toNat) (den * Nat.pow 2 e.toNat) = n :=
    roundedQuotient_eq (Nat.mul_pos hden (Nat.pow_pos (by decide))) (by rwa [scaledQuotient_eq])
  rw [BinaryFormat.nearest, if_neg hnum, he]
  dsimp only
  rw [hquotient]
  show min _ ((e - -1074).toNat * 2 ^ 52 + n) = _
  rw [Int.sub_neg]
  exact Nat.min_eq_right hfinite

end

/-! ## Intervals -/

/-- Whether a rational rounds to the number of an interval. -/
def Decimal.Interval.Contains (i : Decimal.Interval) (v : ℚ) : Prop :=
  i.low * 2 ^ i.unit ≤ v ∧ v ≤ i.high * 2 ^ i.unit ∧
    (i.closed = true ∨ i.low * 2 ^ i.unit ≠ v ∧ v ≠ i.high * 2 ^ i.unit)

/-- The positive numbers of 64 bits, as `m * 2 ^ q`. -/
structure IsDouble (m : Nat) (q : Int) : Prop where
  pos : 0 < m
  lt : m < 2 ^ 53
  lowest : -1074 ≤ q
  highest : q ≤ 971
  normal : q = -1074 ∨ 2 ^ 52 ≤ m

/-- Powers of two have the spacing halved below them, unless it is the smallest one there. -/
def IsBoundary (m : Nat) (q : Int) : Prop := m = 2 ^ 52 ∧ -1074 < q

instance {m : Nat} {q : Int} : Decidable (IsBoundary m q) := inferInstanceAs (Decidable (_ ∧ _))

/-- The interval of a number of 64 bits. -/
abbrev doubleInterval (m : Nat) (q : Int) : Decimal.Interval :=
  .ofBinary m q (decide (IsBoundary m q))

section
variable {num den m : Nat} {q : Int} {t : ℚ}

/-- The ends of an interval: half of the spacing away, below a boundary a quarter. -/
theorem doubleInterval_ends (hm : 0 < m) :
    ((doubleInterval m q).low : ℚ) = 4 * m - (if IsBoundary m q then 1 else 2) ∧
      ((doubleInterval m q).high : ℚ) = 4 * m + 2 := by
  constructor
  · simp only [doubleInterval, Decimal.Interval.ofBinary, decide_eq_true_eq]
    rw [Nat.cast_sub (by split <;> omega)]
    split <;> push_cast <;> rfl
  · simp only [doubleInterval, Decimal.Interval.ofBinary]
    push_cast
    rfl

/-- An interval in quarters of the spacing above its number. -/
theorem contains_quarters_iff (hm : 0 < m) : (doubleInterval m q).Contains (t * 2 ^ (q - 2)) ↔
    (4 * m - (if IsBoundary m q then 1 else 2) : ℚ) ≤ t ∧ t ≤ 4 * m + 2 ∧
      (m % 2 = 0 ∨ (4 * m - (if IsBoundary m q then 1 else 2) : ℚ) ≠ t ∧ t ≠ 4 * m + 2) := by
  have hunit : (0 : ℚ) < 2 ^ (q - 2) := by positivity
  obtain ⟨hlow, hhigh⟩ := doubleInterval_ends (q := q) hm
  rw [Decimal.Interval.Contains, hlow, hhigh]
  simp [Decimal.Interval.ofBinary, hunit, hunit.ne']

/-- The exponent for a rational in quarters of the spacing above a number: that of the number, or one
less below a power of two. -/
theorem exponentFor_quarters (hden : 0 < den) (ht : (num : ℚ) / den = t * 2 ^ (q - 2)) (hpos : 0 < t)
    (hlt : t < 2 ^ 55) (hq : -1074 ≤ q) :
    (q = -1074 ∨ (2 : ℚ) ^ 54 ≤ t → BinaryFormat.double.exponentFor num den = q) ∧
      (-1074 < q → (2 : ℚ) ^ 53 ≤ t → t < 2 ^ 54 →
        BinaryFormat.double.exponentFor num den = q - 1) := by
  have hunit : (0 : ℚ) < 2 ^ (q - 2) := by positivity
  have hv : (0 : ℚ) < num / den := by
    rw [ht]
    exact mul_pos hpos hunit
  have hnum : num ≠ 0 := by
    rintro rfl
    simp at hv
  have hlog : ∀ n : Nat, q - 2 + n ≤ Int.log 2 ((num : ℚ) / den) ↔ (2 : ℚ) ^ n ≤ t := fun n => by
    rw [le_log_iff hv, zpow_add₀ (by norm_num), zpow_natCast, mul_comm, ht,
      mul_le_mul_iff_of_pos_right hunit]
  have h55 := mt (hlog 55).1 (not_le.2 hlt)
  have h54 := hlog 54
  have h53 := hlog 53
  rw [BinaryFormat.exponentFor_eq _ (Nat.pos_of_ne_zero hnum) hden]
  simp only [BinaryFormat.double]
  push_cast at h53 h54 h55 ⊢
  constructor
  · intro hcase
    rw [← h54] at hcase
    omega
  · intro hq' hlow hhigh
    rw [← h53] at hlow
    rw [← not_le, ← h54] at hhigh
    omega

/-- What lies in the interval of a number, below it only as far as the spacing is the same, has the
number as its nearest one. -/
theorem nearest_of_contains_spaced (hx : IsDouble m q) (hden : 0 < den)
    (ht : (num : ℚ) / den = t * 2 ^ (q - 2)) (h : (doubleInterval m q).Contains (t * 2 ^ (q - 2)))
    (hnum : num ≠ 0) (he : BinaryFormat.double.exponentFor num den = q) :
    BinaryFormat.double.nearest num den = (q + 1074).toNat * 2 ^ 52 + m := by
  obtain ⟨hpos, hlt, hlowest, hhighest, hnormal⟩ := hx
  obtain ⟨hlow, hhigh, hstrict⟩ := (contains_quarters_iff hpos).1 h
  have hlow : (4 * m - 2 : ℚ) ≤ t := by
    refine le_trans ?_ hlow
    split <;> linarith
  refine nearest_eq hnum hden he ?_ ?_
  · have hscaled : (num : ℚ) / den / 2 ^ q = t / 4 := by
      rw [ht, show q - 2 = q + -2 by ring, zpow_add₀ (by norm_num)]
      field_simp
      norm_num
    rw [hscaled, RoundsTo, abs_lt, abs_le]
    by_cases heven : m % 2 = 0
    · exact Or.inr ⟨heven, by constructor <;> linarith⟩
    · have hboundary : ¬ IsBoundary m q := fun hb => heven (by rw [hb.1]; norm_num)
      rw [if_neg hboundary] at hstrict
      obtain ⟨hne, hne'⟩ := hstrict.resolve_left heven
      have hlow := lt_of_le_of_ne hlow hne
      have hhigh := lt_of_le_of_ne hhigh hne'
      exact Or.inl (by constructor <;> linarith)
  · simp only [BinaryFormat.double]
    omega

/-- Below a power of two the nearest number is found with the halved spacing: the significand is rounded
up to the next power of two, which counts as the power of two itself. -/
theorem nearest_of_contains_halved (hq : -1074 < q) (hhighest : q ≤ 971) (hden : 0 < den)
    (ht : (num : ℚ) / den = t * 2 ^ (q - 2)) (hlow : (2 : ℚ) ^ 54 - 1 ≤ t) (hhigh : t < 2 ^ 54)
    (hnum : num ≠ 0) (he : BinaryFormat.double.exponentFor num den = q - 1) :
    BinaryFormat.double.nearest num den = (q + 1074).toNat * 2 ^ 52 + 2 ^ 52 := by
  have hscaled : (num : ℚ) / den / 2 ^ (q - 1) = t / 2 := by
    rw [ht, show q - 2 = q - 1 + -1 by ring, zpow_add₀ (by norm_num)]
    field_simp
  have hround : RoundsTo ((num : ℚ) / den / 2 ^ (q - 1)) (2 ^ 53) := by
    rw [hscaled, RoundsTo, abs_le]
    push_cast
    exact Or.inr ⟨by norm_num, by constructor <;> linarith⟩
  have hfinite : (q - 1 + 1074).toNat * 2 ^ 52 + 2 ^ 53 ≤ BinaryFormat.double.infinity := by
    simp only [BinaryFormat.double]
    omega
  rw [nearest_eq hnum hden he hround hfinite]
  omega

/-- **Rationals in the interval of a number round to it.** -/
theorem nearest_of_contains (hx : IsDouble m q) (hden : 0 < den)
    (h : (doubleInterval m q).Contains ((num : ℚ) / den)) :
    BinaryFormat.double.nearest num den = (q + 1074).toNat * 2 ^ 52 + m := by
  have hunit : (0 : ℚ) < 2 ^ (q - 2) := by positivity
  obtain ⟨t, ht⟩ : ∃ t : ℚ, (num : ℚ) / den = t * 2 ^ (q - 2) :=
    ⟨num / den / 2 ^ (q - 2), by field_simp⟩
  rw [ht] at h
  obtain ⟨hlow, hhigh, -⟩ := (contains_quarters_iff hx.pos).1 h
  have hm : (1 : ℚ) ≤ m := by exact_mod_cast hx.pos
  have hm' : (m : ℚ) + 1 ≤ 2 ^ 53 := by exact_mod_cast hx.lt
  have hpos : 0 < t := by
    refine lt_of_lt_of_le ?_ hlow
    split <;> linarith
  have hnum : num ≠ 0 := by
    rintro rfl
    have := mul_pos hpos hunit
    simp [← ht] at this
  obtain ⟨hsame, hless⟩ := exponentFor_quarters hden ht hpos (by norm_num at *; linarith) hx.lowest
  by_cases hcase : q = -1074 ∨ (2 : ℚ) ^ 54 ≤ t
  · exact nearest_of_contains_spaced hx hden ht h hnum (hsame hcase)
  · rw [not_or, not_le] at hcase
    have hq : -1074 < q := lt_of_le_of_ne hx.lowest (Ne.symm hcase.1)
    -- only the smallest significand has numbers of the interval below the power of two
    obtain rfl : m = 2 ^ 52 := by
      refine le_antisymm (not_lt.1 fun hgt => ?_) (hx.normal.resolve_left hcase.1)
      have hgt : (2 : ℚ) ^ 52 + 1 ≤ m := by exact_mod_cast hgt
      have hlow : (4 * m - 2 : ℚ) ≤ t := by
        refine le_trans ?_ hlow
        split <;> linarith
      linarith [hcase.2]
    rw [if_pos ⟨rfl, hq⟩] at hlow
    push_cast at hlow
    have hlow : (2 : ℚ) ^ 54 - 1 ≤ t := by linarith
    have he := hless hq (by linarith) hcase.2
    exact nearest_of_contains_halved hq hx.highest hden ht hlow hcase.2 hnum he

end

/-! ## Numbers of 64 bits -/

namespace Binary64

variable {x : Binary64} {negative atBoundary : Bool} {m : Nat} {q : Int}

/-- Patterns count the finite numbers of a sign in order. -/
theorem bits_of_decode (h : x.decode = .finite negative m q atBoundary) :
    x.bits.toNat = (if negative then 2 ^ 63 else 0) + ((q + 1074).toNat * 2 ^ 52 + m) := by
  have hbits := x.bits.toNat_lt
  unfold decode at h
  split at h
  · split at h <;> cases h
  split at h <;>
  · cases h
    simp only [biasedExponent, fraction, isNegative, decide_eq_true_eq] at *
    split <;> omega

theorem isDouble_of_decode (h : x.decode = .finite negative m q atBoundary) (hm : m ≠ 0) :
    IsDouble m q ∧ atBoundary = decide (IsBoundary m q) := by
  have hfraction : x.fraction < 2 ^ 52 := Nat.mod_lt _ (by decide)
  have hexponent : x.biasedExponent < 2048 := Nat.mod_lt _ (by decide)
  unfold decode at h
  split at h
  · split at h <;> cases h
  split at h
  · cases h
    refine ⟨⟨Nat.pos_of_ne_zero hm, by omega, le_refl _, by norm_num, Or.inl rfl⟩, ?_⟩
    simp [IsBoundary]
  · cases h
    refine ⟨⟨by omega, by omega, by omega, by omega, Or.inr (by omega)⟩, ?_⟩
    rw [Bool.eq_iff_iff, decide_eq_true_iff, IsBoundary, Bool.and_eq_true, decide_eq_true_iff,
      decide_eq_true_iff]
    omega

end Binary64

/-! ## Decimals -/

theorem two_zpow_le_ten_zpow {n k : Nat} (h : 2 ^ n ≤ 10 ^ k) : (2 : ℚ) ^ (n : Int) ≤ 10 ^ (k : Int) := by
  rw [zpow_natCast, zpow_natCast]
  exact_mod_cast h

/-- What lies between the smallest and the largest numbers of 64 bits is not cut off as too small or too
large. -/
theorem limits_of_bounds {digits : Nat} {e : Int} (hlow : (2 : ℚ) ^ (-1075 : Int) ≤ digits * 10 ^ e)
    (hhigh : (digits : ℚ) * 10 ^ e < 2 ^ (1024 : Int)) :
    digits ≠ 0 ∧ -401 ≤ e + digits.log2 ∧ e ≤ 400 := by
  have hdigits : digits ≠ 0 := by
    rintro rfl
    have : (0 : ℚ) < 2 ^ (-1075 : Int) := by positivity
    rw [Nat.cast_zero, zero_mul] at hlow
    linarith
  refine ⟨hdigits, not_lt.1 fun hsmall => ?_, not_lt.1 fun hlarge => ?_⟩
  · refine absurd hlow (not_le.2 ?_)
    calc (digits : ℚ) * 10 ^ e < 2 ^ ((digits.log2 : Int) + 1) * 10 ^ e := by
          gcongr
          exact (zpow_log2_le (Nat.pos_of_ne_zero hdigits)).2
      _ ≤ 10 ^ ((digits.log2 : Int) + 1) * 10 ^ e := by
          gcongr
          exact_mod_cast two_zpow_le_ten_zpow (Nat.pow_le_pow_left (by norm_num) (digits.log2 + 1))
      _ = 10 ^ ((digits.log2 : Int) + 1 + e) := (zpow_add₀ (by norm_num) _ _).symm
      _ ≤ 10 ^ (-(401 : Nat) : Int) := zpow_le_zpow_right₀ (by norm_num) (by push_cast; omega)
      _ ≤ 2 ^ (-(1075 : Nat) : Int) := by
          have := two_zpow_le_ten_zpow (n := 1075) (k := 401) (by decide +kernel)
          rw [zpow_neg, zpow_neg]
          gcongr
  · refine absurd hhigh (not_lt.2 ?_)
    calc (2 : ℚ) ^ ((1024 : Nat) : Int) ≤ 10 ^ ((401 : Nat) : Int) :=
          two_zpow_le_ten_zpow (by decide +kernel)
      _ ≤ 10 ^ e := zpow_le_zpow_right₀ (by norm_num) (by push_cast; omega)
      _ ≤ digits * 10 ^ e := by
          have : (1 : ℚ) ≤ digits := by exact_mod_cast Nat.pos_of_ne_zero hdigits
          nlinarith [show (0 : ℚ) < 10 ^ e by positivity]

/-- The interval of a number of 64 bits lies between half of the smallest one and twice the largest
power of two. -/
theorem bounds_of_contains {m : Nat} {q : Int} (hx : IsDouble m q) {v : ℚ}
    (h : (doubleInterval m q).Contains v) : (2 : ℚ) ^ (-1075 : Int) ≤ v ∧ v < 2 ^ (1024 : Int) := by
  obtain ⟨hlow, hhigh, -⟩ := h
  constructor
  · refine le_trans ?_ hlow
    have htwo : (2 : ℚ) ≤ (doubleInterval m q).low := by
      have hm := hx.pos
      simp only [doubleInterval, Decimal.Interval.ofBinary]
      norm_cast
      split <;> omega
    calc (2 : ℚ) ^ (-1075 : Int) ≤ 2 ^ (q - 2 + 1) :=
          zpow_le_zpow_right₀ (by norm_num) (by linarith [hx.lowest])
      _ = 2 * 2 ^ (q - 2) := by rw [zpow_add_one₀ (by norm_num), mul_comm]
      _ ≤ _ := by
        show _ ≤ _ * (2 : ℚ) ^ (q - 2)
        gcongr
  · refine lt_of_le_of_lt hhigh ?_
    have hm : ((4 * m + 2 : Nat) : ℚ) < 2 ^ (55 : Int) := by
      have := hx.lt
      norm_cast
      omega
    calc ((4 * m + 2 : Nat) : ℚ) * 2 ^ (q - 2) < 2 ^ (55 : Int) * 2 ^ (q - 2) := by gcongr
      _ = 2 ^ (55 + (q - 2)) := (zpow_add₀ (by norm_num) _ _).symm
      _ ≤ 2 ^ (1024 : Int) := zpow_le_zpow_right₀ (by norm_num) (by linarith [hx.highest])

/-- **Decimals in the interval of a number** are read as this number. -/
theorem round_ofDecimal {x : Binary64} {negative atBoundary : Bool} {m : Nat} {q : Int}
    (h : x.decode = .finite negative m q atBoundary) (hm : m ≠ 0) {digits : Nat} {e : Int}
    (hcontains : (Decimal.Interval.ofBinary m q atBoundary).Contains (digits * 10 ^ e)) :
    BinaryFormat.double.round (.ofDecimal negative digits e) = x.bits.toNat := by
  obtain ⟨hx, rfl⟩ := Binary64.isDouble_of_decode h hm
  obtain ⟨hlow, hhigh⟩ := bounds_of_contains hx hcontains
  obtain ⟨hdigits, hsmall, hlarge⟩ := limits_of_bounds hlow hhigh
  have hratio : ((digits * 10 ^ e.toNat : Nat) : ℚ) / ((10 ^ (-e).toNat : Nat) : ℚ) =
      digits * 10 ^ e := by
    have hpow := zpow_eq_div (b := 10) (by norm_num) e
    push_cast at hpow ⊢
    rw [hpow, mul_div_assoc]
  rw [← hratio] at hcontains
  have hnearest := nearest_of_contains hx (by positivity) hcontains
  rw [ExactNumber.ofDecimal, if_neg (by omega), if_neg (by omega), Binary64.bits_of_decode h,
    ← hnearest]
  rfl

end ProtoModels
