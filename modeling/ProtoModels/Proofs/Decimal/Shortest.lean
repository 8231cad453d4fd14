import ProtoModels.Proofs.Decimal.Rounding
/-!
# Shortest decimals read back

The shortest decimal of a number lies in the interval of the rationals that round to it
(`Decimal.Interval.contains_shortest`). Whatever the search for fewer digits finds lies there, so what is
left to show is that it finds something: a grid of seventeen digits is finer than the interval is wide
(`isSome_onGrid?_seventeen`). With `round_ofDecimal` the decimal is read back as the number.
-/
namespace ProtoModels.Decimal

/-! ## Grids -/

/-- The two parts of a scale, as multiples of one positive number. -/
theorem exists_scale (unit k : Int) : ∃ r : ℚ, 0 < r ∧
    ((scale unit k).1 : ℚ) = 2 ^ unit * r ∧ ((scale unit k).2 : ℚ) = 10 ^ k * r := by
  have htwo := zpow_eq_div (b := 2) (by decide) unit
  have hten := zpow_eq_div (b := 10) (by decide) k
  push_cast at htwo hten
  refine ⟨2 ^ (-unit).toNat * 10 ^ (-k).toNat, by positivity, ?_, ?_⟩
  · simp only [scale, Nat.pow_eq]
    push_cast
    rw [htwo]
    field_simp
  · simp only [scale, Nat.pow_eq]
    push_cast
    rw [hten]
    field_simp

/-- Numbers are compared with a scale as they are with the powers. -/
theorem scale_le_iff (unit k : Int) (a c : Nat) :
    (a * (scale unit k).1 ≤ c * (scale unit k).2 ↔ (a : ℚ) * 2 ^ unit ≤ c * 10 ^ k) ∧
      (c * (scale unit k).2 ≤ a * (scale unit k).1 ↔ (c : ℚ) * 10 ^ k ≤ a * 2 ^ unit) := by
  obtain ⟨r, hr, hnum, hden⟩ := exists_scale unit k
  have hcast : ∀ m n : Nat, m ≤ n ↔ (m : ℚ) ≤ n := fun _ _ => Nat.cast_le.symm
  rw [hcast, hcast]
  push_cast
  rw [hnum, hden, ← mul_assoc, ← mul_assoc, mul_le_mul_iff_of_pos_right hr,
    mul_le_mul_iff_of_pos_right hr]
  exact ⟨Iff.rfl, Iff.rfl⟩

namespace Interval

variable {i : Interval}

theorem contains_iff {k : Int} {c : Nat} : i.contains k c = true ↔ i.Contains (c * 10 ^ k) := by
  have hlow := scale_le_iff i.unit k i.low c
  have hhigh := scale_le_iff i.unit k i.high c
  unfold contains Contains
  generalize scale i.unit k = p at *
  obtain ⟨num, den⟩ := p
  dsimp only at *
  cases i.closed with
  | true => simp [hlow, hhigh]
  | false =>
    simp only [Bool.false_eq_true, if_false, false_or, Bool.and_eq_true, decide_eq_true_eq,
      lt_iff_not_ge, hlow, hhigh]
    simp only [not_le, lt_iff_le_and_ne]
    tauto

theorem contains_of_onGrid? {k : Int} {c : Nat} (h : i.onGrid? k = some c) :
    i.contains k c = true := by
  unfold onGrid? at h
  dsimp only at h
  split at h
  · split at h <;> cases h <;> assumption
  · cases h
    assumption
  · cases h
    assumption
  · cases h

/-- A grid has a point in an interval if one of the two points around the number is there. -/
theorem isSome_onGrid? {k : Int} (h : ∀ c : Nat, (c : ℚ) * 10 ^ k ≤ i.value * 2 ^ i.unit →
    i.value * 2 ^ i.unit < ((c + 1 : Nat) : ℚ) * 10 ^ k →
      i.Contains (c * 10 ^ k) ∨ i.Contains (((c + 1 : Nat) : ℚ) * 10 ^ k)) :
    (i.onGrid? k).isSome = true := by
  have hcompare := fun c => (scale_le_iff i.unit k i.value c).2
  have hpos : 0 < (scale i.unit k).2 := by
    obtain ⟨r, hr, -, hden⟩ := exists_scale i.unit k
    have : (0 : ℚ) < (scale i.unit k).2 := by
      rw [hden]
      positivity
    exact_mod_cast this
  unfold onGrid?
  generalize scale i.unit k = p at *
  obtain ⟨num, den⟩ := p
  dsimp only at *
  have hdivision := Nat.div_add_mod (i.value * num) den
  have hrest := Nat.mod_lt (i.value * num) hpos
  have hbelow : ((i.value * num / den : Nat) : ℚ) * 10 ^ k ≤ i.value * 2 ^ i.unit := by
    rw [← hcompare, mul_comm]
    omega
  have habove : (i.value : ℚ) * 2 ^ i.unit < ((i.value * num / den + 1 : Nat) : ℚ) * 10 ^ k := by
    rw [← not_le, ← hcompare, mul_comm, Nat.mul_add]
    omega
  have hin := h _ hbelow habove
  rw [← contains_iff, ← contains_iff] at hin
  split
  · split <;> rfl
  · rfl
  · rfl
  · simp_all

/-! ## The magnitude of a number -/

theorem atLeastPower_iff {k : Int} :
    i.atLeastPower k = true ↔ (10 : ℚ) ^ k ≤ i.value * 2 ^ i.unit := by
  have h := (scale_le_iff i.unit k i.value 1).2
  unfold atLeastPower
  simp only [one_mul, Nat.cast_one] at h
  rw [← h]
  simp

/-- If `a / n` is a little less than the decimal logarithm of two, it gives the decimal logarithm of a
power of two up to one. -/
theorem ten_zpow_le_two_zpow {a n : Nat} (hn : n ≠ 0) (hten : 10 ^ a ≤ 2 ^ n)
    (htwo : 2 ^ n ≤ 10 ^ (a + 1)) {l e : Int} (hl : -n ≤ l) (he : e * n ≤ l * a) :
    (10 : ℚ) ^ (e - 1) ≤ 2 ^ l := by
  have hten : (10 : ℚ) ^ a ≤ 2 ^ n := by exact_mod_cast hten
  have htwo : (2 : ℚ) ^ n ≤ 10 ^ (a + 1) := by exact_mod_cast htwo
  rw [← pow_le_pow_iff_left₀ (by positivity) (by positivity) hn]
  rw [← zpow_natCast, ← zpow_natCast, ← zpow_mul, ← zpow_mul]
  rcases le_total 0 l with hpos | hneg
  · obtain ⟨l, rfl⟩ := Int.eq_ofNat_of_zero_le hpos
    calc (10 : ℚ) ^ ((e - 1) * (n : Int)) ≤ 10 ^ ((a * l : Nat) : Int) :=
          zpow_le_zpow_right₀ (by norm_num) (by push_cast; linarith)
      _ = (10 ^ a) ^ l := by rw [zpow_natCast, pow_mul]
      _ ≤ (2 ^ n) ^ l := by gcongr
      _ = 2 ^ ((l : Int) * (n : Int)) := by
        rw [← pow_mul, ← zpow_natCast, mul_comm, Nat.cast_mul]
  · obtain ⟨k, hk⟩ := Int.eq_ofNat_of_zero_le (show 0 ≤ -l by omega)
    obtain rfl : l = -k := by omega
    calc (10 : ℚ) ^ ((e - 1) * (n : Int)) ≤ 10 ^ (-(((a + 1) * k : Nat) : Int)) :=
          zpow_le_zpow_right₀ (by norm_num) (by push_cast; linarith)
      _ = ((10 ^ (a + 1)) ^ k)⁻¹ := by rw [zpow_neg, zpow_natCast, pow_mul]
      _ ≤ ((2 ^ n) ^ k)⁻¹ := by gcongr
      _ = 2 ^ (-(k : Int) * (n : Int)) := by
        rw [← pow_mul, neg_mul, zpow_neg, ← Nat.cast_mul, zpow_natCast, mul_comm]

/-- The magnitude is not too large. -/
theorem ten_zpow_magnitude_le (hvalue : 0 < i.value) (hunit : -4096 ≤ i.unit) :
    (10 : ℚ) ^ i.magnitude ≤ i.value * 2 ^ i.unit := by
  unfold magnitude
  dsimp only
  split
  · rename_i h
    exact atLeastPower_iff.1 h
  split
  · rename_i h
    exact atLeastPower_iff.1 h
  · set estimate := Int.fdiv ((i.value.log2 + i.unit) * 1233) 4096 with hestimate
    have hfloor : estimate * (4096 : Nat) ≤ (i.value.log2 + i.unit) * (1233 : Nat) := by
      rw [hestimate, Int.fdiv_eq_ediv_of_nonneg _ (by norm_num)]
      push_cast
      omega
    calc (10 : ℚ) ^ (estimate - 1) ≤ 2 ^ ((i.value.log2 : Int) + i.unit) :=
          ten_zpow_le_two_zpow (by norm_num) (by decide +kernel) (by decide +kernel) (by omega) hfloor
      _ = 2 ^ (i.value.log2 : Int) * 2 ^ i.unit := zpow_add₀ (by norm_num) _ _
      _ ≤ i.value * 2 ^ i.unit := by
        gcongr
        exact (zpow_log2_le hvalue).1

/-! ## Seventeen digits -/

theorem contains_of_lt {v : ℚ} (hlow : i.low * 2 ^ i.unit < v) (hhigh : v < i.high * 2 ^ i.unit) :
    i.Contains v :=
  ⟨hlow.le, hhigh.le, Or.inr ⟨hlow.ne, hhigh.ne⟩⟩

/-- A grid of seventeen digits has a point in the interval of a number: the points are closer to each
other than the number is to the larger neighbour. The one above the number is always taken at a boundary,
where the interval is narrower below; else the nearer one is there. -/
theorem isSome_onGrid?_seventeen {m : Nat} {q : Int} (hx : IsDouble m q) {k : Int}
    (hk : (10 : ℚ) ^ (k + 16) ≤ (4 * m : Nat) * 2 ^ (q - 2)) :
    ((doubleInterval m q).onGrid? k).isSome = true := by
  obtain ⟨hpos, hlt, -⟩ := hx
  obtain ⟨hlow, hhigh⟩ := doubleInterval_ends (q := q) hpos
  have hm : (m : ℚ) < 2 ^ 53 := by exact_mod_cast hlt
  have hunit : (0 : ℚ) < 2 ^ (q - 2) := by positivity
  have hwidth : (10 : ℚ) ^ k * 10 ^ 16 ≤ 4 * m * 2 ^ (q - 2) := by
    rw [zpow_add₀ (by norm_num)] at hk
    exact_mod_cast hk
  have hnarrow : (10 : ℚ) ^ k < 4 * 2 ^ (q - 2) := by nlinarith
  refine isSome_onGrid? fun c hbelow habove => ?_
  simp only [ofBinary] at hbelow habove
  push_cast at hbelow habove ⊢
  by_cases hboundary : IsBoundary m q
  · have hm : (m : ℚ) = 2 ^ 52 := by exact_mod_cast hboundary.1
    rw [if_pos hboundary] at hlow
    refine Or.inr (contains_of_lt ?_ ?_)
    · rw [hlow]
      show _ * (2 : ℚ) ^ (q - 2) < _
      linarith
    · rw [hhigh]
      show _ < _ * (2 : ℚ) ^ (q - 2)
      rw [hm] at hwidth hbelow ⊢
      linarith
  · rw [if_neg hboundary] at hlow
    rcases lt_or_ge ((4 * (m : ℚ) - 2) * 2 ^ (q - 2)) (c * (10 : ℚ) ^ k) with hnear | hfar
    · refine Or.inl (contains_of_lt ?_ ?_)
      · rwa [hlow]
      · rw [hhigh]
        show _ < _ * (2 : ℚ) ^ (q - 2)
        linarith
    · refine Or.inr (contains_of_lt ?_ ?_)
      · rw [hlow]
        show _ * (2 : ℚ) ^ (q - 2) < _
        linarith
      · rw [hhigh]
        show _ < _ * (2 : ℚ) ^ (q - 2)
        linarith

/-! ## The shortest decimal -/

/-- Zeros at the end of the digits do not change the number. -/
theorem normalize_value (fuel : Nat) (d : Decimal) :
    ((normalize fuel d).digits : ℚ) * 10 ^ (normalize fuel d).exponent = d.digits * 10 ^ d.exponent := by
  fun_induction normalize fuel d with
  | case1 d => rfl
  | case2 fuel d h ih =>
    have hdigits : d.digits = 10 * (d.digits / 10) := by omega
    rw [ih, zpow_add₀ (by norm_num)]
    conv_rhs => rw [hdigits]
    push_cast
    ring
  | case3 fuel d h => rfl

/-- **The shortest decimal of a number rounds to it.** -/
theorem contains_shortest {m : Nat} {q : Int} (hx : IsDouble m q) :
    (doubleInterval m q).Contains
      ((doubleInterval m q).shortest.digits * 10 ^ (doubleInterval m q).shortest.exponent) := by
  set i := doubleInterval m q
  have hvalue : 0 < i.value := Nat.mul_pos (by decide) hx.pos
  have hunit : -4096 ≤ i.unit := by
    have := hx.lowest
    show -4096 ≤ q - 2
    omega
  have hmagnitude := ten_zpow_magnitude_le hvalue hunit
  obtain ⟨d, hd⟩ : ∃ d, ((List.range 17).findSome? fun (n : Nat) =>
      (i.onGrid? (i.magnitude - n)).map fun c => Decimal.mk c (i.magnitude - n)) = some d := by
    rw [← Option.isSome_iff_exists, List.findSome?_isSome_iff]
    refine ⟨16, by simp, ?_⟩
    rw [Option.isSome_map]
    refine isSome_onGrid?_seventeen hx ?_
    push_cast
    rw [Int.sub_add_cancel]
    exact_mod_cast hmagnitude
  obtain ⟨n, _, hn⟩ := List.exists_of_findSome?_eq_some hd
  obtain ⟨c, hc, rfl⟩ := Option.map_eq_some_iff.1 hn
  have hshortest : i.shortest = Decimal.normalize 20 ⟨c, i.magnitude - n⟩ := by
    rw [shortest, hd, Option.getD_some]
  rw [hshortest, normalize_value]
  exact contains_iff.1 (contains_of_onGrid? hc)

end Interval
end ProtoModels.Decimal
