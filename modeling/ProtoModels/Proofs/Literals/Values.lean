import Mathlib.Data.List.TakeWhile
import ProtoModels.Proofs.Decimal.Shortest
import ProtoModels.Proofs.Literals.Texts
/-!
# Reading literals

A reader for literals as Python has them: texts in quotes, integers, floating point numbers rounded to
64 bits, and calls of `float` for what is no finite number. Each literal is read as the value it was made
from (`Literal.ofText?_text`): zeros keep their sign, and only the payload of a NaN is lost.
-/
namespace ProtoModels

/-- The first element without a property ends what has it. -/
theorem takeWhile_dropWhile_first {α : Type} {p : α → Bool} {before : List α}
    (hbefore : ∀ x ∈ before, p x = true) {x : α} (hx : p x = false) (behind : List α) :
    (before ++ x :: behind).takeWhile p = before ∧
      (before ++ x :: behind).dropWhile p = x :: behind := by
  constructor
  · rw [List.takeWhile_append_of_pos hbefore, List.takeWhile_cons_of_neg (by simp [hx]), List.append_nil]
  · rw [List.dropWhile_append_of_pos hbefore, List.dropWhile_cons_of_neg (by simp [hx])]

/-! ## Numerals -/

namespace Descriptor.Pool

theorem numeralValue_eq (cs : List Char) : numeralValue cs = Nat.ofDigitChars 10 cs 0 := by
  rw [Nat.ofDigitChars_eq_foldl]
  rfl

theorem numeralValue_append (cs ds : List Char) :
    numeralValue (cs ++ ds) = numeralValue cs * 10 ^ ds.length + numeralValue ds := by
  rw [numeralValue_eq, Nat.ofDigitChars_eq_foldl, List.foldl_append, ← Nat.ofDigitChars_eq_foldl,
    ← Nat.ofDigitChars_eq_foldl, Nat.ofDigitChars_eq_ofDigitChars_zero, numeralValue_eq,
    numeralValue_eq, mul_comm]

theorem numeralValue_zeros (n : Nat) : numeralValue (List.replicate n '0') = 0 := by
  rw [numeralValue_eq, Nat.ofDigitChars_replicate_zero, mul_zero]

theorem numeralValue_toDigits (n : Nat) : numeralValue (Nat.toDigits 10 n) = n := by
  rw [numeralValue_eq, Nat.ofDigitChars_ten_toDigits]

theorem isDigit_of_mem_toDigits {n : Nat} {c : Char} (h : c ∈ Nat.toDigits 10 n) :
    c.isDigit = true :=
  Nat.isDigit_of_mem_toDigits (by decide) (by decide) h

theorem isNumeral_toDigits (n : Nat) : isNumeral (Nat.toDigits 10 n) = true := by
  rw [isNumeral, Bool.and_eq_true, List.all_eq_true]
  exact ⟨by simp [Nat.toDigits_ne_nil], fun c hc => isDigit_of_mem_toDigits hc⟩

theorem isNumeral_eq_false {cs : List Char} {c : Char} (hmem : c ∈ cs) (hc : c.isDigit = false) :
    isNumeral cs = false := by
  rw [isNumeral, Bool.and_eq_false_iff, List.all_eq_false]
  exact Or.inr ⟨c, hmem, by simp [hc]⟩

/-- Only the numeral of zero starts with a zero. -/
theorem head?_toDigits {n : Nat} (hn : n ≠ 0) : (Nat.toDigits 10 n).head? ≠ some '0' := by
  induction n using Nat.strongRecOn with
  | ind n ih =>
    rcases Nat.lt_or_ge n 10 with hlt | hge
    · have hdigit : ∀ d < 10, d ≠ 0 → [Nat.digitChar d].head? ≠ some '0' := by decide
      rw [Nat.toDigits_of_lt_base hlt]
      exact hdigit n hlt hn
    · have hquotient : n / 10 ≠ 0 := by omega
      rw [Nat.toDigits_of_base_le (by decide) hge, List.head?_append_of_ne_nil _ Nat.toDigits_ne_nil]
      exact ih (n / 10) (by omega) hquotient

theorem toList_toString_nat (n : Nat) : (toString n).toList = Nat.toDigits 10 n := by
  rw [Nat.toString_eq_ofList_toDigits, String.toList_ofList]

theorem toList_toString_int (z : Int) : (toString z).toList =
    if z < 0 then '-' :: Nat.toDigits 10 z.natAbs else Nat.toDigits 10 z.natAbs := by
  rw [Int.toString_eq_repr, Int.repr_eq_if]
  split
  · rw [if_neg (by omega), Nat.repr_eq_ofList_toDigits, String.toList_ofList]
    congr 1
    omega
  · rw [if_pos (by omega), Nat.repr_eq_ofList_toDigits, String.toList_append,
      show (-z).toNat = z.natAbs by omega, String.toList_ofList (l := Nat.toDigits 10 z.natAbs)]
    rfl

/-! ## Signs -/

theorem isSign_eq_false {c : Char} (h : c.isDigit = true ∨ c = '.') : isSign c = false := by
  rw [isSign, Bool.or_eq_false_iff, beq_eq_false_iff_ne, beq_eq_false_iff_ne]
  constructor <;>
  · rintro rfl
    revert h
    decide

theorem cutSign_of_not_isSign {cs : List Char} (h : ∀ c, cs.head? = some c → isSign c = false) :
    cutSign cs = (false, cs) := by
  cases cs with
  | nil => rfl
  | cons c cs => rw [cutSign, if_neg (by simp [h c rfl])]

theorem cutSign_toDigits (n : Nat) : cutSign (Nat.toDigits 10 n) = (false, Nat.toDigits 10 n) :=
  cutSign_of_not_isSign fun _ hc =>
    isSign_eq_false (Or.inl (isDigit_of_mem_toDigits (List.mem_of_head? hc)))

theorem cutSign_toString (z : Int) :
    cutSign (toString z).toList = (decide (z < 0), Nat.toDigits 10 z.natAbs) := by
  rw [toList_toString_int]
  split
  · rename_i hz
    rw [decide_eq_true hz]
    rfl
  · rename_i hz
    rw [decide_eq_false hz, cutSign_toDigits]

theorem integer?_toString (z : Int) : integer? (toString z).toList = some z := by
  rw [integer?, cutSign_toString]
  simp only [isNumeral_toDigits, numeralValue_toDigits, if_true, decide_eq_true_eq]
  split <;> congr 1 <;> omega

/-! ## Decimals -/

/-- A decimal starts with a digit or its point. -/
theorem head?_of_decimal? {negative : Bool} {cs : List Char} {v : ExactNumber}
    (h : decimal? negative cs = some v) {c : Char} (hc : cs.head? = some c) :
    c.isDigit = true ∨ c = '.' := by
  obtain ⟨tail, rfl⟩ := List.head?_eq_some_iff.1 hc
  by_contra hne
  obtain ⟨hdigit, hpoint⟩ := not_or.1 hne
  have hwhole : (c :: tail).takeWhile Char.isDigit = [] := List.takeWhile_cons_of_neg hdigit
  have hrest : (c :: tail).dropWhile Char.isDigit = c :: tail := List.dropWhile_cons_of_neg hdigit
  simp [decimal?, hwhole, hrest, hpoint] at h

section
variable {whole part power : List Char} {e : Int} (negative : Bool)
  (hwhole : ∀ c ∈ whole, c.isDigit = true) (hpart : ∀ c ∈ part, c.isDigit = true)
include hwhole

theorem decimal?_exponent (hne : whole ≠ []) (hpower : integer? power = some e) :
    decimal? negative (whole ++ 'e' :: power) = some (.ofDecimal negative (numeralValue whole) e) := by
  obtain ⟨htake, hdrop⟩ := takeWhile_dropWhile_first hwhole (x := 'e') (by decide) power
  simp [decimal?, htake, hdrop, hne, hpower]

include hpart

theorem decimal?_point (hne : part ≠ []) : decimal? negative (whole ++ '.' :: part) =
    some (.ofDecimal negative (numeralValue (whole ++ part)) (0 - part.length)) := by
  obtain ⟨htake, hdrop⟩ := takeWhile_dropWhile_first hwhole (x := '.') (by decide) part
  have hpart' : part.takeWhile Char.isDigit = part := List.takeWhile_eq_self_iff.2 hpart
  have hrest : part.dropWhile Char.isDigit = [] := List.dropWhile_eq_nil_iff.2 hpart
  simp [decimal?, htake, hdrop, hpart', hrest, hne]

theorem decimal?_point_exponent (hne : whole ≠ []) (hpower : integer? power = some e) :
    decimal? negative (whole ++ '.' :: (part ++ 'e' :: power)) =
      some (.ofDecimal negative (numeralValue (whole ++ part)) (e - part.length)) := by
  obtain ⟨htake, hdrop⟩ := takeWhile_dropWhile_first hwhole (x := '.') (by decide) (part ++ 'e' :: power)
  obtain ⟨htake', hdrop'⟩ := takeWhile_dropWhile_first hpart (x := 'e') (by decide) power
  simp [decimal?, htake, hdrop, htake', hdrop', hne, hpower]

end
end Descriptor.Pool

/-! ## The reader -/

open Descriptor.Pool

/-- The number of 64 bits that an exact number is rounded to. -/
def Binary64.nearest (v : ExactNumber) : Binary64 := ⟨UInt64.ofNat (BinaryFormat.double.round v)⟩

/-- What a literal evaluates to. -/
inductive PythonValue where
  | int (n : Int)
  | float (x : Binary64)
  | text (s : String)
deriving DecidableEq

namespace PythonValue

/-- A number with or without a sign. Digits alone are an integer, and do not start with a needless zero;
digits with a point or an exponent are a floating point number. -/
def number? (cs : List Char) : Option PythonValue :=
  let (negative, unsigned) := cutSign cs
  if isNumeral unsigned then
    if unsigned.head? = some '0' ∧ unsigned ≠ ['0'] then none else (integer? cs).map .int
  else (decimal? negative unsigned).map fun v => .float (.nearest v)

/-- The value of a literal, which is the whole text: a text in quotes, a call of `float` on such a text,
or a number. -/
def ofText? (text : String) : Option PythonValue :=
  match text.toList with
  | '"' :: rest => do
    let (s, behind) ← Literal.readQuoted? rest
    if behind = [] then some (.text (String.ofList s)) else none
  | 'f' :: 'l' :: 'o' :: 'a' :: 't' :: '(' :: '"' :: rest => do
    let (s, behind) ← Literal.readQuoted? rest
    if behind = [')'] then (real? s).map fun v => .float (.nearest v) else none
  | cs => number? cs

example : ofText? "-1.5e3" = some (.float ⟨0xc097700000000000⟩) := by decide +kernel
example : ofText? "007" = none ∧ ofText? "\"a\"b\"" = none := by decide +kernel

/-- What starts as a number is read as one. -/
theorem ofText?_eq_number? {text : String}
    (h : ∀ c, text.toList.head? = some c → c.isDigit = true ∨ c = '.' ∨ c = '-') :
    ofText? text = number? text.toList := by
  unfold ofText?
  split
  · rename_i heq
    exact absurd (h '"' (by rw [heq]; rfl)) (by decide)
  · rename_i heq
    exact absurd (h 'f' (by rw [heq]; rfl)) (by decide)
  · rfl

/-! ## Integers -/

theorem head?_toString_int (z : Int) {c : Char} (hc : (toString z).toList.head? = some c) :
    c.isDigit = true ∨ c = '.' ∨ c = '-' := by
  rw [toList_toString_int] at hc
  split at hc
  · cases hc
    exact Or.inr (Or.inr rfl)
  · exact Or.inl (isDigit_of_mem_toDigits (List.mem_of_head? hc))

theorem ofText?_toString (z : Int) : ofText? (toString z) = some (.int z) := by
  rw [ofText?_eq_number? fun c => head?_toString_int z, number?, cutSign_toString]
  have hplain : ¬ ((Nat.toDigits 10 z.natAbs).head? = some '0' ∧ Nat.toDigits 10 z.natAbs ≠ ['0']) := by
    rintro ⟨hhead, hne⟩
    by_cases hz : z.natAbs = 0
    · exact hne (by rw [hz]; rfl)
    · exact head?_toDigits hz hhead
  simp only [isNumeral_toDigits, if_true, if_neg hplain, integer?_toString, Option.map_some]

/-! ## Floating point numbers -/

/-- A text without a sign that is read as a floating point number, before it is rounded. -/
def ReadsAs (text : String) (v : ℚ) : Prop :=
  isNumeral text.toList = false ∧ ∀ negative, ∃ digits e,
    decimal? negative text.toList = some (.ofDecimal negative digits e) ∧ (digits : ℚ) * 10 ^ e = v

/-- A sign in front makes the number negative. -/
theorem ReadsAs.ofText? {text : String} {v : ℚ} (h : ReadsAs text v) (negative : Bool) :
    ∃ (digits : Nat) (e : Int), (digits : ℚ) * 10 ^ e = v ∧ ofText? (if negative then "-" ++ text else text) =
      some (.float (.nearest (.ofDecimal negative digits e))) := by
  obtain ⟨hnumeral, hdecimal⟩ := h
  obtain ⟨digits, e, hread, hvalue⟩ := hdecimal negative
  refine ⟨digits, e, hvalue, ?_⟩
  cases negative with
  | false =>
    have hcut : cutSign text.toList = (false, text.toList) :=
      cutSign_of_not_isSign fun _ hc => isSign_eq_false (head?_of_decimal? hread hc)
    rw [if_neg Bool.false_ne_true, ofText?_eq_number? fun c hc => ?_]
    · rw [number?, hcut]
      simp [hnumeral, hread]
    · exact (head?_of_decimal? hread hc).imp_right Or.inl
  | true =>
    have htext : ("-" ++ text).toList = '-' :: text.toList := by
      rw [String.toList_append]
      rfl
    have hcut : cutSign ('-' :: text.toList) = (true, text.toList) := rfl
    rw [if_pos rfl, ofText?_eq_number? fun c hc => ?_]
    · rw [htext, number?, hcut]
      simp [hnumeral, hread]
    · rw [htext] at hc
      cases hc
      exact Or.inr (Or.inr rfl)

end PythonValue

namespace Literal

theorem isDigit_of_mem_zeros {n : Nat} {c : Char} (h : c ∈ (zeros n).toList) : c.isDigit = true := by
  rw [zeros, String.toList_ofList] at h
  rw [List.eq_of_mem_replicate h]
  rfl

/-- Positional notation of a whole number. -/
theorem reads_whole (n k : Nat) :
    PythonValue.ReadsAs (toString n ++ zeros k ++ ".0") (n * 10 ^ (k : Int)) := by
  have htext : (toString n ++ zeros k ++ ".0").toList =
      (Nat.toDigits 10 n ++ (zeros k).toList) ++ '.' :: ['0'] := by
    rw [String.toList_append, String.toList_append, toList_toString_nat]
    rfl
  have hdigits : ∀ c ∈ Nat.toDigits 10 n ++ (zeros k).toList, c.isDigit = true :=
    List.forall_mem_append.2 ⟨fun _ => isDigit_of_mem_toDigits, fun _ => isDigit_of_mem_zeros⟩
  rw [PythonValue.ReadsAs, htext]
  refine ⟨isNumeral_eq_false (c := '.') (by simp) (by decide), fun negative => ?_⟩
  refine ⟨_, _, decimal?_point negative hdigits (List.forall_mem_singleton.2 rfl)
    (List.cons_ne_nil _ _), ?_⟩
  rw [numeralValue_append, numeralValue_append, zeros, String.toList_ofList, numeralValue_zeros,
    numeralValue_toDigits]
  simp [numeralValue]

/-- Positional notation with `k` digits behind the point: zeros in front leave the number as it is, and
make it long enough. -/
theorem reads_places (n : Nat) {k : Nat} (hk : 0 < k) :
    PythonValue.ReadsAs (positional (toString n) (-k)) (n * 10 ^ (-k : Int)) := by
  set padded := zeros (k + 1 - (toString n).length) ++ toString n with hpadded
  have htext : (positional (toString n) (-k)).toList =
      padded.toList.take (padded.length - k) ++ '.' :: padded.toList.drop (padded.length - k) := by
    rw [positional, if_neg (by omega), show (- -(k : Int)).toNat = k by omega]
    dsimp only
    rw [← hpadded]
    simp [String.toList_append]
  have hlist : padded.toList = (zeros (k + 1 - (toString n).length)).toList ++ Nat.toDigits 10 n := by
    rw [hpadded, String.toList_append, toList_toString_nat]
  have hdigits : ∀ c ∈ padded.toList, c.isDigit = true := by
    rw [hlist]
    exact List.forall_mem_append.2 ⟨fun _ => isDigit_of_mem_zeros, fun _ => isDigit_of_mem_toDigits⟩
  have hlength : k ≤ padded.length := by
    rw [hpadded, String.length_append, zeros, String.length_ofList, List.length_replicate]
    omega
  have hpart : (padded.toList.drop (padded.length - k)).length = k := by
    rw [List.length_drop, String.length_toList]
    omega
  have hne : padded.toList.drop (padded.length - k) ≠ [] := by
    rw [← List.length_pos_iff, hpart]
    exact hk
  rw [PythonValue.ReadsAs, htext]
  refine ⟨isNumeral_eq_false (c := '.') (by simp) (by decide), fun negative => ?_⟩
  refine ⟨_, _, decimal?_point negative (fun c hc => hdigits c (List.mem_of_mem_take hc))
    (fun c hc => hdigits c (List.mem_of_mem_drop hc)) hne, ?_⟩
  rw [List.take_append_drop, hpart, hlist, numeralValue_append, zeros, String.toList_ofList,
    numeralValue_zeros, numeralValue_toDigits]
  simp

theorem reads_positional (n : Nat) (e : Int) :
    PythonValue.ReadsAs (positional (toString n) e) (n * 10 ^ e) := by
  rcases le_or_gt 0 e with he | he
  · obtain ⟨k, rfl⟩ := Int.eq_ofNat_of_zero_le he
    rw [positional, if_pos he]
    exact reads_whole n k
  · obtain ⟨k, hk⟩ := Int.eq_ofNat_of_zero_le (show 0 ≤ -e by omega)
    obtain rfl : e = -k := by omega
    exact reads_places n (by omega)

/-- One digit before the point, and the exponent of the whole number corrected by those behind it. -/
theorem reads_scientific (n : Nat) (e : Int) :
    PythonValue.ReadsAs (scientific (toString n) (e + (toString n).length - 1)) (n * 10 ^ e) := by
  obtain ⟨d, ds, hds⟩ := List.exists_cons_of_ne_nil (Nat.toDigits_ne_nil (n := n) (b := 10))
  have hdigits : ∀ c ∈ d :: ds, c.isDigit = true := fun c hc => isDigit_of_mem_toDigits (hds ▸ hc)
  have hvalue : numeralValue (d :: ds) = n := by rw [← hds, numeralValue_toDigits]
  have hlength : (toString n).length = ds.length + 1 := by
    rw [← String.length_toList, toList_toString_nat, hds, List.length_cons]
  unfold scientific
  rw [toList_toString_nat, hds, hlength]
  have hpower := integer?_toString (e + (ds.length + 1 : Nat) - 1)
  generalize toString (e + ((ds.length + 1 : Nat) : Int) - 1) = power at hpower
  cases ds with
  | nil =>
    have htext : (String.ofList [d] ++ "e" ++ power).toList = [d] ++ 'e' :: power.toList := by
      rw [String.toList_append, String.toList_append, String.toList_ofList, List.append_assoc]
      rfl
    dsimp only
    rw [PythonValue.ReadsAs, htext]
    refine ⟨isNumeral_eq_false (c := 'e') (by simp) (by decide), fun negative => ?_⟩
    refine ⟨_, _, decimal?_exponent negative hdigits (by simp) hpower, ?_⟩
    rw [hvalue]
    simp
  | cons d' ds =>
    have htext : (String.ofList (d :: '.' :: d' :: ds) ++ "e" ++ power).toList =
        [d] ++ '.' :: ((d' :: ds) ++ 'e' :: power.toList) := by
      rw [String.toList_append, String.toList_append, String.toList_ofList, List.append_assoc]
      rfl
    obtain ⟨hfirst, hothers⟩ := List.forall_mem_cons.1 hdigits
    dsimp only
    rw [PythonValue.ReadsAs, htext]
    refine ⟨isNumeral_eq_false (c := '.') (by simp) (by decide), fun negative => ?_⟩
    refine ⟨_, _, decimal?_point_exponent negative (List.forall_mem_singleton.2 hfirst) hothers
      (by simp) hpower, ?_⟩
    rw [List.singleton_append, hvalue]
    congr 2
    push_cast [List.length_cons]
    omega

theorem reads_decimalText (layout : FloatLayout) (d : Decimal) :
    PythonValue.ReadsAs (decimalText layout d) (d.digits * 10 ^ d.exponent) := by
  unfold decimalText
  dsimp only
  split
  · exact reads_positional d.digits d.exponent
  · exact reads_scientific d.digits d.exponent

end Literal

namespace Binary64

variable {x : Binary64} {negative atBoundary : Bool} {m : Nat} {q : Int}

theorem nearest_eq {v : ExactNumber} (h : BinaryFormat.double.round v = x.bits.toNat) :
    nearest v = x := by
  rw [nearest, h, UInt64.ofNat_toNat]

/-- Infinities have their own patterns. -/
theorem bits_of_infinity (h : x.decode = .infinity negative) :
    x.bits.toNat = (if negative then 2 ^ 63 else 0) + BinaryFormat.double.infinity := by
  have hbits := x.bits.toNat_lt
  unfold decode at h
  split at h
  · split at h <;> cases h
    simp only [biasedExponent, fraction, isNegative, decide_eq_true_eq, BinaryFormat.double] at *
    split <;> omega
  · split at h <;> cases h

/-- A zero is one of the numbers below the smallest power. -/
theorem exponent_of_zero (h : x.decode = .finite negative 0 q atBoundary) : q = -1074 := by
  unfold decode at h
  split at h
  · split at h <;> cases h
  split at h
  · exact (Value.finite.inj h).2.2.1.symm
  · have := (Value.finite.inj h).2.1
    omega

end Binary64

namespace Literal

/-- What a literal was made from, as a value. There is one NaN only. -/
def value : Literal → PythonValue
  | int v => .int v.toInt
  | uint v => .int v.toNat
  | float v => .float (if v.decode = .nan then .nearest .nan else v)
  | str s => .text s

/-- Finite numbers are read as they were written, zeros with their sign. -/
theorem ofText?_finite {x : Binary64} {negative atBoundary : Bool} {m : Nat} {q : Int}
    (h : x.decode = .finite negative m q atBoundary) :
    PythonValue.ofText? (floatText x) = some (.float x) := by
  unfold floatText
  rw [h]
  dsimp only
  by_cases hm : m = 0
  · subst hm
    obtain rfl := Binary64.exponent_of_zero h
    have hbits := Binary64.bits_of_decode h
    have hzero : Binary64.nearest (.ofDecimal negative 0 (-1)) = x := by
      refine Binary64.nearest_eq ?_
      rw [hbits]
      cases negative <;> rfl
    rw [if_pos rfl, ← hzero]
    cases negative <;> decide +kernel
  · obtain ⟨hx, rfl⟩ := Binary64.isDouble_of_decode h hm
    rw [if_neg hm]
    obtain ⟨digits, e, hvalue, hread⟩ := (reads_decimalText floatLayout _).ofText? negative
    rw [hread, Binary64.nearest_eq (round_ofDecimal h hm ?_)]
    rw [hvalue]
    exact Decimal.Interval.contains_shortest hx

theorem ofText?_floatText (x : Binary64) :
    PythonValue.ofText? (floatText x) = some (float x).value := by
  cases h : x.decode with
  | nan =>
    simp only [floatText, value, h, if_true]
    decide +kernel
  | infinity negative =>
    have hbits := Binary64.bits_of_infinity h
    have hround : Binary64.nearest (.infinity negative) = x := by
      refine Binary64.nearest_eq ?_
      rw [hbits]
      cases negative <;> rfl
    simp only [floatText, value, h, reduceCtorEq, if_false]
    rw [← hround]
    cases negative <;> decide +kernel
  | finite negative m q atBoundary =>
    rw [ofText?_finite h]
    simp [value, h]

/-- **Literals are read as what they were made from.** -/
theorem ofText?_text (l : Literal) : PythonValue.ofText? l.text = some l.value := by
  cases l with
  | int v => exact PythonValue.ofText?_toString v.toInt
  | uint v => exact PythonValue.ofText?_toString v.toNat
  | float x => exact ofText?_floatText x
  | str s =>
    have htext : (str s).text.toList = '"' :: (escape s.toList ++ '"' :: []) := by
      simp [text, quoted]
    have hread := readQuoted?_escape s.toList []
    simp [PythonValue.ofText?, htext, hread, value]

end Literal
end ProtoModels
