/-!
# Shortest decimals

The fewest decimal digits that still determine a binary number `m * 2 ^ q`: the decimal nearest to
the number among those with the fewest digits that round to it. All steps are exact: numbers are
compared as fractions of natural numbers.
-/
namespace ProtoModels

/-- The decimal `digits * 10 ^ exponent`. -/
structure Decimal where
  digits : Nat
  exponent : Int
deriving DecidableEq, Repr

namespace Decimal

/-- A positive number between its two neighbours, as multiples of `2 ^ unit`: all reals between
`low` and `high` round to `value`, the ends themselves only if `closed`. -/
structure Interval where
  low : Nat
  value : Nat
  high : Nat
  unit : Int
  closed : Bool
deriving DecidableEq, Repr

/-- The reals that round to `m * 2 ^ q`. Below the number the spacing is halved at a boundary, and
ties go to the even significand. -/
def Interval.ofBinary (m : Nat) (q : Int) (atBoundary : Bool) : Interval where
  low := 4 * m - (if atBoundary then 1 else 2)
  value := 4 * m
  high := 4 * m + 2
  unit := q - 2
  closed := m % 2 == 0

/-- The fraction `2 ^ unit / 10 ^ k`. -/
def scale (unit k : Int) : Nat × Nat :=
  (Nat.pow 2 unit.toNat * Nat.pow 10 (-k).toNat, Nat.pow 2 (-unit).toNat * Nat.pow 10 k.toNat)

/-- Whether `c * 10 ^ k` rounds to the number. -/
def Interval.contains (i : Interval) (k : Int) (c : Nat) : Bool :=
  let (num, den) := scale i.unit k
  if i.closed then i.low * num ≤ c * den && c * den ≤ i.high * num
  else i.low * num < c * den && c * den < i.high * num

/-- The multiple of `10 ^ k` that rounds to the number and lies nearest to it, if there is one. Of
two at the same distance it is the larger. -/
def Interval.onGrid? (i : Interval) (k : Int) : Option Nat :=
  let (num, den) := scale i.unit k
  let below := i.value * num / den
  match i.contains k below, i.contains k (below + 1) with
  | true, true => if 2 * (i.value * num % den) < den then some below else some (below + 1)
  | true, false => some below
  | false, true => some (below + 1)
  | false, false => none

/-- Whether `10 ^ k` is at most the number. -/
def Interval.atLeastPower (i : Interval) (k : Int) : Bool :=
  let (num, den) := scale i.unit k
  den ≤ i.value * num

/-- The `k` with `10 ^ k ≤ value < 10 ^ (k + 1)`. The binary logarithm gives it up to one: `1233 /
4096` is a little less than the decimal logarithm of two. -/
def Interval.magnitude (i : Interval) : Int :=
  let estimate := Int.fdiv ((i.value.log2 + i.unit) * 1233) 4096
  if i.atLeastPower (estimate + 1) then estimate + 1
  else if i.atLeastPower estimate then estimate
  else estimate - 1

/-- The decimal without zeros at the end of its digits. -/
def normalize : Nat → Decimal → Decimal
  | 0, d => d
  | fuel + 1, d =>
    if d.digits ≠ 0 ∧ d.digits % 10 = 0 then
      normalize fuel ⟨d.digits / 10, d.exponent + 1⟩
    else d

/-- The shortest decimal that rounds to the number. Seventeen digits always do. -/
def Interval.shortest (i : Interval) : Decimal :=
  let top := i.magnitude
  let found := (List.range 17).findSome? fun (n : Nat) =>
    (i.onGrid? (top - n)).map fun c => Decimal.mk c (top - n)
  (found.getD ⟨0, 0⟩).normalize 20

example : (Interval.ofBinary 1 (-1074) false).shortest = ⟨5, -324⟩ := by decide +kernel
example : (Interval.ofBinary (3 * 2 ^ 51) (-52) false).shortest = ⟨15, -1⟩ := by decide +kernel
example : (Interval.ofBinary 9007199254740991 971 false).shortest = ⟨17976931348623157, 292⟩ := by
  decide +kernel

end Decimal
end ProtoModels
