import ProtoModels.Decimal.Binary64
/-!
# Nearest binary numbers

Rounding of exact numbers to a binary format: the nearest number of the format, of two nearest ones
that with the even significand. All steps are exact, on fractions of natural numbers.
-/
namespace ProtoModels

/-- A number that may have to be rounded: a fraction, or what lies outside of the numbers. -/
inductive ExactNumber where
  | nan
  | infinity (negative : Bool)
  | ratio (negative : Bool) (num den : Nat)
deriving DecidableEq, Repr

namespace ExactNumber

def ofInt (n : Int) : ExactNumber := ratio (n < 0) n.natAbs 1

/-- The number `m * 2 ^ q`. -/
def ofBinary (negative : Bool) (m : Nat) (q : Int) : ExactNumber :=
  ratio negative (m * Nat.pow 2 q.toNat) (Nat.pow 2 (-q).toNat)

/-- The number `digits * 10 ^ exponent`. What lies beyond `10 ^ 400` is as good as infinite in every
format here, and what lies below `10 ^ -400` as good as zero. -/
def ofDecimal (negative : Bool) (digits : Nat) (exponent : Int) : ExactNumber :=
  if digits = 0 ∨ exponent + digits.log2 < -401 then ratio negative 0 1
  else if 400 < exponent then infinity negative
  else ratio negative (digits * Nat.pow 10 exponent.toNat) (Nat.pow 10 (-exponent).toNat)

def ofBinary64 (x : Binary64) : ExactNumber :=
  match x.decode with
  | .nan => nan
  | .infinity negative => infinity negative
  | .finite negative m q _ => ofBinary negative m q

end ExactNumber

/-- The quotient of two numbers, rounded to the nearer whole number, and to the even one from the
middle between two. -/
def roundedQuotient (num den : Nat) : Nat :=
  let below := num / den
  let rest := num % den
  if 2 * rest < den ∨ (2 * rest = den ∧ below % 2 = 0) then below else below + 1

/-- A binary floating point format: how many bits the significand has, the exponent of the smallest
positive number, and the patterns of infinity and of the sign. -/
structure BinaryFormat where
  precision : Nat
  lowest : Int
  infinity : Nat
  sign : Nat
deriving DecidableEq, Repr

namespace BinaryFormat

/-- The format of 64 bits. -/
def double : BinaryFormat := ⟨53, -1074, 0x7ff0000000000000, 0x8000000000000000⟩

/-- The format of 32 bits. -/
def single : BinaryFormat := ⟨24, -149, 0x7f800000, 0x80000000⟩

/-- The exponent with which a positive fraction has as many bits before the point as a significand,
but not less than the lowest one. -/
def exponentFor (f : BinaryFormat) (num den : Nat) : Int :=
  let estimate : Int := (num.log2 : Int) - den.log2
  let reached := den * Nat.pow 2 estimate.toNat ≤ num * Nat.pow 2 (-estimate).toNat
  max f.lowest ((if reached then estimate else estimate - 1) - (f.precision - 1))

/-- The pattern of the number nearest to a fraction. Patterns count the numbers of a format in order,
so a significand that is rounded up to the next power of two needs no care. -/
def nearest (f : BinaryFormat) (num den : Nat) : Nat :=
  if num = 0 then 0 else
  let e := f.exponentFor num den
  let significand :=
    roundedQuotient (num * Nat.pow 2 (-e).toNat) (den * Nat.pow 2 e.toNat)
  min f.infinity ((e - f.lowest).toNat * Nat.pow 2 (f.precision - 1) + significand)

/-- The pattern of a number after rounding. -/
def round (f : BinaryFormat) : ExactNumber → Nat
  | .nan => f.infinity + Nat.pow 2 (f.precision - 2)
  | .infinity negative => (if negative then f.sign else 0) + f.infinity
  | .ratio negative num den => (if negative then f.sign else 0) + f.nearest num den

/-- Whether two patterns stand for the same number. Both zeros do; no number that is none does. -/
def same (f : BinaryFormat) (a b : Nat) : Bool :=
  a % f.sign ≤ f.infinity && (a == b || (a % f.sign == 0 && b % f.sign == 0))

example : double.round (.ofDecimal false 15 (-1)) = 0x3ff8000000000000 := by decide +kernel
example : double.round (.ofDecimal true 1 (-1)) = 0xbfb999999999999a := by decide +kernel
example : double.round (.ofDecimal false 5 (-324)) = 1 := by decide +kernel
example : double.round (.ofDecimal false 1 400) = double.infinity := by decide +kernel
example : single.round (.ofDecimal false 16777217 0) = 0x4b800000 := by decide +kernel

end BinaryFormat
end ProtoModels
