/-!
# Binary floating point numbers of 64 bits

A number is its bit pattern, so two numbers are equal only when all their bits are: `0.0` and
`-0.0` differ, and NaNs with the same payload do not. `Binary64.decode` says which number a
pattern stands for.
-/
namespace ProtoModels

/-- A 64-bit floating point number, given by its bits: a sign, eleven bits of exponent, fifty-two of
fraction. -/
structure Binary64 where
  bits : UInt64
deriving DecidableEq, Repr, Inhabited

namespace Binary64

/-- What a bit pattern stands for. `finite` is `significand * 2 ^ exponent`, negated if `negative`;
`atBoundary` tells that the next smaller number is only half as far away as the next larger. -/
inductive Value where
  | nan
  | infinity (negative : Bool)
  | finite (negative : Bool) (significand : Nat) (exponent : Int) (atBoundary : Bool)
deriving DecidableEq, Repr

def isNegative (x : Binary64) : Bool := 0x8000000000000000 ≤ x.bits.toNat

/-- The eleven exponent bits. -/
def biasedExponent (x : Binary64) : Nat := x.bits.toNat / 0x10000000000000 % 0x800

/-- The fifty-two fraction bits. -/
def fraction (x : Binary64) : Nat := x.bits.toNat % 0x10000000000000

def decode (x : Binary64) : Value :=
  if x.biasedExponent = 2047 then
    if x.fraction = 0 then .infinity x.isNegative else .nan
  else if x.biasedExponent = 0 then .finite x.isNegative x.fraction (-1074) false
  else
    .finite x.isNegative (0x10000000000000 + x.fraction) (x.biasedExponent - 1075)
      (x.fraction = 0 && x.biasedExponent ≠ 1)

example : decode ⟨0x3ff8000000000000⟩ = .finite false (3 * 2 ^ 51) (-52) false := by decide +kernel
example : decode ⟨0xfff0000000000000⟩ = .infinity true := by decide +kernel
example : decode ⟨1⟩ = .finite false 1 (-1074) false := by decide +kernel

end Binary64
end ProtoModels
