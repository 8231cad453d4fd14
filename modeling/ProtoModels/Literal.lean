import ProtoModels.Decimal.Binary64
import ProtoModels.Decimal.Shortest
/-!
# Python literals

The values that stand in generated code as literals, and how they are written: numbers with the
fewest digits that read back, and texts in double quotes with escapes.
-/
namespace ProtoModels

/-- A value written as a Python literal. -/
inductive Literal where
  | int (value : Int64)
  | uint (value : UInt64)
  | float (value : Binary64)
  | str (value : String)
deriving DecidableEq, Repr

namespace Literal

/-! ## Numbers -/

/-- Where floating point numbers change from positional to scientific notation: a number is written
positionally if its leading digit stands for `10 ^ e` with `least ≤ e ≤ greatest`. -/
structure FloatLayout where
  least : Int
  greatest : Int

/-- From `1e-4` and below `1e16` numbers are written positionally. -/
def floatLayout : FloatLayout := ⟨-4, 15⟩

def zeros (n : Nat) : String := String.ofList (List.replicate n '0')

/-- Positional notation with at least one digit on both sides of the point. -/
def positional (digits : String) (exponent : Int) : String :=
  if 0 ≤ exponent then digits ++ zeros exponent.toNat ++ ".0"
  else
    let places := (-exponent).toNat
    let padded := zeros (places + 1 - digits.length) ++ digits
    let whole := padded.toList.take (padded.length - places)
    let part := padded.toList.drop (padded.length - places)
    String.ofList whole ++ "." ++ String.ofList part

/-- One digit before the point, the others behind it if there are any, and the exponent. -/
def scientific (digits : String) (magnitude : Int) : String :=
  let mantissa := match digits.toList with
    | [] => ""
    | [d] => String.ofList [d]
    | d :: ds => String.ofList (d :: '.' :: ds)
  mantissa ++ "e" ++ toString magnitude

/-- A positive decimal in the notation that the layout gives it. -/
def decimalText (layout : FloatLayout) (d : Decimal) : String :=
  let digits := toString d.digits
  let magnitude := d.exponent + digits.length - 1
  if layout.least ≤ magnitude ∧ magnitude ≤ layout.greatest then positional digits d.exponent
  else scientific digits magnitude

/-- A floating point number as Python reads it back (`python_float`): the shortest decimal for a
finite number, a call of `float` for the others. -/
def floatText (x : Binary64) : String :=
  match x.decode with
  | .nan => "float(\"nan\")"
  | .infinity false => "float(\"inf\")"
  | .infinity true => "float(\"-inf\")"
  | .finite negative m q atBoundary =>
    let magnitude :=
      if m = 0 then "0.0"
      else decimalText floatLayout (Decimal.Interval.ofBinary m q atBoundary).shortest
    if negative then "-" ++ magnitude else magnitude

/-! ## Texts -/

/-- The control characters: `U+0000` to `U+001F` and `U+007F` to `U+009F`. -/
def isControl (c : Char) : Bool := c.toNat < 0x20 || (0x7F ≤ c.toNat && c.toNat ≤ 0x9F)

/-- A hexadecimal digit, in lower case. -/
def hexDigit (n : Nat) : Char := if n < 10 then Char.ofNat (48 + n) else Char.ofNat (87 + n)

/-- How one character is written between double quotes: the cases of `python_string`. -/
def escapeChar (c : Char) : List Char :=
  if c = '\\' then ['\\', '\\']
  else if c = '"' then ['\\', '"']
  else if c = '\n' then ['\\', 'n']
  else if c = '\r' then ['\\', 'r']
  else if c = '\t' then ['\\', 't']
  else if isControl c then ['\\', 'x', hexDigit (c.toNat / 16), hexDigit (c.toNat % 16)]
  else [c]

/-- The characters between the quotes of a text's literal. -/
def escape (cs : List Char) : List Char := cs.flatMap escapeChar

/-- A text in double quotes (`python_string`). -/
def quoted (s : String) : String := String.ofList ('"' :: escape s.toList ++ ['"'])

/-- The literal as it is written (`to_python`). -/
def text : Literal → String
  | int v => toString v.toInt
  | uint v => toString v.toNat
  | float v => floatText v
  | str v => quoted v

example : text (.float ⟨0x3fb999999999999a⟩) = "0.1" := by decide +kernel
example : text (.float ⟨0x4341c37937e08000⟩) = "1e16" := by decide +kernel
example : text (.float ⟨0x8000000000000000⟩) = "-0.0" := by decide +kernel
example : text (.str "say \"hi\"\n\x7f") = "\"say \\\"hi\\\"\\n\\x7f\"" := by decide +kernel

end Literal
end ProtoModels
