import ProtoModels.Descriptor.Pool.Scalar
/-!
# Default values

The values that stand in the texts of defaults: numbers in decimal, `true` and `false`, bytes with
escapes, the names of enum values. A text is its own value, and messages have no defaults.
-/
namespace ProtoModels.Descriptor.Pool

/-! ## Numbers -/

/-- One digit at least, and nothing else. -/
def isNumeral (cs : List Char) : Bool := !cs.isEmpty && cs.all Char.isDigit

def numeralValue (cs : List Char) : Nat := cs.foldl (fun n c => 10 * n + (c.toNat - 48)) 0

def isMinus (c : Char) : Bool := c == '-'

def isSign (c : Char) : Bool := c == '+' || c == '-'

/-- Whether a minus sign stands in front, and what stands behind a sign. -/
def cutSign : List Char → Bool × List Char
  | c :: cs => if isSign c then (isMinus c, cs) else (false, c :: cs)
  | [] => (false, [])

/-- The integer that a text stands for. -/
def integer? (cs : List Char) : Option Int :=
  let (negative, digits) := cutSign cs
  if isNumeral digits then
    some (if negative then -(numeralValue digits : Int) else numeralValue digits)
  else none

/-- Kinds whose numbers have no sign. -/
def isUnsigned : FieldKind → Bool
  | .uint32 | .uint64 | .fixed32 | .fixed64 => true
  | _ => false

/-- Digits with a point before, between or behind them, and an exponent if one is wanted. -/
def decimal? (negative : Bool) (cs : List Char) : Option ExactNumber :=
  let whole := cs.takeWhile Char.isDigit
  let (part, rest) := match cs.dropWhile Char.isDigit with
    | '.' :: more => (more.takeWhile Char.isDigit, more.dropWhile Char.isDigit)
    | rest => ([], rest)
  let exponent := match rest with
    | [] => some 0
    | c :: power => if c == 'e' || c == 'E' then integer? power else none
  if whole.isEmpty && part.isEmpty then none
  else exponent.map fun e =>
    .ofDecimal negative (numeralValue (whole ++ part)) (e - part.length)

/-- A decimal, or a word for what is no finite number, with a sign if one is wanted. -/
def real? (cs : List Char) : Option ExactNumber :=
  let (negative, unsigned) := cutSign cs
  match String.ofList (unsigned.map Char.toLower) with
  | "inf" | "infinity" => some (.infinity negative)
  | "nan" => some .nan
  | _ => decimal? negative unsigned

/-! ## Bytes -/

/-- The digit that a character stands for, if it is one below a base. -/
def digitBelow? (base : Nat) (c : Char) : Option Nat :=
  let value :=
    if c.isDigit then some (c.toNat - 48)
    else if 'a' ≤ c && c ≤ 'f' then some (c.toNat - 87)
    else if 'A' ≤ c && c ≤ 'F' then some (c.toNat - 55)
    else none
  value.filter (· < base)

/-- Two hexadecimal digits. A plus sign may stand for the first one. -/
def hexByte? (a b : Char) : Option UInt8 := do
  let high ← if a == '+' then some 0 else digitBelow? 16 a
  let low ← digitBelow? 16 b
  some (UInt8.ofNat (16 * high + low))

/-- The byte for the letter or mark behind a backslash. -/
def escapedByte? : Char → Option UInt8
  | 'a' => some 7
  | 'b' => some 8
  | 't' => some 9
  | 'n' => some 10
  | 'v' => some 11
  | 'f' => some 12
  | 'r' => some 13
  | '"' => some 34
  | '\'' => some 39
  | '?' => some 63
  | '\\' => some 92
  | _ => none

/-- The digits that start an octal escape. -/
def octalDigits (cs : List Char) : List Nat :=
  ((cs.take 3).takeWhile fun c => (digitBelow? 8 c).isSome).filterMap (digitBelow? 8)

/-- The bytes of a text in which every backslash starts an escape: a letter or mark, up to three
octal digits, or two hexadecimal ones behind an `x`. -/
def unescape? : List Char → Option Wire.Bytes
  | [] => some []
  | '\\' :: rest =>
    match octalDigits rest, rest with
    | d :: ds, rest =>
      (unescape? (rest.drop (ds.length + 1))).map
        (UInt8.ofNat ((d :: ds).foldl (8 * · + ·) 0) :: ·)
    | [], 'x' :: a :: b :: rest | [], 'X' :: a :: b :: rest =>
      (hexByte? a b).bind fun v => (unescape? rest).map (v :: ·)
    | [], c :: rest => (escapedByte? c).bind fun v => (unescape? rest).map (v :: ·)
    | [], [] => none
  | c :: rest => (unescape? rest).map (Wire.utf8 c.toString ++ ·)
termination_by cs => cs.length

/-! ## Values -/

/-- The value of a scalar kind that a text stands for. -/
def scalarOfText? (kind : FieldKind) (text : String) : Option Scalar :=
  let cs := text.toList
  match kind with
  | .double | .float =>
    (binaryFormat? kind).bind fun format =>
      (real? cs).map fun x => .real (UInt64.ofNat (format.round x))
  | .bool =>
    if text == "true" then some (.ofBool true)
    else if text == "false" then some (.ofBool false) else none
  | .string => some (.bytes (Wire.utf8 text))
  | .bytes => (unescape? cs).map .bytes
  | kind =>
    if isUnsigned kind && cs.head?.any isMinus then none
    else (integer? cs).bind (integerOf? kind)

/-- The value of a type that a text stands for. -/
def ValueType.ofText? (text : String) : ValueType → Option Scalar
  | scalar kind => scalarOfText? kind text
  | message _ _ => none
  | enum e => enumValue? e text

end ProtoModels.Descriptor.Pool
