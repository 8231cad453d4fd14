/-!
# Lines

A text as lines: a line ends at a line feed, and one carriage return before the line feed belongs
to the line's end. A carriage return alone ends nothing. Text after the last line feed is a line
unless it is empty.
-/
namespace ProtoModels.Text

/-- A line without the carriage return that ends it. -/
def dropCarriageReturn : List Char → List Char
  | [] => []
  | ['\r'] => []
  | c :: cs => c :: dropCarriageReturn cs

/-- The pieces between line feeds: the last one is not ended by a line feed, all others are. -/
def linesOfPieces : List (List Char) → List (List Char)
  | [] => []
  | [last] => if last.isEmpty then [] else [last]
  | piece :: next :: more => dropCarriageReturn piece :: linesOfPieces (next :: more)

/-- The lines of a text, without their ends. -/
def lines (s : String) : List String :=
  (linesOfPieces (s.toList.splitOn '\n')).map String.ofList

example : lines "a\r\nb\rc\n\nd\r" = ["a", "b\rc", "", "d\r"] := by decide +kernel
example : lines "" = [] ∧ lines "\n" = [""] := by decide +kernel

/-- The pieces of a text between the occurrences of a separator. -/
def splitOn (sep : Char) (s : String) : List String :=
  (s.toList.splitOn sep).map String.ofList

/-- The text before the first occurrence of a separator, and the text behind it if there is one. -/
def cutAtFirst (sep : Char) (s : String) : String × Option String :=
  let before := s.toList.takeWhile (· != sep)
  match s.toList.dropWhile (· != sep) with
  | [] => (String.ofList before, none)
  | _ :: after => (String.ofList before, some (String.ofList after))

end ProtoModels.Text
