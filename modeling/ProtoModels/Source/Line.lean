import ProtoModels.Text.Blank
import ProtoModels.Text.Lines
/-!
# Source lines

Python source as lines, each with its depth of indentation, and a writer that keeps the depth at
which it writes. `Writer.lines_put` says what a written block adds.
-/
namespace ProtoModels.Source

/-- One line: its depth and its text. A line without text is blank whatever its depth. -/
structure Line where
  depth : Nat
  text : String
deriving DecidableEq, Repr

namespace Line

def blank : Line := ⟨0, ""⟩

/-- The white space in front of a line: four spaces a level (`INDENT`). -/
def indentation (depth : Nat) : String := String.ofList (List.replicate (4 * depth) ' ')

/-- The line as it stands in the source, with its line feed. -/
def render (l : Line) : String :=
  if l.text = "" then "\n" else indentation l.depth ++ l.text ++ "\n"

/-- The line some levels deeper. -/
def indent (n : Nat) (l : Line) : Line := { l with depth := n + l.depth }

/-- One line of a schema comment as a Python comment: one round of `comment`. A space already in
front is kept as the one behind the number sign. -/
def ofCommentLine (line : String) : Line :=
  let text := Text.trimEnd line
  match text.toList with
  | [] => ⟨0, "#"⟩
  | ' ' :: _ => ⟨0, "#" ++ text⟩
  | _ => ⟨0, "# " ++ text⟩

/-- A schema comment as Python comments, without the blank lines at its end (`comment`). -/
def ofComment (comment : String) : List Line :=
  (Text.lines (Text.trimEnd comment)).map ofCommentLine

end Line

/-- The source text of some lines. -/
def text (ls : List Line) : String := String.join (ls.map Line.render)

/-- What has been written so far and the depth at which the next line stands (`CodeWriter`). -/
structure Writer where
  depth : Nat := 0
  lines : Array Line := #[]
deriving Repr

namespace Writer

/-- Writes a block of lines at the current depth. -/
def put (w : Writer) (block : List Line) : Writer :=
  { w with lines := w.lines ++ block.map (Line.indent w.depth) }

/-- Writes one line (`line`). -/
def line (w : Writer) (text : String) : Writer := w.put [⟨0, text⟩]

def blank (w : Writer) : Writer := w.put [Line.blank]

/-- Writes a schema comment (`comment`). -/
def comment (w : Writer) (comment : String) : Writer := w.put (Line.ofComment comment)

/-- Goes to a depth (`set_level`). -/
def atDepth (w : Writer) (depth : Nat) : Writer := { w with depth }

def indent (w : Writer) : Writer := { w with depth := w.depth + 1 }

/-- One level less; at the margin it stays there (`dedent`). -/
def dedent (w : Writer) : Writer := { w with depth := w.depth - 1 }

/-- The source that has been written (`into_string`). -/
def text (w : Writer) : String := Source.text w.lines.toList

@[simp] theorem lines_put (w : Writer) (block : List Line) :
    (w.put block).lines.toList = w.lines.toList ++ block.map (Line.indent w.depth) := by
  simp [put]

@[simp] theorem depth_put (w : Writer) (block : List Line) : (w.put block).depth = w.depth := rfl

/-- A written block adds its own text at the end. -/
theorem text_put (w : Writer) (block : List Line) :
    (w.put block).text = w.text ++ Source.text (block.map (Line.indent w.depth)) := by
  simp [text, Source.text]

end Writer
end ProtoModels.Source
