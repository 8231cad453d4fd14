import Mathlib.Data.List.Chain
import ProtoModels.Proofs.Source.Reading
/-!
# The layout of a source text

Python finds the blocks of a program by the indentation of its lines. `layout` reads of every line of a
text that is neither blank nor a comment how far it is indented and whether a colon at its end opens a
block, and `ValidLayout` asks what Python asks: a block is opened by such a line and is one level deeper,
and nothing else gets deeper.

`Suite` is the grammar behind it: statements one behind the other, each on a line of its own or with a
suite below it. `Suite.validLayout` says that suites are laid out validly, whatever their depth.
-/
namespace ProtoModels

/-- The layout of a line: the number of spaces in front, and whether it opens a block. -/
structure LayoutLine where
  indent : Nat
  opens : Bool
deriving DecidableEq, Repr

/-- Whether a colon stands at the end. -/
def opensBlock (text : String) : Bool := text.toList.getLast? == some ':'

/-- The layout of a line. Blank lines and comments have none. -/
def LayoutLine.read? (line : String) : Option LayoutLine :=
  match line.toList.dropWhile (· == ' ') with
  | [] => none
  | '#' :: _ => none
  | _ => some ⟨(line.toList.takeWhile (· == ' ')).length, opensBlock line⟩

/-- The layout of the lines of a source text, in their order. -/
def layout (source : String) : List LayoutLine :=
  (Text.splitOn '\n' source).filterMap LayoutLine.read?

/-- What may stand behind a line: a line one level deeper if it opens a block, else no deeper line. -/
def LayoutLine.Before (l next : LayoutLine) : Prop :=
  if l.opens then next.indent = l.indent + 4 else next.indent ≤ l.indent

instance : DecidableRel LayoutLine.Before := fun l next => by
  unfold LayoutLine.Before
  infer_instance

/-- Lines in which every block is indented and nothing else is. -/
structure ValidLayout (ls : List LayoutLine) : Prop where
  levels : ∀ l ∈ ls, 4 ∣ l.indent
  steps : ls.IsChain LayoutLine.Before
  /-- No block is left open at the end. -/
  closed : ∀ l ∈ ls.getLast?, l.opens = false

/-! ## Suites -/

/-- Statements at some depth, one behind the other. -/
inductive Suite : Nat → List LayoutLine → Prop where
  | line (depth : Nat) : Suite depth [⟨4 * depth, false⟩]
  | block {depth : Nat} {body : List LayoutLine} : Suite (depth + 1) body →
      Suite depth (⟨4 * depth, true⟩ :: body)
  | append {depth : Nat} {a b : List LayoutLine} : Suite depth a → Suite depth b → Suite depth (a ++ b)

/-- The line some levels deeper. -/
def LayoutLine.shift (depth : Nat) (l : LayoutLine) : LayoutLine := ⟨4 * depth + l.indent, l.opens⟩

namespace Suite

variable {depth : Nat} {a b ls : List LayoutLine}

/-- A suite starts at its own depth. -/
theorem exists_head (h : Suite depth ls) : ∃ l, ls.head? = some l ∧ l.indent = 4 * depth := by
  induction h with
  | line depth => exact ⟨_, rfl, rfl⟩
  | block _ => exact ⟨_, rfl, rfl⟩
  | append _ _ iha _ =>
    obtain ⟨l, hl, hindent⟩ := iha
    exact ⟨l, by simp [List.head?_append, hl], hindent⟩

/-- No line of a suite stands in front of its depth. -/
theorem le_indent (h : Suite depth ls) : ∀ l ∈ ls, 4 * depth ≤ l.indent := by
  induction h with
  | line depth => simp
  | block _ ih =>
    rw [List.forall_mem_cons]
    exact ⟨Nat.le_refl _, fun l hl => Nat.le_trans (by omega) (ih l hl)⟩
  | append _ _ iha ihb =>
    rw [List.forall_mem_append]
    exact ⟨iha, ihb⟩

/-- **A suite is laid out validly.** Behind the end of its first part no block is open, so the second
part, which starts no deeper than any line of the first, may follow. -/
theorem validLayout (h : Suite depth ls) : ValidLayout ls := by
  induction h with
  | line depth => exact ⟨List.forall_mem_singleton.2 (Nat.dvd_mul_right 4 depth), by simp, by simp⟩
  | @block depth body hbody ih =>
    obtain ⟨first, hfirst, hindent⟩ := hbody.exists_head
    refine ⟨?_, ?_, ?_⟩
    · rw [List.forall_mem_cons]
      exact ⟨Nat.dvd_mul_right 4 depth, ih.levels⟩
    · refine List.isChain_cons.2 ⟨fun next hnext => ?_, ih.steps⟩
      obtain rfl : first = next := by simpa [hfirst] using hnext
      simp only [LayoutLine.Before, if_true, hindent]
      omega
    · cases body with
      | nil => simp at hfirst
      | cons l body => simpa using ih.closed
  | @append depth a b ha hb iha ihb =>
    obtain ⟨first, hfirst, hindent⟩ := hb.exists_head
    refine ⟨?_, ?_, ?_⟩
    · rw [List.forall_mem_append]
      exact ⟨iha.levels, ihb.levels⟩
    · refine List.isChain_append.2 ⟨iha.steps, ihb.steps, fun last hlast next hnext => ?_⟩
      obtain rfl : first = next := by simpa [hfirst] using hnext
      have hle := ha.le_indent last (List.mem_of_getLast? hlast)
      simpa [LayoutLine.Before, iha.closed last hlast, hindent] using hle
    · have hne : b ≠ [] := by
        rintro rfl
        simp at hfirst
      rw [List.getLast?_append_of_ne_nil _ hne]
      exact ihb.closed

/-- A suite with more statements, if there are any. -/
theorem append_optional (ha : Suite depth a) (hb : b = [] ∨ Suite depth b) : Suite depth (a ++ b) := by
  rcases hb with rfl | hb
  · rwa [List.append_nil]
  · exact ha.append hb

/-- Suites one behind the other. -/
theorem flatMap {α : Type} {xs : List α} {f : α → List LayoutLine} (h : ∀ x ∈ xs, Suite depth (f x))
    (hne : xs ≠ []) : Suite depth (xs.flatMap f) := by
  induction xs with
  | nil => exact absurd rfl hne
  | cons x xs ih =>
    rw [List.flatMap_cons]
    refine (h x (List.mem_cons_self ..)).append_optional ?_
    cases xs with
    | nil => exact Or.inl rfl
    | cons y ys => exact Or.inr (ih (fun z hz => h z (List.mem_cons_of_mem _ hz)) (by simp))

/-- A suite some levels deeper. -/
theorem shift (h : Suite depth ls) (n : Nat) : Suite (n + depth) (ls.map (LayoutLine.shift n)) := by
  induction h with
  | line depth =>
    rw [List.map_singleton, LayoutLine.shift, ← Nat.mul_add]
    exact .line _
  | block _ ih =>
    rw [List.map_cons, LayoutLine.shift, ← Nat.mul_add]
    exact .block ih
  | append _ _ iha ihb =>
    rw [List.map_append]
    exact iha.append ihb

end Suite

/-! ## Reading the layout -/

/-- A first character that neither white space nor a comment starts with. -/
def startsCode (text : String) : Bool := text.toList.head?.any fun c => c != ' ' && c != '#'

theorem startsCode_append {a : String} (h : startsCode a = true) (b : String) :
    startsCode (a ++ b) = true := by
  unfold startsCode at *
  cases ha : a.toList with
  | nil => simp [ha] at h
  | cons c cs => simpa [ha] using h

/-- What ends a text decides whether it opens a block. -/
theorem opensBlock_append (a : String) {b : String} (hb : b ≠ "") :
    opensBlock (a ++ b) = opensBlock b := by
  have hne : b.toList ≠ [] := by simpa using hb
  rw [opensBlock, opensBlock, String.toList_append, List.getLast?_append_of_ne_nil _ hne]

/-- A line of code. -/
structure IsCode (text : String) (opens : Bool) : Prop where
  starts : startsCode text = true
  ends : opensBlock text = opens

instance (text : String) (opens : Bool) : Decidable (IsCode text opens) :=
  decidable_of_iff (startsCode text = true ∧ opensBlock text = opens)
    ⟨fun h => ⟨h.1, h.2⟩, fun h => ⟨h.1, h.2⟩⟩

/-- To be used for texts that are written out: their characters are compared one by one. -/
theorem IsCode.ofList {cs : List Char} {opens : Bool}
    (hstart : (cs.head?.any fun c => c != ' ' && c != '#') = true)
    (hend : (cs.getLast? == some ':') = opens) : IsCode (String.ofList cs) opens :=
  ⟨by simpa [startsCode] using hstart, by simpa [opensBlock] using hend⟩

theorem IsCode.append {a b : String} {opens : Bool} (ha : startsCode a = true)
    (hb : b ≠ "" ∧ opensBlock b = opens) : IsCode (a ++ b) opens :=
  ⟨startsCode_append ha b, (opensBlock_append a hb.1).trans hb.2⟩

namespace LayoutLine

theorem read?_code {text : String} {opens : Bool} (h : IsCode text opens) :
    read? text = some ⟨0, opens⟩ := by
  obtain ⟨h, rfl⟩ := h
  unfold startsCode at h
  unfold read?
  cases htext : text.toList with
  | nil => simp [htext] at h
  | cons c cs =>
    obtain ⟨hspace, hcomment⟩ : c ≠ ' ' ∧ c ≠ '#' := by simpa [htext] using h
    rw [List.dropWhile_cons, List.takeWhile_cons, if_neg (by simpa using hspace),
      if_neg (by simpa using hspace)]
    split
    · contradiction
    · rename_i heq
      exact absurd (List.cons.inj heq).1 hcomment
    · rfl

theorem read?_comment {text : String} (h : text.toList.head? = some '#') : read? text = none := by
  cases htext : text.toList with
  | nil => simp [htext] at h
  | cons c cs =>
    obtain rfl : c = '#' := by simpa [htext] using h
    simp [read?, htext]

/-- The indentation of a line is read as such. -/
theorem read?_shown (l : Source.Line) : read? l.shown = (read? l.text).map (shift l.depth) := by
  by_cases htext : l.text = ""
  · rw [Source.Line.shown, if_pos htext, htext]
    rfl
  · obtain ⟨hdrop, htake⟩ := l.spaces_shown htext
    have hopens : opensBlock l.shown = opensBlock l.text := by
      rw [Source.Line.shown, if_neg htext, opensBlock_append _ htext]
    rw [read?, read?, hdrop, htake, hopens]
    split <;> rfl

end LayoutLine

/-- The layout of some lines. -/
def lineLayout (ls : List Source.Line) : List LayoutLine :=
  ls.filterMap fun l => LayoutLine.read? l.shown

@[simp] theorem lineLayout_nil : lineLayout [] = [] := rfl

theorem lineLayout_cons (l : Source.Line) (ls : List Source.Line) :
    lineLayout (l :: ls) = ((LayoutLine.read? l.text).map (.shift l.depth)).toList ++ lineLayout ls := by
  rw [lineLayout, List.filterMap_cons, LayoutLine.read?_shown]
  cases LayoutLine.read? l.text <;> rfl

theorem lineLayout_code {depth : Nat} {text : String} {opens : Bool} (h : IsCode text opens)
    (ls : List Source.Line) : lineLayout (⟨depth, text⟩ :: ls) = ⟨4 * depth, opens⟩ :: lineLayout ls := by
  rw [lineLayout_cons, LayoutLine.read?_code h]
  rfl

theorem lineLayout_statement {depth : Nat} {text : String} (h : IsCode text false)
    (ls : List Source.Line) : lineLayout (⟨depth, text⟩ :: ls) = ⟨4 * depth, false⟩ :: lineLayout ls :=
  lineLayout_code h ls

theorem lineLayout_opener {depth : Nat} {text : String} (h : IsCode text true)
    (ls : List Source.Line) : lineLayout (⟨depth, text⟩ :: ls) = ⟨4 * depth, true⟩ :: lineLayout ls :=
  lineLayout_code h ls

@[simp] theorem lineLayout_blank (ls : List Source.Line) :
    lineLayout (.blank :: ls) = lineLayout ls := by
  rw [lineLayout_cons]
  rfl

theorem lineLayout_comment {depth : Nat} {text : String} (h : text.toList.head? = some '#')
    (ls : List Source.Line) : lineLayout (⟨depth, text⟩ :: ls) = lineLayout ls := by
  rw [lineLayout_cons, LayoutLine.read?_comment h]
  rfl

theorem lineLayout_comments {ls : List Source.Line} (h : ∀ l ∈ ls, l.text.toList.head? = some '#') :
    lineLayout ls = [] := by
  rw [lineLayout, List.filterMap_eq_nil_iff]
  intro l hl
  rw [LayoutLine.read?_shown, LayoutLine.read?_comment (h l hl)]
  rfl

@[simp] theorem lineLayout_append (a b : List Source.Line) :
    lineLayout (a ++ b) = lineLayout a ++ lineLayout b :=
  List.filterMap_append

theorem lineLayout_flatMap {α : Type} (xs : List α) (f : α → List Source.Line) :
    lineLayout (xs.flatMap f) = xs.flatMap fun x => lineLayout (f x) := by
  induction xs with
  | nil => rfl
  | cons x xs ih => simp [List.flatMap_cons, ih]

/-- Lines some levels deeper have the same layout some levels deeper. -/
theorem lineLayout_indent (ls : List Source.Line) (n : Nat) :
    lineLayout (ls.map (Source.Line.indent n)) = (lineLayout ls).map (LayoutLine.shift n) := by
  induction ls with
  | nil => rfl
  | cons l ls ih =>
    have htext : (l.indent n).text = l.text := rfl
    rw [List.map_cons, lineLayout_cons, lineLayout_cons, ih, List.map_append, htext]
    cases LayoutLine.read? l.text with
    | none => rfl
    | some r => simp [Source.Line.indent, LayoutLine.shift, Nat.mul_add, Nat.add_assoc]

/-- A source text is read line by line. -/
theorem layout_text {ls : List Source.Line} (h : ∀ l ∈ ls, OneLine l.text) :
    layout (Source.text ls) = lineLayout ls := by
  have hlast : LayoutLine.read? "" = none := by decide
  rw [layout, Source.splitOn_text h, List.filterMap_append, List.filterMap_map]
  simp [hlast, lineLayout]

example : layout "class A(BaseModel):\n    # a comment:\n\n    x: int = Field()\n" =
    [⟨0, true⟩, ⟨4, false⟩] := by decide +kernel

end ProtoModels
