import ProtoModels.Proofs.ModuleText.ReadBack
/-!
# Names that a module binds

A reader for the names that the lines of a module bind. A class line binds the name of its class. A name
with a colon behind it is that of a field, and one with an equals sign that of an enum member. The reader
looks at each line by itself, and no further than behind the name.

In a written module these are the names of the classes that are opened and, one level deeper, those of
the fields and members of the classes that are closed (`ModuleText.bindings_ofTree`). Texts from outside,
such as comments and factories, bind nothing: they stand behind a number sign or further back in a line.
-/
namespace ProtoModels

open Source (Line)

/-! ## The reader -/

/-- A name, and the number of spaces in front of the line that binds it. -/
structure Binding where
  indent : Nat
  name : String
deriving DecidableEq, Repr

/-- The name at the start of some text that is annotated or assigned to. -/
def assignedName? (cs : List Char) : Option String :=
  let name := cs.takeWhile isNameChar
  let rest := cs.dropWhile isNameChar
  if name ≠ [] ∧ (": ".toList <+: rest ∨ " = ".toList <+: rest) then some (String.ofList name) else none

/-- The name that some text binds, that of a class, a field or an enum member. -/
def boundName? (cs : List Char) : Option String :=
  ((readOpening? cs).map (·.1)).or (assignedName? cs)

def Binding.read? (line : String) : Option Binding :=
  (boundName? (line.toList.dropWhile (· == ' '))).map fun name =>
    ⟨(line.toList.takeWhile (· == ' ')).length, name⟩

/-- The names that some lines bind, in their order. -/
def bindings (ls : List Line) : List Binding := ls.filterMap fun l => Binding.read? l.shown

example : bindings [⟨0, "class A(BaseModel):"⟩, ⟨1, "# x: int"⟩, ⟨1, "x: int = Field()"⟩,
    ⟨1, "def f(self):"⟩, ⟨2, "return v"⟩, ⟨0, "class B(StrEnum):"⟩, ⟨1, "C = \"C\""⟩] =
    [⟨0, "A"⟩, ⟨4, "x"⟩, ⟨0, "B"⟩, ⟨4, "C"⟩] := by decide +kernel

@[simp] theorem bindings_append (a b : List Line) : bindings (a ++ b) = bindings a ++ bindings b :=
  List.filterMap_append

/-- Indentation is read as such. -/
theorem Source.Line.binding_shown (l : Line) : Binding.read? l.shown =
    (boundName? (l.text.toList.dropWhile (· == ' '))).map fun name =>
      ⟨4 * l.depth + (l.text.toList.takeWhile (· == ' ')).length, name⟩ := by
  by_cases htext : l.text = ""
  · simp [Binding.read?, shown, htext, boundName?, readOpening?, assignedName?]
  · obtain ⟨hdrop, htake⟩ := l.spaces_shown htext
    rw [Binding.read?, hdrop, htake]

/-! ## Lines that bind nothing -/

/-- A text that binds no name. -/
def BindsNothing (text : String) : Prop := boundName? (text.toList.dropWhile (· == ' ')) = none

instance : DecidablePred BindsNothing := fun text =>
  inferInstanceAs (Decidable (boundName? (text.toList.dropWhile (· == ' ')) = none))

theorem bindings_indent_of_bindsNothing {ls : List Line} (h : ∀ l ∈ ls, BindsNothing l.text)
    (depth : Nat) : bindings (ls.map (Line.indent depth)) = [] := by
  rw [bindings, List.filterMap_map, List.filterMap_eq_nil_iff]
  intro l hl
  have hnone : boundName? ((l.indent depth).text.toList.dropWhile (· == ' ')) = none := h l hl
  rw [Function.comp_apply, Line.binding_shown, hnone, Option.map_none]

/-- A front that binds nothing, whatever follows: it opens no class, and what stands behind its first
word is neither a colon nor an equals sign. -/
def frontBindsNothing (front : String) : Bool :=
  (front.toList.head?.any fun c => c != ' ' && c != 'c') &&
    match front.toList.dropWhile isNameChar with
    | c :: rest => (c != ':' && c != ' ') || rest.head?.any isNameChar
    | [] => false

/-- Behind a word the text goes on with neither of the two separators. -/
theorem assignedName?_eq_none {cs : List Char} {c : Char} {rest : List Char}
    (hrest : cs.dropWhile isNameChar = c :: rest)
    (h : (c ≠ ':' ∧ c ≠ ' ') ∨ rest.head?.any isNameChar = true) : assignedName? cs = none := by
  have hsecond : ∀ d, isNameChar d = false → rest.head?.any isNameChar = true → rest.head? ≠ some d := by
    rintro d hd hany hhead
    rw [hhead, Option.any_some, hd] at hany
    cases hany
  have hcolon : ¬ ": ".toList <+: c :: rest := by
    rintro ⟨more, heq⟩
    obtain ⟨rfl, rfl⟩ := List.cons.inj heq
    rcases h with h | h
    · exact h.1 rfl
    · exact hsecond ' ' (by decide) h rfl
  have hequals : ¬ " = ".toList <+: c :: rest := by
    rintro ⟨more, heq⟩
    obtain ⟨rfl, rfl⟩ := List.cons.inj heq
    rcases h with h | h
    · exact h.2 rfl
    · exact hsecond '=' (by decide) h rfl
  rw [assignedName?, hrest]
  exact if_neg fun hor => hor.2.elim hcolon hequals

theorem BindsNothing.of_front {front : String} (h : frontBindsNothing front = true) (rest : String) :
    BindsNothing (front ++ rest) := by
  rw [frontBindsNothing, Bool.and_eq_true] at h
  obtain ⟨hhead, hword⟩ := h
  obtain ⟨c, cs, hfront⟩ : ∃ c cs, front.toList = c :: cs := by
    refine List.exists_cons_of_ne_nil fun hnil => ?_
    simp [hnil] at hhead
  obtain ⟨hspace, hclass⟩ : c ≠ ' ' ∧ c ≠ 'c' := by simpa [hfront] using hhead
  split at hword
  · rename_i d tail hdrop
    have hrest : (front ++ rest).toList.dropWhile isNameChar = d :: (tail ++ rest.toList) := by
      rw [String.toList_append, List.dropWhile_append, hdrop]
      rfl
    have hnone : assignedName? (front ++ rest).toList = none := by
      refine assignedName?_eq_none hrest ?_
      rw [Bool.or_eq_true, Bool.and_eq_true, bne_iff_ne, bne_iff_ne] at hword
      refine hword.imp_right fun htail => ?_
      cases tail with
      | nil => cases htail
      | cons e tail => exact htail
    have hcons : (front ++ rest).toList = c :: (cs ++ rest.toList) := by
      rw [String.toList_append, hfront, List.cons_append]
    rw [BindsNothing, boundName?, hcons, List.dropWhile_cons_of_neg (by simpa using hspace),
      readOpening?_cons hclass, ← hcons, hnone]
    rfl
  · cases hword

theorem bindsNothing_ofComment (comment : String) : ∀ l ∈ Line.ofComment comment, BindsNothing l.text := by
  intro l hl
  obtain ⟨line, _, rfl⟩ := List.mem_map.1 hl
  unfold Line.ofCommentLine
  dsimp only
  split
  · decide
  · exact .of_front (by decide) _
  · exact .of_front (by decide) _

theorem bindsNothing_commentLines (comment : Option String) :
    ∀ l ∈ commentLines comment, BindsNothing l.text := by
  cases comment with
  | none => simp [commentLines]
  | some comment =>
    rw [commentLines, Option.map_some, Option.getD_some]
    exact bindsNothing_ofComment comment

theorem bindsNothing_serializerBlock (context : String) (names : List String) :
    ∀ l ∈ serializerBlock context names, BindsNothing l.text := by
  cases names with
  | nil => simp [serializerBlock]
  | cons name names =>
    simp only [serializerBlock, String.append_assoc, List.forall_mem_cons]
    exact ⟨by decide, .of_front (by decide) _, by decide +kernel, .of_front (by decide) _, by decide,
      by decide, by simp⟩

theorem OneofGroup.bindsNothing_check (g : OneofGroup) : ∀ l ∈ g.check, BindsNothing l.text := by
  simp only [check, String.append_assoc, List.forall_mem_cons]
  exact ⟨.of_front (by decide) _, .of_front (by decide) _, by simp⟩

theorem bindsNothing_validatorBlock (groups : List OneofGroup) :
    ∀ l ∈ validatorBlock groups, BindsNothing l.text := by
  cases groups with
  | nil => simp [validatorBlock]
  | cons g groups =>
    simp only [validatorBlock, List.forall_mem_append]
    refine ⟨⟨by decide +kernel, fun l hl => ?_⟩, by decide⟩
    obtain ⟨g', _, hl⟩ := List.mem_flatMap.1 hl
    exact g'.bindsNothing_check l hl

theorem ModuleText.bindsNothing_separation (opened : Bool) (depth : Nat) :
    ∀ l ∈ separation opened depth, BindsNothing l.text := by
  unfold separation
  split
  · decide
  · split <;> decide

/-- Imports bind nothing in the sense of the reader. -/
theorem bindings_moduleHead_initial :
    bindings (Settings.initial.moduleHead.map (Line.indent 0)) = [] := by
  decide +kernel

/-! ## Lines that bind a name -/

theorem binding_shown_of_boundName? {l : Line} {name : String} (h : boundName? l.text.toList = some name)
    (hspace : l.text.toList.head? ≠ some ' ') : Binding.read? l.shown = some ⟨4 * l.depth, name⟩ := by
  have hno : ∀ c cs, l.text.toList = c :: cs → (c == ' ') = false := by
    rintro c cs heq
    rw [heq] at hspace
    simpa using hspace
  have hdrop : l.text.toList.dropWhile (· == ' ') = l.text.toList := by
    cases hcs : l.text.toList with
    | nil => rfl
    | cons c cs => simp [hno c cs hcs]
  have htake : l.text.toList.takeWhile (· == ' ') = [] := by
    cases hcs : l.text.toList with
    | nil => rfl
    | cons c cs => simp [hno c cs hcs]
  rw [Line.binding_shown, hdrop, htake, h]
  rfl

/-- The line of a class binds its name. -/
theorem binding_class {name : String} (h : IsIdentifier name) (kind : ClassKind) (depth : Nat) :
    Binding.read? (Line.mk depth ("class " ++ name ++ kind.ending)).shown = some ⟨4 * depth, name⟩ := by
  refine binding_shown_of_boundName? ?_ ?_
  · show boundName? ("class " ++ name ++ kind.ending).toList = some name
    rw [boundName?, readOpening?_class h kind]
    rfl
  · show ("class " ++ name ++ kind.ending).toList.head? ≠ some ' '
    rw [String.append_assoc, String.toList_append, List.head?_append]
    exact fun heq => absurd (Option.some.inj heq) (by decide)

/-- What stands between a name and its type or value. -/
def IsSeparator (separator : String) : Prop := separator = ": " ∨ separator = " = "

/-- A line that starts with a name and a separator binds the name. -/
theorem binding_assigned {name separator : String} (h : IsIdentifier name)
    (hseparator : IsSeparator separator) (more : String) (depth : Nat) :
    Binding.read? (Line.mk depth (name ++ (separator ++ more))).shown = some ⟨4 * depth, name⟩ := by
  obtain ⟨c, rest, hchars, hc, hrest, hstart⟩ : ∃ c rest, (separator ++ more).toList = c :: rest ∧
      isNameChar c = false ∧ (c ≠ ' ' ∨ rest.takeWhile isNameChar = []) ∧
      (": ".toList <+: c :: rest ∨ " = ".toList <+: c :: rest) := by
    rcases hseparator with rfl | rfl
    · exact ⟨':', ' ' :: more.toList, by simp, by decide, Or.inl (by decide), Or.inl ⟨_, rfl⟩⟩
    · exact ⟨' ', '=' :: ' ' :: more.toList, by simp, by decide, Or.inr rfl, Or.inr ⟨_, rfl⟩⟩
  have htext : (name ++ (separator ++ more)).toList = name.toList ++ c :: rest := by
    rw [String.toList_append, hchars]
  obtain ⟨htake, hdrop⟩ := takeWhile_isNameChar h.chars hc rest
  have hne : name.toList ≠ [] := by simpa using h.ne_empty
  refine binding_shown_of_boundName? ?_ ?_
  · show boundName? (name ++ (separator ++ more)).toList = some name
    rw [boundName?, htext, readOpening?_name h.chars hc hrest, assignedName?, htake, hdrop,
      if_pos ⟨hne, hstart⟩, String.ofList_toList]
    rfl
  · show (name ++ (separator ++ more)).toList.head? ≠ some ' '
    obtain ⟨d, ds, hname⟩ := List.exists_cons_of_ne_nil hne
    rw [htext, hname, List.cons_append, List.head?_cons, ne_eq, Option.some_inj]
    rintro rfl
    exact absurd (h.chars ' ' (by simp [hname])) (by decide)

/-! ## Bodies of classes -/

/-- The names of what a class has: the fields of a message, the members of an enum. -/
def TypeDecl.attributeNames : TypeDecl → List String
  | .message m => m.fields.map (·.name)
  | .enum e => e.values.map (·.name)

theorem TypeDecl.attributeNames_subset_memberNames (t : TypeDecl) : t.attributeNames ⊆ t.memberNames := by
  cases t with
  | message m => exact List.subset_append_left _ _
  | enum e => exact List.Subset.refl _

theorem EnumValue.bindings_block {v : EnumValue} (h : IsIdentifier v.name) (depth : Nat) :
    bindings (v.block.map (Line.indent depth)) = [⟨4 * depth, v.name⟩] := by
  have hline := binding_assigned h (Or.inr rfl) (inQuotes v.name) depth
  rw [block, List.map_append, bindings_append,
    bindings_indent_of_bindsNothing (bindsNothing_commentLines v.comment)]
  simp only [List.map_cons, List.map_nil, Line.indent, Nat.add_zero, String.append_assoc, bindings,
    List.filterMap_cons, hline]
  rfl

theorem EnumValue.bindings_blocks {values : List EnumValue} (h : ∀ v ∈ values, IsIdentifier v.name)
    (depth : Nat) : bindings ((values.flatMap EnumValue.block).map (Line.indent depth)) =
      values.map fun v => ⟨4 * depth, v.name⟩ := by
  induction values with
  | nil => rfl
  | cons v values ih =>
    rw [List.forall_mem_cons] at h
    rw [List.flatMap_cons, List.map_append, bindings_append, bindings_block h.1, ih h.2, List.map_cons,
      List.singleton_append]

theorem Enum.bindings_body {e : Enum} (h : ∀ v ∈ e.values, IsIdentifier v.name) (depth : Nat) :
    bindings (e.body.map (Line.indent depth)) = e.values.map fun v => ⟨4 * depth, v.name⟩ := by
  unfold body
  split
  · rename_i hempty
    rw [List.isEmpty_iff.1 hempty]
    exact bindings_indent_of_bindsNothing (by decide) depth
  · exact EnumValue.bindings_blocks h depth

namespace ModuleContext

variable {c : ModuleContext}

theorem bindings_fieldBlock {f : Field} (hname : IsIdentifier f.name) {block : List Line}
    (h : c.fieldBlock f = .ok block) (depth : Nat) :
    bindings (block.map (Line.indent depth)) = [⟨4 * depth, f.name⟩] := by
  obtain ⟨⟨type, spec⟩, _, rfl⟩ := map_eq_ok_iff.1 h
  have hline := fun more => binding_assigned hname (Or.inl rfl) more depth
  rw [List.map_append, bindings_append,
    bindings_indent_of_bindsNothing (bindsNothing_commentLines f.comment)]
  simp only [fieldLine, List.map_cons, List.map_nil, Line.indent, Nat.add_zero, String.append_assoc,
    bindings, List.filterMap_cons, hline]
  rfl

theorem bindings_fieldBlocks {fields : List Field} {blocks : List (List Line)}
    (h : List.Forall₂ (fun f block => c.fieldBlock f = .ok block) fields blocks)
    (hnames : ∀ f ∈ fields, IsIdentifier f.name) (depth : Nat) :
    bindings (blocks.flatten.map (Line.indent depth)) = fields.map fun f => ⟨4 * depth, f.name⟩ := by
  induction h with
  | nil => rfl
  | cons hblock _ ih =>
    rw [List.forall_mem_cons] at hnames
    rw [List.flatten_cons, List.map_append, bindings_append, bindings_fieldBlock hnames.1 hblock,
      ih hnames.2, List.map_cons, List.singleton_append]

theorem bindings_messageBody {m : Message} (hnames : ∀ f ∈ m.fields, IsIdentifier f.name)
    {nested : Bool} {block : List Line} (h : c.messageBody m nested = .ok block) (depth : Nat) :
    bindings (block.map (Line.indent depth)) = m.fields.map fun f => ⟨4 * depth, f.name⟩ := by
  unfold messageBody at h
  split at h
  · rename_i hempty
    cases h
    rw [List.isEmpty_iff.1 hempty]
    refine bindings_indent_of_bindsNothing ?_ depth
    cases nested <;> decide
  · obtain ⟨blocks, hblocks, rfl⟩ := map_eq_ok_iff.1 h
    have hfront : ∀ l ∈ if nested then [Line.blank] else [], BindsNothing l.text := by
      cases nested <;> decide
    simp only [List.map_append, bindings_append]
    rw [bindings_indent_of_bindsNothing hfront,
      bindings_indent_of_bindsNothing (bindsNothing_serializerBlock _ _),
      bindings_indent_of_bindsNothing (bindsNothing_validatorBlock _),
      bindings_fieldBlocks (mapM_eq_ok_iff.1 hblocks) hnames]
    simp

end ModuleContext

/-! ## Classes -/

/-- The names that are bound at the opening of a class, and at its closing. -/
def ClassEvent.bindings : ClassEvent TypeDecl → List Binding
  | .header n depth => [⟨4 * depth, n.name⟩]
  | .body n depth => (n.decl.toList.flatMap TypeDecl.attributeNames).map (⟨4 * (depth + 1), ·⟩)

theorem mem_bindings_events_iff {events : List (ClassEvent TypeDecl)} {b : Binding} :
    b ∈ events.flatMap (·.bindings) ↔ ∃ depth,
      (∃ n, .header n depth ∈ events ∧ n.name = b.name) ∧ b.indent = 4 * depth ∨
      ∃ t, (∃ n, .body n depth ∈ events ∧ n.decl = some t) ∧ b.name ∈ t.attributeNames ∧
        b.indent = 4 * (depth + 1) := by
  rw [List.mem_flatMap]
  constructor
  · rintro ⟨e, he, hb⟩
    cases e with
    | header n depth =>
      obtain rfl := List.mem_singleton.1 hb
      exact ⟨depth, Or.inl ⟨⟨n, he, rfl⟩, rfl⟩⟩
    | body n depth =>
      obtain ⟨name, hname, rfl⟩ := List.mem_map.1 hb
      obtain ⟨t, ht, hname⟩ := List.mem_flatMap.1 hname
      exact ⟨depth, Or.inr ⟨t, ⟨n, he, Option.mem_toList.1 ht⟩, hname, rfl⟩⟩
  · rintro ⟨depth, ⟨⟨n, hn, hname⟩, hindent⟩ | ⟨t, ⟨n, hn, hdecl⟩, hname, hindent⟩⟩
    · exact ⟨_, hn, List.mem_singleton.2 (by rw [hname, ← hindent])⟩
    · have hattribute : b.name ∈ n.decl.toList.flatMap TypeDecl.attributeNames := by
        simpa [hdecl] using hname
      exact ⟨_, hn, List.mem_map.2 ⟨b.name, hattribute, by rw [← hindent]⟩⟩

/-- The name and the attributes of a class are identifiers. -/
structure ClassNode.IsNamed (n : ClassNode TypeDecl) : Prop where
  name : IsIdentifier n.name
  attributes : ∀ t ∈ n.decl, ∀ name ∈ t.attributeNames, IsIdentifier name

theorem ClassNode.bindings_opening {n : ClassNode TypeDecl} (h : IsIdentifier n.name) (depth : Nat) :
    ProtoModels.bindings (n.opening.map (Line.indent depth)) = [⟨4 * depth, n.name⟩] := by
  obtain ⟨comment, hopening⟩ := n.exists_opening_eq
  have hline := binding_class h (ClassKind.of n.decl) depth
  rw [hopening, List.map_append, bindings_append,
    bindings_indent_of_bindsNothing (bindsNothing_commentLines comment)]
  simp only [List.map_cons, List.map_nil, Line.indent, Nat.add_zero, bindings, List.filterMap_cons, hline]
  rfl

theorem ClassNode.bindings_closing {c : ModuleContext} {n : ClassNode TypeDecl} (hn : n.IsNamed)
    {block : List Line} (h : n.closing c = .ok block) (depth : Nat) :
    bindings (block.map (Line.indent depth)) =
      (n.decl.toList.flatMap TypeDecl.attributeNames).map (⟨4 * depth, ·⟩) := by
  unfold closing at h
  dsimp only at h
  split at h
  · rename_i m hdecl
    have hfields : ∀ f ∈ m.fields, IsIdentifier f.name := fun f hf =>
      hn.attributes _ hdecl _ (List.mem_map_of_mem hf)
    rw [c.bindings_messageBody hfields h, hdecl]
    simp [TypeDecl.attributeNames]
  · rename_i e hdecl
    cases h
    have hvalues : ∀ v ∈ e.values, IsIdentifier v.name := fun v hv =>
      hn.attributes _ hdecl _ (List.mem_map_of_mem hv)
    rw [e.bindings_body hvalues, hdecl]
    simp [TypeDecl.attributeNames]
  · rename_i hdecl
    cases h
    rw [hdecl]
    refine bindings_indent_of_bindsNothing ?_ depth
    split <;> decide

namespace ModuleText

/-- What is written for an event binds the names of the event. -/
theorem bindings_added {c : ModuleContext} {p : ClassEvent TypeDecl × List Line}
    (hblock : p.1.block c = .ok p.2) (hnode : p.1.node.IsNamed) (opened : Bool) :
    bindings (added opened p) = p.1.bindings := by
  obtain ⟨e, block⟩ := p
  cases e with
  | header n depth =>
    cases hblock
    rw [added, List.map_append, bindings_append,
      bindings_indent_of_bindsNothing (bindsNothing_separation opened depth)]
    exact ClassNode.bindings_opening hnode.name depth
  | body n depth => exact ClassNode.bindings_closing hnode hblock (depth + 1)

/-- **A written module binds the names of its events**, behind those that were there. -/
theorem bindings_foldl {c : ModuleContext} {blocks : List (ClassEvent TypeDecl × List Line)}
    (hblocks : ∀ p ∈ blocks, p.1.block c = .ok p.2 ∧ p.1.node.IsNamed) (m : ModuleText) :
    bindings (blocks.foldl write m).writer.lines.toList =
      bindings m.writer.lines.toList ++ (blocks.map (·.1)).flatMap (·.bindings) := by
  induction blocks generalizing m with
  | nil => simp
  | cons p blocks ih =>
    rw [List.forall_mem_cons] at hblocks
    rw [List.foldl_cons, ih hblocks.2, lines_write, bindings_append,
      bindings_added hblocks.1.1 hblocks.1.2, List.map_cons, List.flatMap_cons, List.append_assoc]

theorem bindings_ofTree {c : ModuleContext} (hsettings : c.settings = .initial)
    {t : ClassTree TypeDecl} {text : ModuleText} (htext : ofTree c t = .ok text)
    (hnodes : ∀ e ∈ t.events, e.node.IsNamed) :
    bindings text.writer.lines.toList = t.events.flatMap (·.bindings) := by
  obtain ⟨blocks, hevents, hblocks, rfl⟩ := exists_blocks_of_ofTree htext
  rw [bindings_foldl (fun p hp => ⟨hblocks p hp, hnodes p.1 (hevents ▸ List.mem_map_of_mem hp)⟩),
    lines_head, hsettings, bindings_moduleHead_initial, hevents, List.nil_append]

end ModuleText
end ProtoModels
