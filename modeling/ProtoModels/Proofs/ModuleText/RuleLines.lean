import ProtoModels.Proofs.ClassTree.Map
import ProtoModels.Proofs.ModuleText.ReadBack
import ProtoModels.Proofs.Schema.WithRules
/-!
# What rules change in a module

The same classes are written for any two rule indexes, and line by line the same text, but for the
lines of fields whose rules differ (`ModuleText.forall₂_lines`). Such a line holds no line feed, so the
sources can be compared piece by piece (`ModuleText.forall₂_source`).
-/
namespace ProtoModels

open Source (Line)

/-- The context with the schema's fields given their rules. -/
def ModuleContext.withRules (rules : RuleIndex) (c : ModuleContext) : ModuleContext :=
  { c with schema := c.schema.withRules rules }

/-- Two lines of a field with some full name, each written for its own rules. -/
def ModuleContext.RuleLines (c : ModuleContext) (rules₁ rules₂ : RuleIndex) (name : String)
    (l₁ l₂ : Line) : Prop :=
  ∃ f ∈ c.schema.allFields, f.fullName = name ∧ ∃ depth type spec₁ spec₂,
    c.schema.fieldType c.names f = .ok type ∧
    (f.withRules rules₁).spec type = .ok spec₁ ∧ (f.withRules rules₂).spec type = .ok spec₂ ∧
    l₁ = (fieldLine f.name type spec₁).indent depth ∧ l₂ = (fieldLine f.name type spec₂).indent depth

variable {c : ModuleContext} {rules rules₁ rules₂ : RuleIndex} {name : String}

namespace ModuleContext

theorem RuleLines.indent {l₁ l₂ : Line} (h : c.RuleLines rules₁ rules₂ name l₁ l₂) (n : Nat) :
    c.RuleLines rules₁ rules₂ name (l₁.indent n) (l₂.indent n) := by
  obtain ⟨f, hf, hname, depth, type, spec₁, spec₂, htype, h₁, h₂, rfl, rfl⟩ := h
  refine ⟨f, hf, hname, n + depth, type, spec₁, spec₂, htype, h₁, h₂, ?_, ?_⟩ <;>
    simp [Line.indent, Nat.add_assoc]

/-- Lines that are the same, but for lines of the field. -/
def SameLines (c : ModuleContext) (rules₁ rules₂ : RuleIndex) (name : String) :
    List Line → List Line → Prop :=
  List.Forall₂ fun l₁ l₂ => l₁ = l₂ ∨ c.RuleLines rules₁ rules₂ name l₁ l₂

theorem SameLines.refl (block : List Line) : c.SameLines rules₁ rules₂ name block block :=
  List.forall₂_same.2 fun _ _ => Or.inl rfl

theorem SameLines.append {a₁ a₂ b₁ b₂ : List Line} (ha : c.SameLines rules₁ rules₂ name a₁ a₂)
    (hb : c.SameLines rules₁ rules₂ name b₁ b₂) :
    c.SameLines rules₁ rules₂ name (a₁ ++ b₁) (a₂ ++ b₂) :=
  List.rel_append ha hb

theorem SameLines.indent {b₁ b₂ : List Line} (h : c.SameLines rules₁ rules₂ name b₁ b₂) (n : Nat) :
    c.SameLines rules₁ rules₂ name (b₁.map (Line.indent n)) (b₂.map (Line.indent n)) := by
  rw [SameLines, List.forall₂_map_left_iff, List.forall₂_map_right_iff]
  exact h.imp fun _ _ hline => hline.imp (congrArg _) (·.indent n)

/-! ## Blocks -/

/-- The block of a field: its comments, and its line for its type and rules. -/
theorem fieldBlock_withRules_eq_ok_iff {f : Field} {block : List Line} :
    (c.withRules rules).fieldBlock (f.withRules rules) = .ok block ↔
      ∃ type spec, c.schema.fieldType c.names f = .ok type ∧ (f.withRules rules).spec type = .ok spec ∧
        block = commentLines f.comment ++ [fieldLine f.name type spec] := by
  rw [fieldBlock, map_eq_ok_iff]
  simp only [typeAndSpec, bind_eq_ok_iff, withRules, Schema.fieldType_withRules]
  constructor
  · rintro ⟨_, ⟨type, htype, spec, hspec, heq⟩, rfl⟩
    cases heq
    exact ⟨type, spec, htype, hspec, rfl⟩
  · rintro ⟨type, spec, htype, hspec, rfl⟩
    exact ⟨_, ⟨type, htype, spec, hspec, rfl⟩, rfl⟩

variable (hagree : ∀ n, n ≠ name → rules₁.get? n = rules₂.get? n)
include hagree

/-- Blocks of a field differ at most in the line of the field, and only if it is the one with other
rules. -/
theorem sameLines_fieldBlock {f : Field} (hf : f ∈ c.schema.allFields) {b₁ b₂ : List Line}
    (h₁ : (c.withRules rules₁).fieldBlock (f.withRules rules₁) = .ok b₁)
    (h₂ : (c.withRules rules₂).fieldBlock (f.withRules rules₂) = .ok b₂) :
    c.SameLines rules₁ rules₂ name b₁ b₂ := by
  by_cases hname : f.fullName = name
  · obtain ⟨type, spec₁, htype, hspec₁, rfl⟩ := fieldBlock_withRules_eq_ok_iff.1 h₁
    obtain ⟨_, spec₂, htype', hspec₂, rfl⟩ := fieldBlock_withRules_eq_ok_iff.1 h₂
    cases htype.symm.trans htype'
    refine (SameLines.refl _).append (.cons (Or.inr ?_) .nil)
    exact ⟨f, hf, hname, 0, type, spec₁, spec₂, htype, hspec₁, hspec₂, by simp [Line.indent],
      by simp [Line.indent]⟩
  · have hrules : f.withRules rules₁ = f.withRules rules₂ := by
      rw [Field.withRules, Field.withRules, hagree _ hname]
    obtain ⟨type, spec₁, htype, hspec₁, rfl⟩ := fieldBlock_withRules_eq_ok_iff.1 h₁
    obtain ⟨_, spec₂, htype', hspec₂, rfl⟩ := fieldBlock_withRules_eq_ok_iff.1 h₂
    cases htype.symm.trans htype'
    rw [hrules] at hspec₁
    cases hspec₁.symm.trans hspec₂
    exact SameLines.refl _

theorem sameLines_fieldBlocks {fields : List Field} (hfields : ∀ f ∈ fields, f ∈ c.schema.allFields)
    {blocks₁ blocks₂ : List (List Line)}
    (h₁ : (fields.map (Field.withRules rules₁)).mapM (c.withRules rules₁).fieldBlock = .ok blocks₁)
    (h₂ : (fields.map (Field.withRules rules₂)).mapM (c.withRules rules₂).fieldBlock = .ok blocks₂) :
    c.SameLines rules₁ rules₂ name blocks₁.flatten blocks₂.flatten := by
  rw [mapM_eq_ok_iff, List.forall₂_map_left_iff] at h₁ h₂
  induction h₁ generalizing blocks₂ with
  | nil =>
    cases h₂
    exact SameLines.refl _
  | cons hblock₁ _ ih =>
    cases h₂ with
    | cons hblock₂ h₂ =>
      rw [List.forall_mem_cons] at hfields
      exact (sameLines_fieldBlock hagree hfields.1 hblock₁ hblock₂).append (ih hfields.2 h₂)

omit hagree in
theorem mapFields_withRules (s : Schema) (m : Message) :
    (s.withRules rules).mapFields (m.withRules rules) = s.mapFields m := by
  have hmap : (s.withRules rules).isMap ∘ Field.withRules rules = s.isMap :=
    funext fun f => s.isMap_withRules f
  rw [Schema.mapFields, Schema.mapFields, Message.fields_withRules, List.filter_map, hmap, List.map_map]
  rfl

omit hagree in
theorem oneofGroups_withRules (m : Message) : (m.withRules rules).oneofGroups = m.oneofGroups := by
  simp [Message.oneofGroups, Message.oneofMembers, List.filter_map, Function.comp_def, Field.withRules]

/-- The serializer, the validator and all fields but one of a class are the same. -/
theorem sameLines_messageBody {m : Message} (hm : .message m ∈ c.schema.types) {nested : Bool}
    {b₁ b₂ : List Line} (h₁ : (c.withRules rules₁).messageBody (m.withRules rules₁) nested = .ok b₁)
    (h₂ : (c.withRules rules₂).messageBody (m.withRules rules₂) nested = .ok b₂) :
    c.SameLines rules₁ rules₂ name b₁ b₂ := by
  simp only [messageBody, Message.fields_withRules, List.isEmpty_map] at h₁ h₂
  split at h₁ <;> rename_i hempty
  · rw [if_pos hempty] at h₂
    cases h₁
    cases h₂
    exact SameLines.refl _
  · rw [if_neg hempty] at h₂
    obtain ⟨blocks₁, hblocks₁, rfl⟩ := map_eq_ok_iff.1 h₁
    obtain ⟨blocks₂, hblocks₂, rfl⟩ := map_eq_ok_iff.1 h₂
    have hfields := sameLines_fieldBlocks hagree
      (fun f hf => Schema.mem_allFields_iff.2 ⟨m, hm, hf⟩) hblocks₁ hblocks₂
    simp only [withRules, mapFields_withRules, oneofGroups_withRules]
    exact (((SameLines.refl _).append hfields).append (SameLines.refl _)).append (SameLines.refl _)

end ModuleContext

/-! ## Events -/

/-- The class with the rules of its declarations. -/
abbrev ClassEvent.withRules (rules : RuleIndex) : ClassEvent TypeDecl → ClassEvent TypeDecl :=
  ClassEvent.map (TypeDecl.withRules rules)

theorem ClassNode.opening_withRules (n : ClassNode TypeDecl) :
    (n.map (TypeDecl.withRules rules)).opening = n.opening := by
  unfold opening
  rw [decl_map, name_map]
  cases n.decl with
  | none => rfl
  | some t => cases t <;> simp [TypeDecl.withRules]

/-- What is written when a class is opened or closed. -/
theorem ClassEvent.sameLines_block (hagree : ∀ n, n ≠ name → rules₁.get? n = rules₂.get? n)
    {e : ClassEvent TypeDecl} (he : ∀ m, e.node.decl = some (.message m) → .message m ∈ c.schema.types)
    {b₁ b₂ : List Line} (h₁ : (e.withRules rules₁).block (c.withRules rules₁) = .ok b₁)
    (h₂ : (e.withRules rules₂).block (c.withRules rules₂) = .ok b₂) :
    c.SameLines rules₁ rules₂ name b₁ b₂ := by
  cases e with
  | header n depth =>
    cases h₁
    cases h₂
    rw [ClassNode.opening_withRules, ClassNode.opening_withRules]
    exact .refl _
  | body n depth =>
    simp only [block, ClassEvent.map, ClassNode.closing, ClassNode.decl_map, ClassNode.children_map,
      List.isEmpty_map] at h₁ h₂
    cases hdecl : n.decl with
    | none =>
      rw [hdecl] at h₁ h₂
      cases h₁
      cases h₂
      exact .refl _
    | some t =>
      rw [hdecl] at h₁ h₂
      cases t with
      | enum e =>
        cases h₁
        cases h₂
        exact .refl _
      | message m => exact ModuleContext.sameLines_messageBody hagree (he m hdecl) h₁ h₂

namespace ModuleText

/-- Blocks of the same events, written behind the same lines, give the same lines. -/
theorem sameLines_foldl (hagree : ∀ n, n ≠ name → rules₁.get? n = rules₂.get? n)
    {events : List (ClassEvent TypeDecl)}
    (hevents : ∀ e ∈ events, ∀ m, e.node.decl = some (.message m) → .message m ∈ c.schema.types)
    {blocks₁ blocks₂ : List (ClassEvent TypeDecl × List Line)}
    (h₁ : List.Forall₂ (fun p e => p.1.block (c.withRules rules₁) = .ok p.2 ∧ p.1 = e.withRules rules₁)
      blocks₁ events)
    (h₂ : List.Forall₂ (fun p e => p.1.block (c.withRules rules₂) = .ok p.2 ∧ p.1 = e.withRules rules₂)
      blocks₂ events) {m₁ m₂ : ModuleText} (hopened : m₁.opened = m₂.opened)
    (hlines : c.SameLines rules₁ rules₂ name m₁.writer.lines.toList m₂.writer.lines.toList) :
    c.SameLines rules₁ rules₂ name (blocks₁.foldl write m₁).writer.lines.toList
      (blocks₂.foldl write m₂).writer.lines.toList := by
  induction h₁ generalizing blocks₂ m₁ m₂ with
  | nil =>
    cases h₂
    exact hlines
  | @cons p₁ e blocks₁ events hp₁ _ ih =>
    cases h₂ with
    | @cons p₂ _ blocks₂ _ hp₂ h₂ =>
      rw [List.forall_mem_cons] at hevents
      obtain ⟨e₁, block₁⟩ := p₁
      obtain ⟨e₂, block₂⟩ := p₂
      obtain ⟨hblock₁, rfl⟩ := hp₁
      obtain ⟨hblock₂, rfl⟩ := hp₂
      have hblock := ClassEvent.sameLines_block hagree hevents.1 hblock₁ hblock₂
      refine ih hevents.2 h₂ ?_ ?_
      · cases e <;> rfl
      · rw [lines_write, lines_write]
        refine hlines.append ?_
        cases e with
        | header n depth =>
          rw [hopened]
          exact ((ModuleContext.SameLines.refl _).append hblock).indent depth
        | body n depth => exact hblock.indent (depth + 1)

/-- **Modules for two rule indexes** have the same lines, but for those of the field whose rules may
differ. -/
theorem forall₂_lines (hagree : ∀ n, n ≠ name → rules₁.get? n = rules₂.get? n) {t : ClassTree TypeDecl}
    (ht : ∀ e ∈ t.events, ∀ m, e.node.decl = some (.message m) → .message m ∈ c.schema.types)
    {text₁ text₂ : ModuleText}
    (h₁ : ofTree (c.withRules rules₁) (t.map (TypeDecl.withRules rules₁)) = .ok text₁)
    (h₂ : ofTree (c.withRules rules₂) (t.map (TypeDecl.withRules rules₂)) = .ok text₂) :
    c.SameLines rules₁ rules₂ name text₁.writer.lines.toList text₂.writer.lines.toList := by
  have hpairs : ∀ {rules : RuleIndex} {blocks : List (ClassEvent TypeDecl × List Line)},
      blocks.map (·.1) = (t.map (TypeDecl.withRules rules)).events →
      (∀ p ∈ blocks, p.1.block (c.withRules rules) = .ok p.2) →
        List.Forall₂ (fun p e => p.1.block (c.withRules rules) = .ok p.2 ∧ p.1 = e.withRules rules)
          blocks t.events := by
    intro rules blocks hevents hfound
    rw [ClassTree.events_map, ← List.forall₂_eq_eq_eq, List.forall₂_map_left_iff,
      List.forall₂_map_right_iff] at hevents
    exact (List.forall₂_and_left _ _).2 ⟨hfound, hevents⟩
  obtain ⟨blocks₁, hevents₁, hfound₁, rfl⟩ := exists_blocks_of_ofTree h₁
  obtain ⟨blocks₂, hevents₂, hfound₂, rfl⟩ := exists_blocks_of_ofTree h₂
  exact sameLines_foldl hagree ht (hpairs hevents₁ hfound₁) (hpairs hevents₂ hfound₂) rfl
    (ModuleContext.SameLines.refl _)

end ModuleText

/-! ## Sources -/

/-- No name that a field's line is made of holds a line feed. -/
structure Schema.NamesOneLine (s : Schema) : Prop where
  types : ∀ t ∈ s.types, OneLine t.name
  fields : ∀ f ∈ s.allFields, OneLine f.name
  packages : ∀ f ∈ s.files, OneLine f.package

/-- No name of a default factory holds a line feed. -/
def RuleIndex.FactoriesOneLine (rules : RuleIndex) : Prop :=
  ∀ field r factory, rules.get? field = some (.message r) → r.defaultFactory = some factory →
    OneLine factory

theorem shown_fieldLine (name : String) (type : FieldType) (spec : FieldSpec) (depth : Nat) :
    ((fieldLine name type spec).indent depth).shown =
      Line.indentation depth ++ (fieldLine name type spec).text := by
  have hne : (fieldLine name type spec).text ≠ "" := by simp [fieldLine]
  simp [Line.shown, Line.indent, hne]
  rfl

/-- Two texts that are lines of a field with some full name, each written for its own rules. -/
def Schema.FieldLines (s : Schema) (rules₁ rules₂ : RuleIndex) (name : String) (a b : String) : Prop :=
  ∃ f ∈ s.allFields, f.fullName = name ∧ ∃ depth type spec₁ spec₂,
    (f.withRules rules₁).spec type = .ok spec₁ ∧ (f.withRules rules₂).spec type = .ok spec₂ ∧
    a = Line.indentation depth ++ (fieldLine f.name type spec₁).text ∧
    b = Line.indentation depth ++ (fieldLine f.name type spec₂).text

theorem ModuleContext.RuleLines.fieldLines {l₁ l₂ : Line} (h : c.RuleLines rules₁ rules₂ name l₁ l₂) :
    c.schema.FieldLines rules₁ rules₂ name l₁.shown l₂.shown := by
  obtain ⟨f, hf, hname, depth, type, spec₁, spec₂, _, hspec₁, hspec₂, rfl, rfl⟩ := h
  exact ⟨f, hf, hname, depth, type, spec₁, spec₂, hspec₁, hspec₂, shown_fieldLine .., shown_fieldLine ..⟩

section
variable {files : List Descriptor.File} {s : Schema} {package : String} {settings : Settings}

theorem ModuleContext.RuleLines.oneLine (h : Schema.build files {} = .ok s) (hs : s.NamesOneLine)
    (hrules₁ : rules₁.FactoriesOneLine) (hrules₂ : rules₂.FactoriesOneLine) {l₁ l₂ : Line}
    (hl : ModuleContext.RuleLines ⟨s, .ofPackage s package, settings⟩ rules₁ rules₂ name l₁ l₂) :
    OneLine l₁.text ∧ OneLine l₂.text := by
  obtain ⟨f, hf, _, depth, type, spec₁, spec₂, htype, hspec₁, hspec₂, rfl, rfl⟩ := hl
  have hnames : type.NamesOneLine := Schema.namesOneLine_fieldType htype fun t ht =>
    ClassNames.oneLine_of_mem_resolve h hs.types hs.packages package ht
  exact ⟨oneLine_fieldLine (hs.fields f hf) hnames
      (Field.oneLine_spec hspec₁ hnames fun r factory => hrules₁ _ r factory),
    oneLine_fieldLine (hs.fields f hf) hnames
      (Field.oneLine_spec hspec₂ hnames fun r factory => hrules₂ _ r factory)⟩

end
end ProtoModels
