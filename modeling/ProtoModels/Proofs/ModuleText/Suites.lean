import ProtoModels.Proofs.ModuleText.ReadBack
import ProtoModels.Proofs.Source.Layout
/-!
# Modules are laid out as Python asks

Whatever is written of a class is a suite: what stands behind its inner classes is one, or there are
inner classes and nothing has to (`ClassNode.Filled`), so the line that opens the class has a suite below
it (`ClassNode.Distinct.suite_events`). Blank lines and comments have no layout, so they may stand
anywhere. With the imports in front a module is a suite at the margin (`module_validLayout`).
-/
namespace ProtoModels

open Source (Line)

/-! ## Head and comments -/

theorem lineLayout_ofComment (comment : String) : lineLayout (Line.ofComment comment) = [] := by
  refine lineLayout_comments fun l hl => ?_
  obtain ⟨line, _, rfl⟩ := List.mem_map.1 hl
  unfold Line.ofCommentLine
  dsimp only
  split <;> simp

/-- Comments leave no trace in the layout. -/
theorem lineLayout_commentLines (comment : Option String) : lineLayout (commentLines comment) = [] := by
  cases comment with
  | none => rfl
  | some comment =>
    rw [commentLines, Option.map_some, Option.getD_some]
    exact lineLayout_ofComment comment

theorem Settings.suite_pydanticImports (settings : Settings) :
    Suite 0 (lineLayout settings.pydanticImports) := by
  have himport {front : String} (hfront : startsCode front = true) :
      IsCode (front ++ pydanticHelpers) false := by
    have hhelpers : IsCode pydanticHelpers false := .ofList (by decide) (by decide)
    exact .append hfront ⟨by decide, hhelpers.ends⟩
  unfold pydanticImports
  split
  · rename_i base _
    have hbase : IsCode ("from " ++ base ++ " import BaseModel") false :=
      .append (startsCode_append (by decide) base) (by decide)
    rw [lineLayout_statement hbase, lineLayout_statement (himport (by decide))]
    exact .append (.line 0) (.line 0)
  · rw [lineLayout_statement (himport (by decide))]
    exact .line 0

/-- Imports are statements at the margin. -/
theorem Settings.suite_moduleHead (settings : Settings) :
    Suite 0 (lineLayout settings.moduleHead) := by
  have hbefore : lineLayout
      [⟨0, banner⟩,
       ⟨0, "### This is an automatically generated file.        DO NOT EDIT  ###"⟩,
       ⟨0, banner⟩, .blank,
       ⟨0, "from __future__ import annotations"⟩, .blank,
       ⟨0, "import datetime"⟩, ⟨0, "import json"⟩, .blank,
       ⟨0, "from enum import StrEnum"⟩] = List.replicate 4 ⟨0, false⟩ := by
    rw [lineLayout_comment (by decide), lineLayout_comment (by decide), lineLayout_comment (by decide),
      lineLayout_blank, lineLayout_statement (.ofList (by decide) (by decide)), lineLayout_blank,
      lineLayout_statement (.ofList (by decide) (by decide)),
      lineLayout_statement (.ofList (by decide) (by decide)), lineLayout_blank,
      lineLayout_statement (.ofList (by decide) (by decide))]
    rfl
  have hbehind : lineLayout
      [⟨0, "from typing import Any, Optional, Self"⟩, ⟨0, "from uuid import UUID"⟩] =
        List.replicate 2 ⟨0, false⟩ := by
    rw [lineLayout_statement (.ofList (by decide) (by decide)),
      lineLayout_statement (.ofList (by decide) (by decide))]
    rfl
  have hlines : ∀ n, Suite 0 (List.replicate (n + 1) ⟨0, false⟩) := by
    intro n
    induction n with
    | zero => exact .line 0
    | succ n ih => exact .append (.line 0) ih
  rw [moduleHead, lineLayout_append, lineLayout_append, hbefore, hbehind]
  exact ((hlines 3).append settings.suite_pydanticImports).append (hlines 1)

/-- The body of a class that has nothing else in it. -/
theorem suite_pass : Suite 0 (lineLayout [⟨0, "pass"⟩]) := by
  rw [lineLayout_statement (by decide)]
  exact .line 0

/-! ## Enums -/

theorem IsIdentifier.startsCode {name : String} (h : IsIdentifier name) : startsCode name = true := by
  cases hname : name.toList with
  | nil => exact absurd hname (by simpa using h.ne_empty)
  | cons c cs =>
    have hc : isNameChar c = true := h.chars c (by simp [hname])
    have hspace : c ≠ ' ' := by
      rintro rfl
      exact absurd hc (by decide)
    have hcomment : c ≠ '#' := by
      rintro rfl
      exact absurd hc (by decide)
    simp [ProtoModels.startsCode, hname, hspace, hcomment]

/-- A statement for each value. -/
theorem Enum.suite_body {e : Enum} (h : ∀ v ∈ e.values, IsIdentifier v.name) :
    Suite 0 (lineLayout e.body) := by
  unfold body
  split
  · exact suite_pass
  · rename_i hvalues
    rw [lineLayout_flatMap]
    refine Suite.flatMap (fun v hv => ?_) (by simpa using hvalues)
    have hvalue : IsCode (v.name ++ " = " ++ inQuotes v.name) false := by
      refine .append (startsCode_append (h v hv).startsCode _) ⟨by simp [inQuotes], ?_⟩
      rw [inQuotes, opensBlock_append _ (by decide)]
      decide
    rw [EnumValue.block, lineLayout_append, lineLayout_commentLines, lineLayout_statement hvalue]
    exact .line 0

/-! ## Messages -/

theorem suite_fieldLine {name : String} (h : IsIdentifier name) (type : FieldType) (spec : FieldSpec) :
    Suite 0 (lineLayout [fieldLine name type spec]) := by
  have hline : IsCode (fieldLine name type spec).text false :=
    .append (startsCode_append (startsCode_append (startsCode_append (startsCode_append
      h.startsCode _) _) _) _) (by decide)
  have hlayout : lineLayout [fieldLine name type spec] = [⟨0, false⟩] := lineLayout_statement hline []
  rw [hlayout]
  exact .line 0

/-- The serializer is a method below its decorator. -/
theorem suite_serializerBlock (context : String) (names : List String) :
    lineLayout (serializerBlock context names) = [] ∨
      Suite 0 (lineLayout (serializerBlock context names)) := by
  cases names with
  | nil => exact Or.inl rfl
  | cons name names =>
    have hdecorator :
        IsCode ("@field_serializer(" ++ commaSeparated ((name :: names).map inQuotes) ++ ")") false :=
      .append (startsCode_append (by decide) _) (by decide)
    have htest : IsCode ("if info.context == '" ++ context ++ "':") true :=
      .append (startsCode_append (by decide) _) (by decide)
    have hmethod : Suite 0 (⟨0, true⟩ :: ([⟨4, true⟩, ⟨8, false⟩] ++ [⟨4, false⟩])) :=
      .block (.append (.block (.line 2)) (.line 1))
    right
    simp only [serializerBlock]
    rw [lineLayout_blank, lineLayout_statement hdecorator,
      lineLayout_opener (.ofList (by decide) (by decide)), lineLayout_opener htest,
      lineLayout_statement (.ofList (by decide) (by decide)),
      lineLayout_statement (.ofList (by decide) (by decide))]
    exact (Suite.line 0).append hmethod

theorem OneofGroup.suite_check (g : OneofGroup) : Suite 1 (lineLayout g.check) := by
  have htest : IsCode ("if sum(v is not None for v in (" ++
      commaSeparated (g.members.map ("self." ++ ·)) ++ ",)) != 1:") true :=
    .append (startsCode_append (by decide) _) (by decide)
  have hraise : IsCode ("raise ValueError(\"oneof " ++ g.name ++ ": exactly one of " ++
      commaSeparated g.members ++ " must be set\")") false :=
    .append (startsCode_append (startsCode_append (startsCode_append (by decide) _) _) _) (by decide)
  rw [check, lineLayout_opener htest, lineLayout_statement hraise]
  exact .block (.line 2)

/-- The validator is a method below its decorator, with one check a group. -/
theorem suite_validatorBlock (groups : List OneofGroup) :
    lineLayout (validatorBlock groups) = [] ∨ Suite 0 (lineLayout (validatorBlock groups)) := by
  cases groups with
  | nil => exact Or.inl rfl
  | cons g groups =>
    have hchecks : Suite 1 ((g :: groups).flatMap fun g => lineLayout g.check) :=
      Suite.flatMap (fun g _ => g.suite_check) (by simp)
    right
    simp only [validatorBlock]
    rw [lineLayout_append, lineLayout_append, lineLayout_blank,
      lineLayout_statement (.ofList (by decide) (by decide)),
      lineLayout_opener (.ofList (by decide) (by decide)),
      lineLayout_statement (.ofList (by decide) (by decide)), lineLayout_flatMap, lineLayout_nil,
      List.append_assoc, List.cons_append, List.cons_append, List.nil_append]
    exact (Suite.line 0).append (.block (hchecks.append (.line 1)))

namespace ModuleContext

variable {c : ModuleContext}

theorem suite_fieldBlock {f : Field} (hname : IsIdentifier f.name) {block : List Line}
    (h : c.fieldBlock f = .ok block) : Suite 0 (lineLayout block) := by
  obtain ⟨⟨type, spec⟩, _, rfl⟩ := map_eq_ok_iff.1 h
  rw [lineLayout_append, lineLayout_commentLines, List.nil_append]
  exact suite_fieldLine hname type spec

/-- The body of a message is a suite, unless there are no fields but inner classes. -/
theorem suite_messageBody {m : Message} (hnames : ∀ f ∈ m.fields, IsIdentifier f.name) {nested : Bool}
    {block : List Line} (h : c.messageBody m nested = .ok block) :
    lineLayout block = [] ∧ nested = true ∨ Suite 0 (lineLayout block) := by
  unfold messageBody at h
  split at h
  · cases h
    cases nested with
    | true => exact Or.inl ⟨rfl, rfl⟩
    | false => exact Or.inr suite_pass
  · rename_i hfields
    obtain ⟨blocks, hblocks, rfl⟩ := map_eq_ok_iff.1 h
    have hfirst : blocks ≠ [] := by
      rintro rfl
      exact hfields (by simpa using mapM_eq_ok_iff.1 hblocks)
    have hseparation : lineLayout (if nested then [.blank] else []) = [] := by cases nested <;> rfl
    have hsuite : Suite 0 (blocks.flatMap lineLayout) := by
      refine Suite.flatMap (fun block hblock => ?_) hfirst
      obtain ⟨f, hf, hfound⟩ := exists_mem_of_mapM hblocks block hblock
      exact suite_fieldBlock (hnames f hf) hfound
    right
    rw [lineLayout_append, lineLayout_append, lineLayout_append, hseparation, List.nil_append,
      ← List.flatMap_id, lineLayout_flatMap]
    exact (hsuite.append_optional (suite_serializerBlock _ _)).append_optional (suite_validatorBlock _)

end ModuleContext

/-! ## Classes -/

/-- Something stands below the line that opens a class: its body or its inner classes. -/
def ClassNode.Filled (c : ModuleContext) (n : ClassNode TypeDecl) : Prop :=
  ∃ block, n.closing c = .ok block ∧
    (lineLayout block = [] ∧ n.children ≠ [] ∨ Suite 0 (lineLayout block))

/-- **No class is empty.** -/
theorem ClassNode.filled_of_closing {c : ModuleContext} {n : ClassNode TypeDecl}
    (hnames : ∀ t ∈ n.decl, ∀ name ∈ t.memberNames, IsIdentifier name) {block : List Line}
    (h : n.closing c = .ok block) : n.Filled c := by
  refine ⟨block, h, ?_⟩
  unfold closing at h
  dsimp only at h
  split at h
  · rename_i m hdecl
    have hfields : ∀ f ∈ m.fields, IsIdentifier f.name := fun f hf =>
      hnames _ hdecl _ (List.mem_append_left _ (List.mem_map_of_mem hf))
    simpa using ModuleContext.suite_messageBody hfields h
  · rename_i e hdecl
    cases h
    exact Or.inr (e.suite_body fun v hv => hnames _ hdecl _ (List.mem_map_of_mem hv))
  · cases h
    by_cases hchildren : n.children = []
    · rw [hchildren]
      exact Or.inr suite_pass
    · exact Or.inl ⟨by simp [hchildren], hchildren⟩

/-- A class is opened by its line. -/
theorem ClassNode.lineLayout_opening (n : ClassNode TypeDecl) :
    lineLayout n.opening = [⟨0, true⟩] := by
  obtain ⟨comment, hopening⟩ := n.exists_opening_eq
  have hclass : IsCode ("class " ++ n.name ++ (ClassKind.of n.decl).ending) true := by
    refine .append (startsCode_append (by decide) _) ?_
    cases ClassKind.of n.decl <;> decide
  rw [hopening, lineLayout_append, lineLayout_commentLines, lineLayout_opener hclass]
  rfl

/-- The depth at which the lines of an event stand. -/
def ClassEvent.lineDepth : ClassEvent TypeDecl → Nat
  | .header _ depth => depth
  | .body _ depth => depth + 1

/-- The layout of what is written for an event. -/
def ClassEvent.layout (c : ModuleContext) (e : ClassEvent TypeDecl) : List LayoutLine :=
  match e.block c with
  | .ok block => (lineLayout block).map (.shift e.lineDepth)
  | .error _ => []

/-- **A class is a suite** at its depth: its line, and below it the inner classes and the body. -/
theorem ClassNode.Distinct.suite_events {c : ModuleContext} {n : ClassNode TypeDecl} (hn : n.Distinct)
    {depth : Nat} (h : ∀ n' depth', .body n' depth' ∈ n.events depth → n'.Filled c) :
    Suite depth ((n.events depth).flatMap (·.layout c)) := by
  induction hn generalizing depth with
  | @node n _ _ ih =>
    rw [events_eq] at h
    have hheader : (ClassEvent.header n depth).layout c = [⟨4 * depth, true⟩] := by
      simp [ClassEvent.layout, ClassEvent.block, lineLayout_opening, ClassEvent.lineDepth,
        LayoutLine.shift]
    obtain ⟨block, hclosing, hfilled⟩ := h n depth (by simp)
    have hbody : (ClassEvent.body n depth).layout c =
        (lineLayout block).map (LayoutLine.shift (depth + 1)) := by
      simp [ClassEvent.layout, ClassEvent.block, hclosing, ClassEvent.lineDepth]
    have hinner : ∀ child ∈ n.children,
        Suite (depth + 1) ((child.events (depth + 1)).flatMap (·.layout c)) := fun child hchild =>
      ih child hchild fun n' depth' hmem => h n' depth' (by
        simp only [List.mem_cons, List.mem_append, List.mem_flatMap]
        exact Or.inr (Or.inl ⟨child, hchild, hmem⟩))
    rw [events_eq, List.flatMap_cons, List.flatMap_append, List.flatMap_assoc, List.flatMap_singleton,
      hheader, hbody]
    refine .block ?_
    by_cases hchildren : n.children = []
    · have hsuite := hfilled.resolve_left fun hempty => hempty.2 hchildren
      simpa [hchildren] using hsuite.shift (depth + 1)
    · refine (Suite.flatMap hinner hchildren).append_optional ?_
      exact hfilled.imp (fun hempty => by simp [hempty.1]) fun hsuite => hsuite.shift (depth + 1)

/-! ## Modules -/

namespace ModuleText

theorem lineLayout_separation (opened : Bool) (depth : Nat) :
    lineLayout (separation opened depth) = [] := by
  unfold separation
  split
  · rfl
  · split <;> rfl

/-- What an event adds to the layout of a module. -/
theorem lineLayout_added {c : ModuleContext} {p : ClassEvent TypeDecl × List Line}
    (h : p.1.block c = .ok p.2) (opened : Bool) : lineLayout (added opened p) = p.1.layout c := by
  obtain ⟨e, block⟩ := p
  dsimp only at h
  cases e with
  | header n depth =>
    rw [added, lineLayout_indent, lineLayout_append, lineLayout_separation, List.nil_append,
      ClassEvent.layout, h]
    rfl
  | body n depth =>
    rw [added, lineLayout_indent, ClassEvent.layout, h]
    rfl

theorem lineLayout_foldl {c : ModuleContext} {blocks : List (ClassEvent TypeDecl × List Line)}
    (hblocks : ∀ p ∈ blocks, p.1.block c = .ok p.2) (m : ModuleText) :
    lineLayout (blocks.foldl write m).writer.lines.toList =
      lineLayout m.writer.lines.toList ++ (blocks.map (·.1)).flatMap (·.layout c) := by
  induction blocks generalizing m with
  | nil => simp
  | cons p blocks ih =>
    obtain ⟨hp, hblocks⟩ := List.forall_mem_cons.1 hblocks
    rw [List.foldl_cons, ih hblocks, lines_write, lineLayout_append, lineLayout_added hp, List.map_cons,
      List.flatMap_cons, List.append_assoc]

/-- The layout of a tree's module is that of its head and of its events. -/
theorem lineLayout_ofTree {c : ModuleContext} {t : ClassTree TypeDecl} {text : ModuleText}
    (h : ofTree c t = .ok text) : lineLayout text.writer.lines.toList =
      lineLayout c.settings.moduleHead ++ t.events.flatMap (·.layout c) := by
  obtain ⟨blocks, hevents, hblocks, rfl⟩ := exists_blocks_of_ofTree h
  have hmargin : Line.indent 0 = id := funext fun l => by simp [Line.indent]
  rw [lineLayout_foldl hblocks, lines_head, hmargin, List.map_id, hevents]

end ModuleText

namespace Schema

variable {files : List Descriptor.File} {rules : RuleIndex} {s : Schema} {roots : List File}
  {settings : Settings} {package : String}

/-- The classes in the tree of a package are filled. -/
theorem filled_of_mem_events (hs : s.Readable) (hroots : ∀ f ∈ roots, f ∈ s.files)
    {tree : ClassTree TypeDecl}
    (hholds : tree.Holds ((ClassNames.ofPackage s package).entries (s.collect roots)))
    {text : ModuleText} {c : ModuleContext} (htext : ModuleText.ofTree c tree = .ok text)
    {n : ClassNode TypeDecl} (depth : Nat) (hn : .body n depth ∈ tree.events) : n.Filled c := by
  obtain ⟨blocks, hevents, hblocks, _⟩ := ModuleText.exists_blocks_of_ofTree htext
  rw [← hevents] at hn
  obtain ⟨⟨e, block⟩, hp, rfl⟩ := List.mem_map.1 hn
  refine ClassNode.filled_of_closing (fun t ht name hname => ?_) (hblocks _ hp)
  obtain ⟨path, _, ht⟩ := hholds.exists_body_iff.1 ⟨n, depth, hevents ▸ List.mem_map_of_mem hp, ht⟩
  exact hs.members t (mem_types_of_mem_collect hroots (ClassNames.mem_entries.1 ht).1) name hname

end Schema

/-- **A module is laid out validly.** Where all names are identifiers, and factories and settings are on
one line, the source of a package's module is a suite at the margin: of its lines that are neither blank
nor comments every one stands at a multiple of four spaces, a line that ends with a colon has a line one
level deeper right behind it, and no other line has a deeper one behind it. -/
theorem module_validLayout {files : List Descriptor.File} {rules : RuleIndex} {s : Schema}
    (h : Schema.build files rules = .ok s) (hs : s.Readable) {settings : Settings}
    (hsettings : settings.Readable) {roots : List File} (hroots : ∀ f ∈ roots, f ∈ s.files)
    {package source : String} (hsource : s.packageModule settings package roots = .ok source) :
    Suite 0 (layout source) ∧ ValidLayout (layout source) := by
  obtain ⟨tree, htree, hholds⟩ := Schema.packageTree_holds h hroots package
  rw [Schema.packageModule_eq htree] at hsource
  obtain ⟨text, htext, rfl⟩ := map_eq_ok_iff.1 hsource
  obtain ⟨honeLine, _⟩ := ModuleText.readLines_ofTree htext hsettings fun e he =>
    Schema.plain_of_mem_events h hs hsettings hroots hholds he
  have hclasses : ∀ n ∈ tree.topLevel, Suite 0 ((n.events 0).flatMap
      (·.layout ⟨s, .ofPackage s package, settings⟩)) := by
    intro n hn
    have hdistinct := hholds.distinct.inner (hholds.topLevel_perm.mem_iff.1 hn)
    refine hdistinct.suite_events fun n' depth hmem => ?_
    refine Schema.filled_of_mem_events hs hroots hholds htext depth ?_
    rw [hholds.events_eq]
    exact List.mem_flatMap.2 ⟨n, hn, hmem⟩
  have hsuite : Suite 0 (layout text.source) := by
    rw [ModuleText.source, Source.Writer.text, layout_text honeLine, ModuleText.lineLayout_ofTree htext,
      hholds.events_eq, List.flatMap_assoc]
    refine settings.suite_moduleHead.append_optional ?_
    by_cases hempty : tree.topLevel = []
    · exact Or.inl (by rw [hempty]; rfl)
    · exact Or.inr (Suite.flatMap hclasses hempty)
  exact ⟨hsuite, hsuite.validLayout⟩

theorem module_validLayout_orders :
    let s := Schema.ofDescriptors orderFiles {}
    let roots := s.files.take 1
    Schema.build orderFiles {} = .ok s ∧ s.Readable ∧ Settings.initial.Readable ∧
    (∀ f ∈ roots, f ∈ s.files) ∧
    ∃ source, s.packageModule .initial "shop" roots = .ok source ∧
      Suite 0 (layout source) ∧ ValidLayout (layout source) := by
  have hs : (Schema.ofDescriptors orderFiles {}).Readable :=
    ⟨by decide +kernel, by decide +kernel, by decide +kernel, by decide +kernel⟩
  have hsettings : Settings.initial.Readable := ⟨by decide, by decide⟩
  obtain ⟨source, hsource⟩ := Schema.exists_packageModule_of_supported build_orderFiles
    roots_orderFiles (by decide +kernel) .initial "shop"
  exact ⟨build_orderFiles, hs, hsettings, roots_orderFiles, source, hsource,
    module_validLayout build_orderFiles hs hsettings roots_orderFiles hsource⟩

end ProtoModels
