import ProtoModels.Proofs.ClassTree.Outline
import ProtoModels.Proofs.Failures
import ProtoModels.Proofs.ModuleText.PlainLines
/-!
# Reading modules back

The class lines of a module's source are those of the classes that were opened, in this order
(`ModuleText.classLines_source`): the names of all classes are identifiers, and every other line is
plain. With `ClassTree.Holds.nest_classLines` the source shows the class tree it was written from
(`module_shows_tree`).
-/
namespace ProtoModels

open Source (Line)

/-! ## Names of classes -/

theorem IsIdentifier.freeName {name : String} (h : IsIdentifier name) (taken : List String) :
    IsIdentifier (freeName taken name) := by
  refine ⟨fun heq => ?_, fun c hc => ?_⟩
  · have hlength := length_le_freeName taken name
    rw [heq] at hlength
    exact h.ne_empty (String.length_eq_zero_iff.1 (Nat.le_zero.1 hlength))
  · rcases mem_toList_freeName hc with hc | rfl
    · exact h.chars c hc
    · decide

theorem isIdentifier_scopeBase {package : String}
    (h : ∀ segment ∈ Text.splitOn '.' package, segment ≠ "" → IsIdentifier segment) :
    IsIdentifier (scopeBase package) := by
  unfold scopeBase
  split
  · decide
  · rename_i hne
    refine ⟨hne, fun c hc => ?_⟩
    rw [joinedSegments, String.toList_join] at hc
    obtain ⟨segment, hsegment, hc⟩ := List.mem_flatMap.1 hc
    have hsome : segment ≠ "" := by
      rintro rfl
      cases hc
    exact (h segment hsegment hsome).chars c hc

section
variable {files : List Descriptor.File} {rules : RuleIndex} {s : Schema}

/-- Class paths are made of identifiers, where the names of types and the segments of packages are. -/
theorem ClassNames.isIdentifier_of_mem_segments (h : Schema.build files rules = .ok s)
    (htypes : ∀ t ∈ s.types, IsIdentifier t.name)
    (hpackages : ∀ f ∈ s.files, ∀ segment ∈ Text.splitOn '.' f.package, segment ≠ "" →
      IsIdentifier segment)
    (package : String) {t : TypeDecl} (ht : t ∈ s.types) :
    ∀ segment ∈ ((ofPackage s package).resolve t).segments, IsIdentifier segment := by
  intro segment hsegment
  rw [segments_resolve, List.mem_append, Option.mem_toList] at hsegment
  rcases hsegment with hscope | hlocal
  · obtain ⟨taken, heq⟩ := exists_freeName_of_mem_allotScopes (mem_scopes_of_scope? hscope)
    obtain ⟨f, hf, hpackage⟩ := List.mem_map.1 (Schema.package_mem_of_mem_types h t ht)
    have hbase : IsIdentifier (scopeBase t.package) :=
      isIdentifier_scopeBase (hpackage ▸ hpackages f hf)
    rw [show segment = freeName taken (scopeBase t.package) from heq]
    exact hbase.freeName taken
  · obtain ⟨u, hu, rfl⟩ := Schema.exists_name_of_mem_localPath h t ht segment hlocal
    exact htypes u hu

theorem ClassNames.isIdentifier_of_mem_resolve (h : Schema.build files rules = .ok s) (hs : s.Readable)
    (package : String) {t : TypeDecl} (ht : t ∈ s.types) :
    ∀ segment ∈ ((ofPackage s package).resolve t).segments, IsIdentifier segment :=
  isIdentifier_of_mem_segments h hs.types hs.packages package ht

end

/-- The name of a class is a segment of some path in the tree. -/
theorem ClassTree.Holds.exists_entry_of_find? {α : Type} {t : ClassTree α}
    {entries : List (List String × α)} (h : t.Holds entries) {path : List String} (hpath : path ≠ [])
    {n : ClassNode α} (hfind : t.find? path = some n) : ∃ e ∈ entries, n.name ∈ e.1 := by
  obtain ⟨e, he, hprefix⟩ := (h.find?_iff path hpath).1 (by simp [hfind])
  refine ⟨e, he, hprefix.subset ?_⟩
  obtain ⟨outer, name, rfl⟩ := (List.eq_nil_or_concat path).resolve_left hpath
  rw [List.concat_eq_append] at hfind ⊢
  rw [ClassNode.name_of_find? hfind]
  simp

/-! ## Lines of a module -/

/-- The class lines among some lines. -/
def readLines (ls : List Line) : List ClassLine := ls.filterMap fun l => ClassLine.read? l.shown

@[simp] theorem readLines_append (a b : List Line) : readLines (a ++ b) = readLines a ++ readLines b :=
  List.filterMap_append

theorem readLines_plain {ls : List Line} (h : ∀ l ∈ ls, Plain l.text) (depth : Nat) :
    readLines (ls.map (Line.indent depth)) = [] := by
  rw [readLines, List.filterMap_map, List.filterMap_eq_nil_iff]
  intro l hl
  exact Line.read?_shown_plain (l := l.indent depth) (h l hl)

/-- A source text is read line by line. -/
theorem classLines_text {ls : List Line} (h : ∀ l ∈ ls, OneLine l.text) :
    classLines (Source.text ls) = readLines ls := by
  have hlast : ClassLine.read? "" = none := by decide
  rw [classLines, Source.splitOn_text h, List.filterMap_append, List.filterMap_map]
  simp [hlast, readLines]

/-- A class opens with its comment and its line. -/
theorem ClassNode.exists_opening_eq (n : ClassNode TypeDecl) : ∃ comment, n.opening =
    commentLines comment ++ [⟨0, "class " ++ n.name ++ (ClassKind.of n.decl).ending⟩] := by
  unfold opening
  split
  · rename_i m hdecl
    exact ⟨m.comment, by rw [hdecl, ClassKind.of, ClassKind.ending]⟩
  · rename_i e hdecl
    exact ⟨e.comment, by rw [hdecl, ClassKind.of, ClassKind.ending]⟩
  · rename_i hdecl
    exact ⟨none, by rw [hdecl, ClassKind.of, ClassKind.ending]; rfl⟩

/-- A class is opened by its line and nothing else. -/
theorem ClassNode.readLines_opening {n : ClassNode TypeDecl} (h : IsIdentifier n.name) (depth : Nat) :
    (∀ l ∈ n.opening, OneLine l.text) ∧
      readLines (n.opening.map (Line.indent depth)) = [n.classLine depth] := by
  obtain ⟨comment, hopening⟩ := n.exists_opening_eq
  have hcomment := plain_commentLines comment
  rw [hopening]
  constructor
  · simp only [List.forall_mem_append, List.forall_mem_singleton]
    refine ⟨fun l hl => (hcomment l hl).oneLine, ?_⟩
    simp only [OneLine.append_iff]
    refine ⟨⟨by decide, h.oneLine⟩, ?_⟩
    cases ClassKind.of n.decl <;> decide
  · have hline := Line.read?_shown_class h (ClassKind.of n.decl) depth
    rw [List.map_append, readLines_append, readLines_plain hcomment]
    simp only [List.map_cons, List.map_nil, Line.indent, Nat.add_zero, readLines,
      List.filterMap_cons, hline]
    rfl

namespace ModuleText

/-- The lines that a block adds to a module. -/
def added (opened : Bool) : ClassEvent TypeDecl × List Line → List Line
  | (.header _ depth, block) => (separation opened depth ++ block).map (Line.indent depth)
  | (.body _ depth, block) => block.map (Line.indent (depth + 1))

theorem lines_write (m : ModuleText) (p : ClassEvent TypeDecl × List Line) :
    (m.write p).writer.lines.toList = m.writer.lines.toList ++ added m.opened p := by
  obtain ⟨e, block⟩ := p
  cases e with
  | header n depth => simp [write, added, Source.Writer.atDepth, Source.Writer.put]
  | body n depth => simp [write, added, Source.Writer.atDepth, Source.Writer.put]

theorem plain_separation (opened : Bool) (depth : Nat) :
    ∀ l ∈ separation opened depth, Plain l.text := by
  unfold separation
  split
  · decide
  · split <;> decide

/-- What is written for an event: the class line of a class that is opened, besides lines that open
none. -/
theorem readLines_added {c : ModuleContext} {p : ClassEvent TypeDecl × List Line}
    (hblock : p.1.block c = .ok p.2) (hname : IsIdentifier p.1.node.name)
    (hclosing : ∀ block, p.1.node.closing c = .ok block → ∀ l ∈ block, Plain l.text) (opened : Bool) :
    (∀ l ∈ added opened p, OneLine l.text) ∧ readLines (added opened p) = p.1.classLine?.toList := by
  obtain ⟨e, block⟩ := p
  cases e with
  | header n depth =>
    cases hblock
    obtain ⟨honeLine, hread⟩ := ClassNode.readLines_opening hname depth
    have hplain := plain_separation opened depth
    constructor
    · simp only [added, List.forall_mem_map, List.forall_mem_append]
      exact ⟨fun l hl => (hplain l hl).oneLine, honeLine⟩
    · rw [added, List.map_append, readLines_append, readLines_plain hplain, List.nil_append]
      exact hread
  | body n depth =>
    have hplain := hclosing block hblock
    constructor
    · simp only [added, List.forall_mem_map]
      exact fun l hl => (hplain l hl).oneLine
    · exact readLines_plain hplain (depth + 1)

/-- **The class lines of a written module** are those of its events, behind those that were there. -/
theorem readLines_foldl {c : ModuleContext} {blocks : List (ClassEvent TypeDecl × List Line)}
    (hblocks : ∀ p ∈ blocks, p.1.block c = .ok p.2 ∧ IsIdentifier p.1.node.name ∧
      ∀ block, p.1.node.closing c = .ok block → ∀ l ∈ block, Plain l.text)
    {m : ModuleText} (hm : ∀ l ∈ m.writer.lines.toList, OneLine l.text) :
    (∀ l ∈ (blocks.foldl write m).writer.lines.toList, OneLine l.text) ∧
      readLines (blocks.foldl write m).writer.lines.toList =
        readLines m.writer.lines.toList ++ (blocks.map (·.1)).filterMap (·.classLine?) := by
  induction blocks generalizing m with
  | nil => simpa using hm
  | cons p blocks ih =>
    obtain ⟨hblock, hname, hclosing⟩ := hblocks p (List.mem_cons_self ..)
    obtain ⟨honeLine, hread⟩ := readLines_added hblock hname hclosing m.opened
    have hstep : ∀ l ∈ (m.write p).writer.lines.toList, OneLine l.text := by
      rw [lines_write, List.forall_mem_append]
      exact ⟨hm, honeLine⟩
    obtain ⟨hrest, hlines⟩ := ih (fun q hq => hblocks q (List.mem_cons_of_mem _ hq)) hstep
    refine ⟨hrest, ?_⟩
    rw [List.foldl_cons, hlines, lines_write, readLines_append, hread, List.map_cons,
      List.filterMap_cons, List.append_assoc]
    cases p.1.classLine? <;> rfl

/-- A module starts with its head. -/
theorem lines_head (settings : Settings) :
    (head settings).writer.lines.toList = settings.moduleHead.map (Line.indent 0) := by
  simp [head]

/-- The lines of a tree's module, and its class lines. -/
theorem readLines_ofTree {c : ModuleContext} {t : ClassTree TypeDecl} {text : ModuleText}
    (htext : ofTree c t = .ok text) (hsettings : c.settings.Readable)
    (hevents : ∀ e ∈ t.events, IsIdentifier e.node.name ∧
      ∀ block, e.node.closing c = .ok block → ∀ l ∈ block, Plain l.text) :
    (∀ l ∈ text.writer.lines.toList, OneLine l.text) ∧
      readLines text.writer.lines.toList = t.events.filterMap (·.classLine?) := by
  obtain ⟨blocks, hblocks, hfound, rfl⟩ := exists_blocks_of_ofTree htext
  have hplain := Settings.plain_moduleHead hsettings
  have hread := readLines_foldl (m := head c.settings)
    (fun p (hp : p ∈ blocks) => ⟨hfound p hp, hevents p.1 (hblocks ▸ List.mem_map_of_mem hp)⟩)
    (by rw [lines_head, List.forall_mem_map]; exact fun l hl => (hplain l hl).oneLine)
  refine ⟨hread.1, ?_⟩
  rw [hread.2, lines_head, readLines_plain hplain, hblocks]
  rfl

/-- The class lines in the source of a tree's module are those of the classes that are opened. -/
theorem classLines_source {c : ModuleContext} {t : ClassTree TypeDecl} {text : ModuleText}
    (htext : ofTree c t = .ok text) (hsettings : c.settings.Readable)
    (hevents : ∀ e ∈ t.events, IsIdentifier e.node.name ∧
      ∀ block, e.node.closing c = .ok block → ∀ l ∈ block, Plain l.text) :
    classLines text.source = t.events.filterMap (·.classLine?) := by
  obtain ⟨honeLine, hread⟩ := readLines_ofTree htext hsettings hevents
  rw [source, Source.Writer.text, classLines_text honeLine, hread]

end ModuleText

/-! ## Modules of packages -/

namespace Schema

variable {files : List Descriptor.File} {rules : RuleIndex} {s : Schema} {roots : List File}
  {settings : Settings} {package : String}

/-- The classes in the tree of a package have identifiers for names and plain lines behind their inner
classes. -/
theorem plain_of_mem_events (h : build files rules = .ok s) (hs : s.Readable)
    (hsettings : settings.Readable) (hroots : ∀ f ∈ roots, f ∈ s.files) {tree : ClassTree TypeDecl}
    (hholds : tree.Holds ((ClassNames.ofPackage s package).entries (s.collect roots)))
    {e : ClassEvent TypeDecl} (he : e ∈ tree.events) : IsIdentifier e.node.name ∧
      ∀ block, e.node.closing ⟨s, .ofPackage s package, settings⟩ = .ok block →
        ∀ l ∈ block, Plain l.text := by
  have hnames := fun t ht => ClassNames.isIdentifier_of_mem_resolve h hs package (t := t) ht
  have htypes := fun t ht => mem_types_of_mem_collect (t := t) hroots ht
  obtain ⟨path, n, hpath, hfind, he⟩ := hholds.mem_events_iff.1 he
  obtain rfl : e.node = n := by rcases he with rfl | rfl <;> rfl
  constructor
  · obtain ⟨⟨entry, t⟩, hentry, hname⟩ := hholds.exists_entry_of_find? hpath hfind
    obtain ⟨ht, rfl⟩ := ClassNames.mem_entries.1 hentry
    exact hnames t (htypes t ht) _ hname
  · intro block hblock
    refine ClassNode.plain_closing hs hsettings (fun t ht segment hsegment =>
      (hnames t ht segment hsegment).oneLine) (fun t ht => ?_) hblock
    have hentry := (hholds.declAt_iff path t).1 (Option.bind_eq_some_iff.2 ⟨e.node, hfind, ht⟩)
    exact htypes t (ClassNames.mem_entries.1 hentry).1

end Schema

/-- **A module shows its class tree.** Where all names are identifiers, and factories and settings are
on one line, the class lines of a package's module, nested by their indentation, are the outline of the
package's class tree: the names, what is nested in what and in which order, and which classes are
messages, enums and mere scopes. In it no two classes have one path, and every collected type has its
class at its class path. -/
theorem module_shows_tree {files : List Descriptor.File} {rules : RuleIndex} {s : Schema}
    (h : Schema.build files rules = .ok s) (hs : s.Readable) {settings : Settings}
    (hsettings : settings.Readable) {roots : List File} (hroots : ∀ f ∈ roots, f ∈ s.files)
    {package source : String} (hsource : s.packageModule settings package roots = .ok source) :
    ∃ tree, s.packageTree package roots = .ok tree ∧
      readOutline source = tree.outline ∧
      ((ClassOutline.classesOfList (readOutline source)).map (·.1)).Nodup ∧
      ∀ t ∈ s.collect roots, (((ClassNames.ofPackage s package).resolve t).segments, .of (some t)) ∈
        ClassOutline.classesOfList (readOutline source) := by
  obtain ⟨tree, htree, hholds⟩ := Schema.packageTree_holds h hroots package
  rw [Schema.packageModule_eq htree] at hsource
  obtain ⟨text, htext, rfl⟩ := map_eq_ok_iff.1 hsource
  have hread : readOutline text.source = tree.outline := by
    rw [readOutline, ModuleText.classLines_source htext hsettings fun e he =>
      Schema.plain_of_mem_events h hs hsettings hroots hholds he]
    exact hholds.nest_classLines
  refine ⟨tree, htree, hread, ?_, fun t ht => ?_⟩
  · rw [hread]
    exact hholds.paths_nodup
  · rw [hread]
    exact hholds.mem_classes (ClassNames.segments_resolve_ne_nil _ t)
      (ClassNames.mem_entries.2 ⟨ht, rfl⟩)

theorem module_shows_tree_orders :
    let s := Schema.ofDescriptors orderFiles {}
    let roots := s.files.take 1
    Schema.build orderFiles {} = .ok s ∧ s.Readable ∧ Settings.initial.Readable ∧
    (∀ f ∈ roots, f ∈ s.files) ∧
    ∃ source, s.packageModule .initial "shop" roots = .ok source ∧
      ClassOutline.classesOfList (readOutline source) =
        [(["Order"], .message), (["Order", "Status"], .enum), (["Order", "Line"], .message),
          (["money"], .scope), (["money", "Amount"], .message)] := by
  intro s roots
  have hs : s.Readable := ⟨by decide +kernel, by decide +kernel, by decide +kernel, by decide +kernel⟩
  have hsettings : Settings.initial.Readable := ⟨by decide, by decide⟩
  obtain ⟨source, hsource⟩ := Schema.exists_packageModule_of_supported build_orderFiles
    roots_orderFiles (by decide +kernel) .initial "shop"
  obtain ⟨tree, htree, hread, -⟩ :=
    module_shows_tree build_orderFiles hs hsettings roots_orderFiles hsource
  refine ⟨build_orderFiles, hs, hsettings, roots_orderFiles, source, hsource, ?_⟩
  have hclasses : (s.packageTree "shop" roots).map (ClassOutline.classesOfList ·.outline) =
      .ok [(["Order"], .message), (["Order", "Status"], .enum), (["Order", "Line"], .message),
        (["money"], .scope), (["money", "Amount"], .message)] := by
    rw [Schema.packageTree, collect_orderFiles]
    decide +kernel
  rw [htree] at hclasses
  rw [hread]
  exact Except.ok.inj hclasses

end ProtoModels
