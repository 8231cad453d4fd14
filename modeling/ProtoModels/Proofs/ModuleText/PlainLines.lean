import ProtoModels.Proofs.ModuleText.ClassLines
import ProtoModels.Proofs.ModuleText.OneLine
/-!
# Lines between class lines

Everything that a module consists of besides its class lines is plain: the head, the comments, the
members of enums, the fields of messages, serializers and validators. Names of fields and enum values
stand at the front of their lines, so this takes names that are identifiers.
-/
namespace ProtoModels

open Source (Line)

theorem IsIdentifier.oneLine {name : String} (h : IsIdentifier name) : OneLine name := fun hmem =>
  absurd (h.chars _ hmem) (by decide)

/-! ## Readable schemas -/

/-- The names that the body of a class holds: those of values, or those of fields and oneofs. -/
def TypeDecl.memberNames : TypeDecl → List String
  | .message m => m.fields.map (·.name) ++ m.oneofs
  | .enum e => e.values.map (·.name)

/-- The factory that a field's rules name. -/
def Field.factory? (f : Field) : Option String :=
  match f.rules with
  | some (.message r) => r.defaultFactory
  | _ => none

/-- All names are identifiers, and factories are on one line. -/
structure Schema.Readable (s : Schema) : Prop where
  types : ∀ t ∈ s.types, IsIdentifier t.name
  members : ∀ t ∈ s.types, ∀ name ∈ t.memberNames, IsIdentifier name
  packages : ∀ f ∈ s.files, ∀ segment ∈ Text.splitOn '.' f.package, segment ≠ "" → IsIdentifier segment
  factories : ∀ f ∈ s.allFields, ∀ name ∈ f.factory?, OneLine name

/-- Settings whose texts are on one line. -/
structure Settings.Readable (settings : Settings) : Prop where
  basePath : ∀ base ∈ settings.basePath, OneLine base
  serializeContext : OneLine settings.serializeContext

/-! ## Head and comments -/

theorem Settings.plain_moduleHead {settings : Settings} (h : settings.Readable) :
    ∀ l ∈ settings.moduleHead, Plain l.text := by
  have himport {front : String} (hfront : OneLine front) (hstart : startsPlain front = true) :
      Plain (front ++ pydanticHelpers) := by
    have hhelpers : OneLine pydanticHelpers := OneLine.ofList_iff.2 (by decide)
    exact .of_start (OneLine.append_iff.2 ⟨hfront, hhelpers⟩) (startsPlain_append hstart _)
  have himports : ∀ l ∈ settings.pydanticImports, Plain l.text := by
    unfold pydanticImports
    split
    · rename_i base hbase
      have honeLine : OneLine ("from " ++ base ++ " import BaseModel") := by
        simp only [OneLine.append_iff]
        exact ⟨⟨by decide, h.basePath base hbase⟩, by decide⟩
      have hfrom := startsPlain_append (a := "from ") (by decide) base
      have hstart := startsPlain_append hfrom " import BaseModel"
      simp only [List.forall_mem_cons]
      exact ⟨.of_start honeLine hstart, himport (by decide) (by decide), by simp⟩
    · rw [List.forall_mem_singleton]
      exact himport (by decide) (by decide)
  have hbanner : Plain banner := .ofList (by decide) (by decide)
  simp only [moduleHead, List.forall_mem_append, List.forall_mem_cons]
  refine ⟨⟨⟨hbanner, .ofList (by decide) (by decide), hbanner, by decide, .ofList (by decide) (by decide),
    by decide, .ofList (by decide) (by decide), .ofList (by decide) (by decide), by decide,
    .ofList (by decide) (by decide), by simp⟩, himports⟩, .ofList (by decide) (by decide),
    .ofList (by decide) (by decide), by simp⟩

theorem plain_ofComment (comment : String) : ∀ l ∈ Line.ofComment comment, Plain l.text := by
  intro l hl
  obtain ⟨line, hline, rfl⟩ := List.mem_map.1 hl
  have honeLine := Text.oneLine_trimEnd (Text.oneLine_of_mem_lines hline)
  unfold Line.ofCommentLine
  dsimp only
  split
  · decide
  · exact .of_start (OneLine.append_iff.2 ⟨by decide, honeLine⟩) (startsPlain_append (by decide) _)
  · exact .of_start (OneLine.append_iff.2 ⟨by decide, honeLine⟩) (startsPlain_append (by decide) _)

theorem plain_commentLines (comment : Option String) : ∀ l ∈ commentLines comment, Plain l.text := by
  cases comment with
  | none => simp [commentLines]
  | some comment =>
    rw [commentLines, Option.map_some, Option.getD_some]
    exact plain_ofComment comment

/-! ## Enums -/

theorem oneLine_inQuotes {name : String} (h : OneLine name) : OneLine (inQuotes name) := by
  simp only [inQuotes, OneLine.append_iff]
  exact ⟨⟨by decide, h⟩, by decide⟩

theorem Enum.plain_body {e : Enum} (h : ∀ v ∈ e.values, IsIdentifier v.name) :
    ∀ l ∈ e.body, Plain l.text := by
  unfold body
  split
  · decide
  · intro l hl
    obtain ⟨v, hv, hl⟩ := List.mem_flatMap.1 hl
    rcases List.mem_append.1 hl with hl | hl
    · exact plain_commentLines v.comment l hl
    · obtain rfl := List.mem_singleton.1 hl
      have honeLine : OneLine (v.name ++ " = " ++ inQuotes v.name) := by
        simp only [OneLine.append_iff]
        exact ⟨⟨(h v hv).oneLine, by decide⟩, oneLine_inQuotes (h v hv).oneLine⟩
      rw [String.append_assoc] at honeLine ⊢
      exact .of_name (h v hv) (by decide) honeLine

/-! ## Messages -/

/-- The line of a field. -/
theorem plain_fieldLine {name : String} (h : IsIdentifier name) {type : FieldType}
    (htype : type.NamesOneLine) {spec : FieldSpec} (hspec : ∀ d ∈ spec.directives, OneLine d) :
    Plain (fieldLine name type spec).text := by
  have honeLine := oneLine_fieldLine h.oneLine htype hspec
  simp only [fieldLine, String.append_assoc] at honeLine ⊢
  exact .of_name h (by decide) honeLine

theorem plain_serializerBlock {context : String} (hcontext : OneLine context) {names : List String}
    (hnames : ∀ name ∈ names, OneLine name) : ∀ l ∈ serializerBlock context names, Plain l.text := by
  cases names with
  | nil => simp [serializerBlock]
  | cons name names =>
    have hquoted : OneLine (commaSeparated ((name :: names).map inQuotes)) := by
      refine oneLine_commaSeparated fun item hitem => ?_
      obtain ⟨name', hname, rfl⟩ := List.mem_map.1 hitem
      exact oneLine_inQuotes (hnames name' hname)
    have hdecorator :
        Plain ("@field_serializer(" ++ commaSeparated ((name :: names).map inQuotes) ++ ")") := by
      refine .of_start ?_ (startsPlain_append (startsPlain_append (by decide) _) _)
      simp only [OneLine.append_iff]
      exact ⟨⟨by decide, hquoted⟩, by decide⟩
    have htest : Plain ("if info.context == '" ++ context ++ "':") := by
      refine .of_start ?_ (startsPlain_append (startsPlain_append (by decide) _) _)
      simp only [OneLine.append_iff]
      exact ⟨⟨by decide, hcontext⟩, by decide⟩
    simp only [serializerBlock, List.forall_mem_cons]
    exact ⟨by decide, hdecorator, .ofList (by decide) (by decide), htest, by decide, by decide, by simp⟩

theorem OneofGroup.plain_check {g : OneofGroup} (hname : OneLine g.name)
    (hmembers : ∀ member ∈ g.members, OneLine member) : ∀ l ∈ g.check, Plain l.text := by
  have hselves : OneLine (commaSeparated (g.members.map ("self." ++ ·))) := by
    refine oneLine_commaSeparated fun item hitem => ?_
    obtain ⟨member, hmember, rfl⟩ := List.mem_map.1 hitem
    exact OneLine.append_iff.2 ⟨by decide, hmembers member hmember⟩
  simp only [check, List.forall_mem_cons]
  refine ⟨?_, ?_, by simp⟩
  · refine .of_start ?_ (startsPlain_append (startsPlain_append (by decide) _) _)
    simp only [OneLine.append_iff]
    exact ⟨⟨by decide, hselves⟩, by decide⟩
  · refine .of_start ?_ (startsPlain_append (startsPlain_append (startsPlain_append (startsPlain_append
      (by decide) _) _) _) _)
    simp only [OneLine.append_iff]
    exact ⟨⟨⟨⟨by decide, hname⟩, by decide⟩, oneLine_commaSeparated hmembers⟩, by decide⟩

theorem plain_validatorBlock {groups : List OneofGroup}
    (h : ∀ g ∈ groups, OneLine g.name ∧ ∀ member ∈ g.members, OneLine member) :
    ∀ l ∈ validatorBlock groups, Plain l.text := by
  cases groups with
  | nil => simp [validatorBlock]
  | cons g groups =>
    simp only [validatorBlock, List.forall_mem_append]
    refine ⟨⟨by decide, fun l hl => ?_⟩, by decide⟩
    obtain ⟨g', hg', hl⟩ := List.mem_flatMap.1 hl
    exact g'.plain_check (h g' hg').1 (h g' hg').2 l hl

/-! ## Bodies of classes -/

theorem Schema.Readable.isIdentifier_field {s : Schema} (h : s.Readable) {f : Field}
    (hf : f ∈ s.allFields) : IsIdentifier f.name := by
  obtain ⟨m, hm, hf⟩ := mem_allFields_iff.1 hf
  exact h.members _ hm _ (List.mem_append_left _ (List.mem_map_of_mem hf))

namespace ModuleContext

variable {s : Schema} {names : ClassNames} {settings : Settings}

theorem plain_fieldBlock (hs : s.Readable)
    (hnames : ∀ t ∈ s.types, ∀ segment ∈ (names.resolve t).segments, OneLine segment) {f : Field}
    (hf : f ∈ s.allFields) {block : List Line} (h : fieldBlock ⟨s, names, settings⟩ f = .ok block) :
    ∀ l ∈ block, Plain l.text := by
  obtain ⟨⟨type, spec⟩, hfound, rfl⟩ := map_eq_ok_iff.1 h
  obtain ⟨type', htype, hfound⟩ := bind_eq_ok_iff.1 hfound
  obtain ⟨spec', hspec, hfound⟩ := bind_eq_ok_iff.1 hfound
  cases hfound
  have hone := Schema.namesOneLine_fieldType htype hnames
  have hdirectives := f.oneLine_spec hspec hone fun m name hm hname =>
    hs.factories f hf name (by simp [Field.factory?, hm, hname])
  simp only [List.forall_mem_append, List.forall_mem_singleton]
  exact ⟨plain_commentLines f.comment, plain_fieldLine (hs.isIdentifier_field hf) hone hdirectives⟩

theorem plain_messageBody (hs : s.Readable) (hsettings : settings.Readable)
    (hnames : ∀ t ∈ s.types, ∀ segment ∈ (names.resolve t).segments, OneLine segment) {m : Message}
    (hm : .message m ∈ s.types) {nested : Bool} {block : List Line}
    (h : messageBody ⟨s, names, settings⟩ m nested = .ok block) : ∀ l ∈ block, Plain l.text := by
  have hfields : ∀ f ∈ m.fields, f ∈ s.allFields := fun f hf =>
    Schema.mem_allFields_iff.2 ⟨m, hm, hf⟩
  have hmembers : ∀ f ∈ m.fields, OneLine f.name := fun f hf =>
    (hs.isIdentifier_field (hfields f hf)).oneLine
  unfold messageBody at h
  split at h
  · cases h
    cases nested <;> decide
  · obtain ⟨blocks, hblocks, rfl⟩ := map_eq_ok_iff.1 h
    simp only [List.forall_mem_append]
    refine ⟨⟨⟨?_, fun l hl => ?_⟩, ?_⟩, ?_⟩
    · cases nested <;> decide
    · obtain ⟨block, hblock, hl⟩ := List.mem_flatten.1 hl
      obtain ⟨f, hf, hfound⟩ := exists_mem_of_mapM hblocks block hblock
      exact plain_fieldBlock hs hnames (hfields f hf) hfound l hl
    · refine plain_serializerBlock hsettings.serializeContext fun name hname => ?_
      obtain ⟨f, hf, rfl⟩ := List.mem_map.1 hname
      exact hmembers f (List.mem_of_mem_filter hf)
    · refine plain_validatorBlock fun g hg => ?_
      obtain ⟨i, hi, rfl⟩ := List.mem_mapIdx.1 (List.mem_of_mem_filter hg)
      refine ⟨?_, fun member hmember => ?_⟩
      · exact (hs.members _ hm _ (List.mem_append_right _ (List.getElem_mem hi))).oneLine
      · obtain ⟨f, hf, rfl⟩ := List.mem_map.1 hmember
        exact hmembers f (List.mem_of_mem_filter hf)

end ModuleContext

/-- **What closes a class opens none.** -/
theorem ClassNode.plain_closing {s : Schema} {names : ClassNames} {settings : Settings}
    (hs : s.Readable) (hsettings : settings.Readable)
    (hnames : ∀ t ∈ s.types, ∀ segment ∈ (names.resolve t).segments, OneLine segment)
    {n : ClassNode TypeDecl} (hn : ∀ t ∈ n.decl, t ∈ s.types) {block : List Line}
    (h : n.closing ⟨s, names, settings⟩ = .ok block) : ∀ l ∈ block, Plain l.text := by
  unfold closing at h
  dsimp only at h
  split at h
  · exact ModuleContext.plain_messageBody hs hsettings hnames (hn _ ‹_›) h
  · rename_i e hdecl
    cases h
    exact e.plain_body fun v hv => hs.members _ (hn _ hdecl) _ (List.mem_map_of_mem hv)
  · cases h
    split <;> decide

end ProtoModels
