import ProtoModels.ModuleText
import ProtoModels.Proofs.ClassPaths
import ProtoModels.Proofs.Schema.Declarations
import ProtoModels.Proofs.Source.Reading
import ProtoModels.Proofs.Traversals
/-!
# Literals and annotations on one line

Whatever a field's rules hold, what is written of them stays on its line: line feeds in texts are
escaped, numbers have none, and types are made of names. The one text that is written as it stands is
the name of a default factory.
-/
namespace ProtoModels

namespace OneLine

theorem toString_nat (n : Nat) : OneLine (toString n) := by
  intro h
  rw [Nat.toString_eq_repr, Nat.toList_repr] at h
  exact absurd (Nat.isDigit_of_mem_toDigits (by decide) (by decide) h) (by decide)

theorem toString_int (z : Int) : OneLine (toString z) := by
  rw [Int.toString_eq_repr, Int.repr_eq_if]
  split
  · exact toString_nat _
  · exact append_iff.2 ⟨by decide, toString_nat _⟩

end OneLine

/-! ## Literals -/

namespace Literal

theorem oneLine_zeros (n : Nat) : OneLine (zeros n) := by
  simp [zeros]

theorem oneLine_positional {digits : String} (h : OneLine digits) (exponent : Int) :
    OneLine (positional digits exponent) := by
  have hpadded : ∀ n, '\n' ∉ (zeros n ++ digits).toList := fun n =>
    OneLine.append_iff.2 ⟨oneLine_zeros n, h⟩
  unfold positional
  split
  · simp only [OneLine.append_iff]
    exact ⟨⟨h, oneLine_zeros _⟩, by decide⟩
  · simp only [OneLine.append_iff, OneLine.ofList_iff]
    refine ⟨⟨fun hmem => ?_, by decide⟩, fun hmem => ?_⟩
    · exact hpadded _ (List.mem_of_mem_take hmem)
    · exact hpadded _ (List.mem_of_mem_drop hmem)

theorem oneLine_scientific {digits : String} (h : OneLine digits) (magnitude : Int) :
    OneLine (scientific digits magnitude) := by
  unfold scientific
  simp only [OneLine.append_iff]
  refine ⟨⟨?_, by decide⟩, OneLine.toString_int magnitude⟩
  split <;> rename_i hdigits
  · decide
  · simpa [OneLine, hdigits] using h
  · simpa [OneLine, hdigits] using h

theorem oneLine_decimalText (layout : FloatLayout) (d : Decimal) : OneLine (decimalText layout d) := by
  unfold decimalText
  dsimp only
  split
  · exact oneLine_positional (OneLine.toString_nat _) _
  · exact oneLine_scientific (OneLine.toString_nat _) _

theorem oneLine_floatText (x : Binary64) : OneLine (floatText x) := by
  unfold floatText
  split
  · decide
  · decide
  · decide
  · have hmagnitude : ∀ m : Nat, ∀ d : Decimal,
        OneLine (if m = 0 then "0.0" else decimalText floatLayout d) := fun m d => by
      split
      · decide
      · exact oneLine_decimalText floatLayout d
    dsimp only
    split
    · exact OneLine.append_iff.2 ⟨by decide, hmagnitude _ _⟩
    · exact hmagnitude _ _

/-- Control characters are escaped, and no escape holds one. -/
theorem isControl_of_mem_escapeChar {c d : Char} (h : d ∈ escapeChar c) : isControl d = false := by
  have hdigit : ∀ n < 16, isControl (hexDigit n) = false := by decide
  have hpair : ∀ mark, isControl mark = false → ∀ d ∈ ['\\', mark], isControl d = false := by
    intro mark hmark
    rw [List.forall_mem_cons, List.forall_mem_singleton]
    exact ⟨by decide, hmark⟩
  unfold escapeChar at h
  split at h
  · exact hpair '\\' (by decide) d h
  split at h
  · exact hpair '"' (by decide) d h
  split at h
  · exact hpair 'n' (by decide) d h
  split at h
  · exact hpair 'r' (by decide) d h
  split at h
  · exact hpair 't' (by decide) d h
  split at h
  · rename_i hcontrol
    have hc : c.toNat < 256 := by
      simp [isControl] at hcontrol
      omega
    simp only [List.mem_cons, List.not_mem_nil, or_false] at h
    rcases h with rfl | rfl | rfl | rfl
    · decide
    · decide
    · exact hdigit _ (by omega)
    · exact hdigit _ (by omega)
  · rename_i hcontrol
    obtain rfl := List.mem_singleton.1 h
    simpa using hcontrol

theorem isControl_of_mem_escape {cs : List Char} {d : Char} (h : d ∈ escape cs) :
    isControl d = false := by
  obtain ⟨c, _, hd⟩ := List.mem_flatMap.1 h
  exact isControl_of_mem_escapeChar hd

theorem oneLine_text (l : Literal) : OneLine l.text := by
  cases l with
  | int v => exact OneLine.toString_int _
  | uint v => exact OneLine.toString_nat _
  | float v => exact oneLine_floatText v
  | str v =>
    have hescape : '\n' ∉ escape v.toList := fun hmem =>
      absurd (isControl_of_mem_escape hmem) (by decide)
    simp [text, quoted, hescape, OneLine]

end Literal
/-! ## Types -/

/-- No name in a type holds a line feed. -/
def FieldType.NamesOneLine : FieldType → Prop
  | scalar _ => True
  | declared path => ∀ segment ∈ path.segments, OneLine segment
  | standard type => OneLine type.python
  | list items => items.NamesOneLine
  | map values => values.NamesOneLine

theorem FieldType.oneLine_expression {type : FieldType} (h : type.NamesOneLine) (uuid : Bool) :
    OneLine (type.expression uuid) := by
  induction type with
  | scalar scalar => cases uuid <;> cases scalar <;> decide
  | declared path =>
    have hdotted : OneLine path.dotted := OneLine.intercalate (by decide) h
    have huuid : OneLine "UUID" := by decide
    cases uuid <;> assumption
  | standard type =>
    have huuid : OneLine "UUID" := by decide
    cases uuid <;> assumption
  | list items ih =>
    simp only [expression, OneLine.append_iff]
    exact ⟨⟨by decide, ih h⟩, by decide⟩
  | map values ih =>
    simp only [expression, OneLine.append_iff]
    exact ⟨⟨by decide, ih h⟩, by decide⟩

theorem StandardType.oneLine_python {name : String} {t : StandardType} (h : find? name = some t) :
    OneLine t.python := by
  have htable : ∀ t ∈ table, OneLine t.python := by decide
  exact htable t (List.mem_of_find?_eq_some h)

/-- The type of a field is made of the names of types. -/
theorem Schema.namesOneLine_fieldType {s : Schema} {names : ClassNames} {f : Field} {type : FieldType}
    (h : s.fieldType names f = .ok type)
    (hnames : ∀ t ∈ s.types, ∀ segment ∈ (names.resolve t).segments, OneLine segment) :
    type.NamesOneLine := by
  have named : ∀ t ∈ s.types, (namedType names t).NamesOneLine := by
    intro t ht
    unfold namedType
    split
    · exact StandardType.oneLine_python ‹_›
    · exact hnames t ht
  have singular : ∀ f type, s.singularType names f = .ok type → type.NamesOneLine := by
    intro f type hf
    unfold singularType at hf
    split at hf
    · split at hf <;> cases hf
      exact named _ (mem_types_of_target? ‹_›)
    · split at hf <;> cases hf
      exact named _ (mem_types_of_target? ‹_›)
    · split at hf <;> cases hf
      exact trivial
  unfold fieldType at h
  split at h
  · obtain ⟨values, hvalues, rfl⟩ := map_eq_ok_iff.1 h
    have hone := singular _ _ hvalues
    exact hone
  · obtain ⟨item, hitem, rfl⟩ := map_eq_ok_iff.1 h
    have hone := singular _ _ hitem
    split <;> exact hone

/-! ## Arguments -/

theorem oneLine_commaSeparated {items : List String} (h : ∀ item ∈ items, OneLine item) :
    OneLine (commaSeparated items) :=
  OneLine.intercalate (by decide) h

theorem oneLine_keywordArgument {keyword value : String} (hkeyword : OneLine keyword)
    (hvalue : OneLine value) : OneLine (keywordArgument keyword value) := by
  simp only [keywordArgument, OneLine.append_iff]
  exact ⟨⟨hkeyword, by decide⟩, hvalue⟩

/-- What is written of a default stays on its line, if its factory does. -/
theorem FieldDefault.oneLine_directive {d : FieldDefault}
    (hfactory : ∀ name, d = .factory name → OneLine name)
    (hinstance : ∀ type, d = .emptyInstance type → OneLine type) : OneLine d.directive := by
  cases d with
  | value literal => exact oneLine_keywordArgument (by decide) literal.oneLine_text
  | absent => decide
  | emptyList => decide
  | emptyDict => decide
  | factory name => exact oneLine_keywordArgument (by decide) (hfactory name rfl)
  | emptyInstance type =>
    refine oneLine_keywordArgument (by decide) ?_
    simp only [OneLine.append_iff]
    exact ⟨⟨by decide, hinstance type rfl⟩, by decide⟩

theorem oneLine_bound {α : Type} {literal : α → Literal} {keyword : String} (hkeyword : OneLine keyword)
    {value : Option α} : ∀ c ∈ bound literal keyword value, OneLine c.directive := by
  intro c hc
  obtain ⟨v, _, rfl⟩ : ∃ v, value = some v ∧ ⟨keyword, literal v⟩ = c := by simpa [bound] using hc
  exact oneLine_keywordArgument hkeyword (literal v).oneLine_text

theorem NumberRules.oneLine_constraints {α : Type} {literal : α → Literal} (r : NumberRules α) :
    ∀ c ∈ r.constraints literal, OneLine c.directive := by
  intro c hc
  simp only [constraints, List.mem_append] at hc
  rcases hc with ((hc | hc) | hc) | hc
  · exact oneLine_bound (by decide) c hc
  · exact oneLine_bound (by decide) c hc
  · exact oneLine_bound (by decide) c hc
  · exact oneLine_bound (by decide) c hc

theorem LengthRules.oneLine_constraints {r : LengthRules} {constraints : List Constraint}
    (h : r.constraints = .ok constraints) : ∀ c ∈ constraints, OneLine c.directive := by
  have hbounds : ∀ least greatest : Option UInt64, ∀ c ∈ bound .uint "min_length" least ++
      bound .uint "max_length" greatest, OneLine c.directive := by
    intro least greatest c hc
    rcases List.mem_append.1 hc with hc | hc
    · exact oneLine_bound (by decide) c hc
    · exact oneLine_bound (by decide) c hc
  unfold LengthRules.constraints at h
  split at h
  · split at h <;> cases h
    exact hbounds _ _
  · cases h
    exact hbounds _ _

theorem MessageRules.oneLine_default {r : MessageRules} {type : FieldType} {default : FieldDefault}
    (h : r.default type = .ok (some default)) (htype : type.NamesOneLine)
    (hfactory : ∀ name, r.defaultFactory = some name → OneLine name) : OneLine default.directive := by
  unfold MessageRules.default at h
  split at h <;> cases h
  · refine FieldDefault.oneLine_directive (fun name hname => ?_) fun _ h => by cases h
    cases hname
    exact hfactory _ ‹_›
  · refine FieldDefault.oneLine_directive (fun _ h => by cases h) fun _ h => ?_
    cases h
    exact type.oneLine_expression htype false

/-- Rules ask for nothing that takes more than a line. -/
theorem FieldRules.oneLine_spec {r : FieldRules} {type : FieldType} {spec : FieldSpec}
    (h : r.spec type = .ok spec) (htype : type.NamesOneLine)
    (hfactory : ∀ m name, r = .message m → m.defaultFactory = some name → OneLine name) :
    (∀ d ∈ spec.default, OneLine d.directive) ∧ ∀ c ∈ spec.constraints, OneLine c.directive := by
  have hvalue : ∀ {α : Type} (literal : α → Literal) (value : Option α),
      ∀ d ∈ value.map (FieldDefault.value <| literal ·), OneLine d.directive := by
    intro α literal value d hd
    obtain ⟨v, _, rfl⟩ := Option.map_eq_some_iff.1 hd
    exact FieldDefault.oneLine_directive (fun _ h => by cases h) fun _ h => by cases h
  have hnone : ∀ d ∈ (none : Option FieldDefault), OneLine d.directive := by simp
  have hnil : ∀ c ∈ ([] : List Constraint), OneLine c.directive := by simp
  cases r with
  | unset =>
    cases h
    exact ⟨hnone, hnil⟩
  | float r =>
    cases h
    exact ⟨hvalue _ _, r.oneLine_constraints⟩
  | int r =>
    cases h
    exact ⟨hvalue _ _, r.oneLine_constraints⟩
  | string r =>
    obtain ⟨constraints, hlengths, rfl⟩ := map_eq_ok_iff.1 h
    exact ⟨hvalue _ _, LengthRules.oneLine_constraints hlengths⟩
  | message r =>
    obtain ⟨default, hdefault, rfl⟩ := map_eq_ok_iff.1 h
    refine ⟨fun d hd => ?_, hnil⟩
    obtain rfl : default = some d := hd
    exact MessageRules.oneLine_default hdefault htype fun name => hfactory r name rfl
  | «repeated» lengths =>
    obtain ⟨constraints, hlengths, rfl⟩ := map_eq_ok_iff.1 h
    exact ⟨hnone, LengthRules.oneLine_constraints hlengths⟩
  | repeatedOf lengths items =>
    obtain ⟨constraints, hlengths, rfl⟩ := map_eq_ok_iff.1 h
    exact ⟨hnone, LengthRules.oneLine_constraints hlengths⟩

theorem Field.oneLine_impliedDefault {f : Field} {type : FieldType} :
    ∀ d ∈ f.impliedDefault type, OneLine d.directive := by
  intro d hd
  unfold impliedDefault at hd
  split at hd
  · cases hd
    decide
  · split at hd
    · cases hd
      decide
    · split at hd <;> cases hd
      decide

/-- Nothing in the specification of a field takes more than a line. -/
theorem Field.oneLine_spec {f : Field} {type : FieldType} {spec : FieldSpec}
    (h : f.spec type = .ok spec) (htype : type.NamesOneLine)
    (hfactory : ∀ m name, f.rules = some (.message m) → m.defaultFactory = some name → OneLine name) :
    ∀ d ∈ spec.directives, OneLine d := by
  unfold Field.spec at h
  split at h
  · rename_i found hfound
    cases h
    obtain ⟨hdefault, hconstraints⟩ := FieldRules.oneLine_spec hfound htype fun m name hm => by
      cases hrules : f.rules with
      | none => rw [hrules] at hm; cases hm
      | some r =>
        rw [hrules, Option.getD_some] at hm
        exact hfactory m name (by rw [hrules, hm])
    intro d hd
    simp only [FieldSpec.directives, List.mem_append, Option.mem_toList, Option.map_eq_some_iff,
      List.mem_map, Option.or_eq_some_iff] at hd
    rcases hd with ⟨default, hd | ⟨_, hd⟩, rfl⟩ | ⟨c, hc, rfl⟩
    · exact hdefault default hd
    · exact oneLine_impliedDefault default hd
    · exact hconstraints c hc
  · cases h

/-- The line of a field is one line. -/
theorem oneLine_fieldLine {name : String} (h : OneLine name) {type : FieldType}
    (htype : type.NamesOneLine) {spec : FieldSpec} (hspec : ∀ d ∈ spec.directives, OneLine d) :
    OneLine (fieldLine name type spec).text := by
  have hexpression := type.oneLine_expression htype spec.uuid
  have hdeclared : OneLine (if spec.isNullable then "Optional[" ++ type.expression spec.uuid ++ "]"
      else type.expression spec.uuid) := by
    split
    · simp only [OneLine.append_iff]
      exact ⟨⟨by decide, hexpression⟩, by decide⟩
    · exact hexpression
  simp only [fieldLine, OneLine.append_iff]
  exact ⟨⟨⟨⟨⟨h, by decide⟩, hdeclared⟩, by decide⟩, oneLine_commaSeparated hspec⟩, by decide⟩

/-! ## Class paths -/

theorem oneLine_freeName {name : String} (h : OneLine name) (taken : List String) :
    OneLine (freeName taken name) := by
  intro hmem
  rcases mem_toList_freeName hmem with hmem | heq
  · exact h hmem
  · exact absurd heq (by decide)

theorem oneLine_scopeBase {package : String} (h : OneLine package) : OneLine (scopeBase package) := by
  intro hmem
  rcases mem_toList_scopeBase hmem with hroot | hmem
  · exact absurd hroot (by decide)
  · exact h hmem.1

/-- Class paths are made of names of types and packages. -/
theorem ClassNames.oneLine_of_mem_resolve {files : List Descriptor.File} {rules : RuleIndex} {s : Schema}
    (h : Schema.build files rules = .ok s) (htypes : ∀ t ∈ s.types, OneLine t.name)
    (hpackages : ∀ f ∈ s.files, OneLine f.package) (package : String) {t : TypeDecl} (ht : t ∈ s.types) :
    ∀ segment ∈ ((ofPackage s package).resolve t).segments, OneLine segment := by
  intro segment hsegment
  rw [segments_resolve, List.mem_append, Option.mem_toList] at hsegment
  rcases hsegment with hscope | hlocal
  · obtain ⟨taken, heq⟩ := exists_freeName_of_mem_allotScopes (mem_scopes_of_scope? hscope)
    obtain ⟨f, hf, hpackage⟩ := List.mem_map.1 (Schema.package_mem_of_mem_types h t ht)
    rw [show segment = freeName taken (scopeBase t.package) from heq]
    exact oneLine_freeName (oneLine_scopeBase (hpackage ▸ hpackages f hf)) taken
  · obtain ⟨u, hu, rfl⟩ := Schema.exists_name_of_mem_localPath h t ht segment hlocal
    exact htypes u hu

end ProtoModels
