import ProtoModels.Proofs.Failures
import ProtoModels.Proofs.Literals.Values
/-!
# What is written for rules

The arguments of a `Field(...)` call, read off the rules and the declaration of a field: the default that
the rules give or that the declaration implies, then the attributes that are set (`Field.arguments`).
Exactly these are written, each with its value, and no keyword twice, unless the rules conflict
(`Field.spec_writes_arguments`).
-/
namespace ProtoModels

/-! ## Arguments -/

/-- What an argument passes: the value of a literal, or that of an expression which is no literal. -/
inductive ArgumentValue where
  | literal (value : PythonValue)
  | expression (text : String)
deriving DecidableEq

/-- A keyword argument of a call. -/
structure Argument where
  keyword : String
  value : ArgumentValue
deriving DecidableEq

/-- Whether a text evaluates to what an argument passes. -/
def ArgumentValue.IsWritten (text : String) : ArgumentValue → Prop
  | literal value => PythonValue.ofText? text = some value
  | expression e => text = e

/-- The keyword of an argument as it is written: what stands in front of the equals sign. -/
def keywordOf (directive : String) : String := (Text.cutAtFirst '=' directive).1

/-- Whether a text passes the argument: its keyword, an equals sign and its value. -/
def Argument.IsWritten (a : Argument) (directive : String) : Prop :=
  ∃ text, Text.cutAtFirst '=' directive = (a.keyword, some text) ∧ a.value.IsWritten text

theorem cutAtFirst_keywordArgument {keyword : String} (h : '=' ∉ keyword.toList) (value : String) :
    Text.cutAtFirst '=' (keywordArgument keyword value) = (keyword, some value) := by
  have hlist : (keywordArgument keyword value).toList = keyword.toList ++ '=' :: value.toList := by
    simp [keywordArgument, String.toList_append]
  have hkeyword : ∀ c ∈ keyword.toList, (c != '=') = true := by
    intro c hc
    rw [bne_iff_ne]
    rintro rfl
    exact h hc
  obtain ⟨htake, hdrop⟩ := takeWhile_dropWhile_first hkeyword (x := '=') (by decide) value.toList
  simp only [Text.cutAtFirst, hlist, htake, hdrop, String.ofList_toList]

theorem Argument.isWritten_of_literal {keyword : String} (h : '=' ∉ keyword.toList) (l : Literal) :
    (Argument.mk keyword (.literal l.value)).IsWritten (keywordArgument keyword l.text) :=
  ⟨l.text, cutAtFirst_keywordArgument h l.text, l.ofText?_text⟩

theorem Argument.isWritten_of_expression {keyword : String} (h : '=' ∉ keyword.toList) (e : String) :
    (Argument.mk keyword (.expression e)).IsWritten (keywordArgument keyword e) :=
  ⟨e, cutAtFirst_keywordArgument h e, rfl⟩

/-! ## Attributes -/

/-- The attributes that bound a field's values. -/
inductive Attribute where
  | lt
  | gt
  | ge
  | le
  | minLength
  | maxLength
deriving DecidableEq

namespace Attribute

/-- The attributes in the order in which they are written. -/
def all : List Attribute := [lt, gt, ge, le, minLength, maxLength]

def keyword : Attribute → String
  | lt => "lt"
  | gt => "gt"
  | ge => "ge"
  | le => "le"
  | minLength => "min_length"
  | maxLength => "max_length"

end Attribute

def NumberRules.attribute? {α : Type} (r : NumberRules α) : Attribute → Option α
  | .lt => r.lt
  | .gt => r.gt
  | .ge => r.gte
  | .le => r.lte
  | .minLength | .maxLength => none

/-- An exact length stands for both bounds. -/
def LengthRules.attribute? (r : LengthRules) : Attribute → Option UInt64
  | .minLength => r.len.or r.minLength
  | .maxLength => r.len.or r.maxLength
  | .lt | .gt | .ge | .le => none

/-- The value that rules set for an attribute. -/
def FieldRules.attribute? (a : Attribute) : FieldRules → Option Literal
  | unset | message _ => none
  | float r => (r.attribute? a).map .float
  | int r => (r.attribute? a).map .int
  | string r => (r.lengths.attribute? a).map .uint
  | repeated lengths | repeatedOf lengths _ => (lengths.attribute? a).map .uint

/-! ## Defaults -/

/-- The default that rules give themselves. -/
def FieldRules.defaultArgument? (type : FieldType) : FieldRules → Option Argument
  | unset | repeated _ | repeatedOf _ _ => none
  | float r => r.default.map fun v => ⟨"default", .literal (Literal.float v).value⟩
  | int r => r.default.map fun v => ⟨"default", .literal (Literal.int v).value⟩
  | string r => r.default.map fun s => ⟨"default", .literal (.text s)⟩
  | message ⟨some factory, _⟩ => some ⟨"default_factory", .expression factory⟩
  | message ⟨none, some true⟩ =>
    some ⟨"default_factory", .expression ("lambda: " ++ type.expression false ++ "()")⟩
  | message ⟨none, _⟩ => none

/-- The default that follows from how a field is declared. -/
def Field.impliedArgument? (f : Field) (type : FieldType) : Option Argument :=
  if f.optionalKeyword = true ∨ f.oneof.isSome = true then some ⟨"default", .expression "None"⟩
  else match type with
    | .list _ => some ⟨"default_factory", .expression "list"⟩
    | .map _ => some ⟨"default_factory", .expression "dict"⟩
    | _ => none

/-- The arguments of a field's call: at most one default, then the attributes that are set. -/
def Field.arguments (f : Field) (type : FieldType) : List Argument :=
  let rules := f.rules.getD .unset
  ((rules.defaultArgument? type).or (f.impliedArgument? type)).toList ++
    Attribute.all.filterMap fun a => (rules.attribute? a).map fun l => ⟨a.keyword, .literal l.value⟩

/-! ## Specifications -/

/-- What a default passes. -/
def FieldDefault.argument : FieldDefault → Argument
  | value l => ⟨"default", .literal l.value⟩
  | absent => ⟨"default", .expression "None"⟩
  | emptyList => ⟨"default_factory", .expression "list"⟩
  | emptyDict => ⟨"default_factory", .expression "dict"⟩
  | factory name => ⟨"default_factory", .expression name⟩
  | emptyInstance type => ⟨"default_factory", .expression ("lambda: " ++ type ++ "()")⟩

theorem FieldDefault.isWritten_directive (d : FieldDefault) : d.argument.IsWritten d.directive := by
  cases d with
  | value l => exact Argument.isWritten_of_literal (by decide) l
  | absent => exact Argument.isWritten_of_expression (by decide) "None"
  | emptyList => exact Argument.isWritten_of_expression (by decide) "list"
  | emptyDict => exact Argument.isWritten_of_expression (by decide) "dict"
  | factory name => exact Argument.isWritten_of_expression (by decide) name
  | emptyInstance type =>
    exact Argument.isWritten_of_expression (by decide) ("lambda: " ++ type ++ "()")

/-- The bounds that some attributes give, in their order. -/
def boundsOf (attribute? : Attribute → Option Literal) : List Constraint :=
  Attribute.all.filterMap fun a => (attribute? a).map fun l => ⟨a.keyword, l⟩

theorem NumberRules.constraints_eq {α : Type} (literal : α → Literal) (r : NumberRules α) :
    r.constraints literal = boundsOf fun a => (r.attribute? a).map literal := by
  obtain ⟨default, lt, lte, gt, gte⟩ := r
  cases lt <;> cases gt <;> cases gte <;> cases lte <;> rfl

theorem LengthRules.constraints_eq {r : LengthRules} {constraints : List Constraint}
    (h : r.constraints = .ok constraints) :
    constraints = boundsOf fun a => (r.attribute? a).map .uint := by
  obtain ⟨len, least, greatest⟩ := r
  cases len <;> cases least <;> cases greatest <;> cases h <;> rfl

/-- What rules give is their default and their attributes. -/
theorem FieldRules.arguments_of_spec {r : FieldRules} {type : FieldType} {spec : FieldSpec}
    (h : r.spec type = .ok spec) :
    spec.default.map FieldDefault.argument = r.defaultArgument? type ∧
      spec.constraints = boundsOf fun a => r.attribute? a := by
  cases r with
  | unset =>
    cases h
    exact ⟨rfl, rfl⟩
  | float r =>
    cases h
    exact ⟨Option.map_map .., r.constraints_eq .float⟩
  | int r =>
    cases h
    exact ⟨Option.map_map .., r.constraints_eq .int⟩
  | string r =>
    obtain ⟨constraints, hconstraints, rfl⟩ := map_eq_ok_iff.1 h
    exact ⟨Option.map_map .., LengthRules.constraints_eq hconstraints⟩
  | message r =>
    obtain ⟨default, hdefault, rfl⟩ := map_eq_ok_iff.1 h
    obtain ⟨factory, empty⟩ := r
    refine ⟨?_, rfl⟩
    cases factory <;> rcases empty with _ | _ | _ <;> cases hdefault <;> rfl
  | «repeated» lengths =>
    obtain ⟨constraints, hconstraints, rfl⟩ := map_eq_ok_iff.1 h
    exact ⟨rfl, LengthRules.constraints_eq hconstraints⟩
  | repeatedOf lengths items =>
    obtain ⟨constraints, hconstraints, rfl⟩ := map_eq_ok_iff.1 h
    exact ⟨rfl, LengthRules.constraints_eq hconstraints⟩

namespace Field

variable {f : Field} {type : FieldType} {spec : FieldSpec}

theorem impliedArgument?_eq (f : Field) (type : FieldType) :
    (f.impliedDefault type).map FieldDefault.argument = f.impliedArgument? type := by
  have hoptional : (f.optionalKeyword || f.inOneofGroup) = true ↔
      f.optionalKeyword = true ∨ f.oneof.isSome = true := by
    cases hkeyword : f.optionalKeyword <;> simp [inOneofGroup, hkeyword]
  simp only [impliedDefault, impliedArgument?, hoptional]
  split
  · rfl
  · cases type <;> rfl

/-- What a specification holds is what the rules and the declaration ask for. -/
theorem arguments_of_spec (h : f.spec type = .ok spec) :
    spec.default.map FieldDefault.argument = ((f.rules.getD .unset).defaultArgument? type).or
        (f.impliedArgument? type) ∧
      spec.constraints = boundsOf fun a => (f.rules.getD .unset).attribute? a := by
  unfold Field.spec at h
  split at h
  · rename_i given hgiven
    cases h
    obtain ⟨hdefault, hconstraints⟩ := FieldRules.arguments_of_spec hgiven
    rw [← hdefault, ← impliedArgument?_eq]
    exact ⟨Option.map_or .., hconstraints⟩
  · cases h

/-! ## What is written -/

theorem isWritten_of_mem_boundsOf {attribute? : Attribute → Option Literal} {c : Constraint}
    (h : c ∈ boundsOf attribute?) :
    (Argument.mk c.keyword (.literal c.value.value)).IsWritten c.directive := by
  obtain ⟨a, _, ha⟩ := List.mem_filterMap.1 h
  obtain ⟨l, _, rfl⟩ := Option.map_eq_some_iff.1 ha
  have hkeyword : '=' ∉ a.keyword.toList := by
    cases a <;> decide
  exact Argument.isWritten_of_literal hkeyword l

/-- Every argument is written, in its order. -/
theorem forall₂_directives (h : f.spec type = .ok spec) :
    List.Forall₂ Argument.IsWritten (f.arguments type) spec.directives := by
  obtain ⟨hdefault, hconstraints⟩ := arguments_of_spec h
  rw [arguments, ← hdefault, FieldSpec.directives, hconstraints]
  refine List.rel_append ?_ ?_
  · cases spec.default with
    | none => exact .nil
    | some d => exact .cons d.isWritten_directive .nil
  · have hbounds : (Attribute.all.filterMap fun a => ((f.rules.getD .unset).attribute? a).map fun l =>
        (⟨a.keyword, .literal l.value⟩ : Argument)) =
          (boundsOf fun a => (f.rules.getD .unset).attribute? a).map fun c =>
            ⟨c.keyword, .literal c.value.value⟩ := by
      rw [boundsOf, List.map_filterMap]
      simp only [Option.map_map, Function.comp_def]
    rw [hbounds, List.forall₂_map_left_iff, List.forall₂_map_right_iff, List.forall₂_same]
    exact fun c => isWritten_of_mem_boundsOf

/-- The keywords of the attributes that are set stand in the order of all attributes. -/
theorem sublist_keywords (as : List Attribute) (attribute? : Attribute → Option Literal) :
    ((as.filterMap fun a => (attribute? a).map fun l =>
      (⟨a.keyword, .literal l.value⟩ : Argument)).map (·.keyword)).Sublist (as.map (·.keyword)) := by
  induction as with
  | nil => exact .slnil
  | cons a as ih =>
    cases ha : attribute? a with
    | none => simpa [ha] using ih.cons a.keyword
    | some l => simpa [ha] using ih

/-- The keywords of a call: that of a default in front, if there is one, then those of attributes. -/
theorem exists_keywords_eq (h : f.spec type = .ok spec) : ∃ front behind,
    spec.directives.map keywordOf = front ++ behind ∧
      (front = [] ∨ front = ["default"] ∨ front = ["default_factory"]) ∧
      behind.Sublist (Attribute.all.map Attribute.keyword) := by
  have hkeywords : spec.directives.map keywordOf = (f.arguments type).map (·.keyword) :=
    map_eq_map_of_forall₂ (forall₂_directives h) fun a directive ⟨text, hcut, _⟩ => by
      rw [keywordOf, hcut]
  rw [hkeywords, arguments, ← (arguments_of_spec h).1, List.map_append]
  refine ⟨_, _, rfl, ?_, sublist_keywords Attribute.all _⟩
  rcases spec.default with _ | d
  · exact Or.inl rfl
  · cases d with
    | value | absent => exact Or.inr (Or.inl rfl)
    | emptyList | emptyDict | factory | emptyInstance => exact Or.inr (Or.inr rfl)

/-- No keyword is passed twice, and only the first one can be that of a default. -/
theorem keywords_of_spec (h : f.spec type = .ok spec) :
    (spec.directives.map keywordOf).Nodup ∧
      ∀ directive ∈ spec.directives.tail,
        keywordOf directive ≠ "default" ∧ keywordOf directive ≠ "default_factory" := by
  obtain ⟨front, behind, hkeywords, hfront, hbehind⟩ := exists_keywords_eq h
  have hattributes : ∀ keyword ∈ behind, keyword ≠ "default" ∧ keyword ≠ "default_factory" := by
    intro keyword hmem
    have hall : ∀ k ∈ Attribute.all.map Attribute.keyword, k ≠ "default" ∧ k ≠ "default_factory" := by
      decide
    exact hall keyword (hbehind.subset hmem)
  constructor
  · rw [hkeywords, List.nodup_append]
    refine ⟨?_, hbehind.nodup (by decide), ?_⟩
    · rcases hfront with rfl | rfl | rfl <;> decide
    · rintro a ha b hb rfl
      rcases hfront with rfl | rfl | rfl
      · cases ha
      · exact (hattributes a hb).1 (List.mem_singleton.1 ha)
      · exact (hattributes a hb).2 (List.mem_singleton.1 ha)
  · intro directive hmem
    have hmem : keywordOf directive ∈ (front ++ behind).tail := by
      rw [← hkeywords, ← List.map_tail]
      exact List.mem_map_of_mem hmem
    refine hattributes _ ?_
    rcases hfront with rfl | rfl | rfl
    · exact List.mem_of_mem_tail hmem
    · exact hmem
    · exact hmem

end Field

/-- **What is written for rules.** A field of any type is refused exactly if its rules conflict, and then for
this reason. Otherwise its call has no keyword twice, a default first if at all, and passes exactly the
default that the rules give or the declaration implies, and the attributes that are set in their order,
each with its exact value. -/
theorem Field.spec_writes_arguments (f : Field) (type : FieldType) :
    ((∃ e, f.spec type = .error e) ↔ (f.rules.getD .unset).Conflict) ∧
    (∀ e, f.spec type = .error e → ∃ conflict, e = .conflictingRules f.fullName conflict) ∧
    ∀ spec, f.spec type = .ok spec →
      (spec.directives.map keywordOf).Nodup ∧
      (∀ directive ∈ spec.directives.tail,
        keywordOf directive ≠ "default" ∧ keywordOf directive ≠ "default_factory") ∧
      List.Forall₂ Argument.IsWritten (f.arguments type) spec.directives := by
  refine ⟨⟨?_, ?_⟩, ?_, ?_⟩
  · rintro ⟨e, he⟩
    exact (exists_conflict_of_spec he).1
  · exact fun hconflict => exists_spec_error hconflict type
  · exact fun e he => (exists_conflict_of_spec he).2
  · intro spec h
    obtain ⟨hnodup, htail⟩ := keywords_of_spec h
    exact ⟨hnodup, htail, forall₂_directives h⟩

end ProtoModels
