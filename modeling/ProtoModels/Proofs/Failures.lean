import ProtoModels.Proofs.ClassTree.Events
import ProtoModels.Proofs.FieldTypes
import ProtoModels.Proofs.ModuleText.Blocks
import ProtoModels.Proofs.PackageTree
/-!
# When a package fails

A field of a built schema is refused for its kind or for its rules (`Schema.Refuses`), and what a
package says of its failure is why it refuses some field of a collected message
(`Schema.exists_refuses_of_packageModule`). Since every collected message is closed somewhere in the
class tree, one refused field is enough to fail (`packageModule_fails_iff`). Names never collide and
references never dangle, whatever the schema declares.
-/
namespace ProtoModels

/-! ## Conflicting rules -/

/-- An exact length together with a bound. -/
def LengthRules.Conflict (r : LengthRules) : Prop :=
  r.len.isSome = true ∧ (r.minLength.isSome = true ∨ r.maxLength.isSome = true)

/-- Rules that ask for two defaults, or for an exact length and a bound. -/
def FieldRules.Conflict : FieldRules → Prop
  | unset | float _ | int _ => False
  | string r => r.lengths.Conflict
  | message r => r.defaultFactory.isSome = true ∧ r.defaultEmpty = some true
  | repeated lengths | repeatedOf lengths _ => lengths.Conflict

instance : DecidablePred LengthRules.Conflict := fun r =>
  inferInstanceAs (Decidable (r.len.isSome = true ∧ (r.minLength.isSome = true ∨ r.maxLength.isSome = true)))

instance : DecidablePred FieldRules.Conflict
  | .unset | .float _ | .int _ => inferInstanceAs (Decidable False)
  | .string r => inferInstanceAs (Decidable r.lengths.Conflict)
  | .message r =>
    inferInstanceAs (Decidable (r.defaultFactory.isSome = true ∧ r.defaultEmpty = some true))
  | .repeated lengths | .repeatedOf lengths _ => inferInstanceAs (Decidable lengths.Conflict)

theorem LengthRules.exists_constraints_error_iff {r : LengthRules} :
    (∃ e, r.constraints = .error e) ↔ r.Conflict := by
  obtain ⟨len, least, greatest⟩ := r
  cases len <;> cases least <;> cases greatest <;> simp [constraints, Conflict]

theorem MessageRules.exists_default_error_iff {r : MessageRules} {type : FieldType} :
    (∃ e, r.default type = .error e) ↔ r.defaultFactory.isSome = true ∧ r.defaultEmpty = some true := by
  obtain ⟨factory, empty⟩ := r
  cases factory <;> rcases empty with _ | _ | _ <;> simp [default]

/-- Rules are refused exactly if they conflict, whatever the type of the field. -/
theorem FieldRules.exists_spec_error_iff {r : FieldRules} {type : FieldType} :
    (∃ e, r.spec type = .error e) ↔ r.Conflict := by
  cases r with
  | unset => simp [spec, Conflict]
  | float r => simp [spec, Conflict]
  | int r => simp [spec, Conflict]
  | string r => exact exists_map_eq_error_iff.trans LengthRules.exists_constraints_error_iff
  | message r => exact exists_map_eq_error_iff.trans MessageRules.exists_default_error_iff
  | «repeated» lengths => exact exists_map_eq_error_iff.trans LengthRules.exists_constraints_error_iff
  | repeatedOf lengths items =>
    exact exists_map_eq_error_iff.trans LengthRules.exists_constraints_error_iff

/-! ## Refused fields -/

/-- Why a field is refused: for the kind of its values or for its rules. -/
inductive Schema.Refuses (s : Schema) (f : Field) : CompileError → Prop where
  | kind : (s.valueField f).kind.isUnsupported = true →
      Refuses s f (.unsupportedKind (s.valueField f).fullName (s.valueField f).kind.number)
  | rules {conflict : RuleConflict} : (f.rules.getD .unset).Conflict →
      Refuses s f (.conflictingRules f.fullName conflict)

theorem Field.exists_conflict_of_spec {f : Field} {type : FieldType} {e : CompileError}
    (h : f.spec type = .error e) :
    (f.rules.getD .unset).Conflict ∧ ∃ conflict, e = .conflictingRules f.fullName conflict := by
  unfold spec at h
  split at h
  · cases h
  · rename_i conflict hconflict
    cases h
    exact ⟨FieldRules.exists_spec_error_iff.1 ⟨conflict, hconflict⟩, conflict, rfl⟩

theorem Field.exists_spec_error {f : Field} (h : (f.rules.getD .unset).Conflict) (type : FieldType) :
    ∃ e, f.spec type = .error e := by
  obtain ⟨conflict, hconflict⟩ := FieldRules.exists_spec_error_iff.2 h
  exact ⟨_, by rw [spec, hconflict]⟩

section
variable {files : List Descriptor.File} {rules : RuleIndex} {s : Schema} {names : ClassNames}
  {settings : Settings} {f : Field}

/-- A field without a block is refused. -/
theorem ModuleContext.refuses_of_fieldBlock (h : Schema.build files rules = .ok s)
    (hf : f ∈ s.allFields) {e : CompileError}
    (he : fieldBlock ⟨s, names, settings⟩ f = .error e) : s.Refuses f e := by
  have hfound := map_eq_error_iff.1 he
  rcases bind_eq_error_iff.1 hfound with htype | ⟨type, _, hfound⟩
  · obtain ⟨hkind, rfl⟩ := (Schema.fieldType_eq_error_iff h hf).1 htype
    exact .kind hkind
  · rcases bind_eq_error_iff.1 hfound with hspec | ⟨spec, _, hfound⟩
    · obtain ⟨hconflict, conflict, rfl⟩ := Field.exists_conflict_of_spec hspec
      exact .rules hconflict
    · cases hfound

theorem ModuleContext.exists_fieldBlock_error_iff (h : Schema.build files rules = .ok s)
    (hf : f ∈ s.allFields) : (∃ e, fieldBlock ⟨s, names, settings⟩ f = .error e) ↔
      (s.valueField f).kind.isUnsupported = true ∨ (f.rules.getD .unset).Conflict := by
  constructor
  · rintro ⟨e, he⟩
    cases refuses_of_fieldBlock h hf he with
    | kind hkind => exact Or.inl hkind
    | rules hconflict => exact Or.inr hconflict
  · intro hrefused
    simp only [fieldBlock, typeAndSpec, exists_map_eq_error_iff]
    cases htype : s.fieldType names f with
    | error e => exact ⟨e, rfl⟩
    | ok type =>
      rcases hrefused with hkind | hconflict
      · rw [(Schema.fieldType_eq_error_iff h hf).2 ⟨hkind, rfl⟩] at htype
        cases htype
      · obtain ⟨e, hspec⟩ := Field.exists_spec_error hconflict type
        exact ⟨e, bind_eq_error_iff.2 (Or.inr ⟨type, rfl, bind_eq_error_iff.2 (Or.inl hspec)⟩)⟩

end

/-! ## Failing packages -/

/-- A class fails to be closed where a field of its message has no block. -/
theorem ClassNode.closing_eq_error_iff {c : ModuleContext} {n : ClassNode TypeDecl} {e : CompileError} :
    n.closing c = .error e ↔
      ∃ m, n.decl = some (.message m) ∧ m.fields.mapM c.fieldBlock = .error e := by
  unfold closing
  cases n.decl with
  | none => simp
  | some t =>
    cases t with
    | enum e' => simp
    | message m =>
      simp only [ModuleContext.messageBody, Option.some.injEq, TypeDecl.message.injEq, exists_eq_left']
      by_cases hempty : m.fields = []
      · simp [hempty, pure, Except.pure]
      · cases m.fields.mapM c.fieldBlock <;> simp [hempty, Except.map]

namespace Schema

variable {files : List Descriptor.File} {rules : RuleIndex} {s : Schema} {roots : List File}
  {settings : Settings} {package : String}

/-- A package fails as the text of its module does, since its class tree does not. -/
theorem packageModule_eq {tree : ClassTree TypeDecl} (htree : s.packageTree package roots = .ok tree) :
    s.packageModule settings package roots =
      (ModuleText.ofTree ⟨s, .ofPackage s package, settings⟩ tree).map ModuleText.source := by
  unfold packageModule
  rw [htree]
  simp only [bind, Except.bind]
  cases ModuleText.ofTree ⟨s, .ofPackage s package, settings⟩ tree <;> rfl

/-- The messages that are closed in the class tree of a package are those that it collects. -/
theorem exists_body_message_iff {tree : ClassTree TypeDecl}
    (hholds : tree.Holds ((ClassNames.ofPackage s package).entries (s.collect roots))) {m : Message} :
    (∃ n depth, .body n depth ∈ tree.events ∧ n.decl = some (.message m)) ↔
      .message m ∈ s.collect roots := by
  rw [hholds.exists_body_iff]
  constructor
  · rintro ⟨path, _, hm⟩
    exact (ClassNames.mem_entries.1 hm).1
  · intro hm
    exact ⟨_, ClassNames.segments_resolve_ne_nil _ _, ClassNames.mem_entries.2 ⟨hm, rfl⟩⟩

theorem mem_allFields_of_mem_collect (hroots : ∀ f ∈ roots, f ∈ s.files) {m : Message}
    (hm : .message m ∈ s.collect roots) {f : Field} (hf : f ∈ m.fields) : f ∈ s.allFields :=
  mem_allFields_iff.2 ⟨m, mem_types_of_mem_collect hroots hm, hf⟩

/-- **The failure of a package** is why a field of a collected message is refused. -/
theorem exists_refuses_of_packageModule (h : build files rules = .ok s)
    (hroots : ∀ f ∈ roots, f ∈ s.files) {e : CompileError}
    (he : s.packageModule settings package roots = .error e) :
    ∃ m, .message m ∈ s.collect roots ∧ ∃ f ∈ m.fields, s.Refuses f e := by
  obtain ⟨tree, htree, hholds⟩ := packageTree_holds h hroots package
  rw [packageModule_eq htree, map_eq_error_iff] at he
  obtain ⟨n, depth, hn, hclosing⟩ := ModuleText.exists_closing_error he
  obtain ⟨m, hdecl, hfields⟩ := ClassNode.closing_eq_error_iff.1 hclosing
  obtain ⟨f, hf, hblock⟩ := exists_of_mapM_eq_error hfields
  have hm := (exists_body_message_iff hholds).1 ⟨n, depth, hn, hdecl⟩
  have hfield := mem_allFields_of_mem_collect hroots hm hf
  exact ⟨m, hm, f, hf, ModuleContext.refuses_of_fieldBlock h hfield hblock⟩

/-- One refused field is enough. -/
theorem exists_packageModule_error (h : build files rules = .ok s) (hroots : ∀ f ∈ roots, f ∈ s.files)
    {m : Message} (hm : .message m ∈ s.collect roots) {f : Field} (hf : f ∈ m.fields)
    (hrefused : (s.valueField f).kind.isUnsupported = true ∨ (f.rules.getD .unset).Conflict) :
    ∃ e, s.packageModule settings package roots = .error e := by
  obtain ⟨tree, htree, hholds⟩ := packageTree_holds h hroots package
  obtain ⟨n, depth, hn, hdecl⟩ := (exists_body_message_iff hholds).2 hm
  have hblock : ∃ e, ModuleContext.fieldBlock ⟨s, .ofPackage s package, settings⟩ f = .error e :=
    (ModuleContext.exists_fieldBlock_error_iff h (mem_allFields_of_mem_collect hroots hm hf)).2 hrefused
  obtain ⟨e, he⟩ := exists_mapM_eq_error_iff.2 ⟨f, hf, hblock⟩
  have hclosing := ClassNode.closing_eq_error_iff.2 ⟨m, hdecl, he⟩
  obtain ⟨e', htext⟩ := ModuleText.exists_ofTree_error hn hclosing
  exact ⟨e', by rw [packageModule_eq htree, htext]; rfl⟩

/-- A package whose fields are all of known kinds and have no conflicting rules has a module. -/
theorem exists_packageModule_of_supported (h : build files rules = .ok s)
    (hroots : ∀ f ∈ roots, f ∈ s.files)
    (hfields : ∀ f ∈ s.allFields,
      (s.valueField f).kind.isUnsupported = false ∧ ¬ (f.rules.getD .unset).Conflict)
    (settings : Settings) (package : String) :
    ∃ source, s.packageModule settings package roots = .ok source := by
  cases hmodule : s.packageModule settings package roots with
  | ok source => exact ⟨source, rfl⟩
  | error e =>
    obtain ⟨m, hm, f, hf, hrefuses⟩ := exists_refuses_of_packageModule h hroots hmodule
    obtain ⟨hkind, hrules⟩ := hfields f (mem_allFields_of_mem_collect hroots hm hf)
    cases hrefuses with
    | kind hunsupported => rw [hkind] at hunsupported; cases hunsupported
    | rules hconflict => exact absurd hconflict hrules

end Schema

/-- **When a package fails.** The module of a package is refused exactly if some collected message has
a field that is a group or of an unknown kind, where the values of a map count for the map, or a field
whose rules conflict; and what is said of it is one of these two things. -/
theorem packageModule_fails_iff {files : List Descriptor.File} {rules : RuleIndex} {s : Schema}
    (h : Schema.build files rules = .ok s) {roots : List File} (hroots : ∀ f ∈ roots, f ∈ s.files)
    (settings : Settings) (package : String) :
    ((∃ e, s.packageModule settings package roots = .error e) ↔
      ∃ m, .message m ∈ s.collect roots ∧ ∃ f ∈ m.fields,
        (s.valueField f).kind.isUnsupported = true ∨ (f.rules.getD .unset).Conflict) ∧
    ∀ e, s.packageModule settings package roots = .error e →
      (∃ field kind, e = .unsupportedKind field kind) ∨
        ∃ field conflict, e = .conflictingRules field conflict := by
  refine ⟨⟨?_, ?_⟩, fun e he => ?_⟩
  · rintro ⟨e, he⟩
    obtain ⟨m, hm, f, hf, hrefuses⟩ := Schema.exists_refuses_of_packageModule h hroots he
    cases hrefuses with
    | kind hkind => exact ⟨m, hm, f, hf, Or.inl hkind⟩
    | rules hconflict => exact ⟨m, hm, f, hf, Or.inr hconflict⟩
  · rintro ⟨m, hm, f, hf, hrefused⟩
    exact Schema.exists_packageModule_error h hroots hm hf hrefused
  · obtain ⟨m, _, f, _, hrefuses⟩ := Schema.exists_refuses_of_packageModule h hroots he
    cases hrefuses with
    | kind => exact Or.inl ⟨_, _, rfl⟩
    | rules => exact Or.inr ⟨_, _, rfl⟩

/-- Rules that ask for an exact length and for a bound of it. -/
def boundedRules : RuleIndex :=
  ⟨[("shop.Order.Line.sku", .string { lengths := { len := some 8, minLength := some 1 } })]⟩

theorem packageModule_fails_iff_bounded :
    let s := Schema.ofDescriptors orderFiles boundedRules
    let roots := s.files.take 1
    Schema.build orderFiles boundedRules = .ok s ∧ (∀ f ∈ roots, f ∈ s.files) ∧
    ∃ conflict, s.packageModule {} "shop" roots =
      .error (.conflictingRules "shop.Order.Line.sku" conflict) := by
  intro s roots
  have hbuild : Schema.build orderFiles boundedRules = .ok s :=
    Schema.build_eq_ok_iff.2 ⟨rfl, by decide +kernel⟩
  have hroots : ∀ f ∈ roots, f ∈ s.files := fun f hf => List.mem_of_mem_take hf
  have hcollect : s.collect roots = [s.types[1], s.types[2], s.types[4], s.types[0]] :=
    Schema.collect_eq_of_runWithin 40 (by decide +kernel)
  obtain ⟨line, hline, sku, hsku, hconflict⟩ : ∃ m, s.types[2] = .message m ∧
      ∃ f ∈ m.fields, (f.rules.getD .unset).Conflict :=
    ⟨_, rfl, _, List.mem_cons_self .., by decide +kernel⟩
  have hcollected : .message line ∈ s.collect roots := by simp [hcollect, ← hline]
  obtain ⟨e, he⟩ := (packageModule_fails_iff hbuild hroots {} "shop").1.2
    ⟨line, hcollected, sku, hsku, Or.inr hconflict⟩
  -- no other field is refused
  have honly : ∀ f ∈ s.allFields, (s.valueField f).kind.isUnsupported = false ∧
      ((f.rules.getD .unset).Conflict → f.fullName = "shop.Order.Line.sku") := by decide +kernel
  obtain ⟨m, hm, f, hf, hrefuses⟩ := Schema.exists_refuses_of_packageModule hbuild hroots he
  obtain ⟨hkind, hname⟩ := honly f (Schema.mem_allFields_of_mem_collect hroots hm hf)
  refine ⟨hbuild, hroots, ?_⟩
  cases hrefuses with
  | kind hunsupported => rw [hkind] at hunsupported; cases hunsupported
  | rules hrules => exact ⟨_, by rw [he, hname hrules]⟩

end ProtoModels
