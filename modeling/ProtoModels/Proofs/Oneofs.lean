import Mathlib.Data.List.Nodup
import ProtoModels.ModuleText
import ProtoModels.Proofs.Traversals
import ProtoModels.Schema.Build
/-!
# Members of oneofs

A field that may be left out without a value is nullable: a member of a oneof, or a field with the
keyword `optional`, unless its rules give it a default (`Field.isNullable_iff`). The check of a oneof
counts the members that are not `None`, and a member with a default of its own always counts. So the
check can be met through every member only if no member has such a default (`oneof_check_iff`).
-/
namespace ProtoModels

/-! ## Defaults -/

/-- Whether rules say themselves what a field is if it is not given. -/
def FieldRules.givesDefault : FieldRules → Bool
  | float r => r.default.isSome
  | int r => r.default.isSome
  | string r => r.default.isSome
  | message r => r.defaultFactory.isSome || r.defaultEmpty == some true
  | unset | repeated _ | repeatedOf _ _ => false

theorem MessageRules.default_of_ok {r : MessageRules} {type : FieldType} {default : Option FieldDefault}
    (h : r.default type = .ok default) :
    default.isSome = (FieldRules.message r).givesDefault ∧ default ≠ some .absent := by
  obtain ⟨factory, empty⟩ := r
  cases factory <;> rcases empty with _ | _ | _ <;> cases h <;>
    simp [FieldRules.givesDefault]

/-- What rules give as a default is a value, never its absence. -/
theorem FieldRules.default_of_spec {r : FieldRules} {type : FieldType} {spec : FieldSpec}
    (h : r.spec type = .ok spec) :
    spec.default.isSome = r.givesDefault ∧ spec.default ≠ some .absent := by
  cases r with
  | unset => cases h; simp [givesDefault]
  | float r => cases h; cases hr : r.default <;> simp [givesDefault, hr]
  | int r => cases h; cases hr : r.default <;> simp [givesDefault, hr]
  | string r =>
    obtain ⟨constraints, _, rfl⟩ := map_eq_ok_iff.1 h
    cases hr : r.default <;> simp [givesDefault, hr]
  | message r =>
    obtain ⟨default, hdefault, rfl⟩ := map_eq_ok_iff.1 h
    exact MessageRules.default_of_ok hdefault
  | «repeated» lengths =>
    obtain ⟨constraints, _, rfl⟩ := map_eq_ok_iff.1 h
    simp [givesDefault]
  | repeatedOf lengths items =>
    obtain ⟨constraints, _, rfl⟩ := map_eq_ok_iff.1 h
    simp [givesDefault]

namespace Field

variable {f : Field} {type : FieldType} {spec : FieldSpec}

/-- Whether the rules of a field give it a default. -/
def givesDefault (f : Field) : Bool := (f.rules.getD .unset).givesDefault

/-- A default that the rules give comes before the implied one. -/
theorem default_of_spec (h : f.spec type = .ok spec) :
    (f.givesDefault = true → ∃ d, spec.default = some d ∧ d ≠ .absent) ∧
      (f.givesDefault = false → spec.default = f.impliedDefault type) := by
  unfold Field.spec at h
  split at h
  · rename_i given hgiven
    cases h
    obtain ⟨hsome, hne⟩ := FieldRules.default_of_spec hgiven
    cases hdefault : given.default with
    | none =>
      rw [hdefault] at hsome
      exact ⟨fun hgives => by simp [givesDefault, ← hsome] at hgives, fun _ => by simp⟩
    | some d =>
      rw [hdefault] at hsome hne
      refine ⟨fun _ => ⟨d, by simp, fun heq => hne (by rw [heq])⟩, fun hgives => ?_⟩
      simp [givesDefault, ← hsome] at hgives
  · cases h

/-- **Nullable fields** are members of oneofs and fields with the keyword `optional`, those excepted
whose rules give a default. -/
theorem isNullable_iff (h : f.spec type = .ok spec) : spec.isNullable = true ↔
    f.givesDefault = false ∧ (f.optionalKeyword = true ∨ f.inOneofGroup = true) := by
  obtain ⟨hgives, himplied⟩ := default_of_spec h
  have hnullable : spec.isNullable = true ↔ spec.default = some .absent := by
    simp [FieldSpec.isNullable]
  rw [hnullable]
  cases hdefault : f.givesDefault with
  | true =>
    obtain ⟨d, hd, hne⟩ := hgives hdefault
    simp [hd, hne]
  | false =>
    rw [himplied hdefault, impliedDefault]
    split
    · simp_all
    · split <;> [skip; split] <;> simp_all

end Field

/-! ## Members -/

theorem Message.mem_oneofMembers {m : Message} {i : Nat} {f : Field} : f ∈ m.oneofMembers i ↔
    f ∈ m.fields ∧ f.oneof = some i ∧ f.optionalKeyword = false := by
  simp [oneofMembers]

theorem Message.inOneofGroup_of_mem {m : Message} {i : Nat} {f : Field} (h : f ∈ m.oneofMembers i) :
    f.inOneofGroup = true := by
  obtain ⟨_, honeof, hkeyword⟩ := mem_oneofMembers.1 h
  simp [Field.inOneofGroup, honeof, hkeyword]

/-- The oneofs that are checked are those with two members at least. -/
theorem Message.mem_oneofGroups_iff {m : Message} {g : OneofGroup} : g ∈ m.oneofGroups ↔
    ∃ i, m.oneofs[i]? = some g.name ∧ g.members = (m.oneofMembers i).map (·.name) ∧
      2 ≤ g.members.length := by
  rw [oneofGroups, List.mem_filter, List.mem_mapIdx]
  constructor
  · rintro ⟨⟨i, hi, rfl⟩, htwo⟩
    exact ⟨i, List.getElem?_eq_getElem hi, rfl, by simpa using htwo⟩
  · rintro ⟨i, hname, hmembers, htwo⟩
    obtain ⟨hi, hname⟩ := List.getElem?_eq_some_iff.1 hname
    exact ⟨⟨i, hi, by rw [hname, ← hmembers]⟩, by simpa using htwo⟩

/-! ## Instances -/

namespace ModuleContext

/-- Whether a field is other than `None` in an instance that is made of the fields with some names. One
that is left out is what its default makes of it; what a factory makes is an instance. -/
def isPresent (c : ModuleContext) (given : String → Bool) (f : Field) : Bool :=
  given f.name || match c.typeAndSpec f with
    | .ok (_, spec) => spec.default.any (· != .absent)
    | .error _ => false

/-- Whether the check of a oneof with some members accepts the instance: exactly one of them is not
`None`. -/
def accepts (c : ModuleContext) (members : List Field) (given : String → Bool) : Bool :=
  members.countP (c.isPresent given) == 1

theorem spec_of_typeAndSpec {c : ModuleContext} {f : Field} {type : FieldType} {spec : FieldSpec}
    (h : c.typeAndSpec f = .ok (type, spec)) : f.spec type = .ok spec := by
  obtain ⟨type', _, h⟩ := bind_eq_ok_iff.1 h
  obtain ⟨spec', hspec, h⟩ := bind_eq_ok_iff.1 h
  cases h
  exact hspec

variable {c : ModuleContext} {m : Message} {i : Nat} {f : Field}

/-- A member is not `None` if it is given, or if its rules give it a default. -/
theorem isPresent_member (hf : f ∈ m.oneofMembers i) (hfound : ∃ found, c.typeAndSpec f = .ok found)
    (given : String → Bool) : c.isPresent given f = (given f.name || f.givesDefault) := by
  obtain ⟨⟨type, spec⟩, hfound⟩ := hfound
  obtain ⟨hgives, himplied⟩ := Field.default_of_spec (spec_of_typeAndSpec hfound)
  rw [isPresent, hfound]
  cases hdefault : f.givesDefault with
  | true =>
    obtain ⟨d, hd, hne⟩ := hgives hdefault
    simp [hd, hne]
  | false =>
    simp [himplied hdefault, Field.impliedDefault, Message.inOneofGroup_of_mem hf]

theorem countP_isPresent (hfound : ∀ f ∈ m.oneofMembers i, ∃ found, c.typeAndSpec f = .ok found)
    (given : String → Bool) : (m.oneofMembers i).countP (c.isPresent given) =
      (m.oneofMembers i).countP fun f => given f.name || f.givesDefault :=
  List.countP_congr fun f hf => by rw [isPresent_member hf (hfound f hf)]

/-- An instance of one member is accepted exactly if no other member has a default of its own. -/
theorem accepts_one_iff (hfound : ∀ f ∈ m.oneofMembers i, ∃ found, c.typeAndSpec f = .ok found)
    (hnames : ((m.oneofMembers i).map (·.name)).Nodup) {x : Field} (hx : x ∈ m.oneofMembers i) :
    c.accepts (m.oneofMembers i) (· == x.name) = true ↔
      ∀ y ∈ m.oneofMembers i, y.name ≠ x.name → y.givesDefault = false := by
  rw [accepts, countP_isPresent hfound, beq_iff_eq]
  clear hfound
  obtain ⟨before, after, hsplit⟩ := List.append_of_mem hx
  rw [hsplit] at hnames ⊢
  have hother : ∀ y ∈ before ++ after, y.name ≠ x.name := by
    intro y hy heq
    rw [List.map_append, List.map_cons, List.nodup_middle, List.nodup_cons, ← List.map_append] at hnames
    exact hnames.1 (heq ▸ List.mem_map_of_mem hy)
  have hcount : (before ++ x :: after).countP (fun f => f.name == x.name || f.givesDefault) =
      (before ++ after).countP (·.givesDefault) + 1 := by
    have hcongr : (before ++ after).countP (fun f => f.name == x.name || f.givesDefault) =
        (before ++ after).countP (·.givesDefault) :=
      List.countP_congr fun y hy => by simp [hother y hy]
    rw [← hcongr]
    simp only [List.countP_append, List.countP_cons, beq_self_eq_true, Bool.true_or, if_true]
    omega
  rw [hcount, Nat.add_eq_right, List.countP_eq_zero]
  constructor
  · intro h y hy hne
    have hy : y ∈ before ++ after := by simpa [show y ≠ x from fun heq => hne (by rw [heq])] using hy
    simpa using h y hy
  · intro h y hy
    have hmem : y ∈ before ++ x :: after := by
      rw [List.mem_append] at hy ⊢
      exact hy.imp_right (List.mem_cons_of_mem _)
    simp [h y hmem (hother y hy)]

/-- An instance of no member is accepted exactly if one member has a default of its own. -/
theorem accepts_none_iff (hfound : ∀ f ∈ m.oneofMembers i, ∃ found, c.typeAndSpec f = .ok found) :
    c.accepts (m.oneofMembers i) (fun _ => false) = true ↔
      (m.oneofMembers i).countP (·.givesDefault) = 1 := by
  rw [accepts, countP_isPresent hfound, beq_iff_eq]
  simp only [Bool.false_or]

end ModuleContext

/-- The line of a field that may be left out without a value. -/
theorem fieldLine_of_nullable {name : String} {type : FieldType} {spec : FieldSpec}
    (h : spec.isNullable = true) : (fieldLine name type spec).text =
      name ++ ": " ++ ("Optional[" ++ type.expression spec.uuid ++ "]") ++ " = Field(" ++
        commaSeparated spec.directives ++ ")" := by
  simp [fieldLine, h]

/-- **Oneofs that are checked.** A check is written for every oneof with two members at least. A member is
nullable exactly if its rules give it no default. If all members can be written, the check accepts an
instance of one member exactly if no other member has a default of its own, and it accepts an instance of
no member exactly if one member has such a default. -/
theorem oneof_check_iff (c : ModuleContext) (m : Message) :
    (∀ g, g ∈ m.oneofGroups ↔ ∃ i, m.oneofs[i]? = some g.name ∧
      g.members = (m.oneofMembers i).map (·.name) ∧ 2 ≤ g.members.length) ∧
    ∀ i,
      (∀ f ∈ m.oneofMembers i, ∀ type spec, c.typeAndSpec f = .ok (type, spec) →
        (f.givesDefault = false → spec.default = some .absent ∧
          (fieldLine f.name type spec).text = f.name ++ ": " ++
            ("Optional[" ++ type.expression spec.uuid ++ "]") ++ " = Field(" ++
            commaSeparated spec.directives ++ ")") ∧
        (f.givesDefault = true → spec.default.isSome = true ∧ spec.isNullable = false)) ∧
      ((∀ f ∈ m.oneofMembers i, ∃ found, c.typeAndSpec f = .ok found) →
        ((m.oneofMembers i).map (·.name)).Nodup →
        (∀ x ∈ m.oneofMembers i, c.accepts (m.oneofMembers i) (· == x.name) = true ↔
          ∀ y ∈ m.oneofMembers i, y.name ≠ x.name → y.givesDefault = false) ∧
        (c.accepts (m.oneofMembers i) (fun _ => false) = true ↔
          (m.oneofMembers i).countP (·.givesDefault) = 1)) := by
  refine ⟨fun g => Message.mem_oneofGroups_iff, fun i => ⟨?_, fun hfound hnames => ?_⟩⟩
  · intro f hf type spec h
    have hspec := ModuleContext.spec_of_typeAndSpec h
    have hiff := Field.isNullable_iff hspec
    have hgroup := Message.inOneofGroup_of_mem hf
    refine ⟨fun hdefault => ?_, fun hdefault => ?_⟩
    · have hnullable : spec.isNullable = true := hiff.2 ⟨hdefault, Or.inr hgroup⟩
      exact ⟨by simpa [FieldSpec.isNullable] using hnullable, fieldLine_of_nullable hnullable⟩
    · obtain ⟨d, hd, _⟩ := (Field.default_of_spec hspec).1 hdefault
      exact ⟨by simp [hd], by simpa [hdefault] using hiff⟩
  · exact ⟨fun x hx => ModuleContext.accepts_one_iff hfound hnames hx,
      ModuleContext.accepts_none_iff hfound⟩

/-! ## A oneof of two texts -/

/-- A file with a message that holds an address or a number. -/
def contactFile : Descriptor.File where
  name := "c.proto"
  package := "c"
  messages := [{
    name := "Contact"
    fields := [
      { name := "email", number := 1, label := some 1, kind := some 9, oneofIndex := some 0 },
      { name := "phone", number := 2, label := some 1, kind := some 9, oneofIndex := some 0 }]
    oneofs := [{ name := "channel" }] }]

/-- The context of the module, with some rules of the fields. -/
def contactContext (rules : RuleIndex) : ModuleContext :=
  let s := Schema.ofDescriptors [contactFile] rules
  ⟨s, .ofPackage s "c", {}⟩

/-- The message with some rules of the fields. -/
def contact (rules : RuleIndex) : Message :=
  let c : FileContext := ⟨"c.proto", "c", .proto2, [], rules⟩
  (Message.ofDescriptors c c.scope [4] 0 contactFile.messages).head (by simp [contactFile,
    Message.ofDescriptors])

theorem contact_mem_types (rules : RuleIndex) :
    .message (contact rules) ∈ (contactContext rules).schema.types :=
  List.mem_cons_self ..

theorem oneof_check_iff_contact :
    let c := contactContext {}
    let members := (contact {}).oneofMembers 0
    .message (contact {}) ∈ c.schema.types ∧
    (∀ f ∈ members, c.typeAndSpec f = .ok (.scalar .str, { default := some .absent }) ∧
      f.givesDefault = false ∧ (members.map (·.name)).Nodup) ∧
    OneofGroup.mk "channel" ["email", "phone"] ∈ (contact {}).oneofGroups ∧
    (∀ f ∈ members, (fieldLine f.name (.scalar .str) { default := some .absent }).text =
      f.name ++ ": " ++ "Optional[str]" ++ " = Field(" ++ "default=None" ++ ")") ∧
    (∀ x ∈ members, c.accepts members (· == x.name) = true) ∧
    ¬ c.accepts members (fun _ => false) = true := by
  intro c members
  have hfound : ∀ f ∈ members, c.typeAndSpec f = .ok (.scalar .str, { default := some .absent }) ∧
      f.givesDefault = false ∧ (members.map (·.name)).Nodup := by decide
  obtain ⟨hgroups, hmembers⟩ := oneof_check_iff c (contact {})
  obtain ⟨hlines, hchecks⟩ := hmembers 0
  have hgroup : OneofGroup.mk "channel" ["email", "phone"] ∈ (contact {}).oneofGroups :=
    (hgroups _).2 ⟨0, rfl, rfl, by decide⟩
  have hone := hchecks (fun f hf => ⟨_, (hfound f hf).1⟩) (by decide)
  refine ⟨contact_mem_types _, hfound, hgroup, fun f hf => ?_, fun x hx => ?_, fun hnone => ?_⟩
  · exact ((hlines f hf _ _ (hfound f hf).1).1 (hfound f hf).2.1).2
  · exact (hone.1 x hx).2 fun y hy _ => (hfound y hy).2.1
  · exact absurd (hone.2.1 hnone) (by decide)

/-- Rules that give one of the two members a default. -/
def emailDefault : RuleIndex := ⟨[("c.Contact.email", .string { default := some "a@b" })]⟩

/-- With a default of its own, a member is not nullable. The check then refuses an instance of the other
member and accepts one of no member. -/
theorem oneof_member_with_default :
    let c := contactContext emailDefault
    let members := (contact emailDefault).oneofMembers 0
    Schema.build [contactFile] emailDefault = .ok c.schema ∧
    .message (contact emailDefault) ∈ c.schema.types ∧
    OneofGroup.mk "channel" ["email", "phone"] ∈ (contact emailDefault).oneofGroups ∧
    (∃ f ∈ members, ∃ type spec, c.typeAndSpec f = .ok (type, spec) ∧ spec.isNullable = false) ∧
    (∃ x ∈ members, c.accepts members (· == x.name) = false) ∧
    c.accepts members (fun _ => false) = true := by
  intro c members
  have hrefused : ∃ x ∈ members, c.accepts members (· == x.name) = false := by decide
  exact ⟨rfl, contact_mem_types _, by decide, ⟨_, List.mem_cons_self .., _, _, rfl, by decide⟩, hrefused,
    by decide⟩

end ProtoModels
