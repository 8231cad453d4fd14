import ProtoModels.Proofs.FieldTypes
import ProtoModels.Proofs.ModuleText.Blocks
import ProtoModels.Schema.Walk
/-!
# Fields with the same target

What is known about a field comes from the type that it refers to: two schemas in which it is the same
one agree about the field. So a module is written alike in two schemas that agree about the fields of its
messages (`ModuleText.ofTree_congr`).
-/
namespace ProtoModels

namespace Schema

section
variable {s s' : Schema} {f : Field} (h : s'.target? f = s.target? f)
include h

theorem mapEntry?_congr : s'.mapEntry? f = s.mapEntry? f := by
  unfold mapEntry?
  rw [h]

theorem isMap_congr : s'.isMap f = s.isMap f := by
  rw [isMap, isMap, mapEntry?_congr h]

theorem entryFields?_congr : s'.entryFields? f = s.entryFields? f := by
  rw [entryFields?, entryFields?, mapEntry?_congr h]

theorem descends_congr : s'.descends (.field f) = s.descends (.field f) := by
  rw [descends, descends, h]

theorem singularType_congr (names : ClassNames) : s'.singularType names f = s.singularType names f := by
  unfold singularType
  rw [h]

/-- A map is also known by the type of its values. -/
theorem fieldType_congr (hvalue : s'.target? (s.valueField f) = s.target? (s.valueField f))
    (names : ClassNames) : s'.fieldType names f = s.fieldType names f := by
  rw [fieldType, fieldType, entryFields?_congr h]
  cases hentry : s.entryFields? f with
  | none => simp only [singularType_congr h]
  | some fields =>
    rw [valueField_eq_value hentry] at hvalue
    simp only [singularType_congr hvalue]

end

end Schema

/-! ## Modules -/

section
variable {s s' : Schema} {names : ClassNames} {settings : Settings}

/-- Two schemas write a field alike. -/
def Field.WrittenAlike (s s' : Schema) (names : ClassNames) (f : Field) : Prop :=
  s'.fieldType names f = s.fieldType names f ∧ s'.isMap f = s.isMap f

theorem ModuleContext.messageBody_congr {m : Message} (h : ∀ f ∈ m.fields, f.WrittenAlike s s' names)
    (nested : Bool) : (⟨s', names, settings⟩ : ModuleContext).messageBody m nested =
      (⟨s, names, settings⟩ : ModuleContext).messageBody m nested := by
  have hblocks : m.fields.mapM (⟨s', names, settings⟩ : ModuleContext).fieldBlock =
      m.fields.mapM (⟨s, names, settings⟩ : ModuleContext).fieldBlock :=
    mapM_congr fun f hf => by rw [fieldBlock, fieldBlock, typeAndSpec, typeAndSpec, (h f hf).1]
  have hmaps : s'.mapFields m = s.mapFields m := by
    rw [Schema.mapFields, Schema.mapFields, List.filter_congr fun f hf => (h f hf).2]
  rw [messageBody, messageBody, hblocks, hmaps]

/-- **A module is written alike** in two schemas that write the fields of its messages alike. -/
theorem ModuleText.ofTree_congr {tree : ClassTree TypeDecl}
    (h : ∀ n depth, .body n depth ∈ tree.events → ∀ m, n.decl = some (.message m) →
      ∀ f ∈ m.fields, f.WrittenAlike s s' names) :
    ofTree ⟨s', names, settings⟩ tree = ofTree ⟨s, names, settings⟩ tree := by
  rw [ofTree_eq, ofTree_eq]
  refine congrArg _ (mapM_congr fun e he => ?_)
  unfold ClassEvent.written
  refine congrArg _ ?_
  cases e with
  | header n depth => rfl
  | body n depth =>
    simp only [ClassEvent.block, ClassNode.closing]
    cases hdecl : n.decl with
    | none => rfl
    | some t =>
      cases t with
      | enum e => rfl
      | message m => exact ModuleContext.messageBody_congr (h n depth he m hdecl) _

end
end ProtoModels
