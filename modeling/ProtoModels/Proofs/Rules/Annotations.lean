import ProtoModels.Proofs.Descriptor.EncodedFiles
import ProtoModels.Proofs.Rules.Encoding
import ProtoModels.Proofs.Schema.FromDescriptors
import ProtoModels.Rules.Annotations
/-!
# Annotated fields

The rules of a field are found by its full name, which is made twice: a pool lists fields under the names
of their messages, and a schema completes names scope by scope. `annotations_attached` says that the two
meet: every field of a schema has the rules that stand in its own options, and no other ones. How options
are read by their types is not asked here: `Pool.KeepsAnnotations` is what is needed of it.
-/
namespace ProtoModels

open Descriptor (Pool Request)

/-! ## Looking up entries -/

/-- Of entries under distinct names, each is found under its own. -/
theorem RuleIndex.get?_filterMap {α : Type} {key : α → String} {g : α → Option FieldRules} {l : List α}
    (hkeys : (l.map key).Nodup) {x : α} (hx : x ∈ l) :
    get? ⟨l.filterMap fun y => (g y).map (key y, ·)⟩ (key x) = g x := by
  have hentry : ∀ e ∈ l.filterMap fun y => (g y).map (key y, ·), e.1 = key x → g x = some e.2 := by
    intro e he hname
    obtain ⟨y, hy, hey⟩ := List.mem_filterMap.1 he
    obtain ⟨r, hr, rfl⟩ := Option.map_eq_some_iff.1 hey
    rw [← List.inj_on_of_nodup_map hkeys hy hx hname, hr]
  rw [get?, List.findRev?_eq_find?_reverse]
  cases hfind : (l.filterMap fun y => (g y).map (key y, ·)).reverse.find? (·.1 == key x) with
  | some e =>
    have hmem := List.mem_reverse.1 (List.mem_of_find?_eq_some hfind)
    rw [hentry e hmem (by simpa using List.find?_some hfind), Option.map_some]
  | none =>
    cases hx' : g x with
    | none => rfl
    | some r =>
      have hmem : (key x, r) ∈ l.filterMap fun y => (g y).map (key y, ·) :=
        List.mem_filterMap.2 ⟨x, hx, by rw [hx']; rfl⟩
      exact absurd (List.find?_eq_none.1 hfind _ (List.mem_reverse.2 hmem)) (by simp)

/-! ## Reading the rules of a pool -/

theorem filterMapM_eq_some {α β : Type} {f : α → Option (Option β)} {g : α → Option β} {l : List α}
    (h : ∀ a ∈ l, f a = some (g a)) : l.filterMapM f = some (l.filterMap g) := by
  induction l with
  | nil => rfl
  | cons a l ih =>
    rw [List.forall_mem_cons] at h
    rw [List.filterMapM_cons, h.1, ih h.2, List.filterMap_cons]
    cases g a <;> rfl

/-- If all annotations can be read, the index of a pool holds those of its fields, in their order. -/
theorem RuleIndex.ofPool?_eq {p : Pool} {rules : Pool.Sited Descriptor.Field}
    (hrules : p.extension? "validate.rules" = some rules)
    (hread : ∀ y ∈ Pool.fieldsOf p.files, ∀ fields ∈ p.annotation? rules y,
      (FieldRules.ofFields? fields).isSome = true) :
    ofPool? p = some ⟨(Pool.fieldsOf p.files).filterMap fun y =>
      ((p.annotation? rules y).bind FieldRules.ofFields?).map (Pool.fieldName y, ·)⟩ := by
  have hlist : p.files.flatMap (fun f => Pool.partsOf f Descriptor.Message.fields) =
      Pool.fieldsOf p.files := rfl
  simp only [ofPool?, hrules, hlist]
  refine congrArg (Option.bind · fun entries => some (RuleIndex.mk entries))
    (filterMapM_eq_some fun y hy => ?_)
  cases hfields : p.annotation? rules y with
  | none => rfl
  | some fields =>
    obtain ⟨r, hr⟩ := Option.isSome_iff_exists.1 (hread y hy fields hfields)
    simp [hr, Pool.fieldName]

/-! ## Annotations -/

/-- What stands in the options of a field under the number 1071, as it is encoded. Several occurrences are
one after another. -/
def Descriptor.Field.annotation? (x : Descriptor.Field) : Option Wire.Bytes :=
  match Wire.payloads 1071 ((Wire.parse x.options).getD []) with
  | [] => none
  | payloads => some payloads.flatten

/-- The rules with which a field is annotated. -/
def Descriptor.Field.rules? (x : Descriptor.Field) : Option FieldRules :=
  x.annotation?.bind FieldRules.decode?

/-- An annotation that was written for some rules stands for these rules. -/
theorem Descriptor.Field.rules?_of_encode {x : Descriptor.Field} {r : FieldRules}
    (h : x.annotation? = some r.encode) (hlevels : r.levels ≤ Wire.depthLimit)
    (hlength : r.encode.length < 0x10000000000000000) : x.rules? = some r := by
  rw [rules?, h, Option.bind_some, FieldRules.decode?_encode hlength, if_pos hlevels]

/-- A pool made of some files keeps annotations: in the options of a field, read by their types and written
again, an annotation stands exactly if one stood there before, and it says the same. -/
def Descriptor.Pool.KeepsAnnotations (p : Pool) (files : List Descriptor.File) : Prop :=
  ∀ rules ∈ p.extension? "validate.rules", List.Forall₂
    (fun x y => (p.annotation? rules y).map FieldRules.ofFields? =
      x.decl.annotation?.map FieldRules.decode?) (Pool.fieldsOf files) (Pool.fieldsOf p.files)

instance (p : Pool) (files : List Descriptor.File) : Decidable (p.KeepsAnnotations files) :=
  inferInstanceAs (Decidable (∀ rules ∈ p.extension? "validate.rules", List.Forall₂
    (fun x y => (p.annotation? rules y).map FieldRules.ofFields? =
      x.decl.annotation?.map FieldRules.decode?) (Pool.fieldsOf files) (Pool.fieldsOf p.files)))

/-- A field that was read from a descriptor, with its own rules. -/
structure Field.IsAnnotatedAs (x : Pool.Sited Descriptor.Field) (f : Field) : Prop where
  fullName : f.fullName = Pool.fieldName x
  name : f.name = x.decl.name
  rules : f.rules = x.decl.rules?
  /-- Rules that were written as the annotation, nested no deeper than a reader goes, are the rules. -/
  written : ∀ r : FieldRules, x.decl.annotation? = some r.encode → r.levels ≤ Wire.depthLimit →
    r.encode.length < 0x10000000000000000 → f.rules = some r
  /-- A field without annotation has no rules. -/
  bare : x.decl.annotation? = none → f.rules = none

/-- The rules of the annotation are all that has to be shown. -/
theorem Field.IsAnnotatedAs.of_rules {x : Pool.Sited Descriptor.Field} {f : Field}
    (hfullName : f.fullName = Pool.fieldName x) (hname : f.name = x.decl.name)
    (hrules : f.rules = x.decl.rules?) : f.IsAnnotatedAs x where
  fullName := hfullName
  name := hname
  rules := hrules
  written _ hr hlevels hlength := hrules.trans (Descriptor.Field.rules?_of_encode hr hlevels hlength)
  bare hnone := by rw [hrules, Descriptor.Field.rules?, hnone, Option.bind_none]

section
variable {files : List Descriptor.File} {p : Pool} (hp : (Pool.ofFiles files).interpret? = some p)
  (hvalid : p.isValid = true) (hrules : ∃ f ∈ files, declaresRules f = true)
include hp hvalid hrules

/-- A pool of files one of which declares the extension finds it. -/
theorem exists_extension?_of_declaresRules : ∃ rules, p.extension? "validate.rules" = some rules := by
  obtain ⟨f, hf, hdeclares⟩ := hrules
  simp only [declaresRules, Bool.and_eq_true, beq_iff_eq, List.any_eq_true] at hdeclares
  obtain ⟨hpackage, x, hx, hname⟩ := hdeclares
  obtain ⟨f', hf', hsame⟩ := exists_of_forall₂_left (Pool.forall₂_interpret? hp) f hf
  obtain ⟨x', hx', options, rfl⟩ := exists_of_forall₂_left hsame.extensions x hx
  have hfound := Pool.extension?_of_mem hvalid (Pool.eq_ofFiles_of_interpret? hp) hf' hx'
  rw [hsame.package, hpackage, hname] at hfound
  exact ⟨_, hfound⟩

/-- **The index of a pool** has the rules of every field under its full name. -/
theorem exists_ofPool? (hkeeps : p.KeepsAnnotations files)
    (hread : ∀ x ∈ Pool.fieldsOf files, ∀ payload ∈ x.decl.annotation?,
      (FieldRules.decode? payload).isSome = true) :
    ∃ index, RuleIndex.ofPool? p = some index ∧
      ∀ x ∈ Pool.fieldsOf files, index.get? (Pool.fieldName x) = x.decl.rules? := by
  obtain ⟨rules, hext⟩ := exists_extension?_of_declaresRules hp hvalid hrules
  have hkept := hkeeps rules hext
  refine ⟨_, RuleIndex.ofPool?_eq hext fun y hy fields hfields => ?_, fun x hx => ?_⟩
  · obtain ⟨x, hx, hxy⟩ := exists_of_forall₂_left hkept.flip y hy
    rw [hfields, Option.map_some] at hxy
    obtain ⟨payload, hpayload, heq⟩ := Option.map_eq_some_iff.1 hxy.symm
    rw [← heq]
    exact hread x hx payload hpayload
  · obtain ⟨y, hy, hsame, hxy⟩ :=
      exists_of_forall₂_left (forall₂_and (Pool.forall₂_fieldsOf_interpret? hp) hkept) x hx
    have hget := RuleIndex.get?_filterMap (g := fun y => (p.annotation? rules y).bind FieldRules.ofFields?)
      (Pool.nodup_fieldNames hvalid (Pool.eq_ofFiles_of_interpret? hp)) hy
    rw [hsame.fieldName_eq] at hget
    rw [hget, Descriptor.Field.rules?]
    simpa [Option.bind_map, Function.comp_def] using congrArg (Option.bind · id) hxy

end

/-- **Every field gets its own rules and no other ones.** Let the files of an encoded request form a valid
pool that keeps annotations, let one of them declare the extension, and let every annotation be the encoding
of some rules. Then the rules of the request can be read, and a schema that is built with them has exactly
the fields that the files declare, under their full names, each with the rules of its own annotation: those
for which it was written, and none without an annotation. Only the name of a type that is not a full name
can keep the schema from being built. -/
theorem annotations_attached {bytes : Wire.Bytes} {r : Request} {p : Pool}
    (hrequest : Request.decode? bytes = some r)
    (hfiles : ∀ payload ∈ (Request.encodedFiles? bytes).getD [],
      (Descriptor.File.decode? payload).isSome = true)
    (hpool : (Pool.ofFiles r.files).interpret?.filter Pool.isValid = some p)
    (hrules : ∃ f ∈ r.files, declaresRules f = true)
    (hread : ∀ x ∈ Pool.fieldsOf r.files, ∀ payload ∈ x.decl.annotation?,
      (FieldRules.decode? payload).isSome = true)
    (hkeeps : p.KeepsAnnotations r.files) :
    ∃ index, RuleIndex.ofRequest bytes r.files = .ok index ∧
      (∀ s, Schema.build r.files index = .ok s →
        List.Forall₂ Field.IsAnnotatedAs (Pool.fieldsOf r.files) s.allFields) ∧
      (∀ e, Schema.build r.files index = .error e → ∃ x ∈ Pool.fieldsOf r.files,
        ∃ name ∈ x.decl.typeName, name.toList.head? ≠ some '.' ∧
          e = .unresolvedType (Pool.fieldName x) name) := by
  obtain ⟨hp, hvalid⟩ := Option.filter_eq_some_iff.1 hpool
  obtain ⟨index, hindex, hget⟩ := exists_ofPool? hp hvalid hrules hkeeps hread
  obtain ⟨payloads, hpayloads, -⟩ := Request.encodedFiles?_of_decode? hrequest
  rw [hpayloads] at hfiles
  have hdecoded := Request.mapM_decode? hrequest hpayloads hfiles
  have hany : r.files.any declaresRules = true := List.any_eq_true.2 hrules
  refine ⟨index, ?_, fun s hs => ?_, fun e he => Schema.exists_of_build_eq_error hp hvalid he⟩
  · simp only [RuleIndex.ofRequest, if_pos hany, hpayloads, hdecoded, hpool, hindex]
  · obtain ⟨rfl, -⟩ := Schema.build_eq_ok_iff.1 hs
    have hfields := Schema.forall₂_allFields_of_isValid hp hvalid index
    refine ((List.forall₂_and_left _ _).2 ⟨hget, hfields⟩).imp fun x f hxf => ?_
    obtain ⟨hget, hf⟩ := hxf
    exact .of_rules hf.fullName hf.name (by rw [hf.rules, hf.fullName, hget])

/-- A field of a message, as it is encoded, with a type by number or by name and more parts behind. -/
def encodedField (name : String) (number label kind : UInt64) (parts : List Wire.Field) : Wire.Field :=
  .bytes 2 (Wire.print ([.text 1 name, .varint 3 number, .varint 4 label, .varint 5 kind] ++ parts))

/-- A message of rules whose fields are given by name, number and kind. -/
def encodedRules (name : String) (fields : List (String × UInt64 × UInt64)) : Wire.Field :=
  .bytes 4 (Wire.print (.text 1 name ::
    fields.map fun (name, number, kind) => encodedField name number 1 kind []))

/-- The numeric rules of a kind. -/
def encodedNumberRules (name : String) (kind : UInt64) : Wire.Field :=
  encodedRules name
    [("default", 1, kind), ("lt", 2, kind), ("lte", 3, kind), ("gt", 4, kind), ("gte", 5, kind)]

/-- The options that an extension needs to be there. -/
def encodedOptionTypes : Wire.Bytes := Wire.print
  [.text 1 "google/protobuf/descriptor.proto", .text 2 "google.protobuf",
    .bytes 4 (Wire.print [.text 1 "FieldOptions",
      .bytes 5 (Wire.print [.varint 1 1000, .varint 2 536870912])])]

/-- The types of rules, and the extension under which they are given. -/
def encodedRuleTypes : Wire.Bytes := Wire.print
  [.text 1 "validate/validate.proto", .text 2 "validate", .text 3 "google/protobuf/descriptor.proto",
    .bytes 4 (Wire.print (.text 1 "FieldRules" :: .bytes 8 (Wire.print [.text 1 "type"]) ::
      ([("float", 1, "FloatRules"), ("int", 3, "IntRules"), ("string", 14, "StringRules"),
        ("message", 17, "MessageRules"), ("repeated", 18, "RepeatedRules")].map
          fun (name, number, type) =>
            encodedField name number 1 11 [.text 6 (".validate." ++ type), .varint 9 0]))),
    encodedNumberRules "FloatRules" 1, encodedNumberRules "IntRules" 3,
    encodedRules "StringRules"
      [("default", 1, 9), ("len", 2, 4), ("min_length", 3, 4), ("max_length", 4, 4), ("uuid", 5, 8)],
    encodedRules "MessageRules" [("default_factory", 1, 9), ("default_empty", 2, 8)],
    .bytes 4 (Wire.print [.text 1 "RepeatedRules", encodedField "len" 1 1 4 [],
      encodedField "min_length" 2 1 4 [], encodedField "max_length" 3 1 4 [],
      encodedField "items" 4 1 11 [.text 6 ".validate.FieldRules"]]),
    .bytes 7 (Wire.print [.text 1 "rules", .text 2 ".google.protobuf.FieldOptions", .varint 3 1071,
      .varint 4 1, .varint 5 11, .text 6 ".validate.FieldRules"]),
    .text 12 "proto2"]

def annotated (rules : FieldRules) : Wire.Field := .bytes 8 (Wire.print [.bytes 1071 rules.encode])

/-- An order whose lines are messages in it, both with rules, and an item outside of all packages. -/
def annotatedRequest : Wire.Bytes := Wire.print
  [.bytes 15 encodedOptionTypes, .bytes 15 encodedRuleTypes,
    .bytes 15 (Wire.print [.text 1 "shop/orders.proto", .text 2 "shop", .text 3 "validate/validate.proto",
      .bytes 4 (Wire.print [.text 1 "Order",
        encodedField "id" 1 1 9 [annotated (.string { uuid := some true })],
        encodedField "lines" 2 3 11 [.text 6 ".shop.Order.Line",
          annotated (.repeatedOf {} (.message { defaultEmpty := some true }))],
        encodedField "note" 3 1 9 [],
        .bytes 3 (Wire.print [.text 1 "Line",
          encodedField "id" 1 1 3 [annotated (.int { gt := some 0 })]])]),
      .text 12 "proto3"]),
    .bytes 15 (Wire.print [.text 1 "item.proto", .text 3 "validate/validate.proto",
      .bytes 4 (Wire.print [.text 1 "Item",
        encodedField "id" 1 2 9 [annotated (.string { lengths := { maxLength := some 8 } })]])])]

set_option maxRecDepth 100000 in
theorem annotations_attached_orders :
    ∃ r p index s, Request.decode? annotatedRequest = some r ∧
      (Pool.ofFiles r.files).interpret?.filter Pool.isValid = some p ∧ p.KeepsAnnotations r.files ∧
      RuleIndex.ofRequest annotatedRequest r.files = .ok index ∧ Schema.build r.files index = .ok s ∧
      s.allFields.filterMap (fun f => f.rules.map (f.fullName, ·)) =
        [("shop.Order.Line.id", .int { gt := some 0 }),
          ("shop.Order.id", .string { uuid := some true }),
          ("shop.Order.lines", .repeatedOf {} (.message { defaultEmpty := some true })),
          ("Item.id", .string { lengths := { maxLength := some 8 } })] := by
  have hr : ∃ r ∈ Request.decode? annotatedRequest, (∃ f ∈ r.files, declaresRules f = true) ∧
      (∀ x ∈ Pool.fieldsOf r.files, ∀ payload ∈ x.decl.annotation?,
        (FieldRules.decode? payload).isSome = true) ∧
      (∀ x ∈ Pool.fieldsOf r.files, ∀ name ∈ x.decl.typeName, name.toList.head? = some '.') ∧
      (Pool.fieldsOf r.files).filterMap (fun x => x.decl.rules?.map (Pool.fieldName x, ·)) =
        [("shop.Order.Line.id", .int { gt := some 0 }),
          ("shop.Order.id", .string { uuid := some true }),
          ("shop.Order.lines", .repeatedOf {} (.message { defaultEmpty := some true })),
          ("Item.id", .string { lengths := { maxLength := some 8 } })] ∧
      ∃ p ∈ (Pool.ofFiles r.files).interpret?.filter Pool.isValid, p.KeepsAnnotations r.files := by
    decide +kernel
  obtain ⟨r, hrequest, hrules, hread, hnames, hwritten, p, hpool, hkeeps⟩ := hr
  obtain ⟨index, hindex, hattached, hunresolved⟩ :=
    annotations_attached hrequest (by decide +kernel) hpool hrules hread hkeeps
  obtain ⟨s, hs⟩ : ∃ s, Schema.build r.files index = .ok s := by
    cases hbuild : Schema.build r.files index with
    | ok s => exact ⟨s, rfl⟩
    | error e =>
      obtain ⟨x, hx, name, hname, hhead, -⟩ := hunresolved e hbuild
      exact absurd (hnames x hx name hname) hhead
  refine ⟨r, p, index, s, hrequest, hpool, hkeeps, hindex, hs, ?_⟩
  have hsame : s.allFields.map (fun f => f.rules.map (f.fullName, ·)) =
      (Pool.fieldsOf r.files).map fun x => x.decl.rules?.map (Pool.fieldName x, ·) :=
    map_eq_map_of_forall₂ (hattached s hs) fun x f hf => by rw [hf.rules, hf.fullName]
  rw [← hwritten]
  simpa [List.filterMap_map, Function.comp_def] using congrArg (List.filterMap id) hsame

end ProtoModels
