import ProtoModels.Proofs.Schema.Registration
/-!
# Comments

A path names an element of a file. It is followed step by step: each step is a kind and a position among
the elements of this kind. A path leads to the same element in the descriptor of a file and in the file of
the schema (`Element.isRead_atPath?`), and the element has the comment that stands for its path among the
locations of the file, and no other one (`Schema.build_comments`).
-/
namespace ProtoModels

/-! ## Paths -/

/-- Where a path leads from an element, if `children` gives the elements of a kind in an element. -/
def atPath? {α : Type} (children : α → Int → List α) : α → List Int → Option α
  | x, [] => some x
  | _, [_] => none
  | x, kind :: i :: path =>
    match (position? i).bind fun n => (children x kind)[n]? with
    | some child => atPath? children child path
    | none => none

/-- What has a place in a file's descriptor, the file included. -/
inductive Descriptor.Element where
  | file (d : Descriptor.File)
  | message (d : Descriptor.Message)
  | enum (d : Descriptor.Enum)
  | field (d : Descriptor.Field)
  | value (d : Descriptor.EnumValue)

namespace Descriptor.Element

/-- The elements of a kind. What a kind is depends on what the elements are declared in. -/
def children : Element → Int → List Element
  | file d, 4 => d.messages.map message
  | file d, 5 => d.enums.map enum
  | message d, 2 => d.fields.map field
  | message d, 3 => d.nested.map message
  | message d, 4 => d.enums.map enum
  | enum d, 2 => d.values.map value
  | _, _ => []

end Descriptor.Element

/-- What has a place in a file of a schema, the file included. -/
inductive Element where
  | file (f : File)
  | message (m : Message)
  | enum (e : Enum)
  | field (f : Field)
  | value (v : EnumValue)

namespace Element

def children : Element → Int → List Element
  | file f, 4 => f.messages.map message
  | file f, 5 => f.enums.map enum
  | message m, 2 => m.fields.map field
  | message m, 3 => m.messages.map message
  | message m, 4 => m.enums.map enum
  | enum e, 2 => e.values.map value
  | _, _ => []

def comment : Element → Option String
  | file _ => none
  | message m => m.comment
  | enum e => e.comment
  | field f => f.comment
  | value v => v.comment

/-- An element is of the kind that a descriptor says, and has the name that it gives. -/
inductive IsNamedBy : Descriptor.Element → Element → Prop where
  | file {d : Descriptor.File} {f : File} (h : f.path = d.name) : IsNamedBy (.file d) (.file f)
  | message {d : Descriptor.Message} {m : Message} (h : m.name = d.name) :
      IsNamedBy (.message d) (.message m)
  | enum {d : Descriptor.Enum} {e : Enum} (h : e.name = d.name) : IsNamedBy (.enum d) (.enum e)
  | field {d : Descriptor.Field} {f : Field} (h : f.name = d.name) : IsNamedBy (.field d) (.field f)
  | value {d : Descriptor.EnumValue} {v : EnumValue} (h : v.name = d.name) :
      IsNamedBy (.value d) (.value v)

/-- The element that is read from what a descriptor has at a path. -/
inductive IsRead (c : FileContext) : List Int → Descriptor.Element → Element → Prop where
  | file {rules : RuleIndex} {d : Descriptor.File} (h : c = d.context rules) :
      IsRead c [] (.file d) (.file (File.ofDescriptor rules d))
  | message (sc : Scope) (path : List Int) (d : Descriptor.Message) :
      IsRead c path (.message d) (.message (Message.ofDescriptor c sc path d))
  | enum (sc : Scope) (path : List Int) (d : Descriptor.Enum) :
      IsRead c path (.enum d) (.enum (Enum.ofDescriptor c sc path d))
  | field (sc : Scope) (path : List Int) (d : Descriptor.Field) :
      IsRead c path (.field d) (.field (Field.ofDescriptor c sc path d))
  | value (path : List Int) (d : Descriptor.EnumValue) :
      IsRead c path (.value d) (.value ⟨d.name, c.comment? path⟩)

end Element

/-! ## One step -/

theorem Message.getElem?_ofDescriptors (c : FileContext) (sc : Scope) (path : List Int) (i : Nat)
    (ds : List Descriptor.Message) (n : Nat) :
    (Message.ofDescriptors c sc path i ds)[n]? =
      ds[n]?.map (Message.ofDescriptor c sc (path ++ [((i + n : Nat) : Int)])) := by
  induction ds generalizing i n with
  | nil => rfl
  | cons d ds ih =>
    rw [Message.ofDescriptors]
    cases n with
    | zero => rfl
    | succ n => rw [List.getElem?_cons_succ, List.getElem?_cons_succ, ih, Nat.add_right_comm]; rfl

theorem rel_imp {α β : Type} {R S : α → β → Prop} (h : ∀ a b, R a b → S a b) :
    ∀ {x : Option α} {y : Option β}, Option.Rel R x y → Option.Rel S x y
  | _, _, .none => .none
  | _, _, .some hab => .some (h _ _ hab)

theorem rel_map_map {α β γ : Type} {R : β → γ → Prop} {f : α → β} {g : α → γ} (h : ∀ a, R (f a) (g a))
    (o : Option α) : Option.Rel R (o.map f) (o.map g) := by
  cases o with
  | none => exact .none
  | some a => exact .some (h a)

namespace Element

variable {c : FileContext} {path : List Int} {x : Descriptor.Element} {y : Element}

theorem rel_mapIdx {α β : Type} {R : Descriptor.Element → Element → Prop} {f : Nat → α → β}
    {element : α → Descriptor.Element} {read : β → Element} (n : Nat)
    (h : ∀ a, R (element a) (read (f n a))) (l : List α) :
    Option.Rel R (l.map element)[n]? ((l.mapIdx f).map read)[n]? := by
  rw [List.getElem?_map, List.getElem?_map, List.getElem?_mapIdx, Option.map_map]
  exact rel_map_map h _

theorem rel_messages (sc : Scope) (path : List Int) (kind : Int) (n : Nat)
    (ds : List Descriptor.Message) :
    Option.Rel (IsRead c (path ++ [kind, (n : Int)])) (ds.map .message)[n]?
      ((Message.ofDescriptors c sc (path ++ [kind]) 0 ds).map .message)[n]? := by
  rw [List.getElem?_map, List.getElem?_map, Message.getElem?_ofDescriptors, Option.map_map, Nat.zero_add,
    List.append_assoc]
  exact rel_map_map (.message sc _) _

/-- What is read has elements where the descriptor has some, and they are read from these. -/
theorem IsRead.children (h : IsRead c path x y) (kind : Int) (n : Nat) :
    Option.Rel (IsRead c (path ++ [kind, (n : Int)])) (x.children kind)[n]? (y.children kind)[n]? := by
  cases h with
  | @file rules d h =>
    subst h
    by_cases hmessages : kind = 4
    · subst hmessages
      exact rel_messages _ [] 4 n d.messages
    by_cases henums : kind = 5
    · subst henums
      exact rel_mapIdx n (.enum _ _) d.enums
    · simp [Descriptor.Element.children, Element.children, hmessages, henums]
  | message sc path d =>
    obtain ⟨name, fields, extensions, nested, enums, oneofs, ranges, reserved, mapEntry, options⟩ := d
    by_cases hfields : kind = 2
    · subst hfields
      exact rel_mapIdx n (.field _ _) fields
    by_cases hmessages : kind = 3
    · subst hmessages
      exact rel_messages _ path 3 n nested
    by_cases henums : kind = 4
    · subst henums
      exact rel_mapIdx n (.enum _ _) enums
    · simp [Descriptor.Element.children, Element.children, hfields, hmessages, henums]
  | enum sc path d =>
    by_cases hvalues : kind = 2
    · subst hvalues
      exact rel_mapIdx n (.value _) d.values
    · simp [Descriptor.Element.children, Element.children, hvalues]
  | field sc path d => exact .none
  | value path d => exact .none

/-! ## Whole paths -/

theorem position?_eq_some_iff {i : Int} {n : Nat} : position? i = some n ↔ i = (n : Int) := by
  rw [position?]
  split <;> simp <;> omega

/-- **A path leads to the same element in a descriptor and in what is read from it.** -/
theorem IsRead.atPath? : ∀ {path : List Int} {x : Descriptor.Element} {y : Element} (rest : List Int),
    IsRead c path x y → Option.Rel (IsRead c (path ++ rest))
      (ProtoModels.atPath? Descriptor.Element.children x rest) (ProtoModels.atPath? Element.children y rest)
  | path, x, y, [], h => .some (by rwa [List.append_nil])
  | path, x, y, [_], h => .none
  | path, x, y, kind :: i :: rest, h => by
    rw [ProtoModels.atPath?, ProtoModels.atPath?]
    cases hi : position? i with
    | none => exact .none
    | some n =>
      obtain rfl := position?_eq_some_iff.1 hi
      have hstep := h.children kind n
      rw [Option.bind_some, Option.bind_some]
      revert hstep
      cases (x.children kind)[n]? <;> cases (y.children kind)[n]? <;> rintro ⟨⟩
      · exact .none
      · rename_i hchild
        have hrest := hchild.atPath? rest
        rwa [List.append_assoc] at hrest

theorem IsRead.isNamedBy (h : IsRead c path x y) : IsNamedBy x y := by
  cases h with
  | file => exact .file rfl
  | message sc path d => exact .message (Message.name_ofDescriptor c sc path d)
  | enum => exact .enum rfl
  | field => exact .field rfl
  | value => exact .value rfl

/-- Whatever is read at a path has the comment of this path. -/
theorem IsRead.comment_eq (h : IsRead c path x y) (hpath : path ≠ []) : y.comment = c.comment? path := by
  cases h with
  | file => exact absurd rfl hpath
  | message sc path d => cases d; rfl
  | _ => rfl

end Element

/-! ## Comments -/

/-- A location has a path, and a comment that is not blank in front of what stands there. -/
def Descriptor.Location.Comments (l : Location) (path : List Int) (text : String) : Prop :=
  l.path = path ∧ l.leadingComments = some text ∧ Text.isBlankText text = false

/-- The comment of a path is that of the last location which has the path and a comment that is not blank.
Without such a location there is none. -/
def IsCommentAt (locations : List Descriptor.Location) (path : List Int) : Option String → Prop
  | some text => ∃ before l after, locations = before ++ l :: after ∧ l.Comments path text ∧
      ∀ l' ∈ after, ∀ text', ¬ l'.Comments path text'
  | none => ∀ l ∈ locations, ∀ text, ¬ l.Comments path text

theorem isCommentAt_comment? (c : FileContext) (path : List Int) :
    IsCommentAt c.locations path (c.comment? path) := by
  have hcomments (l : Descriptor.Location) :
      (l.path == path && l.leadingComments.any (!Text.isBlankText ·)) = true ↔
        ∃ text, l.Comments path text := by
    simp [Descriptor.Location.Comments, Option.any_eq_true]
  rw [FileContext.comment?, List.findRev?_eq_find?_reverse]
  cases hfind : c.locations.reverse.find?
      fun l => l.path == path && l.leadingComments.any (!Text.isBlankText ·) with
  | none =>
    intro l hl text hl'
    exact List.find?_eq_none.1 hfind l (List.mem_reverse.2 hl) ((hcomments l).2 ⟨text, hl'⟩)
  | some l =>
    obtain ⟨hl, after, before, hsplit, hafter⟩ := List.find?_eq_some_iff_append.1 hfind
    obtain ⟨text, htext⟩ := (hcomments l).1 hl
    have hlocations : c.locations = before.reverse ++ l :: after.reverse := by
      have hreversed := congrArg List.reverse hsplit
      rwa [List.reverse_reverse, List.reverse_append, List.reverse_cons, List.append_assoc] at hreversed
    rw [Option.bind_some, htext.2.1]
    refine ⟨before.reverse, l, after.reverse, hlocations, htext, fun l' hl' text' htext' => ?_⟩
    have hnone := hafter l' (List.mem_reverse.1 hl')
    rw [(hcomments l').2 ⟨text', htext'⟩] at hnone
    cases hnone

/-! ## What a path reaches -/

theorem atPath?_append {α : Type} {children : α → Int → List α} : ∀ {path : List Int} {x y : α}
    (rest : List Int), atPath? children x path = some y →
      atPath? children x (path ++ rest) = atPath? children y rest
  | [], _, _, rest, h => by cases h; rfl
  | [_], _, _, _, h => by cases h
  | kind :: i :: path, x, y, rest, h => by
    rw [List.cons_append, List.cons_append, atPath?]
    rw [atPath?] at h
    split at h
    · exact atPath?_append rest h
    · cases h

namespace Element

/-- The elements that a path leads to in a file. -/
def IsReached (file : File) (y : Element) : Prop :=
  ∃ path, path ≠ [] ∧ atPath? children (.file file) path = some y

theorem isReached_of_mem {file : File} {path : List Int} {y z : Element} (kind : Int)
    (h : ProtoModels.atPath? children (.file file) path = some y) (hz : z ∈ y.children kind) :
    IsReached file z := by
  obtain ⟨n, hn⟩ := List.mem_iff_getElem?.1 hz
  refine ⟨path ++ [kind, (n : Int)], by simp, ?_⟩
  rw [atPath?_append _ h, ProtoModels.atPath?, position?_eq_some_iff.2 rfl, Option.bind_some, hn]
  rfl

/-- A declared type as an element. -/
def ofType : TypeDecl → Element
  | .message m => message m
  | .enum e => enum e

theorem isReached_of_mem_types {file : File} {t : TypeDecl} (h : t ∈ file.types) :
    IsReached file (ofType t) := by
  have hfile : ProtoModels.atPath? children (.file file) [] = some (.file file) := rfl
  rcases File.mem_types.1 h with ⟨e, he, rfl⟩ | ⟨m, hm, ht⟩
  · exact isReached_of_mem 5 hfile (List.mem_map_of_mem he)
  · have hm : IsReached file (ofType (.message m)) :=
      isReached_of_mem 4 hfile (List.mem_map_of_mem hm)
    refine Message.types_induction (P := fun t => IsReached file (ofType t)) ?_ m hm t ht
    rintro m' ⟨path, -, hpath⟩ t ht
    simp only [Message.inner, List.mem_append, List.mem_map] at ht
    rcases ht with ⟨m'', hm'', rfl⟩ | ⟨e, he, rfl⟩
    · exact isReached_of_mem 3 hpath (List.mem_map_of_mem hm'')
    · exact isReached_of_mem 4 hpath (List.mem_map_of_mem he)

theorem isReached_of_mem_allFields {file : File} {f : Field} (h : f ∈ file.allFields) :
    IsReached file (field f) := by
  obtain ⟨m, hm, hf⟩ := Message.mem_allFieldsOfList.1 h
  obtain ⟨m', hm', hf⟩ := m.exists_owner_of_mem_allFields hf
  obtain ⟨path, -, hpath⟩ := isReached_of_mem_types (File.mem_types.2 (.inr ⟨m, hm, hm'⟩))
  exact isReached_of_mem 2 hpath (List.mem_map_of_mem hf)

theorem isReached_of_mem_values {file : File} {e : Enum} (he : .enum e ∈ file.types) {v : EnumValue}
    (hv : v ∈ e.values) : IsReached file (value v) := by
  obtain ⟨path, -, hpath⟩ := isReached_of_mem_types he
  exact isReached_of_mem 2 hpath (List.mem_map_of_mem hv)

end Element

/-! ## Kept files -/

theorem find?_keepFirst {seen : List String} {name : String} (h : name ∉ seen)
    (files : List Descriptor.File) :
    (keepFirst seen files).find? (·.name == name) = files.find? (·.name == name) := by
  induction files generalizing seen with
  | nil => rfl
  | cons d ds ih =>
    rw [keepFirst, List.find?_cons]
    by_cases hname : d.name = name
    · rw [if_neg (hname ▸ h), List.find?_cons, beq_iff_eq.2 hname]
    · rw [beq_eq_false_iff_ne.2 hname]
      split
      · exact ih h
      · rw [List.find?_cons, beq_eq_false_iff_ne.2 hname]
        exact ih (by simp [h, Ne.symm hname])

/-- A kept file is what its path stands for. -/
theorem Schema.file?_of_isKept {files : List Descriptor.File} {i : Nat} {d : Descriptor.File}
    (h : IsKept files i d) (rules : RuleIndex) :
    (ofDescriptors files rules).file? d.name = some (File.ofDescriptor rules d) := by
  have hfind : files.find? (·.name == d.name) = some d := by
    obtain ⟨hi, hd⟩ := List.getElem?_eq_some_iff.1 h.1
    refine List.find?_eq_some_iff_getElem.2 ⟨beq_iff_eq.2 rfl, i, hi, hd, fun j hj => ?_⟩
    have hother := h.2 j hj _ (List.getElem?_eq_getElem (Nat.lt_trans hj hi))
    rw [beq_eq_false_iff_ne.2 hother]
    rfl
  rw [file?, ofDescriptors, List.find?_map]
  exact congrArg (Option.map _) ((find?_keepFirst List.not_mem_nil files).trans hfind)

/-! ## Comments of a schema -/

/-- **Comments are attached to what they were written for.** A path leads to an element in the descriptor
of a kept file exactly if it leads to one in the file of the schema. The two elements are of the same kind
and have the same name, and the second has the comment of this path and no other. All types, enum values
and fields of the file are reached by some path. -/
theorem Schema.build_comments {files : List Descriptor.File} {rules : RuleIndex} {s : Schema}
    (h : build files rules = .ok s) {i : Nat} {d : Descriptor.File} (hkept : IsKept files i d) :
    ∃ file, s.file? d.name = some file ∧
      (∀ path, path ≠ [] → Option.Rel
        (fun x y => Element.IsNamedBy x y ∧ IsCommentAt d.locations path y.comment)
        (atPath? Descriptor.Element.children (.file d) path)
        (atPath? Element.children (.file file) path)) ∧
      (∀ t ∈ file.types, Element.IsReached file (.ofType t)) ∧
      (∀ e, .enum e ∈ file.types → ∀ v ∈ e.values, Element.IsReached file (.value v)) ∧
      ∀ f ∈ file.allFields, Element.IsReached file (.field f) := by
  obtain ⟨rfl, -⟩ := build_eq_ok_iff.1 h
  refine ⟨_, file?_of_isKept hkept rules, fun path hpath => ?_, fun _ => Element.isReached_of_mem_types,
    fun _ he _ => Element.isReached_of_mem_values he, fun _ => Element.isReached_of_mem_allFields⟩
  have hread := (Element.IsRead.file (c := d.context rules) (d := d) rfl).atPath? path
  refine rel_imp (fun x y hxy => ⟨hxy.isNamedBy, ?_⟩) hread
  rw [hxy.comment_eq hpath]
  exact isCommentAt_comment? (d.context rules) path

/-- Comments stand in front of a nested message, a value and a field. Of the three for the message the last
is blank. -/
def commentedFile : Descriptor.File where
  name := "shop.proto"
  package := "shop"
  messages := [
    { name := "Order"
      nested := [{ name := "Line", fields := [{ name := "sku", kind := some 9 }] }]
      enums := [{ name := "Status", values := [{ name := "OPEN" }, { name := "SENT" }] }] }]
  locations := [
    { path := [4, 0, 3, 0], leadingComments := some " One product.\n" },
    { path := [4, 0, 4, 0, 2, 1], leadingComments := some " On its way.\n" },
    { path := [4, 0, 3, 0], leadingComments := some " A line of the order.\n" },
    { path := [4, 0, 3, 0, 2, 0], leadingComments := some " What it is.\n" },
    { path := [4, 0, 3, 0], leadingComments := some " \n" }]

/-- A second file of the same name is not kept, nor is its comment. -/
def commentedFiles : List Descriptor.File := [
  commentedFile,
  { name := "shop.proto", locations := [{ path := [4, 0], leadingComments := some " Not read.\n" }] }]

theorem Schema.build_comments_shop :
    let s := ofDescriptors commentedFiles {}
    build commentedFiles {} = .ok s ∧ IsKept commentedFiles 0 commentedFile ∧
    ∃ file, s.file? "shop.proto" = some file ∧
      (∃ y, atPath? Element.children (.file file) [4, 0] = some y ∧ y.comment = none) ∧
      ∃ y, atPath? Element.children (.file file) [4, 0, 3, 0] = some y ∧
        IsCommentAt commentedFile.locations [4, 0, 3, 0] y.comment ∧
        y.comment = some " A line of the order.\n" := by
  intro s
  have hbuild : build commentedFiles {} = .ok s := build_eq_ok_iff.2 ⟨rfl, by decide +kernel⟩
  have hkept : IsKept commentedFiles 0 commentedFile :=
    ⟨rfl, fun j hj => absurd hj (Nat.not_lt_zero j)⟩
  obtain ⟨file, hfile, hpaths, -⟩ := build_comments hbuild hkept
  obtain rfl : File.ofDescriptor {} commentedFile = file := Option.some.inj hfile
  refine ⟨hbuild, hkept, _, hfile, ⟨_, rfl, by decide +kernel⟩, _, rfl, ?_, by decide +kernel⟩
  cases hpaths [4, 0, 3, 0] (by decide) with
  | some hxy => exact hxy.2

end ProtoModels
