import ProtoModels.Proofs.Descriptor.Declarations
import ProtoModels.Proofs.Schema.FromDescriptors
import ProtoModels.Proofs.Schema.Placement
/-!
# Registration

The files of a schema are the first ones of their names, and all that they declare is registered in the
order of the files and of the paths in them (`registrations`). A schema lists its types and its fields
in this order (`Schema.forall₂_types_registrations`, `Schema.forall₂_allFields_registrations`), so what
it says about names can be read off the descriptors: which schemas can be built, which field is to blame
otherwise, and what each field refers to (`Schema.build_closed`).
-/
namespace ProtoModels

open Descriptor (Declaration Declared)

/-! ## Kept files -/

/-- The file at a position, if no earlier one has its name. -/
def IsKept (files : List Descriptor.File) (i : Nat) (d : Descriptor.File) : Prop :=
  files[i]? = some d ∧ ∀ j < i, ∀ d', files[j]? = some d' → d'.name ≠ d.name

/-- The files that are kept, with their positions from `i` on. -/
def keptFrom (seen : List String) (i : Nat) : List Descriptor.File → List (Nat × Descriptor.File)
  | [] => []
  | d :: ds =>
    if d.name ∈ seen then keptFrom seen (i + 1) ds else (i, d) :: keptFrom (d.name :: seen) (i + 1) ds

theorem map_snd_keptFrom (seen : List String) (i : Nat) (files : List Descriptor.File) :
    (keptFrom seen i files).map (·.2) = keepFirst seen files := by
  induction files generalizing seen i with
  | nil => rfl
  | cons d ds ih =>
    rw [keptFrom, keepFirst]
    split
    · exact ih _ _
    · rw [List.map_cons, ih]

theorem isKept_cons_succ_iff {d₀ : Descriptor.File} {ds : List Descriptor.File} {k : Nat}
    {d : Descriptor.File} : IsKept (d₀ :: ds) (k + 1) d ↔ IsKept ds k d ∧ d₀.name ≠ d.name := by
  rw [IsKept, IsKept, List.getElem?_cons_succ, and_assoc]
  refine and_congr_right fun _ => ⟨fun h => ⟨fun j hj => ?_, h 0 (Nat.succ_pos k) d₀ rfl⟩, fun h => ?_⟩
  · exact h (j + 1) (Nat.succ_lt_succ hj)
  · rintro (_ | j) hj d' hd'
    · cases hd'
      exact h.2
    · exact h.1 j (Nat.lt_of_succ_lt_succ hj) d' hd'

theorem mem_keptFrom_iff {seen : List String} {i k : Nat} {files : List Descriptor.File}
    {d : Descriptor.File} :
    (k, d) ∈ keptFrom seen i files ↔ ∃ n, k = i + n ∧ IsKept files n d ∧ d.name ∉ seen := by
  induction files generalizing seen i with
  | nil => simp [keptFrom, IsKept]
  | cons d₀ ds ih =>
    -- The positions behind the first file are those of the other files, moved by one.
    have hmoved : (∃ n, k = i + n ∧ IsKept (d₀ :: ds) n d ∧ d.name ∉ seen) ↔
        (k = i ∧ d₀ = d ∧ d.name ∉ seen) ∨
          ∃ n, k = i + 1 + n ∧ IsKept ds n d ∧ d₀.name ≠ d.name ∧ d.name ∉ seen := by
      constructor
      · rintro ⟨_ | n, hk, hd, hseen⟩
        · exact Or.inl ⟨hk, Option.some.inj hd.1, hseen⟩
        · obtain ⟨hd, hname⟩ := isKept_cons_succ_iff.1 hd
          exact Or.inr ⟨n, by omega, hd, hname, hseen⟩
      · rintro (⟨hk, rfl, hseen⟩ | ⟨n, hk, hd, hname, hseen⟩)
        · exact ⟨0, hk, ⟨rfl, fun j hj => absurd hj (Nat.not_lt_zero j)⟩, hseen⟩
        · exact ⟨n + 1, by omega, isKept_cons_succ_iff.2 ⟨hd, hname⟩, hseen⟩
    rw [hmoved, keptFrom]
    split
    · rename_i hseen
      rw [ih]
      constructor
      · rintro ⟨n, hk, hd, hd'⟩
        exact Or.inr ⟨n, hk, hd, fun hname => hd' (hname ▸ hseen), hd'⟩
      · rintro (⟨_, rfl, hd⟩ | ⟨n, hk, hd, _, hd'⟩)
        · exact absurd hseen hd
        · exact ⟨n, hk, hd, hd'⟩
    · rename_i hseen
      rw [List.mem_cons, ih, Prod.mk.injEq]
      refine or_congr ⟨fun ⟨hk, hd⟩ => ⟨hk, hd.symm, hd ▸ hseen⟩, fun ⟨hk, hd, _⟩ => ⟨hk, hd.symm⟩⟩ ?_
      refine exists_congr fun n => and_congr_right fun _ => and_congr_right fun _ => ?_
      rw [List.mem_cons, not_or, ne_comm]

theorem pairwise_keptFrom (seen : List String) (i : Nat) (files : List Descriptor.File) :
    (keptFrom seen i files).Pairwise (·.1 < ·.1) := by
  induction files generalizing seen i with
  | nil => exact .nil
  | cons d ds ih =>
    rw [keptFrom]
    split
    · exact ih _ _
    · refine List.pairwise_cons.2 ⟨fun ⟨k, d'⟩ hk => ?_, ih _ _⟩
      obtain ⟨n, rfl, -⟩ := mem_keptFrom_iff.1 hk
      show i < i + 1 + n
      omega

/-! ## All that is registered -/

/-- Where something is declared: the position of the file, and the path in its descriptor. -/
structure Site where
  file : Nat
  path : List Int

/-- What is at the one site is registered before what is at the other. -/
def Site.Before (a b : Site) : Prop :=
  a.file < b.file ∨ a.file = b.file ∧ Descriptor.PathBefore a.path b.path

/-- A kept file declares something at a site, in what has the full name `outer`. -/
def Registers (files : List Descriptor.File) (a : Site) (outer : String) (d : Declaration) : Prop :=
  ∃ file, IsKept files a.file file ∧ file.Declares a.path outer d

/-- Something declared by the file at a position. -/
structure Registration where
  file : Nat
  declared : Declared

namespace Registration

def site (x : Registration) : Site := ⟨x.file, x.declared.path⟩

def isType (x : Registration) : Bool := x.declared.decl.isType

end Registration

/-- All that is registered, in order. -/
def registrations (files : List Descriptor.File) : List Registration :=
  (keptFrom [] 0 files).flatMap fun (i, file) => file.declarations.map (⟨i, ·⟩)

theorem mem_registrations_iff {files : List Descriptor.File} {x : Registration} :
    x ∈ registrations files ↔ Registers files x.site x.declared.outer x.declared.decl := by
  rw [registrations, List.mem_flatMap]
  constructor
  · rintro ⟨⟨i, file⟩, hfile, hx⟩
    obtain ⟨y, hy, rfl⟩ := List.mem_map.1 hx
    obtain ⟨n, hn, hkept, -⟩ := mem_keptFrom_iff.1 hfile
    rw [Nat.zero_add] at hn
    exact ⟨file, hn ▸ hkept, Descriptor.File.mem_declarations_iff.1 hy⟩
  · rintro ⟨file, hkept, hdeclares⟩
    refine ⟨(x.file, file), mem_keptFrom_iff.2 ⟨x.file, (Nat.zero_add _).symm, hkept, by simp⟩, ?_⟩
    exact List.mem_map.2 ⟨x.declared, Descriptor.File.mem_declarations_iff.2 hdeclares, rfl⟩

theorem pairwise_registrations (files : List Descriptor.File) :
    (registrations files).Pairwise fun x y => x.site.Before y.site := by
  rw [registrations, List.pairwise_flatMap]
  refine ⟨fun ⟨i, file⟩ _ => ?_, ?_⟩
  · rw [List.pairwise_map]
    exact file.pairwise_declarations.imp fun h => Or.inr ⟨rfl, h⟩
  · refine (pairwise_keptFrom [] 0 files).imp fun {a b} hlt x hx y hy => ?_
    obtain ⟨x, _, rfl⟩ := List.mem_map.1 hx
    obtain ⟨y, _, rfl⟩ := List.mem_map.1 hy
    exact Or.inl hlt

/-! ## Declarations of a schema -/

/-- The type that is read from a declaration. -/
inductive TypeDecl.IsRead (c : FileContext) : Declared → TypeDecl → Prop where
  | message (sc : Scope) (path : List Int) (d : Descriptor.Message) :
      IsRead c ⟨path, sc.outer, .message d⟩ (.message (Message.ofDescriptor c sc path d))
  | enum (sc : Scope) (path : List Int) (d : Descriptor.Enum) :
      IsRead c ⟨path, sc.outer, .enum d⟩ (.enum (Enum.ofDescriptor c sc path d))

/-- The field that is read from a declaration. -/
inductive Field.IsRead (c : FileContext) : Declared → Field → Prop where
  | field (sc : Scope) (path : List Int) (d : Descriptor.Field) :
      IsRead c ⟨path, sc.outer, .field d⟩ (Field.ofDescriptor c sc path d)

theorem TypeDecl.IsRead.fullName_eq {c : FileContext} {x : Declared} {t : TypeDecl}
    (h : TypeDecl.IsRead c x t) : t.fullName = x.fullName := by
  cases h with
  | message sc path d => cases d; rfl
  | enum => rfl

theorem TypeDecl.IsRead.place_eq {c : FileContext} {x : Declared} {t : TypeDecl}
    (h : TypeDecl.IsRead c x t) : t.place.file = c.file ∧ t.place.path = x.path := by
  cases h with
  | message sc path d => cases d; exact ⟨rfl, rfl⟩
  | enum => exact ⟨rfl, rfl⟩

section
variable {α β : Type}

theorem filter_mapIdx_eq_self {p : β → Bool} {f : Nat → α → β} (h : ∀ i a, p (f i a) = true)
    (l : List α) : (l.mapIdx f).filter p = l.mapIdx f :=
  List.filter_eq_self.2 fun b hb => by
    obtain ⟨i, _, rfl⟩ := List.mem_mapIdx.1 hb
    exact h _ _

theorem filter_mapIdx_eq_nil {p : β → Bool} {f : Nat → α → β} (h : ∀ i a, p (f i a) = false)
    (l : List α) : (l.mapIdx f).filter p = [] :=
  List.filter_eq_nil_iff.2 fun b hb => by
    obtain ⟨i, _, rfl⟩ := List.mem_mapIdx.1 hb
    simp [h]

theorem forall₂_mapIdx_mapIdx {γ : Type} {R : β → γ → Prop} {f : Nat → α → β} {g : Nat → α → γ}
    (h : ∀ i a, R (f i a) (g i a)) (l : List α) : List.Forall₂ R (l.mapIdx f) (l.mapIdx g) :=
  List.forall₂_iff_get.2 ⟨by simp, fun i _ _ => by simpa using h i _⟩

end

section
variable {c : FileContext}

theorem Enum.forall₂_isRead (sc : Scope) (path : Nat → List Int) (enums : List Descriptor.Enum) :
    List.Forall₂ (TypeDecl.IsRead c) (enums.mapIdx fun i e => ⟨path i, sc.outer, .enum e⟩)
      ((enums.mapIdx fun i e => Enum.ofDescriptor c sc (path i) e).map .enum) := by
  rw [List.forall₂_map_right_iff]
  exact forall₂_mapIdx_mapIdx (fun i e => .enum sc _ e) enums

mutual
theorem Message.forall₂_types : ∀ (sc : Scope) (path : List Int) (d : Descriptor.Message),
    List.Forall₂ (TypeDecl.IsRead c) ((d.declarations sc.outer path).filter (·.decl.isType))
      (Message.ofDescriptor c sc path d).types
  | sc, path, ⟨name, fields, extensions, nested, enums, oneofs, ranges, reserved, mapEntry, options⟩ => by
    have hnested := Message.forall₂_typesOfList (sc.enter name) (path ++ [3]) 0 nested
    have henums := Enum.forall₂_isRead (c := c) (sc.enter name) (fun i => path ++ [4, (i : Int)]) enums
    have hself := TypeDecl.IsRead.message (c := c) sc path
      ⟨name, fields, extensions, nested, enums, oneofs, ranges, reserved, mapEntry, options⟩
    rw [Descriptor.Message.declarations_eq, Message.types_eq]
    rw [List.filter_cons_of_pos rfl, List.filter_append, List.filter_append,
      filter_mapIdx_eq_self (fun _ _ => rfl), filter_mapIdx_eq_nil (fun _ _ => rfl), List.append_nil]
    exact .cons hself (List.rel_append henums hnested)

theorem Message.forall₂_typesOfList :
    ∀ (sc : Scope) (path : List Int) (i : Nat) (ds : List Descriptor.Message),
      List.Forall₂ (TypeDecl.IsRead c)
        ((Descriptor.Message.declarationsFrom sc.outer path i ds).filter (·.decl.isType))
        (Message.typesOfList (Message.ofDescriptors c sc path i ds))
  | _, _, _, [] => .nil
  | sc, path, i, d :: ds => by
    rw [Descriptor.Message.declarationsFrom, List.filter_append, Message.ofDescriptors,
      Message.typesOfList]
    exact List.rel_append (Message.forall₂_types sc _ d) (Message.forall₂_typesOfList sc path (i + 1) ds)
end

mutual
theorem Message.forall₂_allFields_declarations :
    ∀ (sc : Scope) (path : List Int) (d : Descriptor.Message),
      List.Forall₂ (Field.IsRead c) ((d.declarations sc.outer path).filter (!·.decl.isType))
        (Message.ofDescriptor c sc path d).allFields
  | sc, path, ⟨name, fields, extensions, nested, enums, oneofs, ranges, reserved, mapEntry, options⟩ => by
    have hnested := Message.forall₂_allFieldsOfList_declarations (sc.enter name) (path ++ [3]) 0 nested
    have hfields := forall₂_mapIdx_mapIdx (R := Field.IsRead c)
      (fun i f => .field (sc.enter name) (path ++ [2, (i : Int)]) f) fields
    rw [Descriptor.Message.declarations_eq, Message.allFields_eq]
    rw [List.filter_cons_of_neg (by simp [Declaration.isType]), List.filter_append, List.filter_append,
      filter_mapIdx_eq_nil (fun _ _ => rfl), filter_mapIdx_eq_self (fun _ _ => rfl), List.nil_append]
    exact List.rel_append hnested hfields

theorem Message.forall₂_allFieldsOfList_declarations :
    ∀ (sc : Scope) (path : List Int) (i : Nat) (ds : List Descriptor.Message),
      List.Forall₂ (Field.IsRead c)
        ((Descriptor.Message.declarationsFrom sc.outer path i ds).filter (!·.decl.isType))
        (Message.allFieldsOfList (Message.ofDescriptors c sc path i ds))
  | _, _, _, [] => .nil
  | sc, path, i, d :: ds => by
    rw [Descriptor.Message.declarationsFrom, List.filter_append, Message.ofDescriptors,
      Message.allFieldsOfList]
    exact List.rel_append (Message.forall₂_allFields_declarations sc _ d)
      (Message.forall₂_allFieldsOfList_declarations sc path (i + 1) ds)
end

end

/-- What all declarations of a file share. -/
def Descriptor.File.context (rules : RuleIndex) (d : Descriptor.File) : FileContext :=
  ⟨d.name, d.package, .ofText d.dialect, d.locations, rules⟩

theorem File.forall₂_types (rules : RuleIndex) (d : Descriptor.File) :
    List.Forall₂ (TypeDecl.IsRead (d.context rules)) (d.declarations.filter (·.decl.isType))
      (File.ofDescriptor rules d).types := by
  have henums := Enum.forall₂_isRead (c := d.context rules) (d.context rules).scope
    (fun i => [5, (i : Int)]) d.enums
  rw [Descriptor.File.declarations, List.filter_append, filter_mapIdx_eq_self (fun _ _ => rfl), File.types]
  exact List.rel_append henums (Message.forall₂_typesOfList (d.context rules).scope [4] 0 d.messages)

theorem File.forall₂_allFields_declarations (rules : RuleIndex) (d : Descriptor.File) :
    List.Forall₂ (Field.IsRead (d.context rules)) (d.declarations.filter (!·.decl.isType))
      (File.ofDescriptor rules d).allFields := by
  rw [Descriptor.File.declarations, List.filter_append, filter_mapIdx_eq_nil (fun _ _ => rfl),
    List.nil_append]
  exact Message.forall₂_allFieldsOfList_declarations (d.context rules).scope [4] 0 d.messages

/-- What is read of each kept file, in the order of the files, is read of all that is registered. -/
theorem forall₂_registrations {β : Type} {R : Nat × Descriptor.File → Declared → β → Prop}
    {p : Declared → Bool} {g : Descriptor.File → List β} {files : List Descriptor.File}
    (h : ∀ i file, List.Forall₂ (R (i, file)) (file.declarations.filter p) (g file)) :
    List.Forall₂ (fun x b => ∃ file, IsKept files x.file file ∧ R (x.file, file) x.declared b)
      ((registrations files).filter (p ·.declared)) ((keepFirst [] files).flatMap g) := by
  rw [registrations, List.filter_flatMap, ← map_snd_keptFrom [] 0, List.flatMap_map]
  refine List.rel_flatMap (R := fun a b => a = b ∧ a ∈ keptFrom [] 0 files)
    (List.forall₂_same.2 fun a ha => ⟨rfl, ha⟩) ?_
  rintro ⟨i, file⟩ _ ⟨rfl, hmem⟩
  obtain ⟨n, hn, hkept, -⟩ := mem_keptFrom_iff.1 hmem
  rw [Nat.zero_add] at hn
  dsimp only
  rw [List.filter_map, List.forall₂_map_left_iff]
  exact (h i file).imp fun x b hx => ⟨file, hn ▸ hkept, hx⟩

namespace Schema

variable {files : List Descriptor.File} {rules : RuleIndex}

/-- **The types of a schema** are those registered, in order. -/
theorem forall₂_types_registrations (files : List Descriptor.File) (rules : RuleIndex) :
    List.Forall₂
      (fun x t => ∃ file, IsKept files x.file file ∧ TypeDecl.IsRead (file.context rules) x.declared t)
      ((registrations files).filter (·.isType)) (ofDescriptors files rules).types := by
  rw [types, ofDescriptors, List.flatMap_map]
  exact forall₂_registrations (R := fun a => TypeDecl.IsRead (a.2.context rules)) fun _ file =>
    File.forall₂_types rules file

/-- **The fields of a schema** are those registered, in order. -/
theorem forall₂_allFields_registrations (files : List Descriptor.File) (rules : RuleIndex) :
    List.Forall₂
      (fun x f => ∃ file, IsKept files x.file file ∧ Field.IsRead (file.context rules) x.declared f)
      ((registrations files).filter (!·.isType)) (ofDescriptors files rules).allFields := by
  rw [allFields, ofDescriptors, List.flatMap_map]
  exact forall₂_registrations (R := fun a => Field.IsRead (a.2.context rules)) fun _ file =>
    File.forall₂_allFields_declarations rules file

end Schema

/-! ## Names and references -/

/-- A type with a full name is registered at a site. -/
def RegistersType (files : List Descriptor.File) (a : Site) (name : String) : Prop :=
  ∃ outer d, Registers files a outer d ∧ d.isType = true ∧ qualify outer d.name = name

/-- Of the types with a full name the one at a site is registered last. -/
def RegistersLast (files : List Descriptor.File) (a : Site) (name : String) : Prop :=
  RegistersType files a name ∧ ∀ b, RegistersType files b name → b = a ∨ b.Before a

/-- The field that is registered at a site refers to a type, and no type has the name that it gives. -/
def IsUnresolved (files : List Descriptor.File) (a : Site) (outer : String) (d : Descriptor.Field) :
    Prop :=
  Registers files a outer (.field d) ∧ FieldKind.ofNumber (d.kind.getD 0) ∈ [.message, .enum, .group] ∧
    ∀ b, ¬ RegistersType files b (dropLeadingDot (d.typeName.getD ""))

/-- A type that was read from what is at a site. -/
def TypeDecl.StandsAt (t : TypeDecl) (files : List Descriptor.File) (a : Site) : Prop :=
  ∃ file, IsKept files a.file file ∧ t.place.file = file.name ∧ t.place.path = a.path

/-- What is found first is at the first place of all where it could be found. -/
theorem exists_first_of_find? {α β : Type} {R : α → β → Prop} {S : α → α → Prop} {as : List α}
    {bs : List β} (h : List.Forall₂ R as bs) (hS : as.Pairwise S) {p : β → Bool} {b : β}
    (hfind : bs.find? p = some b) : ∃ a ∈ as, R a b ∧ p b = true ∧
      ∀ a' ∈ as, (∀ b', R a' b' → p b' = true) → a' = a ∨ S a a' := by
  induction h with
  | nil => cases hfind
  | @cons a₀ b₀ as bs hab _ ih =>
    obtain ⟨hfirst, hS⟩ := List.pairwise_cons.1 hS
    rw [List.find?_cons] at hfind
    cases hp : p b₀ with
    | true =>
      rw [hp] at hfind
      cases hfind
      refine ⟨a₀, List.mem_cons_self .., hab, hp, fun a' ha' _ => ?_⟩
      exact (List.mem_cons.1 ha').imp_right (hfirst a')
    | false =>
      rw [hp] at hfind
      obtain ⟨a, ha, hab', hpb, hmin⟩ := ih hS hfind
      refine ⟨a, List.mem_cons_of_mem _ ha, hab', hpb, fun a' ha' hp' => ?_⟩
      rcases List.mem_cons.1 ha' with rfl | ha'
      · rw [hp' b₀ hab] at hp
        cases hp
      · exact hmin a' ha' hp'

namespace Schema

variable {files : List Descriptor.File} {rules : RuleIndex}

/-- **What a name stands for** is the type of this name that is registered last. -/
theorem exists_last_of_type? {name : String} {t : TypeDecl}
    (h : (ofDescriptors files rules).type? name = some t) :
    ∃ a, t.StandsAt files a ∧ RegistersLast files a (dropLeadingDot name) := by
  rw [type?, List.findRev?_eq_find?_reverse] at h
  have hordered := List.pairwise_reverse.2 ((pairwise_registrations files).filter (·.isType))
  obtain ⟨x, hx, ⟨file, hkept, hread⟩, hname, hlast⟩ :=
    exists_first_of_find? (List.forall₂_reverse_iff.2 (forall₂_types_registrations files rules)) hordered h
  rw [List.mem_reverse, List.mem_filter, mem_registrations_iff] at hx
  have hfull : t.fullName = dropLeadingDot name := by simpa using hname
  refine ⟨x.site, ⟨file, hkept, hread.place_eq⟩, ⟨_, _, hx.1, hx.2, ?_⟩, ?_⟩
  · rw [← hfull, hread.fullName_eq]
    rfl
  · rintro b ⟨outer, d, hregisters, htype, hname⟩
    have hmem : (⟨b.file, ⟨b.path, outer, d⟩⟩ : Registration) ∈
        ((registrations files).filter (·.isType)).reverse := by
      rw [List.mem_reverse, List.mem_filter, mem_registrations_iff]
      exact ⟨hregisters, htype⟩
    refine (hlast _ hmem ?_).imp (congrArg Registration.site) id
    rintro t' ⟨_, _, hread'⟩
    rw [hread'.fullName_eq]
    exact beq_iff_eq.2 hname

/-- A name stands for something exactly if a type of this name is registered. -/
theorem type?_eq_none_iff {name : String} : (ofDescriptors files rules).type? name = none ↔
    ∀ a, ¬ RegistersType files a (dropLeadingDot name) := by
  constructor
  · rintro h a ⟨outer, d, hregisters, htype, hname⟩
    have hmem : (⟨a.file, ⟨a.path, outer, d⟩⟩ : Registration) ∈
        (registrations files).filter (·.isType) :=
      List.mem_filter.2 ⟨mem_registrations_iff.2 hregisters, htype⟩
    obtain ⟨t, ht, _, _, hread⟩ :=
      exists_of_forall₂_left (forall₂_types_registrations files rules) _ hmem
    have hsome := isSome_type?_of_mem ht (hread.fullName_eq.trans hname)
    rw [h] at hsome
    cases hsome
  · intro h
    rw [Option.eq_none_iff_forall_ne_some]
    intro t ht
    obtain ⟨a, -, hlast⟩ := exists_last_of_type? ht
    exact h a hlast.1

/-- A field has no target if it is of another kind, or if no type has the name that it gives. -/
theorem target?_eq_none_iff {f : Field} :
    (ofDescriptors files rules).target? f = none ↔ f.kind.isReference = false ∨
      ∀ a, ¬ RegistersType files a (dropLeadingDot (f.typeName.getD "")) := by
  rw [target?]
  cases f.kind.isReference with
  | false => simp
  | true => simpa using type?_eq_none_iff

theorem build_eq_error_iff {e : CompileError} : build files rules = .error e ↔
    ∃ f, (ofDescriptors files rules).firstUnresolved? = some f ∧
      e = .unresolvedType f.fullName (f.typeName.getD "") := by
  rw [build]
  cases (ofDescriptors files rules).firstUnresolved? <;> simp [eq_comm]

/-- The first field that refers to nothing is to blame. -/
theorem exists_first_of_firstUnresolved? {f : Field}
    (h : (ofDescriptors files rules).firstUnresolved? = some f) :
    ∃ a outer d, IsUnresolved files a outer d ∧
      (∀ a' outer' d', IsUnresolved files a' outer' d' → a' = a ∨ a.Before a') ∧
      f.fullName = qualify outer d.name ∧ f.typeName = d.typeName := by
  have hordered := (pairwise_registrations files).filter (!·.isType)
  obtain ⟨x, hx, ⟨file, hkept, hread⟩, hnone, hfirst⟩ :=
    exists_first_of_find? (forall₂_allFields_registrations files rules) hordered h
  rw [List.mem_filter, mem_registrations_iff] at hx
  obtain ⟨i, declared⟩ := x
  cases hread with
  | field sc path d =>
    rw [Bool.and_eq_true, Option.isNone_iff_eq_none, target?_eq_none_iff] at hnone
    have hmissing := hnone.2.resolve_left (by simp [hnone.1])
    refine ⟨_, sc.outer, d, ⟨hx.1, FieldKind.isReference_iff.1 hnone.1, hmissing⟩, ?_, rfl, rfl⟩
    rintro a' outer' d' ⟨hregisters, hkind, hmissing'⟩
    have hmem : (⟨a'.file, ⟨a'.path, outer', .field d'⟩⟩ : Registration) ∈
        (registrations files).filter (!·.isType) :=
      List.mem_filter.2 ⟨mem_registrations_iff.2 hregisters, rfl⟩
    refine (hfirst _ hmem ?_).imp (congrArg Registration.site) id
    rintro f' ⟨file', _, hread'⟩
    cases hread' with
    | field sc' path' d' =>
      rw [Bool.and_eq_true, Option.isNone_iff_eq_none, target?_eq_none_iff]
      exact ⟨FieldKind.isReference_iff.2 hkind, Or.inr hmissing'⟩

theorem exists_firstUnresolved?_of_isUnresolved (rules : RuleIndex) {a : Site} {outer : String}
    {d : Descriptor.Field} (h : IsUnresolved files a outer d) :
    ∃ f, (ofDescriptors files rules).firstUnresolved? = some f := by
  obtain ⟨hregisters, hkind, hmissing⟩ := h
  have hmem : (⟨a.file, ⟨a.path, outer, .field d⟩⟩ : Registration) ∈
      (registrations files).filter (!·.isType) :=
    List.mem_filter.2 ⟨mem_registrations_iff.2 hregisters, rfl⟩
  obtain ⟨f, hf, file, _, hread⟩ :=
    exists_of_forall₂_left (forall₂_allFields_registrations files rules) _ hmem
  rw [← Option.isSome_iff_exists, firstUnresolved?, List.find?_isSome]
  refine ⟨f, hf, ?_⟩
  cases hread with
  | field sc path d =>
    rw [Bool.and_eq_true, Option.isNone_iff_eq_none, target?_eq_none_iff]
    exact ⟨FieldKind.isReference_iff.2 hkind, Or.inr hmissing⟩

theorem mem_map_site_iff {a : Site} :
    a ∈ ((registrations files).filter (!·.isType)).map Registration.site ↔
      ∃ outer d, Registers files a outer (.field d) := by
  simp only [List.mem_map, List.mem_filter, mem_registrations_iff]
  constructor
  · rintro ⟨⟨i, path, outer, decl⟩, ⟨hregisters, hfield⟩, rfl⟩
    cases decl with
    | field d => exact ⟨outer, d, hregisters⟩
    | message d => cases hfield
    | enum d => cases hfield
  · rintro ⟨outer, d, hregisters⟩
    exact ⟨⟨a.file, a.path, outer, .field d⟩, ⟨hregisters, rfl⟩, rfl⟩

/-- A field that refers to a type finds it, unless its reference is unresolved. -/
theorem exists_target?_of_resolved (hresolved : (ofDescriptors files rules).firstUnresolved? = none)
    {a : Site} {outer : String} {d : Descriptor.Field} (hregisters : Registers files a outer (.field d))
    {f : Field} (hkind : f.kind = .ofNumber (d.kind.getD 0)) (htype : f.typeName = d.typeName)
    (hreference : f.kind ∈ [.message, .enum, .group]) :
    ∃ t b, (ofDescriptors files rules).target? f = some t ∧
      t.fullName = dropLeadingDot (d.typeName.getD "") ∧ t.StandsAt files b ∧
      RegistersLast files b t.fullName := by
  cases htarget : (ofDescriptors files rules).target? f with
  | none =>
    have hmissing := (target?_eq_none_iff.1 htarget).resolve_left
      (by simp [FieldKind.isReference_iff.2 hreference])
    rw [htype] at hmissing
    obtain ⟨f', hf'⟩ := exists_firstUnresolved?_of_isUnresolved rules
      ⟨hregisters, hkind ▸ hreference, hmissing⟩
    rw [hresolved] at hf'
    cases hf'
  | some t =>
    rw [target?, if_pos (FieldKind.isReference_iff.2 hreference), htype] at htarget
    have hname := (mem_types_of_type? htarget).2
    obtain ⟨b, hstands, hlast⟩ := exists_last_of_type? htarget
    exact ⟨t, b, rfl, hname, hstands, hname ▸ hlast⟩

/-- **Exactly the closed schemas can be built.** Building fails if some field of a kept file refers to a
type that no kept file declares, and then blames the field of this kind that is registered first.
Otherwise the schema has the fields that are registered, in order. Each that refers to a type, being a
message, an enum or a group, has the type of this name that is registered last as its target, and the
others have none. -/
theorem build_closed (files : List Descriptor.File) (rules : RuleIndex) :
    ((∃ e, build files rules = .error e) ↔ ∃ a outer d, IsUnresolved files a outer d) ∧
    (∀ e, build files rules = .error e → ∃ a outer d, IsUnresolved files a outer d ∧
      (∀ a' outer' d', IsUnresolved files a' outer' d' → a' = a ∨ a.Before a') ∧
      e = .unresolvedType (qualify outer d.name) (d.typeName.getD "")) ∧
    ∀ s, build files rules = .ok s → ∃ sites : List Site, sites.Pairwise Site.Before ∧
      (∀ a, a ∈ sites ↔ ∃ outer d, Registers files a outer (.field d)) ∧
      List.Forall₂ (fun a f => ∃ outer d, Registers files a outer (.field d) ∧
        f.fullName = qualify outer d.name ∧ f.kind = .ofNumber (d.kind.getD 0) ∧
        (f.kind ∈ [.message, .enum, .group] → ∃ t b, s.target? f = some t ∧
          t.fullName = dropLeadingDot (d.typeName.getD "") ∧ t.StandsAt files b ∧
          RegistersLast files b t.fullName) ∧
        (f.kind ∉ [.message, .enum, .group] → s.target? f = none)) sites s.allFields := by
  refine ⟨?_, ?_, ?_⟩
  · simp only [build_eq_error_iff]
    constructor
    · rintro ⟨e, f, hf, -⟩
      obtain ⟨a, outer, d, h, -⟩ := exists_first_of_firstUnresolved? hf
      exact ⟨a, outer, d, h⟩
    · rintro ⟨a, outer, d, h⟩
      obtain ⟨f, hf⟩ := exists_firstUnresolved?_of_isUnresolved rules h
      exact ⟨_, f, hf, rfl⟩
  · intro e he
    obtain ⟨f, hf, rfl⟩ := build_eq_error_iff.1 he
    obtain ⟨a, outer, d, h, hfirst, hname, htype⟩ := exists_first_of_firstUnresolved? hf
    exact ⟨a, outer, d, h, hfirst, by rw [hname, htype]⟩
  · intro s hs
    obtain ⟨rfl, hresolved⟩ := build_eq_ok_iff.1 hs
    refine ⟨((registrations files).filter (!·.isType)).map Registration.site, ?_,
      fun a => mem_map_site_iff, ?_⟩
    · exact List.pairwise_map.2 ((pairwise_registrations files).filter (!·.isType))
    · rw [List.forall₂_map_left_iff]
      have hregistered : ∀ x ∈ (registrations files).filter (!·.isType), x ∈ registrations files :=
        fun x hx => (List.mem_filter.1 hx).1
      refine ((List.forall₂_and_left _ _).2 ⟨hregistered,
        forall₂_allFields_registrations files rules⟩).imp ?_
      rintro ⟨i, declared⟩ f ⟨hx, file, hkept, hread⟩
      rw [mem_registrations_iff] at hx
      cases hread with
      | field sc path d =>
        exact ⟨sc.outer, d, hx, rfl, rfl, exists_target?_of_resolved hresolved hx rfl rfl,
          fun hkind => target?_eq_none_iff.2
            (Or.inl (Bool.eq_false_iff.2 (mt FieldKind.isReference_iff.1 hkind)))⟩

end Schema

end ProtoModels
