import ProtoModels.Proofs.Graph.Listing
import ProtoModels.Proofs.Graph.Placement
import ProtoModels.Proofs.Schema.WalkReach
/-!
# Well-formed graphs

A graph that is built can be followed along its numbers in every direction (`Graph.WellFormed`). Every
number in it is the number of an entry: lists, owners and targets lead to declarations, and so do the
registries. The lists hold each declaration once, in the owner that it knows and in the order of the
descriptor, and from owner to owner one gets to the file of the declaration (`Graph.build_wellFormed`).
-/
namespace ProtoModels

theorem dropLeadingDot_dot_append (name : String) : dropLeadingDot ("." ++ name) = name := by
  simp [dropLeadingDot]

theorem dropLeadingDot_of_head?_ne {name : String} (h : name.toList.head? ≠ some '.') :
    dropLeadingDot name = name := by
  unfold dropLeadingDot
  split
  · rename_i heq
    simp [heq] at h
  · rfl

namespace Graph

variable {g : Graph}

/-! ## Following numbers -/

/-- Everything that has an owner. -/
def members (g : Graph) : List Member :=
  (List.range g.messages.length).map (.type <| .message ·) ++
    (List.range g.enums.length).map (.type <| .enum ·) ++ (List.range g.fields.length).map .field

/-- What an owner lists. -/
def lists (g : Graph) : Owner → List Member
  | .file i => (g.files[i]?).elim [] FileEntry.members
  | .message i => (g.messages[i]?).elim [] MessageEntry.members

def owner? (g : Graph) : Member → Option Owner
  | .type (.message i) => (g.messages[i]?).map (·.parent)
  | .type (.enum i) => (g.enums[i]?).map (·.parent)
  | .field i => (g.fields[i]?).map (.message ·.message)

def fullName? (g : Graph) : TypeId → Option String
  | .message i => (g.messages[i]?).map (·.fullName)
  | .enum i => (g.enums[i]?).map (·.fullName)

/-- From an owner the file with the number `i` is reached, through messages in that file. -/
inductive EndsAt (g : Graph) (i : Nat) : Owner → Prop where
  | file : i < g.files.length → EndsAt g i (.file i)
  | message {j : Nat} {m : MessageEntry} : g.messages[j]? = some m → m.file = i →
      EndsAt g i m.parent → EndsAt g i (.message j)

structure WellFormed (g : Graph) : Prop where
  /-- The lists hold everything that has an owner, each once, and nothing else. -/
  members_perm : (g.files.flatMap (·.members) ++ g.messages.flatMap (·.members)).Perm g.members
  /-- What lists something is its owner. -/
  mem_lists_iff : ∀ o x, x ∈ g.lists o ↔ g.owner? x = some o
  message_stands : ∀ m ∈ g.messages, g.Stands m.parent m.file m.name m.fullName
  enum_stands : ∀ e ∈ g.enums, g.Stands e.parent e.file e.name e.fullName
  field_stands : ∀ f ∈ g.fields, ∃ file, g.Stands (.message f.message) file f.name f.fullName
  parent_lt : ∀ (i j : Nat) (m : MessageEntry), g.messages[j]? = some m → m.parent = .message i → i < j
  message_ends : ∀ m ∈ g.messages, g.EndsAt m.file m.parent
  enum_ends : ∀ e ∈ g.enums, g.EndsAt e.file e.parent
  /-- Fields that refer to a type have a target, and it has the name that they give. -/
  isSome_target : ∀ f ∈ g.fields, f.target.isSome = f.kind.isReference
  fullName_target : ∀ f ∈ g.fields, ∀ t, f.target = some t →
    g.fullName? t = some (dropLeadingDot (f.typeName.getD ""))
  paths_nodup : (g.files.map (·.path)).Nodup
  mem_filesByPath_iff : ∀ path i,
    (path, i) ∈ g.filesByPath ↔ (g.files[i]?).map (·.path) = some path
  mem_typesByName_iff : ∀ name t, (name, t) ∈ g.typesByName ↔ g.fullName? t = some name
  /-- A type is found by its full name, with a dot in front or without, or another one of that name. -/
  exists_type? : ∀ t name, g.fullName? t = some name → ∃ u, g.fullName? u = some name ∧
    g.type? ("." ++ name) = some u ∧ (name.toList.head? ≠ some '.' → g.type? name = some u)

/-! ### Entries and their numbers -/

theorem mem_listed_iff {o : Owner} {x : Member} : (o, x) ∈ g.listed {} ↔ x ∈ g.lists o := by
  cases o with
  | file i => cases h : g.files[i]? <;> simp [listed, lists, List.mk_mem_zipIdx_iff_getElem?, h]
  | message i => cases h : g.messages[i]? <;> simp [listed, lists, List.mk_mem_zipIdx_iff_getElem?, h]

theorem mem_owned_iff {o : Owner} {x : Member} : (o, x) ∈ g.owned {} ↔ g.owner? x = some o := by
  match x with
  | .type (.message i) => simp [owned, owner?, List.mk_mem_zipIdx_iff_getElem?]
  | .type (.enum i) => simp [owned, owner?, List.mk_mem_zipIdx_iff_getElem?]
  | .field i => simp [owned, owner?, List.mk_mem_zipIdx_iff_getElem?]

theorem mem_named_iff {name : String} {t : TypeId} :
    (name, t) ∈ g.named {} ↔ g.fullName? t = some name := by
  cases t with
  | message i => simp [named, fullName?, List.mk_mem_zipIdx_iff_getElem?]
  | enum i => simp [named, fullName?, List.mk_mem_zipIdx_iff_getElem?]

theorem mem_pathed_iff {path : String} {i : Nat} :
    (path, i) ∈ g.pathed {} ↔ (g.files[i]?).map (·.path) = some path := by
  simp [pathed, List.mk_mem_zipIdx_iff_getElem?]

theorem map_snd_listed : (g.listed {}).map (·.2) =
    (g.files.flatMap (·.members) ++ g.messages.flatMap (·.members) : List Member) := by
  have hfiles : g.files.zipIdx.flatMap (·.1.members) = g.files.flatMap (·.members) := by
    rw [← List.flatMap_map, List.zipIdx_map_fst]
  have hmessages : g.messages.zipIdx.flatMap (·.1.members) = g.messages.flatMap (·.members) := by
    rw [← List.flatMap_map, List.zipIdx_map_fst]
  simp [listed, List.map_flatMap, Function.comp_def, hfiles, hmessages]

theorem map_snd_owned : (g.owned {}).map (·.2) = (g.members : List Member) := by
  simp only [owned, members, Multiset.map_add, Multiset.map_coe, List.map_map, ← Multiset.coe_add,
    List.range_eq_range']
  simp only [Function.comp_def]
  rw [map_zipIdx_snd _ _ fun i => Member.type (.message i),
    map_zipIdx_snd _ _ fun i => Member.type (.enum i), map_zipIdx_snd _ _ Member.field]

theorem scope?_file_eq_some_iff {i file : Nat} {outer : String} :
    g.scope? (.file i) = some (file, outer) ↔
      ∃ f, g.files[i]? = some f ∧ i = file ∧ f.package = outer := by
  simp [scope?]

theorem scope?_message_eq_some_iff {i file : Nat} {outer : String} :
    g.scope? (.message i) = some (file, outer) ↔
      ∃ m, g.messages[i]? = some m ∧ m.file = file ∧ m.fullName = outer := by
  simp [scope?]

theorem endsAt_of_file {i file : Nat} {outer : String} (h : g.scope? (.file i) = some (file, outer)) :
    g.EndsAt file (.file i) := by
  obtain ⟨f, hf, rfl, -⟩ := scope?_file_eq_some_iff.1 h
  exact .file (List.getElem?_eq_some_iff.1 hf).1

/-- Every owner leads to a file, because numbers get smaller on the way. -/
theorem endsAt_of_scope? (hstands : ∀ m ∈ g.messages, g.Stands m.parent m.file m.name m.fullName)
    (hlt : ∀ (i j : Nat) (m : MessageEntry), g.messages[j]? = some m → m.parent = .message i → i < j)
    {o : Owner} {file : Nat} {outer : String} (h : g.scope? o = some (file, outer)) :
    g.EndsAt file o := by
  cases o with
  | file i => exact endsAt_of_file h
  | message j =>
    induction j using Nat.strong_induction_on generalizing file outer with
    | _ j ih =>
      obtain ⟨m, hm, rfl, -⟩ := scope?_message_eq_some_iff.1 h
      obtain ⟨_, hparent, -⟩ := hstands m (List.mem_of_getElem? hm)
      refine .message hm rfl ?_
      cases howner : m.parent with
      | file i => exact endsAt_of_file (howner ▸ hparent)
      | message i => exact ih i (hlt i j m hm howner) (howner ▸ hparent)

/-- What is found by a name has the name. -/
theorem fullName?_of_type? (hnames : ∀ name t, (name, t) ∈ g.typesByName ↔ g.fullName? t = some name)
    {name : String} {t : TypeId} (h : g.type? name = some t) :
    g.fullName? t = some (dropLeadingDot name) := by
  obtain ⟨⟨name', t'⟩, hfind, rfl⟩ := Option.map_eq_some_iff.1 h
  rw [List.findRev?_eq_find?_reverse] at hfind
  have hname : name' = dropLeadingDot name := by simpa using List.find?_some hfind
  have hmem : (name', t') ∈ g.typesByName := by simpa using List.mem_of_find?_eq_some hfind
  exact hname ▸ (hnames _ _).1 hmem

theorem exists_type?_of_fullName?
    (hnames : ∀ name t, (name, t) ∈ g.typesByName ↔ g.fullName? t = some name) {name : String}
    {t : TypeId} (h : g.fullName? t = some (dropLeadingDot name)) : ∃ u, g.type? name = some u := by
  rw [← Option.isSome_iff_exists, isSome_type?_iff]
  exact List.mem_map.2 ⟨(_, t), (hnames _ _).2 h, rfl⟩

/-! ## Built graphs -/

theorem keepFirst_nodup (seen : List String) (ds : List Descriptor.File) :
    ((keepFirst seen ds).map (·.name)).Nodup ∧ ∀ d ∈ keepFirst seen ds, d.name ∉ seen := by
  induction ds generalizing seen with
  | nil => simp [keepFirst]
  | cons d ds ih =>
    rw [keepFirst]
    split
    · exact ih seen
    · rename_i hd
      obtain ⟨hnodup, hseen⟩ := ih (d.name :: seen)
      simp only [List.mem_cons, not_or] at hseen
      have hnew : d.name ∉ (keepFirst (d.name :: seen) ds).map (·.name) := by
        rw [List.mem_map]
        rintro ⟨d', hd', hname⟩
        exact (hseen d' hd').1 hname
      exact ⟨List.nodup_cons.2 ⟨hnew, hnodup⟩,
        List.forall_mem_cons.2 ⟨hd, fun d' hd' => (hseen d' hd').2⟩⟩

section Build

variable {files : List Descriptor.File} {rules : RuleIndex} {s : Schema}

theorem placed_graph (h : Schema.build files rules = .ok s) : s.graph.Placed {} s.layout := by
  obtain ⟨rfl, -⟩ := Schema.build_eq_ok_iff.1 h
  exact placed_fileLayouts rules _ {} (holds_graph _)

theorem mirrors_graph (h : Schema.build files rules = .ok s) :
    List.Forall₂ s.graph.MirrorsFile s.graph.files (keepFirst [] files) := by
  obtain ⟨rfl, -⟩ := Schema.build_eq_ok_iff.1 h
  exact mirrors_fileLayouts rules _ {} (holds_graph _)

/-- Targets are known for exactly the fields that refer to a type. -/
theorem isSome_target?_layout (h : Schema.build files rules = .ok s) {e : FieldEntry}
    (he : e ∈ s.layout.fields) : (s.layout.target? e).isSome = e.kind.isReference := by
  obtain ⟨f, hf, message, rfl⟩ := exists_of_forall₂_left (fields_schemaLayout s) e he
  by_cases hkind : f.kind.isReference
  · obtain ⟨t, ht⟩ := Schema.exists_target?_of_build h hf hkind
    rw [Schema.target?, if_pos hkind] at ht
    simp [target?, Field.entry, hkind, isSome_type?_layout, ht]
  · simp [target?, Field.entry, hkind]

theorem wellFormed_graph (h : Schema.build files rules = .ok s) : s.graph.WellFormed := by
  have hplaced := placed_graph h
  have hnumbered : ∀ {m : MessageEntry} {i : Nat}, s.graph.messages[i]? = some m →
      s.graph.Stands m.parent m.file m.name m.fullName ∧ ∀ k, m.parent = .message k → k < i :=
    fun hm => hplaced.messages _ (List.mk_mem_zipIdx_iff_getElem?.2 hm)
  have hstands : ∀ m ∈ s.graph.messages, s.graph.Stands m.parent m.file m.name m.fullName := by
    intro m hm
    obtain ⟨i, hi⟩ := List.mem_iff_getElem?.1 hm
    exact (hnumbered hi).1
  have hlt : ∀ (i j : Nat) (m : MessageEntry), s.graph.messages[j]? = some m →
      m.parent = .message i → i < j := fun i j m hm => (hnumbered hm).2 i
  have hnames : ∀ name t, (name, t) ∈ s.graph.typesByName ↔ s.graph.fullName? t = some name := by
    intro name t
    rw [← mem_named_iff, ← typesByName_graph, Multiset.mem_coe]
  constructor
  case members_perm =>
    rw [← Multiset.coe_eq_coe, ← map_snd_listed, listed_graph, map_snd_owned]
  case mem_lists_iff =>
    intro o x
    rw [← mem_listed_iff, listed_graph, mem_owned_iff]
  case message_stands => exact hstands
  case enum_stands => exact hplaced.enums
  case field_stands =>
    intro f hf
    obtain ⟨e, he, rfl⟩ := List.mem_map.1 hf
    exact hplaced.fields e he
  case parent_lt => exact hlt
  case message_ends =>
    intro m hm
    obtain ⟨_, hscope, -⟩ := hstands m hm
    exact endsAt_of_scope? hstands hlt hscope
  case enum_ends =>
    intro e he
    obtain ⟨_, hscope, -⟩ := hplaced.enums e he
    exact endsAt_of_scope? hstands hlt hscope
  case isSome_target =>
    intro f hf
    obtain ⟨e, he, rfl⟩ := List.mem_map.1 hf
    exact isSome_target?_layout h he
  case fullName_target =>
    intro f hf t ht
    obtain ⟨e, he, rfl⟩ := List.mem_map.1 hf
    simp only [target?] at ht
    split at ht
    · exact fullName?_of_type? hnames ht
    · cases ht
  case paths_nodup =>
    have hpaths : s.graph.files.map (·.path) = (keepFirst [] files).map (·.name) := by
      rw [← List.forall₂_eq_eq_eq, List.forall₂_map_left_iff, List.forall₂_map_right_iff]
      exact (mirrors_graph h).imp fun _ _ hfile => hfile.path
    rw [hpaths]
    exact (keepFirst_nodup [] files).1
  case mem_filesByPath_iff =>
    intro path i
    rw [filesByPath_graph, mem_pathed_iff]
  case mem_typesByName_iff => exact hnames
  case exists_type? =>
    intro t name ht
    obtain ⟨u, hu⟩ : ∃ u, s.graph.type? ("." ++ name) = some u :=
      exists_type?_of_fullName? hnames (by rwa [dropLeadingDot_dot_append])
    refine ⟨u, ?_, hu, fun hname => ?_⟩
    · rw [fullName?_of_type? hnames hu, dropLeadingDot_dot_append]
    · rw [← hu, type?, type?, dropLeadingDot_dot_append, dropLeadingDot_of_head?_ne hname]

/-- **Built graphs are well-formed**, and they are those of the built schemas. -/
theorem build_wellFormed (h : Graph.build files rules = .ok g) :
    (∃ s, Schema.build files rules = .ok s ∧ s.graph = g) ∧ g.WellFormed ∧
    List.Forall₂ g.MirrorsFile g.files (keepFirst [] files) := by
  rw [build_eq, map_eq_ok_iff] at h
  obtain ⟨s, hs, rfl⟩ := h
  exact ⟨⟨s, hs, rfl⟩, wellFormed_graph hs, mirrors_graph hs⟩

end Build

theorem build_wellFormed_orders :
    let g := (Schema.ofDescriptors orderFiles {}).graph
    Graph.build orderFiles {} = .ok g ∧
    g.messages.map (fun m => (m.fullName, m.parent)) =
      [("shop.Order", .file 0), ("shop.Order.Line", .message 0), ("shop.Order.PricesEntry", .message 0),
        ("money.Amount", .file 1)] ∧
    g.fields.map (fun f => (f.fullName, f.target)) =
      [("shop.Order.Line.sku", none), ("shop.Order.PricesEntry.key", none),
        ("shop.Order.PricesEntry.value", some (.message 3)), ("shop.Order.lines", some (.message 1)),
        ("shop.Order.prices", some (.message 2)), ("shop.Order.status", some (.enum 0)),
        ("money.Amount.units", none), ("money.Amount.order", some (.message 0))] ∧
    g.lists (.message 0) = [.type (.enum 0), .type (.message 1), .type (.message 2), .field 3, .field 4,
      .field 5] ∧
    (∀ x ∈ g.lists (.message 0), g.owner? x = some (.message 0)) ∧
    List.Forall₂ g.MirrorsFile g.files orderFiles := by
  intro g
  have hbuild : Graph.build orderFiles {} = .ok g := by rw [build_eq, build_orderFiles]; rfl
  obtain ⟨-, hwell, hmirrors⟩ := build_wellFormed hbuild
  exact ⟨hbuild, by decide +kernel, by decide +kernel, rfl, fun x => (hwell.mem_lists_iff _ x).1,
    hmirrors⟩

end Graph
end ProtoModels
