import Mathlib.Data.List.Forall2
import ProtoModels.Proofs.Graph.Layout
/-!
# Where declarations are registered

A layout that is part of a graph (`Graph.Holds`) fits into it. Everything in it stands in the file of its
owner and is called by the owner's full name and its own, and a message has a greater number than the
message around it (`Graph.placed_layout`). The lists lead to what was read from the descriptor, in the
descriptor's order (`Graph.mirrors_layout`).
-/
namespace ProtoModels
namespace Graph

variable {g : Graph}

/-! ## Parts of a graph -/

/-- A layout whose first declarations have the numbers `n` is part of the graph. The targets of its
fields may be known there. -/
structure Holds (g : Graph) (n : Counts) (part : Graph) : Prop where
  files : part.files.zipIdx n.files ⊆ g.files.zipIdx
  messages : part.messages.zipIdx n.messages ⊆ g.messages.zipIdx
  enums : part.enums.zipIdx n.enums ⊆ g.enums.zipIdx
  fields : ∀ f ∈ part.fields.zipIdx n.fields, ∃ target, ({ f.1 with target }, f.2) ∈ g.fields.zipIdx

theorem holds_append_iff {n : Counts} {p q : Graph} :
    g.Holds n (p ++ q) ↔ g.Holds n p ∧ g.Holds (n + p.counts) q := by
  constructor
  · rintro ⟨hfiles, hmessages, henums, hfields⟩
    simp only [files_append, messages_append, enums_append, fields_append, List.zipIdx_append,
      List.append_subset, List.forall_mem_append] at hfiles hmessages henums hfields
    exact ⟨⟨hfiles.1, hmessages.1, henums.1, hfields.1⟩, ⟨hfiles.2, hmessages.2, henums.2, hfields.2⟩⟩
  · rintro ⟨hp, hq⟩
    constructor
    · rw [files_append, List.zipIdx_append]
      exact List.append_subset.2 ⟨hp.files, hq.files⟩
    · rw [messages_append, List.zipIdx_append]
      exact List.append_subset.2 ⟨hp.messages, hq.messages⟩
    · rw [enums_append, List.zipIdx_append]
      exact List.append_subset.2 ⟨hp.enums, hq.enums⟩
    · rw [fields_append, List.zipIdx_append]
      exact List.forall_mem_append.2 ⟨hp.fields, hq.fields⟩

theorem Holds.message {n : Counts} {id : Nat} {m : MessageEntry} (h : g.Holds n (ofMessage id m)) :
    g.messages[n.messages]? = some m := by
  have hmem : (m, n.messages) ∈ g.messages.zipIdx := h.messages (by simp [ofMessage])
  exact List.mk_mem_zipIdx_iff_getElem?.1 hmem

theorem Holds.file {n : Counts} {id : Nat} {f : FileEntry} (h : g.Holds n (ofFile id f)) :
    g.files[n.files]? = some f := by
  have hmem : (f, n.files) ∈ g.files.zipIdx := h.files (by simp [ofFile])
  exact List.mk_mem_zipIdx_iff_getElem?.1 hmem

/-! ## Files, full names and numbers -/

/-- The file of what is declared in an owner, and the full name in front of the names there. -/
def scope? (g : Graph) : Owner → Option (Nat × String)
  | .file i => (g.files[i]?).map fun f => (i, f.package)
  | .message i => (g.messages[i]?).map fun m => (m.file, m.fullName)

/-- A declaration stands in the file of its owner and is called by the owner's full name and its own. -/
def Stands (g : Graph) (owner : Owner) (file : Nat) (name fullName : String) : Prop :=
  ∃ outer, g.scope? owner = some (file, outer) ∧ fullName = qualify outer name

structure Placed (g : Graph) (n : Counts) (part : Graph) : Prop where
  messages : ∀ m ∈ part.messages.zipIdx n.messages,
    g.Stands m.1.parent m.1.file m.1.name m.1.fullName ∧ ∀ i, m.1.parent = .message i → i < m.2
  enums : ∀ e ∈ part.enums, g.Stands e.parent e.file e.name e.fullName
  fields : ∀ f ∈ part.fields, ∃ file, g.Stands (.message f.message) file f.name f.fullName

theorem placed_empty (n : Counts) : g.Placed n {} := ⟨by simp, by simp, by simp⟩

theorem Placed.append {n : Counts} {p q : Graph} (hp : g.Placed n p) (hq : g.Placed (n + p.counts) q) :
    g.Placed n (p ++ q) := by
  constructor
  · rw [messages_append, List.zipIdx_append]
    exact List.forall_mem_append.2 ⟨hp.messages, hq.messages⟩
  · exact List.forall_mem_append.2 ⟨hp.enums, hq.enums⟩
  · exact List.forall_mem_append.2 ⟨hp.fields, hq.fields⟩

theorem placed_enumLayout (n : Counts) {file : Nat} {parent : Owner} {c : FileContext} {sc : Scope}
    (hscope : g.scope? parent = some (file, sc.outer)) (k : Nat) (path : Nat → List Int)
    (ds : List Descriptor.Enum) : g.Placed n
      (Enum.layout file parent k (ds.mapIdx fun i d => Enum.ofDescriptor c sc (path i) d)) := by
  refine ⟨by simp [Enum.layout], ?_, by simp [Enum.layout]⟩
  simp only [Enum.layout, List.forall_mem_map]
  intro e he
  obtain ⟨i, hi, rfl⟩ := List.mem_mapIdx.1 he
  exact ⟨sc.outer, hscope, rfl⟩

mutual
/-- What is read in a scope is registered in the file of the scope's owner, by the names of the scope. -/
theorem placed_layout (c : FileContext) (file : Nat) : ∀ (d : Descriptor.Message) (sc : Scope)
    (path : List Int) (parent : Owner) (n : Counts),
    g.Holds n ((Message.ofDescriptor c sc path d).layout file parent n) →
    g.scope? parent = some (file, sc.outer) → (∀ i, parent = .message i → i < n.messages) →
      g.Placed n ((Message.ofDescriptor c sc path d).layout file parent n)
  | ⟨name, fields, _, nested, enums, _, _, _, _, _⟩, sc, path, parent, n, h, hscope, hnumber => by
    simp only [Message.ofDescriptor, Message.layout, holds_append_iff, counts_append, counts_ofMessage,
      counts_enumLayout, ← Counts.add_assoc] at h ⊢
    obtain ⟨⟨⟨hhead, -⟩, hnested⟩, -⟩ := h
    have hown : g.scope? (.message n.messages) = some (file, (sc.enter name).outer) := by
      rw [scope?, hhead.message]
      rfl
    refine ((Placed.append ?_ ?_).append ?_).append ?_
    · refine ⟨?_, by simp [ofMessage], by simp [ofMessage]⟩
      simp only [ofMessage, List.zipIdx_cons, List.zipIdx_nil, List.mem_singleton, forall_eq]
      exact ⟨⟨sc.outer, hscope, rfl⟩, hnumber⟩
    · exact placed_enumLayout _ hown _ _ _
    · simp only [counts_append, counts_ofMessage, counts_enumLayout, ← Counts.add_assoc]
      refine placed_layouts c file nested _ _ 0 _ _ hnested hown fun i hi => ?_
      cases hi
      exact Nat.lt_succ_self _
    · refine ⟨by simp, by simp, ?_⟩
      simp only [List.forall_mem_map]
      intro f hf
      obtain ⟨i, hi, rfl⟩ := List.mem_mapIdx.1 hf
      exact ⟨file, (sc.enter name).outer, hown, rfl⟩

theorem placed_layouts (c : FileContext) (file : Nat) : ∀ (ds : List Descriptor.Message) (sc : Scope)
    (path : List Int) (k : Nat) (parent : Owner) (n : Counts),
    g.Holds n (Message.layouts file parent n (Message.ofDescriptors c sc path k ds)).2 →
    g.scope? parent = some (file, sc.outer) → (∀ i, parent = .message i → i < n.messages) →
      g.Placed n (Message.layouts file parent n (Message.ofDescriptors c sc path k ds)).2
  | [], _, _, _, _, n, _, _, _ => placed_empty n
  | d :: ds, sc, path, k, parent, n, h, hscope, hnumber => by
    simp only [Message.ofDescriptors, Message.layouts, holds_append_iff] at h ⊢
    refine (placed_layout c file d sc _ parent n h.1 hscope hnumber).append ?_
    refine placed_layouts c file ds sc path (k + 1) parent _ h.2 hscope fun i hi => ?_
    exact Nat.lt_of_lt_of_le (hnumber i hi) (Nat.le_add_right _ _)
end

theorem placed_fileLayout (rules : RuleIndex) (d : Descriptor.File) (n : Counts)
    (h : g.Holds n ((File.ofDescriptor rules d).layout n)) :
    g.Placed n ((File.ofDescriptor rules d).layout n) := by
  simp only [File.ofDescriptor, File.layout, holds_append_iff, counts_append, counts_ofFile,
    counts_enumLayout, ← Counts.add_assoc] at h ⊢
  obtain ⟨⟨hhead, -⟩, hmessages⟩ := h
  have hown : g.scope? (.file n.files) = some (n.files, d.package) := by
    rw [scope?, hhead.file]
    rfl
  refine (Placed.append ?_ ?_).append ?_
  · exact ⟨by simp [ofFile], by simp [ofFile], by simp [ofFile]⟩
  · exact placed_enumLayout _ hown _ _ _
  · simp only [counts_append, counts_ofFile, counts_enumLayout, ← Counts.add_assoc]
    exact placed_layouts _ _ d.messages _ _ 0 _ _ hmessages hown (by simp)

/-! ## The order of the descriptor -/

def MirrorsEnum (g : Graph) (i : Nat) (d : Descriptor.Enum) : Prop :=
  ∃ e, g.enums[i]? = some e ∧ e.name = d.name ∧ e.values.map (·.name) = d.values.map (·.name)

def MirrorsField (g : Graph) (i : Nat) (d : Descriptor.Field) : Prop :=
  ∃ f, g.fields[i]? = some f ∧ f.name = d.name ∧ f.kind = .ofNumber (d.kind.getD 0) ∧
    f.label = .ofNumber d.label ∧ f.typeName = d.typeName

/-- The message with a number is the one that a descriptor describes, with the same declarations in it,
in the same order. -/
inductive MirrorsMessage (g : Graph) : Nat → Descriptor.Message → Prop where
  | intro {i : Nat} {m : MessageEntry} {d : Descriptor.Message} :
      g.messages[i]? = some m → m.name = d.name → m.mapEntry = d.mapEntry →
      m.oneofs = d.oneofs.map (·.name) → List.Forall₂ g.MirrorsEnum m.enums d.enums →
      List.Forall₂ (MirrorsMessage g) m.messages d.nested →
      List.Forall₂ g.MirrorsField m.fields d.fields → MirrorsMessage g i d

/-- A file is the one that a descriptor describes. -/
structure MirrorsFile (g : Graph) (f : FileEntry) (d : Descriptor.File) : Prop where
  path : f.path = d.name
  package : f.package = d.package
  dialect : f.dialect = .ofText d.dialect
  enums : List.Forall₂ g.MirrorsEnum f.enums d.enums
  messages : List.Forall₂ g.MirrorsMessage f.messages d.messages

theorem mirrors_enumLayout {n : Counts} {file : Nat} {parent : Owner} {c : FileContext} {sc : Scope}
    {path : Nat → List Int} {ds : List Descriptor.Enum} {k : Nat}
    (h : g.Holds n
      (Enum.layout file parent k (ds.mapIdx fun i d => Enum.ofDescriptor c sc (path i) d))) :
    List.Forall₂ g.MirrorsEnum (List.range' n.enums ds.length) ds := by
  refine List.forall₂_iff_get.2 ⟨by simp, fun i hi _ => ?_⟩
  rw [List.length_range'] at hi
  have hentry : g.enums[n.enums + i]? =
      some ((Enum.ofDescriptor c sc (path i) ds[i]).entry file parent) := by
    refine List.mk_mem_zipIdx_iff_getElem?.1 (h.enums ?_)
    exact List.mk_add_mem_zipIdx_iff_getElem?.2 (by simp [Enum.layout, hi])
  refine ⟨_, by simpa using hentry, rfl, ?_⟩
  exact List.ext_getElem (by simp [Enum.entry, Enum.ofDescriptor])
    fun _ _ _ => by simp [Enum.entry, Enum.ofDescriptor]

theorem mirrors_fields {n : Counts} {message : Nat} {c : FileContext} {sc : Scope}
    {path : Nat → List Int} {ds : List Descriptor.Field}
    (h : g.Holds n { fields := (ds.mapIdx fun i d =>
      Field.ofDescriptor c sc (path i) d).map (·.entry message) }) :
    List.Forall₂ g.MirrorsField (List.range' n.fields ds.length) ds := by
  refine List.forall₂_iff_get.2 ⟨by simp, fun i hi _ => ?_⟩
  rw [List.length_range'] at hi
  obtain ⟨target, hmem⟩ := h.fields
    ((Field.ofDescriptor c sc (path i) ds[i]).entry message, n.fields + i)
    (List.mk_add_mem_zipIdx_iff_getElem?.2 (by simp [hi]))
  have hentry := List.mk_mem_zipIdx_iff_getElem?.1 hmem
  exact ⟨_, by simpa using hentry, rfl, rfl, rfl, rfl⟩

mutual
theorem mirrors_layout (c : FileContext) (file : Nat) : ∀ (d : Descriptor.Message) (sc : Scope)
    (path : List Int) (parent : Owner) (n : Counts),
    g.Holds n ((Message.ofDescriptor c sc path d).layout file parent n) → g.MirrorsMessage n.messages d
  | ⟨name, fields, _, nested, enums, _, _, _, _, _⟩, sc, path, parent, n, h => by
    simp only [Message.ofDescriptor, Message.layout, holds_append_iff, counts_append, counts_ofMessage,
      counts_enumLayout, ← Counts.add_assoc] at h
    obtain ⟨⟨⟨hhead, henums⟩, hnested⟩, hfields⟩ := h
    refine .intro hhead.message rfl rfl rfl ?_ ?_ ?_
    · simpa using mirrors_enumLayout henums
    · exact mirrors_layouts c file nested _ _ 0 _ _ hnested
    · simpa [counts] using mirrors_fields hfields

theorem mirrors_layouts (c : FileContext) (file : Nat) : ∀ (ds : List Descriptor.Message) (sc : Scope)
    (path : List Int) (k : Nat) (parent : Owner) (n : Counts),
    g.Holds n (Message.layouts file parent n (Message.ofDescriptors c sc path k ds)).2 →
      List.Forall₂ g.MirrorsMessage
        (Message.layouts file parent n (Message.ofDescriptors c sc path k ds)).1 ds
  | [], _, _, _, _, _, _ => .nil
  | d :: ds, sc, path, k, parent, n, h => by
    simp only [Message.ofDescriptors, Message.layouts, holds_append_iff] at h ⊢
    exact .cons (mirrors_layout c file d sc _ parent n h.1)
      (mirrors_layouts c file ds sc path (k + 1) parent _ h.2)
end

theorem mirrors_fileLayout (rules : RuleIndex) (d : Descriptor.File) (n : Counts)
    (h : g.Holds n ((File.ofDescriptor rules d).layout n)) :
    List.Forall₂ g.MirrorsFile ((File.ofDescriptor rules d).layout n).files [d] := by
  simp only [File.ofDescriptor, File.layout, holds_append_iff, counts_append, counts_ofFile,
    counts_enumLayout, ← Counts.add_assoc] at h ⊢
  obtain ⟨⟨-, henums⟩, hmessages⟩ := h
  simp only [files_append, (noFiles_layouts ..).1, ofFile, Enum.layout, List.append_nil]
  refine .cons ⟨rfl, rfl, rfl, ?_, ?_⟩ .nil
  · simpa using mirrors_enumLayout henums
  · exact mirrors_layouts _ _ d.messages _ _ 0 _ _ hmessages

/-! ## All files -/

theorem placed_fileLayouts (rules : RuleIndex) (ds : List Descriptor.File) (n : Counts)
    (h : g.Holds n (File.layouts n (ds.map (File.ofDescriptor rules)))) :
    g.Placed n (File.layouts n (ds.map (File.ofDescriptor rules))) := by
  induction ds generalizing n with
  | nil => exact placed_empty n
  | cons d ds ih =>
    rw [List.map_cons, File.layouts, holds_append_iff] at h
    exact (placed_fileLayout rules d n h.1).append (ih _ h.2)

theorem mirrors_fileLayouts (rules : RuleIndex) (ds : List Descriptor.File) (n : Counts)
    (h : g.Holds n (File.layouts n (ds.map (File.ofDescriptor rules)))) :
    List.Forall₂ g.MirrorsFile (File.layouts n (ds.map (File.ofDescriptor rules))).files ds := by
  induction ds generalizing n with
  | nil => exact .nil
  | cons d ds ih =>
    rw [List.map_cons, File.layouts, holds_append_iff] at h
    exact List.rel_append (mirrors_fileLayout rules d n h.1) (ih _ h.2)

theorem holds_graph (s : Schema) : s.graph.Holds {} s.layout := by
  refine ⟨List.Subset.refl _, List.Subset.refl _, List.Subset.refl _, fun f hf => ?_⟩
  simp only [Schema.graph, resolved, List.zipIdx_map]
  exact ⟨s.layout.target? f.1, List.mem_map.2 ⟨f, hf, rfl⟩⟩

end Graph
end ProtoModels
