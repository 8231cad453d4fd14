import ProtoModels.Proofs.Graph.Basic
import ProtoModels.Proofs.Schema.Declarations
import ProtoModels.Proofs.Traversals
/-!
# What registration adds

`Message.layout` and `File.layout` write down at once what registering a message or a file adds to a
graph, with all lists filled in. The registration itself hands out numbers on the way and fills in the
lists at the end; it comes to the same (`run_registerMessage`, `run_registerFile`). So a graph that is
built is the layout of the schema that is built from the same files (`Graph.build_eq`).
-/
namespace ProtoModels

namespace Graph

/-! ## Graphs behind one another -/

@[simp] theorem files_append (g h : Graph) : (g ++ h).files = g.files ++ h.files := rfl
@[simp] theorem messages_append (g h : Graph) : (g ++ h).messages = g.messages ++ h.messages := rfl
@[simp] theorem enums_append (g h : Graph) : (g ++ h).enums = g.enums ++ h.enums := rfl
@[simp] theorem fields_append (g h : Graph) : (g ++ h).fields = g.fields ++ h.fields := rfl
@[simp] theorem filesByPath_append (g h : Graph) :
    (g ++ h).filesByPath = g.filesByPath ++ h.filesByPath := rfl
@[simp] theorem typesByName_append (g h : Graph) :
    (g ++ h).typesByName = g.typesByName ++ h.typesByName := rfl

theorem append_assoc (g h k : Graph) : g ++ h ++ k = g ++ (h ++ k) := by
  ext1 <;> exact List.append_assoc ..

@[simp] theorem append_empty (g : Graph) : g ++ ({} : Graph) = g := by
  ext1 <;> exact List.append_nil ..

/-- How many declarations there are of each kind. -/
@[ext] structure Counts where
  files : Nat := 0
  messages : Nat := 0
  enums : Nat := 0
  fields : Nat := 0

instance : Add Counts where
  add m n := ⟨m.files + n.files, m.messages + n.messages, m.enums + n.enums, m.fields + n.fields⟩

@[simp] theorem Counts.files_add (m n : Counts) : (m + n).files = m.files + n.files := rfl
@[simp] theorem Counts.messages_add (m n : Counts) : (m + n).messages = m.messages + n.messages := rfl
@[simp] theorem Counts.enums_add (m n : Counts) : (m + n).enums = m.enums + n.enums := rfl
@[simp] theorem Counts.fields_add (m n : Counts) : (m + n).fields = m.fields + n.fields := rfl

theorem Counts.add_assoc (k m n : Counts) : k + m + n = k + (m + n) := by
  ext <;> exact Nat.add_assoc ..

def counts (g : Graph) : Counts :=
  ⟨g.files.length, g.messages.length, g.enums.length, g.fields.length⟩

@[simp] theorem counts_append (g h : Graph) : (g ++ h).counts = g.counts + h.counts := by
  ext <;> simp [counts]

end Graph

/-! ## Layouts -/

/-- What registering enums adds to a graph with `n` enums. -/
def Enum.layout (file : Nat) (parent : Owner) (n : Nat) (es : List Enum) : Graph :=
  { enums := es.map (·.entry file parent)
    typesByName := (es.zipIdx n).map fun (e, i) => (e.fullName, .enum i) }

mutual
/-- What registering a message adds to a graph with `n` declarations. -/
def Message.layout (file : Nat) (parent : Owner) (n : Graph.Counts) : Message → Graph
  | ⟨name, fullName, _, _, enums, messages, fields, oneofs, mapEntry, comment⟩ =>
    let own := Owner.message n.messages
    let nested := Message.layouts file own (n + ⟨0, 1, 0, 0⟩ + ⟨0, 0, enums.length, 0⟩) messages
    .ofMessage n.messages
      { name, fullName, file, parent, oneofs, mapEntry, comment
        enums := List.range' n.enums enums.length
        messages := nested.1
        fields := List.range' (n.fields + nested.2.fields.length) fields.length } ++
    Enum.layout file own n.enums enums ++ nested.2 ++ { fields := fields.map (·.entry n.messages) }

/-- The numbers of some messages, and what registering them adds. -/
def Message.layouts (file : Nat) (parent : Owner) (n : Graph.Counts) :
    List Message → List Nat × Graph
  | [] => ([], {})
  | m :: ms =>
    let first := m.layout file parent n
    let rest := Message.layouts file parent (n + first.counts) ms
    (n.messages :: rest.1, first ++ rest.2)
end

/-- What registering a file adds to a graph with `n` declarations. -/
def File.layout (n : Graph.Counts) (f : File) : Graph :=
  let own := Owner.file n.files
  let nested := Message.layouts n.files own (n + ⟨1, 0, 0, 0⟩ + ⟨0, 0, f.enums.length, 0⟩) f.messages
  .ofFile n.files
    { path := f.path, package := f.package, dialect := f.dialect
      enums := List.range' n.enums f.enums.length
      messages := nested.1 } ++
  Enum.layout n.files own n.enums f.enums ++ nested.2

def File.layouts (n : Graph.Counts) : List File → Graph
  | [] => {}
  | f :: fs => f.layout n ++ File.layouts (n + (f.layout n).counts) fs

/-- All declarations of a schema by number, before the targets are known. -/
def Schema.layout (s : Schema) : Graph := File.layouts {} s.files

namespace Graph

@[simp] theorem counts_ofFile (id : Nat) (f : FileEntry) : (ofFile id f).counts = ⟨1, 0, 0, 0⟩ := rfl

@[simp] theorem counts_ofMessage (id : Nat) (m : MessageEntry) :
    (ofMessage id m).counts = ⟨0, 1, 0, 0⟩ := rfl

@[simp] theorem counts_enumLayout (file : Nat) (parent : Owner) (n : Nat) (es : List Enum) :
    (Enum.layout file parent n es).counts = ⟨0, 0, es.length, 0⟩ := by simp [counts, Enum.layout]

/-! ## Registration by its layout -/

theorem enumLayout_cons (file : Nat) (parent : Owner) (n : Nat) (e : Enum) (es : List Enum) :
    Enum.layout file parent n (e :: es) =
      Enum.layout file parent n [e] ++ Enum.layout file parent (n + 1) es := rfl

theorem run_registerEnums (c : FileContext) (sc : Scope) (file : Nat) (parent : Owner)
    (path : List Int) (ds : List Descriptor.Enum) (g : Graph) :
    (registerEnums c sc file parent path ds).run g = pure (List.range' g.enums.length ds.length,
      g ++ Enum.layout file parent g.enums.length
        (ds.mapIdx fun i d => Enum.ofDescriptor c sc (path ++ [(i : Int)]) d)) := by
  rw [registerEnums, List.mapIdx_eq_zipIdx_map]
  generalize 0 = k
  induction ds generalizing k g with
  | nil => simp [Enum.layout]
  | cons d ds ih =>
    have hrun : (registerEnum c sc file parent (path ++ [(k : Int)]) d).run g =
      pure (g.enums.length, g ++ Enum.layout file parent g.enums.length
        [Enum.ofDescriptor c sc (path ++ [(k : Int)]) d]) := rfl
    simp only [List.zipIdx_cons, List.mapM_cons, List.map_cons, StateT.run_bind, StateT.run_pure,
      pure_bind, hrun, ih, append_assoc, enums_append, List.length_append]
    rw [enumLayout_cons]
    rfl

theorem run_registerFields (c : FileContext) (sc : Scope) (message : Nat) (path : List Int)
    (ds : List Descriptor.Field) (g : Graph) :
    (registerFields c sc message path ds).run g = pure (List.range' g.fields.length ds.length,
      g ++ { fields := (ds.mapIdx fun i d =>
        Field.ofDescriptor c sc (path ++ [(i : Int)]) d).map (·.entry message) }) := by
  rw [registerFields, List.mapIdx_eq_zipIdx_map]
  generalize 0 = k
  induction ds generalizing k g with
  | nil => simp
  | cons d ds ih =>
    have hrun : (registerField c sc message (path ++ [(k : Int)]) d).run g = pure (g.fields.length,
      g ++ { fields := [(Field.ofDescriptor c sc (path ++ [(k : Int)]) d).entry message] }) := rfl
    simp only [List.zipIdx_cons, List.mapM_cons, List.map_cons, StateT.run_bind, StateT.run_pure,
      pure_bind, hrun, ih, append_assoc, fields_append, List.length_append]
    rfl

theorem modify_append_cons {α : Type} (f : α → α) (l : List α) (a : α) (r : List α) :
    (l ++ a :: r).modify l.length f = l ++ f a :: r := by
  induction l with
  | nil => rfl
  | cons b l ih => rw [List.cons_append, List.length_cons, List.modify_succ_cons, ih, List.cons_append]

/-- Everything else stays while the lists of a message are filled in. -/
theorem setMembers_append (g h : Graph) (id : Nat) (m : MessageEntry)
    (enums messages fields : List Nat) :
    (g ++ (ofMessage id m ++ h)).setMembers g.messages.length enums messages fields =
      g ++ (ofMessage id { m with enums, messages, fields } ++ h) := by
  ext1 <;> simp [setMembers, ofMessage, modify_append_cons]

theorem setTopLevel_append (g h : Graph) (id : Nat) (f : FileEntry) (enums messages : List Nat) :
    (g ++ (ofFile id f ++ h)).setTopLevel g.files.length enums messages =
      g ++ (ofFile id { f with enums, messages } ++ h) := by
  ext1 <;> simp [setTopLevel, ofFile, modify_append_cons]

mutual
theorem run_registerMessage (c : FileContext) (sc : Scope) (file : Nat) (parent : Owner)
    (path : List Int) : ∀ (d : Descriptor.Message) (g : Graph),
    (registerMessage c sc file parent path d).run g = pure (g.messages.length,
      g ++ (Message.ofDescriptor c sc path d).layout file parent g.counts)
  | ⟨name, fields, _, nested, enums, oneofs, _, _, mapEntry, _⟩, g => by
    rw [registerMessage]
    simp only [StateT.run_bind, StateT.run_get, StateT.run_modify, StateT.run_pure, pure_bind,
      run_registerEnums, run_registerMessages, run_registerFields, append_assoc, counts_append,
      counts_ofMessage, counts_enumLayout]
    rw [setMembers_append]
    simp [Message.ofDescriptor, Message.layout, append_assoc, counts, ofMessage, Enum.layout]

theorem run_registerMessages (c : FileContext) (sc : Scope) (file : Nat) (parent : Owner)
    (path : List Int) : ∀ (i : Nat) (ds : List Descriptor.Message) (g : Graph),
    (registerMessages c sc file parent path i ds).run g =
      let added := Message.layouts file parent g.counts (Message.ofDescriptors c sc path i ds)
      pure (added.1, g ++ added.2)
  | i, [], g => by simp [registerMessages, Message.ofDescriptors, Message.layouts]
  | i, d :: ds, g => by
    rw [registerMessages]
    simp only [StateT.run_bind, StateT.run_pure, pure_bind, run_registerMessage,
      run_registerMessages, counts_append]
    rw [Message.ofDescriptors, Message.layouts, append_assoc]
    rfl
end

theorem run_registerFile (rules : RuleIndex) (d : Descriptor.File) (g : Graph) :
    (registerFile rules d).run g = pure ((), if (g.file? d.name).isNone then
      g ++ (File.ofDescriptor rules d).layout g.counts else g) := by
  rw [registerFile]
  simp only [StateT.run_bind, StateT.run_get, pure_bind]
  split
  · simp only [StateT.run_bind, StateT.run_modify, pure_bind,
      run_registerEnums, run_registerMessages, append_assoc, counts_append,
      counts_ofFile, counts_enumLayout]
    rw [setTopLevel_append]
    simp [File.ofDescriptor, File.layout, append_assoc, counts, ofFile, Enum.layout]
  · rfl

/-! ## Graphs of schemas -/

theorem isSome_file?_iff {g : Graph} {path : String} :
    (g.file? path).isSome ↔ path ∈ g.filesByPath.map (·.1) := by
  rw [file?, Option.isSome_map, List.findRev?_eq_find?_reverse, List.find?_isSome]
  simp

mutual
/-- Messages bring no files with them. -/
theorem noFiles_layout (file : Nat) (parent : Owner) (n : Counts) : ∀ m : Message,
    (m.layout file parent n).files = [] ∧ (m.layout file parent n).filesByPath = []
  | ⟨_, _, _, _, _, messages, _, _, _, _⟩ => by
    simp [Message.layout, ofMessage, Enum.layout, noFiles_layouts]

theorem noFiles_layouts (file : Nat) (parent : Owner) (n : Counts) : ∀ ms : List Message,
    (Message.layouts file parent n ms).2.files = [] ∧
      (Message.layouts file parent n ms).2.filesByPath = []
  | [] => ⟨rfl, rfl⟩
  | m :: ms => by simp [Message.layouts, noFiles_layout, noFiles_layouts]
end

theorem filesByPath_fileLayout (n : Counts) (f : File) :
    (f.layout n).filesByPath = [(f.path, n.files)] := by
  simp [File.layout, ofFile, Enum.layout, noFiles_layouts]

/-- Files are registered one behind the other, those with a new path. -/
theorem run_registerFiles (rules : RuleIndex) (ds : List Descriptor.File) (seen : List String)
    (g : Graph) (hseen : ∀ path, path ∈ seen ↔ (g.file? path).isSome) :
    (ds.forM (registerFile rules)).run g = pure ((),
      g ++ File.layouts g.counts ((keepFirst seen ds).map (File.ofDescriptor rules))) := by
  induction ds generalizing seen g with
  | nil => simp [keepFirst, File.layouts]
  | cons d ds ih =>
    rw [List.forM_eq_forM, List.forM_cons]
    simp only [StateT.run_bind, run_registerFile, pure_bind]
    rw [keepFirst]
    by_cases hd : d.name ∈ seen
    · have hnone : (g.file? d.name).isNone = false := by simpa using (hseen _).1 hd
      rw [if_pos hd, hnone]
      exact ih seen g hseen
    · have hnone : (g.file? d.name).isNone = true := by simpa using mt (hseen _).2 hd
      rw [if_neg hd, if_pos hnone, List.map_cons, File.layouts, ← append_assoc, ← counts_append]
      refine ih _ _ fun path => ?_
      rw [isSome_file?_iff, filesByPath_append, filesByPath_fileLayout]
      simp [hseen, isSome_file?_iff, File.ofDescriptor, or_comm]

/-! ### Names and fields in the order of registration -/

theorem names_enumLayout (file : Nat) (parent : Owner) (n : Nat) (es : List Enum) :
    (Enum.layout file parent n es).typesByName.map (·.1) = es.map (·.fullName) := by
  rw [Enum.layout, List.map_map, ← List.zipIdx_map_fst n es, List.map_map, List.zipIdx_map_fst]
  rfl

mutual
theorem names_layout (file : Nat) (parent : Owner) (n : Counts) :
    ∀ m : Message, (m.layout file parent n).typesByName.map (·.1) = m.types.map (·.fullName)
  | ⟨_, _, _, _, enums, messages, _, _, _, _⟩ => by
    simp only [Message.layout, Message.types, typesByName_append, List.map_append, names_enumLayout,
      names_layouts, List.map_cons, List.map_map]
    simp [ofMessage, TypeDecl.fullName]

theorem names_layouts (file : Nat) (parent : Owner) (n : Counts) :
    ∀ ms : List Message, (Message.layouts file parent n ms).2.typesByName.map (·.1) =
      (Message.typesOfList ms).map (·.fullName)
  | [] => rfl
  | m :: ms => by simp [Message.layouts, Message.typesOfList, names_layout, names_layouts]
end

/-- A field is stored as it was read. -/
def IsEntry (e : FieldEntry) (f : Field) : Prop := ∃ message, e = f.entry message

mutual
theorem fields_layout (file : Nat) (parent : Owner) (n : Counts) :
    ∀ m : Message, List.Forall₂ IsEntry (m.layout file parent n).fields m.allFields
  | ⟨_, _, _, _, enums, messages, fields, _, _, _⟩ => by
    simp only [Message.layout, Message.allFields, fields_append]
    refine List.rel_append (fields_layouts file _ _ messages) ?_
    rw [List.forall₂_map_left_iff, List.forall₂_same]
    exact fun f _ => ⟨_, rfl⟩

theorem fields_layouts (file : Nat) (parent : Owner) (n : Counts) :
    ∀ ms : List Message, List.Forall₂ IsEntry (Message.layouts file parent n ms).2.fields
      (Message.allFieldsOfList ms)
  | [] => .nil
  | m :: ms => List.rel_append (fields_layout file parent n m) (fields_layouts file parent _ ms)
end

theorem names_schemaLayout (s : Schema) :
    s.layout.typesByName.map (·.1) = s.types.map (·.fullName) := by
  have key : ∀ (fs : List File) (n : Counts),
      (File.layouts n fs).typesByName.map (·.1) = (fs.flatMap File.types).map (·.fullName) := by
    intro fs
    induction fs with
    | nil => exact fun _ => rfl
    | cons f fs ih =>
      intro n
      simp [File.layouts, File.layout, File.types, ofFile, names_enumLayout, names_layouts, ih,
        Function.comp_def, TypeDecl.fullName]
  exact key s.files {}

theorem fields_schemaLayout (s : Schema) : List.Forall₂ IsEntry s.layout.fields s.allFields := by
  have key : ∀ (fs : List File) (n : Counts),
      List.Forall₂ IsEntry (File.layouts n fs).fields (fs.flatMap File.allFields) := by
    intro fs
    induction fs with
    | nil => exact fun _ => .nil
    | cons f fs ih =>
      intro n
      exact List.rel_append (fields_layouts n.files _ _ f.messages) (ih _)
  exact key s.files {}

/-! ### Resolved graphs -/

/-- The type that a field refers to. -/
def target? (g : Graph) (f : FieldEntry) : Option TypeId :=
  if f.kind.isReference then g.type? (f.typeName.getD "") else none

/-- A graph with the targets of all fields. -/
def resolved (g : Graph) : Graph :=
  { g with fields := g.fields.map fun f => { f with target := g.target? f } }

theorem resolveTarget_entry (g : Graph) (message : Nat) (f : Field) :
    g.resolveTarget (f.entry message) =
      if f.kind.isReference && (g.type? (f.typeName.getD "")).isNone then
        .error (.unresolvedType f.fullName (f.typeName.getD ""))
      else .ok { f.entry message with target := g.target? (f.entry message) } := by
  by_cases hkind : f.kind.isReference
  · cases htype : g.type? (f.typeName.getD "") <;>
      simp [resolveTarget, target?, Field.entry, hkind, htype]
  · simp [resolveTarget, target?, Field.entry, hkind]

/-- Targets are found for all fields, or the first field without one is to blame. -/
theorem mapM_resolveTarget (g : Graph) {es : List FieldEntry} {fs : List Field}
    (h : List.Forall₂ IsEntry es fs) :
    es.mapM g.resolveTarget =
      match fs.find? fun f => f.kind.isReference && (g.type? (f.typeName.getD "")).isNone with
      | some f => .error (.unresolvedType f.fullName (f.typeName.getD ""))
      | none => .ok (es.map fun e => { e with target := g.target? e }) := by
  induction h with
  | nil => rfl
  | @cons e f es fs he _ ih =>
    obtain ⟨message, rfl⟩ := he
    rw [List.mapM_cons, resolveTarget_entry, ih, List.find?_cons]
    cases f.kind.isReference && (g.type? (f.typeName.getD "")).isNone with
    | true => rfl
    | false =>
      cases fs.find? fun f => f.kind.isReference && (g.type? (f.typeName.getD "")).isNone <;> rfl

theorem isSome_type?_iff {g : Graph} {name : String} :
    (g.type? name).isSome ↔ dropLeadingDot name ∈ g.typesByName.map (·.1) := by
  rw [type?, Option.isSome_map, List.findRev?_eq_find?_reverse, List.find?_isSome]
  simp

theorem isSome_type?_layout (s : Schema) (name : String) :
    (s.layout.type? name).isSome = (s.type? name).isSome := by
  rw [Bool.eq_iff_iff, isSome_type?_iff, names_schemaLayout, Schema.type?,
    List.findRev?_eq_find?_reverse, List.find?_isSome]
  simp

end Graph

/-- All declarations of a schema by number. -/
def Schema.graph (s : Schema) : Graph := s.layout.resolved

namespace Graph

theorem resolveTargets_layout (s : Schema) : s.layout.resolveTargets =
    match s.firstUnresolved? with
    | some f => .error (.unresolvedType f.fullName (f.typeName.getD ""))
    | none => .ok s.graph := by
  have hfirst : (s.allFields.find? fun f =>
      f.kind.isReference && (s.layout.type? (f.typeName.getD "")).isNone) = s.firstUnresolved? := by
    rw [Schema.firstUnresolved?]
    congr 1
    funext f
    by_cases hkind : f.kind.isReference <;>
      simp [hkind, Schema.target?, ← Option.not_isSome, isSome_type?_layout]
  rw [resolveTargets, mapM_resolveTarget _ (fields_schemaLayout s), hfirst]
  cases s.firstUnresolved? <;> rfl

/-- **Graphs and schemas agree**: they are built out of the same files or fail with the same error,
and the graph holds the declarations of the schema by number. -/
theorem build_eq (files : List Descriptor.File) (rules : RuleIndex) :
    Graph.build files rules = (Schema.build files rules).map Schema.graph := by
  have hrun : ((files.forM (registerFile rules)).run {}).2 =
      (Schema.ofDescriptors files rules).layout := by
    rw [run_registerFiles rules files [] {} (by simp [file?])]
    rfl
  rw [build, hrun, resolveTargets_layout, Schema.build]
  cases (Schema.ofDescriptors files rules).firstUnresolved? <;> rfl

end Graph
end ProtoModels
