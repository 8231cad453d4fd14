import Mathlib.Algebra.Order.Group.Multiset
import Mathlib.Tactic.Abel
import ProtoModels.Proofs.Graph.Layout
/-!
# What is listed, and by whom

Files and messages list what is declared in them, and every type and field knows its owner. The two say
the same, each declaration counted once (`Graph.listed_graph`): a layout adds to the lists exactly what it
declares, apart from the messages at its top, which the surrounding list takes up. In the same way the
names in the registries are those of the declarations (`Graph.typesByName_graph`,
`Graph.filesByPath_graph`).

Counting is done with multisets, where one layout behind another is a sum.
-/
namespace ProtoModels

/-- Something that is listed: a type or the field with a number. -/
inductive Member where
  | type (t : TypeId)
  | field (i : Nat)
deriving DecidableEq, Repr

def FileEntry.members (f : FileEntry) : List Member :=
  f.enums.map (.type <| .enum ·) ++ f.messages.map (.type <| .message ·)

def MessageEntry.members (m : MessageEntry) : List Member :=
  m.enums.map (.type <| .enum ·) ++ m.messages.map (.type <| .message ·) ++ m.fields.map .field

namespace Graph

/-! ## Numbers in a layout

The entries of a layout have the numbers from `n` on, where `n` counts what was there before. -/

/-- What is in the lists of files and messages, each with what lists it. -/
def listed (n : Counts) (g : Graph) : Multiset (Owner × Member) :=
  ((g.files.zipIdx n.files).flatMap fun f => f.1.members.map (Owner.file f.2, ·) : List _) +
  ((g.messages.zipIdx n.messages).flatMap fun m => m.1.members.map (Owner.message m.2, ·) : List _)

/-- The types and fields, each with its owner. -/
def owned (n : Counts) (g : Graph) : Multiset (Owner × Member) :=
  ((g.messages.zipIdx n.messages).map fun m => (m.1.parent, Member.type (.message m.2)) : List _) +
  ((g.enums.zipIdx n.enums).map fun e => (e.1.parent, Member.type (.enum e.2)) : List _) +
  ((g.fields.zipIdx n.fields).map fun f => (Owner.message f.1.message, Member.field f.2) : List _)

/-- The types by their full names. -/
def named (n : Counts) (g : Graph) : Multiset (String × TypeId) :=
  ((g.messages.zipIdx n.messages).map fun m => (m.1.fullName, TypeId.message m.2) : List _) +
  ((g.enums.zipIdx n.enums).map fun e => (e.1.fullName, TypeId.enum e.2) : List _)

/-- The files by their paths. -/
def pathed (n : Counts) (g : Graph) : List (String × Nat) :=
  (g.files.zipIdx n.files).map fun f => (f.1.path, f.2)

theorem listed_append (n : Counts) (g h : Graph) :
    (g ++ h).listed n = g.listed n + h.listed (n + g.counts) := by
  simp only [listed, files_append, messages_append, List.zipIdx_append, List.flatMap_append,
    ← Multiset.coe_add, counts, Counts.files_add, Counts.messages_add]
  abel

theorem owned_append (n : Counts) (g h : Graph) :
    (g ++ h).owned n = g.owned n + h.owned (n + g.counts) := by
  simp only [owned, messages_append, enums_append, fields_append, List.zipIdx_append, List.map_append,
    ← Multiset.coe_add, counts, Counts.messages_add, Counts.enums_add, Counts.fields_add]
  abel

theorem named_append (n : Counts) (g h : Graph) :
    (g ++ h).named n = g.named n + h.named (n + g.counts) := by
  simp only [named, messages_append, enums_append, List.zipIdx_append, List.map_append,
    ← Multiset.coe_add, counts, Counts.messages_add, Counts.enums_add]
  abel

/-- Numbers are handed out without a gap. -/
theorem map_zipIdx_snd {α β : Type} (l : List α) (n : Nat) (f : Nat → β) :
    (l.zipIdx n).map (fun x => f x.2) = (List.range' n l.length).map f := by
  rw [← List.zipIdx_map_snd n l, List.map_map]
  rfl

theorem listed_ofFile (n : Counts) (id : Nat) (f : FileEntry) :
    (ofFile id f).listed n = (f.members.map (Owner.file n.files, ·) : List _) := by
  simp [listed, ofFile]

theorem owned_ofFile (n : Counts) (id : Nat) (f : FileEntry) : (ofFile id f).owned n = 0 := rfl

theorem listed_ofMessage (n : Counts) (id : Nat) (m : MessageEntry) :
    (ofMessage id m).listed n = (m.members.map (Owner.message n.messages, ·) : List _) := by
  simp [listed, ofMessage]

theorem owned_ofMessage (n : Counts) (id : Nat) (m : MessageEntry) :
    (ofMessage id m).owned n = {(m.parent, Member.type (.message n.messages))} := rfl

theorem listed_enumLayout (n : Counts) (file : Nat) (parent : Owner) (k : Nat) (es : List Enum) :
    (Enum.layout file parent k es).listed n = 0 := rfl

theorem owned_enumLayout (n : Counts) (file : Nat) (parent : Owner) (k : Nat) (es : List Enum) :
    (Enum.layout file parent k es).owned n =
      ((List.range' n.enums es.length).map fun i => (parent, Member.type (.enum i)) : List _) := by
  rw [← map_zipIdx_snd es n.enums]
  simp [owned, Enum.layout, List.zipIdx_map, Enum.entry, Function.comp_def]

theorem listed_fields (n : Counts) (es : List FieldEntry) :
    ({ fields := es } : Graph).listed n = 0 := rfl

theorem owned_fields (n : Counts) (message : Nat) (fs : List Field) :
    ({ fields := fs.map (·.entry message) } : Graph).owned n =
      ((List.range' n.fields fs.length).map fun i => (Owner.message message, Member.field i) :
        List _) := by
  rw [← map_zipIdx_snd fs n.fields]
  simp [owned, List.zipIdx_map, Field.entry, Function.comp_def]

/-! ## Lists and owners -/

mutual
/-- A message and what is in the lists below it is what registering it declares. -/
theorem listed_layout (file : Nat) (parent : Owner) (n : Counts) : ∀ m : Message,
    {(parent, Member.type (.message n.messages))} + (m.layout file parent n).listed n =
      (m.layout file parent n).owned n
  | ⟨_, _, _, _, enums, messages, fields, _, _, _⟩ => by
    have hnested := listed_layouts file (.message n.messages)
      (n + ⟨0, 1, 0, 0⟩ + ⟨0, 0, enums.length, 0⟩) messages
    simp only [Message.layout, listed_append, owned_append, counts_append, counts_ofMessage,
      counts_enumLayout]
    simp only [Counts.add_assoc] at hnested ⊢
    rw [← hnested]
    simp only [listed_ofMessage, listed_enumLayout, listed_fields, owned_ofMessage, owned_enumLayout,
      owned_fields, MessageEntry.members, List.map_append, List.map_map, ← Multiset.coe_add, counts,
      Counts.enums_add, Counts.fields_add, zero_add, add_zero, Function.comp_def]
    abel

theorem listed_layouts (file : Nat) (parent : Owner) (n : Counts) : ∀ ms : List Message,
    ((Message.layouts file parent n ms).1.map fun i => (parent, Member.type (.message i)) : List _) +
      (Message.layouts file parent n ms).2.listed n = (Message.layouts file parent n ms).2.owned n
  | [] => rfl
  | m :: ms => by
    rw [Message.layouts, listed_append, owned_append, ← listed_layout, ← listed_layouts]
    simp only [List.map_cons, ← Multiset.cons_coe, ← Multiset.singleton_add]
    abel
end

theorem listed_fileLayout (n : Counts) (f : File) : (f.layout n).listed n = (f.layout n).owned n := by
  have hnested := listed_layouts n.files (.file n.files)
    (n + ⟨1, 0, 0, 0⟩ + ⟨0, 0, f.enums.length, 0⟩) f.messages
  simp only [File.layout, listed_append, owned_append, counts_append, counts_ofFile, counts_enumLayout]
  simp only [Counts.add_assoc] at hnested ⊢
  rw [← hnested]
  simp only [listed_ofFile, listed_enumLayout, owned_ofFile, owned_enumLayout, FileEntry.members,
    List.map_append, List.map_map, ← Multiset.coe_add, Counts.enums_add, zero_add, add_zero,
    Function.comp_def]
  abel

theorem listed_fileLayouts (fs : List File) (n : Counts) :
    (File.layouts n fs).listed n = (File.layouts n fs).owned n := by
  induction fs generalizing n with
  | nil => rfl
  | cons f fs ih => rw [File.layouts, listed_append, owned_append, listed_fileLayout, ih]

/-- **Everything is listed exactly once, by its owner.** -/
theorem listed_graph (s : Schema) : s.graph.listed {} = s.graph.owned {} := by
  have howned : s.graph.owned {} = s.layout.owned {} := by
    simp [owned, Schema.graph, resolved, List.zipIdx_map, Function.comp_def]
  rw [howned]
  exact listed_fileLayouts s.files {}

/-! ## Registries -/

theorem named_enumLayout (n : Counts) (file : Nat) (parent : Owner) (es : List Enum) :
    (Enum.layout file parent n.enums es).named n =
      ((Enum.layout file parent n.enums es).typesByName : Multiset _) := by
  simp [named, Enum.layout, List.zipIdx_map, Enum.entry, Function.comp_def]

theorem named_ofFile (n : Counts) (id : Nat) (f : FileEntry) : (ofFile id f).named n = 0 := rfl

theorem named_ofMessage (n : Counts) (m : MessageEntry) :
    (ofMessage n.messages m).named n = ((ofMessage n.messages m).typesByName : Multiset _) := rfl

theorem named_fields (n : Counts) (es : List FieldEntry) : ({ fields := es } : Graph).named n = 0 := rfl

mutual
theorem named_layout (file : Nat) (parent : Owner) (n : Counts) : ∀ m : Message,
    (m.layout file parent n).named n = ((m.layout file parent n).typesByName : Multiset _)
  | ⟨_, _, _, _, enums, messages, fields, _, _, _⟩ => by
    have henums := named_enumLayout (n + ⟨0, 1, 0, 0⟩) file (.message n.messages) enums
    have hnested := named_layouts file (.message n.messages)
      (n + ⟨0, 1, 0, 0⟩ + ⟨0, 0, enums.length, 0⟩) messages
    simp only [Counts.enums_add, add_zero] at henums
    simp only [Message.layout, named_append, typesByName_append, ← Multiset.coe_add, counts_append,
      counts_ofMessage, counts_enumLayout, ← Counts.add_assoc]
    rw [named_ofMessage, henums, hnested, named_fields]
    rfl

theorem named_layouts (file : Nat) (parent : Owner) (n : Counts) : ∀ ms : List Message,
    (Message.layouts file parent n ms).2.named n =
      ((Message.layouts file parent n ms).2.typesByName : Multiset _)
  | [] => rfl
  | m :: ms => by
    rw [Message.layouts, named_append, named_layout, named_layouts, typesByName_append,
      ← Multiset.coe_add]
end

theorem named_fileLayout (n : Counts) (f : File) :
    (f.layout n).named n = ((f.layout n).typesByName : Multiset _) := by
  have henums := named_enumLayout (n + ⟨1, 0, 0, 0⟩) n.files (.file n.files) f.enums
  simp only [Counts.enums_add, add_zero] at henums
  simp only [File.layout, named_append, typesByName_append, ← Multiset.coe_add, counts_append,
    counts_ofFile, counts_enumLayout, ← Counts.add_assoc]
  rw [named_ofFile, henums, named_layouts]
  rfl

theorem named_fileLayouts (fs : List File) (n : Counts) :
    (File.layouts n fs).named n = ((File.layouts n fs).typesByName : Multiset _) := by
  induction fs generalizing n with
  | nil => rfl
  | cons f fs ih =>
    rw [File.layouts, named_append, named_fileLayout, ih, typesByName_append, ← Multiset.coe_add]

/-- **Types are registered by their full names.** -/
theorem typesByName_graph (s : Schema) : (s.graph.typesByName : Multiset _) = s.graph.named {} :=
  (named_fileLayouts s.files {}).symm

theorem pathed_append (n : Counts) (g h : Graph) :
    (g ++ h).pathed n = g.pathed n ++ h.pathed (n + g.counts) := by
  simp only [pathed, files_append, List.zipIdx_append, List.map_append, counts, Counts.files_add]

theorem pathed_fileLayout (n : Counts) (f : File) : (f.layout n).pathed n = (f.layout n).filesByPath := by
  simp [pathed, File.layout, ofFile, Enum.layout, noFiles_layouts]

theorem pathed_fileLayouts (fs : List File) (n : Counts) :
    (File.layouts n fs).pathed n = (File.layouts n fs).filesByPath := by
  induction fs generalizing n with
  | nil => rfl
  | cons f fs ih => rw [File.layouts, pathed_append, pathed_fileLayout, ih, filesByPath_append]

/-- **Files are registered by their paths.** -/
theorem filesByPath_graph (s : Schema) : s.graph.filesByPath = s.graph.pathed {} :=
  (pathed_fileLayouts s.files {}).symm

end Graph
end ProtoModels
