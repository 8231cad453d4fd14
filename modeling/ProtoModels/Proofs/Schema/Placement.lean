import ProtoModels.ClassPath
import ProtoModels.Proofs.Schema.Declarations
import ProtoModels.Schema.Build
/-!
# Where built declarations stand

A schema that is built from descriptors says of every type where it stands: the type's full name is its
package followed by its local path (`fullName_eq_foldl`), the local path starts with a type at the top
level of a file of the package (`head_localPath_mem`), and every segment is the name of a type
(`exists_name_of_mem_localPath`). Every reference of such a schema has a target
(`exists_target?_of_build`).
-/
namespace ProtoModels

/-- The names of the messages around a type and its own. -/
def TypeDecl.localPath (t : TypeDecl) : List String := t.place.enclosing ++ [t.name]

theorem TypeDecl.localPath_ne_nil (t : TypeDecl) : t.localPath ≠ [] := by simp [localPath]

/-- A type that was read in a scope. -/
structure TypeDecl.StandsIn (t : TypeDecl) (c : FileContext) (sc : Scope) : Prop where
  package : t.package = c.package
  enclosing : t.place.enclosing = sc.enclosing
  fullName : t.fullName = qualify sc.outer t.name

/-! ## Reading one file -/

theorem Enum.standsIn_ofDescriptor (c : FileContext) (sc : Scope) (path : List Int)
    (d : Descriptor.Enum) : (TypeDecl.enum (Enum.ofDescriptor c sc path d)).StandsIn c sc :=
  ⟨rfl, rfl, rfl⟩

namespace Message

theorem standsIn_ofDescriptor (c : FileContext) (sc : Scope) (path : List Int)
    (d : Descriptor.Message) : (TypeDecl.message (Message.ofDescriptor c sc path d)).StandsIn c sc := by
  cases d; exact ⟨rfl, rfl, rfl⟩

theorem name_ofDescriptor (c : FileContext) (sc : Scope) (path : List Int) (d : Descriptor.Message) :
    (Message.ofDescriptor c sc path d).name = d.name := by
  cases d; rfl

theorem mem_ofDescriptors {c : FileContext} {sc : Scope} {path : List Int} {m : Message} :
    ∀ {i : Nat} {ds : List Descriptor.Message}, m ∈ Message.ofDescriptors c sc path i ds →
      ∃ p, ∃ d, m = Message.ofDescriptor c sc p d
  | i, d :: ds, h => by
    rw [Message.ofDescriptors, List.mem_cons] at h
    rcases h with rfl | h
    · exact ⟨_, d, rfl⟩
    · exact mem_ofDescriptors h
  | _, [], h => by simp [Message.ofDescriptors] at h

/-- What a message declares is read in the scope that the message opens. -/
theorem standsIn_of_mem_inner {c : FileContext} {sc : Scope} {path : List Int}
    {d : Descriptor.Message} {t : TypeDecl} (h : t ∈ (Message.ofDescriptor c sc path d).inner) :
    t.StandsIn c (sc.enter d.name) := by
  cases d
  simp only [inner, List.mem_append, List.mem_map, Message.ofDescriptor] at h
  rcases h with ⟨m, hm, rfl⟩ | ⟨e, he, rfl⟩
  · obtain ⟨p, d, rfl⟩ := mem_ofDescriptors hm
    exact standsIn_ofDescriptor c _ p d
  · obtain ⟨i, hi, rfl⟩ := List.mem_mapIdx.1 he
    exact Enum.standsIn_ofDescriptor c _ _ _

theorem exists_ofDescriptor_of_mem_inner {c : FileContext} {sc : Scope} {path : List Int}
    {d : Descriptor.Message} {m : Message}
    (h : .message m ∈ (Message.ofDescriptor c sc path d).inner) :
    ∃ sc' p d', m = Message.ofDescriptor c sc' p d' := by
  cases d
  simp only [inner, List.mem_append, List.mem_map, Message.ofDescriptor] at h
  rcases h with ⟨m', hm, heq⟩ | ⟨e, _, heq⟩
  · cases heq
    obtain ⟨p, d', rfl⟩ := mem_ofDescriptors hm
    exact ⟨_, p, d', rfl⟩
  · cases heq

end Message

theorem File.standsIn_of_mem_topLevel {rules : RuleIndex} {d : Descriptor.File} {t : TypeDecl}
    (h : t ∈ (File.ofDescriptor rules d).topLevel) :
    ∃ c : FileContext, c.package = d.package ∧ t.StandsIn c c.scope ∧
      ∀ m, t = .message m → ∃ p d', m = Message.ofDescriptor c c.scope p d' := by
  simp only [File.topLevel, List.mem_append, List.mem_map, File.ofDescriptor] at h
  rcases h with ⟨m, hm, rfl⟩ | ⟨e, he, rfl⟩
  · obtain ⟨p, d', rfl⟩ := Message.mem_ofDescriptors hm
    exact ⟨_, rfl, Message.standsIn_ofDescriptor _ _ p d', fun m hm => by cases hm; exact ⟨p, d', rfl⟩⟩
  · obtain ⟨i, hi, rfl⟩ := List.mem_mapIdx.1 he
    exact ⟨_, rfl, Enum.standsIn_ofDescriptor _ _ _ _, fun m hm => by cases hm⟩

/-! ## Built schemas -/

namespace Schema

variable {files : List Descriptor.File} {rules : RuleIndex} {s : Schema}

theorem build_eq_ok_iff : build files rules = .ok s ↔
    s = ofDescriptors files rules ∧ s.firstUnresolved? = none := by
  simp only [build]
  constructor
  · intro h
    split at h
    · cases h
    · cases h
      exact ⟨rfl, ‹_›⟩
  · rintro ⟨rfl, h⟩
    rw [h]

/-- Every reference in a built schema has a target. -/
theorem exists_target?_of_build (h : build files rules = .ok s) {f : Field} (hf : f ∈ s.allFields)
    (hk : f.kind.isReference = true) : ∃ t, s.target? f = some t := by
  have := List.find?_eq_none.1 (build_eq_ok_iff.1 h).2 f hf
  exact Option.ne_none_iff_exists'.1 (by simpa [hk] using this)

/-- A built file comes from a descriptor. -/
theorem exists_descriptor_of_build (h : build files rules = .ok s) {f : File} (hf : f ∈ s.files) :
    ∃ d, f = File.ofDescriptor rules d := by
  rw [(build_eq_ok_iff.1 h).1] at hf
  obtain ⟨d, _, rfl⟩ := List.mem_map.1 hf
  exact ⟨d, rfl⟩

/-- The types of a file stand at its top level. -/
theorem standsIn_topLevel (h : build files rules = .ok s) {f : File} (hf : f ∈ s.files) {t : TypeDecl}
    (ht : t ∈ f.topLevel) : ∃ c : FileContext, c.package = f.package ∧ t.StandsIn c c.scope := by
  obtain ⟨d, rfl⟩ := exists_descriptor_of_build h hf
  obtain ⟨c, hc, ht, _⟩ := File.standsIn_of_mem_topLevel ht
  exact ⟨c, hc, ht⟩

/-- Every message was read in some scope. -/
theorem exists_ofDescriptor (h : build files rules = .ok s) {m : Message} (hm : .message m ∈ s.types) :
    ∃ c sc p d, m = Message.ofDescriptor c sc p d := by
  have key : ∀ t ∈ s.types, ∀ m, t = .message m → ∃ c sc p d, m = Message.ofDescriptor c sc p d := by
    refine types_induction ?_ ?_
    · rintro f hf t ht m rfl
      obtain ⟨d, rfl⟩ := exists_descriptor_of_build h hf
      obtain ⟨c, _, _, hm⟩ := File.standsIn_of_mem_topLevel ht
      obtain ⟨p, d', rfl⟩ := hm m rfl
      exact ⟨c, _, p, d', rfl⟩
    · rintro m hm ih t ht m' rfl
      obtain ⟨c, sc, p, d, rfl⟩ := ih m rfl
      obtain ⟨sc', p', d', rfl⟩ := Message.exists_ofDescriptor_of_mem_inner ht
      exact ⟨c, sc', p', d', rfl⟩
  exact key _ hm m rfl

/-- A type in a message stands behind the message's own local path. -/
theorem localPath_of_mem_inner (h : build files rules = .ok s) {m : Message}
    (hm : .message m ∈ s.types) {t : TypeDecl} (ht : t ∈ m.inner) :
    t.package = m.place.package ∧ t.localPath = (TypeDecl.message m).localPath ++ [t.name] ∧
      t.fullName = qualify m.fullName t.name := by
  obtain ⟨c, sc, p, d, rfl⟩ := exists_ofDescriptor h hm
  obtain ⟨hpackage, henclosing, hname⟩ := Message.standsIn_of_mem_inner ht
  obtain ⟨hpackage', henclosing', hname'⟩ := Message.standsIn_ofDescriptor c sc p d
  refine ⟨hpackage.trans hpackage'.symm, ?_, ?_⟩
  · rw [TypeDecl.localPath, henclosing, Scope.enter, TypeDecl.localPath, henclosing', TypeDecl.name,
      Message.name_ofDescriptor]
  · rw [hname, Scope.enter]
    simp only [TypeDecl.fullName, TypeDecl.name, Message.name_ofDescriptor] at hname'
    rw [hname']

/-- **The full name of a type** is its package followed by its local path. -/
theorem fullName_eq_foldl (h : build files rules = .ok s) :
    ∀ t ∈ s.types, t.fullName = t.localPath.foldl qualify t.package := by
  refine types_induction (fun f hf t ht => ?_) fun m hm ih t ht => ?_
  · obtain ⟨c, hc, hpackage, henclosing, hname⟩ := standsIn_topLevel h hf ht
    rw [TypeDecl.localPath, henclosing, hname, hpackage]
    rfl
  · obtain ⟨hpackage, hpath, hname⟩ := localPath_of_mem_inner h hm ht
    rw [hpath, hname, List.foldl_append, hpackage]
    simp only [TypeDecl.fullName, TypeDecl.package, TypeDecl.place] at ih
    rw [← ih]
    rfl

theorem package_mem_of_mem_types (h : build files rules = .ok s) :
    ∀ t ∈ s.types, t.package ∈ s.files.map (·.package) := by
  refine types_induction (fun f hf t ht => ?_) fun m hm ih t ht => ?_
  · obtain ⟨c, hc, hpackage, _⟩ := standsIn_topLevel h hf ht
    rw [hpackage, hc]
    exact List.mem_map_of_mem hf
  · rw [(localPath_of_mem_inner h hm ht).1]
    exact ih

/-- The local path of a type starts at the top level of its package. -/
theorem head_localPath_mem (h : build files rules = .ok s) :
    ∀ t ∈ s.types, ∃ name ∈ s.topLevelNames t.package, t.localPath.head? = some name := by
  refine types_induction (fun f hf t ht => ?_) fun m hm ih t ht => ?_
  · obtain ⟨c, hc, hpackage, henclosing, _⟩ := standsIn_topLevel h hf ht
    refine ⟨t.name, ?_, by simp [TypeDecl.localPath, henclosing, FileContext.scope]⟩
    refine List.mem_map_of_mem (List.mem_flatMap.2 ⟨f, ?_, ht⟩)
    simp [hf, hpackage, hc]
  · obtain ⟨hpackage, hpath, _⟩ := localPath_of_mem_inner h hm ht
    obtain ⟨name, hname, hhead⟩ := ih
    exact ⟨name, hpackage ▸ hname, by rw [hpath, List.head?_append, hhead, Option.some_or]⟩

/-- A local path leads through the messages around the type. -/
theorem exists_message_of_localPath (h : build files rules = .ok s) :
    ∀ t ∈ s.types, ∀ front rest, t.localPath = front ++ rest → front ≠ [] → rest ≠ [] →
      ∃ m, .message m ∈ s.types ∧ m.place.package = t.package ∧
        (TypeDecl.message m).localPath = front := by
  refine types_induction (fun f hf t ht front rest heq hfront hrest => ?_)
    fun m hm ih t ht front rest heq hfront hrest => ?_
  · obtain ⟨c, _, _, henclosing, _⟩ := standsIn_topLevel h hf ht
    rw [TypeDecl.localPath, henclosing] at heq
    obtain ⟨_, _, rfl⟩ := List.exists_cons_of_ne_nil hfront
    obtain ⟨_, _, rfl⟩ := List.exists_cons_of_ne_nil hrest
    simp [FileContext.scope] at heq
  · obtain ⟨hpackage, hpath, _⟩ := localPath_of_mem_inner h hm ht
    obtain ⟨rest, name, rfl⟩ : ∃ rest' name, rest = rest' ++ [name] :=
      ⟨_, _, (List.dropLast_concat_getLast hrest).symm⟩
    rw [hpath, ← List.append_assoc] at heq
    obtain ⟨heq, _⟩ := List.append_inj' heq rfl
    by_cases hlast : rest = []
    · exact ⟨m, hm, hpackage.symm, by rw [heq, hlast, List.append_nil]⟩
    · obtain ⟨m', hm', hpackage', hpath'⟩ := ih front rest heq hfront hlast
      exact ⟨m', hm', hpackage'.trans hpackage.symm, hpath'⟩

/-- Every segment of a local path is the name of a type. -/
theorem exists_name_of_mem_localPath (h : build files rules = .ok s) :
    ∀ t ∈ s.types, ∀ name ∈ t.localPath, ∃ u ∈ s.types, u.name = name := by
  refine types_induction (fun f hf t ht name hname => ?_) fun m hm ih t ht name hname => ?_
  · obtain ⟨c, hc, hpackage, henclosing, _⟩ := standsIn_topLevel h hf ht
    refine ⟨t, topLevel_subset_types hf ht, ?_⟩
    simpa [TypeDecl.localPath, henclosing, FileContext.scope, eq_comm] using hname
  · rw [(localPath_of_mem_inner h hm ht).2.1, List.mem_append, List.mem_singleton] at hname
    rcases hname with hname | rfl
    · exact ih name hname
    · exact ⟨t, inner_subset_types hm ht, rfl⟩

end Schema
end ProtoModels
