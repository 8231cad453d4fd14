import Mathlib.Data.List.Induction
import ProtoModels.PackageModule
import ProtoModels.Proofs.ClassPaths
import ProtoModels.Proofs.ClassTree.Lookup
import ProtoModels.Proofs.Schema.WalkReach
/-!
# The class tree of a package

Types whose class paths differ make a tree that holds each of them at its class path
(`ClassTree.ofTypes_holds`). The class paths of what a unit collects do differ: a class path gives away
the full name, and no two collected types share one. So no package has a name collision
(`Schema.packageTree_holds`).
-/
namespace ProtoModels

/-- Some types with their class paths. -/
def ClassNames.entries (names : ClassNames) (types : List TypeDecl) : List (List String × TypeDecl) :=
  types.map fun t => ((names.resolve t).segments, t)

theorem ClassNames.mem_entries {names : ClassNames} {types : List TypeDecl} {path : List String}
    {t : TypeDecl} :
    (path, t) ∈ names.entries types ↔ t ∈ types ∧ path = (names.resolve t).segments := by
  simp only [entries, List.mem_map, Prod.mk.injEq]
  constructor
  · rintro ⟨t, ht, rfl, rfl⟩
    exact ⟨ht, rfl⟩
  · rintro ⟨ht, rfl⟩
    exact ⟨t, ht, rfl, rfl⟩

namespace ClassTree

/-- **Types with different class paths** make a tree that holds them all. -/
theorem ofTypes_holds {names : ClassNames} {types : List TypeDecl}
    (hinj : ∀ t ∈ types, ∀ u ∈ types,
      (names.resolve t).segments = (names.resolve u).segments → t = u) :
    ∃ tree, ofTypes names types = .ok tree ∧ tree.Holds (names.entries types) := by
  induction types using List.reverseRecOn with
  | nil => exact ⟨empty, rfl, holds_empty⟩
  | append_singleton types t ih =>
    obtain ⟨tree, htree, hholds⟩ := ih fun u hu v hv =>
      hinj u (List.mem_append_left _ hu) v (List.mem_append_left _ hv)
    have hfree : ∀ u, ((names.resolve t).segments, u) ∈ names.entries types → u = t := by
      intro u hu
      obtain ⟨hu, heq⟩ := ClassNames.mem_entries.1 hu
      exact (hinj t (by simp) u (List.mem_append_left _ hu) heq).symm
    obtain ⟨tree', htree'⟩ := hholds.exists_insert hfree
    refine ⟨tree', ?_, ?_⟩
    · rw [ofTypes] at htree ⊢
      rw [List.foldlM_append, htree]
      simp only [bind, Except.bind, List.foldlM_cons, insertType, htree', List.foldlM_nil]
      rfl
    · simpa [ClassNames.entries] using hholds.insert (names.segments_resolve_ne_nil t) htree'

/-- A class that carries a declaration. -/
theorem Holds.exists_find?_iff {α : Type} {t : ClassTree α} {entries : List (List String × α)}
    (h : t.Holds entries) {path : List String} {d : α} :
    (∃ node, t.find? path = some node ∧ node.decl = some d) ↔ (path, d) ∈ entries := by
  rw [← h.declAt_iff, ClassNode.declAt, Option.bind_eq_some_iff]
  rfl

end ClassTree

namespace Schema

variable {files : List Descriptor.File} {rules : RuleIndex} {s : Schema} {roots : List File}

/-- No two collected types have one class path. -/
theorem eq_of_resolve (h : build files rules = .ok s) (hroots : ∀ f ∈ roots, f ∈ s.files)
    (package : String) : ∀ t ∈ s.collect roots, ∀ u ∈ s.collect roots,
      ((ClassNames.ofPackage s package).resolve t).segments =
        ((ClassNames.ofPackage s package).resolve u).segments → t = u := by
  intro t ht u hu heq
  have htypes := fun v hv => mem_types_of_mem_collect (t := v) hroots hv
  exact eq_of_mem_collect ht hu
    (ClassNames.fullName_eq_of_resolve h (htypes t ht) (htypes u hu) heq)

/-- **The class tree of a package** holds what the package's files collect, each type at its class
path. -/
theorem packageTree_holds (h : build files rules = .ok s) (hroots : ∀ f ∈ roots, f ∈ s.files)
    (package : String) : ∃ tree, s.packageTree package roots = .ok tree ∧
      tree.Holds ((ClassNames.ofPackage s package).entries (s.collect roots)) :=
  ClassTree.ofTypes_holds (eq_of_resolve h hroots package)

end Schema
end ProtoModels
