import ProtoModels.PackageModule
import ProtoModels.Proofs.Traversals
/-!
# Class trees with other declarations

A tree keeps its shape if every declaration is replaced: lookups, insertions that succeed, and the
order in which classes are written are those of the tree before (`ClassTree.find?_map`,
`ClassTree.insert_map`, `ClassTree.events_map`).
-/
namespace ProtoModels

variable {α β : Type}

namespace ClassNode

mutual
/-- The class with every declaration replaced. -/
def map (g : α → β) : ClassNode α → ClassNode β
  | ⟨name, decl, children⟩ => ⟨name, decl.map g, mapList g children⟩

def mapList (g : α → β) : List (ClassNode α) → List (ClassNode β)
  | [] => []
  | c :: cs => c.map g :: mapList g cs
end

variable {g : α → β}

@[simp] theorem mapList_eq (cs : List (ClassNode α)) : mapList g cs = cs.map (map g) := by
  induction cs with
  | nil => rfl
  | cons c cs ih => rw [mapList, ih, List.map_cons]

theorem map_mk (name : String) (decl : Option α) (children : List (ClassNode α)) :
    map g ⟨name, decl, children⟩ = ⟨name, decl.map g, children.map (map g)⟩ := by
  rw [map, mapList_eq]

@[simp] theorem name_map (n : ClassNode α) : (n.map g).name = n.name := by cases n; rw [map]

@[simp] theorem decl_map (n : ClassNode α) : (n.map g).decl = n.decl.map g := by cases n; rw [map]

@[simp] theorem children_map (n : ClassNode α) : (n.map g).children = n.children.map (map g) := by
  cases n; rw [map_mk]

theorem child?_map (n : ClassNode α) (name : String) :
    (n.map g).child? name = (n.child? name).map (map g) := by
  simp only [child?, children_map, List.find?_map, Function.comp_def, name_map]

theorem find?_map (n : ClassNode α) (path : List String) :
    (n.map g).find? path = (n.find? path).map (map g) := by
  induction path generalizing n with
  | nil => simp only [find?, Option.map_some]
  | cons name path ih =>
    rw [find?, find?, child?_map]
    cases n.child? name with
    | none => rfl
    | some c => exact ih c

/-! ## Insertion -/

theorem upsert_map {ε ε' : Type} {name : String} {f : ClassNode α → Except ε (ClassNode α)}
    {f' : ClassNode β → Except ε' (ClassNode β)}
    (hf : ∀ c c', f c = .ok c' → f' (c.map g) = .ok (c'.map g)) {cs cs' : List (ClassNode α)}
    (h : upsert name f cs = .ok cs') : upsert name f' (cs.map (map g)) = .ok (cs'.map (map g)) := by
  induction cs generalizing cs' with
  | nil =>
    obtain ⟨c, hc, rfl⟩ := map_eq_ok_iff.1 h
    have hnew : f' { name } = .ok (c.map g) := hf _ _ hc
    rw [List.map_nil, upsert, hnew]
    rfl
  | cons c cs ih =>
    rw [upsert] at h
    rw [List.map_cons, upsert, name_map]
    split at h
    · rename_i hname
      obtain ⟨c', hc, rfl⟩ := map_eq_ok_iff.1 h
      rw [if_pos hname, hf _ _ hc]
      rfl
    · rename_i hname
      obtain ⟨rest, hrest, rfl⟩ := map_eq_ok_iff.1 h
      rw [if_neg hname, ih hrest]
      rfl

/-- An insertion that succeeds also succeeds with the declarations replaced. Whether other declarations
are told apart does not matter: one that is there is in the way only if it is another one. -/
theorem insert_map [DecidableEq α] [DecidableEq β] {decl : α} {path : List String} {n n' : ClassNode α}
    (h : n.insert decl path = .ok n') : (n.map g).insert (g decl) path = .ok (n'.map g) := by
  induction path generalizing n n' with
  | nil =>
    obtain ⟨name, there, children⟩ := n
    cases there with
    | none =>
      cases h
      simp [map_mk, insert]
    | some there =>
      simp only [insert] at h
      split at h
      · rename_i heq
        cases h
        simp [map_mk, insert, heq]
      · cases h
  | cons name path ih =>
    rw [insert] at h
    obtain ⟨children, hchildren, rfl⟩ := map_eq_ok_iff.1 h
    rw [insert, children_map, upsert_map (fun _ _ => ih) hchildren]
    obtain ⟨_, _, _⟩ := n
    simp [Except.map, map_mk]

end ClassNode

/-- The opening or closing of the class with every declaration replaced. -/
def ClassEvent.map (g : α → β) : ClassEvent α → ClassEvent β
  | header n depth => header (n.map g) depth
  | body n depth => body (n.map g) depth

namespace ClassNode

variable {g : α → β}

mutual
theorem events_map : ∀ (depth : Nat) (n : ClassNode α),
    (n.map g).events depth = (n.events depth).map (ClassEvent.map g)
  | depth, ⟨name, decl, children⟩ => by
    have hchildren := eventsOfList_map (depth + 1) children
    rw [map_mk, events, events, hchildren]
    simp [ClassEvent.map, map_mk]

theorem eventsOfList_map : ∀ (depth : Nat) (cs : List (ClassNode α)),
    eventsOfList depth (cs.map (map g)) = (eventsOfList depth cs).map (ClassEvent.map g)
  | _, [] => rfl
  | depth, c :: cs => by
    rw [List.map_cons, eventsOfList, eventsOfList, List.map_append, events_map depth c,
      eventsOfList_map depth cs]
end

end ClassNode

namespace ClassTree

variable {g : α → β}

/-- The tree with every declaration replaced. -/
def map (g : α → β) (t : ClassTree α) : ClassTree β := ⟨t.root.map g, t.completed⟩

theorem find?_map (t : ClassTree α) (path : List String) :
    (t.map g).find? path = (t.find? path).map (ClassNode.map g) :=
  t.root.find?_map path

theorem insert_map [DecidableEq α] [DecidableEq β] {decl : α} {path : List String} {t t' : ClassTree α}
    (h : t.insert path decl = .ok t') : (t.map g).insert path (g decl) = .ok (t'.map g) := by
  obtain ⟨root, hroot, rfl⟩ := map_eq_ok_iff.1 h
  have hisNew : (((t.map g).find? path).bind (·.decl)).isNone =
      ((t.find? path).bind (·.decl)).isNone := by
    rw [find?_map]
    cases t.find? path <;> simp
  rw [insert, hisNew]
  simp only [map, ClassNode.insert_map hroot, Except.map]

theorem topLevelPaths_map (t : ClassTree α) : (t.map g).topLevelPaths = t.topLevelPaths := by
  simp [topLevelPaths, map, List.filter_map, Function.comp_def]

/-- **The classes are written in the same order.** -/
theorem events_map (t : ClassTree α) : (t.map g).events = t.events.map (ClassEvent.map g) := by
  rw [events, events, topLevelPaths_map, List.map_flatMap]
  refine List.flatMap_congr fun path _ => ?_
  rw [find?_map]
  cases t.find? path with
  | none => cases path <;> rfl
  | some n =>
    cases path with
    | nil => simp [ClassNode.eventsOfList_map, ClassEvent.map]
    | cons name path => exact ClassNode.events_map 0 n

/-- The tree of some types becomes that of the types they are replaced by, if these stand at the same
class paths. -/
theorem ofTypes_map {names : ClassNames} {g : TypeDecl → TypeDecl}
    (hg : ∀ t, names.resolve (g t) = names.resolve t) {types : List TypeDecl} {t : ClassTree TypeDecl}
    (h : ofTypes names types = .ok t) : ofTypes names (types.map g) = .ok (t.map g) := by
  have hstep : ∀ {t t' : ClassTree TypeDecl} {d : TypeDecl},
      t.insertType (names.resolve d) d = .ok t' →
        (t.map g).insertType (names.resolve (g d)) (g d) = .ok (t'.map g) := by
    intro t t' d h
    rw [insertType] at h ⊢
    split at h
    · rename_i t'' hinsert
      cases h
      rw [hg, insert_map hinsert]
    · cases h
  have hfold : ∀ start : ClassTree TypeDecl,
      types.foldlM (fun t d => t.insertType (names.resolve d) d) start = .ok t →
        (types.map g).foldlM (fun t d => t.insertType (names.resolve d) d) (start.map g) =
          .ok (t.map g) := by
    clear h
    induction types with
    | nil =>
      rintro start h
      cases h
      rfl
    | cons d types ih =>
      intro start h
      rw [List.foldlM_cons, bind_eq_ok_iff] at h
      obtain ⟨next, hnext, h⟩ := h
      rw [List.map_cons, List.foldlM_cons, hstep hnext]
      exact ih next h
  exact hfold empty h

end ClassTree
end ProtoModels
