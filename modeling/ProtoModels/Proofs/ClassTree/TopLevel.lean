import ProtoModels.Proofs.ClassTree.Trie
import ProtoModels.Proofs.Traversals
/-!
# The order of the top level

Types are put at paths in any order. The classes at the top level stand below the root in the order in
which they are made, with or without a type (`Filling.map_name_ofCalls`), and the paths among them that
have a type are listed in the order in which they first got one (`Filling.completed_ofCalls`). From both
lists comes the order in which the top level is written (`ClassTree.Holds.map_name_topLevel`).
-/
namespace ProtoModels

open ClassTree (depthOf)

namespace ClassNode

variable {α : Type} [DecidableEq α] {decl : α}

/-- An insertion leaves the names of the inner classes as they are, or adds one at the end. -/
theorem map_name_insert {name : String} {path : List String} {n n' : ClassNode α}
    (h : n.insert decl (name :: path) = .ok n') : n'.children.map (·.name) =
      if name ∈ n.children.map (·.name) then n.children.map (·.name)
      else n.children.map (·.name) ++ [name] := by
  obtain ⟨pre, old, post, hcut, hinsert⟩ := insert_cons decl name path n
  rw [hinsert] at h
  obtain ⟨c, hc, rfl⟩ := map_eq_ok_iff.1 h
  have hname := name_insert hc
  rw [hcut.eq]
  cases old with
  | some c' =>
    rw [Option.getD_some, hcut.name_eq c' rfl] at hname
    simp [hname, hcut.name_eq c' rfl]
  | none =>
    have hnone : name ∉ pre.map (·.name) := fun hmem => by
      obtain ⟨c', hc', hname'⟩ := List.mem_map.1 hmem
      exact hcut.name_ne c' hc' hname'
    simpa [hcut.last rfl, show c.name = name from hname] using hnone

end ClassNode

namespace ClassTree

variable {α : Type} {t : ClassTree α} {entries : List (List String × α)}

theorem Holds.mem_completed_iff (h : t.Holds entries) {name : String} :
    [name] ∈ t.completed ↔ ∃ d, t.root.declAt [name] = some d := by
  rw [h.mem_completed]
  simp [h.declAt_iff]

theorem Holds.mem_completed_iff_isSome (h : t.Holds entries) {c : ClassNode α}
    (hc : c ∈ t.root.children) : [c.name] ∈ t.completed ↔ c.decl.isSome = true := by
  rw [h.mem_completed_iff, ClassNode.declAt_cons, h.distinct.child?_eq hc, Option.isSome_iff_exists]
  simp

/-- The names of the top level, as they are written: those that are completed, and then the others. -/
theorem Holds.map_name_topLevel (h : t.Holds entries) {names : List String}
    (hcompleted : t.completed = names.map ([·])) : t.topLevel.map (·.name) =
      names ++ (t.root.children.map (·.name)).filter (· ∉ names) := by
  have hscopes : (t.root.children.filter (·.decl.isNone)).map (·.name) =
      (t.root.children.map (·.name)).filter (· ∉ names) := by
    rw [List.filter_map]
    refine congrArg _ (List.filter_congr fun c hc => ?_)
    have hmem := h.mem_completed_iff_isSome hc
    rw [hcompleted, List.mem_map_of_injective List.singleton_injective] at hmem
    simp [hmem]
  have hpaths : t.topLevelPaths =
      (names ++ (t.root.children.map (·.name)).filter (· ∉ names)).map ([·]) := by
    rw [topLevelPaths, hcompleted, List.map_append, ← hscopes, List.map_map]
    rfl
  obtain ⟨listed, hlisted, hperm⟩ := h.exists_topLevelNames
  have heq := List.map_injective_iff.2 List.singleton_injective (hpaths.symm.trans hlisted)
  -- every name of the top level is found, and what is found has the name
  have hfound : ∀ name ∈ listed, (t.find? [name]).map (·.name) = some name := fun name hname => by
    obtain ⟨c, hc, rfl⟩ := List.mem_map.1 (hperm.mem_iff.1 hname)
    simp [find?, h.distinct.child?_eq hc]
  rw [heq, topLevel, hlisted, List.map_filterMap, List.filterMap_map]
  exact (List.filterMap_congr hfound).trans List.filterMap_some

end ClassTree

theorem eraseDups_concat (names : List String) (name : String) :
    (names ++ [name]).eraseDups =
      if name ∈ names.eraseDups then names.eraseDups else names.eraseDups ++ [name] := by
  rw [List.eraseDups_append]
  by_cases h : name ∈ names <;> simp [List.removeAll, h, List.eraseDups_cons]

namespace Filling

/-- The name of a class at the top level, if the path leads to one. -/
def topLevelName? (path : ClassPath) : Option String :=
  match path.segments with
  | [name] => some name
  | _ => none

/-- The names at the top level at which types are put, in the order in which they first are. -/
def declaredNames (calls : List (ClassPath × TypeDecl)) : List String :=
  (calls.filterMap fun call => topLevelName? call.1).eraseDups

/-- The names at the top level on the paths of types, in the order in which they first occur. -/
def firstNames (calls : List (ClassPath × TypeDecl)) : List String :=
  (calls.filterMap fun call => call.1.segments.head?).eraseDups

variable {g : Filling} {path : ClassPath} {d : TypeDecl}

/-- A path is completed when a type is first put at it. -/
theorem completed_put (h : g.tree.Holds g.accepted) {name : String} (hpath : path.segments = [name]) :
    (g.put (path, d)).tree.completed =
      if [name] ∈ g.tree.completed then g.tree.completed else g.tree.completed ++ [[name]] := by
  have hmem : [name] ∈ g.tree.completed ↔ ∃ d, g.tree.root.declAt [name] = some d :=
    h.mem_completed_iff
  rw [put_eq]
  cases hinsert : g.tree.insertType path d with
  | error e =>
    obtain ⟨there, hthere, _⟩ := ClassTree.insertType_eq_error_iff.1 hinsert
    rw [if_pos (hmem.2 ⟨there, hpath ▸ hthere⟩)]
  | ok t =>
    rw [ClassTree.insertType_eq_ok_iff, hpath] at hinsert
    rcases (ClassTree.insert_cases hinsert).2 with ⟨hnone, _, hcompleted⟩ | ⟨hold, hcompleted⟩
    · rw [if_neg, hcompleted]
      simp [hmem, hnone]
    · rw [if_pos, hcompleted]
      rw [hmem, ← Option.ne_none_iff_exists']
      exact fun hnone => hold ⟨hnone, rfl⟩

/-- Nothing is completed by what is put below the top level. -/
theorem completed_put_of_deeper (hpath : depthOf path.segments ≠ 0) :
    (g.put (path, d)).tree.completed = g.tree.completed := by
  rw [put_eq]
  cases hinsert : g.tree.insertType path d with
  | error e => rfl
  | ok t =>
    rw [ClassTree.insertType_eq_ok_iff] at hinsert
    rcases (ClassTree.insert_cases hinsert).2 with ⟨_, hdepth, _⟩ | ⟨_, hcompleted⟩
    · exact absurd hdepth hpath
    · exact hcompleted

/-- The top level gets a class for the first name of a path, at its end, unless it has one. -/
theorem map_name_put {name : String} {rest : List String} (hpath : path.segments = name :: rest) :
    (g.put (path, d)).tree.root.children.map (·.name) =
      if name ∈ g.tree.root.children.map (·.name) then g.tree.root.children.map (·.name)
      else g.tree.root.children.map (·.name) ++ [name] := by
  rw [put_eq]
  cases hinsert : g.tree.insertType path d with
  | error e =>
    obtain ⟨there, hthere, _⟩ := ClassTree.insertType_eq_error_iff.1 hinsert
    rw [hpath] at hthere
    obtain ⟨n, hfind, _⟩ := Option.bind_eq_some_iff.1 hthere
    obtain ⟨c, hc, rfl, _⟩ := ClassNode.exists_inner_of_find? hfind
    rw [if_pos (List.mem_map_of_mem hc)]
  | ok t =>
    rw [ClassTree.insertType_eq_ok_iff, hpath] at hinsert
    exact ClassNode.map_name_insert (ClassTree.insert_cases hinsert).1

variable {calls : List (ClassPath × TypeDecl)}

/-- **The completed paths** are those of the top level at which types are put, in the order in which they
first are. -/
theorem completed_ofCalls (hcalls : ∀ call ∈ calls, call.1.segments ≠ []) :
    (ofCalls calls).tree.completed = (declaredNames calls).map ([·]) := by
  induction calls using List.reverseRecOn with
  | nil => rfl
  | append_singleton calls call ih =>
    obtain ⟨path, d⟩ := call
    have hbefore : ∀ call ∈ calls, call.1.segments ≠ [] := fun call hcall =>
      hcalls call (List.mem_append_left _ hcall)
    have hpath : path.segments ≠ [] := hcalls (path, d) (by simp)
    rw [ofCalls_concat, declaredNames, List.filterMap_append]
    cases hname : topLevelName? path with
    | none =>
      have hdeeper : depthOf path.segments ≠ 0 := fun hdepth => by
        obtain ⟨name, hname'⟩ := (ClassTree.depthOf_eq_zero_iff hpath).1 hdepth
        simp [topLevelName?, hname'] at hname
      rw [completed_put_of_deeper hdeeper, ih hbefore]
      simp [declaredNames, hname]
    | some name =>
      have hsegments : path.segments = [name] := by
        unfold topLevelName? at hname
        split at hname
        · rename_i name' hsegments
          rw [hsegments, Option.some.inj hname]
        · cases hname
      have hlast : [(path, d)].filterMap (fun call => topLevelName? call.1) = [name] := by simp [hname]
      rw [completed_put (holds_ofCalls hbefore) hsegments, ih hbefore, hlast, eraseDups_concat,
        declaredNames]
      simp only [List.mem_map_of_injective List.singleton_injective]
      split <;> simp

/-- **The classes of the top level** stand in the order in which they are made. -/
theorem map_name_ofCalls (hcalls : ∀ call ∈ calls, call.1.segments ≠ []) :
    (ofCalls calls).tree.root.children.map (·.name) = firstNames calls := by
  induction calls using List.reverseRecOn with
  | nil => rfl
  | append_singleton calls call ih =>
    obtain ⟨path, d⟩ := call
    obtain ⟨name, rest, hpath⟩ := List.exists_cons_of_ne_nil (hcalls (path, d) (by simp))
    have hlast : [(path, d)].filterMap (fun call => call.1.segments.head?) = [name] := by
      simp [show path.segments = name :: rest from hpath]
    rw [ofCalls_concat, map_name_put hpath, ih fun call hcall => hcalls call (List.mem_append_left _ hcall),
      firstNames, firstNames, List.filterMap_append, hlast, eraseDups_concat]

end Filling
end ProtoModels
