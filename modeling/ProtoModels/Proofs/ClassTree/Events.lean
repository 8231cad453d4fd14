import Mathlib.Data.List.Perm.Basic
import ProtoModels.Proofs.ClassTree.Lookup
/-!
# What is written of a class tree

The top level of a tree is a rearrangement of the classes below its root (`Holds.topLevel_perm`), so
every class of the tree is opened and closed, at its own depth, and no other is (`Holds.mem_events_iff`).
-/
namespace ProtoModels

/-- The class that is opened or closed. -/
def ClassEvent.node {α : Type} : ClassEvent α → ClassNode α
  | .header n _ | .body n _ => n

namespace ClassNode

variable {α : Type}

theorem eventsOfList_eq (depth : Nat) (cs : List (ClassNode α)) :
    eventsOfList depth cs = cs.flatMap (events depth) := by
  induction cs with
  | nil => rfl
  | cons c cs ih => rw [eventsOfList, ih, List.flatMap_cons]

theorem events_eq (depth : Nat) (n : ClassNode α) :
    n.events depth =
      .header n depth :: (n.children.flatMap (events (depth + 1)) ++ [.body n depth]) := by
  cases n
  rw [events, eventsOfList_eq]

/-- The classes below a class are opened and closed at the lengths of their paths. -/
theorem Distinct.mem_events_iff {n : ClassNode α} (h : n.Distinct) {depth : Nat} {e : ClassEvent α} :
    e ∈ n.events depth ↔ ∃ path n', n.find? path = some n' ∧
      (e = .header n' (depth + path.length) ∨ e = .body n' (depth + path.length)) := by
  induction h generalizing depth e with
  | @node n names inner ih =>
    have hn : n.Distinct := .node names inner
    have hbelow : (∃ c ∈ n.children, e ∈ c.events (depth + 1)) ↔ ∃ c ∈ n.children, ∃ path n',
        c.find? path = some n' ∧ (e = .header n' (depth + (c.name :: path).length) ∨
          e = .body n' (depth + (c.name :: path).length)) := by
      refine exists_congr fun c => and_congr_right fun hc => ?_
      simp only [ih c hc, List.length_cons, Nat.add_right_comm, Nat.add_assoc]
    rw [events_eq, hn.exists_find?_iff, ← hbelow, List.mem_cons, List.mem_append, List.mem_flatMap,
      List.mem_singleton, or_assoc, or_comm (a := e = .body n _)]
    rfl

end ClassNode

namespace ClassTree

variable {α : Type} {t : ClassTree α} {entries : List (List String × α)}

/-- Paths of a single name are given by their names. -/
theorem exists_names_of_singletons {paths : List (List String)}
    (h : ∀ p ∈ paths, ∃ name, p = [name]) : ∃ names : List String, paths = names.map ([·]) := by
  induction paths with
  | nil => exact ⟨[], rfl⟩
  | cons p paths ih =>
    obtain ⟨name, rfl⟩ := h p (List.mem_cons_self ..)
    obtain ⟨names, hnames⟩ := ih fun p hp => h p (List.mem_cons_of_mem _ hp)
    exact ⟨name :: names, by rw [hnames, List.map_cons]⟩

/-- The completed paths are the names of the declared classes below the root, each once. -/
theorem Holds.exists_declaredNames (h : t.Holds entries) : ∃ names : List String,
    t.completed = names.map ([·]) ∧ names.Nodup ∧
      ∀ name, name ∈ names ↔ ∃ d, t.root.declAt [name] = some d := by
  obtain ⟨names, hnames⟩ := exists_names_of_singletons fun p hp => by
    obtain ⟨name, _, hp, _⟩ := (h.mem_completed p).1 hp
    exact ⟨name, hp⟩
  have hnodup := h.completed_nodup
  rw [hnames] at hnodup
  refine ⟨names, hnames, hnodup.of_map _, fun name => ?_⟩
  have hcompleted := h.mem_completed [name]
  rw [hnames, List.mem_map_of_injective List.singleton_injective] at hcompleted
  rw [hcompleted]
  constructor
  · rintro ⟨_, d, _, hd⟩
    exact ⟨d, (h.declAt_iff _ _).2 hd⟩
  · rintro ⟨d, hd⟩
    exact ⟨name, d, rfl, (h.declAt_iff _ _).1 hd⟩

/-- The top level is written by names: those of all classes below the root, in another order. -/
theorem Holds.exists_topLevelNames (h : t.Holds entries) : ∃ names : List String,
    t.topLevelPaths = names.map ([·]) ∧ names.Perm (t.root.children.map (·.name)) := by
  obtain ⟨declared, hdeclared, hnodup, hmem⟩ := h.exists_declaredNames
  have hdecl : ∀ c ∈ t.root.children, t.root.declAt [c.name] = c.decl := fun c hc => by
    simp [ClassNode.declAt_cons, h.distinct.child?_eq hc]
  refine ⟨declared ++ (t.root.children.filter (·.decl.isNone)).map (·.name), ?_, ?_⟩
  · rw [topLevelPaths, hdeclared, List.map_append, List.map_map]
    rfl
  · refine (List.perm_ext_iff_of_nodup ?_ h.distinct.names).2 fun name => ?_
    · refine List.nodup_append'.2 ⟨hnodup, ?_, fun name hname hscope => ?_⟩
      · exact h.distinct.names.sublist (List.filter_sublist.map _)
      · obtain ⟨c, hc, rfl⟩ := List.mem_map.1 hscope
        obtain ⟨d, hd⟩ := (hmem _).1 hname
        obtain ⟨hc, hnone⟩ := List.mem_filter.1 hc
        rw [← hdecl c hc, hd] at hnone
        cases hnone
    · rw [List.mem_append, hmem]
      constructor
      · rintro (⟨d, hd⟩ | hscope)
        · rw [ClassNode.declAt_cons] at hd
          obtain ⟨c, hc, _⟩ := Option.bind_eq_some_iff.1 hd
          exact List.mem_map.2 ⟨c, List.mem_of_find?_eq_some hc, by simpa using List.find?_some hc⟩
        · obtain ⟨c, hc, rfl⟩ := List.mem_map.1 hscope
          exact List.mem_map_of_mem (List.mem_filter.1 hc).1
      · intro hname
        obtain ⟨c, hc, rfl⟩ := List.mem_map.1 hname
        cases hd : c.decl with
        | some d => exact Or.inl ⟨d, (hdecl c hc).trans hd⟩
        | none => exact Or.inr (List.mem_map_of_mem (List.mem_filter.2 ⟨hc, by simp [hd]⟩))

/-- **The top level is the classes below the root**, declared ones in front. -/
theorem Holds.topLevel_perm (h : t.Holds entries) : t.topLevel.Perm t.root.children := by
  obtain ⟨names, hpaths, hperm⟩ := h.exists_topLevelNames
  have hlookup : ∀ name, t.find? [name] = t.root.child? name := fun name => by simp [find?]
  rw [topLevel, hpaths, List.filterMap_map]
  simpa [Function.comp_def, hlookup, h.distinct.filterMap_child?] using hperm.filterMap t.root.child?

theorem Holds.events_eq (h : t.Holds entries) : t.events = t.topLevel.flatMap (·.events 0) := by
  obtain ⟨names, hpaths, hperm⟩ := h.exists_topLevelNames
  rw [events, topLevel, hpaths]
  clear hpaths hperm
  induction names with
  | nil => rfl
  | cons name names ih =>
    rw [List.map_cons, List.flatMap_cons, ih, List.filterMap_cons]
    cases t.find? [name] <;> rfl

/-- **Every class is opened and closed at its depth**, and no other is. -/
theorem Holds.mem_events_iff (h : t.Holds entries) {e : ClassEvent α} :
    e ∈ t.events ↔ ∃ path n, path ≠ [] ∧ t.find? path = some n ∧
      (e = .header n (depthOf path) ∨ e = .body n (depthOf path)) := by
  rw [h.events_eq, List.mem_flatMap]
  constructor
  · rintro ⟨c, hc, he⟩
    have hc := h.topLevel_perm.mem_iff.1 hc
    obtain ⟨path, n, hfind, he⟩ := (h.distinct.inner hc).mem_events_iff.1 he
    refine ⟨c.name :: path, n, by simp, h.distinct.find?_of_mem hc hfind, ?_⟩
    simpa [depthOf] using he
  · rintro ⟨path, n, hpath, hfind, he⟩
    cases path with
    | nil => exact absurd rfl hpath
    | cons name path =>
      obtain ⟨c, hc, rfl, hbelow⟩ := ClassNode.exists_inner_of_find? hfind
      have hevents : e ∈ c.events 0 ↔ _ := (h.distinct.inner hc).mem_events_iff
      refine ⟨c, h.topLevel_perm.mem_iff.2 hc, hevents.2 ⟨path, n, hbelow, ?_⟩⟩
      simpa [depthOf] using he

/-- A class of some name is opened at a depth if the tree holds a path through it. -/
theorem Holds.exists_header_iff (h : t.Holds entries) {name : String} {depth : Nat} :
    (∃ n, .header n depth ∈ t.events ∧ n.name = name) ↔
      ∃ outer, outer.length = depth ∧ ∃ e ∈ entries, outer ++ [name] <+: e.1 := by
  constructor
  · rintro ⟨n, hn, rfl⟩
    obtain ⟨path, n', hpath, hfind, he⟩ := h.mem_events_iff.1 hn
    obtain ⟨rfl, rfl⟩ : n = n' ∧ depth = depthOf path := by simpa using he
    obtain ⟨outer, name, rfl⟩ := (List.eq_nil_or_concat path).resolve_left hpath
    rw [List.concat_eq_append] at hfind hpath ⊢
    refine ⟨outer, by simp [depthOf], ?_⟩
    rw [ClassNode.name_of_find? hfind, ← h.find?_iff _ hpath, hfind]
    rfl
  · rintro ⟨outer, rfl, hentry⟩
    have hpath : outer ++ [name] ≠ [] := by simp
    obtain ⟨n, hfind⟩ := Option.isSome_iff_exists.1 ((h.find?_iff _ hpath).2 hentry)
    refine ⟨n, h.mem_events_iff.2 ⟨_, n, hpath, hfind, Or.inl ?_⟩, ClassNode.name_of_find? hfind⟩
    simp [depthOf]

/-- A class with some declaration is closed at the depth of the path that holds it. -/
theorem Holds.exists_body_at_iff (h : t.Holds entries) {d : α} {depth : Nat} :
    (∃ n, .body n depth ∈ t.events ∧ n.decl = some d) ↔
      ∃ path, path ≠ [] ∧ (path, d) ∈ entries ∧ depthOf path = depth := by
  constructor
  · rintro ⟨n, hn, hd⟩
    obtain ⟨path, n', hpath, hfind, he⟩ := h.mem_events_iff.1 hn
    obtain ⟨rfl, rfl⟩ : n = n' ∧ depth = depthOf path := by simpa using he
    exact ⟨path, hpath, (h.declAt_iff path d).1 (Option.bind_eq_some_iff.2 ⟨n, hfind, hd⟩), rfl⟩
  · rintro ⟨path, hpath, hd, rfl⟩
    obtain ⟨n, hfind, hd⟩ := Option.bind_eq_some_iff.1 ((h.declAt_iff path d).2 hd)
    exact ⟨n, h.mem_events_iff.2 ⟨path, n, hpath, hfind, Or.inr rfl⟩, hd⟩

/-- The declarations of the classes that are closed are those of the tree. -/
theorem Holds.exists_body_iff (h : t.Holds entries) {d : α} :
    (∃ n depth, .body n depth ∈ t.events ∧ n.decl = some d) ↔
      ∃ path, path ≠ [] ∧ (path, d) ∈ entries := by
  rw [exists_comm]
  simp only [h.exists_body_at_iff]
  constructor
  · rintro ⟨_, path, hpath, hd, rfl⟩
    exact ⟨path, hpath, hd⟩
  · rintro ⟨path, hpath, hd⟩
    exact ⟨_, path, hpath, hd, rfl⟩

end ClassTree
end ProtoModels
