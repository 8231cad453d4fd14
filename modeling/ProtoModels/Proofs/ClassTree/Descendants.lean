import Mathlib.Data.List.Nodup
import ProtoModels.Proofs.ClassTree.Lookup
/-!
# The classes below a class

All classes below a class, listed with the paths that lead to them. Where siblings differ by name the
list holds what can be found below the class, each path once (`Distinct.mem_descendants_iff`,
`Distinct.descendants_nodup`), and `ClassNode.size` counts it (`size_eq`).
-/
namespace ProtoModels
namespace ClassNode

variable {α : Type}

mutual
/-- All classes below a class with their paths: each inner class, and then what is below it. -/
def descendants : ClassNode α → List (List String × ClassNode α)
  | ⟨_, _, children⟩ => descendantsOfList children

def descendantsOfList : List (ClassNode α) → List (List String × ClassNode α)
  | [] => []
  | c :: cs => ([c.name], c) :: (c.descendants.map fun e => (c.name :: e.1, e.2)) ++ descendantsOfList cs
end

theorem descendantsOfList_eq (cs : List (ClassNode α)) :
    descendantsOfList cs =
      cs.flatMap fun c => ([c.name], c) :: c.descendants.map fun e => (c.name :: e.1, e.2) := by
  induction cs with
  | nil => rfl
  | cons c cs ih => rw [descendantsOfList, ih, List.flatMap_cons]

theorem descendants_eq (n : ClassNode α) : n.descendants =
    n.children.flatMap fun c => ([c.name], c) :: c.descendants.map fun e => (c.name :: e.1, e.2) := by
  cases n
  rw [descendants, descendantsOfList_eq]

mutual
/-- **The size counts the classes below a class.** -/
theorem size_eq : ∀ n : ClassNode α, n.size = n.descendants.length
  | ⟨_, _, children⟩ => by rw [size, descendants, sizeOfList_eq]

theorem sizeOfList_eq : ∀ cs : List (ClassNode α), sizeOfList cs = (descendantsOfList cs).length
  | [] => rfl
  | c :: cs => by
    rw [sizeOfList, descendantsOfList, sizeOfList_eq cs, size_eq c, List.length_append, List.length_cons,
      List.length_map, Nat.add_comm 1]
end

/-- The paths of a class and of what is below it start with its name. -/
theorem head?_of_mem_cons_descendants {c : ClassNode α} {e : List String × ClassNode α}
    (h : e ∈ ([c.name], c) :: c.descendants.map fun e => (c.name :: e.1, e.2)) :
    e.1.head? = some c.name := by
  rcases List.mem_cons.1 h with rfl | h
  · rfl
  · obtain ⟨_, _, rfl⟩ := List.mem_map.1 h
    rfl

/-- **What is below a class** is what can be found there. -/
theorem Distinct.mem_descendants_iff {n : ClassNode α} (h : n.Distinct) {path : List String}
    {n' : ClassNode α} : (path, n') ∈ n.descendants ↔ path ≠ [] ∧ n.find? path = some n' := by
  induction h generalizing path n' with
  | @node n names inner ih =>
    have hn : n.Distinct := .node names inner
    rw [descendants_eq, List.mem_flatMap]
    constructor
    · rintro ⟨c, hc, he⟩
      rcases List.mem_cons.1 he with he | he
      · cases he
        exact ⟨by simp, hn.find?_of_mem hc rfl⟩
      · obtain ⟨⟨path', _⟩, he', heq⟩ := List.mem_map.1 he
        cases heq
        exact ⟨by simp, hn.find?_of_mem hc ((ih c hc).1 he').2⟩
    · rintro ⟨hpath, hfind⟩
      cases path with
      | nil => exact absurd rfl hpath
      | cons name path =>
        obtain ⟨c, hc, rfl, hbelow⟩ := exists_inner_of_find? hfind
        refine ⟨c, hc, ?_⟩
        cases path with
        | nil =>
          obtain rfl : c = n' := by simpa using hbelow
          exact List.mem_cons_self ..
        | cons name' path =>
          refine List.mem_cons_of_mem _ (List.mem_map.2 ⟨(name' :: path, n'), ?_, rfl⟩)
          exact (ih c hc).2 ⟨by simp, hbelow⟩

/-- **No two classes below a class have one path.** -/
theorem Distinct.descendants_nodup {n : ClassNode α} (h : n.Distinct) :
    (n.descendants.map (·.1)).Nodup := by
  induction h with
  | @node n names inner ih =>
    rw [descendants_eq, List.map_flatMap]
    refine List.nodup_flatMap.2 ⟨fun c hc => ?_, (List.pairwise_map.1 names).imp fun {a b} hne => ?_⟩
    · rw [List.map_cons, List.map_map, List.nodup_cons]
      refine ⟨fun hmem => ?_, ?_⟩
      · obtain ⟨e, he, heq⟩ := List.mem_map.1 hmem
        exact ((inner c hc).mem_descendants_iff.1 he).1 (List.cons.inj heq).2
      · have hcons := (ih c hc).map (f := fun path => c.name :: path) fun _ _ h => (List.cons.inj h).2
        rwa [List.map_map] at hcons
    · -- the paths through two siblings differ in their first names
      intro path ha hb
      obtain ⟨e, he, rfl⟩ := List.mem_map.1 ha
      obtain ⟨e', he', heq⟩ := List.mem_map.1 hb
      have hname := head?_of_mem_cons_descendants he
      rw [← heq, head?_of_mem_cons_descendants he', Option.some_inj] at hname
      exact hne hname.symm

end ClassNode
end ProtoModels
