import ProtoModels.Proofs.ClassTree.Descendants
import ProtoModels.Proofs.ClassTree.Events
import ProtoModels.Proofs.ModuleText.ClassLines
import ProtoModels.Schema.Basic
/-!
# Outlines

The outline of a class tree shows of every class its line and the classes in it. `readOutline` reads an
outline off a source text, by the indentation of its class lines alone, and the lines of the classes that
are opened while a tree is written give the outline of the tree back (`ClassTree.Holds.nest_classLines`).
-/
namespace ProtoModels

/-- The line of a class and the outlines of its inner classes. -/
structure ClassOutline where
  line : ClassLine
  inner : List ClassOutline := []

namespace ClassOutline

/-- Lines nested by their indentation: a class holds the classes behind it up to the next one that
stands no deeper than it. -/
def nest : List ClassLine → List ClassOutline
  | [] => []
  | l :: ls =>
    let later := nest ls
    ⟨l, later.takeWhile (l.indent < ·.line.indent)⟩ :: later.dropWhile (l.indent < ·.line.indent)

mutual
/-- All classes of an outline with their paths: the names of the classes around them and their own. -/
def classes : ClassOutline → List (List String × ClassKind)
  | ⟨line, inner⟩ =>
    ([line.name], line.kind) :: (classesOfList inner).map fun c => (line.name :: c.1, c.2)

def classesOfList : List ClassOutline → List (List String × ClassKind)
  | [] => []
  | o :: os => o.classes ++ classesOfList os
end

/-- A class that has something in front of the next one that stands no deeper. -/
theorem nest_cons {l : ClassLine} {ls : List ClassLine} {inner later : List ClassOutline}
    (h : nest ls = inner ++ later) (hinner : ∀ o ∈ inner, l.indent < o.line.indent)
    (hlater : ∀ o ∈ later.head?, o.line.indent ≤ l.indent) : nest (l :: ls) = ⟨l, inner⟩ :: later := by
  have hbehind : later.takeWhile (l.indent < ·.line.indent) = [] ∧
      later.dropWhile (l.indent < ·.line.indent) = later := by
    cases later with
    | nil => simp
    | cons o later =>
      have ho : ¬ l.indent < o.line.indent := Nat.not_lt.2 (hlater o rfl)
      simp [ho]
  have hdeeper : ∀ o ∈ inner, decide (l.indent < o.line.indent) = true := fun o ho => by
    simpa using hinner o ho
  simp only [nest, h]
  rw [List.takeWhile_append_of_pos hdeeper, List.dropWhile_append_of_pos hdeeper, hbehind.1, hbehind.2,
    List.append_nil]

end ClassOutline

/-- The outline that a source text shows. -/
def readOutline (source : String) : List ClassOutline := ClassOutline.nest (classLines source)

/-! ## Outlines of class trees -/

/-- What a class with a declaration, or without one, stands for. -/
def ClassKind.of : Option TypeDecl → ClassKind
  | some (.message _) => message
  | some (.enum _) => enum
  | none => scope

/-- The line that opens a class. -/
def ClassNode.classLine (n : ClassNode TypeDecl) (depth : Nat) : ClassLine :=
  ⟨4 * depth, n.name, .of n.decl⟩

/-- The class line of an event, if it opens a class. -/
def ClassEvent.classLine? : ClassEvent TypeDecl → Option ClassLine
  | .header n depth => some (n.classLine depth)
  | .body _ _ => none

namespace ClassNode

mutual
/-- The outline of a class that lies `depth` classes deep. -/
def outline (depth : Nat) : ClassNode TypeDecl → ClassOutline
  | ⟨name, decl, children⟩ =>
    ⟨classLine ⟨name, decl, children⟩ depth, outlineOfList (depth + 1) children⟩

def outlineOfList (depth : Nat) : List (ClassNode TypeDecl) → List ClassOutline
  | [] => []
  | c :: cs => c.outline depth :: outlineOfList depth cs
end

theorem outlineOfList_eq (depth : Nat) (cs : List (ClassNode TypeDecl)) :
    outlineOfList depth cs = cs.map (outline depth) := by
  induction cs with
  | nil => rfl
  | cons c cs ih => rw [outlineOfList, ih, List.map_cons]

theorem outline_eq (depth : Nat) (n : ClassNode TypeDecl) :
    n.outline depth = ⟨n.classLine depth, n.children.map (outline (depth + 1))⟩ := by
  cases n
  rw [outline, outlineOfList_eq]

theorem line_outline (depth : Nat) (n : ClassNode TypeDecl) :
    (n.outline depth).line = n.classLine depth := by
  rw [outline_eq]

mutual
/-- **The lines of a class give its outline back**, whatever stands no deeper behind them. -/
theorem nest_events (depth : Nat) (rest : List ClassLine)
    (hrest : ∀ o ∈ (ClassOutline.nest rest).head?, o.line.indent ≤ 4 * depth) :
    ∀ n : ClassNode TypeDecl, ClassOutline.nest ((n.events depth).filterMap (·.classLine?) ++ rest) =
      n.outline depth :: ClassOutline.nest rest
  | ⟨name, decl, children⟩ => by
    have hinner := nest_eventsOfList (depth + 1) rest
      (fun o ho => Nat.le_trans (hrest o ho) (by omega)) children
    have hlines : ((ClassNode.mk name decl children).events depth).filterMap (·.classLine?) =
        classLine ⟨name, decl, children⟩ depth ::
          (eventsOfList (depth + 1) children).filterMap (·.classLine?) := by
      simp [events, ClassEvent.classLine?]
    rw [hlines, List.cons_append, outline]
    refine ClassOutline.nest_cons hinner (fun o ho => ?_) hrest
    rw [outlineOfList_eq] at ho
    obtain ⟨c, _, rfl⟩ := List.mem_map.1 ho
    rw [line_outline]
    simp only [classLine]
    omega

theorem nest_eventsOfList (depth : Nat) (rest : List ClassLine)
    (hrest : ∀ o ∈ (ClassOutline.nest rest).head?, o.line.indent ≤ 4 * depth) :
    ∀ cs : List (ClassNode TypeDecl),
      ClassOutline.nest ((eventsOfList depth cs).filterMap (·.classLine?) ++ rest) =
        outlineOfList depth cs ++ ClassOutline.nest rest
  | [] => rfl
  | c :: cs => by
    have hlater := nest_eventsOfList depth rest hrest cs
    rw [eventsOfList, List.filterMap_append, List.append_assoc, nest_events depth _ ?_ c, hlater]
    · rfl
    · rw [hlater]
      cases cs with
      | nil => exact hrest
      | cons c' cs =>
        intro o ho
        obtain rfl : c'.outline depth = o := by simpa [outlineOfList] using ho
        rw [line_outline]
        exact Nat.le_refl _
end

/-! ## Paths in an outline -/

mutual
/-- An outline shows a class and all classes below it, at their paths. -/
theorem classes_outline (depth : Nat) : ∀ n : ClassNode TypeDecl, (n.outline depth).classes =
    ([n.name], ClassKind.of n.decl) ::
      n.descendants.map fun e => (n.name :: e.1, ClassKind.of e.2.decl)
  | ⟨name, decl, children⟩ => by
    rw [outline, ClassOutline.classes, classesOfList_outline, List.map_map]
    rfl

theorem classesOfList_outline (depth : Nat) : ∀ cs : List (ClassNode TypeDecl),
    ClassOutline.classesOfList (outlineOfList depth cs) =
      (descendantsOfList cs).map fun e => (e.1, ClassKind.of e.2.decl)
  | [] => rfl
  | c :: cs => by
    rw [outlineOfList, ClassOutline.classesOfList, classes_outline, classesOfList_outline,
      descendantsOfList, List.map_append, List.map_cons, List.map_map]
    rfl
end

end ClassNode

/-! ## The outline of a tree -/

namespace ClassTree

variable {t : ClassTree TypeDecl} {entries : List (List String × TypeDecl)}

/-- The outlines of the classes at the top level. -/
def outline (t : ClassTree TypeDecl) : List ClassOutline := t.topLevel.map (ClassNode.outline 0)

/-- **The lines that open the classes of a tree give its outline back.** -/
theorem Holds.nest_classLines (h : t.Holds entries) :
    ClassOutline.nest (t.events.filterMap (·.classLine?)) = t.outline := by
  have hlines := ClassNode.nest_eventsOfList 0 [] (by simp [ClassOutline.nest]) t.topLevel
  rw [List.append_nil, ClassNode.outlineOfList_eq, ClassNode.eventsOfList_eq, ← h.events_eq] at hlines
  rw [hlines, outline, ClassOutline.nest, List.append_nil]

/-- **The outline shows the classes of a tree**, at their paths. -/
theorem Holds.classes_perm (h : t.Holds entries) : (ClassOutline.classesOfList t.outline).Perm
    (t.root.descendants.map fun e => (e.1, ClassKind.of e.2.decl)) := by
  rw [outline, ← ClassNode.outlineOfList_eq, ClassNode.classesOfList_outline,
    ClassNode.descendantsOfList_eq, ClassNode.descendants_eq]
  exact (h.topLevel_perm.flatMap_right _).map _

/-- No two classes of a tree have one path. -/
theorem Holds.paths_nodup (h : t.Holds entries) :
    ((ClassOutline.classesOfList t.outline).map (·.1)).Nodup := by
  rw [(h.classes_perm.map _).nodup_iff, List.map_map]
  exact h.distinct.descendants_nodup

/-- Every declaration of a tree has its class in the outline, at its path. -/
theorem Holds.mem_classes (h : t.Holds entries) {path : List String} (hpath : path ≠ []) {d : TypeDecl}
    (hd : (path, d) ∈ entries) :
    (path, ClassKind.of (some d)) ∈ ClassOutline.classesOfList t.outline := by
  obtain ⟨n, hfind, hdecl⟩ := Option.bind_eq_some_iff.1 ((h.declAt_iff path d).2 hd)
  rw [h.classes_perm.mem_iff, ← hdecl]
  exact List.mem_map_of_mem (h.distinct.mem_descendants_iff.2 ⟨hpath, hfind⟩)

end ClassTree
end ProtoModels
