import Mathlib.Data.Finset.Card
import Mathlib.Data.List.Forall2
import ProtoModels.PackageModule
import ProtoModels.Proofs.ClassTree.Descendants
import ProtoModels.Proofs.ClassTree.Events
/-!
# Class trees are tries

Types are put at paths one after another, in any order. A type is refused where another one has been
accepted before, and only there; what is refused leaves no trace, although the classes on its path are
made before the class at the end is looked at (`ClassTree.insertInPlace_eq`). What has been accepted
determines the tree: it is the trie of the accepted entries (`ClassTree.IsTrie`), and only the order of
siblings and of the top level depends on the order in which they came (`ClassTree.Rearranged`).

The invariant that carries all of this is `ClassTree.Holds`; a sequence of insertions keeps it
(`Filling.holds_ofCalls`).
-/
namespace ProtoModels

/-! ## Classes on the way to a path -/

namespace ClassNode

variable {α : Type}

/-- Changes the class with a name; a class that is missing is added at the end. -/
def adjust (name : String) (f : ClassNode α → ClassNode α) : List (ClassNode α) → List (ClassNode α)
  | [] => [f { name }]
  | c :: cs => if c.name = name then f c :: cs else c :: adjust name f cs

/-- Makes the classes on a path below a class, as far as they are missing. -/
def grow : List String → ClassNode α → ClassNode α
  | [], n => n
  | name :: path, n => { n with children := adjust name (grow path) n.children }

@[simp] theorem grow_nil (n : ClassNode α) : n.grow [] = n := by cases n; rfl

@[simp] theorem grow_cons (name : String) (path : List String) (n : ClassNode α) :
    n.grow (name :: path) = { n with children := adjust name (grow path) n.children } := by cases n; rfl

@[simp] theorem name_grow (path : List String) (n : ClassNode α) : (n.grow path).name = n.name := by
  cases path <;> simp

theorem child?_adjust (n : ClassNode α) (name : String) (path : List String) :
    ({ n with children := adjust name (grow path) n.children } : ClassNode α).child? name =
      some (((n.child? name).getD { name }).grow path) := by
  obtain ⟨_, _, cs⟩ := n
  simp only [child?]
  induction cs with
  | nil => simp [adjust]
  | cons c cs ih =>
    by_cases hc : c.name = name
    · simp [adjust, hc]
    · simp [adjust, hc, ih]

theorem adjust_eq_self {name : String} {f : ClassNode α → ClassNode α} {cs : List (ClassNode α)}
    {c : ClassNode α} (h : cs.find? (·.name == name) = some c) (hf : f c = c) :
    adjust name f cs = cs := by
  induction cs with
  | nil => cases h
  | cons c' cs ih =>
    by_cases hc' : c'.name = name
    · obtain rfl : c' = c := by simpa [hc'] using h
      rw [adjust, if_pos hc', hf]
    · rw [adjust, if_neg hc', ih (by simpa [hc'] using h)]

/-- Nothing is made where all classes on the path are there. -/
theorem grow_eq_self {path : List String} {n : ClassNode α} (h : (n.find? path).isSome) :
    n.grow path = n := by
  induction path generalizing n with
  | nil => exact grow_nil n
  | cons name path ih =>
    rw [find?_cons] at h
    obtain ⟨n', hfind⟩ := Option.isSome_iff_exists.1 h
    obtain ⟨c, hchild, hfind⟩ := Option.bind_eq_some_iff.1 hfind
    have hc : c.grow path = c := ih (Option.isSome_iff_exists.2 ⟨n', hfind⟩)
    rw [grow_cons, adjust_eq_self hchild hc]
    cases n
    rfl

/-- What stands at the end of a path does not change when the classes on it are made. -/
theorem declAt_grow (path : List String) (n : ClassNode α) :
    (n.grow path).declAt path = n.declAt path := by
  induction path generalizing n with
  | nil => rw [grow_nil]
  | cons name path ih =>
    rw [grow_cons, declAt_cons, child?_adjust, Option.bind_some, ih, declAt_cons]
    cases n.child? name with
    | some c => rfl
    | none => cases path <;> simp [declAt_cons, child?]

theorem upsert_adjust {ε : Type} (name : String) (f : ClassNode α → Except ε (ClassNode α))
    (path : List String) (cs : List (ClassNode α)) :
    upsert name f (adjust name (grow path) cs) = upsert name (fun c => f (c.grow path)) cs := by
  induction cs with
  | nil => simp [adjust, upsert, Except.map]
  | cons c cs ih =>
    by_cases hc : c.name = name
    · simp [adjust, upsert, hc]
    · simp [adjust, upsert, hc, ih]

/-- **An insertion makes the classes on its path itself**: making them before changes nothing. -/
theorem insert_grow [DecidableEq α] (decl : α) (path : List String) (n : ClassNode α) :
    (n.grow path).insert decl path = n.insert decl path := by
  induction path generalizing n with
  | nil => rw [grow_nil]
  | cons name path ih =>
    have hinner : (fun c : ClassNode α => (c.grow path).insert decl path) = insert decl path :=
      funext ih
    cases n
    rw [grow_cons, insert, upsert_adjust, hinner, insert]

end ClassNode

/-! ## Insertions that change a tree in place -/

namespace ClassTree

/-- Makes the classes on a path, as far as they are missing (`push_child`). -/
def grow {α : Type} (t : ClassTree α) (path : List String) : ClassTree α :=
  { t with root := t.root.grow path }

/-- An insertion as it changes a tree in place, and why it was refused (`insert`): the classes on the
path are made before the class at its end is looked at, and nothing takes them away again. -/
def insertInPlace (t : ClassTree TypeDecl) (path : ClassPath) (d : TypeDecl) :
    ClassTree TypeDecl × Option CompileError :=
  let grown := t.grow path.segments
  match grown.insertType path d with
  | .ok t' => (t', none)
  | .error e => (grown, some e)

variable {t : ClassTree TypeDecl} {entries : List (List String × TypeDecl)} {path : ClassPath}
  {d : TypeDecl} {e : CompileError}

theorem insert_grow {α : Type} [DecidableEq α] (t : ClassTree α) (path : List String) (decl : α) :
    (t.grow path).insert path decl = t.insert path decl := by
  have hdecl : ((t.root.grow path).find? path).bind (·.decl) = (t.root.find? path).bind (·.decl) :=
    t.root.declAt_grow path
  rw [insert, insert, grow]
  simp only [ClassNode.insert_grow, find?, hdecl]
  rfl

theorem insertType_eq_error_iff : t.insertType path d = .error e ↔
    ∃ there, t.root.declAt path.segments = some there ∧ there ≠ d ∧
      e = .nameCollision path.flat there.fullName d.fullName := by
  have herror : ∀ there, t.insert path.segments d = .error there ↔
      t.root.declAt path.segments = some there ∧ there ≠ d := fun there => by
    rw [← ClassNode.insert_eq_error_iff, insert]
    cases t.root.insert d path.segments <;> simp [Except.map]
  unfold insertType
  cases h : t.insert path.segments d with
  | error there =>
    obtain ⟨hdecl, hne⟩ := (herror there).1 h
    simp [hdecl, hne, eq_comm (a := e)]
  | ok t' =>
    simp only [reduceCtorEq, false_iff, not_exists]
    rintro there ⟨hdecl, hne, _⟩
    rw [(herror there).2 ⟨hdecl, hne⟩] at h
    cases h

theorem insertType_eq_ok_iff {t' : ClassTree TypeDecl} :
    t.insertType path d = .ok t' ↔ t.insert path.segments d = .ok t' := by
  unfold insertType
  cases t.insert path.segments d <;> simp

/-- **What is refused leaves no trace.** -/
theorem insertInPlace_eq (t : ClassTree TypeDecl) (path : ClassPath) (d : TypeDecl) :
    t.insertInPlace path d = match t.insertType path d with
      | .ok t' => (t', none)
      | .error e => (t, some e) := by
  have hgrown : (t.grow path.segments).insertType path d = t.insertType path d := by
    rw [insertType, insert_grow]
    rfl
  rw [insertInPlace]
  simp only [hgrown]
  cases h : t.insertType path d with
  | ok t' => rfl
  | error e =>
    obtain ⟨there, hdecl, _⟩ := insertType_eq_error_iff.1 h
    obtain ⟨n, hfind, _⟩ := Option.bind_eq_some_iff.1 hdecl
    have hroot : t.root.grow path.segments = t.root :=
      ClassNode.grow_eq_self (Option.isSome_iff_exists.2 ⟨n, hfind⟩)
    simp only [grow, hroot]

end ClassTree

/-! ## Sequences of insertions -/

/-- A tree, and the entries that were accepted while it grew, in their order. -/
structure Filling where
  tree : ClassTree TypeDecl := .empty
  accepted : List (List String × TypeDecl) := []

namespace Filling

/-- One more insertion, which may be refused. -/
def put (g : Filling) (call : ClassPath × TypeDecl) : Filling :=
  match g.tree.insertInPlace call.1 call.2 with
  | (tree, none) => ⟨tree, g.accepted ++ [(call.1.segments, call.2)]⟩
  | (tree, some _) => ⟨tree, g.accepted⟩

/-- What some insertions into a new tree lead to. -/
def ofCalls (calls : List (ClassPath × TypeDecl)) : Filling := calls.foldl put {}

variable {g : Filling} {path : ClassPath} {d : TypeDecl}

theorem put_eq (g : Filling) (path : ClassPath) (d : TypeDecl) : g.put (path, d) =
    match g.tree.insertType path d with
    | .ok tree => ⟨tree, g.accepted ++ [(path.segments, d)]⟩
    | .error _ => g := by
  rw [put, ClassTree.insertInPlace_eq]
  cases g.tree.insertType path d <;> rfl

/-- **When a type is refused**: another one has been accepted at the path. -/
theorem insertType_eq_error_iff (h : g.tree.Holds g.accepted) {e : CompileError} :
    g.tree.insertType path d = .error e ↔ ∃ there, (path.segments, there) ∈ g.accepted ∧ there ≠ d ∧
      e = .nameCollision path.flat there.fullName d.fullName := by
  simp only [ClassTree.insertType_eq_error_iff, h.declAt_iff]

theorem exists_insertType_iff (h : g.tree.Holds g.accepted) :
    (∃ t, g.tree.insertType path d = .ok t) ↔
      ∀ there, (path.segments, there) ∈ g.accepted → there = d := by
  cases hinsert : g.tree.insertType path d with
  | ok t =>
    simp only [Except.ok.injEq, exists_eq', true_iff]
    intro there hthere
    by_contra hne
    rw [(insertType_eq_error_iff h).2 ⟨there, hthere, hne, rfl⟩] at hinsert
    cases hinsert
  | error e =>
    obtain ⟨there, hthere, hne, _⟩ := (insertType_eq_error_iff h).1 hinsert
    simp only [reduceCtorEq, exists_false, false_iff]
    exact fun hfree => hne (hfree there hthere)

/-- One insertion keeps the invariant. -/
theorem holds_put (h : g.tree.Holds g.accepted) (hpath : path.segments ≠ []) :
    (g.put (path, d)).tree.Holds (g.put (path, d)).accepted := by
  rw [put_eq]
  cases hinsert : g.tree.insertType path d with
  | error e => exact h
  | ok t => exact h.insert hpath (ClassTree.insertType_eq_ok_iff.1 hinsert)

theorem ofCalls_concat (calls : List (ClassPath × TypeDecl)) (call : ClassPath × TypeDecl) :
    ofCalls (calls ++ [call]) = (ofCalls calls).put call := by
  rw [ofCalls, List.foldl_append]
  rfl

/-- **Whatever is put at non-empty paths**, the tree holds what was accepted. -/
theorem holds_ofCalls {calls : List (ClassPath × TypeDecl)}
    (hcalls : ∀ call ∈ calls, call.1.segments ≠ []) :
    (ofCalls calls).tree.Holds (ofCalls calls).accepted := by
  induction calls using List.reverseRecOn with
  | nil => exact ClassTree.holds_empty
  | append_singleton calls call ih =>
    rw [ofCalls_concat]
    exact holds_put (ih fun call hcall => hcalls call (List.mem_append_left _ hcall))
      (hcalls call (by simp))

/-- The entries that some insertions ask for. -/
def entriesOf (calls : List (ClassPath × TypeDecl)) : List (List String × TypeDecl) :=
  calls.map fun call => (call.1.segments, call.2)

/-- Everything is accepted where no two types are put at one path. -/
theorem accepted_ofCalls {calls : List (ClassPath × TypeDecl)}
    (hcalls : ∀ call ∈ calls, call.1.segments ≠ [])
    (hagree : ∀ a ∈ entriesOf calls, ∀ b ∈ entriesOf calls, a.1 = b.1 → a.2 = b.2) :
    (ofCalls calls).accepted = entriesOf calls := by
  induction calls using List.reverseRecOn with
  | nil => rfl
  | append_singleton calls call ih =>
    obtain ⟨path, d⟩ := call
    have hbefore : ∀ call ∈ calls, call.1.segments ≠ [] := fun call hcall =>
      hcalls call (List.mem_append_left _ hcall)
    rw [entriesOf, List.map_append, List.forall_mem_append] at hagree
    have haccepted : (ofCalls calls).accepted = entriesOf calls :=
      ih hbefore fun a ha b hb => hagree.1 a ha b (List.mem_append_left _ hb)
    have hfree : ∀ there, (path.segments, there) ∈ (ofCalls calls).accepted → there = d := by
      intro there hthere
      rw [haccepted] at hthere
      exact hagree.1 _ hthere (path.segments, d) (by simp) rfl
    obtain ⟨t, ht⟩ := (exists_insertType_iff (holds_ofCalls hbefore)).2 hfree
    rw [ofCalls_concat, put_eq, ht]
    simp [haccepted, entriesOf]

end Filling

/-! ## Tries -/

namespace ClassTree

variable {α : Type}

/-- The paths on the way to some entries, their own paths included. -/
def pathsTo (entries : List (List String × α)) : List (List String) :=
  entries.flatMap fun e => e.1.inits.filter (· ≠ [])

theorem mem_pathsTo {entries : List (List String × α)} {path : List String} :
    path ∈ pathsTo entries ↔ path ≠ [] ∧ ∃ e ∈ entries, path <+: e.1 := by
  simp only [pathsTo, List.mem_flatMap, List.mem_filter, List.mem_inits, decide_eq_true_eq]
  constructor
  · rintro ⟨e, he, hprefix, hpath⟩
    exact ⟨hpath, e, he, hprefix⟩
  · rintro ⟨hpath, e, he, hprefix⟩
    exact ⟨e, he, hprefix, hpath⟩

/-- The inner classes of some classes, with their paths. -/
def innerClasses (classes : List (List String × ClassNode α)) : List (List String × ClassNode α) :=
  classes.flatMap fun e => e.2.children.map fun c => (e.1 ++ [c.name], c)

/-- The tree is the trie of some entries. -/
structure IsTrie (t : ClassTree α) (entries : List (List String × α)) : Prop where
  /-- The classes are those on the way to an entry. -/
  found : ∀ path, path ≠ [] → ((t.find? path).isSome ↔ ∃ e ∈ entries, path <+: e.1)
  /-- A class has the last name of its path. -/
  name : ∀ path name n, t.find? (path ++ [name]) = some n → n.name = name
  /-- A class carries the declaration of the entry at its path, and none if there is no entry. -/
  decl : ∀ path n, path ≠ [] → t.find? path = some n → ∀ d, n.decl = some d ↔ (path, d) ∈ entries
  /-- A class is written as deep as its path is long, and nothing else is written. -/
  depth : ∀ event, event ∈ t.events ↔ ∃ path n, path ≠ [] ∧ t.find? path = some n ∧
    (event = .header n (path.length - 1) ∨ event = .body n (path.length - 1))
  /-- All classes below the root are found by their paths, each by one. -/
  paths : (t.root.descendants.map (·.1)).Nodup ∧
    ∀ path n, (path, n) ∈ t.root.descendants ↔ path ≠ [] ∧ t.find? path = some n
  size : t.size = (pathsTo entries).toFinset.card
  /-- A class is an inner class of the class around it, which may be the root, and of no other. -/
  outer : ∀ path n, path ≠ [] → t.find? path = some n →
    ∃! outer, ∃ o, t.find? outer = some o ∧ n ∈ o.children ∧ outer ++ [n.name] = path
  /-- Taken together, the inner classes of the root and of all classes are all classes, each once. -/
  inner : (innerClasses (([], t.root) :: t.root.descendants)).Perm t.root.descendants
  siblings : ∀ path n, t.find? path = some n → (n.children.map (·.name)).Nodup

end ClassTree

namespace ClassTree

variable {α : Type} {t t' : ClassTree α} {entries entries' : List (List String × α)}

theorem Holds.size_eq (h : t.Holds entries) : t.size = (pathsTo entries).toFinset.card := by
  have hpaths : (t.root.descendants.map (·.1)).toFinset = (pathsTo entries).toFinset := by
    ext path
    rw [List.mem_toFinset, List.mem_toFinset, mem_pathsTo, List.mem_map]
    constructor
    · rintro ⟨⟨path, n⟩, hn, rfl⟩
      obtain ⟨hpath, hfind⟩ := h.distinct.mem_descendants_iff.1 hn
      exact ⟨hpath, (h.find?_iff path hpath).1 (Option.isSome_iff_exists.2 ⟨n, hfind⟩)⟩
    · rintro ⟨hpath, hentry⟩
      obtain ⟨n, hfind⟩ := Option.isSome_iff_exists.1 ((h.find?_iff path hpath).2 hentry)
      exact ⟨(path, n), h.distinct.mem_descendants_iff.2 ⟨hpath, hfind⟩, rfl⟩
  rw [size, ClassNode.size_eq, ← hpaths, List.toFinset_card_of_nodup h.distinct.descendants_nodup,
    List.length_map]

/-- The root and what is below it are what paths lead to. -/
theorem Holds.mem_classes_iff (h : t.Holds entries) {path : List String} {n : ClassNode α} :
    (path, n) ∈ ([], t.root) :: t.root.descendants ↔ t.find? path = some n := by
  rw [List.mem_cons, h.distinct.mem_descendants_iff, find?]
  by_cases hpath : path = []
  · simp [hpath, eq_comm]
  · simp [hpath]

theorem Holds.classPaths_nodup (h : t.Holds entries) :
    ((([], t.root) :: t.root.descendants).map (·.1)).Nodup := by
  rw [List.map_cons, List.nodup_cons]
  refine ⟨fun hmem => ?_, h.distinct.descendants_nodup⟩
  obtain ⟨⟨_, n⟩, hn, rfl⟩ := List.mem_map.1 hmem
  exact (h.distinct.mem_descendants_iff.1 hn).1 rfl

theorem Holds.innerClasses_perm (h : t.Holds entries) :
    (innerClasses (([], t.root) :: t.root.descendants)).Perm t.root.descendants := by
  refine (List.perm_ext_iff_of_nodup ?_ (h.distinct.descendants_nodup.of_map _)).2 ?_
  · refine List.nodup_flatMap.2 ⟨?_, (List.pairwise_map.1 h.classPaths_nodup).imp ?_⟩
    · rintro ⟨path, n⟩ hn
      have hnames := (h.distinct.find? (h.mem_classes_iff.1 hn)).names
      refine .of_map (fun e => e.2.name) ?_
      rwa [List.map_map]
    · rintro ⟨path, n⟩ ⟨path', n'⟩ hne e he he'
      obtain ⟨c, _, rfl⟩ := List.mem_map.1 he
      obtain ⟨c', _, heq⟩ := List.mem_map.1 he'
      exact hne (List.append_inj' (Prod.mk.inj heq).1 rfl).1.symm
  · rintro ⟨path, n⟩
    rw [h.distinct.mem_descendants_iff, innerClasses, List.mem_flatMap]
    constructor
    · rintro ⟨⟨outer, o⟩, ho, hn⟩
      obtain ⟨c, hc, heq⟩ := List.mem_map.1 hn
      cases heq
      exact ⟨by simp, h.distinct.find?_inner (h.mem_classes_iff.1 ho) hc⟩
    · rintro ⟨hpath, hfind⟩
      obtain ⟨outer, name, rfl⟩ := (List.eq_nil_or_concat' path).resolve_left hpath
      obtain ⟨o, ho, hn⟩ := ClassNode.exists_parent_of_find? hfind
      refine ⟨(outer, o), h.mem_classes_iff.2 ho, List.mem_map.2 ⟨n, hn, ?_⟩⟩
      rw [ClassNode.name_of_find? hfind]

/-- **A tree that has grown from some entries is their trie.** -/
theorem Holds.isTrie (h : t.Holds entries) : t.IsTrie entries where
  found := h.find?_iff
  name path name n hfind := ClassNode.name_of_find? hfind
  decl path n _ hfind d := by
    rw [← h.declAt_iff, ClassNode.declAt]
    change _ ↔ (t.find? path).bind _ = _
    rw [hfind, Option.bind_some]
  depth event := h.mem_events_iff
  paths := ⟨h.distinct.descendants_nodup, fun path n => h.distinct.mem_descendants_iff⟩
  size := h.size_eq
  outer path n hpath hfind := by
    obtain ⟨outer, name, rfl⟩ := (List.eq_nil_or_concat' path).resolve_left hpath
    obtain ⟨o, ho, hn⟩ := ClassNode.exists_parent_of_find? hfind
    have hname := ClassNode.name_of_find? hfind
    refine ⟨outer, ⟨o, ho, hn, by rw [hname]⟩, ?_⟩
    rintro outer' ⟨_, _, _, heq⟩
    exact (List.append_inj' heq rfl).1
  inner := h.innerClasses_perm
  siblings path n hfind := (h.distinct.find? hfind).names

end ClassTree

/-! ## Trees that differ in order -/

namespace ClassNode

variable {α : Type}

/-- Two classes that differ at most in the order of the inner classes, at any depth. -/
inductive Rearranged : ClassNode α → ClassNode α → Prop where
  | node {name : String} {decl : Option α} {cs cs' cs'' : List (ClassNode α)}
      (inner : List.Forall₂ Rearranged cs cs') (order : cs'.Perm cs'') :
      Rearranged ⟨name, decl, cs⟩ ⟨name, decl, cs''⟩

theorem mem_names_iff {n : ClassNode α} {name : String} :
    name ∈ n.children.map (·.name) ↔ (n.find? [name]).isSome := by
  simp [child?]

/-- Two lists of classes that are matched by name. -/
theorem forall₂_filterMap_child? {n' : ClassNode α} {cs : List (ClassNode α)}
    (h : ∀ c ∈ cs, ∃ c', n'.child? c.name = some c' ∧ Rearranged c c') :
    List.Forall₂ Rearranged cs ((cs.map (·.name)).filterMap n'.child?) := by
  induction cs with
  | nil => exact .nil
  | cons c cs ih =>
    rw [List.forall_mem_cons] at h
    obtain ⟨⟨c', hchild, hc⟩, hcs⟩ := h
    rw [List.map_cons, List.filterMap_cons, hchild]
    exact .cons hc (ih hcs)

/-- Classes with the same classes and declarations below them differ at most in order. -/
theorem Distinct.rearranged {n n' : ClassNode α} (h : n.Distinct) (h' : n'.Distinct)
    (hname : n.name = n'.name) (hdecl : ∀ path, n.declAt path = n'.declAt path)
    (hfind : ∀ path, (n.find? path).isSome ↔ (n'.find? path).isSome) : Rearranged n n' := by
  induction h generalizing n' with
  | @node n names inner ih =>
    have hn : n.Distinct := .node names inner
    have hpair : ∀ c ∈ n.children, ∃ c', n'.child? c.name = some c' ∧ Rearranged c c' := by
      intro c hc
      have hsome := (hfind [c.name]).1 (mem_names_iff.1 (List.mem_map_of_mem hc))
      obtain ⟨c', hchild⟩ : ∃ c', n'.child? c.name = some c' := by
        simpa [Option.isSome_iff_exists] using hsome
      have hname : c'.name = c.name := by simpa using List.find?_some hchild
      have hc' := h'.inner (List.mem_of_find?_eq_some hchild)
      refine ⟨c', hchild, ih c hc hc' hname.symm (fun path => ?_) fun path => ?_⟩
      · simpa [declAt_cons, hn.child?_eq hc, hchild] using hdecl (c.name :: path)
      · simpa [hn.child?_eq hc, hchild] using hfind (c.name :: path)
    have hnames : (n.children.map (·.name)).Perm (n'.children.map (·.name)) :=
      (List.perm_ext_iff_of_nodup names h'.names).2 fun name => by
        rw [mem_names_iff, mem_names_iff, hfind]
    have hperm := hnames.filterMap n'.child?
    rw [h'.filterMap_child?] at hperm
    have hforall := forall₂_filterMap_child? hpair
    have hroot : n.decl = n'.decl := by simpa using hdecl []
    obtain ⟨_, _, _⟩ := n
    obtain ⟨_, _, _⟩ := n'
    cases hname
    cases hroot
    exact .node hforall hperm

end ClassNode

namespace ClassTree

variable {α : Type} {t t' : ClassTree α} {entries entries' : List (List String × α)}

/-- Two trees that differ at most in the order of siblings and of the top level. -/
structure Rearranged (t t' : ClassTree α) : Prop where
  root : t.root.Rearranged t'.root
  completed : t.completed.Perm t'.completed
  topLevelPaths : t.topLevelPaths.Perm t'.topLevelPaths

/-- Trees that have grown from the same entries, in whatever order, differ at most in order. -/
theorem Holds.rearranged (h : t.Holds entries) (h' : t'.Holds entries')
    (hname : t.root.name = t'.root.name) (hentries : ∀ e, e ∈ entries ↔ e ∈ entries') :
    t.Rearranged t' := by
  have hfind : ∀ path, (t.root.find? path).isSome ↔ (t'.root.find? path).isSome := by
    intro path
    by_cases hpath : path = []
    · simp [hpath]
    · simpa only [find?, hentries, ← h'.find?_iff path hpath] using h.find?_iff path hpath
  have hdecl : ∀ path, t.root.declAt path = t'.root.declAt path := fun path =>
    Option.ext fun d => by rw [h.declAt_iff, hentries, h'.declAt_iff]
  obtain ⟨names, hpaths, hnames⟩ := h.exists_topLevelNames
  obtain ⟨names', hpaths', hnames'⟩ := h'.exists_topLevelNames
  have hchildren : (t.root.children.map (·.name)).Perm (t'.root.children.map (·.name)) :=
    (List.perm_ext_iff_of_nodup h.distinct.names h'.distinct.names).2 fun name => by
      rw [ClassNode.mem_names_iff, ClassNode.mem_names_iff, hfind]
  refine ⟨h.distinct.rearranged h'.distinct hname hdecl hfind, ?_, ?_⟩
  · refine (List.perm_ext_iff_of_nodup h.completed_nodup h'.completed_nodup).2 fun path => ?_
    simp only [h.mem_completed, h'.mem_completed, hentries]
  · rw [hpaths, hpaths']
    exact ((hnames.trans hchildren).trans hnames'.symm).map _

end ClassTree

namespace Filling

theorem name_root_ofCalls (calls : List (ClassPath × TypeDecl)) :
    (ofCalls calls).tree.root.name = "" := by
  induction calls using List.reverseRecOn with
  | nil => rfl
  | append_singleton calls call ih =>
    obtain ⟨path, d⟩ := call
    rw [ofCalls, List.foldl_append, List.foldl_cons, List.foldl_nil, ← ofCalls, put_eq]
    cases hinsert : (ofCalls calls).tree.insertType path d with
    | error e => exact ih
    | ok t =>
      rw [ClassTree.insertType_eq_ok_iff] at hinsert
      exact (ClassNode.name_insert (ClassTree.insert_cases hinsert).1).trans ih

/-- **Insertions make a trie.** Types are put at non-empty paths one after another. A type is refused if
and only if another one has been accepted at its path, and what is refused leaves the tree as it was. In
the end the tree is the trie of the accepted entries; where all are accepted in one order they are
accepted in every order, and the trees differ at most in the order of siblings and of the top level. -/
theorem ofCalls_isTrie (calls : List (ClassPath × TypeDecl))
    (hcalls : ∀ call ∈ calls, call.1.segments ≠ []) :
    (∀ before path d after, calls = before ++ (path, d) :: after →
      (∀ e, (ofCalls before).tree.insertType path d = .error e ↔
        ∃ there, (path.segments, there) ∈ (ofCalls before).accepted ∧ there ≠ d ∧
          e = .nameCollision path.flat there.fullName d.fullName) ∧
      (ofCalls before).tree.insertInPlace path d =
        match (ofCalls before).tree.insertType path d with
        | .ok t => (t, none)
        | .error e => ((ofCalls before).tree, some e)) ∧
    (ofCalls calls).tree.IsTrie (ofCalls calls).accepted ∧
    ((ofCalls calls).accepted = entriesOf calls → ∀ calls', calls'.Perm calls →
      (ofCalls calls').accepted = entriesOf calls' ∧
        (ofCalls calls').tree.Rearranged (ofCalls calls).tree) := by
  have hholds := holds_ofCalls hcalls
  refine ⟨?_, hholds.isTrie, fun haccepted calls' hperm => ?_⟩
  · rintro before path d after rfl
    have hbefore := holds_ofCalls fun call hcall => hcalls call (List.mem_append_left _ hcall)
    exact ⟨fun e => insertType_eq_error_iff hbefore, ClassTree.insertInPlace_eq _ path d⟩
  · have hcalls' : ∀ call ∈ calls', call.1.segments ≠ [] := fun call hcall =>
      hcalls call (hperm.mem_iff.1 hcall)
    have hentries : ∀ e, e ∈ entriesOf calls' ↔ e ∈ entriesOf calls := fun e =>
      (hperm.map _).mem_iff
    have hagree : ∀ a ∈ entriesOf calls', ∀ b ∈ entriesOf calls', a.1 = b.1 → a.2 = b.2 := by
      intro a ha b hb hpath
      rw [hentries, ← haccepted] at ha hb
      have hb' := (hholds.declAt_iff b.1 b.2).2 hb
      rw [← hpath, (hholds.declAt_iff a.1 a.2).2 ha] at hb'
      exact Option.some.inj hb'
    have haccepted' := accepted_ofCalls hcalls' hagree
    refine ⟨haccepted', (holds_ofCalls hcalls').rearranged hholds ?_ fun e => ?_⟩
    · rw [name_root_ofCalls, name_root_ofCalls]
    · rw [haccepted, haccepted', hentries]

/-- A message with one in it, and one of the same name elsewhere. -/
def outer : TypeDecl := .message
  ⟨"Outer", "a.Outer", default, .file "a.proto", [], [], [], [], false, none⟩

def inner : TypeDecl := .message
  ⟨"Inner", "a.Outer.Inner", default, .message "a.Outer", [], [], [], [], false, none⟩

def stranger : TypeDecl := .message
  ⟨"Outer", "b.Outer", default, .file "b.proto", [], [], [], [], false, none⟩

/-- The inner message comes before the one around it, and the stranger's first path is taken. -/
def nestedCalls : List (ClassPath × TypeDecl) :=
  [(⟨["Outer", "Inner"]⟩, inner), (⟨["Outer"]⟩, outer), (⟨["Outer"]⟩, stranger),
    (⟨["Outer"]⟩, outer), (⟨["b", "Outer"]⟩, stranger)]

theorem ofCalls_isTrie_nested :
    (∀ call ∈ nestedCalls, call.1.segments ≠ []) ∧
    (ofCalls (nestedCalls.take 2)).tree.insertType ⟨["Outer"]⟩ stranger =
      .error (.nameCollision "Outer" "a.Outer" "b.Outer") ∧
    (ofCalls nestedCalls).tree.IsTrie
      [(["Outer", "Inner"], inner), (["Outer"], outer), (["Outer"], outer),
        (["b", "Outer"], stranger)] ∧
    (ofCalls nestedCalls).tree.size = 4 := by
  have hcalls : ∀ call ∈ nestedCalls, call.1.segments ≠ [] := by decide
  obtain ⟨hrefused, htrie, _⟩ := ofCalls_isTrie nestedCalls hcalls
  have haccepted : (ofCalls (nestedCalls.take 2)).accepted =
      [(["Outer", "Inner"], inner), (["Outer"], outer)] := by rfl
  refine ⟨hcalls, ?_, htrie, rfl⟩
  refine ((hrefused (nestedCalls.take 2) ⟨["Outer"]⟩ stranger (nestedCalls.drop 3) rfl).1 _).2 ?_
  exact ⟨outer, by simp [haccepted], by decide, by decide⟩

end Filling
end ProtoModels
