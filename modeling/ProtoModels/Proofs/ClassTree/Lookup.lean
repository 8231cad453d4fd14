import Mathlib.Data.List.Nodup
import ProtoModels.ClassTree
/-!
# Looking up classes

A class tree is known by what stands at its paths. Inserting a declaration changes what stands at one
path and makes the classes on the way (`declAt_insert`, `find?_isSome_insert`); it fails only where
another declaration stands (`insert_eq_error_iff`). `ClassTree.Holds` says of a tree that it has grown
from some entries, and `Holds.insert` that it still does after one more.
-/
namespace ProtoModels
namespace ClassNode

variable {α : Type}

/-- The declaration at a path below a class. -/
def declAt (n : ClassNode α) (path : List String) : Option α := (n.find? path).bind (·.decl)

@[simp] theorem find?_nil (n : ClassNode α) : n.find? [] = some n := by cases n; rfl

@[simp] theorem find?_cons (n : ClassNode α) (name : String) (path : List String) :
    n.find? (name :: path) = (n.child? name).bind (·.find? path) := by cases n; rfl

@[simp] theorem declAt_nil (n : ClassNode α) : n.declAt [] = n.decl := by simp [declAt]

theorem declAt_cons (n : ClassNode α) (name : String) (path : List String) :
    n.declAt (name :: path) = (n.child? name).bind (·.declAt path) := by
  simp [declAt, Option.bind_assoc]

/-- The class that a path leads to has the path's last name. -/
theorem name_of_find? {path : List String} {name : String} {n n' : ClassNode α}
    (h : n.find? (path ++ [name]) = some n') : n'.name = name := by
  induction path generalizing n with
  | nil =>
    have hchild : n.child? name = some n' := by simpa using h
    simpa using List.find?_some hchild
  | cons first path ih =>
    rw [List.cons_append, find?_cons] at h
    obtain ⟨c, _, h⟩ := Option.bind_eq_some_iff.1 h
    exact ih h

theorem find?_append (n : ClassNode α) (path rest : List String) :
    n.find? (path ++ rest) = (n.find? path).bind (·.find? rest) := by
  induction path generalizing n with
  | nil => simp
  | cons name path ih =>
    simp only [List.cons_append, find?_cons, Option.bind_assoc]
    cases n.child? name with
    | none => rfl
    | some c => simp [ih]

/-- A class that is found is an inner class of the one found before it. -/
theorem exists_parent_of_find? {n n' : ClassNode α} {path : List String} {name : String}
    (h : n.find? (path ++ [name]) = some n') :
    ∃ o, n.find? path = some o ∧ n' ∈ o.children := by
  rw [find?_append, Option.bind_eq_some_iff] at h
  obtain ⟨o, ho, hchild⟩ := h
  refine ⟨o, ho, List.mem_of_find?_eq_some (p := (·.name == name)) ?_⟩
  simpa [child?] using hchild

/-- A class below is found through an inner class. -/
theorem exists_inner_of_find? {n n' : ClassNode α} {name : String} {rest : List String}
    (h : n.find? (name :: rest) = some n') :
    ∃ c ∈ n.children, c.name = name ∧ c.find? rest = some n' := by
  rw [find?_cons] at h
  obtain ⟨c, hchild, h⟩ := Option.bind_eq_some_iff.1 h
  exact ⟨c, List.mem_of_find?_eq_some hchild, by simpa using List.find?_some hchild, h⟩

/-! ## Insertion -/

/-- A list of classes cut at the class with a name. If there is none, nothing stands behind the cut. -/
structure Cut (name : String) (cs pre : List (ClassNode α)) (old : Option (ClassNode α))
    (post : List (ClassNode α)) : Prop where
  eq : cs = pre ++ old.toList ++ post
  name_ne : ∀ c ∈ pre, c.name ≠ name
  name_eq : ∀ c ∈ old, c.name = name
  last : old = none → post = []

/-- Changing or adding the class with a name changes a list of classes at the cut. -/
theorem upsert_eq (name : String) (cs : List (ClassNode α)) : ∃ pre old post, Cut name cs pre old post ∧
    ∀ {ε : Type} (f : ClassNode α → Except ε (ClassNode α)),
      upsert name f cs = (f (old.getD { name })).map fun c => pre ++ c :: post := by
  induction cs with
  | nil => exact ⟨[], none, [], ⟨rfl, by simp, by simp, fun _ => rfl⟩, fun f => rfl⟩
  | cons c cs ih =>
    by_cases hc : c.name = name
    · exact ⟨[], some c, cs, ⟨rfl, by simp, by simp [hc], by simp⟩, fun f => by simp [upsert, hc]⟩
    · obtain ⟨pre, old, post, ⟨hcs, hpre, hold, hlast⟩, hupsert⟩ := ih
      refine ⟨c :: pre, old, post, ⟨by simp [hcs], by simpa [hc] using hpre, hold, hlast⟩, fun f => ?_⟩
      rw [upsert, if_neg hc, hupsert f]
      cases f (old.getD { name }) <;> rfl

/-- An insertion below a class goes on in the inner class with the path's first name, or in a new one
at the end. -/
theorem insert_cons [DecidableEq α] (decl : α) (name : String) (path : List String) (n : ClassNode α) :
    ∃ pre old post, Cut name n.children pre old post ∧
      n.insert decl (name :: path) = (insert decl path (old.getD { name })).map
        fun c => { n with children := pre ++ c :: post } := by
  obtain ⟨pre, old, post, hcut, hupsert⟩ := upsert_eq name n.children
  refine ⟨pre, old, post, hcut, ?_⟩
  rw [insert, hupsert]
  cases insert decl path (old.getD { name }) <;> rfl

theorem Cut.child?_eq {n : ClassNode α} {name : String} {pre post : List (ClassNode α)}
    {old : Option (ClassNode α)} (h : Cut name n.children pre old post) : n.child? name = old := by
  have hnone : pre.find? (·.name == name) = none := by simpa using h.name_ne
  rw [child?, h.eq, List.append_assoc, List.find?_append, hnone, Option.none_or]
  cases old with
  | none => simp [h.last rfl]
  | some c => simp [h.name_eq c rfl]

theorem Cut.child?_ne {n n' : ClassNode α} {name other : String} {pre post : List (ClassNode α)}
    {old : Option (ClassNode α)} {c : ClassNode α} (h : Cut name n.children pre old post)
    (hn' : n'.children = pre ++ c :: post) (hc : c.name = name) (hne : other ≠ name) :
    n'.child? other = n.child? other := by
  have hskip : (c.name == other) = false := by simp [hc, hne.symm]
  rw [child?, child?, h.eq, hn', List.append_assoc, List.find?_append, List.find?_append,
    List.find?_cons, hskip]
  cases old with
  | none => rfl
  | some c' =>
    have hskip' : (c'.name == other) = false := by simp [h.name_eq c' rfl, hne.symm]
    simp [hskip']

section
variable [DecidableEq α] {decl : α}

theorem eq_of_insert_nil {n n' : ClassNode α} (h : n.insert decl [] = .ok n') :
    n' = { n with decl := some decl } := by
  cases n
  unfold insert at h
  split at h
  · cases h; rfl
  · split at h <;> cases h
    rename_i hdecl heq
    exact heq ▸ hdecl ▸ rfl

theorem name_insert {path : List String} {n n' : ClassNode α} (h : n.insert decl path = .ok n') :
    n'.name = n.name := by
  cases path with
  | nil => rw [eq_of_insert_nil h]
  | cons name path =>
    obtain ⟨pre, old, post, _, hinsert⟩ := insert_cons decl name path n
    rw [hinsert] at h
    cases hc : insert decl path (old.getD { name }) with
    | error e => rw [hc] at h; cases h
    | ok c => rw [hc] at h; cases h; rfl

/-- What an insertion behind a first name leaves: the inner class with the name has been inserted into,
all others are as before. -/
theorem child?_insert {name : String} {path : List String} {n n' : ClassNode α}
    (h : n.insert decl (name :: path) = .ok n') :
    n'.decl = n.decl ∧ (∃ c, ((n.child? name).getD { name }).insert decl path = .ok c ∧
      n'.child? name = some c) ∧ ∀ other, other ≠ name → n'.child? other = n.child? other := by
  obtain ⟨pre, old, post, hcut, hinsert⟩ := insert_cons decl name path n
  rw [hinsert] at h
  cases hc : insert decl path (old.getD { name }) with
  | error e => rw [hc] at h; cases h
  | ok c =>
    rw [hc] at h
    cases h
    have hname : c.name = name := by
      rw [name_insert hc]
      cases old with
      | none => rfl
      | some c' => exact hcut.name_eq c' rfl
    refine ⟨rfl, ⟨c, by rw [hcut.child?_eq, hc], ?_⟩, fun other hne => hcut.child?_ne rfl hname hne⟩
    have hnone : pre.find? (·.name == name) = none := by simpa using hcut.name_ne
    simp [child?, List.find?_append, hnone, hname]

/-- **An insertion changes what stands at its path** and nothing else. -/
theorem declAt_insert {path : List String} {n n' : ClassNode α} (h : n.insert decl path = .ok n')
    (q : List String) : n'.declAt q = if q = path then some decl else n.declAt q := by
  induction path generalizing n n' q with
  | nil =>
    rw [eq_of_insert_nil h]
    cases q with
    | nil => simp
    | cons other q => simp [declAt_cons, child?]
  | cons name path ih =>
    obtain ⟨hdecl, ⟨c, hc, hchild⟩, hother⟩ := child?_insert h
    cases q with
    | nil => simp [hdecl]
    | cons other q =>
      by_cases hne : other = name
      · subst hne
        rw [declAt_cons, hchild, Option.bind_some, ih hc q, declAt_cons]
        cases n.child? other with
        | some c' => simp
        | none => cases q <;> simp [declAt_cons, child?]
      · simp [declAt_cons, hother other hne, hne]

/-- An insertion makes the classes on its path. -/
theorem find?_isSome_insert {path : List String} {n n' : ClassNode α}
    (h : n.insert decl path = .ok n') (q : List String) :
    (n'.find? q).isSome ↔ (n.find? q).isSome ∨ q <+: path := by
  induction path generalizing n n' q with
  | nil =>
    rw [eq_of_insert_nil h]
    cases q <;> simp [child?]
  | cons name path ih =>
    obtain ⟨_, ⟨c, hc, hchild⟩, hother⟩ := child?_insert h
    cases q with
    | nil => simp
    | cons other q =>
      by_cases hne : other = name
      · subst hne
        rw [find?_cons, hchild, Option.bind_some, ih hc q, find?_cons, List.cons_prefix_cons]
        cases n.child? other with
        | some c' => simp
        | none => cases q <;> simp [child?]
      · simp [hother other hne, hne]

/-- An insertion fails exactly where another declaration stands. -/
theorem insert_eq_error_iff {path : List String} {n : ClassNode α} {there : α} :
    n.insert decl path = .error there ↔ n.declAt path = some there ∧ there ≠ decl := by
  induction path generalizing n with
  | nil =>
    unfold insert
    cases hdecl : n.decl with
    | none => simp [hdecl]
    | some d =>
      by_cases hd : d = decl
      · simp [hdecl, hd, eq_comm]
      · simp only [hd, if_false, declAt_nil, hdecl, Option.some.injEq, Except.error.injEq]
        exact ⟨fun h => ⟨h, h ▸ hd⟩, fun h => h.1⟩
  | cons name path ih =>
    obtain ⟨pre, old, post, hcut, hinsert⟩ := insert_cons decl name path n
    have hmap : n.insert decl (name :: path) = .error there ↔
        insert decl path (old.getD { name }) = .error there := by
      rw [hinsert]
      cases insert decl path (old.getD { name }) <;> simp [Except.map]
    rw [hmap, ih, declAt_cons, hcut.child?_eq]
    cases old with
    | some c => simp
    | none => cases path <;> simp [declAt_cons, child?]

end

/-! ## Names among siblings -/

/-- No class has two inner classes of one name, at any depth. -/
inductive Distinct : ClassNode α → Prop where
  | node {n : ClassNode α} (names : (n.children.map (·.name)).Nodup)
      (inner : ∀ c ∈ n.children, Distinct c) : Distinct n

theorem Distinct.names {n : ClassNode α} (h : n.Distinct) : (n.children.map (·.name)).Nodup := by
  cases h; assumption

theorem Distinct.inner {n : ClassNode α} (h : n.Distinct) {c : ClassNode α} (hc : c ∈ n.children) :
    c.Distinct := by
  cases h with
  | node _ inner => exact inner c hc

theorem distinct_empty (name : String) (decl : Option α) : (ClassNode.mk name decl []).Distinct :=
  .node List.nodup_nil (by simp)

/-- Every inner class is found by its name. -/
theorem Distinct.child?_eq {n : ClassNode α} (h : n.Distinct) {c : ClassNode α} (hc : c ∈ n.children) :
    n.child? c.name = some c := by
  cases hfound : n.child? c.name with
  | none => exact absurd (List.find?_eq_none.1 hfound c hc) (by simp)
  | some c' =>
    have hname : c'.name = c.name := by simpa using List.find?_some hfound
    rw [List.inj_on_of_nodup_map h.names (List.mem_of_find?_eq_some hfound) hc hname]

theorem Distinct.find?_of_mem {n c n' : ClassNode α} (h : n.Distinct) (hc : c ∈ n.children)
    {path : List String} (hfind : c.find? path = some n') : n.find? (c.name :: path) = some n' := by
  rw [find?_cons, h.child?_eq hc]
  exact hfind

/-- What is found in a class is the class itself or is found in an inner class. -/
theorem Distinct.exists_find?_iff {n : ClassNode α} (h : n.Distinct)
    {P : List String → ClassNode α → Prop} :
    (∃ path n', n.find? path = some n' ∧ P path n') ↔
      P [] n ∨ ∃ c ∈ n.children, ∃ path n', c.find? path = some n' ∧ P (c.name :: path) n' := by
  constructor
  · rintro ⟨path, n', hfind, hP⟩
    cases path with
    | nil =>
      obtain rfl : n = n' := by simpa using hfind
      exact .inl hP
    | cons name path =>
      obtain ⟨c, hc, rfl, hbelow⟩ := exists_inner_of_find? hfind
      exact .inr ⟨c, hc, path, n', hbelow, hP⟩
  · rintro (hP | ⟨c, hc, path, n', hfind, hP⟩)
    · exact ⟨[], n, rfl, hP⟩
    · exact ⟨c.name :: path, n', h.find?_of_mem hc hfind, hP⟩

/-- The inner classes are what their names lead to. -/
theorem Distinct.filterMap_child? {n : ClassNode α} (h : n.Distinct) :
    (n.children.map (·.name)).filterMap n.child? = n.children := by
  rw [List.filterMap_map]
  exact (List.filterMap_congr fun c hc => h.child?_eq hc).trans List.filterMap_some

theorem Distinct.find? {n n' : ClassNode α} (h : n.Distinct) {path : List String}
    (hfind : n.find? path = some n') : n'.Distinct := by
  induction path generalizing n with
  | nil =>
    obtain rfl : n = n' := by simpa using hfind
    exact h
  | cons name path ih =>
    obtain ⟨c, hc, -, hbelow⟩ := exists_inner_of_find? hfind
    exact ih (h.inner hc) hbelow

/-- An inner class of a class that is found is found behind it. -/
theorem Distinct.find?_inner {n o : ClassNode α} (h : n.Distinct) {path : List String}
    (hfind : n.find? path = some o) {c : ClassNode α} (hc : c ∈ o.children) :
    n.find? (path ++ [c.name]) = some c := by
  rw [find?_append, hfind, Option.bind_some, find?_cons, (h.find? hfind).child?_eq hc]
  simp

theorem Distinct.insert [DecidableEq α] {decl : α} {path : List String} {n n' : ClassNode α}
    (hn : n.Distinct)
    (h : n.insert decl path = .ok n') : n'.Distinct := by
  induction path generalizing n n' with
  | nil =>
    rw [eq_of_insert_nil h]
    exact .node hn.names fun c hc => hn.inner hc
  | cons name path ih =>
    obtain ⟨pre, old, post, hcut, hinsert⟩ := insert_cons decl name path n
    rw [hinsert] at h
    cases hc : ClassNode.insert decl path (old.getD { name }) with
    | error e => rw [hc] at h; cases h
    | ok c =>
      rw [hc] at h
      cases h
      have hold : (old.getD { name }).Distinct ∧ (old.getD { name }).name = name := by
        cases old with
        | none => exact ⟨distinct_empty name none, rfl⟩
        | some c' => exact ⟨hn.inner (by simp [hcut.eq]), hcut.name_eq c' rfl⟩
      have hname : c.name = name := (name_insert hc).trans hold.2
      refine .node ?_ fun c' hc' => ?_
      · have hnames := hn.names
        rw [hcut.eq] at hnames
        cases old with
        | some c' => simpa [hname, hcut.name_eq c' rfl] using hnames
        | none =>
          have hpre : ∀ c ∈ pre, ¬ c.name = name := hcut.name_ne
          simp only [hcut.last rfl, Option.toList_none, List.append_nil] at hnames
          simpa [hcut.last rfl, List.nodup_append, hname] using ⟨hnames, hpre⟩
      · rcases List.mem_append.1 hc' with hc' | hc'
        · exact hn.inner (by simp [hcut.eq, hc'])
        · rcases List.mem_cons.1 hc' with rfl | hc'
          · exact ih hold.1 hc
          · exact hn.inner (by simp [hcut.eq, hc'])

end ClassNode

/-! ## Trees -/

namespace ClassTree

variable {α : Type}

/-- A tree that has grown from some entries: paths with the declarations that were put at them. -/
structure Holds (t : ClassTree α) (entries : List (List String × α)) : Prop where
  distinct : t.root.Distinct
  declAt_iff : ∀ p d, t.root.declAt p = some d ↔ (p, d) ∈ entries
  find?_iff : ∀ p, p ≠ [] → ((t.find? p).isSome ↔ ∃ e ∈ entries, p <+: e.1)
  completed_nodup : t.completed.Nodup
  mem_completed : ∀ p, p ∈ t.completed ↔ ∃ name d, p = [name] ∧ (p, d) ∈ entries

theorem holds_empty : (empty : ClassTree α).Holds [] := by
  refine ⟨ClassNode.distinct_empty _ _, fun p d => ?_, fun p hp => ?_, List.nodup_nil, fun p => ?_⟩
  · cases p <;> simp [empty, ClassNode.declAt_cons, ClassNode.child?]
  · cases p <;> simp_all [empty, find?, ClassNode.child?]
  · simp [empty]

theorem Holds.declAt_eq_none_iff {t : ClassTree α} {entries : List (List String × α)}
    (h : t.Holds entries) {path : List String} :
    t.root.declAt path = none ↔ ∀ d, (path, d) ∉ entries := by
  rw [Option.eq_none_iff_forall_ne_some]
  exact forall_congr' fun d => not_congr (h.declAt_iff path d)

section
variable [DecidableEq α] {t t' : ClassTree α} {entries : List (List String × α)} {path : List String}
  {decl : α}

/-- What an insertion does: the path joins the completed ones if it is at the top level and had no
declaration. -/
theorem insert_cases (h : t.insert path decl = .ok t') : t.root.insert decl path = .ok t'.root ∧
    (t.root.declAt path = none ∧ depthOf path = 0 ∧ t'.completed = t.completed ++ [path] ∨
      ¬ (t.root.declAt path = none ∧ depthOf path = 0) ∧ t'.completed = t.completed) := by
  unfold insert at h
  cases hroot : t.root.insert decl path with
  | error there => rw [hroot] at h; cases h
  | ok root =>
    rw [hroot] at h
    cases h
    refine ⟨rfl, ?_⟩
    by_cases hnew : t.root.declAt path = none ∧ depthOf path = 0
    · have hcond : (((t.find? path).bind (·.decl)).isNone && depthOf path == 0) = true := by
        simpa [ClassNode.declAt, find?] using hnew
      exact Or.inl ⟨hnew.1, hnew.2, if_pos hcond⟩
    · have hcond : ¬ (((t.find? path).bind (·.decl)).isNone && depthOf path == 0) = true := by
        simpa [ClassNode.declAt, find?] using hnew
      exact Or.inr ⟨hnew, if_neg hcond⟩

/-- An insertion is refused only where another declaration was put before. -/
theorem Holds.exists_insert (h : t.Holds entries) (hfree : ∀ d, (path, d) ∈ entries → d = decl) :
    ∃ t', t.insert path decl = .ok t' := by
  unfold ClassTree.insert
  cases hroot : t.root.insert decl path with
  | ok root => exact ⟨_, rfl⟩
  | error there =>
    obtain ⟨hthere, hne⟩ := ClassNode.insert_eq_error_iff.1 hroot
    exact absurd (hfree there ((h.declAt_iff path there).1 hthere)) hne

theorem Holds.eq_of_insert (h : t.Holds entries) (hok : t.insert path decl = .ok t') :
    ∀ d, (path, d) ∈ entries → d = decl := by
  intro d hd
  by_contra hne
  have herror := ClassNode.insert_eq_error_iff.2 ⟨(h.declAt_iff path d).2 hd, hne⟩
  rw [(insert_cases hok).1] at herror
  cases herror

theorem depthOf_eq_zero_iff (hpath : path ≠ []) : depthOf path = 0 ↔ ∃ name, path = [name] := by
  rw [depthOf, Nat.sub_eq_zero_iff_le, Nat.le_one_iff_eq_zero_or_eq_one, List.length_eq_zero_iff,
    List.length_eq_one_iff]
  simp [hpath]

theorem Holds.completed_insert (h : t.Holds entries) (hpath : path ≠ [])
    (hok : t.insert path decl = .ok t') :
    t'.completed.Nodup ∧
      ∀ p, p ∈ t'.completed ↔ ∃ name d, p = [name] ∧ (p, d) ∈ entries ++ [(path, decl)] := by
  have hmem : ∀ p, (∃ name d, p = [name] ∧ (p, d) ∈ entries ++ [(path, decl)]) ↔
      p ∈ t.completed ∨ p = path ∧ ∃ name, path = [name] := by
    intro p
    rw [h.mem_completed]
    constructor
    · rintro ⟨name, d, hp, hd⟩
      rw [List.mem_append, List.mem_singleton, Prod.mk.injEq] at hd
      rcases hd with hd | ⟨rfl, _⟩
      · exact Or.inl ⟨name, d, hp, hd⟩
      · exact Or.inr ⟨rfl, name, hp⟩
    · rintro (⟨name, d, hp, hd⟩ | ⟨rfl, name, hp⟩)
      · exact ⟨name, d, hp, List.mem_append_left _ hd⟩
      · exact ⟨name, decl, hp, by simp⟩
  rcases (insert_cases hok).2 with ⟨hnone, hdepth, hcompleted⟩ | ⟨hold, hcompleted⟩
  · rw [h.declAt_eq_none_iff] at hnone
    rw [depthOf_eq_zero_iff hpath] at hdepth
    refine ⟨?_, fun p => ?_⟩
    · rw [hcompleted]
      refine List.nodup_append.2 ⟨h.completed_nodup, by simp, fun p hp q hq hpq => ?_⟩
      obtain ⟨_, d, _, hd⟩ := (h.mem_completed p).1 hp
      exact hnone d (by rwa [← List.mem_singleton.1 hq, ← hpq])
    · rw [hmem, hcompleted, List.mem_append, List.mem_singleton]
      simp [hdepth]
  · refine ⟨hcompleted ▸ h.completed_nodup, fun p => ?_⟩
    rw [hmem, hcompleted, h.mem_completed]
    refine ⟨Or.inl, fun hp => hp.elim id ?_⟩
    rintro ⟨rfl, name, hp⟩
    rw [depthOf_eq_zero_iff hpath, h.declAt_eq_none_iff] at hold
    have hthere : ∃ d, (p, d) ∈ entries := by
      by_contra hnone
      exact hold ⟨fun d hd => hnone ⟨d, hd⟩, name, hp⟩
    obtain ⟨d, hd⟩ := hthere
    exact ⟨name, d, hp, hd⟩

/-- **One more entry.** -/
theorem Holds.insert (h : t.Holds entries) (hpath : path ≠ []) (hok : t.insert path decl = .ok t') :
    t'.Holds (entries ++ [(path, decl)]) := by
  have hroot := (insert_cases hok).1
  have hfree := h.eq_of_insert hok
  obtain ⟨hnodup, hcompleted⟩ := h.completed_insert hpath hok
  refine ⟨h.distinct.insert hroot, fun p d => ?_, fun p hp => ?_, hnodup, hcompleted⟩
  · rw [ClassNode.declAt_insert hroot, List.mem_append, List.mem_singleton, Prod.mk.injEq]
    by_cases hp : p = path
    · subst hp
      simp only [if_true, Option.some.injEq, true_and]
      exact ⟨fun hd => Or.inr hd.symm, fun hd => hd.elim (fun hd => (hfree d hd).symm) Eq.symm⟩
    · simp [h.declAt_iff, hp]
  · have hfind := h.find?_iff p hp
    rw [find?] at hfind
    rw [find?, ClassNode.find?_isSome_insert hroot, hfind]
    simp [or_and_right, exists_or]

end
end ClassTree
end ProtoModels
