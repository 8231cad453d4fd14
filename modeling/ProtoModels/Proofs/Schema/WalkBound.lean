import Mathlib.Data.Finset.Card
import Mathlib.Data.List.Nodup
import ProtoModels.Proofs.Schema.WalkReach
/-!
# Every walk ends

`Walk.Enters` says what a walk is, without a bound: declarations are entered one after another, each
with everything below it before the next one, and a declaration whose name has been seen is passed over.
The rules lead through any schema, references in circles and repeated names included, so it has to be
shown that they get to an end. They do, and to one end only, because what is below a declaration of a
schema is declared in the schema again: every declaration that is entered uses up one of finitely many
names, whatever the visitor answers (`Walk.exists_enters`, `Walk.Enters.unique`). The tasks of
`Walk.run` are these rules worked off one by one (`Walk.Enters.run_eq`).
-/
namespace ProtoModels

/-- What lies below a declaration, in the order in which it is entered: what is declared in it, or what
a field refers to. -/
def Decl.below (s : Schema) : Decl → List Decl
  | .file f => f.enums.map .enum ++ f.messages.map .message
  | .enum _ => []
  | .message m => m.enums.map .enum ++ m.messages.map .message ++ m.fields.map .field
  | .field f =>
    (match s.entryFields? f with
      | some (key, value) => [.field key, .field value]
      | none => []) ++ (s.target? f).toList.map .ofType

namespace Walk

/-- How far a walk has come (`Walker`): the names that have been seen, and what has been visited, latest
first. -/
structure Progress where
  seen : List String := []
  visited : List Decl := []

/-- How a walk enters some declarations (`walk_file`, `walk_enum`, `walk_message`, `walk_field`). A
message is visited after what is below it, everything else before, and then the visitor says whether to
go on below it. -/
inductive Enters (s : Schema) (visit : List Decl → Decl → Bool) :
    List Decl → Progress → Progress → Prop where
  | done {p : Progress} : Enters s visit [] p p
  | seen {d : Decl} {ds : List Decl} {p p' : Progress} : d.name ∈ p.seen → Enters s visit ds p p' →
      Enters s visit (d :: ds) p p'
  | message {m : Message} {ds : List Decl} {p p₁ p' : Progress} : m.fullName ∉ p.seen →
      Enters s visit ((Decl.message m).below s) ⟨m.fullName :: p.seen, p.visited⟩ p₁ →
      Enters s visit ds ⟨p₁.seen, .message m :: p₁.visited⟩ p' →
      Enters s visit (.message m :: ds) p p'
  | other {d : Decl} {ds : List Decl} {p p₁ p' : Progress} : (∀ m, d ≠ .message m) → d.name ∉ p.seen →
      Enters s visit (if visit p.visited d then d.below s else [])
        ⟨d.name :: p.seen, d :: p.visited⟩ p₁ →
      Enters s visit ds p₁ p' → Enters s visit (d :: ds) p p'

variable {s : Schema} {visit : List Decl → Decl → Bool} {ds : List Decl} {p p₁ p₂ p' : Progress}

/-- **A walk has one end.** -/
theorem Enters.unique (h₁ : Enters s visit ds p p₁) (h₂ : Enters s visit ds p p₂) : p₁ = p₂ := by
  induction h₁ generalizing p₂ with
  | done => cases h₂; rfl
  | seen hseen _ ih =>
    cases h₂ with
    | seen _ h => exact ih h
    | message hnew => exact absurd hseen hnew
    | other _ hnew => exact absurd hseen hnew
  | message hnew _ _ ihBelow ih =>
    cases h₂ with
    | seen hseen => exact absurd hseen hnew
    | message _ hbelow h =>
      cases ihBelow hbelow
      exact ih h
    | other hother => exact absurd rfl (hother _)
  | other hother hnew _ _ ihBelow ih =>
    cases h₂ with
    | seen hseen => exact absurd hseen hnew
    | message => exact absurd rfl (hother _)
    | other _ _ hbelow h =>
      cases ihBelow hbelow
      exact ih h

/-- What has been seen stays seen. -/
theorem Enters.seen_subset (h : Enters s visit ds p p') : p.seen ⊆ p'.seen := by
  induction h with
  | done => exact List.Subset.refl _
  | seen _ _ ih => exact ih
  | message _ _ _ ihBelow ih =>
    exact List.Subset.trans (List.Subset.trans (List.subset_cons_self ..) ihBelow) ih
  | other _ _ _ _ ihBelow ih =>
    exact List.Subset.trans (List.Subset.trans (List.subset_cons_self ..) ihBelow) ih

/-! ## The tasks of a walk -/

theorem enter_message (s : Schema) (visit : List Decl → Decl → Bool) (visited : List Decl)
    (m : Message) : enter s visit visited (.message m) =
      (visited, ((Decl.message m).below s).map .enter ++ [.leave m]) := by
  simp [enter, belowMessage, Decl.below, Function.comp_def]

theorem enter_other (s : Schema) (visit : List Decl → Decl → Bool) (visited : List Decl) {d : Decl}
    (hd : ∀ m, d ≠ .message m) : enter s visit visited d =
      (d :: visited, (if visit visited d then d.below s else []).map .enter) := by
  cases d with
  | message m => exact absurd rfl (hd m)
  | enum e => simp [enter, Decl.below]
  | file f =>
    rw [enter]
    split <;> simp [belowFile, Decl.below, Function.comp_def]
  | field f =>
    rw [enter]
    split
    · rw [belowField, Decl.below]
      cases s.entryFields? f <;> simp [Function.comp_def]
    · rfl

/-- What is below a declaration of a schema is declared in the schema. -/
theorem below_subset_decls {d : Decl} (hd : d ∈ s.decls) : ∀ c ∈ d.below s, c ∈ s.decls := by
  intro c hc
  have hstep : .enter c ∈ (enter s (fun _ _ => true) [] d).2 := by
    by_cases hmessage : ∃ m, d = .message m
    · obtain ⟨m, rfl⟩ := hmessage
      rw [enter_message]
      exact List.mem_append_left _ (List.mem_map_of_mem hc)
    · rw [enter_other _ _ _ (not_exists.1 hmessage)]
      exact List.mem_map_of_mem hc
  have hleads : Leads s (fun _ => true) d c := enter_mem_step_iff.1 hstep
  exact Schema.mem_decls_of_leads hleads hd

theorem below_answer_subset_decls {d : Decl} (hd : d ∈ s.decls) (answer : Bool) :
    ∀ c ∈ if answer then d.below s else [], c ∈ s.decls := by
  cases answer with
  | true => exact below_subset_decls hd
  | false => simp

/-! ## Names that are left -/

/-- The names of a schema that have not been seen. -/
def unseen (s : Schema) (seen : List String) : List String := s.names.filter (· ∉ seen)

theorem useUp_unseen (s : Schema) (name : String) (seen : List String) :
    useUp name (unseen s seen) = unseen s (name :: seen) := by
  simp [useUp, unseen, List.filter_filter]

theorem mem_unseen_iff {d : Decl} (hd : d ∈ s.decls) {seen : List String} :
    d.name ∈ unseen s seen ↔ d.name ∉ seen := by
  have hname : d.name ∈ s.names := by
    rw [Schema.names_eq]
    exact List.mem_map_of_mem hd
  simp [unseen, hname]

/-- Seeing more leaves fewer names. -/
theorem length_unseen_le {seen seen' : List String} (h : seen ⊆ seen') :
    (unseen s seen').length ≤ (unseen s seen).length := by
  refine (List.monotone_filter_right s.names fun name hname => ?_).length_le
  simp only [decide_eq_true_eq] at hname ⊢
  exact fun hseen => hname (h hseen)

theorem length_unseen_lt {d : Decl} (hd : d ∈ s.decls) {seen seen' : List String} (hnew : d.name ∉ seen)
    (h : d.name :: seen ⊆ seen') : (unseen s seen').length < (unseen s seen).length := by
  refine Nat.lt_of_le_of_lt (length_unseen_le h) ?_
  rw [← useUp_unseen]
  exact length_useUp_lt ((mem_unseen_iff hd).2 hnew)

/-- **Every walk gets to an end**, whatever the visitor answers. -/
theorem exists_enters (s : Schema) (visit : List Decl → Decl → Bool) (p : Progress) :
    ∀ ds : List Decl, (∀ d ∈ ds, d ∈ s.decls) → ∃ p', Enters s visit ds p p'
  | [], _ => ⟨p, .done⟩
  | d :: ds, hds => by
    rw [List.forall_mem_cons] at hds
    obtain ⟨hd, hds⟩ := hds
    by_cases hnew : d.name ∈ p.seen
    · obtain ⟨p', h⟩ := exists_enters s visit p ds hds
      exact ⟨p', .seen hnew h⟩
    by_cases hmessage : ∃ m, d = .message m
    · obtain ⟨m, rfl⟩ := hmessage
      obtain ⟨p₁, hbelow⟩ := exists_enters s visit ⟨m.fullName :: p.seen, p.visited⟩ _
        (below_subset_decls hd)
      have hseen := hbelow.seen_subset
      obtain ⟨p', h⟩ := exists_enters s visit ⟨p₁.seen, .message m :: p₁.visited⟩ ds hds
      exact ⟨p', .message hnew hbelow h⟩
    · obtain ⟨p₁, hbelow⟩ := exists_enters s visit ⟨d.name :: p.seen, d :: p.visited⟩ _
        (below_answer_subset_decls hd _)
      have hseen := hbelow.seen_subset
      obtain ⟨p', h⟩ := exists_enters s visit p₁ ds hds
      exact ⟨p', .other (not_exists.1 hmessage) hnew hbelow h⟩
termination_by ds => ((unseen s p.seen).length, ds.length)
decreasing_by
  · exact .right _ (Nat.lt_succ_self _)
  · exact .left _ _ (length_unseen_lt hd hnew (List.Subset.refl _))
  · exact .left _ _ (length_unseen_lt hd hnew hseen)
  · exact .left _ _ (length_unseen_lt hd hnew (List.Subset.refl _))
  · exact .left _ _ (length_unseen_lt hd hnew hseen)

theorem run_enter {unused : List String} {visited visited' : List Decl} {d : Decl}
    {below : List Task} (hd : d.name ∈ unused) (hstep : enter s visit visited d = (visited', below))
    (tasks : List Task) : run s visit unused visited (.enter d :: tasks) =
      run s visit (useUp d.name unused) visited' (below ++ tasks) := by
  rw [run, dif_pos hd, hstep]

/-- **The tasks of a walk are its rules**, worked off one by one. -/
theorem Enters.run_eq (h : Enters s visit ds p p') (hds : ∀ d ∈ ds, d ∈ s.decls) (tasks : List Task) :
    run s visit (unseen s p.seen) p.visited (ds.map .enter ++ tasks) =
      run s visit (unseen s p'.seen) p'.visited tasks := by
  induction h generalizing tasks with
  | done => rfl
  | seen hseen _ ih =>
    rw [List.forall_mem_cons] at hds
    rw [List.map_cons, List.cons_append, run, dif_neg (mt (mem_unseen_iff hds.1).1 (not_not.2 hseen))]
    exact ih hds.2 tasks
  | @message m ds p p₁ p' hnew _ _ ihBelow ih =>
    rw [List.forall_mem_cons] at hds
    have hunused : (Decl.message m).name ∈ unseen s p.seen := (mem_unseen_iff hds.1).2 hnew
    have hbelow := ihBelow (below_subset_decls hds.1) (.leave m :: (ds.map .enter ++ tasks))
    rw [List.map_cons, List.cons_append, run_enter hunused (enter_message ..), useUp_unseen,
      List.append_assoc, List.singleton_append]
    refine hbelow.trans ?_
    rw [run]
    exact ih hds.2 tasks
  | @other d ds p p₁ p' hother hnew _ _ ihBelow ih =>
    rw [List.forall_mem_cons] at hds
    have hunused : d.name ∈ unseen s p.seen := (mem_unseen_iff hds.1).2 hnew
    have hbelow := ihBelow (below_answer_subset_decls hds.1 _) (ds.map .enter ++ tasks)
    rw [List.map_cons, List.cons_append, run_enter hunused (enter_other _ _ _ hother), useUp_unseen]
    exact hbelow.trans (ih hds.2 tasks)

/-- What a walk visits is declared in the schema. -/
theorem Enters.visited_subset_decls (h : Enters s visit ds p p') (hds : ∀ d ∈ ds, d ∈ s.decls)
    (hp : ∀ d ∈ p.visited, d ∈ s.decls) : ∀ d ∈ p'.visited, d ∈ s.decls := by
  induction h with
  | done => exact hp
  | seen _ _ ih => exact ih (List.forall_mem_cons.1 hds).2 hp
  | message _ _ _ ihBelow ih =>
    rw [List.forall_mem_cons] at hds
    exact ih hds.2 (List.forall_mem_cons.2 ⟨hds.1, ihBelow (below_subset_decls hds.1) hp⟩)
  | other _ _ _ _ ihBelow ih =>
    rw [List.forall_mem_cons] at hds
    exact ih hds.2 (ihBelow (below_answer_subset_decls hds.1 _) (List.forall_mem_cons.2 ⟨hds.1, hp⟩))

end Walk

/-! ## Walks -/

namespace Schema

variable {s : Schema} {roots : List File}

/-- The walk is what the rules lead to. -/
theorem walk_eq_of_enters {visit : List Decl → Decl → Bool} {p : Walk.Progress}
    (hroots : ∀ f ∈ roots, f ∈ s.files) (h : Walk.Enters s visit (roots.map .file) {} p) :
    s.walk roots visit = p.visited.reverse := by
  have hdecls : ∀ d ∈ roots.map Decl.file, d ∈ s.decls := by simpa using hroots
  have hrun := h.run_eq hdecls []
  have hnames : Walk.unseen s [] = s.names := by simp [Walk.unseen]
  rw [List.append_nil, List.map_map, hnames, Walk.run] at hrun
  rw [walk]
  exact congrArg _ hrun

end Schema

/-- **Every walk ends, and visits no name twice.** On any schema, from any of its files, with a visitor
that may answer by what it has been shown before, the rules of a walk lead to exactly one end, which is
what the walk visits. No two visited declarations share a name, so there are no more of them than there
are names in the schema. -/
theorem walk_ends (s : Schema) {roots : List File} (hroots : ∀ f ∈ roots, f ∈ s.files)
    (visit : List Decl → Decl → Bool) :
    (∃! p, Walk.Enters s visit (roots.map .file) {} p) ∧
    (∀ p, Walk.Enters s visit (roots.map .file) {} p → s.walk roots visit = p.visited.reverse) ∧
    ((s.walk roots visit).map Decl.name).Nodup ∧
    (∀ d ∈ s.walk roots visit, d ∈ s.decls) ∧
    (s.walk roots visit).length ≤ s.names.toFinset.card := by
  have hdecls : ∀ d ∈ roots.map Decl.file, d ∈ s.decls := by simpa using hroots
  obtain ⟨p, hp⟩ := Walk.exists_enters s visit {} (roots.map .file) hdecls
  have hwalk := Schema.walk_eq_of_enters hroots hp
  have hmem : ∀ d ∈ s.walk roots visit, d ∈ s.decls := by
    intro d hd
    rw [hwalk, List.mem_reverse] at hd
    exact hp.visited_subset_decls hdecls (by simp) d hd
  have hnodup := s.walk_names_nodup roots visit
  refine ⟨⟨p, hp, fun p' hp' => hp'.unique hp⟩, fun p' => Schema.walk_eq_of_enters hroots, hnodup,
    hmem, ?_⟩
  have hsubset : ((s.walk roots visit).map Decl.name).toFinset ⊆ s.names.toFinset := by
    intro name hname
    obtain ⟨d, hd, rfl⟩ := List.mem_map.1 (List.mem_toFinset.1 hname)
    rw [List.mem_toFinset, Schema.names_eq]
    exact List.mem_map_of_mem (hmem d hd)
  calc (s.walk roots visit).length
      = ((s.walk roots visit).map Decl.name).toFinset.card := by
        rw [List.toFinset_card_of_nodup hnodup, List.length_map]
    _ ≤ s.names.toFinset.card := Finset.card_le_card hsubset

/-- A file with the path of its own message, which is declared twice, and an entry of a map that holds
maps of such entries. -/
def tangledFiles : List Descriptor.File := [
  { name := "a.Node"
    package := "a"
    messages := [
      { name := "Node", fields := [{ name := "next", kind := some 11, typeName := some ".a.Node" }] },
      { name := "Node"
        fields := [{ name := "next", label := some 3, kind := some 11, typeName := some ".a.Loop" }] },
      { name := "Loop"
        fields := [
          { name := "key", label := some 3, kind := some 11, typeName := some ".a.Loop" },
          { name := "value", label := some 3, kind := some 11, typeName := some ".a.Loop" }]
        mapEntry := true }] }]

theorem build_tangledFiles : Schema.build tangledFiles {} = .ok (.ofDescriptors tangledFiles {}) :=
  Schema.build_eq_ok_iff.2 ⟨rfl, by decide +kernel⟩

theorem walk_ends_tangled :
    let s := Schema.ofDescriptors tangledFiles {}
    let roots := s.files ++ s.files
    let visit := fun (visited : List Decl) (_ : Decl) => visited.length % 2 == 0
    Schema.build tangledFiles {} = .ok s ∧ (∀ f ∈ roots, f ∈ s.files) ∧
    (∃! p, Walk.Enters s visit (roots.map .file) {} p) ∧
    (∀ p, Walk.Enters s visit (roots.map .file) {} p →
      p.visited.reverse.map Decl.name = ["a.Node", "a.Loop.key", "a.Loop.value", "a.Loop"]) ∧
    4 ≤ s.names.toFinset.card := by
  intro s roots visit
  have hroots : ∀ f ∈ roots, f ∈ s.files := fun f hf => (List.mem_append.1 hf).elim id id
  have hvisits : (s.walk roots visit).map Decl.name =
      ["a.Node", "a.Loop.key", "a.Loop.value", "a.Loop"] :=
    Schema.map_name_walk 20 (by decide +kernel)
  obtain ⟨hend, hwalk, -, -, hcard⟩ := walk_ends s hroots visit
  refine ⟨build_tangledFiles, hroots, hend, fun p hp => ?_, ?_⟩
  · rw [← hwalk p hp, hvisits]
  · rwa [← List.length_map, hvisits] at hcard

end ProtoModels
