import Mathlib.Data.List.Nodup
import ProtoModels.Proofs.Schema.Placement
/-!
# What a walk visits

`Reached` is the least set that holds the roots and follows every step the visitor allows. For a
visitor that decides by the declaration alone, a walk over distinct names visits exactly this set,
each declaration once.

A declaration is *entered* when its name is used up: it has been visited, or it is a message that
waits for what is declared in it. The walk keeps two invariants. No two entered declarations share a
name, whatever the visitor does (`run_names_nodup`). And every step from an entered declaration leads
to an entered one or to one that is still to be entered (`Walk.Inv.closed`), so nothing is missing when
no task is left.

A walk through a given schema can be computed in a proof by `Walk.runWithin`, whose recursion is on a
number of steps; if these are enough the outcome is the same (`Walk.run_of_runWithin`).
-/
namespace ProtoModels

/-! ## The specification -/

/-- The steps of a walk. The visitor decides whether to go on below a file or a field; what is
declared in a message is always looked at. -/
inductive Leads (s : Schema) (visit : Decl → Bool) : Decl → Decl → Prop where
  | fileEnum {f : File} {e : Enum} : visit (.file f) = true → e ∈ f.enums →
      Leads s visit (.file f) (.enum e)
  | fileMessage {f : File} {m : Message} : visit (.file f) = true → m ∈ f.messages →
      Leads s visit (.file f) (.message m)
  | nestedEnum {m : Message} {e : Enum} : e ∈ m.enums → Leads s visit (.message m) (.enum e)
  | nestedMessage {m m' : Message} : m' ∈ m.messages → Leads s visit (.message m) (.message m')
  | ownField {m : Message} {f : Field} : f ∈ m.fields → Leads s visit (.message m) (.field f)
  | entryKey {f key value : Field} : visit (.field f) = true →
      s.entryFields? f = some (key, value) → Leads s visit (.field f) (.field key)
  | entryValue {f key value : Field} : visit (.field f) = true →
      s.entryFields? f = some (key, value) → Leads s visit (.field f) (.field value)
  | target {f : Field} {t : TypeDecl} : visit (.field f) = true → s.target? f = some t →
      Leads s visit (.field f) (.ofType t)

/-- The least set that holds the roots and follows all steps. -/
inductive Reached (s : Schema) (visit : Decl → Bool) (roots : List File) : Decl → Prop where
  | root {f : File} : f ∈ roots → Reached s visit roots (.file f)
  | step {d c : Decl} : Reached s visit roots d → Leads s visit d c → Reached s visit roots c

/-- A list that holds the roots and every step from what is in it holds all that is reached. -/
theorem Reached.mem_of_closed {s : Schema} {visit : Decl → Bool} {roots : List File} {ds : List Decl}
    (hroots : ∀ f ∈ roots, .file f ∈ ds) (hclosed : ∀ d ∈ ds, ∀ c, Leads s visit d c → c ∈ ds) {d : Decl}
    (h : Reached s visit roots d) : d ∈ ds := by
  induction h with
  | root hf => exact hroots _ hf
  | step _ hl ih => exact hclosed _ ih _ hl

/-! ## Declarations of the schema -/

namespace Decl

@[simp] theorem name_ofType (t : TypeDecl) : (ofType t).name = t.fullName := by cases t <;> rfl

@[simp] theorem ofType_inj {t u : TypeDecl} : ofType t = ofType u ↔ t = u := by
  cases t <;> cases u <;> simp [ofType]

@[simp] theorem ofType_ne_file {t : TypeDecl} {f : File} : ofType t ≠ file f := by
  cases t <;> simp [ofType]

@[simp] theorem ofType_ne_field {t : TypeDecl} {f : Field} : ofType t ≠ field f := by
  cases t <;> simp [ofType]

end Decl

namespace Schema

variable {s : Schema}

/-- Everything that a schema declares. -/
def decls (s : Schema) : List Decl :=
  s.files.map .file ++ s.types.map .ofType ++ s.allFields.map .field

theorem names_eq (s : Schema) : s.names = s.decls.map Decl.name := by
  simp only [names, decls, List.map_append, List.map_map, Function.comp_def, Decl.name_ofType]
  rfl

@[simp] theorem ofType_mem_decls {t : TypeDecl} : .ofType t ∈ s.decls ↔ t ∈ s.types := by
  simp [decls, eq_comm (b := Decl.ofType t)]

@[simp] theorem file_mem_decls {f : File} : .file f ∈ s.decls ↔ f ∈ s.files := by simp [decls]

@[simp] theorem field_mem_decls {f : Field} : .field f ∈ s.decls ↔ f ∈ s.allFields := by simp [decls]

@[simp] theorem enum_mem_decls {e : Enum} : .enum e ∈ s.decls ↔ .enum e ∈ s.types :=
  ofType_mem_decls (t := .enum e)

@[simp] theorem message_mem_decls {m : Message} : .message m ∈ s.decls ↔ .message m ∈ s.types :=
  ofType_mem_decls (t := .message m)

/-- A name belongs to one declaration where all names are distinct. -/
theorem eq_of_name_eq (hs : s.names.Nodup) {d c : Decl} (hd : d ∈ s.decls) (hc : c ∈ s.decls)
    (h : d.name = c.name) : d = c := by
  rw [names_eq] at hs
  exact List.inj_on_of_nodup_map hs hd hc h

theorem mem_decls_of_leads {visit : Decl → Bool} {d c : Decl} (h : Leads s visit d c)
    (hd : d ∈ s.decls) : c ∈ s.decls := by
  cases h with
  | fileEnum _ he =>
    exact enum_mem_decls.2 (topLevel_subset_types (file_mem_decls.1 hd) (by simp [File.topLevel, he]))
  | fileMessage _ hm =>
    exact message_mem_decls.2
      (topLevel_subset_types (file_mem_decls.1 hd) (by simp [File.topLevel, hm]))
  | nestedEnum he =>
    exact enum_mem_decls.2 (inner_subset_types (message_mem_decls.1 hd) (by simp [Message.inner, he]))
  | nestedMessage hm =>
    exact message_mem_decls.2
      (inner_subset_types (message_mem_decls.1 hd) (by simp [Message.inner, hm]))
  | ownField hf => exact field_mem_decls.2 (mem_allFields_iff.2 ⟨_, message_mem_decls.1 hd, hf⟩)
  | entryKey _ he => exact field_mem_decls.2 (mem_allFields_of_entryFields? he).1
  | entryValue _ he => exact field_mem_decls.2 (mem_allFields_of_entryFields? he).2
  | target _ ht => exact ofType_mem_decls.2 (mem_types_of_target? ht)

theorem mem_decls_of_reached {visit : Decl → Bool} {roots : List File}
    (hroots : ∀ f ∈ roots, f ∈ s.files) {d : Decl} (h : Reached s visit roots d) : d ∈ s.decls := by
  induction h with
  | root hf => exact file_mem_decls.2 (hroots _ hf)
  | step _ hl ih => exact mem_decls_of_leads hl ih

end Schema

/-! ## What has been entered -/

/-- The message that a task is to visit, which has been entered before. -/
def Task.leaving? : Task → Option Decl
  | .enter _ => none
  | .leave m => some (.message m)

namespace Walk

variable {s : Schema}

/-- The declarations whose names have been used up. -/
def entered (visited : List Decl) (tasks : List Task) : List Decl :=
  visited ++ tasks.filterMap Task.leaving?

@[simp] theorem entered_nil (visited : List Decl) : entered visited [] = visited := by simp [entered]

@[simp] theorem entered_roots (roots : List File) : entered [] (roots.map (.enter <| .file ·)) = [] := by
  simp [entered, Function.comp_def, Task.leaving?]

theorem entered_leave_perm (visited : List Decl) (m : Message) (tasks : List Task) :
    (entered (.message m :: visited) tasks).Perm (entered visited (.leave m :: tasks)) :=
  List.perm_middle.symm

theorem leaving_belowFile (f : File) : (belowFile f).filterMap Task.leaving? = [] := by
  simp [belowFile, Function.comp_def, Task.leaving?]

theorem leaving_belowMessage (m : Message) :
    (belowMessage m).filterMap Task.leaving? = [.message m] := by
  simp [belowMessage, Function.comp_def, Task.leaving?]

theorem leaving_belowField (s : Schema) (f : Field) :
    (belowField s f).filterMap Task.leaving? = [] := by
  unfold belowField
  rw [List.filterMap_append, List.append_eq_nil_iff]
  constructor
  · split <;> simp [Task.leaving?]
  · simp [Function.comp_def, Task.leaving?]

/-- Entering a declaration enters this one and no other. -/
theorem entered_step_perm (s : Schema) (visit : List Decl → Decl → Bool) (visited : List Decl)
    (d : Decl) (tasks : List Task) :
    (entered (enter s visit visited d).1 ((enter s visit visited d).2 ++ tasks)).Perm
      (d :: entered visited tasks) := by
  simp only [entered, List.filterMap_append]
  cases d with
  | enum e => exact List.Perm.refl _
  | message m =>
    simp only [enter, leaving_belowMessage]
    exact List.perm_middle
  | file f =>
    simp only [enter]
    split <;> simp [leaving_belowFile]
  | field f =>
    simp only [enter]
    split <;> simp [leaving_belowField]

/-- The tasks that entering a declaration adds are its steps. -/
theorem enter_mem_step_iff {visit : Decl → Bool} {visited : List Decl} {d c : Decl} :
    .enter c ∈ (enter s (fun _ d => visit d) visited d).2 ↔ Leads s visit d c := by
  constructor
  · intro h
    cases d with
    | enum e => simp [enter] at h
    | file f =>
      simp only [enter] at h
      split at h
      · rename_i hv
        simp only [belowFile, List.mem_append, List.mem_map, Task.enter.injEq] at h
        rcases h with ⟨e, he, rfl⟩ | ⟨m, hm, rfl⟩
        · exact .fileEnum hv he
        · exact .fileMessage hv hm
      · cases h
    | message m =>
      simp only [enter, belowMessage, List.mem_append, List.mem_map, Task.enter.injEq,
        List.mem_singleton, reduceCtorEq, or_false] at h
      rcases h with (⟨e, he, rfl⟩ | ⟨m', hm, rfl⟩) | ⟨f, hf, rfl⟩
      · exact .nestedEnum he
      · exact .nestedMessage hm
      · exact .ownField hf
    | field f =>
      simp only [enter] at h
      split at h
      · rename_i hv
        simp only [belowField, List.mem_append, List.mem_map, Task.enter.injEq, Option.mem_toList] at h
        rcases h with h | ⟨t, ht, rfl⟩
        · split at h
          · rename_i key value he
            simp only [List.mem_cons, Task.enter.injEq, List.not_mem_nil, or_false] at h
            rcases h with rfl | rfl
            · exact .entryKey hv he
            · exact .entryValue hv he
          · cases h
        · exact .target hv ht
      · cases h
  · intro h
    cases h with
    | fileEnum hv he => simp [enter, belowFile, hv, he]
    | fileMessage hv hm => simp [enter, belowFile, hv, hm]
    | nestedEnum he => simp [enter, belowMessage, he]
    | nestedMessage hm => simp [enter, belowMessage, hm]
    | ownField hf => simp [enter, belowMessage, hf]
    | entryKey hv he => simp [enter, belowField, hv, he]
    | entryValue hv he => simp [enter, belowField, hv, he]
    | target hv ht => simp [enter, belowField, hv, ht]

/-! ## Runs -/

/-- **No name is visited twice**, whatever the visitor answers. -/
theorem run_names_nodup (s : Schema) (visit : List Decl → Decl → Bool) (unused : List String)
    (visited : List Decl) (tasks : List Task)
    (hnodup : ((entered visited tasks).map Decl.name).Nodup)
    (hused : ∀ d ∈ entered visited tasks, d.name ∉ unused) :
    ((run s visit unused visited tasks).map Decl.name).Nodup := by
  fun_induction run s visit unused visited tasks with
  | case1 unused visited => simpa using hnodup
  | case2 unused visited m tasks ih =>
    have hperm := entered_leave_perm visited m tasks
    refine ih ?_ fun d hd => hused d (hperm.mem_iff.1 hd)
    exact (hperm.map _).nodup_iff.2 hnodup
  | case3 unused visited d tasks h _ step ih =>
    have hperm := entered_step_perm s visit visited d tasks
    refine ih ?_ fun c hc => ?_
    · refine (hperm.map _).nodup_iff.2 (List.nodup_cons.2 ⟨fun hmem => ?_, hnodup⟩)
      obtain ⟨c, hc, hname⟩ := List.mem_map.1 hmem
      exact hused c hc (hname ▸ h)
    · rw [mem_useUp]
      rintro ⟨hunused, hne⟩
      rcases List.mem_cons.1 (hperm.mem_iff.1 hc) with rfl | hc
      · exact hne rfl
      · exact hused c hc hunused
  | case4 unused visited d tasks h ih => exact ih hnodup hused

/-- A property that every step keeps passes from what is entered, or to be entered, to all that is
visited. -/
theorem run_sound {visit : Decl → Bool} {P : Decl → Prop}
    (hP : ∀ d c, P d → Leads s visit d c → P c) (unused : List String) (visited : List Decl)
    (tasks : List Task) (hentered : ∀ d ∈ entered visited tasks, P d)
    (htasks : ∀ d, .enter d ∈ tasks → P d) :
    ∀ d ∈ run s (fun _ d => visit d) unused visited tasks, P d := by
  fun_induction run s (fun _ d => visit d) unused visited tasks with
  | case1 unused visited => simpa using hentered
  | case2 unused visited m tasks ih =>
    refine ih (fun d hd => hentered d ((entered_leave_perm visited m tasks).mem_iff.1 hd)) fun d hd => ?_
    exact htasks d (List.mem_cons_of_mem _ hd)
  | case3 unused visited d tasks h _ step ih =>
    have hd : P d := htasks d (List.mem_cons_self ..)
    refine ih (fun c hc => ?_) fun c hc => ?_
    · rcases List.mem_cons.1 ((entered_step_perm s _ visited d tasks).mem_iff.1 hc) with rfl | hc
      · exact hd
      · exact hentered c hc
    · rcases List.mem_append.1 hc with hc | hc
      · exact hP d c hd (enter_mem_step_iff.1 hc)
      · exact htasks c (List.mem_cons_of_mem _ hc)
  | case4 unused visited d tasks h ih =>
    exact ih hentered fun c hc => htasks c (List.mem_cons_of_mem _ hc)

/-- A declaration that has been entered or is still to be. -/
def Due (visited : List Decl) (tasks : List Task) (d : Decl) : Prop :=
  d ∈ entered visited tasks ∨ .enter d ∈ tasks

/-- When a declaration is entered its task can go. -/
theorem Due.mono {d c : Decl} {visited visited' : List Decl} {tasks tasks' : List Task}
    (h : Due visited (.enter d :: tasks) c) (hd : d ∈ entered visited' tasks')
    (hentered : ∀ c ∈ entered visited tasks, c ∈ entered visited' tasks')
    (htasks : ∀ task ∈ tasks, task ∈ tasks') : Due visited' tasks' c := by
  rcases h with hc | hc
  · exact Or.inl (hentered c hc)
  · rcases List.mem_cons.1 hc with hc | hc
    · cases hc
      exact Or.inl hd
    · exact Or.inr (htasks _ hc)

/-- The state of a walk that has lost nothing: a declaration whose name is used up has been entered,
and every step from an entered declaration leads to one that is entered or is still to be. -/
structure Inv (s : Schema) (visit : Decl → Bool) (roots : List File) (unused : List String)
    (visited : List Decl) (tasks : List Task) : Prop where
  declared : ∀ d, .enter d ∈ tasks → d ∈ s.decls
  used : ∀ d ∈ s.decls, d.name ∉ unused → d ∈ entered visited tasks
  roots : ∀ f ∈ roots, Due visited tasks (.file f)
  closed : ∀ d ∈ entered visited tasks, ∀ c, Leads s visit d c → Due visited tasks c

variable {visit : Decl → Bool} {roots : List File} {unused : List String} {visited : List Decl}
  {tasks : List Task}

/-- Visiting a message that has been entered changes nothing about what has been. -/
theorem Inv.leave {m : Message} (I : Inv s visit roots unused visited (.leave m :: tasks)) :
    Inv s visit roots unused (.message m :: visited) tasks := by
  have hmem := fun d => (entered_leave_perm visited m tasks).mem_iff (a := d)
  have keep : ∀ c, Due visited (.leave m :: tasks) c → Due (.message m :: visited) tasks c := by
    rintro c (hc | hc)
    · exact Or.inl ((hmem c).2 hc)
    · exact Or.inr (by simpa using hc)
  exact ⟨fun d hd => I.declared d (List.mem_cons_of_mem _ hd),
    fun d hd hn => (hmem d).2 (I.used d hd hn), fun f hf => keep _ (I.roots f hf),
    fun d hd c hl => keep c (I.closed d ((hmem d).1 hd) c hl)⟩

/-- A new declaration is entered, and its steps become tasks. -/
theorem Inv.enter {d : Decl} (hs : s.names.Nodup)
    (I : Inv s visit roots unused visited (.enter d :: tasks)) :
    Inv s visit roots (useUp d.name unused) (Walk.enter s (fun _ d => visit d) visited d).1
      ((Walk.enter s (fun _ d => visit d) visited d).2 ++ tasks) := by
  have hmem := fun c => (entered_step_perm s (fun _ d => visit d) visited d tasks).mem_iff (a := c)
  have hself := (hmem d).2 (List.mem_cons_self ..)
  have hold := fun c hc => (hmem c).2 (List.mem_cons_of_mem _ hc)
  have hd : d ∈ s.decls := I.declared d (List.mem_cons_self ..)
  refine ⟨fun c hc => ?_, fun c hc hn => ?_, fun f hf => ?_, fun c hc c' hl => ?_⟩
  · rcases List.mem_append.1 hc with hc | hc
    · exact Schema.mem_decls_of_leads (enter_mem_step_iff.1 hc) hd
    · exact I.declared c (List.mem_cons_of_mem _ hc)
  · rw [mem_useUp, not_and, not_ne_iff] at hn
    by_cases hu : c.name ∈ unused
    · rw [Schema.eq_of_name_eq hs hc hd (hn hu)]
      exact hself
    · exact hold c (I.used c hc hu)
  · exact (I.roots f hf).mono hself hold fun _ h => List.mem_append_right _ h
  · rcases List.mem_cons.1 ((hmem c).1 hc) with rfl | hc
    · exact Or.inr (List.mem_append_left _ (enter_mem_step_iff.2 hl))
    · exact (I.closed c hc c' hl).mono hself hold fun _ h => List.mem_append_right _ h

/-- A name that is used up stands for a declaration that has been entered. -/
theorem Inv.skip {d : Decl} (hd : d.name ∉ unused)
    (I : Inv s visit roots unused visited (.enter d :: tasks)) :
    Inv s visit roots unused visited tasks := by
  have hself : d ∈ entered visited tasks := I.used d (I.declared d (List.mem_cons_self ..)) hd
  exact ⟨fun c hc => I.declared c (List.mem_cons_of_mem _ hc), I.used,
    fun f hf => (I.roots f hf).mono hself (fun _ h => h) fun _ h => h,
    fun c hc c' hl => (I.closed c hc c' hl).mono hself (fun _ h => h) fun _ h => h⟩

/-- **Nothing that can be reached is missing** at the end of a walk. -/
theorem run_complete (hs : s.names.Nodup) (I : Inv s visit roots unused visited tasks) {d : Decl}
    (hd : Reached s visit roots d) : d ∈ run s (fun _ d => visit d) unused visited tasks := by
  fun_induction run s (fun _ d => visit d) unused visited tasks with
  | case1 unused visited =>
    induction hd with
    | root hf => simpa [Due] using I.roots _ hf
    | step _ hl ih => simpa [Due] using I.closed _ (by simpa using ih) _ hl
  | case2 unused visited m tasks ih => exact ih I.leave
  | case3 unused visited d tasks h _ step ih => exact ih (I.enter hs)
  | case4 unused visited d tasks h ih => exact ih (I.skip h)

end Walk

/-! ## Walks -/

namespace Schema

variable {s : Schema} {roots : List File}

theorem walk_names_nodup (s : Schema) (roots : List File) (visit : List Decl → Decl → Bool) :
    ((s.walk roots visit).map Decl.name).Nodup := by
  rw [walk, List.map_reverse, List.nodup_reverse]
  exact Walk.run_names_nodup s visit s.names [] _ (by simp) (by simp)

theorem reached_of_mem_walk {visit : Decl → Bool} {d : Decl}
    (h : d ∈ s.walk roots fun _ d => visit d) : Reached s visit roots d := by
  refine Walk.run_sound (fun _ _ => Reached.step) s.names [] (roots.map (.enter <| .file ·)) (by simp)
    (fun d hd => ?_) d (List.mem_reverse.1 h)
  obtain ⟨f, hf, h⟩ := List.mem_map.1 hd
  cases h
  exact .root hf

theorem mem_walk_iff (hs : s.names.Nodup) (hroots : ∀ f ∈ roots, f ∈ s.files) {visit : Decl → Bool}
    {d : Decl} : d ∈ s.walk roots (fun _ d => visit d) ↔ Reached s visit roots d := by
  refine ⟨reached_of_mem_walk, fun hd => List.mem_reverse.2 (Walk.run_complete hs ?_ hd)⟩
  refine ⟨fun d hd => ?_, fun d hd hn => ?_, fun f hf => ?_, fun d hd => ?_⟩
  · obtain ⟨f, hf, h⟩ := List.mem_map.1 hd
    cases h
    exact file_mem_decls.2 (hroots f hf)
  · rw [names_eq] at hn
    exact absurd (List.mem_map_of_mem hd) hn
  · exact Or.inr (List.mem_map_of_mem hf)
  · simp at hd

theorem walk_nodup (s : Schema) (roots : List File) (visit : List Decl → Decl → Bool) :
    (s.walk roots visit).Nodup := (walk_names_nodup s roots visit).of_map _

end Schema

/-! ## What a unit collects -/

/-- Whether a type is the entry of a map. -/
def TypeDecl.isMapEntry : TypeDecl → Bool
  | .message m => m.mapEntry
  | .enum _ => false

theorem Decl.classType?_eq_some_iff {d : Decl} {t : TypeDecl} :
    d.classType? = some t ↔ d = .ofType t ∧ t.isMapEntry = false ∧ t.isStandard = false := by
  cases d with
  | file f => simp [classType?, eq_comm (b := ofType t)]
  | field f => simp [classType?, eq_comm (b := ofType t)]
  | enum e =>
    cases t with
    | enum e' =>
      by_cases h : e = e'
      · subst h
        simp [classType?, ofType, TypeDecl.isMapEntry, TypeDecl.isStandard, TypeDecl.fullName]
      · simp [classType?, ofType, h]
    | message m' => simp [classType?, ofType]
  | message m =>
    cases t with
    | enum e' => simp [classType?, ofType]
    | message m' =>
      by_cases h : m = m'
      · subst h
        simp [classType?, ofType, TypeDecl.isMapEntry, TypeDecl.isStandard, TypeDecl.fullName]
      · simp [classType?, ofType, h]

namespace Schema

variable {s : Schema} {roots : List File}

theorem mem_collect_iff_mem_walk {t : TypeDecl} :
    t ∈ s.collect roots ↔ .ofType t ∈ s.walk roots (fun _ d => s.descends d) ∧
      t.isMapEntry = false ∧ t.isStandard = false := by
  simp only [collect, List.mem_filterMap, Decl.classType?_eq_some_iff]
  constructor
  · rintro ⟨_, hd, rfl, ht⟩
    exact ⟨hd, ht⟩
  · rintro ⟨hd, ht⟩
    exact ⟨_, hd, rfl, ht⟩

/-- No two collected types share a full name. -/
theorem eq_of_mem_collect {t u : TypeDecl} (ht : t ∈ s.collect roots) (hu : u ∈ s.collect roots)
    (h : t.fullName = u.fullName) : t = u := by
  rw [mem_collect_iff_mem_walk] at ht hu
  have heq : Decl.ofType t = Decl.ofType u :=
    List.inj_on_of_nodup_map (walk_names_nodup s roots _) ht.1 hu.1 (by simpa using h)
  exact Decl.ofType_inj.1 heq

theorem reached_of_mem_collect {t : TypeDecl} (ht : t ∈ s.collect roots) :
    Reached s s.descends roots (.ofType t) :=
  reached_of_mem_walk (mem_collect_iff_mem_walk.1 ht).1

theorem mem_types_of_mem_collect (hroots : ∀ f ∈ roots, f ∈ s.files) {t : TypeDecl}
    (ht : t ∈ s.collect roots) : t ∈ s.types :=
  ofType_mem_decls.1 (mem_decls_of_reached hroots (reached_of_mem_collect ht))

/-- Where all names are distinct, a type is collected if it can be reached and is to have a class. -/
theorem mem_collect_iff (hs : s.names.Nodup) (hroots : ∀ f ∈ roots, f ∈ s.files) {t : TypeDecl} :
    t ∈ s.collect roots ↔
      Reached s s.descends roots (.ofType t) ∧ t.isMapEntry = false ∧ t.isStandard = false := by
  rw [mem_collect_iff_mem_walk, mem_walk_iff hs hroots]

theorem collect_nodup (s : Schema) (roots : List File) : (s.collect roots).Nodup := by
  refine (walk_nodup s roots _).filterMap fun d c t hd hc => ?_
  rw [Option.mem_def, Decl.classType?_eq_some_iff] at hd hc
  rw [hd.1, hc.1]

end Schema

/-! ## Computing a walk -/

section
variable {s : Schema} {visit : List Decl → Decl → Bool}

namespace Walk

/-- A walk of at most some number of steps, if these are enough. In contrast to `run` it can be computed
in a proof. -/
def runWithin (s : Schema) (visit : List Decl → Decl → Bool) :
    Nat → List String → List Decl → List Task → Option (List Decl)
  | _, _, visited, [] => some visited
  | 0, _, _, _ :: _ => none
  | steps + 1, unused, visited, .leave m :: tasks =>
    runWithin s visit steps unused (.message m :: visited) tasks
  | steps + 1, unused, visited, .enter d :: tasks =>
    if d.name ∈ unused then
      let step := enter s visit visited d
      runWithin s visit steps (useUp d.name unused) step.1 (step.2 ++ tasks)
    else runWithin s visit steps unused visited tasks

theorem run_of_runWithin {steps : Nat} {unused : List String} {visited visits : List Decl}
    {tasks : List Task} (h : runWithin s visit steps unused visited tasks = some visits) :
    run s visit unused visited tasks = visits := by
  fun_induction runWithin s visit steps unused visited tasks with
  | case1 steps unused visited => simpa [run] using h
  | case2 => cases h
  | case3 steps unused visited m tasks ih =>
    rw [run]
    exact ih h
  | case4 steps unused visited d tasks hd step ih =>
    rw [run, dif_pos hd]
    exact ih h
  | case5 steps unused visited d tasks hd ih =>
    rw [run, dif_neg hd]
    exact ih h

end Walk

namespace Schema

variable {roots : List File}

/-- The names that a walk of some number of steps visits. -/
theorem map_name_walk {names : List String} (steps : Nat)
    (h : (Walk.runWithin s visit steps s.names [] (roots.map (.enter <| .file ·))).map
      (·.reverse.map Decl.name) = some names) : (s.walk roots visit).map Decl.name = names := by
  obtain ⟨visits, hvisits, rfl⟩ := Option.map_eq_some_iff.1 h
  rw [walk, Walk.run_of_runWithin hvisits]

/-- The types that a walk of some number of steps collects. -/
theorem collect_eq_of_runWithin {types : List TypeDecl} (steps : Nat)
    (h : (Walk.runWithin s (fun _ d => s.descends d) steps s.names []
      (roots.map (.enter <| .file ·))).map (·.reverse.filterMap Decl.classType?) = some types) :
    s.collect roots = types := by
  obtain ⟨visits, hvisits, rfl⟩ := Option.map_eq_some_iff.1 h
  rw [collect, walk, Walk.run_of_runWithin hvisits]

end Schema
end

/-- **A walk is exact.** Where all names are distinct, a visitor that decides by the declaration is
shown each declaration of the least set that holds the roots and follows its steps once, and nothing
else. So the types of a unit are those that are reached when the walk stops at fields of a standard type,
less the map entries and the standard types, each once. -/
theorem walk_exact {s : Schema} (hs : s.names.Nodup) {roots : List File}
    (hroots : ∀ f ∈ roots, f ∈ s.files) (visit : Decl → Bool) :
    (s.walk roots fun _ d => visit d).Nodup ∧
    (∀ d, d ∈ s.walk roots (fun _ d => visit d) ↔ Reached s visit roots d) ∧
    (s.collect roots).Nodup ∧
    ∀ t, t ∈ s.collect roots ↔
      Reached s s.descends roots (.ofType t) ∧ t.isMapEntry = false ∧ t.isStandard = false := by
  refine ⟨s.walk_nodup roots _, fun d => ?_, s.collect_nodup roots, fun t => ?_⟩
  · exact Schema.mem_walk_iff hs hroots
  · exact Schema.mem_collect_iff hs hroots

/-- Orders with nested types and a map of prices, and amounts of money that refer back to an order. -/
def orderFiles : List Descriptor.File := [
  { name := "shop/order.proto"
    package := "shop"
    messages := [
      { name := "Order"
        fields := [
          { name := "lines", label := some 3, kind := some 11, typeName := some ".shop.Order.Line" },
          { name := "prices", label := some 3, kind := some 11,
            typeName := some ".shop.Order.PricesEntry" },
          { name := "status", kind := some 14, typeName := some ".shop.Order.Status" }]
        nested := [
          { name := "Line", fields := [{ name := "sku", kind := some 9 }] },
          { name := "PricesEntry"
            fields := [
              { name := "key", kind := some 9 },
              { name := "value", kind := some 11, typeName := some ".money.Amount" }]
            mapEntry := true }]
        enums := [{ name := "Status", values := [{ name := "OPEN" }, { name := "CLOSED" }] }] }] },
  { name := "money.proto"
    package := "money"
    messages := [
      { name := "Amount"
        fields := [
          { name := "units", kind := some 3 },
          { name := "order", kind := some 11, typeName := some ".shop.Order" }] }] }]

theorem build_orderFiles : Schema.build orderFiles {} = .ok (.ofDescriptors orderFiles {}) :=
  Schema.build_eq_ok_iff.2 ⟨rfl, by decide +kernel⟩

theorem names_nodup_orderFiles : (Schema.ofDescriptors orderFiles {}).names.Nodup := by decide +kernel

theorem roots_orderFiles : ∀ f ∈ (Schema.ofDescriptors orderFiles {}).files.take 1,
    f ∈ (Schema.ofDescriptors orderFiles {}).files := fun _ hf => List.mem_of_mem_take hf

/-- The order in `orderFiles`, with a list of lines, a map of prices and a status. -/
def orderMessage : Message :=
  let c : FileContext := ⟨"shop/order.proto", "shop", .proto2, [], {}⟩
  (Message.ofDescriptors c c.scope [4] 0 (orderFiles.head (by simp [orderFiles])).messages).head
    (by simp [orderFiles, Message.ofDescriptors])

theorem orderMessage_mem_types : .message orderMessage ∈ (Schema.ofDescriptors orderFiles {}).types := by
  decide +kernel

/-- The types of the unit of the orders. The amount of money belongs to another package. -/
theorem collect_orderFiles :
    let s := Schema.ofDescriptors orderFiles {}
    s.collect (s.files.take 1) = [s.types[1], s.types[2], s.types[4], s.types[0]] :=
  Schema.collect_eq_of_runWithin 40 (by decide +kernel)

theorem walk_exact_orders :
    let s := Schema.ofDescriptors orderFiles {}
    let roots := s.files.take 1
    let visit := fun d : Decl => d.name != "shop.Order.PricesEntry.value"
    let visited := ["shop/order.proto", "shop.Order.Status", "shop.Order.Line.sku", "shop.Order.Line",
      "shop.Order.PricesEntry.key", "shop.Order.PricesEntry.value", "shop.Order.PricesEntry",
      "shop.Order.lines", "shop.Order.prices", "shop.Order.status", "shop.Order"]
    s.names.Nodup ∧ (∀ f ∈ roots, f ∈ s.files) ∧
    (s.walk roots fun _ d => visit d).map Decl.name = visited ∧
    (∀ d, Reached s visit roots d → d.name ∈ visited) ∧
    (s.collect roots).map (·.fullName) =
      ["shop.Order.Status", "shop.Order.Line", "money.Amount", "shop.Order"] ∧
    Reached s s.descends roots (.ofType s.types[4]) := by
  intro s roots visit visited
  have hvisited : (s.walk roots fun _ d => visit d).map Decl.name = visited :=
    Schema.map_name_walk 40 (by decide +kernel)
  have hcollect : s.collect roots = [s.types[1], s.types[2], s.types[4], s.types[0]] := collect_orderFiles
  obtain ⟨-, hwalk, -, hcollected⟩ := walk_exact names_nodup_orderFiles roots_orderFiles visit
  refine ⟨names_nodup_orderFiles, roots_orderFiles, hvisited, fun d hd => ?_, ?_, ?_⟩
  · rw [← hvisited]
    exact List.mem_map_of_mem ((hwalk d).2 hd)
  · rw [hcollect]
    decide +kernel
  · have hamount : s.types[4] ∈ s.collect roots := by simp [hcollect]
    exact ((hcollected _).1 hamount).1

end ProtoModels
