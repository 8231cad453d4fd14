import ProtoModels.Proofs.Graph.WellFormed
import ProtoModels.Proofs.Schema.VisitOrder
/-!
# Paths among the names of a walk

A walk knows what it has entered by name: a file by its path, all else by its full name. A path and a
full name can be the same text, since the message `proto` of a package `a` has the name that a file
`a.proto` has. Of two declarations of one name only the first is entered, so the file hides the message,
and with it all that is declared in it (`walk_hides_message`).

What a visited declaration leads to is visited itself, or hidden by another one of its name
(`Schema.exists_mem_walk_of_leads`). Where full names are distinct this other one is a file, and a root
(`Schema.mem_walk_iff_exists_leads`). So a walk is complete exactly if no root has the name of something
it reaches, and all walks are if no path is a full name (`declared_visited_iff`).
-/
namespace ProtoModels

/-! ## What a walk has seen -/

namespace Walk.Enters

variable {s : Schema} {visit : Decl → Bool} {ds : List Decl} {p p' : Progress} {d : Decl}

/-- A name that has been seen in the meantime is that of something visited. -/
theorem exists_visited_of_mem_seen (h : Enters s (fun _ d => visit d) ds p p') {name : String}
    (hname : name ∈ p'.seen) : name ∈ p.seen ∨ ∃ d ∈ p'.visited, d.name = name := by
  induction h with
  | done => exact Or.inl hname
  | seen _ _ ih => exact ih hname
  | @message m ds p p₁ p' _ _ h ihBelow ih =>
    rcases ih hname with hname | hvisited
    · rcases ihBelow hname with hname | ⟨d, hd, rfl⟩
      · rcases List.mem_cons.1 hname with rfl | hname
        · exact Or.inr ⟨.message m, h.visited_suffix.subset (List.mem_cons_self ..), rfl⟩
        · exact Or.inl hname
      · exact Or.inr ⟨d, h.visited_suffix.subset (List.mem_cons_of_mem _ hd), rfl⟩
    · exact Or.inr hvisited
  | @other d ds p p₁ p' _ _ hbelow h ihBelow ih =>
    rcases ih hname with hname | hvisited
    · rcases ihBelow hname with hname | ⟨d', hd', rfl⟩
      · rcases List.mem_cons.1 hname with rfl | hname
        · have hself := hbelow.visited_suffix.trans h.visited_suffix
          exact Or.inr ⟨d, hself.subset (List.mem_cons_self ..), rfl⟩
        · exact Or.inl hname
      · exact Or.inr ⟨d', h.visited_suffix.subset hd', rfl⟩
    · exact Or.inr hvisited

/-- What is visited was to be entered, or something visited leads to it. -/
theorem mem_or_exists_leads (h : Enters s (fun _ d => visit d) ds p p') (hd : d ∈ p'.visited) :
    d ∈ p.visited ∨ d ∈ ds ∨ ∃ c ∈ p'.visited, Leads s visit c d := by
  induction h with
  | done => exact Or.inl hd
  | seen _ _ ih => exact (ih hd).imp_right (.imp_left (List.mem_cons_of_mem _))
  | @message m ds p p₁ p' _ _ h ihBelow ih =>
    have hlater := h.visited_suffix.subset
    rcases ih hd with hd | hd | hd
    · rcases List.mem_cons.1 hd with rfl | hd
      · exact Or.inr (Or.inl (List.mem_cons_self ..))
      · rcases ihBelow hd with hd | hd | ⟨c, hc, hl⟩
        · exact Or.inl hd
        · exact Or.inr (Or.inr ⟨_, hlater (List.mem_cons_self ..), mem_below_message_iff.1 hd⟩)
        · exact Or.inr (Or.inr ⟨c, hlater (List.mem_cons_of_mem _ hc), hl⟩)
    · exact Or.inr (Or.inl (List.mem_cons_of_mem _ hd))
    · exact Or.inr (Or.inr hd)
  | @other d' ds p p₁ p' hother _ hbelow h ihBelow ih =>
    have hlater := h.visited_suffix.subset
    have hself := hlater (hbelow.visited_suffix.subset (List.mem_cons_self ..))
    rcases ih hd with hd | hd | hd
    · rcases ihBelow hd with hd | hd | ⟨c, hc, hl⟩
      · rcases List.mem_cons.1 hd with rfl | hd
        · exact Or.inr (Or.inl (List.mem_cons_self ..))
        · exact Or.inl hd
      · exact Or.inr (Or.inr ⟨_, hself, (mem_answer_iff hother).1 hd⟩)
      · exact Or.inr (Or.inr ⟨c, hlater hc, hl⟩)
    · exact Or.inr (Or.inl (List.mem_cons_of_mem _ hd))
    · exact Or.inr (Or.inr hd)

/-- The first declaration to be entered is visited, unless its name has been seen. -/
theorem mem_visited_head (h : Enters s (fun _ d => visit d) (d :: ds) p p') (hnew : d.name ∉ p.seen) :
    d ∈ p'.visited := by
  cases h with
  | seen hseen => exact absurd hseen hnew
  | message _ _ h => exact h.visited_suffix.subset (List.mem_cons_self ..)
  | other _ _ hbelow h =>
    exact h.visited_suffix.subset (hbelow.visited_suffix.subset (List.mem_cons_self ..))

end Walk.Enters

/-! ## Full names -/

/-- The types and fields that a file declares, at any depth. -/
def File.decls (f : File) : List Decl := f.types.map .ofType ++ f.allFields.map .field

theorem Leads.ne_file {s : Schema} {visit : Decl → Bool} {d c : Decl} (h : Leads s visit d c) (f : File) :
    c ≠ .file f := by
  cases h <;> simp

namespace Schema

variable {s : Schema} {visit : Decl → Bool} {roots : List File} {c d : Decl} {f : File}

/-- The full names of all types and fields. -/
def fullNames (s : Schema) : List String :=
  s.types.map (·.fullName) ++ s.allFields.map (·.fullName)

theorem mem_fullNames_iff {name : String} :
    name ∈ s.fullNames ↔ ∃ f ∈ s.files, ∃ d ∈ f.decls, d.name = name := by
  simp only [fullNames, types, allFields, File.decls, List.mem_append, List.mem_map, List.mem_flatMap]
  constructor
  · rintro (⟨t, ⟨f, hf, ht⟩, rfl⟩ | ⟨field, ⟨f, hf, hfield⟩, rfl⟩)
    · exact ⟨f, hf, _, Or.inl ⟨t, ht, rfl⟩, Decl.name_ofType t⟩
    · exact ⟨f, hf, _, Or.inr ⟨field, hfield, rfl⟩, rfl⟩
  · rintro ⟨f, hf, _, ⟨t, ht, rfl⟩ | ⟨field, hfield, rfl⟩, rfl⟩
    · exact Or.inl ⟨t, ⟨f, hf, ht⟩, (Decl.name_ofType t).symm⟩
    · exact Or.inr ⟨field, ⟨f, hf, hfield⟩, rfl⟩

theorem ne_file_of_mem_decls (hd : d ∈ f.decls) (g : File) : d ≠ .file g := by
  rintro rfl
  simp [File.decls] at hd

/-- Where full names are distinct they tell types and fields apart. -/
theorem eq_of_fullName_eq (hnames : s.fullNames.Nodup) (hd : d ∈ s.decls) (hc : c ∈ s.decls)
    (hdfile : ∀ f, d ≠ .file f) (hcfile : ∀ f, c ≠ .file f) (h : d.name = c.name) : d = c := by
  let named : List Decl := s.types.map .ofType ++ s.allFields.map .field
  have hmap : s.fullNames = named.map Decl.name := by
    rw [fullNames, List.map_append, List.map_map, List.map_map]
    exact congrArg (· ++ _) (List.map_congr_left fun t _ => (Decl.name_ofType t).symm)
  have hmem : ∀ e ∈ s.decls, (∀ f, e ≠ .file f) → e ∈ named := by
    intro e he hfile
    rw [decls, List.append_assoc, List.mem_append] at he
    refine he.resolve_left fun he => ?_
    obtain ⟨f, _, rfl⟩ := List.mem_map.1 he
    exact hfile f rfl
  rw [hmap] at hnames
  exact List.inj_on_of_nodup_map hnames (hmem d hd hdfile) (hmem c hc hcfile) h

/-- Paths tell the files of a built schema apart. -/
theorem paths_nodup_of_build {files : List Descriptor.File} {rules : RuleIndex}
    (h : build files rules = .ok s) : (s.files.map (·.path)).Nodup := by
  rw [(build_eq_ok_iff.1 h).1, ofDescriptors, List.map_map]
  exact (Graph.keepFirst_nodup [] files).1

/-- What has the path of a file for a name is the file, if the path is no full name. -/
theorem eq_file_of_name_eq (hpaths : (s.files.map (·.path)).Nodup) (hf : f ∈ s.files)
    (hpath : f.path ∉ s.fullNames) (hd : d ∈ s.decls) (hname : d.name = f.path) : d = .file f := by
  simp only [decls, List.mem_append, List.mem_map] at hd
  rcases hd with (⟨g, hg, rfl⟩ | ⟨t, ht, rfl⟩) | ⟨field, hfield, rfl⟩
  · exact congrArg Decl.file (List.inj_on_of_nodup_map hpaths hg hf hname)
  · refine absurd (List.mem_append_left _ (List.mem_map.2 ⟨t, ht, ?_⟩)) hpath
    rw [← hname, Decl.name_ofType]
  · exact absurd (List.mem_append_right _ (List.mem_map.2 ⟨field, hfield, hname⟩)) hpath

/-! ## What is reached -/

/-- A file that is reached is a root. -/
theorem mem_roots_of_reached (h : Reached s visit roots (.file f)) : f ∈ roots := by
  cases h with
  | root hf => exact hf
  | step _ hl => exact absurd rfl (hl.ne_file f)

/-- A visitor that goes on everywhere reaches all that a root declares. -/
theorem reached_of_mem_decls (hf : f ∈ roots) (hd : d ∈ f.decls) :
    Reached s (fun _ => true) roots d := by
  have hinner : ∀ m, Reached s (fun _ => true) roots (.message m) → ∀ t ∈ m.inner,
      Reached s (fun _ => true) roots (.ofType t) := by
    intro m hm t ht
    simp only [Message.inner, List.mem_append, List.mem_map] at ht
    rcases ht with ⟨m', hm', rfl⟩ | ⟨e, he, rfl⟩
    · exact hm.step (.nestedMessage hm')
    · exact hm.step (.nestedEnum he)
  have htypes : ∀ m ∈ f.messages, ∀ t ∈ m.types, Reached s (fun _ => true) roots (.ofType t) :=
    fun m hm => Message.types_induction (P := fun t => Reached s (fun _ => true) roots (.ofType t))
      hinner m ((Reached.root hf).step (.fileMessage rfl hm))
  simp only [File.decls, List.mem_append, List.mem_map, File.mem_types, File.allFields,
    Message.mem_allFieldsOfList] at hd
  rcases hd with ⟨_, ⟨e, he, rfl⟩ | ⟨m, hm, ht⟩, rfl⟩ | ⟨field, ⟨m, hm, hfield⟩, rfl⟩
  · exact (Reached.root hf).step (.fileEnum rfl he)
  · exact htypes m hm _ ht
  · obtain ⟨m', hm', hfield⟩ := m.exists_owner_of_mem_allFields hfield
    exact (htypes m hm _ hm').step (.ownField hfield)

/-! ## What is visited -/

section
variable (hroots : ∀ f ∈ roots, f ∈ s.files)
include hroots

/-- What a walk visits, as the end of entering the roots. -/
theorem exists_enters_roots (visit : Decl → Bool) : ∃ p,
    Walk.Enters s (fun _ d => visit d) (roots.map .file) {} p ∧
      ∀ d, d ∈ s.walk roots (fun _ d => visit d) ↔ d ∈ p.visited := by
  have hdecls : ∀ d ∈ roots.map Decl.file, d ∈ s.decls := by simpa using hroots
  obtain ⟨p, hp⟩ := Walk.exists_enters s (fun _ d => visit d) {} (roots.map .file) hdecls
  refine ⟨p, hp, fun d => ?_⟩
  rw [walk_eq_of_enters hroots hp, List.mem_reverse]

/-- A root is visited, or hidden by another declaration of its name. -/
theorem exists_mem_walk_of_mem_roots (hf : f ∈ roots) :
    ∃ d ∈ s.walk roots (fun _ d => visit d), d.name = f.path := by
  obtain ⟨p, hp, hwalk⟩ := exists_enters_roots hroots visit
  have hseen : f.path ∈ p.seen := hp.name_mem_seen (.file f) (List.mem_map_of_mem hf)
  simpa [hwalk] using hp.exists_visited_of_mem_seen hseen

/-- What a visited declaration leads to is visited, or hidden by another declaration of its name. -/
theorem exists_mem_walk_of_leads (hc : c ∈ s.walk roots fun _ d => visit d) (hl : Leads s visit c d) :
    ∃ e ∈ s.walk roots (fun _ d => visit d), e.name = d.name := by
  obtain ⟨p, hp, hwalk⟩ := exists_enters_roots hroots visit
  have hseen := hp.leads_seen ((hwalk c).1 hc) (by simp) d hl
  simpa [hwalk] using hp.exists_visited_of_mem_seen hseen

/-- The walk came to what it visits from something it visits. -/
theorem exists_leads_of_mem_walk (hd : d ∈ s.walk roots fun _ d => visit d) (hfile : ∀ f, d ≠ .file f) :
    ∃ c ∈ s.walk roots (fun _ d => visit d), Leads s visit c d := by
  obtain ⟨p, hp, hwalk⟩ := exists_enters_roots hroots visit
  rcases hp.mem_or_exists_leads ((hwalk d).1 hd) with hd | hd | ⟨c, hc, hl⟩
  · simp at hd
  · obtain ⟨f, _, rfl⟩ := List.mem_map.1 hd
    exact absurd rfl (hfile f)
  · exact ⟨c, (hwalk c).2 hc, hl⟩

omit hroots in
/-- The first root is visited as the file that it is. -/
theorem file_mem_walk_cons (visit : Decl → Bool) (hroots : ∀ g ∈ f :: roots, g ∈ s.files) :
    .file f ∈ s.walk (f :: roots) fun _ d => visit d := by
  obtain ⟨p, hp, hwalk⟩ := exists_enters_roots hroots visit
  exact (hwalk _).2 (hp.mem_visited_head (by simp))

/-- **What hides a declaration.** Where full names are distinct, a type or a field is visited if something
visited leads to it and no visited file has its name for a path. -/
theorem mem_walk_iff_exists_leads (visit : Decl → Bool) (hnames : s.fullNames.Nodup)
    (hfile : ∀ f, d ≠ .file f) :
    d ∈ s.walk roots (fun _ d => visit d) ↔
      (∃ c ∈ s.walk roots (fun _ d => visit d), Leads s visit c d) ∧
        ∀ f, .file f ∈ s.walk roots (fun _ d => visit d) → f.path ≠ d.name := by
  have hdecls : ∀ e ∈ s.walk roots (fun _ d => visit d), e ∈ s.decls := fun e he =>
    mem_decls_of_reached hroots (reached_of_mem_walk he)
  constructor
  · refine fun hd => ⟨exists_leads_of_mem_walk hroots hd hfile, fun f hf hname => ?_⟩
    exact hfile f (List.inj_on_of_nodup_map (s.walk_names_nodup roots _) hd hf hname.symm)
  · rintro ⟨⟨c, hc, hl⟩, hpaths⟩
    obtain ⟨e, he, hname⟩ := exists_mem_walk_of_leads hroots hc hl
    have hefile : ∀ f, e ≠ .file f := by
      rintro f rfl
      exact hpaths f he hname
    rw [← eq_of_fullName_eq hnames (hdecls e he) (mem_decls_of_leads hl (hdecls c hc)) hefile hfile hname]
    exact he

/-- **When nothing is hidden.** Where full names are distinct, a walk visits all that is reached if and
only if the path of no root is the name of anything else that is reached. -/
theorem reached_subset_walk_iff (hnames : s.fullNames.Nodup) :
    (∀ d, Reached s visit roots d → d ∈ s.walk roots fun _ d => visit d) ↔
      ∀ f ∈ roots, ∀ d, Reached s visit roots d → d.name = f.path → d = .file f := by
  constructor
  · intro h f hf d hd hname
    exact List.inj_on_of_nodup_map (s.walk_names_nodup roots _) (h d hd) (h _ (.root hf)) hname
  · intro h d hd
    -- on the way to a declaration everything is visited, since only the path of a root could hide it
    induction hd with
    | root hf =>
      obtain ⟨e, he, hname⟩ := exists_mem_walk_of_mem_roots hroots hf
      rwa [h _ hf e (reached_of_mem_walk he) hname] at he
    | @step c d hc hl ih =>
      rw [mem_walk_iff_exists_leads hroots visit hnames hl.ne_file]
      refine ⟨⟨c, ih, hl⟩, fun f hf hname => ?_⟩
      have hroot := mem_roots_of_reached (reached_of_mem_walk hf)
      exact hl.ne_file f (h f hroot d (hc.step hl) hname.symm)

end
end Schema

/-- **When file paths hide nothing.** In a built schema with distinct full names, a walk visits a type or
a field if something it visits leads there and it has not visited a file whose path is this name; it visits
all that is reached if no root's path is the name of anything else that is reached. So with a visitor that
goes on everywhere, all that the roots declare is visited, whatever the roots, if and only if no file's path
is a full name. -/
theorem declared_visited_iff {files : List Descriptor.File} {rules : RuleIndex} {s : Schema}
    (h : Schema.build files rules = .ok s) (hnames : s.fullNames.Nodup) :
    (∀ roots : List File, (∀ f ∈ roots, f ∈ s.files) →
      let visits := s.walk roots fun _ _ => true
      (∀ d, (∀ f, d ≠ .file f) → (d ∈ visits ↔
        (∃ c ∈ visits, Leads s (fun _ => true) c d) ∧ ∀ f, .file f ∈ visits → f.path ≠ d.name)) ∧
      ((∀ d, Reached s (fun _ => true) roots d → d ∈ visits) ↔
        ∀ f ∈ roots, ∀ d, Reached s (fun _ => true) roots d → d.name = f.path → d = .file f)) ∧
    ((∀ roots : List File, (∀ f ∈ roots, f ∈ s.files) → ∀ f ∈ roots, ∀ d ∈ f.decls,
        d ∈ s.walk roots fun _ _ => true) ↔
      ∀ f ∈ s.files, f.path ∉ s.fullNames) := by
  refine ⟨fun roots hroots => ⟨fun d hfile => ?_, ?_⟩, ?_, fun hpaths roots hroots f hf d hd => ?_⟩
  · exact Schema.mem_walk_iff_exists_leads hroots (fun _ => true) hnames hfile
  · exact Schema.reached_subset_walk_iff hroots hnames
  · intro hall f hf hpath
    obtain ⟨g, hg, d, hd, hname⟩ := Schema.mem_fullNames_iff.1 hpath
    -- with the file as the first root its path is seen before what the other root declares
    have hroots : ∀ f' ∈ [f, g], f' ∈ s.files := by simp [hf, hg]
    have hvisited := hall [f, g] hroots g (by simp) d hd
    have hfile := Schema.file_mem_walk_cons (fun _ => true) hroots
    exact Schema.ne_file_of_mem_decls hd f
      (List.inj_on_of_nodup_map (s.walk_names_nodup _ _) hvisited hfile hname)
  · refine (Schema.reached_subset_walk_iff hroots hnames).2 (fun root hroot e he => ?_) d
      (Schema.reached_of_mem_decls hf hd)
    exact Schema.eq_file_of_name_eq (Schema.paths_nodup_of_build h) (hroots root hroot)
      (hpaths root (hroots root hroot)) (Schema.mem_decls_of_reached hroots he)

theorem declared_visited_iff_orders :
    let s := Schema.ofDescriptors orderFiles {}
    Schema.build orderFiles {} = .ok s ∧ s.fullNames.Nodup ∧
    (∀ f ∈ s.files, f.path ∉ s.fullNames) ∧
    ∀ roots : List File, (∀ f ∈ roots, f ∈ s.files) → ∀ f ∈ roots, ∀ d ∈ f.decls,
      d ∈ s.walk roots fun _ _ => true := by
  intro s
  have hnames : s.fullNames.Nodup := by decide +kernel
  have hpaths : ∀ f ∈ s.files, f.path ∉ s.fullNames := by decide +kernel
  exact ⟨build_orderFiles, hnames, hpaths,
    (declared_visited_iff build_orderFiles hnames).2.2 hpaths⟩

/-- The message has the full name that the file has for a path. -/
def hidingFiles : List Descriptor.File := [
  { name := "a.proto", package := "a", messages := [{ name := "proto" }] }]

/-- A file can hide a message that it declares. -/
theorem walk_hides_message :
    let s := Schema.ofDescriptors hidingFiles {}
    Schema.build hidingFiles {} = .ok s ∧ s.fullNames.Nodup ∧ (s.files.map (·.path)).Nodup ∧
    ¬ ∀ roots : List File, (∀ f ∈ roots, f ∈ s.files) → ∀ f ∈ roots, ∀ d ∈ f.decls,
      d ∈ s.walk roots fun _ _ => true := by
  intro s
  refine ⟨Schema.build_eq_ok_iff.2 ⟨rfl, by decide +kernel⟩, by decide +kernel, by decide +kernel,
    fun hall => ?_⟩
  obtain ⟨file, message, hfile, hmessage, hpath⟩ : ∃ file message, s.files = [file] ∧
      .message message ∈ file.decls ∧ message.fullName = file.path :=
    ⟨_, _, rfl, List.mem_cons_self .., by decide +kernel⟩
  have hroots : ∀ f ∈ [file], f ∈ s.files := by simp [hfile]
  have hhidden := hall [file] hroots file (by simp) (.message message) hmessage
  have hhiding := Schema.file_mem_walk_cons (fun _ => true) hroots
  have heq : Decl.message message = .file file :=
    List.inj_on_of_nodup_map (s.walk_names_nodup _ _) hhidden hhiding hpath
  cases heq

end ProtoModels
