import ProtoModels.Proofs.Compile.FileOrder
import ProtoModels.Proofs.Schema.WalkBound
/-!
# Files that nothing leads to

One more file enlarges all that a schema looks things up in. What was known before is still known and
means the same (`Schema.Extends`), so a walk from the files that were there takes the way it took
(`Walk.Enters.congr`), the other packages get the scopes that they had, and the modules of packages other
than that of the new file stay as they are (`Schema.Extends.packageModule_eq`). So a file that is not
asked for changes no answer, if it is in a package that other files are in, too, and declares new types
(`compile_insert`).
-/
namespace ProtoModels

/-- A schema with more files. It gives the same answers about what is known in the smaller one, and what
stands at the top level of the files it adds is in one package. -/
structure Schema.Extends (s s' : Schema) (package : String) : Prop where
  files : s.files ⊆ s'.files
  file? : ∀ path f, s.file? path = some f → s'.file? path = some f
  target? : ∀ f ∈ s.allFields, s'.target? f = s.target? f
  topLevelNames : ∀ target, target ≠ package → s'.topLevelNames target = s.topLevelNames target
  packages : ∀ p, p ∈ s'.files.map (·.package) ↔ p ∈ s.files.map (·.package)

/-! ## Walks -/

/-- A walk asks a schema only about the declarations that it enters. -/
theorem Walk.Enters.congr {s s' : Schema} {visit visit' : List Decl → Decl → Bool} {ds : List Decl}
    {p p' : Progress} (h : Enters s visit ds p p') (hds : ∀ d ∈ ds, d ∈ s.decls)
    (hbelow : ∀ d ∈ s.decls, d.below s' = d.below s)
    (hvisit : ∀ visited, ∀ d ∈ s.decls, visit' visited d = visit visited d) :
    Enters s' visit' ds p p' := by
  induction h with
  | done => exact .done
  | seen hseen _ ih => exact .seen hseen (ih (List.forall_mem_cons.1 hds).2)
  | message hnew _ _ ihBelow ih =>
    rw [List.forall_mem_cons] at hds
    have hinner := ihBelow (below_subset_decls hds.1)
    rw [← hbelow _ hds.1] at hinner
    exact .message hnew hinner (ih hds.2)
  | other hother hnew _ _ ihBelow ih =>
    rw [List.forall_mem_cons] at hds
    have hinner := ihBelow (below_answer_subset_decls hds.1 _)
    rw [← hbelow _ hds.1, ← hvisit _ _ hds.1] at hinner
    exact .other hother hnew hinner (ih hds.2)

namespace Schema.Extends

variable {s s' : Schema} {package : String} (h : s.Extends s' package)
include h

theorem below_eq {d : Decl} (hd : d ∈ s.decls) : d.below s' = d.below s := by
  cases d with
  | field f =>
    have htarget := h.target? f (field_mem_decls.1 hd)
    rw [Decl.below, Decl.below, entryFields?_congr htarget, htarget]
  | _ => rfl

theorem descends_eq {d : Decl} (hd : d ∈ s.decls) : s'.descends d = s.descends d := by
  cases d with
  | field f => exact descends_congr (h.target? f (field_mem_decls.1 hd))
  | _ => rfl

/-- The files that were there lead to what they led to. -/
theorem collect_eq {roots : List File} (hroots : ∀ f ∈ roots, f ∈ s.files) :
    s'.collect roots = s.collect roots := by
  have hdecls : ∀ d ∈ roots.map Decl.file, d ∈ s.decls := by simpa using hroots
  obtain ⟨p, hp⟩ := Walk.exists_enters s (fun _ d => s.descends d) {} _ hdecls
  have hp' : Walk.Enters s' (fun _ d => s'.descends d) (roots.map .file) {} p :=
    hp.congr hdecls (fun d hd => h.below_eq hd) fun _ d hd => h.descends_eq hd
  rw [collect, collect, walk_eq_of_enters hroots hp,
    walk_eq_of_enters (fun f hf => h.files (hroots f hf)) hp']

/-! ## Modules -/

theorem ofPackage_eq {target : String} (htarget : target ≠ package) :
    ClassNames.ofPackage s' target = ClassNames.ofPackage s target := by
  have hforeign : s'.foreignPackages target = s.foreignPackages target :=
    sortedNames_congr fun p => by
      rw [List.mem_filter, List.mem_filter, h.packages]
  rw [ClassNames.ofPackage, ClassNames.ofPackage, hforeign, h.topLevelNames target htarget]

theorem writtenAlike {f : Field} (hf : f ∈ s.allFields) (names : ClassNames) :
    f.WrittenAlike s s' names :=
  ⟨fieldType_congr (h.target? f hf) (h.target? _ (valueField_mem_allFields hf)) names,
    isMap_congr (h.target? f hf)⟩

variable {files : List Descriptor.File} {rules : RuleIndex} (hs : build files rules = .ok s)
include hs

/-- **The module of another package stays as it is.** -/
theorem packageModule_eq (settings : Settings) {target : String} (htarget : target ≠ package)
    {roots : List File} (hroots : ∀ f ∈ roots, f ∈ s.files) :
    s'.packageModule settings target roots = s.packageModule settings target roots := by
  obtain ⟨tree, htree, hholds⟩ := packageTree_holds hs hroots target
  have htree' : s'.packageTree target roots = .ok tree := by
    rw [packageTree, h.collect_eq hroots, h.ofPackage_eq htarget]
    exact htree
  rw [Schema.packageModule_eq htree, Schema.packageModule_eq htree', h.ofPackage_eq htarget]
  refine congrArg _ (ModuleText.ofTree_congr fun n depth hn m hm f hf => ?_)
  have hcollect := (exists_body_message_iff hholds).1 ⟨n, depth, hn, hm⟩
  exact h.writtenAlike (mem_allFields_of_mem_collect hroots hcollect hf) _

theorem compileFiles_eq (settings : Settings) {requested : List File}
    (hrequested : ∀ f ∈ requested, f ∈ s.files ∧ f.package ≠ package) :
    s'.compileFiles settings requested = s.compileFiles settings requested := by
  rw [compileFiles, compileFiles]
  refine congrArg _ (mapM_congr fun target htarget => ?_)
  obtain ⟨f, hf, rfl⟩ := mem_requestedPackages.1 (List.mem_of_mem_filter htarget)
  rw [compilePackage, compilePackage, h.packageModule_eq hs settings (hrequested f hf).2
    fun g hg => (hrequested g (List.mem_of_mem_filter hg)).1]

end Schema.Extends

/-! ## One more file -/

/-- Only whether the names of the files have been seen counts. -/
theorem keepFirst_congr {seen seen' : List String} {ds : List Descriptor.File}
    (h : ∀ d ∈ ds, d.name ∈ seen' ↔ d.name ∈ seen) : keepFirst seen' ds = keepFirst seen ds := by
  induction ds generalizing seen seen' with
  | nil => rfl
  | cons d ds ih =>
    rw [List.forall_mem_cons] at h
    have hkept : keepFirst (d.name :: seen') ds = keepFirst (d.name :: seen) ds :=
      ih fun d' hd' => by rw [List.mem_cons, List.mem_cons, h.2 d' hd']
    rw [keepFirst, keepFirst, ih h.2, hkept]
    simp only [h.1]

/-- The name of every file is kept. -/
theorem exists_mem_keepFirst {d : Descriptor.File} {ds : List Descriptor.File} (hd : d ∈ ds)
    {seen : List String} (hseen : d.name ∉ seen) : ∃ d' ∈ keepFirst seen ds, d'.name = d.name := by
  induction ds generalizing seen with
  | nil => cases hd
  | cons e ds ih =>
    rw [keepFirst]
    by_cases hname : e.name = d.name
    · rw [if_neg (hname ▸ hseen)]
      exact ⟨e, List.mem_cons_self, hname⟩
    · have hrest : d ∈ ds := (List.mem_cons.1 hd).resolve_left fun heq => hname (congrArg _ heq.symm)
      split
      · exact ih hrest hseen
      · obtain ⟨d', hd', heq⟩ := ih hrest (List.not_mem_cons_of_ne_of_not_mem (Ne.symm hname) hseen)
        exact ⟨d', List.mem_cons_of_mem _ hd', heq⟩

/-- A file with a new name is kept where it stands, and so are the others. -/
theorem exists_keepFirst_insert {d : Descriptor.File} {before after : List Descriptor.File}
    (hnew : d.name ∉ (before ++ after).map (·.name)) {seen : List String} (hseen : d.name ∉ seen) :
    ∃ kept kept', keepFirst seen (before ++ after) = kept ++ kept' ∧
      keepFirst seen (before ++ d :: after) = kept ++ d :: kept' := by
  induction before generalizing seen with
  | nil =>
    refine ⟨[], keepFirst seen after, rfl, ?_⟩
    rw [List.nil_append, keepFirst, if_neg hseen, List.nil_append, keepFirst_congr]
    intro d' hd'
    have hne : d'.name ≠ d.name := fun heq => hnew (heq ▸ List.mem_map_of_mem hd')
    simp [hne]
  | cons b before ih =>
    rw [List.cons_append, List.map_cons, List.mem_cons, not_or] at hnew
    rw [List.cons_append, List.cons_append, keepFirst, keepFirst]
    split
    · exact ih hnew.2 hseen
    · have hseen' : d.name ∉ b.name :: seen := by simp [hnew.1, hseen]
      obtain ⟨kept, kept', h, h'⟩ := ih hnew.2 hseen'
      exact ⟨b :: kept, kept', congrArg _ h, congrArg _ h'⟩

namespace Schema

section
variable {fs gs : List File} {f : File}

theorem mem_types_insert {t : TypeDecl} :
    t ∈ (Schema.mk (fs ++ f :: gs)).types ↔ t ∈ (Schema.mk (fs ++ gs)).types ∨ t ∈ f.types := by
  simp only [types, List.mem_flatMap, List.mem_append, List.mem_cons]
  grind

theorem mem_allFields_insert {x : Field} :
    x ∈ (Schema.mk (fs ++ f :: gs)).allFields ↔
      x ∈ (Schema.mk (fs ++ gs)).allFields ∨ x ∈ f.allFields := by
  simp only [allFields, List.mem_flatMap, List.mem_append, List.mem_cons]
  grind

/-- A name that no type of the new file has means what it meant. -/
theorem type?_insert {name : String} (h : ∀ t ∈ f.types, t.fullName ≠ dropLeadingDot name) :
    (Schema.mk (fs ++ f :: gs)).type? name = (Schema.mk (fs ++ gs)).type? name := by
  have hnone : f.types.reverse.find? (·.fullName == dropLeadingDot name) = none := by
    rw [List.find?_eq_none]
    intro t ht
    simpa using h t (List.mem_reverse.1 ht)
  simp only [type?, List.findRev?_eq_find?_reverse, types, List.flatMap_append, List.flatMap_cons,
    List.reverse_append, List.find?_append, hnone, Option.or_none]

/-- A file with a new path is found in no other one's place. -/
theorem file?_insert {path : String} (h : f.path ≠ path) :
    (Schema.mk (fs ++ f :: gs)).file? path = (Schema.mk (fs ++ gs)).file? path := by
  simp [file?, List.find?_append, h]

/-- **A schema is extended** by a file with a new path and new types, in a package that it has. -/
theorem extends_insert (hpath : ∀ g ∈ fs ++ gs, f.path ≠ g.path)
    (hpackage : f.package ∈ (fs ++ gs).map (·.package))
    (htypes : ∀ t ∈ f.types, ∀ u ∈ (Schema.mk (fs ++ gs)).types, t.fullName ≠ u.fullName)
    (hresolved : (Schema.mk (fs ++ gs)).firstUnresolved? = none) :
    (Schema.mk (fs ++ gs)).Extends ⟨fs ++ f :: gs⟩ f.package where
  files g hg := by
    rw [List.mem_append] at hg ⊢
    exact hg.imp_right (List.mem_cons_of_mem f)
  file? path g hg := by
    have hfound := List.find?_some hg
    rw [beq_iff_eq] at hfound
    rw [file?_insert fun heq => hpath g (List.mem_of_find?_eq_some hg) (heq.trans hfound.symm)]
    exact hg
  target? x hx := by
    unfold target?
    split
    · -- the type that the field refers to is there, and has a name that no new type has
      rename_i hreference
      have hnone := List.find?_eq_none.1 hresolved x hx
      rw [hreference, Bool.true_and, Option.isNone_iff_eq_none, target?, if_pos hreference] at hnone
      obtain ⟨u, hu⟩ := Option.ne_none_iff_exists'.1 hnone
      obtain ⟨hmem, hname⟩ := mem_types_of_type? hu
      exact type?_insert fun t ht heq => htypes t ht u hmem (heq.trans hname.symm)
    · rfl
  topLevelNames target htarget := by
    have hother : (f.package == target) = false := beq_false_of_ne htarget.symm
    simp [topLevelNames, List.filter_append, hother]
  packages p := by
    simp only [List.mem_map, List.mem_append, List.mem_cons] at hpackage ⊢
    grind

/-- The references stay resolved if those of the new file are, too. -/
theorem firstUnresolved?_insert {package : String}
    (hextends : (Schema.mk (fs ++ gs)).Extends ⟨fs ++ f :: gs⟩ package)
    (hrefs : ∀ x ∈ f.allFields, x.kind.isReference = true →
      ∃ t ∈ (Schema.mk (fs ++ f :: gs)).types, t.fullName = dropLeadingDot (x.typeName.getD ""))
    (hresolved : (Schema.mk (fs ++ gs)).firstUnresolved? = none) :
    (Schema.mk (fs ++ f :: gs)).firstUnresolved? = none := by
  rw [firstUnresolved?, List.find?_eq_none] at hresolved ⊢
  intro x hx
  rcases mem_allFields_insert.1 hx with hx | hx
  · rw [hextends.target? x hx]
    exact hresolved x hx
  · by_cases hreference : x.kind.isReference = true
    · obtain ⟨t, ht, hname⟩ := hrefs x hx hreference
      have hsome := isSome_type?_of_mem ht hname
      rw [target?, if_pos hreference]
      simp [Option.isNone_iff_eq_none, Option.isSome_iff_ne_none.1 hsome]
    · simp [hreference]

end

end Schema

/-! ## Requests -/

/-- A file that is none of some files and that nothing in them leads to. The path and the types are new,
the package is that of one of the files, but of none that is requested, and what the fields refer to is
declared in the files or here. -/
structure Descriptor.File.IsUnreachable (d : Descriptor.File) (files : List Descriptor.File)
    (requested : List String) (rules : RuleIndex) : Prop where
  path : ∀ f ∈ files, f.name ≠ d.name
  package : ∃ f ∈ files, f.package = d.package
  unrequested : ∀ f ∈ files, f.name ∈ requested → f.package ≠ d.package
  types : ∀ t ∈ (File.ofDescriptor rules d).types, ∀ f ∈ files,
    ∀ u ∈ (File.ofDescriptor rules f).types, t.fullName ≠ u.fullName
  targets : ∀ x ∈ (File.ofDescriptor rules d).allFields, x.kind.isReference = true →
    ∃ f ∈ d :: files, ∃ t ∈ (File.ofDescriptor rules f).types,
      t.fullName = dropLeadingDot (x.typeName.getD "")

namespace Schema

section
variable {kept kept' : List Descriptor.File} {d : Descriptor.File} {requested : List String}
  {rules : RuleIndex} (hd : d.IsUnreachable (kept ++ kept') requested rules)
  (hresolved : (Schema.mk (kept.map (File.ofDescriptor rules) ++
    kept'.map (File.ofDescriptor rules))).firstUnresolved? = none)
include hd hresolved

theorem extends_of_isUnreachable :
    (Schema.mk (kept.map (File.ofDescriptor rules) ++ kept'.map (File.ofDescriptor rules))).Extends
      ⟨kept.map (File.ofDescriptor rules) ++
        File.ofDescriptor rules d :: kept'.map (File.ofDescriptor rules)⟩ d.package := by
  have hfiles : ∀ g ∈ kept.map (File.ofDescriptor rules) ++ kept'.map (File.ofDescriptor rules),
      ∃ e ∈ kept ++ kept', g = File.ofDescriptor rules e := by
    intro g hg
    rw [← List.map_append] at hg
    obtain ⟨e, he, rfl⟩ := List.mem_map.1 hg
    exact ⟨e, he, rfl⟩
  refine extends_insert (fun g hg heq => ?_) ?_ (fun t ht u hu => ?_) hresolved
  · obtain ⟨e, he, rfl⟩ := hfiles g hg
    exact hd.path e he heq.symm
  · obtain ⟨e, he, hpackage⟩ := hd.package
    rw [← List.map_append, List.map_map]
    exact List.mem_map.2 ⟨e, he, hpackage⟩
  · obtain ⟨g, hg, hu⟩ := mem_types.1 hu
    obtain ⟨e, he, rfl⟩ := hfiles g hg
    exact hd.types t ht e he u hu

theorem firstUnresolved?_of_isUnreachable :
    (Schema.mk (kept.map (File.ofDescriptor rules) ++
      File.ofDescriptor rules d :: kept'.map (File.ofDescriptor rules))).firstUnresolved? = none := by
  refine firstUnresolved?_insert (extends_of_isUnreachable hd hresolved) ?_ hresolved
  intro x hx hreference
  obtain ⟨e, he, t, ht, hname⟩ := hd.targets x hx hreference
  refine ⟨t, mem_types_insert.2 ?_, hname⟩
  rcases List.mem_cons.1 he with rfl | he
  · exact .inr ht
  · rw [← List.map_append]
    exact .inl (mem_types.2 ⟨_, List.mem_map_of_mem he, ht⟩)

end

/-- **A file can be added** to the files of a schema. -/
theorem exists_build_insert {before after : List Descriptor.File} {d : Descriptor.File}
    {requested : List String} {rules : RuleIndex} {s : Schema}
    (hd : d.IsUnreachable (keepFirst [] (before ++ after)) requested rules)
    (h : build (before ++ after) rules = .ok s) :
    ∃ s', build (before ++ d :: after) rules = .ok s' ∧ s.Extends s' d.package := by
  obtain ⟨rfl, hresolved⟩ := build_eq_ok_iff.1 h
  have hnew : d.name ∉ (before ++ after).map (·.name) := by
    intro hmem
    obtain ⟨e, he, hname⟩ := List.mem_map.1 hmem
    obtain ⟨e', he', hname'⟩ := exists_mem_keepFirst he List.not_mem_nil
    exact hd.path e' he' (hname'.trans hname)
  obtain ⟨kept, kept', hkept, hkept'⟩ := exists_keepFirst_insert hnew List.not_mem_nil
  have hs : ofDescriptors (before ++ after) rules =
      ⟨kept.map (File.ofDescriptor rules) ++ kept'.map (File.ofDescriptor rules)⟩ := by
    rw [ofDescriptors, hkept, List.map_append]
  have hs' : ofDescriptors (before ++ d :: after) rules = ⟨kept.map (File.ofDescriptor rules) ++
      File.ofDescriptor rules d :: kept'.map (File.ofDescriptor rules)⟩ := by
    rw [ofDescriptors, hkept', List.map_append, List.map_cons]
  rw [hkept] at hd
  rw [hs] at hresolved ⊢
  exact ⟨_, build_eq_ok_iff.2 ⟨hs'.symm, firstUnresolved?_of_isUnreachable hd hresolved⟩,
    extends_of_isUnreachable hd hresolved⟩

end Schema

/-- **A file that nothing leads to does not matter.** A request that is answered has the same answer
with one more file anywhere among its files, if this file is unreachable. What counts as a file of the
request is the first one with its path: another one is dropped with all that it declares. -/
theorem compile_insert {r : Descriptor.Request} {rules : RuleIndex} {output : List OutputFile}
    (h : r.compile rules = .ok output) {before after : List Descriptor.File}
    (hfiles : r.files = before ++ after) {d : Descriptor.File}
    (hd : d.IsUnreachable (keepFirst [] r.files) r.filesToGenerate rules) :
    ({ r with files := before ++ d :: after } : Descriptor.Request).compile rules = .ok output := by
  rw [Descriptor.Request.compile_eq_ok_iff] at h ⊢
  obtain ⟨settings, s, requested, hsettings, hs, hfound, houtput⟩ := h
  have hschema := (Schema.build_eq_ok_iff.1 hs).1
  have hunrequested := hd.unrequested
  rw [hfiles] at hs hd
  obtain ⟨s', hs', hextends⟩ := Schema.exists_build_insert hd hs
  refine ⟨settings, s', requested, hsettings, hs', ?_, ?_⟩
  · rw [mapM_eq_ok_iff] at hfound ⊢
    refine hfound.imp fun path f hf => ?_
    rw [Schema.requestedFile_eq_ok_iff] at hf ⊢
    exact hextends.file? path f hf
  · rw [hextends.compileFiles_eq hs settings]
    · exact houtput
    · intro f hf
      obtain ⟨hmem, hrequest⟩ := Schema.mem_of_mapM_requestedFile hfound f hf
      refine ⟨hmem, ?_⟩
      rw [hschema] at hmem
      obtain ⟨g, hg, rfl⟩ := List.mem_map.1 hmem
      exact hunrequested g hg hrequest

/-- A request for the orders' module, and returned amounts of money that nobody asks for. -/
theorem compile_insert_orders :
    let r : Descriptor.Request := { filesToGenerate := ["shop/order.proto"], files := orderFiles }
    let d : Descriptor.File := {
      name := "refund.proto"
      package := "money"
      messages := [
        { name := "Refund"
          fields := [{ name := "amount", kind := some 11, typeName := some ".money.Amount" }] }] }
    r.files = orderFiles.take 1 ++ orderFiles.drop 1 ∧
    d.IsUnreachable (keepFirst [] r.files) r.filesToGenerate {} ∧
    ∃ output, r.compile {} = .ok output ∧
      ({ r with files := orderFiles.take 1 ++ d :: orderFiles.drop 1 } : Descriptor.Request).compile {} =
        .ok output := by
  intro r d
  have hfiles : r.files = orderFiles.take 1 ++ orderFiles.drop 1 := (List.take_append_drop ..).symm
  have hd : d.IsUnreachable (keepFirst [] r.files) r.filesToGenerate {} :=
    ⟨by decide +kernel, by decide +kernel, by decide +kernel, by decide +kernel, by decide +kernel⟩
  obtain ⟨output, houtput⟩ : ∃ output, r.compile {} = .ok output :=
    Descriptor.Request.exists_compile_of_supported build_orderFiles
      (List.forall_mem_singleton.2 ⟨_, rfl⟩) (by decide +kernel)
  exact ⟨hfiles, hd, output, houtput, compile_insert houtput hfiles hd⟩

/-! ## Files that are dropped -/

/-- An order with a price. -/
def pricedOrder : Descriptor.File where
  name := "order.proto"
  package := "shop"
  messages := [
    { name := "Order"
      fields := [{ name := "price", kind := some 11, typeName := some ".money.Amount" }] }]

/-- The order, and a file of coins that is dropped, since amounts of money have its path. -/
def droppedFiles : List Descriptor.File := [
  pricedOrder,
  { name := "money.proto", package := "money", messages := [{ name := "Amount" }] },
  { name := "money.proto", package := "mo.ney", messages := [{ name := "Coin" }] }]

/-- A purse of dropped coins. -/
def coinPurse : Descriptor.File where
  name := "purse.proto"
  package := "money"
  messages := [
    { name := "Purse"
      fields := [{ name := "coin", kind := some 11, typeName := some ".mo.ney.Coin" }] }]

/-- An empty purse in the package of the coins. -/
def emptyPurse : Descriptor.File where
  name := "purse.proto"
  package := "mo.ney"
  messages := [{ name := "Purse" }]

/-- Output of a package comes from one source. -/
theorem Schema.packageModule_eq_of_compilePackage {s s' : Schema} {settings : Settings} {package : String}
    {roots roots' : List File} {output : List OutputFile}
    (h : s.compilePackage settings package roots = .ok output)
    (h' : s'.compilePackage settings package roots' = .ok output) :
    s'.packageModule settings package roots' = s.packageModule settings package roots := by
  obtain ⟨source, hsource, hfiles⟩ := map_eq_ok_iff.1 h
  obtain ⟨source', hsource', hfiles'⟩ := map_eq_ok_iff.1 h'
  have heq := (List.cons.inj (hfiles'.trans hfiles.symm)).1
  rw [hsource, hsource', (OutputFile.mk.inj heq).2]

/-- The only foreign package has the scope that it asks for. -/
theorem ofPackage_droppedFiles :
    ClassNames.ofPackage (.ofDescriptors droppedFiles {}) "shop" = ⟨[("money", "money")]⟩ := by
  have htaken : (Schema.ofDescriptors droppedFiles {}).topLevelNames "shop" = ["Order"] := by
    decide +kernel
  have hpackages : ((Schema.ofDescriptors droppedFiles {}).files.map (·.package)).filter (· ≠ "shop") =
      ["money"] := by decide +kernel
  have hforeign : sortedNames ["money"] = ["money"] :=
    sortedNames_eq (List.pairwise_singleton ..) fun _ => Iff.rfl
  have hbase : scopeBase "money" = "money" := by decide +kernel
  rw [ClassNames.ofPackage, htaken, Schema.foreignPackages, hpackages, hforeign, allotScopes, hbase,
    freeName, dif_neg (by decide), allotScopes]

/-- The package of an empty purse takes this scope. -/
theorem ofPackage_emptyPurse :
    ClassNames.ofPackage (.ofDescriptors (droppedFiles ++ [emptyPurse]) {}) "shop" =
      ⟨[("mo.ney", "money"), ("money", "money_")]⟩ := by
  have htaken : (Schema.ofDescriptors (droppedFiles ++ [emptyPurse]) {}).topLevelNames "shop" =
      ["Order"] := by decide +kernel
  have hpackages : ((Schema.ofDescriptors (droppedFiles ++ [emptyPurse]) {}).files.map
      (·.package)).filter (· ≠ "shop") = ["money", "mo.ney"] := by decide +kernel
  have hforeign : sortedNames ["money", "mo.ney"] = ["mo.ney", "money"] :=
    sortedNames_eq (by decide +kernel) fun name => by simp [or_comm]
  have hbase : scopeBase "mo.ney" = "money" ∧ scopeBase "money" = "money" := by decide +kernel
  have hfirst : freeName ["Order"] "money" = "money" := by rw [freeName, dif_neg (by decide)]
  have hsecond : freeName ["money", "Order"] "money" = "money_" := by
    rw [freeName, dif_pos (by decide), freeName, dif_neg (by decide)]
    rfl
  rw [ClassNames.ofPackage, htaken, Schema.foreignPackages, hpackages, hforeign, allotScopes, hbase.1,
    hfirst, allotScopes, hbase.2, hsecond, allotScopes]

/-- The request for the order is answered by what is written for its package. -/
theorem compile_order {files : List Descriptor.File} {s : Schema} (hs : Schema.build files {} = .ok s)
    {order : File} (horder : s.file? "order.proto" = some order) (hpackage : order.package = "shop") :
    ({ filesToGenerate := ["order.proto"], files := files } : Descriptor.Request).compile {} =
      s.compilePackage {} "shop" [order] := by
  let r : Descriptor.Request := { filesToGenerate := ["order.proto"], files := files }
  have hsettings : Settings.ofParameter "" = .ok {} := by decide +kernel
  have hfound : r.filesToGenerate.filterMap s.file? = [order] := by simp [r, horder]
  have hpaths : ∀ path ∈ r.filesToGenerate, ∃ f, s.file? path = some f :=
    List.forall_mem_singleton.2 ⟨order, horder⟩
  calc r.compile {} = s.compileFiles {} (r.filesToGenerate.filterMap s.file?) :=
        Descriptor.Request.compile_eq_compileFiles hsettings hs hpaths
    _ = s.compileFiles {} [order] := by rw [hfound]
    _ = s.compilePackage {} "shop" [order] :=
        Schema.compileFiles_eq_compilePackage (by simp) (List.forall_mem_singleton.2 hpackage) rfl

/-- The price of the order is of a class of another name. -/
theorem packageModule_emptyPurse :
    (Schema.ofDescriptors (droppedFiles ++ [emptyPurse]) {}).packageModule {} "shop"
        [.ofDescriptor {} pricedOrder] ≠
      (Schema.ofDescriptors droppedFiles {}).packageModule {} "shop" [.ofDescriptor {} pricedOrder] := by
  have hcollect : (Schema.ofDescriptors droppedFiles {}).collect [.ofDescriptor {} pricedOrder] =
      (Schema.ofDescriptors droppedFiles {}).types.reverse :=
    Schema.collect_eq_of_runWithin 20 (by decide +kernel)
  have hcollect' : (Schema.ofDescriptors (droppedFiles ++ [emptyPurse]) {}).collect
      [.ofDescriptor {} pricedOrder] = (Schema.ofDescriptors droppedFiles {}).types.reverse :=
    Schema.collect_eq_of_runWithin 20 (by decide +kernel)
  rw [Schema.packageModule, Schema.packageModule, Schema.packageTree, Schema.packageTree, hcollect,
    hcollect', ofPackage_droppedFiles, ofPackage_emptyPurse]
  decide +kernel

/-- **Dropped files do not count.** By all files of the request, the two purses are unreachable. The coins
that one of them holds are unknown, and the package of the other is new, which takes its scope from the
amounts of money. -/
theorem compile_insert_dropped :
    let r : Descriptor.Request := { filesToGenerate := ["order.proto"], files := droppedFiles }
    coinPurse.IsUnreachable r.files r.filesToGenerate {} ∧
    emptyPurse.IsUnreachable r.files r.filesToGenerate {} ∧
    ∃ output, r.compile {} = .ok output ∧
      (∀ output', ({ r with files := r.files ++ [coinPurse] } : Descriptor.Request).compile {} ≠
        .ok output') ∧
      ({ r with files := r.files ++ [emptyPurse] } : Descriptor.Request).compile {} ≠ .ok output := by
  intro r
  have hcoin : coinPurse.IsUnreachable r.files r.filesToGenerate {} :=
    ⟨by decide +kernel, by decide +kernel, by decide +kernel, by decide +kernel, by decide +kernel⟩
  have hempty : emptyPurse.IsUnreachable r.files r.filesToGenerate {} :=
    ⟨by decide +kernel, by decide +kernel, by decide +kernel, by decide +kernel, by decide +kernel⟩
  have hs : Schema.build droppedFiles {} = .ok (.ofDescriptors droppedFiles {}) :=
    Schema.build_eq_ok_iff.2 ⟨rfl, by decide +kernel⟩
  obtain ⟨output, houtput⟩ : ∃ output, r.compile {} = .ok output :=
    Descriptor.Request.exists_compile_of_supported hs (List.forall_mem_singleton.2 ⟨_, rfl⟩)
      (by decide +kernel)
  refine ⟨hcoin, hempty, output, houtput, fun output' houtput' => ?_, fun houtput' => ?_⟩
  · obtain ⟨_, s, _, _, hs, _, _⟩ := Descriptor.Request.compile_eq_ok_iff.1 houtput'
    obtain ⟨rfl, hresolved⟩ := Schema.build_eq_ok_iff.1 hs
    revert hresolved
    decide +kernel
  · have hs' : Schema.build (droppedFiles ++ [emptyPurse]) {} =
        .ok (.ofDescriptors (droppedFiles ++ [emptyPurse]) {}) :=
      Schema.build_eq_ok_iff.2 ⟨rfl, by decide +kernel⟩
    have horder : (Schema.ofDescriptors droppedFiles {}).file? "order.proto" =
        some (.ofDescriptor {} pricedOrder) := rfl
    have horder' : (Schema.ofDescriptors (droppedFiles ++ [emptyPurse]) {}).file? "order.proto" =
        some (.ofDescriptor {} pricedOrder) := rfl
    exact packageModule_emptyPurse (Schema.packageModule_eq_of_compilePackage
      ((compile_order hs horder rfl).symm.trans houtput)
      ((compile_order hs' horder' rfl).symm.trans houtput'))

end ProtoModels
