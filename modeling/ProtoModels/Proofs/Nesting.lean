import ProtoModels.Proofs.PackageTree
/-!
# Classes are nested as the schema nests

Where no two types of a schema share a full name, the class tree of a package repeats the nesting of the
schema (`packageTree_showsNesting`): the class of a nested type stands in the class of its message,
which is a mere scope if the message itself is not part of the unit; all else stands at the top level,
or in the scope of its own package.

The argument is about class paths only. The class path of a nested type is that of its message and one
more name (`ClassNames.segments_resolve_of_mem_inner`), and what stands below the class of a type has a
local path through this type (`Schema.exists_message_of_localPath`), so nothing stands below an enum.
-/
namespace ProtoModels

/-! ## Class paths of nested types -/

namespace ClassNames

variable {files : List Descriptor.File} {rules : RuleIndex} {s : Schema}

/-- A nested type has the class path of its message, and then its own name. -/
theorem segments_resolve_of_mem_inner (h : Schema.build files rules = .ok s) (names : ClassNames)
    {m : Message} (hm : .message m ∈ s.types) {t : TypeDecl} (ht : t ∈ m.inner) :
    (names.resolve t).segments = (names.resolve (.message m)).segments ++ [t.name] := by
  obtain ⟨hpackage, hpath, _⟩ := Schema.localPath_of_mem_inner h hm ht
  rw [segments_resolve, segments_resolve, hpackage, hpath, List.append_assoc]
  rfl

/-- A type at the top level of a file has the scope of the file's package in front of its name. -/
theorem segments_resolve_of_mem_topLevel (h : Schema.build files rules = .ok s) (names : ClassNames)
    {f : File} (hf : f ∈ s.files) {t : TypeDecl} (ht : t ∈ f.topLevel) :
    (names.resolve t).segments = (names.scope? f.package).toList ++ [t.name] := by
  obtain ⟨c, hc, hpackage, henclosing, _⟩ := Schema.standsIn_topLevel h hf ht
  rw [segments_resolve, TypeDecl.localPath, hpackage, henclosing, hc]
  rfl

end ClassNames

/-! ## The tree of a package -/

/-- A class tree that nests the collected types as the schema does. -/
structure ClassTree.ShowsNesting (tree : ClassTree TypeDecl) (s : Schema) (target : String)
    (collected : List TypeDecl) : Prop where
  /-- Every collected type has one class, at its class path, and no other type has one. -/
  placed : ∀ path d, (∃ node, tree.find? path = some node ∧ node.decl = some d) ↔
    d ∈ collected ∧ path = ((ClassNames.ofPackage s target).resolve d).segments
  /-- A nested type stands in the class of its message, which carries the message if this is collected
  and nothing otherwise. -/
  nested : ∀ m, .message m ∈ s.types → ∀ d ∈ m.inner, d ∈ collected →
    ∃ outer, tree.find? ((ClassNames.ofPackage s target).resolve (.message m)).segments = some outer ∧
      (∃ node ∈ outer.children, node.decl = some d) ∧
      outer.decl = if .message m ∈ collected then some (.message m) else none
  /-- A type at the top level of the package itself stands on its own. -/
  own : ∀ f ∈ s.files, f.package = target → ∀ d ∈ f.topLevel, d ∈ collected →
    ∃ node ∈ tree.root.children, node.decl = some d
  /-- A type at the top level of another package stands in the scope of this package. -/
  foreign : ∀ f ∈ s.files, f.package ≠ target → ∀ d ∈ f.topLevel, d ∈ collected →
    ∃ segment scope, (ClassNames.ofPackage s target).scope? f.package = some segment ∧
      tree.find? [segment] = some scope ∧ (scope ∈ tree.root.children ∧ scope.name = segment) ∧
      ∃ node ∈ scope.children, node.decl = some d
  /-- The scope of a package carries no type. -/
  scopes : ∀ package segment, (ClassNames.ofPackage s target).scope? package = some segment →
    ∀ scope, tree.find? [segment] = some scope → scope.decl = none
  /-- Nothing stands in the class of an enum. -/
  enums : ∀ path node e, tree.find? path = some node → node.decl = some (.enum e) → node.children = []

namespace Schema

variable {files : List Descriptor.File} {rules : RuleIndex} {s : Schema} {target : String}

/-- A type is known by its full name where full names do not repeat. -/
theorem eq_of_fullName (hnames : (s.types.map (·.fullName)).Nodup) {t u : TypeDecl} (ht : t ∈ s.types)
    (hu : u ∈ s.types) (h : t.fullName = u.fullName) : t = u :=
  List.inj_on_of_nodup_map hnames ht hu h

/-- No class path goes through the class path of an enum. -/
theorem not_resolve_below_enum (h : build files rules = .ok s)
    (hnames : (s.types.map (·.fullName)).Nodup) {e : Enum} (he : .enum e ∈ s.types) {u : TypeDecl}
    (hu : u ∈ s.types) {rest : List String} (hrest : rest ≠ []) :
    ((ClassNames.ofPackage s target).resolve (.enum e)).segments ++ rest ≠
      ((ClassNames.ofPackage s target).resolve u).segments := by
  intro heq
  obtain ⟨hpackage, hpath⟩ := ClassNames.localPath_append_of_resolve h he hu heq
  obtain ⟨m, hm, hpackage', hpath'⟩ :=
    exists_message_of_localPath h u hu _ _ hpath.symm (TypeDecl.localPath_ne_nil _) hrest
  have hname : (TypeDecl.message m).fullName = (TypeDecl.enum e).fullName := by
    have hsame : (TypeDecl.message m).package = (TypeDecl.enum e).package :=
      hpackage'.trans hpackage.symm
    rw [fullName_eq_foldl h _ hm, fullName_eq_foldl h _ he, hpath', hsame]
  cases eq_of_fullName hnames hm he hname

/-- The scope of a package is the class path of no type. -/
theorem resolve_ne_scope (h : build files rules = .ok s) {package segment : String}
    (hscope : (ClassNames.ofPackage s target).scope? package = some segment) {t : TypeDecl}
    (ht : t ∈ s.types) : ((ClassNames.ofPackage s target).resolve t).segments ≠ [segment] := by
  intro heq
  rw [ClassNames.segments_resolve] at heq
  by_cases hpackage : t.package = target
  · rw [hpackage, ClassNames.scope?_target] at heq
    exact ClassNames.localPath_ne_scope h ht hpackage hscope heq
  · obtain ⟨segment', hsegment⟩ :=
      ClassNames.exists_scope? (package_mem_of_mem_types h t ht) hpackage
    rw [hsegment] at heq
    exact t.localPath_ne_nil (List.cons.inj heq).2

end Schema

namespace ClassTree

variable {files : List Descriptor.File} {rules : RuleIndex} {s : Schema} {target : String}
  {collected : List TypeDecl} {tree : ClassTree TypeDecl}

/-- The class of a collected type, and the class around it. -/
theorem Holds.exists_outer (h : tree.Holds ((ClassNames.ofPackage s target).entries collected))
    {d : TypeDecl} (hd : d ∈ collected) {outer : List String} {name : String}
    (hpath : ((ClassNames.ofPackage s target).resolve d).segments = outer ++ [name]) :
    ∃ o, tree.find? outer = some o ∧ ∃ node ∈ o.children, node.decl = some d := by
  obtain ⟨node, hfind, hdecl⟩ := h.exists_find?_iff.2 (ClassNames.mem_entries.2 ⟨hd, rfl⟩)
  rw [hpath] at hfind
  obtain ⟨o, ho, hnode⟩ := ClassNode.exists_parent_of_find? hfind
  exact ⟨o, ho, node, hnode, hdecl⟩

theorem Holds.decl_eq_none (h : tree.Holds ((ClassNames.ofPackage s target).entries collected))
    {path : List String} {node : ClassNode TypeDecl} (hfind : tree.find? path = some node)
    (hpath : ∀ t ∈ collected, ((ClassNames.ofPackage s target).resolve t).segments ≠ path) :
    node.decl = none := by
  refine Option.eq_none_iff_forall_ne_some.2 fun d hd => ?_
  obtain ⟨ht, heq⟩ := ClassNames.mem_entries.1 (h.exists_find?_iff.1 ⟨node, hfind, hd⟩)
  exact hpath d ht heq.symm

/-- **A tree of collected types nests them as the schema does**, if full names do not repeat. -/
theorem Holds.showsNesting (h : tree.Holds ((ClassNames.ofPackage s target).entries collected))
    (hbuild : Schema.build files rules = .ok s) (hnames : (s.types.map (·.fullName)).Nodup)
    (hcollected : ∀ t ∈ collected, t ∈ s.types) : tree.ShowsNesting s target collected where
  placed path d := by rw [h.exists_find?_iff, ClassNames.mem_entries]
  nested m hm d hd hdc := by
    obtain ⟨o, ho, hnode⟩ :=
      h.exists_outer hdc (ClassNames.segments_resolve_of_mem_inner hbuild _ hm hd)
    refine ⟨o, ho, hnode, ?_⟩
    split
    · rename_i hmc
      obtain ⟨o', ho', hdecl⟩ := h.exists_find?_iff.2 (ClassNames.mem_entries.2 ⟨hmc, rfl⟩)
      rwa [Option.some_inj.1 (ho.symm.trans ho')]
    · rename_i hmc
      refine h.decl_eq_none ho fun t ht heq => hmc ?_
      have hname := ClassNames.fullName_eq_of_resolve hbuild (hcollected t ht) hm heq
      exact Schema.eq_of_fullName hnames (hcollected t ht) hm hname ▸ ht
  own f hf hpackage d hd hdc := by
    have hpath := ClassNames.segments_resolve_of_mem_topLevel hbuild (.ofPackage s target) hf hd
    rw [hpackage, ClassNames.scope?_target] at hpath
    have hpath : ((ClassNames.ofPackage s target).resolve d).segments = [] ++ [d.name] := hpath
    obtain ⟨o, ho, hnode⟩ := h.exists_outer hdc hpath
    obtain rfl : tree.root = o := by simpa [find?] using ho
    exact hnode
  foreign f hf hpackage d hd hdc := by
    obtain ⟨segment, hsegment⟩ :=
      ClassNames.exists_scope? (s := s) (List.mem_map_of_mem hf) hpackage
    have hpath := ClassNames.segments_resolve_of_mem_topLevel hbuild (.ofPackage s target) hf hd
    rw [hsegment] at hpath
    obtain ⟨scope, hfind, hnode⟩ := h.exists_outer hdc hpath
    have hscope : tree.root.find? ([] ++ [segment]) = some scope := hfind
    obtain ⟨root, hroot, hmem⟩ := ClassNode.exists_parent_of_find? hscope
    obtain rfl : tree.root = root := by simpa using hroot
    exact ⟨segment, scope, hsegment, hfind, ⟨hmem, ClassNode.name_of_find? hscope⟩, hnode⟩
  scopes package segment hsegment scope hscope :=
    h.decl_eq_none hscope fun t ht => Schema.resolve_ne_scope hbuild hsegment (hcollected t ht)
  enums path node e hfind hdecl := by
    obtain ⟨he, rfl⟩ := ClassNames.mem_entries.1 (h.exists_find?_iff.1 ⟨node, hfind, hdecl⟩)
    refine List.eq_nil_iff_forall_not_mem.2 fun c hc => ?_
    have hinner := h.distinct.find?_inner hfind hc
    obtain ⟨⟨path, u⟩, hu, rest, hrest⟩ :=
      (h.find?_iff _ (by simp)).1 (Option.isSome_iff_exists.2 ⟨c, hinner⟩)
    obtain ⟨hu', rfl⟩ := ClassNames.mem_entries.1 hu
    rw [List.append_assoc] at hrest
    exact Schema.not_resolve_below_enum hbuild hnames (hcollected _ he) (hcollected u hu') (by simp) hrest

end ClassTree

/-- **Classes are nested as the schema nests.** Where no two types of a built schema share a full name,
every package has a class tree, and the tree nests what is collected as the schema does. -/
theorem packageTree_showsNesting {files : List Descriptor.File} {rules : RuleIndex} {s : Schema}
    (h : Schema.build files rules = .ok s) (hnames : (s.types.map (·.fullName)).Nodup)
    {roots : List File} (hroots : ∀ f ∈ roots, f ∈ s.files) (target : String) :
    ∃ tree, s.packageTree target roots = .ok tree ∧
      tree.ShowsNesting s target (s.collect roots) := by
  obtain ⟨tree, htree, hholds⟩ := Schema.packageTree_holds h hroots target
  refine ⟨tree, htree, hholds.showsNesting h hnames fun t ht => ?_⟩
  exact Schema.mem_types_of_mem_collect hroots ht

/-- A crate with a lid and a colour, and a shop that refers to the lid and the colour of its crates, but
not to a crate. -/
def crateFiles : List Descriptor.File := [
  { name := "crate.proto"
    package := "store.crate"
    messages := [
      { name := "Crate"
        nested := [{ name := "Lid", nested := [{ name := "Hinge" }] }]
        enums := [{ name := "Colour", values := [{ name := "RED" }] }] }] },
  { name := "shop.proto"
    package := "shop"
    messages := [
      { name := "Shop"
        fields := [
          { name := "lid", kind := some 11, typeName := some ".store.crate.Crate.Lid" },
          { name := "colour", kind := some 14, typeName := some ".store.crate.Crate.Colour" }]
        nested := [{ name := "Shelf" }] }] }]

theorem packageTree_showsNesting_crates :
    let s := Schema.ofDescriptors crateFiles {}
    let roots := s.files.drop 1
    Schema.build crateFiles {} = .ok s ∧ (s.types.map (·.fullName)).Nodup ∧ (∀ f ∈ roots, f ∈ s.files) ∧
    (s.collect roots).map (·.fullName) =
      ["shop.Shop.Shelf", "store.crate.Crate.Lid.Hinge", "store.crate.Crate.Lid",
        "store.crate.Crate.Colour", "shop.Shop"] ∧
    ∃ tree, s.packageTree "shop" roots = .ok tree ∧
      ∃ crate, tree.find? ["storecrate", "Crate"] = some crate ∧ crate.decl = none ∧
        ∃ lid ∈ crate.children, lid.decl.map (·.fullName) = some "store.crate.Crate.Lid" := by
  intro s roots
  have hbuild : Schema.build crateFiles {} = .ok s :=
    Schema.build_eq_ok_iff.2 ⟨rfl, by decide +kernel⟩
  have hnames : (s.types.map (·.fullName)).Nodup := by decide +kernel
  have hroots : ∀ f ∈ roots, f ∈ s.files := fun f hf => List.mem_of_mem_drop hf
  have hcollect : s.collect roots = [s.types[5], s.types[3], s.types[2], s.types[1], s.types[4]] :=
    Schema.collect_eq_of_runWithin 40 (by decide +kernel)
  obtain ⟨crate, hcrate, hlid⟩ : ∃ m, s.types[0] = .message m ∧ s.types[2] ∈ m.inner :=
    ⟨_, rfl, by decide +kernel⟩
  obtain ⟨tree, htree, hshows⟩ := packageTree_showsNesting hbuild hnames hroots "shop"
  obtain ⟨node, hfind, ⟨lid, hmem, hdecl⟩, hnone⟩ := hshows.nested crate
    (hcrate ▸ List.getElem_mem _) s.types[2] hlid (by simp [hcollect])
  have hmissing : .message crate ∉ s.collect roots := by
    rw [hcollect, ← hcrate]
    decide +kernel
  rw [if_neg hmissing] at hnone
  have hpath : ((ClassNames.ofPackage s "shop").resolve (.message crate)).segments =
      ["storecrate", "Crate"] := by
    rw [← hcrate]
    decide +kernel
  rw [hpath] at hfind
  refine ⟨hbuild, hnames, hroots, ?_, tree, htree, node, hfind, hnone, lid, hmem, ?_⟩
  · rw [hcollect]
    decide +kernel
  · rw [hdecl]
    decide +kernel

end ProtoModels
