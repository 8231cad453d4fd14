import Mathlib.Data.Finset.Card
import Mathlib.Order.Bounds.Defs
import ProtoModels.Proofs.ClassPaths
import ProtoModels.Proofs.Compile.Basic
import ProtoModels.Proofs.Wire.ByteOrder
/-!
# How scopes are found

The search for a scope appends an underscore as long as the text is taken. `FreeSearch` is this loop,
turn by turn and with the taken texts left as they are; `freeName` finds what it finds
(`freeSearch_freeName`). The texts it tries differ in length, so every turn uses up another taken text
and there are no more turns than taken texts (`FreeSearch.steps_le`).

Scopes are handed out in the order of the packages, each found past the top-level names of the module
and the scopes before it (`freeSearch_of_allotScopes_eq`). So a word that does not end with an underscore
is the scope of the first package of this name, dots apart, unless a class has taken it
(`ClassNames.scope?_eq_plain_iff`).
-/
namespace ProtoModels

/-! ## Texts with underscores behind them -/

/-- A text with some underscores behind it. -/
def suffixed (name : String) (k : Nat) : String := name ++ String.ofList (List.replicate k '_')

@[simp] theorem toList_suffixed (name : String) (k : Nat) :
    (suffixed name k).toList = name.toList ++ List.replicate k '_' := by
  simp [suffixed]

@[simp] theorem suffixed_zero (name : String) : suffixed name 0 = name := by
  simp [suffixed]

theorem suffixed_succ (name : String) (k : Nat) :
    suffixed name (k + 1) = suffixed (name ++ "_") k := by
  rw [← String.toList_inj]
  simp [List.replicate_succ]

theorem suffixed_injective (name : String) : Function.Injective (suffixed name) := by
  intro j k h
  simpa using congrArg (fun text => text.toList.length) h

/-! ## The search -/

/-- The search for a free text that starts at `name` makes `steps` turns, in each of which the text is
taken and gets an underscore, and ends at `found`. -/
inductive FreeSearch (taken : List String) : String → Nat → String → Prop
  | free {name : String} : name ∉ taken → FreeSearch taken name 0 name
  | turn {name found : String} {steps : Nat} : name ∈ taken →
      FreeSearch taken (name ++ "_") steps found → FreeSearch taken name (steps + 1) found

namespace FreeSearch

variable {taken taken' : List String} {name found found' : String} {steps steps' : Nat}

/-- A search ends at the first text that is not taken. -/
theorem spec (h : FreeSearch taken name steps found) :
    found = suffixed name steps ∧ found ∉ taken ∧ ∀ j < steps, suffixed name j ∈ taken := by
  induction h with
  | free hfree => simpa using hfree
  | @turn name found steps htaken _ ih =>
    obtain ⟨hfound, hfree, htried⟩ := ih
    refine ⟨hfound.trans (suffixed_succ ..).symm, hfree, fun j hj => ?_⟩
    cases j with
    | zero => simpa using htaken
    | succ j => exact suffixed_succ name j ▸ htried j (by omega)

theorem deterministic (h : FreeSearch taken name steps found)
    (h' : FreeSearch taken name steps' found') : steps' = steps ∧ found' = found := by
  induction h generalizing steps' with
  | free hfree =>
    cases h' with
    | free => exact ⟨rfl, rfl⟩
    | turn htaken => exact absurd htaken hfree
  | turn htaken _ ih =>
    cases h' with
    | free hfree => exact absurd htaken hfree
    | turn _ hrest =>
      obtain ⟨rfl, rfl⟩ := ih hrest
      exact ⟨rfl, rfl⟩

/-- Every turn uses up another taken text. -/
theorem steps_le (h : FreeSearch taken name steps found) : steps ≤ taken.toFinset.card := by
  obtain ⟨-, -, htried⟩ := h.spec
  calc steps = ((Finset.range steps).image (suffixed name)).card := by
        rw [Finset.card_image_of_injective _ (suffixed_injective name), Finset.card_range]
    _ ≤ taken.toFinset.card := by
        refine Finset.card_le_card fun text htext => ?_
        obtain ⟨j, hj, rfl⟩ := Finset.mem_image.1 htext
        exact List.mem_toFinset.2 (htried j (Finset.mem_range.1 hj))

/-- The number of turns is the least number of underscores that makes the text a free one. -/
theorem isLeast (h : FreeSearch taken name steps found) :
    IsLeast {k | suffixed name k ∉ taken} steps := by
  obtain ⟨rfl, hfree, htried⟩ := h.spec
  refine ⟨hfree, fun k hk => ?_⟩
  by_contra hlt
  exact hk (htried k (by omega))

theorem congr (hmem : ∀ text, text ∈ taken' ↔ text ∈ taken)
    (h : FreeSearch taken name steps found) : FreeSearch taken' name steps found := by
  induction h with
  | free hfree => exact .free (mt (hmem _).1 hfree)
  | turn htaken _ ih => exact .turn ((hmem _).2 htaken) ih

/-- A text that is shorter than those that are still to come need not be left out. -/
theorem of_useUp {tried : String} (hlt : tried.length < name.length)
    (h : FreeSearch (useUp tried taken) name steps found) : FreeSearch taken name steps found := by
  -- texts only grow in the search, so the one that is left out is not met again
  induction h with
  | free hfree =>
    refine .free fun hmem => hfree (mem_useUp.2 ⟨hmem, ?_⟩)
    rintro rfl
    exact Nat.lt_irrefl _ hlt
  | turn htaken _ ih =>
    refine .turn (mem_useUp.1 htaken).1 (ih ?_)
    rw [String.length_append]
    omega

end FreeSearch

/-- **The search ends, at `freeName`.** -/
theorem freeSearch_freeName (taken : List String) (name : String) :
    ∃ steps, FreeSearch taken name steps (freeName taken name) := by
  fun_induction freeName taken name with
  | case1 taken name htaken _ ih =>
    obtain ⟨steps, hsteps⟩ := ih
    have hlonger : name.length < (name ++ "_").length := by
      rw [String.length_append]
      exact Nat.lt_add_of_pos_right (by decide)
    exact ⟨steps + 1, .turn htaken (hsteps.of_useUp hlonger)⟩
  | case2 taken name hfree => exact ⟨0, .free hfree⟩

/-! ## Handing out scopes -/

/-- Each scope is found past the texts taken at first and the scopes handed out before. -/
theorem freeSearch_of_allotScopes_eq {taken packages : List String} {package segment : String}
    {before after : List (String × String)}
    (h : allotScopes taken packages = before ++ (package, segment) :: after) :
    ∃ steps, FreeSearch (taken ++ before.map (·.2)) (scopeBase package) steps segment := by
  induction packages generalizing taken before with
  | nil => simp [allotScopes] at h
  | cons first packages ih =>
    cases before with
    | nil =>
      obtain ⟨heq, -⟩ := List.cons.inj h
      obtain ⟨rfl, rfl⟩ := Prod.mk.inj heq
      simpa using freeSearch_freeName taken (scopeBase first)
    | cons entry before =>
      obtain ⟨rfl, hrest⟩ := List.cons.inj h
      obtain ⟨steps, hsteps⟩ := ih hrest
      refine ⟨steps, hsteps.congr fun text => ?_⟩
      simp only [List.map_cons, List.mem_append, List.mem_cons]
      tauto

/-- A package name without its dots. -/
def withoutDots (package : String) : String := String.ofList (package.toList.filter (· ≠ '.'))

theorem flatten_splitOn (sep : Char) (cs : List Char) :
    (cs.splitOn sep).flatten = cs.filter (· ≠ sep) := by
  induction cs with
  | nil => rfl
  | cons c cs ih =>
    rw [List.splitOn_cons_eq_if_modifyHead]
    obtain ⟨first, rest, hsplit⟩ := List.exists_cons_of_ne_nil (List.splitOn_ne_nil sep cs)
    rw [hsplit] at ih ⊢
    by_cases hc : c = sep
    · simpa [hc] using ih
    · simpa [hc] using ih

theorem joinedSegments_eq (package : String) : joinedSegments package = withoutDots package := by
  rw [← String.toList_inj, joinedSegments, String.toList_join, Text.splitOn, withoutDots,
    String.toList_ofList, ← flatten_splitOn, List.flatMap_map]
  simp [List.flatMap_def]

namespace Schema

variable {s : Schema} {target : String}

/-- A name that no scope may have any more: a class of the target package that stands on its own, or the
scope of an earlier package. -/
def IsTaken (s : Schema) (target : String) (before : List (String × String)) (name : String) : Prop :=
  (∃ f ∈ s.files, f.package = target ∧ ∃ t ∈ f.topLevel, t.name = name) ∨
    ∃ package, (package, name) ∈ before

theorem mem_taken_iff {before : List (String × String)} {name : String} :
    name ∈ s.topLevelNames target ++ before.map (·.2) ↔ s.IsTaken target before name := by
  rw [IsTaken, List.mem_append, topLevelNames]
  simp only [List.mem_map, List.mem_flatMap, List.mem_filter, beq_iff_eq]
  refine or_congr ⟨?_, ?_⟩ ⟨?_, ?_⟩
  · rintro ⟨t, ⟨f, ⟨hf, hpackage⟩, ht⟩, hname⟩
    exact ⟨f, hf, hpackage, t, ht, hname⟩
  · rintro ⟨f, hf, hpackage, t, ht, hname⟩
    exact ⟨t, ⟨f, ⟨hf, hpackage⟩, ht⟩, hname⟩
  · rintro ⟨entry, hentry, rfl⟩
    exact ⟨entry.1, hentry⟩
  · rintro ⟨package, hentry⟩
    exact ⟨(package, name), hentry, rfl⟩

end Schema

namespace ClassNames

variable {s : Schema} {target package segment : String}

theorem map_fst_scopes (s : Schema) (target : String) :
    (ofPackage s target).scopes.map (·.1) = s.foreignPackages target :=
  map_fst_allotScopes _ _

/-- Packages are looked up among those that have a scope, each of which is listed once. -/
theorem scope?_eq_some_iff : (ofPackage s target).scope? package = some segment ↔
    (package, segment) ∈ (ofPackage s target).scopes := by
  refine ⟨mem_scopes_of_scope?, fun h => ?_⟩
  have hpackage := List.mem_map_of_mem (f := (·.1)) h
  rw [map_fst_scopes, Schema.mem_foreignPackages] at hpackage
  obtain ⟨segment', hsegment'⟩ := exists_scope? hpackage.1 hpackage.2
  have hnodup : ((ofPackage s target).scopes.map (·.1)).Nodup :=
    map_fst_scopes s target ▸ (sortedNames_pairwise _).imp fun hlt => String.ne_of_lt hlt
  have heq := List.inj_on_of_nodup_map hnodup h (mem_scopes_of_scope? hsegment') rfl
  rw [hsegment', (Prod.mk.inj heq).2]

theorem exists_mem_scopes_iff : (∃ segment, (package, segment) ∈ (ofPackage s target).scopes) ↔
    package ∈ s.files.map (·.package) ∧ package ≠ target := by
  rw [← Schema.mem_foreignPackages, ← map_fst_scopes]
  simp

/-- **Scopes are the shortest free ones.** The packages other than the target have their turn in the
order of their bytes, each of them once, and no two get the same scope. The search for the scope of a
package ends, after no more turns than there are taken names, with the package's name without dots, or
`root`, and with as few underscores behind it as make it differ from the classes at the top level of the
target package and from the scopes of earlier packages. -/
theorem scopes_shortest (s : Schema) (target : String) :
    let scopes := (ofPackage s target).scopes
    (scopes.map (·.1)).Pairwise (fun p q => Wire.utf8 p < Wire.utf8 q) ∧
    (∀ package, (∃! segment, (package, segment) ∈ scopes) ↔
      package ∈ s.files.map (·.package) ∧ package ≠ target) ∧
    (∀ package segment, (ofPackage s target).scope? package = some segment ↔
      (package, segment) ∈ scopes) ∧
    (scopes.map (·.2)).Nodup ∧
    ∀ before package segment after, scopes = before ++ (package, segment) :: after →
      let base := if withoutDots package = "" then "root" else withoutDots package
      let taken := s.topLevelNames target ++ before.map (·.2)
      ∃ k, (∀ steps found, FreeSearch taken base steps found ↔ steps = k ∧ found = segment) ∧
        k ≤ taken.toFinset.card ∧ segment = suffixed base k ∧
        IsLeast {j | ¬ s.IsTaken target before (suffixed base j)} k := by
  refine ⟨?_, fun package => ?_, fun _ _ => scope?_eq_some_iff, allotScopes_nodup _ _, ?_⟩
  · rw [map_fst_scopes]
    exact (sortedNames_pairwise _).imp Wire.utf8_lt_utf8_iff.2
  · rw [← exists_mem_scopes_iff]
    refine ⟨ExistsUnique.exists, ?_⟩
    rintro ⟨segment, hsegment⟩
    refine ⟨segment, hsegment, fun other hother => ?_⟩
    exact Option.some_inj.1 ((scope?_eq_some_iff.2 hother).symm.trans (scope?_eq_some_iff.2 hsegment))
  · intro before package segment after heq base taken
    have hbase : scopeBase package = base := by
      rw [scopeBase, joinedSegments_eq]
    obtain ⟨k, hsearch⟩ := freeSearch_of_allotScopes_eq heq
    rw [hbase] at hsearch
    refine ⟨k, fun steps found => ⟨hsearch.deterministic, ?_⟩, hsearch.steps_le, hsearch.spec.1, ?_⟩
    · rintro ⟨rfl, rfl⟩
      exact hsearch
    · simpa only [Schema.mem_taken_iff] using hsearch.isLeast

end ClassNames

/-! ## Scopes without underscores -/

/-- A text that is no scope but that of a package with this name, dots apart. -/
structure IsPlainWord (word : String) : Prop where
  ne_empty : word ≠ ""
  ne_root : word ≠ "root"
  last : word.toList.getLast? ≠ some '_'

instance : DecidablePred IsPlainWord := fun word =>
  decidable_of_iff (word ≠ "" ∧ word ≠ "root" ∧ word.toList.getLast? ≠ some '_')
    ⟨fun h => ⟨h.1, h.2.1, h.2.2⟩, fun h => ⟨h.1, h.2, h.3⟩⟩

theorem IsPlainWord.eq_zero {word name : String} (h : IsPlainWord word) {k : Nat}
    (heq : word = suffixed name k) : k = 0 := by
  cases k with
  | zero => rfl
  | succ k =>
    refine absurd ?_ h.last
    rw [heq, toList_suffixed, List.replicate_succ', ← List.append_assoc, List.getLast?_concat]

/-- A package gets its own name, dots apart, for a scope: it is not that of the module, and neither a class
at the top level nor an earlier package has taken the name. -/
structure Schema.HasPlainScope (s : Schema) (target package word : String) : Prop where
  foreign : package ≠ target
  name : withoutDots package = word
  top : ¬ ∃ f ∈ s.files, f.package = target ∧ ∃ t ∈ f.topLevel, t.name = word
  earlier : ∀ f ∈ s.files, f.package ≠ target → f.package < package → withoutDots f.package ≠ word

instance (s : Schema) (target package word : String) : Decidable (s.HasPlainScope target package word) :=
  decidable_of_iff (package ≠ target ∧ withoutDots package = word ∧
    (¬ ∃ f ∈ s.files, f.package = target ∧ ∃ t ∈ f.topLevel, t.name = word) ∧
    ∀ f ∈ s.files, f.package ≠ target → f.package < package → withoutDots f.package ≠ word)
    ⟨fun h => ⟨h.1, h.2.1, h.2.2.1, h.2.2.2⟩, fun h => ⟨h.1, h.2, h.3, h.4⟩⟩

namespace ClassNames

variable {s : Schema} {target package segment word : String} {before after : List (String × String)}

/-- What has its turn before a package is what comes before it in the order of the packages. -/
theorem mem_before_iff (h : (ofPackage s target).scopes = before ++ (package, segment) :: after)
    {entry : String × String} (hentry : entry ∈ (ofPackage s target).scopes) :
    entry ∈ before ↔ entry.1 < package := by
  have hordered : ((before ++ (package, segment) :: after).map (·.1)).Pairwise (· < ·) :=
    h ▸ map_fst_scopes s target ▸ sortedNames_pairwise _
  rw [List.map_append, List.map_cons, List.pairwise_append, List.pairwise_cons] at hordered
  obtain ⟨-, ⟨hafter, -⟩, hbefore⟩ := hordered
  refine ⟨fun hmem => hbefore _ (List.mem_map_of_mem hmem) _ (List.mem_cons_self ..), fun hlt => ?_⟩
  rw [h, List.mem_append, List.mem_cons] at hentry
  rcases hentry with hmem | rfl | hmem
  · exact hmem
  · exact absurd hlt (String.lt_irrefl _)
  · exact absurd hlt (String.lt_asymm (hafter _ (List.mem_map_of_mem hmem)))

/-- A plain word is the scope of no other package than one of its name. -/
theorem withoutDots_eq_of_mem_scopes (hword : IsPlainWord word)
    (h : (package, word) ∈ (ofPackage s target).scopes) : withoutDots package = word := by
  obtain ⟨before, after, hsplit⟩ := List.append_of_mem h
  obtain ⟨k, hsearch⟩ := freeSearch_of_allotScopes_eq hsplit
  have hfound := hsearch.spec.1
  rw [hword.eq_zero hfound, suffixed_zero, scopeBase, joinedSegments_eq] at hfound
  split at hfound
  · exact absurd hfound hword.ne_root
  · exact hfound.symm

/-- A package of this name gets the word if it is free at the package's turn. -/
theorem eq_of_not_isTaken (hword : IsPlainWord word)
    (h : (ofPackage s target).scopes = before ++ (package, segment) :: after)
    (hname : withoutDots package = word) (hfree : ¬ s.IsTaken target before word) : segment = word := by
  obtain ⟨k, hsearch⟩ := freeSearch_of_allotScopes_eq h
  have hbase : scopeBase package = word := by
    rw [scopeBase, joinedSegments_eq, hname, if_neg hword.ne_empty]
  rw [hbase] at hsearch
  exact ((FreeSearch.free (mt Schema.mem_taken_iff.1 hfree)).deterministic hsearch).2

/-- **Which package has a plain word for its scope.** -/
theorem scope?_eq_plain_iff (hword : IsPlainWord word) (hpackage : package ∈ s.files.map (·.package)) :
    (ofPackage s target).scope? package = some word ↔ s.HasPlainScope target package word := by
  rw [scope?_eq_some_iff]
  constructor
  · intro h
    obtain ⟨before, after, hsplit⟩ := List.append_of_mem h
    obtain ⟨k, hsearch⟩ := freeSearch_of_allotScopes_eq hsplit
    have hfree : ¬ s.IsTaken target before word := mt Schema.mem_taken_iff.2 hsearch.spec.2.1
    refine ⟨(exists_mem_scopes_iff.1 ⟨word, h⟩).2, withoutDots_eq_of_mem_scopes hword h,
      fun htop => hfree (Or.inl htop), fun f hf hforeign hlt hname => ?_⟩
    obtain ⟨segment, hsegment⟩ := exists_mem_scopes_iff.2 ⟨List.mem_map_of_mem hf, hforeign⟩
    have hbefore := (mem_before_iff hsplit hsegment).2 hlt
    obtain ⟨first, rest, rfl⟩ := List.append_of_mem hbefore
    rw [List.append_assoc, List.cons_append] at hsplit
    -- at its own turn the earlier package would have got the word
    have heq : segment = word := eq_of_not_isTaken hword hsplit hname fun htaken => hfree <|
      htaken.imp_right fun ⟨package, hmem⟩ => ⟨package, List.mem_append_left _ hmem⟩
    exact hfree (Or.inr ⟨f.package, heq ▸ hbefore⟩)
  · intro h
    obtain ⟨segment, hsegment⟩ := exists_mem_scopes_iff.2 ⟨hpackage, h.foreign⟩
    obtain ⟨before, after, hsplit⟩ := List.append_of_mem hsegment
    have hfree : ¬ s.IsTaken target before word := by
      rintro (htop | ⟨package', hmem⟩)
      · exact h.top htop
      · have hscope : (package', word) ∈ (ofPackage s target).scopes :=
          hsplit ▸ List.mem_append_left _ hmem
        obtain ⟨hpackage', hforeign⟩ := exists_mem_scopes_iff.1 ⟨word, hscope⟩
        obtain ⟨f, hf, rfl⟩ := List.mem_map.1 hpackage'
        exact h.earlier f hf hforeign ((mem_before_iff hsplit hscope).1 hmem)
          (withoutDots_eq_of_mem_scopes hword hscope)
    rwa [eq_of_not_isTaken hword hsplit h.name hfree] at hsegment

end ClassNames
end ProtoModels
