import ProtoModels.Proofs.ClassPaths
import ProtoModels.Proofs.ModuleText.ClassLines
/-!
# Flat class paths

The segments of a class path, put together with underscores, are one identifier. Names may hold
underscores themselves, and scopes may end in some, so different paths can have one flat form. They do
exactly if one of them runs into the other (`flat_resolve_eq_iff`): behind the segments that both begin
with, a segment of the one is the front of a segment of the other. This takes an underscore in a name or
in a package; the underscores that are added to a scope to make it free never suffice.
-/
namespace ProtoModels

/-! ## Joined segments -/

/-- Some segments run into others: behind the same front, a segment `x` of theirs stands where the others
have `x_y`, and with the segments that are left both spell the same text. -/
def RunsInto (p q : List String) : Prop :=
  ∃ front x rest y more, rest ≠ [] ∧ p = front ++ x :: rest ∧ q = front ++ (x ++ "_" ++ y) :: more ∧
    "_".intercalate rest = "_".intercalate (y :: more)

theorem toList_joined_cons (segment : String) (segments : List String) :
    ("_".intercalate (segment :: segments)).toList =
      segment.toList ++ segments.flatMap ('_' :: ·.toList) := by
  rw [String.toList_intercalate, List.map_cons]
  exact (intercalate_singleton_cons '_' _ _).trans (by rw [List.flatMap_map])

theorem RunsInto.cons {p q : List String} (h : RunsInto p q) (x : String) :
    RunsInto (x :: p) (x :: q) := by
  obtain ⟨front, z, rest, y, more, hrest, rfl, rfl, hjoin⟩ := h
  exact ⟨x :: front, z, rest, y, more, hrest, rfl, rfl, hjoin⟩

/-- Segments that run into others spell the same text. -/
theorem RunsInto.joined_eq {p q : List String} (h : RunsInto p q) :
    "_".intercalate p = "_".intercalate q := by
  obtain ⟨front, x, rest, y, more, hrest, rfl, rfl, hjoin⟩ := h
  have hbehind : "_".intercalate (x :: rest) = "_".intercalate ((x ++ "_" ++ y) :: more) := by
    refine String.toList_inj.1 ?_
    have hjoin := congrArg String.toList hjoin
    rw [toList_joined_cons] at hjoin
    rw [String.intercalate_cons_of_ne_nil hrest, toList_joined_cons]
    simp [hjoin]
  by_cases hfront : front = []
  · subst hfront
    exact hbehind
  · rw [String.intercalate_append_of_ne_nil hfront (by simp),
      String.intercalate_append_of_ne_nil hfront (by simp), hbehind]

/-- Of two first segments, the shorter one runs into the longer one. -/
theorem runsInto_of_heads {x x' : String} {rest more : List String} {w : List Char} (hne : x ≠ x')
    (hw : x'.toList = x.toList ++ w)
    (htail : rest.flatMap ('_' :: ·.toList) = w ++ more.flatMap ('_' :: ·.toList)) :
    RunsInto (x :: rest) (x' :: more) := by
  have hnil : w ≠ [] := by
    rintro rfl
    exact hne (String.toList_inj.1 (by simpa using hw.symm))
  obtain ⟨c, y, rfl⟩ := List.exists_cons_of_ne_nil hnil
  cases rest with
  | nil => simp at htail
  | cons z rest =>
    rw [List.flatMap_cons, List.cons_append, List.cons_append, List.cons.injEq] at htail
    obtain ⟨rfl, htail⟩ := htail
    have hx' : x' = x ++ "_" ++ String.ofList y := String.toList_inj.1 (by simp [hw])
    refine ⟨[], x, z :: rest, String.ofList y, more, by simp, rfl, by simp [hx'], ?_⟩
    refine String.toList_inj.1 ?_
    rw [toList_joined_cons, toList_joined_cons, String.toList_ofList]
    exact htail

/-- Different segments that spell one text part where one segment is the front of another. -/
theorem runsInto_of_joined_eq {p q : List String} (hp : p ≠ []) (hq : q ≠ []) (hne : p ≠ q)
    (h : "_".intercalate p = "_".intercalate q) : RunsInto p q ∨ RunsInto q p := by
  induction p generalizing q with
  | nil => exact absurd rfl hp
  | cons x p ih =>
    obtain ⟨x', q, rfl⟩ := List.exists_cons_of_ne_nil hq
    have hlist := congrArg String.toList h
    rw [toList_joined_cons, toList_joined_cons] at hlist
    by_cases hx : x = x'
    · subst hx
      rw [List.append_right_inj] at hlist
      cases p with
      | nil =>
        cases q with
        | nil => exact absurd rfl hne
        | cons => simp at hlist
      | cons z p =>
        cases q with
        | nil => simp at hlist
        | cons z' q =>
          have htails : "_".intercalate (z :: p) = "_".intercalate (z' :: q) := by
            refine String.toList_inj.1 ?_
            rw [toList_joined_cons, toList_joined_cons]
            simpa using hlist
          refine (ih (by simp) (by simp) (fun heq => hne (by rw [heq])) htails).imp ?_ ?_
          · exact fun hruns => hruns.cons x
          · exact fun hruns => hruns.cons x
    · rcases List.append_eq_append_iff.1 hlist with ⟨w, hw, htail⟩ | ⟨w, hw, htail⟩
      · exact Or.inl (runsInto_of_heads hx hw htail)
      · exact Or.inr (runsInto_of_heads (Ne.symm hx) hw htail)

/-! ## Underscores in scopes -/

/-- What stands behind an underscore of a scope is nothing but underscores, unless the package has one. -/
theorem eq_underscore_of_scope {package x y : String} {taken : List String}
    (hpackage : '_' ∉ package.toList) (h : freeName taken (scopeBase package) = x ++ "_" ++ y) :
    ∀ c ∈ y.toList, c = '_' := by
  obtain ⟨n, hn⟩ := exists_toList_freeName taken (scopeBase package)
  have hbase : '_' ∉ (scopeBase package).toList := fun hmem => by
    rcases mem_toList_scopeBase hmem with hroot | hmem
    · exact absurd hroot (by decide)
    · exact hpackage hmem.1
  have hlist : (scopeBase package).toList ++ List.replicate n '_' = x.toList ++ '_' :: y.toList := by
    rw [← hn, h]
    simp
  rcases List.append_eq_append_iff.1 hlist with ⟨w, -, hw⟩ | ⟨w, hbase', hw⟩
  · intro c hc
    have hmem : c ∈ List.replicate n '_' := by
      rw [hw]
      simp [hc]
    exact List.eq_of_mem_replicate hmem
  · cases w with
    | nil =>
      intro c hc
      have hmem : c ∈ List.replicate n '_' := by
        rw [← List.nil_append (List.replicate n '_'), ← hw]
        simp [hc]
      exact List.eq_of_mem_replicate hmem
    | cons d w =>
      rw [List.cons_append, List.cons.injEq] at hw
      obtain ⟨rfl, -⟩ := hw
      exact absurd (hbase' ▸ by simp) hbase

namespace ClassNames

variable {files : List Descriptor.File} {rules : RuleIndex} {s : Schema} {target : String}

/-- A class path that runs into another one takes an underscore in a name or in the other's package. -/
theorem exists_underscore_of_runsInto (h : Schema.build files rules = .ok s)
    (hnames : ∀ t ∈ s.types, t.name ≠ "") {t u : TypeDecl} (ht : t ∈ s.types)
    (hruns : RunsInto ((ofPackage s target).resolve t).segments
      ((ofPackage s target).resolve u).segments) :
    ∃ text ∈ u.package :: (t.localPath ++ u.localPath), '_' ∈ text.toList := by
  obtain ⟨front, x, rest, y, more, hrest, hp, hq, hjoin⟩ := hruns
  rw [segments_resolve] at hp hq
  have hlocal : x ++ "_" ++ y ∈ u.localPath →
      ∃ text ∈ u.package :: (t.localPath ++ u.localPath), '_' ∈ text.toList := fun hmem =>
    ⟨x ++ "_" ++ y, by simp [hmem], by simp⟩
  cases hscope : (ofPackage s target).scope? u.package with
  | none =>
    rw [hscope] at hq
    exact hlocal ((show u.localPath = _ from hq) ▸ by simp)
  | some scope =>
    rw [hscope, Option.toList_some, List.singleton_append] at hq
    cases front with
    | cons first front =>
      rw [List.cons_append, List.cons.injEq] at hq
      exact hlocal (hq.2 ▸ by simp)
    | nil =>
      rw [List.nil_append, List.cons.injEq] at hq
      obtain ⟨hsegment, rfl⟩ := hq
      by_cases hpackage : '_' ∈ u.package.toList
      · exact ⟨u.package, List.mem_cons_self .., hpackage⟩
      -- The scope goes on with underscores only, so what is left of the other path starts with one.
      obtain ⟨taken, heq⟩ := exists_freeName_of_mem_allotScopes (mem_scopes_of_scope? hscope)
      have hy := eq_underscore_of_scope hpackage (heq.symm.trans hsegment)
      have hhead : ("_".intercalate (y :: u.localPath)).toList.head? = some '_' := by
        obtain ⟨name, names, hpath⟩ := List.exists_cons_of_ne_nil u.localPath_ne_nil
        rw [toList_joined_cons, hpath]
        cases hchars : y.toList with
        | nil => rfl
        | cons c cs =>
          rw [List.cons_append, List.head?_cons, hy c (by simp [hchars])]
      obtain ⟨name, rest, rfl⟩ := List.exists_cons_of_ne_nil hrest
      have hname : name ∈ t.localPath := by
        cases hown : (ofPackage s target).scope? t.package with
        | none =>
          rw [hown] at hp
          exact (show t.localPath = _ from hp) ▸ by simp
        | some own =>
          rw [hown, Option.toList_some, List.singleton_append, List.nil_append, List.cons.injEq] at hp
          exact hp.2 ▸ by simp
      obtain ⟨v, hv, rfl⟩ := Schema.exists_name_of_mem_localPath h t ht name hname
      obtain ⟨c, cs, hchars⟩ := List.exists_cons_of_ne_nil
        (show v.name.toList ≠ [] by simpa using hnames v hv)
      rw [← hjoin, toList_joined_cons, hchars, List.cons_append, List.head?_cons,
        Option.some_inj] at hhead
      exact ⟨v.name, by simp [hname], by simp [hchars, hhead]⟩

/-- **When two types share a flat name.** In the module of any package, the flat names of two types
are the same exactly if one of the class paths runs into the other. They never are if
no underscore stands in the two packages, in the types' own names and in those of the messages around
them: underscores that make a scope free merge nothing. -/
theorem flat_resolve_eq_iff (h : Schema.build files rules = .ok s)
    (hdistinct : (s.types.map (·.fullName)).Nodup) (hnames : ∀ t ∈ s.types, t.name ≠ "")
    (target : String) {t u : TypeDecl} (ht : t ∈ s.types) (hu : u ∈ s.types) (hne : t ≠ u) :
    let path := (ofPackage s target).resolve
    ((path t).flat = (path u).flat ↔
      RunsInto (path t).segments (path u).segments ∨ RunsInto (path u).segments (path t).segments) ∧
    ((∀ text ∈ t.package :: u.package :: (t.localPath ++ u.localPath), '_' ∉ text.toList) →
      (path t).flat ≠ (path u).flat) := by
  intro path
  have hsegments : (path t).segments ≠ (path u).segments := fun heq =>
    hne (List.inj_on_of_nodup_map hdistinct ht hu (fullName_eq_of_resolve h ht hu heq))
  have hiff : (path t).flat = (path u).flat ↔
      RunsInto (path t).segments (path u).segments ∨
        RunsInto (path u).segments (path t).segments := by
    constructor
    · exact runsInto_of_joined_eq (segments_resolve_ne_nil _ t) (segments_resolve_ne_nil _ u) hsegments
    · rintro (hruns | hruns)
      · exact hruns.joined_eq
      · exact hruns.joined_eq.symm
  refine ⟨hiff, fun hplain heq => ?_⟩
  rcases hiff.1 heq with hruns | hruns
  · obtain ⟨text, htext, hunderscore⟩ := exists_underscore_of_runsInto h hnames ht hruns
    exact hplain text (List.mem_cons_of_mem _ htext) hunderscore
  · obtain ⟨text, htext, hunderscore⟩ := exists_underscore_of_runsInto h hnames hu hruns
    refine hplain text ?_ hunderscore
    simp only [List.mem_cons, List.mem_append] at htext ⊢
    tauto

/-- Two packages that ask for one scope, so that the second gets an underscore more, and a name that
brings this underscore along. -/
def moneyFiles : List Descriptor.File := [
  { name := "x.proto", package := "a.b", messages := [{ name := "Money" }, { name := "_Money" }] },
  { name := "y.proto", package := "ab", messages := [{ name := "Money" }] },
  { name := "shop.proto", package := "shop", messages := [{ name := "Order" }] }]

theorem scopes_moneyFiles : (ofPackage (Schema.ofDescriptors moneyFiles {}) "shop").scopes =
    [("a.b", "ab"), ("ab", "ab_")] := by
  have htaken : (Schema.ofDescriptors moneyFiles {}).topLevelNames "shop" = ["Order"] := by decide +kernel
  have hpackages : (((Schema.ofDescriptors moneyFiles {}).files.map (·.package)).filter
      (· ≠ "shop")).eraseDups = ["a.b", "ab"] := by decide +kernel
  have hforeign : (Schema.ofDescriptors moneyFiles {}).foreignPackages "shop" = ["a.b", "ab"] := by
    rw [Schema.foreignPackages, sortedNames, hpackages]
    exact List.mergeSort_of_pairwise (by decide +kernel)
  have hbases : scopeBase "a.b" = "ab" ∧ scopeBase "ab" = "ab" := by decide +kernel
  have hfirst : freeName ["Order"] "ab" = "ab" := by
    rw [freeName, dif_neg (by simp)]
  have hsecond : freeName ["ab", "Order"] "ab" = "ab_" := by
    rw [freeName, dif_pos (by simp), freeName, dif_neg (by decide +kernel)]
    rfl
  rw [ofPackage, htaken, hforeign]
  simp only [allotScopes, hbases.1, hbases.2, hfirst, hsecond]

theorem flat_resolve_eq_iff_scopes :
    let s := Schema.ofDescriptors moneyFiles {}
    let path := (ofPackage s "shop").resolve
    Schema.build moneyFiles {} = .ok s ∧ (s.types.map (·.fullName)).Nodup ∧
    (∀ t ∈ s.types, t.name ≠ "") ∧ ∃ t ∈ s.types, ∃ u ∈ s.types, ∃ v ∈ s.types, t ≠ v ∧ u ≠ v ∧
      RunsInto (path t).segments (path v).segments ∧ (path t).flat = (path v).flat ∧
      (∀ text ∈ u.package :: v.package :: (u.localPath ++ v.localPath), '_' ∉ text.toList) ∧
      (path u).flat ≠ (path v).flat := by
  intro s path
  have hbuild : Schema.build moneyFiles {} = .ok s :=
    Schema.build_eq_ok_iff.2 ⟨rfl, by decide +kernel⟩
  have hdistinct : (s.types.map (·.fullName)).Nodup := by decide +kernel
  have hnames : ∀ t ∈ s.types, t.name ≠ "" := by decide +kernel
  have hu : s.types[0] ∈ s.types := List.getElem_mem _
  have ht : s.types[1] ∈ s.types := List.getElem_mem _
  have hv : s.types[2] ∈ s.types := List.getElem_mem _
  have htv : s.types[1] ≠ s.types[2] := by decide +kernel
  have huv : s.types[0] ≠ s.types[2] := by decide +kernel
  have hsegments : ∀ t, (path t).segments =
      (([("a.b", "ab"), ("ab", "ab_")].find? (·.1 == t.package)).map (·.2)).toList ++ t.localPath := by
    intro t
    rw [segments_resolve, scope?, scopes_moneyFiles]
  have hruns : RunsInto (path s.types[1]).segments (path s.types[2]).segments := by
    rw [hsegments, hsegments]
    exact ⟨[], "ab", ["_Money"], "", ["Money"], by simp, by decide +kernel, by decide +kernel,
      by decide +kernel⟩
  have hplain : ∀ text ∈ s.types[0].package :: s.types[2].package ::
      (s.types[0].localPath ++ s.types[2].localPath), '_' ∉ text.toList := by decide +kernel
  exact ⟨hbuild, hdistinct, hnames, _, ht, _, hu, _, hv, htv, huv, hruns,
    (flat_resolve_eq_iff hbuild hdistinct hnames "shop" ht hv htv).1.2 (Or.inl hruns), hplain,
    (flat_resolve_eq_iff hbuild hdistinct hnames "shop" hu hv huv).2 hplain⟩

/-- A message with an underscore in its name beside a message with a nested one. -/
def orderLineFiles : List Descriptor.File := [
  { name := "shop.proto"
    package := "shop"
    messages := [{ name := "Order_Line" }, { name := "Order", nested := [{ name := "Line" }] }] }]

/-- Nesting is written like an underscore of a name. -/
theorem flat_of_nested_name :
    let s := Schema.ofDescriptors orderLineFiles {}
    let path := (ofPackage s "shop").resolve
    Schema.build orderLineFiles {} = .ok s ∧ (s.types.map (·.fullName)).Nodup ∧
    (∀ t ∈ s.types, IsIdentifier t.name) ∧
    (∀ f ∈ s.files, ∀ segment ∈ Text.splitOn '.' f.package, IsIdentifier segment) ∧
    ∃ t ∈ s.types, ∃ u ∈ s.types, t ≠ u ∧ (path t).flat = (path u).flat := by
  intro s path
  exact ⟨Schema.build_eq_ok_iff.2 ⟨rfl, by decide +kernel⟩, by decide +kernel, by decide +kernel,
    by decide +kernel, s.types[0], List.getElem_mem _, s.types[2], List.getElem_mem _,
    by decide +kernel, by decide +kernel⟩

end ClassNames
end ProtoModels
