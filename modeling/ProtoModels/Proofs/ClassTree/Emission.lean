import ProtoModels.Proofs.ClassTree.TopLevel
/-!
# How a class tree is written

The headers and bodies of a class tree are nested as its classes are: between the header and the body of
a class stand its inner classes, each in full and in their order, and nothing else (`Emission`). Every
class is written once (`ClassTree.Holds.emits`).

An emitter gets one header or body after the other, by recursion on the tree (`ClassTree.emit`), and none
behind the first at which it fails (`foldlM_recording_of_error`). It does not see the paths of the classes,
which are here to tell apart classes that look alike.
-/
namespace ProtoModels

open ClassTree (depthOf)

/-! ## Headers and bodies by path -/

/-- A header or a body with the path of its class. -/
abbrev ClassVisit (α : Type) := List String × ClassEvent α

mutual
/-- All that is written of the class at a path: its header, all of its inner classes, its body. -/
inductive Emission {α : Type} : List String → ClassNode α → List (ClassVisit α) → Prop where
  | node {path : List String} {n : ClassNode α} {inner : List (ClassVisit α)} :
      Emissions path n.children inner → Emission path n
        ((path, .header n (depthOf path)) :: (inner ++ [(path, .body n (depthOf path))]))

/-- All that is written of some inner classes of the class at a path, one after another. -/
inductive Emissions {α : Type} : List String → List (ClassNode α) → List (ClassVisit α) → Prop where
  | nil {path : List String} : Emissions path [] []
  | cons {path : List String} {c : ClassNode α} {cs : List (ClassNode α)} {first rest : List (ClassVisit α)} :
      Emission (path ++ [c.name]) c first → Emissions path cs rest →
        Emissions path (c :: cs) (first ++ rest)
end

theorem ClassTree.depthOf_concat {path : List String} (h : path ≠ []) (name : String) :
    depthOf (path ++ [name]) = depthOf path + 1 := by
  have hpos := List.length_pos_of_ne_nil h
  simp only [depthOf, List.length_append, List.length_singleton]
  omega

namespace ClassNode

variable {α : Type}

mutual
/-- The headers and bodies of the class at a path and of all below it, with their paths. -/
def visits (path : List String) : ClassNode α → List (ClassVisit α)
  | ⟨name, decl, children⟩ =>
    (path, .header ⟨name, decl, children⟩ (depthOf path)) ::
      (visitsOfList path children ++ [(path, .body ⟨name, decl, children⟩ (depthOf path))])

def visitsOfList (path : List String) : List (ClassNode α) → List (ClassVisit α)
  | [] => []
  | c :: cs => c.visits (path ++ [c.name]) ++ visitsOfList path cs
end

theorem visitsOfList_eq (path : List String) (cs : List (ClassNode α)) :
    visitsOfList path cs = cs.flatMap fun c => c.visits (path ++ [c.name]) := by
  induction cs with
  | nil => rfl
  | cons c cs ih => rw [visitsOfList, ih, List.flatMap_cons]

theorem visits_eq (path : List String) (n : ClassNode α) : n.visits path =
    (path, .header n (depthOf path)) ::
      ((n.children.flatMap fun c => c.visits (path ++ [c.name])) ++
        [(path, .body n (depthOf path))]) := by
  cases n
  rw [visits, visitsOfList_eq]

mutual
theorem emission_visits (path : List String) : ∀ n : ClassNode α, Emission path n (n.visits path)
  | ⟨_, _, children⟩ => .node (emissions_visitsOfList path children)

theorem emissions_visitsOfList (path : List String) :
    ∀ cs : List (ClassNode α), Emissions path cs (visitsOfList path cs)
  | [] => .nil
  | c :: cs => .cons (emission_visits (path ++ [c.name]) c) (emissions_visitsOfList path cs)
end

mutual
/-- Without the paths, the visits are the events of the class. -/
theorem map_snd_visits {path : List String} (hpath : path ≠ []) :
    ∀ n : ClassNode α, (n.visits path).map (·.2) = n.events (depthOf path)
  | ⟨name, decl, children⟩ => by
    simp [visits, events, map_snd_visitsOfList hpath children]

theorem map_snd_visitsOfList {path : List String} (hpath : path ≠ []) :
    ∀ cs : List (ClassNode α), (visitsOfList path cs).map (·.2) = eventsOfList (depthOf path + 1) cs
  | [] => rfl
  | c :: cs => by
    rw [visitsOfList, List.map_append, map_snd_visits (by simp) c, map_snd_visitsOfList hpath cs,
      ClassTree.depthOf_concat hpath, eventsOfList]
end

/-! ### Each class once -/

/-- A header or a body of a class at a path. -/
def IsVisit (path : List String) (n : ClassNode α) (e : ClassEvent α) : Prop :=
  e = .header n (depthOf path) ∨ e = .body n (depthOf path)

mutual
/-- The path of a class goes on from those of the classes around it. -/
theorem prefix_of_mem_visits (path : List String) :
    ∀ n : ClassNode α, ∀ v ∈ n.visits path, path <+: v.1
  | ⟨name, decl, children⟩, v, hv => by
    rw [visits, List.mem_cons, List.mem_append, List.mem_singleton] at hv
    rcases hv with rfl | hv | rfl
    · exact List.prefix_refl _
    · obtain ⟨c, _, hprefix⟩ := prefix_of_mem_visitsOfList path children v hv
      exact (List.prefix_append _ _).trans hprefix
    · exact List.prefix_refl _

theorem prefix_of_mem_visitsOfList (path : List String) :
    ∀ cs : List (ClassNode α), ∀ v ∈ visitsOfList path cs, ∃ c ∈ cs, path ++ [c.name] <+: v.1
  | c :: cs, v, hv => by
    rw [visitsOfList, List.mem_append] at hv
    rcases hv with hv | hv
    · exact ⟨c, List.mem_cons_self .., prefix_of_mem_visits (path ++ [c.name]) c v hv⟩
    · obtain ⟨c', hc', hprefix⟩ := prefix_of_mem_visitsOfList path cs v hv
      exact ⟨c', List.mem_cons_of_mem _ hc', hprefix⟩
end

/-- Behind a path come the classes that can be found there. -/
theorem Distinct.mem_visits_iff {n : ClassNode α} (h : n.Distinct) {path : List String}
    {v : ClassVisit α} : v ∈ n.visits path ↔
      ∃ rest n', n.find? rest = some n' ∧ v.1 = path ++ rest ∧ IsVisit v.1 n' v.2 := by
  induction h generalizing path v with
  | @node n names inner ih =>
    have hn : n.Distinct := .node names inner
    have hself : v = (path, .header n (depthOf path)) ∨ v = (path, .body n (depthOf path)) ↔
        v.1 = path ++ [] ∧ IsVisit v.1 n v.2 := by
      rw [List.append_nil, IsVisit, Prod.ext_iff, Prod.ext_iff, ← and_or_left]
      exact and_congr_right fun hpath => by rw [hpath]
    have hbelow : (∃ c ∈ n.children, v ∈ c.visits (path ++ [c.name])) ↔ ∃ c ∈ n.children,
        ∃ rest n', c.find? rest = some n' ∧ v.1 = path ++ c.name :: rest ∧ IsVisit v.1 n' v.2 := by
      refine exists_congr fun c => and_congr_right fun hc => ?_
      simp only [ih c hc, List.append_assoc, List.singleton_append]
    rw [hn.exists_find?_iff, ← hself, ← hbelow, visits_eq, List.mem_cons, List.mem_append,
      List.mem_flatMap, List.mem_singleton, or_assoc, or_comm (a := v = (path, .body n _))]

/-- No two visits of inner classes with different names are the same. -/
theorem nodup_visitsOfList {path : List String} {cs : List (ClassNode α)}
    (names : (cs.map (·.name)).Nodup) (inner : ∀ c ∈ cs, (c.visits (path ++ [c.name])).Nodup) :
    (visitsOfList path cs).Nodup := by
  rw [visitsOfList_eq]
  refine List.nodup_flatMap.2 ⟨inner, (List.pairwise_map.1 names).imp fun {a b} hne v ha hb => hne ?_⟩
  -- both paths begin with the path and go on with the name of a sibling
  have hlength : (path ++ [a.name]).length = (path ++ [b.name]).length := by simp
  have hpaths := List.prefix_of_prefix_length_le (prefix_of_mem_visits _ a v ha)
    (prefix_of_mem_visits _ b v hb) (le_of_eq hlength)
  simpa using hpaths.eq_of_length hlength

theorem Distinct.nodup_visits {n : ClassNode α} (h : n.Distinct) (path : List String) :
    (n.visits path).Nodup := by
  induction h generalizing path with
  | @node n names inner ih =>
    have hinner := nodup_visitsOfList names fun c hc => ih c hc (path ++ [c.name])
    have hdeeper : ∀ e, (path, e) ∉ visitsOfList path n.children := fun e he => by
      obtain ⟨c, _, hprefix⟩ := prefix_of_mem_visitsOfList path n.children _ he
      have hlength : path.length + 1 ≤ path.length := by simpa using hprefix.length_le
      omega
    rw [visits_eq, ← visitsOfList_eq, List.nodup_cons, List.mem_append, List.nodup_append]
    refine ⟨fun hv => ?_, hinner, List.nodup_singleton _, fun v hv w hw hvw => ?_⟩
    · rcases hv with hv | hv
      · exact hdeeper _ hv
      · simp at hv
    · rw [hvw, List.mem_singleton.1 hw] at hv
      exact hdeeper _ hv

/-- All that is written of a class stands in one piece in what is written of a class around it. -/
theorem exists_visits_eq {n n' : ClassNode α} (path : List String) {rest : List String}
    (h : n.find? rest = some n') :
    ∃ before after, n.visits path = before ++ n'.visits (path ++ rest) ++ after := by
  induction rest generalizing n path with
  | nil =>
    obtain rfl : n = n' := by simpa using h
    exact ⟨[], [], by simp⟩
  | cons name rest ih =>
    obtain ⟨c, hc, rfl, hbelow⟩ := exists_inner_of_find? h
    obtain ⟨cs, cs', hchildren⟩ := List.append_of_mem hc
    obtain ⟨before, after, hvisits⟩ := ih (path ++ [c.name]) hbelow
    refine ⟨(path, .header n (depthOf path)) :: (visitsOfList path cs ++ before),
      after ++ visitsOfList path cs' ++ [(path, .body n (depthOf path))], ?_⟩
    rw [visits_eq, hchildren, List.flatMap_append, List.flatMap_cons, hvisits]
    simp [visitsOfList_eq]

end ClassNode

namespace ClassTree

variable {α : Type} {t : ClassTree α} {entries : List (List String × α)}

/-- The headers and bodies of all classes, with the paths of their classes. -/
def visits (t : ClassTree α) : List (ClassVisit α) := ClassNode.visitsOfList [] t.topLevel

/-- What the headers and bodies of a tree are: two for each class, those of a class around those of its
inner classes. -/
structure Emits (t : ClassTree α) (visits : List (ClassVisit α)) : Prop where
  /-- A class has one header and one body, at the depth of its path, and nothing else is written. -/
  once : visits.Nodup ∧ ∀ path e, (path, e) ∈ visits ↔ path ≠ [] ∧ ∃ n, t.find? path = some n ∧
    (e = .header n (depthOf path) ∨ e = .body n (depthOf path))
  /-- Between the two stands all that is written of its inner classes, in their order. -/
  nested : ∀ path n, path ≠ [] → t.find? path = some n →
    ∃ before inner after, Emissions path n.children inner ∧ visits =
      before ++ (path, .header n (depthOf path)) :: (inner ++ (path, .body n (depthOf path)) :: after)
  topLevel : Emissions [] t.topLevel visits

theorem Holds.visits_perm (h : t.Holds entries) :
    t.visits.Perm (ClassNode.visitsOfList [] t.root.children) := by
  rw [visits, ClassNode.visitsOfList_eq, ClassNode.visitsOfList_eq]
  exact h.topLevel_perm.flatMap_right _

theorem Holds.mem_visits_iff (h : t.Holds entries) {path : List String} {e : ClassEvent α} :
    (path, e) ∈ t.visits ↔ path ≠ [] ∧ ∃ n, t.find? path = some n ∧ ClassNode.IsVisit path n e := by
  rw [h.visits_perm.mem_iff, ClassNode.visitsOfList_eq, List.mem_flatMap]
  constructor
  · rintro ⟨c, hc, hv⟩
    obtain ⟨rest, n, hfind, rfl, hvisit⟩ := (h.distinct.inner hc).mem_visits_iff.1 hv
    exact ⟨by simp, n, h.distinct.find?_of_mem hc hfind, hvisit⟩
  · rintro ⟨hpath, n, hfind, hvisit⟩
    cases path with
    | nil => exact absurd rfl hpath
    | cons name rest =>
      obtain ⟨c, hc, rfl, hbelow⟩ := ClassNode.exists_inner_of_find? hfind
      exact ⟨c, hc, (h.distinct.inner hc).mem_visits_iff.2 ⟨rest, n, hbelow, rfl, hvisit⟩⟩

theorem Holds.exists_visits_eq (h : t.Holds entries) {path : List String} {n : ClassNode α}
    (hpath : path ≠ []) (hfind : t.find? path = some n) :
    ∃ before after, t.visits = before ++ n.visits path ++ after := by
  cases path with
  | nil => exact absurd rfl hpath
  | cons name rest =>
    obtain ⟨c, hc, rfl, hbelow⟩ := ClassNode.exists_inner_of_find? hfind
    obtain ⟨cs, cs', htop⟩ := List.append_of_mem (h.topLevel_perm.mem_iff.2 hc)
    obtain ⟨before, after, hvisits⟩ := ClassNode.exists_visits_eq [c.name] hbelow
    refine ⟨ClassNode.visitsOfList [] cs ++ before, after ++ ClassNode.visitsOfList [] cs', ?_⟩
    simp only [visits, htop, ClassNode.visitsOfList_eq, List.flatMap_append, List.flatMap_cons,
      List.nil_append, hvisits, List.append_assoc, List.cons_append]

/-- **What is written of a tree.** -/
theorem Holds.emits (h : t.Holds entries) : t.Emits t.visits where
  once := by
    refine ⟨h.visits_perm.nodup_iff.2 ?_, fun path e => h.mem_visits_iff⟩
    exact ClassNode.nodup_visitsOfList h.distinct.names fun c hc => (h.distinct.inner hc).nodup_visits _
  nested path n hpath hfind := by
    obtain ⟨before, after, hvisits⟩ := h.exists_visits_eq hpath hfind
    refine ⟨before, ClassNode.visitsOfList path n.children, after,
      ClassNode.emissions_visitsOfList path n.children, ?_⟩
    rw [hvisits, ClassNode.visits_eq, ClassNode.visitsOfList_eq]
    simp
  topLevel := ClassNode.emissions_visitsOfList [] t.topLevel

theorem Holds.map_snd_visits (h : t.Holds entries) : t.visits.map (·.2) = t.events := by
  rw [h.events_eq, visits, ClassNode.visitsOfList_eq, List.map_flatMap]
  exact List.flatMap_congr fun c _ => ClassNode.map_snd_visits (List.cons_ne_nil c.name []) c

end ClassTree

/-! ## Emitters -/

section
variable {α ε σ : Type}

namespace ClassNode

mutual
/-- Hands a class to an emitter (`emit_node`): its header, its inner classes in turn, its body. -/
def emit (step : σ → ClassEvent α → Except ε σ) (depth : Nat) : ClassNode α → σ → Except ε σ
  | ⟨name, decl, children⟩, s => do
    let s ← step s (.header ⟨name, decl, children⟩ depth)
    let s ← emitList step (depth + 1) children s
    step s (.body ⟨name, decl, children⟩ depth)

def emitList (step : σ → ClassEvent α → Except ε σ) (depth : Nat) :
    List (ClassNode α) → σ → Except ε σ
  | [], s => .ok s
  | c :: cs, s => do
    let s ← c.emit step depth s
    emitList step depth cs s
end

mutual
theorem foldlM_events (step : σ → ClassEvent α → Except ε σ) (depth : Nat) :
    ∀ (n : ClassNode α) (s : σ), (n.events depth).foldlM step s = n.emit step depth s
  | ⟨name, decl, children⟩, s => by
    simp [events, emit, foldlM_eventsOfList step (depth + 1) children]

theorem foldlM_eventsOfList (step : σ → ClassEvent α → Except ε σ) (depth : Nat) :
    ∀ (cs : List (ClassNode α)) (s : σ),
      (eventsOfList depth cs).foldlM step s = emitList step depth cs s
  | [], _ => rfl
  | c :: cs, s => by
    rw [eventsOfList, List.foldlM_append, foldlM_events step depth c, emitList]
    exact bind_congr fun s => foldlM_eventsOfList step depth cs s
end

end ClassNode

/-- An emitter that notes every header and body that it gets, also one at which it fails. -/
def recording (step : σ → ClassEvent α → Except ε σ) (seen : List (ClassEvent α) × σ)
    (e : ClassEvent α) : Except (List (ClassEvent α) × ε) (List (ClassEvent α) × σ) :=
  match step seen.2 e with
  | .ok s => .ok (seen.1 ++ [e], s)
  | .error reason => .error (seen.1 ++ [e], reason)

theorem foldlM_recording_of_ok {step : σ → ClassEvent α → Except ε σ} {events seen : List (ClassEvent α)}
    {s s' : σ} (h : events.foldlM step s = .ok s') :
    events.foldlM (recording step) (seen, s) = .ok (seen ++ events, s') := by
  induction events generalizing seen s with
  | nil => cases h; simp [pure, Except.pure]
  | cons e events ih =>
    rw [List.foldlM_cons] at h
    obtain ⟨s₁, hstep, h⟩ := bind_eq_ok_iff.1 h
    rw [List.foldlM_cons, recording, hstep]
    exact (ih h).trans (by simp)

theorem foldlM_recording_of_error {step : σ → ClassEvent α → Except ε σ}
    {events : List (ClassEvent α)} (seen : List (ClassEvent α)) {s : σ} {reason : ε}
    (h : events.foldlM step s = .error reason) :
    ∃ before last after s', events = before ++ last :: after ∧ before.foldlM step s = .ok s' ∧
      step s' last = .error reason ∧
      events.foldlM (recording step) (seen, s) = .error (seen ++ (before ++ [last]), reason) := by
  induction events generalizing seen s with
  | nil => cases h
  | cons e events ih =>
    rw [List.foldlM_cons] at h
    rcases bind_eq_error_iff.1 h with hstep | ⟨s₁, hstep, h⟩
    · exact ⟨[], e, events, s, rfl, rfl, hstep, by rw [List.foldlM_cons, recording, hstep]; rfl⟩
    · obtain ⟨before, last, after, s', hevents, hbefore, hlast, hseen⟩ := ih (seen ++ [e]) h
      refine ⟨e :: before, last, after, s', by rw [hevents]; rfl, ?_, hlast, ?_⟩
      · rw [List.foldlM_cons, hstep]
        exact hbefore
      · rw [List.foldlM_cons, recording, hstep]
        exact hseen.trans (by simp)

namespace ClassTree

/-- Hands the classes of a tree to an emitter (`emit`). -/
def emit (t : ClassTree α) (step : σ → ClassEvent α → Except ε σ) (start : σ) : Except ε σ :=
  ClassNode.emitList step 0 t.topLevel start

variable {t : ClassTree α} {entries : List (List String × α)}

theorem Holds.foldEvents_eq (h : t.Holds entries) (step : σ → ClassEvent α → Except ε σ) (start : σ) :
    t.foldEvents step start = t.emit step start := by
  rw [foldEvents, h.events_eq, ← ClassNode.eventsOfList_eq, emit, ClassNode.foldlM_eventsOfList]

end ClassTree

end

namespace Filling

/-- **Classes are written once, nested, and in order.** Types are put at non-empty paths one after
another. Every class of the tree then has one header and one body, and between them stands all that is
written of its inner classes, in their order. The classes of the top level that carry a type come in front,
in the order in which they first got one, the others behind them in the order in which they were made. An
emitter gets all headers and bodies in this order, or those up to the first at which it fails, and then
its reason is the result. -/
theorem ofCalls_emits (calls : List (ClassPath × TypeDecl))
    (hcalls : ∀ call ∈ calls, call.1.segments ≠ []) :
    ∃ visits, (ofCalls calls).tree.Emits visits ∧
      (ofCalls calls).tree.topLevel.map (·.name) =
        declaredNames calls ++ (firstNames calls).filter (· ∉ declaredNames calls) ∧
      (∀ c ∈ (ofCalls calls).tree.topLevel, c.decl.isSome = true ↔ c.name ∈ declaredNames calls) ∧
      ∀ {ε σ : Type} (step : σ → ClassEvent TypeDecl → Except ε σ) (start : σ),
        (ofCalls calls).tree.foldEvents step start = (ofCalls calls).tree.emit step start ∧
        (∀ s, (ofCalls calls).tree.foldEvents step start = .ok s →
          (ofCalls calls).tree.foldEvents (recording step) ([], start) = .ok (visits.map (·.2), s)) ∧
        ∀ reason, (ofCalls calls).tree.foldEvents step start = .error reason →
          ∃ before last after s, visits.map (·.2) = before ++ last :: after ∧
            before.foldlM step start = .ok s ∧ step s last = .error reason ∧
            (ofCalls calls).tree.foldEvents (recording step) ([], start) =
              .error (before ++ [last], reason) := by
  have hholds := holds_ofCalls hcalls
  have hcompleted := completed_ofCalls hcalls
  refine ⟨(ofCalls calls).tree.visits, hholds.emits, ?_, fun c hc => ?_, fun step start => ?_⟩
  · rw [hholds.map_name_topLevel hcompleted, map_name_ofCalls hcalls]
  · rw [← hholds.mem_completed_iff_isSome (hholds.topLevel_perm.mem_iff.1 hc), hcompleted,
      List.mem_map_of_injective List.singleton_injective]
  · rw [hholds.map_snd_visits]
    exact ⟨hholds.foldEvents_eq step start, fun s h => foldlM_recording_of_ok h,
      fun reason h => foldlM_recording_of_error [] h⟩

/-- The outer message is put after another one, but its class is made first. -/
def interleavedCalls : List (ClassPath × TypeDecl) :=
  [(⟨["Outer", "Inner"]⟩, inner), (⟨["b", "Outer"]⟩, stranger), (⟨["Other"]⟩, stranger),
    (⟨["Outer"]⟩, outer), (⟨["Other"]⟩, stranger)]

/-- Counts what is written, and fails at the body of a class named `Inner`. -/
def refuseInner (count : Nat) : ClassEvent TypeDecl → Except String Nat
  | .header _ _ => .ok (count + 1)
  | .body n _ => if n.name = "Inner" then .error n.name else .ok (count + 1)

theorem ofCalls_emits_interleaved :
    (∀ call ∈ interleavedCalls, call.1.segments ≠ []) ∧
    (ofCalls interleavedCalls).tree.topLevel.map (·.name) = ["Other", "Outer", "b"] ∧
    (ofCalls interleavedCalls).tree.foldEvents refuseInner 0 = .error "Inner" ∧
    ∃ visits, (ofCalls interleavedCalls).tree.Emits visits ∧
      ∃ before last after, visits.map (·.2) = before ++ last :: after ∧ last.node.name = "Inner" ∧
        (ofCalls interleavedCalls).tree.foldEvents (recording refuseInner) ([], 0) =
          .error (before ++ [last], "Inner") := by
  have hcalls : ∀ call ∈ interleavedCalls, call.1.segments ≠ [] := by decide
  have hfails : (ofCalls interleavedCalls).tree.foldEvents refuseInner 0 = .error "Inner" := by rfl
  obtain ⟨visits, hemits, horder, _, hemitter⟩ := ofCalls_emits interleavedCalls hcalls
  obtain ⟨before, last, after, s, hvisits, _, hlast, hseen⟩ := (hemitter refuseInner 0).2.2 _ hfails
  refine ⟨hcalls, horder.trans (by rfl), hfails, visits, hemits, before, last, after, hvisits, ?_, hseen⟩
  cases last with
  | header n depth => cases hlast
  | body n depth =>
    by_contra hname
    exact absurd hlast (by simp [refuseInner, show ¬ n.name = "Inner" from hname])

end Filling
end ProtoModels
