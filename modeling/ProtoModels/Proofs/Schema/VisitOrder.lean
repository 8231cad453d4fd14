import Mathlib.Data.List.Basic
import ProtoModels.Proofs.Schema.WalkBound
/-!
# The order of the visits

A message is visited when everything below it has been entered, and all else as it is entered. So the
enums and the fields of a message are visited before it, but a nested message that has been entered from
elsewhere may still be waiting (`children_precede_iff`): this is so exactly if, when the nested message
is entered, the walk gets from it to the message around it past the names that it has seen.
`Walk.Enters.mem_visited_iff` is the reason: entering some declarations visits what can be reached from
them past these names, no more and no less.
-/
namespace ProtoModels

/-! ## Positions in a list of visits -/

/-- The visit of `d` is in the list, and that of `c` in front of it. -/
def Precedes (visits : List Decl) (c d : Decl) : Prop :=
  ∃ before after, visits = before ++ d :: after ∧ c ∈ before

section
variable {before after : List Decl} {c d : Decl}

theorem precedes_append_iff (hnodup : (before ++ d :: after).Nodup) :
    Precedes (before ++ d :: after) c d ↔ c ∈ before := by
  refine ⟨?_, fun hc => ⟨before, after, rfl, hc⟩⟩
  rintro ⟨before', after', heq, hc⟩
  have hd := (List.nodup_cons.1 (List.nodup_middle.1 hnodup)).1
  rw [List.mem_append, not_or] at hd
  obtain ⟨rfl, -, -⟩ := (List.append_cons_inj_of_notMem hd.1 hd.2).1 heq
  exact hc

/-- In a list with the latest visit first, what comes before a visit stands behind it. -/
theorem precedes_reverse_iff {visits : List Decl} (hnodup : visits.Nodup)
    (hd : d :: before <:+ visits) : Precedes visits.reverse c d ↔ c ∈ before := by
  obtain ⟨later, rfl⟩ := hd
  have hsplit : (later ++ d :: before).reverse = before.reverse ++ d :: later.reverse := by simp
  rw [← List.nodup_reverse, hsplit] at hnodup
  rw [hsplit, precedes_append_iff hnodup, List.mem_reverse]

/-- Of two visits one precedes the other, and not the other way round. -/
theorem precedes_iff_not {visits : List Decl} (hnodup : visits.Nodup) (hc : c ∈ visits)
    (hd : d ∈ visits) (hne : c ≠ d) : Precedes visits c d ↔ ¬ Precedes visits d c := by
  obtain ⟨before, after, rfl⟩ := List.append_of_mem hd
  rw [precedes_append_iff hnodup]
  rcases List.mem_append.1 hc with hbefore | hafter
  · obtain ⟨first, second, rfl⟩ := List.append_of_mem hbefore
    have hsplit : first ++ c :: second ++ d :: after = first ++ c :: (second ++ d :: after) := by simp
    rw [hsplit] at hnodup ⊢
    rw [precedes_append_iff hnodup]
    refine iff_of_true (by simp) fun hfirst => ?_
    exact (List.nodup_append.1 hnodup).2.2 d hfirst d (by simp) rfl
  · have hafter := (List.mem_cons.1 hafter).resolve_left hne
    obtain ⟨first, second, rfl⟩ := List.append_of_mem hafter
    have hsplit : before ++ d :: (first ++ c :: second) = before ++ d :: first ++ c :: second := by simp
    rw [hsplit] at hnodup ⊢
    rw [precedes_append_iff hnodup]
    refine iff_of_false (fun hbefore => ?_) (by simp)
    exact (List.nodup_append.1 hnodup).2.2 c (by simp [hbefore]) c (by simp) rfl

/-- Where no name repeats, the positions of the names tell which visit precedes the other. -/
theorem Precedes.idxOf_name_lt {visits : List Decl} (h : Precedes visits c d)
    (hnodup : (visits.map Decl.name).Nodup) :
    (visits.map Decl.name).idxOf c.name < (visits.map Decl.name).idxOf d.name := by
  obtain ⟨before, after, rfl, hc⟩ := h
  rw [List.map_append, List.map_cons] at hnodup ⊢
  have hc : c.name ∈ before.map Decl.name := List.mem_map_of_mem hc
  have hd : d.name ∉ before.map Decl.name := fun hmem =>
    (List.nodup_append.1 hnodup).2.2 _ hmem _ (List.mem_cons_self ..) rfl
  rw [List.idxOf_append, if_pos hc, List.idxOf_append, if_neg hd]
  exact Nat.lt_of_lt_of_le (List.idxOf_lt_length_iff.2 hc) (Nat.le_add_left _ _)

end

/-- No message is declared in itself. -/
theorem Message.ne_of_mem_messages {m n : Message} (hn : n ∈ m.messages) : m ≠ n := by
  rintro rfl
  have hlt := List.sizeOf_lt_of_mem hn
  cases m
  simp only [Message.mk.sizeOf_spec] at hlt
  omega

/-! ## What can be reached past the names that have been seen -/

/-- What can be reached from some declarations without passing through a name that has been seen. -/
inductive ReachedPast (s : Schema) (visit : Decl → Bool) (seen : List String) (ds : List Decl) :
    Decl → Prop where
  | start {d : Decl} : d ∈ ds → d.name ∉ seen → ReachedPast s visit seen ds d
  | step {d c : Decl} : ReachedPast s visit seen ds d → Leads s visit d c → c.name ∉ seen →
      ReachedPast s visit seen ds c

namespace ReachedPast

variable {s : Schema} {visit : Decl → Bool} {seen seen' : List String} {ds ds' : List Decl} {c d : Decl}

theorem name_not_mem (h : ReachedPast s visit seen ds c) : c.name ∉ seen := by
  cases h with
  | start _ hnew => exact hnew
  | step _ _ hnew => exact hnew

/-- Starting from what is itself reached, and avoiding more names, leads nowhere else. -/
theorem lift (h : ReachedPast s visit seen' ds' c) (hseen : seen ⊆ seen')
    (hds : ∀ d ∈ ds', d.name ∉ seen' → ReachedPast s visit seen ds d) :
    ReachedPast s visit seen ds c := by
  induction h with
  | start hd hnew => exact hds _ hd hnew
  | step _ hl hnew ih => exact ih.step hl fun hmem => hnew (hseen hmem)

/-- From a declaration on, what it leads to may be taken for where to start. -/
theorem onward (hd : ReachedPast s visit seen ds d) (hlead : ∀ d' ∈ ds', Leads s visit d d')
    (h : ReachedPast s visit (d.name :: seen) ds' c) : ReachedPast s visit seen ds c :=
  h.lift (List.subset_cons_self ..) fun d' hd' hnew =>
    hd.step (hlead d' hd') (not_or.1 (mt List.mem_cons.2 hnew)).2

/-- What the later declarations lead to past more names. -/
theorem behind (hseen : seen ⊆ seen') (h : ReachedPast s visit seen' ds c) :
    ReachedPast s visit seen (d :: ds) c :=
  h.lift hseen fun _ hd' hnew => .start (List.mem_cons_of_mem _ hd') fun hmem => hnew (hseen hmem)

end ReachedPast

namespace Walk

variable {s : Schema} {visit : Decl → Bool} {ds : List Decl} {p p' : Progress} {c d : Decl} {m : Message}

/-- Below a message is what it leads to. -/
theorem mem_below_message_iff : c ∈ (Decl.message m).below s ↔ Leads s visit (.message m) c := by
  rw [← @enter_mem_step_iff s visit [] (.message m), enter_message]
  simp

/-- What is entered behind a declaration that is no message is what it leads to. -/
theorem mem_answer_iff (hd : ∀ m, d ≠ .message m) :
    c ∈ (if visit d then d.below s else []) ↔ Leads s visit d c := by
  rw [← @enter_mem_step_iff s visit [], enter_other _ _ _ hd]
  simp

/-! ## What a walk has done so far -/

/-- A declaration that is no message is visited when its name is seen. A message is visited only after
all that it leads to has been seen. -/
structure Progress.Orderly (s : Schema) (visit : Decl → Bool) (p : Progress) : Prop where
  seen : ∀ d ∈ p.visited, d.name ∈ p.seen
  visited : ∀ d ∈ s.decls, (∀ m, d ≠ .message m) → d.name ∈ p.seen → d ∈ p.visited
  inner : ∀ m, .message m ∈ p.visited → ∀ c, Leads s visit (.message m) c → c.name ∈ p.seen

theorem Progress.Orderly.initial : Progress.Orderly s visit {} :=
  ⟨by simp, by simp, by simp⟩

namespace Progress.Orderly

variable (hp : p.Orderly s visit)
include hp

/-- A message is entered. -/
theorem enter (hs : s.names.Nodup) (hm : .message m ∈ s.decls) :
    Orderly s visit ⟨m.fullName :: p.seen, p.visited⟩ where
  seen d hd := List.mem_cons_of_mem _ (hp.seen d hd)
  visited d hd hother hname := by
    rcases List.mem_cons.1 hname with hname | hname
    · exact absurd (Schema.eq_of_name_eq hs hd hm hname) (hother m)
    · exact hp.visited d hd hother hname
  inner m' hm' c hl := List.mem_cons_of_mem _ (hp.inner m' hm' c hl)

/-- A message is left when all below it has been seen. -/
theorem leave (hm : m.fullName ∈ p.seen)
    (hinner : ∀ c, Leads s visit (.message m) c → c.name ∈ p.seen) :
    Orderly s visit ⟨p.seen, .message m :: p.visited⟩ where
  seen d hd := by
    rcases List.mem_cons.1 hd with rfl | hd
    · exact hm
    · exact hp.seen d hd
  visited d hd hother hname := List.mem_cons_of_mem _ (hp.visited d hd hother hname)
  inner m' hm' := by
    rcases List.mem_cons.1 hm' with heq | hm'
    · cases heq
      exact hinner
    · exact hp.inner m' hm'

/-- A declaration that is no message is entered and visited. -/
theorem enterOther (hs : s.names.Nodup) (hd : d ∈ s.decls) (hother : ∀ m, d ≠ .message m) :
    Orderly s visit ⟨d.name :: p.seen, d :: p.visited⟩ where
  seen c hc := by
    rcases List.mem_cons.1 hc with rfl | hc
    · exact List.mem_cons_self ..
    · exact List.mem_cons_of_mem _ (hp.seen c hc)
  visited c hc hc' hname := by
    rcases List.mem_cons.1 hname with hname | hname
    · rw [Schema.eq_of_name_eq hs hc hd hname]
      exact List.mem_cons_self ..
    · exact List.mem_cons_of_mem _ (hp.visited c hc hc' hname)
  inner m hm c hl := by
    rcases List.mem_cons.1 hm with heq | hm
    · exact absurd heq.symm (hother m)
    · exact List.mem_cons_of_mem _ (hp.inner m hm c hl)

end Progress.Orderly

namespace Enters

/-- What has been seen stays in place behind what is seen later. -/
theorem seen_suffix (h : Enters s (fun _ d => visit d) ds p p') : p.seen <:+ p'.seen := by
  induction h with
  | done => exact List.suffix_refl _
  | seen _ _ ih => exact ih
  | message _ _ _ ihBelow ih => exact ((List.suffix_cons _ _).trans ihBelow).trans ih
  | other _ _ _ _ ihBelow ih => exact ((List.suffix_cons _ _).trans ihBelow).trans ih

/-- What has been visited stays in place behind what is visited later. -/
theorem visited_suffix (h : Enters s (fun _ d => visit d) ds p p') : p.visited <:+ p'.visited := by
  induction h with
  | done => exact List.suffix_refl _
  | seen _ _ ih => exact ih
  | message _ _ _ ihBelow ih => exact (ihBelow.trans (List.suffix_cons _ _)).trans ih
  | other _ _ _ _ ihBelow ih => exact ((List.suffix_cons _ _).trans ihBelow).trans ih

/-- No name is seen twice. -/
theorem seen_nodup (h : Enters s (fun _ d => visit d) ds p p') (hp : p.seen.Nodup) : p'.seen.Nodup := by
  induction h with
  | done => exact hp
  | seen _ _ ih => exact ih hp
  | message hnew _ _ ihBelow ih => exact ih (ihBelow (List.nodup_cons.2 ⟨hnew, hp⟩))
  | other _ hnew _ _ ihBelow ih => exact ih (ihBelow (List.nodup_cons.2 ⟨hnew, hp⟩))

/-- All declarations that are to be entered have been seen in the end. -/
theorem name_mem_seen (h : Enters s (fun _ d => visit d) ds p p') : ∀ d ∈ ds, d.name ∈ p'.seen := by
  induction h with
  | done => simp
  | seen hseen h ih => exact List.forall_mem_cons.2 ⟨h.seen_subset hseen, ih⟩
  | message _ hbelow h _ ih =>
    exact List.forall_mem_cons.2 ⟨h.seen_subset (hbelow.seen_subset (List.mem_cons_self ..)), ih⟩
  | other _ _ hbelow h _ ih =>
    exact List.forall_mem_cons.2 ⟨h.seen_subset (hbelow.seen_subset (List.mem_cons_self ..)), ih⟩

theorem orderly (hs : s.names.Nodup) (h : Enters s (fun _ d => visit d) ds p p')
    (hds : ∀ d ∈ ds, d ∈ s.decls) (hp : p.Orderly s visit) : p'.Orderly s visit := by
  induction h with
  | done => exact hp
  | seen _ _ ih => exact ih (List.forall_mem_cons.1 hds).2 hp
  | message _ hbelow _ ihBelow ih =>
    rw [List.forall_mem_cons] at hds
    refine ih hds.2 ((ihBelow (below_subset_decls hds.1) (hp.enter hs hds.1)).leave ?_ fun c hl => ?_)
    · exact hbelow.seen_subset (List.mem_cons_self ..)
    · exact hbelow.name_mem_seen c (mem_below_message_iff.2 hl)
  | other hother _ _ _ ihBelow ih =>
    rw [List.forall_mem_cons] at hds
    exact ih hds.2 (ihBelow (below_answer_subset_decls hds.1 _) (hp.enterOther hs hds.1 hother))

/-! ## What is visited -/

/-- What is visited was visited before, or is reached past the names that had been seen. -/
theorem reachedPast (h : Enters s (fun _ d => visit d) ds p p') :
    ∀ c ∈ p'.visited, c ∈ p.visited ∨ ReachedPast s visit p.seen ds c := by
  induction h with
  | done => exact fun c hc => Or.inl hc
  | seen _ _ ih => exact fun c hc => (ih c hc).imp_right (.behind (List.Subset.refl _))
  | @message m ds p p₁ p' hnew hbelow _ ihBelow ih =>
    intro c hc
    have hself : ReachedPast s visit p.seen (.message m :: ds) (.message m) :=
      .start (List.mem_cons_self ..) hnew
    rcases ih c hc with hc | hc
    · rcases List.mem_cons.1 hc with rfl | hc
      · exact Or.inr hself
      · exact (ihBelow c hc).imp_right (.onward hself fun _ => mem_below_message_iff.1)
    · exact Or.inr (hc.behind (List.Subset.trans (List.subset_cons_self ..) hbelow.seen_subset))
  | @other d ds p p₁ p' hother hnew hbelow _ ihBelow ih =>
    intro c hc
    have hself : ReachedPast s visit p.seen (d :: ds) d := .start (List.mem_cons_self ..) hnew
    rcases ih c hc with hc | hc
    · rcases ihBelow c hc with hc | hc
      · rcases List.mem_cons.1 hc with rfl | hc
        · exact Or.inr hself
        · exact Or.inl hc
      · exact Or.inr (hself.onward (fun _ => (mem_answer_iff hother).1) hc)
    · exact Or.inr (hc.behind (List.Subset.trans (List.subset_cons_self ..) hbelow.seen_subset))

/-- A declaration whose name has been seen in the meantime has been visited. -/
theorem mem_visited_of_seen (hs : s.names.Nodup) (h : Enters s (fun _ d => visit d) ds p p')
    (hds : ∀ d ∈ ds, d ∈ s.decls) (hc : c ∈ s.decls) (hseen : c.name ∈ p'.seen) (hnew : c.name ∉ p.seen) :
    c ∈ p'.visited := by
  induction h with
  | done => exact absurd hseen hnew
  | seen _ _ ih => exact ih (List.forall_mem_cons.1 hds).2 hseen hnew
  | @message m ds p p₁ p' _ hbelow h ihBelow ih =>
    rw [List.forall_mem_cons] at hds
    by_cases hinner : c.name ∈ p₁.seen
    · refine h.visited_suffix.subset ?_
      by_cases hname : c.name = m.fullName
      · rw [Schema.eq_of_name_eq hs hc hds.1 hname]
        exact List.mem_cons_self ..
      · exact List.mem_cons_of_mem _ (ihBelow (below_subset_decls hds.1) hinner (by simp [hname, hnew]))
    · exact ih hds.2 hseen hinner
  | @other d ds p p₁ p' _ _ hbelow h ihBelow ih =>
    rw [List.forall_mem_cons] at hds
    by_cases hinner : c.name ∈ p₁.seen
    · refine h.visited_suffix.subset ?_
      by_cases hname : c.name = d.name
      · rw [Schema.eq_of_name_eq hs hc hds.1 hname]
        exact hbelow.visited_suffix.subset (List.mem_cons_self ..)
      · exact ihBelow (below_answer_subset_decls hds.1 _) hinner (by simp [hname, hnew])
    · exact ih hds.2 hseen hinner

/-- What has been visited in the meantime leads to what has been seen. -/
theorem leads_seen (h : Enters s (fun _ d => visit d) ds p p') (hc : c ∈ p'.visited)
    (hnew : c ∉ p.visited) : ∀ c', Leads s visit c c' → c'.name ∈ p'.seen := by
  induction h with
  | done => exact absurd hc hnew
  | seen _ _ ih => exact ih hc hnew
  | @message m ds p p₁ p' _ hbelow h ihBelow ih =>
    intro c' hl
    by_cases hinner : c ∈ p₁.visited
    · exact h.seen_subset (ihBelow hinner hnew c' hl)
    · by_cases hself : c = .message m
      · subst hself
        exact h.seen_subset (hbelow.name_mem_seen c' (mem_below_message_iff.2 hl))
      · exact ih hc (by simp [hself, hinner]) c' hl
  | @other d ds p p₁ p' hother _ hbelow h ihBelow ih =>
    intro c' hl
    by_cases hinner : c ∈ p₁.visited
    · by_cases hself : c = d
      · subst hself
        exact h.seen_subset (hbelow.name_mem_seen c' ((mem_answer_iff hother).2 hl))
      · exact h.seen_subset (ihBelow hinner (by simp [hself, hnew]) c' hl)
    · exact ih hc hinner c' hl

/-- **What entering some declarations visits** is what can be reached from them past the names that had
been seen. -/
theorem mem_visited_iff (hs : s.names.Nodup) (h : Enters s (fun _ d => visit d) ds p p')
    (hds : ∀ d ∈ ds, d ∈ s.decls) (hp : p.Orderly s visit) :
    c ∈ p'.visited ↔ c ∈ p.visited ∨ ReachedPast s visit p.seen ds c := by
  refine ⟨h.reachedPast c, fun hc => ?_⟩
  rcases hc with hc | hc
  · exact h.visited_suffix.subset hc
  · have hdecls : ∀ c, ReachedPast s visit p.seen ds c → c ∈ s.decls := by
      intro c hc
      induction hc with
      | start hd _ => exact hds _ hd
      | step _ hl _ ih => exact Schema.mem_decls_of_leads hl ih
    have hseen : c.name ∈ p'.seen ∧ c ∈ p'.visited := by
      induction hc with
      | start hd hnew =>
        have hname := h.name_mem_seen _ hd
        exact ⟨hname, h.mem_visited_of_seen hs hds (hds _ hd) hname hnew⟩
      | step hfrom hl hnew ih =>
        have hfresh := fun hmem => hfrom.name_not_mem (hp.seen _ hmem)
        have hname := h.leads_seen ih.2 hfresh _ hl
        exact ⟨hname, h.mem_visited_of_seen hs hds (hdecls _ (hfrom.step hl hnew)) hname hnew⟩
    exact hseen.2

/-- How a message comes to be visited: at some time it is entered, then all below it, and then it is
left. -/
theorem exists_entry (hs : s.names.Nodup) (h : Enters s (fun _ d => visit d) ds p p')
    (hds : ∀ d ∈ ds, d ∈ s.decls) (hp : p.Orderly s visit) (hm : .message m ∈ p'.visited)
    (hnew : .message m ∉ p.visited) :
    ∃ q q₁ : Progress, q.Orderly s visit ∧ m.fullName ∉ q.seen ∧
      Enters s (fun _ d => visit d) ((Decl.message m).below s) ⟨m.fullName :: q.seen, q.visited⟩ q₁ ∧
      q₁.seen <:+ p'.seen ∧ .message m :: q₁.visited <:+ p'.visited := by
  induction h with
  | done => exact absurd hm hnew
  | seen _ _ ih => exact ih (List.forall_mem_cons.1 hds).2 hp hm hnew
  | @message m' ds p p₁ p' hfresh hbelow h ihBelow ih =>
    rw [List.forall_mem_cons] at hds
    have hentered := hp.enter hs hds.1
    by_cases hinner : .message m ∈ p₁.visited
    · obtain ⟨q, q₁, hq, hqm, hqbelow, hseen, hvisited⟩ :=
        ihBelow (below_subset_decls hds.1) hentered hinner hnew
      exact ⟨q, q₁, hq, hqm, hqbelow, hseen.trans h.seen_suffix,
        (hvisited.trans (List.suffix_cons _ _)).trans h.visited_suffix⟩
    · by_cases hself : m = m'
      · subst hself
        exact ⟨p, p₁, hp, hfresh, hbelow, h.seen_suffix, h.visited_suffix⟩
      · have hp₁ := hbelow.orderly hs (below_subset_decls hds.1) hentered
        have hleft := hp₁.leave (hbelow.seen_subset (List.mem_cons_self ..)) fun c hl =>
          hbelow.name_mem_seen c (mem_below_message_iff.2 hl)
        exact ih hds.2 hleft hm (by simp [hself, hinner])
  | @other d ds p p₁ p' hother hfresh hbelow h ihBelow ih =>
    rw [List.forall_mem_cons] at hds
    have hentered := hp.enterOther hs hds.1 hother
    by_cases hinner : .message m ∈ p₁.visited
    · have hself : .message m ≠ d := (hother m).symm
      obtain ⟨q, q₁, hq, hqm, hqbelow, hseen, hvisited⟩ :=
        ihBelow (below_answer_subset_decls hds.1 _) hentered hinner (by simp [hself, hnew])
      exact ⟨q, q₁, hq, hqm, hqbelow, hseen.trans h.seen_suffix, hvisited.trans h.visited_suffix⟩
    · exact ih hds.2 (hbelow.orderly hs (below_answer_subset_decls hds.1 _) hentered) hm hinner

/-! ## The order of a walk -/

section
variable (hs : s.names.Nodup) (hds : ∀ d ∈ ds, d ∈ s.decls)
  (h : Enters s (fun _ d => visit d) ds {} p) (hnodup : p.visited.Nodup) (hm : .message m ∈ p.visited)
include hs hds h hm

/-- What a visited message leads to is visited. -/
theorem mem_visited_of_leads (hl : Leads s visit (.message m) c) : c ∈ p.visited := by
  have horderly := h.orderly hs hds .initial
  have hc : c ∈ s.decls :=
    Schema.mem_decls_of_leads hl (h.visited_subset_decls hds (by simp) _ hm)
  exact h.mem_visited_of_seen hs hds hc (horderly.inner m hm c hl) (by simp)

include hnodup

/-- What is declared in a message and is no message is visited before it. -/
theorem other_precedes (hl : Leads s visit (.message m) c) (hother : ∀ n, c ≠ .message n) :
    Precedes p.visited.reverse c (.message m) := by
  obtain ⟨q, q₁, hq, _, hbelow, _, hsuffix⟩ := h.exists_entry hs hds .initial hm (by simp)
  have hmessage := h.visited_subset_decls hds (by simp) _ hm
  have hq₁ := hbelow.orderly hs (below_subset_decls hmessage) (hq.enter hs hmessage)
  have hseen : c.name ∈ q₁.seen := hbelow.name_mem_seen c (mem_below_message_iff.2 hl)
  rw [precedes_reverse_iff hnodup hsuffix]
  exact hq₁.visited c (Schema.mem_decls_of_leads hl hmessage) hother hseen

/-- A message is visited before a message that is declared in it exactly if it is reached from that one
past the names that had been seen when that one was entered. -/
theorem precedes_nested_iff {n : Message} (hn : n ∈ m.messages) : ∃ earlier,
    n.fullName :: earlier <:+ p.seen ∧ (Precedes p.visited.reverse (.message m) (.message n) ↔
      ReachedPast s visit earlier [.message n] (.message m)) := by
  have hl : Leads s visit (.message m) (.message n) := .nestedMessage hn
  have hvisited := h.mem_visited_of_leads hs hds hm hl
  have hmessage := h.visited_subset_decls hds (by simp) _ hvisited
  obtain ⟨q, q₁, hq, hnew, hbelow, hseen, hsuffix⟩ := h.exists_entry hs hds .initial hvisited (by simp)
  refine ⟨q.seen, hbelow.seen_suffix.trans hseen, ?_⟩
  have hone : Enters s (fun _ d => visit d) [.message n] q ⟨q₁.seen, .message n :: q₁.visited⟩ :=
    .message hnew hbelow .done
  -- the outer message cannot have been visited before the nested one was entered
  have hlater : .message m ∉ q.visited := fun hmem => hnew (hq.inner m hmem _ hl)
  have hreached := hone.mem_visited_iff hs (by simpa using hmessage) hq (c := .message m)
  rw [or_iff_right hlater, List.mem_cons, Decl.message.injEq,
    or_iff_right (Message.ne_of_mem_messages hn)] at hreached
  rw [precedes_reverse_iff hnodup hsuffix, hreached]

end

end Enters
end Walk

/-- **When what is declared in a message is visited before it.** Where all names are distinct, a walk
visits the enums and the fields of a message before the message. A nested message is entered when some
names, `earlier`, have been seen. If the message around it is reached from it past these names it is
visited later than that message, and otherwise before it. -/
theorem children_precede_iff {s : Schema} (hs : s.names.Nodup) {roots : List File}
    (hroots : ∀ f ∈ roots, f ∈ s.files) (visit : Decl → Bool) :
    let visits := s.walk roots fun _ d => visit d
    ∃ p, Walk.Enters s (fun _ d => visit d) (roots.map .file) {} p ∧ visits = p.visited.reverse ∧
      p.seen.Nodup ∧ ∀ m, .message m ∈ visits →
        (∀ e ∈ m.enums, Precedes visits (.enum e) (.message m)) ∧
        (∀ f ∈ m.fields, Precedes visits (.field f) (.message m)) ∧
        ∀ n ∈ m.messages, ∃ earlier, n.fullName :: earlier <:+ p.seen ∧
          (Precedes visits (.message n) (.message m) ↔
            ¬ ReachedPast s visit earlier [.message n] (.message m)) ∧
          (Precedes visits (.message m) (.message n) ↔
            ReachedPast s visit earlier [.message n] (.message m)) := by
  intro visits
  have hdecls : ∀ d ∈ roots.map Decl.file, d ∈ s.decls := by simpa using hroots
  obtain ⟨p, hp⟩ := Walk.exists_enters s (fun _ d => visit d) {} (roots.map .file) hdecls
  have hvisits : visits = p.visited.reverse := Schema.walk_eq_of_enters hroots hp
  have hnodup : p.visited.Nodup := by
    rw [← List.nodup_reverse, ← hvisits]
    exact s.walk_nodup roots _
  refine ⟨p, hp, hvisits, hp.seen_nodup List.nodup_nil, fun m hm => ?_⟩
  rw [hvisits, List.mem_reverse] at hm
  rw [hvisits]
  refine ⟨fun e he => ?_, fun f hf => ?_, fun n hn => ?_⟩
  · exact hp.other_precedes hs hdecls hnodup hm (.nestedEnum he) (by simp)
  · exact hp.other_precedes hs hdecls hnodup hm (.ownField hf) (by simp)
  · obtain ⟨earlier, hearlier, hiff⟩ := hp.precedes_nested_iff hs hdecls hnodup hm hn
    refine ⟨earlier, hearlier, ?_, hiff⟩
    have hvisited := hp.mem_visited_of_leads hs hdecls hm (.nestedMessage hn)
    rw [← hiff]
    refine precedes_iff_not (List.nodup_reverse.2 hnodup) ?_ ?_ ?_
    · rwa [List.mem_reverse]
    · rwa [List.mem_reverse]
    · simpa using (Message.ne_of_mem_messages hn).symm

/-- A tree whose leaves refer back to it, and a holder of a leaf in front of the tree. -/
def leafFiles : List Descriptor.File := [
  { name := "garden.proto"
    package := "garden"
    messages := [
      { name := "Holder"
        fields := [{ name := "leaf", kind := some 11, typeName := some ".garden.Tree.Leaf" }] },
      { name := "Tree"
        nested := [
          { name := "Leaf"
            fields := [{ name := "tree", kind := some 11, typeName := some ".garden.Tree" }] }] }] }]

/-- The leaf is entered first, but it waits for the tree. -/
theorem map_name_walk_leafFiles :
    let s := Schema.ofDescriptors leafFiles {}
    (s.walk s.files fun _ _ => true).map Decl.name =
      ["garden.proto", "garden.Holder.leaf", "garden.Tree.Leaf.tree", "garden.Tree",
        "garden.Tree.Leaf", "garden.Holder"] :=
  Schema.map_name_walk 20 (by decide +kernel)

theorem names_nodup_leafFiles : (Schema.ofDescriptors leafFiles {}).names.Nodup := by decide +kernel

theorem exists_tree_leafFiles :
    let s := Schema.ofDescriptors leafFiles {}
    let visits := s.walk s.files fun _ _ => true
    ∃ tree leaf, .message tree ∈ visits ∧ leaf ∈ tree.messages ∧ tree.fullName = "garden.Tree" ∧
      leaf.fullName = "garden.Tree.Leaf" ∧ ¬ Precedes visits (.message leaf) (.message tree) := by
  intro s visits
  obtain ⟨file, holder, tree, leaf, hfile, hmessages, hleaf, htreeName, hleafName⟩ :
      ∃ file holder tree leaf, s.files = [file] ∧ file.messages = [holder, tree] ∧
        tree.messages = [leaf] ∧ tree.fullName = "garden.Tree" ∧
        leaf.fullName = "garden.Tree.Leaf" :=
    ⟨_, _, _, _, rfl, rfl, rfl, by decide +kernel, by decide +kernel⟩
  refine ⟨tree, leaf, ?_, hleaf ▸ List.mem_singleton_self leaf, htreeName, hleafName, fun h => ?_⟩
  · refine (@Schema.mem_walk_iff s s.files names_nodup_leafFiles (fun _ hf => hf) (fun _ => true) _).2 ?_
    exact (Reached.root (f := file) (by simp [hfile])).step (.fileMessage rfl (by simp [hmessages]))
  · have horder := h.idxOf_name_lt (s.walk_names_nodup _ _)
    rw [map_name_walk_leafFiles, Decl.name, Decl.name, htreeName, hleafName] at horder
    exact absurd horder (by decide +kernel)

theorem children_precede_iff_leaf :
    let s := Schema.ofDescriptors leafFiles {}
    let visits := s.walk s.files fun _ _ => true
    s.names.Nodup ∧ (∀ f ∈ s.files, f ∈ s.files) ∧
    ∃ tree leaf, .message tree ∈ visits ∧ leaf ∈ tree.messages ∧ tree.fullName = "garden.Tree" ∧
      leaf.fullName = "garden.Tree.Leaf" ∧ Precedes visits (.message tree) (.message leaf) ∧
      ∃ earlier, ReachedPast s (fun _ => true) earlier [.message leaf] (.message tree) := by
  intro s visits
  obtain ⟨tree, leaf, htree, hleaf, htreeName, hleafName, hnot⟩ := exists_tree_leafFiles
  obtain ⟨p, -, -, -, hmessages⟩ :=
    children_precede_iff names_nodup_leafFiles (fun _ hf => hf) fun _ => true
  obtain ⟨earlier, -, hbefore, hafter⟩ := (hmessages tree htree).2.2 leaf hleaf
  have hreached : ReachedPast s (fun _ => true) earlier [.message leaf] (.message tree) := by
    by_contra hmissed
    exact hnot (hbefore.2 hmissed)
  exact ⟨names_nodup_leafFiles, fun _ hf => hf, tree, leaf, htree, hleaf, htreeName, hleafName,
    hafter.2 hreached, earlier, hreached⟩

/-- A message can be visited before a message that is declared in it. -/
theorem tree_precedes_leaf :
    let s := Schema.ofDescriptors leafFiles {}
    let visits := s.walk s.files fun _ _ => true
    Schema.build leafFiles {} = .ok s ∧ s.names.Nodup ∧
    ¬ ∀ m, .message m ∈ visits →
      (∀ e ∈ m.enums, Precedes visits (.enum e) (.message m)) ∧
      (∀ f ∈ m.fields, Precedes visits (.field f) (.message m)) ∧
      ∀ n ∈ m.messages, Precedes visits (.message n) (.message m) := by
  intro s visits
  refine ⟨Schema.build_eq_ok_iff.2 ⟨rfl, by decide +kernel⟩, names_nodup_leafFiles, fun h => ?_⟩
  obtain ⟨tree, leaf, htree, hleaf, -, -, hnot⟩ := exists_tree_leafFiles
  exact hnot ((h tree htree).2.2 leaf hleaf)

end ProtoModels
