import ProtoModels.ModuleText
import ProtoModels.Proofs.Traversals
/-!
# What a module is written of

Every opening and closing of a class is written as a block of lines (`ClassEvent.block`), and only
finding the blocks can fail: `ModuleText.ofTree_eq` says that a module is its head, followed by the
blocks of all events. So a module fails exactly if the block of an event does.
-/
namespace ProtoModels

open Source (Line)

/-- What is written at the opening or closing of a class, as if it were at the margin. -/
def ClassEvent.block (c : ModuleContext) : ClassEvent TypeDecl → Except CompileError (List Line)
  | .header n _ => .ok n.opening
  | .body n _ => n.closing c

/-- An event with its block. -/
def ClassEvent.written (c : ModuleContext) (e : ClassEvent TypeDecl) :
    Except CompileError (ClassEvent TypeDecl × List Line) :=
  (e.block c).map (e, ·)

theorem ClassEvent.written_eq_ok_iff {c : ModuleContext} {e : ClassEvent TypeDecl}
    {p : ClassEvent TypeDecl × List Line} :
    e.written c = .ok p ↔ p.1 = e ∧ e.block c = .ok p.2 := by
  obtain ⟨e', block⟩ := p
  unfold written
  cases e.block c <;> simp [Except.map, eq_comm]

/-- All events with their blocks, in their order. -/
theorem ClassEvent.mapM_written {c : ModuleContext} {events : List (ClassEvent TypeDecl)}
    {blocks : List (ClassEvent TypeDecl × List Line)} (h : events.mapM (written c) = .ok blocks) :
    blocks.map (·.1) = events ∧ ∀ p ∈ blocks, p.1.block c = .ok p.2 := by
  have hpairs := mapM_eq_ok_iff.1 h
  clear h
  induction hpairs with
  | nil => simp
  | cons hp _ ih =>
    obtain ⟨rfl, hblock⟩ := written_eq_ok_iff.1 hp
    rw [List.map_cons, List.forall_mem_cons, ih.1]
    exact ⟨rfl, hblock, ih.2⟩

theorem ClassEvent.written_eq_error_iff {c : ModuleContext} {event : ClassEvent TypeDecl}
    {e : CompileError} : event.written c = .error e ↔
      ∃ n depth, event = .body n depth ∧ n.closing c = .error e := by
  unfold written
  cases event with
  | header n depth => simp [block, Except.map]
  | body n depth => cases h : n.closing c <;> simp [block, Except.map, h]

namespace ModuleText

/-- The module with the block of one more event. -/
def write (m : ModuleText) : ClassEvent TypeDecl × List Line → ModuleText
  | (.header _ depth, block) =>
    ⟨(m.writer.atDepth depth).put (separation m.opened depth ++ block), true⟩
  | (.body _ depth, block) => ⟨(m.writer.atDepth (depth + 1)).put block, false⟩

theorem step_eq (c : ModuleContext) (m : ModuleText) (e : ClassEvent TypeDecl) :
    step c m e = (e.block c).map fun block => m.write (e, block) := by
  cases e <;> rfl

/-- **A module** is its head and the blocks of its events. -/
theorem ofTree_eq (c : ModuleContext) (t : ClassTree TypeDecl) :
    ofTree c t = (t.events.mapM (ClassEvent.written c)).map (·.foldl write (head c.settings)) :=
  foldlM_eq_mapM (step_eq c) t.events (head c.settings)

/-- The blocks that a module has been written of. -/
theorem exists_blocks_of_ofTree {c : ModuleContext} {t : ClassTree TypeDecl} {text : ModuleText}
    (h : ofTree c t = .ok text) : ∃ blocks : List (ClassEvent TypeDecl × List Line),
      blocks.map (·.1) = t.events ∧ (∀ p ∈ blocks, p.1.block c = .ok p.2) ∧
        text = blocks.foldl write (head c.settings) := by
  rw [ofTree_eq] at h
  obtain ⟨blocks, hblocks, rfl⟩ := map_eq_ok_iff.1 h
  obtain ⟨hevents, hfound⟩ := ClassEvent.mapM_written hblocks
  exact ⟨blocks, hevents, hfound, rfl⟩

theorem ofTree_eq_error_iff {c : ModuleContext} {t : ClassTree TypeDecl} {e : CompileError} :
    ofTree c t = .error e ↔ t.events.mapM (ClassEvent.written c) = .error e := by
  rw [ofTree_eq, map_eq_error_iff]

/-- **A module fails** exactly if the closing of one of its classes does, and with its failure. -/
theorem exists_closing_error {c : ModuleContext} {t : ClassTree TypeDecl} {e : CompileError}
    (h : ofTree c t = .error e) : ∃ n depth, .body n depth ∈ t.events ∧ n.closing c = .error e := by
  obtain ⟨event, hevent, hwritten⟩ := exists_of_mapM_eq_error (ofTree_eq_error_iff.1 h)
  obtain ⟨n, depth, rfl, hclosing⟩ := ClassEvent.written_eq_error_iff.1 hwritten
  exact ⟨n, depth, hevent, hclosing⟩

theorem exists_ofTree_error {c : ModuleContext} {t : ClassTree TypeDecl} {n : ClassNode TypeDecl}
    {depth : Nat} (hn : .body n depth ∈ t.events) {e : CompileError} (he : n.closing c = .error e) :
    ∃ e', ofTree c t = .error e' := by
  simp only [ofTree_eq_error_iff]
  exact exists_mapM_eq_error_iff.2 ⟨_, hn, e, ClassEvent.written_eq_error_iff.2 ⟨n, depth, rfl, he⟩⟩

end ModuleText
end ProtoModels
