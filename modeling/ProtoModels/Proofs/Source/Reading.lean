import Mathlib.Data.List.Forall2
import ProtoModels.Source.Line
/-!
# Reading source lines

Source text is cut at its line feeds. If no line holds a line feed itself, the pieces are the lines as
they were written, and an empty piece behind the last one (`splitOn_text`).
-/
namespace ProtoModels

/-- What holds of the characters of some texts and of a separator holds of those of the joined text. -/
theorem forall_mem_intercalate {P : Char → Prop} {sep : String} (hsep : ∀ c ∈ sep.toList, P c)
    {ss : List String} (h : ∀ s ∈ ss, ∀ c ∈ s.toList, P c) : ∀ c ∈ (sep.intercalate ss).toList, P c := by
  induction ss with
  | nil => simp
  | cons s ss ih =>
    rw [List.forall_mem_cons] at h
    cases ss with
    | nil => simpa using h.1
    | cons s' ss =>
      rw [String.intercalate_cons_of_ne_nil (by simp), String.toList_append, String.toList_append]
      simp only [List.forall_mem_append]
      exact ⟨⟨h.1, hsep⟩, ih h.2⟩

/-- A text without line feed. -/
def OneLine (s : String) : Prop := '\n' ∉ s.toList

instance : DecidablePred OneLine := fun s => inferInstanceAs (Decidable ('\n' ∉ s.toList))

namespace OneLine

theorem iff_forall {s : String} : OneLine s ↔ ∀ c ∈ s.toList, c ≠ '\n' :=
  ⟨fun h _ hc heq => h (heq ▸ hc), fun h hmem => h _ hmem rfl⟩

@[simp] theorem append_iff {a b : String} : OneLine (a ++ b) ↔ OneLine a ∧ OneLine b := by
  simp [OneLine]

@[simp] theorem ofList_iff {cs : List Char} : OneLine (String.ofList cs) ↔ '\n' ∉ cs := by
  simp [OneLine]

theorem intercalate {sep : String} (hsep : OneLine sep) {ss : List String}
    (h : ∀ s ∈ ss, OneLine s) : OneLine (sep.intercalate ss) := by
  rw [iff_forall]
  exact forall_mem_intercalate (iff_forall.1 hsep) fun s hs => iff_forall.1 (h s hs)

end OneLine

/-! ## Cutting texts -/

/-- Joined pieces: the first one, and each of the others behind a separator. -/
theorem intercalate_singleton_cons {α : Type} (sep : α) (piece : List α) (pieces : List (List α)) :
    [sep].intercalate (piece :: pieces) = piece ++ pieces.flatMap (sep :: ·) := by
  induction pieces generalizing piece with
  | nil => simp
  | cons next pieces ih => simp [List.intercalate_cons_cons, ih next]

/-- No piece of a text holds the separator. -/
theorem not_mem_of_mem_splitOn {sep : Char} {cs piece : List Char} (h : piece ∈ cs.splitOn sep) :
    sep ∉ piece := by
  induction cs generalizing piece with
  | nil =>
    obtain rfl : piece = [] := by simpa using h
    simp
  | cons c cs ih =>
    rw [List.splitOn_cons_eq_if_modifyHead] at h
    split at h
    · rcases List.mem_cons.1 h with rfl | h
      · simp
      · exact ih h
    · rename_i hc
      obtain ⟨first, rest, hsplit⟩ := List.exists_cons_of_ne_nil (List.splitOn_ne_nil sep cs)
      rw [hsplit] at h ih
      rcases List.mem_cons.1 h with rfl | h
      · have hfirst := ih (List.mem_cons_self ..)
        rw [List.mem_cons, not_or]
        exact ⟨fun heq => hc (by simp [heq]), hfirst⟩
      · exact ih (List.mem_cons_of_mem _ h)

/-- What stands in front without a separator belongs to the first piece. -/
theorem splitOn_append_of_not_mem {sep : Char} {front : List Char} (h : sep ∉ front)
    (cs : List Char) : (front ++ cs).splitOn sep = (cs.splitOn sep).modifyHead (front ++ ·) := by
  induction front with
  | nil =>
    rw [List.nil_append]
    cases cs.splitOn sep <;> rfl
  | cons c front ih =>
    rw [List.mem_cons, not_or] at h
    rw [List.cons_append, List.splitOn_cons_eq_if_modifyHead, ih h.2,
      if_neg fun heq => h.1 (beq_iff_eq.1 heq).symm, List.modifyHead_modifyHead]
    rfl

/-- The pieces of a text are made of its characters. -/
theorem subset_of_mem_splitOn {sep : Char} {cs piece : List Char} (h : piece ∈ cs.splitOn sep) :
    piece ⊆ cs := by
  induction cs generalizing piece with
  | nil =>
    obtain rfl : piece = [] := by simpa using h
    exact List.Subset.refl _
  | cons c cs ih =>
    rw [List.splitOn_cons_eq_if_modifyHead] at h
    split at h
    · rcases List.mem_cons.1 h with rfl | h
      · exact List.nil_subset _
      · exact List.subset_cons_of_subset c (ih h)
    · obtain ⟨first, rest, hsplit⟩ := List.exists_cons_of_ne_nil (List.splitOn_ne_nil sep cs)
      rw [hsplit] at h ih
      rcases List.mem_cons.1 h with rfl | h
      · exact List.cons_subset_cons c (ih (List.mem_cons_self ..))
      · exact List.subset_cons_of_subset c (ih (List.mem_cons_of_mem _ h))

namespace Text

theorem dropCarriageReturn_subset (line : List Char) : dropCarriageReturn line ⊆ line := by
  fun_induction dropCarriageReturn line with
  | case1 => simp
  | case2 => simp
  | case3 c cs _ ih => exact List.cons_subset_cons c ih

theorem subset_of_mem_linesOfPieces {line : List Char} : ∀ {pieces : List (List Char)},
    line ∈ linesOfPieces pieces → ∃ piece ∈ pieces, line ⊆ piece
  | [], h => by cases h
  | [last], h => by
    rw [linesOfPieces] at h
    split at h
    · cases h
    · obtain rfl := List.mem_singleton.1 h
      exact ⟨line, List.mem_cons_self .., List.Subset.refl _⟩
  | piece :: next :: more, h => by
    rw [linesOfPieces] at h
    rcases List.mem_cons.1 h with rfl | h
    · exact ⟨piece, List.mem_cons_self .., dropCarriageReturn_subset piece⟩
    · obtain ⟨piece', hpiece, hsubset⟩ := subset_of_mem_linesOfPieces h
      exact ⟨piece', List.mem_cons_of_mem _ hpiece, hsubset⟩

/-- The lines of a text are lines. -/
theorem oneLine_of_mem_lines {text line : String} (h : line ∈ lines text) : OneLine line := by
  obtain ⟨chars, hchars, rfl⟩ := List.mem_map.1 h
  obtain ⟨piece, hpiece, hsubset⟩ := subset_of_mem_linesOfPieces hchars
  rw [OneLine.ofList_iff]
  exact fun hmem => not_mem_of_mem_splitOn hpiece (hsubset hmem)

theorem oneLine_trimEnd {text : String} (h : OneLine text) : OneLine (trimEnd text) := by
  obtain ⟨tail, hchars, _⟩ := trimEndChars_append text.toList
  rw [trimEnd, OneLine.ofList_iff]
  intro hmem
  refine h ?_
  rw [hchars]
  exact List.mem_append_left _ hmem

end Text

/-! ## Source lines -/

namespace Source

/-- The line as it stands in the source, without its line feed. -/
def Line.shown (l : Line) : String := if l.text = "" then "" else Line.indentation l.depth ++ l.text

theorem Line.render_eq (l : Line) : l.render = l.shown ++ "\n" := by
  unfold render shown
  split <;> rfl

theorem Line.oneLine_shown {l : Line} (h : OneLine l.text) : OneLine l.shown := by
  unfold shown
  split
  · decide
  · simp [indentation, h]

/-- The white space in front of a line is its indentation, and what its text starts with. -/
theorem Line.spaces_shown {l : Line} (h : l.text ≠ "") :
    l.shown.toList.dropWhile (· == ' ') = l.text.toList.dropWhile (· == ' ') ∧
      (l.shown.toList.takeWhile (· == ' ')).length =
        4 * l.depth + (l.text.toList.takeWhile (· == ' ')).length := by
  have hspaces : ∀ c ∈ List.replicate (4 * l.depth) ' ', (c == ' ') = true := fun c hc => by
    simpa using List.eq_of_mem_replicate hc
  rw [shown, if_neg h, String.toList_append, indentation, String.toList_ofList,
    List.dropWhile_append_of_pos hspaces, List.takeWhile_append_of_pos hspaces, List.length_append,
    List.length_replicate]
  exact ⟨rfl, rfl⟩

/-- **The lines of a source text** are those it was made of, if none of them holds a line feed. -/
theorem splitOn_text {ls : List Line} (h : ∀ l ∈ ls, OneLine l.text) :
    Text.splitOn '\n' (text ls) = ls.map Line.shown ++ [""] := by
  suffices hchars : (text ls).toList.splitOn '\n' = ls.map (·.shown.toList) ++ [[]] by
    rw [Text.splitOn, hchars]
    simp
  induction ls with
  | nil => rfl
  | cons l ls ih =>
    have hl : '\n' ∉ l.shown.toList := Line.oneLine_shown (h l (List.mem_cons_self ..))
    have htext : (text (l :: ls)).toList = l.shown.toList ++ '\n' :: (text ls).toList := by
      simp [text, Line.render_eq]
    rw [htext, List.splitOn_append_cons_self_of_not_mem hl,
      ih fun l' hl' => h l' (List.mem_cons_of_mem _ hl')]
    rfl

/-- A source text is cut line by line: a line feed in a line cuts it as well. -/
theorem splitOn_text_cons (l : Line) (ls : List Line) :
    Text.splitOn '\n' (text (l :: ls)) = Text.splitOn '\n' l.shown ++ Text.splitOn '\n' (text ls) := by
  have htext : (text (l :: ls)).toList = l.shown.toList ++ '\n' :: (text ls).toList := by
    simp [text, Line.render_eq]
  rw [Text.splitOn, htext, List.splitOn_append_cons_self, List.map_append]
  rfl

/-- Source texts whose lines are the same, some lines excepted that hold no line feed, are cut into
pieces that are the same, the pieces of these lines excepted. -/
theorem forall₂_splitOn_text {R : Line → Line → Prop}
    (hR : ∀ l l', R l l' → OneLine l.text ∧ OneLine l'.text) {ls ls' : List Line}
    (h : List.Forall₂ (fun l l' => l = l' ∨ R l l') ls ls') :
    List.Forall₂ (fun a b => a = b ∨ ∃ l l', R l l' ∧ a = l.shown ∧ b = l'.shown)
      (Text.splitOn '\n' (text ls)) (Text.splitOn '\n' (text ls')) := by
  have hsame : ∀ pieces : List String, List.Forall₂
      (fun a b => a = b ∨ ∃ l l', R l l' ∧ a = l.shown ∧ b = l'.shown) pieces pieces :=
    fun pieces => List.forall₂_same.2 fun _ _ => Or.inl rfl
  have hone : ∀ {l : Line}, OneLine l.text → Text.splitOn '\n' l.shown = [l.shown] := by
    intro l hl
    rw [Text.splitOn, List.splitOn_eq_singleton (Line.oneLine_shown hl)]
    simp
  induction h with
  | nil => exact hsame _
  | cons hline _ ih =>
    rw [splitOn_text_cons, splitOn_text_cons]
    refine List.rel_append ?_ ih
    rcases hline with rfl | hline
    · exact hsame _
    · obtain ⟨hl, hl'⟩ := hR _ _ hline
      rw [hone hl, hone hl']
      exact .cons (Or.inr ⟨_, _, hline, rfl, rfl⟩) .nil

end Source
end ProtoModels
