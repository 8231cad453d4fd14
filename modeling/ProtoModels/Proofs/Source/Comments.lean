import ProtoModels.Proofs.Source.Reading
/-!
# Comments as they are read

A schema comment is written line by line behind number signs, and its lines end at line feeds. Whoever
reads the source also ends a line at a carriage return alone (`physicalLines`). So a carriage return
inside a line of the comment makes what stands behind it a line of its own, without a number sign
unless the comment brings one (`comment_reads_iff`).
-/
namespace ProtoModels

namespace Source

/-! ## Lines as they are read -/

def isLineEnd (c : Char) : Bool := c == '\n' || c == '\r'

/-- A text with a line feed alone for every carriage return and line feed. -/
def joinLineEnds : List Char → List Char
  | [] => []
  | '\r' :: '\n' :: cs => '\n' :: joinLineEnds cs
  | c :: cs => c :: joinLineEnds cs

/-- The lines of a source text as they are read: a line ends at a line feed, at a carriage return, or at
a carriage return with a line feed behind it. The last piece, behind all ends of lines, may be empty. -/
def physicalLines (text : List Char) : List (List Char) := (joinLineEnds text).splitOnP isLineEnd

example : physicalLines "a\r\nb\rc\n".toList = [['a'], ['b'], ['c'], []] := by decide +kernel

theorem joinLineEnds_of_not_mem {cs : List Char} (h : '\n' ∉ cs) : joinLineEnds cs = cs := by
  fun_induction joinLineEnds cs with
  | case1 => rfl
  | case2 cs _ => simp at h
  | case3 c cs _ ih => rw [ih fun hmem => h (List.mem_cons_of_mem _ hmem)]

theorem joinLineEnds_append_newline {a : List Char} (hone : '\n' ∉ a) (hlast : a.getLast? ≠ some '\r')
    (b : List Char) : joinLineEnds (a ++ '\n' :: b) = a ++ '\n' :: joinLineEnds b := by
  induction a with
  | nil => rfl
  | cons c a ih =>
    cases a with
    | nil =>
      have hc : c ≠ '\r' := by simpa using hlast
      simp [joinLineEnds, hc]
    | cons d a =>
      have hd : '\n' ∉ d :: a := fun hmem => hone (List.mem_cons_of_mem _ hmem)
      have hpair : ∀ cs, c = '\r' → d :: a ++ '\n' :: b = '\n' :: cs → False := by
        rintro cs rfl heq
        exact hd ((List.cons.inj heq).1 ▸ List.mem_cons_self ..)
      rw [List.getLast?_cons_cons] at hlast
      rw [List.cons_append, joinLineEnds, ih hd hlast]
      · rfl
      · exact hpair

/-- A line is read as the pieces between its carriage returns. -/
theorem physicalLines_of_not_mem {cs : List Char} (h : '\n' ∉ cs) :
    physicalLines cs = cs.splitOn '\r' := by
  rw [physicalLines, joinLineEnds_of_not_mem h]
  induction cs with
  | nil => rfl
  | cons c cs ih =>
    rw [List.mem_cons, not_or] at h
    have hc : isLineEnd c = (c == '\r') := by simp [isLineEnd, Ne.symm h.1]
    rw [List.splitOnP_cons_eq_if_modifyHead, List.splitOn_cons_eq_if_modifyHead, hc, ih h.2]

/-- A line feed ends a line. -/
theorem physicalLines_append_newline {a : List Char} (hone : '\n' ∉ a) (hlast : a.getLast? ≠ some '\r')
    (b : List Char) : physicalLines (a ++ '\n' :: b) = a.splitOn '\r' ++ physicalLines b := by
  rw [← physicalLines_of_not_mem hone, physicalLines, physicalLines, physicalLines,
    joinLineEnds_append_newline hone hlast, joinLineEnds_of_not_mem hone]
  exact List.splitOnP_append_cons a _ (by decide)

/-- Source lines are read one by one, each as the pieces between its carriage returns. -/
theorem physicalLines_text {ls : List Line}
    (h : ∀ l ∈ ls, OneLine l.shown ∧ l.shown.toList.getLast? ≠ some '\r') :
    physicalLines (text ls).toList = (ls.flatMap fun l => l.shown.toList.splitOn '\r') ++ [[]] := by
  induction ls with
  | nil => rfl
  | cons l ls ih =>
    rw [List.forall_mem_cons] at h
    have htext : (text (l :: ls)).toList = l.shown.toList ++ '\n' :: (text ls).toList := by
      simp [text, Line.render_eq]
    rw [htext, physicalLines_append_newline h.1.1 h.1.2, ih h.2, List.flatMap_cons, List.append_assoc]

/-! ## Comments -/

/-- A line that is a comment at a depth, whatever stands in it. -/
def IsCommentLine (depth : Nat) (line : List Char) : Prop :=
  (Line.indentation depth).toList ++ ['#'] <+: line

instance (depth : Nat) : DecidablePred (IsCommentLine depth) := fun line =>
  inferInstanceAs (Decidable ((Line.indentation depth).toList ++ ['#'] <+: line))

/-- Every line of a text is a comment, but there may be nothing behind the last end of a line. -/
def ReadsAsComments (depth : Nat) (text : List Char) : Prop :=
  (∀ line ∈ (physicalLines text).dropLast, IsCommentLine depth line) ∧
    ∀ line ∈ (physicalLines text).getLast?, line = [] ∨ IsCommentLine depth line

instance (depth : Nat) : DecidablePred (ReadsAsComments depth) := fun text =>
  inferInstanceAs (Decidable ((∀ line ∈ (physicalLines text).dropLast, IsCommentLine depth line) ∧
    ∀ line ∈ (physicalLines text).getLast?, line = [] ∨ IsCommentLine depth line))

namespace Line

/-- A line of a comment is written behind a number sign, and behind a space if it has none itself. -/
theorem exists_toList_ofCommentLine (line : String) : ∃ space, (space = [] ∨ space = [' ']) ∧
    (ofCommentLine line).text.toList = '#' :: (space ++ (Text.trimEnd line).toList) := by
  unfold ofCommentLine
  dsimp only
  split <;> rename_i htext
  · exact ⟨[], Or.inl rfl, by rw [htext]; rfl⟩
  · exact ⟨[], Or.inl rfl, by simp⟩
  · exact ⟨[' '], Or.inr rfl, by simp⟩

/-- A line of a comment at some depth: its front makes it a comment, and what it says is behind. -/
theorem exists_toList_shown (depth : Nat) (line : String) : ∃ front,
    IsCommentLine depth front ∧ '\r' ∉ front ∧
    ((ofCommentLine line).indent depth).shown.toList = front ++ (Text.trimEnd line).toList := by
  obtain ⟨space, hspace, htext⟩ := exists_toList_ofCommentLine line
  have hne : (ofCommentLine line).text ≠ "" := by
    intro heq
    simp [heq] at htext
  have hdepth : (ofCommentLine line).depth = 0 := by
    unfold ofCommentLine
    dsimp only
    split <;> rfl
  refine ⟨(indentation depth).toList ++ '#' :: space, ⟨space, by simp⟩, ?_, ?_⟩
  · rcases hspace with rfl | rfl <;> simp [indentation]
  · simp [shown, indent, hne, hdepth, htext]

theorem getLast?_shown_ne (depth : Nat) (line : String) :
    ((ofCommentLine line).indent depth).shown.toList.getLast? ≠ some '\r' := by
  obtain ⟨front, -, hreturn, hshown⟩ := exists_toList_shown depth line
  rw [hshown, List.getLast?_append, Text.trimEnd, String.toList_ofList]
  intro hlast
  rcases Option.or_eq_some_iff.1 hlast with htext | ⟨-, hfront⟩
  · exact absurd (Text.isBlank_getLast_trimEndChars _ _ htext) (by decide)
  · exact hreturn (List.mem_of_getLast? hfront)

theorem text_indent (depth : Nat) (l : Line) : (l.indent depth).text = l.text := rfl

theorem oneLine_ofCommentLine {line : String} (h : OneLine line) :
    OneLine (ofCommentLine line).text := by
  obtain ⟨space, hspace, htext⟩ := exists_toList_ofCommentLine line
  have hline : '\n' ∉ (Text.trimEnd line).toList := Text.oneLine_trimEnd h
  rw [OneLine, htext]
  rcases hspace with rfl | rfl <;> simpa using hline

theorem isCommentLine_shown (depth : Nat) (line : String) :
    IsCommentLine depth ((ofCommentLine line).indent depth).shown.toList := by
  obtain ⟨front, hfront, -, hshown⟩ := exists_toList_shown depth line
  rw [hshown]
  exact hfront.trans (List.prefix_append ..)

/-- What stands in front of the first carriage return of a line is always a comment. -/
theorem forall_pieces_iff (depth : Nat) (line : String) :
    (∀ piece ∈ ((ofCommentLine line).indent depth).shown.toList.splitOn '\r', IsCommentLine depth piece) ↔
      ∀ piece ∈ ((Text.trimEnd line).toList.splitOn '\r').tail, IsCommentLine depth piece := by
  obtain ⟨front, hfront, hreturn, hshown⟩ := exists_toList_shown depth line
  rw [hshown, splitOn_append_of_not_mem hreturn]
  obtain ⟨first, more, hsplit⟩ :=
    List.exists_cons_of_ne_nil (List.splitOn_ne_nil '\r' (Text.trimEnd line).toList)
  rw [hsplit, List.modifyHead_cons, List.forall_mem_cons, List.tail_cons]
  exact and_iff_right (hfront.trans (List.prefix_append ..))

end Line

/-- **Where comments are read as comments.** What a writer adds for a comment is a comment in every line
that a line feed ends. It is read as nothing but comments exactly if every piece behind a carriage return
inside a line of the comment brings its own indentation and number sign; without such a carriage return
it always is. Carriage returns at the end of a line are white space and are not written. -/
theorem comment_reads_iff (w : Writer) (comment : String) : ∃ added,
    (w.comment comment).text = w.text ++ added ∧
    (∀ line ∈ (Text.splitOn '\n' added).dropLast, IsCommentLine w.depth line.toList) ∧
    (ReadsAsComments w.depth added.toList ↔
      ∀ line ∈ Text.lines (Text.trimEnd comment),
        ∀ piece ∈ ((Text.trimEnd line).toList.splitOn '\r').tail, IsCommentLine w.depth piece) ∧
    ((∀ line ∈ Text.lines (Text.trimEnd comment), '\r' ∉ (Text.trimEnd line).toList) →
      ReadsAsComments w.depth added.toList) := by
  let lines := Text.lines (Text.trimEnd comment)
  let block := lines.map fun line => (Line.ofCommentLine line).indent w.depth
  have hadded : (w.comment comment).text = w.text ++ text block := by
    rw [Writer.comment, Writer.text_put, Line.ofComment, List.map_map]
    rfl
  have hone : ∀ l ∈ block, OneLine l.text := by
    rw [List.forall_mem_map]
    intro line hline
    rw [Line.text_indent]
    exact Line.oneLine_ofCommentLine (Text.oneLine_of_mem_lines hline)
  have hreturn : ∀ l ∈ block, l.shown.toList.getLast? ≠ some '\r' := by
    rw [List.forall_mem_map]
    exact fun line _ => Line.getLast?_shown_ne w.depth line
  have hiff : ReadsAsComments w.depth (text block).toList ↔ ∀ line ∈ lines,
      ∀ piece ∈ ((Text.trimEnd line).toList.splitOn '\r').tail, IsCommentLine w.depth piece := by
    rw [ReadsAsComments, physicalLines_text fun l hl => ⟨Line.oneLine_shown (hone l hl), hreturn l hl⟩,
      List.dropLast_concat, List.getLast?_concat, List.flatMap_map]
    simp only [Option.mem_some_iff, forall_eq', true_or, and_true, List.forall_mem_flatMap]
    exact forall₂_congr fun line _ => Line.forall_pieces_iff w.depth line
  refine ⟨text block, hadded, ?_, hiff, fun hnone => hiff.2 fun line hline piece hpiece => ?_⟩
  · rw [splitOn_text hone, List.dropLast_concat, List.map_map, List.forall_mem_map]
    intro line _
    rw [Function.comp_apply]
    exact Line.isCommentLine_shown w.depth line
  · rw [List.splitOn_eq_singleton (hnone line hline)] at hpiece
    cases hpiece

theorem comment_reads_iff_spaced :
    let w : Writer := { depth := 1 }
    let comment := " First line.\r\n\n tab\tand mark #\r \n\n"
    (∀ line ∈ Text.lines (Text.trimEnd comment), '\r' ∉ (Text.trimEnd line).toList) ∧
      ∃ added, (w.comment comment).text = w.text ++ added ∧ ReadsAsComments 1 added.toList := by
  intro w comment
  have hreturn : ∀ line ∈ Text.lines (Text.trimEnd comment), '\r' ∉ (Text.trimEnd line).toList := by
    decide +kernel
  obtain ⟨added, hadded, -, -, hreads⟩ := comment_reads_iff w comment
  exact ⟨hreturn, added, hadded, hreads hreturn⟩

/-- A carriage return in the middle of a comment takes what is behind it out of the comment. -/
theorem comment_left_at_return :
    ¬ ReadsAsComments 0 (({} : Writer).comment "a\rimport os").text.toList := by
  decide +kernel

end Source
end ProtoModels
