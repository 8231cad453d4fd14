import ProtoModels.Proofs.Source.QuotedTexts
/-!
# Texts between quotes

A text that is put into code between quotes as it stands is read as itself exactly if it holds neither the
quote nor an escape, an end of a line or a null character (`texts?_quoted_iff`).
-/
namespace ProtoModels.Source

/-! ## Texts without escapes -/

section
variable (named : List Char → Option Nat)

/-- Whether no backslash starts an escape, nor stands at the end. -/
def escapeFree : List Char → Bool
  | [] => true
  | c :: cs => (c != '\\' || cs.head?.any (!startsEscape ·)) && escapeFree cs

theorem denoted?_of_escapeFree {cs : List Char} (h : escapeFree cs = true) :
    denoted? named cs = some (cs.map Char.toNat) := by
  induction cs with
  | nil => rw [denoted?]; rfl
  | cons c cs ih =>
    simp only [escapeFree, Bool.and_eq_true, Bool.or_eq_true, bne_iff_ne, ne_eq] at h
    by_cases hc : c = '\\'
    · have hhead := readEscape?_of_head named (h.1.resolve_left (not_not_intro hc))
      rw [hc, denoted?_of_readEscape? named hhead, ih h.2]
      rfl
    · rw [denoted?, if_neg hc, ih h.2]
      rfl

/-- Escapes make what is denoted shorter. -/
theorem length_of_denoted? {cs : List Char} {ns : List Nat} (h : denoted? named cs = some ns) :
    ns.length ≤ cs.length ∧
      (ns.length = cs.length → escapeFree cs = true ∧ ns = cs.map Char.toNat) := by
  fun_induction denoted? named cs generalizing ns with
  | case1 =>
    cases h
    exact ⟨Nat.le_refl _, fun _ => ⟨rfl, rfl⟩⟩
  | case2 => cases h
  | case3 cs ns' rest hescape ih =>
    obtain ⟨ms, hms, rfl⟩ := Option.map_eq_some_iff.1 h
    obtain ⟨hle, heq⟩ := ih hms
    rw [List.length_append, List.length_cons]
    rcases readEscape?_cases named hescape with hlength | ⟨rfl, rfl, hhead⟩
    · exact ⟨by omega, fun hsame => by omega⟩
    · rw [List.length_singleton]
      refine ⟨by omega, fun hsame => ?_⟩
      obtain ⟨hfree, rfl⟩ := heq (by omega)
      exact ⟨by simp [escapeFree, hhead, hfree], rfl⟩
  | case4 c cs hc ih =>
    obtain ⟨ms, hms, rfl⟩ := Option.map_eq_some_iff.1 h
    obtain ⟨hle, heq⟩ := ih hms
    refine ⟨by simpa using hle, fun hsame => ?_⟩
    obtain ⟨hfree, rfl⟩ := heq (by simpa using hsame)
    exact ⟨by simp [escapeFree, hc, hfree], rfl⟩

end

theorem startsEscape_of_isQuote {quote : Char} (h : isQuote quote = true) : startsEscape quote = true := by
  simp only [isQuote, Bool.or_eq_true, beq_iff_eq] at h
  rcases h with rfl | rfl <;> decide

/-- A text without escapes, quotes and ends of lines is cut out as it stands. -/
theorem cutText?_of_escapeFree {quote : Char} {cs : List Char} {escaped : Bool}
    (hfree : escapeFree cs = true) (hchars : ∀ c ∈ cs, c ≠ quote ∧ c ≠ '\n')
    (hescaped : escaped = true → cs.head?.any (!startsEscape ·) = true) (rest : List Char) :
    cutText? [quote] escaped (cs ++ quote :: rest) = some (cs, rest) := by
  induction cs generalizing escaped with
  | nil =>
    cases escaped with
    | true => cases hescaped rfl
    | false => simp [cutText?]
  | cons c cs ih =>
    simp only [escapeFree, Bool.and_eq_true, Bool.or_eq_true, bne_iff_ne, ne_eq] at hfree
    obtain ⟨⟨hquote, hline⟩, hrest⟩ := List.forall_mem_cons.1 hchars
    have hnext : (!escaped && c == '\\') = true → cs.head?.any (!startsEscape ·) = true := by
      intro hnext
      rw [Bool.and_eq_true, beq_iff_eq] at hnext
      exact hfree.1.resolve_left (not_not_intro hnext.2)
    rw [List.cons_append, cutText?, ih hfree.2 hrest hnext, if_neg, if_neg]
    · rfl
    · simp [hline]
    · simp [List.isPrefixOf, Ne.symm hquote]

/-- A text without escapes that a quote closes holds neither this quote nor an end of a line. -/
theorem ne_of_mem_of_cutText? {quote : Char} (hquote : isQuote quote = true)
    {cs body behind : List Char} {escaped : Bool}
    (h : cutText? [quote] escaped cs = some (body, behind)) (hfree : escapeFree body = true)
    (hescaped : escaped = true → body.head?.any (!startsEscape ·) = true) :
    ∀ c ∈ body, c ≠ quote ∧ c ≠ '\n' := by
  induction cs generalizing escaped body with
  | nil => cases h
  | cons c cs ih =>
    rw [cutText?] at h
    split at h
    · cases h
      simp
    rename_i hopen
    split at h
    · cases h
    rename_i hline
    obtain ⟨⟨body', behind'⟩, hcut, hbody⟩ := Option.map_eq_some_iff.1 h
    cases hbody
    simp only [escapeFree, Bool.and_eq_true, Bool.or_eq_true, bne_iff_ne, ne_eq] at hfree
    rw [List.forall_mem_cons]
    refine ⟨?_, ih hcut hfree.2 fun hnext => ?_⟩
    · cases escaped with
      | true =>
        have hc : startsEscape c = false := by simpa using hescaped rfl
        refine ⟨fun heq => ?_, fun heq => ?_⟩
        · rw [heq, startsEscape_of_isQuote hquote] at hc
          cases hc
        · subst heq
          exact absurd hc (by decide)
      | false => exact ⟨fun heq => hopen (by simp [heq, List.isPrefixOf]), by simpa using hline⟩
    · rw [Bool.and_eq_true, beq_iff_eq] at hnext
      exact hfree.1.resolve_left (not_not_intro hnext.2)

/-! ## Texts as they stand -/

/-- A text that can be put between two quotes as it stands. -/
structure IsVerbatim (quote : Char) (s : String) : Prop where
  chars : ∀ c ∈ s.toList, c ≠ quote ∧ c ≠ '\n' ∧ c ≠ '\r' ∧ c ≠ '\x00'
  escapeFree : escapeFree s.toList = true

instance (quote : Char) (s : String) : Decidable (IsVerbatim quote s) :=
  decidable_of_iff ((s.toList.all fun c => !([quote, '\n', '\r', '\x00'].contains c)) = true ∧
    escapeFree s.toList = true) ⟨fun h => ⟨by simpa using h.1, h.2⟩,
      fun h => ⟨by simpa using h.chars, h.escapeFree⟩⟩

theorem escapeFree_of_not_mem {cs : List Char} (h : '\\' ∉ cs) : escapeFree cs = true := by
  induction cs with
  | nil => rfl
  | cons c cs ih =>
    rw [List.mem_cons, not_or] at h
    simp [escapeFree, Ne.symm h.1, ih h.2]

theorem IsBare.isVerbatim {s : String} (h : IsBare s) {quote : Char} (hquote : isQuote quote = true) :
    IsVerbatim quote s where
  chars c hc := by
    obtain ⟨hne, -, -, hfeed, hreturn, hnull⟩ := isBare_iff.1 (h c hc)
    refine ⟨fun heq => ?_, hfeed, hreturn, hnull⟩
    rw [heq, hquote] at hne
    cases hne
  escapeFree := escapeFree_of_not_mem fun hmem => (isBare_iff.1 (h _ hmem)).2.1 rfl

section
variable (named : List Char → Option Nat)

/-- A text that can stand as it is, read between its quotes. -/
theorem scanTexts?_of_isVerbatim {quote : Char} (hquote : isQuote quote = true) {s : String}
    (hs : IsVerbatim quote s) {rest : List Char} (hrest : rest.head? ≠ some quote) :
    scanTexts? named (quote :: (s.toList ++ quote :: rest)) =
      (scanTexts? named rest).map (codePoints s :: ·) := by
  have hchars : ∀ c ∈ s.toList, c ≠ quote ∧ c ≠ '\n' := fun c hc =>
    ⟨(hs.chars c hc).1, (hs.chars c hc).2.1⟩
  exact scanTexts?_of_cutText? named hquote hrest
    (cutText?_of_escapeFree hs.escapeFree hchars (by simp) rest)
    (denoted?_of_escapeFree named hs.escapeFree)

/-- Behind the last quote there is no more than behind any quote. -/
theorem length_le_of_last {quote : Char} {front back front' behind : List Char} (hback : quote ∉ back)
    (h : front ++ quote :: back = front' ++ quote :: behind) : back.length ≤ behind.length := by
  by_contra hlt
  have hsuffix : quote :: behind <:+ back :=
    List.suffix_of_suffix_length_le (h ▸ List.suffix_append ..)
      ((List.suffix_cons quote back).trans (List.suffix_append front _))
      (Nat.succ_le_of_lt (Nat.lt_of_not_le hlt))
  exact hback (hsuffix.subset (List.mem_cons_self ..))

/-- A text that is read with the length it is written with, or longer, is the one that the first quote
behind closes. -/
theorem eq_of_readText? {quote : Char} {cs back behind : List Char} {ns : List Nat}
    (hback : quote ∉ back) (hlength : cs.length ≤ ns.length)
    (h : readText? named (quote :: (cs ++ quote :: back)) = some (ns, behind)) :
    cutText? [quote] false (cs ++ quote :: back) = some (cs, behind) ∧ escapeFree cs = true ∧
      ns = cs.map Char.toNat := by
  obtain ⟨⟨body, behind'⟩, hcut, h⟩ := Option.bind_eq_some_iff.1 h
  obtain ⟨ns', hdenoted, hns⟩ := Option.map_eq_some_iff.1 h
  cases hns
  obtain ⟨hle, hsame⟩ := length_of_denoted? named hdenoted
  have hsplit := eq_append_of_cutText? hcut
  -- three quotes at both ends would leave less of the text than is read
  split at hcut
  · rw [if_pos ‹_›, show [quote, quote, quote].length - 1 = 2 from rfl] at hsplit
    have hwhole : cs ++ quote :: back = (cs ++ quote :: back).take 2 ++ body ++ [quote, quote] ++
        quote :: behind := by
      conv_lhs => rw [← List.take_append_drop 2 (cs ++ quote :: back), hsplit]
      simp
    have hbehind := length_le_of_last hback hwhole
    have hlengths := congrArg List.length hsplit
    simp only [List.length_drop, List.length_append, List.length_cons, List.length_nil] at hlengths
    omega
  · rw [if_neg ‹_›, List.length_singleton, List.drop_zero, List.singleton_append] at hsplit
    have hbehind := length_le_of_last hback hsplit
    have hlengths := congrArg List.length hsplit
    simp only [List.length_append, List.length_cons] at hlengths
    obtain ⟨rfl, -⟩ := List.append_inj hsplit (by omega)
    exact ⟨hcut, hsame (by omega)⟩

/-- **Texts between quotes.** If a text is put between two quotes as it stands, in code without other
texts, then the code holds this one text exactly if the text has no such quote, no escape, no end of a line
and no null character, and does not end with a backslash. -/
theorem texts?_quoted_iff {quote : Char} (hquote : isQuote quote = true) {code front s back : String}
    (hcode : code.toList = front.toList ++ quote :: (s.toList ++ quote :: back.toList))
    (hfront : IsBare front) (hback : IsBare back) :
    texts? named code = some [codePoints s] ↔ IsVerbatim quote s := by
  obtain ⟨-, hfeed, hreturn, hnull⟩ := ne_of_isQuote hquote
  have hopen : quote ∉ back.toList := fun hmem => by simpa [hquote] using (isBare_iff.1 (hback _ hmem)).1
  have hread : scanTexts? named (withLineFeeds code.toList) =
      scanTexts? named (quote :: (withLineFeeds s.toList ++ quote :: back.toList)) := by
    rw [hcode, withLineFeeds_append_of_not_mem fun hmem => (hfront.plain _ hmem).1 rfl,
      withLineFeeds_cons hreturn, withLineFeeds_append_cons hfeed, withLineFeeds_cons hreturn,
      withLineFeeds_of_not_mem fun hmem => (hback.plain _ hmem).1 rfl, scanTexts?_of_isBare named hfront]
  constructor
  -- neither ends of lines nor escapes make a text longer: read in full, it was changed by none of them
  · intro h
    rw [texts?, Option.ite_none_left_eq_some, hread, scanTexts?_of_isQuote named hquote] at h
    obtain ⟨hcodeNull, h⟩ := h
    obtain ⟨⟨ns, behind⟩, htext, h⟩ := Option.bind_eq_some_iff.1 h
    obtain ⟨_, -, hns⟩ := Option.map_eq_some_iff.1 h
    obtain ⟨rfl, -⟩ := List.cons.inj hns
    have hlength : (withLineFeeds s.toList).length ≤ (codePoints s).length := by
      simpa [codePoints] using length_withLineFeeds_le s.toList
    obtain ⟨hcut, hfree, hpoints⟩ := eq_of_readText? named hopen hlength htext
    have hsame : s.toList = withLineFeeds s.toList :=
      List.map_injective_iff.2 (fun _ _ => Char.toNat_inj.1) hpoints
    rw [← hsame] at hcut hfree
    have hchars := ne_of_mem_of_cutText? hquote hcut hfree (by simp)
    refine ⟨fun c hc => ⟨(hchars c hc).1, (hchars c hc).2, ?_, ?_⟩, hfree⟩
    · rintro rfl
      exact return_not_mem_withLineFeeds _ (hsame ▸ hc)
    · rintro rfl
      exact hcodeNull (by simp [hcode, hc])
  · intro h
    have hcodeNull : '\x00' ∉ code.toList := by
      rw [hcode]
      simp only [List.mem_append, List.mem_cons, not_or]
      exact ⟨fun hmem => (hfront.plain _ hmem).2 rfl, Ne.symm hnull, fun hmem => (h.chars _ hmem).2.2.2 rfl,
        Ne.symm hnull, fun hmem => (hback.plain _ hmem).2 rfl⟩
    have hlines : withLineFeeds s.toList = s.toList :=
      withLineFeeds_of_not_mem fun hmem => (h.chars _ hmem).2.2.1 rfl
    rw [texts?, if_neg hcodeNull, hread, hlines, scanTexts?_of_isVerbatim named hquote h,
      scanTexts?_eq_of_isBare named hback]
    · rfl
    · exact fun hhead => hopen (List.mem_of_head? hhead)

end
end ProtoModels.Source
