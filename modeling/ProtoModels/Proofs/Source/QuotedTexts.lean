import ProtoModels.Descriptor.Pool.DefaultValue
import ProtoModels.Proofs.Source.Comments
/-!
# Quoted texts in code

A reader for the texts that are quoted in a piece of code, with all escapes: a text is cut out from its
opening quote to the closing one, then its escapes are resolved, and a backslash in front of anything else
stands for itself. One quote closes a text on its line, three quotes anywhere behind.

Texts are read as code points, since an escape can denote one that is no character. What characters are
called is left open: `named` looks a name up. No letters stand in front of the quotes that are read here,
so there are no raw texts and no bytes.
-/
namespace ProtoModels.Source

open Descriptor.Pool (digitBelow? octalDigits)

/-- The code points of a text. -/
def codePoints (s : String) : List Nat := s.toList.map Char.toNat

/-! ## Escapes -/

/-- What a letter or mark behind a backslash stands for. -/
def markedEscape? : Char → Option Nat
  | '\\' => some 0x5C
  | '\'' => some 0x27
  | '"' => some 0x22
  | 'a' => some 0x07
  | 'b' => some 0x08
  | 't' => some 0x09
  | 'n' => some 0x0A
  | 'v' => some 0x0B
  | 'f' => some 0x0C
  | 'r' => some 0x0D
  | _ => none

/-- Whether a backslash and the character behind it start an escape. -/
def startsEscape (c : Char) : Bool :=
  (markedEscape? c).isSome || (digitBelow? 8 c).isSome || ['\n', 'x', 'u', 'U', 'N'].contains c

/-- The code point whose number is given by so many hexadecimal digits, and what stands behind them. -/
def numbered? (count : Nat) (cs : List Char) : Option (List Nat × List Char) := do
  let digits ← (cs.take count).mapM (digitBelow? 16)
  let number := digits.foldl (16 * · + ·) 0
  if digits.length = count ∧ number < 0x110000 then some ([number], cs.drop count) else none

/-- A name in braces, and what stands behind them. -/
def bracedName? : List Char → Option (List Char × List Char)
  | '{' :: cs =>
    match cs.dropWhile (· ≠ '}') with
    | [] => none
    | _ :: rest => some (cs.takeWhile (· ≠ '}'), rest)
  | _ => none

section
variable (named : List Char → Option Nat)

/-- The code points of the escape that a backslash and a character start, and what stands behind the
escape. A backslash at the end of a line joins it with the next one. -/
def escape? (c : Char) (cs : List Char) : Option (List Nat × List Char) :=
  match c with
  | '\n' => some ([], cs)
  | 'x' => numbered? 2 cs
  | 'u' => numbered? 4 cs
  | 'U' => numbered? 8 cs
  | 'N' => (bracedName? cs).bind fun (name, rest) => (named name).map fun n => ([n], rest)
  | c =>
    match octalDigits (c :: cs) with
    | [] => (markedEscape? c).map fun n => ([n], cs)
    | d :: ds => some ([(d :: ds).foldl (8 * · + ·) 0], cs.drop ds.length)

/-- What a backslash denotes, alone or with what stands behind it, and what is left. -/
def readEscape? : List Char → Option (List Nat × List Char)
  | [] => none
  | c :: cs => if startsEscape c then escape? named c cs else some (['\\'.toNat], c :: cs)

theorem length_of_numbered? {count : Nat} {cs rest : List Char} {ns : List Nat}
    (h : numbered? count cs = some (ns, rest)) : ns.length + rest.length ≤ cs.length + 1 := by
  simp only [numbered?, Option.bind_eq_bind, Option.bind_eq_some_iff, Option.ite_none_right_eq_some,
    Option.some.injEq, Prod.mk.injEq] at h
  obtain ⟨digits, -, -, rfl, rfl⟩ := h
  simp
  omega

theorem length_of_bracedName? {cs name rest : List Char} (h : bracedName? cs = some (name, rest)) :
    rest.length < cs.length := by
  unfold bracedName? at h
  split at h
  · rename_i cs
    split at h
    · cases h
    · rename_i hrest
      cases h
      have hlength := (List.dropWhile_suffix (l := cs) (· ≠ '}')).length_le
      rw [hrest, List.length_cons] at hlength
      rw [List.length_cons]
      omega
  · cases h

/-- An escape denotes no more code points than it has characters behind the backslash. -/
theorem length_of_escape? {c : Char} {cs rest : List Char} {ns : List Nat}
    (h : escape? named c cs = some (ns, rest)) : ns.length + rest.length ≤ cs.length + 1 := by
  unfold escape? at h
  split at h
  · cases h
    simp
  · exact length_of_numbered? h
  · exact length_of_numbered? h
  · exact length_of_numbered? h
  · obtain ⟨⟨name, rest'⟩, hname, h⟩ := Option.bind_eq_some_iff.1 h
    obtain ⟨n, -, hn⟩ := Option.map_eq_some_iff.1 h
    cases hn
    have := length_of_bracedName? hname
    simp
    omega
  · split at h
    · obtain ⟨n, -, hn⟩ := Option.map_eq_some_iff.1 h
      cases hn
      simp
      omega
    · cases h
      simp
      omega

/-- A backslash starts an escape, which does not denote more than it is long, or stands for itself. -/
theorem readEscape?_cases {cs rest : List Char} {ns : List Nat}
    (h : readEscape? named cs = some (ns, rest)) :
    ns.length + rest.length ≤ cs.length ∨
      ns = ['\\'.toNat] ∧ rest = cs ∧ cs.head?.any (!startsEscape ·) = true := by
  cases cs with
  | nil => cases h
  | cons c cs =>
    rw [readEscape?] at h
    split at h
    · exact Or.inl (length_of_escape? named h)
    · rename_i hc
      cases h
      exact Or.inr ⟨rfl, rfl, by simpa using hc⟩

theorem readEscape?_of_head {cs : List Char} (h : cs.head?.any (!startsEscape ·) = true) :
    readEscape? named cs = some (['\\'.toNat], cs) := by
  cases cs with
  | nil => cases h
  | cons c cs => rw [readEscape?, if_neg (by simpa using h)]

/-- The code points that the characters between two quotes denote. -/
def denoted? (cs : List Char) : Option (List Nat) :=
  match cs with
  | [] => some []
  | c :: cs =>
    if c = '\\' then
      match _h : readEscape? named cs with
      | none => none
      | some (ns, rest) => (denoted? rest).map (ns ++ ·)
    else (denoted? cs).map (c.toNat :: ·)
termination_by cs.length
decreasing_by
  · have hrest : rest.length ≤ cs.length := by
      rcases readEscape?_cases named _h with hlength | ⟨-, rfl, -⟩ <;> omega
    simpa using Nat.lt_succ_of_le hrest
  · simp

theorem denoted?_of_readEscape? {cs rest : List Char} {ns : List Nat}
    (h : readEscape? named cs = some (ns, rest)) :
    denoted? named ('\\' :: cs) = (denoted? named rest).map (ns ++ ·) := by
  rw [denoted?, if_pos rfl]
  split <;> rename_i hread <;> rw [h] at hread <;> cases hread
  rfl

end

/-! ## Cutting texts out -/

def isQuote (c : Char) : Bool := c == '"' || c == '\''

/-- The characters up to the marks that close a text, and what stands behind the marks. A character with
a backslash in front, as `escaped` tells, closes nothing. A text that one quote closes ends on its line. -/
def cutText? (closing : List Char) (escaped : Bool) : List Char → Option (List Char × List Char)
  | [] => none
  | c :: cs =>
    if !escaped && closing.isPrefixOf (c :: cs) then some ([], (c :: cs).drop closing.length)
    else if !escaped && closing.length == 1 && c == '\n' then none
    else (cutText? closing (!escaped && c == '\\') cs).map fun (body, behind) => (c :: body, behind)

theorem eq_append_of_cutText? {closing cs body behind : List Char} {escaped : Bool}
    (h : cutText? closing escaped cs = some (body, behind)) : cs = body ++ (closing ++ behind) := by
  induction cs generalizing escaped body with
  | nil => cases h
  | cons c cs ih =>
    rw [cutText?] at h
    split at h
    · rename_i hclosing
      cases h
      rw [Bool.and_eq_true, List.isPrefixOf_iff_prefix] at hclosing
      exact (List.prefix_iff_eq_append.1 hclosing.2).symm
    split at h
    · cases h
    · obtain ⟨⟨body', behind'⟩, hcut, hbody⟩ := Option.map_eq_some_iff.1 h
      cases hbody
      rw [ih hcut, List.cons_append]

theorem ne_of_isQuote {quote : Char} (h : isQuote quote = true) :
    quote ≠ '#' ∧ quote ≠ '\n' ∧ quote ≠ '\r' ∧ quote ≠ '\x00' := by
  simp only [isQuote, Bool.or_eq_true, beq_iff_eq] at h
  rcases h with rfl | rfl <;> decide

section
variable (named : List Char → Option Nat)

/-! ## Reading code -/

/-- The code points of the text that starts with a quote, and what stands behind its closing quote. Three
quotes open a text that three quotes close. -/
def readText? : List Char → Option (List Nat × List Char)
  | [] => none
  | quote :: cs =>
    let closing := if [quote, quote].isPrefixOf cs then [quote, quote, quote] else [quote]
    (cutText? closing false (cs.drop (closing.length - 1))).bind fun (body, behind) =>
      (denoted? named body).map (·, behind)

theorem length_of_readText? {quote : Char} {cs behind : List Char} {ns : List Nat}
    (h : readText? named (quote :: cs) = some (ns, behind)) : behind.length < cs.length := by
  obtain ⟨⟨body, rest⟩, hcut, h⟩ := Option.bind_eq_some_iff.1 h
  obtain ⟨_, -, hns⟩ := Option.map_eq_some_iff.1 h
  cases hns
  have hlength := congrArg List.length (eq_append_of_cutText? hcut)
  simp only [List.length_drop, List.length_append] at hlength
  split at hlength <;> simp at hlength <;> omega

/-- The texts that are quoted in a piece of code, in their order; comments are passed over. -/
def scanTexts? (cs : List Char) : Option (List (List Nat)) :=
  match cs with
  | [] => some []
  | c :: cs =>
    if c = '#' then scanTexts? (cs.dropWhile (· ≠ '\n'))
    else if isQuote c then
      match _h : readText? named (c :: cs) with
      | none => none
      | some (ns, behind) => (scanTexts? behind).map (ns :: ·)
    else scanTexts? cs
termination_by cs.length
decreasing_by
  · exact Nat.lt_succ_of_le (List.dropWhile_suffix _).length_le
  · exact Nat.lt_succ_of_lt (length_of_readText? named _h)
  · simp

/-- A text with a line feed for every end of a line. -/
def withLineFeeds (cs : List Char) : List Char :=
  (joinLineEnds cs).map fun c => if c = '\r' then '\n' else c

/-- The texts that are quoted in some code, in their order. There are no null characters in code. -/
def texts? (code : String) : Option (List (List Nat)) :=
  if '\x00' ∈ code.toList then none else scanTexts? named (withLineFeeds code.toList)

end

/-! ## Ends of lines -/

theorem withLineFeeds_cons {c : Char} (hc : c ≠ '\r') (cs : List Char) :
    withLineFeeds (c :: cs) = c :: withLineFeeds cs := by
  rw [withLineFeeds, joinLineEnds]
  · simp [withLineFeeds, hc]
  · exact fun _ heq => absurd heq hc

theorem withLineFeeds_append_of_not_mem {a : List Char} (h : '\r' ∉ a) (b : List Char) :
    withLineFeeds (a ++ b) = a ++ withLineFeeds b := by
  induction a with
  | nil => rfl
  | cons c a ih =>
    rw [List.mem_cons, not_or] at h
    rw [List.cons_append, withLineFeeds_cons (Ne.symm h.1), ih h.2, List.cons_append]

theorem withLineFeeds_of_not_mem {cs : List Char} (h : '\r' ∉ cs) : withLineFeeds cs = cs := by
  simpa [withLineFeeds, joinLineEnds] using withLineFeeds_append_of_not_mem h []

/-- A character that is no line feed keeps what is in front of it apart from what is behind. -/
theorem withLineFeeds_append_cons {c : Char} (hc : c ≠ '\n') (a b : List Char) :
    withLineFeeds (a ++ c :: b) = withLineFeeds a ++ withLineFeeds (c :: b) := by
  have hjoin : joinLineEnds (a ++ c :: b) = joinLineEnds a ++ joinLineEnds (c :: b) := by
    fun_induction joinLineEnds a with
    | case1 => rfl
    | case2 a ih => rw [List.cons_append, List.cons_append, joinLineEnds, ih, List.cons_append]
    | case3 d a hpair ih =>
      rw [List.cons_append, joinLineEnds, ih, List.cons_append]
      rintro a' rfl heq
      cases a with
      | nil => exact hc (List.cons.inj heq).1
      | cons e a => exact hpair a rfl (by rw [(List.cons.inj heq).1])
  rw [withLineFeeds, hjoin, List.map_append]
  rfl

theorem length_withLineFeeds_le (cs : List Char) : (withLineFeeds cs).length ≤ cs.length := by
  rw [withLineFeeds, List.length_map]
  fun_induction joinLineEnds cs with
  | case1 => exact Nat.le_refl _
  | case2 cs ih => simp only [List.length_cons]; omega
  | case3 c cs _ ih => simpa using ih

theorem return_not_mem_withLineFeeds (cs : List Char) : '\r' ∉ withLineFeeds cs := by
  rw [withLineFeeds, List.mem_map]
  rintro ⟨c, -, hc⟩
  split at hc
  · exact absurd hc (by decide)
  · contradiction

/-! ## Code without texts -/

/-- A character that can stand between the texts in some code: it opens no text and no comment, and ends
no line. -/
def isBare (c : Char) : Bool := !(isQuote c || ['\\', '#', '\n', '\r', '\x00'].contains c)

theorem isBare_iff {c : Char} : isBare c = true ↔ isQuote c = false ∧ c ≠ '\\' ∧ c ≠ '#' ∧ c ≠ '\n' ∧
    c ≠ '\r' ∧ c ≠ '\x00' := by
  simp [isBare]

/-- Code in which no text is quoted. -/
def IsBare (code : String) : Prop := ∀ c ∈ code.toList, isBare c = true

instance : DecidablePred IsBare := fun code =>
  decidable_of_iff (code.toList.all isBare = true) (by simp [IsBare])

/-- To be used for texts that are written out: their characters are compared one by one. -/
theorem IsBare.ofList {cs : List Char} (h : cs.all isBare = true) : IsBare (String.ofList cs) := by
  simpa [IsBare] using h

@[simp] theorem IsBare.append_iff {a b : String} : IsBare (a ++ b) ↔ IsBare a ∧ IsBare b := by
  simp [IsBare, or_imp, forall_and]

/-- Nothing in bare code is changed before it is read. -/
theorem IsBare.plain {code : String} (h : IsBare code) : ∀ c ∈ code.toList, c ≠ '\r' ∧ c ≠ '\x00' :=
  fun c hc => (isBare_iff.1 (h c hc)).2.2.2.2

section
variable (named : List Char → Option Nat)

theorem scanTexts?_of_isQuote {quote : Char} (hquote : isQuote quote = true) (cs : List Char) :
    scanTexts? named (quote :: cs) = (readText? named (quote :: cs)).bind fun (ns, behind) =>
      (scanTexts? named behind).map (ns :: ·) := by
  rw [scanTexts?, if_neg (ne_of_isQuote hquote).1, if_pos hquote]
  split <;> rename_i h <;> rw [h] <;> rfl

theorem scanTexts?_of_isBare {front : String} (h : IsBare front) (cs : List Char) :
    scanTexts? named (front.toList ++ cs) = scanTexts? named cs := by
  unfold IsBare at h
  generalize front.toList = front at h ⊢
  induction front with
  | nil => rfl
  | cons c front ih =>
    rw [List.forall_mem_cons] at h
    obtain ⟨hquote, -, hcomment, -⟩ := isBare_iff.1 h.1
    rw [List.cons_append, scanTexts?, if_neg hcomment, if_neg (by simp [hquote]), ih h.2]

theorem scanTexts?_eq_of_isBare {code : String} (h : IsBare code) :
    scanTexts? named code.toList = some [] := by
  have hscan := scanTexts?_of_isBare named h []
  rwa [List.append_nil, scanTexts?] at hscan

/-- Code without carriage returns and null characters is read as it stands. -/
theorem texts?_of_forall {code : String} (h : ∀ c ∈ code.toList, c ≠ '\r' ∧ c ≠ '\x00') :
    texts? named code = scanTexts? named code.toList := by
  rw [texts?, if_neg fun hmem => (h _ hmem).2 rfl, withLineFeeds_of_not_mem fun hmem => (h _ hmem).1 rfl]

theorem texts?_append_of_isBare {front : String} (h : IsBare front) (code : String) :
    texts? named (front ++ code) = texts? named code := by
  have hnull : '\x00' ∉ front.toList := fun hmem => (h.plain _ hmem).2 rfl
  rw [texts?, texts?, String.toList_append,
    withLineFeeds_append_of_not_mem fun hmem => (h.plain _ hmem).1 rfl, scanTexts?_of_isBare named h]
  simp [hnull]

theorem texts?_of_isBare {code : String} (h : IsBare code) : texts? named code = some [] := by
  rw [texts?_of_forall named h.plain, scanTexts?_eq_of_isBare named h]

/-- A text whose end is found, and where no third quote stands behind its quotes. -/
theorem scanTexts?_of_cutText? {quote : Char} (hquote : isQuote quote = true) {body rest : List Char}
    {ns : List Nat} (hrest : rest.head? ≠ some quote)
    (hcut : cutText? [quote] false (body ++ quote :: rest) = some (body, rest))
    (hdenoted : denoted? named body = some ns) :
    scanTexts? named (quote :: (body ++ quote :: rest)) = (scanTexts? named rest).map (ns :: ·) := by
  have hsingle : ¬ [quote, quote].isPrefixOf (body ++ quote :: rest) = true := by
    intro htriple
    cases body with
    | nil =>
      cases rest with
      | nil => simp at htriple
      | cons c rest =>
        simp at htriple hrest
        exact hrest htriple.symm
    | cons c body =>
      have hc : quote = c := by
        simp at htriple
        exact htriple.1
      simp [hc, cutText?] at hcut
  have hread : readText? named (quote :: (body ++ quote :: rest)) = some (ns, rest) := by
    rw [readText?, if_neg hsingle]
    dsimp only
    rw [List.length_singleton, List.drop_zero, hcut, Option.bind_some, hdenoted]
    rfl
  rw [scanTexts?_of_isQuote named hquote, hread, Option.bind_some]

end
end ProtoModels.Source
