import ProtoModels.Descriptor.Pool.DefaultValue
import ProtoModels.Proofs.ModuleText.OneLine
import ProtoModels.Proofs.Source.Comments
/-!
# Reading text literals

A reader for text literals between double quotes: a backslash starts an escape, the first quote that is
no part of one closes the literal, and there is none without a closing quote on the line. It reads what
is written for a text as that text, whatever stands behind the literal (`quoted_denotes`).
-/
namespace ProtoModels.Literal

open Descriptor.Pool (digitBelow?)

/-! ## The reader -/

/-- What a letter or mark stands for behind a backslash. -/
def escapedChar? : Char → Option Char
  | '\\' => some '\\'
  | '"' => some '"'
  | 'n' => some '\n'
  | 'r' => some '\r'
  | 't' => some '\t'
  | _ => none

/-- The character whose number is given by two hexadecimal digits. -/
def numberedChar? (high low : Char) : Option Char := do
  let h ← digitBelow? 16 high
  let l ← digitBelow? 16 low
  some (Char.ofNat (16 * h + l))

/-- The text up to the quote that closes a literal, and what stands behind the quote. -/
def readQuoted? : List Char → Option (List Char × List Char)
  | [] => none
  | '"' :: rest => some ([], rest)
  | '\\' :: 'x' :: high :: low :: rest => do
    let c ← numberedChar? high low
    (readQuoted? rest).map fun (cs, behind) => (c :: cs, behind)
  | '\\' :: letter :: rest => do
    let c ← escapedChar? letter
    (readQuoted? rest).map fun (cs, behind) => (c :: cs, behind)
  | c :: rest =>
    if c = '\\' ∨ Source.isLineEnd c then none
    else (readQuoted? rest).map fun (cs, behind) => (c :: cs, behind)

/-! ## Reading what is written -/

theorem numberedChar?_hexDigit : ∀ n < 256,
    numberedChar? (hexDigit (n / 16)) (hexDigit (n % 16)) = some (Char.ofNat n) := by
  decide +kernel

/-- What is written for a character is read as this character. -/
theorem readQuoted?_escapeChar (c : Char) (rest : List Char) :
    readQuoted? (escapeChar c ++ rest) =
      (readQuoted? rest).map fun (cs, behind) => (c :: cs, behind) := by
  unfold escapeChar
  split
  · subst c
    rfl
  split
  · subst c
    rfl
  split
  · subst c
    rfl
  split
  · subst c
    rfl
  split
  · subst c
    rfl
  rename_i hbackslash hquote hfeed hreturn htab
  split
  · rename_i hcontrol
    have hc : c.toNat < 256 := by
      simp [isControl] at hcontrol
      omega
    simp [readQuoted?, numberedChar?_hexDigit _ hc]
  · have hend : Source.isLineEnd c = false := by simp [Source.isLineEnd, hfeed, hreturn]
    rw [List.singleton_append, readQuoted?, if_neg (by simp [hbackslash, hend])]
    · simpa using hquote
    · simp [hbackslash]
    · simp [hbackslash]

theorem readQuoted?_escape (cs rest : List Char) :
    readQuoted? (escape cs ++ '"' :: rest) = some (cs, rest) := by
  induction cs with
  | nil => rfl
  | cons c cs ih =>
    rw [escape, List.flatMap_cons, List.append_assoc, readQuoted?_escapeChar, ← escape, ih]
    rfl

/-- The reader finds a text again behind the first quote of its literal. -/
theorem readQuoted?_tail_text (s : String) (rest : List Char) :
    readQuoted? ((str s).text.toList.tail ++ rest) = some (s.toList, rest) := by
  have htail : (str s).text.toList.tail = escape s.toList ++ ['"'] := by simp [text, quoted]
  rw [htail, List.append_assoc, List.singleton_append, readQuoted?_escape]

theorem text_str_injective : Function.Injective fun s => (str s).text := by
  intro s t h
  have hs := readQuoted?_tail_text s []
  rw [show (str s).text = (str t).text from h, readQuoted?_tail_text t []] at hs
  exact String.toList_inj.1 (Prod.mk.inj (Option.some.inj hs)).1.symm

/-- **Text literals stand for their texts.** A literal is one line between two quotes. What stands between
them holds no control character, and read with its escapes it is the text: it is not closed before the last
quote, whatever stands behind the literal. So different texts have different literals. -/
theorem quoted_denotes (s : String) : ∃ body,
    (str s).text.toList = '"' :: (body ++ ['"']) ∧
    (∀ c ∈ body, 0x20 ≤ c.toNat ∧ (c.toNat < 0x7F ∨ 0x9F < c.toNat)) ∧
    Source.physicalLines (str s).text.toList = [(str s).text.toList] ∧
    (∀ rest, readQuoted? (body ++ '"' :: rest) = some (s.toList, rest)) ∧
    Function.Injective fun t => (str t).text := by
  have htext : (str s).text.toList = '"' :: (escape s.toList ++ ['"']) := by simp [text, quoted]
  have hprintable : ∀ c ∈ escape s.toList, 0x20 ≤ c.toNat ∧ (c.toNat < 0x7F ∨ 0x9F < c.toNat) := by
    intro c hc
    have hcontrol := isControl_of_mem_escape hc
    simp only [isControl, Bool.or_eq_false_iff, decide_eq_false_iff_not, Bool.and_eq_false_iff] at hcontrol
    omega
  refine ⟨escape s.toList, htext, hprintable, ?_, readQuoted?_escape s.toList, text_str_injective⟩
  have hreturn : '\r' ∉ (str s).text.toList := by
    rw [htext, List.mem_cons, List.mem_append, not_or, not_or]
    refine ⟨by decide, fun hmem => ?_, by decide⟩
    exact absurd (hprintable _ hmem).1 (by decide)
  rw [Source.physicalLines_of_not_mem (oneLine_text _), List.splitOn_eq_singleton hreturn]

end ProtoModels.Literal
