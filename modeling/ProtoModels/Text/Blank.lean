/-!
# White space

The characters of the Unicode property `White_Space`, and cutting them off the end of a text.
`trimEndChars_append` says that nothing but white space is cut, `isBlank_getLast_trimEndChars` that
none is left at the end.
-/
namespace ProtoModels.Text

/-- The ranges of `White_Space`, both ends included. -/
def blankRanges : List (Nat × Nat) :=
  [(0x09, 0x0D), (0x20, 0x20), (0x85, 0x85), (0xA0, 0xA0), (0x1680, 0x1680), (0x2000, 0x200A),
   (0x2028, 0x2029), (0x202F, 0x202F), (0x205F, 0x205F), (0x3000, 0x3000)]

def isBlank (c : Char) : Bool :=
  blankRanges.any fun (lo, hi) => lo ≤ c.toNat && c.toNat ≤ hi

/-- The characters without the white space at their end. -/
def trimEndChars : List Char → List Char
  | [] => []
  | c :: cs =>
    match trimEndChars cs with
    | [] => if isBlank c then [] else [c]
    | d :: ds => c :: d :: ds

/-- The text without the white space at its end. -/
def trimEnd (s : String) : String := String.ofList (trimEndChars s.toList)

/-- Only white space, or nothing at all. -/
def isBlankText (s : String) : Bool := s.toList.all isBlank

theorem trimEndChars_append (cs : List Char) :
    ∃ tail, cs = trimEndChars cs ++ tail ∧ tail.all isBlank = true := by
  induction cs with
  | nil => exact ⟨[], rfl, rfl⟩
  | cons c cs ih =>
    obtain ⟨tail, hcs, hblank⟩ := ih
    cases h : trimEndChars cs with
    | nil =>
      have hcs : cs = tail := by simpa [h] using hcs
      by_cases hc : isBlank c = true
      · exact ⟨c :: tail, by simp [trimEndChars, h, hc, ← hcs], by simp [hc, hblank]⟩
      · exact ⟨tail, by simp [trimEndChars, h, hc, ← hcs], hblank⟩
    | cons d ds =>
      have hcs : cs = d :: ds ++ tail := by rw [h] at hcs; exact hcs
      refine ⟨tail, ?_, hblank⟩
      rw [trimEndChars, h]
      exact congrArg (c :: ·) hcs

theorem isBlank_getLast_trimEndChars (cs : List Char) :
    ∀ c ∈ (trimEndChars cs).getLast?, isBlank c = false := by
  induction cs with
  | nil => simp [trimEndChars]
  | cons c cs ih =>
    cases h : trimEndChars cs with
    | nil => by_cases hc : isBlank c = true <;> simp [trimEndChars, h, hc]
    | cons d ds => simpa [trimEndChars, h] using ih

end ProtoModels.Text
