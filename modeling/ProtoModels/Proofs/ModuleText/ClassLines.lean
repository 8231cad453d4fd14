import ProtoModels.Proofs.Source.Reading
/-!
# Lines that open a class

A reader for the class lines of a module's source. It looks at each line by itself: the white space in
front is its indentation, and behind it there must be the word `class`, a name, and one of the three
endings that tell what the class stands for. Lines that open no class are passed over.
-/
namespace ProtoModels

/-- The characters of names: letters, digits, the underscore, and all characters beyond ASCII. -/
def isNameChar (c : Char) : Bool := c.isAlphanum || c == '_' || decide (0x80 ≤ c.toNat)

/-- A name that is not empty. -/
structure IsIdentifier (name : String) : Prop where
  ne_empty : name ≠ ""
  chars : ∀ c ∈ name.toList, isNameChar c = true

instance : DecidablePred IsIdentifier := fun name =>
  decidable_of_iff (name ≠ "" ∧ name.toList.all isNameChar = true)
    ⟨fun h => ⟨h.1, List.all_eq_true.1 h.2⟩, fun h => ⟨h.1, List.all_eq_true.2 h.2⟩⟩

/-- What a class stands for. -/
inductive ClassKind where
  | message
  | enum
  /-- A class around others that declares nothing itself. -/
  | scope
deriving DecidableEq, Repr

/-- What stands behind the name in the line that opens a class. -/
def ClassKind.ending : ClassKind → String
  | message => "(BaseModel):"
  | enum => "(StrEnum):"
  | scope => ":"

/-- A line that opens a class: the number of spaces in front, the name and the kind of the class. -/
structure ClassLine where
  indent : Nat
  name : String
  kind : ClassKind
deriving DecidableEq, Repr

/-! ## The reader -/

/-- The class that some text opens, if it starts with `class `. -/
def readOpening? : List Char → Option (String × ClassKind)
  | 'c' :: 'l' :: 'a' :: 's' :: 's' :: ' ' :: rest =>
    if rest.takeWhile isNameChar = [] then none
    else
      ([.message, .enum, .scope].find? fun kind : ClassKind =>
        kind.ending.toList == rest.dropWhile isNameChar).map (String.ofList (rest.takeWhile isNameChar), ·)
  | _ => none

/-- The class that a line opens. -/
def ClassLine.read? (line : String) : Option ClassLine :=
  (readOpening? (line.toList.dropWhile (· == ' '))).map fun opening =>
    ⟨(line.toList.takeWhile (· == ' ')).length, opening.1, opening.2⟩

/-- The class lines of a source text, in their order. -/
def classLines (source : String) : List ClassLine :=
  (Text.splitOn '\n' source).filterMap ClassLine.read?

example : classLines "class A(BaseModel):\n    class B:\n        x: int = Field()\n" =
    [⟨0, "A", .message⟩, ⟨4, "B", .scope⟩] := by decide +kernel

/-! ## Lines that open a class -/

theorem takeWhile_isNameChar {name : List Char} (hname : ∀ c ∈ name, isNameChar c = true) {c : Char}
    (hc : isNameChar c = false) (rest : List Char) :
    (name ++ c :: rest).takeWhile isNameChar = name ∧
      (name ++ c :: rest).dropWhile isNameChar = c :: rest := by
  rw [List.takeWhile_append_of_pos hname, List.dropWhile_append_of_pos hname]
  simp [hc]

/-- **The line of a class is read** as its name and its kind. -/
theorem readOpening?_class {name : String} (h : IsIdentifier name) (kind : ClassKind) :
    readOpening? ("class " ++ name ++ kind.ending).toList = some (name, kind) := by
  obtain ⟨c, rest, hending, hc⟩ : ∃ c rest, kind.ending.toList = c :: rest ∧ isNameChar c = false := by
    cases kind
    · exact ⟨'(', _, rfl, by decide⟩
    · exact ⟨'(', _, rfl, by decide⟩
    · exact ⟨':', _, rfl, by decide⟩
  obtain ⟨htake, hdrop⟩ := takeWhile_isNameChar h.chars hc rest
  have hne : name.toList ≠ [] := by simpa using h.ne_empty
  have hfind : ([.message, .enum, .scope].find? fun k : ClassKind =>
      k.ending.toList == kind.ending.toList) = some kind := by
    cases kind <;> decide
  have htext : ("class " ++ name ++ kind.ending).toList =
      'c' :: 'l' :: 'a' :: 's' :: 's' :: ' ' :: (name.toList ++ c :: rest) := by
    rw [String.toList_append, String.toList_append, hending, List.append_assoc]
    rfl
  rw [htext, readOpening?, htake, hdrop, ← hending, if_neg hne, hfind]
  simp

/-! ## Lines that open none -/

/-- A text on one line that opens no class. -/
structure Plain (text : String) : Prop where
  oneLine : OneLine text
  opens : readOpening? (text.toList.dropWhile (· == ' ')) = none

instance : DecidablePred Plain := fun text =>
  decidable_of_iff (OneLine text ∧ readOpening? (text.toList.dropWhile (· == ' ')) = none)
    ⟨fun h => ⟨h.1, h.2⟩, fun h => ⟨h.1, h.2⟩⟩

theorem readOpening?_cons {c : Char} (hc : c ≠ 'c') (cs : List Char) :
    readOpening? (c :: cs) = none := by
  unfold readOpening?
  split
  · rename_i heq
    exact absurd (List.cons.inj heq).1 hc
  · rfl

/-- A first character that neither a class line nor white space starts with. -/
def startsPlain (text : String) : Bool := text.toList.head?.any fun c => c != ' ' && c != 'c'

theorem startsPlain_append {a : String} (h : startsPlain a = true) (b : String) :
    startsPlain (a ++ b) = true := by
  unfold startsPlain at *
  cases ha : a.toList with
  | nil => simp [ha] at h
  | cons c cs => simpa [ha] using h

theorem Plain.of_start {text : String} (h : OneLine text) (hstart : startsPlain text = true) :
    Plain text := by
  refine ⟨h, ?_⟩
  unfold startsPlain at hstart
  cases htext : text.toList with
  | nil => simp [htext] at hstart
  | cons c cs =>
    obtain ⟨hspace, hclass⟩ : c ≠ ' ' ∧ c ≠ 'c' := by simpa [htext] using hstart
    rw [List.dropWhile_cons, if_neg (by simpa using hspace)]
    exact readOpening?_cons hclass cs

/-- To be used for texts that are written out: their characters are compared one by one. -/
theorem Plain.ofList {cs : List Char} (h : '\n' ∉ cs)
    (hstart : (cs.head?.any fun c => c != ' ' && c != 'c') = true) : Plain (String.ofList cs) :=
  .of_start (OneLine.ofList_iff.2 h) (by simpa [startsPlain] using hstart)

/-- A name in front of something opens no class: a name holds no space, and behind `class ` there must
be another name. -/
theorem readOpening?_name {name : List Char} (hname : ∀ c ∈ name, isNameChar c = true) {c : Char}
    (hc : isNameChar c = false) {rest : List Char}
    (hrest : c ≠ ' ' ∨ rest.takeWhile isNameChar = []) : readOpening? (name ++ c :: rest) = none := by
  obtain ⟨_, hdrop⟩ := takeWhile_isNameChar hname hc rest
  unfold readOpening?
  split
  · rename_i tail heq
    have hspace : isNameChar ' ' = false := by decide
    have hword := List.all_eq_true.1 (show ['c', 'l', 'a', 's', 's'].all isNameChar = true by decide)
    obtain ⟨_, hdrop'⟩ := takeWhile_isNameChar hword hspace tail
    rw [heq] at hdrop
    obtain ⟨rfl, rfl⟩ := List.cons.inj (hdrop.symm.trans hdrop')
    rw [if_pos (hrest.resolve_left (not_not_intro rfl))]
  · rfl

/-- A text that ends a name in front of it and goes on with no other one. -/
def endsName (text : String) : Bool :=
  match text.toList with
  | c :: d :: _ => !isNameChar c && (c != ' ' || !isNameChar d)
  | _ => false

theorem Plain.of_name {name separator more : String} (h : IsIdentifier name)
    (hends : endsName separator = true) (hone : OneLine (name ++ (separator ++ more))) :
    Plain (name ++ (separator ++ more)) := by
  refine ⟨hone, ?_⟩
  obtain ⟨c, rest, hseparator, hc, hrest⟩ : ∃ c rest, (separator ++ more).toList = c :: rest ∧
      isNameChar c = false ∧ (c ≠ ' ' ∨ rest.takeWhile isNameChar = []) := by
    unfold endsName at hends
    split at hends
    · rename_i c d ds hchars
      simp only [Bool.and_eq_true, Bool.not_eq_true', Bool.or_eq_true, bne_iff_ne] at hends
      refine ⟨c, d :: ds ++ more.toList, by simp [hchars], hends.1, hends.2.imp_right fun hd => ?_⟩
      simp [hd]
    · cases hends
  have hspace : (name.toList ++ c :: rest).dropWhile (· == ' ') = name.toList ++ c :: rest := by
    cases hname : name.toList with
    | nil => exact absurd hname (by simpa using h.ne_empty)
    | cons d ds =>
      have hd : isNameChar d = true := h.chars d (by simp [hname])
      have hne : d ≠ ' ' := fun heq => by
        subst heq
        exact absurd hd (by decide)
      simp [hne]
  rw [String.toList_append, hseparator, hspace]
  exact readOpening?_name h.chars hc hrest

/-! ## Lines as they are shown -/

namespace Source.Line

/-- Indentation is read as such. -/
theorem read?_shown (l : Line) : ClassLine.read? l.shown =
    (readOpening? (l.text.toList.dropWhile (· == ' '))).map fun opening =>
      ⟨4 * l.depth + (l.text.toList.takeWhile (· == ' ')).length, opening.1, opening.2⟩ := by
  by_cases htext : l.text = ""
  · simp [ClassLine.read?, shown, htext, readOpening?]
  · obtain ⟨hdrop, htake⟩ := l.spaces_shown htext
    rw [ClassLine.read?, hdrop, htake]

theorem read?_shown_plain {l : Line} (h : Plain l.text) : ClassLine.read? l.shown = none := by
  rw [read?_shown, h.opens]
  rfl

theorem read?_shown_class {name : String} (h : IsIdentifier name) (kind : ClassKind) (depth : Nat) :
    ClassLine.read? (Line.mk depth ("class " ++ name ++ kind.ending)).shown =
      some ⟨4 * depth, name, kind⟩ := by
  have hhead : ("class " ++ name ++ kind.ending).toList =
      'c' :: ("lass " ++ name ++ kind.ending).toList := by
    simp only [String.toList_append]
    rfl
  have hread := readOpening?_class h kind
  rw [hhead] at hread
  rw [read?_shown]
  dsimp only
  rw [hhead, List.dropWhile_cons, List.takeWhile_cons, if_neg (by decide), if_neg (by decide), hread]
  rfl

end Source.Line
end ProtoModels
