/-!
# Names

How full names are made of local ones, names in order, and using up names: a search through finitely
many names ends because a name that has been tried or entered is not looked at again. `useUp` takes a
name out, with all its repetitions.
-/
namespace ProtoModels

/-- A name as it is known outside the declaration with the full name `outer` (`qualify`). -/
def qualify (outer name : String) : String := if outer = "" then name else outer ++ "." ++ name

/-- The names in ascending order, each once. -/
def sortedNames (names : List String) : List String :=
  names.eraseDups.mergeSort fun a b => decide (a ≤ b)

/-! ## Using up names -/

/-- The names without one of them. -/
def useUp (name : String) (names : List String) : List String := names.filter (· ≠ name)

@[simp] theorem mem_useUp {a name : String} {names : List String} :
    a ∈ useUp name names ↔ a ∈ names ∧ a ≠ name := by
  simp [useUp]

theorem length_useUp_lt {name : String} {names : List String} (h : name ∈ names) :
    (useUp name names).length < names.length :=
  List.length_filter_lt_length_iff_exists.2 ⟨name, h, by simp⟩

end ProtoModels
