import ProtoModels.Proofs.Literals.Quotes
import ProtoModels.Proofs.ModuleText.ClassLines
import ProtoModels.Proofs.Oneofs
/-!
# Texts in serializers and validators

What is quoted in the serializer and the validator of a message: the names of the map fields, the context
in which they are dumped, the errors of the oneofs. Names and errors are read as what they are. The context
stands between its quotes as the settings give it, so it is read as itself exactly if it needs no escape
(`hooks_denote_iff`).
-/
namespace ProtoModels

open Source

/-! ## Names -/

theorem isBare_of_isNameChar {c : Char} (h : isNameChar c = true) : isBare c = true := by
  by_contra hc
  simp only [isBare, isQuote, Bool.not_eq_true', Bool.not_eq_false, Bool.or_eq_true, beq_iff_eq,
    List.contains_iff_mem, List.mem_cons, List.not_mem_nil, or_false] at hc
  rcases hc with (rfl | rfl) | rfl | rfl | rfl | rfl | rfl <;> exact absurd h (by decide)

theorem IsIdentifier.isBare {name : String} (h : IsIdentifier name) : IsBare name :=
  fun c hc => isBare_of_isNameChar (h.chars c hc)

theorem isBare_commaSeparated {items : List String} (h : ∀ item ∈ items, IsBare item) :
    IsBare (commaSeparated items) := by
  have hseparator : IsBare ", " := .ofList (by decide)
  exact forall_mem_intercalate hseparator h

/-! ## Texts of lines -/

section
variable (named : List Char → Option Nat)

theorem texts?_shown (l : Line) : texts? named l.shown = texts? named l.text := by
  unfold Line.shown
  split
  · rename_i hempty
    rw [hempty]
  · refine texts?_append_of_isBare named (fun c hc => ?_) l.text
    rw [Line.indentation, String.toList_ofList] at hc
    rw [List.eq_of_mem_replicate hc]
    decide

/-- The texts that are quoted in some lines, each line read for itself. -/
def lineTexts? : List Line → Option (List (List Nat))
  | [] => some []
  | l :: ls => (texts? named l.shown).bind fun ts => (lineTexts? ls).map (ts ++ ·)

theorem lineTexts?_cons {text : String} {ts : List (List Nat)} (h : texts? named text = some ts)
    (depth : Nat) (ls : List Line) :
    lineTexts? named (⟨depth, text⟩ :: ls) = (lineTexts? named ls).map (ts ++ ·) := by
  rw [lineTexts?, texts?_shown, h, Option.bind_some]

theorem lineTexts?_cons_of_isBare {text : String} (h : IsBare text) (depth : Nat) (ls : List Line) :
    lineTexts? named (⟨depth, text⟩ :: ls) = lineTexts? named ls := by
  rw [lineTexts?_cons named (texts?_of_isBare named h)]
  simp

theorem lineTexts?_blank (ls : List Line) : lineTexts? named (.blank :: ls) = lineTexts? named ls :=
  lineTexts?_cons_of_isBare named (.ofList (by decide)) 0 ls

theorem lineTexts?_append {a b : List Line} {ts : List (List Nat)} (h : lineTexts? named a = some ts) :
    lineTexts? named (a ++ b) = (lineTexts? named b).map (ts ++ ·) := by
  induction a generalizing ts with
  | nil =>
    cases h
    simp
  | cons l a ih =>
    obtain ⟨first, hfirst, h⟩ := Option.bind_eq_some_iff.1 h
    obtain ⟨more, hmore, rfl⟩ := Option.map_eq_some_iff.1 h
    rw [List.cons_append, lineTexts?, hfirst, Option.bind_some, ih hmore, Option.map_map]
    simp [Function.comp_def]

/-! ## The serializer -/

/-- The line that tests the context. -/
def contextLine (context : String) : Line := ⟨1, "if info.context == '" ++ context ++ "':"⟩

theorem scanTexts?_commaSeparated {names : List String} (h : ∀ name ∈ names, IsBare name)
    {rest : String} (hrest : IsBare rest) :
    scanTexts? named ((commaSeparated (names.map inQuotes)).toList ++ rest.toList) =
      some (names.map codePoints) := by
  have hquote : rest.toList.head? ≠ some '"' := fun hhead =>
    absurd (hrest _ (List.mem_of_head? hhead)) (by decide)
  induction names with
  | nil => simpa [commaSeparated] using scanTexts?_eq_of_isBare named hrest
  | cons name names ih =>
    rw [List.forall_mem_cons] at h
    have hname : IsVerbatim '"' name := h.1.isVerbatim (by decide)
    cases names with
    | nil =>
      have hcode : (commaSeparated ([name].map inQuotes)).toList ++ rest.toList =
          '"' :: (name.toList ++ '"' :: rest.toList) := by
        simp [commaSeparated, inQuotes]
      rw [hcode, scanTexts?_of_isVerbatim named (by decide) hname hquote,
        scanTexts?_eq_of_isBare named hrest]
      rfl
    | cons next names =>
      have hcode : (commaSeparated ((name :: next :: names).map inQuotes)).toList ++ rest.toList =
          '"' :: (name.toList ++ '"' :: (", ".toList ++
            ((commaSeparated ((next :: names).map inQuotes)).toList ++ rest.toList))) := by
        rw [commaSeparated, List.map_cons, String.intercalate_cons_of_ne_nil (by simp)]
        simp [commaSeparated, inQuotes]
      rw [hcode, scanTexts?_of_isVerbatim named (by decide) hname (by simp),
        scanTexts?_of_isBare named (.ofList (by decide)), ih h.2]
      rfl

theorem texts?_decorator {names : List String} (h : ∀ name ∈ names, IsBare name) :
    texts? named ("@field_serializer(" ++ commaSeparated (names.map inQuotes) ++ ")") =
      some (names.map codePoints) := by
  have hseparator : IsBare ", " := .ofList (by decide)
  have hend : IsBare ")" := .ofList (by decide)
  have hquoted : ∀ item ∈ names.map inQuotes, ∀ c ∈ item.toList, c ≠ '\r' ∧ c ≠ '\x00' := by
    rw [List.forall_mem_map]
    intro name hname
    simpa [inQuotes, or_imp, forall_and] using (h name hname).plain
  have hplain : ∀ c ∈ (commaSeparated (names.map inQuotes) ++ ")").toList, c ≠ '\r' ∧ c ≠ '\x00' := by
    rw [String.toList_append, List.forall_mem_append]
    exact ⟨forall_mem_intercalate hseparator.plain hquoted, hend.plain⟩
  rw [String.append_assoc, texts?_append_of_isBare named (.ofList (by decide)), texts?_of_forall named hplain,
    String.toList_append, scanTexts?_commaSeparated named h hend]

/-- The context is read as itself exactly if it can stand as it is. -/
theorem texts?_contextLine_iff (context : String) :
    texts? named (contextLine context).text = some [codePoints context] ↔ IsVerbatim '\'' context := by
  have hcode : (contextLine context).text.toList =
      "if info.context == ".toList ++ '\'' :: (context.toList ++ '\'' :: ":".toList) := by
    simp [contextLine]
  exact texts?_quoted_iff named (by decide) hcode (.ofList (by decide)) (.ofList (by decide))

/-- The lines around the test of the context hold the names of the fields and nothing else. -/
theorem exists_serializerBlock_eq (context : String) {names : List String} (hnames : names ≠ [])
    (h : ∀ name ∈ names, IsBare name) : ∃ before behind,
      serializerBlock context names = before ++ contextLine context :: behind ∧
      lineTexts? named before = some (names.map codePoints) ∧ lineTexts? named behind = some [] := by
  obtain ⟨name, more, rfl⟩ := List.exists_cons_of_ne_nil hnames
  refine ⟨[.blank, ⟨0, "@field_serializer(" ++ commaSeparated ((name :: more).map inQuotes) ++ ")"⟩,
    ⟨0, "def json_dump(self, v: dict, info: SerializationInfo):"⟩],
    [⟨2, "return json.dumps(v)"⟩, ⟨1, "return v"⟩], rfl, ?_, ?_⟩
  · rw [lineTexts?_blank, lineTexts?_cons named (texts?_decorator named h),
      lineTexts?_cons_of_isBare named (.ofList (by decide)), lineTexts?]
    simp
  · rw [lineTexts?_cons_of_isBare named (.ofList (by decide)),
      lineTexts?_cons_of_isBare named (.ofList (by decide)), lineTexts?]

/-! ## The validator -/

/-- What an instance is refused with. -/
def OneofGroup.errorText (g : OneofGroup) : String :=
  "oneof " ++ g.name ++ ": exactly one of " ++ commaSeparated g.members ++ " must be set"

theorem OneofGroup.lineTexts?_check {g : OneofGroup} (hname : IsBare g.name)
    (hmembers : ∀ member ∈ g.members, IsBare member) :
    lineTexts? named g.check = some [codePoints g.errorText] := by
  have hcount : IsBare ("if sum(v is not None for v in (" ++
      commaSeparated (g.members.map ("self." ++ ·)) ++ ",)) != 1:") := by
    rw [IsBare.append_iff, IsBare.append_iff]
    refine ⟨⟨.ofList (by decide), isBare_commaSeparated ?_⟩, .ofList (by decide)⟩
    rw [List.forall_mem_map]
    exact fun member hmember => IsBare.append_iff.2 ⟨.ofList (by decide), hmembers member hmember⟩
  have herror : IsBare g.errorText := by
    simp only [errorText, IsBare.append_iff]
    exact ⟨⟨⟨⟨.ofList (by decide), hname⟩, .ofList (by decide)⟩, isBare_commaSeparated hmembers⟩,
      .ofList (by decide)⟩
  have hraise : texts? named ("raise ValueError(\"oneof " ++ g.name ++ ": exactly one of " ++
      commaSeparated g.members ++ " must be set\")") = some [codePoints g.errorText] := by
    have hcode : ("raise ValueError(\"oneof " ++ g.name ++ ": exactly one of " ++
        commaSeparated g.members ++ " must be set\")").toList =
          "raise ValueError(".toList ++ '"' :: (g.errorText.toList ++ '"' :: ")".toList) := by
      simp [errorText]
    exact (texts?_quoted_iff named (by decide) hcode (.ofList (by decide)) (.ofList (by decide))).2
      (herror.isVerbatim (by decide))
  rw [check, lineTexts?_cons_of_isBare named hcount, lineTexts?_cons named hraise, lineTexts?]
  simp

/-- The texts of a validator: when it runs, and the errors. -/
def validatorTexts : List OneofGroup → List String
  | [] => []
  | groups => "after" :: groups.map (·.errorText)

theorem lineTexts?_validatorBlock {groups : List OneofGroup}
    (h : ∀ g ∈ groups, IsBare g.name ∧ ∀ member ∈ g.members, IsBare member) :
    lineTexts? named (validatorBlock groups) = some ((validatorTexts groups).map codePoints) := by
  have hchecks : lineTexts? named (groups.flatMap OneofGroup.check) =
      some (groups.map (codePoints ·.errorText)) := by
    induction groups with
    | nil => rfl
    | cons g groups ih =>
      rw [List.forall_mem_cons] at h
      rw [List.flatMap_cons, lineTexts?_append named (g.lineTexts?_check named h.1.1 h.1.2), ih h.2]
      rfl
  cases groups with
  | nil => rfl
  | cons g groups =>
    have hcode : "@model_validator(mode=\"after\")".toList =
        "@model_validator(mode=".toList ++ '"' :: ("after".toList ++ '"' :: ")".toList) := by decide
    have hafter : texts? named "@model_validator(mode=\"after\")" = some [codePoints "after"] :=
      (texts?_quoted_iff named (by decide) hcode (.ofList (by decide)) (.ofList (by decide))).2 (by decide)
    simp only [validatorBlock, List.cons_append, List.nil_append]
    rw [lineTexts?_blank, lineTexts?_cons named hafter, lineTexts?_cons_of_isBare named (.ofList (by decide)),
      lineTexts?_append named hchecks, lineTexts?_cons_of_isBare named (.ofList (by decide))]
    simp [lineTexts?, validatorTexts]

/-! ## Both -/

/-- The texts that a serializer and a validator are to hold. -/
def hookTexts (context : String) (maps : List String) (groups : List OneofGroup) : List String :=
  (if maps = [] then [] else maps ++ [context]) ++ validatorTexts groups

theorem lineTexts?_hooks_iff (context : String) {maps : List String} (hmaps : ∀ name ∈ maps, IsBare name)
    {groups : List OneofGroup}
    (hgroups : ∀ g ∈ groups, IsBare g.name ∧ ∀ member ∈ g.members, IsBare member) :
    lineTexts? named (serializerBlock context maps ++ validatorBlock groups) =
        some ((hookTexts context maps groups).map codePoints) ↔
      maps = [] ∨ IsVerbatim '\'' context := by
  have hvalidator := lineTexts?_validatorBlock named hgroups
  by_cases hnone : maps = []
  · subst hnone
    simpa [serializerBlock, hookTexts] using hvalidator
  obtain ⟨before, behind, hblock, hbefore, hbehind⟩ :=
    exists_serializerBlock_eq named context hnone hmaps
  have hwhole : lineTexts? named (serializerBlock context maps ++ validatorBlock groups) =
      (texts? named (contextLine context).text).map fun ts =>
        maps.map codePoints ++ (ts ++ (validatorTexts groups).map codePoints) := by
    rw [hblock, List.append_assoc, lineTexts?_append named hbefore, List.cons_append, lineTexts?,
      texts?_shown, lineTexts?_append named hbehind, hvalidator]
    cases texts? named (contextLine context).text <;> rfl
  have htexts : (hookTexts context maps groups).map codePoints =
      maps.map codePoints ++ ([codePoints context] ++ (validatorTexts groups).map codePoints) := by
    simp [hookTexts, hnone]
  rw [hwhole, htexts, ← texts?_contextLine_iff named, Option.map_eq_some_iff]
  simp only [List.append_cancel_left_eq, List.append_cancel_right_eq, exists_eq_right, hnone, false_or]

/-- The serializer and the validator close the body of a message. -/
theorem ModuleContext.exists_front_of_messageBody {c : ModuleContext} {m : Message} {nested : Bool}
    {body : List Line} (h : c.messageBody m nested = .ok body) : ∃ front, body = front ++
      (serializerBlock c.settings.serializeContext (c.schema.mapFields m) ++
        validatorBlock m.oneofGroups) := by
  unfold messageBody at h
  split at h
  · rename_i hempty
    cases h
    rw [List.isEmpty_iff] at hempty
    have hmaps : c.schema.mapFields m = [] := by simp [Schema.mapFields, hempty]
    have hgroups : m.oneofGroups = [] := by
      rw [List.eq_nil_iff_forall_not_mem]
      intro g hg
      obtain ⟨i, -, hmembers, htwo⟩ := Message.mem_oneofGroups_iff.1 hg
      simp [hmembers, Message.oneofMembers, hempty] at htwo
    rw [hmaps, hgroups]
    exact ⟨_, (List.append_nil _).symm⟩
  · obtain ⟨blocks, -, rfl⟩ := map_eq_ok_iff.1 h
    exact ⟨_, List.append_assoc ..⟩

end

/-- **The texts of serializers and validators.** The body of a message with identifiers for names ends with
its serializer and its validator. The texts in them are those that are meant: the names of the map fields,
the error of every oneof with two members, and the context, if it holds neither its quote nor an escape, an
end of a line or a null character; otherwise what stands between its quotes is not read as this context. -/
theorem hooks_denote_iff (c : ModuleContext) {m : Message} (hfields : ∀ f ∈ m.fields, IsIdentifier f.name)
    (honeofs : ∀ name ∈ m.oneofs, IsIdentifier name) {nested : Bool} {body : List Line}
    (hbody : c.messageBody m nested = .ok body) (named : List Char → Option Nat) :
    let context := c.settings.serializeContext
    let maps := c.schema.mapFields m
    ∃ front, body = front ++ (serializerBlock context maps ++ validatorBlock m.oneofGroups) ∧
      lineTexts? named (validatorBlock m.oneofGroups) =
        some ((validatorTexts m.oneofGroups).map codePoints) ∧
      (maps ≠ [] → ∃ before behind,
        serializerBlock context maps = before ++ contextLine context :: behind ∧
        lineTexts? named before = some (maps.map codePoints) ∧ lineTexts? named behind = some [] ∧
        (texts? named (contextLine context).shown = some [codePoints context] ↔
          IsVerbatim '\'' context)) ∧
      (lineTexts? named (serializerBlock context maps ++ validatorBlock m.oneofGroups) =
          some ((hookTexts context maps m.oneofGroups).map codePoints) ↔
        maps = [] ∨ IsVerbatim '\'' context) := by
  intro context maps
  have hmaps : ∀ name ∈ maps, IsBare name := by
    intro name hname
    obtain ⟨f, hf, rfl⟩ := List.mem_map.1 hname
    exact (hfields f (List.mem_of_mem_filter hf)).isBare
  have hgroups : ∀ g ∈ m.oneofGroups, IsBare g.name ∧ ∀ member ∈ g.members, IsBare member := by
    intro g hg
    obtain ⟨i, hname, hmembers, -⟩ := Message.mem_oneofGroups_iff.1 hg
    refine ⟨(honeofs _ (List.mem_of_getElem? hname)).isBare, ?_⟩
    rw [hmembers, List.forall_mem_map]
    exact fun f hf => (hfields f (Message.mem_oneofMembers.1 hf).1).isBare
  obtain ⟨front, hfront⟩ := ModuleContext.exists_front_of_messageBody hbody
  refine ⟨front, hfront, lineTexts?_validatorBlock named hgroups, fun hsome => ?_,
    lineTexts?_hooks_iff named context hmaps hgroups⟩
  obtain ⟨before, behind, hblock, hbefore, hbehind⟩ :=
    exists_serializerBlock_eq named context hsome hmaps
  rw [texts?_shown]
  exact ⟨before, behind, hblock, hbefore, hbehind, texts?_contextLine_iff named context⟩

/-! ## A message with labels -/

/-- A file with a message that has labels and is called by a name or a number. -/
def taggedFile : Descriptor.File where
  name := "a.proto"
  package := "a"
  messages := [{
    name := "Tagged"
    fields := [
      { name := "labels", number := 1, label := some 3, kind := some 11,
        typeName := some ".a.Tagged.LabelsEntry" },
      { name := "title", number := 2, label := some 1, kind := some 9, oneofIndex := some 0 },
      { name := "position", number := 3, label := some 1, kind := some 5, oneofIndex := some 0 }]
    oneofs := [{ name := "key" }]
    nested := [{
      name := "LabelsEntry"
      fields := [
        { name := "key", number := 1, label := some 1, kind := some 9 },
        { name := "value", number := 2, label := some 1, kind := some 9 }]
      mapEntry := true }] }]

/-- The context of the module, with the context in which maps are dumped. -/
def taggedContext (context : String) : ModuleContext :=
  let s := Schema.ofDescriptors [taggedFile] {}
  ⟨s, .ofPackage s "a", { serializeContext := context }⟩

def taggedMessage : Message :=
  let c : FileContext := ⟨"a.proto", "a", .proto2, [], {}⟩
  (Message.ofDescriptors c c.scope [4] 0 taggedFile.messages).head (by simp [taggedFile,
    Message.ofDescriptors])

theorem mapFields_taggedMessage (context : String) :
    (taggedContext context).schema.mapFields taggedMessage = ["labels"] := by
  have h : (Schema.ofDescriptors [taggedFile] {}).mapFields taggedMessage = ["labels"] := by
    decide +kernel
  exact h

theorem hooks_denote_iff_tagged :
    let c := taggedContext "C:\\data"
    (∀ f ∈ taggedMessage.fields, IsIdentifier f.name) ∧
      (∀ name ∈ taggedMessage.oneofs, IsIdentifier name) ∧
      ∃ front body, c.messageBody taggedMessage false = .ok body ∧
        body = front ++ (serializerBlock "C:\\data" ["labels"] ++ validatorBlock taggedMessage.oneofGroups) ∧
        lineTexts? (fun _ => none)
            (serializerBlock "C:\\data" ["labels"] ++ validatorBlock taggedMessage.oneofGroups) =
          some (["labels", "C:\\data", "after",
            "oneof key: exactly one of title, position must be set"].map codePoints) := by
  intro c
  have hfields : ∀ f ∈ taggedMessage.fields, IsIdentifier f.name := by decide +kernel
  have honeofs : ∀ name ∈ taggedMessage.oneofs, IsIdentifier name := by decide +kernel
  obtain ⟨body, hbody⟩ : ∃ body, c.messageBody taggedMessage false = .ok body := ⟨_, rfl⟩
  obtain ⟨front, hfront, -, -, hiff⟩ := hooks_denote_iff c hfields honeofs hbody fun _ => none
  have hcontext : c.settings.serializeContext = "C:\\data" := rfl
  rw [mapFields_taggedMessage, hcontext] at hfront hiff
  exact ⟨hfields, honeofs, front, body, hbody, hfront, hiff.2 (Or.inr (by decide +kernel))⟩

/-- A quote in the context closes its text, and the quote behind opens one that nothing closes. -/
theorem context_closed_early :
    let s := Schema.ofDescriptors [taggedFile] {}
    let settings : Settings := { serializeContext := "it's" }
    Settings.ofParameter "serialize_context=it's" = .ok settings ∧
      Schema.build [taggedFile] {} = .ok s ∧ .message taggedMessage ∈ s.types ∧
      (∀ f ∈ taggedMessage.fields, IsIdentifier f.name) ∧
      (∀ name ∈ taggedMessage.oneofs, IsIdentifier name) ∧
      (∃ body, (⟨s, .ofPackage s "a", settings⟩ : ModuleContext).messageBody taggedMessage false =
        .ok body ∧ contextLine "it's" ∈ body) ∧
      ∀ named, texts? named (contextLine "it's").shown = none := by
  intro s settings
  refine ⟨by decide +kernel, rfl, by decide +kernel, by decide +kernel, by decide +kernel,
    ⟨_, rfl, by decide +kernel⟩, fun named => ?_⟩
  have hcode : (contextLine "it's").text = "if info.context == " ++ "'it's':" := by decide +kernel
  have hlist : "'it's':".toList = '\'' :: ("it".toList ++ '\'' :: ("s".toList ++ ['\'', ':'])) := by decide
  have hplain : ∀ c ∈ "'it's':".toList, c ≠ '\r' ∧ c ≠ '\x00' := by simp
  have hopen : readText? named ['\'', ':'] = none := rfl
  rw [texts?_shown, hcode, texts?_append_of_isBare named (.ofList (by decide)), texts?_of_forall named hplain,
    hlist, scanTexts?_of_isVerbatim named (by decide) (by decide) (by decide),
    scanTexts?_of_isBare named (.ofList (by decide)), scanTexts?_of_isQuote named (by decide), hopen]
  rfl

end ProtoModels
