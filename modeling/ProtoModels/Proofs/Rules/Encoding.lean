import ProtoModels.Proofs.Wire.Readers
import ProtoModels.Proofs.Wire.RoundTrip
import ProtoModels.Rules.Encoding
/-!
# Rules that are written

What `FieldRules.encode` writes is read as the same rules if a reader goes deep enough into it, and is
refused otherwise (`FieldRules.decode?_encode`). Every rule that is given is one field, so a rule that is
given as zero or as an empty text stays given.
-/
namespace ProtoModels.FieldRules

/-- How many messages stand one inside the other in encoded rules: rules for items are two deeper than the
rules for the list. -/
def levels : FieldRules → Nat
  | unset => 0
  | float _ | int _ | string _ | message _ | repeated _ => 1
  | repeatedOf _ items => items.levels + 2

/-! ## Single rules -/

section
variable {α : Type} (number n : Nat) (value : Option α)

@[simp] theorem mem_optional_iff {field : α → Wire.Field} {f : Wire.Field} :
    f ∈ optional field value ↔ ∃ a, value = some a ∧ field a = f := by
  rw [optional, Option.mem_toList, Option.map_eq_some_iff]

@[simp] theorem number?_optional (digits : α → UInt64) :
    Wire.number? number (optional (fun a => .varint n (digits a)) value) =
      if n = number then value.map digits else none := by
  cases value <;> simp [Wire.number?, optional]

@[simp] theorem number?_optional_self (value : Option UInt64) :
    Wire.number? number (optional (Wire.Field.varint n) value) = if n = number then value else none := by
  rw [number?_optional, Option.map_id']

@[simp] theorem number?_optional_flag (value : Option Bool) :
    Wire.number? number (optional (flagField n) value) =
      if n = number then value.map fun flag => if flag then 1 else 0 else none :=
  number?_optional ..

@[simp] theorem double?_optional (bits : α → UInt64) :
    Wire.double? number (optional (fun a => .fixed64 n (bits a)) value) =
      if n = number then value.map bits else none := by
  cases value <;> simp [Wire.double?, optional]

@[simp] theorem lastText?_optional (digits : α → UInt64) :
    Wire.lastText? number (optional (fun a => .varint n (digits a)) value) = none := by
  cases value <;> rfl

@[simp] theorem lastText?_optional_self (value : Option UInt64) :
    Wire.lastText? number (optional (Wire.Field.varint n) value) = none :=
  lastText?_optional ..

@[simp] theorem lastText?_optional_flag (value : Option Bool) :
    Wire.lastText? number (optional (flagField n) value) = none :=
  lastText?_optional ..

@[simp] theorem number?_optional_text (value : Option String) :
    Wire.number? number (optional (Wire.Field.text n) value) = none := by
  cases value <;> rfl

@[simp] theorem lastText?_optional_text (value : Option String) :
    Wire.lastText? number (optional (Wire.Field.text n) value) = if n = number then value else none := by
  cases value with
  | none => simp [optional, Wire.lastText?, Wire.texts, Wire.payloads]
  | some s =>
    have hpayloads : Wire.payloads number (optional (Wire.Field.text n) (some s)) =
        if n = number then [Wire.utf8 s] else [] :=
      Wire.payloads_map_bytes number n Wire.utf8 [s]
    rw [Wire.lastText?, Wire.texts, hpayloads]
    split
    · rw [List.filterMap_cons_some (Wire.text?_utf8 s), List.filterMap_nil, List.getLast?_singleton]
    · rfl

end

@[simp] theorem flag_ne_zero (flag : Bool) : ((if flag then (1 : UInt64) else 0) != 0) = flag := by
  cases flag <;> rfl

/-! ## Families -/

theorem readFloat_floatFields (rules : NumberRules Binary64) : readFloat (floatFields rules) = rules := by
  simp [readFloat, floatFields, Wire.double?_append, Function.comp_def]

theorem readInt_intFields (rules : NumberRules Int64) : readInt (intFields rules) = rules := by
  simp [readInt, intFields, Wire.number?_append, Function.comp_def, Wire.toInt64]

theorem readString_stringFields (rules : StringRules) : readString (stringFields rules) = rules := by
  simp [readString, stringFields, lengthFields, readFlag, Wire.number?_append, Wire.lastText?_append,
    Function.comp_def]

theorem readMessage_messageFields (rules : MessageRules) :
    readMessage (messageFields rules) = rules := by
  simp [readMessage, messageFields, readFlag, Wire.number?_append, Wire.lastText?_append,
    Function.comp_def]

/-- Fields that hold no numbers may stand behind length rules. -/
theorem readLengths_append (lengths : LengthRules) (others : Fields)
    (hothers : ∀ number, Wire.number? number others = none) :
    readLengths (lengthFields 1 lengths ++ others) = lengths := by
  simp [readLengths, lengthFields, Wire.number?_append, hothers]

theorem readLengths_lengthFields (lengths : LengthRules) :
    readLengths (lengthFields 1 lengths) = lengths := by
  simpa using readLengths_append lengths [] fun _ => rfl

/-! ## Shapes -/

/-- A field that fits a shape, whatever fits in a message. -/
def IsRule (shape : RulesShape) (f : Wire.Field) : Prop :=
  ∃ known, rulesShapes shape f.number = some known ∧ ∀ inner, known.admits inner f = true

theorem isRule_of_mem_floatFields {rules : NumberRules Binary64} {f : Wire.Field}
    (h : f ∈ floatFields rules) : IsRule .float f := by
  simp only [floatFields, List.mem_append, mem_optional_iff] at h
  rcases h with (((⟨_, _, rfl⟩ | ⟨_, _, rfl⟩) | ⟨_, _, rfl⟩) | ⟨_, _, rfl⟩) | ⟨_, _, rfl⟩ <;>
    exact ⟨.double, rfl, fun _ => rfl⟩

theorem isRule_of_mem_intFields {rules : NumberRules Int64} {f : Wire.Field}
    (h : f ∈ intFields rules) : IsRule .int f := by
  simp only [intFields, List.mem_append, mem_optional_iff] at h
  rcases h with (((⟨_, _, rfl⟩ | ⟨_, _, rfl⟩) | ⟨_, _, rfl⟩) | ⟨_, _, rfl⟩) | ⟨_, _, rfl⟩ <;>
    exact ⟨.number, rfl, fun _ => rfl⟩

theorem isRule_text {shape : RulesShape} {n : Nat} (h : rulesShapes shape n = some .text) (s : String) :
    IsRule shape (.text n s) :=
  ⟨.text, h, fun _ => Option.isSome_of_eq_some (Wire.text?_utf8 s)⟩

theorem isRule_of_mem_stringFields {rules : StringRules} {f : Wire.Field}
    (h : f ∈ stringFields rules) : IsRule .string f := by
  simp only [stringFields, lengthFields, List.mem_append, mem_optional_iff] at h
  rcases h with (⟨s, _, rfl⟩ | (⟨_, _, rfl⟩ | ⟨_, _, rfl⟩) | ⟨_, _, rfl⟩) | ⟨_, _, rfl⟩
  · exact isRule_text rfl s
  all_goals exact ⟨.number, rfl, fun _ => rfl⟩

theorem isRule_of_mem_messageFields {rules : MessageRules} {f : Wire.Field}
    (h : f ∈ messageFields rules) : IsRule .message f := by
  simp only [messageFields, List.mem_append, mem_optional_iff] at h
  rcases h with ⟨s, _, rfl⟩ | ⟨_, _, rfl⟩
  · exact isRule_text rfl s
  · exact ⟨.number, rfl, fun _ => rfl⟩

theorem isRule_of_mem_lengthFields {lengths : LengthRules} {f : Wire.Field}
    (h : f ∈ lengthFields 1 lengths) : IsRule .repeated f := by
  simp only [lengthFields, List.mem_append, mem_optional_iff] at h
  rcases h with (⟨_, _, rfl⟩ | ⟨_, _, rfl⟩) | ⟨_, _, rfl⟩ <;> exact ⟨.number, rfl, fun _ => rfl⟩

theorem conforms_of_isRule {shape : RulesShape} {fs : Fields} (h : ∀ f ∈ fs, IsRule shape f)
    (depth : Nat) : Wire.conforms rulesShapes depth shape fs = true := by
  cases depth <;>
  · rw [Wire.conforms, List.all_eq_true]
    intro f hf
    obtain ⟨known, hknown, hadmits⟩ := h f hf
    rw [hknown]
    exact hadmits _

theorem isFieldNumber_of_rulesShapes {shape : RulesShape} {n : Nat} {known : Wire.FieldShape RulesShape}
    (h : rulesShapes shape n = some known) : Wire.IsFieldNumber n := by
  unfold rulesShapes at h
  split at h <;> cases h <;> decide

/-! ## Messages -/

/-- A field with a number and a wire type that its shape knows. -/
def IsKnown (shape : RulesShape) (f : Wire.Field) : Prop :=
  ∃ known, rulesShapes shape f.number = some known ∧ ∃ inner, known.admits inner f = true

theorem IsRule.isKnown {shape : RulesShape} {f : Wire.Field} (h : IsRule shape f) : IsKnown shape f := by
  obtain ⟨known, hknown, hadmits⟩ := h
  exact ⟨known, hknown, fun _ _ => false, hadmits _⟩

theorem isKnown_message {shape member : RulesShape} {n : Nat}
    (h : rulesShapes shape n = some (.message member)) (payload : Wire.Bytes) :
    IsKnown shape (.bytes n payload) :=
  ⟨.message member, h, fun _ _ => true, rfl⟩

theorem writable_of_isKnown {shape : RulesShape} {fs : Fields} (h : ∀ f ∈ fs, IsKnown shape f)
    (hlength : (Wire.print fs).length < 0x10000000000000000) : Wire.Writable fs := by
  rw [Wire.writable_iff]
  intro f hf
  obtain ⟨known, hknown, inner, hadmits⟩ := h f hf
  have hnumber := isFieldNumber_of_rulesShapes hknown
  cases f with
  | bytes n payload => exact ⟨hnumber, Nat.lt_trans (Wire.length_payload_lt hf) hlength⟩
  | group n fields => cases known <;> cases hadmits
  | _ => exact hnumber

/-- What a message holds is read back if the message itself is short enough to be written. -/
theorem parse_member {member : RulesShape} {n : Nat} {inner : Fields} (h : ∀ f ∈ inner, IsKnown member f)
    (hlength : (Wire.print [.bytes n (Wire.print inner)]).length < 0x10000000000000000) :
    Wire.parse (Wire.print inner) = some inner :=
  Wire.parse_print (writable_of_isKnown h
    (Nat.lt_trans (Wire.length_payload_lt (List.mem_singleton.2 rfl)) hlength))

theorem isKnown_of_mem_fields {r : FieldRules} {f : Wire.Field} (h : f ∈ r.fields) :
    IsKnown .rules f := by
  cases r with
  | unset => cases h
  | _ =>
    cases List.mem_singleton.1 h
    exact isKnown_message rfl _

theorem parse_encode {r : FieldRules} (h : r.encode.length < 0x10000000000000000) :
    Wire.parse r.encode = some r.fields :=
  Wire.parse_print (writable_of_isKnown (fun _ => isKnown_of_mem_fields) h)

/-- The fields of rules for a list, with rules for its items. -/
def itemFields (lengths : LengthRules) (items : FieldRules) : Fields :=
  lengthFields 1 lengths ++ [.bytes 4 items.encode]

theorem fields_repeatedOf (lengths : LengthRules) (items : FieldRules) :
    (repeatedOf lengths items).fields = [.bytes 18 (Wire.print (itemFields lengths items))] := rfl

theorem isKnown_of_mem_itemFields {lengths : LengthRules} {items : FieldRules} {f : Wire.Field}
    (h : f ∈ itemFields lengths items) : IsKnown .repeated f := by
  rcases List.mem_append.1 h with h | h
  · exact (isRule_of_mem_lengthFields h).isKnown
  · cases List.mem_singleton.1 h
    exact isKnown_message rfl _

theorem length_encode_items_lt (lengths : LengthRules) (items : FieldRules) :
    items.encode.length < (encode (repeatedOf lengths items)).length := by
  have hitems : .bytes 4 items.encode ∈ itemFields lengths items :=
    List.mem_append_right _ (List.mem_singleton.2 rfl)
  have hlist : .bytes 18 (Wire.print (itemFields lengths items)) ∈ (repeatedOf lengths items).fields :=
    fields_repeatedOf lengths items ▸ List.mem_singleton.2 rfl
  exact Nat.lt_trans (Wire.length_payload_lt hitems) (Wire.length_payload_lt hlist)

/-! ## Depth -/

/-- A message fits a level below, where there is one. -/
theorem conforms_message_iff {shape member : RulesShape} {n : Nat} {payload : Wire.Bytes} {inner : Fields}
    (hmember : rulesShapes shape n = some (.message member)) (hparse : Wire.parse payload = some inner)
    {depth : Nat} :
    Wire.conforms rulesShapes depth shape [.bytes n payload] = true ↔
      ∃ below, depth = below + 1 ∧ Wire.conforms rulesShapes below member inner = true := by
  cases depth with
  | zero => simp [Wire.conforms, Wire.Field.number, hmember, Wire.FieldShape.admits]
  | succ below => simp [Wire.conforms, Wire.Field.number, hmember, Wire.FieldShape.admits, hparse]

/-- A family of single rules needs one level. -/
theorem conforms_family_iff {member : RulesShape} {n : Nat} {inner : Fields}
    (hmember : rulesShapes .rules n = some (.message member)) (h : ∀ f ∈ inner, IsRule member f)
    (hlength : (Wire.print [.bytes n (Wire.print inner)]).length < 0x10000000000000000) {depth : Nat} :
    Wire.conforms rulesShapes depth .rules [.bytes n (Wire.print inner)] = true ↔ 1 ≤ depth := by
  rw [conforms_message_iff hmember (parse_member (fun f hf => (h f hf).isKnown) hlength)]
  constructor
  · rintro ⟨below, rfl, -⟩
    exact Nat.le_add_left ..
  · exact fun hdepth => ⟨depth - 1, (Nat.sub_add_cancel hdepth).symm, conforms_of_isRule h _⟩

theorem conforms_append {shape : RulesShape} {depth : Nat} {fs gs : Fields} :
    Wire.conforms rulesShapes depth shape (fs ++ gs) =
      (Wire.conforms rulesShapes depth shape fs && Wire.conforms rulesShapes depth shape gs) := by
  cases depth <;> rw [Wire.conforms, Wire.conforms, Wire.conforms, List.all_append]

/-- **Written rules need as many levels as they have.** -/
theorem conforms_fields_iff {r : FieldRules} (h : r.encode.length < 0x10000000000000000) {depth : Nat} :
    Wire.conforms rulesShapes depth .rules r.fields = true ↔ r.levels ≤ depth := by
  induction r generalizing depth with
  | unset => exact iff_of_true (conforms_of_isRule (List.forall_mem_nil _) _) (Nat.zero_le _)
  | float rules => exact conforms_family_iff rfl (fun _ => isRule_of_mem_floatFields) h
  | int rules => exact conforms_family_iff rfl (fun _ => isRule_of_mem_intFields) h
  | string rules => exact conforms_family_iff rfl (fun _ => isRule_of_mem_stringFields) h
  | message rules => exact conforms_family_iff rfl (fun _ => isRule_of_mem_messageFields) h
  | repeated lengths => exact conforms_family_iff rfl (fun _ => isRule_of_mem_lengthFields) h
  | repeatedOf lengths items ih =>
    have hitems := Nat.lt_trans (length_encode_items_lt lengths items) h
    have hlengths (depth : Nat) :
        Wire.conforms rulesShapes depth .repeated (lengthFields 1 lengths) = true :=
      conforms_of_isRule (fun _ => isRule_of_mem_lengthFields) depth
    have hlist (depth : Nat) : Wire.conforms rulesShapes depth .repeated (itemFields lengths items) = true ↔
        ∃ below, depth = below + 1 ∧ items.levels ≤ below := by
      rw [itemFields, conforms_append, hlengths, Bool.true_and,
        conforms_message_iff rfl (parse_encode hitems)]
      simp only [ih hitems]
    rw [fields_repeatedOf, conforms_message_iff rfl (parse_member (fun _ => isKnown_of_mem_itemFields) h)]
    simp only [hlist, levels]
    constructor
    · rintro ⟨_, rfl, below, rfl, hbelow⟩
      omega
    · exact fun hdepth => ⟨depth - 1, by omega, depth - 2, by omega, by omega⟩

/-! ## Reading -/

/-- The family that is written is the one that is chosen. -/
theorem foldl_selectFamily_member {member : RulesShape} {n : Nat} {inner : Fields} (hn : n ∈ families)
    (hknown : ∀ f ∈ inner, IsKnown member f)
    (hlength : (Wire.print [.bytes n (Wire.print inner)]).length < 0x10000000000000000) :
    [Wire.Field.bytes n (Wire.print inner)].foldl selectFamily none = some (n, inner) := by
  rw [List.foldl_cons, List.foldl_nil, selectFamily, if_pos hn, parse_member hknown hlength]
  rfl

theorem messages_lengthFields (number : Nat) (lengths : LengthRules) :
    Wire.messages number (lengthFields 1 lengths) = [] := by
  obtain ⟨len, minLength, maxLength⟩ := lengths
  cases len <;> cases minLength <;> cases maxLength <;> rfl

theorem message?_lengthFields (lengths : LengthRules) : Wire.message? 4 (lengthFields 1 lengths) = none := by
  rw [Wire.message?, messages_lengthFields]

theorem message?_itemFields (lengths : LengthRules) {items : FieldRules}
    (h : items.encode.length < 0x10000000000000000) :
    Wire.message? 4 (itemFields lengths items) = some items.fields := by
  have hitems : Wire.messages 4 [.bytes 4 items.encode] = [items.fields] := by
    simp [Wire.messages, Wire.payloads, parse_encode h]
  rw [Wire.message?, itemFields, Wire.messages_append, messages_lengthFields, List.nil_append, hitems]
  exact congrArg some (List.append_nil _)

theorem readLengths_itemFields (lengths : LengthRules) (items : FieldRules) :
    readLengths (itemFields lengths items) = lengths :=
  readLengths_append lengths _ fun _ => rfl

/-- Reading goes down by one for two messages that are nested. -/
theorem read_fields {r : FieldRules} (h : r.encode.length < 0x10000000000000000) {depth : Nat}
    (hdepth : r.levels ≤ 2 * depth + 1) : read (depth + 1) r.fields = r := by
  induction r generalizing depth with
  | unset => rfl
  | float rules =>
    have hknown := fun f (hf : f ∈ floatFields rules) => (isRule_of_mem_floatFields hf).isKnown
    rw [read, fields, foldl_selectFamily_member (by decide) hknown h]
    exact congrArg float (readFloat_floatFields rules)
  | int rules =>
    have hknown := fun f (hf : f ∈ intFields rules) => (isRule_of_mem_intFields hf).isKnown
    rw [read, fields, foldl_selectFamily_member (by decide) hknown h]
    exact congrArg int (readInt_intFields rules)
  | string rules =>
    have hknown := fun f (hf : f ∈ stringFields rules) => (isRule_of_mem_stringFields hf).isKnown
    rw [read, fields, foldl_selectFamily_member (by decide) hknown h]
    exact congrArg string (readString_stringFields rules)
  | message rules =>
    have hknown := fun f (hf : f ∈ messageFields rules) => (isRule_of_mem_messageFields hf).isKnown
    rw [read, fields, foldl_selectFamily_member (by decide) hknown h]
    exact congrArg message (readMessage_messageFields rules)
  | repeated lengths =>
    have hknown := fun f (hf : f ∈ lengthFields 1 lengths) => (isRule_of_mem_lengthFields hf).isKnown
    rw [read, fields, foldl_selectFamily_member (by decide) hknown h]
    simp only [message?_lengthFields, readLengths_lengthFields]
  | repeatedOf lengths items ih =>
    rw [levels] at hdepth
    obtain ⟨depth, rfl⟩ : ∃ below, depth = below + 1 := ⟨depth - 1, by omega⟩
    have hitems := Nat.lt_trans (length_encode_items_lt lengths items) h
    have hread : read (depth + 1) items.fields = items := ih hitems (by omega)
    rw [read, fields_repeatedOf,
      foldl_selectFamily_member (by decide) (fun _ => isKnown_of_mem_itemFields) h]
    simp only [message?_itemFields lengths hitems, readLengths_itemFields, hread]

/-- **Rules that are written are read back**, unless they are nested deeper than a reader goes: then their
encoding is refused. -/
theorem decode?_encode {r : FieldRules} (h : r.encode.length < 0x10000000000000000) :
    decode? r.encode = if r.levels ≤ Wire.depthLimit then some r else none := by
  rw [decode?, parse_encode h, Option.bind_some, ofFields?]
  simp only [conforms_fields_iff h]
  split
  case isTrue hdepth =>
    rw [Wire.depthLimit] at hdepth ⊢
    rw [read_fields h (by omega)]
  case isFalse => rfl

end ProtoModels.FieldRules
