import Mathlib.Algebra.Order.Group.Nat
import ProtoModels.Proofs.Rules.Encoding
import ProtoModels.Proofs.Wire.Shortest
/-!
# Rules that are read

Bytes that field rules can be read from may hold numbers with leading zeros, fields that are unknown, values
that a later one replaces, and messages in pieces. The rules that are read are nested no deeper than the
bytes (`levels_read_le`) and are written in no more bytes (`length_encode_read_le`). So what can be read can
be written and read again (`FieldRules.wire_roundTrip`).
-/
namespace ProtoModels.FieldRules

/-- A field leaves the choice as it is, or it is a family that is chosen, behind what was chosen of the same
family or instead of it. -/
theorem selectFamily_cases (chosen : Option (Nat × Fields)) (f : Wire.Field) :
    selectFamily chosen f = chosen ∨ ∃ n payload, n ∈ families ∧ f = .bytes n payload ∧
      ((∃ before, chosen = some (n, before) ∧
          selectFamily chosen f = some (n, before ++ (Wire.parse payload).getD [])) ∨
        selectFamily chosen f = some (n, (Wire.parse payload).getD [])) := by
  cases f with
  | bytes n payload =>
    by_cases hn : n ∈ families
    · refine .inr ⟨n, payload, hn, rfl, ?_⟩
      rw [selectFamily, if_pos hn]
      cases chosen with
      | none => exact .inr rfl
      | some family =>
        obtain ⟨m, before⟩ := family
        by_cases hm : m = n
        · exact .inl ⟨before, hm ▸ rfl, if_pos hm⟩
        · exact .inr (if_neg hm)
    · exact .inl (if_neg hn)
  | _ => exact .inl rfl

/-! ## Depth -/

section
variable {shape member : RulesShape} {depth n : Nat} {fs : Fields}

theorem conforms_iff_forall_mem :
    Wire.conforms rulesShapes depth shape fs = true ↔
      ∀ f ∈ fs, Wire.conforms rulesShapes depth shape [f] = true := by
  cases depth <;> simp [Wire.conforms]

/-- A message in fields that fit can be read, and fits a level below. -/
theorem exists_parse_of_conforms {payload : Wire.Bytes}
    (h : Wire.conforms rulesShapes depth shape fs = true)
    (hmember : rulesShapes shape n = some (.message member)) (hmem : .bytes n payload ∈ fs) :
    ∃ below inner, depth = below + 1 ∧ Wire.parse payload = some inner ∧
      Wire.conforms rulesShapes below member inner = true := by
  have hf := conforms_iff_forall_mem.1 h _ hmem
  cases hparse : Wire.parse payload with
  | none =>
    cases depth <;>
      simp [Wire.conforms, Wire.Field.number, hmember, Wire.FieldShape.admits, hparse] at hf
  | some inner =>
    obtain ⟨below, hdepth, hinner⟩ := (conforms_message_iff hmember hparse).1 hf
    exact ⟨below, inner, hdepth, rfl, hinner⟩

/-- Messages that are merged fit a level below. -/
theorem conforms_message? {merged : Fields} (h : Wire.conforms rulesShapes depth shape fs = true)
    (hmember : rulesShapes shape n = some (.message member)) (hmerged : Wire.message? n fs = some merged) :
    ∃ below, depth = below + 1 ∧ Wire.conforms rulesShapes below member merged = true := by
  have hparts : ∀ inner ∈ Wire.messages n fs,
      ∃ below, depth = below + 1 ∧ Wire.conforms rulesShapes below member inner = true := by
    intro inner hinner
    obtain ⟨payload, hpayload, hparse⟩ := List.mem_filterMap.1 hinner
    obtain ⟨below, inner', hdepth, hparse', hfits⟩ :=
      exists_parse_of_conforms h hmember (Wire.mem_payloads_iff.1 hpayload)
    rw [hparse] at hparse'
    cases hparse'
    exact ⟨below, hdepth, hfits⟩
  rw [Wire.message?] at hmerged
  split at hmerged
  · cases hmerged
  · rename_i hsome
    cases hmerged
    obtain ⟨first, hfirst⟩ := List.exists_mem_of_ne_nil _ hsome
    obtain ⟨below, rfl, -⟩ := hparts first hfirst
    refine ⟨below, rfl, conforms_iff_forall_mem.2 fun f hf => ?_⟩
    obtain ⟨inner, hinner, hf⟩ := List.mem_flatten.1 hf
    obtain ⟨_, heq, hfits⟩ := hparts inner hinner
    cases heq
    exact conforms_iff_forall_mem.1 hfits f hf

end

theorem exists_member_of_mem_families {n : Nat} (h : n ∈ families) :
    ∃ member, rulesShapes .rules n = some (.message member) := by
  simp only [families, List.mem_cons, List.not_mem_nil, or_false] at h
  rcases h with rfl | rfl | rfl | rfl | rfl <;> exact ⟨_, rfl⟩

/-- The family that is chosen, if there is one, fits a level below. -/
def ChosenFits (depth : Nat) (chosen : Option (Nat × Fields)) : Prop :=
  ∀ n inner, chosen = some (n, inner) → ∃ below, depth = below + 1 ∧
    ∀ member, rulesShapes .rules n = some (.message member) →
      Wire.conforms rulesShapes below member inner = true

theorem chosenFits_foldl {depth : Nat} {fs : Fields}
    (h : Wire.conforms rulesShapes depth .rules fs = true) :
    ChosenFits depth (fs.foldl selectFamily none) := by
  refine List.foldlRecOn fs selectFamily (fun _ _ hnone => by cases hnone) ?_
  intro chosen ih f hf n inner hchosen
  rcases selectFamily_cases chosen f with hsame | ⟨m, payload, hm, rfl, hselect⟩
  · exact ih n inner (hsame ▸ hchosen)
  · obtain ⟨member, hmember⟩ := exists_member_of_mem_families hm
    obtain ⟨below, fields, rfl, hparse, hfields⟩ := exists_parse_of_conforms h hmember hf
    rw [hparse, Option.getD_some] at hselect
    refine ⟨below, rfl, ?_⟩
    rcases hselect with ⟨before, hbefore, hselect⟩ | hselect
    · cases hselect.symm.trans hchosen
      obtain ⟨_, heq, hfits⟩ := ih _ _ hbefore
      cases heq
      intro member' hmember'
      cases hmember.symm.trans hmember'
      rw [conforms_append, hfits member hmember, hfields, Bool.and_self]
    · cases hselect.symm.trans hchosen
      intro member' hmember'
      cases hmember.symm.trans hmember'
      exact hfields

/-- Rules that are read have no more levels than the fields that they were read from. -/
theorem levels_read_le {depth : Nat} {fs : Fields} (h : Wire.conforms rulesShapes depth .rules fs = true)
    (fuel : Nat) : (read fuel fs).levels ≤ depth := by
  induction fuel generalizing depth fs with
  | zero => exact Nat.zero_le _
  | succ fuel ih =>
    have hchosen := chosenFits_foldl h
    rw [read]
    split
    case h_5 inner heq =>
      obtain ⟨below, rfl, hfits⟩ := hchosen _ _ heq
      cases hitems : Wire.message? 4 inner with
      | none => exact Nat.le_add_left ..
      | some items =>
        obtain ⟨below, rfl, hbelow⟩ := conforms_message? (hfits .repeated rfl) rfl hitems
        exact Nat.add_le_add_right (ih hbelow) 2
    case h_6 => exact Nat.zero_le _
    all_goals
      rename_i heq
      obtain ⟨below, rfl, -⟩ := hchosen _ _ heq
      exact Nat.le_add_left ..

/-! ## Length -/

section
variable {fs : Fields} {n : Nat}

open Wire (lengthAt)

theorem length_optional_le {α : Type} {field : α → Wire.Field} {value : Option α}
    (h : ∀ a, value = some a → (field a).print.length ≤ lengthAt n fs) :
    (Wire.print (optional field value)).length ≤ lengthAt n fs := by
  cases value with
  | none => exact Nat.zero_le _
  | some a =>
    have ha := h a rfl
    rwa [optional, Option.map_some, Option.toList_some, Wire.length_print_cons, Wire.print,
      List.length_nil, Nat.add_zero]

theorem length_double_le (fs : Fields) (n : Nat) :
    (Wire.print (optional (.fixed64 n ·.bits) ((Wire.double? n fs).map Binary64.mk))).length ≤
      lengthAt n fs := by
  refine length_optional_le fun x hx => ?_
  obtain ⟨bits, hbits, rfl⟩ := Option.map_eq_some_iff.1 hx
  exact Wire.length_print_le_lengthAt (Wire.mem_of_double? hbits)

theorem length_int_le (fs : Fields) (n : Nat) :
    (Wire.print (optional (.varint n ·.toUInt64) ((Wire.number? n fs).map Wire.toInt64))).length ≤
      lengthAt n fs := by
  refine length_optional_le fun x hx => ?_
  obtain ⟨value, hvalue, rfl⟩ := Option.map_eq_some_iff.1 hx
  rw [Wire.toInt64, UInt64.toUInt64_toInt64]
  exact Wire.length_print_le_lengthAt (Wire.mem_of_number? hvalue)

theorem length_number_le (fs : Fields) (n : Nat) :
    (Wire.print (optional (.varint n ·) (Wire.number? n fs))).length ≤ lengthAt n fs :=
  length_optional_le fun _ hvalue => Wire.length_print_le_lengthAt (Wire.mem_of_number? hvalue)

theorem length_text_le (fs : Fields) (n : Nat) :
    (Wire.print (optional (Wire.Field.text n) (Wire.lastText? n fs))).length ≤ lengthAt n fs :=
  length_optional_le fun _ htext => Wire.length_print_le_lengthAt (Wire.mem_of_lastText? htext)

/-- A flag is written as one digit, whatever number it was read from. -/
theorem length_flag_le (fs : Fields) (n : Nat) :
    (Wire.print (optional (flagField n) (readFlag n fs))).length ≤ lengthAt n fs := by
  refine length_optional_le fun flag hflag => ?_
  obtain ⟨value, hvalue, rfl⟩ := Option.map_eq_some_iff.1 hflag
  have hle : (if value != 0 then 1 else 0 : UInt64).toNat ≤ value.toNat := by
    by_cases hzero : value = 0
    · simp [hzero]
    · have hpos : value.toNat ≠ 0 := fun h => hzero (UInt64.toNat_inj.1 h)
      simp only [bne_iff_ne, ne_eq, hzero, not_false_eq_true, if_true, UInt64.toNat_one]
      omega
  have hdigits := Wire.length_encodeDigits_mono 9 hle
  have hfield := Wire.length_print_le_lengthAt (Wire.mem_of_number? hvalue)
  rw [Wire.Field.number, Wire.Field.print, List.length_append, Wire.encodeVarint] at hfield
  rw [flagField, Wire.Field.print, List.length_append, Wire.encodeVarint]
  omega

/-- Fields with different numbers are no more than all fields. -/
theorem lengthAt_five_le (fs : Fields) :
    lengthAt 1 fs + lengthAt 2 fs + lengthAt 3 fs + lengthAt 4 fs + lengthAt 5 fs ≤
      (Wire.print fs).length := by
  have hsum := Wire.sum_lengthAt_le [1, 2, 3, 4, 5] (by decide) fs
  simp only [List.map_cons, List.map_nil, List.sum_cons, List.sum_nil] at hsum
  omega

theorem length_floatFields_le (fs : Fields) :
    (Wire.print (floatFields (readFloat fs))).length ≤ (Wire.print fs).length := by
  refine Nat.le_trans ?_ (lengthAt_five_le fs)
  simp only [floatFields, readFloat, Wire.length_print_append]
  gcongr <;> exact length_double_le fs _

theorem length_intFields_le (fs : Fields) :
    (Wire.print (intFields (readInt fs))).length ≤ (Wire.print fs).length := by
  refine Nat.le_trans ?_ (lengthAt_five_le fs)
  simp only [intFields, readInt, Wire.length_print_append]
  gcongr <;> exact length_int_le fs _

theorem length_lengthFields_le (fs : Fields) (first : Nat) :
    (Wire.print (lengthFields first
        ⟨Wire.number? first fs, Wire.number? (first + 1) fs, Wire.number? (first + 2) fs⟩)).length ≤
      lengthAt first fs + lengthAt (first + 1) fs + lengthAt (first + 2) fs := by
  simp only [lengthFields, Wire.length_print_append]
  gcongr <;> exact length_number_le fs _

theorem length_stringFields_le (fs : Fields) :
    (Wire.print (stringFields (readString fs))).length ≤ (Wire.print fs).length := by
  have hdefault : (Wire.print (optional (Wire.Field.text 1) (readString fs).default)).length ≤
      lengthAt 1 fs := length_text_le fs 1
  have hlengths : (Wire.print (lengthFields 2 (readString fs).lengths)).length ≤
      lengthAt 2 fs + lengthAt 3 fs + lengthAt 4 fs := length_lengthFields_le fs 2
  have huuid : (Wire.print (optional (flagField 5) (readString fs).uuid)).length ≤ lengthAt 5 fs :=
    length_flag_le fs 5
  have htotal := lengthAt_five_le fs
  rw [stringFields, Wire.length_print_append, Wire.length_print_append]
  omega

theorem length_messageFields_le (fs : Fields) :
    (Wire.print (messageFields (readMessage fs))).length ≤ (Wire.print fs).length := by
  have hfactory : (Wire.print (optional (Wire.Field.text 1) (readMessage fs).defaultFactory)).length ≤
      lengthAt 1 fs := length_text_le fs 1
  have hempty : (Wire.print (optional (flagField 2) (readMessage fs).defaultEmpty)).length ≤
      lengthAt 2 fs := length_flag_le fs 2
  have htotal := lengthAt_five_le fs
  rw [messageFields, Wire.length_print_append]
  omega

theorem length_readLengths_le (fs : Fields) :
    (Wire.print (lengthFields 1 (readLengths fs))).length ≤
      lengthAt 1 fs + lengthAt 2 fs + lengthAt 3 fs := length_lengthFields_le fs 1

theorem length_itemFields_le {fs items : Fields} {rules : FieldRules}
    (hlength : (Wire.print fs).length < 0x10000000000000000)
    (hitems : Wire.message? 4 fs = some items) (hrules : rules.encode.length ≤ (Wire.print items).length) :
    (Wire.print (itemFields (readLengths fs) rules)).length ≤ (Wire.print fs).length := by
  have hlengths := length_readLengths_le fs
  have hmerged := Wire.length_print_message?_le hitems hlength
  have hpayload := Wire.length_lt_print_bytes 4 (Wire.print items)
  have htotal := lengthAt_five_le fs
  have hmember : (Wire.Field.bytes 4 rules.encode).print.length ≤
      (Wire.Field.bytes 4 (Wire.print items)).print.length :=
    Wire.length_print_bytes_mono hrules (by omega)
  rw [itemFields, Wire.length_print_append, Wire.length_print_cons, Wire.print, List.length_nil]
  omega

end

/-- How many bytes the family takes that is chosen. -/
def chosenLength : Option (Nat × Fields) → Nat
  | none => 0
  | some (n, inner) => (Wire.Field.bytes n (Wire.print inner)).print.length

theorem length_print_parse_le (payload : Wire.Bytes) :
    (Wire.print ((Wire.parse payload).getD [])).length ≤ payload.length := by
  cases hparse : Wire.parse payload with
  | none => exact Nat.zero_le _
  | some inner => exact Wire.length_print_le_of_parse hparse

theorem chosenLength_selectFamily_le {chosen : Option (Nat × Fields)} {f : Wire.Field}
    (h : chosenLength chosen + f.print.length < 0x10000000000000000) :
    chosenLength (selectFamily chosen f) ≤ chosenLength chosen + f.print.length := by
  rcases selectFamily_cases chosen f with hsame | ⟨n, payload, -, rfl, hselect⟩
  · rw [hsame]
    exact Nat.le_add_right ..
  · have hpayload := Wire.length_lt_print_bytes n payload
    have hinner := length_print_parse_le payload
    have hfield : (Wire.Field.bytes n (Wire.print ((Wire.parse payload).getD []))).print.length ≤
        (Wire.Field.bytes n payload).print.length :=
      Wire.length_print_bytes_mono hinner (by omega)
    rcases hselect with ⟨before, rfl, hselect⟩ | hselect
    · have hbefore := Wire.length_lt_print_bytes n (Wire.print before)
      rw [chosenLength] at h
      have hboth := Wire.length_print_bytes_append (n := n) (p := Wire.print before)
        (q := Wire.print ((Wire.parse payload).getD [])) (by rw [List.length_append]; omega)
      rw [hselect, chosenLength, chosenLength, Wire.print_append]
      omega
    · rw [hselect, chosenLength]
      omega

theorem chosenLength_foldl_le (chosen : Option (Nat × Fields)) (fs : Fields)
    (h : chosenLength chosen + (Wire.print fs).length < 0x10000000000000000) :
    chosenLength (fs.foldl selectFamily chosen) ≤ chosenLength chosen + (Wire.print fs).length := by
  induction fs generalizing chosen with
  | nil => exact Nat.le_add_right ..
  | cons f fs ih =>
    rw [Wire.length_print_cons] at h ⊢
    have hstep : chosenLength (selectFamily chosen f) ≤ chosenLength chosen + f.print.length :=
      chosenLength_selectFamily_le (by omega)
    have hrest := ih (selectFamily chosen f) (by omega)
    rw [List.foldl_cons]
    omega

/-- A member that is written in no more bytes than the family that was read fits where the family stood. -/
theorem length_print_member_le {fs inner written : Fields} {n : Nat}
    (h : (Wire.print fs).length < 0x10000000000000000)
    (heq : fs.foldl selectFamily none = some (n, inner))
    (hwritten : (Wire.print inner).length < 0x10000000000000000 →
      (Wire.print written).length ≤ (Wire.print inner).length) :
    (Wire.print [.bytes n (Wire.print written)]).length ≤ (Wire.print fs).length := by
  have hchosen := chosenLength_foldl_le none fs (by rw [chosenLength]; omega)
  rw [heq, chosenLength, chosenLength, Nat.zero_add] at hchosen
  have hinner := Wire.length_lt_print_bytes n (Wire.print inner)
  have hle : (Wire.Field.bytes n (Wire.print written)).print.length ≤
      (Wire.Field.bytes n (Wire.print inner)).print.length :=
    Wire.length_print_bytes_mono (hwritten (by omega)) (by omega)
  rw [Wire.length_print_cons, Wire.print, List.length_nil]
  omega

/-- **Rules that are read are written in no more bytes than the fields that they were read from.** -/
theorem length_encode_read_le {fs : Fields} (h : (Wire.print fs).length < 0x10000000000000000)
    (fuel : Nat) : (read fuel fs).encode.length ≤ (Wire.print fs).length := by
  induction fuel generalizing fs with
  | zero => exact Nat.zero_le _
  | succ fuel ih =>
    rw [read]
    split
    case h_1 inner heq => exact length_print_member_le h heq fun _ => length_floatFields_le inner
    case h_2 inner heq => exact length_print_member_le h heq fun _ => length_intFields_le inner
    case h_3 inner heq => exact length_print_member_le h heq fun _ => length_stringFields_le inner
    case h_4 inner heq => exact length_print_member_le h heq fun _ => length_messageFields_le inner
    case h_5 inner heq =>
      cases hitems : Wire.message? 4 inner with
      | none =>
        have hlengths := length_readLengths_le inner
        have htotal := lengthAt_five_le inner
        exact length_print_member_le h heq fun _ => by omega
      | some items =>
        refine length_print_member_le h heq fun hlength => length_itemFields_le hlength hitems (ih ?_)
        have hmerged := Wire.length_print_message?_le hitems hlength
        have hpayload := Wire.length_lt_print_bytes 4 (Wire.print items)
        have htotal := lengthAt_five_le inner
        omega
    case h_6 => exact Nat.zero_le _

/-! ## The round trip -/

/-- **Rules survive the wire.** Rules that are written are read as the same rules, each of them given or not
as it was and numbers with the same bits, if their messages are nested no deeper than a reader goes; deeper
ones are refused. And whatever bytes rules are read from, the rules are written in no more bytes, from which
the same rules are read. A length has to fit into the sixty-four bits that precede a payload. -/
theorem wire_roundTrip :
    (∀ r : FieldRules, r.encode.length < 0x10000000000000000 →
      decode? r.encode = if r.levels ≤ Wire.depthLimit then some r else none) ∧
    ∀ (bytes : Wire.Bytes) (r : FieldRules), bytes.length < 0x10000000000000000 →
      decode? bytes = some r → r.encode.length ≤ bytes.length ∧ decode? r.encode = some r := by
  refine ⟨fun r => decode?_encode, fun bytes r hlength hdecode => ?_⟩
  obtain ⟨fs, hparse, hread⟩ := Option.bind_eq_some_iff.1 hdecode
  rw [ofFields?] at hread
  split at hread
  case isFalse => cases hread
  case isTrue hfits =>
    cases hread
    have hfields := Wire.length_print_le_of_parse hparse
    have hencode := length_encode_read_le (Nat.lt_of_le_of_lt hfields hlength) Wire.depthLimit
    have hle := Nat.le_trans hencode hfields
    refine ⟨hle, ?_⟩
    rw [decode?_encode (Nat.lt_of_le_of_lt hle hlength), if_pos (levels_read_le hfits _)]

/-- Rules for a list of lists of texts, in which a zero, an empty text and a false flag are given. -/
def nestedRules : FieldRules :=
  .repeatedOf ⟨some 0, none, none⟩ (.repeatedOf {} (.string ⟨some "", {}, some false⟩))

/-- Rules for numbers in two pieces, behind another family and an unknown field. A key and a number have a
digit too many. -/
def looseBytes : Wire.Bytes :=
  [0x0a, 0x00, 0x10, 0x07, 0x9a, 0x00, 0x03, 0x20, 0x83, 0x00, 0x1a, 0x02, 0x28, 0x01]

theorem wire_roundTrip_nested :
    nestedRules.levels = 5 ∧ decode? nestedRules.encode = some nestedRules ∧
      decode? looseBytes = some (.int { gt := some 3, gte := some 1 }) ∧
      (encode (.int { gt := some 3, gte := some 1 })).length ≤ looseBytes.length ∧
      decode? (encode (.int { gt := some 3, gte := some 1 })) =
        some (.int { gt := some 3, gte := some 1 }) := by
  have hlevels : nestedRules.levels = 5 := by decide
  have hloose : decode? looseBytes = some (.int { gt := some 3, gte := some 1 }) := by decide +kernel
  have hwritten := wire_roundTrip.1 nestedRules (by decide +kernel)
  rw [if_pos (by rw [hlevels]; decide)] at hwritten
  exact ⟨hlevels, hwritten, hloose, wire_roundTrip.2 looseBytes _ (by decide) hloose⟩

end ProtoModels.FieldRules
