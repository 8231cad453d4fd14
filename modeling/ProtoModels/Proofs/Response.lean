import ProtoModels.Proofs.Wire.Readers
import ProtoModels.Proofs.Wire.RoundTrip
import ProtoModels.Response
/-!
# Responses that are read

Who has asked for a response reads it from its bytes: why there are no files, the known features and
the files. What was written is what is read (`Response.decode?_encode`).
-/
namespace ProtoModels

namespace Response

open Wire (ShapeTable)

/-- The messages that a response consists of. -/
inductive Shape where
  | response | file
deriving DecidableEq

def shapes : ShapeTable Shape
  | .response, 1 => some .text
  | .response, 2 => some .number
  | .response, 15 => some (.message .file)
  | .file, 1 | .file, 15 => some .text
  | _, _ => none

def readFile (fs : List Wire.Field) : OutputFile :=
  ⟨(Wire.lastText? 1 fs).getD "", (Wire.lastText? 15 fs).getD ""⟩

/-- The known features and all else that a response says. -/
def decode? (bytes : Wire.Bytes) : Option (Option UInt64 × Response) :=
  (Wire.parseShaped? shapes .response bytes).map fun fs =>
    (Wire.number? 2 fs, ⟨Wire.lastText? 1 fs, (Wire.messages 15 fs).map readFile⟩)

theorem mem_fields_iff {r : Response} {f : Wire.Field} :
    f ∈ r.fields ↔ (∃ e, r.error = some e ∧ f = .text 1 e) ∨ f = .varint 2 supportedFeatures ∨
      ∃ file ∈ r.files, f = .bytes 15 (Wire.print (fileFields file)) := by
  cases h : r.error <;> simp [fields, h, eq_comm]

/-! ## Files -/

theorem writable_fileFields {f : OutputFile}
    (h : (Wire.print (fileFields f)).length < 0x10000000000000000) : Wire.Writable (fileFields f) := by
  have hname : Wire.Field.text 1 f.name ∈ fileFields f := List.mem_cons_self
  have hcontent : Wire.Field.text 15 f.content ∈ fileFields f := List.mem_cons_of_mem _ List.mem_cons_self
  exact ⟨⟨by decide, Nat.lt_trans (Wire.length_payload_lt hname) h⟩,
    ⟨by decide, Nat.lt_trans (Wire.length_payload_lt hcontent) h⟩, trivial⟩

theorem conforms_fileFields (f : OutputFile) :
    Wire.conforms shapes (Wire.depthLimit - 1) .file (fileFields f) = true := by
  have hname : (Wire.text? (Wire.utf8 f.name)).isSome = true :=
    Option.isSome_of_eq_some (Wire.text?_utf8 _)
  have hcontent : (Wire.text? (Wire.utf8 f.content)).isSome = true :=
    Option.isSome_of_eq_some (Wire.text?_utf8 _)
  rw [Wire.depthLimit, Wire.conforms, List.all_eq_true]
  intro field hfield
  rcases List.mem_cons.1 hfield with rfl | hfield
  · exact hname
  · rw [List.mem_singleton.1 hfield]
    exact hcontent

theorem readFile_fileFields (f : OutputFile) : readFile (fileFields f) = f := by
  simp [readFile, fileFields, Wire.lastText?, Wire.texts, Wire.payloads, Wire.Field.text,
    Wire.text?_utf8]

/-! ## Responses -/

/-- A response whose length a length prefix could say can be written. -/
theorem writable_fields {r : Response} (h : r.encode.length < 0x10000000000000000) :
    Wire.Writable r.fields := by
  rw [Wire.writable_iff]
  intro f hf
  rcases mem_fields_iff.1 hf with ⟨e, _, rfl⟩ | rfl | ⟨file, _, rfl⟩
  · exact ⟨by decide, Nat.lt_trans (Wire.length_payload_lt hf) h⟩
  · exact show Wire.IsFieldNumber 2 by decide
  · exact ⟨by decide, Nat.lt_trans (Wire.length_payload_lt hf) h⟩

theorem parse_file {r : Response} (h : r.encode.length < 0x10000000000000000) {f : OutputFile}
    (hf : f ∈ r.files) : Wire.parse (Wire.print (fileFields f)) = some (fileFields f) := by
  have hmem : .bytes 15 (Wire.print (fileFields f)) ∈ r.fields :=
    mem_fields_iff.2 (.inr (.inr ⟨f, hf, rfl⟩))
  exact Wire.parse_print (writable_fileFields (Nat.lt_trans (Wire.length_payload_lt hmem) h))

theorem conforms_fields {r : Response} (h : r.encode.length < 0x10000000000000000) :
    Wire.conforms shapes Wire.depthLimit .response r.fields = true := by
  rw [Wire.depthLimit, Wire.conforms, List.all_eq_true]
  intro f hf
  rcases mem_fields_iff.1 hf with ⟨e, _, rfl⟩ | rfl | ⟨file, hfile, rfl⟩
  · exact Option.isSome_of_eq_some (Wire.text?_utf8 e)
  · rfl
  · show ((Wire.parse _).map (Wire.conforms shapes 99 .file)).getD false = true
    rw [parse_file h hfile]
    exact conforms_fileFields file

theorem number?_fields (r : Response) : Wire.number? 2 r.fields = some supportedFeatures := by
  cases herror : r.error <;>
    simp [Wire.number?, fields, herror, Wire.Field.text, List.filterMap_eq_nil_iff.2]

/-- The payloads of a response are its error and its files. -/
theorem payloads_fields (r : Response) (number : Nat) :
    Wire.payloads number r.fields =
      (if 1 = number then (r.error.map Wire.utf8).toList else []) ++
        if 15 = number then r.files.map fun f => Wire.print (fileFields f) else [] := by
  have herror : Wire.payloads number (r.error.map (.text 1)).toList =
      if 1 = number then (r.error.map Wire.utf8).toList else [] := by
    cases r.error with
    | none => simp [Wire.payloads]
    | some e => exact Wire.payloads_map_bytes number 1 Wire.utf8 [e]
  have hfeatures : Wire.payloads number [.varint 2 supportedFeatures] = [] := rfl
  rw [fields, Wire.payloads_append, Wire.payloads_append, herror, hfeatures, List.append_nil,
    Wire.payloads_map_bytes]

/-- **What a response says is what is read from it.** -/
theorem decode?_encode {r : Response} (h : r.encode.length < 0x10000000000000000) :
    decode? r.encode = some (some supportedFeatures, r) := by
  have herror : Wire.lastText? 1 r.fields = r.error := by
    rw [Wire.lastText?, Wire.texts, payloads_fields]
    cases r.error <;> simp [Wire.text?_utf8]
  have hfiles : (Wire.messages 15 r.fields).map readFile = r.files := by
    have hparse : (r.files.map fun f => Wire.print (fileFields f)).filterMap Wire.parse =
        r.files.map fileFields := by
      rw [List.filterMap_map, List.filterMap_eq_map_iff_forall_eq_some]
      exact fun f hf => parse_file h hf
    have hread : readFile ∘ fileFields = id := funext readFile_fileFields
    rw [Wire.messages, payloads_fields, if_neg (by decide), if_pos rfl, List.nil_append, hparse,
      List.map_map, hread, List.map_id]
  rw [decode?, encode, Wire.parseShaped?, Wire.parse_print (writable_fields h), Option.filter_some,
    if_pos (conforms_fields h), Option.map_some, number?_fields, herror, hfiles]

end Response
end ProtoModels
