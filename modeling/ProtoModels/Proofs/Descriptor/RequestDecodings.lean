import ProtoModels.Proofs.Descriptor.EncodedFiles
import ProtoModels.Proofs.Wire.Readers
import ProtoModels.Rules.Annotations
/-!
# Two readings of a request

A request is read twice: once with its files, and once for its rules, when the files stay encoded. The
second reading sees the same files (`decodings_agree`): wherever the first succeeds it does too, and each
of the encoded files is, on its own, an encoding of the file in its place. So the pool is made of the
files of the schema, and what can be wrong with the second reading is a file that does not fit in a pool
or a rule that cannot be read.
-/
namespace ProtoModels

/-! ## Depth -/

namespace Wire

variable {σ : Type}

/-- A field that can be passed over can be passed over with one more level left. -/
theorem skippable_succ {depth : Nat} {f : Field} (h : f.skippable depth = true) :
    f.skippable (depth + 1) = true := by
  induction depth generalizing f with
  | zero => cases h
  | succ depth ih =>
    cases f with
    | group n fields =>
      rw [Field.skippable, List.all_eq_true] at h ⊢
      exact fun f hf => ih (h f hf)
    | _ => rfl

theorem FieldShape.admits_mono {inner inner' : σ → Bytes → Bool}
    (hinner : ∀ shape payload, inner shape payload = true → inner' shape payload = true)
    {shape : FieldShape σ} {f : Field} (h : shape.admits inner f = true) :
    shape.admits inner' f = true := by
  cases shape with
  | message shape =>
    cases f with
    | bytes n payload => exact hinner shape payload h
    | _ => cases h
  | _ => cases f <;> exact h

/-- Fields that fit a shape fit it with one more level left. -/
theorem conforms_succ {table : ShapeTable σ} {depth : Nat} {shape : σ} {fields : List Field}
    (h : conforms table depth shape fields = true) :
    conforms table (depth + 1) shape fields = true := by
  induction depth generalizing shape fields with
  | zero =>
    simp only [conforms, List.all_eq_true] at h ⊢
    intro f hf
    have hfits := h f hf
    cases hshape : table shape f.number with
    | none => simp [hshape] at hfits
    | some known =>
      rw [hshape] at hfits
      exact FieldShape.admits_mono (fun _ _ h => by cases h) hfits
  | succ depth ih =>
    simp only [conforms, List.all_eq_true] at h ⊢
    intro f hf
    have hfits := h f hf
    cases hshape : table shape f.number with
    | none =>
      rw [hshape] at hfits
      exact skippable_succ hfits
    | some known =>
      rw [hshape] at hfits
      refine FieldShape.admits_mono (fun shape payload h => ?_) hfits
      cases hparse : parse payload with
      | none => simp [hparse] at h
      | some inner =>
        rw [hparse] at h
        exact ih h

end Wire

/-! ## The files, one by one -/

namespace Descriptor

/-- A file that is encoded on its own. -/
def File.ofBytes? (bytes : Wire.Bytes) : Option File :=
  (Wire.parseShaped? shapes .file bytes).map File.read

/-- What fits a level below fits on its own. -/
theorem File.ofBytes?_of_conforms {payload : Wire.Bytes} {fs : Fields}
    (hparse : Wire.parse payload = some fs)
    (hfits : Wire.conforms shapes (Wire.depthLimit - 1) .file fs = true) :
    File.ofBytes? payload = some (File.read fs) := by
  have hdeeper : Wire.conforms shapes Wire.depthLimit .file fs = true := Wire.conforms_succ hfits
  rw [File.ofBytes?, Wire.parseShaped?, hparse, Option.filter_some, if_pos hdeeper]
  rfl

/-- The files in a request that fits are encodings of files. -/
theorem Request.exists_parse_of_conforms {fs : Fields}
    (h : Wire.conforms shapes Wire.depthLimit .request fs = true) :
    ∀ payload ∈ Wire.payloads 15 fs, ∃ inner, Wire.parse payload = some inner ∧
      File.ofBytes? payload = some (File.read inner) := by
  intro payload hpayload
  rw [Wire.depthLimit, Wire.conforms, List.all_eq_true] at h
  have hfits : ((Wire.parse payload).map (Wire.conforms shapes 99 .file)).getD false = true :=
    h _ (Wire.mem_payloads_iff.1 hpayload)
  cases hparse : Wire.parse payload with
  | none => simp [hparse] at hfits
  | some inner =>
    rw [hparse] at hfits
    exact ⟨inner, rfl, File.ofBytes?_of_conforms hparse hfits⟩

/-- The encoded files of a request that can be read can be read, too. -/
theorem Request.exists_parse_of_encodedFiles? {bytes : Wire.Bytes} {r : Request}
    (h : decode? bytes = some r) {payloads : List Wire.Bytes}
    (hpayloads : encodedFiles? bytes = some payloads) :
    ∀ payload ∈ payloads, ∃ inner, Wire.parse payload = some inner ∧
      File.ofBytes? payload = some (File.read inner) := by
  obtain ⟨fs, hparsed, rfl⟩ := Option.map_eq_some_iff.1 h
  obtain ⟨hparse, hfits⟩ := Option.filter_eq_some_iff.1 hparsed
  obtain ⟨fs', hparsed', rfl⟩ := Option.map_eq_some_iff.1 hpayloads
  obtain rfl : fs = fs' := Option.some.inj (hparse.symm.trans (Option.filter_eq_some_iff.1 hparsed').1)
  exact exists_parse_of_conforms hfits

end Descriptor

open Descriptor (Request File Pool)

/-- **Both readings of a request agree.** If a request can be read, so can it with its files left
encoded, and it holds as many encoded files as files: each of them is read, on its own, as the file in
its place. A pool that takes the encoded files one by one takes these very files. So the second reading
fails for a malformed request only if the files form a pool and the rules of a field cannot be read. -/
theorem decodings_agree {bytes : Wire.Bytes} {r : Request} (h : Request.decode? bytes = some r) :
    ∃ payloads, Request.encodedFiles? bytes = some payloads ∧
      payloads.length = r.files.length ∧
      List.Forall₂ (fun payload file => File.ofBytes? payload = some file) payloads r.files ∧
      (∀ files, payloads.mapM File.decode? = some files → files = r.files) ∧
      (RuleIndex.ofRequest bytes r.files = .error .decode →
        payloads.mapM File.decode? = some r.files ∧
        ∃ p, (Pool.ofFiles r.files).interpret?.filter Pool.isValid = some p ∧
          RuleIndex.ofPool? p = none) := by
  obtain ⟨payloads, hpayloads, hr⟩ := Request.encodedFiles?_of_decode? h
  have hread : List.Forall₂ (fun payload file => File.ofBytes? payload = some file) payloads r.files := by
    rw [hr]
    exact Request.forall₂_read (Request.exists_parse_of_encodedFiles? h hpayloads)
  have hsame : ∀ files, payloads.mapM File.decode? = some files → files = r.files := by
    intro files hfiles
    have hdecoded := Request.mapM_decode? h hpayloads fun payload hpayload => ?_
    · exact Option.some.inj (hfiles.symm.trans hdecoded)
    · obtain ⟨file, _, hfile⟩ := exists_of_forall₂_left (mapM_eq_some_iff.1 hfiles) payload hpayload
      exact Option.isSome_of_eq_some hfile
  refine ⟨payloads, hpayloads, hread.length_eq, hread, hsame, fun hfails => ?_⟩
  simp only [RuleIndex.ofRequest, hpayloads] at hfails
  split at hfails
  · cases hfiles : payloads.mapM File.decode? with
    | none => simp [hfiles] at hfails
    | some files =>
      obtain rfl := hsame files hfiles
      refine ⟨rfl, ?_⟩
      cases hpool : (Pool.ofFiles r.files).interpret?.filter Pool.isValid with
      | none => simp [hfiles, hpool] at hfails
      | some p =>
        cases hrules : RuleIndex.ofPool? p with
        | none => exact ⟨p, rfl, hrules⟩
        | some index => simp [hfiles, hpool, hrules] at hfails
  · cases hfails

/-- A request with two files. A group and a scalar that is given twice precede them, and in the first
file a group stands between two names. -/
def groupedRequest : Wire.Bytes :=
  [0x2b, 0x08, 0x01, 0x2c, 0x12, 0x01, 0x61, 0x12, 0x01, 0x62,
    0x7a, 0x0a, 0x0a, 0x01, 0x61, 0xa3, 0x06, 0xa4, 0x06, 0x0a, 0x01, 0x62,
    0x7a, 0x03, 0x0a, 0x01, 0x63]

theorem decodings_agree_grouped :
    ∃ r payloads, Request.decode? groupedRequest = some r ∧
      Request.encodedFiles? groupedRequest = some payloads ∧
      r.files.map (·.name) = ["b", "c"] ∧
      List.Forall₂ (fun payload file => File.ofBytes? payload = some file) payloads r.files := by
  obtain ⟨r, hr⟩ : ∃ r, Request.decode? groupedRequest = some r :=
    Option.isSome_iff_exists.1 (by decide +kernel)
  obtain ⟨payloads, hpayloads, -, hread, -⟩ := decodings_agree hr
  have hnames : (Request.decode? groupedRequest).map (fun r => r.files.map (·.name)) =
      some ["b", "c"] := by
    decide +kernel
  rw [hr] at hnames
  exact ⟨r, payloads, hr, hpayloads, Option.some.inj hnames, hread⟩

end ProtoModels
