import ProtoModels.Descriptor.Encoding
import ProtoModels.Proofs.Traversals
/-!
# The files of an encoded request

A request is split once more to get at the bytes of its files. Whatever can be read as a whole can be
split (`Request.encodedFiles?_of_decode?`), and the pieces are read as the files of the request, in the
same order (`Request.mapM_decode?`).
-/
namespace ProtoModels

namespace Wire

/-- A field that is no group can be passed over wherever a level is left. -/
theorem skippable_of_admits {σ : Type} {inner : σ → Bytes → Bool} {shape : FieldShape σ} {f : Field}
    (h : shape.admits inner f = true) (depth : Nat) : f.skippable (depth + 1) = true := by
  cases f with
  | group n fields => cases shape <;> cases h
  | _ => rfl

end Wire

namespace Descriptor.Request

open Wire (FieldShape)

/-- The files in a request that fits are payloads that fit, and everything else can be passed over. -/
theorem conforms_enclosing {fs : Fields} (h : Wire.conforms shapes Wire.depthLimit .request fs = true) :
    Wire.conforms enclosingShapes Wire.depthLimit () fs = true := by
  rw [Wire.depthLimit, Wire.conforms, List.all_eq_true] at h ⊢
  intro f hf
  have hfits := h f hf
  by_cases hnumber : f.number = 15
  · rw [hnumber] at hfits ⊢
    cases f with
    | bytes n payload => rfl
    | _ => cases hfits
  · have hunknown : enclosingShapes () f.number = none := by
      unfold enclosingShapes
      split
      · rename_i _ heq
        exact absurd heq hnumber
      · rfl
    rw [hunknown]
    cases hshape : shapes .request f.number with
    | none => rwa [hshape] at hfits
    | some shape =>
      rw [hshape] at hfits
      exact Wire.skippable_of_admits hfits _

/-- **A request that can be read can be split.** -/
theorem encodedFiles?_of_decode? {bytes : Wire.Bytes} {r : Request} (h : decode? bytes = some r) :
    ∃ payloads, encodedFiles? bytes = some payloads ∧
      r.files = (payloads.filterMap Wire.parse).map File.read := by
  obtain ⟨fs, hparsed, rfl⟩ := Option.map_eq_some_iff.1 h
  obtain ⟨hparse, hfits⟩ := Option.filter_eq_some_iff.1 hparsed
  refine ⟨Wire.payloads 15 fs, ?_, rfl⟩
  rw [encodedFiles?, Wire.parseShaped?, hparse, Option.filter_some, if_pos (conforms_enclosing hfits)]
  rfl

/-- Pieces that can be read one by one are read in order. -/
theorem forall₂_read {decode : Wire.Bytes → Option File} {payloads : List Wire.Bytes}
    (h : ∀ payload ∈ payloads, ∃ fs, Wire.parse payload = some fs ∧
      decode payload = some (File.read fs)) :
    List.Forall₂ (fun payload file => decode payload = some file) payloads
      ((payloads.filterMap Wire.parse).map File.read) := by
  induction payloads with
  | nil => exact .nil
  | cons payload payloads ih =>
    rw [List.forall_mem_cons] at h
    obtain ⟨⟨fs, hparse, hdecode⟩, hpayloads⟩ := h
    rw [List.filterMap_cons, hparse, List.map_cons]
    exact .cons hdecode (ih hpayloads)

/-- **The pieces are read as the files of the request**, in the same order, if they can be read one by
one. -/
theorem mapM_decode? {bytes : Wire.Bytes} {r : Request} (h : decode? bytes = some r)
    {payloads : List Wire.Bytes} (hpayloads : encodedFiles? bytes = some payloads)
    (hfiles : ∀ payload ∈ payloads, (File.decode? payload).isSome = true) :
    payloads.mapM File.decode? = some r.files := by
  obtain ⟨payloads', hpayloads', hr⟩ := encodedFiles?_of_decode? h
  obtain rfl : payloads = payloads' := Option.some.inj (hpayloads.symm.trans hpayloads')
  rw [hr, mapM_eq_some_iff]
  refine forall₂_read fun payload hpayload => ?_
  obtain ⟨file, hfile⟩ := Option.isSome_iff_exists.1 (hfiles payload hpayload)
  obtain ⟨fs, hfs, hread⟩ := Option.map_eq_some_iff.1 hfile
  exact ⟨fs, (Option.filter_eq_some_iff.1 hfs).1, hfile.trans (congrArg some hread.symm)⟩

end Descriptor.Request
end ProtoModels
