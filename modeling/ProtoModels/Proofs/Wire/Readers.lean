import Mathlib.Data.List.Basic
import ProtoModels.Wire.Shape
/-!
# What readers find

The readers of a shape look at one field number. A value that they give stands in a field with that
number, and of fields one after another the last one that says something decides.
-/
namespace ProtoModels.Wire

variable (number : Nat) (fs gs : List Field)

/-! ## Fields one after another -/

theorem number?_append :
    number? number (fs ++ gs) = (number? number gs).or (number? number fs) := by
  rw [number?, List.filterMap_append, List.getLast?_append, number?, number?]

theorem double?_append :
    double? number (fs ++ gs) = (double? number gs).or (double? number fs) := by
  rw [double?, List.filterMap_append, List.getLast?_append, double?, double?]

theorem payloads_append :
    payloads number (fs ++ gs) = payloads number fs ++ payloads number gs := List.filterMap_append

theorem texts_append : texts number (fs ++ gs) = texts number fs ++ texts number gs := by
  rw [texts, payloads_append, List.filterMap_append, texts, texts]

theorem lastText?_append :
    lastText? number (fs ++ gs) = (lastText? number gs).or (lastText? number fs) := by
  rw [lastText?, texts_append, List.getLast?_append, lastText?, lastText?]

theorem messages_append : messages number (fs ++ gs) = messages number fs ++ messages number gs := by
  rw [messages, payloads_append, List.filterMap_append, messages, messages]

/-- The payloads of fields that have one number. -/
theorem payloads_map_bytes {α : Type} (n : Nat) (payload : α → Bytes) (xs : List α) :
    payloads number (xs.map fun x => .bytes n (payload x)) = if n = number then xs.map payload else [] := by
  rw [payloads, List.filterMap_map]
  by_cases h : n = number <;> simp [h]

/-! ## Where values come from -/

variable {number} {fs}

theorem mem_of_number? {value : UInt64} (h : number? number fs = some value) :
    .varint number value ∈ fs := by
  obtain ⟨f, hf, hvalue⟩ := List.mem_filterMap.1 (List.mem_of_getLast? h)
  cases f <;> simp at hvalue
  obtain ⟨rfl, rfl⟩ := hvalue
  exact hf

theorem mem_of_double? {value : UInt64} (h : double? number fs = some value) :
    .fixed64 number value ∈ fs := by
  obtain ⟨f, hf, hvalue⟩ := List.mem_filterMap.1 (List.mem_of_getLast? h)
  cases f <;> simp at hvalue
  obtain ⟨rfl, rfl⟩ := hvalue
  exact hf

theorem mem_payloads_iff {payload : Bytes} : payload ∈ payloads number fs ↔ .bytes number payload ∈ fs := by
  simp only [payloads, List.mem_filterMap]
  constructor
  · rintro ⟨f, hf, hpayload⟩
    cases f <;> simp at hpayload
    obtain ⟨rfl, rfl⟩ := hpayload
    exact hf
  · exact fun h => ⟨_, h, by simp⟩

/-- Bytes that encode a text are its encoding. -/
theorem utf8_of_text? {bs : Bytes} {s : String} (h : text? bs = some s) : utf8 s = bs := by
  rw [text?, String.fromUTF8?] at h
  split at h
  · cases h
    simp [utf8, String.fromUTF8]
  · cases h

theorem mem_of_lastText? {s : String} (h : lastText? number fs = some s) : .text number s ∈ fs := by
  obtain ⟨payload, hpayload, htext⟩ := List.mem_filterMap.1 (List.mem_of_getLast? h)
  rw [Field.text, utf8_of_text? htext]
  exact mem_payloads_iff.1 hpayload

end ProtoModels.Wire
