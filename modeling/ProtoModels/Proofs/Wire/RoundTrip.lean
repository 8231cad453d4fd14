import Mathlib.Algebra.Group.Nat.Defs
import ProtoModels.Wire.Record
/-!
# Records that are written and read

Fields that are written are read back as they were (`Wire.parse_print`), whatever they hold and however
deep their groups are, if their numbers are numbers that a field can have and their payloads are no longer
than a length can say.
-/
namespace ProtoModels.Wire

/-! ## Keys and fixed-width numbers -/

/-- The numbers that a field can have. -/
def IsFieldNumber (n : Nat) : Prop := 0 < n ∧ n < 0x20000000

instance : DecidablePred IsFieldNumber := fun _ => inferInstanceAs (Decidable (_ ∧ _))

theorem readKey_printKey {number wireType : Nat} (hnumber : IsFieldNumber number)
    (htype : wireType < 8) (rest : Bytes) :
    readKey (printKey number wireType ++ rest) = some (number, wireType, rest) := by
  obtain ⟨hpos, hlt⟩ := hnumber
  have hkey : (UInt64.ofNat (8 * number + wireType)).toNat = 8 * number + wireType := by
    rw [UInt64.toNat_ofNat']
    omega
  have hdiv : (8 * number + wireType) / 8 = number := by omega
  have hmod : (8 * number + wireType) % 8 = wireType := by omega
  simp only [readKey, printKey, readVarint_encodeVarint, Option.bind_eq_bind, Option.bind_some, hkey,
    hdiv, hmod]
  exact if_pos ⟨by omega, by omega⟩

theorem length_printKey_pos (number wireType : Nat) : 0 < (printKey number wireType).length := by
  have h := length_lt_of_readVarint
    (readVarint_encodeVarint (UInt64.ofNat (8 * number + wireType)) [])
  rwa [List.append_nil] at h

/-- A field begins with its key. -/
theorem Field.exists_print_eq (f : Field) :
    ∃ wireType value, f.print = printKey f.number wireType ++ value := by
  cases f with
  | bytes n payload => exact ⟨2, _, List.append_assoc ..⟩
  | group n fields => exact ⟨3, _, List.append_assoc ..⟩
  | _ => exact ⟨_, _, rfl⟩

theorem Field.length_print_pos (f : Field) : 0 < f.print.length := by
  obtain ⟨wireType, value, hprint⟩ := f.exists_print_eq
  have hkey := length_printKey_pos f.number wireType
  rw [hprint, List.length_append]
  omega

theorem length_toLittleEndian (count v : Nat) : (toLittleEndian count v).length = count := by
  induction count generalizing v with
  | zero => rfl
  | succ count ih => rw [toLittleEndian, List.length_cons, ih]

theorem littleEndian_toLittleEndian {count v : Nat} (h : v < 256 ^ count) :
    littleEndian (toLittleEndian count v) = v := by
  induction count generalizing v with
  | zero => rw [toLittleEndian, littleEndian]; omega
  | succ count ih =>
    have hrest : v / 256 < 256 ^ count := by rw [Nat.pow_succ] at h; omega
    rw [toLittleEndian, littleEndian, ih hrest, UInt8.toNat_ofNat']
    omega

theorem splitBytes_append (payload rest : Bytes) :
    splitBytes payload.length (payload ++ rest) = some (payload, rest) := by
  simp [splitBytes]

theorem splitBytes_toLittleEndian (count v : Nat) (rest : Bytes) :
    splitBytes count (toLittleEndian count v ++ rest) = some (toLittleEndian count v, rest) := by
  have h := splitBytes_append (toLittleEndian count v) rest
  rwa [length_toLittleEndian] at h

/-! ## Tokens -/

mutual
/-- Whether a field can be written: its number is one, and the length of its payload is below `2 ^ 64`. -/
def Field.Writable : Field → Prop
  | .varint n _ | .fixed64 n _ | .fixed32 n _ => IsFieldNumber n
  | .bytes n payload => IsFieldNumber n ∧ payload.length < 0x10000000000000000
  | .group n fields => IsFieldNumber n ∧ Writable fields

/-- Whether some fields can be written. -/
def Writable : List Field → Prop
  | [] => True
  | f :: fs => f.Writable ∧ Writable fs
end

theorem writable_iff {fs : List Field} : Writable fs ↔ ∀ f ∈ fs, f.Writable := by
  induction fs with
  | nil => simp [Writable]
  | cons f fs ih => rw [Writable, ih, List.forall_mem_cons]

section
variable {wireType : Nat → Nat → Nat} (hkeys : ∀ number named, wireType number named = named)
include hkeys

/-- A field that is no group is one token. -/
theorem readToken_print {f : Field} (h : f.Writable) (hgroup : ∀ n fields, f ≠ .group n fields)
    (rest : Bytes) : readToken wireType (f.print ++ rest) = some (.field f, rest) := by
  cases f with
  | varint n value =>
    simp [readToken, Field.print, readKey_printKey h, hkeys, readVarint_encodeVarint]
  | fixed64 n value =>
    have hvalue : value.toNat < 256 ^ 8 := value.toNat_lt
    simp [readToken, Field.print, readKey_printKey h, hkeys, splitBytes_toLittleEndian,
      littleEndian_toLittleEndian hvalue]
  | bytes n payload =>
    have hlength : (UInt64.ofNat payload.length).toNat = payload.length := by
      rw [UInt64.toNat_ofNat']
      exact Nat.mod_eq_of_lt h.2
    simp [readToken, Field.print, readKey_printKey h.1, hkeys, readVarint_encodeVarint, hlength,
      splitBytes_append]
  | group n fields => exact absurd rfl (hgroup n fields)
  | fixed32 n value =>
    have hvalue : value.toNat < 256 ^ 4 := value.toNat_lt
    simp [readToken, Field.print, readKey_printKey h, hkeys, splitBytes_toLittleEndian,
      littleEndian_toLittleEndian hvalue]

theorem readToken_opening {n : Nat} (h : IsFieldNumber n) (rest : Bytes) :
    readToken wireType (printKey n 3 ++ rest) = some (.opening n, rest) := by
  simp [readToken, readKey_printKey h, hkeys]

theorem readToken_closing {n : Nat} (h : IsFieldNumber n) (rest : Bytes) :
    readToken wireType (printKey n 4 ++ rest) = some (.closing n, rest) := by
  simp [readToken, readKey_printKey h, hkeys]

end

/-! ## Lengths -/

theorem length_print_le_of_mem {f : Field} {fs : List Field} (h : f ∈ fs) :
    f.print.length ≤ (print fs).length := by
  induction fs with
  | nil => cases h
  | cons g fs ih =>
    rw [print, List.length_append]
    rcases List.mem_cons.1 h with rfl | h
    · exact Nat.le_add_right ..
    · exact Nat.le_trans (ih h) (Nat.le_add_left ..)

/-- A payload is shorter than what it stands in. -/
theorem length_payload_lt {n : Nat} {payload : Bytes} {fs : List Field} (h : .bytes n payload ∈ fs) :
    payload.length < (print fs).length := by
  have hfield := length_print_le_of_mem h
  have hkey := length_printKey_pos n 2
  simp only [Field.print, List.length_append] at hfield
  omega

/-! ## Fields -/

section
variable {σ : Type} {framing : σ → Nat → Framing σ} {fuel : Nat} {outer : List (OpenGroup σ)}
  {shape : σ} {done : List Field} {bs rest : Bytes}

/-- The wire types by which the next token is read. -/
def nextWireType (framing : σ → Nat → Framing σ) (outer : List (OpenGroup σ)) (shape : σ) :
    Nat → Nat → Nat :=
  fun n => (framing shape n).wireType !outer.isEmpty

theorem parseFields_field {f : Field}
    (h : readToken (nextWireType framing outer shape) bs = some (.field f, rest)) :
    parseFields framing (fuel + 1) outer shape done bs =
      parseFields framing fuel outer shape (f :: done) rest := by
  cases bs with
  | nil => cases h
  | cons b bs =>
    unfold nextWireType at h
    simp only [parseFields, h]

theorem parseFields_opening {n : Nat}
    (h : readToken (nextWireType framing outer shape) bs = some (.opening n, rest)) :
    parseFields framing (fuel + 1) outer shape done bs =
      parseFields framing fuel (⟨n, shape, done⟩ :: outer) (framing shape n).inside [] rest := by
  cases bs with
  | nil => cases h
  | cons b bs =>
    unfold nextWireType at h
    simp only [parseFields, h]

theorem parseFields_closing {n : Nat} {around : σ} {before : List Field}
    (h : readToken (nextWireType framing (⟨n, around, before⟩ :: outer) shape) bs =
      some (.closing n, rest)) :
    parseFields framing (fuel + 1) (⟨n, around, before⟩ :: outer) shape done bs =
      parseFields framing fuel outer around (.group n done.reverse :: before) rest := by
  cases bs with
  | nil => cases h
  | cons b bs =>
    unfold nextWireType at h
    simp only [parseFields, h, if_true]

end

section
variable {σ : Type} {framing : σ → Nat → Framing σ}

/-- If no payload is framed by its meaning, then every field is read by the wire type of its key. -/
theorem nextWireType_eq (hplain : ∀ shape number, (framing shape number).delimited = false)
    (outer : List (OpenGroup σ)) (shape : σ) (number named : Nat) :
    nextWireType framing outer shape number named = named := by
  rw [nextWireType, Framing.wireType, hplain]
  rfl

mutual
/-- A field uses up some of the fuel, but not more than it has bytes. -/
theorem Field.parseFields_print
    (hplain : ∀ shape number, (framing shape number).delimited = false) {f : Field} (h : f.Writable) :
    ∃ used ≤ f.print.length, ∀ fuel outer shape done rest,
      parseFields framing (fuel + used) outer shape done (f.print ++ rest) =
        parseFields framing fuel outer shape (f :: done) rest := by
  cases hcase : f with
  | group n fields =>
    subst hcase
    obtain ⟨inner, hinner, hfields⟩ := parseFields_print hplain h.2
    refine ⟨1 + inner + 1, ?_, fun fuel outer shape done rest => ?_⟩
    · have hopen := length_printKey_pos n 3
      have hclose := length_printKey_pos n 4
      simp only [Field.print, List.length_append]
      omega
    · have hopen := readToken_opening (nextWireType_eq hplain outer shape) h.1
      have hclose := readToken_closing
        (nextWireType_eq hplain (⟨n, shape, done⟩ :: outer) (framing shape n).inside) h.1
      rw [Field.print, List.append_assoc, List.append_assoc, ← Nat.add_assoc,
        parseFields_opening (hopen _), ← Nat.add_assoc, hfields, List.append_nil,
        parseFields_closing (hclose _), List.reverse_reverse]
  | _ =>
    refine ⟨1, hcase ▸ f.length_print_pos, fun fuel outer shape done rest => ?_⟩
    refine parseFields_field (readToken_print (nextWireType_eq hplain outer shape) (hcase ▸ h) ?_ rest)
    intro n fields hgroup
    cases hgroup

theorem parseFields_print
    (hplain : ∀ shape number, (framing shape number).delimited = false) {fs : List Field}
    (h : Writable fs) :
    ∃ used ≤ (print fs).length, ∀ fuel outer shape done rest,
      parseFields framing (fuel + used) outer shape done (print fs ++ rest) =
        parseFields framing fuel outer shape (fs.reverse ++ done) rest := by
  cases fs with
  | nil => exact ⟨0, Nat.zero_le _, fun _ _ _ _ _ => rfl⟩
  | cons f fs =>
    obtain ⟨first, hfirst, hf⟩ := Field.parseFields_print hplain h.1
    obtain ⟨others, hothers, hfs⟩ := parseFields_print hplain h.2
    refine ⟨others + first, ?_, fun fuel outer shape done rest => ?_⟩
    · rw [print, List.length_append]
      omega
    · rw [print, List.append_assoc, ← Nat.add_assoc, hf, hfs, List.reverse_cons, List.append_assoc]
      rfl
end

end

/-- **What is written is read back.** -/
theorem parse_print {fs : List Field} (h : Writable fs) : parse (print fs) = some fs := by
  obtain ⟨used, hused, hread⟩ :=
    @parseFields_print Unit (fun _ _ => ⟨false, ()⟩) (fun _ _ => rfl) fs h
  have hfuel : (print fs).length - used + used = (print fs).length := Nat.sub_add_cancel hused
  have hall := hread ((print fs).length - used) [] () [] []
  rw [hfuel, List.append_nil, List.append_nil] at hall
  rw [parse, parseAs, hall, parseFields, List.reverse_reverse]

end ProtoModels.Wire
