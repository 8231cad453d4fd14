import Mathlib.Algebra.Order.Ring.Nat
import Mathlib.Data.List.Basic
import ProtoModels.Proofs.Wire.Readers
import ProtoModels.Proofs.Wire.RoundTrip
/-!
# Writing is shortest

A field is written in the fewest bytes that it can be read from. So fields that were read, if they are
written again, take no more bytes than they had (`length_print_le_of_parse`): numbers lose the leading
zeros that a reader accepts, and nothing else changes its length. Payloads that are put together under
one key take no more bytes than they took apart (`length_print_bytes_append`).
-/
namespace ProtoModels.Wire

/-! ## Numbers -/

theorem lt_digitsLimit_of_readDigits {count n : Nat} {bs rest : Bytes}
    (h : readDigits count bs = some (n, rest)) : n < digitsLimit count := by
  induction count generalizing n bs rest with
  | zero =>
    cases bs with
    | nil => cases h
    | cons b bs =>
      rw [readDigits] at h
      split at h
      · cases h
        assumption
      · cases h
  | succ count ih =>
    cases bs with
    | nil => cases h
    | cons b bs =>
      rw [readDigits] at h
      have hpos : 0 < digitsLimit count := by
        clear ih h
        induction count with
        | zero => exact Nat.zero_lt_two
        | succ count ih => rw [digitsLimit]; omega
      rw [digitsLimit]
      split at h
      · cases h
        omega
      · obtain ⟨⟨m, after⟩, hm, heq⟩ := Option.map_eq_some_iff.1 h
        cases heq
        have hdigits := ih hm
        have hbyte := b.toNat_lt
        omega

theorem length_encodeDigits_succ (count n : Nat) :
    (encodeDigits (count + 1) n).length =
      if n < 128 then 1 else (encodeDigits count (n / 128)).length + 1 := by
  rw [encodeDigits]
  split <;> rfl

/-- No digits are shorter than those that are written. -/
theorem length_encodeDigits_le_of_readDigits {count n : Nat} {bs rest : Bytes}
    (h : readDigits count bs = some (n, rest)) :
    (encodeDigits count n).length + rest.length ≤ bs.length := by
  have hshorter := length_lt_of_readDigits h
  induction count generalizing n bs rest with
  | zero =>
    rw [encodeDigits, List.length_singleton]
    omega
  | succ count ih =>
    rw [length_encodeDigits_succ]
    split
    · omega
    · cases bs with
      | nil => cases h
      | cons b bs =>
        rw [readDigits] at h
        split at h
        · cases h
          omega
        · obtain ⟨⟨m, after⟩, hm, heq⟩ := Option.map_eq_some_iff.1 h
          cases heq
          have hbyte := b.toNat_lt
          have hquotient : (b.toNat - 128 + 128 * m) / 128 = m := by omega
          have hdigits := ih hm (length_lt_of_readDigits hm)
          rw [hquotient, List.length_cons]
          omega

theorem length_encodeDigits_mono (count : Nat) {m n : Nat} (h : m ≤ n) :
    (encodeDigits count m).length ≤ (encodeDigits count n).length := by
  induction count generalizing m n with
  | zero => exact Nat.le_refl _
  | succ count ih =>
    have hquotient := ih (Nat.div_le_div_right (c := 128) h)
    rw [length_encodeDigits_succ, length_encodeDigits_succ]
    split <;> split <;> omega

theorem length_encodeDigits_one (count : Nat) : (encodeDigits count 1).length = 1 := by
  cases count <;> rfl

/-- The carry of a sum may take a digit more, but no more than the lesser number has. -/
theorem length_encodeDigits_add (count m n : Nat) :
    (encodeDigits count (m + n)).length ≤
      (encodeDigits count m).length + (encodeDigits count n).length := by
  induction count generalizing m n with
  | zero => exact Nat.le_succ 1
  | succ count ih =>
    have hone := length_encodeDigits_one count
    have hle {k : Nat} (hk : (m + n) / 128 ≤ k) :
        (encodeDigits count ((m + n) / 128)).length ≤ (encodeDigits count k).length :=
      length_encodeDigits_mono _ hk
    rw [length_encodeDigits_succ, length_encodeDigits_succ, length_encodeDigits_succ]
    by_cases hm : m < 128 <;> by_cases hn : n < 128
    · have hcarry := hle (k := 1) (by omega)
      simp only [hm, hn, if_true]
      split <;> omega
    · have hcarry := hle (k := n / 128 + 1) (by omega)
      have hsum := ih (n / 128) 1
      simp only [hm, hn, if_true, if_false]
      split <;> omega
    · have hcarry := hle (k := m / 128 + 1) (by omega)
      have hsum := ih (m / 128) 1
      simp only [hm, hn, if_true, if_false]
      split <;> omega
    · have hcarry := hle (k := m / 128 + (n / 128 + 1)) (by omega)
      have hsum := ih (m / 128) (n / 128 + 1)
      have hsucc := ih (n / 128) 1
      simp only [hm, hn, if_false]
      split <;> omega

theorem length_encodeVarint_le_of_readVarint {n : UInt64} {bs rest : Bytes}
    (h : readVarint bs = some (n, rest)) : (encodeVarint n).length + rest.length ≤ bs.length := by
  obtain ⟨⟨m, after⟩, hm, heq⟩ := Option.map_eq_some_iff.1 h
  cases heq
  have hlimit : digitsLimit 9 = 0x10000000000000000 := rfl
  have hlt := lt_digitsLimit_of_readDigits hm
  have hvalue : (UInt64.ofNat m).toNat = m := by
    rw [UInt64.toNat_ofNat']
    omega
  rw [encodeVarint, hvalue]
  exact length_encodeDigits_le_of_readDigits hm

/-! ## Tokens -/

/-- The key of a field is written in no more bytes than it was read from. -/
theorem length_printKey_le_of_readKey {bs rest : Bytes} {number wireType : Nat}
    (h : readKey bs = some (number, wireType, rest)) :
    (printKey number wireType).length + rest.length ≤ bs.length := by
  obtain ⟨⟨key, after⟩, hkey, h⟩ := Option.bind_eq_some_iff.1 h
  dsimp only at h
  split at h
  · cases h
    have hparts : 8 * (key.toNat / 8) + key.toNat % 8 = key.toNat := Nat.div_add_mod ..
    rw [printKey, hparts, UInt64.ofNat_toNat]
    exact length_encodeVarint_le_of_readVarint hkey
  · cases h

/-- How many bytes a token takes that is written. -/
def Token.size : Token → Nat
  | .field f => f.print.length
  | .opening number => (printKey number 3).length
  | .closing number => (printKey number 4).length

theorem length_of_splitBytes {n : Nat} {bs payload rest : Bytes}
    (h : splitBytes n bs = some (payload, rest)) :
    payload.length = n ∧ payload.length + rest.length = bs.length := by
  rw [splitBytes] at h
  split at h
  · cases h
    rw [List.length_take, List.length_drop]
    omega
  · cases h

/-- A token is written in no more bytes than it was read from. -/
theorem size_le_of_readToken {wireType : Nat → Nat → Nat}
    (hkeys : ∀ number named, wireType number named = named) {bs rest : Bytes} {token : Token}
    (h : readToken wireType bs = some (token, rest)) : token.size + rest.length ≤ bs.length := by
  obtain ⟨⟨number, named, after⟩, hkey, h⟩ := Option.bind_eq_some_iff.1 h
  have hlength := length_printKey_le_of_readKey hkey
  simp only [hkeys] at h
  split at h
  · obtain ⟨⟨value, behind⟩, hvalue, h⟩ := Option.bind_eq_some_iff.1 h
    cases h
    have hvarint := length_encodeVarint_le_of_readVarint hvalue
    simp only [Token.size, Field.print, List.length_append]
    omega
  · obtain ⟨⟨payload, behind⟩, hvalue, h⟩ := Option.bind_eq_some_iff.1 h
    cases h
    have hsplit := length_of_splitBytes hvalue
    simp only [Token.size, Field.print, List.length_append, length_toLittleEndian]
    omega
  · obtain ⟨⟨length, middle⟩, hprefix, h⟩ := Option.bind_eq_some_iff.1 h
    obtain ⟨⟨payload, behind⟩, hvalue, h⟩ := Option.bind_eq_some_iff.1 h
    cases h
    have hvarint := length_encodeVarint_le_of_readVarint hprefix
    obtain ⟨hpayload, hsplit⟩ := length_of_splitBytes hvalue
    simp only [Token.size, Field.print, List.length_append, hpayload, UInt64.ofNat_toNat]
    rw [hpayload] at hsplit
    dsimp only at hsplit
    omega
  · cases h
    exact hlength
  · cases h
    exact hlength
  · obtain ⟨⟨payload, behind⟩, hvalue, h⟩ := Option.bind_eq_some_iff.1 h
    cases h
    have hsplit := length_of_splitBytes hvalue
    simp only [Token.size, Field.print, List.length_append, length_toLittleEndian]
    omega
  · cases h

/-! ## Fields -/

theorem print_append (fs gs : List Field) : print (fs ++ gs) = print fs ++ print gs := by
  induction fs with
  | nil => rfl
  | cons f fs ih => rw [List.cons_append, print, print, ih, List.append_assoc]

theorem length_print_append (fs gs : List Field) :
    (print (fs ++ gs)).length = (print fs).length + (print gs).length := by
  rw [print_append, List.length_append]

theorem length_print_cons (f : Field) (fs : List Field) :
    (print (f :: fs)).length = f.print.length + (print fs).length := by
  rw [print, List.length_append]

theorem length_print_reverse (fs : List Field) : (print fs.reverse).length = (print fs).length := by
  induction fs with
  | nil => rfl
  | cons f fs ih =>
    rw [List.reverse_cons, length_print_append, ih, length_print_cons, length_print_cons, print,
      List.length_nil]
    omega

/-- How many bytes the open groups take that are written, with what stands in front of them, but without
their ends. -/
def OpenGroup.sizes {σ : Type} : List (OpenGroup σ) → Nat
  | [] => 0
  | opened :: outer =>
    (printKey opened.number 3).length + (print opened.before).length + sizes outer

/-- What is read in a step, the open groups and the bytes that are left take no more bytes together than
before the step. -/
theorem length_print_le_of_parseFields {σ : Type} {framing : σ → Nat → Framing σ}
    (hplain : ∀ shape number, (framing shape number).delimited = false) {fuel : Nat}
    {outer : List (OpenGroup σ)} {shape : σ} {done : List Field} {bs : Bytes} {fs : List Field}
    (h : parseFields framing fuel outer shape done bs = some fs) :
    (print fs).length ≤ OpenGroup.sizes outer + (print done).length + bs.length := by
  have hstep {outer : List (OpenGroup σ)} {shape : σ} {bs rest : Bytes} {token : Token}
      (h : readToken (nextWireType framing outer shape) bs = some (token, rest)) :
      token.size + rest.length ≤ bs.length :=
    size_le_of_readToken (nextWireType_eq hplain outer shape) h
  fun_induction parseFields framing fuel outer shape done bs with
  | case1 fuel shape done =>
    cases h
    rw [length_print_reverse]
    omega
  | case5 fuel outer shape done b bs f rest htoken ih =>
    have hsize := hstep htoken
    have hrest := ih h
    rw [length_print_cons] at hrest
    rw [Token.size] at hsize
    omega
  | case6 fuel outer shape done b bs number rest htoken ih =>
    have hsize := hstep htoken
    have hrest := ih h
    rw [OpenGroup.sizes, print, List.length_nil] at hrest
    rw [Token.size] at hsize
    dsimp only at hrest
    omega
  | case8 fuel shape done b bs rest opened outer htoken ih =>
    have hsize := hstep htoken
    have hrest := ih h
    rw [length_print_cons, Field.print, List.length_append, List.length_append,
      length_print_reverse] at hrest
    rw [Token.size] at hsize
    rw [OpenGroup.sizes]
    omega
  | _ => cases h

/-- **What was read is written in no more bytes than it was read from.** -/
theorem length_print_le_of_parse {bs : Bytes} {fs : List Field} (h : parse bs = some fs) :
    (print fs).length ≤ bs.length := by
  have hle := length_print_le_of_parseFields (fun _ _ => rfl) h
  rwa [OpenGroup.sizes, print, List.length_nil, Nat.zero_add] at hle

/-! ## Payloads -/

theorem length_lt_print_bytes (n : Nat) (payload : Bytes) :
    payload.length < (Field.bytes n payload).print.length := by
  have hkey := length_printKey_pos n 2
  simp only [Field.print, List.length_append]
  omega

theorem length_print_bytes_mono {n : Nat} {p q : Bytes} (hle : p.length ≤ q.length)
    (h : q.length < 0x10000000000000000) :
    (Field.bytes n p).print.length ≤ (Field.bytes n q).print.length := by
  have hdigits := length_encodeDigits_mono 9 hle
  have hp : (UInt64.ofNat p.length).toNat = p.length :=
    UInt64.toNat_ofNat_of_lt' (Nat.lt_of_le_of_lt hle h)
  have hq : (UInt64.ofNat q.length).toNat = q.length := UInt64.toNat_ofNat_of_lt' h
  simp only [Field.print, List.length_append, encodeVarint, hp, hq]
  omega

/-- Two payloads take no more bytes together than apart. -/
theorem length_print_bytes_append {n : Nat} {p q : Bytes}
    (h : (p ++ q).length < 0x10000000000000000) :
    (Field.bytes n (p ++ q)).print.length ≤
      (Field.bytes n p).print.length + (Field.bytes n q).print.length := by
  have hdigits := length_encodeDigits_add 9 p.length q.length
  rw [List.length_append] at h
  have hvalue {m : Nat} (hm : m ≤ p.length + q.length) : (UInt64.ofNat m).toNat = m :=
    UInt64.toNat_ofNat_of_lt' (Nat.lt_of_le_of_lt hm h)
  simp only [Field.print, List.length_append, encodeVarint, hvalue (Nat.le_refl _),
    hvalue (Nat.le_add_right ..), hvalue (Nat.le_add_left ..)]
  omega

/-! ## Fields by number -/

/-- How many bytes the fields with some number take. -/
def lengthAt (number : Nat) (fs : List Field) : Nat := (print (fs.filter (·.number = number))).length

theorem length_print_le_lengthAt {f : Field} {fs : List Field} (h : f ∈ fs) :
    f.print.length ≤ lengthAt f.number fs :=
  length_print_le_of_mem (List.mem_filter.2 ⟨h, decide_eq_true rfl⟩)

theorem lengthAt_cons (number : Nat) (f : Field) (fs : List Field) :
    lengthAt number (f :: fs) =
      (if f.number = number then f.print.length else 0) + lengthAt number fs := by
  rw [lengthAt, List.filter_cons]
  by_cases h : f.number = number
  · rw [if_pos (decide_eq_true h), if_pos h, length_print_cons, lengthAt]
  · rw [if_neg (by simpa using h), if_neg h, Nat.zero_add, lengthAt]

theorem lengthAt_add_others (number : Nat) (fs : List Field) :
    lengthAt number fs + (print (fs.filter (·.number ≠ number))).length = (print fs).length := by
  induction fs with
  | nil => rfl
  | cons f fs ih =>
    rw [lengthAt_cons, List.filter_cons, length_print_cons]
    by_cases h : f.number = number
    · rw [if_pos h, if_neg (by simpa using h)]
      omega
    · rw [if_neg h, if_pos (decide_eq_true h), length_print_cons]
      omega

theorem lengthAt_others {number other : Nat} (h : other ≠ number) (fs : List Field) :
    lengthAt other (fs.filter (·.number ≠ number)) = lengthAt other fs := by
  rw [lengthAt, List.filter_filter, lengthAt]
  congr 2
  refine List.filter_congr fun f _ => ?_
  by_cases hf : f.number = other <;> simp [hf, h]

/-- Fields with different numbers are different fields. -/
theorem sum_lengthAt_le (numbers : List Nat) (h : numbers.Nodup) (fs : List Field) :
    (numbers.map fun number => lengthAt number fs).sum ≤ (print fs).length := by
  induction numbers generalizing fs with
  | nil => exact Nat.zero_le _
  | cons number numbers ih =>
    obtain ⟨hnumber, hnumbers⟩ := List.nodup_cons.1 h
    have hothers : (numbers.map fun other => lengthAt other fs) =
        numbers.map fun other => lengthAt other (fs.filter (·.number ≠ number)) :=
      List.map_congr_left fun other hother =>
        (lengthAt_others (ne_of_mem_of_not_mem hother hnumber) fs).symm
    have hrest := ih hnumbers (fs.filter (·.number ≠ number))
    have htotal := lengthAt_add_others number fs
    rw [List.map_cons, List.sum_cons, hothers]
    omega

/-- A field holds one message, or none that counts. -/
theorem messages_singleton (number : Nat) (f : Field) :
    messages number [f] = [] ∨ ∃ payload inner, f = .bytes number payload ∧ parse payload = some inner ∧
      messages number [f] = [inner] := by
  cases f with
  | bytes n payload =>
    by_cases hn : n = number
    · cases hparse : parse payload with
      | none => exact .inl (by simp [messages, payloads, hparse])
      | some inner => exact .inr ⟨payload, inner, hn ▸ rfl, hparse, by simp [messages, payloads, hn, hparse]⟩
    · exact .inl (by simp [messages, payloads, hn])
  | _ => exact .inl rfl

/-- Messages that are merged take no more bytes than the payloads that they were read from. -/
theorem length_print_messages_le {number : Nat} {fs : List Field} (h : messages number fs ≠ [])
    (hlength : (print fs).length < 0x10000000000000000) :
    (Field.bytes number (print (messages number fs).flatten)).print.length ≤ lengthAt number fs := by
  induction fs with
  | nil => exact absurd rfl h
  | cons f fs ih =>
    have hsplit : messages number (f :: fs) = messages number [f] ++ messages number fs :=
      messages_append number [f] fs
    have htotal := lengthAt_add_others number fs
    rw [length_print_cons] at hlength
    rw [lengthAt_cons]
    rcases messages_singleton number f with hf | ⟨payload, inner, rfl, hparse, hf⟩
    · rw [hsplit, hf, List.nil_append] at h ⊢
      exact Nat.le_trans (ih h (by omega)) (Nat.le_add_left ..)
    · have hinner := length_print_le_of_parse hparse
      have hpayload := length_lt_print_bytes number payload
      have hfirst : (Field.bytes number (print inner)).print.length ≤
          (Field.bytes number payload).print.length := length_print_bytes_mono hinner (by omega)
      rw [hsplit, hf, Field.number, if_pos rfl, List.singleton_append, List.flatten_cons, print_append]
      by_cases hnone : messages number fs = []
      · rw [hnone, List.flatten_nil, print, List.append_nil]
        omega
      · have hrest := ih hnone (by omega)
        have hmerged := length_lt_print_bytes number (print (messages number fs).flatten)
        have hboth := length_print_bytes_append (n := number) (p := print inner)
          (q := print (messages number fs).flatten) (by rw [List.length_append]; omega)
        omega

theorem length_print_message?_le {number : Nat} {fs merged : List Field}
    (h : message? number fs = some merged) (hlength : (print fs).length < 0x10000000000000000) :
    (Field.bytes number (print merged)).print.length ≤ lengthAt number fs := by
  rw [message?] at h
  split at h
  · cases h
  · rename_i hsome
    cases h
    exact length_print_messages_le hsome hlength

end ProtoModels.Wire
