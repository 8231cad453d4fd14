/-!
# Variable-length numbers

Numbers below `2 ^ 64` in base 128, least significant digit first; every byte but the last has its
highest bit set. A number has at most ten bytes, and the tenth holds the one bit that is left.
`readVarint_encodeVarint` reads back what was written, in front of any bytes.
-/
namespace ProtoModels.Wire

abbrev Bytes := List UInt8

/-- The digits of a number, with at most `count + 1` bytes. -/
def encodeDigits : Nat → Nat → Bytes
  | 0, n => [UInt8.ofNat n]
  | count + 1, n =>
    if n < 128 then [UInt8.ofNat n] else UInt8.ofNat (n % 128 + 128) :: encodeDigits count (n / 128)

def encodeVarint (n : UInt64) : Bytes := encodeDigits 9 n.toNat

/-- Reads a number of at most `count + 1` bytes, and the bytes behind it. -/
def readDigits : Nat → Bytes → Option (Nat × Bytes)
  | _, [] => none
  | 0, b :: rest => if b.toNat < 2 then some (b.toNat, rest) else none
  | count + 1, b :: rest =>
    if b.toNat < 128 then some (b.toNat, rest)
    else (readDigits count rest).map fun (n, after) => (b.toNat - 128 + 128 * n, after)

def readVarint (bs : Bytes) : Option (UInt64 × Bytes) :=
  (readDigits 9 bs).map fun (n, rest) => (UInt64.ofNat n, rest)

/-- The least number for which `count + 1` bytes are too few. -/
def digitsLimit : Nat → Nat
  | 0 => 2
  | count + 1 => 128 * digitsLimit count

theorem readDigits_encodeDigits (count n : Nat) (rest : Bytes) (h : n < digitsLimit count) :
    readDigits count (encodeDigits count n ++ rest) = some (n, rest) := by
  induction count generalizing n with
  | zero =>
    have h : n < 2 := h
    have hn : (UInt8.ofNat n).toNat = n := by
      rw [UInt8.toNat_ofNat']; omega
    simp only [encodeDigits, List.cons_append, List.nil_append, readDigits, hn]
    rw [if_pos (by omega)]
  | succ count ih =>
    unfold encodeDigits
    split
    · have hn : (UInt8.ofNat n).toNat = n := by rw [UInt8.toNat_ofNat']; omega
      simp [readDigits, *]
    · have hn : (UInt8.ofNat (n % 128 + 128)).toNat = n % 128 + 128 := by
        rw [UInt8.toNat_ofNat']; omega
      have hlt : n / 128 < digitsLimit count := by rw [digitsLimit] at h; omega
      simp only [List.cons_append, readDigits, hn, ih _ hlt]
      rw [if_neg (by omega)]
      simp only [Option.map_some, Option.some.injEq, Prod.mk.injEq, and_true]
      omega

theorem readVarint_encodeVarint (n : UInt64) (rest : Bytes) :
    readVarint (encodeVarint n ++ rest) = some (n, rest) := by
  have hlimit : digitsLimit 9 = 0x10000000000000000 := rfl
  have h := readDigits_encodeDigits 9 n.toNat rest (by have := n.toNat_lt; omega)
  simp [readVarint, encodeVarint, h]

/-- A number that was read used up at least one byte. -/
theorem length_lt_of_readDigits {count n : Nat} {bs rest : Bytes}
    (h : readDigits count bs = some (n, rest)) : rest.length < bs.length := by
  induction bs generalizing count n with
  | nil => cases count <;> simp [readDigits] at h
  | cons b bs ih =>
    cases count with
    | zero =>
      simp only [readDigits] at h
      split at h <;> simp_all
    | succ count =>
      simp only [readDigits] at h
      split at h
      · simp_all
      · obtain ⟨⟨m, after⟩, hm, heq⟩ := Option.map_eq_some_iff.1 h
        obtain ⟨_, rfl⟩ := Prod.mk.inj heq
        exact Nat.lt_succ_of_lt (ih hm)

theorem length_lt_of_readVarint {n : UInt64} {bs rest : Bytes}
    (h : readVarint bs = some (n, rest)) : rest.length < bs.length := by
  obtain ⟨⟨m, after⟩, hm, heq⟩ := Option.map_eq_some_iff.1 h
  obtain ⟨_, rfl⟩ := Prod.mk.inj heq
  exact length_lt_of_readDigits hm

/-- All numbers of a packed field. `fuel` bounds how many there may be. -/
def readVarints : Nat → Bytes → Option (List UInt64)
  | _, [] => some []
  | 0, _ :: _ => none
  | fuel + 1, bs => do
    let (n, rest) ← readVarint bs
    let more ← readVarints fuel rest
    some (n :: more)

/-- The numbers that a packed payload consists of. -/
def packedVarints? (payload : Bytes) : Option (List UInt64) := readVarints payload.length payload

/-- The low 32 bits of a number, as a signed number. -/
def toInt32 (n : UInt64) : Int :=
  let low : Nat := n.toNat % 0x100000000
  if low < 0x80000000 then low else (low : Int) - 0x100000000

/-- The bits of a number as a signed number. -/
def toInt64 (n : UInt64) : Int64 := n.toInt64

end ProtoModels.Wire
