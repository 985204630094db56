namespace Kaikai

abbrev Str := List UInt8

namespace Str

/-- `char_at` reads a byte as the character of that code. -/
def charAt (s : Str) (i : Nat) : Option Char := s[i]?.map fun b => Char.ofNat b.toNat

/-- `string_slice`: the `len` bytes from `start`, both clamped to the string. -/
def stringSlice (s : Str) (start len : Int) : Str := (s.drop start.toNat).take len.toNat

/-- `int_to_byte_string`: the low eight bits. -/
def intToByteString (n : Int) : Str := [UInt8.ofNat (n % 256).toNat]

/-- The bytes of an ASCII text. -/
def ascii (text : String) : Str := text.toList.map fun c => c.toNat.toUInt8

/-- The width that a lead byte announces; a malformed one stands alone. -/
def utf8SeqLen (b0 : UInt8) : Nat :=
  if b0 < 0x80 then 1
  else if b0 &&& 0xE0 = 0xC0 then 2
  else if b0 &&& 0xF0 = 0xE0 then 3
  else if b0 &&& 0xF8 = 0xF0 then 4
  else 1

/-- The width of the sequence at `off`, clamped to the bytes present, and zero
outside the string. -/
def stringCpLen (s : Str) (off : Nat) : Nat :=
  match s.drop off with
  | [] => 0
  | b0 :: rest => min (utf8SeqLen b0) (rest.length + 1)

/-- The bits that a lead byte contributes, with the number of further bytes. -/
def leadBits (b0 : UInt8) : Nat × Nat :=
  if b0 &&& 0xE0 = 0xC0 then ((b0 &&& 0x1F).toNat, 1)
  else if b0 &&& 0xF0 = 0xE0 then ((b0 &&& 0x0F).toNat, 2)
  else if b0 &&& 0xF8 = 0xF0 then ((b0 &&& 0x07).toNat, 3)
  else (b0.toNat, 0)

/-- Six more bits from each of at most `extra` further bytes. -/
def gather (v : Nat) : Nat → List UInt8 → Nat
  | extra + 1, b :: rest => gather (v * 64 + (b &&& 0x3F).toNat) extra rest
  | _, _ => v

/-- Values that are no codepoint are read as U+FFFD. -/
def scalarOrReplacement (v : Nat) : Nat :=
  if v > 0x10FFFF ∨ (v ≥ 0xD800 ∧ v ≤ 0xDFFF) then 0xFFFD else v

/-- The codepoint of the sequence at `off`, `none` outside the string (where the
runtime answers `-1`). -/
def stringCpAt (s : Str) (off : Nat) : Option Nat :=
  match s.drop off with
  | [] => none
  | b0 :: rest =>
      if b0 < 0x80 then some b0.toNat
      else some (scalarOrReplacement (gather (leadBits b0).1 (leadBits b0).2 rest))

theorem ascii_ofList (cs : List Char) :
    ascii (String.ofList cs) = cs.map fun c => c.toNat.toUInt8 := by
  rw [ascii, String.toList_ofList]

theorem toNat_ofByte (b : UInt8) : (Char.ofNat b.toNat).toNat = b.toNat := by
  have hvalid : b.toNat.isValidChar := Or.inl (Nat.lt_trans b.toNat_lt (by decide))
  rw [Char.ofNat, dif_pos hvalid]
  rfl

theorem ofByte_eq_iff {b : UInt8} {c : Char} : Char.ofNat b.toNat = c ↔ b.toNat = c.toNat := by
  constructor
  · rintro rfl
    exact (toNat_ofByte b).symm
  · intro h
    rw [h, Char.ofNat_toNat]

theorem stringCpLen_eq_zero_iff (s : Str) (off : Nat) :
    stringCpLen s off = 0 ↔ s.length ≤ off := by
  unfold stringCpLen
  split
  · next h => simpa using h
  · next b0 rest h =>
      have hlen : (s.drop off).length = rest.length + 1 := by rw [h, List.length_cons]
      have hseq : 0 < utf8SeqLen b0 := by
        unfold utf8SeqLen
        repeat' split
        all_goals omega
      rw [List.length_drop] at hlen
      omega

end Str

end Kaikai
