import Kaikai.Hash
import Kaikai.SecureHash

namespace Kaikai.Hash

open Kaikai.SecureHash

variable {w : Nat}

/-- The `Int` that holds a word. -/
def held (x : BitVec w) : Word := x.setWidth 64

@[simp] theorem held_word (x : Word) : held x = x := BitVec.setWidth_eq x

theorem getLsbD_held (x : BitVec w) (i : Nat) :
    (held x).getLsbD i = (decide (i < 64) && x.getLsbD i) :=
  BitVec.getLsbD_setWidth ..

theorem getLsbD_ones {n : Nat} (hn : n ≤ 64) (i : Nat) :
    (BitVec.ofNat 64 (2 ^ n - 1)).getLsbD i = decide (i < n) := by
  rw [BitVec.getLsbD_ofNat, Nat.testBit_two_pow_sub_one, ← Bool.decide_and, decide_eq_decide]
  omega

theorem and_ones (n : Nat) (hn : n ≤ 64) (y : Word) :
    y &&& BitVec.ofNat 64 (2 ^ n - 1) = held (y.setWidth n) := by
  apply BitVec.eq_of_getLsbD_eq
  intro i _
  rw [BitVec.getLsbD_and, getLsbD_ones hn, getLsbD_held, BitVec.getLsbD_setWidth]
  grind

theorem shaMask32_eq (y : Word) : shaMask32 y = held (y.setWidth 32) :=
  and_ones 32 (by decide) y

theorem shaLo32_eq (y : Word) : shaLo32 y = held (y.setWidth 32) :=
  and_ones 32 (by decide) y

theorem shaHi32_eq (y : Word) : shaHi32 y = held ((y >>> 32).setWidth 32) := by
  apply BitVec.eq_of_getLsbD_eq
  intro i _
  rw [shaHi32, bitUshr, getLsbD_held, BitVec.getLsbD_setWidth]
  simp only [BitVec.getLsbD_ushiftRight]
  grind

theorem held_inj (hw : w ≤ 64) (x : BitVec w) : (held x).setWidth w = x := by
  rw [held, BitVec.setWidth_setWidth_of_le _ hw, BitVec.setWidth_eq]

theorem shaCh_held (x y z : BitVec w) : shaCh (held x) (held y) (held z) = held (ch x y z) := by
  apply BitVec.eq_of_getLsbD_eq
  intro i _
  simp only [shaCh, ch, getLsbD_held, BitVec.getLsbD_xor, BitVec.getLsbD_and, BitVec.getLsbD_not]
  grind

theorem shaMaj_held (x y z : BitVec w) : shaMaj (held x) (held y) (held z) = held (maj x y z) := by
  simp only [shaMaj, maj, held, BitVec.setWidth_xor, BitVec.setWidth_and]

theorem held_xor (x y : BitVec w) : held x ^^^ held y = held (x ^^^ y) :=
  BitVec.setWidth_xor.symm

theorem shaRotr32_held {n : Nat} (h0 : 0 < n) (h : n < 32) (x : BitVec 32) :
    shaRotr32 (held x) n = held (x.rotateRight n) := by
  rw [shaRotr32, shaMask32_eq, bitUshr, bitShl, Nat.mod_eq_of_lt (by omega),
    Nat.mod_eq_of_lt (by omega)]
  apply BitVec.eq_of_getLsbD_eq
  intro i _
  simp only [BitVec.getLsbD_or, getLsbD_held, BitVec.getLsbD_setWidth, BitVec.getLsbD_ushiftRight,
    BitVec.getLsbD_shiftLeft, BitVec.getLsbD_rotateRight, Nat.mod_eq_of_lt h]
  grind

theorem shaShr32_held {n : Nat} (h : n < 64) (x : BitVec 32) :
    shaShr32 (held x) n = held (x >>> n) := by
  rw [shaShr32, bitUshr, Nat.mod_eq_of_lt h]
  apply BitVec.eq_of_getLsbD_eq
  intro i _
  simp only [getLsbD_held, BitVec.getLsbD_ushiftRight]
  grind

theorem shaMask32_add (x y : Word) :
    shaMask32 (x + y) = held (x.setWidth 32 + y.setWidth 32) := by
  rw [shaMask32_eq, BitVec.setWidth_add _ _ (by decide)]

theorem shaCombine64_held (hi lo : BitVec 32) : shaCombine64 (held hi) (held lo) = hi ++ lo := by
  have htop (i : Nat) : (held hi &&& 2147483648).getLsbD i = (decide (i = 31) && hi.getLsbD 31) := by
    rw [show (2147483648 : Word) = BitVec.twoPow 64 31 from rfl, BitVec.getLsbD_and,
      BitVec.getLsbD_twoPow, getLsbD_held]
    grind
  have hzero : held hi &&& 2147483648 = 0 ↔ hi.getLsbD 31 = false := by
    constructor
    · intro h
      have := htop 31
      rw [h] at this
      simpa using this.symm
    · intro h
      apply BitVec.eq_of_getLsbD_eq
      intro i _
      rw [htop, h]
      simp
  have hrest : held hi &&& 2147483647 = held ((held hi).setWidth 31) := and_ones 31 (by decide) _
  have hmid (i : Nat) : (bitShl (held hi &&& 2147483647) 32 ||| held lo).getLsbD i =
      if i < 32 then lo.getLsbD i else decide (i < 63) && hi.getLsbD (i - 32) := by
    rw [hrest, bitShl, BitVec.getLsbD_or, BitVec.getLsbD_shiftLeft]
    simp only [getLsbD_held, BitVec.getLsbD_setWidth]
    grind
  apply BitVec.eq_of_getLsbD_eq
  intro i _
  rw [shaCombine64, BitVec.getLsbD_append]
  simp only [hzero]
  split
  · rw [hmid]
    grind
  · rw [BitVec.getLsbD_or, hmid, show shaTop64 = BitVec.twoPow 64 63 from rfl,
      BitVec.getLsbD_twoPow]
    grind

theorem shaAdd64_eq (a b : Word) : shaAdd64 a b = a + b := by
  rw [shaAdd64]
  simp only [shaLo32_eq, shaHi32_eq, shaCombine64_held, bitUshr]
  apply BitVec.eq_of_toNat_eq
  rw [BitVec.toNat_append, ← Nat.shiftLeft_add_eq_or_of_lt (BitVec.isLt _)]
  simp only [held, BitVec.toNat_add, BitVec.toNat_setWidth, BitVec.toNat_ushiftRight,
    Nat.shiftLeft_eq, Nat.shiftRight_eq_div_pow, Nat.reduceMod]
  omega

theorem shaAdd64x4_eq (a b c d : Word) : shaAdd64x4 a b c d = a + b + c + d := by
  rw [shaAdd64x4, shaAdd64_eq, shaAdd64_eq, shaAdd64_eq, ← BitVec.add_assoc]

theorem shaAdd64x5_eq (a b c d e : Word) : shaAdd64x5 a b c d e = a + b + c + d + e := by
  rw [shaAdd64x5, shaAdd64_eq, shaAdd64x4_eq]

theorem shaShl64_eq {n : Nat} (h0 : 0 < n) (h : n < 64) (x : Word) : shaShl64 x n = x <<< n := by
  have hnil : (0 : Word) = held (0 : BitVec 32) := rfl
  rw [shaShl64, if_neg (by omega)]
  apply BitVec.eq_of_getLsbD_eq
  intro i _
  rw [BitVec.getLsbD_shiftLeft]
  split
  · next hn =>
      simp only [shaLo32_eq, shaHi32_eq, shaCombine64_held, bitShl, bitUshr, Nat.mod_eq_of_lt h,
        Nat.mod_eq_of_lt (show 32 - n < 64 by omega), BitVec.getLsbD_append, getLsbD_held,
        BitVec.getLsbD_setWidth, BitVec.getLsbD_or, BitVec.getLsbD_shiftLeft,
        BitVec.getLsbD_ushiftRight]
      grind
  split
  · rw [hnil, shaLo32_eq, shaCombine64_held, BitVec.getLsbD_append, BitVec.getLsbD_setWidth]
    simp only [BitVec.ofNat_eq_ofNat, BitVec.getLsbD_zero]
    grind
  · rw [hnil]
    simp only [shaLo32_eq, shaCombine64_held, bitShl, Nat.mod_eq_of_lt (show n - 32 < 64 by omega),
      BitVec.getLsbD_append, getLsbD_held, BitVec.getLsbD_setWidth, BitVec.getLsbD_shiftLeft,
      BitVec.ofNat_eq_ofNat, BitVec.getLsbD_zero]
    grind

theorem shaRotr64_eq {n : Nat} (h0 : 0 < n) (h : n < 64) (x : Word) :
    shaRotr64 x n = x.rotateRight n := by
  rw [shaRotr64, shaShl64_eq (by omega) (by omega), shaShr64, bitUshr, BitVec.rotateRight_def,
    Nat.mod_eq_of_lt h]

theorem bitUshr_zero (x : Word) : bitUshr x 0 = x := BitVec.ushiftRight_zero x

/-- Byte `i` of a word, counted from the low end. -/
def byteOf (x : BitVec w) (i : Nat) : BitVec 8 := x.extractLsb' (8 * i) 8

theorem joined_held (b0 b1 b2 b3 : BitVec 8) :
    (bitShl (held b0) 24 ||| bitShl (held b1) 16) ||| (bitShl (held b2) 8 ||| held b3) =
      held (b0 ++ b1 ++ b2 ++ b3) := by
  apply BitVec.eq_of_getLsbD_eq
  intro i _
  simp only [bitShl, BitVec.getLsbD_or, BitVec.getLsbD_shiftLeft, getLsbD_held,
    BitVec.getLsbD_append]
  grind

theorem and_255 (y : Word) : y &&& 255 = held (y.setWidth 8) := and_ones 8 (by decide) y

theorem bitUshr_and_255 (i : Nat) {n : Nat} (hn : 8 * i = n) (hi : i < 8) (x : BitVec w) :
    bitUshr (held x) n &&& 255 = held (byteOf x i) := by
  rw [and_255, bitUshr, Nat.mod_eq_of_lt (by omega)]
  apply BitVec.eq_of_getLsbD_eq
  intro j _
  simp only [byteOf, getLsbD_held, BitVec.getLsbD_setWidth, BitVec.getLsbD_ushiftRight,
    BitVec.getLsbD_extractLsb']
  grind

theorem byteOf_setWidth {i : Nat} (hi : i < 4) (x : Word) :
    byteOf (x.setWidth 32) i = byteOf x i := by
  apply BitVec.eq_of_getLsbD_eq
  intro j _
  simp only [byteOf, BitVec.getLsbD_setWidth, BitVec.getLsbD_extractLsb']
  grind

theorem byteOf_ushiftRight (x : Word) (i : Nat) : byteOf (x >>> 32) i = byteOf x (i + 4) := by
  apply BitVec.eq_of_getLsbD_eq
  intro j _
  simp only [byteOf, BitVec.getLsbD_extractLsb', BitVec.getLsbD_ushiftRight]
  grind

/-- The bytes of a word, the high one first. -/
def bytes32 (x : BitVec 32) : List (BitVec 8) := [byteOf x 3, byteOf x 2, byteOf x 1, byteOf x 0]

def bytes64 (x : Word) : List (BitVec 8) :=
  [byteOf x 7, byteOf x 6, byteOf x 5, byteOf x 4, byteOf x 3, byteOf x 2, byteOf x 1, byteOf x 0]

theorem bitString_bytes32 (x : BitVec 32) : bitString (bytes32 x) = bitsOf x := by
  have h : x = byteOf x 3 ++ byteOf x 2 ++ byteOf x 1 ++ byteOf x 0 := by
    apply BitVec.eq_of_getLsbD_eq
    intro i _
    simp only [byteOf, BitVec.getLsbD_append, BitVec.getLsbD_extractLsb']
    grind
  conv_rhs => rw [h]
  simp only [bytes32, bitsOf_append, bitString_cons, bitString_nil, List.append_nil,
    List.append_assoc]

theorem bitString_bytes64 (x : Word) : bitString (bytes64 x) = bitsOf x := by
  have h : x = (x >>> 32).setWidth 32 ++ x.setWidth 32 := by
    apply BitVec.eq_of_getLsbD_eq
    intro i _
    simp only [BitVec.getLsbD_append, BitVec.getLsbD_setWidth, BitVec.getLsbD_ushiftRight]
    grind
  have hbytes : bytes64 x = bytes32 ((x >>> 32).setWidth 32) ++ bytes32 (x.setWidth 32) := by
    simp [bytes64, bytes32, byteOf_setWidth, byteOf_ushiftRight]
  conv_rhs => rw [h, bitsOf_append]
  rw [hbytes, bitString_append, bitString_bytes32, bitString_bytes32]

theorem held_srem (b : BitVec 8) : (held b).srem 256 = held b := by
  have hlt : (held b).toNat < 256 := by
    rw [held, BitVec.toNat_setWidth]
    omega
  have hmsb : (held b).msb = false := by
    rw [BitVec.msb_eq_false_iff_two_mul_lt]
    omega
  rw [BitVec.srem_eq, hmsb, show (256 : Word).msb = false from rfl]
  apply BitVec.eq_of_toNat_eq
  rw [BitVec.toNat_umod, show (256 : Word).toNat = 256 from rfl, Nat.mod_eq_of_lt hlt]

theorem shaWord32ToBytesBe_held (x : BitVec 32) (accRev : List Word) :
    shaWord32ToBytesBe (held x) accRev = ((bytes32 x).map held).reverse ++ accRev := by
  have htop : shaMask32 (bitUshr (held x) 24) = held (byteOf x 3) := by
    rw [shaMask32_eq, bitUshr, Nat.mod_eq_of_lt (by decide)]
    apply BitVec.eq_of_getLsbD_eq
    intro j _
    simp only [byteOf, getLsbD_held, BitVec.getLsbD_setWidth, BitVec.getLsbD_ushiftRight,
      BitVec.getLsbD_extractLsb']
    grind
  have h2 := bitUshr_and_255 2 (n := 16) rfl (by decide) x
  have h1 := bitUshr_and_255 1 (n := 8) rfl (by decide) x
  have h0 := bitUshr_and_255 0 (n := 0) rfl (by decide) x
  rw [bitUshr_zero] at h0
  rw [shaWord32ToBytesBe, htop, held_srem, h2, h1, h0]
  rfl

theorem shaLengthBytesBe_eq (x : Word) : shaLengthBytesBe x = (bytes64 x).map held := by
  have h (i n : Nat) (hn : 8 * i = n) (hi : i < 8) : bitUshr x n &&& 255 = held (byteOf x i) := by
    have := bitUshr_and_255 i hn hi x
    rwa [held_word] at this
  have h0 := h 0 0 rfl (by decide)
  rw [bitUshr_zero] at h0
  rw [shaLengthBytesBe, h 7 56 rfl (by decide), h 6 48 rfl (by decide), h 5 40 rfl (by decide),
    h 4 32 rfl (by decide), h 3 24 rfl (by decide), h 2 16 rfl (by decide), h 1 8 rfl (by decide), h0]
  rfl

theorem shaWord64ToBytesBe_eq (x : Word) (accRev : List Word) :
    shaWord64ToBytesBe x accRev = ((bytes64 x).map held).reverse ++ accRev := by
  have h (i n : Nat) (hn : 8 * i = n) (hi : i < 4) (y : BitVec 32) :
      bitUshr (held y) n &&& 255 = held (byteOf y i) :=
    bitUshr_and_255 i hn (by omega) y
  have h0 (y : BitVec 32) : held y &&& 255 = held (byteOf y 0) := by
    have := h 0 0 rfl (by decide) y
    rwa [bitUshr_zero] at this
  rw [shaWord64ToBytesBe, shaHi32_eq, shaLo32_eq]
  simp only [h 3 24 rfl (by decide), h 2 16 rfl (by decide), h 1 8 rfl (by decide), h0,
    byteOf_setWidth (show 3 < 4 by decide), byteOf_setWidth (show 2 < 4 by decide),
    byteOf_setWidth (show 1 < 4 by decide), byteOf_setWidth (show 0 < 4 by decide),
    byteOf_ushiftRight]
  rfl

theorem shaBytesToWords32Loop_held (n : Nat) (bs : List (BitVec 8)) (h : bs.length = 4 * n)
    (accRev : List Word) : shaBytesToWords32Loop (bs.map held) accRev =
      accRev.reverse ++ ((List.range n).map (blockWord 32 (bitString bs))).map held := by
  induction n generalizing bs accRev with
  | zero =>
      rw [List.eq_nil_of_length_eq_zero h]
      simp [shaBytesToWords32Loop]
  | succ n ih =>
      rcases bs with _ | ⟨b0, _ | ⟨b1, _ | ⟨b2, _ | ⟨b3, rest⟩⟩⟩⟩
      any_goals
        simp only [List.length_cons, List.length_nil] at h
        omega
      have hbits : bitString (b0 :: b1 :: b2 :: b3 :: rest) =
          bitsOf (b0 ++ b1 ++ b2 ++ b3) ++ bitString rest := by
        simp only [bitString_cons, bitsOf_append, List.append_assoc]
      have hrest : rest.length = 4 * n := by
        simp only [List.length_cons] at h
        omega
      simp only [List.map_cons]
      rw [hbits, blockWords_append (length_bitsOf _), wordOf_bitsOf, shaBytesToWords32Loop,
        joined_held, ih rest hrest, List.reverse_cons, List.append_assoc]
      rfl

theorem shaBytesToWords64Loop_held (n : Nat) (bs : List (BitVec 8)) (h : bs.length = 8 * n)
    (accRev : List Word) : shaBytesToWords64Loop (bs.map held) accRev =
      accRev.reverse ++ ((List.range n).map (blockWord 64 (bitString bs))).map held := by
  induction n generalizing bs accRev with
  | zero =>
      rw [List.eq_nil_of_length_eq_zero h]
      simp [shaBytesToWords64Loop]
  | succ n ih =>
      rcases bs with _ | ⟨b0, _ | ⟨b1, _ | ⟨b2, _ | ⟨b3, bs⟩⟩⟩⟩
      any_goals
        simp only [List.length_cons, List.length_nil] at h
        omega
      rcases bs with _ | ⟨b4, _ | ⟨b5, _ | ⟨b6, _ | ⟨b7, rest⟩⟩⟩⟩
      any_goals
        simp only [List.length_cons, List.length_nil] at h
        omega
      have hbits : bitString (b0 :: b1 :: b2 :: b3 :: b4 :: b5 :: b6 :: b7 :: rest) =
          bitsOf (b0 ++ b1 ++ b2 ++ b3 ++ (b4 ++ b5 ++ b6 ++ b7)) ++ bitString rest := by
        simp only [bitString_cons, bitsOf_append, List.append_assoc]
      have hrest : rest.length = 8 * n := by
        simp only [List.length_cons] at h
        omega
      simp only [List.map_cons]
      rw [hbits, blockWords_append (length_bitsOf _), wordOf_bitsOf, shaBytesToWords64Loop,
        joined_held, joined_held, shaCombine64_held, ih rest hrest, List.reverse_cons,
        List.append_assoc]
      exact congrArg (fun y => accRev.reverse ++ (y :: _)) (held_word _).symm

end Kaikai.Hash
