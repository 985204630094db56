import Mathlib.Data.List.Range
import Mathlib.Tactic.Ring

/-!
The secure hash standard FIPS 180-4 over bit strings, for any word width. The
two algorithms of the family that are used here differ in the width, the
constants and the rotation counts.
-/

namespace Kaikai.SecureHash

/-- The bits of a word, most significant first. -/
def bitsOf {w : Nat} (x : BitVec w) : List Bool := (List.range w).map x.getMsbD

/-- The number a bit string writes in binary. -/
def value (bits : List Bool) : Nat := bits.foldl (fun n b => 2 * n + b.toNat) 0

/-- The word a bit string writes. -/
def wordOf (w : Nat) (bits : List Bool) : BitVec w := BitVec.ofNat w (value bits)

/-- The whole blocks of length `n` at the front of a list, in order. -/
def blocks {α : Type} (n : Nat) (l : List α) : List (List α) :=
  (List.range (l.length / n)).map fun i => (l.drop (i * n)).take n

/-- The eight working variables, and the eight words of a hash value. -/
@[ext]
structure Working (w : Nat) where
  a : BitVec w
  b : BitVec w
  c : BitVec w
  d : BitVec w
  e : BitVec w
  f : BitVec w
  g : BitVec w
  h : BitVec w
  deriving DecidableEq, Repr

/-- What one algorithm of the family fixes. -/
structure Algorithm (w : Nat) where
  /-- One constant for each round. -/
  constants : List (BitVec w)
  initial : Working w
  bigSigma0 : BitVec w → BitVec w
  bigSigma1 : BitVec w → BitVec w
  smallSigma0 : BitVec w → BitVec w
  smallSigma1 : BitVec w → BitVec w

variable {w : Nat}

/-- Three rotations. -/
def bigSigma (i j k : Nat) (x : BitVec w) : BitVec w :=
  x.rotateRight i ^^^ x.rotateRight j ^^^ x.rotateRight k

/-- Two rotations and a shift. -/
def smallSigma (i j k : Nat) (x : BitVec w) : BitVec w :=
  x.rotateRight i ^^^ x.rotateRight j ^^^ x >>> k

def ch (x y z : BitVec w) : BitVec w := (x &&& y) ^^^ (~~~x &&& z)

def maj (x y z : BitVec w) : BitVec w := (x &&& y) ^^^ (x &&& z) ^^^ (y &&& z)

/-- How many zero bits follow the one bit of the padding. -/
def zeroCount (w len : Nat) : Nat := (14 * w + 16 * w - (len + 1) % (16 * w)) % (16 * w)

/-- The message, a one bit, zero bits, and the length in `2 * w` bits. -/
def pad (w : Nat) (m : List Bool) : List Bool :=
  m ++ true :: (List.replicate (zeroCount w m.length) false ++
    bitsOf (BitVec.ofNat (2 * w) m.length))

def blockWord (w : Nat) (block : List Bool) (t : Nat) : BitVec w :=
  wordOf w ((block.drop (t * w)).take w)

namespace Algorithm

variable (S : Algorithm w)

/-- The message schedule. -/
def schedule (block : List Bool) (t : Nat) : BitVec w :=
  if t < 16 then blockWord w block t
  else S.smallSigma1 (schedule block (t - 2)) + schedule block (t - 7) +
    S.smallSigma0 (schedule block (t - 15)) + schedule block (t - 16)
termination_by t

def round (s : Working w) (k x : BitVec w) : Working w :=
  let t1 := s.h + S.bigSigma1 s.e + ch s.e s.f s.g + k + x
  let t2 := S.bigSigma0 s.a + maj s.a s.b s.c
  ⟨t1 + t2, s.a, s.b, s.c, s.d + t1, s.e, s.f, s.g⟩

/-- All rounds, round `t` with constant `t` and schedule word `t`. -/
def rounds (s : Working w) (words : Nat → BitVec w) : Working w :=
  S.constants.zipIdx.foldl (fun s kt => S.round s kt.1 (words kt.2)) s

/-- The intermediate hash value after one more block. -/
def compress (s : Working w) (block : List Bool) : Working w :=
  let v := S.rounds s (S.schedule block)
  ⟨s.a + v.a, s.b + v.b, s.c + v.c, s.d + v.d, s.e + v.e, s.f + v.f, s.g + v.g, s.h + v.h⟩

/-- The hash value of a message. -/
def hash (m : List Bool) : Working w := (blocks (16 * w) (pad w m)).foldl S.compress S.initial

end Algorithm

/-- The words of a hash value, in order. -/
def Working.words (s : Working w) : List (BitVec w) := [s.a, s.b, s.c, s.d, s.e, s.f, s.g, s.h]

/-- The message digest: the eight words of the hash value, joined. -/
def Algorithm.digest (S : Algorithm w) (m : List Bool) : List Bool :=
  (S.hash m).words.flatMap bitsOf

def sha256 : Algorithm 32 where
  constants := [
    0x428a2f98, 0x71374491, 0xb5c0fbcf, 0xe9b5dba5, 0x3956c25b, 0x59f111f1,
    0x923f82a4, 0xab1c5ed5, 0xd807aa98, 0x12835b01, 0x243185be, 0x550c7dc3,
    0x72be5d74, 0x80deb1fe, 0x9bdc06a7, 0xc19bf174, 0xe49b69c1, 0xefbe4786,
    0x0fc19dc6, 0x240ca1cc, 0x2de92c6f, 0x4a7484aa, 0x5cb0a9dc, 0x76f988da,
    0x983e5152, 0xa831c66d, 0xb00327c8, 0xbf597fc7, 0xc6e00bf3, 0xd5a79147,
    0x06ca6351, 0x14292967, 0x27b70a85, 0x2e1b2138, 0x4d2c6dfc, 0x53380d13,
    0x650a7354, 0x766a0abb, 0x81c2c92e, 0x92722c85, 0xa2bfe8a1, 0xa81a664b,
    0xc24b8b70, 0xc76c51a3, 0xd192e819, 0xd6990624, 0xf40e3585, 0x106aa070,
    0x19a4c116, 0x1e376c08, 0x2748774c, 0x34b0bcb5, 0x391c0cb3, 0x4ed8aa4a,
    0x5b9cca4f, 0x682e6ff3, 0x748f82ee, 0x78a5636f, 0x84c87814, 0x8cc70208,
    0x90befffa, 0xa4506ceb, 0xbef9a3f7, 0xc67178f2]
  initial := ⟨0x6a09e667, 0xbb67ae85, 0x3c6ef372, 0xa54ff53a,
    0x510e527f, 0x9b05688c, 0x1f83d9ab, 0x5be0cd19⟩
  bigSigma0 := bigSigma 2 13 22
  bigSigma1 := bigSigma 6 11 25
  smallSigma0 := smallSigma 7 18 3
  smallSigma1 := smallSigma 17 19 10

def sha512 : Algorithm 64 where
  constants := [
    0x428a2f98d728ae22, 0x7137449123ef65cd, 0xb5c0fbcfec4d3b2f, 0xe9b5dba58189dbbc,
    0x3956c25bf348b538, 0x59f111f1b605d019, 0x923f82a4af194f9b, 0xab1c5ed5da6d8118,
    0xd807aa98a3030242, 0x12835b0145706fbe, 0x243185be4ee4b28c, 0x550c7dc3d5ffb4e2,
    0x72be5d74f27b896f, 0x80deb1fe3b1696b1, 0x9bdc06a725c71235, 0xc19bf174cf692694,
    0xe49b69c19ef14ad2, 0xefbe4786384f25e3, 0x0fc19dc68b8cd5b5, 0x240ca1cc77ac9c65,
    0x2de92c6f592b0275, 0x4a7484aa6ea6e483, 0x5cb0a9dcbd41fbd4, 0x76f988da831153b5,
    0x983e5152ee66dfab, 0xa831c66d2db43210, 0xb00327c898fb213f, 0xbf597fc7beef0ee4,
    0xc6e00bf33da88fc2, 0xd5a79147930aa725, 0x06ca6351e003826f, 0x142929670a0e6e70,
    0x27b70a8546d22ffc, 0x2e1b21385c26c926, 0x4d2c6dfc5ac42aed, 0x53380d139d95b3df,
    0x650a73548baf63de, 0x766a0abb3c77b2a8, 0x81c2c92e47edaee6, 0x92722c851482353b,
    0xa2bfe8a14cf10364, 0xa81a664bbc423001, 0xc24b8b70d0f89791, 0xc76c51a30654be30,
    0xd192e819d6ef5218, 0xd69906245565a910, 0xf40e35855771202a, 0x106aa07032bbd1b8,
    0x19a4c116b8d2d0c8, 0x1e376c085141ab53, 0x2748774cdf8eeb99, 0x34b0bcb5e19b48a8,
    0x391c0cb3c5c95a63, 0x4ed8aa4ae3418acb, 0x5b9cca4f7763e373, 0x682e6ff3d6b2b8a3,
    0x748f82ee5defb2fc, 0x78a5636f43172f60, 0x84c87814a1f0ab72, 0x8cc702081a6439ec,
    0x90befffa23631e28, 0xa4506cebde82bde9, 0xbef9a3f7b2c67915, 0xc67178f2e372532b,
    0xca273eceea26619c, 0xd186b8c721c0c207, 0xeada7dd6cde0eb1e, 0xf57d4f7fee6ed178,
    0x06f067aa72176fba, 0x0a637dc5a2c898a6, 0x113f9804bef90dae, 0x1b710b35131c471b,
    0x28db77f523047d84, 0x32caab7b40c72493, 0x3c9ebe0a15c9bebc, 0x431d67c49c100d4c,
    0x4cc5d4becb3e42b6, 0x597f299cfc657e2a, 0x5fcb6fab3ad6faec, 0x6c44198c4a475817]
  initial := ⟨0x6a09e667f3bcc908, 0xbb67ae8584caa73b, 0x3c6ef372fe94f82b, 0xa54ff53a5f1d36f1,
    0x510e527fade682d1, 0x9b05688c2b3e6c1f, 0x1f83d9abfb41bd6b, 0x5be0cd19137e2179⟩
  bigSigma0 := bigSigma 28 34 39
  bigSigma1 := bigSigma 14 18 41
  smallSigma0 := smallSigma 1 8 7
  smallSigma1 := smallSigma 19 61 6

theorem foldl_value (bits : List Bool) (n : Nat) :
    bits.foldl (fun n b => 2 * n + b.toNat) n = n * 2 ^ bits.length + value bits := by
  induction bits generalizing n with
  | nil => simp [value]
  | cons b bits ih =>
      rw [value, List.foldl_cons, List.foldl_cons, ih, ih, List.length_cons, pow_succ]
      ring

theorem value_cons (b : Bool) (bits : List Bool) :
    value (b :: bits) = b.toNat * 2 ^ bits.length + value bits := by
  rw [value, List.foldl_cons, foldl_value]
  simp

@[simp] theorem length_bitsOf (x : BitVec w) : (bitsOf x).length = w := by
  simp [bitsOf]

theorem bitsOf_append {v : Nat} (x : BitVec v) (y : BitVec w) :
    bitsOf (x ++ y) = bitsOf x ++ bitsOf y := by
  rw [bitsOf, List.range_add, List.map_append, List.map_map]
  congr 1
  · apply List.map_congr_left
    intro i hi
    rw [BitVec.getMsbD_append, if_neg (by simpa using hi)]
  · apply List.map_congr_left
    intro i _
    simp [BitVec.getMsbD_append]

theorem bitsOf_cons (b : Bool) (x : BitVec w) : bitsOf (BitVec.cons b x) = b :: bitsOf x := by
  rw [bitsOf, List.range_succ_eq_map, List.map_cons, List.map_map]
  congr 1
  · simp [BitVec.getMsbD, BitVec.getElem_cons]
  · apply List.map_congr_left
    intro i hi
    have hlt : i < w := by simpa using hi
    simp only [Function.comp_apply, BitVec.getMsbD, BitVec.getLsbD_cons]
    grind

theorem value_bitsOf (x : BitVec w) : value (bitsOf x) = x.toNat := by
  induction w with
  | zero => simp [bitsOf, value, BitVec.eq_nil x]
  | succ w ih =>
      rw [← BitVec.cons_msb_setWidth x, bitsOf_cons, value_cons, ih, length_bitsOf,
        BitVec.toNat_cons, ← Nat.shiftLeft_add_eq_or_of_lt (BitVec.isLt _), Nat.shiftLeft_eq]

@[simp] theorem wordOf_bitsOf (x : BitVec w) : wordOf w (bitsOf x) = x := by
  rw [wordOf, value_bitsOf, BitVec.ofNat_toNat, BitVec.setWidth_eq]

theorem bitsOf_zero : bitsOf (0 : BitVec w) = List.replicate w false := by
  simp [bitsOf, List.eq_replicate_iff]

/-- The bits of a list of words, in order. -/
def bitString (xs : List (BitVec w)) : List Bool := xs.flatMap bitsOf

@[simp] theorem bitString_nil : bitString ([] : List (BitVec w)) = [] := rfl

@[simp] theorem bitString_cons (x : BitVec w) (xs : List (BitVec w)) :
    bitString (x :: xs) = bitsOf x ++ bitString xs := rfl

theorem bitString_append (xs ys : List (BitVec w)) :
    bitString (xs ++ ys) = bitString xs ++ bitString ys :=
  List.flatMap_append

@[simp] theorem length_bitString (xs : List (BitVec w)) :
    (bitString xs).length = xs.length * w := by
  induction xs with
  | nil => simp
  | cons x xs ih =>
      rw [bitString_cons, List.length_append, ih, length_bitsOf, List.length_cons]
      ring

theorem bitString_replicate_zero (n : Nat) :
    bitString (List.replicate n (0 : BitVec w)) = List.replicate (n * w) false := by
  induction n with
  | zero => simp
  | succ n ih =>
      rw [List.replicate_succ, bitString_cons, ih, bitsOf_zero, ← List.replicate_add]
      congr 1
      ring

theorem drop_bitString (xs : List (BitVec w)) (n : Nat) :
    (bitString xs).drop (n * w) = bitString (xs.drop n) := by
  induction n generalizing xs with
  | zero => simp
  | succ n ih =>
      cases xs with
      | nil => simp
      | cons x xs =>
          rw [bitString_cons, List.drop_succ_cons, ← ih xs, add_mul, one_mul, add_comm,
            ← List.drop_drop, List.drop_left' (length_bitsOf x)]

theorem take_bitString (xs : List (BitVec w)) (n : Nat) :
    (bitString xs).take (n * w) = bitString (xs.take n) := by
  induction n generalizing xs with
  | zero => simp
  | succ n ih =>
      cases xs with
      | nil => simp
      | cons x xs =>
          rw [bitString_cons, List.take_succ_cons, bitString_cons, ← ih xs, add_mul, one_mul,
            add_comm, List.take_append, length_bitsOf, Nat.add_sub_cancel_left,
            List.take_of_length_le (by simp)]

theorem blocks_of_lt {α : Type} {n : Nat} {l : List α} (h : l.length < n) : blocks n l = [] := by
  rw [blocks, Nat.div_eq_of_lt h]
  rfl

theorem blocks_append {α : Type} {n : Nat} {x y : List α} (hn : 0 < n) (h : x.length = n) :
    blocks n (x ++ y) = x :: blocks n y := by
  rw [blocks, List.length_append, h, add_comm, Nat.add_div_right _ hn, List.range_succ_eq_map,
    List.map_cons, List.map_map, Nat.zero_mul, List.drop_zero, List.take_left' h]
  congr 1
  apply List.map_congr_left
  intro i _
  rw [Function.comp_apply, Nat.succ_mul, add_comm, ← List.drop_drop, List.drop_left' h]

theorem blocks_map {α β : Type} (f : α → β) (n : Nat) (l : List α) :
    blocks n (l.map f) = (blocks n l).map (List.map f) := by
  simp [blocks, List.map_drop, List.map_take]

theorem length_of_mem_blocks {α : Type} {n : Nat} {l b : List α} (h : b ∈ blocks n l) :
    b.length = n := by
  simp only [blocks, List.mem_map, List.mem_range] at h
  obtain ⟨i, hi, rfl⟩ := h
  have hn : 0 < n := Nat.pos_of_ne_zero fun h0 => by simp [h0] at hi
  have hle : (i + 1) * n ≤ l.length := (Nat.mul_le_mul_right n hi).trans (Nat.div_mul_le_self _ _)
  rw [add_mul, one_mul] at hle
  rw [List.length_take, List.length_drop]
  omega

theorem blocks_bitString (hw : 0 < w) (n : Nat) (xs : List (BitVec w)) :
    blocks (n * w) (bitString xs) = (blocks n xs).map bitString := by
  rw [blocks, blocks, List.map_map, length_bitString, Nat.mul_div_mul_right _ _ hw]
  apply List.map_congr_left
  intro i _
  rw [Function.comp_apply, ← mul_assoc, drop_bitString, take_bitString]

theorem blockWords_append {x y : List Bool} (h : x.length = w) (n : Nat) :
    (List.range (n + 1)).map (blockWord w (x ++ y)) =
      wordOf w x :: (List.range n).map (blockWord w y) := by
  rw [List.range_succ_eq_map, List.map_cons, List.map_map, blockWord, Nat.zero_mul,
    List.drop_zero, List.take_left' h]
  congr 1
  apply List.map_congr_left
  intro t _
  rw [Function.comp_apply, blockWord, blockWord, Nat.succ_mul, add_comm, ← List.drop_drop,
    List.drop_left' h]

end Kaikai.SecureHash
