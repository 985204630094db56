import Mathlib.Data.List.DropRight
import Mathlib.Data.List.GetD
import Kaikai.Str

/-!
Base64 over byte lists: three bytes make four letters, a shorter tail is padded
with `=`. Quotients and remainders truncate toward zero.
-/

namespace Kaikai.Base64

open Kaikai.Str

def b64Lookup (alpha : Str) (idx : Int) : Str := stringSlice alpha idx 1

def b64EncodeBlock3 (alpha : Str) (b0 b1 b2 : Int) : Str :=
  let n := b0 * 65536 + b1 * 256 + b2
  let c0 := b64Lookup alpha (n.tdiv 262144)
  let c1 := b64Lookup alpha ((n.tdiv 4096).tmod 64)
  let c2 := b64Lookup alpha ((n.tdiv 64).tmod 64)
  let c3 := b64Lookup alpha (n.tmod 64)
  (c0 ++ c1) ++ (c2 ++ c3)

def b64EncodeBlock2 (alpha : Str) (b0 b1 : Int) : Str :=
  let n := b0 * 65536 + b1 * 256
  let c0 := b64Lookup alpha (n.tdiv 262144)
  let c1 := b64Lookup alpha ((n.tdiv 4096).tmod 64)
  let c2 := b64Lookup alpha ((n.tdiv 64).tmod 64)
  (c0 ++ c1) ++ (c2 ++ ascii "=")

def b64EncodeBlock1 (alpha : Str) (b0 : Int) : Str :=
  let n := b0 * 65536
  let c0 := b64Lookup alpha (n.tdiv 262144)
  let c1 := b64Lookup alpha ((n.tdiv 4096).tmod 64)
  (c0 ++ c1) ++ ascii "=="

/-- `parts` holds the encoded blocks, newest first. -/
def b64EncodeLoop (alpha : Str) : List Int → List Str → Str
  | [], parts => parts.reverse.flatten
  | [b0], parts => (b64EncodeBlock1 alpha b0 :: parts).reverse.flatten
  | [b0, b1], parts => (b64EncodeBlock2 alpha b0 b1 :: parts).reverse.flatten
  | b0 :: b1 :: b2 :: rest, parts =>
      b64EncodeLoop alpha rest (b64EncodeBlock3 alpha b0 b1 b2 :: parts)

def standardAlphabet : Str :=
  ascii "ABCDEFGHIJKLMNOPQRSTUVWXYZabcdefghijklmnopqrstuvwxyz0123456789+/"

def urlAlphabet : Str :=
  ascii "ABCDEFGHIJKLMNOPQRSTUVWXYZabcdefghijklmnopqrstuvwxyz0123456789-_"

def encode (bs : List Int) : Str := b64EncodeLoop standardAlphabet bs []

def encodeUrl (bs : List Int) : Str := b64EncodeLoop urlAlphabet bs []

/-- The six bits of a letter of either alphabet. -/
def b64CharValue (c : Char) : Option Int :=
  if 'A' ≤ c ∧ c ≤ 'Z' then some (c.toNat - 'A'.toNat)
  else if 'a' ≤ c ∧ c ≤ 'z' then some (c.toNat - 'a'.toNat + 26)
  else if '0' ≤ c ∧ c ≤ '9' then some (c.toNat - '0'.toNat + 52)
  else if c = '+' then some 62
  else if c = '/' then some 63
  else if c = '-' then some 62
  else if c = '_' then some 63
  else none

/-- Strips every trailing `=`. -/
def b64StripPadding (s : Str) : Str :=
  let n := s.length
  if n = 0 then s
  else match charAt s (n - 1) with
    | some c => if c = '=' then b64StripPadding (stringSlice s 0 (n - 1 : Nat)) else s
    | none => s
termination_by s.length
decreasing_by
  rw [stringSlice, List.length_take, List.length_drop]
  omega

def b64StringToValues (s : Str) (i : Nat) (acc : List Int) : Option (List Int) :=
  if i ≥ s.length then some acc.reverse
  else match charAt s i with
    | none => none
    | some c =>
        match b64CharValue c with
        | none => none
        | some v => b64StringToValues s (i + 1) (v :: acc)
termination_by s.length - i

/-- Four values make three bytes; a tail of three makes two and one of two makes
one, whatever its unused low bits hold. -/
def b64ValuesToBytes : List Int → List Int → Option (List Int)
  | [], acc => some acc.reverse
  | [v0, v1], acc =>
      let n := v0 * 4 + v1.tdiv 16
      some (n :: acc).reverse
  | [v0, v1, v2], acc =>
      let n := v0 * 1024 + v1 * 16 + v2.tdiv 4
      let b0 := (n.tdiv 256).tmod 256
      let b1 := n.tmod 256
      some (b1 :: b0 :: acc).reverse
  | v0 :: v1 :: v2 :: v3 :: rest, acc =>
      let n := v0 * 262144 + v1 * 4096 + v2 * 64 + v3
      let b0 := (n.tdiv 65536).tmod 256
      let b1 := (n.tdiv 256).tmod 256
      let b2 := n.tmod 256
      b64ValuesToBytes rest (b2 :: b1 :: b0 :: acc)
  | _, _ => none

def decode (s : Str) : Option (List Int) :=
  (b64StringToValues (b64StripPadding s) 0 []).bind fun vs => b64ValuesToBytes vs []

/-- The letter at an index of an alphabet. -/
def letter (alpha : Str) (v : Int) : UInt8 := alpha.getD v.toNat 61

/-- The six-bit values that a byte list is cut into, the last one filled with zeros. -/
def sextets : List Int → List Int
  | [] => []
  | [b0] => [b0 / 4, b0 % 4 * 16]
  | [b0, b1] => [b0 / 4, b0 % 4 * 16 + b1 / 16, b1 % 16 * 4]
  | b0 :: b1 :: b2 :: rest =>
      b0 / 4 :: (b0 % 4 * 16 + b1 / 16) :: (b1 % 16 * 4 + b2 / 64) :: b2 % 64 :: sextets rest

/-- The number of `=` that complete the last group of `len` letters. -/
def padding (len : Nat) : Nat := (4 - len % 4) % 4

/-- The numbers below a bound. -/
def Below (r : Int) (xs : List Int) : Prop := ∀ x ∈ xs, 0 ≤ x ∧ x < r

instance (r : Int) (xs : List Int) : Decidable (Below r xs) :=
  inferInstanceAs (Decidable (∀ x ∈ xs, 0 ≤ x ∧ x < r))

/-- The byte that the standard alphabet has for one of the URL-safe alphabet. -/
def standardByte (b : UInt8) : UInt8 := if b = 45 then 43 else if b = 95 then 47 else b

def standard (s : Str) : Str := s.map standardByte

/-- A text without its trailing `=`. -/
def unpadded (s : Str) : Str := s.rdropWhile (· = 61)

theorem below_cons {r x : Int} {xs : List Int} :
    Below r (x :: xs) ↔ (0 ≤ x ∧ x < r) ∧ Below r xs := List.forall_mem_cons

theorem below_nil (r : Int) : Below r [] := fun _ h => absurd h List.not_mem_nil

theorem b64Lookup_eq {alpha : Str} (halpha : alpha.length = 64) {v : Int} (hlow : 0 ≤ v)
    (hhigh : v < 64) : b64Lookup alpha v = [letter alpha v] := by
  have hlt : v.toNat < alpha.length := by omega
  rw [b64Lookup, stringSlice, letter, List.drop_eq_getElem_cons hlt, List.getD_eq_getElem _ _ hlt]
  rfl

theorem below_sextets {bs : List Int} (h : Below 256 bs) : Below 64 (sextets bs) := by
  induction bs using sextets.induct with
  | case1 => exact below_nil 64
  | case2 b0 =>
      simp only [below_cons] at h
      simp only [sextets, below_cons]
      exact ⟨by omega, by omega, below_nil 64⟩
  | case3 b0 b1 =>
      simp only [below_cons] at h
      simp only [sextets, below_cons]
      exact ⟨by omega, by omega, by omega, below_nil 64⟩
  | case4 b0 b1 b2 rest ih =>
      simp only [below_cons] at h
      simp only [sextets, below_cons]
      exact ⟨by omega, by omega, by omega, by omega, ih h.2.2.2⟩

theorem b64EncodeBlock3_eq {alpha : Str} (halpha : alpha.length = 64) {b0 b1 b2 : Int}
    (h0 : 0 ≤ b0 ∧ b0 < 256) (h1 : 0 ≤ b1 ∧ b1 < 256) (h2 : 0 ≤ b2 ∧ b2 < 256) :
    b64EncodeBlock3 alpha b0 b1 b2 = [b0 / 4, b0 % 4 * 16 + b1 / 16, b1 % 16 * 4 + b2 / 64,
      b2 % 64].map (letter alpha) := by
  have hn : 0 ≤ b0 * 65536 + b1 * 256 + b2 := by omega
  have hc0 : (b0 * 65536 + b1 * 256 + b2).tdiv 262144 = b0 / 4 := by
    rw [Int.tdiv_eq_ediv_of_nonneg hn]
    omega
  have hc1 : ((b0 * 65536 + b1 * 256 + b2).tdiv 4096).tmod 64 = b0 % 4 * 16 + b1 / 16 := by
    rw [Int.tdiv_eq_ediv_of_nonneg hn, Int.tmod_eq_emod_of_nonneg (by omega)]
    omega
  have hc2 : ((b0 * 65536 + b1 * 256 + b2).tdiv 64).tmod 64 = b1 % 16 * 4 + b2 / 64 := by
    rw [Int.tdiv_eq_ediv_of_nonneg hn, Int.tmod_eq_emod_of_nonneg (by omega)]
    omega
  have hc3 : (b0 * 65536 + b1 * 256 + b2).tmod 64 = b2 % 64 := by
    rw [Int.tmod_eq_emod_of_nonneg hn]
    omega
  simp only [b64EncodeBlock3, hc0, hc1, hc2, hc3]
  rw [b64Lookup_eq halpha (by omega) (by omega), b64Lookup_eq halpha (by omega) (by omega),
    b64Lookup_eq halpha (by omega) (by omega), b64Lookup_eq halpha (by omega) (by omega)]
  rfl

theorem b64EncodeBlock2_eq {alpha : Str} (halpha : alpha.length = 64) {b0 b1 : Int}
    (h0 : 0 ≤ b0 ∧ b0 < 256) (h1 : 0 ≤ b1 ∧ b1 < 256) :
    b64EncodeBlock2 alpha b0 b1 =
      [b0 / 4, b0 % 4 * 16 + b1 / 16, b1 % 16 * 4].map (letter alpha) ++ [61] := by
  have hn : 0 ≤ b0 * 65536 + b1 * 256 := by omega
  have hc0 : (b0 * 65536 + b1 * 256).tdiv 262144 = b0 / 4 := by
    rw [Int.tdiv_eq_ediv_of_nonneg hn]
    omega
  have hc1 : ((b0 * 65536 + b1 * 256).tdiv 4096).tmod 64 = b0 % 4 * 16 + b1 / 16 := by
    rw [Int.tdiv_eq_ediv_of_nonneg hn, Int.tmod_eq_emod_of_nonneg (by omega)]
    omega
  have hc2 : ((b0 * 65536 + b1 * 256).tdiv 64).tmod 64 = b1 % 16 * 4 := by
    rw [Int.tdiv_eq_ediv_of_nonneg hn, Int.tmod_eq_emod_of_nonneg (by omega)]
    omega
  simp only [b64EncodeBlock2, hc0, hc1, hc2]
  rw [b64Lookup_eq halpha (by omega) (by omega), b64Lookup_eq halpha (by omega) (by omega),
    b64Lookup_eq halpha (by omega) (by omega)]
  rfl

theorem b64EncodeBlock1_eq {alpha : Str} (halpha : alpha.length = 64) {b0 : Int}
    (h0 : 0 ≤ b0 ∧ b0 < 256) :
    b64EncodeBlock1 alpha b0 = [b0 / 4, b0 % 4 * 16].map (letter alpha) ++ [61, 61] := by
  have hn : 0 ≤ b0 * 65536 := by omega
  have hc0 : (b0 * 65536).tdiv 262144 = b0 / 4 := by
    rw [Int.tdiv_eq_ediv_of_nonneg hn]
    omega
  have hc1 : ((b0 * 65536).tdiv 4096).tmod 64 = b0 % 4 * 16 := by
    rw [Int.tdiv_eq_ediv_of_nonneg hn, Int.tmod_eq_emod_of_nonneg (by omega)]
    omega
  simp only [b64EncodeBlock1, hc0, hc1]
  rw [b64Lookup_eq halpha (by omega) (by omega), b64Lookup_eq halpha (by omega) (by omega)]
  rfl

/-- The letters of the values, and `=` up to a multiple of four. -/
def lettered (alpha : Str) (vs : List Int) : Str :=
  vs.map (letter alpha) ++ List.replicate (padding vs.length) 61

theorem b64EncodeLoop_eq {alpha : Str} (halpha : alpha.length = 64) {bs : List Int}
    (h : Below 256 bs) (parts : List Str) :
    b64EncodeLoop alpha bs parts = parts.reverse.flatten ++ lettered alpha (sextets bs) := by
  fun_induction b64EncodeLoop alpha bs parts with
  | case1 parts => simp [sextets, lettered, padding]
  | case2 parts b0 =>
      simp only [below_cons] at h
      rw [b64EncodeBlock1_eq halpha h.1]
      simp [sextets, lettered, padding]
  | case3 parts b0 b1 =>
      simp only [below_cons] at h
      rw [b64EncodeBlock2_eq halpha h.1 h.2.1]
      simp [sextets, lettered, padding]
  | case4 b0 b1 b2 rest parts ih =>
      simp only [below_cons] at h
      have hmod : padding ((sextets rest).length + 1 + 1 + 1 + 1) =
          padding (sextets rest).length := by
        unfold padding
        omega
      rw [ih h.2.2.2, b64EncodeBlock3_eq halpha h.1 h.2.1 h.2.2.1]
      simp [sextets, lettered, hmod]

/-- The six bits of a byte of the text. -/
def byteValue (b : UInt8) : Option Int := b64CharValue (Char.ofNat b.toNat)

def values : Str → Option (List Int)
  | [] => some []
  | b :: s => do
      let v ← byteValue b
      let vs ← values s
      some (v :: vs)

/-- The values with the bits cleared that no byte of the tail uses. -/
def clearSpare : List Int → List Int
  | [v0, v1] => [v0, v1 / 16 * 16]
  | [v0, v1, v2] => [v0, v1, v2 / 4 * 4]
  | v0 :: v1 :: v2 :: v3 :: rest => v0 :: v1 :: v2 :: v3 :: clearSpare rest
  | vs => vs

theorem byteValue_eq (b : UInt8) : byteValue b =
    if 65 ≤ b.toNat ∧ b.toNat ≤ 90 then some ((b.toNat : Int) - 65)
    else if 97 ≤ b.toNat ∧ b.toNat ≤ 122 then some ((b.toNat : Int) - 97 + 26)
    else if 48 ≤ b.toNat ∧ b.toNat ≤ 57 then some ((b.toNat : Int) - 48 + 52)
    else if b.toNat = 43 then some 62 else if b.toNat = 47 then some 63
    else if b.toNat = 45 then some 62 else if b.toNat = 95 then some 63 else none := by
  have hle (x y : Char) : x ≤ y ↔ x.toNat ≤ y.toNat := Iff.rfl
  have heq (x y : Char) : x = y ↔ x.toNat = y.toNat := Char.toNat_inj.symm
  simp only [byteValue, b64CharValue, hle, heq, toNat_ofByte]
  rfl

theorem standardAlphabet_eq : standardAlphabet =
    (List.range' 65 26 ++ List.range' 97 26 ++ List.range' 48 10 ++ [43, 47]).map UInt8.ofNat := by
  rw [standardAlphabet, ascii_ofList]
  decide

theorem urlAlphabet_eq : urlAlphabet =
    (List.range' 65 26 ++ List.range' 97 26 ++ List.range' 48 10 ++ [45, 95]).map UInt8.ofNat := by
  rw [urlAlphabet, ascii_ofList]
  decide

theorem byteValue_bounds : ∀ n < 256, ∀ v ∈ byteValue (UInt8.ofNat n),
    (0 ≤ v ∧ v < 64) ∧ letter standardAlphabet v = standardByte (UInt8.ofNat n) := by
  intro n hn
  have hbyte : (UInt8.ofNat n).toNat = n := by
    rw [UInt8.toNat_ofNat']
    omega
  rw [byteValue_eq, hbyte, standardAlphabet_eq]
  revert n
  decide +kernel

theorem b64StripPadding_eq (s : Str) : b64StripPadding s = unpadded s := by
  induction s using List.reverseRecOn with
  | nil =>
      rw [b64StripPadding]
      rfl
  | append_singleton s b ih =>
      have hlast : charAt (s ++ [b]) s.length = some (Char.ofNat b.toNat) := by
        simp [charAt]
      have hslice : stringSlice (s ++ [b]) 0 (s.length : Nat) = s := by
        simp [stringSlice]
      have heq : Char.ofNat b.toNat = '=' ↔ b = 61 :=
        (ofByte_eq_iff (c := '=')).trans (UInt8.toNat_inj (b := 61))
      rw [b64StripPadding, unpadded]
      simp only [List.length_append, List.length_singleton, Nat.add_sub_cancel, hlast, hslice, heq,
        ih]
      rw [if_neg (Nat.succ_ne_zero _)]
      by_cases hb : b = 61
      · rw [if_pos hb, List.rdropWhile_concat_pos _ _ _ (by simpa using hb), unpadded]
      · rw [if_neg hb, List.rdropWhile_concat_neg _ _ _ (by simpa using hb)]

theorem b64StringToValues_eq (s : Str) (i : Nat) (acc : List Int) :
    b64StringToValues s i acc = (values (s.drop i)).map (acc.reverse ++ ·) := by
  induction i, acc using b64StringToValues.induct s with
  | case1 i acc hi =>
      rw [b64StringToValues, if_pos hi, List.drop_eq_nil_of_le hi]
      simp [values]
  | case2 i acc hi hc =>
      have hlt : i < s.length := Nat.lt_of_not_le hi
      simp [charAt, List.getElem?_eq_getElem hlt] at hc
  | case3 i acc hi c hc hv =>
      have hlt : i < s.length := Nat.lt_of_not_le hi
      simp only [charAt, List.getElem?_eq_getElem hlt, Option.map_some, Option.some.injEq] at hc
      rw [b64StringToValues, if_neg hi]
      simp only [charAt, List.getElem?_eq_getElem hlt, Option.map_some, hc, hv]
      rw [List.drop_eq_getElem_cons hlt, values, byteValue, hc, hv]
      rfl
  | case4 i acc hi c hc v hv ih =>
      have hlt : i < s.length := Nat.lt_of_not_le hi
      simp only [charAt, List.getElem?_eq_getElem hlt, Option.map_some, Option.some.injEq] at hc
      rw [b64StringToValues, if_neg hi]
      simp only [charAt, List.getElem?_eq_getElem hlt, Option.map_some, hc, hv]
      rw [ih, List.drop_eq_getElem_cons hlt, values, byteValue, hc, hv]
      cases values (s.drop (i + 1)) with
      | none => rfl
      | some vs => simp

theorem decode_eq (s : Str) :
    decode s = (values (unpadded s)).bind fun vs => b64ValuesToBytes vs [] := by
  rw [decode, b64StripPadding_eq, b64StringToValues_eq, List.drop_zero]
  simp

theorem values_map {alpha : Str} (halpha : ∀ v, 0 ≤ v → v < 64 → byteValue (letter alpha v) = some v)
    {vs : List Int} (h : Below 64 vs) : values (vs.map (letter alpha)) = some vs := by
  induction vs with
  | nil => rfl
  | cons v vs ih =>
      rw [below_cons] at h
      rw [List.map_cons, values, halpha v h.1.1 h.1.2, ih h.2]
      rfl

theorem values_sound {s : Str} {vs : List Int} (h : values s = some vs) :
    Below 64 vs ∧ standard s = vs.map (letter standardAlphabet) := by
  induction s generalizing vs with
  | nil =>
      cases h
      exact ⟨below_nil 64, rfl⟩
  | cons b s ih =>
      simp only [values, Option.bind_eq_bind, Option.bind_eq_some_iff] at h
      obtain ⟨v, hv, ws, hws, h⟩ := h
      cases h
      obtain ⟨hbelow, hstd⟩ := ih hws
      have hb := byteValue_bounds b.toNat b.toNat_lt v (by rw [UInt8.ofNat_toNat]; exact hv)
      rw [UInt8.ofNat_toNat] at hb
      refine ⟨below_cons.2 ⟨hb.1, hbelow⟩, ?_⟩
      rw [standard, List.map_cons, List.map_cons, hb.2, ← hstd, standard]

theorem length_clearSpare (vs : List Int) : (clearSpare vs).length = vs.length := by
  induction vs using clearSpare.induct with
  | case3 v0 v1 v2 v3 rest ih => simp [clearSpare, ih]
  | case4 vs htwo hthree hfour => rw [clearSpare.eq_4 vs htwo hthree hfour]
  | _ => rfl

theorem b64ValuesToBytes_sextets {bs : List Int} (h : Below 256 bs) (acc : List Int) :
    b64ValuesToBytes (sextets bs) acc = some (acc.reverse ++ bs) := by
  induction bs using sextets.induct generalizing acc with
  | case1 => simp [sextets, b64ValuesToBytes]
  | case2 b0 =>
      simp only [below_cons] at h
      have h0 : b0 / 4 * 4 + (b0 % 4 * 16).tdiv 16 = b0 := by
        rw [Int.tdiv_eq_ediv_of_nonneg (by omega)]
        omega
      simp only [sextets, b64ValuesToBytes, h0, List.reverse_cons]
  | case3 b0 b1 =>
      simp only [below_cons] at h
      have hn : b0 / 4 * 1024 + (b0 % 4 * 16 + b1 / 16) * 16 + (b1 % 16 * 4).tdiv 4 =
          b0 * 256 + b1 := by
        rw [Int.tdiv_eq_ediv_of_nonneg (by omega)]
        omega
      have h0 : ((b0 * 256 + b1).tdiv 256).tmod 256 = b0 := by
        rw [Int.tdiv_eq_ediv_of_nonneg (by omega), Int.tmod_eq_emod_of_nonneg (by omega)]
        omega
      have h1 : (b0 * 256 + b1).tmod 256 = b1 := by
        rw [Int.tmod_eq_emod_of_nonneg (by omega)]
        omega
      simp only [sextets, b64ValuesToBytes, hn, h0, h1, List.reverse_cons, List.append_assoc]
      rfl
  | case4 b0 b1 b2 rest ih =>
      simp only [below_cons] at h
      have hn : b0 / 4 * 262144 + (b0 % 4 * 16 + b1 / 16) * 4096 +
          (b1 % 16 * 4 + b2 / 64) * 64 + b2 % 64 = b0 * 65536 + b1 * 256 + b2 := by omega
      have h0 : ((b0 * 65536 + b1 * 256 + b2).tdiv 65536).tmod 256 = b0 := by
        rw [Int.tdiv_eq_ediv_of_nonneg (by omega), Int.tmod_eq_emod_of_nonneg (by omega)]
        omega
      have h1 : ((b0 * 65536 + b1 * 256 + b2).tdiv 256).tmod 256 = b1 := by
        rw [Int.tdiv_eq_ediv_of_nonneg (by omega), Int.tmod_eq_emod_of_nonneg (by omega)]
        omega
      have h2 : (b0 * 65536 + b1 * 256 + b2).tmod 256 = b2 := by
        rw [Int.tmod_eq_emod_of_nonneg (by omega)]
        omega
      simp only [sextets, b64ValuesToBytes, hn, h0, h1, h2]
      rw [ih h.2.2.2]
      simp

theorem sextets_of_b64ValuesToBytes {vs : List Int} (h : Below 64 vs) {acc bs : List Int}
    (hrun : b64ValuesToBytes vs acc = some bs) :
    ∃ cs, bs = acc.reverse ++ cs ∧ Below 256 cs ∧ sextets cs = clearSpare vs := by
  induction vs, acc using b64ValuesToBytes.induct with
  | case1 acc =>
      cases hrun
      exact ⟨[], by simp, below_nil 256, rfl⟩
  | case2 v0 v1 acc =>
      simp only [below_cons] at h
      simp only [b64ValuesToBytes, Option.some.injEq] at hrun
      subst hrun
      rw [Int.tdiv_eq_ediv_of_nonneg (by omega)]
      refine ⟨[v0 * 4 + v1 / 16], by simp, below_cons.2 ⟨by omega, below_nil 256⟩, ?_⟩
      simp only [sextets, clearSpare, List.cons.injEq, and_true]
      omega
  | case3 v0 v1 v2 acc =>
      simp only [below_cons] at h
      have hn : 0 ≤ v0 * 1024 + v1 * 16 + v2 / 4 := by omega
      simp only [b64ValuesToBytes, Option.some.injEq] at hrun
      subst hrun
      rw [Int.tdiv_eq_ediv_of_nonneg (by omega), Int.tdiv_eq_ediv_of_nonneg hn,
        Int.tmod_eq_emod_of_nonneg hn, Int.tmod_eq_emod_of_nonneg (by omega)]
      refine ⟨[(v0 * 1024 + v1 * 16 + v2 / 4) / 256 % 256, (v0 * 1024 + v1 * 16 + v2 / 4) % 256],
        by simp, below_cons.2 ⟨by omega, below_cons.2 ⟨by omega, below_nil 256⟩⟩, ?_⟩
      simp only [sextets, clearSpare, List.cons.injEq, and_true]
      omega
  | case4 v0 v1 v2 v3 rest acc n b0 b1 b2 ih =>
      simp only [below_cons] at h
      have hn : 0 ≤ v0 * 262144 + v1 * 4096 + v2 * 64 + v3 := by omega
      rw [b64ValuesToBytes] at hrun
      have h0 : b0 = (v0 * 262144 + v1 * 4096 + v2 * 64 + v3) / 65536 % 256 := by
        rw [← Int.tdiv_eq_ediv_of_nonneg hn, ← Int.tmod_eq_emod_of_nonneg (Int.tdiv_nonneg hn (by decide))]
      have h1 : b1 = (v0 * 262144 + v1 * 4096 + v2 * 64 + v3) / 256 % 256 := by
        rw [← Int.tdiv_eq_ediv_of_nonneg hn, ← Int.tmod_eq_emod_of_nonneg (Int.tdiv_nonneg hn (by decide))]
      have h2 : b2 = (v0 * 262144 + v1 * 4096 + v2 * 64 + v3) % 256 := by
        rw [← Int.tmod_eq_emod_of_nonneg hn]
      obtain ⟨cs, rfl, hbelow, hcs⟩ := ih h.2.2.2.2 hrun
      refine ⟨b0 :: b1 :: b2 :: cs, by simp, ?_, ?_⟩
      · simp only [below_cons]
        exact ⟨by omega, by omega, by omega, hbelow⟩
      · simp only [sextets, clearSpare, List.cons.injEq]
        exact ⟨by omega, by omega, by omega, by omega, hcs⟩
  | case5 vs acc hnil htwo hthree hfour =>
      rcases vs with _ | ⟨v0, _ | ⟨v1, _ | ⟨v2, _ | ⟨v3, rest⟩⟩⟩⟩
      · exact absurd rfl hnil
      · simp [b64ValuesToBytes] at hrun
      · exact absurd rfl (htwo v0 v1)
      · exact absurd rfl (hthree v0 v1 v2)
      · exact absurd rfl (hfour v0 v1 v2 v3 rest)

theorem getElem?_clearSpare (vs : List Int) {i : Nat} (hi : i + 1 ≠ vs.length) :
    (clearSpare vs)[i]? = vs[i]? := by
  induction vs using clearSpare.induct generalizing i with
  | case1 v0 v1 =>
      rcases i with _ | _ | i
      · rfl
      · exact absurd rfl hi
      · rfl
  | case2 v0 v1 v2 =>
      rcases i with _ | _ | _ | i
      · rfl
      · rfl
      · exact absurd rfl hi
      · rfl
  | case3 v0 v1 v2 v3 rest ih =>
      rcases i with _ | _ | _ | _ | i
      · rfl
      · rfl
      · rfl
      · rfl
      · simp only [clearSpare, List.getElem?_cons_succ]
        exact ih fun h => hi (by simpa using h)
  | case4 vs htwo hthree hfour => rw [clearSpare.eq_4 vs htwo hthree hfour]

theorem unpadded_append (s : Str) (n : Nat) :
    unpadded (s ++ List.replicate n 61) = unpadded s := by
  induction n with
  | zero => rw [List.replicate_zero, List.append_nil]
  | succ n ih =>
      rw [List.replicate_succ', ← List.append_assoc, unpadded,
        List.rdropWhile_concat_pos _ _ _ (by simp)]
      exact ih

theorem unpadded_replicate (s : Str) :
    ∃ n, s = unpadded s ++ List.replicate n 61 := by
  induction s using List.reverseRecOn with
  | nil => exact ⟨0, rfl⟩
  | append_singleton s b ih =>
      rw [unpadded]
      by_cases hb : b = 61
      · obtain ⟨n, hn⟩ := ih
        refine ⟨n + 1, ?_⟩
        rw [List.rdropWhile_concat_pos _ _ _ (by simpa using hb), hb, List.replicate_succ',
          ← List.append_assoc]
        exact congrArg (· ++ [61]) hn
      · exact ⟨0, by rw [List.rdropWhile_concat_neg _ _ _ (by simpa using hb)]; simp⟩

theorem byteValue_of_values {s : Str} {vs : List Int} (h : values s = some vs) {b : UInt8}
    (hb : b ∈ s) : byteValue b ≠ none := by
  induction s generalizing vs with
  | nil => exact absurd hb List.not_mem_nil
  | cons c s ih =>
      simp only [values, Option.bind_eq_bind, Option.bind_eq_some_iff] at h
      obtain ⟨v, hv, ws, hws, -⟩ := h
      rcases List.mem_cons.1 hb with rfl | hb
      · rw [hv]
        exact Option.some_ne_none v
      · exact ih hws hb

theorem unpadded_of_values {s : Str} {vs : List Int} (h : values s = some vs) :
    unpadded s = s := by
  rw [unpadded, List.rdropWhile_eq_self_iff]
  intro hne hlast
  have hmem := List.getLast_mem hne
  rw [show s.getLast hne = 61 by simpa using hlast] at hmem
  exact byteValue_of_values h hmem (by decide)

/-- The padding is absent, or it completes the last group of four. -/
def Padded (s : Str) : Prop :=
  s.length = (unpadded s).length ∨ s.length = (unpadded s).length + padding (unpadded s).length

/-- No bit is set that the bytes of the text do not use. -/
def SpareClear (s : Str) : Prop := ∀ vs, values (unpadded s) = some vs → clearSpare vs = vs

/-- An alphabet whose letters the decoder reads back. -/
def Reads (alpha : Str) : Prop :=
  alpha.length = 64 ∧ ∀ v, 0 ≤ v → v < 64 → byteValue (letter alpha v) = some v

theorem byteValue_place {alpha : Str}
    (h : alpha.map byteValue = (List.range 64).map fun n : Nat => some (n : Int)) {n : Nat}
    (hn : n < 64) : byteValue (letter alpha (n : Nat)) = some (n : Int) := by
  have hlen : n < alpha.length := by
    have := congrArg List.length h
    rw [List.length_map, List.length_map, List.length_range] at this
    omega
  have hget := congrArg (·[n]?) h
  simp only [List.getElem?_map, List.getElem?_range hn, List.getElem?_eq_getElem hlen,
    Option.map_some, Option.some.injEq] at hget
  rw [letter, Int.toNat_natCast, List.getD_eq_getElem _ _ hlen, hget]

theorem byteValue_letter : ∀ n < 64, byteValue (letter standardAlphabet (n : Nat)) = some (n : Int) ∧
    byteValue (letter urlAlphabet (n : Nat)) = some (n : Int) := by
  intro n hn
  constructor
  · refine byteValue_place ?_ hn
    rw [standardAlphabet_eq]
    decide +kernel
  · refine byteValue_place ?_ hn
    rw [urlAlphabet_eq]
    decide +kernel

theorem reads_standard : Reads standardAlphabet := by
  refine ⟨by rw [standardAlphabet_eq]; rfl, fun v hlow hhigh => ?_⟩
  have h := (byteValue_letter v.toNat (by omega)).1
  rwa [Int.toNat_of_nonneg hlow] at h

theorem reads_url : Reads urlAlphabet := by
  refine ⟨by rw [urlAlphabet_eq]; rfl, fun v hlow hhigh => ?_⟩
  have h := (byteValue_letter v.toNat (by omega)).2
  rwa [Int.toNat_of_nonneg hlow] at h

theorem unpadded_lettered {alpha : Str} (halpha : Reads alpha) {vs : List Int} (h : Below 64 vs) :
    unpadded (lettered alpha vs) = vs.map (letter alpha) := by
  rw [lettered, unpadded_append, unpadded_of_values (values_map halpha.2 h)]

theorem decode_encoded {alpha : Str} (halpha : Reads alpha) {bs : List Int} (h : Below 256 bs) :
    decode (b64EncodeLoop alpha bs []) = some bs := by
  rw [b64EncodeLoop_eq halpha.1 h, decode_eq, List.reverse_nil, List.flatten_nil, List.nil_append,
    unpadded_lettered halpha (below_sextets h), values_map halpha.2 (below_sextets h),
    Option.bind_some, b64ValuesToBytes_sextets h]
  rfl

theorem encode_eq {bs : List Int} (h : Below 256 bs) :
    encode bs = lettered standardAlphabet (sextets bs) := by
  rw [encode, b64EncodeLoop_eq reads_standard.1 h]
  rfl

theorem decode_sound {s : Str} {bs : List Int} (h : decode s = some bs) :
    ∃ vs, values (unpadded s) = some vs ∧ Below 256 bs ∧ sextets bs = clearSpare vs := by
  rw [decode_eq, Option.bind_eq_some_iff] at h
  obtain ⟨vs, hvs, hbytes⟩ := h
  obtain ⟨cs, rfl, hbelow, hcs⟩ := sextets_of_b64ValuesToBytes (values_sound hvs).1 hbytes
  exact ⟨vs, hvs, hbelow, hcs⟩

theorem unpadded_encode {bs : List Int} (h : Below 256 bs) :
    unpadded (encode bs) = (sextets bs).map (letter standardAlphabet) := by
  rw [encode_eq h, unpadded_lettered reads_standard (below_sextets h)]

/-- Two texts that may differ in the last byte before the padding of the first. -/
def AgreeButLast (s t : Str) : Prop :=
  t.length = s.length ∧ ∀ i, i + 1 ≠ (unpadded s).length → t[i]? = (standard s)[i]?

theorem agree_of_decode {s : Str} {vs : List Int} (hvs : values (unpadded s) = some vs) {n : Nat}
    (hs : s = unpadded s ++ List.replicate n 61) :
    AgreeButLast s ((clearSpare vs).map (letter standardAlphabet) ++ List.replicate n 61) ∧
      (SpareClear s →
        (clearSpare vs).map (letter standardAlphabet) ++ List.replicate n 61 = standard s) := by
  have hstd : standard s = vs.map (letter standardAlphabet) ++ List.replicate n 61 := by
    conv_lhs => rw [hs]
    rw [standard, List.map_append, List.map_replicate, ← (values_sound hvs).2]
    rfl
  have hlen : vs.length = (unpadded s).length := by
    have h := congrArg List.length (values_sound hvs).2
    rw [standard, List.length_map, List.length_map] at h
    exact h.symm
  refine ⟨⟨?_, fun i hi => ?_⟩, fun hclear => by rw [hclear vs hvs, hstd]⟩
  · conv_rhs => rw [hs]
    rw [List.length_append, List.length_append, List.length_map, length_clearSpare, hlen]
  · rw [hstd, List.getElem?_append, List.getElem?_append, List.length_map, List.length_map,
      length_clearSpare, List.getElem?_map, List.getElem?_map,
      getElem?_clearSpare vs (hlen ▸ hi)]

/-- Decoding inverts both encoders. A text that decodes, with no padding or with
exactly the padding of its last group, spells values that are those of the bytes once
the spare bits are cleared: it is the encoding of what it decodes to, with or without
padding, up to these bits. A byte of neither alphabet before the padding is rejected. -/
theorem decode_inverts :
    (∀ bs, Below 256 bs → decode (encode bs) = some bs ∧ decode (encodeUrl bs) = some bs) ∧
      (∀ s bs, decode s = some bs → Padded s →
        ∃ vs, values (unpadded s) = some vs ∧ sextets bs = clearSpare vs ∧
          ∃ t, (t = encode bs ∨ t = unpadded (encode bs)) ∧ AgreeButLast s t ∧
            (SpareClear s → t = standard s)) ∧
      ∀ s, (∃ b ∈ unpadded s, byteValue b = none) → decode s = none := by
  refine ⟨fun bs h => ⟨decode_encoded reads_standard h, decode_encoded reads_url h⟩,
    fun s bs hrun hpad => ?_, fun s hbad => ?_⟩
  · obtain ⟨vs, hvs, hbelow, hcs⟩ := decode_sound hrun
    obtain ⟨n, hs⟩ := unpadded_replicate s
    have hn : s.length = (unpadded s).length + n := by
      conv_lhs => rw [hs]
      rw [List.length_append, List.length_replicate]
    obtain ⟨hagree, hclear⟩ := agree_of_decode hvs hs
    refine ⟨vs, hvs, hcs, _, ?_, hagree, hclear⟩
    have hlen : (unpadded s).length = (clearSpare vs).length := by
      have h := congrArg List.length (values_sound hvs).2
      rw [standard, List.length_map, List.length_map] at h
      rw [h, length_clearSpare]
    rcases hpad with h | h
    · right
      rw [unpadded_encode hbelow, hcs, show n = 0 by omega, List.replicate_zero, List.append_nil]
    · left
      rw [encode_eq hbelow, hcs, lettered, ← hlen, show n = padding (unpadded s).length by omega]
  · obtain ⟨b, hb, hnone⟩ := hbad
    rw [decode_eq]
    cases hvs : values (unpadded s) with
    | none => rfl
    | some vs => exact absurd hnone (byteValue_of_values hvs hb)

theorem decode_inverts_man : decode (encode [77, 97]) = some [77, 97] ∧
    decode (encodeUrl [77, 97]) = some [77, 97] :=
  decode_inverts.1 [77, 97] (by decide +kernel)

/-- The decoder drops the low bits of a short tail instead of checking them. -/
theorem decode_drops_spare_bits :
    ¬ ((∀ bs, Below 256 bs → decode (encode bs) = some bs ∧ decode (encodeUrl bs) = some bs) ∧
      ∀ s bs, decode s = some bs →
        standard s = encode bs ∨ standard s = unpadded (encode bs)) := by
  rintro ⟨-, h⟩
  have hrun : decode (ascii "QR==") = some [65] := by
    rw [decode_eq]
    decide
  have hbelow : Below 256 [65] := by decide
  rcases h _ _ hrun with heq | heq
  · rw [encode_eq hbelow] at heq
    exact absurd heq (by decide)
  · rw [unpadded_encode hbelow] at heq
    exact absurd heq (by decide)

end Kaikai.Base64
