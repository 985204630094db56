import Kaikai.JsonLex

namespace Kaikai.Json

open Kaikai.Decimal
open Kaikai.Str
open Kaikai.Stretch

variable {ρ : Type}

def jsonEscapeDecode (b : Int) : Option Str :=
  if b = 34 then some [34]
  else if b = 92 then some [92]
  else if b = 47 then some [47]
  else if b = 98 then some [8]
  else if b = 102 then some [12]
  else if b = 110 then some [10]
  else if b = 114 then some [13]
  else if b = 116 then some [9]
  else none

def jsonHexCharValue (c : Char) : Option Nat :=
  if charIsDigit c then some (c.toNat - '0'.toNat)
  else if c ≥ 'a' ∧ c ≤ 'f' then some (c.toNat - 'a'.toNat + 10)
  else if c ≥ 'A' ∧ c ≤ 'F' then some (c.toNat - 'A'.toNat + 10)
  else none

def jsonHex4Loop (s : Str) (i stop acc : Nat) : Option Nat :=
  if i ≥ stop then some acc
  else match charAt s i with
    | none => none
    | some c => match jsonHexCharValue c with
      | none => none
      | some v => jsonHex4Loop s (i + 1) stop (acc * 16 + v)
termination_by stop - i

/-- Exactly four hex digits. -/
def jsonReadHex4 (s : Str) (i : Nat) : Option Nat :=
  if i + 4 > s.length then none else jsonHex4Loop s i (i + 4) 0

def stringEncodeCp (cp : Nat) : Str :=
  if cp < 0x80 then intToByteString cp
  else if cp < 0x800 then
    intToByteString (0xC0 + cp / 64 : Nat) ++ intToByteString (0x80 + cp % 64 : Nat)
  else if cp < 0x10000 then
    intToByteString (0xE0 + cp / 4096 : Nat) ++ intToByteString (0x80 + cp / 64 % 64 : Nat) ++
      intToByteString (0x80 + cp % 64 : Nat)
  else
    intToByteString (0xF0 + cp / 262144 : Nat) ++ intToByteString (0x80 + cp / 4096 % 64 : Nat) ++
      intToByteString (0x80 + cp / 64 % 64 : Nat) ++ intToByteString (0x80 + cp % 64 : Nat)

/-- A codepoint, no surrogate, as its UTF-8 text. -/
def jsonUtf8Encode (cp : Nat) : Str := stringEncodeCp cp

def jsonSurrogatePair (s : Str) (high i : Nat) : Option (Str × Nat) :=
  if i + 6 > s.length ∨ stringSlice s i 2 ≠ ascii "\\u" then none
  else do
    let low ← jsonReadHex4 s (i + 2)
    if low ≥ 0xDC00 ∧ low ≤ 0xDFFF then
      let cp := 0x10000 + (high - 0xD800) * 0x400 + (low - 0xDC00)
      some (jsonUtf8Encode cp, i + 6)
    else none

/-- `\uXXXX` with `i` behind the `u`; a high surrogate takes a low one with it. -/
def jsonUnicodeStep (s : Str) (i : Nat) : Except JFail (Str × Nat) := do
  let cp ← jsonNeed (jsonReadHex4 s i) (i - 2) "invalid \\u escape"
  let i1 := i + 4
  if cp ≥ 0xDC00 ∧ cp ≤ 0xDFFF then jsonFail (i - 2) "lone surrogate"
  else if cp ≥ 0xD800 ∧ cp ≤ 0xDBFF then
    jsonNeed (jsonSurrogatePair s cp i1) (i - 2) "lone surrogate"
  else .ok (jsonUtf8Encode cp, i1)

/-- The escape whose letter sits at `i`; a failure is reported at the backslash. -/
def jsonEscapeStep (s : Str) (i : Nat) : Except JFail (Str × Nat) :=
  if i ≥ s.length then jsonFail i "unterminated string"
  else
    let b := stringByteAtInt s i
    if b = 117 then jsonUnicodeStep s (i + 1)
    else do
      let text ← jsonNeed (jsonEscapeDecode b) (i - 1) "invalid escape"
      .ok (text, i + 1)

theorem intToByteString_natCast (n : Nat) : intToByteString n = [UInt8.ofNat n] := by
  have hlow : ((n : Int) % 256).toNat = n % 2 ^ 8 := by omega
  rw [intToByteString, hlow, UInt8.ofNat_mod_size]

theorem jsonUtf8Encode_char (c : Char) : jsonUtf8Encode c.toNat = String.utf8EncodeChar c := by
  have hmax : c.toNat < 0x110000 := by
    have hvalid : c.toNat < 0xd800 ∨ (0xdfff < c.toNat ∧ c.toNat < 0x110000) := c.valid
    omega
  change jsonUtf8Encode c.val.toNat = _
  change c.val.toNat < 0x110000 at hmax
  unfold jsonUtf8Encode stringEncodeCp String.utf8EncodeChar
  simp only [intToByteString_natCast]
  generalize c.val.toNat = v at hmax
  by_cases hone : v < 0x80
  · rw [if_pos hone, if_pos (by omega)]
  by_cases htwo : v < 0x800
  · have hlead : 0xC0 + v / 64 = v / 64 % 0x20 + 0xc0 := by omega
    rw [if_neg hone, if_pos htwo, if_neg (by omega), if_pos (by omega), hlead,
      Nat.add_comm 0x80 (v % 64)]
    rfl
  by_cases hthree : v < 0x10000
  · have hlead : 0xE0 + v / 4096 = v / 4096 % 0x10 + 0xe0 := by omega
    rw [if_neg hone, if_neg htwo, if_pos hthree, if_neg (by omega), if_neg (by omega),
      if_pos (by omega), hlead, Nat.add_comm 0x80 (v / 64 % 64), Nat.add_comm 0x80 (v % 64)]
    rfl
  · have hlead : 0xF0 + v / 262144 = v / 262144 % 0x08 + 0xf0 := by omega
    rw [if_neg hone, if_neg htwo, if_neg hthree, if_neg (by omega), if_neg (by omega),
      if_neg (by omega), hlead, Nat.add_comm 0x80 (v / 4096 % 64), Nat.add_comm 0x80 (v / 64 % 64),
      Nat.add_comm 0x80 (v % 64)]
    rfl

theorem hexDigit_iff {b : UInt8} {d : Nat} :
    jsonHexCharValue (Char.ofNat b.toNat) = some d ↔ HexDigit b d := by
  have hcode : (Char.ofNat b.toNat).toNat = b.toNat := toNat_ofByte b
  rw [jsonHexCharValue, hcode]
  change (if charIsDigit (Char.ofNat b.toNat) = true then some (b.toNat - 48)
    else if 97 ≤ (Char.ofNat b.toNat).toNat ∧ (Char.ofNat b.toNat).toNat ≤ 102 then
      some (b.toNat - 97 + 10)
    else if 65 ≤ (Char.ofNat b.toNat).toNat ∧ (Char.ofNat b.toNat).toNat ≤ 70 then
      some (b.toNat - 65 + 10)
    else none) = some d ↔ _
  rw [hcode]
  constructor
  · intro h
    split_ifs at h with hdigit hlower hupper
    · cases h
      exact HexDigit.digit (charIsDigit_iff.1 hdigit)
    · have hd : d = b.toNat - 87 := by
        rw [← Option.some.inj h]
        omega
      exact hd ▸ HexDigit.lower hlower.1 hlower.2
    · have hd : d = b.toNat - 55 := by
        rw [← Option.some.inj h]
        omega
      exact hd ▸ HexDigit.upper hupper.1 hupper.2
  · intro h
    cases h with
    | digit hdigit => rw [if_pos (charIsDigit_iff.2 hdigit)]
    | lower hlow hhigh =>
        have hdigit : ¬ charIsDigit (Char.ofNat b.toNat) = true := by
          rw [charIsDigit_iff, IsDigit]
          omega
        rw [if_neg hdigit, if_pos ⟨hlow, hhigh⟩, Option.some.injEq]
        omega
    | upper hlow hhigh =>
        have hdigit : ¬ charIsDigit (Char.ofNat b.toNat) = true := by
          rw [charIsDigit_iff, IsDigit]
          omega
        rw [if_neg hdigit, if_neg (by omega), if_pos ⟨hlow, hhigh⟩, Option.some.injEq]
        omega

theorem jsonHex4Loop_iff {s : Str} {i k acc n : Nat} (hs : i + k ≤ s.length) :
    jsonHex4Loop s i (i + k) acc = some n ↔ ∃ t, Spans s i t (i + k) ∧ Hex acc t n := by
  induction k generalizing i acc with
  | zero =>
      rw [jsonHex4Loop, if_pos (by omega), Option.some.injEq]
      constructor
      · rintro rfl
        exact ⟨[], Spans.nil hs, Hex.nil⟩
      · rintro ⟨t, hspan, ht⟩
        cases ht with
        | nil => rfl
        | cons hb ht => exact absurd (hspan.lt (List.cons_ne_nil _ _)) (by omega)
  | succ k ih =>
      have hlt : i < s.length := by omega
      have hb : s[i]? = some s[i] := List.getElem?_eq_getElem hlt
      have hc : charAt s i = some (Char.ofNat s[i].toNat) := by rw [charAt, hb, Option.map_some]
      have hstop : i + (k + 1) = i + 1 + k := by omega
      rw [jsonHex4Loop, if_neg (by omega), hc, hstop]
      simp only
      constructor
      · intro h
        split at h
        · exact absurd h (by simp)
        · next d hd =>
            obtain ⟨t, hspan, ht⟩ := (ih (by omega)).1 h
            exact ⟨_, hspan.cons hb, Hex.cons (hexDigit_iff.1 hd) ht⟩
      · rintro ⟨t, hspan, ht⟩
        cases ht with
        | nil => exact absurd (spans_nil_iff.1 hspan).1 (by omega)
        | cons hd ht =>
            obtain ⟨hfirst, htail⟩ := spans_cons_iff.1 hspan
            obtain rfl := Option.some.inj (hb.symm.trans hfirst)
            rw [hexDigit_iff.2 hd]
            exact (ih (by omega)).2 ⟨_, htail, ht⟩

theorem jsonReadHex4_iff {s : Str} {i n : Nat} :
    jsonReadHex4 s i = some n ↔ ∃ t, Spans s i t (i + 4) ∧ Hex4 t n := by
  rw [jsonReadHex4]
  split_ifs with hshort
  · constructor
    · intro h
      exact absurd h (by simp)
    · rintro ⟨t, hspan, -⟩
      have hinside := hspan.inside
      omega
  · rw [jsonHex4Loop_iff (by omega)]
    constructor
    · rintro ⟨t, hspan, ht⟩
      have hstop := hspan.stop
      exact ⟨t, hspan, by omega, ht⟩
    · rintro ⟨t, hspan, -, ht⟩
      exact ⟨t, hspan, ht⟩

theorem jsonEscapeDecode_iff {b : UInt8} {x : Str} :
    jsonEscapeDecode b.toNat = some x ↔ ∃ d, x = [d] ∧ SimpleEscape b d := by
  have hcode : ∀ {n : Int} {a : UInt8}, (a.toNat : Int) = n → ((b.toNat : Int) = n ↔ b = a) := by
    rintro n a rfl
    rw [Int.ofNat_inj, UInt8.toNat_inj]
  constructor
  · intro h
    unfold jsonEscapeDecode at h
    split_ifs at h with h34 h92 h47 h98 h102 h110 h114 h116
    · obtain rfl : b = 34 := (hcode rfl).1 h34
      exact ⟨_, (Option.some.inj h).symm, SimpleEscape.quote⟩
    · obtain rfl : b = 92 := (hcode rfl).1 h92
      exact ⟨_, (Option.some.inj h).symm, SimpleEscape.backslash⟩
    · obtain rfl : b = 47 := (hcode rfl).1 h47
      exact ⟨_, (Option.some.inj h).symm, SimpleEscape.slash⟩
    · obtain rfl : b = 98 := (hcode rfl).1 h98
      exact ⟨_, (Option.some.inj h).symm, SimpleEscape.backspace⟩
    · obtain rfl : b = 102 := (hcode rfl).1 h102
      exact ⟨_, (Option.some.inj h).symm, SimpleEscape.formFeed⟩
    · obtain rfl : b = 110 := (hcode rfl).1 h110
      exact ⟨_, (Option.some.inj h).symm, SimpleEscape.newline⟩
    · obtain rfl : b = 114 := (hcode rfl).1 h114
      exact ⟨_, (Option.some.inj h).symm, SimpleEscape.carriageReturn⟩
    · obtain rfl : b = 116 := (hcode rfl).1 h116
      exact ⟨_, (Option.some.inj h).symm, SimpleEscape.tab⟩
  · rintro ⟨d, rfl, h⟩
    cases h <;> decide

theorem exists_char {n : Nat} (h : n.isValidChar) : ∃ c : Char, c.toNat = n := by
  refine ⟨Char.ofNat n, ?_⟩
  rw [Char.ofNat, dif_pos h]
  rfl

theorem lt_of_hexDigit {b : UInt8} {d : Nat} (h : HexDigit b d) : d < 16 := by
  cases h with
  | digit hb =>
      unfold IsDigit at hb
      omega
  | lower hlow hhigh => omega
  | upper hlow hhigh => omega

theorem lt_of_hex {v n : Nat} {t : Str} (h : Hex v t n) : n < (v + 1) * 16 ^ t.length := by
  induction h with
  | nil => simp
  | @cons v d n b t hb ht ih =>
      have hd := lt_of_hexDigit hb
      have hle : (v * 16 + d + 1) * 16 ^ t.length ≤ (v + 1) * 16 * 16 ^ t.length :=
        Nat.mul_le_mul_right _ (by omega)
      rw [List.length_cons, pow_succ', ← Nat.mul_assoc]
      exact ih.trans_le hle

theorem lt_of_hex4 {t : Str} {n : Nat} (h : Hex4 t n) : n < 65536 := by
  have hlt := lt_of_hex h.2
  rw [h.1] at hlt
  exact hlt

theorem stringSlice_eq_iff {s t : Str} {i k : Nat} (hi : i + k ≤ s.length) :
    stringSlice s i k = t ↔ Spans s i t (i + k) := by
  have hslice : stringSlice s i k = (s.drop i).take (i + k - i) := by
    rw [stringSlice, Int.toNat_natCast, Int.toNat_natCast, Nat.add_sub_cancel_left]
  rw [hslice]
  constructor
  · intro h
    exact h ▸ spans_slice (Nat.le_add_right i k) hi
  · exact fun h => h.slice

theorem jsonSurrogatePair_iff {s : Str} {high i : Nat} {p : Str × Nat} :
    jsonSurrogatePair s high i = some p ↔ ∃ u low, Spans s i (92 :: 117 :: u) (i + 6) ∧
      Hex4 u low ∧ (0xDC00 ≤ low ∧ low ≤ 0xDFFF) ∧
      p = (jsonUtf8Encode (0x10000 + (high - 0xD800) * 0x400 + (low - 0xDC00)), i + 6) := by
  have hu : ∀ {u : Str}, Spans s i (92 :: 117 :: u) (i + 6) ↔
      Spans s i [92, 117] (i + 2) ∧ Spans s (i + 2) u (i + 6) := by
    intro u
    simp only [spans_cons_iff, spans_nil_iff]
    constructor
    · rintro ⟨hb, hb', h⟩
      exact ⟨⟨hb, hb', trivial, h.start_le⟩, h⟩
    · rintro ⟨⟨hb, hb', -, -⟩, h⟩
      exact ⟨hb, hb', h⟩
  have hguard : i + 6 ≤ s.length → (stringSlice s i 2 = ascii "\\u" ↔ Spans s i [92, 117] (i + 2)) :=
    fun hi => stringSlice_eq_iff (k := 2) (by omega)
  rw [jsonSurrogatePair]
  split_ifs with hshort
  · constructor
    · intro h
      exact absurd h (by simp)
    · rintro ⟨u, low, hspan, -⟩
      have hinside := hspan.inside
      rcases hshort with hshort | hshort
      · omega
      · exact absurd ((hguard hinside).2 (hu.1 hspan).1) hshort
  · rw [not_or, not_not] at hshort
    have hinside : i + 6 ≤ s.length := by omega
    have hopening := (hguard hinside).1 hshort.2
    rw [Option.bind_eq_bind, Option.bind_eq_some_iff]
    constructor
    · rintro ⟨low, hlow, h⟩
      obtain ⟨u, hspan, hhex⟩ := jsonReadHex4_iff.1 hlow
      by_cases hrange : low ≥ 0xDC00 ∧ low ≤ 0xDFFF
      · rw [if_pos hrange] at h
        exact ⟨u, low, hu.2 ⟨hopening, hspan⟩, hhex, hrange, (Option.some.inj h).symm⟩
      · rw [if_neg hrange] at h
        exact absurd h (by simp)
    · rintro ⟨u, low, hspan, hhex, hrange, rfl⟩
      refine ⟨low, jsonReadHex4_iff.2 ⟨u, (hu.1 hspan).2, hhex⟩, ?_⟩
      rw [if_pos hrange]

theorem jsonUnicodeStep_ends {s : Str} {i : Nat} (hi : i ≤ s.length) :
    Ends s (fun p => ∃ e, Spans s i e p.2 ∧ Escape (117 :: e) p.1) (jsonUnicodeStep s i) := by
  rw [jsonUnicodeStep]
  have hback : i - 2 ≤ s.length := by omega
  apply Ends.bind (jsonNeed_ends _ hback fun _ => id)
  intro cp hcp
  obtain ⟨t, hspan, hhex⟩ := jsonReadHex4_iff.1 hcp
  have hlt := lt_of_hex4 hhex
  by_cases hlow : cp ≥ 0xDC00 ∧ cp ≤ 0xDFFF
  · simp only [if_pos hlow]
    exact jsonFail_ends _ hback
  by_cases hhigh : cp ≥ 0xD800 ∧ cp ≤ 0xDBFF
  · simp only [if_neg hlow, if_pos hhigh]
    apply jsonNeed_ends _ hback
    intro p hp
    obtain ⟨u, low, hpair, hu, hrange, rfl⟩ := jsonSurrogatePair_iff.1 hp
    have hvalid : (0x10000 + (cp - 0xD800) * 0x400 + (low - 0xDC00)).isValidChar :=
      Or.inr ⟨by omega, by omega⟩
    obtain ⟨c, hc⟩ := exists_char hvalid
    rw [← hc, jsonUtf8Encode_char]
    exact ⟨t ++ 92 :: 117 :: u, hspan.append hpair, Escape.surrogates hhex hu hhigh hrange hc⟩
  · simp only [if_neg hlow, if_neg hhigh]
    have hvalid : cp.isValidChar := by
      unfold Nat.isValidChar
      omega
    obtain ⟨c, rfl⟩ := exists_char hvalid
    exact ⟨t, hspan, (jsonUtf8Encode_char c).symm ▸ Escape.unicode hhex⟩

theorem jsonEscapeStep_ends {s : Str} {i : Nat} (hi : i ≤ s.length) :
    Ends s (fun p => ∃ e, Spans s i e p.2 ∧ Escape e p.1) (jsonEscapeStep s i) := by
  simp only [jsonEscapeStep]
  split_ifs with hend hletter
  · exact jsonFail_ends _ hi
  · have hb : s[i]? = some 117 := (stringByteAtInt_iff rfl).1 hletter
    apply (jsonUnicodeStep_ends (by omega)).mono
    rintro p ⟨e, hspan, he⟩
    exact ⟨117 :: e, hspan.cons hb, he⟩
  · have hb : s[i]? = some s[i] := List.getElem?_eq_getElem (by omega)
    apply Ends.bind (jsonNeed_ends _ (by omega) fun _ => id)
    intro x hx
    rw [(stringByteAtInt_iff rfl).2 hb] at hx
    obtain ⟨d, rfl, hd⟩ := jsonEscapeDecode_iff.1 hx
    exact ⟨[s[i]], Spans.single hb, Escape.simple hd⟩

theorem escape_ne_nil {e x : Str} (h : Escape e x) : e ≠ [] := by
  cases h <;> simp

theorem jsonEscapeStep_next {s : Str} {i : Nat} {p : Str × Nat} (hi : i ≤ s.length)
    (h : jsonEscapeStep s i = .ok p) : i < p.2 ∧ p.2 ≤ s.length := by
  have hends := jsonEscapeStep_ends hi
  rw [h] at hends
  obtain ⟨e, hspan, he⟩ := hends
  exact ⟨hspan.lt (escape_ne_nil he), hspan.inside⟩

theorem jsonUnicodeStep_char {s t : Str} {i : Nat} {c : Char} (h : Spans s i t (i + 4))
    (ht : Hex4 t c.toNat) :
    jsonUnicodeStep s i = .ok (String.utf8EncodeChar c, i + 4) := by
  have hvalid : c.toNat < 0xd800 ∨ (0xdfff < c.toNat ∧ c.toNat < 0x110000) := c.valid
  have hread := jsonReadHex4_iff.2 ⟨t, h, ht⟩
  have hlow : ¬ (c.toNat ≥ 0xDC00 ∧ c.toNat ≤ 0xDFFF) := by omega
  have hhigh : ¬ (c.toNat ≥ 0xD800 ∧ c.toNat ≤ 0xDBFF) := by omega
  rw [jsonUnicodeStep, hread, ← jsonUtf8Encode_char]
  generalize c.toNat = n at hlow hhigh
  change (if n ≥ 0xDC00 ∧ n ≤ 0xDFFF then _ else if n ≥ 0xD800 ∧ n ≤ 0xDBFF then _ else _) = _
  rw [if_neg hlow, if_neg hhigh]

theorem jsonUnicodeStep_pair {s t u : Str} {i high low : Nat} {c : Char}
    (ht : Spans s i t (i + 4)) (hu : Spans s (i + 4) (92 :: 117 :: u) (i + 4 + 6))
    (hthex : Hex4 t high) (huhex : Hex4 u low) (hhigh : 0xD800 ≤ high ∧ high ≤ 0xDBFF)
    (hlow : 0xDC00 ≤ low ∧ low ≤ 0xDFFF)
    (hc : c.toNat = 0x10000 + (high - 0xD800) * 0x400 + (low - 0xDC00)) :
    jsonUnicodeStep s i = .ok (String.utf8EncodeChar c, i + 4 + 6) := by
  have hread := jsonReadHex4_iff.2 ⟨t, ht, hthex⟩
  have hpair : jsonSurrogatePair s high (i + 4) = some (jsonUtf8Encode c.toNat, i + 4 + 6) := by
    rw [hc]
    exact jsonSurrogatePair_iff.2 ⟨u, low, hu, huhex, hlow, rfl⟩
  have hnot : ¬ (high ≥ 0xDC00 ∧ high ≤ 0xDFFF) := by omega
  rw [jsonUtf8Encode_char] at hpair
  rw [jsonUnicodeStep, hread]
  change (if high ≥ 0xDC00 ∧ high ≤ 0xDFFF then _
    else if high ≥ 0xD800 ∧ high ≤ 0xDBFF then
      jsonNeed (jsonSurrogatePair s high (i + 4)) (i - 2) "lone surrogate" else _) = _
  rw [if_neg hnot, if_pos hhigh, hpair]
  rfl

theorem jsonEscapeStep_letter {s : Str} {i : Nat} (hb : s[i]? = some 117) :
    jsonEscapeStep s i = jsonUnicodeStep s (i + 1) := by
  obtain ⟨hlt, -⟩ := List.getElem?_eq_some_iff.1 hb
  have hletter : stringByteAtInt s i = 117 := (stringByteAtInt_iff rfl).2 hb
  have hinside : ¬ i ≥ s.length := by omega
  simp only [jsonEscapeStep, if_neg hinside, if_pos hletter]

theorem jsonEscapeStep_eq {s e x : Str} {i j : Nat} (h : Spans s i e j) (he : Escape e x) :
    jsonEscapeStep s i = .ok (x, j) := by
  cases he with
  | @simple b d hd =>
      obtain ⟨hb, hend⟩ := spans_cons_iff.1 h
      obtain ⟨rfl, -⟩ := spans_nil_iff.1 hend
      obtain ⟨hlt, -⟩ := List.getElem?_eq_some_iff.1 hb
      have hinside : ¬ i ≥ s.length := by omega
      have hcode : stringByteAtInt s i = b.toNat := (stringByteAtInt_iff rfl).2 hb
      have hletter : ¬ (b.toNat : Int) = 117 := by cases hd <;> decide
      have hdecode := jsonEscapeDecode_iff.2 ⟨d, rfl, hd⟩
      simp only [jsonEscapeStep, if_neg hinside, hcode, if_neg hletter, hdecode]
      rfl
  | unicode ht =>
      obtain ⟨hb, h⟩ := spans_cons_iff.1 h
      have hstop := h.stop
      rw [ht.1] at hstop
      subst hstop
      rw [jsonEscapeStep_letter hb, jsonUnicodeStep_char h ht]
  | surrogates ht hu hhigh hlow hc =>
      rw [List.cons_append, spans_cons_iff] at h
      obtain ⟨hb, h⟩ := h
      obtain ⟨k, hspan, hpair⟩ := spans_append_iff.1 h
      have hmid := hspan.stop
      have hstop := hpair.stop
      rw [ht.1] at hmid
      rw [List.length_cons, List.length_cons, hu.1] at hstop
      subst hmid hstop
      rw [jsonEscapeStep_letter hb, jsonUnicodeStep_pair hspan hpair ht hu hhigh hlow hc]

/-- Decoding from `i`: `run` is the start of the pending run of unescaped bytes, `parts` the
pieces before it, newest first. -/
def jsonParseStringLoop (s : Str) (i run : Nat) (parts : List Str) : Except JFail (JParse ρ) :=
  if hi : i ≥ s.length then jsonFail i "unterminated string"
  else
    let b := stringByteAtInt s i
    if b = 34 then jpOk (.jStr (jsonFlush s run i parts).reverse.flatten) (i + 1)
    else if b < 32 then jsonFail i "control character in string"
    else if b = 92 then
      match _ : jsonEscapeStep s (i + 1) with
      | .error f => .error f
      | .ok st => jsonParseStringLoop s st.2 st.2 (st.1 :: jsonFlush s run i parts)
    else jsonParseStringLoop s (i + 1) run parts
termination_by s.length - i
decreasing_by
  · have hnext := jsonEscapeStep_next (by omega) ‹jsonEscapeStep s (i + 1) = .ok st›
    omega
  · omega

/-- A string literal whose opening quote sits at `i`. -/
def jsonParseString (s : Str) (i : Nat) : Except JFail (JParse ρ) :=
  jsonParseStringLoop s (i + 1) (i + 1) []

theorem jsonFlush_flatten {s r : Str} {run i : Nat} (parts : List Str) (h : Spans s run r i) :
    (jsonFlush s run i parts).reverse.flatten = parts.reverse.flatten ++ r := by
  rw [jsonFlush]
  split_ifs with hlt
  · rw [stringSlice_eq h, List.reverse_cons, List.flatten_concat]
  · have hempty : r = [] := by
      by_contra hne
      exact hlt (h.lt hne)
    rw [hempty, List.append_nil]

theorem jsonParseStringLoop_ends (s : Str) {i run : Nat} {r : Str} (parts : List Str)
    (hi : i ≤ s.length) (hrun : Spans s run r i) :
    Ends s (fun p : JParse ρ => ∃ t d, Spans s i (t ++ [34]) p.i ∧ Chars t d ∧
      p.v = .jStr (parts.reverse.flatten ++ r ++ d)) (jsonParseStringLoop s i run parts) := by
  rw [jsonParseStringLoop]
  split_ifs with hend
  · exact jsonFail_ends _ hi
  have hlt : i < s.length := by omega
  have hb : s[i]? = some s[i] := List.getElem?_eq_getElem hlt
  have hcode : stringByteAtInt s i = s[i].toNat := (stringByteAtInt_iff rfl).2 hb
  simp only
  split_ifs with hquote hcontrol hbackslash
  · have hspan := Spans.single ((stringByteAtInt_iff (b := 34) rfl).1 hquote)
    refine ⟨[], [], hspan, Chars.nil, ?_⟩
    rw [jsonFlush_flatten parts hrun, List.append_nil]
  · exact jsonFail_ends _ hi
  · have hstart : s[i]? = some 92 := (stringByteAtInt_iff rfl).1 hbackslash
    split
    · next f hf =>
        have hends := jsonEscapeStep_ends hlt
        rw [hf] at hends
        exact hends
    · next st hst =>
        have hends := jsonEscapeStep_ends hlt
        rw [hst] at hends
        obtain ⟨e, hspan, he⟩ := hends
        have hnext := hspan.lt (escape_ne_nil he)
        apply (jsonParseStringLoop_ends s (st.1 :: jsonFlush s run i parts) hspan.inside
          (Spans.nil hspan.inside)).mono
        rintro p ⟨t, d, ht, hd, hv⟩
        refine ⟨92 :: e ++ t, st.1 ++ d, ?_, Chars.escape he hd, ?_⟩
        · rw [List.cons_append, List.cons_append, List.append_assoc]
          exact (hspan.append ht).cons hstart
        · rw [hv, List.reverse_cons, List.flatten_concat, jsonFlush_flatten parts hrun]
          simp only [List.append_assoc, List.append_nil]
  · apply (jsonParseStringLoop_ends s parts hlt (hrun.snoc hb)).mono
    rintro p ⟨t, d, ht, hd, hv⟩
    refine ⟨s[i] :: t, s[i] :: d, ht.cons hb, Chars.plain ?_ ?_ ?_ hd, ?_⟩
    · rw [hcode] at hcontrol
      omega
    · intro h34
      exact hquote ((stringByteAtInt_iff rfl).2 (h34 ▸ hb))
    · intro h92
      exact hbackslash ((stringByteAtInt_iff rfl).2 (h92 ▸ hb))
    · rw [hv]
      simp only [List.append_assoc, List.cons_append, List.nil_append]
termination_by s.length - i

theorem jsonParseStringLoop_eq {s t d : Str} {i run j : Nat} {r : Str} (parts : List Str)
    (ht : Chars t d) (h : Spans s i t j) (hquote : s[j]? = some 34) (hrun : Spans s run r i) :
    jsonParseStringLoop s i run parts =
      .ok (⟨.jStr (parts.reverse.flatten ++ r ++ d), j + 1⟩ : JParse ρ) := by
  induction ht generalizing i run r parts with
  | nil =>
      obtain ⟨rfl, -⟩ := spans_nil_iff.1 h
      obtain ⟨hlt, -⟩ := List.getElem?_eq_some_iff.1 hquote
      have hcode : stringByteAtInt s i = 34 := (stringByteAtInt_iff rfl).2 hquote
      rw [jsonParseStringLoop, dif_neg (by omega)]
      simp only
      rw [if_pos hcode, jsonFlush_flatten parts hrun, List.append_nil]
      rfl
  | @plain b t d hcontrol hne34 hne92 ht ih =>
      obtain ⟨hb, h⟩ := spans_cons_iff.1 h
      obtain ⟨hlt, -⟩ := List.getElem?_eq_some_iff.1 hb
      have hcode : stringByteAtInt s i = b.toNat := (stringByteAtInt_iff rfl).2 hb
      have h34 : ¬ (b.toNat : Int) = 34 := by
        intro h34
        exact hne34 (UInt8.toNat_inj.1 (Int.ofNat_inj.1 h34))
      have h92 : ¬ (b.toNat : Int) = 92 := by
        intro h92
        exact hne92 (UInt8.toNat_inj.1 (Int.ofNat_inj.1 h92))
      rw [jsonParseStringLoop, dif_neg (by omega), hcode]
      simp only
      rw [if_neg h34, if_neg (by omega), if_neg h92, ih parts h (hrun.snoc hb)]
      simp only [List.append_assoc, List.cons_append, List.nil_append]
  | @escape e x t d he ht ih =>
      rw [List.cons_append, spans_cons_iff] at h
      obtain ⟨hb, h⟩ := h
      obtain ⟨k, hesc, h⟩ := spans_append_iff.1 h
      obtain ⟨hlt, -⟩ := List.getElem?_eq_some_iff.1 hb
      have hcode : stringByteAtInt s i = 92 := (stringByteAtInt_iff rfl).2 hb
      have hstep := jsonEscapeStep_eq hesc he
      rw [jsonParseStringLoop, dif_neg (by omega), hcode]
      simp only
      rw [if_neg (by decide), if_neg (by decide), if_pos trivial]
      split
      · next f hf => exact absurd (hf.symm.trans hstep) (by simp)
      · next st hst =>
          obtain rfl := Except.ok.inj (hst.symm.trans hstep)
          rw [ih _ h (Spans.nil h.start_le), List.reverse_cons, List.flatten_concat,
            jsonFlush_flatten parts hrun]
          simp only [List.append_assoc, List.append_nil]

theorem jsonParseString_ends {s : Str} {i : Nat} (hb : s[i]? = some 34) :
    Ends s (fun p : JParse ρ => ∃ t d, Spans s i (34 :: t ++ [34]) p.i ∧ Chars t d ∧
      p.v = .jStr d) (jsonParseString s i) := by
  obtain ⟨hlt, -⟩ := List.getElem?_eq_some_iff.1 hb
  apply (jsonParseStringLoop_ends s [] hlt (Spans.nil hlt)).mono
  rintro p ⟨t, d, hspan, ht, hv⟩
  exact ⟨t, d, hspan.cons hb, ht, hv⟩

theorem jsonParseString_eq {s t d : Str} {i j : Nat} (h : Spans s i (34 :: t ++ [34]) j)
    (ht : Chars t d) : jsonParseString s i = .ok (⟨.jStr d, j⟩ : JParse ρ) := by
  rw [List.cons_append, spans_cons_iff] at h
  obtain ⟨-, h⟩ := h
  obtain ⟨k, hspan, hend⟩ := spans_append_iff.1 h
  obtain ⟨hquote, hend⟩ := spans_cons_iff.1 hend
  obtain ⟨rfl, -⟩ := spans_nil_iff.1 hend
  exact jsonParseStringLoop_eq [] ht hspan hquote (Spans.nil hspan.start_le)

end Kaikai.Json
