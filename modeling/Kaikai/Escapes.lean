import Kaikai.Decimal

/-!
The escape table that string and character literals share: `esc_decode_at`
reads the escape behind a backslash and answers its bytes with the offset past
it, or a message with the offset of the backslash.
-/

namespace Kaikai.Escapes

open Str Decimal

inductive EscStep where
  | ok (bytes : Str) (next : Nat)
  | bad (msg : Str) (backslash : Nat)
deriving DecidableEq

def escMaxCp : Int := 1114111

def escSurrogateLo : Int := 55296

def escSurrogateHi : Int := 57343

def escMaxUDigits : Nat := 6

def chIsDigit (c : Char) : Bool := decide ('0'.toNat ≤ c.toNat ∧ c.toNat ≤ '9'.toNat)

/-- The value of a hexadecimal digit, negative on any other character. -/
def escHexVal (c : Char) : Int :=
  if chIsDigit c then (c.toNat : Int) - '0'.toNat
  else if 'a'.toNat ≤ c.toNat ∧ c.toNat ≤ 'f'.toNat then (c.toNat : Int) - 'a'.toNat + 10
  else if 'A'.toNat ≤ c.toNat ∧ c.toNat ≤ 'F'.toNat then (c.toNat : Int) - 'A'.toNat + 10
  else 0 - 1

def escCharStr (c : Char) : Str := intToByteString c.toNat

def escHexLetter (d : Nat) : Str :=
  if d = 10 then ascii "A" else if d = 11 then ascii "B" else if d = 12 then ascii "C"
  else if d = 13 then ascii "D" else if d = 14 then ascii "E" else ascii "F"

def escHexDigit (d : Nat) : Str := if d < 10 then intToString d else escHexLetter d

def escHexRender (v : Nat) : Str :=
  if v < 16 then escHexDigit v else escHexRender (v / 16) ++ escHexDigit (v % 16)

/-- The simple escapes; `-1` is no simple escape. -/
def escSimpleVal (c : Char) : Int :=
  match c with
  | 'n' => 10
  | 't' => 9
  | 'r' => 13
  | '0' => 0
  | '\\' => 92
  | '"' => 34
  | '\'' => 39
  | _ => 0 - 1

/-- The spelling that replaces a retired escape. -/
def escRetiredHint (c : Char) : Str :=
  match c with
  | 'a' => ascii "\\x07"
  | 'b' => ascii "\\x08"
  | 'f' => ascii "\\x0C"
  | 'v' => ascii "\\x0B"
  | _ => []

def escUtf8Encode (cp : Int) : Str :=
  if cp < 128 then intToByteString cp
  else if cp < 2048 then intToByteString (192 + cp / 64) ++ intToByteString (128 + cp % 64)
  else if cp < 65536 then
    intToByteString (224 + cp / 4096) ++ intToByteString (128 + cp / 64 % 64) ++
      intToByteString (128 + cp % 64)
  else
    intToByteString (240 + cp / 262144) ++ intToByteString (128 + cp / 4096 % 64) ++
      intToByteString (128 + cp / 64 % 64) ++ intToByteString (128 + cp % 64)

/-- A scanned `\u` payload: the value and the offset past its closing brace. -/
inductive UScan where
  | ok (cp : Int) (next : Nat)
  | bad (msg : Str)

def escURangeCheck (acc : Int) (next : Nat) : UScan :=
  if acc > escMaxCp then
    .bad (ascii "codepoint '\\u\x7b" ++ escHexRender acc.toNat ++
      ascii "\x7d' is above the maximum U+10FFFF")
  else if acc ≥ escSurrogateLo ∧ acc ≤ escSurrogateHi then
    .bad (ascii "codepoint '\\u\x7b" ++ escHexRender acc.toNat ++
      ascii "\x7d' is a UTF-16 surrogate and cannot be encoded as UTF-8")
  else .ok acc next

def escUDigitStep (c : Char) (acc : Int) (digits : Nat) : UScan :=
  if digits ≥ escMaxUDigits then
    .bad (ascii "too many hex digits in '\\u\x7b...\x7d' escape: expected 1 to 6")
  else if escHexVal c < 0 then
    .bad (ascii "invalid hex digit '" ++ escCharStr c ++ ascii "' in '\\u\x7b...\x7d' escape")
  else .ok (acc * 16 + escHexVal c) 0

def escUClose (acc : Int) (next digits : Nat) : UScan :=
  if digits = 0 then .bad (ascii "empty '\\u\x7b\x7d' escape: expected 1 to 6 hex digits")
  else escURangeCheck acc next

/-- The digits of a `\u` payload; `esc_u_at` is the branch on the byte read. -/
def escScanUDigits (s : Str) (i n : Nat) (acc : Int) (digits : Nat) : UScan :=
  if i < n then
    match charAt s i with
    | none => .bad (ascii "unterminated '\\u\x7b...\x7d' escape: missing '\x7d'")
    | some c =>
        if c = '}' then escUClose acc (i + 1) digits
        else
          match escUDigitStep c acc digits with
          | .bad m => .bad m
          | .ok acc2 _ => escScanUDigits s (i + 1) n acc2 (digits + 1)
  else .bad (ascii "unterminated '\\u\x7b...\x7d' escape: missing '\x7d'")
termination_by n - i

/-- `i` sits just past the `u`. -/
def escScanU (s : Str) (i n : Nat) : UScan :=
  match charAt s i with
  | some c =>
      if c = '{' then escScanUDigits s (i + 1) n 0 0
      else .bad (ascii "incomplete '\\u' escape: write '\\u\x7b...\x7d'")
  | none => .bad (ascii "incomplete '\\u' escape: write '\\u\x7b...\x7d'")

inductive XScan where
  | ok (v : Int)
  | bad (msg : Str)

def escScanXVals (v1 v2 : Int) : XScan :=
  if v1 < 0 ∨ v2 < 0 then .bad (ascii "invalid '\\x' escape: expected exactly two hex digits")
  else .ok (v1 * 16 + v2)

def escScanXPair (a b : Option Char) : XScan :=
  match a with
  | none => .bad (ascii "incomplete '\\x' escape: expected exactly two hex digits")
  | some c1 =>
      match b with
      | none => .bad (ascii "incomplete '\\x' escape: expected exactly two hex digits")
      | some c2 => escScanXVals (escHexVal c1) (escHexVal c2)

def escScanX (s : Str) (i n : Nat) : XScan :=
  if i + 1 ≥ n then .bad (ascii "incomplete '\\x' escape: expected exactly two hex digits")
  else escScanXPair (charAt s i) (charAt s (i + 1))

/-- What is said of a character outside the table. -/
def escRejectMsg (c : Char) : Str :=
  if '1'.toNat ≤ c.toNat ∧ c.toNat ≤ '7'.toNat then
    ascii "octal escapes are not supported; write the byte as '\\xHH'"
  else if c = '?' then ascii "escape '\\?' is not supported; write '?'"
  else if escRetiredHint c ≠ [] then
    ascii "escape '\\" ++ escCharStr c ++ ascii "' is not supported; write '" ++
      escRetiredHint c ++ ascii "'"
  else
    ascii "unknown escape sequence '\\" ++ escCharStr c ++ ascii "'; write '\\\\" ++
      escCharStr c ++ ascii "' for a literal backslash"

def escDecodeKind (s : Str) (bs i n : Nat) (c : Char) : EscStep :=
  if 0 ≤ escSimpleVal c then .ok (intToByteString (escSimpleVal c)) (i + 1)
  else if c = 'x' then
    match escScanX s (i + 1) n with
    | .ok v => .ok (intToByteString v) (i + 3)
    | .bad m => .bad m bs
  else if c = 'u' then
    match escScanU s (i + 1) n with
    | .ok cp next => .ok (escUtf8Encode cp) next
    | .bad m => .bad m bs
  else .bad (escRejectMsg c) bs

/-- One escape sequence: `bs` is the offset of the backslash, `i` sits past it. -/
def escDecodeAt (s : Str) (bs i n : Nat) : EscStep :=
  match charAt s i with
  | none => .bad (ascii "trailing '\\' with no escape character") bs
  | some c => escDecodeKind s bs i n c

/-- The bytes from `i` up to `j` hold no `#`. -/
def HashFree (s : Str) (i j : Nat) : Prop := ∀ k, i ≤ k → k < j → charAt s k ≠ some '#'

theorem hashFree_self (s : Str) (i : Nat) : HashFree s i i := by
  intro k hlow hhigh
  omega

theorem HashFree.cons {s : Str} {i j : Nat} {c : Char} (hc : charAt s i = some c) (hne : c ≠ '#')
    (h : HashFree s (i + 1) j) : HashFree s i j := by
  intro k hlow hhigh
  rcases Nat.eq_or_lt_of_le hlow with rfl | hlt
  · rw [hc]
    exact fun heq => hne (Option.some.inj heq)
  · exact h k hlt hhigh

theorem hashFree_single {s : Str} {i : Nat} {c : Char} (hc : charAt s i = some c) (hne : c ≠ '#') :
    HashFree s i (i + 1) :=
  HashFree.cons hc hne (hashFree_self s (i + 1))

theorem lt_of_charAt {s : Str} {i : Nat} {c : Char} (h : charAt s i = some c) : i < s.length := by
  unfold charAt at h
  rw [Option.map_eq_some_iff] at h
  obtain ⟨b, hb, -⟩ := h
  exact (List.getElem?_eq_some_iff.mp hb).1

theorem ne_hash_of_escHexVal {c : Char} (h : ¬ escHexVal c < 0) : c ≠ '#' := by
  rintro rfl
  exact h (by decide)

theorem ne_hash_of_escSimpleVal {c : Char} (h : 0 ≤ escSimpleVal c) : c ≠ '#' := by
  rintro rfl
  exact absurd h (by decide)

/-- The extent of an escape read from `i` on: forward, inside the source and
without a `#`. -/
structure Extent (s : Str) (i next : Nat) : Prop where
  lt : i < next
  le : next ≤ s.length
  hashFree : HashFree s i next

theorem Extent.cons {s : Str} {i next : Nat} {c : Char} (hc : charAt s i = some c) (hne : c ≠ '#')
    (h : Extent s (i + 1) next) : Extent s i next where
  lt := Nat.lt_of_succ_lt h.lt
  le := h.le
  hashFree := h.hashFree.cons hc hne

theorem extent_single {s : Str} {i : Nat} {c : Char} (hc : charAt s i = some c) (hne : c ≠ '#') :
    Extent s i (i + 1) where
  lt := Nat.lt_succ_self i
  le := lt_of_charAt hc
  hashFree := hashFree_single hc hne

theorem escUClose_ok {acc cp : Int} {next digits j : Nat} (h : escUClose acc next digits = .ok cp j) :
    j = next := by
  unfold escUClose escURangeCheck at h
  split at h
  · cases h
  · split at h
    · cases h
    · split at h
      · cases h
      · cases h
        rfl

theorem escUDigitStep_ok {c : Char} {acc acc2 : Int} {digits j : Nat}
    (h : escUDigitStep c acc digits = .ok acc2 j) : c ≠ '#' := by
  unfold escUDigitStep at h
  split at h
  · cases h
  · split at h
    · cases h
    · next hval => exact ne_hash_of_escHexVal hval

theorem escScanUDigits_ok {s : Str} {i n digits next : Nat} {acc cp : Int}
    (h : escScanUDigits s i n acc digits = .ok cp next) : Extent s i next := by
  induction i, acc, digits using escScanUDigits.induct s n with
  | case1 i acc digits hlt hnone =>
      rw [escScanUDigits, if_pos hlt, hnone] at h
      cases h
  | case2 i acc digits hlt hclose =>
      rw [escScanUDigits, if_pos hlt, hclose] at h
      simp only [if_pos] at h
      rw [escUClose_ok h]
      exact extent_single hclose (by decide)
  | case3 i acc digits hlt c hc hclose m hstep =>
      rw [escScanUDigits, if_pos hlt, hc] at h
      simp only [if_neg hclose, hstep] at h
      cases h
  | case4 i acc digits hlt c hc hclose acc2 j hstep ih =>
      rw [escScanUDigits, if_pos hlt, hc] at h
      simp only [if_neg hclose, hstep] at h
      exact (ih h).cons hc (escUDigitStep_ok hstep)
  | case5 i acc digits hlt =>
      rw [escScanUDigits, if_neg hlt] at h
      cases h

theorem escScanU_ok {s : Str} {i n next : Nat} {cp : Int} (h : escScanU s i n = .ok cp next) :
    Extent s i next := by
  unfold escScanU at h
  split at h
  · next c hc =>
      split at h
      · next hopen =>
          subst hopen
          exact (escScanUDigits_ok h).cons hc (by decide)
      · cases h
  · cases h

theorem escScanX_ok {s : Str} {i n : Nat} {v : Int} (h : escScanX s i n = .ok v) :
    Extent s i (i + 2) := by
  unfold escScanX at h
  split at h
  · cases h
  · unfold escScanXPair at h
    split at h
    · cases h
    · next c1 hc1 =>
        split at h
        · cases h
        · next c2 hc2 =>
            unfold escScanXVals at h
            split at h
            · cases h
            · next hvals =>
                rw [not_or] at hvals
                exact (extent_single hc2 (ne_hash_of_escHexVal hvals.2)).cons hc1
                  (ne_hash_of_escHexVal hvals.1)

theorem escDecodeKind_ok {s : Str} {bs i n next : Nat} {c : Char} {bytes : Str}
    (hc : charAt s i = some c) (h : escDecodeKind s bs i n c = .ok bytes next) :
    Extent s i next := by
  unfold escDecodeKind at h
  split at h
  · next hsimple =>
      cases h
      exact extent_single hc (ne_hash_of_escSimpleVal hsimple)
  · split at h
    · next hx =>
        subst hx
        split at h
        · next v hv =>
            cases h
            exact (escScanX_ok hv).cons hc (by decide)
        · cases h
    · split at h
      · next hu =>
          subst hu
          split at h
          · next cp j hcp =>
              cases h
              exact (escScanU_ok hcp).cons hc (by decide)
          · cases h
      · cases h

theorem escDecodeAt_ok {s : Str} {bs i n next : Nat} {bytes : Str}
    (h : escDecodeAt s bs i n = .ok bytes next) : Extent s i next := by
  unfold escDecodeAt at h
  split at h
  · cases h
  · next c hc => exact escDecodeKind_ok hc h

end Kaikai.Escapes
