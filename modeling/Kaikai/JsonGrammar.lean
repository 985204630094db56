import Kaikai.Utf8
import Kaikai.Decimal

namespace Kaikai.Json

open Kaikai.Decimal
open Kaikai.Str

variable {ρ : Type}

/-- A JSON tree; the reals are those of the runtime. -/
inductive JsonValue (ρ : Type) where
  | jNull
  | jBool (b : Bool)
  | jNum (n : Int)
  | jReal (r : ρ)
  | jStr (s : Str)
  | jArr (xs : List (JsonValue ρ))
  | jObj (ps : List (Str × JsonValue ρ))

def IsBlank (b : UInt8) : Prop := b = 32 ∨ b = 9 ∨ b = 10 ∨ b = 13

/-- Insignificant whitespace. -/
def Blank (t : Str) : Prop := ∀ b ∈ t, IsBlank b

inductive HexDigit : UInt8 → Nat → Prop
  | digit {b : UInt8} (h : IsDigit b) : HexDigit b (b.toNat - 48)
  | lower {b : UInt8} (hlow : 97 ≤ b.toNat) (hhigh : b.toNat ≤ 102) : HexDigit b (b.toNat - 87)
  | upper {b : UInt8} (hlow : 65 ≤ b.toNat) (hhigh : b.toNat ≤ 70) : HexDigit b (b.toNat - 55)

/-- Hex digits after the digits of `v` spell `n`. -/
inductive Hex : Nat → Str → Nat → Prop
  | nil {v : Nat} : Hex v [] v
  | cons {v d n : Nat} {b : UInt8} {t : Str} (hb : HexDigit b d) (ht : Hex (v * 16 + d) t n) :
      Hex v (b :: t) n

def Hex4 (t : Str) (n : Nat) : Prop := t.length = 4 ∧ Hex 0 t n

/-- The eight simple escapes, by letter. -/
inductive SimpleEscape : UInt8 → UInt8 → Prop
  | quote : SimpleEscape 34 34
  | backslash : SimpleEscape 92 92
  | slash : SimpleEscape 47 47
  | backspace : SimpleEscape 98 8
  | formFeed : SimpleEscape 102 12
  | newline : SimpleEscape 110 10
  | carriageReturn : SimpleEscape 114 13
  | tab : SimpleEscape 116 9

/-- What follows a backslash, with the bytes it stands for. A `Char` is no surrogate. -/
inductive Escape : Str → Str → Prop
  | simple {b d : UInt8} (h : SimpleEscape b d) : Escape [b] [d]
  | unicode {t : Str} {c : Char} (h : Hex4 t c.toNat) :
      Escape (117 :: t) (String.utf8EncodeChar c)
  | surrogates {t u : Str} {high low : Nat} {c : Char} (ht : Hex4 t high) (hu : Hex4 u low)
      (hhigh : 0xD800 ≤ high ∧ high ≤ 0xDBFF) (hlow : 0xDC00 ≤ low ∧ low ≤ 0xDFFF)
      (hc : c.toNat = 0x10000 + (high - 0xD800) * 0x400 + (low - 0xDC00)) :
      Escape (117 :: t ++ 92 :: 117 :: u) (String.utf8EncodeChar c)

/-- The inside of a string literal, with the bytes it denotes. -/
inductive Chars : Str → Str → Prop
  | nil : Chars [] []
  | plain {b : UInt8} {t d : Str} (hcontrol : 32 ≤ b.toNat) (hquote : b ≠ 34)
      (hbackslash : b ≠ 92) (ht : Chars t d) : Chars (b :: t) (b :: d)
  | escape {e x t d : Str} (he : Escape e x) (ht : Chars t d) : Chars (92 :: e ++ t) (x ++ d)

/-- The integer part of a number: no leading zero. -/
inductive IntPart : Str → Int → Prop
  | nonneg {t : Str} {n : Nat} (h : Canonical t n) : IntPart t n
  | neg {t : Str} {n : Nat} (h : Canonical t n) : IntPart (45 :: t) (-n)

/-- One digit or more. -/
def Digits (t : Str) : Prop := AllDigits t ∧ t ≠ []

inductive FracPart : Str → Prop
  | none : FracPart []
  | some {t : Str} (h : Digits t) : FracPart (46 :: t)

inductive Sign : Str → Prop
  | none : Sign []
  | plus : Sign [43]
  | minus : Sign [45]

inductive ExpPart : Str → Prop
  | none : ExpPart []
  | some {e : UInt8} {sign t : Str} (he : e = 101 ∨ e = 69) (hsign : Sign sign) (h : Digits t) :
      ExpPart (e :: sign ++ t)

/-- A number lexeme: an integer of 64 bits, or one with a fraction or an exponent that the
runtime reads as a real. -/
inductive Number (stringToReal : Str → Option ρ) : Str → JsonValue ρ → Prop
  | int {t : Str} {n : Int} (ht : IntPart t n) (hn : Word64.InRange n) :
      Number stringToReal t (.jNum n)
  | real {t f e : Str} {n : Int} {r : ρ} (ht : IntPart t n) (hf : FracPart f) (he : ExpPart e)
      (hne : f ++ e ≠ []) (hr : stringToReal (t ++ f ++ e) = some r) :
      Number stringToReal (t ++ f ++ e) (.jReal r)

/-- What a text can denote: a value, or the inside of a container. -/
inductive Part (ρ : Type) where
  | value (v : JsonValue ρ)
  | elements (vs : List (JsonValue ρ))
  | members (ps : List (Str × JsonValue ρ))

/-- The grammar of RFC 8259, with what each text denotes. -/
inductive Denotes (stringToReal : Str → Option ρ) : Str → Part ρ → Prop
  | null : Denotes stringToReal (ascii "null") (.value .jNull)
  | true : Denotes stringToReal (ascii "true") (.value (.jBool Bool.true))
  | false : Denotes stringToReal (ascii "false") (.value (.jBool Bool.false))
  | number {t : Str} {v : JsonValue ρ} (h : Number stringToReal t v) :
      Denotes stringToReal t (.value v)
  | string {t d : Str} (h : Chars t d) :
      Denotes stringToReal (34 :: t ++ [34]) (.value (.jStr d))
  | emptyArray {w : Str} (hw : Blank w) :
      Denotes stringToReal (91 :: w ++ [93]) (.value (.jArr []))
  | array {t : Str} {vs : List (JsonValue ρ)} (h : Denotes stringToReal t (.elements vs)) :
      Denotes stringToReal (91 :: t ++ [93]) (.value (.jArr vs))
  | emptyObject {w : Str} (hw : Blank w) :
      Denotes stringToReal (123 :: w ++ [125]) (.value (.jObj []))
  | object {t : Str} {ps : List (Str × JsonValue ρ)} (h : Denotes stringToReal t (.members ps)) :
      Denotes stringToReal (123 :: t ++ [125]) (.value (.jObj ps))
  | lastElement {w t w' : Str} {v : JsonValue ρ} (hw : Blank w)
      (ht : Denotes stringToReal t (.value v)) (hw' : Blank w') :
      Denotes stringToReal (w ++ t ++ w') (.elements [v])
  | element {w t w' u : Str} {v : JsonValue ρ} {vs : List (JsonValue ρ)} (hw : Blank w)
      (ht : Denotes stringToReal t (.value v)) (hw' : Blank w')
      (hu : Denotes stringToReal u (.elements vs)) :
      Denotes stringToReal (w ++ t ++ w' ++ 44 :: u) (.elements (v :: vs))
  | lastMember {w k d w' x t y : Str} {v : JsonValue ρ} (hw : Blank w) (hk : Chars k d)
      (hw' : Blank w') (hx : Blank x) (ht : Denotes stringToReal t (.value v)) (hy : Blank y) :
      Denotes stringToReal (w ++ (34 :: k ++ 34 :: w' ++ 58 :: x) ++ t ++ y) (.members [(d, v)])
  | member {w k d w' x t y u : Str} {v : JsonValue ρ} {ps : List (Str × JsonValue ρ)}
      (hw : Blank w) (hk : Chars k d) (hw' : Blank w') (hx : Blank x)
      (ht : Denotes stringToReal t (.value v)) (hy : Blank y)
      (hu : Denotes stringToReal u (.members ps)) :
      Denotes stringToReal (w ++ (34 :: k ++ 34 :: w' ++ 58 :: x) ++ t ++ y ++ 44 :: u)
        (.members ((d, v) :: ps))

/-- A whole text: one value, and whitespace around it. -/
def Text (stringToReal : Str → Option ρ) (s : Str) (v : JsonValue ρ) : Prop :=
  ∃ w t w', Blank w ∧ Denotes stringToReal t (.value v) ∧ Blank w' ∧ s = w ++ t ++ w'

end Kaikai.Json
