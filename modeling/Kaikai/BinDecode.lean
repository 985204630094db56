import Kaikai.BinShape
import Kaikai.Stretch

namespace Kaikai.BinSer

open Kaikai.Str
open Kaikai.Word64
open Kaikai.Stretch

/-- An `Array[Byte]`. Its slots are pointers of eight bytes, and no allocation is granted
`2 ^ 63` bytes. -/
structure Bytes where
  val : Str
  fits : val.length < 2 ^ 60

/-- The answer of a decoder: a value and the cursor past it, an error, the end of the program,
or no answer within the calls allowed. -/
inductive Decoded (α : Type) where
  | ok (value : α) (pos : Int)
  | err (m : String)
  | trap (t : Trap)
  | unfinished

namespace Decoded

variable {α β γ : Type}

def bind (r : Decoded α) (next : α → Int → Decoded β) : Decoded β :=
  match r with
  | ok v p => next v p
  | err m => err m
  | trap t => trap t
  | unfinished => unfinished

/-- A computation of the runtime inside a decoder. -/
def run (r : Run α) (next : α → Decoded β) : Decoded β :=
  match r with
  | .ok v => next v
  | .error t => trap t

@[simp] theorem bind_ok (v : α) (p : Int) (next : α → Int → Decoded β) :
    (ok v p).bind next = next v p := rfl

@[simp] theorem run_ok (v : α) (next : α → Decoded β) : run (.ok v) next = next v := rfl

theorem bind_eq_ok_iff {r : Decoded α} {next : α → Int → Decoded β} {w : β} {q : Int} :
    r.bind next = ok w q ↔ ∃ v p, r = ok v p ∧ next v p = ok w q := by
  cases r <;> simp [bind]

theorem run_eq_ok_iff {r : Run α} {next : α → Decoded β} {w : β} {q : Int} :
    run r next = ok w q ↔ ∃ v, r = .ok v ∧ next v = ok w q := by
  cases r <;> simp [run]

/-- `r` answers what `r'` does, as far as it answers. -/
def Le (r r' : Decoded α) : Prop := r = unfinished ∨ r = r'

theorem Le.refl (r : Decoded α) : Le r r := Or.inr rfl

theorem Le.bind {r r' : Decoded α} {next next' : α → Int → Decoded β} (h : Le r r')
    (hnext : ∀ v p, Le (next v p) (next' v p)) : Le (r.bind next) (r'.bind next') := by
  rcases h with rfl | rfl
  · exact Or.inl rfl
  · cases r with
    | ok v p => exact hnext v p
    | _ => exact Le.refl _

theorem Le.run {r : Run α} {next next' : α → Decoded β} (hnext : ∀ v, Le (next v) (next' v)) :
    Le (Decoded.run r next) (Decoded.run r next') := by
  cases r with
  | ok v => exact hnext v
  | error t => exact Le.refl _

end Decoded

variable (buf : Bytes)

def binIntEnd (pos : Int) : Int := if binHave buf.val pos 8 then add pos 8 else -1

def binBoolEnd (pos : Int) : Run Int :=
  if !binHave buf.val pos 1 then .ok (-1)
  else do return if (← bytesGetLe buf.val pos 1) > 1 then -2 else add pos 1

def binStringEnd (pos : Int) : Run Int :=
  if !binHave buf.val pos 4 then .ok (-1)
  else do
    let n ← bytesGetLe buf.val pos 4
    return if binHave buf.val (add pos 4) n then add (add pos 4) n else -3

def binTagAt (pos : Int) : Run Int :=
  if binHave buf.val pos 1 then bytesGetLe buf.val pos 1 else .ok (-1)

def binEndError (code : Int) : String :=
  if code = -2 then "BinSerialize Bool: byte out of range"
  else if code = -3 then "BinSerialize String: truncated payload"
  else "unexpected end of buffer"

def binIntAt (pos : Int) : Run Int := bytesGetLe buf.val pos 8

def binBoolAt (pos : Int) : Run Bool := do return (← bytesGetLe buf.val pos 1) == 1

def binStringAt (pos : Int) : Run Str := do
  bytesGetString buf.val (add pos 4) (← bytesGetLe buf.val pos 4)

/-- `int_to_char` ends the program on an integer that is no Unicode scalar value. -/
def intToChar (n : Int) : Run Char :=
  if n < 0 ∨ n > 0x10FFFF ∨ (n ≥ 0xD800 ∧ n ≤ 0xDFFF) then .error .notScalar
  else .ok (Char.ofNat n.toNat)

def binCharAt (pos : Int) : Run Char := do intToChar (← binIntAt buf pos)

/-- The leaves that a derived decoder validates first and reads when the value is built. -/
inductive BinPrim where
  | bpInt
  | bpBool
  | bpString
  | bpChar
deriving DecidableEq

def binserPrimEnd : BinPrim → Int → Run Int
  | .bpInt, pos => .ok (binIntEnd buf pos)
  | .bpBool, pos => binBoolEnd buf pos
  | .bpString, pos => binStringEnd buf pos
  | .bpChar, pos => .ok (binIntEnd buf pos)

def binserPrimAt : BinPrim → Int → Run Val
  | .bpInt, pos => do return .int (← binIntAt buf pos)
  | .bpBool, pos => do return .bool (← binBoolAt buf pos)
  | .bpString, pos => do return .string (← binStringAt buf pos)
  | .bpChar, pos => do return .char (← binCharAt buf pos)

/-- The shape of every `from_bytes` of a leaf: validate, then read. -/
def leafFromBytes (r : BinPrim) (pos : Int) : Decoded Val :=
  .run (binserPrimEnd buf r pos) fun e =>
    if e < 0 then .err (binEndError e) else .run (binserPrimAt buf r pos) fun v => .ok v e

def binBytesToInt (pos : Int) : Decoded Val := leafFromBytes buf .bpInt pos

def boolFromBytes (pos : Int) : Decoded Val := leafFromBytes buf .bpBool pos

def stringFromBytes (pos : Int) : Decoded Val := leafFromBytes buf .bpString pos

def binCharFromBytes (pos : Int) : Decoded Val := leafFromBytes buf .bpChar pos

def deriveDecodeByte (pos : Int) : Decoded Val :=
  .run (binTagAt buf pos) fun t =>
    if t < 0 then .err (binEndError t)
    else .run (binByte t) fun b => .ok (.byte b) (add pos 1)

def binListFromBytesLoop (dec : Int → Decoded Val) : Nat → Int → List Val → Decoded Val
  | 0, pos, acc => .ok (.list acc.reverse) pos
  | remaining + 1, pos, acc =>
      (dec pos).bind fun v p => binListFromBytesLoop dec remaining p (v :: acc)

def binListFromBytes (pos : Int) (dec : Int → Decoded Val) : Decoded Val :=
  if !binHave buf.val pos 4 then .err "unexpected end of buffer"
  else .run (bytesGetLe buf.val pos 4) fun n =>
    binListFromBytesLoop dec n.toNat (add pos 4) []

def binOptionFromBytes (pos : Int) (dec : Int → Decoded Val) : Decoded Val :=
  if !binHave buf.val pos 1 then .err "unexpected end of buffer"
  else .run (bytesGetLe buf.val pos 1) fun tag =>
    if tag = 0 then .ok .none (add pos 1)
    else if tag = 1 then (dec (add pos 1)).bind fun v p => .ok (.some v) p
    else .err "BinSerialize Option: tag out of range"

def binserPrimReader : Shape → Option BinPrim
  | .int => some .bpInt
  | .bool => some .bpBool
  | .string => some .bpString
  | .char => some .bpChar
  | _ => none

/-- One field: a leaf is validated and its read is put off, any other value is decoded. -/
def deriveFieldGuard (dec : Shape → Int → Decoded Val) (ftype : Shape) (pos : Int) :
    Decoded (Run Val) :=
  match binserPrimReader ftype with
  | some r =>
      .run (binserPrimEnd buf r pos) fun e =>
        if e < 0 then .err (binEndError e) else .ok (binserPrimAt buf r pos) e
  | none => (dec ftype pos).bind fun v p => .ok (.ok v) p

/-- The guards of a record or a payload, each from where the one before it ends. -/
def deriveDecodeChain (dec : Shape → Int → Decoded Val) :
    List Shape → Int → Decoded (List (Run Val))
  | [], pos => .ok [] pos
  | t :: rest, pos =>
      (deriveFieldGuard buf dec t pos).bind fun v p =>
        (deriveDecodeChain dec rest p).bind fun vs q => .ok (v :: vs) q

/-- The values of the fields, read in order when the guards have passed. -/
def deriveFieldValues : List (Run Val) → Run (List Val)
  | [] => .ok []
  | r :: rs => do
      let v ← r
      let vs ← deriveFieldValues rs
      return v :: vs

def deriveRecordFromBytes (dec : Shape → Int → Decoded Val) (fields : List (String × Shape))
    (pos : Int) : Decoded Val :=
  (deriveDecodeChain buf dec (fields.map Prod.snd) pos).bind fun reads q =>
    .run (deriveFieldValues reads) fun vals => .ok (.record (fields.map Prod.fst) vals) q

/-- The branch whose index is the tag. -/
def deriveSumTagChain (tag : Int) : List (List Shape) → Nat → Option (Nat × List Shape)
  | [], _ => none
  | v :: rest, idx => if tag = idx then some (idx, v) else deriveSumTagChain tag rest (idx + 1)

def deriveSumFromBytes (dec : Shape → Int → Decoded Val) (tname : String)
    (variants : List (List Shape)) (pos : Int) : Decoded Val :=
  .run (binTagAt buf pos) fun tag =>
    if tag < 0 then .err (binEndError tag)
    else match deriveSumTagChain tag variants 0 with
      | none => .err ("BinSerialize " ++ tname ++ ": invalid tag")
      | some (idx, vargs) =>
          (deriveDecodeChain buf dec vargs (add pos 1)).bind fun reads q =>
            .run (deriveFieldValues reads) fun vals => .ok (.variant idx vals) q

variable (T : DerivedTypes)

/-- The derived `from_bytes`. -/
def deriveFromBytes (dec : Shape → Int → Decoded Val) (k : Nat) (pos : Int) : Decoded Val :=
  match T.body k with
  | .record fields => deriveRecordFromBytes buf dec fields pos
  | .sum variants => deriveSumFromBytes buf dec (T.name k) variants pos

/-- `derive_binser_decode_call_at`, where `dec` answers the calls inside it. -/
def deriveDecodeCallAt (dec : Shape → Int → Decoded Val) : Shape → Int → Decoded Val
  | .list elem, pos => binListFromBytes buf pos (dec elem)
  | .option elem, pos => binOptionFromBytes buf pos (dec elem)
  | .char, pos => binCharFromBytes buf pos
  | .byte, pos => deriveDecodeByte buf pos
  | .int, pos => binBytesToInt buf pos
  | .bool, pos => boolFromBytes buf pos
  | .string, pos => stringFromBytes buf pos
  | .named k, pos => deriveFromBytes buf T dec k pos

/-- The decoder with calls at most `n` deep. -/
def decode : Nat → Shape → Int → Decoded Val
  | 0 => fun _ _ => .unfinished
  | n + 1 => deriveDecodeCallAt buf T (decode n)

section Mono

variable {buf : Bytes} {T : DerivedTypes}
variable {dec dec' : Shape → Int → Decoded Val}

theorem listLoop_le {d d' : Int → Decoded Val} (h : ∀ p, (d p).Le (d' p)) (n : Nat) (pos : Int)
    (acc : List Val) :
    (binListFromBytesLoop d n pos acc).Le (binListFromBytesLoop d' n pos acc) := by
  induction n generalizing pos acc with
  | zero => exact Decoded.Le.refl _
  | succ n ih => exact (h pos).bind fun v p => ih p (v :: acc)

theorem fieldGuard_le (h : ∀ s p, (dec s p).Le (dec' s p)) (s : Shape) (pos : Int) :
    (deriveFieldGuard buf dec s pos).Le (deriveFieldGuard buf dec' s pos) := by
  rw [deriveFieldGuard, deriveFieldGuard]
  cases binserPrimReader s with
  | some r => exact Decoded.Le.refl _
  | none => exact (h s pos).bind fun v p => Decoded.Le.refl _

theorem decodeChain_le (h : ∀ s p, (dec s p).Le (dec' s p)) (ss : List Shape) (pos : Int) :
    (deriveDecodeChain buf dec ss pos).Le (deriveDecodeChain buf dec' ss pos) := by
  induction ss generalizing pos with
  | nil => exact Decoded.Le.refl _
  | cons s ss ih =>
      apply (fieldGuard_le h s pos).bind
      intro v p
      exact (ih p).bind fun vs q => Decoded.Le.refl _

theorem decodeCallAt_le (h : ∀ s p, (dec s p).Le (dec' s p)) (s : Shape) (pos : Int) :
    (deriveDecodeCallAt buf T dec s pos).Le (deriveDecodeCallAt buf T dec' s pos) := by
  cases s with
  | list elem =>
      rw [deriveDecodeCallAt, deriveDecodeCallAt, binListFromBytes, binListFromBytes]
      split_ifs with hhave
      · exact Decoded.Le.refl _
      · exact Decoded.Le.run fun n => listLoop_le (h elem) _ _ _
  | option elem =>
      rw [deriveDecodeCallAt, deriveDecodeCallAt, binOptionFromBytes, binOptionFromBytes]
      split_ifs with hhave
      · exact Decoded.Le.refl _
      · apply Decoded.Le.run
        intro tag
        split_ifs with hnone hsome
        · exact Decoded.Le.refl _
        · exact (h elem _).bind fun v p => Decoded.Le.refl _
        · exact Decoded.Le.refl _
  | named k =>
      rw [deriveDecodeCallAt, deriveDecodeCallAt, deriveFromBytes, deriveFromBytes]
      cases T.body k with
      | record fields => exact (decodeChain_le h _ _).bind fun reads q => Decoded.Le.refl _
      | sum variants =>
          apply Decoded.Le.run
          intro tag
          split_ifs with htag
          · exact Decoded.Le.refl _
          · cases deriveSumTagChain tag variants 0 with
            | none => exact Decoded.Le.refl _
            | some branch => exact (decodeChain_le h _ _).bind fun reads q => Decoded.Le.refl _
  | _ => exact Decoded.Le.refl _

theorem decode_le {n m : Nat} (hnm : n ≤ m) (s : Shape) (pos : Int) :
    (decode buf T n s pos).Le (decode buf T m s pos) := by
  induction n generalizing m s pos with
  | zero => exact Or.inl rfl
  | succ n ih =>
      obtain ⟨m, rfl⟩ := Nat.exists_eq_succ_of_ne_zero (Nat.ne_of_gt (Nat.lt_of_lt_of_le n.succ_pos hnm))
      exact decodeCallAt_le (fun s p => ih (Nat.le_of_succ_le_succ hnm) s p) s pos

end Mono

end Kaikai.BinSer
