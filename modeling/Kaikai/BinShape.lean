import Kaikai.BinBuf

namespace Kaikai.BinSer

open Kaikai.Str
open Kaikai.Word64

/-- The type of a field, as far as the generators look into it. -/
inductive Shape where
  | int
  | bool
  | string
  | char
  | byte
  | list (elem : Shape)
  | option (elem : Shape)
  | named (head : Nat)
deriving DecidableEq

/-- The body of a type: named fields, or the payloads of the variants in order. -/
inductive TypeBody where
  | record (fields : List (String × Shape))
  | sum (variants : List (List Shape))

/-- The types of a program that derive the protocol. A writer is at hand for the types that
the module itself derives; a value of any other appends its `to_bytes`. -/
structure DerivedTypes where
  name : Nat → String
  body : Nat → TypeBody
  writers : Nat → Bool
  fields_nodup : ∀ k fields, body k = .record fields → (fields.map Prod.fst).Nodup
  variants_le : ∀ k variants, body k = .sum variants → variants.length ≤ 256

inductive Val where
  | int (n : Int)
  | bool (b : Bool)
  | string (s : Str)
  | char (c : Char)
  | byte (b : UInt8)
  | list (xs : List Val)
  | none
  | some (v : Val)
  | record (names : List String) (vals : List Val)
  | variant (idx : Nat) (args : List Val)

variable (T : DerivedTypes)

mutual

/-- A value of the type a shape denotes. -/
def HasShape : Val → Shape → Prop
  | .int n, .int => InRange n
  | .bool _, .bool => True
  | .string _, .string => True
  | .char _, .char => True
  | .byte _, .byte => True
  | .list xs, .list elem => HaveShapes xs (List.replicate xs.length elem)
  | .none, .option _ => True
  | .some v, .option elem => HasShape v elem
  | .record names vals, .named k =>
      ∃ fields, T.body k = .record fields ∧ names = fields.map Prod.fst ∧
        HaveShapes vals (fields.map Prod.snd)
  | .variant idx args, .named k =>
      ∃ variants vargs, T.body k = .sum variants ∧ variants[idx]? = .some vargs ∧
        HaveShapes args vargs
  | _, _ => False

def HaveShapes : List Val → List Shape → Prop
  | [], [] => True
  | v :: vs, s :: ss => HasShape v s ∧ HaveShapes vs ss
  | _, _ => False

end

/-- A value as its writer sees it: told the type it is written at, it writes itself. -/
abbrev Writer := Shape → BinBuf → Run BinBuf

/-- What the writer of a type reads of `self`. -/
inductive Self where
  | record (slots : List (String × Writer))
  | variant (idx : Nat) (args : List Writer)

def derivePutRecord : List (String × Shape) → List (String × Writer) → BinBuf → Run BinBuf
  | [], _, acc => .ok acc
  | (name, ftype) :: rest, self, acc =>
      match self.lookup name with
      | .some v => do derivePutRecord rest self (← v ftype acc)
      | .none => .error .illTyped

def derivePutPayload : List Shape → List Writer → BinBuf → Run BinBuf
  | [], [], acc => .ok acc
  | vt :: rest, v :: vs, acc => do derivePutPayload rest vs (← v vt acc)
  | _, _, _ => .error .illTyped

def derivePutSum (variants : List (List Shape)) (idx : Nat) (args : List Writer) (buf : BinBuf) :
    Run BinBuf :=
  match variants with
  | [] => .ok buf
  | _ =>
      match variants[idx]? with
      | .some vargs => do derivePutPayload vargs args (← binBufByte buf idx)
      | .none => .error .illTyped

/-- The writer of a type. -/
def derivePutFn (k : Nat) (self : Self) (buf : BinBuf) : Run BinBuf :=
  match T.body k, self with
  | .record fields, .record slots => derivePutRecord fields slots buf
  | .sum variants, .variant idx args => derivePutSum variants idx args buf
  | _, _ => .error .illTyped

/-- The derived `to_bytes`: the writer over a fresh buffer. -/
def deriveToBytes (k : Nat) (self : Self) : Run Str := do
  binBufBytes (← derivePutFn T k self binBufNew)

def derivePutLeaf (k : Nat) (self : Self) (acc : BinBuf) : Run BinBuf :=
  if T.writers k then derivePutFn T k self acc
  else do binBufPut acc (← deriveToBytes T k self)

mutual

/-- `derive_binser_put_at`, by the value it writes. -/
def put : Val → Writer
  | .int n, .int, acc => binBufPutInt acc n
  | .bool b, .bool, acc => binBufPutBool acc b
  | .string s, .string, acc => binBufPutString acc s
  | .char c, .char, acc => binBufPutChar acc c
  | .byte b, .byte, acc => binBufByte acc b.toNat
  | .list xs, .list elem, acc => binBufPutList acc (puts xs) fun bw bx => bx elem bw
  | .none, .option elem, acc =>
      binBufPutOption acc (.none : Option Writer) fun bw bx => bx elem bw
  | .some v, .option elem, acc => binBufPutOption acc (.some (put v)) fun bw bx => bx elem bw
  | .record names vals, .named k, acc => derivePutLeaf T k (.record (names.zip (puts vals))) acc
  | .variant idx args, .named k, acc => derivePutLeaf T k (.variant idx (puts args)) acc
  | _, _, _ => .error .illTyped

def puts : List Val → List Writer
  | [] => []
  | v :: vs => put v :: puts vs

end

/-- `to_bytes` of a value of the type `k`. -/
def toBytes (k : Nat) : Val → Run Str
  | .record names vals => deriveToBytes T k (.record (names.zip (puts T vals)))
  | .variant idx args => deriveToBytes T k (.variant idx (puts T args))
  | _ => .error .illTyped

mutual

/-- The bytes that stand for a value on the wire. -/
def wire : Val → Str
  | .int n => leBytes 8 n
  | .bool b => [if b then 1 else 0]
  | .string s => leBytes 4 s.length ++ s
  | .char c => leBytes 8 c.toNat
  | .byte b => [b]
  | .list xs => leBytes 4 xs.length ++ wires xs
  | .none => [0]
  | .some v => 1 :: wire v
  | .record _ vals => wires vals
  | .variant idx args => UInt8.ofNat idx :: wires args

def wires : List Val → Str
  | [] => []
  | v :: vs => wire v ++ wires vs

end

variable {T}

theorem length_puts (vs : List Val) : (puts T vs).length = vs.length := by
  induction vs with
  | nil => simp [puts]
  | cons v vs ih => simp [puts, ih]

theorem HaveShapes.length_eq {vs : List Val} {ss : List Shape} (h : HaveShapes T vs ss) :
    vs.length = ss.length := by
  induction vs generalizing ss with
  | nil =>
      cases ss with
      | nil => rfl
      | cons s ss => simp [HaveShapes] at h
  | cons v vs ih =>
      cases ss with
      | nil => simp [HaveShapes] at h
      | cons s ss =>
          rw [HaveShapes] at h
          rw [List.length_cons, List.length_cons, ih h.2]

theorem foldlM_eq_payload (ws : List Writer) (elem : Shape) (b : BinBuf) :
    ws.foldlM (fun bw bx => bx elem bw) b =
      derivePutPayload (List.replicate ws.length elem) ws b := by
  induction ws generalizing b with
  | nil => rfl
  | cons w ws ih =>
      rw [List.foldlM_cons, List.length_cons, List.replicate_succ, derivePutPayload]
      exact bind_congr ih

theorem derivePutRecord_eq {fields : List (String × Shape)} {self : List (String × Writer)}
    {ws : List Writer} (hnodup : (fields.map Prod.fst).Nodup)
    (hlen : ws.length = fields.length)
    (hself : ∀ i (hi : i < fields.length), self.lookup fields[i].1 = ws[i]?) (b : BinBuf) :
    derivePutRecord fields self b = derivePutPayload (fields.map Prod.snd) ws b := by
  induction fields generalizing ws b with
  | nil =>
      obtain rfl := List.length_eq_zero_iff.1 hlen
      rfl
  | cons field rest ih =>
      obtain ⟨name, ftype⟩ := field
      cases ws with
      | nil => simp at hlen
      | cons w ws =>
          have hhead : self.lookup name = some w := hself 0 (by simp)
          rw [derivePutRecord, hhead, List.map_cons, derivePutPayload]
          apply bind_congr
          intro b'
          apply ih (List.nodup_cons.1 hnodup).2 (by simpa using hlen)
          intro i hi
          exact hself (i + 1) (by simpa using hi)

theorem lookup_zip {names : List String} (ws : List Writer) (hnodup : names.Nodup)
    (hlen : ws.length = names.length) {i : Nat} (hi : i < names.length) :
    (names.zip ws).lookup names[i] = ws[i]? := by
  induction names generalizing ws i with
  | nil => simp at hi
  | cons name names ih =>
      cases ws with
      | nil => simp at hlen
      | cons w ws =>
          cases i with
          | zero => simp
          | succ i =>
              have hi' : i < names.length := by simpa using hi
              have hne : names[i] ≠ name := by
                rintro heq
                exact (List.nodup_cons.1 hnodup).1 (heq ▸ List.getElem_mem hi')
              rw [List.zip_cons_cons, List.getElem_cons_succ, List.getElem?_cons_succ,
                List.lookup_cons, beq_eq_false_iff_ne.2 hne]
              exact ih ws (List.nodup_cons.1 hnodup).2 (by simpa using hlen) hi'

theorem appends_leaf {k : Nat} {self : Self} {bs : Str}
    (h : Appends (derivePutFn T k self) bs) : Appends (derivePutLeaf T k self) bs := by
  intro b hb
  rw [derivePutLeaf]
  split_ifs with hwriter
  · exact h b hb
  · obtain ⟨fresh, hput, hfresh, hwritten⟩ := h binBufNew binBufNew_wellFormed
    have hbytes : deriveToBytes T k self = .ok bs := by
      rw [deriveToBytes, hput]
      show binBufBytes fresh = _
      rw [binBufBytes_eq hfresh, hwritten]
      rfl
    rw [hbytes]
    exact appends_put bs b hb

theorem appends_record {k : Nat} {fields : List (String × Shape)} {vals : List Val}
    (hbody : T.body k = .record fields) (hlen : vals.length = fields.length)
    (h : Appends (derivePutPayload (fields.map Prod.snd) (puts T vals)) (wires vals)) :
    Appends (derivePutFn T k (.record ((fields.map Prod.fst).zip (puts T vals)))) (wires vals) := by
  have hnodup := T.fields_nodup k fields hbody
  intro b hb
  have hslots : (puts T vals).length = fields.length := (length_puts vals).trans hlen
  have hput : derivePutFn T k (.record ((fields.map Prod.fst).zip (puts T vals))) b =
      derivePutPayload (fields.map Prod.snd) (puts T vals) b := by
    simp only [derivePutFn, hbody]
    apply derivePutRecord_eq hnodup hslots
    intro i hi
    have hname := lookup_zip (puts T vals) hnodup (by simpa using hslots)
      (i := i) (by simpa using hi)
    rwa [List.getElem_map] at hname
  rw [hput]
  exact h b hb

theorem appends_variant {k idx : Nat} {variants : List (List Shape)} {vargs : List Shape}
    {args : List Val} (hbody : T.body k = .sum variants) (hidx : variants[idx]? = some vargs)
    (h : Appends (derivePutPayload vargs (puts T args)) (wires args)) :
    Appends (derivePutFn T k (.variant idx (puts T args))) (UInt8.ofNat idx :: wires args) := by
  have hlt : idx < variants.length := (List.getElem?_eq_some_iff.1 hidx).1
  have htag : idx < 256 := hlt.trans_le (T.variants_le k variants hbody)
  intro b hb
  have hput : derivePutFn T k (.variant idx (puts T args)) b =
      (binBufByte b idx >>= derivePutPayload vargs (puts T args)) := by
    obtain ⟨v, vs, rfl⟩ := List.exists_cons_of_length_pos (Nat.zero_lt_of_lt hlt)
    simp only [derivePutFn, hbody, derivePutSum, hidx]
  rw [hput]
  exact ((appends_byte htag).bind h) b hb

mutual

theorem put_spec : ∀ (v : Val) (s : Shape), HasShape T v s → Appends (put T v s) (wire v)
  | .int n, .int, _ => by simpa only [put, wire] using appends_putInt n
  | .bool b, .bool, _ => by simpa only [put, wire] using appends_putBool b
  | .string t, .string, _ => by simpa only [put, wire] using appends_putString t
  | .char c, .char, _ => by simpa only [put, wire] using appends_putChar c
  | .byte b, .byte, _ => by
      have h := appends_byte b.toNat_lt
      rw [UInt8.ofNat_toNat] at h
      simpa only [put, wire] using h
  | .list xs, .list elem, h => by
      rw [HasShape] at h
      have hpay := puts_spec xs _ h
      rw [← length_puts (T := T)] at hpay
      have hfold : Appends (fun b => (puts T xs).foldlM (fun bw bx => bx elem bw) b) (wires xs) := by
        intro b hb
        dsimp only
        rw [foldlM_eq_payload]
        exact hpay b hb
      have hall := appends_putList (puts T xs) hfold
      rw [length_puts] at hall
      simpa only [put, wire] using hall
  | .none, .option elem, _ => by
      simpa only [put, wire] using appends_putNone (α := Writer) fun bw bx => bx elem bw
  | .some v, .option elem, h => by
      rw [HasShape] at h
      have hall := appends_putSome (fun bw (bx : Writer) => bx elem bw) (put_spec v elem h)
      simpa only [put, wire] using hall
  | .record names vals, .named k, h => by
      rw [HasShape] at h
      obtain ⟨fields, hbody, rfl, hvals⟩ := h
      have hlen : vals.length = fields.length := by simpa using hvals.length_eq
      have hall := appends_leaf (appends_record hbody hlen (puts_spec vals _ hvals))
      simpa only [put, wire] using hall
  | .variant idx args, .named k, h => by
      rw [HasShape] at h
      obtain ⟨variants, vargs, hbody, hidx, hargs⟩ := h
      have hall := appends_leaf (appends_variant hbody hidx (puts_spec args _ hargs))
      simpa only [put, wire] using hall

theorem puts_spec : ∀ (vs : List Val) (ss : List Shape), HaveShapes T vs ss →
    Appends (derivePutPayload ss (puts T vs)) (wires vs)
  | [], [], _ => by
      rw [puts, wires]
      exact fun b hb => Appends.nil b hb
  | v :: vs, s :: ss, h => by
      rw [HaveShapes] at h
      rw [puts, wires]
      exact fun b hb => ((put_spec v s h.1).bind (puts_spec vs ss h.2)) b hb

end

theorem toBytes_eq {k : Nat} {v : Val} (h : HasShape T v (.named k)) :
    toBytes T k v = .ok (wire v) := by
  have hfresh : ∀ {self : Self} {bs : Str}, Appends (derivePutFn T k self) bs →
      deriveToBytes T k self = .ok bs := by
    intro self bs happ
    obtain ⟨fresh, hput, hok, hwritten⟩ := happ binBufNew binBufNew_wellFormed
    rw [deriveToBytes, hput]
    show binBufBytes fresh = _
    rw [binBufBytes_eq hok, hwritten]
    rfl
  cases v with
  | record names vals =>
      rw [HasShape] at h
      obtain ⟨fields, hbody, rfl, hvals⟩ := h
      have hlen : vals.length = fields.length := by simpa using hvals.length_eq
      rw [toBytes, wire]
      exact hfresh (appends_record hbody hlen (puts_spec vals _ hvals))
  | variant idx args =>
      rw [HasShape] at h
      obtain ⟨variants, vargs, hbody, hidx, hargs⟩ := h
      rw [toBytes, wire]
      exact hfresh (appends_variant hbody hidx (puts_spec args _ hargs))
  | _ => simp [HasShape] at h

end Kaikai.BinSer
