import Kaikai.JsonGrammar
import Kaikai.Stretch

namespace Kaikai.Json

open Kaikai.Decimal
open Kaikai.Str
open Kaikai.Stretch

variable {ρ α β : Type}

structure JParse (ρ : Type) where
  v : JsonValue ρ
  i : Nat

/-- A scan failure: the byte offset where parsing could not continue. -/
structure JFail where
  pos : Nat
  why : String

def stringByteAtInt (s : Str) (i : Nat) : Int :=
  match s[i]? with
  | some b => b.toNat
  | none => -1

def charIsDigit (c : Char) : Bool := c ≥ '0' && c ≤ '9'

/-- `strtoll` in base ten on a whole text: an optional sign before one or more digits. -/
def strtoll (s : Str) : Option Int :=
  let body := if s.head? = some 45 ∨ s.head? = some 43 then s.tail else s
  let n : Int := if s.head? = some 45 then -(digitsOf body : Int) else digitsOf body
  if body ≠ [] ∧ AllDigits body ∧ Word64.InRange n then some n else none

/-- `string_to_int` on a text without blanks: it has a buffer of 64 bytes. -/
def stringToInt (s : Str) : Option Int := if s.length < 64 then strtoll s else none

def jpOk (v : JsonValue ρ) (i : Nat) : Except JFail (JParse ρ) := .ok ⟨v, i⟩

def jsonFail (pos : Nat) (why : String) : Except JFail α := .error ⟨pos, why⟩

def jsonNeed (o : Option α) (pos : Nat) (why : String) : Except JFail α :=
  match o with
  | some x => .ok x
  | none => jsonFail pos why

/-- End of input, or `what` at the cursor. -/
def jsonStuck (s : Str) (pos : Nat) (what : String) : JFail :=
  if pos ≥ s.length then ⟨pos, "unexpected end of input"⟩ else ⟨pos, what⟩

/-- The pending run of bytes before the decoded parts, which are newest first. -/
def jsonFlush (s : Str) (start stop : Nat) (parts : List Str) : List Str :=
  if stop > start then stringSlice s start (stop - start) :: parts else parts

theorem charAt_iff {s : Str} {i : Nat} {c : Char} {b : UInt8} (h : b.toNat = c.toNat) :
    charAt s i = some c ↔ s[i]? = some b := by
  rw [charAt, Option.map_eq_some_iff]
  constructor
  · rintro ⟨a, ha, hac⟩
    rw [ha, Option.some.injEq]
    exact UInt8.toNat_inj.1 ((ofByte_eq_iff.1 hac).trans h.symm)
  · intro hb
    exact ⟨b, hb, ofByte_eq_iff.2 h⟩

theorem stringByteAtInt_iff {s : Str} {i : Nat} {n : Int} {b : UInt8} (h : (b.toNat : Int) = n) :
    stringByteAtInt s i = n ↔ s[i]? = some b := by
  subst h
  unfold stringByteAtInt
  split
  · next a ha =>
      rw [ha, Option.some.injEq, Int.ofNat_inj, UInt8.toNat_inj]
  · next ha =>
      rw [ha]
      simp

theorem stringSlice_eq {s t : Str} {i j : Nat} (h : Spans s i t j) :
    stringSlice s i (j - i) = t := by
  have hlen : ((j : Int) - i).toNat = j - i := by omega
  rw [stringSlice, hlen, Int.toNat_natCast, h.slice]

/-- What a scan returns, or that it stops inside the text. -/
def Ends (s : Str) (P : α → Prop) : Except JFail α → Prop
  | .ok x => P x
  | .error f => f.pos ≤ s.length

theorem Ends.bind {s : Str} {P : α → Prop} {Q : β → Prop} {x : Except JFail α}
    {f : α → Except JFail β} (hx : Ends s P x) (hf : ∀ a, P a → Ends s Q (f a)) :
    Ends s Q (x >>= f) := by
  cases x with
  | error e => exact hx
  | ok a => exact hf a hx

theorem Ends.mono {s : Str} {P Q : α → Prop} {x : Except JFail α} (hx : Ends s P x)
    (h : ∀ a, P a → Q a) : Ends s Q x := by
  cases x with
  | error e => exact hx
  | ok a => exact h a hx

theorem jsonFail_ends {s : Str} {P : α → Prop} {pos : Nat} (why : String) (h : pos ≤ s.length) :
    Ends s P (jsonFail pos why) :=
  h

theorem jsonStuck_pos {s : Str} {pos : Nat} (what : String) : (jsonStuck s pos what).pos = pos := by
  unfold jsonStuck
  split_ifs <;> rfl

theorem jsonNeed_ends {s : Str} {P : α → Prop} {o : Option α} {pos : Nat} (why : String)
    (hpos : pos ≤ s.length) (ho : ∀ x, o = some x → P x) : Ends s P (jsonNeed o pos why) := by
  cases o with
  | none => exact hpos
  | some x => exact ho x rfl

def jsonDigitsEnd (s : Str) (i : Nat) : Nat :=
  if i ≥ s.length then i
  else match charAt s i with
    | none => i
    | some c => if charIsDigit c then jsonDigitsEnd s (i + 1) else i
termination_by s.length - i

/-- Optional `.` and digits. -/
def jsonScanFrac (s : Str) (i : Nat) : Except JFail Nat :=
  if charAt s i = some '.' then
    let dEnd := jsonDigitsEnd s (i + 1)
    if dEnd = i + 1 then .error (jsonStuck s (i + 1) "expected a digit") else .ok dEnd
  else .ok i

def jsonExpDigits (s : Str) (i : Nat) : Except JFail Nat :=
  let start := if charAt s i = some '+' then i + 1 else if charAt s i = some '-' then i + 1 else i
  let dEnd := jsonDigitsEnd s start
  if dEnd = start then .error (jsonStuck s start "expected a digit") else .ok dEnd

/-- Optional exponent. -/
def jsonScanExp (s : Str) (i : Nat) : Except JFail Nat :=
  if charAt s i = some 'e' then jsonExpDigits s (i + 1)
  else if charAt s i = some 'E' then jsonExpDigits s (i + 1)
  else .ok i

/-- The lexeme `[i, ee)`: a real when something follows the integer part. -/
def jsonNumberValue (stringToReal : Str → Option ρ) (s : Str) (i intEnd ee : Nat) :
    Except JFail (JParse ρ) :=
  if ee ≠ intEnd then do
    let r ← jsonNeed (stringToReal (stringSlice s i (ee - i))) i "number out of range"
    jpOk (.jReal r) ee
  else do
    let m ← jsonNeed (stringToInt (stringSlice s i (intEnd - i))) i "number out of range"
    jpOk (.jNum m) intEnd

def jsonParseNumber (stringToReal : Str → Option ρ) (s : Str) (i : Nat) :
    Except JFail (JParse ρ) :=
  let intStart := if stringByteAtInt s i = 45 then i + 1 else i
  let intEnd := jsonDigitsEnd s intStart
  if intEnd = intStart then .error (jsonStuck s intStart "expected a digit")
  else if intEnd - intStart > 1 ∧ stringByteAtInt s intStart = 48 then
    jsonFail intStart "leading zero in number"
  else do
    let fe ← jsonScanFrac s intEnd
    let ee ← jsonScanExp s fe
    jsonNumberValue stringToReal s i intEnd ee

theorem charIsDigit_iff {b : UInt8} : charIsDigit (Char.ofNat b.toNat) = true ↔ IsDigit b := by
  rw [charIsDigit, Bool.and_eq_true, decide_eq_true_eq, decide_eq_true_eq]
  change 48 ≤ (Char.ofNat b.toNat).toNat ∧ (Char.ofNat b.toNat).toNat ≤ 57 ↔ IsDigit b
  rw [toNat_ofByte, IsDigit]

/-- No digit follows. -/
def DigitsStop (s : Str) (j : Nat) : Prop := ∀ b, s[j]? = some b → ¬ IsDigit b

theorem jsonDigitsEnd_stop {s : Str} {i : Nat} (h : DigitsStop s i) : jsonDigitsEnd s i = i := by
  rw [jsonDigitsEnd]
  split_ifs with hi
  · rfl
  · rw [ge_iff_le, not_le] at hi
    have hb : s[i]? = some s[i] := List.getElem?_eq_getElem hi
    have hc : charAt s i = some (Char.ofNat s[i].toNat) := by rw [charAt, hb, Option.map_some]
    rw [hc]
    simp only
    rw [if_neg (fun hd => h s[i] hb (charIsDigit_iff.1 hd))]

theorem jsonDigitsEnd_digit {s : Str} {i : Nat} {b : UInt8} (hb : s[i]? = some b)
    (hd : IsDigit b) : jsonDigitsEnd s i = jsonDigitsEnd s (i + 1) := by
  obtain ⟨hi, -⟩ := List.getElem?_eq_some_iff.1 hb
  have hc : charAt s i = some (Char.ofNat b.toNat) := by rw [charAt, hb, Option.map_some]
  rw [jsonDigitsEnd, if_neg (by omega), hc]
  simp only
  rw [if_pos (charIsDigit_iff.2 hd)]

theorem jsonDigitsEnd_eq {s ds : Str} {i j : Nat} (h : Spans s i ds j) (hds : AllDigits ds)
    (hstop : DigitsStop s j) : jsonDigitsEnd s i = j := by
  induction ds generalizing i with
  | nil =>
      obtain ⟨rfl, -⟩ := spans_nil_iff.1 h
      exact jsonDigitsEnd_stop hstop
  | cons b ds ih =>
      obtain ⟨hb, h⟩ := spans_cons_iff.1 h
      obtain ⟨hd, hds⟩ := List.forall_mem_cons.1 hds
      rw [jsonDigitsEnd_digit hb hd, ih h hds]

theorem exists_digits (s : Str) {i : Nat} (hi : i ≤ s.length) :
    ∃ ds, Spans s i ds (jsonDigitsEnd s i) ∧ AllDigits ds ∧ DigitsStop s (jsonDigitsEnd s i) := by
  by_cases hstop : DigitsStop s i
  · rw [jsonDigitsEnd_stop hstop]
    exact ⟨[], Spans.nil hi, by simp [AllDigits], hstop⟩
  · simp only [DigitsStop, not_forall, not_not] at hstop
    obtain ⟨b, hb, hd⟩ := hstop
    obtain ⟨hlt, -⟩ := List.getElem?_eq_some_iff.1 hb
    obtain ⟨ds, hspan, hds, hend⟩ := exists_digits s hlt
    rw [jsonDigitsEnd_digit hb hd]
    exact ⟨b :: ds, hspan.cons hb, List.forall_mem_cons.2 ⟨hd, hds⟩, hend⟩
termination_by s.length - i

theorem jsonScanFrac_ends {s : Str} {i : Nat} (hi : i ≤ s.length) :
    Ends s (fun j => ∃ t, Spans s i t j ∧ FracPart t) (jsonScanFrac s i) := by
  rw [jsonScanFrac]
  split_ifs with hdot
  · have hb : s[i]? = some 46 := (charAt_iff (by decide)).1 hdot
    obtain ⟨hlt, -⟩ := List.getElem?_eq_some_iff.1 hb
    obtain ⟨ds, hspan, hds, -⟩ := exists_digits s hlt
    simp only
    split_ifs with hempty
    · exact (jsonStuck_pos _).trans_le hlt
    · refine ⟨46 :: ds, hspan.cons hb, FracPart.some ⟨hds, ?_⟩⟩
      rintro rfl
      exact hempty (spans_nil_iff.1 hspan).1.symm
  · exact ⟨[], Spans.nil hi, FracPart.none⟩

theorem jsonExpDigits_ends {s : Str} {i : Nat} (hi : i ≤ s.length) :
    Ends s (fun j => ∃ sign t, Spans s i (sign ++ t) j ∧ Sign sign ∧ Digits t)
      (jsonExpDigits s i) := by
  have hsign : ∀ start, (∃ sign, Spans s i sign start ∧ Sign sign) →
      Ends s (fun j => ∃ sign t, Spans s i (sign ++ t) j ∧ Sign sign ∧ Digits t)
        (if jsonDigitsEnd s start = start then .error (jsonStuck s start "expected a digit")
          else .ok (jsonDigitsEnd s start)) := by
    rintro start ⟨sign, hspan, hsign⟩
    obtain ⟨ds, hdigits, hds, -⟩ := exists_digits s hspan.inside
    split_ifs with hempty
    · exact (jsonStuck_pos _).trans_le hspan.inside
    · refine ⟨sign, ds, hspan.append hdigits, hsign, hds, ?_⟩
      rintro rfl
      exact hempty (spans_nil_iff.1 hdigits).1.symm
  rw [jsonExpDigits]
  apply hsign
  split_ifs with hplus hminus
  · exact ⟨[43], Spans.single ((charAt_iff (by decide)).1 hplus), Sign.plus⟩
  · exact ⟨[45], Spans.single ((charAt_iff (by decide)).1 hminus), Sign.minus⟩
  · exact ⟨[], Spans.nil hi, Sign.none⟩

theorem jsonScanExp_ends {s : Str} {i : Nat} (hi : i ≤ s.length) :
    Ends s (fun j => ∃ t, Spans s i t j ∧ ExpPart t) (jsonScanExp s i) := by
  have hletter : ∀ e : UInt8, e = 101 ∨ e = 69 → s[i]? = some e →
      Ends s (fun j => ∃ t, Spans s i t j ∧ ExpPart t) (jsonExpDigits s (i + 1)) := by
    intro e he hb
    obtain ⟨hlt, -⟩ := List.getElem?_eq_some_iff.1 hb
    apply (jsonExpDigits_ends hlt).mono
    rintro j ⟨sign, t, hspan, hsign, ht⟩
    exact ⟨e :: sign ++ t, hspan.cons hb, ExpPart.some he hsign ht⟩
  rw [jsonScanExp]
  split_ifs with hlower hupper
  · exact hletter 101 (Or.inl rfl) ((charAt_iff (by decide)).1 hlower)
  · exact hletter 69 (Or.inr rfl) ((charAt_iff (by decide)).1 hupper)
  · exact ⟨[], Spans.nil hi, ExpPart.none⟩

/-- A byte that cannot continue a number. -/
def EndsNumber (b : UInt8) : Prop := ¬ IsDigit b ∧ b ≠ 46 ∧ b ≠ 101 ∧ b ≠ 69

theorem jsonScanFrac_eq {s t : Str} {i j : Nat} (h : Spans s i t j) (ht : FracPart t)
    (hstop : ∀ b, s[j]? = some b → ¬ IsDigit b ∧ b ≠ 46) : jsonScanFrac s i = .ok j := by
  have hdigits : DigitsStop s j := fun b hb => (hstop b hb).1
  cases ht with
  | none =>
      obtain ⟨rfl, -⟩ := spans_nil_iff.1 h
      rw [jsonScanFrac, if_neg]
      intro hdot
      exact (hstop 46 ((charAt_iff (by decide)).1 hdot)).2 rfl
  | @some ds hds =>
      obtain ⟨hb, h⟩ := spans_cons_iff.1 h
      have hlt := h.lt hds.2
      rw [jsonScanFrac, if_pos ((charAt_iff (by decide)).2 hb)]
      simp only
      rw [jsonDigitsEnd_eq h hds.1 hdigits, if_neg (by omega)]

theorem jsonExpDigits_eq {s sign t : Str} {i j : Nat} (h : Spans s i (sign ++ t) j)
    (hsign : Sign sign) (ht : Digits t) (hstop : DigitsStop s j) : jsonExpDigits s i = .ok j := by
  obtain ⟨k, hk, hspan⟩ := spans_append_iff.1 h
  have hend := jsonDigitsEnd_eq hspan ht.1 hstop
  have hlt := hspan.lt ht.2
  have hstart : (if charAt s i = some '+' then i + 1
      else if charAt s i = some '-' then i + 1 else i) = k := by
    cases hsign with
    | none =>
        obtain ⟨rfl, -⟩ := spans_nil_iff.1 hk
        obtain ⟨hdigits, hne⟩ := ht
        cases t with
        | nil => exact absurd rfl hne
        | cons b t =>
            have hb := (spans_cons_iff.1 hspan).1
            have hd := hdigits b List.mem_cons_self
            rw [if_neg, if_neg]
            · rw [charAt_iff (b := 45) (by decide), hb]
              rintro ⟨⟩
              exact absurd hd (by decide)
            · rw [charAt_iff (b := 43) (by decide), hb]
              rintro ⟨⟩
              exact absurd hd (by decide)
    | plus =>
        obtain ⟨hb, hk⟩ := spans_cons_iff.1 hk
        obtain ⟨rfl, -⟩ := spans_nil_iff.1 hk
        rw [if_pos ((charAt_iff (by decide)).2 hb)]
    | minus =>
        obtain ⟨hb, hk⟩ := spans_cons_iff.1 hk
        obtain ⟨rfl, -⟩ := spans_nil_iff.1 hk
        rw [if_neg, if_pos ((charAt_iff (by decide)).2 hb)]
        rw [charAt_iff (b := 43) (by decide), hb]
        decide
  have hne : j ≠ k := by omega
  simp only [jsonExpDigits, hstart, hend, if_neg hne]

theorem jsonScanExp_eq {s t : Str} {i j : Nat} (h : Spans s i t j) (ht : ExpPart t)
    (hstop : ∀ b, s[j]? = some b → EndsNumber b) : jsonScanExp s i = .ok j := by
  have hdigits : DigitsStop s j := fun b hb => (hstop b hb).1
  cases ht with
  | none =>
      obtain ⟨rfl, -⟩ := spans_nil_iff.1 h
      rw [jsonScanExp, if_neg, if_neg]
      · intro he
        exact (hstop 69 ((charAt_iff (by decide)).1 he)).2.2.2 rfl
      · intro he
        exact (hstop 101 ((charAt_iff (by decide)).1 he)).2.2.1 rfl
  | @some e sign ds he hsign hds =>
      rw [List.cons_append, spans_cons_iff] at h
      obtain ⟨hb, h⟩ := h
      have hrest := jsonExpDigits_eq h hsign hds hdigits
      rw [jsonScanExp]
      rcases he with rfl | rfl
      · rw [if_pos ((charAt_iff (by decide)).2 hb), hrest]
      · rw [if_neg, if_pos ((charAt_iff (by decide)).2 hb), hrest]
        rw [charAt_iff (b := 101) (by decide), hb]
        decide

theorem length_le_of_canonical {ds : Str} {n k : Nat} (h : Canonical ds n) (hk : 0 < k)
    (hn : n < 10 ^ k) : ds.length ≤ k := by
  obtain ⟨hdigits, hne, hvalue, hlead⟩ := h
  cases ds with
  | nil => exact absurd rfl hne
  | cons b ds =>
      rw [List.length_cons]
      by_cases hb : b = 48
      · subst hb
        obtain ⟨-, rfl⟩ := List.cons_eq_cons.1 (hlead rfl)
        exact hk
      · have hdigit := hdigits b List.mem_cons_self
        have hpos : 1 ≤ b.toNat - 48 := by
          have hcode : b.toNat ≠ 48 := fun h48 => hb (UInt8.toNat_inj.1 h48)
          unfold IsDigit at hdigit
          omega
        have hle : 1 * 10 ^ ds.length ≤ (b.toNat - 48) * 10 ^ ds.length :=
          Nat.mul_le_mul_right _ hpos
        rw [digitsOf_cons] at hvalue
        have hlt : 10 ^ ds.length < 10 ^ k := by omega
        exact (Nat.pow_lt_pow_iff_right (by decide)).1 hlt

theorem head_of_canonical {t : Str} {n : Nat} (h : Canonical t n) :
    t.head? ≠ some 45 ∧ t.head? ≠ some 43 := by
  obtain ⟨hdigits, hne, -, -⟩ := h
  cases t with
  | nil => exact absurd rfl hne
  | cons b t =>
      have hd := hdigits b List.mem_cons_self
      rw [List.head?_cons]
      constructor
      · rintro ⟨⟩
        exact absurd hd (by decide)
      · rintro ⟨⟩
        exact absurd hd (by decide)

theorem strtoll_intPart {t : Str} {n : Int} (h : IntPart t n) :
    strtoll t = if Word64.InRange n then some n else none := by
  have hguard : ∀ {u : Str} {k : Nat} (p : Prop), Canonical u k →
      (u ≠ [] ∧ AllDigits u ∧ p ↔ p) := by
    intro u k p hc
    rw [and_iff_right hc.nonempty, and_iff_right hc.digits]
  cases h with
  | nonneg hc =>
      obtain ⟨hminus, hplus⟩ := head_of_canonical hc
      have hsign : ¬ (t.head? = some 45 ∨ t.head? = some 43) := not_or.2 ⟨hminus, hplus⟩
      simp only [strtoll, if_neg hsign, if_neg hminus, hc.value, hguard _ hc]
  | @neg t n hc =>
      have hhead : (45 :: t).head? = some 45 := List.head?_cons
      have hsign : (45 :: t).head? = some 45 ∨ (45 :: t).head? = some 43 := Or.inl hhead
      simp only [strtoll, if_pos hsign, if_pos hhead, List.tail_cons, hc.value, hguard _ hc]

theorem length_intPart {t : Str} {n : Int} (h : IntPart t n) (hn : Word64.InRange n) :
    t.length < 64 := by
  have hpow : (2 : Nat) ^ 63 < 10 ^ 19 := by decide
  have hnat : n.natAbs ≤ 2 ^ 63 := by
    unfold Word64.InRange at hn
    omega
  cases h with
  | nonneg hc =>
      have hlen := length_le_of_canonical hc (by decide) (hnat.trans_lt hpow)
      omega
  | neg hc =>
      rw [Int.natAbs_neg] at hnat
      have hlen := length_le_of_canonical hc (by decide) (hnat.trans_lt hpow)
      rw [List.length_cons]
      omega

theorem stringToInt_eq_some_iff {t : Str} {n m : Int} (h : IntPart t n) :
    stringToInt t = some m ↔ m = n ∧ Word64.InRange n := by
  rw [stringToInt, strtoll_intPart h]
  by_cases hn : Word64.InRange n
  · rw [if_pos (length_intPart h hn), if_pos hn, Option.some.injEq, eq_comm, and_iff_left hn]
  · rw [if_neg hn, ite_self]
    exact ⟨fun h => absurd h (by simp), fun h => absurd h.2 hn⟩

theorem intPart_ne_nil {t : Str} {n : Int} (h : IntPart t n) : t ≠ [] := by
  cases h with
  | nonneg hc => exact hc.nonempty
  | neg hc => exact List.cons_ne_nil _ _

theorem number_ne_nil {stringToReal : Str → Option ρ} {t : Str} {v : JsonValue ρ}
    (h : Number stringToReal t v) : t ≠ [] := by
  cases h with
  | int ht => exact intPart_ne_nil ht
  | real ht =>
      rw [List.append_assoc]
      exact List.append_ne_nil_of_left_ne_nil (intPart_ne_nil ht) _

theorem exists_intStart {s : Str} {i : Nat} (hi : i ≤ s.length) :
    ∃ m, Spans s i m (if stringByteAtInt s i = 45 then i + 1 else i) ∧ (m = [] ∨ m = [45]) := by
  split_ifs with hminus
  · exact ⟨[45], Spans.single ((stringByteAtInt_iff rfl).1 hminus), Or.inr rfl⟩
  · exact ⟨[], Spans.nil hi, Or.inl rfl⟩

theorem exists_intPart {m ds : Str} (hm : m = [] ∨ m = [45]) (hds : Digits ds)
    (hlead : ds.head? = some 48 → ds = [48]) : ∃ n, IntPart (m ++ ds) n := by
  have hc : Canonical ds (digitsOf ds) := ⟨hds.1, hds.2, rfl, hlead⟩
  rcases hm with rfl | rfl
  · exact ⟨_, IntPart.nonneg hc⟩
  · exact ⟨_, IntPart.neg hc⟩

theorem jsonNumberValue_ends (stringToReal : Str → Option ρ) {s t f e : Str}
    {i intEnd fe ee : Nat} {n : Int} (ht : Spans s i t intEnd) (hf : Spans s intEnd f fe)
    (he : Spans s fe e ee) (hint : IntPart t n) (hfrac : FracPart f) (hexp : ExpPart e) :
    Ends s (fun p => ∃ u, Spans s i u p.i ∧ Number stringToReal u p.v)
      (jsonNumberValue stringToReal s i intEnd ee) := by
  have hwhole := (ht.append hf).append he
  rw [jsonNumberValue]
  split_ifs with hne
  · rw [stringSlice_eq hwhole]
    apply Ends.bind (jsonNeed_ends _ ht.start_le fun _ => id)
    intro r hr
    refine ⟨t ++ f ++ e, hwhole, Number.real hint hfrac hexp ?_ hr⟩
    intro hnil
    have htail := hf.append he
    rw [hnil, spans_nil_iff] at htail
    exact hne htail.1.symm
  · rw [stringSlice_eq ht]
    apply Ends.bind (jsonNeed_ends _ ht.start_le fun _ => id)
    intro m hm
    obtain ⟨rfl, hrange⟩ := (stringToInt_eq_some_iff hint).1 hm
    exact ⟨t, ht, Number.int hint hrange⟩

theorem jsonParseNumber_ends (stringToReal : Str → Option ρ) {s : Str} {i : Nat}
    (hi : i ≤ s.length) :
    Ends s (fun p => ∃ t, Spans s i t p.i ∧ Number stringToReal t p.v)
      (jsonParseNumber stringToReal s i) := by
  obtain ⟨m, hsign, hm⟩ := exists_intStart hi
  rw [jsonParseNumber]
  generalize (if stringByteAtInt s i = 45 then i + 1 else i) = intStart at hsign
  obtain ⟨ds, hspan, hds, -⟩ := exists_digits s hsign.inside
  generalize jsonDigitsEnd s intStart = intEnd at hspan
  have hstop := hspan.stop
  split_ifs with hempty hzero
  · exact (jsonStuck_pos _).trans_le hspan.start_le
  · exact jsonFail_ends _ hspan.start_le
  · have hne : ds ≠ [] := by
      rintro rfl
      exact hempty hstop.symm
    have hlead : ds.head? = some 48 → ds = [48] := by
      cases ds with
      | nil => exact absurd rfl hne
      | cons b ds =>
          rw [List.head?_cons]
          rintro ⟨⟩
          have hb := (stringByteAtInt_iff rfl).2 (spans_cons_iff.1 hspan).1
          have hshort : ¬ intEnd - intStart > 1 := fun hlong => hzero ⟨hlong, hb⟩
          have hlen : ds.length = 0 := by
            rw [List.length_cons] at hstop
            omega
          rw [List.eq_nil_of_length_eq_zero hlen]
    obtain ⟨n, hint⟩ := exists_intPart hm ⟨hds, hne⟩ hlead
    apply (jsonScanFrac_ends hspan.inside).bind
    rintro fe ⟨f, hf, hfrac⟩
    apply (jsonScanExp_ends hf.inside).bind
    rintro ee ⟨e, he, hexp⟩
    exact jsonNumberValue_ends stringToReal (hsign.append hspan) hf he hint hfrac hexp

theorem intPart_scan {s t : Str} {i j : Nat} {n : Int} (h : Spans s i t j) (ht : IntPart t n)
    (hstop : DigitsStop s j) : ∃ intStart,
      (if stringByteAtInt s i = 45 then i + 1 else i) = intStart ∧ jsonDigitsEnd s intStart = j ∧
      j ≠ intStart ∧ ¬ (j - intStart > 1 ∧ stringByteAtInt s intStart = 48) := by
  have hcanonical : ∀ {k : Nat} {ds : Str} {m : Nat}, Spans s k ds j → Canonical ds m →
      jsonDigitsEnd s k = j ∧ j ≠ k ∧ ¬ (j - k > 1 ∧ stringByteAtInt s k = 48) := by
    intro k ds m hspan hc
    have hlt := hspan.lt hc.nonempty
    refine ⟨jsonDigitsEnd_eq hspan hc.digits hstop, by omega, ?_⟩
    rintro ⟨hlong, hzero⟩
    have hb : s[k]? = some 48 := (stringByteAtInt_iff rfl).1 hzero
    have hlead : ds.head? = some 48 := by
      cases ds with
      | nil => exact absurd rfl hc.nonempty
      | cons b ds =>
          rw [List.head?_cons, ← (spans_cons_iff.1 hspan).1, hb]
    have hend := hspan.stop
    rw [hc.leading hlead, List.length_singleton] at hend
    omega
  cases ht with
  | nonneg hc =>
      have hminus : ¬ stringByteAtInt s i = 45 := by
        intro hminus
        have hb : s[i]? = some 45 := (stringByteAtInt_iff rfl).1 hminus
        cases t with
        | nil => exact hc.nonempty rfl
        | cons b t =>
            apply (head_of_canonical hc).1
            rw [List.head?_cons, ← (spans_cons_iff.1 h).1, hb]
      exact ⟨i, if_neg hminus, hcanonical h hc⟩
  | neg hc =>
      obtain ⟨hb, h⟩ := spans_cons_iff.1 h
      exact ⟨i + 1, if_pos ((stringByteAtInt_iff rfl).2 hb), hcanonical h hc⟩

theorem jsonParseNumber_of (stringToReal : Str → Option ρ) {s : Str} {i intEnd fe ee : Nat}
    {t : Str} {n : Int} (h : Spans s i t intEnd) (ht : IntPart t n) (hstop : DigitsStop s intEnd)
    (hf : jsonScanFrac s intEnd = .ok fe) (he : jsonScanExp s fe = .ok ee) :
    jsonParseNumber stringToReal s i = jsonNumberValue stringToReal s i intEnd ee := by
  obtain ⟨intStart, hstart, hend, hne, hzero⟩ := intPart_scan h ht hstop
  simp only [jsonParseNumber, hstart, hend, if_neg hne, if_neg hzero, hf]
  change (do
    let ee ← jsonScanExp s fe
    jsonNumberValue stringToReal s i intEnd ee) = _
  rw [he]
  rfl

theorem digitsStop_append {s t : Str} {i j : Nat} (h : Spans s i t j)
    (ht : ∀ b, t.head? = some b → ¬ IsDigit b) (hstop : DigitsStop s j) : DigitsStop s i := by
  intro b hb
  cases t with
  | nil =>
      obtain ⟨rfl, -⟩ := spans_nil_iff.1 h
      exact hstop b hb
  | cons a t =>
      apply ht b
      rw [List.head?_cons, ← (spans_cons_iff.1 h).1, hb]

theorem head_fracPart {f : Str} (h : FracPart f) : ∀ b, f.head? = some b → b = 46 := by
  cases h with
  | none => exact fun b hb => absurd hb (by simp)
  | some hds =>
      rintro b ⟨⟩
      rfl

theorem head_expPart {e : Str} (h : ExpPart e) : ∀ b, e.head? = some b → b = 101 ∨ b = 69 := by
  cases h with
  | none => exact fun b hb => absurd hb (by simp)
  | some he hsign hds =>
      rintro b ⟨⟩
      exact he

theorem jsonParseNumber_eq {stringToReal : Str → Option ρ} {s t : Str} {i j : Nat}
    {v : JsonValue ρ} (h : Spans s i t j) (ht : Number stringToReal t v)
    (hstop : ∀ b, s[j]? = some b → EndsNumber b) :
    jsonParseNumber stringToReal s i = .ok ⟨v, j⟩ := by
  have hdigits : DigitsStop s j := fun b hb => (hstop b hb).1
  cases ht with
  | @int t n hint hn =>
      have hend := Spans.nil h.inside
      have hf := jsonScanFrac_eq hend FracPart.none fun b hb => ⟨hdigits b hb, (hstop b hb).2.1⟩
      have he := jsonScanExp_eq hend ExpPart.none hstop
      have hread := (stringToInt_eq_some_iff hint).2 ⟨rfl, hn⟩
      rw [jsonParseNumber_of stringToReal h hint hdigits hf he, jsonNumberValue,
        if_neg (not_not_intro rfl), stringSlice_eq h, hread]
      rfl
  | @real t f e n r hint hfrac hexp hne hr =>
      obtain ⟨fe, hte, he⟩ := spans_append_iff.1 h
      obtain ⟨intEnd, ht, hf⟩ := spans_append_iff.1 hte
      have hdot : ∀ b, s[fe]? = some b → ¬ IsDigit b ∧ b ≠ 46 := by
        intro b hb
        cases e with
        | nil =>
            obtain ⟨rfl, -⟩ := spans_nil_iff.1 he
            exact ⟨(hstop b hb).1, (hstop b hb).2.1⟩
        | cons a e =>
            rw [(spans_cons_iff.1 he).1] at hb
            rcases head_expPart hexp b hb with rfl | rfl <;> exact ⟨by decide, by decide⟩
      have hfracStop : DigitsStop s intEnd := by
        apply digitsStop_append hf _ fun b hb => (hdot b hb).1
        intro b hb
        rw [head_fracPart hfrac b hb]
        decide
      have hlt := (hf.append he).lt hne
      rw [jsonParseNumber_of stringToReal ht hint hfracStop (jsonScanFrac_eq hf hfrac hdot)
        (jsonScanExp_eq he hexp hstop), jsonNumberValue, if_pos (by omega), stringSlice_eq h, hr]
      rfl

end Kaikai.Json
