import Kaikai.Decimal
import Kaikai.DecimalRound

namespace Kaikai.DecimalFixed

open Kaikai.Decimal (AllDigits digitsOf digitsOf_lt digitsFrom numeral IsDigit)
open Kaikai.Str

/-- `string.pad_left` with a byte. -/
def padLeft (s : Str) (width : Int) (fill : UInt8) : Str :=
  if s.length ≥ width then s else List.replicate (width - s.length).toNat fill ++ s

def toString (d : Decimal) : Except String Str :=
  if d.scale = 0 then .ok (Decimal.intToString d.raw.toInt)
  else do
    let neg := d.raw.slt i128z
    let mag := if neg then i128z - d.raw else d.raw
    let factor ← pow10 d.scale
    let units ← fixedDiv mag factor
    let frac := mag - units * factor
    let fracStr := padLeft (Decimal.intToString frac.toInt) d.scale 48
    return (if neg then [45] else []) ++ (Decimal.intToString units.toInt ++ 46 :: fracStr)

def decSigned (mag : Int128) (scale : Int) (neg : Bool) : Decimal :=
  ⟨if neg then i128z - mag else mag, scale⟩

def decPushDigit (acc : Int128) (c : Char) : Except String (Option Int128) :=
  if c < '0' ∨ c > '9' then .ok none
  else do
    let d := BitVec.ofInt 128 (c.toNat - '0'.toNat)
    let o ← checkedRawMul acc i128ten
    return o.bind fun ten => checkedRawAdd ten d

def decDigitsLoop (s : Str) (i n : ℕ) (acc : Int128) : Except String (Option Int128) :=
  if i ≥ n then .ok (some acc)
  else
    match charAt s i with
    | none => .ok none
    | some c => do
        match ← decPushDigit acc c with
        | none => return none
        | some nxt => decDigitsLoop s (i + 1) n nxt
termination_by n - i

def decDigitsToI128 (s : Str) : Except String (Option Int128) :=
  if s.length = 0 then .ok none else decDigitsLoop s 0 s.length i128z

def decParseIntPart (s : Str) : Except String (Option Int128) :=
  if s.length = 0 then .ok (some i128z) else decDigitsToI128 s

/-- The offset of the first dot, `none` where the module answers `-1`. -/
def decFindDot (s : Str) (i n : ℕ) : Option ℕ :=
  if i ≥ n then none
  else
    match charAt s i with
    | none => none
    | some c => if c = '.' then some i else decFindDot s (i + 1) n
termination_by n - i

def decCombine (ivOpt : Option Int128) (fracPart : Str) (neg : Bool) :
    Except String (Option Decimal) :=
  match ivOpt with
  | none => .ok none
  | some iv => do
      match ← decDigitsToI128 fracPart with
      | none => return none
      | some fv =>
          let scale : Int := fracPart.length
          let p ← pow10 scale
          let o ← checkedRawMul iv p
          let scaled ← rawOrPanic o "parse"
          let rawMag ← rawOrPanic (checkedRawAdd scaled fv) "parse"
          return some (decSigned rawMag scale neg)

def decParseBody (s : Str) (start n : ℕ) (neg : Bool) : Except String (Option Decimal) :=
  match decFindDot s start n with
  | none => do
      let v ← decDigitsToI128 (stringSlice s start (n - start))
      return v.map fun v => decSigned v 0 neg
  | some dotIdx =>
      let intPart := stringSlice s start (dotIdx - start)
      let fracPart := stringSlice s (dotIdx + 1) (n - dotIdx - 1)
      if fracPart.length = 0 then .ok none
      else do
        let iv ← decParseIntPart intPart
        decCombine iv fracPart neg

def parse (s : Str) : Except String (Option Decimal) :=
  let n := s.length
  if n = 0 then .ok none
  else
    let first := charAt s 0
    let neg : Bool := first = some '-'
    let pos : Bool := first = some '+'
    let bodyStart := if neg || pos then 1 else 0
    if bodyStart ≥ n then .ok none else decParseBody s bodyStart n neg

/-- A sign as it may stand in front, and whether it is a minus. -/
inductive Sign : Str → Bool → Prop
  | none : Sign [] false
  | plus : Sign [43] false
  | minus : Sign [45] true

def signed (neg : Bool) (n : ℕ) : ℤ := if neg then -(n : ℤ) else n

/-- Digits, or digits or none with a dot and one to 38 digits, of a magnitude that fits. -/
inductive Number (neg : Bool) : Str → Decimal → Prop
  | whole {ip : Str} (hip : AllDigits ip) (hne : ip ≠ []) (hfits : Fits (digitsOf ip)) :
      Number neg ip ⟨BitVec.ofInt 128 (signed neg (digitsOf ip)), 0⟩
  | dotted {ip fp : Str} (hip : AllDigits ip) (hfp : AllDigits fp) (hne : fp ≠ [])
      (hlen : fp.length ≤ 38) (hfits : Fits (digitsOf (ip ++ fp))) :
      Number neg (ip ++ 46 :: fp)
        ⟨BitVec.ofInt 128 (signed neg (digitsOf (ip ++ fp))), fp.length⟩

/-- The text spells the decimal. -/
def Spells (s : Str) (d : Decimal) : Prop :=
  ∃ sign body neg, Sign sign neg ∧ s = sign ++ body ∧ Number neg body d

/-- Digits on both sides of a dot that fit on their own, but a fraction of more than 38 digits or a
magnitude that does not fit. -/
structure TooLong (ip fp : Str) : Prop where
  int : AllDigits ip ∧ Fits (digitsOf ip)
  frac : fp ≠ [] ∧ AllDigits fp ∧ Fits (digitsOf fp)
  long : 38 < fp.length ∨ ¬ Fits (digitsOf (ip ++ fp))

def Overlong (s : Str) : Prop :=
  ∃ sign ip fp neg, Sign sign neg ∧ s = sign ++ (ip ++ 46 :: fp) ∧ TooLong ip fp

/-- The decimal is read back from its own text. -/
def RoundTrips (d : Decimal) : Prop := ∃ text, toString d = .ok text ∧ parse text = .ok (some d)

/-- Parsing does not panic, and finds the decimal that the text spells, if any. -/
def ParsesExactly (s : Str) : Prop := ∃ r, parse s = .ok r ∧ ∀ d, r = some d ↔ Spells s d

section Digits

variable {acc : Int128} {s ds ip fp : Str} {b : UInt8} {i : ℕ}

theorem charAt_drop (h : s.drop i = b :: ds) : charAt s i = some (Char.ofNat b.toNat) := by
  rw [charAt, ← List.head?_drop, h]
  rfl

theorem digit_iff : ¬ (Char.ofNat b.toNat < '0' ∨ Char.ofNat b.toNat > '9') ↔ IsDigit b := by
  rw [gt_iff_lt, Char.lt_def, Char.lt_def, UInt32.lt_iff_toNat_lt, UInt32.lt_iff_toNat_lt]
  change ¬ ((Char.ofNat b.toNat).toNat < 48 ∨ 57 < (Char.ofNat b.toNat).toNat) ↔ _
  rw [toNat_ofByte, IsDigit]
  omega

theorem fits_natCast {n : ℕ} : Fits n ↔ n < 2 ^ 127 := by
  rw [Fits]
  omega

theorem decPushDigit_eq {v : ℕ} (hacc : acc.toInt = v) :
    decPushDigit acc (Char.ofNat b.toNat) =
      .ok (if IsDigit b ∧ Fits (v * 10 + (b.toNat - 48) : ℕ) then
        some (BitVec.ofInt 128 (v * 10 + (b.toNat - 48) : ℕ)) else none) := by
  rw [decPushDigit]
  by_cases hb : IsDigit b
  · rw [if_neg (digit_iff.2 hb)]
    have hd : ((Char.ofNat b.toNat).toNat : ℤ) - '0'.toNat = (b.toNat - 48 : ℕ) := by
      rw [toNat_ofByte]
      change (b.toNat : ℤ) - 48 = _
      rw [IsDigit] at hb
      omega
    have hdFits : Fits (b.toNat - 48 : ℕ) := by
      rw [IsDigit] at hb
      rw [fits_natCast]
      omega
    have hmul := checkedRawMul_eq (x := acc) (y := i128ten) (fun h => absurd h.2 (by decide))
    rw [hacc, show i128ten.toInt = 10 from rfl] at hmul
    refine (bind_of_ok hmul).trans ?_
    rw [hd]
    change Except.ok _ = Except.ok _
    split_ifs with hten hall hall
    · rw [Option.bind_some, checkedRawAdd_eq, toInt_ofInt hten, toInt_ofInt hdFits]
      have hsum : (v : ℤ) * 10 + (b.toNat - 48 : ℕ) = (v * 10 + (b.toNat - 48) : ℕ) := by
        push_cast
        rfl
      rw [hsum, if_pos hall.2]
    · rw [Option.bind_some, checkedRawAdd_eq, toInt_ofInt hten, toInt_ofInt hdFits]
      have hsum : (v : ℤ) * 10 + (b.toNat - 48 : ℕ) = (v * 10 + (b.toNat - 48) : ℕ) := by
        push_cast
        rfl
      rw [hsum, if_neg fun h => hall ⟨hb, h⟩]
    · rw [fits_natCast] at hall
      rw [Fits] at hten
      omega
    · rfl
  · rw [if_pos (not_not.1 (mt digit_iff.1 hb)), if_neg fun h => hb h.1]

theorem le_digitsFrom (v : ℕ) (ds : Str) : v ≤ digitsFrom v ds := by
  rw [Decimal.digitsFrom_eq]
  have hpos : 1 ≤ 10 ^ ds.length := Nat.one_le_pow _ _ (by decide)
  nlinarith

theorem decDigitsLoop_eq {v : ℕ} (hv : Fits v) (hacc : acc.toInt = v) (h : s.drop i = ds) :
    decDigitsLoop s i s.length acc =
      .ok (if AllDigits ds ∧ Fits (digitsFrom v ds) then
        some (BitVec.ofInt 128 (digitsFrom v ds)) else none) := by
  induction ds generalizing i v acc with
  | nil =>
      have hend := List.drop_eq_nil_iff.1 h
      have hdigits : AllDigits [] ∧ Fits (digitsFrom v []) := ⟨by simp [AllDigits], hv⟩
      rw [decDigitsLoop, if_pos hend, if_pos hdigits, Decimal.digitsFrom_nil, ofInt_unique hacc]
  | cons b ds ih =>
      have hlt : ¬ i ≥ s.length := by
        intro hge
        rw [List.drop_eq_nil_iff.2 hge] at h
        cases h
      have hrest : s.drop (i + 1) = ds := by
        rw [← List.drop_drop, h]
        rfl
      have hall : AllDigits (b :: ds) ↔ IsDigit b ∧ AllDigits ds := List.forall_mem_cons
      have hpush := decPushDigit_eq (b := b) hacc
      rw [decDigitsLoop, if_neg hlt, charAt_drop h]
      refine (bind_of_ok hpush).trans ?_
      rw [Decimal.digitsFrom_cons]
      by_cases hstep : IsDigit b ∧ Fits (v * 10 + (b.toNat - 48) : ℕ)
      · rw [if_pos hstep]
        refine (ih hstep.2 (toInt_ofInt hstep.2) hrest).trans ?_
        split_ifs with hds hboth hboth
        · rfl
        · exact absurd ⟨hall.2 ⟨hstep.1, hds.1⟩, hds.2⟩ hboth
        · exact absurd ⟨(hall.1 hboth.1).2, hboth.2⟩ hds
        · rfl
      · rw [if_neg hstep, if_neg]
        · rfl
        · rintro ⟨hdigits, hfits⟩
          refine hstep ⟨(hall.1 hdigits).1, ?_⟩
          rw [fits_natCast] at hfits ⊢
          exact (le_digitsFrom _ ds).trans_lt hfits

theorem decDigitsToI128_eq (ds : Str) :
    decDigitsToI128 ds =
      .ok (if ds ≠ [] ∧ AllDigits ds ∧ Fits (digitsOf ds) then
        some (BitVec.ofInt 128 (digitsOf ds)) else none) := by
  rw [decDigitsToI128]
  split_ifs with hnil h h
  · exact absurd (List.length_eq_zero_iff.1 hnil) h.1
  · rfl
  · rw [decDigitsLoop_eq (v := 0) (by decide) rfl List.drop_zero]
    exact congrArg _ (if_pos h.2)
  · rw [decDigitsLoop_eq (v := 0) (by decide) rfl List.drop_zero]
    refine congrArg _ (if_neg fun hdigits => h ⟨?_, hdigits⟩)
    exact fun heq => hnil (List.length_eq_zero_iff.2 heq)

theorem decParseIntPart_eq (ds : Str) :
    decParseIntPart ds =
      .ok (if AllDigits ds ∧ Fits (digitsOf ds) then some (BitVec.ofInt 128 (digitsOf ds))
        else none) := by
  rw [decParseIntPart]
  split_ifs with hnil h h
  · rw [List.length_eq_zero_iff.1 hnil]
    rfl
  · rw [List.length_eq_zero_iff.1 hnil] at h
    exact absurd ⟨by simp [AllDigits], by decide⟩ h
  · rw [decDigitsToI128_eq, if_pos ⟨fun heq => hnil (List.length_eq_zero_iff.2 heq), h⟩]
  · rw [decDigitsToI128_eq, if_neg fun hdigits => h hdigits.2]

end Digits

section Parse

variable {s ip fp : Str} {neg : Bool}

theorem decFindDot_eq {ds : Str} {i : ℕ} (h : s.drop i = ds) :
    (46 ∉ ds → decFindDot s i s.length = none) ∧
      ∀ ip fp, ds = ip ++ 46 :: fp → 46 ∉ ip →
        decFindDot s i s.length = some (i + ip.length) := by
  induction ds generalizing i with
  | nil =>
      rw [decFindDot, if_pos (List.drop_eq_nil_iff.1 h)]
      exact ⟨fun _ => rfl, fun ip fp heq => by simp at heq⟩
  | cons b ds ih =>
      have hlt : ¬ i ≥ s.length := by
        intro hge
        rw [List.drop_eq_nil_iff.2 hge] at h
        cases h
      have hrest : s.drop (i + 1) = ds := by
        rw [← List.drop_drop, h]
        rfl
      have hdot : Char.ofNat b.toNat = '.' ↔ b = 46 := by
        rw [ofByte_eq_iff, ← UInt8.toNat_inj]
        rfl
      rw [decFindDot, if_neg hlt, charAt_drop h]
      change (46 ∉ b :: ds → (if Char.ofNat b.toNat = '.' then some i else _) = none) ∧
        ∀ ip fp, b :: ds = ip ++ 46 :: fp → 46 ∉ ip →
          (if Char.ofNat b.toNat = '.' then some i else _) = some (i + ip.length)
      obtain ⟨hnone, hsome⟩ := ih hrest
      by_cases hb : b = 46
      · rw [if_pos (hdot.2 hb)]
        refine ⟨fun hnot => absurd (hb ▸ List.mem_cons_self) hnot, fun ip fp heq hip => ?_⟩
        cases ip with
        | nil => rfl
        | cons c ip =>
            obtain ⟨rfl, _⟩ := List.cons.inj heq
            exact absurd (hb ▸ List.mem_cons_self) hip
      · rw [if_neg (mt hdot.1 hb)]
        refine ⟨fun hnot => hnone (mt (List.mem_cons_of_mem b) hnot), fun ip fp heq hip => ?_⟩
        cases ip with
        | nil => exact absurd (List.cons.inj heq).1 hb
        | cons c ip =>
            rw [hsome ip fp (List.cons.inj heq).2 (mt (List.mem_cons_of_mem c) hip), List.length_cons,
              Nat.add_assoc, Nat.add_comm 1]

theorem slice_whole {body : Str} {start : ℕ} (h : s.drop start = body) :
    stringSlice s start (s.length - start) = body := by
  rw [stringSlice, Int.toNat_natCast, h, List.take_of_length_le]
  rw [← h, List.length_drop]
  omega

theorem slice_sides {start : ℕ} (h : s.drop start = ip ++ 46 :: fp) :
    stringSlice s start ((start + ip.length : ℕ) - start) = ip ∧
      stringSlice s ((start + ip.length : ℕ) + 1) (s.length - (start + ip.length : ℕ) - 1) = fp := by
  have hlen : s.length = start + ip.length + 1 + fp.length ∨ s.length ≤ start := by
    have hlength := congrArg List.length h
    rw [List.length_drop, List.length_append, List.length_cons] at hlength
    omega
  have hlength : s.length = start + ip.length + 1 + fp.length := by
    refine hlen.resolve_right fun hle => ?_
    rw [List.drop_eq_nil_iff.2 hle] at h
    simp at h
  constructor
  · have htake : (((start + ip.length : ℕ) : ℤ) - start).toNat = ip.length := by omega
    rw [stringSlice, Int.toNat_natCast, h, htake, List.take_left]
  · have hdrop : (((start + ip.length : ℕ) : ℤ) + 1).toNat = start + (ip.length + 1) := by omega
    have htake : ((s.length : ℤ) - (start + ip.length : ℕ) - 1).toNat = fp.length := by omega
    have hrest : (ip ++ 46 :: fp).drop (ip.length + 1) = fp := by
      rw [List.append_cons]
      exact List.drop_left' (by simp)
    rw [stringSlice, hdrop, htake, ← List.drop_drop, h, hrest, List.take_length]

theorem decParseBody_whole {body : Str} {start : ℕ} (h : s.drop start = body) (hdot : 46 ∉ body) :
    decParseBody s start s.length neg =
      .ok (if body ≠ [] ∧ AllDigits body ∧ Fits (digitsOf body) then
        some (decSigned (BitVec.ofInt 128 (digitsOf body)) 0 neg) else none) := by
  rw [decParseBody, (decFindDot_eq h).1 hdot]
  change (decDigitsToI128 (stringSlice s start (s.length - start)) >>= _) = _
  rw [slice_whole h]
  refine (bind_of_ok (decDigitsToI128_eq body)).trans ?_
  split_ifs <;> rfl

theorem decCombine_eq (hne : fp ≠ []) :
    (decParseIntPart ip >>= fun iv => decCombine iv fp neg) =
      if AllDigits ip ∧ Fits (digitsOf ip) ∧ AllDigits fp ∧ Fits (digitsOf fp) then
        if fp.length ≤ 38 then
          if Fits (digitsOf (ip ++ fp)) then
            .ok (some (decSigned (BitVec.ofInt 128 (digitsOf (ip ++ fp))) fp.length neg))
          else .error "decimal.parse: Int128 overflow"
        else .error "decimal.pow10: scale exceeds Int128 range (max 38)"
      else .ok none := by
  refine (bind_of_ok (decParseIntPart_eq ip)).trans ?_
  by_cases hip : AllDigits ip ∧ Fits (digitsOf ip)
  swap
  · rw [if_neg hip, if_neg fun h => hip ⟨h.1, h.2.1⟩]
    rfl
  rw [if_pos hip, decCombine]
  refine (bind_of_ok (decDigitsToI128_eq fp)).trans ?_
  by_cases hfp : AllDigits fp ∧ Fits (digitsOf fp)
  swap
  · rw [if_neg fun h => hfp h.2, if_neg fun h => hfp h.2.2]
    rfl
  rw [if_pos ⟨hne, hfp⟩, if_pos ⟨hip.1, hip.2, hfp⟩]
  by_cases hlen : fp.length ≤ 38
  swap
  · have hpow : pow10 fp.length = .error "decimal.pow10: scale exceeds Int128 range (max 38)" := by
      rw [pow10, if_neg (by omega), if_pos (by omega)]
    rw [if_neg hlen]
    change (pow10 fp.length >>= _) = _
    rw [hpow]
    rfl
  rw [if_pos hlen]
  obtain ⟨p, hp, hpow⟩ := pow10_eq (n := fp.length) (Int.natCast_nonneg _) (by omega)
  refine (bind_of_ok hp).trans ?_
  have hmul := checkedRawMul_eq (x := BitVec.ofInt 128 (digitsOf ip)) (y := p) fun h => by
    have hpos : (0 : ℤ) < 10 ^ (fp.length : ℤ).toNat := by positivity
    omega
  rw [toInt_ofInt hip.2, hpow, Int.toNat_natCast] at hmul
  refine (bind_of_ok hmul).trans ?_
  have hsum : (digitsOf ip : ℤ) * 10 ^ fp.length + digitsOf fp = digitsOf (ip ++ fp) := by
    rw [Decimal.digitsOf_append]
    push_cast
    rfl
  by_cases hscaled : Fits (digitsOf ip * 10 ^ fp.length)
  · rw [if_pos hscaled]
    refine (bind_of_ok rfl).trans ?_
    rw [checkedRawAdd_eq, toInt_ofInt hscaled, toInt_ofInt hfp.2, hsum]
    split_ifs <;> rfl
  · have hover : ¬ Fits (digitsOf (ip ++ fp)) := by
      rw [← hsum]
      have hpos : (0 : ℤ) ≤ digitsOf ip * 10 ^ fp.length := by positivity
      rw [Fits] at hscaled ⊢
      omega
    rw [if_neg hscaled, if_neg hover]
    rfl

theorem decParseBody_dotted {body : Str} {start : ℕ} (h : s.drop start = body)
    (hbody : body = ip ++ 46 :: fp) (hip : 46 ∉ ip) :
    decParseBody s start s.length neg =
      if fp = [] then .ok none else decParseIntPart ip >>= fun iv => decCombine iv fp neg := by
  subst hbody
  obtain ⟨hint, hfrac⟩ := slice_sides h
  rw [decParseBody, (decFindDot_eq h).2 ip fp rfl hip]
  simp only [hint, hfrac, List.length_eq_zero_iff]

theorem charAt_zero_iff {b : UInt8} : charAt s 0 = some (Char.ofNat b.toNat) ↔ s.head? = some b := by
  cases s with
  | nil => exact ⟨(fun h => by cases h), fun h => by cases h⟩
  | cons c s =>
      change some (Char.ofNat c.toNat) = some (Char.ofNat b.toNat) ↔ some c = some b
      rw [Option.some.injEq, Option.some.injEq, ofByte_eq_iff, toNat_ofByte, UInt8.toNat_inj]

/-- No sign stands in front of the text. -/
def Unsigned (body : Str) : Prop := body.head? ≠ some 45 ∧ body.head? ≠ some 43

theorem parse_eq {sign body : Str} (hsign : Sign sign neg) (hs : s = sign ++ body)
    (hplain : sign = [] → Unsigned body) :
    parse s = if body = [] then .ok none else decParseBody s sign.length s.length neg := by
  have hminus : charAt s 0 = some '-' ↔ s.head? = some 45 := charAt_zero_iff (b := 45)
  have hplus : charAt s 0 = some '+' ↔ s.head? = some 43 := charAt_zero_iff (b := 43)
  rw [parse]
  simp only [hminus, hplus]
  cases hsign with
  | none =>
      obtain ⟨hm, hp⟩ := hplain rfl
      rw [List.nil_append] at hs
      subst hs
      simp only [hm, hp, decide_false, Bool.or_false, Bool.false_eq_true, if_false,
        List.length_eq_zero_iff, List.length_nil]
      split_ifs with hnil hzero
      · rfl
      · exact absurd (List.length_eq_zero_iff.1 (Nat.le_zero.1 hzero)) hnil
      · rfl
  | plus =>
      subst hs
      cases body with
      | nil => rfl
      | cons b body => rfl
  | minus =>
      subst hs
      cases body with
      | nil => rfl
      | cons b body => rfl

theorem exists_sign (s : Str) :
    ∃ sign body neg, Sign sign neg ∧ s = sign ++ body ∧
      (sign = [] → Unsigned body) := by
  by_cases hm : s.head? = some 45
  · obtain ⟨body, rfl⟩ := List.head?_eq_some_iff.1 hm
    exact ⟨[45], body, true, .minus, rfl, fun h => by cases h⟩
  · by_cases hp : s.head? = some 43
    · obtain ⟨body, rfl⟩ := List.head?_eq_some_iff.1 hp
      exact ⟨[43], body, false, .plus, rfl, fun h => by cases h⟩
    · exact ⟨[], s, false, .none, rfl, fun _ => ⟨hm, hp⟩⟩

theorem sign_unique {sign sign' body body' : Str} {neg' : Bool} (hsign : Sign sign neg)
    (hsign' : Sign sign' neg') (h : sign ++ body = sign' ++ body')
    (hplain : sign = [] → Unsigned body) (hplain' : sign' = [] → Unsigned body') :
    neg = neg' ∧ body = body' := by
  cases hsign with
  | none =>
      cases hsign' with
      | none => exact ⟨rfl, h⟩
      | plus => exact absurd (congrArg List.head? h) (hplain rfl).2
      | minus => exact absurd (congrArg List.head? h) (hplain rfl).1
  | plus =>
      cases hsign' with
      | none => exact absurd (congrArg List.head? h).symm (hplain' rfl).2
      | plus => exact ⟨rfl, (List.cons.inj h).2⟩
      | minus => exact absurd (List.cons.inj h).1 (by decide)
  | minus =>
      cases hsign' with
      | none => exact absurd (congrArg List.head? h).symm (hplain' rfl).1
      | plus => exact absurd (List.cons.inj h).1 (by decide)
      | minus => exact ⟨rfl, (List.cons.inj h).2⟩

theorem unsigned_of_digit {b : UInt8} {rest : Str} (hb : IsDigit b ∨ b = 46) :
    Unsigned (b :: rest) := by
  rw [Unsigned, List.head?_cons, ne_eq, ne_eq, Option.some.injEq, Option.some.injEq]
  constructor
  · rintro rfl
    exact absurd hb (by decide)
  · rintro rfl
    exact absurd hb (by decide)

theorem unsigned_dotted (hip : AllDigits ip) : Unsigned (ip ++ 46 :: fp) := by
  cases ip with
  | nil => exact unsigned_of_digit (.inr rfl)
  | cons b ip => exact unsigned_of_digit (.inl (hip b List.mem_cons_self))

theorem Number.unsigned {body : Str} {d : Decimal} (h : Number neg body d) : Unsigned body := by
  cases h with
  | @whole ip hip hne hfits =>
      obtain ⟨b, ip, rfl⟩ := List.exists_cons_of_ne_nil hne
      exact unsigned_of_digit (.inl (hip b List.mem_cons_self))
  | dotted hip hfp hne hlen hfits => exact unsigned_dotted hip

theorem not_mem_dot {ds : Str} (h : AllDigits ds) : 46 ∉ ds := fun hmem => absurd (h 46 hmem) (by decide)

theorem decSigned_eq {m : ℕ} (scale : Int) (h : Fits m) :
    decSigned (BitVec.ofInt 128 m) scale neg = ⟨BitVec.ofInt 128 (signed neg m), scale⟩ := by
  cases neg with
  | false => rfl
  | true =>
      have hne : (BitVec.ofInt 128 (m : ℤ)).toInt ≠ -2 ^ 127 := by
        rw [toInt_ofInt h]
        omega
      have hneg := toInt_neg _ hne
      rw [toInt_ofInt h] at hneg
      rw [decSigned, if_pos rfl, signed, if_pos rfl, ofInt_unique hneg]

/-- What `parse` makes of a body. -/
inductive Outcome (neg : Bool) : Str → Except String (Option Decimal) → Prop
  | number {body : Str} {d : Decimal} (h : Number neg body d) : Outcome neg body (.ok (some d))
  | tooLong {ip fp : Str} {e : String} (h : TooLong ip fp) : Outcome neg (ip ++ 46 :: fp) (.error e)
  | malformed {body : Str} (h : ∀ d, ¬ Number neg body d)
      (hlong : ∀ ip fp, body = ip ++ 46 :: fp → ¬ TooLong ip fp) : Outcome neg body (.ok none)

theorem split_dot_unique {ip ip' fp fp' : Str} (h : ip ++ 46 :: fp = ip' ++ 46 :: fp')
    (hip : 46 ∉ ip) (hip' : 46 ∉ ip') : ip = ip' ∧ fp = fp' := by
  induction ip generalizing ip' with
  | nil =>
      cases ip' with
      | nil => exact ⟨rfl, (List.cons.inj h).2⟩
      | cons b ip' => exact absurd ((List.cons.inj h).1 ▸ List.mem_cons_self) hip'
  | cons b ip ih =>
      cases ip' with
      | nil => exact absurd ((List.cons.inj h).1 ▸ List.mem_cons_self) hip
      | cons c ip' =>
          obtain ⟨rfl, hrest⟩ := List.cons.inj h
          obtain ⟨rfl, rfl⟩ := ih hrest (mt (List.mem_cons_of_mem b) hip)
            (mt (List.mem_cons_of_mem b) hip')
          exact ⟨rfl, rfl⟩

theorem Number.sides {d : Decimal} (h : Number neg (ip ++ 46 :: fp) d) (hip : 46 ∉ ip) :
    AllDigits ip ∧ AllDigits fp ∧ fp ≠ [] ∧ fp.length ≤ 38 ∧ Fits (digitsOf (ip ++ fp)) := by
  generalize hbody : ip ++ 46 :: fp = body at h
  cases h with
  | whole hdigits hne hfits =>
      refine absurd ?_ (not_mem_dot hdigits)
      rw [← hbody]
      exact List.mem_append_right _ List.mem_cons_self
  | dotted hip' hfp' hne hlen hfits =>
      obtain ⟨rfl, rfl⟩ := split_dot_unique hbody hip (not_mem_dot hip')
      exact ⟨hip', hfp', hne, hlen, hfits⟩

theorem fits_sides (h : Fits (digitsOf (ip ++ fp))) : Fits (digitsOf ip) ∧ Fits (digitsOf fp) := by
  rw [fits_natCast, Decimal.digitsOf_append] at h
  rw [fits_natCast, fits_natCast]
  have hpos : 1 ≤ 10 ^ fp.length := Nat.one_le_pow _ _ (by decide)
  have hle := Nat.le_mul_of_pos_right (digitsOf ip) hpos
  omega

theorem outcome_whole (neg : Bool) {body : Str} (hdot : 46 ∉ body) :
    Outcome neg body
      (.ok (if body ≠ [] ∧ AllDigits body ∧ Fits (digitsOf body) then
        some (decSigned (BitVec.ofInt 128 (digitsOf body)) 0 neg) else none)) := by
  split_ifs with h
  · rw [decSigned_eq 0 h.2.2]
    exact .number (.whole h.2.1 h.1 h.2.2)
  · refine .malformed (fun d hd => ?_) fun ip fp heq => ?_
    · cases hd with
      | whole hip hne hfits => exact h ⟨hne, hip, hfits⟩
      | dotted => exact hdot (List.mem_append_right _ List.mem_cons_self)
    · rw [heq] at hdot
      exact absurd (List.mem_append_right _ List.mem_cons_self) hdot

theorem outcome_dotted (hip : 46 ∉ ip) :
    Outcome neg (ip ++ 46 :: fp)
      (if fp = [] then .ok none else decParseIntPart ip >>= fun iv => decCombine iv fp neg) := by
  split_ifs with hnil
  · refine .malformed (fun d hd => (hd.sides hip).2.2.1 hnil) fun ip' fp' heq hlong => ?_
    obtain ⟨rfl, rfl⟩ := split_dot_unique heq hip (not_mem_dot hlong.int.1)
    exact hlong.frac.1 hnil
  rw [decCombine_eq hnil]
  split_ifs with hdigits hlen hfits
  · rw [decSigned_eq _ hfits]
    exact .number (.dotted hdigits.1 hdigits.2.2.1 hnil hlen hfits)
  · exact .tooLong ⟨⟨hdigits.1, hdigits.2.1⟩, ⟨hnil, hdigits.2.2⟩, .inr hfits⟩
  · exact .tooLong ⟨⟨hdigits.1, hdigits.2.1⟩, ⟨hnil, hdigits.2.2⟩, .inl (not_le.1 hlen)⟩
  · refine .malformed (fun d hd => ?_) fun ip' fp' heq hlong => ?_
    · obtain ⟨hip', hfp', _, _, hfits⟩ := hd.sides hip
      obtain ⟨hleft, hright⟩ := fits_sides hfits
      exact hdigits ⟨hip', hleft, hfp', hright⟩
    · obtain ⟨rfl, rfl⟩ := split_dot_unique heq hip (not_mem_dot hlong.int.1)
      exact hdigits ⟨hlong.int.1, hlong.int.2, hlong.frac.2⟩

theorem outcome_parse {sign body : Str} (hsign : Sign sign neg) (hs : s = sign ++ body)
    (hplain : sign = [] → Unsigned body) : Outcome neg body (parse s) := by
  have hdrop : s.drop sign.length = body := by rw [hs, List.drop_left]
  rw [parse_eq hsign hs hplain]
  split_ifs with hnil
  · have hempty := outcome_whole neg (show 46 ∉ body by simp [hnil])
    rwa [if_neg fun h => h.1 hnil] at hempty
  · by_cases hdot : 46 ∈ body
    · obtain ⟨ip, fp, rfl, hip⟩ := List.eq_append_cons_of_mem hdot
      rw [decParseBody_dotted hdrop rfl hip]
      exact outcome_dotted hip
    · rw [decParseBody_whole hdrop hdot]
      exact outcome_whole neg hdot

theorem Number.unique {body : Str} {d d' : Decimal} (h : Number neg body d)
    (h' : Number neg body d') : d = d' := by
  cases h with
  | whole hip hne hfits =>
      cases h' with
      | whole => rfl
      | dotted => exact absurd (List.mem_append_right _ List.mem_cons_self) (not_mem_dot hip)
  | dotted hip hfp hne hlen hfits =>
      generalize hbody : (_ ++ 46 :: _ : Str) = body at h'
      cases h' with
      | whole hip' =>
          rw [← hbody] at hip'
          exact absurd (List.mem_append_right _ List.mem_cons_self) (not_mem_dot hip')
      | dotted hip' =>
          obtain ⟨rfl, rfl⟩ := split_dot_unique hbody (not_mem_dot hip) (not_mem_dot hip')
          rfl

theorem TooLong.not_number {d : Decimal} (h : TooLong ip fp) : ¬ Number neg (ip ++ 46 :: fp) d := by
  intro hd
  obtain ⟨_, _, _, hlen, hfits⟩ := hd.sides (not_mem_dot h.int.1)
  exact h.long.elim (fun hlong => absurd hlen (not_le.2 hlong)) fun hno => hno hfits

theorem spells_iff {sign body : Str} {d : Decimal} (hsign : Sign sign neg) (hs : s = sign ++ body)
    (hplain : sign = [] → Unsigned body) : Spells s d ↔ Number neg body d := by
  constructor
  · rintro ⟨sign', body', neg', hsign', hs', hd⟩
    obtain ⟨rfl, rfl⟩ := sign_unique hsign hsign' (hs.symm.trans hs') hplain fun _ => hd.unsigned
    exact hd
  · exact fun hd => ⟨sign, body, neg, hsign, hs, hd⟩

theorem overlong_iff {sign body : Str} (hsign : Sign sign neg) (hs : s = sign ++ body)
    (hplain : sign = [] → Unsigned body) :
    Overlong s ↔ ∃ ip fp, body = ip ++ 46 :: fp ∧ TooLong ip fp := by
  constructor
  · rintro ⟨sign', ip, fp, neg', hsign', hs', hlong⟩
    obtain ⟨_, rfl⟩ := sign_unique hsign hsign' (hs.symm.trans hs') hplain
      fun _ => unsigned_dotted hlong.int.1
    exact ⟨ip, fp, rfl, hlong⟩
  · rintro ⟨ip, fp, rfl, hlong⟩
    exact ⟨sign, ip, fp, neg, hsign, hs, hlong⟩

theorem parsesExactly_iff (s : Str) : ParsesExactly s ↔ ¬ Overlong s := by
  obtain ⟨sign, body, neg, hsign, hs, hplain⟩ := exists_sign s
  have hout := outcome_parse hsign hs hplain
  rw [overlong_iff hsign hs hplain]
  generalize hparse : parse s = r at hout
  cases hout with
  | number h =>
      constructor
      · rintro _ ⟨ip, fp, rfl, hlong⟩
        exact hlong.not_number h
      · intro _
        refine ⟨_, hparse, fun d => ?_⟩
        rw [Option.some.injEq, spells_iff hsign hs hplain]
        exact ⟨fun heq => heq ▸ h, h.unique⟩
  | tooLong h =>
      refine iff_of_false ?_ (not_not.2 ⟨_, _, rfl, h⟩)
      rintro ⟨r, hr, _⟩
      rw [hparse] at hr
      cases hr
  | malformed h hlong =>
      refine iff_of_true ⟨none, hparse, fun d => ?_⟩ ?_
      · rw [spells_iff hsign hs hplain]
        exact ⟨(fun heq => by cases heq), fun hd => absurd hd (h d)⟩
      · rintro ⟨ip, fp, heq, htoo⟩
        exact hlong ip fp heq htoo

theorem parse_some_iff {d : Decimal} : parse s = .ok (some d) ↔ Spells s d := by
  constructor
  · intro h
    obtain ⟨sign, body, neg, hsign, hs, hplain⟩ := exists_sign s
    have hout := outcome_parse hsign hs hplain
    rw [h] at hout
    cases hout with
    | number hd => exact (spells_iff hsign hs hplain).2 hd
  · rintro ⟨sign, body, neg, hsign, hs, hd⟩
    have hout := outcome_parse hsign hs fun _ => hd.unsigned
    generalize parse s = r at hout
    cases hout with
    | number hd' => rw [hd.unique hd']
    | tooLong hlong => exact absurd hd hlong.not_number
    | malformed h _ => exact absurd hd (h d)

end Parse

section Print

variable {d : Decimal}

theorem Spells.ne_min {s : Str} (h : Spells s d) : d.raw.toInt ≠ -2 ^ 127 := by
  obtain ⟨sign, body, neg, _, _, hd⟩ := h
  have hraw : ∀ m : ℕ, Fits m → (BitVec.ofInt 128 (signed neg m)).toInt ≠ -2 ^ 127 := by
    intro m hm
    have hbound : Fits (signed neg m) ∧ signed neg m ≠ -2 ^ 127 := by
      rw [fits_natCast] at hm
      rw [signed, Fits]
      split_ifs <;> omega
    rw [toInt_ofInt hbound.1]
    exact hbound.2
  cases hd with
  | whole _ _ hfits => exact hraw _ hfits
  | dotted _ _ _ _ hfits => exact hraw _ hfits

theorem intToString_natCast (n : ℕ) : Decimal.intToString n = numeral n := by
  rw [Decimal.intToString, if_neg (by omega), Int.natAbs_natCast]

theorem intToString_eq (n : ℤ) :
    Decimal.intToString n = (if n < 0 then [45] else []) ++ numeral n.natAbs := by
  rw [Decimal.intToString]
  split_ifs <;> rfl

theorem padLeft_digits {n k : ℕ} (hk : 0 < k) (hn : n < 10 ^ k) :
    AllDigits (padLeft (numeral n) k 48) ∧ (padLeft (numeral n) k 48).length = k ∧
      digitsOf (padLeft (numeral n) k 48) = n := by
  have hcanonical := Decimal.canonical_numeral n
  have hle : (numeral n).length ≤ k := by
    rw [numeral]
    split_ifs with hzero
    · exact hk
    · exact Decimal.length_text_le_iff.2 hn
  rw [padLeft]
  split_ifs with hge
  · exact ⟨hcanonical.digits, by omega, hcanonical.value⟩
  · have hfill : ((k : ℤ) - (numeral n).length).toNat = k - (numeral n).length := by omega
    refine ⟨Decimal.AllDigits.append.2 ⟨.replicate_zero _, hcanonical.digits⟩, ?_, ?_⟩
    · rw [List.length_append, List.length_replicate, hfill]
      omega
    · rw [Decimal.digitsOf_append, Decimal.digitsOf_replicate_zero, Nat.zero_mul, Nat.zero_add,
        hcanonical.value]

theorem signed_natAbs (n : ℤ) : signed (decide (n < 0)) n.natAbs = n := by
  rw [signed]
  split_ifs with h
  · have hneg := of_decide_eq_true h
    omega
  · have hpos := mt decide_eq_true h
    omega

theorem sign_ite (neg : Bool) : Sign (if neg then [45] else []) neg := by
  cases neg with
  | false => exact .none
  | true => exact .minus

theorem slt_zero (x : Int128) : x.slt i128z = decide (x.toInt < 0) := BitVec.slt_eq_decide

theorem toString_dotted (hd : Scaled d) (hscale : d.scale ≠ 0) (hmin : d.raw.toInt ≠ -2 ^ 127) :
    toString d = .ok ((if decide (d.raw.toInt < 0) then [45] else []) ++
      (numeral (d.raw.toInt.natAbs / 10 ^ d.scale.toNat) ++
        46 :: padLeft (numeral (d.raw.toInt.natAbs % 10 ^ d.scale.toNat)) d.scale 48)) := by
  obtain ⟨factor, hfactor, hpow⟩ := pow10_eq hd.1 hd.2
  have hpos : 0 < factor.toInt := by
    rw [hpow]
    positivity
  generalize hmag : (if d.raw.slt i128z then i128z - d.raw else d.raw) = mag
  have habs : mag.toInt = (d.raw.toInt.natAbs : ℤ) := by
    rw [← hmag, slt_zero]
    split_ifs with hneg
    · have hlt := of_decide_eq_true hneg
      rw [toInt_neg _ hmin]
      omega
    · have hge := mt decide_eq_true hneg
      omega
  obtain ⟨units, hunits, hquot⟩ := fixedDiv_eq (x := mag) hpos
  have hbetween := (tmod_between mag.toInt factor.toInt).1 (habs ▸ Int.natCast_nonneg _)
  have hsplit : units.toInt * factor.toInt = mag.toInt - mag.toInt.tmod factor.toInt := by
    rw [hquot, eq_sub_iff_add_eq, Int.tdiv_mul_add_tmod]
  have hfits := toInt_fits mag
  have hprod : (units * factor).toInt = units.toInt * factor.toInt := by
    apply toInt_mul_of_fits
    rw [hsplit]
    unfold Fits at *
    omega
  have hfrac : (mag - units * factor).toInt = mag.toInt.tmod factor.toInt := by
    have hrest : mag.toInt - (units * factor).toInt = mag.toInt.tmod factor.toInt := by
      rw [hprod, hsplit, sub_sub_cancel]
    rw [toInt_sub_of_fits, hrest]
    rw [hrest]
    unfold Fits at *
    omega
  have hquotNat : units.toInt = (d.raw.toInt.natAbs / 10 ^ d.scale.toNat : ℕ) := by
    rw [hquot, habs, hpow]
    push_cast
    exact Int.tdiv_eq_ediv_of_nonneg (abs_nonneg _)
  have hfracNat : (mag - units * factor).toInt = (d.raw.toInt.natAbs % 10 ^ d.scale.toNat : ℕ) := by
    rw [hfrac, habs, hpow]
    push_cast
    exact Int.tmod_eq_emod_of_nonneg (abs_nonneg _)
  rw [toString, if_neg hscale, ← slt_zero]
  simp only [hmag]
  refine (bind_of_ok hfactor).trans ((bind_of_ok hunits).trans ?_)
  rw [hquotNat, hfracNat, intToString_natCast, intToString_natCast]
  rfl

theorem spells_toString (hd : Scaled d) (hmin : d.raw.toInt ≠ -2 ^ 127) :
    ∃ text, toString d = .ok text ∧ Spells text d := by
  have hfits : Fits d.raw.toInt.natAbs := by
    have hraw := toInt_fits d.raw
    unfold Fits at *
    omega
  have hsigned := ofInt_unique (signed_natAbs d.raw.toInt).symm
  have hcanonical := Decimal.canonical_numeral
  by_cases hscale : d.scale = 0
  · have hwhole : Number (decide (d.raw.toInt < 0)) _ _ := .whole
      (hcanonical d.raw.toInt.natAbs).digits (hcanonical _).nonempty
      (by rwa [(hcanonical _).value])
    have heq : d = ⟨d.raw, 0⟩ := by rw [← hscale]
    rw [(hcanonical _).value, hsigned, ← heq] at hwhole
    refine ⟨_, if_pos hscale, _, _, _, sign_ite (decide (d.raw.toInt < 0)), ?_, hwhole⟩
    rw [intToString_eq]
    simp only [decide_eq_true_eq]
  · obtain ⟨k, hk⟩ := Int.eq_ofNat_of_zero_le hd.1
    have hkpos : 0 < k := by omega
    have hlt : d.raw.toInt.natAbs % 10 ^ k < 10 ^ k := Nat.mod_lt _ (by positivity)
    obtain ⟨hdigits, hlength, hvalue⟩ := padLeft_digits hkpos hlt
    have hjoin : digitsOf (numeral (d.raw.toInt.natAbs / 10 ^ k) ++
        padLeft (numeral (d.raw.toInt.natAbs % 10 ^ k)) k 48) = d.raw.toInt.natAbs := by
      rw [Decimal.digitsOf_append, (hcanonical _).value, hlength, hvalue, Nat.div_add_mod']
    have hne : padLeft (numeral (d.raw.toInt.natAbs % 10 ^ k)) k 48 ≠ [] := by
      rw [← List.length_pos_iff, hlength]
      exact hkpos
    have hle : (padLeft (numeral (d.raw.toInt.natAbs % 10 ^ k)) k 48).length ≤ 38 := by
      have hhigh := hd.2
      omega
    have hdotted : Number (decide (d.raw.toInt < 0)) _ _ := .dotted
      (hcanonical (d.raw.toInt.natAbs / 10 ^ k)).digits hdigits hne hle (by rwa [hjoin])
    rw [hjoin, hsigned, hlength, ← hk] at hdotted
    have htext := toString_dotted hd hscale hmin
    rw [hk, Int.toNat_natCast, ← hk] at htext
    exact ⟨_, htext, _, _, _, sign_ite _, rfl, hdotted⟩

theorem roundTrips_iff (hd : Scaled d) : RoundTrips d ↔ d.raw.toInt ≠ -2 ^ 127 := by
  constructor
  · rintro ⟨text, _, hparse⟩
    exact (parse_some_iff.1 hparse).ne_min
  · intro hmin
    obtain ⟨text, htext, hspells⟩ := spells_toString hd hmin
    exact ⟨text, htext, parse_some_iff.2 hspells⟩

end Print

theorem Overlong.length {s : Str} (h : Overlong s) : 38 < s.length := by
  obtain ⟨sign, ip, fp, neg, _, rfl, hlong⟩ := h
  rw [List.length_append, List.length_append, List.length_cons]
  rcases hlong.long with hfrac | hbig
  · omega
  · have hlt := digitsOf_lt (Decimal.AllDigits.append.2 ⟨hlong.int.1, hlong.frac.2.1⟩)
    by_contra hshort
    have hle : ip.length + fp.length ≤ 38 := by omega
    rw [List.length_append] at hlt
    refine hbig (fits_natCast.2 (hlt.trans ?_))
    calc
      10 ^ (ip.length + fp.length) ≤ 10 ^ 38 := Nat.pow_le_pow_right (by decide) hle
      _ < 2 ^ 127 := by decide

/-- Printing round-trips but for the least raw value, and parsing is as documented but for the texts
that are too long. -/
theorem text_exact_iff (d : Decimal) (s : Str) (hd : Scaled d) :
    (RoundTrips d ↔ d.raw.toInt ≠ -2 ^ 127) ∧ (ParsesExactly s ↔ ¬ Overlong s) :=
  ⟨roundTrips_iff hd, parsesExactly_iff s⟩

theorem text_exact_short : RoundTrips ⟨-105, 2⟩ ∧ ParsesExactly [43, 46, 53] :=
  have h := text_exact_iff ⟨-105, 2⟩ [43, 46, 53] (by decide)
  ⟨h.1.2 (by decide), h.2.2 fun hlong => absurd hlong.length (by decide)⟩

/-- The least raw value is a difference that is printed but not read back; a dot and 39 zeros are
no malformed text to the parser, but a panic. -/
theorem not_text_exact :
    sub ⟨BitVec.intMin 128 + 1, 0⟩ ⟨1, 0⟩ = .ok ⟨BitVec.intMin 128, 0⟩ ∧
      ¬ RoundTrips ⟨BitVec.intMin 128, 0⟩ ∧ ¬ ParsesExactly (46 :: List.replicate 39 48) := by
  refine ⟨by decide, fun h => ?_, fun h => ?_⟩
  · exact absurd ((roundTrips_iff (by decide)).1 h) (by decide)
  · refine (parsesExactly_iff _).1 h ⟨[], [], List.replicate 39 48, false, .none, rfl, ?_⟩
    have hzeros : Decimal.AllDigits (List.replicate 39 48) := fun b hb => by
      rw [List.eq_of_mem_replicate hb]
      decide
    exact ⟨⟨fun b hb => absurd hb List.not_mem_nil, by decide⟩,
      ⟨List.cons_ne_nil _ _, hzeros, by decide⟩, .inl (by decide)⟩

end Kaikai.DecimalFixed
