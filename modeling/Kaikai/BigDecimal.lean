import Mathlib.Data.Int.ConditionallyCompleteOrder
import Kaikai.BigIntRender
import Kaikai.DecimalText

namespace Kaikai.BigDecimal

open Kaikai.Decimal (AllDigits digitsOf digitsOf_append digitsOf_lt numeral)
open Kaikai.DecimalFixed (Sign Unsigned signed Truncates padLeft)
open Kaikai.Str

abbrev BigInt := Int

/-- The value is `raw / 10 ^ scale`. -/
structure DecimalBig where
  raw : BigInt
  scale : Int
deriving DecidableEq

/-- `bigint.div` truncates toward zero. -/
def bigDiv (a b : BigInt) : Option BigInt := if b = 0 then none else some (a.tdiv b)

def bigCompare (a b : BigInt) : Int := if a < b then -1 else if a = b then 0 else 1

def digitRun (ds : Str) : Option Nat := if ds ≠ [] ∧ AllDigits ds then some (digitsOf ds) else none

/-- `bigint.from_string`: an optional sign and one or more digits. -/
def fromString : Str → Option BigInt
  | [] => none
  | b :: ds =>
      if b = 45 then (digitRun ds).map fun n : Nat => -(n : Int)
      else if b = 43 then (digitRun ds).map fun n : Nat => (n : Int)
      else (digitRun (b :: ds)).map fun n : Nat => (n : Int)

def pow10Loop (acc : BigInt) (n : Int) : BigInt :=
  if n ≤ 0 then acc else pow10Loop (acc * 10) (n - 1)
termination_by n.toNat
decreasing_by omega

def pow10 (n : Int) : BigInt := if n ≤ 0 then 1 else pow10Loop 1 n

def truncDiv (a b : BigInt) : BigInt := (bigDiv a b).getD 0

def dbRescale (d : DecimalBig) (newScale : Int) : DecimalBig :=
  if newScale = d.scale then d
  else if newScale > d.scale then ⟨d.raw * pow10 (Word64.sub newScale d.scale), newScale⟩
  else ⟨truncDiv d.raw (pow10 (Word64.sub d.scale newScale)), newScale⟩

def dbAlign (a b : DecimalBig) : DecimalBig × DecimalBig :=
  let target := if a.scale > b.scale then a.scale else b.scale
  (dbRescale a target, dbRescale b target)

def add (a b : DecimalBig) : DecimalBig :=
  let p := dbAlign a b
  ⟨p.1.raw + p.2.raw, p.1.scale⟩

def neg (d : DecimalBig) : DecimalBig := ⟨-d.raw, d.scale⟩

def sub (a b : DecimalBig) : DecimalBig := add a (neg b)

def mul (a b : DecimalBig) : DecimalBig := ⟨a.raw * b.raw, Word64.add a.scale b.scale⟩

def div (a b : DecimalBig) (targetScale : Int) : Option DecimalBig :=
  if b.raw = 0 then none
  else
    let num := a.raw * pow10 (Word64.add b.scale targetScale)
    let den := b.raw * pow10 a.scale
    (bigDiv num den).map fun q => ⟨q, targetScale⟩

def cmp (a b : DecimalBig) : Int :=
  let p := dbAlign a b
  bigCompare p.1.raw p.2.raw

def toString (d : DecimalBig) : Str :=
  if d.scale = 0 then Decimal.intToString d.raw
  else
    let mag : BigInt := d.raw.natAbs
    let factor := pow10 d.scale
    let units := truncDiv mag factor
    let frac := mag - units * factor
    let fracStr := padLeft (Decimal.intToString frac) d.scale 48
    let sign := if d.raw < 0 then [45] else []
    (sign ++ Decimal.intToString units) ++ (46 :: fracStr)

/-- A digit string; the sign that `from_string` accepts is looked for in the value only. -/
def dbDigits (s : Str) : Option BigInt :=
  if s.length = 0 then some 0
  else (fromString s).bind fun v => if v < 0 then none else some v

def dbIntPart (s : Str) : Option BigInt := if s.length = 0 then some 0 else dbDigits s

def dbCombine (ivOpt : Option BigInt) (fracPart : Str) (neg : Bool) : Option DecimalBig :=
  ivOpt.bind fun iv =>
    let scale : Int := fracPart.length
    (dbDigits fracPart).map fun fv =>
      let mag := iv * pow10 scale + fv
      ⟨if neg then -mag else mag, scale⟩

/-- The offset of the first dot, `none` where the module answers `-1`. -/
def dbFindDot (s : Str) (i n : ℕ) : Option ℕ :=
  if i ≥ n then none else if charAt s i = some '.' then some i else dbFindDot s (i + 1) n
termination_by n - i

def dbParseBody (s : Str) (start n : ℕ) (neg : Bool) : Option DecimalBig :=
  match dbFindDot s start n with
  | none => dbCombine (dbIntPart (stringSlice s start (n - start))) [] neg
  | some dot =>
      let intPart := stringSlice s start (dot - start)
      let fracPart := stringSlice s (dot + 1) (n - dot - 1)
      if fracPart.length = 0 then none else dbCombine (dbIntPart intPart) fracPart neg

def parse (s : Str) : Option DecimalBig :=
  let n := s.length
  if n = 0 then none
  else
    let first := charAt s 0
    let neg : Bool := first = some '-'
    let pos : Bool := first = some '+'
    let start := if neg || pos then 1 else 0
    if start ≥ n then none else dbParseBody s start n neg

/-- The number that a decimal stands for, at any scale. -/
def value (d : DecimalBig) : ℚ := d.raw * 10 ^ (-d.scale)

/-- A scale as the module is called with. -/
abbrev Scale := { k : Int // 0 ≤ k ∧ k < 2 ^ 63 }

/-- Decimals whose scale is not negative. -/
abbrev Scaled := { d : DecimalBig // 0 ≤ d.scale ∧ d.scale < 2 ^ 63 }

/-- Digits, or digits or none with a dot and one or more digits. -/
inductive Number (neg : Bool) : Str → DecimalBig → Prop
  | whole {ip : Str} (hip : AllDigits ip) (hne : ip ≠ []) :
      Number neg ip ⟨signed neg (digitsOf ip), 0⟩
  | dotted {ip fp : Str} (hip : AllDigits ip) (hfp : AllDigits fp) (hne : fp ≠ []) :
      Number neg (ip ++ 46 :: fp) ⟨signed neg (digitsOf (ip ++ fp)), fp.length⟩

/-- The text spells the decimal. -/
def Spells (s : Str) (d : DecimalBig) : Prop :=
  ∃ sign body neg, Sign sign neg ∧ s = sign ++ body ∧ Number neg body d

/-- A second sign in front of digits that leaves their number nonnegative. -/
inductive Stray : Str → Nat → Prop
  | plus {ds : Str} (hne : ds ≠ []) (hds : AllDigits ds) : Stray (43 :: ds) (digitsOf ds)
  | minus {ds : Str} (hne : ds ≠ []) (hds : AllDigits ds) (hzero : digitsOf ds = 0) :
      Stray (45 :: ds) 0

/-- Digits, with or without such a sign. -/
def Reads (s : Str) (v : Nat) : Prop := (AllDigits s ∧ v = digitsOf s) ∨ Stray s v

/-- Such a sign stands in front of one side of a text that is a number without it. -/
inductive StrayBody : Str → Prop
  | whole {body : Str} {v : Nat} (h : Stray body v) : StrayBody body
  | integer {ip fp : Str} {v w : Nat} (hip : Stray ip v) (hne : fp ≠ []) (hfp : Reads fp w) :
      StrayBody (ip ++ 46 :: fp)
  | fraction {ip fp : Str} {v w : Nat} (hip : Reads ip v) (hfp : Stray fp w) :
      StrayBody (ip ++ 46 :: fp)

/-- Behind the sign of the text, one of its sides has a sign of its own. -/
def StraySign (s : Str) : Prop :=
  ∃ sign body neg, Sign sign neg ∧ s = sign ++ body ∧ (sign = [] → Unsigned body) ∧ StrayBody body

/-- The arithmetic on `a` and `b`, the text of `a` and the reading of `s` are exact. -/
structure Exact (a b : Scaled) (t : Scale) (s : Str) : Prop where
  sum : value (add a b) = value a + value b
  difference : value (sub a b) = value a - value b
  product : value (mul a b) = value a * value b
  negation : value (neg a) = -value a
  undefined : div a b t = none ↔ value b = 0
  quotient : ∀ q, div a b t = some q →
    q.scale = t ∧ Truncates (value a / value b * 10 ^ t.1.toNat) q.raw
  order : cmp a b = SignType.sign (value a - value b)
  roundTrip : parse (toString a) = some a
  text : ∀ d, parse s = some d ↔ Spells s d

/-- The sums of scales that multiplication and division form fit, or the number is too small for
them to matter, and no side of the text has a sign of its own. -/
structure Fits (a b : Scaled) (t : Scale) (s : Str) : Prop where
  product : a.1.scale + b.1.scale < 2 ^ 63 ∨ a.1.raw = 0 ∨ b.1.raw = 0
  quotient : b.1.raw = 0 ∨ b.1.scale + t < 2 ^ 63 ∨
    a.1.raw.natAbs * 10 ^ (b.1.scale + t).toNat < b.1.raw.natAbs * 10 ^ a.1.scale.toNat
  text : ¬ StraySign s

theorem pow10Loop_eq (acc : BigInt) (n : Int) : pow10Loop acc n = acc * 10 ^ n.toNat := by
  induction acc, n using pow10Loop.induct with
  | case1 acc n h => rw [pow10Loop, if_pos h, Int.toNat_of_nonpos h, pow_zero, mul_one]
  | case2 acc n h ih =>
      have hsucc : n.toNat = (n - 1).toNat + 1 := by omega
      rw [pow10Loop, if_neg h, ih, hsucc, pow_succ']
      ring

theorem pow10_eq (n : Int) : pow10 n = 10 ^ n.toNat := by
  rw [pow10]
  split_ifs with h
  · rw [Int.toNat_of_nonpos h, pow_zero]
  · rw [pow10Loop_eq, one_mul]

theorem truncDiv_eq {a b : BigInt} (hb : b ≠ 0) : truncDiv a b = a.tdiv b := by
  rw [truncDiv, bigDiv, if_neg hb, Option.getD_some]

theorem value_of_nonneg {d : DecimalBig} (h : 0 ≤ d.scale) : value d = d.raw / 10 ^ d.scale.toNat := by
  rw [value, zpow_neg, ← Int.toNat_of_nonneg h, zpow_natCast, Int.toNat_natCast, div_eq_mul_inv]

theorem value_eq_zero_iff {d : DecimalBig} : value d = 0 ↔ d.raw = 0 := by
  have hpow : (10 : ℚ) ^ (-d.scale) ≠ 0 := zpow_ne_zero _ (by norm_num)
  rw [value, mul_eq_zero_iff_right hpow, Int.cast_eq_zero]

theorem dbRescale_eq (d : Scaled) {s : Int} (hs : d.1.scale ≤ s) (hhigh : s < 2 ^ 63) :
    dbRescale d s = ⟨d.1.raw * 10 ^ (s - d.1.scale).toNat, s⟩ := by
  obtain ⟨d, hlow, hd⟩ := d
  dsimp only at hs ⊢
  rw [dbRescale]
  split_ifs with heq hlt
  · rw [heq, sub_self, Int.toNat_zero, pow_zero, mul_one]
  · rw [Word64.sub_eq (by omega) (by omega), pow10_eq]
  · omega

theorem value_rescaled (d : Scaled) {s : Int} (hs : d.1.scale ≤ s) :
    value ⟨d.1.raw * 10 ^ (s - d.1.scale).toNat, s⟩ = value d := by
  have hnat : ((s - d.1.scale).toNat : ℤ) = s - d.1.scale := Int.toNat_of_nonneg (by omega)
  have hsum : s - d.1.scale + -s = -d.1.scale := by ring
  rw [value, value, Int.cast_mul, Int.cast_pow, Int.cast_ofNat, mul_assoc, ← zpow_natCast, hnat,
    ← zpow_add₀ (by norm_num), hsum]

theorem dbAlign_eq (a b : Scaled) :
    dbAlign a b =
      (⟨a.1.raw * 10 ^ (max a.1.scale b.1.scale - a.1.scale).toNat, max a.1.scale b.1.scale⟩,
        ⟨b.1.raw * 10 ^ (max a.1.scale b.1.scale - b.1.scale).toNat, max a.1.scale b.1.scale⟩) := by
  have htarget : (if a.1.scale > b.1.scale then a.1.scale else b.1.scale) =
      max a.1.scale b.1.scale := by
    split_ifs <;> omega
  have hhigh : max a.1.scale b.1.scale < 2 ^ 63 := max_lt a.2.2 b.2.2
  rw [dbAlign, htarget, dbRescale_eq a (le_max_left _ _) hhigh, dbRescale_eq b (le_max_right _ _) hhigh]

theorem value_mk_add (m n : BigInt) (s : Int) : value ⟨m + n, s⟩ = value ⟨m, s⟩ + value ⟨n, s⟩ := by
  rw [value, value, value, Int.cast_add, add_mul]

theorem value_neg (d : DecimalBig) : value (neg d) = -value d := by
  rw [value, value, neg, Int.cast_neg, neg_mul]

theorem value_add (a b : Scaled) : value (add a b) = value a + value b := by
  rw [add, dbAlign_eq]
  dsimp only
  rw [value_mk_add, value_rescaled a (le_max_left _ _), value_rescaled b (le_max_right _ _)]

theorem value_sub (a b : Scaled) : value (sub a b) = value a - value b := by
  have hadd := value_add a ⟨neg b, b.2⟩
  rw [sub, hadd, value_neg, sub_eq_add_neg]

theorem bigCompare_eq (m n : BigInt) : bigCompare m n = SignType.sign (m - n) := by
  rw [bigCompare]
  split_ifs with hlt heq
  · rw [sign_neg (sub_neg.2 hlt)]
    rfl
  · rw [heq, sub_self, sign_zero]
    rfl
  · have hgt : n < m := lt_of_le_of_ne (not_lt.1 hlt) (Ne.symm heq)
    rw [sign_pos (sub_pos.2 hgt)]
    rfl

theorem sign_cast (n : ℤ) : SignType.sign (n : ℚ) = SignType.sign n := by
  obtain hneg | rfl | hpos := lt_trichotomy n 0
  · rw [sign_neg hneg, sign_neg (Int.cast_lt_zero.2 hneg)]
  · rw [Int.cast_zero, sign_zero, sign_zero]
  · rw [sign_pos hpos, sign_pos (Int.cast_pos.2 hpos)]

theorem cmp_eq (a b : Scaled) : cmp a b = SignType.sign (value a - value b) := by
  let s := max a.1.scale b.1.scale
  have hpow : (0 : ℚ) < 10 ^ (-s) := zpow_pos (by norm_num) _
  have hdiff : value a - value b = ((a.1.raw * 10 ^ (s - a.1.scale).toNat -
      b.1.raw * 10 ^ (s - b.1.scale).toNat : ℤ) : ℚ) * 10 ^ (-s) := by
    rw [← value_rescaled a (le_max_left _ _), ← value_rescaled b (le_max_right _ _), value, value,
      Int.cast_sub, sub_mul]
  rw [cmp, dbAlign_eq, bigCompare_eq, hdiff, sign_mul, sign_pos hpow, mul_one, sign_cast]

theorem value_mul_iff (a b : Scaled) : value (mul a b) = value a * value b ↔
    a.1.scale + b.1.scale < 2 ^ 63 ∨ a.1.raw = 0 ∨ b.1.raw = 0 := by
  obtain ⟨a, halow, hahigh⟩ := a
  obtain ⟨b, hblow, hbhigh⟩ := b
  have hten : (10 : ℚ) ≠ 0 := by norm_num
  have hprod : value a * value b = ((a.raw * b.raw : ℤ) : ℚ) * 10 ^ (-(a.scale + b.scale)) := by
    rw [value, value, Int.cast_mul, mul_mul_mul_comm, ← zpow_add₀ hten, neg_add]
  dsimp only
  rw [hprod, value, mul]
  obtain hfit | hover := Int.lt_or_le (a.scale + b.scale) (2 ^ 63)
  · rw [Word64.add_eq (by omega) hfit]
    exact iff_of_true rfl (.inl hfit)
  · rw [← mul_eq_zero (a := a.raw), or_iff_right (not_lt.2 hover), mul_eq_mul_left_iff]
    have hscale : Word64.add a.scale b.scale ≠ a.scale + b.scale := by
      unfold Word64.add Word64.wrap
      omega
    have hpow : ¬ (10 : ℚ) ^ (-Word64.add a.scale b.scale) = 10 ^ (-(a.scale + b.scale)) := by
      intro heq
      have hexp := zpow_right_injective₀ (by norm_num : (0 : ℚ) < 10) (by norm_num) heq
      exact hscale (neg_inj.1 hexp)
    rw [or_iff_right hpow, Int.cast_eq_zero]

theorem div_eq {a b : DecimalBig} (hb : b.raw ≠ 0) (t : Int) :
    div a b t = some ⟨(a.raw * 10 ^ (Word64.add b.scale t).toNat).tdiv (b.raw * 10 ^ a.scale.toNat),
      t⟩ := by
  have hden : b.raw * 10 ^ a.scale.toNat ≠ 0 := mul_ne_zero hb (pow_ne_zero _ (by decide))
  rw [div, if_neg hb, pow10_eq, pow10_eq]
  dsimp only
  rw [bigDiv, if_neg hden, Option.map_some]

theorem div_eq_none_iff (a b : DecimalBig) (t : Int) : div a b t = none ↔ value b = 0 := by
  rw [value_eq_zero_iff]
  by_cases hb : b.raw = 0
  · rw [div, if_pos hb]
    exact iff_of_true rfl hb
  · rw [div_eq hb]
    exact iff_of_false (by simp) hb

theorem truncates_unique {x : ℚ} {m n : ℤ} (hm : Truncates x m) (hn : Truncates x n) : m = n := by
  have hle : ∀ {i j : ℤ}, Truncates x i → Truncates x j → |i| ≤ |j| := by
    intro i j hi hj
    have hlt := hi.le.trans_lt hj.lt
    rw [← Int.lt_add_one_iff]
    exact_mod_cast hlt
  obtain heq | hneg := abs_eq_abs.1 (le_antisymm (hle hm hn) (hle hn hm))
  · exact heq
  · have hzero : (n : ℚ) * x = 0 := by
      have hsign := hm.sign
      rw [hneg, Int.cast_neg, neg_mul] at hsign
      exact le_antisymm (neg_nonneg.1 hsign) hn.sign
    have hn0 : n = 0 := by
      obtain hcast | hx := mul_eq_zero.1 hzero
      · exact_mod_cast hcast
      · have hle := hn.le
        rw [hx, abs_zero] at hle
        exact_mod_cast abs_eq_zero.1 (le_antisymm hle (abs_nonneg _))
    rw [hneg, hn0, neg_zero]

theorem truncates_iff {m n k : ℤ} (hm : m ≠ 0) : Truncates ((n : ℚ) / m) k ↔ n.tdiv m = k :=
  ⟨truncates_unique (DecimalFixed.truncates_tdiv hm), fun h => h ▸ DecimalFixed.truncates_tdiv hm⟩

theorem tdiv_mul_eq_iff {n m : ℤ} {p : ℕ} (hp : 1 < p) (hm : m ≠ 0) :
    (n * p).tdiv m = n.tdiv m ↔ n.natAbs * p < m.natAbs := by
  have hmpos : 0 < m.natAbs := Int.natAbs_pos.2 hm
  constructor
  · intro h
    have habs := congrArg Int.natAbs h
    rw [Int.natAbs_tdiv, Int.natAbs_tdiv, Int.natAbs_mul, Int.natAbs_natCast] at habs
    change n.natAbs * p / m.natAbs = n.natAbs / m.natAbs at habs
    have hmul : n.natAbs / m.natAbs * p ≤ n.natAbs / m.natAbs := by
      refine le_of_le_of_eq ?_ habs
      rw [Nat.le_div_iff_mul_le hmpos, Nat.mul_right_comm]
      exact Nat.mul_le_mul_right p (Nat.div_mul_le_self _ _)
    have hzero : n.natAbs / m.natAbs = 0 := by
      obtain h0 | hpos := Nat.eq_zero_or_pos (n.natAbs / m.natAbs)
      · exact h0
      · exact absurd hmul (not_le.2 (lt_mul_of_one_lt_right hpos hp))
    rw [hzero] at habs
    exact (Nat.div_eq_zero_iff_lt hmpos).1 habs
  · intro h
    have hlt : n.natAbs < m.natAbs :=
      lt_of_le_of_lt (Nat.le_mul_of_pos_right _ (Nat.lt_of_succ_lt hp)) h
    have hleft : ((n * p).tdiv m).natAbs = 0 := by
      rw [Int.natAbs_tdiv, Int.natAbs_mul, Int.natAbs_natCast]
      exact Nat.div_eq_of_lt h
    have hright : (n.tdiv m).natAbs = 0 := by
      rw [Int.natAbs_tdiv]
      exact Nat.div_eq_of_lt hlt
    rw [Int.natAbs_eq_zero.1 hleft, Int.natAbs_eq_zero.1 hright]

theorem quotient_eq (a b : Scaled) (t : Scale) :
    value a / value b * 10 ^ t.1.toNat =
      ((a.1.raw * (10 ^ (b.1.scale + t).toNat : ℕ) : ℤ) : ℚ) / (b.1.raw * 10 ^ a.1.scale.toNat : ℤ) := by
  have hexp : (b.1.scale + t).toNat = b.1.scale.toNat + t.1.toNat := Int.toNat_add b.2.1 t.2.1
  rw [value_of_nonneg a.2.1, value_of_nonneg b.2.1, hexp, pow_add]
  push_cast
  rw [div_div_div_eq]
  ring

theorem div_iff (a b : Scaled) (t : Scale) :
    (∀ q, div a b t = some q →
      q.scale = t ∧ Truncates (value a / value b * 10 ^ t.1.toNat) q.raw) ↔
    b.1.raw = 0 ∨ b.1.scale + t < 2 ^ 63 ∨
      a.1.raw.natAbs * 10 ^ (b.1.scale + t).toNat < b.1.raw.natAbs * 10 ^ a.1.scale.toNat := by
  obtain hb | hb := eq_or_ne b.1.raw 0
  · have hnone : div a b t = none := (div_eq_none_iff a.1 b.1 t).2 (value_eq_zero_iff.2 hb)
    rw [hnone]
    exact iff_of_true (fun q hq => by cases hq) (.inl hb)
  · have hden : b.1.raw * 10 ^ a.1.scale.toNat ≠ 0 := mul_ne_zero hb (pow_ne_zero _ (by decide))
    rw [div_eq hb, quotient_eq, or_iff_right hb]
    simp only [Option.some.injEq, forall_eq', true_and]
    rw [truncates_iff hden]
    have hb0 := b.2.1
    have hb1 := b.2.2
    have ht0 := t.2.1
    have ht1 := t.2.2
    obtain hfit | hover := Int.lt_or_le (b.1.scale + t) (2 ^ 63)
    · rw [Word64.add_eq (by omega) hfit]
      refine iff_of_true ?_ (.inl hfit)
      push_cast
      rfl
    · have hneg : (Word64.add b.1.scale t).toNat = 0 := by
        unfold Word64.add Word64.wrap
        omega
      have hbig : 1 < 10 ^ (b.1.scale + t).toNat := Nat.one_lt_pow (by omega) (by decide)
      rw [hneg, pow_zero, mul_one, tdiv_mul_eq_iff hbig hden, or_iff_right (not_lt.2 hover),
        Int.natAbs_mul, Int.natAbs_pow]
      rfl

theorem map_digitRun_eq_some_iff {ds : Str} {f : Nat → Int} {v : Int} :
    (digitRun ds).map f = some v ↔ ds ≠ [] ∧ AllDigits ds ∧ v = f (digitsOf ds) := by
  rw [digitRun]
  split_ifs with h
  · rw [Option.map_some, Option.some.injEq, eq_comm]
    exact ⟨fun hv => ⟨h.1, h.2, hv⟩, fun hv => hv.2.2⟩
  · exact iff_of_false (by simp) fun hv => h ⟨hv.1, hv.2.1⟩

theorem fromString_eq_some_iff {s : Str} {v : Int} :
    fromString s = some v ↔ BigIntRender.Spells s v := by
  cases s with
  | nil =>
      refine iff_of_false (by simp [fromString]) ?_
      rintro ⟨ds, hne, -, ⟨rfl, -⟩ | ⟨heq, -⟩ | ⟨heq, -⟩⟩
      · exact hne rfl
      · cases heq
      · cases heq
  | cons b ds =>
      rw [fromString, BigIntRender.spells_cons]
      split_ifs
      · exact map_digitRun_eq_some_iff
      · exact map_digitRun_eq_some_iff
      · rw [map_digitRun_eq_some_iff]
        exact and_iff_right (List.cons_ne_nil b ds)

section Text

variable {s ip fp body : Str} {neg : Bool} {v w : Nat} {d : DecimalBig}

theorem reads_nil : Reads [] v ↔ v = 0 := by
  constructor
  · rintro (⟨-, rfl⟩ | h)
    · rfl
    · cases h
  · rintro rfl
    exact .inl ⟨fun b hb => absurd hb List.not_mem_nil, rfl⟩

theorem stray_minus {ds : Str} : Stray (45 :: ds) v ↔ ds ≠ [] ∧ AllDigits ds ∧ digitsOf ds = 0 ∧ v = 0 := by
  constructor
  · intro h
    cases h with
    | minus hne hds hzero => exact ⟨hne, hds, hzero, rfl⟩
  · rintro ⟨hne, hds, hzero, rfl⟩
    exact .minus hne hds hzero

theorem stray_plus {ds : Str} : Stray (43 :: ds) v ↔ ds ≠ [] ∧ AllDigits ds ∧ v = digitsOf ds := by
  constructor
  · intro h
    cases h with
    | plus hne hds => exact ⟨hne, hds, rfl⟩
  · rintro ⟨hne, hds, rfl⟩
    exact .plus hne hds

theorem Stray.sign {b : UInt8} {ds : Str} (h : Stray (b :: ds) v) : b = 45 ∨ b = 43 := by
  cases h with
  | plus => exact .inr rfl
  | minus => exact .inl rfl

theorem spells_nonneg_iff {b : UInt8} {ds : Str} :
    BigIntRender.Spells (b :: ds) (v : Int) ↔ Reads (b :: ds) v := by
  rw [BigIntRender.spells_cons, Reads]
  split_ifs with hminus hplus
  · subst hminus
    have hdigits : ¬ AllDigits (45 :: ds) := fun h => (BigIntRender.not_sign_of_allDigits h).1 rfl
    rw [stray_minus, or_iff_right fun h => hdigits h.1]
    refine and_congr_right fun _ => and_congr_right fun _ => ?_
    omega
  · subst hplus
    have hdigits : ¬ AllDigits (43 :: ds) := fun h => (BigIntRender.not_sign_of_allDigits h).2 rfl
    rw [stray_plus, or_iff_right fun h => hdigits h.1, Int.natCast_inj]
  · have hstray : ¬ Stray (b :: ds) v := fun h => h.sign.elim hminus hplus
    rw [or_iff_left hstray, Int.natCast_inj]

theorem dbDigits_eq_some_iff {n : Int} : dbDigits s = some n ↔ ∃ v : Nat, n = v ∧ Reads s v := by
  cases s with
  | nil =>
      simp only [reads_nil, exists_eq_right, Nat.cast_zero]
      rw [dbDigits, if_pos List.length_nil, Option.some.injEq, eq_comm]
  | cons b ds =>
      rw [dbDigits, if_neg (by simp)]
      constructor
      · intro h
        obtain ⟨m, hm, hsome⟩ := Option.bind_eq_some_iff.1 h
        split_ifs at hsome with hneg
        cases hsome
        obtain ⟨v, rfl⟩ := Int.eq_ofNat_of_zero_le (not_lt.1 hneg)
        exact ⟨v, rfl, spells_nonneg_iff.1 (fromString_eq_some_iff.1 hm)⟩
      · rintro ⟨v, rfl, h⟩
        rw [fromString_eq_some_iff.2 (spells_nonneg_iff.2 h), Option.bind_some,
          if_neg (not_lt.2 (Int.natCast_nonneg v))]

theorem dbIntPart_eq (s : Str) : dbIntPart s = dbDigits s := by
  rw [dbIntPart]
  split_ifs with h
  · rw [dbDigits, if_pos h]
  · rfl

theorem dbCombine_eq_some_iff : dbCombine (dbIntPart ip) fp neg = some d ↔
    ∃ v w : Nat, Reads ip v ∧ Reads fp w ∧ d = ⟨signed neg (v * 10 ^ fp.length + w), fp.length⟩ := by
  have hmag : ∀ v w : Nat, (if neg = true then -((v : Int) * pow10 fp.length + w)
      else (v : Int) * pow10 fp.length + w) = signed neg (v * 10 ^ fp.length + w) := by
    intro v w
    rw [pow10_eq, Int.toNat_natCast, signed]
    push_cast
    rfl
  rw [dbIntPart_eq, dbCombine]
  simp only [Option.bind_eq_some_iff, Option.map_eq_some_iff, dbDigits_eq_some_iff]
  constructor
  · rintro ⟨_, ⟨v, rfl, hv⟩, _, ⟨w, rfl, hw⟩, rfl⟩
    exact ⟨v, w, hv, hw, by rw [hmag]⟩
  · rintro ⟨v, w, hv, hw, rfl⟩
    exact ⟨v, ⟨v, rfl, hv⟩, w, ⟨w, rfl, hw⟩, by rw [hmag]⟩

theorem dbFindDot_eq (s : Str) (i : ℕ) :
    dbFindDot s i s.length = DecimalFixed.decFindDot s i s.length := by
  generalize hn : s.length - i = k
  induction k generalizing i with
  | zero =>
      have hge : i ≥ s.length := by omega
      rw [dbFindDot, DecimalFixed.decFindDot, if_pos hge, if_pos hge]
  | succ k ih =>
      have hlt : ¬ i ≥ s.length := by omega
      have hi : i < s.length := by omega
      have hchar : charAt s i = some (Char.ofNat s[i].toNat) := by
        rw [charAt, List.getElem?_eq_getElem]
        rfl
      rw [dbFindDot, DecimalFixed.decFindDot, if_neg hlt, if_neg hlt, hchar, ih (i + 1) (by omega)]
      simp only [Option.some.injEq]

/-- A sign apart, the texts that are read and what they are read as. -/
inductive Accepted (neg : Bool) : Str → DecimalBig → Prop
  | whole {body : Str} {v : Nat} (hne : body ≠ []) (hv : Reads body v) :
      Accepted neg body ⟨signed neg v, 0⟩
  | dotted {ip fp : Str} {v w : Nat} (hip : Reads ip v) (hne : fp ≠ []) (hfp : Reads fp w) :
      Accepted neg (ip ++ 46 :: fp) ⟨signed neg (v * 10 ^ fp.length + w), fp.length⟩

theorem Stray.not_mem_dot (h : Stray s v) : 46 ∉ s := by
  cases h with
  | plus _ hds => exact List.not_mem_cons_of_ne_of_not_mem (by decide) (DecimalFixed.not_mem_dot hds)
  | minus _ hds _ => exact List.not_mem_cons_of_ne_of_not_mem (by decide) (DecimalFixed.not_mem_dot hds)

theorem Reads.not_mem_dot (h : Reads s v) : 46 ∉ s :=
  h.elim (fun hds => DecimalFixed.not_mem_dot hds.1) Stray.not_mem_dot

theorem dbParseBody_whole {start : ℕ} (h : s.drop start = body) (hne : body ≠ []) (hdot : 46 ∉ body) :
    dbParseBody s start s.length neg = some d ↔ Accepted neg body d := by
  rw [dbParseBody, dbFindDot_eq, (DecimalFixed.decFindDot_eq h).1 hdot]
  dsimp only
  rw [DecimalFixed.slice_whole h, dbCombine_eq_some_iff]
  constructor
  · rintro ⟨v, w, hv, hw, rfl⟩
    rw [reads_nil.1 hw]
    have hwhole : Accepted neg body ⟨signed neg v, 0⟩ := .whole hne hv
    simpa using hwhole
  · intro hd
    cases hd with
    | @whole body v _ hv => exact ⟨v, 0, hv, reads_nil.2 rfl, by simp⟩
    | dotted => exact absurd (List.mem_append_right _ List.mem_cons_self) hdot

theorem dbParseBody_dotted {start : ℕ} (h : s.drop start = ip ++ 46 :: fp) (hip : 46 ∉ ip) :
    dbParseBody s start s.length neg = some d ↔ Accepted neg (ip ++ 46 :: fp) d := by
  obtain ⟨hint, hfrac⟩ := DecimalFixed.slice_sides h
  rw [dbParseBody, dbFindDot_eq, (DecimalFixed.decFindDot_eq h).2 ip fp rfl hip]
  dsimp only
  rw [hint, hfrac]
  generalize hbody : ip ++ 46 :: fp = body
  constructor
  · intro hd
    split_ifs at hd with hempty
    obtain ⟨v, w, hv, hw, rfl⟩ := dbCombine_eq_some_iff.1 hd
    rw [← hbody]
    exact .dotted hv (mt List.length_eq_zero_iff.2 hempty) hw
  · intro hd
    cases hd with
    | whole _ hv =>
        rw [← hbody] at hv
        exact absurd (List.mem_append_right _ List.mem_cons_self) hv.not_mem_dot
    | @dotted ip' fp' v w hip' hne hfp' =>
        obtain ⟨rfl, rfl⟩ := DecimalFixed.split_dot_unique hbody hip hip'.not_mem_dot
        rw [if_neg (mt List.length_eq_zero_iff.1 hne)]
        exact dbCombine_eq_some_iff.2 ⟨v, w, hip', hfp', rfl⟩

theorem dbParseBody_iff {start : ℕ} (h : s.drop start = body) (hne : body ≠ []) :
    dbParseBody s start s.length neg = some d ↔ Accepted neg body d := by
  by_cases hdot : 46 ∈ body
  · obtain ⟨ip, fp, rfl, hip⟩ := List.eq_append_cons_of_mem hdot
    exact dbParseBody_dotted h hip
  · exact dbParseBody_whole h hne hdot

theorem Accepted.ne_nil (h : Accepted neg body d) : body ≠ [] := by
  cases h with
  | whole hne _ => exact hne
  | dotted _ _ _ => simp

theorem parse_iff {sign : Str} (hsign : Sign sign neg) (hs : s = sign ++ body)
    (hplain : sign = [] → Unsigned body) : parse s = some d ↔ Accepted neg body d := by
  have hminus : charAt s 0 = some '-' ↔ s.head? = some 45 := DecimalFixed.charAt_zero_iff (b := 45)
  have hplus : charAt s 0 = some '+' ↔ s.head? = some 43 := DecimalFixed.charAt_zero_iff (b := 43)
  have hbody : s.drop sign.length = body := by rw [hs, List.drop_left]
  have hparse : parse s =
      if body = [] then none else dbParseBody s sign.length s.length neg := by
    rw [parse]
    simp only [hminus, hplus]
    cases hsign with
    | none =>
        obtain ⟨hm, hp⟩ := hplain rfl
        rw [List.nil_append] at hs
        subst hs
        simp only [hm, hp, decide_false, Bool.or_false, Bool.false_eq_true, if_false,
          List.length_eq_zero_iff, List.length_nil]
        split_ifs with hnil hzero
        · rfl
        · exact absurd (List.length_eq_zero_iff.1 (Nat.le_zero.1 hzero)) hnil
        · rfl
    | plus =>
        subst hs
        cases body <;> rfl
    | minus =>
        subst hs
        cases body <;> rfl
  rw [hparse]
  split_ifs with hempty
  · exact iff_of_false (by simp) fun hd => hd.ne_nil hempty
  · exact dbParseBody_iff hbody hempty

theorem Number.accepted (h : Number neg body d) : Accepted neg body d := by
  cases h with
  | whole hip hne => exact .whole hne (.inl ⟨hip, rfl⟩)
  | @dotted ip fp hip hfp hne =>
      rw [digitsOf_append]
      exact .dotted (.inl ⟨hip, rfl⟩) hne (.inl ⟨hfp, rfl⟩)

theorem Number.unsigned (h : Number neg body d) : Unsigned body := by
  cases h with
  | whole hip hne =>
      obtain ⟨b, ip, rfl⟩ := List.exists_cons_of_ne_nil hne
      exact DecimalFixed.unsigned_of_digit (.inl (hip b List.mem_cons_self))
  | dotted hip _ _ => exact DecimalFixed.unsigned_dotted hip

theorem spells_iff {sign : Str} (hsign : Sign sign neg) (hs : s = sign ++ body)
    (hplain : sign = [] → Unsigned body) : Spells s d ↔ Number neg body d := by
  constructor
  · rintro ⟨sign', body', neg', hsign', hs', hnumber⟩
    obtain ⟨rfl, rfl⟩ := DecimalFixed.sign_unique hsign hsign' (hs.symm.trans hs') hplain
      fun _ => hnumber.unsigned
    exact hnumber
  · exact fun h => ⟨sign, body, neg, hsign, hs, h⟩

theorem straySign_iff {sign : Str} (hsign : Sign sign neg) (hs : s = sign ++ body)
    (hplain : sign = [] → Unsigned body) : StraySign s ↔ StrayBody body := by
  constructor
  · rintro ⟨sign', body', neg', hsign', hs', hplain', hstray⟩
    obtain ⟨-, rfl⟩ := DecimalFixed.sign_unique hsign hsign' (hs.symm.trans hs') hplain hplain'
    exact hstray
  · exact fun h => ⟨sign, body, neg, hsign, hs, hplain, h⟩

theorem Number.plain (h : Number neg body d) : 43 ∉ body ∧ 45 ∉ body := by
  have hnot : ∀ {ds : Str}, AllDigits ds → 43 ∉ ds ∧ 45 ∉ ds := fun hds =>
    ⟨fun hmem => absurd (hds 43 hmem) (by decide), fun hmem => absurd (hds 45 hmem) (by decide)⟩
  cases h with
  | whole hip _ => exact hnot hip
  | dotted hip hfp _ =>
      have hi := hnot hip
      have hf := hnot hfp
      simp [hi, hf]

theorem Stray.mem (h : Stray s v) : 43 ∈ s ∨ 45 ∈ s := by
  cases h with
  | plus => exact .inl List.mem_cons_self
  | minus => exact .inr List.mem_cons_self

theorem StrayBody.accepted (h : StrayBody body) : ∃ d, Accepted neg body d := by
  cases h with
  | whole h =>
      have hne : body ≠ [] := by
        rintro rfl
        cases h
      exact ⟨_, .whole hne (.inr h)⟩
  | integer hip hne hfp => exact ⟨_, .dotted (.inr hip) hne hfp⟩
  | @fraction ip fp v w hip hfp =>
      have hne : fp ≠ [] := by
        rintro rfl
        cases hfp
      exact ⟨_, .dotted hip hne (.inr hfp)⟩

theorem StrayBody.not_number (h : StrayBody body) : ¬ Number neg body d := by
  intro hnumber
  obtain ⟨hplus, hminus⟩ := hnumber.plain
  cases h with
  | whole h => exact h.mem.elim hplus hminus
  | integer hip _ _ =>
      exact hip.mem.elim (fun hmem => hplus (List.mem_append_left _ hmem))
        fun hmem => hminus (List.mem_append_left _ hmem)
  | fraction _ hfp =>
      exact hfp.mem.elim (fun hmem => hplus (List.mem_append_right _ (List.mem_cons_of_mem _ hmem)))
        fun hmem => hminus (List.mem_append_right _ (List.mem_cons_of_mem _ hmem))

theorem Accepted.number (h : Accepted neg body d) (hstray : ¬ StrayBody body) : Number neg body d := by
  cases h with
  | whole hne hv =>
      obtain ⟨hds, rfl⟩ | hs := hv
      · exact .whole hds hne
      · exact absurd (.whole hs) hstray
  | dotted hip hne hfp =>
      obtain ⟨hip, rfl⟩ | hs := hip
      · obtain ⟨hfp, rfl⟩ | hs := hfp
        · rw [← digitsOf_append]
          exact .dotted hip hfp hne
        · exact absurd (.fraction (.inl ⟨hip, rfl⟩) hs) hstray
      · exact absurd (.integer hs hne hfp) hstray

theorem text_iff (s : Str) : (∀ d, parse s = some d ↔ Spells s d) ↔ ¬ StraySign s := by
  obtain ⟨sign, body, neg, hsign, hs, hplain⟩ := DecimalFixed.exists_sign s
  simp only [parse_iff hsign hs hplain, spells_iff hsign hs hplain, straySign_iff hsign hs hplain]
  constructor
  · intro h hstray
    obtain ⟨d, hd⟩ : ∃ d, Accepted neg body d := hstray.accepted
    exact hstray.not_number ((h d).1 hd)
  · exact fun hstray d => ⟨fun h => h.number hstray, Number.accepted⟩

theorem toString_eq (d : Scaled) (hscale : d.1.scale ≠ 0) :
    toString d = (if decide (d.1.raw < 0) then [45] else []) ++
      (numeral (d.1.raw.natAbs / 10 ^ d.1.scale.toNat) ++
        46 :: padLeft (numeral (d.1.raw.natAbs % 10 ^ d.1.scale.toNat)) d.1.scale 48) := by
  have hpow : (10 : ℤ) ^ d.1.scale.toNat ≠ 0 := pow_ne_zero _ (by decide)
  have hunits : (d.1.raw.natAbs : ℤ).tdiv (10 ^ d.1.scale.toNat) =
      (d.1.raw.natAbs / 10 ^ d.1.scale.toNat : ℕ) := by
    rw [Int.tdiv_eq_ediv_of_nonneg (Int.natCast_nonneg _)]
    push_cast
    rfl
  have hfrac : (d.1.raw.natAbs : ℤ) -
      (d.1.raw.natAbs / 10 ^ d.1.scale.toNat : ℕ) * 10 ^ d.1.scale.toNat =
        (d.1.raw.natAbs % 10 ^ d.1.scale.toNat : ℕ) := by
    push_cast
    rw [mul_comm, Int.emod_def]
  rw [toString, if_neg hscale]
  dsimp only
  rw [pow10_eq, truncDiv_eq hpow, hunits, hfrac, DecimalFixed.intToString_natCast,
    DecimalFixed.intToString_natCast]
  simp only [decide_eq_true_eq, List.append_assoc]

theorem spells_toString (d : Scaled) : Spells (toString d) d := by
  obtain ⟨⟨raw, scale⟩, hlow, hhigh⟩ := d
  have hsign := DecimalFixed.sign_ite (decide (raw < 0))
  obtain rfl | hscale := eq_or_ne scale 0
  · have hcanonical := Decimal.canonical_numeral raw.natAbs
    have hnumber : Number (decide (raw < 0)) _ _ :=
      .whole hcanonical.digits hcanonical.nonempty
    rw [hcanonical.value, DecimalFixed.signed_natAbs] at hnumber
    refine ⟨_, _, _, hsign, ?_, hnumber⟩
    rw [toString, if_pos rfl, DecimalFixed.intToString_eq]
    simp only [decide_eq_true_eq]
  · obtain ⟨k, rfl⟩ := Int.eq_ofNat_of_zero_le hlow
    have hk : 0 < k := by omega
    obtain ⟨hpad, hwidth, hread⟩ := DecimalFixed.padLeft_digits hk
      (Nat.mod_lt raw.natAbs (Nat.pow_pos (n := k) (by decide : 0 < 10)))
    have hcanonical := Decimal.canonical_numeral (raw.natAbs / 10 ^ k)
    have hne : padLeft (numeral (raw.natAbs % 10 ^ k)) k 48 ≠ [] := by
      intro hnil
      rw [hnil, List.length_nil] at hwidth
      omega
    have hnumber : Number (decide (raw < 0)) _ _ := .dotted hcanonical.digits hpad hne
    rw [digitsOf_append, hwidth, hread, hcanonical.value, Nat.div_add_mod',
      DecimalFixed.signed_natAbs] at hnumber
    exact ⟨_, _, _, hsign, toString_eq ⟨⟨raw, k⟩, hlow, hhigh⟩ hscale, hnumber⟩

theorem parse_of_spells (h : Spells s d) : parse s = some d := by
  obtain ⟨sign, body, neg, hsign, hs, hnumber⟩ := h
  exact (parse_iff hsign hs fun _ => hnumber.unsigned).2 hnumber.accepted

end Text

/-- The decimals are exact exactly where the scales fit and no side of the text has a sign of its
own. -/
theorem numeric_iff (a b : Scaled) (t : Scale) (s : Str) : Exact a b t s ↔ Fits a b t s := by
  constructor
  · intro h
    exact
      { product := (value_mul_iff a b).1 h.product
        quotient := (div_iff a b t).1 h.quotient
        text := (text_iff s).1 h.text }
  · intro h
    exact
      { sum := value_add a b
        difference := value_sub a b
        product := (value_mul_iff a b).2 h.product
        negation := value_neg a
        undefined := div_eq_none_iff a b t
        quotient := (div_iff a b t).2 h.quotient
        order := cmp_eq a b
        roundTrip := parse_of_spells (spells_toString a)
        text := (text_iff s).2 h.text }

def zero : Scaled := ⟨⟨0, 0⟩, by decide⟩

/-- `1.+5`, whose fraction is read as `+5`, a number of two places. -/
def signedFraction : Str := [49] ++ 46 :: [43, 53]

theorem not_exact_signed : ¬ Exact zero zero ⟨0, by decide⟩ signedFraction := by
  intro h
  apply (text_iff signedFraction).1 h.text
  have hplain : Unsigned signedFraction := by
    unfold Unsigned
    decide
  have hdigit : ∀ b : UInt8, Decimal.IsDigit b → AllDigits [b] := fun b hb c hc =>
    List.mem_singleton.1 hc ▸ hb
  exact ⟨[], signedFraction, false, .none, rfl, fun _ => hplain,
    .fraction (.inl ⟨hdigit 49 (by decide), rfl⟩)
      (.plus (List.cons_ne_nil _ _) (hdigit 53 (by decide)))⟩

end Kaikai.BigDecimal
