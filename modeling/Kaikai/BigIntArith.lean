import Mathlib.Data.Int.Order.Lemmas
import Kaikai.BigIntDivision
import Kaikai.BigIntParse

/-!
Arbitrary-precision signed integers: an inline 64-bit value, or a sign with a
magnitude. `none` models a trap of the runtime (an index outside an array, a
division that does not fit).
-/

namespace Kaikai.BigIntArith

open Kaikai.BigIntDivision
open Kaikai.BigIntKaratsuba
open Kaikai.BigIntLimbs
open Kaikai.BigIntParse
open Kaikai.Decimal
open Kaikai.Positional
open Kaikai.Str

inductive BigInt where
  | small (n : Int)
  | big (sign : Int) (mag : Mag)
deriving DecidableEq, Repr

def smallMagMax : Int := 9223372036854775807

/-- `0 - small_mag_max() - 1`. -/
def minInt : Int := Word64.sub (Word64.sub 0 smallMagMax) 1

/-- True when a magnitude of significant length `n` is within `Small` range. -/
def fitsSmall (mag : Mag) (n : Nat) : Option Bool :=
  if n ≤ 1 then some true
  else if n = 2 then do
    let high ← arrayGet mag 1
    some (high ≤ Word64.sub (Word64.bitShl 1 31) 1)
  else some false

/-- Folds the `n` low limbs, from the top, into `acc`. -/
def magToIntFrom (mag : Mag) : Nat → Int → Option Int
  | 0, acc => some acc
  | i + 1, acc => do
      let x ← arrayGet mag i
      magToIntFrom mag i (Word64.add (Word64.mul acc (Word64.bitShl 1 32)) x)

def magToInt (mag : Mag) (n : Nat) : Option Int := magToIntFrom mag n 0

/-- Builds a value from a sign (negative, else non-negative) and a possibly
non-canonical magnitude. -/
def make (sign : Int) (mag : Mag) : Option BigInt :=
  let n := sigLen mag
  if n = 0 then some (.small 0)
  else do
    let fits ← fitsSmall mag n
    if fits then do
      let v ← magToInt mag n
      some (.small (if sign < 0 then Word64.sub 0 v else v))
    else some (.big (if sign < 0 then Word64.sub 0 1 else 1) mag)

def zero : BigInt := .small 0

def one : BigInt := .small 1

/-- The magnitude of the least `Int`. -/
def minI64Mag : Mag := (arrayMake 2 0).set 1 (Word64.bitShl 1 31)

/-- Lifts a 64-bit `Int`; the least one is held as `Big`. -/
def fromInt (n : Int) : BigInt :=
  if n = minInt then .big (Word64.sub 0 1) minI64Mag else .small n

/-- `string.replace(digits, "_", "")`. -/
def eraseUnderscores (digits : Str) : Str := digits.filter (· ≠ 95)

def fromLiteral (digits : Str) : Option BigInt := do
  let clean := eraseUnderscores digits
  let r ← magFromDigits clean 0 clean.length
  make 1 r.1

def sign : BigInt → Int
  | .small n => if n < 0 then Word64.sub 0 1 else if n > 0 then 1 else 0
  | .big s _ => s

/-- The magnitude of an `Int` other than the least one, as one or two limbs. -/
def intMagnitude (n : Int) : Mag :=
  let m := if n < 0 then Word64.sub 0 n else n
  let hi := limbHi m
  if hi = 0 then [limbLo m] else [limbLo m, hi]

def magnitude : BigInt → Mag
  | .small n => intMagnitude n
  | .big _ mag => mag

def isZero : BigInt → Bool
  | .small n => n = 0
  | .big _ _ => false

def neg : BigInt → BigInt
  | .small n => .small (Word64.sub 0 n)
  | .big s mag => .big (Word64.sub 0 s) mag

def abs : BigInt → BigInt
  | .small n => if n < 0 then fromInt (Word64.sub 0 n) else .small n
  | .big _ mag => .big 1 mag

def compareSigned (a b : BigInt) : Option Int :=
  let sa := sign a
  let sb := sign b
  if sa < sb then some (Word64.sub 0 1)
  else if sa > sb then some 1
  else if sa = 0 then some 0
  else do
    let c ← magCmp (magnitude a) (magnitude b)
    some (if sa < 0 then Word64.sub 0 c else c)

/-- `-1` if `a` is below `b`, `0` if they are equal, `1` if it is above. -/
def compare : BigInt → BigInt → Option Int
  | .small x, .small y => some (if x < y then Word64.sub 0 1 else if x > y then 1 else 0)
  | a, b => compareSigned a b

def addNonzero (a b : BigInt) : Option BigInt :=
  let sa := sign a
  let ma := magnitude a
  let mb := magnitude b
  if sa = sign b then do
    let sum ← magAdd ma mb
    make sa sum
  else do
    let c ← magCmp ma mb
    if c = 0 then some (.small 0)
    else if c > 0 then do
      let diff ← magSub ma mb
      make sa diff
    else do
      let diff ← magSub mb ma
      make (sign b) diff

def addGeneral (a b : BigInt) : Option BigInt :=
  if isZero a then some b else if isZero b then some a else addNonzero a b

/-- The sum overflows exactly when both operands share a sign and the wrapped sum
flips it. -/
def addSmall (x y : Int) : Option BigInt :=
  let s := Word64.add x y
  if x ≥ 0 ∧ y ≥ 0 ∧ s < 0 then addGeneral (.small x) (.small y)
  else if x < 0 ∧ y < 0 ∧ s ≥ 0 then addGeneral (.small x) (.small y)
  else some (fromInt s)

def add : BigInt → BigInt → Option BigInt
  | .small x, .small y => addSmall x y
  | a, b => addGeneral a b

def sub (a b : BigInt) : Option BigInt := add a (neg b)

def mulGeneral (a b : BigInt) : Option BigInt :=
  if isZero a || isZero b then some (.small 0)
  else do
    let product ← magMulFast (magnitude a) (magnitude b)
    make (Word64.mul (sign a) (sign b)) product

/-- The product overflows when dividing it back does not recover an operand. -/
def mulSmall (x y : Int) : Option BigInt :=
  if x = 0 ∨ y = 0 then some (.small 0)
  else do
    let p := Word64.mul x y
    let back ← Word64.div p x
    if back = y ∧ p ≠ minInt then some (.small p) else mulGeneral (.small x) (.small y)

def mul : BigInt → BigInt → Option BigInt
  | .small x, .small y => mulSmall x y
  | a, b => mulGeneral a b

/-- The digits `[start, n)` with the given sign; an empty span is no number. -/
def parseBody (s : Str) (start n : Nat) (sign : Int) : Option (Option BigInt) :=
  if start ≥ n then some none
  else do
    let r ← magFromDigits s start n
    if r.2 then do
      let x ← make sign r.1
      some (some x)
    else some none

/-- Parses a base-10 integer; the inner `none` is the source's `None`. -/
def fromString (s : Str) : Option (Option BigInt) :=
  let n := s.length
  if n = 0 then some none
  else match charAt s 0 with
    | some '-' => parseBody s 1 n (Word64.sub 0 1)
    | some '+' => parseBody s 1 n 1
    | _ => parseBody s 0 n 1

/-- Truncating division with remainder; the inner `none` is a zero divisor. -/
def divmod (a b : BigInt) : Option (Option (BigInt × BigInt)) :=
  if isZero b then some none
  else if isZero a then some (some (zero, zero))
  else do
    let qm ← magDivmod (magnitude a) (magnitude b)
    let q ← make (Word64.mul (sign a) (sign b)) qm.1
    let r ← make (sign a) qm.2
    some (some (q, r))

/-- The integer that a value stands for. -/
def value : BigInt → Int
  | .small n => n
  | .big s mag => s * val mag

/-- What every operation keeps: an inline value has a negation, and a `Big` one
has a unit sign, proper limbs and a magnitude outside the inline range. -/
def Wf : BigInt → Prop
  | .small n => -2 ^ 63 < n ∧ n < 2 ^ 63
  | .big s mag => (s = 1 ∨ s = -1) ∧ LimbsOk mag ∧ 2 ^ 63 ≤ val mag

/-- A computation that does not trap and returns a well-formed value of `v`. -/
def Yields (m : Option BigInt) (v : Int) : Prop := ∃ x, m = some x ∧ Wf x ∧ value x = v

theorem minInt_eq : minInt = -2 ^ 63 := by decide

theorem neg_one : Word64.sub 0 1 = -1 := by decide

theorem magToIntFrom_spec {mag : Mag} (hmag : LimbsOk mag) (n : Nat) :
    ∀ acc, n ≤ mag.length → 0 ≤ acc →
      acc * (2 ^ 32) ^ n + window (2 ^ 32) mag 0 n < 2 ^ 63 →
      magToIntFrom mag n acc = some (acc * (2 ^ 32) ^ n + window (2 ^ 32) mag 0 n) := by
  induction n with
  | zero =>
      intro acc _ _ _
      rw [magToIntFrom, window_of_le _ _ le_rfl, pow_zero]
      simp
  | succ n ih =>
      intro acc hlen hacc hlt
      have hx := Digits.getD (r := 2 ^ 32) (by norm_num) hmag n
      have hw := window_nonneg (r := 2 ^ 32) (by norm_num) hmag 0 n
      have hone : (1 : Int) ≤ (2 ^ 32) ^ n := one_le_pow₀ (by norm_num)
      rw [window_succ _ (by omega)] at hlt ⊢
      have hexp : acc * (2 ^ 32) ^ (n + 1) +
          (window (2 ^ 32) mag 0 n + (2 ^ 32) ^ n * mag.getD n 0) =
          (acc * 2 ^ 32 + mag.getD n 0) * (2 ^ 32) ^ n + window (2 ^ 32) mag 0 n := by
        rw [pow_succ]
        ring
      have hbound : acc * 2 ^ 32 + mag.getD n 0 ≤
          (acc * 2 ^ 32 + mag.getD n 0) * (2 ^ 32) ^ n :=
        le_mul_of_one_le_right (by omega) hone
      rw [hexp] at hlt ⊢
      have hstep : Word64.add (Word64.mul acc (Word64.bitShl 1 32)) (mag.getD n 0) =
          acc * 2 ^ 32 + mag.getD n 0 := by
        rw [show Word64.bitShl 1 32 = 2 ^ 32 by decide,
          Word64.mul_eq (by omega) (by omega), Word64.add_eq (by omega) (by omega)]
      rw [magToIntFrom, arrayGet_eq (by omega), Option.bind_eq_bind, Option.bind_some, hstep]
      exact ih _ (by omega) (by omega) hlt

theorem magToInt_spec {mag : Mag} (hmag : LimbsOk mag) (h : val mag < 2 ^ 63) :
    magToInt mag (sigLen mag) = some (val mag) := by
  rw [val_eq_window] at h ⊢
  rw [magToInt, magToIntFrom_spec hmag _ 0 (sigLen_le_length mag) le_rfl (by simpa using h)]
  simp

theorem fitsSmall_spec {mag : Mag} (hmag : LimbsOk mag) :
    fitsSmall mag (sigLen mag) = some (decide (val mag < 2 ^ 63)) := by
  have hlen := sigLen_le_length mag
  have hone := sigLen_le_iff hmag 1
  have htwo := sigLen_le_iff hmag 2
  unfold fitsSmall
  by_cases h1 : sigLen mag ≤ 1
  · rw [if_pos h1]
    have := hone.1 h1
    rw [decide_eq_true (by omega)]
  · rw [if_neg h1]
    by_cases h2 : sigLen mag = 2
    · rw [if_pos h2, arrayGet_eq (by omega), Option.bind_eq_bind, Option.bind_some,
        show Word64.sub (Word64.bitShl 1 31) 1 = 2 ^ 31 - 1 by decide]
      have hd0 := Digits.getD (r := 2 ^ 32) (by norm_num) hmag 0
      have hval : val mag = mag.getD 0 0 + 2 ^ 32 * mag.getD 1 0 := by
        rw [val_eq_window, h2, window_succ _ (by omega), window_succ _ (by omega),
          window_of_le _ _ le_rfl]
        ring
      congr 1
      rw [decide_eq_decide, hval]
      omega
    · rw [if_neg h2]
      have : ¬ val mag < (2 ^ 32) ^ 2 := fun h => by
        have := htwo.2 h
        omega
      rw [decide_eq_false (by omega)]

theorem make_spec {mag : Mag} (hmag : LimbsOk mag) (s : Int) :
    Yields (make s mag) (if s < 0 then -val mag else val mag) := by
  have hnonneg := val_nonneg hmag
  unfold make
  by_cases hzero : sigLen mag = 0
  · have hval := (sigLen_eq_zero_iff hmag).1 hzero
    refine ⟨.small 0, ?_, ⟨by norm_num, by norm_num⟩, ?_⟩
    · simp only [if_pos hzero]
    · rw [hval, neg_zero, ite_self]
      rfl
  · simp only [if_neg hzero, fitsSmall_spec hmag, Option.bind_eq_bind, Option.bind_some,
      decide_eq_true_eq]
    by_cases hfits : val mag < 2 ^ 63
    · rw [if_pos hfits, magToInt_spec hmag hfits, Option.bind_some,
        Word64.sub_eq (by omega) (by omega), zero_sub]
      refine ⟨_, rfl, ?_, rfl⟩
      unfold Wf
      simp only
      split <;> omega
    · rw [if_neg hfits, neg_one]
      by_cases hs : s < 0
      · rw [if_pos hs, if_pos hs]
        exact ⟨_, rfl, ⟨Or.inr rfl, hmag, not_lt.1 hfits⟩, by simp [value]⟩
      · rw [if_neg hs, if_neg hs]
        exact ⟨_, rfl, ⟨Or.inl rfl, hmag, not_lt.1 hfits⟩, by simp [value]⟩

theorem limbsOk_minI64Mag : LimbsOk minI64Mag := by
  intro d hd
  have hlist : minI64Mag = [0, 2 ^ 31] := by decide
  rw [hlist] at hd
  rcases List.mem_cons.1 hd with rfl | hd
  · norm_num
  · rw [List.mem_singleton.1 hd]
    norm_num

theorem fromInt_spec {n : Int} (h : Word64.InRange n) : Wf (fromInt n) ∧ value (fromInt n) = n := by
  obtain ⟨hlow, hhigh⟩ := h
  unfold fromInt
  rw [minInt_eq]
  have hval : val minI64Mag = 2 ^ 63 := by decide
  by_cases hmin : n = -2 ^ 63
  · rw [if_pos hmin, neg_one]
    exact ⟨⟨Or.inr rfl, limbsOk_minI64Mag, hval.ge⟩, by rw [value, hval, hmin]; norm_num⟩
  · rw [if_neg hmin]
    exact ⟨⟨by omega, hhigh⟩, rfl⟩

theorem fromLiteral_wf {digits : Str} {x : BigInt} (h : fromLiteral digits = some x) : Wf x := by
  obtain ⟨mag, ok, hrun, hmag, -⟩ := magFromDigits_spec (Nat.zero_le _)
    (Nat.le_refl (eraseUnderscores digits).length)
  obtain ⟨y, hmake, hy, -⟩ := make_spec hmag 1
  rw [fromLiteral, Option.bind_eq_bind, hrun, Option.bind_some, hmake] at h
  exact Option.some.inj h ▸ hy

theorem parseBody_spec {s : Str} {start : Nat} (hstart : start ≤ s.length) (sg : Int) :
    (parseBody s start s.length sg = some none ∧
        ¬ (s.drop start ≠ [] ∧ AllDigits (s.drop start))) ∨
      ∃ x, parseBody s start s.length sg = some (some x) ∧ Wf x ∧
        s.drop start ≠ [] ∧ AllDigits (s.drop start) ∧
        value x = if sg < 0 then -(digitsOf (s.drop start) : Int) else digitsOf (s.drop start) := by
  have hspan : span s start s.length = s.drop start := by
    rw [span, ← List.length_drop, List.take_length]
  unfold parseBody
  by_cases hempty : start ≥ s.length
  · rw [if_pos hempty]
    exact .inl ⟨rfl, fun h => h.1 (List.drop_eq_nil_iff.2 hempty)⟩
  · rw [if_neg hempty]
    have hne : s.drop start ≠ [] := by
      rw [Ne, List.drop_eq_nil_iff]
      exact hempty
    obtain ⟨mag, ok, hrun, hmag, hflag, hread⟩ := magFromDigits_spec hstart (Nat.le_refl s.length)
    rw [hspan] at hflag hread
    simp only [hrun, Option.bind_eq_bind, Option.bind_some]
    cases ok with
    | false => exact .inl ⟨rfl, fun h => Bool.false_ne_true (hflag.2 h.2)⟩
    | true =>
        obtain ⟨x, hmake, hx, hval⟩ := make_spec hmag sg
        rw [hread rfl, zero_mul, zero_add] at hval
        refine .inr ⟨x, ?_, hx, hne, hflag.1 rfl, hval⟩
        simp only [if_true, hmake, Option.bind_some]

theorem parseBody_wf {s : Str} {start : Nat} {sg : Int} {x : BigInt} (hstart : start ≤ s.length)
    (h : parseBody s start s.length sg = some (some x)) : Wf x := by
  rcases parseBody_spec hstart sg with ⟨hnone, -⟩ | ⟨y, hsome, hy, -⟩
  · rw [h] at hnone
    cases hnone
  · rw [h] at hsome
    cases hsome
    exact hy

theorem fromString_wf {s : Str} {x : BigInt} (h : fromString s = some (some x)) : Wf x := by
  unfold fromString at h
  simp only at h
  split at h
  · simp at h
  · have hpos : 0 < s.length := by omega
    split at h
    · exact parseBody_wf hpos h
    · exact parseBody_wf hpos h
    · exact parseBody_wf (Nat.zero_le _) h

theorem isZero_iff {x : BigInt} (h : Wf x) : isZero x = true ↔ value x = 0 := by
  cases x with
  | small n => simp [isZero, value]
  | big s mag =>
      obtain ⟨hs, -, hmag⟩ := h
      have hne : val mag ≠ 0 := by omega
      rcases hs with rfl | rfl <;> simp [isZero, value, hne]

theorem sign_eq {x : BigInt} (h : Wf x) :
    sign x = if value x < 0 then -1 else if value x > 0 then 1 else 0 := by
  cases x with
  | small n =>
      rw [sign, neg_one]
      rfl
  | big s mag =>
      obtain ⟨hs, -, hmag⟩ := h
      rcases hs with rfl | rfl
      · rw [sign, value, one_mul, if_neg (by omega), if_pos (by omega)]
      · rw [sign, value, if_pos (by omega)]

theorem intMagnitude_spec {n : Int} (hlow : -2 ^ 63 < n) (hhigh : n < 2 ^ 63) :
    LimbsOk (intMagnitude n) ∧ val (intMagnitude n) = |n| := by
  have hm : (if n < 0 then Word64.sub 0 n else n) = |n| := by
    by_cases hn : n < 0
    · rw [if_pos hn, Word64.sub_eq (by omega) (by omega), abs_of_neg hn, zero_sub]
    · rw [if_neg hn, abs_of_nonneg (not_lt.1 hn)]
  have habs : |n| < 2 ^ 63 := abs_lt.2 ⟨by omega, hhigh⟩
  obtain ⟨hlo, hlo', hhi, hsplit⟩ := limb_split (abs_nonneg n) habs
  unfold intMagnitude
  simp only [hm]
  generalize |n| = m at habs hlo hlo' hhi hsplit ⊢
  by_cases hzero : limbHi m = 0
  · rw [if_pos hzero]
    refine ⟨fun d hd => ?_, ?_⟩
    · rw [List.mem_singleton.1 hd]
      exact ⟨hlo, hlo'⟩
    · rw [val, value_cons, value_nil]
      omega
  · rw [if_neg hzero]
    refine ⟨fun d hd => ?_, ?_⟩
    · rcases List.mem_cons.1 hd with rfl | hd
      · exact ⟨hlo, hlo'⟩
      · rw [List.mem_singleton.1 hd]
        exact ⟨hhi, by omega⟩
    · rw [val, value_cons, value_cons, value_nil]
      omega

theorem magnitude_spec {x : BigInt} (h : Wf x) :
    LimbsOk (magnitude x) ∧ val (magnitude x) = |value x| := by
  cases x with
  | small n => exact intMagnitude_spec h.1 h.2
  | big s mag =>
      obtain ⟨hs, hmag, hbig⟩ := h
      refine ⟨hmag, ?_⟩
      have hpos : 0 ≤ val mag := by omega
      rcases hs with rfl | rfl <;> simp [magnitude, value, abs_of_nonneg hpos]

theorem neg_spec {x : BigInt} (h : Wf x) : Wf (neg x) ∧ value (neg x) = -value x := by
  cases x with
  | small n =>
      obtain ⟨hlow, hhigh⟩ := h
      rw [neg, Word64.sub_eq (by omega) (by omega), zero_sub]
      exact ⟨⟨by omega, by omega⟩, rfl⟩
  | big s mag =>
      obtain ⟨hs, hmag, hbig⟩ := h
      have hneg : Word64.sub 0 s = -s := by
        rw [Word64.sub_eq (by omega) (by omega), zero_sub]
      rw [neg, hneg]
      exact ⟨⟨by omega, hmag, hbig⟩, by rw [value, value, neg_mul]⟩

theorem abs_spec {x : BigInt} (h : Wf x) : Wf (abs x) ∧ value (abs x) = |value x| := by
  cases x with
  | small n =>
      obtain ⟨hlow, hhigh⟩ := h
      rw [abs, value]
      by_cases hn : n < 0
      · rw [if_pos hn, Word64.sub_eq (by omega) (by omega), zero_sub, abs_of_neg hn]
        exact fromInt_spec ⟨by omega, by omega⟩
      · rw [if_neg hn, abs_of_nonneg (not_lt.1 hn)]
        exact ⟨⟨hlow, hhigh⟩, rfl⟩
  | big s mag =>
      obtain ⟨hs, hmag, hbig⟩ := h
      have hpos : 0 ≤ val mag := by omega
      refine ⟨⟨Or.inl rfl, hmag, hbig⟩, ?_⟩
      rcases hs with rfl | rfl <;> simp [abs, value, abs_of_nonneg hpos]

theorem compareSigned_spec {a b : BigInt} (ha : Wf a) (hb : Wf b) :
    compareSigned a b =
      some (if value a < value b then -1 else if value a > value b then 1 else 0) := by
  obtain ⟨hma, hva⟩ := magnitude_spec ha
  obtain ⟨hmb, hvb⟩ := magnitude_spec hb
  unfold compareSigned
  simp only [sign_eq ha, sign_eq hb, magCmp_spec hma hmb, hva, hvb, neg_one, Option.bind_eq_bind,
    Option.bind_some]
  generalize value a = x
  generalize value b = y
  rcases lt_trichotomy x 0 with hx | rfl | hx <;> rcases lt_trichotomy y 0 with hy | rfl | hy
  · rw [if_pos hx, if_pos hy, if_neg (lt_irrefl _), if_neg (lt_irrefl _), if_neg (by norm_num),
      if_pos (by norm_num), abs_of_neg hx, abs_of_neg hy]
    rcases lt_trichotomy x y with h | h | h
    · rw [if_neg (by omega), if_pos (by omega), if_pos h]
      rfl
    · rw [if_neg (by omega), if_neg (by omega), if_neg (by omega), if_neg (by omega)]
      rfl
    · rw [if_pos (by omega), if_neg (by omega), if_pos (by omega)]
      rfl
  · simp [hx]
  · simp [hx, hy.not_gt, hy, hx.trans hy]
  · simp [hy, hy.not_gt]
  · simp
  · simp [hy, hy.not_gt]
  · simp [hx, hx.not_gt, hy, (hy.trans hx).not_gt, hy.trans hx]
  · simp [hx, hx.not_gt]
  · simp only [hx, hx.not_gt, hy, hy.not_gt, abs_of_pos, if_false, if_true, gt_iff_lt,
      lt_irrefl]
    norm_num

theorem compare_spec {a b : BigInt} (ha : Wf a) (hb : Wf b) :
    compare a b = some (if value a < value b then -1 else if value a > value b then 1 else 0) := by
  cases a with
  | small x =>
      cases b with
      | small y =>
          rw [compare, neg_one]
          rfl
      | big t nag => exact compareSigned_spec ha hb
  | big s mag => exact compareSigned_spec ha hb

theorem addNonzero_spec {a b : BigInt} (ha : Wf a) (hb : Wf b) (ha0 : value a ≠ 0)
    (hb0 : value b ≠ 0) : Yields (addNonzero a b) (value a + value b) := by
  obtain ⟨hma, hva⟩ := magnitude_spec ha
  obtain ⟨hmb, hvb⟩ := magnitude_spec hb
  have hsa := sign_eq ha
  have hsb := sign_eq hb
  unfold addNonzero
  simp only
  by_cases hsame : sign a = sign b
  · rw [if_pos hsame]
    obtain ⟨sum, hadd, hsum, hsumval⟩ := magAdd_spec hma hmb
    obtain ⟨x, hmake, hx, hxval⟩ := make_spec hsum (sign a)
    refine ⟨x, by rw [hadd, Option.bind_eq_bind, Option.bind_some, hmake], hx, ?_⟩
    rw [hxval, hsumval, hva, hvb]
    rw [hsa, hsb] at hsame
    rw [hsa]
    generalize value a = u at *
    generalize value b = v at *
    rcases lt_or_gt_of_ne ha0 with hu | hu
    · have hv : v < 0 := by
        by_contra hv
        rw [if_pos hu, if_neg hv, if_pos (by omega)] at hsame
        omega
      rw [if_pos hu, if_pos (by norm_num), abs_of_neg hu, abs_of_neg hv]
      ring
    · have hv : 0 < v := by
        by_contra hv
        rw [if_neg hu.not_gt, if_pos hu, if_pos (by omega)] at hsame
        omega
      rw [if_neg hu.not_gt, if_pos hu, if_neg (by norm_num), abs_of_pos hu, abs_of_pos hv]
  · rw [if_neg hsame, magCmp_spec hma hmb, hva, hvb, Option.bind_eq_bind, Option.bind_some]
    have hopp : value a < 0 ∧ 0 < value b ∨ 0 < value a ∧ value b < 0 := by
      rw [hsa, hsb] at hsame
      rcases lt_or_gt_of_ne ha0 with hu | hu <;> rcases lt_or_gt_of_ne hb0 with hv | hv
      · exact absurd (by rw [if_pos hu, if_pos hv]) hsame
      · exact Or.inl ⟨hu, hv⟩
      · exact Or.inr ⟨hu, hv⟩
      · exact absurd (by rw [if_neg hu.not_gt, if_pos hu, if_neg hv.not_gt, if_pos hv]) hsame
    rcases lt_trichotomy |value a| |value b| with hlt | heq | hgt
    · obtain ⟨diff, hsub, hdiff, hdiffval⟩ := magSub_spec hmb hma (by omega)
      obtain ⟨x, hmake, hx, hxval⟩ := make_spec hdiff (sign b)
      refine ⟨x, ?_, hx, ?_⟩
      · rw [if_pos hlt, if_neg (by norm_num), if_neg (by norm_num), hsub]
        exact hmake
      · rw [hxval, hdiffval, hva, hvb, hsb]
        rcases hopp with ⟨hu, hv⟩ | ⟨hu, hv⟩
        · rw [if_neg hv.not_gt, if_pos hv, if_neg (by norm_num), abs_of_neg hu, abs_of_pos hv]
          ring
        · rw [if_pos hv, if_pos (by norm_num), abs_of_pos hu, abs_of_neg hv]
          ring
    · refine ⟨.small 0, ?_, ⟨by norm_num, by norm_num⟩, ?_⟩
      · rw [if_neg heq.not_lt, if_neg heq.not_gt, if_pos rfl]
      · rcases hopp with ⟨hu, hv⟩ | ⟨hu, hv⟩
        · rw [abs_of_neg hu, abs_of_pos hv] at heq
          rw [value]
          omega
        · rw [abs_of_pos hu, abs_of_neg hv] at heq
          rw [value]
          omega
    · obtain ⟨diff, hsub, hdiff, hdiffval⟩ := magSub_spec hma hmb (by omega)
      obtain ⟨x, hmake, hx, hxval⟩ := make_spec hdiff (sign a)
      refine ⟨x, ?_, hx, ?_⟩
      · rw [if_neg hgt.not_gt, if_pos hgt, if_neg (by norm_num), if_pos (by norm_num), hsub]
        exact hmake
      · rw [hxval, hdiffval, hva, hvb, hsa]
        rcases hopp with ⟨hu, hv⟩ | ⟨hu, hv⟩
        · rw [if_pos hu, if_pos (by norm_num), abs_of_neg hu, abs_of_pos hv]
          ring
        · rw [if_neg hu.not_gt, if_pos hu, if_neg (by norm_num), abs_of_pos hu, abs_of_neg hv]
          ring

theorem addGeneral_spec {a b : BigInt} (ha : Wf a) (hb : Wf b) :
    Yields (addGeneral a b) (value a + value b) := by
  unfold addGeneral
  by_cases haz : isZero a = true
  · rw [if_pos haz, (isZero_iff ha).1 haz, zero_add]
    exact ⟨b, rfl, hb, rfl⟩
  · rw [if_neg haz]
    by_cases hbz : isZero b = true
    · rw [if_pos hbz, (isZero_iff hb).1 hbz, add_zero]
      exact ⟨a, rfl, ha, rfl⟩
    · rw [if_neg hbz]
      exact addNonzero_spec ha hb (fun h => haz ((isZero_iff ha).2 h))
        (fun h => hbz ((isZero_iff hb).2 h))

theorem addSmall_spec {x y : Int} (hx : Wf (.small x)) (hy : Wf (.small y)) :
    Yields (addSmall x y) (x + y) := by
  have hgeneral := addGeneral_spec hx hy
  obtain ⟨hx0, hx1⟩ := hx
  obtain ⟨hy0, hy1⟩ := hy
  unfold addSmall
  simp only
  by_cases hpos : x ≥ 0 ∧ y ≥ 0 ∧ Word64.add x y < 0
  · rw [if_pos hpos]
    exact hgeneral
  · rw [if_neg hpos]
    by_cases hneg : x < 0 ∧ y < 0 ∧ Word64.add x y ≥ 0
    · rw [if_pos hneg]
      exact hgeneral
    · rw [if_neg hneg]
      have hexact : Word64.add x y = x + y := by
        unfold Word64.add Word64.wrap at *
        omega
      have hrange := Word64.wrap_inRange (x + y)
      rw [show Word64.wrap (x + y) = x + y from hexact] at hrange
      rw [hexact]
      exact ⟨_, rfl, fromInt_spec hrange⟩

theorem add_spec {a b : BigInt} (ha : Wf a) (hb : Wf b) :
    Yields (add a b) (value a + value b) := by
  cases a with
  | small x =>
      cases b with
      | small y => exact addSmall_spec ha hb
      | big t nag => exact addGeneral_spec ha hb
  | big s mag => exact addGeneral_spec ha hb

theorem sub_spec {a b : BigInt} (ha : Wf a) (hb : Wf b) :
    Yields (sub a b) (value a - value b) := by
  obtain ⟨hn, hval⟩ := neg_spec hb
  rw [sub_eq_add_neg, ← hval]
  exact add_spec ha hn

theorem sign_mul_sign {a b : BigInt} (ha : Wf a) (hb : Wf b) (ha0 : value a ≠ 0)
    (hb0 : value b ≠ 0) :
    Word64.mul (sign a) (sign b) = if (value a < 0 ↔ value b < 0) then 1 else -1 := by
  rw [sign_eq ha, sign_eq hb]
  rcases lt_or_gt_of_ne ha0 with hu | hu <;> rcases lt_or_gt_of_ne hb0 with hv | hv
  · rw [if_pos hu, if_pos hv, if_pos (iff_of_true hu hv)]
    decide
  · rw [if_pos hu, if_neg hv.not_gt, if_pos hv, if_neg (by omega)]
    decide
  · rw [if_neg hu.not_gt, if_pos hu, if_pos hv, if_neg (by omega)]
    decide
  · rw [if_neg hu.not_gt, if_pos hu, if_neg hv.not_gt, if_pos hv,
      if_pos (iff_of_false hu.not_gt hv.not_gt)]
    decide

theorem signed_product {a b : BigInt} (ha : Wf a) (hb : Wf b) (ha0 : value a ≠ 0)
    (hb0 : value b ≠ 0) (v : Int) :
    (if Word64.mul (sign a) (sign b) < 0 then -v else v) =
      if (value a < 0 ↔ value b < 0) then v else -v := by
  rw [sign_mul_sign ha hb ha0 hb0]
  by_cases hsame : value a < 0 ↔ value b < 0
  · rw [if_pos hsame, if_neg (by norm_num), if_pos hsame]
  · rw [if_neg hsame, if_pos (by norm_num), if_neg hsame]

theorem mulGeneral_spec {a b : BigInt} (ha : Wf a) (hb : Wf b) :
    Yields (mulGeneral a b) (value a * value b) := by
  unfold mulGeneral
  by_cases hzero : (isZero a || isZero b) = true
  · rw [if_pos hzero]
    refine ⟨.small 0, rfl, ⟨by norm_num, by norm_num⟩, ?_⟩
    rcases Bool.or_eq_true_iff.1 hzero with h | h
    · rw [(isZero_iff ha).1 h, zero_mul]
      rfl
    · rw [(isZero_iff hb).1 h, mul_zero]
      rfl
  · rw [if_neg hzero]
    have ha0 : value a ≠ 0 := fun h => hzero (by rw [(isZero_iff ha).2 h, Bool.true_or])
    have hb0 : value b ≠ 0 := fun h => hzero (by rw [(isZero_iff hb).2 h, Bool.or_true])
    obtain ⟨hma, hva⟩ := magnitude_spec ha
    obtain ⟨hmb, hvb⟩ := magnitude_spec hb
    obtain ⟨product, hmul, hproduct, hproductval⟩ := magMulFast_spec hma hmb
    obtain ⟨x, hmake, hx, hxval⟩ := make_spec hproduct (Word64.mul (sign a) (sign b))
    refine ⟨x, by rw [hmul, Option.bind_eq_bind, Option.bind_some, hmake], hx, ?_⟩
    rw [hxval, hproductval, hva, hvb, signed_product ha hb ha0 hb0]
    rcases lt_or_gt_of_ne ha0 with hu | hu <;> rcases lt_or_gt_of_ne hb0 with hv | hv
    · rw [if_pos (iff_of_true hu hv), abs_of_neg hu, abs_of_neg hv]
      ring
    · rw [if_neg fun h => hv.not_gt (h.1 hu), abs_of_neg hu, abs_of_pos hv]
      ring
    · rw [if_neg fun h => hu.not_gt (h.2 hv), abs_of_pos hu, abs_of_neg hv]
      ring
    · rw [if_pos (iff_of_false hu.not_gt hv.not_gt), abs_of_pos hu, abs_of_pos hv]

theorem mul_exact_of_div {x y : Int} (hx0 : x ≠ 0) (hx : -2 ^ 63 < x) (hx' : x < 2 ^ 63)
    (hback : (Word64.mul x y).tdiv x = y) : Word64.mul x y = x * y := by
  obtain ⟨k, hk⟩ := Word64.exists_wrap_eq (x * y)
  have hsplit := Int.mul_tdiv_add_tmod (Word64.mul x y) x
  have hrem : |(Word64.mul x y).tmod x| < |x| := by
    rw [← Int.natCast_natAbs, ← Int.natCast_natAbs, Int.natAbs_tmod]
    exact_mod_cast Nat.mod_lt _ (Int.natAbs_pos.2 hx0)
  have habs : |x| < 2 ^ 63 := abs_lt.2 ⟨hx, hx'⟩
  rw [hback] at hsplit
  have hrange := abs_lt.1 (hrem.trans habs)
  have hwrap : Word64.mul x y = x * y + k * 2 ^ 64 := hk
  omega

theorem mulSmall_spec {x y : Int} (hx : Wf (.small x)) (hy : Wf (.small y)) :
    Yields (mulSmall x y) (x * y) := by
  have hgeneral := mulGeneral_spec hx hy
  obtain ⟨hx0, hx1⟩ := hx
  obtain ⟨hy0, hy1⟩ := hy
  unfold mulSmall
  by_cases hzero : x = 0 ∨ y = 0
  · rw [if_pos hzero]
    refine ⟨.small 0, rfl, ⟨by norm_num, by norm_num⟩, ?_⟩
    rcases hzero with rfl | rfl <;> simp [value]
  · rw [if_neg hzero]
    obtain ⟨hxz, hyz⟩ := not_or.1 hzero
    have hnotrap : ¬ (Word64.mul x y = -2 ^ 63 ∧ x = -1) := by
      rintro ⟨hp, rfl⟩
      rw [Word64.mul_eq (by omega) (by omega)] at hp
      omega
    have hdiv : Word64.div (Word64.mul x y) x = some ((Word64.mul x y).tdiv x) := by
      rw [Word64.div, if_neg hxz, if_neg hnotrap]
    simp only [hdiv, Option.bind_eq_bind, Option.bind_some, minInt_eq]
    by_cases hfit : (Word64.mul x y).tdiv x = y ∧ Word64.mul x y ≠ -2 ^ 63
    · rw [if_pos hfit]
      have hexact := mul_exact_of_div hxz hx0 hx1 hfit.1
      have hrange : Word64.InRange (Word64.mul x y) := Word64.wrap_inRange (x * y)
      exact ⟨_, rfl, ⟨lt_of_le_of_ne hrange.1 (Ne.symm hfit.2), hrange.2⟩, hexact⟩
    · rw [if_neg hfit]
      exact hgeneral

theorem mul_spec {a b : BigInt} (ha : Wf a) (hb : Wf b) :
    Yields (mul a b) (value a * value b) := by
  cases a with
  | small x =>
      cases b with
      | small y => exact mulSmall_spec ha hb
      | big t nag => exact mulGeneral_spec ha hb
  | big s mag => exact mulGeneral_spec ha hb

theorem divmod_spec {a b : BigInt} (ha : Wf a) (hb : Wf b) (hb0 : value b ≠ 0) :
    ∃ q r, divmod a b = some (some (q, r)) ∧ Wf q ∧ Wf r ∧
      value q = (value a).tdiv (value b) ∧ value r = (value a).tmod (value b) := by
  have hbz : ¬ isZero b = true := fun h => hb0 ((isZero_iff hb).1 h)
  unfold divmod
  rw [if_neg hbz]
  by_cases haz : isZero a = true
  · rw [if_pos haz, (isZero_iff ha).1 haz]
    refine ⟨zero, zero, rfl, ⟨by norm_num, by norm_num⟩, ⟨by norm_num, by norm_num⟩, ?_, ?_⟩ <;>
      simp [zero, value]
  · rw [if_neg haz]
    have ha0 : value a ≠ 0 := fun h => haz ((isZero_iff ha).2 h)
    obtain ⟨hma, hva⟩ := magnitude_spec ha
    obtain ⟨hmb, hvb⟩ := magnitude_spec hb
    obtain ⟨qm, rm, hdiv, hqm, hrm, hqmval, hrmval⟩ := magDivmod_spec hma hmb
      (by rw [hvb]; exact abs_pos.2 hb0)
    obtain ⟨q, hmakeq, hq, hqval⟩ := make_spec hqm (Word64.mul (sign a) (sign b))
    obtain ⟨r, hmaker, hr, hrval⟩ := make_spec hrm (sign a)
    refine ⟨q, r, ?_, hq, hr, ?_, ?_⟩
    · simp only [hdiv, hmakeq, hmaker, Option.bind_eq_bind, Option.bind_some]
    · rw [hqval, hqmval, hva, hvb, signed_product ha hb ha0 hb0,
        ← Int.tdiv_eq_ediv_of_nonneg (abs_nonneg _)]
      rcases lt_or_gt_of_ne ha0 with hu | hu <;> rcases lt_or_gt_of_ne hb0 with hv | hv
      · rw [if_pos (iff_of_true hu hv), abs_of_neg hu, abs_of_neg hv, Int.neg_tdiv, Int.tdiv_neg,
          neg_neg]
      · rw [if_neg fun h => hv.not_gt (h.1 hu), abs_of_neg hu, abs_of_pos hv, Int.neg_tdiv,
          neg_neg]
      · rw [if_neg fun h => hu.not_gt (h.2 hv), abs_of_pos hu, abs_of_neg hv, Int.tdiv_neg,
          neg_neg]
      · rw [if_pos (iff_of_false hu.not_gt hv.not_gt), abs_of_pos hu, abs_of_pos hv]
    · rw [hrval, hrmval, hva, hvb, sign_eq ha, ← Int.tmod_eq_emod_of_nonneg (abs_nonneg _)]
      have htmod : ∀ u : Int, u.tmod |value b| = u.tmod (value b) := by
        intro u
        rcases abs_choice (value b) with h | h <;> rw [h]
        exact Int.tmod_neg u (value b)
      rw [htmod]
      rcases lt_or_gt_of_ne ha0 with hu | hu
      · rw [if_pos hu, if_pos (by norm_num), abs_of_neg hu, Int.neg_tmod, neg_neg]
      · rw [if_neg hu.not_gt, if_pos hu, if_neg (by norm_num), abs_of_pos hu]

theorem Yields.wf {m : Option BigInt} {v : Int} {x : BigInt} (h : Yields m v)
    (hm : m = some x) : Wf x := by
  obtain ⟨y, hy, hwf, -⟩ := h
  rw [hm] at hy
  exact Option.some.inj hy ▸ hwf

theorem divmod_wf {a b q r : BigInt} (ha : Wf a) (hb : Wf b)
    (h : divmod a b = some (some (q, r))) : Wf q ∧ Wf r := by
  have hb0 : value b ≠ 0 := by
    intro hzero
    rw [divmod, if_pos ((isZero_iff hb).2 hzero)] at h
    simp at h
  obtain ⟨q', r', hrun, hq, hr, -⟩ := divmod_spec ha hb hb0
  rw [h] at hrun
  simp only [Option.some.injEq, Prod.mk.injEq] at hrun
  exact ⟨hrun.1 ▸ hq, hrun.2 ▸ hr⟩

end Kaikai.BigIntArith
