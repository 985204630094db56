import Mathlib.Tactic.FieldSimp
import Kaikai.Word64

/-!
Fixed-point decimals on a 128-bit carrier. The carrier wraps, so every operation looks for
an overflow after the fact; a panic is the text it prints.
-/

namespace Kaikai.DecimalFixed

abbrev Int128 := BitVec 128

/-- The value is `raw / 10 ^ scale`. -/
structure Decimal where
  raw : Int128
  scale : Int
  deriving DecidableEq

/-- The integers that the carrier holds. -/
def Fits (n : Int) : Prop := -2 ^ 127 ≤ n ∧ n < 2 ^ 127

instance (n : Int) : Decidable (Fits n) := inferInstanceAs (Decidable (_ ∧ _))

def i128z : Int128 := 0

def i128one : Int128 := 1

def i128ten : Int128 := 10

/-- `/` truncates toward zero, wraps on the one quotient that does not fit and traps on a
zero divisor. -/
def fixedDiv (x y : Int128) : Except String Int128 :=
  if y = 0 then .error "divide by zero" else .ok (x.sdiv y)

def checkedRawAdd (x y : Int128) : Option Int128 :=
  let r := x + y
  let sameSign := x.slt i128z == y.slt i128z
  let flipped := x.slt i128z != r.slt i128z
  if sameSign && flipped then none else some r

def checkedRawMul (x y : Int128) : Except String (Option Int128) :=
  if x = i128z then .ok (some i128z)
  else do
    let r := x * y
    let q ← fixedDiv r x
    return if q = y then some r else none

def rawOrPanic (o : Option Int128) (what : String) : Except String Int128 :=
  match o with
  | some v => .ok v
  | none => .error ("decimal." ++ (what ++ ": Int128 overflow"))

def pow10Loop (acc : Int128) (n : Int) : Int128 :=
  if n ≤ 0 then acc else pow10Loop (acc * i128ten) (n - 1)
termination_by n.toNat
decreasing_by omega

def pow10 (n : Int) : Except String Int128 :=
  if n ≤ 0 then .ok i128one
  else if n > 38 then .error "decimal.pow10: scale exceeds Int128 range (max 38)"
  else .ok (pow10Loop i128one n)

def decRescale (d : Decimal) (newScale : Int) : Except String Decimal :=
  if newScale = d.scale then .ok d
  else if newScale > d.scale then do
    let p ← pow10 (Word64.sub newScale d.scale)
    let o ← checkedRawMul d.raw p
    let widened ← rawOrPanic o "rescale"
    return ⟨widened, newScale⟩
  else do
    let p ← pow10 (Word64.sub d.scale newScale)
    let q ← fixedDiv d.raw p
    return ⟨q, newScale⟩

def decAlign (a b : Decimal) : Except String (Decimal × Decimal) := do
  let target := if a.scale > b.scale then a.scale else b.scale
  let x ← decRescale a target
  let y ← decRescale b target
  return (x, y)

def add (a b : Decimal) : Except String Decimal := do
  let p ← decAlign a b
  let raw ← rawOrPanic (checkedRawAdd p.1.raw p.2.raw) "add"
  return ⟨raw, p.1.scale⟩

def sub (a b : Decimal) : Except String Decimal := do
  let p ← decAlign a b
  let raw ← rawOrPanic (checkedRawAdd p.1.raw (i128z - p.2.raw)) "sub"
  return ⟨raw, p.1.scale⟩

def neg (d : Decimal) : Decimal := ⟨i128z - d.raw, d.scale⟩

def mul (a b : Decimal) : Except String Decimal := do
  let o ← checkedRawMul a.raw b.raw
  let raw ← rawOrPanic o "mul"
  return ⟨raw, Word64.add a.scale b.scale⟩

def checkedAdd (a b : Decimal) : Except String (Option Decimal) := do
  let p ← decAlign a b
  return (checkedRawAdd p.1.raw p.2.raw).map fun r => ⟨r, p.1.scale⟩

def checkedSub (a b : Decimal) : Except String (Option Decimal) := do
  let p ← decAlign a b
  return (checkedRawAdd p.1.raw (i128z - p.2.raw)).map fun r => ⟨r, p.1.scale⟩

def checkedMul (a b : Decimal) : Except String (Option Decimal) := do
  let o ← checkedRawMul a.raw b.raw
  return o.map fun r => ⟨r, Word64.add a.scale b.scale⟩

/-- The number that a decimal stands for. -/
def value (d : Decimal) : Rat := d.raw.toInt / 10 ^ d.scale.toNat

/-- The scales for which every power of ten fits the carrier. -/
def Scaled (d : Decimal) : Prop := 0 ≤ d.scale ∧ d.scale ≤ 38

instance (d : Decimal) : Decidable (Scaled d) := inferInstanceAs (Decidable (_ ∧ _))

/-- The larger of the two scales, to which addition aligns. -/
def commonScale (a b : Decimal) : Int := max a.scale b.scale

/-- The raw value at a wider scale, as an integer without bounds. -/
def widened (d : Decimal) (scale : Int) : Int := d.raw.toInt * 10 ^ (scale - d.scale).toNat

/-- The decimal of a raw value at a scale, when the carrier holds it. -/
def exactly (n scale : Int) : Option Decimal :=
  if Fits n then some ⟨BitVec.ofInt 128 n, scale⟩ else none

theorem toInt_fits (x : Int128) : Fits x.toInt := ⟨x.le_toInt, x.toInt_lt⟩

theorem toInt_ofInt {n : Int} (h : Fits n) : (BitVec.ofInt 128 n).toInt = n :=
  BitVec.toInt_ofInt_eq_self (by decide) h.1 h.2

theorem ofInt_unique {n : Int} {x : Int128} (h : x.toInt = n) : BitVec.ofInt 128 n = x := by
  apply BitVec.toInt_inj.1
  rw [toInt_ofInt (h ▸ toInt_fits x), h]

theorem exists_bmod_eq (n : Int) : ∃ k : Int, n.bmod (2 ^ 128) = n + k * 2 ^ 128 := by
  refine ⟨-(n.bdiv (2 ^ 128)), ?_⟩
  have hsplit : n.bmod (2 ^ 128) + 2 ^ 128 * n.bdiv (2 ^ 128) = n := Int.bmod_add_bdiv n (2 ^ 128)
  linarith

theorem toInt_neg (x : Int128) (hx : x.toInt ≠ -2 ^ 127) : (i128z - x).toInt = -x.toInt := by
  have hfits := toInt_fits x
  rw [Fits] at hfits
  rw [i128z, BitVec.toInt_sub]
  change (0 - x.toInt).bmod (2 ^ 128) = -x.toInt
  rw [Int.bmod_eq_of_le] <;> omega

theorem neg_min {x : Int128} (hx : x.toInt = -2 ^ 127) : i128z - x = x := by
  apply BitVec.toInt_inj.1
  rw [i128z, BitVec.toInt_sub, hx]
  decide

theorem checkedRawAdd_eq (x y : Int128) :
    checkedRawAdd x y =
      if Fits (x.toInt + y.toInt) then some (BitVec.ofInt 128 (x.toInt + y.toInt)) else none := by
  have hx := toInt_fits x
  have hy := toInt_fits y
  have hr := toInt_fits (x + y)
  obtain ⟨k, hk⟩ := exists_bmod_eq (x.toInt + y.toInt)
  rw [← BitVec.toInt_add] at hk
  have hzero : i128z.toInt = 0 := rfl
  have hflip : ((x.slt i128z == y.slt i128z) && (x.slt i128z != (x + y).slt i128z)) = true ↔
      ¬ Fits (x.toInt + y.toInt) := by
    simp only [BitVec.slt_eq_decide, hzero, Bool.and_eq_true, beq_iff_eq, bne_iff_ne, ne_eq,
      decide_eq_decide]
    unfold Fits at *
    omega
  rw [checkedRawAdd]
  split_ifs with h h' h'
  · exact absurd h' (hflip.1 h)
  · rfl
  · rw [ofInt_unique]
    unfold Fits at *
    omega
  · exact absurd (hflip.2 h') h

theorem toInt_sdiv {x y : Int128} (h : ¬ (x.toInt = -2 ^ 127 ∧ y.toInt = -1)) :
    (x.sdiv y).toInt = x.toInt.tdiv y.toInt := by
  apply BitVec.toInt_sdiv_of_ne_or_ne
  by_contra hboth
  push Not at hboth
  apply h
  rw [hboth.1, hboth.2]
  decide

/-- The remainder of a truncated division is smaller than the divisor, so a wrapped product
never divides back; only the wrapped quotient of the least value by `-1` does. -/
theorem wrapped_quotient_ne {x y : Int128} (hx : x ≠ 0)
    (hmin : ¬ (x.toInt = -1 ∧ y.toInt = -2 ^ 127)) (h : ¬ Fits (x.toInt * y.toInt)) :
    (x * y).sdiv x ≠ y := by
  rintro hq
  have hxfits := toInt_fits x
  have hr := toInt_fits (x * y)
  obtain ⟨k, hk⟩ := exists_bmod_eq (x.toInt * y.toInt)
  rw [← BitVec.toInt_mul] at hk
  have hk0 : k ≠ 0 := by
    rintro rfl
    rw [zero_mul, add_zero] at hk
    exact h (hk ▸ hr)
  have hx0 : x.toInt ≠ 0 := fun h0 => hx (BitVec.toInt_inj.1 h0)
  by_cases hover : (x * y).toInt = -2 ^ 127 ∧ x.toInt = -1
  · apply hmin
    refine ⟨hover.2, ?_⟩
    rw [← hq, BitVec.toInt_sdiv, hover.1, hover.2]
    decide
  · have hquot : y.toInt = (x * y).toInt.tdiv x.toInt := by rw [← toInt_sdiv hover, hq]
    have hdiv : (x * y).toInt.tmod x.toInt + x.toInt * y.toInt = (x * y).toInt := by
      rw [hquot]
      exact Int.tmod_add_mul_tdiv _ _
    have hrem : ((x * y).toInt.tmod x.toInt).natAbs < x.toInt.natAbs := by
      rw [Int.natAbs_tmod]
      exact Nat.mod_lt _ (Int.natAbs_pos.2 hx0)
    have hwrap : (x * y).toInt.tmod x.toInt = k * 2 ^ 128 := by linarith
    rw [hwrap] at hrem
    unfold Fits at hxfits
    omega

theorem checkedRawMul_eq {x y : Int128} (hmin : ¬ (x.toInt = -1 ∧ y.toInt = -2 ^ 127)) :
    checkedRawMul x y = .ok
      (if Fits (x.toInt * y.toInt) then some (BitVec.ofInt 128 (x.toInt * y.toInt)) else none) := by
  rw [checkedRawMul]
  split_ifs with hx hfits hfits
  · rw [hx]
    change _ = Except.ok (some (BitVec.ofInt 128 (0 * y.toInt)))
    rw [zero_mul]
    rfl
  · rw [hx] at hfits
    change ¬ Fits (0 * y.toInt) at hfits
    rw [zero_mul] at hfits
    exact absurd (by decide) hfits
  · have hproduct : (x * y).toInt = x.toInt * y.toInt := by
      rw [BitVec.toInt_mul, ← BitVec.toInt_ofInt, toInt_ofInt hfits]
    have hquot : (x * y).sdiv x = y := by
      apply BitVec.toInt_inj.1
      rw [toInt_sdiv, hproduct, Int.mul_tdiv_cancel_left]
      · exact fun h0 => hx (BitVec.toInt_inj.1 h0)
      · rintro ⟨hprod, hx1⟩
        rw [hproduct, hx1] at hprod
        have hy := toInt_fits y
        unfold Fits at hy
        omega
    simp only [fixedDiv, show x ≠ 0 from hx, if_false]
    change Except.ok (if (x * y).sdiv x = y then some (x * y) else none) = _
    rw [if_pos hquot, ofInt_unique hproduct]
  · simp only [fixedDiv, show x ≠ 0 from hx, if_false]
    change Except.ok (if (x * y).sdiv x = y then some (x * y) else none) = _
    rw [if_neg (wrapped_quotient_ne hx hmin hfits)]

theorem checkedRawMul_min {x y : Int128} (hx : x.toInt = -1) (hy : y.toInt = -2 ^ 127) :
    checkedRawMul x y = .ok (some y) := by
  have hx' : x = -1 := BitVec.toInt_inj.1 hx
  have hy' : y = BitVec.intMin 128 := BitVec.toInt_inj.1 hy
  subst hx' hy'
  decide

theorem fits_ten_pow {k : Nat} (hk : k ≤ 38) : Fits (10 ^ k) := by
  have hle : (10 : Int) ^ k ≤ 10 ^ 38 := pow_le_pow_right₀ (by norm_num) hk
  have hpos : (0 : Int) < 10 ^ k := by positivity
  have hbig : (10 : Int) ^ 38 < 2 ^ 127 := by norm_num
  unfold Fits
  omega

theorem pow10Loop_eq {acc : Int128} {n : Int} {k : Nat} (hacc : acc.toInt = 10 ^ k)
    (hn : k + n.toNat ≤ 38) : (pow10Loop acc n).toInt = 10 ^ (k + n.toNat) := by
  fun_induction pow10Loop acc n generalizing k with
  | case1 acc n hn0 =>
      rw [hacc, Int.toNat_of_nonpos hn0, add_zero]
  | case2 acc n hn0 ih =>
      have hstep : k + n.toNat = (k + 1) + (n - 1).toNat := by omega
      have hten : (acc * i128ten).toInt = 10 ^ (k + 1) := by
        have hprod : acc.toInt * i128ten.toInt = 10 ^ (k + 1) := by
          rw [hacc, pow_succ]
          rfl
        rw [BitVec.toInt_mul, ← BitVec.toInt_ofInt, hprod, toInt_ofInt (fits_ten_pow (by omega))]
      rw [hstep] at hn ⊢
      exact ih hten hn

theorem pow10_eq {n : Int} (hlow : 0 ≤ n) (hhigh : n ≤ 38) :
    ∃ p : Int128, pow10 n = .ok p ∧ p.toInt = 10 ^ n.toNat := by
  rw [pow10]
  split_ifs with hn hbig
  · have hzero : n = 0 := by omega
    subst hzero
    exact ⟨i128one, rfl, rfl⟩
  · omega
  · refine ⟨_, rfl, ?_⟩
    have hone : i128one.toInt = 10 ^ 0 := rfl
    have hloop := pow10Loop_eq hone (n := n) (by omega)
    rw [hloop, Nat.zero_add]

theorem widened_self (d : Decimal) : widened d d.scale = d.raw.toInt := by
  rw [widened, sub_self, Int.toNat_zero, pow_zero, mul_one]

theorem decRescale_eq {d : Decimal} {scale : Int} (hd : Scaled d) (hlow : d.scale ≤ scale)
    (hhigh : scale ≤ 38) :
    decRescale d scale = if Fits (widened d scale) then .ok ⟨BitVec.ofInt 128 (widened d scale), scale⟩
      else .error "decimal.rescale: Int128 overflow" := by
  obtain ⟨hs0, hs38⟩ := hd
  rw [decRescale]
  by_cases hsame : scale = d.scale
  · subst hsame
    rw [if_pos rfl, widened_self, if_pos (toInt_fits d.raw), ofInt_unique rfl]
  · have hup : scale > d.scale := lt_of_le_of_ne hlow (Ne.symm hsame)
    have hsub : Word64.sub scale d.scale = scale - d.scale := Word64.sub_eq (by omega) (by omega)
    obtain ⟨p, hp, hvalue⟩ := pow10_eq (n := scale - d.scale) (by omega) (by omega)
    have hpos : (0 : Int) < 10 ^ (scale - d.scale).toNat := by positivity
    have hmul := checkedRawMul_eq (x := d.raw) (y := p) fun hmin => by
      rw [hvalue] at hmin
      omega
    rw [hvalue, ← widened] at hmul
    rw [if_neg hsame, if_pos hup, hsub, hp]
    change (checkedRawMul d.raw p >>= fun o => rawOrPanic o "rescale" >>= fun w =>
      pure (Decimal.mk w scale)) = _
    rw [hmul]
    split_ifs with hfits
    · rfl
    · rfl

theorem commonScale_le {a b : Decimal} (ha : Scaled a) (hb : Scaled b) : commonScale a b ≤ 38 :=
  max_le ha.2 hb.2

theorem le_commonScale_left (a b : Decimal) : a.scale ≤ commonScale a b := le_max_left _ _

theorem le_commonScale_right (a b : Decimal) : b.scale ≤ commonScale a b := le_max_right _ _

theorem decAlign_eq {a b : Decimal} (ha : Scaled a) (hb : Scaled b) :
    decAlign a b =
      if Fits (widened a (commonScale a b)) ∧ Fits (widened b (commonScale a b)) then
        .ok (⟨BitVec.ofInt 128 (widened a (commonScale a b)), commonScale a b⟩,
          ⟨BitVec.ofInt 128 (widened b (commonScale a b)), commonScale a b⟩)
      else .error "decimal.rescale: Int128 overflow" := by
  have htarget : (if a.scale > b.scale then a.scale else b.scale) = commonScale a b := by
    rw [commonScale]
    omega
  rw [decAlign, htarget, decRescale_eq ha (le_commonScale_left a b) (commonScale_le ha hb),
    decRescale_eq hb (le_commonScale_right a b) (commonScale_le ha hb)]
  by_cases hleft : Fits (widened a (commonScale a b))
  · by_cases hright : Fits (widened b (commonScale a b))
    · rw [if_pos hleft, if_pos hright, if_pos ⟨hleft, hright⟩]
      rfl
    · have hno : ¬ (Fits (widened a (commonScale a b)) ∧ Fits (widened b (commonScale a b))) :=
        fun h => hright h.2
      rw [if_pos hleft, if_neg hright, if_neg hno]
      rfl
  · have hno : ¬ (Fits (widened a (commonScale a b)) ∧ Fits (widened b (commonScale a b))) :=
      fun h => hleft h.1
    rw [if_neg hleft, if_neg hno]
    rfl

/-- What the documentation promises of two decimals: a result is the exact value, and the
checked operations answer `none` exactly when the exact result does not fit. -/
structure NeverSilent (a b : Decimal) : Prop where
  add : ∀ r, add a b = .ok r → value r = value a + value b
  sub : ∀ r, sub a b = .ok r → value r = value a - value b
  mul : ∀ r, mul a b = .ok r → value r = value a * value b
  neg : value (neg a) = -value a
  checkedAdd : checkedAdd a b = .ok
    (exactly (widened a (commonScale a b) + widened b (commonScale a b)) (commonScale a b))
  checkedSub : checkedSub a b = .ok
    (exactly (widened a (commonScale a b) - widened b (commonScale a b)) (commonScale a b))
  checkedMul : checkedMul a b = .ok (exactly (a.raw.toInt * b.raw.toInt) (a.scale + b.scale))

/-- No operand is the least raw value, and both survive the alignment. -/
structure Aligns (a b : Decimal) : Prop where
  left_ne : a.raw.toInt ≠ -2 ^ 127
  right_ne : b.raw.toInt ≠ -2 ^ 127
  left : Fits (widened a (commonScale a b))
  right : Fits (widened b (commonScale a b))

theorem value_widened {d : Decimal} {scale : Int} (hd : Scaled d) (h : d.scale ≤ scale) :
    (widened d scale : Rat) / 10 ^ scale.toNat = value d := by
  obtain ⟨hs0, hs38⟩ := hd
  have hsplit : scale.toNat = d.scale.toNat + (scale - d.scale).toNat := by omega
  rw [widened, value, hsplit, pow_add]
  push_cast
  field_simp

theorem value_eq {d : Decimal} {n scale : Int} (h : exactly n scale = some d) :
    value d = n / 10 ^ scale.toNat := by
  rw [exactly] at h
  split_ifs at h with hfits
  rw [← Option.some.inj h, value, toInt_ofInt hfits]

theorem checkedAdd_eq {a b : Decimal} (ha : Scaled a) (hb : Scaled b)
    (hleft : Fits (widened a (commonScale a b))) (hright : Fits (widened b (commonScale a b))) :
    checkedAdd a b = .ok
      (exactly (widened a (commonScale a b) + widened b (commonScale a b)) (commonScale a b)) := by
  rw [checkedAdd, decAlign_eq ha hb, if_pos ⟨hleft, hright⟩]
  change Except.ok _ = Except.ok _
  rw [checkedRawAdd_eq, toInt_ofInt hleft, toInt_ofInt hright, exactly, apply_ite (Option.map _)]
  rfl

theorem checkedSub_eq {a b : Decimal} (ha : Scaled a) (hb : Scaled b)
    (hleft : Fits (widened a (commonScale a b))) (hright : Fits (widened b (commonScale a b)))
    (hmin : widened b (commonScale a b) ≠ -2 ^ 127) :
    checkedSub a b = .ok
      (exactly (widened a (commonScale a b) - widened b (commonScale a b)) (commonScale a b)) := by
  rw [checkedSub, decAlign_eq ha hb, if_pos ⟨hleft, hright⟩]
  change Except.ok _ = Except.ok _
  rw [checkedRawAdd_eq, toInt_neg, toInt_ofInt hleft, toInt_ofInt hright, exactly,
    apply_ite (Option.map _), ← sub_eq_add_neg]
  · rfl
  · rw [toInt_ofInt hright]
    exact hmin

theorem checkedMul_eq {a b : Decimal} (ha : Scaled a) (hb : Scaled b)
    (hmin : ¬ (a.raw.toInt = -1 ∧ b.raw.toInt = -2 ^ 127)) :
    checkedMul a b = .ok (exactly (a.raw.toInt * b.raw.toInt) (a.scale + b.scale)) := by
  obtain ⟨ha0, ha38⟩ := ha
  obtain ⟨hb0, hb38⟩ := hb
  rw [checkedMul, checkedRawMul_eq hmin, Word64.add_eq (by omega) (by omega)]
  change Except.ok _ = Except.ok _
  rw [exactly, apply_ite (Option.map _)]
  rfl

theorem checked_of_total {α : Type} {prep : Except String α} {f : α → Option Int128}
    {scale : α → Int} {what : String} {r : Decimal}
    (h : (prep >>= fun p => rawOrPanic (f p) what >>= fun raw => pure (Decimal.mk raw (scale p))) =
      .ok r) :
    (prep >>= fun p => pure ((f p).map fun raw => Decimal.mk raw (scale p))) = .ok (some r) := by
  cases prep with
  | error e => cases h
  | ok p =>
      change (rawOrPanic (f p) what >>= fun raw => pure (Decimal.mk raw (scale p))) = .ok r at h
      change Except.ok ((f p).map fun raw => Decimal.mk raw (scale p)) = .ok (some r)
      cases hraw : f p with
      | none =>
          rw [hraw] at h
          cases h
      | some raw =>
          rw [hraw] at h
          cases h
          rfl

theorem widened_ne_min {d : Decimal} {scale : Int} (h : d.raw.toInt ≠ -2 ^ 127) :
    widened d scale ≠ -2 ^ 127 := by
  intro hwide
  rw [widened] at hwide
  rcases Nat.eq_zero_or_pos (scale - d.scale).toNat with hk | hk
  · rw [hk, pow_zero, mul_one] at hwide
    exact h hwide
  · obtain ⟨k, hk'⟩ := Nat.exists_eq_succ_of_ne_zero hk.ne'
    rw [hk', pow_succ, ← mul_assoc] at hwide
    omega

theorem neverSilent_of_aligns {a b : Decimal} (ha : Scaled a) (hb : Scaled b) (h : Aligns a b) :
    NeverSilent a b := by
  have hmin : widened b (commonScale a b) ≠ -2 ^ 127 := widened_ne_min h.right_ne
  have hmul : ¬ (a.raw.toInt = -1 ∧ b.raw.toInt = -2 ^ 127) := fun hboth => h.right_ne hboth.2
  have hadd := checkedAdd_eq ha hb h.left h.right
  have hsub := checkedSub_eq ha hb h.left h.right hmin
  have hprod := checkedMul_eq ha hb hmul
  have hva := value_widened ha (le_commonScale_left a b)
  have hvb := value_widened hb (le_commonScale_right a b)
  constructor
  · intro r hr
    have hchecked : checkedAdd a b = .ok (some r) := checked_of_total hr
    rw [hadd] at hchecked
    rw [value_eq (Except.ok.inj hchecked), ← hva, ← hvb]
    push_cast
    ring
  · intro r hr
    have hchecked : checkedSub a b = .ok (some r) := checked_of_total hr
    rw [hsub] at hchecked
    rw [value_eq (Except.ok.inj hchecked), ← hva, ← hvb]
    push_cast
    ring
  · intro r hr
    have hchecked : checkedMul a b = .ok (some r) := checked_of_total hr
    have hscale : (a.scale + b.scale).toNat = a.scale.toNat + b.scale.toNat :=
      Int.toNat_add ha.1 hb.1
    rw [hprod] at hchecked
    rw [value_eq (Except.ok.inj hchecked), value, value, hscale, pow_add]
    push_cast
    field_simp
  · rw [value, value, neg, toInt_neg _ h.left_ne]
    push_cast
    ring
  · exact hadd
  · exact hsub
  · exact hprod

theorem checkedSub_min {a b : Decimal} (ha : Scaled a) (hb : Scaled b)
    (hleft : Fits (widened a (commonScale a b))) (hmin : widened b (commonScale a b) = -2 ^ 127) :
    checkedSub a b = .ok
      (exactly (widened a (commonScale a b) + widened b (commonScale a b)) (commonScale a b)) := by
  have hright : Fits (widened b (commonScale a b)) := by
    rw [hmin]
    decide
  rw [checkedSub, decAlign_eq ha hb, if_pos ⟨hleft, hright⟩]
  change Except.ok _ = Except.ok _
  rw [checkedRawAdd_eq, neg_min, toInt_ofInt hleft, toInt_ofInt hright, exactly,
    apply_ite (Option.map _)]
  · rfl
  · rw [toInt_ofInt hright, hmin]

theorem exactly_inj {n m scale : Int} (h : exactly n scale = exactly m scale) :
    n = m ∨ ¬ Fits n ∧ ¬ Fits m := by
  rw [exactly, exactly] at h
  split_ifs at h with hn hm
  · left
    have hraw := congrArg Decimal.raw (Option.some.inj h)
    rw [← toInt_ofInt hn, ← toInt_ofInt hm]
    exact congrArg BitVec.toInt hraw
  · exact Or.inr ⟨hn, by assumption⟩

theorem aligns_of_neverSilent {a b : Decimal} (ha : Scaled a) (hb : Scaled b)
    (h : NeverSilent a b) : Aligns a b := by
  have halign : Fits (widened a (commonScale a b)) ∧ Fits (widened b (commonScale a b)) := by
    by_contra hno
    have hadd := h.checkedAdd
    rw [checkedAdd, decAlign_eq ha hb, if_neg hno] at hadd
    cases hadd
  refine ⟨?_, ?_, halign.1, halign.2⟩
  · intro hmin
    have hneg := h.neg
    rw [value, value, neg, neg_min hmin, hmin] at hneg
    have hpos : (0 : Rat) < 10 ^ a.scale.toNat := by positivity
    field_simp at hneg
    norm_num at hneg
  · intro hmin
    have hwide : widened b (commonScale a b) = -2 ^ 127 := by
      have hpos : (1 : Int) ≤ 10 ^ (commonScale a b - b.scale).toNat := one_le_pow₀ (by norm_num)
      have hlow := halign.2.1
      rw [widened, hmin] at hlow ⊢
      nlinarith
    have hsub := h.checkedSub
    rw [checkedSub_min ha hb halign.1 hwide, hwide] at hsub
    have hleft := halign.1
    unfold Fits at hleft
    rcases exactly_inj (Except.ok.inj hsub) with heq | ⟨hn, hm⟩
    · omega
    · unfold Fits at hn hm
      omega

/-- Overflow goes unnoticed, or a checked operation panics, exactly when an operand is the
least raw value or does not survive the alignment. -/
theorem neverSilent_iff (a b : Decimal) (ha : Scaled a) (hb : Scaled b) :
    NeverSilent a b ↔ Aligns a b :=
  ⟨aligns_of_neverSilent ha hb, neverSilent_of_aligns ha hb⟩

theorem neverSilent_cents : NeverSilent ⟨123, 2⟩ ⟨15, 1⟩ :=
  (neverSilent_iff ⟨123, 2⟩ ⟨15, 1⟩ (by decide) (by decide)).2
    ⟨by decide, by decide, by decide, by decide⟩

/-- The least raw value is its own negation, for `sub` and `checked_sub` too, and a checked
sum panics when its operand cannot be widened. -/
theorem silent_overflow :
    neg ⟨BitVec.intMin 128, 0⟩ = ⟨BitVec.intMin 128, 0⟩ ∧
    sub ⟨0, 0⟩ ⟨BitVec.intMin 128, 0⟩ = .ok ⟨BitVec.intMin 128, 0⟩ ∧
    checkedSub ⟨0, 0⟩ ⟨BitVec.intMin 128, 0⟩ = .ok (some ⟨BitVec.intMin 128, 0⟩) ∧
    mul ⟨-1, 0⟩ ⟨BitVec.intMin 128, 0⟩ = .ok ⟨BitVec.intMin 128, 0⟩ ∧
    checkedAdd ⟨2, 0⟩ ⟨0, 38⟩ = .error "decimal.rescale: Int128 overflow" ∧
    ¬ ∀ a b, Scaled a → Scaled b → NeverSilent a b := by
  have hwide : widened ⟨2, 0⟩ (commonScale ⟨2, 0⟩ ⟨0, 38⟩) = 2 * 10 ^ 38 := rfl
  have halign : ¬ (Fits (widened ⟨2, 0⟩ (commonScale ⟨2, 0⟩ ⟨0, 38⟩)) ∧
      Fits (widened ⟨0, 38⟩ (commonScale ⟨2, 0⟩ ⟨0, 38⟩))) := by
    rw [hwide]
    exact fun h => absurd h.1.2 (by norm_num)
  refine ⟨rfl, rfl, rfl, ?_, ?_, ?_⟩
  · rw [mul, checkedRawMul_min rfl rfl]
    rfl
  · rw [checkedAdd, decAlign_eq (by decide) (by decide), if_neg halign]
    rfl
  · intro h
    have hsub := (h ⟨0, 0⟩ ⟨BitVec.intMin 128, 0⟩ (by decide) (by decide)).checkedSub
    have hnone : exactly (widened ⟨0, 0⟩ (commonScale ⟨0, 0⟩ ⟨BitVec.intMin 128, 0⟩) -
        widened ⟨BitVec.intMin 128, 0⟩ (commonScale ⟨0, 0⟩ ⟨BitVec.intMin 128, 0⟩))
        (commonScale ⟨0, 0⟩ ⟨BitVec.intMin 128, 0⟩) = none := rfl
    rw [hnone] at hsub
    cases hsub

end Kaikai.DecimalFixed
