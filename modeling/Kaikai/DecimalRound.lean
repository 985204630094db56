import Mathlib.Data.Nat.Cast.Order.Field
import Mathlib.Data.Rat.Floor
import Mathlib.Data.Sign.Basic
import Mathlib.Tactic.Positivity
import Kaikai.DecimalFixed

namespace Kaikai.DecimalFixed

def div (a b : Decimal) (targetScale : Int) : Except String (Option Decimal) :=
  if b.raw = i128z then .ok none
  else do
    let p ← pow10 (Word64.add b.scale targetScale)
    let o ← checkedRawMul a.raw p
    let num ← rawOrPanic o "div"
    let p' ← pow10 a.scale
    let o' ← checkedRawMul b.raw p'
    let den ← rawOrPanic o' "div"
    let q ← fixedDiv num den
    return some ⟨q, targetScale⟩

def eq (a b : Decimal) : Except String Bool := do
  let p ← decAlign a b
  return p.1.raw = p.2.raw

def cmp (a b : Decimal) : Except String Int := do
  let p ← decAlign a b
  return if p.1.raw.slt p.2.raw then 0 - 1 else if p.2.raw.slt p.1.raw then 1 else 0

/-- `round` where digits are dropped, over the power of ten that drops them. -/
def roundBy (raw factor : Int128) : Except String Int128 := do
  let tenth ← fixedDiv factor i128ten
  let half := tenth * 5
  let mag := if raw.slt i128z then i128z - raw else raw
  let q ← fixedDiv mag factor
  let r := mag - q * factor
  let q1 := if half.sle r then q + i128one else q
  return if raw.slt i128z then i128z - q1 else q1

def round (d : Decimal) (targetScale : Int) : Except String Decimal :=
  if targetScale ≥ d.scale then decRescale d targetScale
  else do
    let factor ← pow10 (Word64.sub d.scale targetScale)
    let signed ← roundBy d.raw factor
    return ⟨signed, targetScale⟩

/-- `n` is `x` without its digits after the point. -/
structure Truncates (x : ℚ) (n : ℤ) : Prop where
  le : |(n : ℚ)| ≤ |x|
  lt : |x| < |(n : ℚ)| + 1
  sign : 0 ≤ n * x

/-- `n` is a nearest integer of `x`, on a tie the one away from zero. -/
structure Rounds (x : ℚ) (n : ℤ) : Prop where
  near : |x - n| ≤ 1 / 2
  away : |x - n| = 1 / 2 → |x| < |(n : ℚ)|

/-- The two decimals and the scale get what the documentation says of them. -/
structure Exact (a b : Decimal) (t : Int) : Prop where
  div : ∀ q, div a b t = .ok (some q) →
    q.scale = t ∧ Truncates (value a / value b * 10 ^ t.toNat) q.raw.toInt
  round : ∀ r, round a t = .ok r → r.scale = t ∧ Rounds (value a * 10 ^ t.toNat) r.raw.toInt
  order : ∀ x, cmp a b = .ok x → x = SignType.sign (value a - value b)
  swap : ∀ x, cmp a b = .ok x → cmp b a = .ok (-x)
  trans : ∀ d x y z, Scaled d → cmp a b = .ok x → cmp b d = .ok y → cmp a d = .ok z → x ≤ 0 →
    y ≤ 0 → z ≤ 0
  eq : ∀ e, eq a b = .ok e → (e = true ↔ value a = value b)

/-- The least raw value loses no digits and is not divided by `-1`. -/
def Regular (a b : Decimal) (t : Int) : Prop :=
  a.raw.toInt = -2 ^ 127 → a.scale ≤ t ∧ (a.scale = 0 → t = 0 → b ≠ ⟨-1, 0⟩)

theorem exists_of_bind_ok {α β : Type} {x : Except String α} {f : α → Except String β} {r : β}
    (h : x >>= f = .ok r) : ∃ v, x = .ok v ∧ f v = .ok r := by
  cases x with
  | error e => cases h
  | ok v => exact ⟨v, rfl, h⟩

theorem bind_of_ok {α β : Type} {x : Except String α} {f : α → Except String β} {v : α}
    (h : x = .ok v) : x >>= f = f v := by
  rw [h]
  rfl

section Compare

variable {a b c : Decimal}

theorem decAlign_value {p : Decimal × Decimal} (ha : Scaled a) (hb : Scaled b)
    (h : decAlign a b = .ok p) :
    ∃ k : ℚ, 0 < k ∧ (p.1.raw.toInt : ℚ) = value a * k ∧ (p.2.raw.toInt : ℚ) = value b * k := by
  rw [decAlign_eq ha hb] at h
  split_ifs at h with hfits
  cases h
  have hpos : (0 : ℚ) < 10 ^ (commonScale a b).toNat := by positivity
  refine ⟨10 ^ (commonScale a b).toNat, hpos, ?_, ?_⟩
  · rw [toInt_ofInt hfits.1, ← value_widened ha (le_commonScale_left a b)]
    field_simp
  · rw [toInt_ofInt hfits.2, ← value_widened hb (le_commonScale_right a b)]
    field_simp

theorem cmp_sign {x : Int} (ha : Scaled a) (hb : Scaled b) (h : cmp a b = .ok x) :
    x = SignType.sign (value a - value b) := by
  rw [cmp] at h
  cases hp : decAlign a b with
  | error e =>
      rw [hp] at h
      cases h
  | ok p =>
      rw [hp] at h
      obtain ⟨k, hk, hleft, hright⟩ := decAlign_value ha hb hp
      have hdiff : value a - value b = ((p.1.raw.toInt : ℚ) - p.2.raw.toInt) / k := by
        rw [hleft, hright]
        field_simp
      have hx := Except.ok.inj h
      rw [BitVec.slt_eq_decide, BitVec.slt_eq_decide] at hx
      rw [← hx, hdiff]
      obtain hlt | heq | hgt := lt_trichotomy p.1.raw.toInt p.2.raw.toInt
      · have hneg : ((p.1.raw.toInt : ℚ) - p.2.raw.toInt) / k < 0 := by
          apply div_neg_of_neg_of_pos _ hk
          have hcast : (p.1.raw.toInt : ℚ) < p.2.raw.toInt := by exact_mod_cast hlt
          linarith
        rw [sign_neg hneg, if_pos (decide_eq_true hlt)]
        rfl
      · have hzero : ((p.1.raw.toInt : ℚ) - p.2.raw.toInt) / k = 0 := by
          rw [heq, sub_self, zero_div]
        rw [hzero, sign_zero, if_neg (by simp [heq]), if_neg (by simp [heq])]
        rfl
      · have hpos : 0 < ((p.1.raw.toInt : ℚ) - p.2.raw.toInt) / k := by
          apply div_pos _ hk
          have hcast : (p.2.raw.toInt : ℚ) < p.1.raw.toInt := by exact_mod_cast hgt
          linarith
        rw [sign_pos hpos, if_neg (by simp [hgt.le]), if_pos (decide_eq_true hgt)]
        rfl

theorem cmp_ok_swap {x : Int} (ha : Scaled a) (hb : Scaled b) (h : cmp a b = .ok x) :
    cmp b a = .ok (-x) := by
  obtain ⟨p, hp, _⟩ := exists_of_bind_ok h
  have hfits : Fits (widened a (commonScale a b)) ∧ Fits (widened b (commonScale a b)) := by
    by_contra hno
    rw [decAlign_eq ha hb, if_neg hno] at hp
    cases hp
  have hcomm : commonScale b a = commonScale a b := max_comm _ _
  have hback : ∃ y, cmp b a = .ok y := by
    rw [cmp, decAlign_eq hb ha, hcomm, if_pos ⟨hfits.2, hfits.1⟩]
    exact ⟨_, rfl⟩
  obtain ⟨y, hy⟩ := hback
  rw [hy, cmp_sign hb ha hy, cmp_sign ha hb h, ← neg_sub (value a), Left.sign_neg, SignType.coe_neg]

theorem sign_nonpos_iff {x : ℚ} : ((SignType.sign x : SignType) : ℤ) ≤ 0 ↔ x ≤ 0 := by
  obtain hneg | rfl | hpos := lt_trichotomy x 0
  · rw [sign_neg hneg]
    exact ⟨fun _ => hneg.le, fun _ => by decide⟩
  · rw [sign_zero]
    exact ⟨fun _ => le_refl 0, fun _ => by decide⟩
  · rw [sign_pos hpos]
    exact ⟨fun h => absurd h (by decide), fun h => absurd h (not_le.2 hpos)⟩

theorem cmp_trans {x y z : Int} (ha : Scaled a) (hb : Scaled b) (hc : Scaled c)
    (hx : cmp a b = .ok x) (hy : cmp b c = .ok y) (hz : cmp a c = .ok z) (hx0 : x ≤ 0)
    (hy0 : y ≤ 0) : z ≤ 0 := by
  rw [cmp_sign ha hb hx, sign_nonpos_iff] at hx0
  rw [cmp_sign hb hc hy, sign_nonpos_iff] at hy0
  rw [cmp_sign ha hc hz, sign_nonpos_iff]
  linarith

theorem eq_value {e : Bool} (ha : Scaled a) (hb : Scaled b) (h : eq a b = .ok e) :
    e = true ↔ value a = value b := by
  rw [eq] at h
  cases hp : decAlign a b with
  | error e =>
      rw [hp] at h
      cases h
  | ok p =>
      rw [hp] at h
      obtain ⟨k, hk, hleft, hright⟩ := decAlign_value ha hb hp
      rw [← Except.ok.inj h, decide_eq_true_eq, ← BitVec.toInt_inj, ← Int.cast_inj (α := ℚ), hleft,
        hright]
      exact mul_left_inj' hk.ne'

end Compare

section Round

variable {raw factor : Int128} {k : ℕ}

theorem truncates_tdiv {n m : ℤ} (hm : m ≠ 0) : Truncates ((n : ℚ) / m) (n.tdiv m) := by
  have hpos : (0 : ℚ) < (m.natAbs : ℚ) := by
    exact_mod_cast Int.natAbs_pos.2 hm
  have habs : |(n.tdiv m : ℚ)| = ((n.natAbs / m.natAbs : ℕ) : ℚ) := by
    rw [← Int.cast_abs, Int.abs_eq_natAbs, Int.natAbs_tdiv]
    rfl
  have hquot : |(n : ℚ) / m| = (n.natAbs : ℚ) / m.natAbs := by
    rw [abs_div, ← Int.cast_abs, ← Int.cast_abs, Int.abs_eq_natAbs, Int.abs_eq_natAbs]
    rfl
  constructor
  case le =>
    rw [habs, hquot]
    exact Nat.cast_div_le
  case lt =>
    rw [habs, hquot, div_lt_iff₀ hpos]
    have hlt : n.natAbs < (n.natAbs / m.natAbs + 1) * m.natAbs := by
      rw [Nat.mul_comm]
      exact Nat.lt_mul_div_succ _ (Int.natAbs_pos.2 hm)
    exact_mod_cast hlt
  case sign =>
    have hsq : (0 : ℚ) < (m : ℚ) ^ 2 := by positivity
    have hprod : 0 ≤ n.tdiv m * (n * m) := by
      have hsign := Int.sign_tdiv n m
      split_ifs at hsign with hlt
      · rw [Int.sign_eq_zero_iff_zero.1 hsign, zero_mul]
      · rw [← Int.sign_mul] at hsign
        rw [← Int.sign_nonneg_iff, Int.sign_mul, hsign]
        exact mul_self_nonneg _
    have hform : (n.tdiv m : ℚ) * ((n : ℚ) / m) = ((n.tdiv m * (n * m) : ℤ) : ℚ) / (m : ℚ) ^ 2 := by
      push_cast
      field_simp
    rw [hform]
    apply div_nonneg _ hsq.le
    exact_mod_cast hprod

theorem Rounds.neg {x : ℚ} {n : ℤ} (h : Rounds x n) : Rounds (-x) (-n) := by
  have hdist : |(-x) - ((-n : ℤ) : ℚ)| = |x - n| := by
    rw [Int.cast_neg, sub_neg_eq_add, neg_add_eq_sub, abs_sub_comm]
  constructor
  · rw [hdist]
    exact h.near
  · rw [hdist, Int.cast_neg, abs_neg, abs_neg]
    exact h.away

theorem rounds_div {m h : ℕ} (hpos : 0 < h) :
    Rounds ((m : ℚ) / (2 * h : ℕ)) (m / (2 * h) + if h ≤ m % (2 * h) then 1 else 0 : ℕ) := by
  have hf : (0 : ℚ) < (2 * h : ℕ) := by
    exact_mod_cast Nat.mul_pos two_pos hpos
  have hsplit : (m : ℚ) / (2 * h : ℕ) = (m / (2 * h) : ℕ) + (m % (2 * h) : ℕ) / ((2 * h : ℕ) : ℚ) := by
    have hdiv : (m : ℚ) = (2 * h : ℕ) * (m / (2 * h) : ℕ) + (m % (2 * h) : ℕ) := by
      exact_mod_cast (Nat.div_add_mod m (2 * h)).symm
    rw [div_eq_iff hf.ne', add_mul, div_mul_cancel₀ _ hf.ne', mul_comm]
    exact hdiv
  have hrest : (m % (2 * h) : ℕ) < 2 * h := Nat.mod_lt m (Nat.mul_pos two_pos hpos)
  have hfrac : (0 : ℚ) ≤ (m % (2 * h) : ℕ) / ((2 * h : ℕ) : ℚ) := by positivity
  have hone : ((m % (2 * h) : ℕ) : ℚ) / ((2 * h : ℕ) : ℚ) < 1 := by
    rw [div_lt_one hf]
    exact_mod_cast hrest
  have hhalf : h ≤ m % (2 * h) ↔ (1 / 2 : ℚ) ≤ (m % (2 * h) : ℕ) / ((2 * h : ℕ) : ℚ) := by
    rw [div_le_div_iff₀ two_pos hf, one_mul]
    norm_cast
    omega
  have hq : (0 : ℚ) ≤ (m / (2 * h) : ℕ) := Nat.cast_nonneg _
  rw [hsplit]
  generalize ((m % (2 * h) : ℕ) : ℚ) / ((2 * h : ℕ) : ℚ) = frac at hfrac hone hhalf
  split_ifs with hr
  · have hge := hhalf.1 hr
    have hdist : (m / (2 * h) : ℕ) + frac - ((m / (2 * h) + 1 : ℕ) : ℤ) = frac - 1 := by
      rw [Int.cast_natCast, Nat.cast_add, Nat.cast_one]
      ring
    constructor
    · rw [hdist, abs_of_neg (by linarith)]
      linarith
    · intro _
      rw [abs_of_nonneg (add_nonneg hq hfrac), Int.cast_natCast, Nat.abs_cast, Nat.cast_add,
        Nat.cast_one]
      linarith
  · have hlt : frac < 1 / 2 := not_le.1 fun hge => hr (hhalf.2 hge)
    have hdist : (m / (2 * h) : ℕ) + frac - ((m / (2 * h) + 0 : ℕ) : ℤ) = frac := by
      rw [Int.cast_natCast, Nat.add_zero, add_sub_cancel_left]
    constructor
    · rw [hdist, abs_of_nonneg hfrac]
      exact hlt.le
    · rw [hdist, abs_of_nonneg hfrac]
      exact fun heq => absurd heq hlt.ne

theorem toInt_mul_of_fits {x y : Int128} (h : Fits (x.toInt * y.toInt)) :
    (x * y).toInt = x.toInt * y.toInt := by
  rw [BitVec.toInt_mul, ← BitVec.toInt_ofInt, toInt_ofInt h]

theorem toInt_add_of_fits {x y : Int128} (h : Fits (x.toInt + y.toInt)) :
    (x + y).toInt = x.toInt + y.toInt := by
  rw [BitVec.toInt_add, ← BitVec.toInt_ofInt, toInt_ofInt h]

theorem toInt_sub_of_fits {x y : Int128} (h : Fits (x.toInt - y.toInt)) :
    (x - y).toInt = x.toInt - y.toInt := by
  rw [BitVec.toInt_sub, ← BitVec.toInt_ofInt, toInt_ofInt h]

theorem fixedDiv_eq {x y : Int128} (hy : 0 < y.toInt) :
    ∃ q, fixedDiv x y = .ok q ∧ q.toInt = x.toInt.tdiv y.toInt := by
  have hne : y ≠ 0 := by
    rintro rfl
    exact absurd hy (lt_irrefl 0)
  refine ⟨x.sdiv y, if_neg hne, toInt_sdiv ?_⟩
  rintro ⟨_, hneg⟩
  omega

/-- What `round` computes from the magnitude: the quotient, one more from the half on. -/
def roundedMag (mag factor : ℤ) : ℤ :=
  mag.tdiv factor + if factor / 2 ≤ mag.tmod factor then 1 else 0

theorem tmod_between (a b : ℤ) :
    (0 ≤ a → 0 ≤ a.tmod b ∧ a.tmod b ≤ a) ∧ (a ≤ 0 → a ≤ a.tmod b ∧ a.tmod b ≤ 0) := by
  have hsize : (a.tmod b).natAbs ≤ a.natAbs := by
    rw [Int.natAbs_tmod]
    exact Nat.mod_le _ _
  constructor
  · intro ha
    have hnonneg := Int.tmod_nonneg b ha
    omega
  · intro ha
    have hnonneg := Int.tmod_nonneg b (Int.neg_nonneg_of_nonpos ha)
    rw [Int.neg_tmod] at hnonneg
    omega

theorem roundBy_eq (raw : Int128) {j : ℕ} (hj : j < 38) (hfactor : factor.toInt = 10 ^ j * 10) :
    ∃ mag q1 signed : Int128, roundBy raw factor = .ok signed ∧
      mag = (if raw.slt i128z then i128z - raw else raw) ∧
      q1.toInt = roundedMag mag.toInt (10 ^ j * 10) ∧
      signed = (if raw.slt i128z then i128z - q1 else q1) := by
  have hpow : (1 : ℤ) ≤ 10 ^ j := one_le_pow₀ (by decide)
  have hbig : (10 : ℤ) ^ j * 10 < 2 ^ 127 := by
    rw [← pow_succ]
    exact (fits_ten_pow (Nat.succ_le_of_lt hj)).2
  generalize (10 : ℤ) ^ j = p at hfactor hpow hbig
  obtain ⟨tenth, htenth, htenthVal⟩ := fixedDiv_eq (x := factor) (y := i128ten) (by decide)
  rw [hfactor, show i128ten.toInt = 10 from rfl, Int.mul_tdiv_cancel _ (by decide)] at htenthVal
  have hhalf : (tenth * 5).toInt = p * 5 := by
    have hprod : tenth.toInt * (5 : Int128).toInt = p * 5 := by
      rw [htenthVal]
      rfl
    rw [toInt_mul_of_fits, hprod]
    rw [hprod, Fits]
    omega
  generalize hmag : (if raw.slt i128z then i128z - raw else raw) = mag
  obtain ⟨q, hq, hqVal⟩ := fixedDiv_eq (x := mag) (y := factor) (by omega)
  have hm := toInt_fits mag
  rw [Fits] at hm
  have hsplit := Int.tmod_add_mul_tdiv mag.toInt factor.toInt
  have hrest := tmod_between mag.toInt factor.toInt
  have hquot : q.toInt.natAbs ≤ mag.toInt.natAbs / 10 := by
    rw [hqVal, Int.natAbs_tdiv]
    exact Nat.div_le_div_left (by omega) (by decide)
  have hback : (q * factor).toInt = mag.toInt - mag.toInt.tmod factor.toInt := by
    have hprod : q.toInt * factor.toInt = mag.toInt - mag.toInt.tmod factor.toInt := by
      rw [hqVal, mul_comm]
      omega
    rw [toInt_mul_of_fits, hprod]
    rw [hprod, Fits]
    omega
  have hr : (mag - q * factor).toInt = mag.toInt.tmod factor.toInt := by
    rw [toInt_sub_of_fits, hback]
    · omega
    · rw [hback, Fits]
      omega
  have hone : (q + i128one).toInt = q.toInt + 1 := by
    rw [toInt_add_of_fits]
    · rfl
    · rw [show i128one.toInt = 1 from rfl, Fits]
      omega
  refine ⟨mag, if (tenth * 5).sle (mag - q * factor) then q + i128one else q, _, ?_, rfl, ?_, rfl⟩
  · rw [roundBy, htenth]
    change ((fixedDiv (if raw.slt i128z then i128z - raw else raw) factor) >>= _) = _
    rw [hmag, hq]
    rfl
  · have hle : p * 10 / 2 = p * 5 := by omega
    rw [roundedMag, hle, BitVec.sle_eq_decide, hhalf, hr, hfactor, ← hfactor, ← hqVal]
    by_cases hge : p * 5 ≤ mag.toInt.tmod factor.toInt
    · rw [if_pos (decide_eq_true hge), if_pos hge, hone]
    · rw [if_neg (by simpa using hge), if_neg hge, add_zero]

theorem roundedMag_natCast (n h : ℕ) :
    roundedMag n (2 * h : ℕ) = (n / (2 * h) + if h ≤ n % (2 * h) then 1 else 0 : ℕ) := by
  have hhalf : ((2 * h : ℕ) : ℤ) / 2 = h := by omega
  rw [roundedMag, hhalf, ← Int.ofNat_tdiv, ← Int.ofNat_tmod]
  by_cases hle : h ≤ n % (2 * h)
  · rw [if_pos hle, if_pos (Nat.cast_le.2 hle)]
    rfl
  · rw [if_neg hle, if_neg (mt Nat.cast_le.1 hle)]
    rfl

theorem isNeg_iff : raw.slt i128z = true ↔ raw.toInt < 0 := by
  rw [BitVec.slt_eq_decide, decide_eq_true_eq]
  rfl

theorem rounds_roundBy {j : ℕ} {signed : Int128} (hj : j < 38)
    (hfactor : factor.toInt = 10 ^ j * 10) (hmin : raw.toInt ≠ -2 ^ 127)
    (h : roundBy raw factor = .ok signed) : Rounds ((raw.toInt : ℚ) / (10 ^ j * 10)) signed.toInt := by
  obtain ⟨mag, q1, signed', hround, hmag, hq1, hsigned⟩ := roundBy_eq raw hj hfactor
  rw [h, Except.ok.injEq] at hround
  subst hround
  have hpos : 0 < 10 ^ j * 5 := by positivity
  have hten : (10 : ℤ) ^ j * 10 = (2 * (10 ^ j * 5) : ℕ) := by
    push_cast
    ring
  have htenRat : (10 : ℚ) ^ j * 10 = (2 * (10 ^ j * 5) : ℕ) := by
    push_cast
    ring
  have habs : mag.toInt = (raw.toInt.natAbs : ℤ) := by
    rw [hmag]
    split_ifs with hneg
    · rw [toInt_neg raw hmin]
      have hlt := isNeg_iff.1 hneg
      omega
    · have hge := mt isNeg_iff.2 hneg
      omega
  rw [hten, habs, roundedMag_natCast] at hq1
  have hrounds := rounds_div (m := raw.toInt.natAbs) hpos
  rw [htenRat]
  rw [← hq1] at hrounds
  rw [hsigned]
  split_ifs with hneg
  · have hlt := isNeg_iff.1 hneg
    have hraw : (raw.toInt : ℚ) = -(raw.toInt.natAbs : ℚ) := by
      rw [Nat.cast_natAbs, abs_of_neg hlt, Int.cast_neg, neg_neg]
    rw [hraw, neg_div, toInt_neg]
    · exact hrounds.neg
    · rw [hq1]
      exact (lt_of_lt_of_le (by decide) (Int.natCast_nonneg _)).ne'
  · have hge := not_lt.1 (mt isNeg_iff.2 hneg)
    have hraw : (raw.toInt : ℚ) = (raw.toInt.natAbs : ℚ) := by
      rw [Nat.cast_natAbs, abs_of_nonneg hge]
    rw [hraw]
    exact hrounds

theorem roundBy_min {j : ℕ} {signed : Int128} (hj : j < 38) (hfactor : factor.toInt = 10 ^ j * 10)
    (hmin : raw.toInt = -2 ^ 127) (h : roundBy raw factor = .ok signed) : 0 < signed.toInt := by
  obtain ⟨mag, q1, signed', hround, hmag, hq1, hsigned⟩ := roundBy_eq raw hj hfactor
  rw [h, Except.ok.injEq] at hround
  subst hround
  have hneg : raw.slt i128z = true := isNeg_iff.2 (by rw [hmin]; decide)
  rw [if_pos hneg, neg_min hmin] at hmag
  rw [if_pos hneg] at hsigned
  have hbig : (10 : ℤ) ^ j * 10 < 2 ^ 127 := by
    rw [← pow_succ]
    exact (fits_ten_pow (Nat.succ_le_of_lt hj)).2
  have hpow : (1 : ℤ) ≤ 10 ^ j := one_le_pow₀ (by decide)
  rw [hmag, hmin, roundedMag] at hq1
  have hrest := (tmod_between (-2 ^ 127) (10 ^ j * 10)).2 (by decide)
  have hquot : (-2 ^ 127 : ℤ).tdiv (10 ^ j * 10) = -(2 ^ 127 / (10 ^ j * 10)) := by
    rw [Int.neg_tdiv, Int.tdiv_eq_ediv_of_nonneg (by decide)]
  have hlow : 1 ≤ 2 ^ 127 / ((10 : ℤ) ^ j * 10) := by
    rw [Int.le_ediv_iff_mul_le (by omega), one_mul]
    exact hbig.le
  have hhigh : 2 ^ 127 / ((10 : ℤ) ^ j * 10) < 2 ^ 127 := by
    rw [Int.ediv_lt_iff_lt_mul (by omega)]
    omega
  rw [if_neg (by omega), hquot, add_zero] at hq1
  rw [hsigned, toInt_neg, hq1]
  · omega
  · rw [hq1]
    omega

end Round

section Exactness

variable {a b : Decimal} {t : Int}

theorem pow10_ok {n : Int} {p : Int128} (hn : 0 ≤ n) (h : pow10 n = .ok p) :
    p.toInt = 10 ^ n.toNat := by
  by_cases hbig : n ≤ 38
  · obtain ⟨p', hp', hvalue⟩ := pow10_eq hn hbig
    rw [hp', Except.ok.injEq] at h
    rw [← h, hvalue]
  · rw [pow10, if_neg (by omega), if_pos (by omega)] at h
    cases h

theorem widen_ok {x p v : Int128} {o : Option Int128} {n : Int} {what : String} (hn : 0 ≤ n)
    (hp : pow10 n = .ok p) (ho : checkedRawMul x p = .ok o) (hv : rawOrPanic o what = .ok v) :
    v.toInt = x.toInt * 10 ^ n.toNat := by
  have hpow := pow10_ok hn hp
  have hpos : (0 : ℤ) < 10 ^ n.toNat := by positivity
  rw [checkedRawMul_eq (by omega), hpow, Except.ok.injEq] at ho
  split_ifs at ho with hfits
  · rw [← ho] at hv
    rw [← Except.ok.inj hv, toInt_ofInt hfits]
  · rw [← ho] at hv
    cases hv

theorem div_eq (ha : Scaled a) (hb : Scaled b) (ht : 0 ≤ t ∧ t ≤ 38) {q : Decimal}
    (h : div a b t = .ok (some q)) :
    ∃ num den : Int128, num.toInt = a.raw.toInt * 10 ^ (b.scale + t).toNat ∧
      den.toInt = b.raw.toInt * 10 ^ a.scale.toNat ∧ den ≠ 0 ∧ q = ⟨num.sdiv den, t⟩ := by
  obtain ⟨ha0, ha38⟩ := ha
  obtain ⟨hb0, hb38⟩ := hb
  rw [div] at h
  split_ifs at h with hzero
  · cases h
  rw [Word64.add_eq (by omega) (by omega)] at h
  obtain ⟨p, hp, h⟩ := exists_of_bind_ok h
  obtain ⟨o, ho, h⟩ := exists_of_bind_ok h
  obtain ⟨num, hnum, h⟩ := exists_of_bind_ok h
  obtain ⟨p', hp', h⟩ := exists_of_bind_ok h
  obtain ⟨o', ho', h⟩ := exists_of_bind_ok h
  obtain ⟨den, hden, h⟩ := exists_of_bind_ok h
  obtain ⟨quot, hquot, h⟩ := exists_of_bind_ok h
  rw [fixedDiv] at hquot
  split_ifs at hquot with hden0
  refine ⟨num, den, widen_ok (by omega) hp ho hnum, widen_ok ha0 hp' ho' hden, hden0, ?_⟩
  rw [Except.ok.inj hquot]
  exact (Option.some.inj (Except.ok.inj h)).symm

theorem mul_pow_eq_min {x : ℤ} {n : ℕ} (h : x * 10 ^ n = -2 ^ 127) : n = 0 ∧ x = -2 ^ 127 := by
  cases n with
  | zero => exact ⟨rfl, by rwa [pow_zero, mul_one] at h⟩
  | succ n =>
      rw [pow_succ, ← mul_assoc] at h
      omega

theorem mul_pow_eq_neg_one {x : ℤ} {n : ℕ} (h : x * 10 ^ n = -1) : n = 0 ∧ x = -1 := by
  cases n with
  | zero => exact ⟨rfl, by rwa [pow_zero, mul_one] at h⟩
  | succ n =>
      rw [pow_succ, ← mul_assoc] at h
      omega

theorem div_truncates (ha : Scaled a) (hb : Scaled b) (ht : 0 ≤ t ∧ t ≤ 38) (hr : Regular a b t)
    {q : Decimal} (h : div a b t = .ok (some q)) :
    q.scale = t ∧ Truncates (value a / value b * 10 ^ t.toNat) q.raw.toInt := by
  obtain ⟨num, den, hnum, hden, hne, rfl⟩ := div_eq ha hb ht h
  refine ⟨rfl, ?_⟩
  have hquot : (num.sdiv den).toInt = num.toInt.tdiv den.toInt := by
    apply toInt_sdiv
    rintro ⟨hmin, hneg⟩
    rw [hnum] at hmin
    rw [hden] at hneg
    obtain ⟨hzero, hraw⟩ := mul_pow_eq_min hmin
    obtain ⟨hscale, hone⟩ := mul_pow_eq_neg_one hneg
    have hb0 := hb.1
    have ha0 := ha.1
    refine (hr hraw).2 (by omega) (by omega) ?_
    have hbraw : b.raw = -1 := BitVec.toInt_inj.1 hone
    have hbscale : b.scale = 0 := by omega
    cases b
    cases hbraw
    cases hbscale
    rfl
  have hform : value a / value b * 10 ^ t.toNat = (num.toInt : ℚ) / den.toInt := by
    have hsum : (b.scale + t).toNat = b.scale.toNat + t.toNat := Int.toNat_add hb.1 ht.1
    rw [hnum, hden, value, value, hsum, pow_add]
    push_cast
    field_simp
  rw [hform]
  change Truncates _ (num.sdiv den).toInt
  rw [hquot]
  exact truncates_tdiv fun h0 => hne (BitVec.toInt_inj.1 h0)

theorem rounds_self (n : ℤ) : Rounds n n := by
  constructor
  · rw [sub_self, abs_zero]
    norm_num
  · rw [sub_self, abs_zero]
    norm_num

theorem round_widen {d r : Decimal} (hd : Scaled d) (ht : t ≤ 38) (hle : d.scale ≤ t)
    (h : round d t = .ok r) : r.scale = t ∧ (r.raw.toInt : ℚ) = value d * 10 ^ t.toNat := by
  rw [round, if_pos hle, decRescale_eq hd hle ht] at h
  split_ifs at h with hfits
  cases h
  refine ⟨rfl, ?_⟩
  rw [← value_widened hd hle, toInt_ofInt hfits]
  field_simp

theorem round_drop {d r : Decimal} (hd : Scaled d) (ht : 0 ≤ t) (hlt : t < d.scale)
    (h : round d t = .ok r) :
    ∃ (factor signed : Int128) (j : ℕ), j < 38 ∧ d.scale.toNat = t.toNat + (j + 1) ∧
      factor.toInt = 10 ^ j * 10 ∧ roundBy d.raw factor = .ok signed ∧ r = ⟨signed, t⟩ := by
  obtain ⟨hd0, hd38⟩ := hd
  rw [round, if_neg (by omega), Word64.sub_eq (by omega) (by omega)] at h
  obtain ⟨factor, hfactor, h⟩ := exists_of_bind_ok h
  obtain ⟨signed, hsigned, h⟩ := exists_of_bind_ok h
  have hpow := pow10_ok (by omega) hfactor
  obtain ⟨j, hj⟩ := Nat.exists_eq_succ_of_ne_zero (show (d.scale - t).toNat ≠ 0 by omega)
  refine ⟨factor, signed, j, by omega, by omega, ?_, hsigned, (Except.ok.inj h).symm⟩
  rw [hpow, hj, pow_succ]

theorem round_rounds (ha : Scaled a) (ht : 0 ≤ t ∧ t ≤ 38) (hr : Regular a b t) {r : Decimal}
    (h : round a t = .ok r) : r.scale = t ∧ Rounds (value a * 10 ^ t.toNat) r.raw.toInt := by
  obtain hle | hlt := le_or_gt a.scale t
  · obtain ⟨hscale, hvalue⟩ := round_widen ha ht.2 hle h
    rw [← hvalue]
    exact ⟨hscale, rounds_self _⟩
  · obtain ⟨factor, signed, j, hj, hscale, hfactor, hsigned, rfl⟩ := round_drop ha ht.1 hlt h
    refine ⟨rfl, ?_⟩
    have hmin : a.raw.toInt ≠ -2 ^ 127 := fun hraw => absurd (hr hraw).1 (not_le.2 hlt)
    have hform : value a * 10 ^ t.toNat = (a.raw.toInt : ℚ) / (10 ^ j * 10) := by
      rw [value, hscale, pow_add, pow_succ]
      field_simp
    rw [hform]
    exact rounds_roundBy hj hfactor hmin hsigned

theorem exact_of_regular (ha : Scaled a) (hb : Scaled b) (ht : 0 ≤ t ∧ t ≤ 38)
    (hr : Regular a b t) : Exact a b t where
  div := fun _ h => div_truncates ha hb ht hr h
  round := fun _ h => round_rounds ha ht hr h
  order := fun _ h => cmp_sign ha hb h
  swap := fun _ h => cmp_ok_swap ha hb h
  trans := fun _ _ _ _ hd hx hy hz => cmp_trans ha hb hd hx hy hz
  eq := fun _ h => eq_value ha hb h

theorem round_min (ha : Scaled a) (ht : 0 ≤ t) (hlt : t < a.scale)
    (hmin : a.raw.toInt = -2 ^ 127) :
    ∃ r, round a t = .ok r ∧ ¬ Rounds (value a * 10 ^ t.toNat) r.raw.toInt := by
  obtain ⟨ha0, ha38⟩ := ha
  obtain ⟨p, hp, hpow⟩ := pow10_eq (n := a.scale - t) (by omega) (by omega)
  obtain ⟨j, hj⟩ := Nat.exists_eq_succ_of_ne_zero (show (a.scale - t).toNat ≠ 0 by omega)
  rw [hj, pow_succ] at hpow
  obtain ⟨_, _, signed, hsigned, _⟩ := roundBy_eq a.raw (by omega) hpow
  refine ⟨⟨signed, t⟩, ?_, ?_⟩
  · rw [round, if_neg (by omega), Word64.sub_eq (by omega) (by omega), hp]
    change (roundBy a.raw p >>= fun signed => pure (Decimal.mk signed t)) = _
    rw [hsigned]
    rfl
  · intro hrounds
    have hpos := roundBy_min (by omega) hpow hmin hsigned
    have hone : (1 : ℚ) ≤ signed.toInt := by exact_mod_cast hpos
    have hneg : value a * 10 ^ t.toNat ≤ 0 := by
      apply mul_nonpos_of_nonpos_of_nonneg _ (by positivity)
      rw [value, hmin]
      apply div_nonpos_of_nonpos_of_nonneg _ (by positivity)
      norm_num
    have hnear := (abs_le.1 hrounds.near).1
    change -(1 / 2) ≤ value a * 10 ^ t.toNat - (signed.toInt : ℚ) at hnear
    linarith

theorem checkedRawMul_one (x : Int128) : checkedRawMul x i128one = .ok (some x) := by
  rw [checkedRawMul_eq (fun h => absurd h.2 (by decide)), show i128one.toInt = 1 from rfl, mul_one,
    if_pos (toInt_fits x), ofInt_unique rfl]

theorem div_min (hmin : a.raw.toInt = -2 ^ 127) (hscale : a.scale = 0) :
    div a ⟨-1, 0⟩ 0 = .ok (some ⟨a.raw, 0⟩) := by
  have hquot : fixedDiv a.raw (-1) = .ok a.raw := by
    rw [fixedDiv, if_neg (by decide), Except.ok.injEq]
    apply BitVec.toInt_inj.1
    rw [BitVec.toInt_sdiv, hmin]
    decide
  have hone : pow10 (Word64.add (Decimal.mk (-1) 0).scale 0) = .ok i128one := rfl
  have hone' : pow10 a.scale = .ok i128one := by
    rw [hscale]
    rfl
  rw [div, if_neg (by decide)]
  refine (bind_of_ok hone).trans ((bind_of_ok (checkedRawMul_one _)).trans ?_)
  refine (bind_of_ok rfl).trans ((bind_of_ok hone').trans ?_)
  refine (bind_of_ok (checkedRawMul_one _)).trans ((bind_of_ok rfl).trans ?_)
  exact (bind_of_ok hquot).trans rfl

theorem regular_of_exact (ha : Scaled a) (ht : 0 ≤ t) (h : Exact a b t) : Regular a b t := by
  intro hmin
  refine ⟨?_, ?_⟩
  · by_contra hlt
    obtain ⟨r, hr, hwrong⟩ := round_min ha ht (not_le.1 hlt) hmin
    exact hwrong (h.round r hr).2
  · rintro hscale rfl rfl
    have hsign := (h.div _ (div_min hmin hscale)).2.sign
    have hy : value ⟨-1, 0⟩ = -1 := by
      rw [value]
      change (((-1 : ℤ)) : ℚ) / 10 ^ 0 = _
      norm_num
    rw [hy, value, hscale, hmin] at hsign
    norm_num at hsign

/-- Division, rounding and comparison are as documented exactly where the least raw value neither
loses digits nor is divided by `-1`. -/
theorem exact_iff (a b : Decimal) (t : Int) (ha : Scaled a) (hb : Scaled b)
    (ht : 0 ≤ t ∧ t ≤ 38) : Exact a b t ↔ Regular a b t :=
  ⟨regular_of_exact ha ht.1, exact_of_regular ha hb ht⟩

theorem exact_third : Exact ⟨100, 2⟩ ⟨-3, 0⟩ 1 :=
  (exact_iff ⟨100, 2⟩ ⟨-3, 0⟩ 1 (by decide) (by decide) (by decide)).2
    fun h => absurd h (by decide)

/-- The least raw value rounds to a positive number, and divided by `-1` stays itself. -/
theorem not_exact_min :
    ¬ Exact ⟨BitVec.intMin 128, 1⟩ ⟨1, 0⟩ 0 ∧ ¬ Exact ⟨BitVec.intMin 128, 0⟩ ⟨-1, 0⟩ 0 ∧
      ¬ ∀ a b t, Scaled a → Scaled b → 0 ≤ t ∧ t ≤ 38 → Exact a b t := by
  have hdrop : ¬ Exact ⟨BitVec.intMin 128, 1⟩ ⟨1, 0⟩ 0 := fun h =>
    absurd (regular_of_exact (by decide) (by decide) h rfl).1 (by decide)
  have hquot : ¬ Exact ⟨BitVec.intMin 128, 0⟩ ⟨-1, 0⟩ 0 := fun h =>
    (regular_of_exact (by decide) (by decide) h rfl).2 rfl rfl rfl
  exact ⟨hdrop, hquot, fun h => hdrop (h _ _ _ (by decide) (by decide) (by decide))⟩

end Exactness

end Kaikai.DecimalFixed
