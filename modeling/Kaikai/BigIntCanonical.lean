import Kaikai.BigIntReach
import Kaikai.BigIntWidth

namespace Kaikai.BigIntCanonical

open Kaikai.BigIntLimbs
open Kaikai.BigIntKaratsuba
open Kaikai.BigIntDivision
open Kaikai.BigIntParse
open Kaikai.BigIntArith
open Kaikai.BigIntWidth
open Kaikai.Decimal
open Kaikai.Str

def hashSeed (sign : Int) : Int := if sign < 0 then Word64.sub 0 2654435761 else 2654435761

/-- Mixes the limbs from `i` on, of `n`, into `acc`. -/
def hashLimbs (mag : Mag) (i n : Nat) (acc : Int) : Option Int :=
  if i ≥ n then some acc
  else do
    let x ← arrayGet mag i
    hashLimbs mag (i + 1) n (Word64.mul (Word64.add acc x) 1099511628211)
termination_by n - i

def bigintHash (x : BigInt) : Option Int :=
  hashLimbs (magnitude x) 0 (sigLen (magnitude x)) (hashSeed (sign x))

/-- The representation that the documentation of the type promises. -/
def Canonical : BigInt → Prop
  | .small n => Word64.InRange n ∧ n ≠ minInt
  | .big s mag => (s = 1 ∨ s = -1) ∧ LimbsOk mag ∧ mag.getLast? ≠ some 0 ∧
      ¬ (-(2 ^ 63 - 1) ≤ s * val mag ∧ s * val mag ≤ 2 ^ 63 - 1)

/-- A magnitude has no more limbs than its number needs. -/
def Tight : BigInt → Prop
  | .small _ => True
  | .big _ mag => mag.length = limbs (val mag)

theorem getLast_ne_zero_iff {mag : Mag} (hmag : LimbsOk mag) (hpos : 0 < val mag) :
    mag.getLast? ≠ some 0 ↔ mag.length = limbs (val mag) := by
  have hsig : 0 < sigLen mag := by
    apply Nat.pos_of_ne_zero
    intro hzero
    exact hpos.ne' ((sigLen_eq_zero_iff hmag).1 hzero)
  have hle := sigLen_le_length mag
  have hlast : mag.getLast? = some (mag.getD (mag.length - 1) 0) := by
    rw [List.getLast?_eq_getElem?, List.getD_eq_getElem?_getD,
      List.getElem?_eq_getElem (by omega), Option.getD_some]
  rw [hlast, Ne, Option.some.injEq, ← sigLen_eq_limbs hmag]
  constructor
  · intro hne
    by_contra hlen
    exact hne (getD_sigLen mag _ (by omega))
  · intro hlen
    rw [hlen]
    exact getD_sigLen_pred hsig

theorem canonical_iff {x : BigInt} : Canonical x ↔ Wf x ∧ Tight x := by
  cases x with
  | small n =>
      simp only [Canonical, Wf, Tight, Word64.InRange, minInt_eq, and_true]
      omega
  | big s mag =>
      simp only [Canonical, Wf, Tight]
      constructor
      · rintro ⟨hs, hmag, hlast, hout⟩
        have hnonneg := val_nonneg hmag
        have hbig : 2 ^ 63 ≤ val mag := by
          rcases hs with rfl | rfl <;> omega
        exact ⟨⟨hs, hmag, hbig⟩, (getLast_ne_zero_iff hmag (by omega)).1 hlast⟩
      · rintro ⟨⟨hs, hmag, hbig⟩, hlen⟩
        refine ⟨hs, hmag, (getLast_ne_zero_iff hmag (by omega)).2 hlen, ?_⟩
        rcases hs with rfl | rfl <;> omega

theorem Canonical.eq_of_value_eq {x y : BigInt} (hx : Canonical x) (hy : Canonical y)
    (h : value x = value y) : x = y := by
  obtain ⟨hwx, htx⟩ := canonical_iff.1 hx
  obtain ⟨hwy, hty⟩ := canonical_iff.1 hy
  cases x with
  | small n =>
      cases y with
      | small m => rw [show n = m from h]
      | big t nag =>
          simp only [Wf, value] at hwx hwy h
          rcases hwy.1 with rfl | rfl <;> omega
  | big s mag =>
      cases y with
      | small m =>
          simp only [Wf, value] at hwx hwy h
          rcases hwx.1 with rfl | rfl <;> omega
      | big t nag =>
          simp only [Wf, Tight, value] at hwx hwy htx hty h
          obtain ⟨hs, hmag, hbig⟩ := hwx
          obtain ⟨ht, hnag, hbig'⟩ := hwy
          have hsign : s = t := by
            rcases hs with rfl | rfl <;> rcases ht with rfl | rfl <;> omega
          have hval : val mag = val nag := by
            rcases ht with rfl | rfl <;> (rw [hsign] at h; omega)
          rw [hsign, Positional.value_inj (by norm_num) hmag hnag (by rw [htx, hty, hval]) hval]

/-- An array of `slots` entries has no zero on top when it holds `v`, or `v` goes inline. -/
def Fits (slots : Nat) (v : Int) : Prop := v < 2 ^ 63 ∨ slots = limbs v

theorem make_canonical {mag : Mag} {s : Int} {x : BigInt} (hmag : LimbsOk mag)
    (hmake : make s mag = some x) : Canonical x ↔ Fits mag.length (val mag) := by
  have hwf : Wf x := (make_spec hmag s).wf hmake
  have hpos := val_nonneg hmag
  rw [canonical_iff]
  unfold make at hmake
  by_cases hzero : sigLen mag = 0
  · have hval := (sigLen_eq_zero_iff hmag).1 hzero
    simp only [if_pos hzero, Option.some.injEq] at hmake
    subst hmake
    exact iff_of_true ⟨hwf, trivial⟩ (.inl (by rw [hval]; norm_num))
  · simp only [if_neg hzero, fitsSmall_spec hmag, Option.bind_eq_bind, Option.bind_some,
      decide_eq_true_eq] at hmake
    by_cases hfits : val mag < 2 ^ 63
    · rw [if_pos hfits, magToInt_spec hmag hfits, Option.bind_some, Option.some.injEq] at hmake
      subst hmake
      exact iff_of_true ⟨hwf, trivial⟩ (.inl hfits)
    · rw [if_neg hfits, Option.some.injEq] at hmake
      subst hmake
      exact ⟨fun h => .inr h.2, fun h => ⟨hwf, h.resolve_left hfits⟩⟩

theorem sign_eq_sign_iff {a b : BigInt} (ha : Wf a) (hb : Wf b) (ha0 : value a ≠ 0)
    (hb0 : value b ≠ 0) : sign a = sign b ↔ (0 < value a ↔ 0 < value b) := by
  rw [sign_eq ha, sign_eq hb]
  rcases lt_or_gt_of_ne ha0 with hu | hu <;> rcases lt_or_gt_of_ne hb0 with hv | hv
  · simp [hu, hv, hu.not_gt, hv.not_gt]
  · simp [hu, hv, hu.not_gt, hv.not_gt]
  · simp [hu, hv, hu.not_gt, hv.not_gt]
  · simp [hu, hv, hu.not_gt, hv.not_gt]

/-- The array of the sum of magnitudes, or of their difference. -/
def addWidth (u v : Int) : Nat :=
  if (0 < u ↔ 0 < v) then max (limbs |u|) (limbs |v|) + 1 else limbs (max |u| |v|)

/-- A sum with zero is the other operand, and the least `Int` has its own constant. -/
def AddFills (u v : Int) : Prop :=
  u = 0 ∨ v = 0 ∨ (|u| < 2 ^ 63 ∧ |v| < 2 ^ 63 ∧ u + v = -2 ^ 63) ∨ Fits (addWidth u v) |u + v|

theorem addNonzero_canonical {a b x : BigInt} (ha : Wf a) (hb : Wf b) (ha0 : value a ≠ 0)
    (hb0 : value b ≠ 0) (h : addNonzero a b = some x) :
    Canonical x ↔ Fits (addWidth (value a) (value b)) |value a + value b| := by
  obtain ⟨hma, hva⟩ := magnitude_spec ha
  obtain ⟨hmb, hvb⟩ := magnitude_spec hb
  have hsign := sign_eq_sign_iff ha hb ha0 hb0
  unfold addNonzero at h
  simp only at h
  by_cases hsame : sign a = sign b
  · obtain ⟨sum, hadd, hsum, hval, hlen⟩ := magAdd_width hma hmb
    rw [if_pos hsame, hadd, Option.bind_eq_bind, Option.bind_some] at h
    have hsum' : |value a| + |value b| = |value a + value b| := by
      have hiff := hsign.1 hsame
      rcases abs_cases (value a) with hu | hu <;> rcases abs_cases (value b) with hv | hv <;>
        rcases abs_cases (value a + value b) with huv | huv <;> omega
    rw [make_canonical hsum h, hlen, hval, addWidth, if_pos (hsign.1 hsame), hva, hvb, hsum']
  · have hopp : ¬ (0 < value a ↔ 0 < value b) := fun hiff => hsame (hsign.2 hiff)
    have hdiff : |value a + value b| = |value a| - |value b| ∨
        |value a + value b| = |value b| - |value a| := by
      rcases abs_cases (value a) with hu | hu <;> rcases abs_cases (value b) with hv | hv <;>
        rcases abs_cases (value a + value b) with huv | huv <;> omega
    have hnonneg := abs_nonneg (value a + value b)
    rw [if_neg hsame, magCmp_spec hma hmb, hva, hvb, Option.bind_eq_bind, Option.bind_some] at h
    rw [addWidth, if_neg hopp]
    rcases lt_trichotomy |value a| |value b| with hlt | heq | hgt
    · obtain ⟨diff, hsub, hok, hval, hlen⟩ := magSub_width hmb hma (by omega)
      rw [if_pos hlt, if_neg (by norm_num), if_neg (by norm_num), hsub, Option.bind_eq_bind,
        Option.bind_some] at h
      have hval' : |value b| - |value a| = |value a + value b| := by omega
      rw [make_canonical hok h, hlen, hval, hva, hvb, max_eq_right hlt.le, hval']
    · rw [if_neg heq.not_lt, if_neg heq.not_gt, if_pos rfl, Option.some.injEq] at h
      subst h
      have hzero : |value a + value b| = 0 := by omega
      rw [hzero]
      exact iff_of_true (canonical_iff.2 ⟨⟨by norm_num, by norm_num⟩, trivial⟩)
        (.inl (by norm_num))
    · obtain ⟨diff, hsub, hok, hval, hlen⟩ := magSub_width hma hmb (by omega)
      rw [if_neg hgt.not_gt, if_pos hgt, if_neg (by norm_num), if_pos (by norm_num), hsub,
        Option.bind_eq_bind, Option.bind_some] at h
      have hval' : |value a| - |value b| = |value a + value b| := by omega
      rw [make_canonical hok h, hlen, hval, hva, hvb, max_eq_left hgt.le, hval']

theorem addGeneral_canonical {a b x : BigInt} (ha : Canonical a) (hb : Canonical b)
    (h : addGeneral a b = some x) : Canonical x ↔
      value a = 0 ∨ value b = 0 ∨ Fits (addWidth (value a) (value b)) |value a + value b| := by
  have hwa := (canonical_iff.1 ha).1
  have hwb := (canonical_iff.1 hb).1
  unfold addGeneral at h
  by_cases haz : isZero a = true
  · rw [if_pos haz, Option.some.injEq] at h
    subst h
    exact iff_of_true hb (.inl ((isZero_iff hwa).1 haz))
  · have ha0 : value a ≠ 0 := fun hzero => haz ((isZero_iff hwa).2 hzero)
    rw [if_neg haz] at h
    by_cases hbz : isZero b = true
    · rw [if_pos hbz, Option.some.injEq] at h
      subst h
      exact iff_of_true ha (.inr (.inl ((isZero_iff hwb).1 hbz)))
    · have hb0 : value b ≠ 0 := fun hzero => hbz ((isZero_iff hwb).2 hzero)
      rw [if_neg hbz] at h
      rw [addNonzero_canonical hwa hwb ha0 hb0 h]
      simp only [ha0, hb0, false_or]

theorem fromInt_canonical {n : Int} (h : Word64.InRange n) : Canonical (fromInt n) := by
  refine canonical_iff.2 ⟨(fromInt_spec h).1, ?_⟩
  unfold fromInt
  split
  · rw [Tight, ← sigLen_eq_limbs limbsOk_minI64Mag]
    decide
  · trivial

theorem addSmall_canonical {x y : Int} {r : BigInt} (hx : Canonical (.small x))
    (hy : Canonical (.small y)) (h : addSmall x y = some r) : Canonical r ↔ AddFills x y := by
  have hwx := (canonical_iff.1 hx).1
  have hwy := (canonical_iff.1 hy).1
  obtain ⟨hx0, hx1⟩ := hwx
  obtain ⟨hy0, hy1⟩ := hwy
  have habs : |x| < 2 ^ 63 ∧ |y| < 2 ^ 63 := ⟨abs_lt.2 ⟨hx0, hx1⟩, abs_lt.2 ⟨hy0, hy1⟩⟩
  have hgeneral : ∀ {r}, addGeneral (.small x) (.small y) = some r → x + y ≠ -2 ^ 63 →
      (Canonical r ↔ AddFills x y) := by
    intro r hr hmin
    rw [addGeneral_canonical hx hy hr, AddFills]
    simp only [value, hmin, and_false, false_or]
  unfold addSmall at h
  simp only at h
  by_cases hpos : x ≥ 0 ∧ y ≥ 0 ∧ Word64.add x y < 0
  · rw [if_pos hpos] at h
    exact hgeneral h (by omega)
  · rw [if_neg hpos] at h
    by_cases hneg : x < 0 ∧ y < 0 ∧ Word64.add x y ≥ 0
    · rw [if_pos hneg] at h
      refine hgeneral h ?_
      intro hmin
      have hwrap : Word64.add x y = -2 ^ 63 := by
        rw [Word64.add, hmin]
        decide
      omega
    · rw [if_neg hneg, Option.some.injEq] at h
      have hexact : Word64.add x y = x + y := by
        unfold Word64.add Word64.wrap at *
        omega
      have hrange := Word64.wrap_inRange (x + y)
      rw [show Word64.wrap (x + y) = x + y from hexact] at hrange
      rw [← h, hexact]
      refine iff_of_true (fromInt_canonical hrange) ?_
      by_cases hmin : x + y = -2 ^ 63
      · exact .inr (.inr (.inl ⟨habs.1, habs.2, hmin⟩))
      · obtain ⟨hlow, hhigh⟩ := hrange
        exact .inr (.inr (.inr (.inl (abs_lt.2 ⟨by omega, hhigh⟩))))

theorem two_pow_le_abs_big {s : Int} {mag : Mag} (h : Wf (.big s mag)) :
    2 ^ 63 ≤ |value (.big s mag)| := by
  have hval := (magnitude_spec h).2
  rw [← hval]
  exact h.2.2

theorem add_canonical {a b x : BigInt} (ha : Canonical a) (hb : Canonical b)
    (h : add a b = some x) : Canonical x ↔ AddFills (value a) (value b) := by
  have hgeneral : ∀ {x}, addGeneral a b = some x →
      ¬ (|value a| < 2 ^ 63 ∧ |value b| < 2 ^ 63) → (Canonical x ↔ AddFills (value a) (value b)) := by
    intro x hx hbig
    rw [addGeneral_canonical ha hb hx, AddFills, ← and_assoc]
    simp only [hbig, false_and, false_or]
  cases a with
  | small n =>
      cases b with
      | small m => exact addSmall_canonical ha hb h
      | big t nag =>
          have hlarge := two_pow_le_abs_big (canonical_iff.1 hb).1
          exact hgeneral h fun hlt => absurd hlt.2 (not_lt.2 hlarge)
  | big s mag =>
      have hlarge := two_pow_le_abs_big (canonical_iff.1 ha).1
      exact hgeneral h fun hlt => absurd hlt.1 (not_lt.2 hlarge)

theorem neg_canonical {a : BigInt} (ha : Canonical a) : Canonical (neg a) := by
  obtain ⟨hwf, htight⟩ := canonical_iff.1 ha
  refine canonical_iff.2 ⟨(neg_spec hwf).1, ?_⟩
  cases a with
  | small n => trivial
  | big s mag => exact htight

theorem abs_canonical {a : BigInt} (ha : Canonical a) : Canonical (abs a) := by
  obtain ⟨hwf, htight⟩ := canonical_iff.1 ha
  cases a with
  | small n =>
      obtain ⟨hlow, hhigh⟩ := hwf
      have habs : BigIntArith.abs (.small n) =
          if n < 0 then fromInt (Word64.sub 0 n) else .small n := rfl
      rw [habs]
      split
      · have hrange : Word64.InRange (Word64.sub 0 n) := Word64.wrap_inRange _
        exact fromInt_canonical hrange
      · exact ha
  | big s mag => exact canonical_iff.2 ⟨(abs_spec hwf).1, htight⟩

theorem sub_canonical {a b x : BigInt} (ha : Canonical a) (hb : Canonical b)
    (h : sub a b = some x) : Canonical x ↔ AddFills (value a) (-value b) := by
  rw [← (neg_spec (canonical_iff.1 hb).1).2]
  exact add_canonical ha (neg_canonical hb) h

/-- The array of the product. -/
def MulFills (u v : Int) : Prop := Fits (mulWidth |u| |v|) |u * v|

theorem mulGeneral_canonical {a b x : BigInt} (ha : Wf a) (hb : Wf b)
    (h : mulGeneral a b = some x) : Canonical x ↔ MulFills (value a) (value b) := by
  unfold mulGeneral at h
  by_cases hzero : (isZero a || isZero b) = true
  · rw [if_pos hzero, Option.some.injEq] at h
    subst h
    have hprod : value a * value b = 0 := by
      rcases Bool.or_eq_true_iff.1 hzero with haz | hbz
      · rw [(isZero_iff ha).1 haz, zero_mul]
      · rw [(isZero_iff hb).1 hbz, mul_zero]
    refine iff_of_true (canonical_iff.2 ⟨⟨by norm_num, by norm_num⟩, trivial⟩) (.inl ?_)
    rw [hprod, abs_zero]
    norm_num
  · obtain ⟨hma, hva⟩ := magnitude_spec ha
    obtain ⟨hmb, hvb⟩ := magnitude_spec hb
    obtain ⟨product, hmul, hok, hval, hlen⟩ := magMulFast_width hma hmb
    rw [if_neg hzero, hmul, Option.bind_eq_bind, Option.bind_some] at h
    rw [make_canonical hok h, hlen, hval, hva, hvb, MulFills, abs_mul]

theorem mulSmall_canonical {x y : Int} {r : BigInt} (hx : Wf (.small x)) (hy : Wf (.small y))
    (h : mulSmall x y = some r) : Canonical r ↔ MulFills x y := by
  obtain ⟨r', hr', hwf, hval⟩ := mulSmall_spec hx hy
  rw [h, Option.some.injEq] at hr'
  subst hr'
  have hsmall : ∀ {n}, r = .small n → (Canonical r ↔ MulFills x y) := by
    intro n hn
    subst hn
    refine iff_of_true (canonical_iff.2 ⟨hwf, trivial⟩) (.inl ?_)
    rw [← hval]
    exact abs_lt.2 hwf
  unfold mulSmall at h
  by_cases hzero : x = 0 ∨ y = 0
  · rw [if_pos hzero, Option.some.injEq] at h
    exact hsmall h.symm
  · rw [if_neg hzero, Option.bind_eq_bind, Option.bind_eq_some_iff] at h
    obtain ⟨back, -, h⟩ := h
    split at h
    · exact hsmall (Option.some.inj h).symm
    · simpa only [value] using mulGeneral_canonical hx hy h

theorem mul_canonical {a b x : BigInt} (ha : Wf a) (hb : Wf b) (h : mul a b = some x) :
    Canonical x ↔ MulFills (value a) (value b) := by
  cases a with
  | small n =>
      cases b with
      | small m => exact mulSmall_canonical ha hb h
      | big t nag => exact mulGeneral_canonical ha hb h
  | big s mag => exact mulGeneral_canonical ha hb h

/-- The arrays of the quotient and of the remainder; a short dividend is the remainder. -/
def DivFills (u v : Int) : Prop :=
  |u| < |v| ∨ (Fits (quotientWidth |u| |v|) (|u| / |v|) ∧ Fits (remainderWidth |u| |v|) (|u| % |v|))

theorem magnitude_fits {a : BigInt} (ha : Canonical a) :
    Fits (magnitude a).length (val (magnitude a)) := by
  obtain ⟨hwf, htight⟩ := canonical_iff.1 ha
  cases a with
  | small n =>
      rw [(magnitude_spec hwf).2]
      exact .inl (abs_lt.2 hwf)
  | big s mag => exact .inr htight

theorem divmod_canonical {a b q r : BigInt} (ha : Canonical a) (hb : Canonical b)
    (h : divmod a b = some (some (q, r))) :
    (Canonical q ∧ Canonical r) ↔ DivFills (value a) (value b) := by
  have hwa := (canonical_iff.1 ha).1
  have hwb := (canonical_iff.1 hb).1
  have hsmall : Canonical (.small 0) := canonical_iff.2 ⟨⟨by norm_num, by norm_num⟩, trivial⟩
  unfold divmod at h
  by_cases hbz : isZero b = true
  · rw [if_pos hbz] at h
    simp at h
  · have hb0 : value b ≠ 0 := fun hzero => hbz ((isZero_iff hwb).2 hzero)
    have hbpos := abs_pos.2 hb0
    rw [if_neg hbz] at h
    by_cases haz : isZero a = true
    · rw [if_pos haz] at h
      simp only [Option.some.injEq, Prod.mk.injEq] at h
      obtain ⟨rfl, rfl⟩ := h
      refine iff_of_true ⟨hsmall, hsmall⟩ (.inl ?_)
      rw [(isZero_iff hwa).1 haz, abs_zero]
      exact hbpos
    · rw [if_neg haz] at h
      simp only [Option.bind_eq_bind, Option.bind_eq_some_iff, Option.some.injEq,
        Prod.mk.injEq] at h
      obtain ⟨qm, hdiv, q', hq, r', hr, rfl, rfl⟩ := h
      obtain ⟨hma, hva⟩ := magnitude_spec hwa
      obtain ⟨hmb, hvb⟩ := magnitude_spec hwb
      by_cases hlt : val (magnitude a) < val (magnitude b)
      · rw [magDivmod_lt hma hmb hlt, Option.some.injEq] at hdiv
        subst hdiv
        have hquotient := (make_canonical BigIntKaratsuba.limbsOk_zeroMag hq).2
          (.inl (by rw [BigIntKaratsuba.val_zeroMag]; norm_num))
        have hremainder := (make_canonical hma hr).2 (magnitude_fits ha)
        rw [hva, hvb] at hlt
        exact iff_of_true ⟨hquotient, hremainder⟩ (.inl hlt)
      · obtain ⟨qs, rs, hrun, hqs, hrs, hqval, hrval, hqlen, hrlen⟩ :=
          magDivmod_width hma hmb (by rw [hvb]; exact hbpos) hlt
        rw [hrun, Option.some.injEq] at hdiv
        subst hdiv
        rw [make_canonical hqs hq, make_canonical hrs hr, hqlen, hrlen, hqval, hrval, hva, hvb]
        rw [hva, hvb] at hlt
        simp only [DivFills, hlt, false_or]

/-- The array that a parsed text comes in. -/
def TextFills (ds : Str) : Prop := Fits (textShape ds).2 (textShape ds).1

theorem fromLiteral_canonical {digits : Str} {x : BigInt} (h : fromLiteral digits = some x) :
    Canonical x ↔ TextFills (eraseUnderscores digits) := by
  obtain ⟨mag, ok, hrun, hmag, hval, hlen⟩ := magFromDigits_width (Nat.zero_le _)
    (Nat.le_refl (eraseUnderscores digits).length)
  have hspan : span (eraseUnderscores digits) 0 (eraseUnderscores digits).length =
      eraseUnderscores digits := by simp [span]
  rw [hspan] at hval hlen
  rw [fromLiteral, Option.bind_eq_bind, hrun, Option.bind_some] at h
  rw [make_canonical hmag h, hlen, hval, TextFills]

theorem parseBody_canonical {s : Str} {start : Nat} {sg : Int} {r : Option BigInt}
    (hstart : start ≤ s.length) (h : parseBody s start s.length sg = some r) :
    (∀ x ∈ r, Canonical x) ↔ (AllDigits (s.drop start) → TextFills (s.drop start)) := by
  have hspan : span s start s.length = s.drop start := by
    rw [span, ← List.length_drop, List.take_length]
  obtain ⟨mag, ok, hrun, hmag, hflag, -⟩ := magFromDigits_spec hstart (Nat.le_refl s.length)
  obtain ⟨mag', ok', hrun', -, hval, hlen⟩ := magFromDigits_width hstart (Nat.le_refl s.length)
  rw [hrun] at hrun'
  obtain ⟨rfl, rfl⟩ := Prod.mk.inj (Option.some.inj hrun')
  rw [hspan] at hflag hval hlen
  have hempty : s.drop start = [] → TextFills (s.drop start) := by
    intro hnil
    rw [hnil]
    left
    simp [textShape, parseSplitDigits, digitPrefix, digitsOf]
  unfold parseBody at h
  by_cases hend : start ≥ s.length
  · rw [if_pos hend, Option.some.injEq] at h
    subst h
    exact iff_of_true (by simp) fun _ => hempty (List.drop_eq_nil_of_le hend)
  · rw [if_neg hend, hrun, Option.bind_eq_bind, Option.bind_some] at h
    cases ok with
    | false =>
        rw [if_neg (by simp), Option.some.injEq] at h
        subst h
        exact iff_of_true (by simp) fun hall => absurd (hflag.2 hall) Bool.false_ne_true
    | true =>
        rw [if_pos rfl, Option.bind_eq_bind, Option.bind_eq_some_iff] at h
        obtain ⟨x, hmake, hx⟩ := h
        rw [Option.some.injEq] at hx
        subst hx
        have hall := hflag.1 rfl
        have hcanonical := make_canonical hmag hmake
        rw [hlen, hval] at hcanonical
        simp only [Option.mem_def, Option.some.injEq, forall_eq', hall, true_imp_iff]
        exact hcanonical

/-- A text without its sign. -/
def unsigned (s : Str) : Str :=
  if charAt s 0 = some '-' ∨ charAt s 0 = some '+' then s.drop 1 else s

theorem fromString_canonical {s : Str} {r : Option BigInt} (h : fromString s = some r) :
    (∀ x ∈ r, Canonical x) ↔ (AllDigits (unsigned s) → TextFills (unsigned s)) := by
  unfold fromString at h
  simp only at h
  by_cases hempty : s.length = 0
  · rw [if_pos hempty, Option.some.injEq] at h
    subst h
    have hnil : s = [] := List.length_eq_zero_iff.1 hempty
    subst hnil
    refine iff_of_true (by simp) fun _ => .inl ?_
    simp [unsigned, textShape, parseSplitDigits, digitPrefix, digitsOf]
  · rw [if_neg hempty] at h
    split at h
    · rename_i hminus
      rw [unsigned, if_pos (.inl hminus)]
      exact parseBody_canonical (by omega) h
    · rename_i hplus
      rw [unsigned, if_pos (.inr hplus)]
      exact parseBody_canonical (by omega) h
    · rename_i hminus hplus
      rw [unsigned, if_neg (not_or.2 ⟨hminus, hplus⟩)]
      exact parseBody_canonical (Nat.zero_le _) h

end Kaikai.BigIntCanonical

namespace Kaikai.BigIntArith

open Kaikai.BigIntLimbs
open Kaikai.BigIntWidth
open Kaikai.BigIntCanonical
open Kaikai.Decimal

/-- A call whose results, if they are not inline, have as many limbs as were allocated. -/
def Op.Fills : Op → Prop
  | .fromLiteral digits => TextFills (eraseUnderscores digits)
  | .fromString s => AllDigits (unsigned s) → TextFills (unsigned s)
  | .make _ mag => Fits mag.length (val mag)
  | .add a b => AddFills (value a) (value b)
  | .sub a b => AddFills (value a) (-value b)
  | .mul a b => MulFills (value a) (value b)
  | .divmod a b => value b = 0 ∨ DivFills (value a) (value b)
  | _ => True

theorem Op.results_canonical {op : Op} {xs : List BigInt} (htyped : op.Typed)
    (hargs : ∀ a ∈ op.operands, Canonical a) (hxs : op.results = some xs) :
    (∀ x ∈ xs, Canonical x) ↔ op.Fills := by
  have hsingle : ∀ {m : Option BigInt} {P : Prop}, m.map (fun x => [x]) = some xs →
      (∀ x, m = some x → (Canonical x ↔ P)) → ((∀ x ∈ xs, Canonical x) ↔ P) := by
    intro m P hm hP
    obtain ⟨x, hx, rfl⟩ := Option.map_eq_some_iff.1 hm
    rw [List.forall_mem_singleton]
    exact hP x hx
  have hconst : ∀ {n : Int}, Word64.InRange n → n ≠ minInt → Canonical (.small n) :=
    fun hrange hmin => ⟨hrange, hmin⟩
  cases op with
  | fromInt n =>
      cases hxs
      exact iff_of_true (List.forall_mem_singleton.2 (fromInt_canonical htyped)) trivial
  | fromLiteral digits => exact hsingle hxs fun x hx => fromLiteral_canonical hx
  | fromString s =>
      obtain ⟨r, hr, rfl⟩ := Option.map_eq_some_iff.1 hxs
      simp only [Option.mem_toList]
      exact fromString_canonical hr
  | make sign mag => exact hsingle hxs fun x hx => make_canonical htyped hx
  | zero =>
      cases hxs
      exact iff_of_true (List.forall_mem_singleton.2
        (hconst ⟨by norm_num, by norm_num⟩ (by rw [minInt_eq]; norm_num))) trivial
  | one =>
      cases hxs
      exact iff_of_true (List.forall_mem_singleton.2
        (hconst ⟨by norm_num, by norm_num⟩ (by rw [minInt_eq]; norm_num))) trivial
  | neg a =>
      cases hxs
      exact iff_of_true
        (List.forall_mem_singleton.2 (neg_canonical (hargs a (by simp [operands])))) trivial
  | abs a =>
      cases hxs
      exact iff_of_true
        (List.forall_mem_singleton.2 (abs_canonical (hargs a (by simp [operands])))) trivial
  | add a b =>
      exact hsingle hxs fun x hx =>
        add_canonical (hargs a (by simp [operands])) (hargs b (by simp [operands])) hx
  | sub a b =>
      exact hsingle hxs fun x hx =>
        sub_canonical (hargs a (by simp [operands])) (hargs b (by simp [operands])) hx
  | mul a b =>
      exact hsingle hxs fun x hx => mul_canonical
        (canonical_iff.1 (hargs a (by simp [operands]))).1
        (canonical_iff.1 (hargs b (by simp [operands]))).1 hx
  | divmod a b =>
      have ha := hargs a (by simp [operands])
      have hb := hargs b (by simp [operands])
      have hwb := (canonical_iff.1 hb).1
      obtain ⟨r, hr, rfl⟩ := Option.map_eq_some_iff.1 hxs
      cases r with
      | none =>
          have hzero : value b = 0 := by
            by_contra hne
            obtain ⟨q, r, hrun, -⟩ := divmod_spec (canonical_iff.1 ha).1 hwb hne
            rw [hr] at hrun
            cases hrun
          exact iff_of_true (by simp) (.inl hzero)
      | some p =>
          have hne : value b ≠ 0 := by
            intro hzero
            rw [BigIntArith.divmod, if_pos ((isZero_iff hwb).2 hzero)] at hr
            cases hr
          have hboth := divmod_canonical (q := p.1) (r := p.2) ha hb hr
          simp only [Option.map_some, Option.getD_some, List.forall_mem_cons, Fills, hne,
            false_or]
          rw [← hboth]
          simp

theorem Reached.canonical {x : BigInt} (h : Reached (fun op => op.Typed ∧ op.Fills) x) :
    Canonical x := by
  induction h with
  | step hop _ hxs hx ih => exact (Op.results_canonical hop.1 ih hxs).2 hop.2 _ hx

theorem hashLimbs_isSome {mag : Mag} {n : Nat} (hn : n ≤ mag.length) (i : Nat) (acc : Int) :
    ∃ h, hashLimbs mag i n acc = some h := by
  fun_induction hashLimbs mag i n acc with
  | case1 i acc hend => exact ⟨acc, rfl⟩
  | case2 i acc hlt ih =>
      have hi : i < mag.length := by omega
      rw [arrayGet_eq hi, Option.bind_eq_bind, Option.bind_some]
      exact ih _

theorem bigintHash_isSome (x : BigInt) : ∃ h, bigintHash x = some h :=
  hashLimbs_isSome (sigLen_le_length _) 0 _

/-- Values of calls that all fill their arrays: each is the one representation of its
integer, and values that compare equal hash alike. -/
theorem one_representation {x y : BigInt} (hx : Reached (fun op => op.Typed ∧ op.Fills) x)
    (hy : Reached (fun op => op.Typed ∧ op.Fills) y) : Canonical x ∧
      (value x = value y → x = y) ∧
      (compare x y = some 0 → ∃ h, bigintHash x = some h ∧ bigintHash y = some h) := by
  have hcx := hx.canonical
  have hcy := hy.canonical
  refine ⟨hcx, hcx.eq_of_value_eq hcy, ?_⟩
  intro hcompare
  rw [compare_spec (canonical_iff.1 hcx).1 (canonical_iff.1 hcy).1] at hcompare
  have hvalue : value x = value y := by
    split_ifs at hcompare with hlt hgt
    · simp at hcompare
    · simp at hcompare
    · omega
  obtain ⟨h, hh⟩ := bigintHash_isSome y
  rw [hcx.eq_of_value_eq hcy hvalue]
  exact ⟨h, hh, hh⟩

/-- The square of `2 ^ 62` fills its four limbs. -/
theorem one_representation_square :
    mul (.small (2 ^ 62)) (.small (2 ^ 62)) = some (.big 1 [0, 0, 0, 2 ^ 28]) := by
  have hroot : Reached (fun op => op.Typed ∧ op.Fills) (.small (2 ^ 62)) :=
    @Reached.step _ (.fromInt (2 ^ 62)) [.small (2 ^ 62)] _
      ⟨⟨by norm_num, by norm_num⟩, trivial⟩ (by simp [Op.operands]) (by decide) List.mem_cons_self
  have hfour : limbs (2 ^ 124) = 4 := limbs_eq (by norm_num) (by norm_num)
  have htwo : limbs (2 ^ 62) = 2 := limbs_eq (by norm_num) (by norm_num)
  obtain ⟨x, hx, -, hval⟩ := mul_spec (a := .small (2 ^ 62)) (b := .small (2 ^ 62))
    ⟨by norm_num, by norm_num⟩ ⟨by norm_num, by norm_num⟩
  have hproduct : Reached (fun op => op.Typed ∧ op.Fills) x := by
    refine @Reached.step _ (.mul (.small (2 ^ 62)) (.small (2 ^ 62))) [x] _
      ⟨trivial, .inr ?_⟩ (by simpa [Op.operands] using hroot)
      (by rw [Op.results, hx]; rfl) List.mem_cons_self
    have habs : |value (.small (2 ^ 62))| = 2 ^ 62 := by decide
    have hsquare : |value (.small (2 ^ 62)) * value (.small (2 ^ 62))| = 2 ^ 124 := by decide
    rw [habs, hsquare, mulWidth, mulOrderedWidth, htwo, hfour]
    rfl
  have hmade : Reached (fun op => op.Typed ∧ op.Fills) (.big 1 [0, 0, 0, 2 ^ 28]) := by
    refine @Reached.step _ (.make 1 [0, 0, 0, 2 ^ 28]) [.big 1 [0, 0, 0, 2 ^ 28]] _
      ⟨?_, .inr ?_⟩ (by simp [Op.operands]) rfl List.mem_cons_self
    · unfold Op.Typed LimbsOk Positional.Digits
      decide
    · have hmag : val [0, 0, 0, 2 ^ 28] = 2 ^ 124 := by decide
      rw [hmag, hfour]
      rfl
  rw [hx, (one_representation hproduct hmade).2.1 (by rw [hval]; decide)]

/-- The greatest `Int` twice: the sum keeps the limb allocated for a carry. -/
theorem one_representation_carry : ∃ x y, Reached Op.Typed x ∧ Reached Op.Typed y ∧
    value x = value y ∧ x ≠ y ∧ ¬ Canonical x := by
  have hmax : Reached Op.Typed (.small (2 ^ 63 - 1)) :=
    @Reached.step _ (.fromInt (2 ^ 63 - 1)) [.small (2 ^ 63 - 1)] _
      ⟨by norm_num, by norm_num⟩ (by simp [Op.operands]) (by decide) List.mem_cons_self
  have hcanonical : Canonical (.small (2 ^ 63 - 1)) :=
    canonical_iff.2 ⟨⟨by norm_num, by norm_num⟩, trivial⟩
  have hwf := (canonical_iff.1 hcanonical).1
  obtain ⟨x, hx, -, hval⟩ := add_spec hwf hwf
  have hsum : Reached Op.Typed x := by
    refine @Reached.step _ (.add (.small (2 ^ 63 - 1)) (.small (2 ^ 63 - 1))) [x] _ trivial
      (by simpa [Op.operands] using hmax) (by rw [Op.results, hx]; rfl) List.mem_cons_self
  have hloose : ¬ Canonical x := by
    have htwo : limbs (2 ^ 63 - 1) = 2 := limbs_eq (by norm_num) (by norm_num)
    have hwide : limbs (2 ^ 64 - 2) = 2 := limbs_eq (by norm_num) (by norm_num)
    have habs : |value (.small (2 ^ 63 - 1))| = 2 ^ 63 - 1 := by decide
    have hdouble : |value (.small (2 ^ 63 - 1)) + value (.small (2 ^ 63 - 1))| = 2 ^ 64 - 2 := by
      decide
    rw [add_canonical hcanonical hcanonical hx, AddFills, Fits, hdouble, addWidth, habs, htwo,
      hwide]
    simp [value]
  have hmade : Reached Op.Typed (.big 1 [2 ^ 32 - 2, 2 ^ 32 - 1]) := by
    refine @Reached.step _ (.make 1 [2 ^ 32 - 2, 2 ^ 32 - 1]) [.big 1 [2 ^ 32 - 2, 2 ^ 32 - 1]] _
      ?_ (by simp [Op.operands]) rfl List.mem_cons_self
    unfold Op.Typed LimbsOk Positional.Digits
    decide
  have htight : Canonical (.big 1 [2 ^ 32 - 2, 2 ^ 32 - 1]) := by
    refine ⟨.inl rfl, ?_, by decide, by decide⟩
    unfold LimbsOk Positional.Digits
    decide
  refine ⟨x, _, hsum, hmade, by rw [hval]; decide, ?_, hloose⟩
  intro heq
  exact hloose (heq ▸ htight)

end Kaikai.BigIntArith
