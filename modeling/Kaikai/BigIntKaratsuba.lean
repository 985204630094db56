import Kaikai.BigIntShift

/-!
Karatsuba multiplication of magnitudes: schoolbook below a limb threshold, three
half-size products above it. Unbalanced operands split the longer one only.

The recursive product is a parameter of each splitting step, so that the
recursion itself is one definition by fuel.
-/

namespace Kaikai.BigIntKaratsuba

open Kaikai.BigIntLimbs
open Kaikai.BigIntShift

def karatsubaThreshold : Nat := 24

def mulSplitLong (mulFast : Mag → Mag → Option Mag) (a b : Mag) (na h : Nat) :
    Option Mag := do
  let a0 ← magSlice a 0 h
  let low ← mulFast a0 b
  let a1 ← magSlice a h na
  let high ← mulFast a1 b
  magAddShifted low high h

def mulSplitBoth (mulFast : Mag → Mag → Option Mag) (a b : Mag) (na nb h : Nat) :
    Option Mag := do
  let a0 ← magSlice a 0 h
  let a1 ← magSlice a h na
  let b0 ← magSlice b 0 h
  let b1 ← magSlice b h nb
  let z0 ← mulFast a0 b0
  let z2 ← mulFast a1 b1
  let asum ← magAdd a0 a1
  let bsum ← magAdd b0 b1
  let zm ← mulFast asum bsum
  let zd ← magSub zm z0
  let z1 ← magSub zd z2
  let low ← magAddShifted z0 z1 h
  magAddShifted low z2 (2 * h)

def mulOrdered (mulFast : Mag → Mag → Option Mag) (a b : Mag) (na nb : Nat) :
    Option Mag :=
  if nb < karatsubaThreshold then magMul a b
  else
    let h := (na + 1) / 2
    if nb ≤ h then mulSplitLong mulFast a b na h
    else mulSplitBoth mulFast a b na nb h

/-- `mag_mul_fast` with at most `fuel` nested calls. -/
def magMulFastFuel : Nat → Mag → Mag → Option Mag
  | 0, _, _ => none
  | fuel + 1, a, b =>
      let na := sigLen a
      let nb := sigLen b
      if na < nb then mulOrdered (magMulFastFuel fuel) b a nb na
      else mulOrdered (magMulFastFuel fuel) a b na nb

/-- Every nested call has fewer limbs in its two operands together. -/
def magMulFast (a b : Mag) : Option Mag := magMulFastFuel (sigLen a + sigLen b + 1) a b

/-- A product that is right on operands of fewer than `size` limbs together. -/
def Multiplies (mulFast : Mag → Mag → Option Mag) (size : Nat) : Prop :=
  ∀ a b, LimbsOk a → LimbsOk b → sigLen a + sigLen b < size →
    Returns (mulFast a b) (val a * val b)

theorem val_split (a : Mag) (k : Nat) :
    val a % (2 ^ 32) ^ k + (2 ^ 32) ^ k * (val a / (2 ^ 32) ^ k) = val a :=
  Int.emod_add_mul_ediv _ _

theorem val_mod_bounds (a : Mag) (k : Nat) :
    0 ≤ val a % (2 ^ 32) ^ k ∧ val a % (2 ^ 32) ^ k < (2 ^ 32) ^ k :=
  ⟨Int.emod_nonneg _ (by positivity), Int.emod_lt_of_pos _ (by positivity)⟩

theorem sigLen_high_le {a a1 : Mag} {k n : Nat} (ha : LimbsOk a) (ha1 : LimbsOk a1)
    (hval : val a1 = val a / (2 ^ 32) ^ k) (hn : sigLen a ≤ n + k) : sigLen a1 ≤ n := by
  rw [sigLen_le_iff ha1, hval, Int.ediv_lt_iff_lt_mul (by positivity), ← pow_add]
  exact (sigLen_le_iff ha _).1 hn

theorem sigLen_low_le {a0 : Mag} {k : Nat} {v : Int} (ha0 : LimbsOk a0)
    (hval : val a0 = v % (2 ^ 32) ^ k) : sigLen a0 ≤ k := by
  rw [sigLen_le_iff ha0, hval]
  exact Int.emod_lt_of_pos _ (by positivity)

theorem mulSplitLong_last {mulFast : Mag → Mag → Option Mag} {size : Nat} {a b : Mag}
    (hmul : Multiplies mulFast size) (ha : LimbsOk a) (hb : LimbsOk b) {h : Nat}
    (hsize : sigLen a + sigLen b ≤ size) (hh : h < sigLen a) (hh0 : 0 < h) :
    ∃ low high, LimbsOk low ∧ LimbsOk high ∧ val low = val a % (2 ^ 32) ^ h * val b ∧
      val high = val a / (2 ^ 32) ^ h * val b ∧
      mulSplitLong mulFast a b (sigLen a) h = magAddShifted low high h := by
  obtain ⟨a0, hslice0, ha0, hval0⟩ := magSlice_low ha h
  obtain ⟨a1, hslice1, ha1, hval1⟩ := magSlice_high (k := h) ha le_rfl
  have hlen0 := sigLen_low_le ha0 hval0
  have hlen1 := sigLen_high_le (n := sigLen a - h) ha ha1 hval1 (by omega)
  obtain ⟨low, hlow, hlowok, hlowval⟩ := hmul a0 b ha0 hb (by omega)
  obtain ⟨high, hhigh, hhighok, hhighval⟩ := hmul a1 b ha1 hb (by omega)
  refine ⟨low, high, hlowok, hhighok, by rw [hlowval, hval0], by rw [hhighval, hval1], ?_⟩
  simp only [mulSplitLong, Option.bind_eq_bind, hslice0, hslice1, Option.bind_some, hlow, hhigh]

theorem mulSplitLong_spec {mulFast : Mag → Mag → Option Mag} {size : Nat} {a b : Mag}
    (hmul : Multiplies mulFast size) (ha : LimbsOk a) (hb : LimbsOk b) {h : Nat}
    (hsize : sigLen a + sigLen b ≤ size) (hh : h < sigLen a) (hh0 : 0 < h) :
    Returns (mulSplitLong mulFast a b (sigLen a) h) (val a * val b) := by
  obtain ⟨low, high, hlowok, hhighok, hlowval, hhighval, hlast⟩ :=
    mulSplitLong_last hmul ha hb hsize hh hh0
  obtain ⟨out, hout, houtok, houtval⟩ := magAddShifted_spec hlowok hhighok h
  refine ⟨out, hlast.trans hout, houtok, ?_⟩
  rw [houtval, hlowval, hhighval]
  linear_combination val b * val_split a h

theorem sigLen_sum_le {a b s : Mag} {k : Nat} (ha : LimbsOk a) (hb : LimbsOk b)
    (hs : LimbsOk s) (hval : val s = val a + val b) (hak : sigLen a ≤ k) (hbk : sigLen b ≤ k) :
    sigLen s ≤ k + 1 := by
  have h1 := (sigLen_le_iff ha k).1 hak
  have h2 := (sigLen_le_iff hb k).1 hbk
  have hpos : (0 : Int) < (2 ^ 32) ^ k := by positivity
  rw [sigLen_le_iff hs, hval, pow_succ]
  omega

theorem mulSplitBoth_last {mulFast : Mag → Mag → Option Mag} {size : Nat} {a b : Mag}
    (hmul : Multiplies mulFast size) (ha : LimbsOk a) (hb : LimbsOk b) {h : Nat}
    (hah : sigLen a ≤ 2 * h) (hbh : sigLen b ≤ 2 * h) (hsize : 2 * h + 2 < size) :
    ∃ low high, LimbsOk low ∧ LimbsOk high ∧
      val low = val a % (2 ^ 32) ^ h * (val b % (2 ^ 32) ^ h) +
        (val a % (2 ^ 32) ^ h * (val b / (2 ^ 32) ^ h) +
          val a / (2 ^ 32) ^ h * (val b % (2 ^ 32) ^ h)) * (2 ^ 32) ^ h ∧
      val high = val a / (2 ^ 32) ^ h * (val b / (2 ^ 32) ^ h) ∧
      mulSplitBoth mulFast a b (sigLen a) (sigLen b) h = magAddShifted low high (2 * h) := by
  obtain ⟨a0, hsa0, ha0, hva0⟩ := magSlice_low ha h
  obtain ⟨a1, hsa1, ha1, hva1⟩ := magSlice_high (k := h) ha le_rfl
  obtain ⟨b0, hsb0, hb0, hvb0⟩ := magSlice_low hb h
  obtain ⟨b1, hsb1, hb1, hvb1⟩ := magSlice_high (k := h) hb le_rfl
  have hla0 := sigLen_low_le ha0 hva0
  have hla1 := sigLen_high_le (n := h) ha ha1 hva1 (by omega)
  have hlb0 := sigLen_low_le hb0 hvb0
  have hlb1 := sigLen_high_le (n := h) hb hb1 hvb1 (by omega)
  obtain ⟨z0, hz0, hz0ok, hz0val⟩ := hmul a0 b0 ha0 hb0 (by omega)
  obtain ⟨z2, hz2, hz2ok, hz2val⟩ := hmul a1 b1 ha1 hb1 (by omega)
  obtain ⟨asum, hasum, hasumok, hasumval⟩ := magAdd_spec ha0 ha1
  obtain ⟨bsum, hbsum, hbsumok, hbsumval⟩ := magAdd_spec hb0 hb1
  have hlasum := sigLen_sum_le ha0 ha1 hasumok hasumval hla0 hla1
  have hlbsum := sigLen_sum_le hb0 hb1 hbsumok hbsumval hlb0 hlb1
  obtain ⟨zm, hzm, hzmok, hzmval⟩ := hmul asum bsum hasumok hbsumok (by omega)
  have hcross0 := mul_nonneg (val_nonneg ha0) (val_nonneg hb1)
  have hcross1 := mul_nonneg (val_nonneg ha1) (val_nonneg hb0)
  have htop := mul_nonneg (val_nonneg ha1) (val_nonneg hb1)
  have hmval : val zm = val z0 + val a0 * val b1 + val a1 * val b0 + val z2 := by
    rw [hzmval, hasumval, hbsumval, hz0val, hz2val]
    ring
  obtain ⟨zd, hzd, hzdok, hzdval⟩ := magSub_spec hzmok hz0ok (by rw [hz2val] at hmval; omega)
  obtain ⟨z1, hz1, hz1ok, hz1val⟩ := magSub_spec hzdok hz2ok (by omega)
  obtain ⟨low, hlow, hlowok, hlowval⟩ := magAddShifted_spec hz0ok hz1ok h
  have hz1cross : val z1 = val a0 * val b1 + val a1 * val b0 := by omega
  refine ⟨low, z2, hlowok, hz2ok, ?_, by rw [hz2val, hva1, hvb1], ?_⟩
  · rw [hlowval, hz1cross, hz0val, hva0, hva1, hvb0, hvb1]
  · simp only [mulSplitBoth, Option.bind_eq_bind, Option.bind_some, hsa0, hsa1, hsb0, hsb1, hz0,
      hz2, hasum, hbsum, hzm, hzd, hz1, hlow]

theorem mulSplitBoth_spec {mulFast : Mag → Mag → Option Mag} {size : Nat} {a b : Mag}
    (hmul : Multiplies mulFast size) (ha : LimbsOk a) (hb : LimbsOk b) {h : Nat}
    (hah : sigLen a ≤ 2 * h) (hbh : sigLen b ≤ 2 * h) (hsize : 2 * h + 2 < size) :
    Returns (mulSplitBoth mulFast a b (sigLen a) (sigLen b) h) (val a * val b) := by
  obtain ⟨low, high, hlowok, hhighok, hlowval, hhighval, hlast⟩ :=
    mulSplitBoth_last hmul ha hb hah hbh hsize
  obtain ⟨out, hout, houtok, houtval⟩ := magAddShifted_spec hlowok hhighok (2 * h)
  refine ⟨out, hlast.trans hout, houtok, ?_⟩
  have hasplit := val_split a h
  have hbsplit := val_split b h
  generalize val a % (2 ^ 32) ^ h = a0 at hasplit hlowval
  generalize val a / (2 ^ 32) ^ h = a1 at hasplit hlowval hhighval
  generalize val b % (2 ^ 32) ^ h = b0 at hbsplit hlowval
  generalize val b / (2 ^ 32) ^ h = b1 at hbsplit hlowval hhighval
  rw [houtval, hlowval, hhighval, ← hasplit, ← hbsplit]
  ring

theorem mulOrdered_spec {mulFast : Mag → Mag → Option Mag} {size : Nat} {a b : Mag}
    (hmul : Multiplies mulFast size) (ha : LimbsOk a) (hb : LimbsOk b)
    (hsize : sigLen a + sigLen b ≤ size) (hle : sigLen b ≤ sigLen a) :
    Returns (mulOrdered mulFast a b (sigLen a) (sigLen b)) (val a * val b) := by
  unfold mulOrdered
  by_cases hsmall : sigLen b < karatsubaThreshold
  · rw [if_pos hsmall]
    exact magMul_spec ha hb
  · rw [if_neg hsmall]
    simp only [karatsubaThreshold] at hsmall
    by_cases hlong : sigLen b ≤ (sigLen a + 1) / 2
    · rw [if_pos hlong]
      exact mulSplitLong_spec hmul ha hb hsize (by omega) (by omega)
    · rw [if_neg hlong]
      exact mulSplitBoth_spec hmul ha hb (by omega) (by omega) (by omega)

theorem magMulFastFuel_spec (fuel : Nat) : Multiplies (magMulFastFuel fuel) fuel := by
  induction fuel with
  | zero => exact fun _ _ _ _ h => absurd h (Nat.not_lt_zero _)
  | succ fuel ih =>
      intro a b ha hb hsize
      rw [magMulFastFuel]
      by_cases hlt : sigLen a < sigLen b
      · simp only [if_pos hlt]
        rw [mul_comm]
        exact mulOrdered_spec ih hb ha (by omega) (by omega)
      · simp only [if_neg hlt]
        exact mulOrdered_spec ih ha hb (by omega) (by omega)

theorem magMulFast_spec {a b : Mag} (ha : LimbsOk a) (hb : LimbsOk b) :
    Returns (magMulFast a b) (val a * val b) :=
  magMulFastFuel_spec _ a b ha hb (Nat.lt_succ_self _)

/-- The magnitude that both the reader and the division start from. -/
def zeroMag : Mag := arrayMake 1 0

theorem limbsOk_zeroMag : LimbsOk zeroMag := Positional.Digits.replicate_zero (by norm_num) 1

@[simp] theorem val_zeroMag : val zeroMag = 0 := Positional.value_replicate_zero _ 1

end Kaikai.BigIntKaratsuba
