import Kaikai.Positional
import Kaikai.Word64

/-!
Unsigned magnitudes on little-endian base-`2 ^ 32` limbs. Arrays are lists,
reads and writes outside an array trap, and every `Int` operation is the
64-bit one of `Kaikai.Word64`.
-/

namespace Kaikai.BigIntLimbs

open Kaikai.Positional
open Kaikai.Word64

abbrev Mag := List Int

/-- `array[i]`. -/
def arrayGet (a : Mag) (i : Nat) : Option Int := a[i]?

/-- `array[i] := v`. -/
def arraySet (a : Mag) (i : Nat) (v : Int) : Option Mag :=
  if i < a.length then some (a.set i v) else none

def arrayMake (n : Nat) (v : Int) : Mag := List.replicate n v

def limbRadix : Int := bitShl 1 32

def limbLo (x : Int) : Int := bitAnd x (sub (bitShl 1 32) 1)

def limbHi (x : Int) : Int := bitUshr x 32

/-- The scan is only started at the array's length, so `mag[n - 1]` is never
outside the array. -/
def sigLenFrom (mag : Mag) : Nat → Nat
  | 0 => 0
  | n + 1 => if mag.getD n 0 = 0 then sigLenFrom mag n else n + 1

def sigLen (mag : Mag) : Nat := sigLenFrom mag mag.length

def magCmpLimbs (a b : Mag) : Nat → Option Int
  | 0 => some 0
  | i + 1 => do
      let x ← arrayGet a i
      let y ← arrayGet b i
      if x < y then some (sub 0 1)
      else if x > y then some 1
      else magCmpLimbs a b i

def magCmp (a b : Mag) : Option Int :=
  let na := sigLen a
  let nb := sigLen b
  if na < nb then some (sub 0 1)
  else if na > nb then some 1
  else magCmpLimbs a b na

/-- `if i < n { a[i] } else { 0 }`. -/
def limbBelow (a : Mag) (n i : Nat) : Option Int :=
  if i < n then arrayGet a i else some 0

/-- The loop of `mag_add`; the carry goes into the top limb at its end. -/
def magAddLoop (a b : Mag) (na nb n i : Nat) (carry : Int) (out : Mag) : Option Mag :=
  if i < n then do
    let av ← limbBelow a na i
    let bv ← limbBelow b nb i
    let s := add (add av bv) carry
    let out1 ← arraySet out i (limbLo s)
    magAddLoop a b na nb n (i + 1) (limbHi s) out1
  else arraySet out n carry
termination_by n - i

def magAdd (a b : Mag) : Option Mag :=
  let na := sigLen a
  let nb := sigLen b
  let n := if na > nb then na else nb
  magAddLoop a b na nb n 0 0 (arrayMake (n + 1) 0)

def magSubLoop (a b : Mag) (na nb i : Nat) (borrow : Int) (out : Mag) : Option Mag :=
  if i < na then do
    let bv ← limbBelow b nb i
    let av ← arrayGet a i
    let d := sub (sub av bv) borrow
    if d < 0 then do
      let out1 ← arraySet out i (add d limbRadix)
      magSubLoop a b na nb (i + 1) 1 out1
    else do
      let out1 ← arraySet out i d
      magSubLoop a b na nb (i + 1) 0 out1
  else some out
termination_by na - i

/-- The difference `a - b`, for `a` at least `b`. -/
def magSub (a b : Mag) : Option Mag :=
  let na := sigLen a
  let nb := sigLen b
  magSubLoop a b na nb 0 0 (arrayMake na 0)

/-- The inner loop of `mag_mul`: one limb `xhi * 2 ^ 16 + xlo` of `a` times all
of `b`, accumulated from `out[i]` up. -/
def magMulInner (b : Mag) (nb i : Nat) (xlo xhi : Int) (j : Nat) (carry : Int)
    (out : Mag) : Option Mag :=
  if j < nb then do
    let y ← arrayGet b j
    let ylo := bitAnd y 65535
    let yhi := bitUshr y 16
    let mid := add (mul xhi ylo) (mul xlo yhi)
    let lo := add (mul xlo ylo) (mul (bitAnd mid 65535) 65536)
    let old ← arrayGet out (i + j)
    let cur := add (add old (bitAnd lo 4294967295)) carry
    let out1 ← arraySet out (i + j) (bitAnd cur 4294967295)
    magMulInner b nb i xlo xhi (j + 1)
      (add (add (add (mul xhi yhi) (bitUshr mid 16)) (bitUshr lo 32)) (bitUshr cur 32)) out1
  else arraySet out (i + nb) carry
termination_by nb - j

def magMulLoop (a b : Mag) (na nb i : Nat) (out : Mag) : Option Mag :=
  if i < na then do
    let x ← arrayGet a i
    let out1 ← magMulInner b nb i (bitAnd x 65535) (bitUshr x 16) 0 0 out
    magMulLoop a b na nb (i + 1) out1
  else some out
termination_by na - i

def magMul (a b : Mag) : Option Mag :=
  let na := sigLen a
  let nb := sigLen b
  magMulLoop a b na nb 0 (arrayMake (na + nb) 0)

def magMuladdLimbLoop (a : Mag) (m : Int) (n i : Nat) (carry : Int) (out : Mag) :
    Option Mag :=
  if i < n then do
    let x ← arrayGet a i
    let cur := add (mul x m) carry
    let out1 ← arraySet out i (limbLo cur)
    magMuladdLimbLoop a m n (i + 1) (limbHi cur) out1
  else arraySet out n carry
termination_by n - i

/-- The magnitude `a * m + c`, for `m` below `2 ^ 30` and `c` below `2 ^ 32`. -/
def magMuladdLimb (a : Mag) (m c : Int) : Option Mag :=
  let n := sigLen a
  magMuladdLimbLoop a m n 0 c (arrayMake (n + 1) 0)

/-- A magnitude whose entries are limbs. -/
def LimbsOk (a : Mag) : Prop := Digits (2 ^ 32) a

/-- The natural number a magnitude stands for. -/
def val (a : Mag) : Int := value (2 ^ 32) a

/-- A computation that does not trap and returns limbs of the given value. -/
def Returns (m : Option Mag) (v : Int) : Prop :=
  ∃ out, m = some out ∧ LimbsOk out ∧ val out = v

theorem val_nonneg {a : Mag} (ha : LimbsOk a) : 0 ≤ val a :=
  value_nonneg (by norm_num) ha

theorem limbRadix_eq : limbRadix = 2 ^ 32 := by decide

theorem limbLo_eq {x : Int} (hlow : 0 ≤ x) (hhigh : x < 2 ^ 63) :
    limbLo x = x % 2 ^ 32 := by
  rw [limbLo, show sub (bitShl 1 32) 1 = 2 ^ 32 - 1 by decide]
  exact bitAnd_mask 32 hlow hhigh (by norm_num)

theorem limbHi_eq {x : Int} (hlow : 0 ≤ x) (hhigh : x < 2 ^ 63) :
    limbHi x = x / 2 ^ 32 :=
  bitUshr_eq 32 hlow hhigh (by norm_num)

theorem arrayGet_eq {a : Mag} {i : Nat} (hi : i < a.length) :
    arrayGet a i = some (a.getD i 0) := by
  rw [arrayGet, List.getElem?_eq_getElem hi, List.getD_eq_getElem]

theorem limbBelow_eq {a : Mag} {n : Nat} (hn : n ≤ a.length) (i : Nat) :
    limbBelow a n i = some (digitAt a n i) := by
  unfold limbBelow digitAt
  split
  · exact arrayGet_eq (by omega)
  · rfl

theorem sigLenFrom_le (mag : Mag) (n : Nat) : sigLenFrom mag n ≤ n := by
  induction n with
  | zero => exact le_refl 0
  | succ n ih =>
      unfold sigLenFrom
      split
      · omega
      · exact le_refl _

theorem sigLen_le_length (mag : Mag) : sigLen mag ≤ mag.length := sigLenFrom_le _ _

theorem getD_sigLenFrom (mag : Mag) (n j : Nat) (hlow : sigLenFrom mag n ≤ j)
    (hhigh : j < n) : mag.getD j 0 = 0 := by
  induction n with
  | zero => omega
  | succ n ih =>
      unfold sigLenFrom at hlow
      split at hlow
      · rename_i hzero
        rcases Nat.lt_or_eq_of_le (Nat.le_of_lt_succ hhigh) with hj | rfl
        · exact ih hlow hj
        · exact hzero
      · omega

theorem getD_sigLen (mag : Mag) (j : Nat) (hlow : sigLen mag ≤ j) : mag.getD j 0 = 0 := by
  by_cases hj : j < mag.length
  · exact getD_sigLenFrom mag mag.length j hlow hj
  · exact List.getD_eq_default _ _ (by omega)

theorem getD_sigLenFrom_pred (mag : Mag) (n : Nat) (h : 0 < sigLenFrom mag n) :
    mag.getD (sigLenFrom mag n - 1) 0 ≠ 0 := by
  induction n with
  | zero => exact absurd h (by simp [sigLenFrom])
  | succ n ih =>
      unfold sigLenFrom at h ⊢
      split
      · rename_i hzero
        rw [if_pos hzero] at h
        exact ih h
      · simpa

theorem getD_sigLen_pred {mag : Mag} (h : 0 < sigLen mag) :
    mag.getD (sigLen mag - 1) 0 ≠ 0 :=
  getD_sigLenFrom_pred mag mag.length h

theorem val_eq_window (a : Mag) : val a = window (2 ^ 32) a 0 (sigLen a) :=
  value_eq_window _ (sigLen_le_length a) (getD_sigLen a)

theorem sigLen_le_iff {a : Mag} (ha : LimbsOk a) (k : Nat) :
    sigLen a ≤ k ↔ val a < (2 ^ 32) ^ k := by
  constructor
  · intro h
    rw [val_eq_window]
    refine (window_lt (by norm_num) ha _ _).trans_le ?_
    exact pow_le_pow_right₀ (by norm_num) (by omega)
  · intro h
    by_contra hk
    have hpos : 0 < sigLen a := by omega
    have htop := getD_sigLen_pred hpos
    have hbound := Digits.getD (by norm_num) ha (sigLen a - 1)
    have hlast : window (2 ^ 32) a (sigLen a - 1) (sigLen a) = a.getD (sigLen a - 1) 0 := by
      rw [window_step _ (sigLen_le_length a), digitAt, if_pos (by omega),
        window_of_le _ _ (by omega)]
      ring
    have hlow := window_nonneg (r := 2 ^ 32) (by norm_num) ha 0 (sigLen a - 1)
    have hsplit : val a = window (2 ^ 32) a 0 (sigLen a - 1) +
        (2 ^ 32) ^ (sigLen a - 1) * a.getD (sigLen a - 1) 0 := by
      rw [val_eq_window, window_split _ (Nat.zero_le (sigLen a - 1)) (by omega)
        (sigLen_le_length a), hlast, Nat.sub_zero]
    have hpow : ((2 : Int) ^ 32) ^ k ≤ (2 ^ 32) ^ (sigLen a - 1) :=
      pow_le_pow_right₀ (by norm_num) (by omega)
    have hone : (1 : Int) ≤ a.getD (sigLen a - 1) 0 := by omega
    have hmul : ((2 : Int) ^ 32) ^ (sigLen a - 1) * 1 ≤
        (2 ^ 32) ^ (sigLen a - 1) * a.getD (sigLen a - 1) 0 :=
      mul_le_mul_of_nonneg_left hone (by positivity)
    omega

theorem sigLen_eq_zero_iff {a : Mag} (ha : LimbsOk a) : sigLen a = 0 ↔ val a = 0 := by
  have h := sigLen_le_iff ha 0
  have hnonneg := val_nonneg ha
  rw [pow_zero] at h
  omega

/-- An output array whose limbs from index `i` on are still untouched. -/
structure Filling (out : Mag) (n i : Nat) : Prop where
  length_eq : out.length = n
  limbs : LimbsOk out
  untouched : ∀ j, i ≤ j → out.getD j 0 = 0

theorem filling_arrayMake (n : Nat) : Filling (arrayMake n 0) n 0 where
  length_eq := List.length_replicate
  limbs := Digits.replicate_zero (by norm_num) n
  untouched j _ := by
    by_cases hj : j < n
    · rw [arrayMake, List.getD_eq_getElem _ _ (by simpa using hj), List.getElem_replicate]
    · exact List.getD_eq_default _ _ (by simpa [arrayMake] using hj)

@[simp] theorem val_arrayMake (n : Nat) : val (arrayMake n 0) = 0 :=
  value_replicate_zero _ n

theorem Filling.arraySet {out : Mag} {n i : Nat} {v : Int} (h : Filling out n i)
    (hi : i < n) (hlow : 0 ≤ v) (hhigh : v < 2 ^ 32) :
    ∃ out', arraySet out i v = some out' ∧ Filling out' n (i + 1) ∧
      val out' = val out + (2 ^ 32) ^ i * v := by
  have hlen : i < out.length := by rw [h.length_eq]; exact hi
  refine ⟨out.set i v, if_pos hlen, ⟨?_, h.limbs.set i hlow hhigh, ?_⟩, ?_⟩
  · rw [List.length_set, h.length_eq]
  · intro j hj
    rw [List.getD_eq_getElem?_getD, List.getElem?_set_ne (by omega),
      ← List.getD_eq_getElem?_getD]
    exact h.untouched j (by omega)
  · rw [val, value_set _ hlen, h.untouched i le_rfl, sub_zero]
    rfl

theorem limb_split {s : Int} (hlow : 0 ≤ s) (hhigh : s < 2 ^ 63) :
    0 ≤ limbLo s ∧ limbLo s < 2 ^ 32 ∧ 0 ≤ limbHi s ∧
      limbLo s + 2 ^ 32 * limbHi s = s := by
  rw [limbLo_eq hlow hhigh, limbHi_eq hlow hhigh]
  omega

theorem magAddLoop_spec {a b : Mag} {na nb n : Nat} (ha : LimbsOk a) (hb : LimbsOk b)
    (hna : na ≤ a.length) (hnb : nb ≤ b.length) (hnan : na ≤ n) (hnbn : nb ≤ n) :
    ∀ k i carry out, i + k = n → Filling out (n + 1) i → 0 ≤ carry → carry ≤ 1 →
      Returns (magAddLoop a b na nb n i carry out)
        (val out + (2 ^ 32) ^ i *
          (window (2 ^ 32) a i na + window (2 ^ 32) b i nb + carry)) := by
  intro k
  induction k with
  | zero =>
      intro i carry out hik hfill hlow hhigh
      obtain ⟨out', hset, hfill', hval⟩ := hfill.arraySet (by omega) hlow (by omega)
      refine ⟨out', ?_, hfill'.limbs, ?_⟩
      · rw [magAddLoop, if_neg (by omega), show n = i by omega, hset]
      · rw [hval, window_of_le _ _ (by omega), window_of_le _ _ (by omega)]
        ring
  | succ k ih =>
      intro i carry out hik hfill hlow hhigh
      have hda := digitAt_bounds (by norm_num) ha na i
      have hdb := digitAt_bounds (by norm_num) hb nb i
      have hsum : add (add (digitAt a na i) (digitAt b nb i)) carry =
          digitAt a na i + digitAt b nb i + carry := by
        rw [add_eq (x := digitAt a na i) (by omega) (by omega),
          add_eq (by omega) (by omega)]
      obtain ⟨hlo, hlo', hhi, hsplit⟩ := limb_split
        (s := digitAt a na i + digitAt b nb i + carry) (by omega) (by omega)
      obtain ⟨out', hset, hfill', hval⟩ := hfill.arraySet (by omega) hlo hlo'
      obtain ⟨res, hrun, hlimbs, hres⟩ := ih (i + 1)
        (limbHi (digitAt a na i + digitAt b nb i + carry)) out' (by omega) hfill' hhi
        (by omega)
      refine ⟨res, ?_, hlimbs, ?_⟩
      · rw [magAddLoop, if_pos (by omega), limbBelow_eq hna, limbBelow_eq hnb]
        simp only [Option.bind_eq_bind, Option.bind_some, hsum, hset, hrun]
      · rw [hres, hval, window_step _ hna i, window_step _ hnb i]
        linear_combination (2 ^ 32) ^ i * hsplit

theorem magAdd_spec {a b : Mag} (ha : LimbsOk a) (hb : LimbsOk b) :
    Returns (magAdd a b) (val a + val b) := by
  have hmax : sigLen a ≤ (if sigLen a > sigLen b then sigLen a else sigLen b) ∧
      sigLen b ≤ (if sigLen a > sigLen b then sigLen a else sigLen b) := by
    split <;> omega
  have h := magAddLoop_spec ha hb (sigLen_le_length a) (sigLen_le_length b) hmax.1 hmax.2
    _ 0 0 _ (Nat.zero_add _) (filling_arrayMake _) le_rfl (by norm_num)
  rw [val_eq_window a, val_eq_window b]
  simpa [magAdd] using h

theorem magSubLoop_spec {a b : Mag} {na nb : Nat} (ha : LimbsOk a) (hb : LimbsOk b)
    (hna : na ≤ a.length) (hnb : nb ≤ b.length) :
    ∀ k i borrow out, i + k = na → Filling out na i → 0 ≤ borrow → borrow ≤ 1 →
      window (2 ^ 32) b i nb + borrow ≤ window (2 ^ 32) a i na →
      Returns (magSubLoop a b na nb i borrow out)
        (val out + (2 ^ 32) ^ i *
          (window (2 ^ 32) a i na - window (2 ^ 32) b i nb - borrow)) := by
  intro k
  induction k with
  | zero =>
      intro i borrow out hik hfill hlow hhigh hle
      have hb0 := window_nonneg (r := 2 ^ 32) (by norm_num) hb i nb
      rw [window_of_le _ a (by omega)] at hle ⊢
      refine ⟨out, ?_, hfill.limbs, ?_⟩
      · rw [magSubLoop, if_neg (by omega)]
      · rw [show window (2 ^ 32) b i nb = 0 by omega, show borrow = 0 by omega]
        ring
  | succ k ih =>
      intro i borrow out hik hfill hlow hhigh hle
      have hda := digitAt_bounds (by norm_num) ha na i
      have hdb := digitAt_bounds (by norm_num) hb nb i
      have hget : arrayGet a i = some (digitAt a na i) := by
        rw [arrayGet_eq (by omega), digitAt, if_pos (by omega)]
      have hdiff : sub (sub (digitAt a na i) (digitAt b nb i)) borrow =
          digitAt a na i - digitAt b nb i - borrow := by
        rw [sub_eq (x := digitAt a na i) (by omega) (by omega),
          sub_eq (by omega) (by omega)]
      rw [window_step _ hna i, window_step _ hnb i] at hle
      by_cases hneg : digitAt a na i - digitAt b nb i - borrow < 0
      · have hadd : add (digitAt a na i - digitAt b nb i - borrow) limbRadix =
            digitAt a na i - digitAt b nb i - borrow + 2 ^ 32 := by
          rw [limbRadix_eq, add_eq (by omega) (by omega)]
        obtain ⟨out', hset, hfill', hval⟩ := hfill.arraySet
          (v := digitAt a na i - digitAt b nb i - borrow + 2 ^ 32)
          (by omega) (by omega) (by omega)
        obtain ⟨res, hrun, hlimbs, hres⟩ := ih (i + 1) 1 out' (by omega) hfill'
          (by norm_num) le_rfl (by omega)
        refine ⟨res, ?_, hlimbs, ?_⟩
        · rw [magSubLoop, if_pos (by omega), limbBelow_eq hnb, hget]
          simp only [Option.bind_eq_bind, Option.bind_some, hdiff, if_pos hneg, hadd, hset,
            hrun]
        · rw [hres, hval, window_step _ hna i, window_step _ hnb i]
          ring
      · obtain ⟨out', hset, hfill', hval⟩ := hfill.arraySet
          (v := digitAt a na i - digitAt b nb i - borrow) (by omega) (by omega) (by omega)
        obtain ⟨res, hrun, hlimbs, hres⟩ := ih (i + 1) 0 out' (by omega) hfill'
          le_rfl (by norm_num) (by omega)
        refine ⟨res, ?_, hlimbs, ?_⟩
        · rw [magSubLoop, if_pos (by omega), limbBelow_eq hnb, hget]
          simp only [Option.bind_eq_bind, Option.bind_some, hdiff, if_neg hneg, hset, hrun]
        · rw [hres, hval, window_step _ hna i, window_step _ hnb i]
          ring

theorem magSub_spec {a b : Mag} (ha : LimbsOk a) (hb : LimbsOk b)
    (hle : val b ≤ val a) : Returns (magSub a b) (val a - val b) := by
  have hwin := hle
  rw [val_eq_window a, val_eq_window b] at hwin
  have h := magSubLoop_spec ha hb (sigLen_le_length a) (sigLen_le_length b)
    _ 0 0 _ (Nat.zero_add _) (filling_arrayMake _) le_rfl (by norm_num) (by omega)
  rw [val_eq_window a, val_eq_window b]
  simpa [magSub] using h

theorem half_product {u v : Int} (hu : 0 ≤ u) (hu' : u < 65536) (hv : 0 ≤ v)
    (hv' : v < 65536) : 0 ≤ u * v ∧ u * v ≤ 65535 * 65535 :=
  ⟨mul_nonneg hu hv, mul_le_mul (by omega) (by omega) hv (by norm_num)⟩

theorem limb_halves {x : Int} (hlow : 0 ≤ x) (hhigh : x < 2 ^ 32) :
    bitAnd x 65535 = x % 65536 ∧ bitUshr x 16 = x / 65536 :=
  ⟨bitAnd_mask 16 hlow (by omega) (by norm_num),
    bitUshr_eq 16 hlow (by omega) (by norm_num)⟩

/-- The middle and low partial sums of a product of two limbs, as the multiply
loops compute them from 16-bit halves. -/
structure PartialProduct (x y mid lo : Int) : Prop where
  mid_eq : add (mul (x / 65536) (y % 65536)) (mul (x % 65536) (y / 65536)) = mid
  lo_eq : add (mul (x % 65536) (y % 65536)) (mul (bitAnd mid 65535) 65536) = lo
  mid_bounds : 0 ≤ mid ∧ mid < 2 ^ 33
  lo_bounds : 0 ≤ lo ∧ lo < 2 ^ 33
  high_eq : mul (x / 65536) (y / 65536) = x / 65536 * (y / 65536)
  high_bounds : 0 ≤ x / 65536 * (y / 65536) ∧ x / 65536 * (y / 65536) ≤ 65535 * 65535
  product : 2 ^ 32 * (x / 65536 * (y / 65536) + mid / 65536) + lo = x * y

theorem partialProduct {x y : Int} (hx : 0 ≤ x) (hx' : x < 2 ^ 32) (hy : 0 ≤ y)
    (hy' : y < 2 ^ 32) :
    PartialProduct x y (x / 65536 * (y % 65536) + x % 65536 * (y / 65536))
      (x % 65536 * (y % 65536) +
        (x / 65536 * (y % 65536) + x % 65536 * (y / 65536)) % 65536 * 65536) := by
  have hhl := half_product (u := x / 65536) (v := y % 65536)
    (by omega) (by omega) (by omega) (by omega)
  have hlh := half_product (u := x % 65536) (v := y / 65536)
    (by omega) (by omega) (by omega) (by omega)
  have hll := half_product (u := x % 65536) (v := y % 65536)
    (by omega) (by omega) (by omega) (by omega)
  have hhh := half_product (u := x / 65536) (v := y / 65536)
    (by omega) (by omega) (by omega) (by omega)
  have hmask : bitAnd (x / 65536 * (y % 65536) + x % 65536 * (y / 65536)) 65535 =
      (x / 65536 * (y % 65536) + x % 65536 * (y / 65536)) % 65536 :=
    bitAnd_mask 16 (by omega) (by omega) (by norm_num)
  refine ⟨?_, ?_, by omega, by omega, ?_, hhh, ?_⟩
  · rw [mul_eq (x := x / 65536) (by omega) (by omega),
      mul_eq (x := x % 65536) (by omega) (by omega), add_eq (by omega) (by omega)]
  · rw [hmask, mul_eq (x := x % 65536) (by omega) (by omega),
      mul_eq (y := 65536) (by omega) (by omega), add_eq (by omega) (by omega)]
  · exact mul_eq (by omega) (by omega)
  · have hxs : x = x / 65536 * 65536 + x % 65536 := by omega
    have hys : y = y / 65536 * 65536 + y % 65536 := by omega
    have hms := Int.emod_add_mul_ediv
      (x / 65536 * (y % 65536) + x % 65536 * (y / 65536)) 65536
    calc
      _ = (x / 65536 * 65536 + x % 65536) * (y / 65536 * 65536 + y % 65536) := by
          linear_combination 65536 * hms
      _ = x * y := by rw [← hxs, ← hys]

/-- One column of the schoolbook product: the limb it leaves and the carry out
of it, from the limb already there and the carry into it. -/
theorem mul_column {x y mid lo old carry : Int} (h : PartialProduct x y mid lo)
    (hx : 0 ≤ x) (hx' : x < 2 ^ 32) (hy : 0 ≤ y) (hy' : y < 2 ^ 32)
    (hold : 0 ≤ old) (hold' : old < 2 ^ 32) (hcarry : 0 ≤ carry) (hcarry' : carry < 2 ^ 32) :
    ∃ cur limb next,
      add (add old (bitAnd lo 4294967295)) carry = cur ∧
      bitAnd cur 4294967295 = limb ∧
      add (add (add (mul (x / 65536) (y / 65536)) (bitUshr mid 16)) (bitUshr lo 32))
        (bitUshr cur 32) = next ∧
      0 ≤ limb ∧ limb < 2 ^ 32 ∧ 0 ≤ next ∧ next < 2 ^ 32 ∧
      limb + 2 ^ 32 * next = old + x * y + carry := by
  have hlo := h.lo_bounds
  have hmid := h.mid_bounds
  have hhigh := h.high_bounds
  have hprod := h.product
  have hxy : x * y ≤ (2 ^ 32 - 1) * (2 ^ 32 - 1) :=
    mul_le_mul (by omega) (by omega) hy (by norm_num)
  have hlomask : bitAnd lo 4294967295 = lo % 2 ^ 32 :=
    bitAnd_mask 32 hlo.1 (by omega) (by norm_num)
  have hmidshift : bitUshr mid 16 = mid / 65536 :=
    bitUshr_eq 16 hmid.1 (by omega) (by norm_num)
  have hloshift : bitUshr lo 32 = lo / 2 ^ 32 :=
    bitUshr_eq 32 hlo.1 (by omega) (by norm_num)
  have hcur : add (add old (lo % 2 ^ 32)) carry = old + lo % 2 ^ 32 + carry := by
    rw [add_eq (x := old) (by omega) (by omega), add_eq (by omega) (by omega)]
  have hcurmask : bitAnd (old + lo % 2 ^ 32 + carry) 4294967295 =
      (old + lo % 2 ^ 32 + carry) % 2 ^ 32 :=
    bitAnd_mask 32 (by omega) (by omega) (by norm_num)
  have hcurshift : bitUshr (old + lo % 2 ^ 32 + carry) 32 =
      (old + lo % 2 ^ 32 + carry) / 2 ^ 32 :=
    bitUshr_eq 32 (by omega) (by omega) (by norm_num)
  refine ⟨old + lo % 2 ^ 32 + carry, (old + lo % 2 ^ 32 + carry) % 2 ^ 32,
    x / 65536 * (y / 65536) + mid / 65536 + lo / 2 ^ 32 + (old + lo % 2 ^ 32 + carry) / 2 ^ 32,
    by rw [hlomask, hcur], hcurmask, ?_, by omega, by omega, by omega, ?_, by omega⟩
  · rw [h.high_eq, hmidshift, hloshift, hcurshift,
      add_eq (x := x / 65536 * (y / 65536)) (by omega) (by omega),
      add_eq (y := lo / 2 ^ 32) (by omega) (by omega), add_eq (by omega) (by omega)]
  · omega

theorem Filling.overwrite {out : Mag} {n i k : Nat} {v : Int} (h : Filling out n i)
    (hk : k < i) (hkn : k < n) (hlow : 0 ≤ v) (hhigh : v < 2 ^ 32) :
    ∃ out', BigIntLimbs.arraySet out k v = some out' ∧ Filling out' n i ∧
      val out' = val out + (2 ^ 32) ^ k * (v - out.getD k 0) := by
  have hlen : k < out.length := by rw [h.length_eq]; exact hkn
  refine ⟨out.set k v, if_pos hlen, ⟨?_, h.limbs.set k hlow hhigh, ?_⟩, value_set _ hlen v⟩
  · rw [List.length_set, h.length_eq]
  · intro j hj
    rw [List.getD_eq_getElem?_getD, List.getElem?_set_ne (by omega),
      ← List.getD_eq_getElem?_getD]
    exact h.untouched j hj

theorem magMulInner_spec {b : Mag} {nb n i : Nat} {x : Int} (hb : LimbsOk b)
    (hnb : nb ≤ b.length) (hin : i + nb < n) (hx : 0 ≤ x) (hx' : x < 2 ^ 32) :
    ∀ k j carry out, j + k = nb → Filling out n (i + nb) → 0 ≤ carry → carry < 2 ^ 32 →
      ∃ out', magMulInner b nb i (x % 65536) (x / 65536) j carry out = some out' ∧
        Filling out' n (i + nb + 1) ∧
        val out' = val out + (2 ^ 32) ^ (i + j) * (x * window (2 ^ 32) b j nb + carry) := by
  intro k
  induction k with
  | zero =>
      intro j carry out hjk hfill hlow hhigh
      obtain ⟨out', hset, hfill', hval⟩ := hfill.arraySet hin hlow hhigh
      refine ⟨out', ?_, hfill', ?_⟩
      · rw [magMulInner, if_neg (by omega), hset]
      · rw [hval, window_of_le _ _ (by omega), show j = nb by omega]
        ring
  | succ k ih =>
      intro j carry out hjk hfill hlow hhigh
      have hy := Digits.getD (r := 2 ^ 32) (by norm_num) hb j
      have hold := Digits.getD (r := 2 ^ 32) (by norm_num) hfill.limbs (i + j)
      have hpart := partialProduct hx hx' hy.1 hy.2
      obtain ⟨hylo, hyhi⟩ := limb_halves hy.1 hy.2
      obtain ⟨cur, limb, next, hcur, hlimb, hnext, hlimb0, hlimb1, hnext0, hnext1, hcol⟩ :=
        mul_column hpart hx hx' hy.1 hy.2 hold.1 hold.2 hlow hhigh
      obtain ⟨out1, hset, hfill1, hval1⟩ := hfill.overwrite (k := i + j) (by omega) (by omega)
        hlimb0 hlimb1
      obtain ⟨out', hrun, hfill', hval'⟩ := ih (j + 1) next out1 (by omega) hfill1 hnext0 hnext1
      refine ⟨out', ?_, hfill', ?_⟩
      · rw [magMulInner, if_pos (by omega), arrayGet_eq (a := b) (by omega),
          arrayGet_eq (a := out) (by rw [hfill.length_eq]; omega)]
        simp only [Option.bind_eq_bind, Option.bind_some, hylo, hyhi, hpart.mid_eq, hpart.lo_eq,
          hcur, hlimb, hnext, hset, hrun]
      · rw [hval', hval1, window_step _ hnb j, digitAt, if_pos (by omega)]
        linear_combination (2 ^ 32) ^ (i + j) * hcol

theorem magMulLoop_spec {a b : Mag} {na nb : Nat} (ha : LimbsOk a) (hb : LimbsOk b)
    (hna : na ≤ a.length) (hnb : nb ≤ b.length) :
    ∀ k i out, i + k = na → Filling out (na + nb) (i + nb) →
      Returns (magMulLoop a b na nb i out)
        (val out + (2 ^ 32) ^ i * (window (2 ^ 32) a i na * window (2 ^ 32) b 0 nb)) := by
  intro k
  induction k with
  | zero =>
      intro i out hik hfill
      refine ⟨out, ?_, hfill.limbs, ?_⟩
      · rw [magMulLoop, if_neg (by omega)]
      · rw [window_of_le _ a (by omega)]
        ring
  | succ k ih =>
      intro i out hik hfill
      have hx := Digits.getD (r := 2 ^ 32) (by norm_num) ha i
      obtain ⟨hxlo, hxhi⟩ := limb_halves hx.1 hx.2
      obtain ⟨out1, hinner, hfill1, hval1⟩ := magMulInner_spec (n := na + nb) (i := i) hb hnb
        (by omega) hx.1 hx.2 nb 0 0 out (Nat.zero_add _) hfill le_rfl (by norm_num)
      obtain ⟨res, hrun, hlimbs, hres⟩ := ih (i + 1) out1 (by omega)
        (by rwa [Nat.add_right_comm] at hfill1)
      refine ⟨res, ?_, hlimbs, ?_⟩
      · rw [magMulLoop, if_pos (by omega), arrayGet_eq (a := a) (by omega)]
        simp only [Option.bind_eq_bind, Option.bind_some, hxlo, hxhi, hinner, hrun]
      · rw [hres, hval1, window_step _ hna i, digitAt, if_pos (by omega)]
        ring

theorem magMul_spec {a b : Mag} (ha : LimbsOk a) (hb : LimbsOk b) :
    Returns (magMul a b) (val a * val b) := by
  have hfill := filling_arrayMake (sigLen a + sigLen b)
  have h := magMulLoop_spec ha hb (sigLen_le_length a) (sigLen_le_length b) _ 0 _
    (Nat.zero_add _) ⟨hfill.length_eq, hfill.limbs, fun j _ => hfill.untouched j (Nat.zero_le j)⟩
  rw [val_eq_window a, val_eq_window b]
  simpa [magMul] using h

theorem magMuladdLimbLoop_spec {a : Mag} {m : Int} {n : Nat} (ha : LimbsOk a)
    (hn : n ≤ a.length) (hm : 0 ≤ m) (hm' : m < 2 ^ 30) :
    ∀ k i carry out, i + k = n → Filling out (n + 1) i → 0 ≤ carry → carry < 2 ^ 32 →
      Returns (magMuladdLimbLoop a m n i carry out)
        (val out + (2 ^ 32) ^ i * (window (2 ^ 32) a i n * m + carry)) := by
  intro k
  induction k with
  | zero =>
      intro i carry out hik hfill hlow hhigh
      obtain ⟨out', hset, hfill', hval⟩ := hfill.arraySet (by omega) hlow hhigh
      refine ⟨out', ?_, hfill'.limbs, ?_⟩
      · rw [magMuladdLimbLoop, if_neg (by omega), show n = i by omega, hset]
      · rw [hval, window_of_le _ _ (by omega)]
        ring
  | succ k ih =>
      intro i carry out hik hfill hlow hhigh
      have hx := Digits.getD (r := 2 ^ 32) (by norm_num) ha i
      have hprod0 : 0 ≤ a.getD i 0 * m := mul_nonneg hx.1 hm
      have hprod1 : a.getD i 0 * m ≤ (2 ^ 32 - 1) * (2 ^ 30 - 1) :=
        mul_le_mul (by omega) (by omega) hm (by norm_num)
      have hcur : add (mul (a.getD i 0) m) carry = a.getD i 0 * m + carry := by
        rw [mul_eq (by omega) (by omega), add_eq (by omega) (by omega)]
      obtain ⟨hlo, hlo', hhi, hsplit⟩ := limb_split (s := a.getD i 0 * m + carry)
        (by omega) (by omega)
      obtain ⟨out', hset, hfill', hval⟩ := hfill.arraySet (by omega) hlo hlo'
      obtain ⟨res, hrun, hlimbs, hres⟩ := ih (i + 1) (limbHi (a.getD i 0 * m + carry)) out'
        (by omega) hfill' hhi (by omega)
      refine ⟨res, ?_, hlimbs, ?_⟩
      · rw [magMuladdLimbLoop, if_pos (by omega), arrayGet_eq (by omega)]
        simp only [Option.bind_eq_bind, Option.bind_some, hcur, hset, hrun]
      · rw [hres, hval, window_step _ hn i, digitAt, if_pos (by omega)]
        linear_combination (2 ^ 32) ^ i * hsplit

theorem magMuladdLimb_spec {a : Mag} {m c : Int} (ha : LimbsOk a) (hm : 0 ≤ m)
    (hm' : m < 2 ^ 30) (hc : 0 ≤ c) (hc' : c < 2 ^ 32) :
    Returns (magMuladdLimb a m c) (val a * m + c) := by
  have h := magMuladdLimbLoop_spec ha (sigLen_le_length a) hm hm' _ 0 _ _
    (Nat.zero_add _) (filling_arrayMake _) hc hc'
  rw [val_eq_window a]
  simpa [magMuladdLimb] using h

theorem sigLen_mono {a b : Mag} (ha : LimbsOk a) (hb : LimbsOk b) (h : val a ≤ val b) :
    sigLen a ≤ sigLen b :=
  (sigLen_le_iff ha _).2 (h.trans_lt ((sigLen_le_iff hb _).1 le_rfl))

theorem magCmpLimbs_spec {a b : Mag} (ha : LimbsOk a) (hb : LimbsOk b) (n : Nat)
    (hna : n ≤ a.length) (hnb : n ≤ b.length) :
    magCmpLimbs a b n =
      some (if window (2 ^ 32) a 0 n < window (2 ^ 32) b 0 n then -1
        else if window (2 ^ 32) a 0 n > window (2 ^ 32) b 0 n then 1 else 0) := by
  induction n with
  | zero => simp [magCmpLimbs, window_of_le]
  | succ n ih =>
      have hwa := window_nonneg (r := 2 ^ 32) (by norm_num) ha 0 n
      have hwb := window_nonneg (r := 2 ^ 32) (by norm_num) hb 0 n
      have hwa' := window_lt (r := 2 ^ 32) (by norm_num) ha 0 n
      have hwb' := window_lt (r := 2 ^ 32) (by norm_num) hb 0 n
      rw [Nat.sub_zero] at hwa' hwb'
      rw [magCmpLimbs, arrayGet_eq (by omega), arrayGet_eq (by omega), window_succ _ (by omega),
        window_succ _ (by omega)]
      simp only [Option.bind_eq_bind, Option.bind_some]
      have hgap : ∀ u v : Int, u < v →
          (2 ^ 32) ^ n * u + (2 ^ 32) ^ n ≤ ((2 : Int) ^ 32) ^ n * v := by
        intro u v huv
        rw [← mul_add_one]
        exact mul_le_mul_of_nonneg_left huv (by positivity)
      rcases lt_trichotomy (a.getD n 0) (b.getD n 0) with hlt | heq | hgt
      · have := hgap _ _ hlt
        rw [if_pos hlt, if_pos (by omega)]
        rfl
      · rw [heq, if_neg (lt_irrefl _), if_neg (lt_irrefl _), ih (by omega) (by omega)]
        simp only [add_lt_add_iff_right, gt_iff_lt]
      · have := hgap _ _ hgt
        rw [if_neg (by omega), if_pos hgt, if_neg (by omega), if_pos (by omega)]

theorem magCmp_spec {a b : Mag} (ha : LimbsOk a) (hb : LimbsOk b) :
    magCmp a b = some (if val a < val b then -1 else if val a > val b then 1 else 0) := by
  unfold magCmp
  simp only
  by_cases hlt : sigLen a < sigLen b
  · have hval : val a < val b := by
      by_contra h
      have := sigLen_mono hb ha (not_lt.1 h)
      omega
    rw [if_pos hlt, if_pos hval]
    rfl
  · by_cases hgt : sigLen a > sigLen b
    · have hval : val b < val a := by
        by_contra h
        have := sigLen_mono ha hb (not_lt.1 h)
        omega
      rw [if_neg hlt, if_pos hgt, if_neg (not_lt.2 hval.le), if_pos hval]
    · have heq : sigLen a = sigLen b := by omega
      rw [if_neg hlt, if_neg hgt, magCmpLimbs_spec ha hb _ (sigLen_le_length a)
        (heq ▸ sigLen_le_length b), val_eq_window a, val_eq_window b, heq]

end Kaikai.BigIntLimbs
