import Kaikai.BigIntLimbs

namespace Kaikai.BigIntShift

open Kaikai.BigIntLimbs
open Kaikai.Positional
open Kaikai.Word64

def magSliceLoop (a : Mag) (lo n i : Nat) (out : Mag) : Option Mag :=
  if i < n then do
    let x ← arrayGet a (lo + i)
    let out1 ← arraySet out i x
    magSliceLoop a lo n (i + 1) out1
  else some out
termination_by n - i

/-- The limbs `[lo, hi)` of `a`; positions past its end read as zero. -/
def magSlice (a : Mag) (lo hi : Nat) : Option Mag :=
  let top := if hi < a.length then hi else a.length
  let n := top - lo
  magSliceLoop a lo n 0 (arrayMake (if n ≤ 0 then 1 else n) 0)

/-- `if i >= k and i - k < ny { y[i - k] } else { 0 }`. -/
def shiftedLimb (y : Mag) (ny k i : Nat) : Option Int :=
  if i ≥ k ∧ i - k < ny then arrayGet y (i - k) else some 0

def magAddShiftedLoop (x y : Mag) (nx ny k n i : Nat) (carry : Int) (out : Mag) :
    Option Mag :=
  if i < n then do
    let xv ← limbBelow x nx i
    let yv ← shiftedLimb y ny k i
    let s := add (add xv yv) carry
    let out1 ← arraySet out i (limbLo s)
    magAddShiftedLoop x y nx ny k n (i + 1) (limbHi s) out1
  else arraySet out n carry
termination_by n - i

/-- `x + y * 2 ^ (32 * k)`. -/
def magAddShifted (x y : Mag) (k : Nat) : Option Mag :=
  let nx := sigLen x
  let ny := sigLen y
  let top := if ny = 0 then 0 else ny + k
  let n := if nx > top then nx else top
  magAddShiftedLoop x y nx ny k n 0 0 (arrayMake (n + 1) 0)

def magShlLoop (a : Mag) (s n i : Nat) (carry : Int) (out : Mag) : Option Mag :=
  if i < n then do
    let x ← arrayGet a i
    let v := bitShl x s
    let out1 ← arraySet out i (limbLo (bitOr (limbLo v) carry))
    magShlLoop a s n (i + 1) (limbHi v) out1
  else arraySet out n carry
termination_by n - i

/-- `a` shifted left by `s` bits, `s` at most 31. -/
def magShlBits (a : Mag) (s : Nat) : Option Mag :=
  let n := sigLen a
  magShlLoop a s n 0 0 (arrayMake (n + 1) 0)

def magShrLoop (a : Mag) (s n i : Nat) (out : Mag) : Option Mag :=
  if i < n then do
    let next ← limbBelow a n (i + 1)
    let x ← arrayGet a i
    let out1 ← arraySet out i (limbLo (bitOr (bitUshr x s) (bitShl next (32 - s : Nat))))
    magShrLoop a s n (i + 1) out1
  else some out
termination_by n - i

/-- `a` shifted right by `s` bits, `s` at most 31. -/
def magShrBits (a : Mag) (s : Nat) : Option Mag :=
  let n := sigLen a
  magShrLoop a s n 0 (arrayMake (if n ≤ 0 then 1 else n) 0)

/-- The recursion of `limb_norm_shift`, cut off when the fuel runs out. -/
def normShiftFrom : Nat → Int → Nat → Option Nat
  | 0, _, _ => none
  | fuel + 1, top, s =>
      if top ≥ bitShl 1 31 then some s else normShiftFrom fuel (mul top 2) (s + 1)

/-- The left shift that sets the top bit of the nonzero limb `top`. -/
def limbNormShift (top : Int) : Option Nat := normShiftFrom 32 top 0

theorem magSliceLoop_spec {a : Mag} {lo n size : Nat} (ha : LimbsOk a)
    (hn : lo + n ≤ a.length) (hsize : n ≤ size) :
    ∀ k i out, i + k = n → Filling out size i →
      Returns (magSliceLoop a lo n i out)
        (val out + (2 ^ 32) ^ i * window (2 ^ 32) a (lo + i) (lo + n)) := by
  intro k
  induction k with
  | zero =>
      intro i out hik hfill
      refine ⟨out, ?_, hfill.limbs, ?_⟩
      · rw [magSliceLoop, if_neg (by omega)]
      · rw [window_of_le _ _ (by omega)]
        ring
  | succ k ih =>
      intro i out hik hfill
      have hx := Digits.getD (r := 2 ^ 32) (by norm_num) ha (lo + i)
      obtain ⟨out', hset, hfill', hval⟩ := hfill.arraySet (by omega) hx.1 hx.2
      obtain ⟨res, hrun, hlimbs, hres⟩ := ih (i + 1) out' (by omega) hfill'
      refine ⟨res, ?_, hlimbs, ?_⟩
      · rw [magSliceLoop, if_pos (by omega), arrayGet_eq (by omega)]
        simp only [Option.bind_eq_bind, Option.bind_some, hset, hrun]
      · rw [hres, hval, window_step _ hn (lo + i), digitAt, if_pos (by omega), ← add_assoc]
        ring

theorem val_lt_length {a : Mag} (ha : LimbsOk a) : val a < (2 ^ 32) ^ a.length :=
  (sigLen_le_iff ha _).1 (sigLen_le_length a)

theorem magSlice_spec {a : Mag} (ha : LimbsOk a) (lo hi : Nat) :
    Returns (magSlice a lo hi) (val a / (2 ^ 32) ^ lo % (2 ^ 32) ^ (hi - lo)) := by
  have hnonneg := val_nonneg ha
  have hval := val_lt_length ha
  have hmin : (if hi < a.length then hi else a.length) = min hi a.length := by
    rw [min_def]
    split <;> split <;> omega
  unfold magSlice
  simp only [hmin]
  by_cases hempty : min hi a.length ≤ lo
  · refine ⟨arrayMake 1 0, ?_, (filling_arrayMake 1).limbs, ?_⟩
    · rw [Nat.sub_eq_zero_of_le hempty, magSliceLoop, if_neg (lt_irrefl 0), if_pos le_rfl]
    · rw [val_arrayMake]
      rcases min_le_iff.1 hempty with hhi | hlen
      · rw [Nat.sub_eq_zero_of_le hhi, pow_zero, Int.emod_one]
      · rw [Int.ediv_eq_zero_of_lt hnonneg
          (hval.trans_le (pow_le_pow_right₀ (by norm_num) hlen)), Int.zero_emod]
  · obtain ⟨out, hrun, hlimbs, hout⟩ := @magSliceLoop_spec a lo
      (min hi a.length - lo) _ ha (by omega) le_rfl _ 0 _ (Nat.zero_add _)
      (filling_arrayMake _)
    refine ⟨out, ?_, hlimbs, ?_⟩
    · rw [if_neg (by omega), hrun]
    · rw [hout, val_arrayMake, pow_zero, one_mul, zero_add, add_zero,
        Nat.add_sub_cancel' (by omega),
        window_eq_div_mod (by norm_num) ha (by omega) (min_le_right _ _)]
      rcases le_total hi a.length with hhi | hlen
      · rw [min_eq_left hhi]
        rfl
      · have hquot : val a / (2 ^ 32) ^ lo < (2 ^ 32) ^ (a.length - lo) := by
          rw [Int.ediv_lt_iff_lt_mul (by positivity), ← pow_add, Nat.sub_add_cancel (by omega)]
          exact hval
        have hquot0 : 0 ≤ val a / (2 ^ 32) ^ lo := Int.ediv_nonneg hnonneg (by positivity)
        rw [min_eq_right hlen, Int.emod_eq_of_lt hquot0 (hquot.trans_le
          (pow_le_pow_right₀ (by norm_num) (by omega)))]
        exact Int.emod_eq_of_lt hquot0 hquot

theorem magSlice_low {a : Mag} (ha : LimbsOk a) (k : Nat) :
    Returns (magSlice a 0 k) (val a % (2 ^ 32) ^ k) := by
  simpa using magSlice_spec ha 0 k

theorem magSlice_high {a : Mag} (ha : LimbsOk a) {k hi : Nat} (hhi : sigLen a ≤ hi) :
    Returns (magSlice a k hi) (val a / (2 ^ 32) ^ k) := by
  have h := magSlice_spec ha k hi
  have hval := (sigLen_le_iff ha hi).1 hhi
  rwa [Int.emod_eq_of_lt (Int.ediv_nonneg (val_nonneg ha) (by positivity))] at h
  rw [Int.ediv_lt_iff_lt_mul (by positivity), ← pow_add]
  exact hval.trans_le (pow_le_pow_right₀ (by norm_num) (by omega))

theorem limbsOk_shift {y : Mag} (hy : LimbsOk y) (k : Nat) :
    LimbsOk (List.replicate k 0 ++ y) := by
  intro d hd
  rcases List.mem_append.1 hd with hd | hd
  · exact Digits.replicate_zero (by norm_num) k d hd
  · exact hy d hd

theorem shiftedLimb_eq {y : Mag} {ny k top : Nat}
    (htop : top = if ny = 0 then 0 else ny + k) (i : Nat) :
    shiftedLimb y ny k i = limbBelow (List.replicate k 0 ++ y) top i := by
  unfold shiftedLimb limbBelow
  by_cases hk : i < k
  · rw [if_neg (by omega), arrayGet, List.getElem?_append_left (by simpa using hk),
      List.getElem?_replicate, if_pos hk]
    split <;> rfl
  · rw [arrayGet, arrayGet, List.getElem?_append_right (by simpa using hk),
      List.length_replicate]
    split at htop <;> split <;> split <;> first | rfl | omega

theorem magAddShiftedLoop_eq {x y : Mag} {nx ny k n top : Nat}
    (htop : top = if ny = 0 then 0 else ny + k) :
    ∀ d i carry out, i + d = n →
      magAddShiftedLoop x y nx ny k n i carry out =
        magAddLoop x (List.replicate k 0 ++ y) nx top n i carry out := by
  intro d
  induction d with
  | zero =>
      intro i carry out hi
      rw [magAddShiftedLoop, if_neg (by omega), magAddLoop, if_neg (by omega)]
  | succ d ih =>
      intro i carry out hi
      rw [magAddShiftedLoop, if_pos (by omega), magAddLoop, if_pos (by omega),
        shiftedLimb_eq htop]
      simp only [Option.bind_eq_bind]
      congr 1
      funext xv
      congr 1
      funext yv
      congr 1
      funext out1
      exact ih _ _ _ (by omega)

theorem window_shifted {y : Mag} {k top : Nat}
    (htop : top = if sigLen y = 0 then 0 else sigLen y + k) :
    window (2 ^ 32) (List.replicate k 0 ++ y) 0 top = (2 ^ 32) ^ k * val y := by
  rw [val_eq_window y]
  split at htop
  · next hzero => rw [htop, hzero, window_of_le _ _ le_rfl, window_of_le _ _ le_rfl, mul_zero]
  · rw [htop, window, window, List.drop_zero, List.drop_zero, List.take_append,
      List.take_of_length_le (by simp), List.length_replicate, Nat.add_sub_cancel,
      value_append, value_replicate_zero, List.length_replicate, zero_add]

theorem magAddShifted_spec {x y : Mag} (hx : LimbsOk x) (hy : LimbsOk y) (k : Nat) :
    Returns (magAddShifted x y k) (val x + val y * (2 ^ 32) ^ k) := by
  unfold magAddShifted
  simp only
  generalize htop : (if sigLen y = 0 then 0 else sigLen y + k) = top
  have hlen : top ≤ (List.replicate k (0 : Int) ++ y).length := by
    have := sigLen_le_length y
    simp only [List.length_append, List.length_replicate]
    split at htop <;> omega
  have hmax : sigLen x ≤ (if sigLen x > top then sigLen x else top) ∧
      top ≤ (if sigLen x > top then sigLen x else top) := by
    split <;> omega
  rw [magAddShiftedLoop_eq htop.symm _ 0 0 _ (Nat.zero_add _)]
  have h := magAddLoop_spec hx (limbsOk_shift hy k) (sigLen_le_length x) hlen hmax.1 hmax.2
    _ 0 0 _ (Nat.zero_add _) (filling_arrayMake _) le_rfl (by norm_num)
  rw [window_shifted htop.symm, val_arrayMake] at h
  rw [val_eq_window x, mul_comm (val y)]
  simpa using h

/-- Or-ing two shifted limbs and keeping the low 32 bits joins the high part of
one with the low part of the other, also where the left shift overflows. -/
theorem limb_join {u v : Int} {s : Nat} (hu : 0 ≤ u) (hu' : u < 2 ^ 32) (hv : 0 ≤ v)
    (hv' : v < 2 ^ 32) (hs : s ≤ 31) :
    limbLo (bitOr (bitUshr u s) (bitShl v (32 - s : Nat))) =
      u / 2 ^ s + v % 2 ^ s * 2 ^ (32 - s) := by
  obtain ⟨m, rfl⟩ := Int.eq_ofNat_of_zero_le hu
  obtain ⟨n, rfl⟩ := Int.eq_ofNat_of_zero_le hv
  have hpow : 2 ^ (32 - s) * 2 ^ s = 2 ^ 32 := by
    rw [← pow_add, Nat.sub_add_cancel (by omega)]
  have hm : (BitVec.ofInt 64 (m : Int)).toNat = m := by
    rw [toNat_ofInt hu (by omega), Int.toNat_natCast]
  have hn : (BitVec.ofInt 64 (n : Int)).toNat = n := by
    rw [toNat_ofInt hv (by omega), Int.toNat_natCast]
  have hmlt : m / 2 ^ s < 2 ^ (32 - s) := by
    rw [Nat.div_lt_iff_lt_mul (by positivity), hpow]
    omega
  have hmask : (BitVec.ofInt 64 (sub (bitShl 1 32) 1)).toNat = 2 ^ 32 - 1 := by decide
  have hbits : ((BitVec.ofInt 64 m >>> s ||| BitVec.ofInt 64 n <<< (32 - s)) &&&
      BitVec.ofInt 64 (sub (bitShl 1 32) 1)).toNat =
      2 ^ (32 - s) * (n % 2 ^ s) + m / 2 ^ s := by
    rw [BitVec.toNat_and, hmask, Nat.and_two_pow_sub_one_eq_mod, BitVec.toNat_or,
      BitVec.toNat_ushiftRight, BitVec.toNat_shiftLeft, hm, hn, Nat.or_mod_two_pow,
      Nat.mod_mod_of_dvd _ (by norm_num), Nat.shiftLeft_eq, Nat.shiftRight_eq_div_pow,
      Nat.mod_eq_of_lt (a := m / 2 ^ s) ((Nat.div_le_self _ _).trans_lt (by omega)),
      mul_comm n, ← hpow, Nat.mul_mod_mul_left, Nat.or_comm,
      Nat.two_pow_add_eq_or_of_lt hmlt]
  have hsize : 2 ^ (32 - s) * (n % 2 ^ s) + m / 2 ^ s < 2 ^ 63 := by
    have := Nat.mod_lt n (Nat.two_pow_pos s)
    calc
      _ < 2 ^ (32 - s) * (n % 2 ^ s + 1) := by rw [mul_add_one]; omega
      _ ≤ 2 ^ (32 - s) * 2 ^ s := Nat.mul_le_mul_left _ this
      _ < 2 ^ 63 := by rw [hpow]; norm_num
  rw [limbLo, bitAnd, bitOr, bitUshr, bitShl, BitVec.ofInt_toInt, BitVec.ofInt_toInt,
    BitVec.ofInt_toInt, show ((s : Int) % 64).toNat = s by omega,
    show (((32 - s : Nat) : Int) % 64).toNat = 32 - s by omega,
    toInt_of_toNat_lt (by rw [hbits]; exact hsize), hbits]
  push_cast
  ring

theorem magShlLoop_spec {a : Mag} {s n : Nat} (ha : LimbsOk a) (hn : n ≤ a.length)
    (hs : s ≤ 31) :
    ∀ k i carry out, i + k = n → Filling out (n + 1) i → 0 ≤ carry → carry < 2 ^ s →
      Returns (magShlLoop a s n i carry out)
        (val out + (2 ^ 32) ^ i * (window (2 ^ 32) a i n * 2 ^ s + carry)) := by
  have hpow : (2 : Int) ^ (32 - s) * 2 ^ s = 2 ^ 32 := by
    rw [← pow_add, Nat.sub_add_cancel (by omega)]
  have hpow31 : (2 : Int) ^ s ≤ 2 ^ 31 := pow_le_pow_right₀ (by norm_num) hs
  have hpos : (0 : Int) < 2 ^ s := by positivity
  intro k
  induction k with
  | zero =>
      intro i carry out hik hfill hlow hhigh
      obtain ⟨out', hset, hfill', hval⟩ := hfill.arraySet (by omega) hlow (by omega)
      refine ⟨out', ?_, hfill'.limbs, ?_⟩
      · rw [magShlLoop, if_neg (by omega), show n = i by omega, hset]
      · rw [hval, window_of_le _ _ (by omega)]
        ring
  | succ k ih =>
      intro i carry out hik hfill hlow hhigh
      have hx := Digits.getD (r := 2 ^ 32) (by norm_num) ha i
      have hprod0 : 0 ≤ a.getD i 0 * 2 ^ s := mul_nonneg hx.1 hpos.le
      have hprod1 : a.getD i 0 * 2 ^ s ≤ (2 ^ 32 - 1) * 2 ^ 31 :=
        mul_le_mul (by omega) hpow31 hpos.le (by norm_num)
      have hshl : bitShl (a.getD i 0) s = a.getD i 0 * 2 ^ s :=
        bitShl_eq s hx.1 (by omega) (by omega)
      have hmod : a.getD i 0 * 2 ^ s % 2 ^ 32 = a.getD i 0 % 2 ^ (32 - s) * 2 ^ s := by
        rw [← hpow, mul_comm _ ((2 : Int) ^ s), mul_comm _ ((2 : Int) ^ s),
          Int.mul_emod_mul_of_pos _ _ hpos, mul_comm]
      have hrest0 : 0 ≤ a.getD i 0 % 2 ^ (32 - s) := Int.emod_nonneg _ (by positivity)
      have hrest1 : a.getD i 0 % 2 ^ (32 - s) + 1 ≤ 2 ^ (32 - s) :=
        Int.emod_lt_of_pos _ (by positivity)
      have hjoin : a.getD i 0 % 2 ^ (32 - s) * 2 ^ s + carry < 2 ^ 32 := by
        have := mul_le_mul_of_nonneg_right hrest1 hpos.le
        rw [add_one_mul, hpow] at this
        omega
      have hor : bitOr (limbLo (a.getD i 0 * 2 ^ s)) carry =
          a.getD i 0 % 2 ^ (32 - s) * 2 ^ s + carry := by
        rw [limbLo_eq hprod0 (by omega), hmod, bitOr_eq_add s hrest0 hlow hhigh (by omega)]
      have hjoin0 : 0 ≤ a.getD i 0 % 2 ^ (32 - s) * 2 ^ s := mul_nonneg hrest0 hpos.le
      have hlo : limbLo (a.getD i 0 % 2 ^ (32 - s) * 2 ^ s + carry) =
          a.getD i 0 % 2 ^ (32 - s) * 2 ^ s + carry := by
        rw [limbLo_eq (by omega) (by omega), Int.emod_eq_of_lt (by omega) hjoin]
      have hhi : limbHi (a.getD i 0 * 2 ^ s) = a.getD i 0 * 2 ^ s / 2 ^ 32 :=
        limbHi_eq hprod0 (by omega)
      have hcarry : a.getD i 0 * 2 ^ s / 2 ^ 32 < 2 ^ s := by
        rw [Int.ediv_lt_iff_lt_mul (by norm_num), mul_comm ((2 : Int) ^ s)]
        exact mul_lt_mul_of_pos_right hx.2 hpos
      obtain ⟨out', hset, hfill', hval⟩ := hfill.arraySet
        (v := a.getD i 0 % 2 ^ (32 - s) * 2 ^ s + carry) (by omega) (by omega) hjoin
      obtain ⟨res, hrun, hlimbs, hres⟩ := ih (i + 1) (a.getD i 0 * 2 ^ s / 2 ^ 32) out'
        (by omega) hfill' (by omega) hcarry
      refine ⟨res, ?_, hlimbs, ?_⟩
      · rw [magShlLoop, if_pos (by omega), arrayGet_eq (by omega)]
        simp only [Option.bind_eq_bind, Option.bind_some, hshl, hor, hlo, hhi, hset, hrun]
      · have hsplit := Int.emod_add_mul_ediv (a.getD i 0 * 2 ^ s) (2 ^ 32)
        rw [hmod] at hsplit
        rw [hres, hval, window_step _ hn i, digitAt, if_pos (by omega)]
        linear_combination (2 ^ 32) ^ i * hsplit

theorem magShlBits_spec {a : Mag} {s : Nat} (ha : LimbsOk a) (hs : s ≤ 31) :
    Returns (magShlBits a s) (val a * 2 ^ s) := by
  have h := magShlLoop_spec ha (sigLen_le_length a) hs _ 0 0 _ (Nat.zero_add _)
    (filling_arrayMake _) le_rfl (by positivity)
  rw [val_eq_window a]
  simpa [magShlBits] using h

theorem magShrLoop_spec {a : Mag} {s n size : Nat} (ha : LimbsOk a) (hn : n ≤ a.length)
    (hs : s ≤ 31) (hsize : n ≤ size) :
    ∀ k i out, i + k = n → Filling out size i →
      Returns (magShrLoop a s n i out)
        (val out + (2 ^ 32) ^ i * (window (2 ^ 32) a i n / 2 ^ s)) := by
  have hpow : (2 : Int) ^ (32 - s) * 2 ^ s = 2 ^ 32 := by
    rw [← pow_add, Nat.sub_add_cancel (by omega)]
  have hpos : (0 : Int) < 2 ^ s := by positivity
  intro k
  induction k with
  | zero =>
      intro i out hik hfill
      refine ⟨out, ?_, hfill.limbs, ?_⟩
      · rw [magShrLoop, if_neg (by omega)]
      · rw [window_of_le _ _ (by omega), Int.zero_ediv]
        ring
  | succ k ih =>
      intro i out hik hfill
      have hx := Digits.getD (r := 2 ^ 32) (by norm_num) ha i
      have hnext := digitAt_bounds (by norm_num) ha n (i + 1)
      have hjoin := limb_join hx.1 hx.2 hnext.1 hnext.2 hs
      have hlow : 0 ≤ a.getD i 0 / 2 ^ s := Int.ediv_nonneg hx.1 hpos.le
      have hlow' : a.getD i 0 / 2 ^ s + 1 ≤ 2 ^ (32 - s) := by
        rw [Int.add_one_le_iff, Int.ediv_lt_iff_lt_mul hpos, hpow]
        exact hx.2
      have hrest0 := Int.emod_nonneg (digitAt a n (i + 1)) hpos.ne'
      have hrest1 : digitAt a n (i + 1) % 2 ^ s + 1 ≤ 2 ^ s := Int.emod_lt_of_pos _ hpos
      have hpart : 0 ≤ digitAt a n (i + 1) % 2 ^ s * 2 ^ (32 - s) :=
        mul_nonneg hrest0 (by positivity)
      have hpart' : (digitAt a n (i + 1) % 2 ^ s + 1) * 2 ^ (32 - s) ≤ 2 ^ s * 2 ^ (32 - s) :=
        mul_le_mul_of_nonneg_right hrest1 (by positivity)
      rw [add_one_mul, mul_comm ((2 : Int) ^ s), hpow] at hpart'
      obtain ⟨out', hset, hfill', hval⟩ := hfill.arraySet
        (v := a.getD i 0 / 2 ^ s + digitAt a n (i + 1) % 2 ^ s * 2 ^ (32 - s))
        (by omega) (by omega) (by omega)
      obtain ⟨res, hrun, hlimbs, hres⟩ := ih (i + 1) out' (by omega) hfill'
      refine ⟨res, ?_, hlimbs, ?_⟩
      · rw [magShrLoop, if_pos (by omega), limbBelow_eq hn, arrayGet_eq (by omega)]
        simp only [Option.bind_eq_bind, Option.bind_some, hjoin, hset, hrun]
      · -- the bits that the next limbs hand down are those of the next limb alone
        have hmod : window (2 ^ 32) a (i + 1) n % 2 ^ s = digitAt a n (i + 1) % 2 ^ s := by
          rw [window_step _ hn (i + 1), ← hpow, mul_assoc, mul_left_comm,
            Int.add_mul_emod_self_left]
        have hsplit := Int.emod_add_mul_ediv (window (2 ^ 32) a (i + 1) n) (2 ^ s)
        have hshift : window (2 ^ 32) a i n / 2 ^ s =
            a.getD i 0 / 2 ^ s + 2 ^ (32 - s) * window (2 ^ 32) a (i + 1) n := by
          rw [window_step _ hn i, digitAt, if_pos (by omega), ← hpow, mul_comm ((2 : Int) ^ (32 - s)),
            mul_assoc, Int.add_mul_ediv_left _ _ hpos.ne']
        rw [hmod] at hsplit
        rw [hres, hval, hshift]
        linear_combination (2 ^ 32) ^ i * 2 ^ (32 - s) * hsplit -
          (2 ^ 32) ^ i * (window (2 ^ 32) a (i + 1) n / 2 ^ s) * hpow

theorem magShrBits_spec {a : Mag} {s : Nat} (ha : LimbsOk a) (hs : s ≤ 31) :
    Returns (magShrBits a s) (val a / 2 ^ s) := by
  have hsize : sigLen a ≤ (if sigLen a ≤ 0 then 1 else sigLen a) := by split <;> omega
  have h := magShrLoop_spec ha (sigLen_le_length a) hs hsize _ 0 _ (Nat.zero_add _)
    (filling_arrayMake _)
  rw [val_eq_window a]
  simpa [magShrBits] using h

theorem normShiftFrom_spec : ∀ fuel top s, 0 < top → top < 2 ^ 32 → 2 ^ 32 ≤ top * 2 ^ fuel →
    ∃ t, normShiftFrom fuel top s = some (s + t) ∧ t < fuel ∧ 2 ^ 31 ≤ top * 2 ^ t ∧
      top * 2 ^ t < 2 ^ 32 := by
  intro fuel
  induction fuel with
  | zero => omega
  | succ fuel ih =>
      intro top s hpos hlt hfuel
      rw [normShiftFrom, show bitShl 1 31 = 2 ^ 31 by decide]
      by_cases htop : top ≥ 2 ^ 31
      · exact ⟨0, if_pos htop, Nat.succ_pos _, by omega, by omega⟩
      · rw [if_neg htop, mul_eq (by omega) (by omega)]
        obtain ⟨t, hrun, ht, hlow, hhigh⟩ := ih (top * 2) (s + 1) (by omega) (by omega)
          (by rw [mul_assoc, ← pow_succ']; exact hfuel)
        refine ⟨t + 1, ?_, by omega, ?_, ?_⟩
        · rw [hrun]
          congr 1
          omega
        · rw [pow_succ' (2 : Int) t, ← mul_assoc]
          exact hlow
        · rw [pow_succ' (2 : Int) t, ← mul_assoc]
          exact hhigh

theorem limbNormShift_spec {top : Int} (hpos : 0 < top) (hlt : top < 2 ^ 32) :
    ∃ s, limbNormShift top = some s ∧ s ≤ 31 ∧ 2 ^ 31 ≤ top * 2 ^ s ∧
      top * 2 ^ s < 2 ^ 32 := by
  obtain ⟨s, hrun, hs, hlow, hhigh⟩ := normShiftFrom_spec 32 top 0 hpos hlt (by omega)
  exact ⟨s, by rw [limbNormShift, hrun, Nat.zero_add], by omega, hlow, hhigh⟩

end Kaikai.BigIntShift
