import Kaikai.BigIntKaratsuba

/-!
Magnitude division: Knuth's schoolbook algorithm for short quotients and the
recursive Burnikel–Ziegler scheme above a limb threshold.
-/

namespace Kaikai.BigIntDivision

open Kaikai.BigIntKaratsuba
open Kaikai.BigIntLimbs
open Kaikai.BigIntShift
open Kaikai.Positional
open Kaikai.Word64

def bzThreshold : Nat := 16

def oneMag : Mag := arrayMake 1 1

/-- Quotient digit estimate from the top two remainder limbs and the top divisor
limb. The numerator is halved first so it stays within `Int`. -/
def qhatEstimate (u1 u0 v1 : Int) : Option Int :=
  if u1 ≥ v1 then some (sub limbRadix 1)
  else do
    let n1 := bitOr (bitShl u1 31) (bitUshr u0 1)
    let qa ← div n1 v1
    let ra := sub n1 (mul qa v1)
    let rest ← div (add (mul 2 ra) (bitAnd u0 1)) v1
    some (add (mul 2 qa) rest)

def shiftInLoop (r : Mag) (nr i : Nat) (cur : Mag) : Option Mag :=
  if i < nr then do
    let x ← arrayGet r i
    let cur1 ← arraySet cur (i + 1) x
    shiftInLoop r nr (i + 1) cur1
  else some cur
termination_by nr - i

/-- `r * 2 ^ 32 + limb` as `nb + 1` limbs, for a remainder `r` below the divisor. -/
def shiftIn (r : Mag) (limb : Int) (nb : Nat) : Option Mag := do
  let nr := if r.length < nb then r.length else nb
  let cur ← arraySet (arrayMake (nb + 1) 0) 0 limb
  shiftInLoop r nr 0 cur

def mulsubLoop (cur b : Mag) (nb : Nat) (qlo qhi : Int) (i : Nat) (mc borrow : Int)
    (out : Mag) : Option Mag :=
  if i < nb then do
    let y ← arrayGet b i
    let ylo := bitAnd y 65535
    let yhi := bitUshr y 16
    let mid := add (mul qhi ylo) (mul qlo yhi)
    let lo := add (mul qlo ylo) (mul (bitAnd mid 65535) 65536)
    let t := add (bitAnd lo 4294967295) mc
    let mc1 := add (add (add (mul qhi yhi) (bitUshr mid 16)) (bitUshr lo 32)) (bitUshr t 32)
    let c ← arrayGet cur i
    let d := sub (sub c (bitAnd t 4294967295)) borrow
    if d < 0 then do
      let out1 ← arraySet out i (add d 4294967296)
      mulsubLoop cur b nb qlo qhi (i + 1) mc1 1 out1
    else do
      let out1 ← arraySet out i d
      mulsubLoop cur b nb qlo qhi (i + 1) mc1 0 out1
  else do
    let top ← arrayGet cur nb
    arraySet out nb (sub (sub top mc) borrow)
termination_by nb - i

/-- `cur - q * b` over `nb + 1` limbs; the top limb is negative when `q`
overshoots. -/
def mulsub (cur b : Mag) (nb : Nat) (q : Int) : Option Mag :=
  mulsubLoop cur b nb (bitAnd q 65535) (bitUshr q 16) 0 0 0 (arrayMake (nb + 1) 0)

def addBackLoop (cur b : Mag) (nb i : Nat) (carry : Int) (out : Mag) : Option Mag :=
  if i < nb then do
    let c ← arrayGet cur i
    let y ← arrayGet b i
    let s := add (add c y) carry
    let out1 ← arraySet out i (limbLo s)
    addBackLoop cur b nb (i + 1) (limbHi s) out1
  else do
    let top ← arrayGet cur nb
    arraySet out nb (add top carry)
termination_by nb - i

/-- `cur + b` over `nb + 1` limbs, dropping the carry out of the top. -/
def addBack (cur b : Mag) (nb : Nat) : Option Mag :=
  addBackLoop cur b nb 0 0 (arrayMake (nb + 1) 0)

/-- `fix_negative` with at most `fuel` tests of the top limb. -/
def fixNegative : Nat → Int → Mag → Mag → Nat → Option (Int × Mag)
  | 0, _, _, _, _ => none
  | fuel + 1, q, cur, b, nb => do
      let top ← arrayGet cur nb
      if top ≥ 0 then some (q, cur)
      else do
        let cur1 ← addBack cur b nb
        fixNegative fuel (sub q 1) cur1 b nb

/-- The estimate is at most two above the digit, so three tests suffice. -/
def divStep (r : Mag) (limb : Int) (b : Mag) (nb : Nat) : Option (Int × Mag) := do
  let cur ← shiftIn r limb nb
  let u1 ← arrayGet cur nb
  let u0 ← arrayGet cur (nb - 1)
  let v1 ← arrayGet b (nb - 1)
  let q ← qhatEstimate u1 u0 v1
  let diff ← mulsub cur b nb q
  fixNegative 3 q diff b nb

/-- The loop of `school_divmod` over the `n` low limbs, from the top. -/
def schoolLoop (a b : Mag) (nb : Nat) : Nat → Mag → Mag → Option (Mag × Mag)
  | 0, q, r => some (q, r)
  | n + 1, q, r => do
      let limb ← arrayGet a n
      let s ← divStep r limb b nb
      let q1 ← arraySet q n s.1
      schoolLoop a b nb n q1 s.2

/-- Quotient and remainder of `a` by a divisor `b` whose top bit is set. -/
def schoolDivmod (a b : Mag) : Option (Mag × Mag) :=
  let na := sigLen a
  let nb := sigLen b
  schoolLoop a b nb na (arrayMake (if na ≤ 0 then 1 else na) 0) zeroMag

/-- `fix_down` with at most `fuel` comparisons. -/
def fixDown : Nat → Mag → Mag → Mag → Mag → Option (Mag × Mag)
  | 0, _, _, _, _ => none
  | fuel + 1, q, u, t, d => do
      let c ← magCmp u t
      if c ≥ 0 then some (q, u)
      else do
        let q1 ← magSub q oneMag
        let u1 ← magAdd u d
        fixDown fuel q1 u1 t d

/-- One level of the recursion; `bzRec` divides for a quotient of about as many
limbs as its third argument. The quotient estimates are at most three too large. -/
def bzSplit (bzRec : Mag → Mag → Nat → Option (Mag × Mag)) (a b : Mag) (m k : Nat) :
    Option (Mag × Mag) := do
  let nb := sigLen b
  let b1 ← magSlice b k nb
  let b0 ← magSlice b 0 k
  let ahi ← magSlice a (2 * k) (sigLen a)
  let hi ← bzRec ahi b1 (m - k)
  let alo ← magSlice a 0 (2 * k)
  let u ← magAddShifted alo hi.2 (2 * k)
  let thi ← magMulFast hi.1 b0
  let t ← magAddShifted zeroMag thi k
  let d ← magAddShifted zeroMag b k
  let top ← fixDown 4 hi.1 u t d
  let a1 ← magSub top.2 t
  let a1hi ← magSlice a1 k (sigLen a1)
  let lo ← bzRec a1hi b1 k
  let a1lo ← magSlice a1 0 k
  let v ← magAddShifted a1lo lo.2 k
  let t0 ← magMulFast lo.1 b0
  let bot ← fixDown 4 lo.1 v t0 b
  let q ← magAddShifted bot.1 top.1 k
  let r ← magSub bot.2 t0
  some (q, r)

/-- `bz_rec` with at most `fuel` nested calls. -/
def bzRecFuel : Nat → Mag → Mag → Nat → Option (Mag × Mag)
  | 0, _, _, _ => none
  | fuel + 1, a, b, m =>
      if m < bzThreshold then schoolDivmod a b else bzSplit (bzRecFuel fuel) a b m (m / 2)

/-- Every nested call asks for a shorter quotient. -/
def bzRec (a b : Mag) (m : Nat) : Option (Mag × Mag) := bzRecFuel (m + 1) a b m

def copyBlock (src : Mag) (offset nq i : Nat) (q : Mag) : Option Mag :=
  if i < nq then do
    let x ← arrayGet src i
    let q1 ← arraySet q (offset + i) x
    copyBlock src offset nq (i + 1) q1
  else some q
termination_by nq - i

/-- The loop of `block_divmod` over the `n` low blocks, from the top. -/
def blockLoop (a b : Mag) (nb : Nat) : Nat → Mag → Mag → Option (Mag × Mag)
  | 0, q, r => some (q, r)
  | n + 1, q, r => do
      let block ← magSlice a (n * nb) ((n + 1) * nb)
      let cur ← magAddShifted block r nb
      let s ← bzRec cur b nb
      let q1 ← copyBlock s.1 (n * nb) (sigLen s.1) 0 q
      blockLoop a b nb n q1 s.2

/-- Quotient and remainder of `a` by the normalized `b`, in blocks of `b`'s
length taken from the top. -/
def blockDivmod (a b : Mag) : Option (Mag × Mag) :=
  let na := sigLen a
  let nb := sigLen b
  let blocks := (na + nb - 1) / nb
  blockLoop a b nb blocks (arrayMake (blocks * nb + 1) 0) zeroMag

def normalizedDivmod (a b : Mag) : Option (Mag × Mag) :=
  if sigLen b < bzThreshold then schoolDivmod a b else blockDivmod a b

/-- Quotient and remainder of `num` by the nonzero magnitude `den`. -/
def magDivmod (num den : Mag) : Option (Mag × Mag) := do
  let c ← magCmp num den
  if c < 0 then some (zeroMag, num)
  else do
    let top ← arrayGet den (sigLen den - 1)
    let s ← limbNormShift top
    let nums ← magShlBits num s
    let dens ← magShlBits den s
    let qr ← normalizedDivmod nums dens
    let r ← magShrBits qr.2 s
    some (qr.1, r)

@[simp] theorem limbsOk_oneMag : LimbsOk oneMag := by
  intro d hd
  rw [List.eq_of_mem_replicate hd]
  norm_num

@[simp] theorem val_oneMag : val oneMag = 1 := by decide

/-- A divisor whose top bit is set. -/
structure Normalized (b : Mag) : Prop where
  limbs : LimbsOk b
  pos : 0 < val b
  top_bit : (2 ^ 32) ^ sigLen b ≤ 2 * val b

/-- A computation that does not trap and returns the quotient and the remainder
of `a` by `b`. -/
def Divides (m : Option (Mag × Mag)) (a b : Int) : Prop :=
  ∃ q r, m = some (q, r) ∧ LimbsOk q ∧ LimbsOk r ∧ val q = a / b ∧ val r = a % b

theorem qhatEstimate_of_lt {u1 u0 v1 : Int} (hu1 : 0 ≤ u1) (hu0 : 0 ≤ u0) (hu0' : u0 < 2 ^ 32)
    (hv1 : v1 < 2 ^ 32) (hlt : u1 < v1) :
    qhatEstimate u1 u0 v1 = some ((u1 * 2 ^ 32 + u0) / v1) := by
  have hv0 : 0 < v1 := by omega
  have hshl : bitShl u1 31 = u1 * 2 ^ 31 := bitShl_eq 31 hu1 (by omega) (by norm_num)
  have hshr : bitUshr u0 1 = u0 / 2 := bitUshr_eq 1 hu0 (by omega) (by norm_num)
  have hbit : bitAnd u0 1 = u0 % 2 := bitAnd_mask 1 hu0 (by omega) (by norm_num)
  have hor : bitOr (u1 * 2 ^ 31) (u0 / 2) = u1 * 2 ^ 31 + u0 / 2 :=
    bitOr_eq_add 31 hu1 (by omega) (by omega) (by omega)
  generalize hn : u1 * 2 ^ 31 + u0 / 2 = n at hor
  have hn0 : 0 ≤ n := by omega
  have hmod0 := Int.emod_nonneg n hv0.ne'
  have hmod1 := Int.emod_lt_of_pos n hv0
  have hdivmod := Int.emod_add_mul_ediv n v1
  have hq0 : 0 ≤ n / v1 := Int.ediv_nonneg hn0 hv0.le
  have hqle : n / v1 ≤ n := Int.ediv_le_self _ hn0
  have hq31 : n / v1 < 2 ^ 31 := by
    rw [Int.ediv_lt_iff_lt_mul hv0]
    omega
  have hprod : mul (n / v1) v1 = n - n % v1 := by
    rw [mul_comm] at hdivmod
    rw [mul_eq (by omega) (by omega)]
    omega
  have hra : sub n (n - n % v1) = n % v1 := by
    rw [sub_eq (by omega) (by omega)]
    omega
  have htwo : mul 2 (n % v1) = 2 * (n % v1) := mul_eq (by omega) (by omega)
  have hnum : add (2 * (n % v1)) (u0 % 2) = 2 * (n % v1) + u0 % 2 := add_eq (by omega) (by omega)
  have hrest : (2 * (n % v1) + u0 % 2) / v1 < 2 := by
    rw [Int.ediv_lt_iff_lt_mul hv0]
    omega
  have hrest0 : 0 ≤ (2 * (n % v1) + u0 % 2) / v1 := Int.ediv_nonneg (by omega) hv0.le
  have htwoq : mul 2 (n / v1) = 2 * (n / v1) := mul_eq (by omega) (by omega)
  have hsum : add (2 * (n / v1)) ((2 * (n % v1) + u0 % 2) / v1) =
      2 * (n / v1) + (2 * (n % v1) + u0 % 2) / v1 := add_eq (by omega) (by omega)
  have hdiv : div n v1 = some (n / v1) := div_eq hn0 hv0
  have hdivrest : div (2 * (n % v1) + u0 % 2) v1 = some ((2 * (n % v1) + u0 % 2) / v1) :=
    div_eq (by omega) hv0
  rw [qhatEstimate, if_neg (not_le.2 hlt), hshl, hshr, hor]
  simp only [hdiv, Option.bind_eq_bind, Option.bind_some, hprod, hra, htwo, hbit, hnum,
    hdivrest, htwoq, hsum]
  have hwhole : u1 * 2 ^ 32 + u0 = 2 * (n % v1) + u0 % 2 + v1 * (2 * (n / v1)) := by
    calc
      u1 * 2 ^ 32 + u0 = 2 * n + u0 % 2 := by omega
      _ = 2 * (n % v1 + v1 * (n / v1)) + u0 % 2 := by rw [hdivmod]
      _ = _ := by ring
  rw [hwhole, Int.add_mul_ediv_left _ _ hv0.ne', add_comm]

/-- The estimate never falls below the digit of `c / b` and exceeds it by at most
two. Here `p` is the weight of the limb below the top one. -/
theorem qhatEstimate_bounds {p c b u1 u0 v1 clow blow : Int} (hp : 0 < p)
    (hc : c = (u1 * 2 ^ 32 + u0) * p + clow) (hb : b = v1 * p + blow)
    (hclow : 0 ≤ clow) (hclow' : clow < p) (hblow : 0 ≤ blow) (hblow' : blow < p)
    (hu1 : 0 ≤ u1) (hu0 : 0 ≤ u0) (hu0' : u0 < 2 ^ 32) (hv1 : 2 ^ 31 ≤ v1) (hv1' : v1 < 2 ^ 32)
    (hcb : c < b * 2 ^ 32) :
    ∃ q, qhatEstimate u1 u0 v1 = some q ∧ 0 ≤ q ∧ q < 2 ^ 32 ∧ c - q * b < b ∧
      -(2 * b) ≤ c - q * b := by
  have hhalf : 2 ^ 31 * p ≤ b := by
    rw [hb]
    have := mul_le_mul_of_nonneg_right hv1 hp.le
    omega
  by_cases hlt : u1 < v1
  · refine ⟨_, qhatEstimate_of_lt hu1 hu0 hu0' hv1' hlt, ?_⟩
    generalize hq : (u1 * 2 ^ 32 + u0) / v1 = q
    have hq0 : 0 ≤ q := by rw [← hq]; exact Int.ediv_nonneg (by omega) (by omega)
    have hqlt : q < 2 ^ 32 := by
      rw [← hq, Int.ediv_lt_iff_lt_mul (by omega)]
      omega
    have hlow : q * v1 ≤ u1 * 2 ^ 32 + u0 := by rw [← hq]; exact Int.ediv_mul_le _ (by omega)
    have hhigh : u1 * 2 ^ 32 + u0 + 1 ≤ (q + 1) * v1 := by
      rw [← hq]
      exact Int.lt_ediv_add_one_mul_self _ (by omega)
    refine ⟨hq0, hqlt, ?_, ?_⟩
    · have h1 := mul_le_mul_of_nonneg_right hhigh hp.le
      have h2 : 0 ≤ (q + 1) * blow := mul_nonneg (by omega) hblow
      have h3 : (q + 1) * b = (q + 1) * v1 * p + (q + 1) * blow := by rw [hb]; ring
      have h4 : (q + 1) * b = q * b + b := by ring
      have h5 : (u1 * 2 ^ 32 + u0 + 1) * p = (u1 * 2 ^ 32 + u0) * p + p := by ring
      omega
    · have h1 := mul_le_mul_of_nonneg_right hlow hp.le
      have h2 : q * blow ≤ 2 ^ 32 * p := mul_le_mul hqlt.le hblow'.le hblow (by norm_num)
      have h3 : q * b = q * v1 * p + q * blow := by rw [hb]; ring
      omega
  · refine ⟨2 ^ 32 - 1, ?_, by norm_num, by norm_num, by linarith, ?_⟩
    · rw [qhatEstimate, if_pos (not_lt.1 hlt)]
      decide
    · have h1 : v1 * p ≤ u1 * p := mul_le_mul_of_nonneg_right (not_lt.1 hlt) hp.le
      have h2 : 0 ≤ u0 * p := mul_nonneg hu0 hp.le
      have h3 : c = u1 * p * 2 ^ 32 + u0 * p + clow := by rw [hc]; ring
      have h4 : 0 ≤ v1 * p := mul_nonneg (by omega) hp.le
      omega

/-- A difference in progress: proper limbs below index `nb` and a top limb that
may be negative. -/
structure SignedTop (cur : Mag) (nb : Nat) : Prop where
  length_eq : cur.length = nb + 1
  limbs : LimbsOk (cur.take nb)
  top_low : -2 ^ 34 ≤ cur.getD nb 0
  top_high : cur.getD nb 0 ≤ 2 ^ 34

theorem SignedTop.digit {cur : Mag} {nb i : Nat} (h : SignedTop cur nb) (hi : i < nb) :
    0 ≤ cur.getD i 0 ∧ cur.getD i 0 < 2 ^ 32 := by
  have hlen := h.length_eq
  have hd := Digits.getD (r := 2 ^ 32) (by norm_num) h.limbs i
  rwa [List.getD_eq_getElem _ _ (by simp; omega), List.getElem_take,
    ← List.getD_eq_getElem _ 0] at hd

theorem SignedTop.window_bounds {cur : Mag} {nb : Nat} (h : SignedTop cur nb) :
    0 ≤ window (2 ^ 32) cur 0 nb ∧ window (2 ^ 32) cur 0 nb < (2 ^ 32) ^ nb := by
  have hlt := value_lt (by norm_num) h.limbs
  have hlen : (cur.take nb).length = nb := by simp [h.length_eq]
  rw [hlen] at hlt
  exact ⟨value_nonneg (by norm_num) h.limbs, hlt⟩

theorem SignedTop.val_eq {cur : Mag} {nb : Nat} (h : SignedTop cur nb) :
    val cur = window (2 ^ 32) cur 0 nb + (2 ^ 32) ^ nb * cur.getD nb 0 := by
  rw [← window_succ _ (by rw [h.length_eq]; exact Nat.lt_succ_self nb), ← h.length_eq,
    window_full]
  rfl

theorem SignedTop.top_nonneg_iff {cur : Mag} {nb : Nat} (h : SignedTop cur nb) :
    0 ≤ cur.getD nb 0 ↔ 0 ≤ val cur := by
  have hw := h.window_bounds
  have hpos : (0 : Int) < (2 ^ 32) ^ nb := by positivity
  rw [h.val_eq]
  constructor
  · intro htop
    have := mul_nonneg hpos.le htop
    omega
  · intro hval
    by_contra htop
    have : (2 ^ 32) ^ nb * cur.getD nb 0 ≤ (2 ^ 32) ^ nb * (-1) :=
      mul_le_mul_of_nonneg_left (by omega) hpos.le
    omega

theorem SignedTop.limbsOk {cur : Mag} {nb : Nat} (h : SignedTop cur nb) (hlow : 0 ≤ val cur)
    (hhigh : val cur < (2 ^ 32) ^ nb) : LimbsOk cur := by
  have hw := h.window_bounds
  have hpos : (0 : Int) < (2 ^ 32) ^ nb := by positivity
  have htop0 := h.top_nonneg_iff.2 hlow
  have htop : cur.getD nb 0 = 0 := by
    by_contra hne
    have : (2 ^ 32) ^ nb * 1 ≤ (2 ^ 32) ^ nb * cur.getD nb 0 :=
      mul_le_mul_of_nonneg_left (by omega) hpos.le
    rw [h.val_eq] at hhigh
    omega
  have hlen : nb < cur.length := by rw [h.length_eq]; exact Nat.lt_succ_self nb
  have hsplit : cur = cur.take nb ++ [0] := by
    conv_lhs => rw [← List.take_append_drop nb cur]
    rw [List.drop_eq_getElem_cons hlen, ← List.getD_eq_getElem _ 0, htop,
      List.drop_eq_nil_of_le (by rw [h.length_eq])]
  rw [hsplit]
  intro d hd
  rcases List.mem_append.1 hd with hd | hd
  · exact h.limbs d hd
  · rw [List.mem_singleton.1 hd]
    norm_num

theorem Filling.setTop {out : Mag} {nb : Nat} {v : Int} (h : Filling out (nb + 1) nb)
    (hlow : -2 ^ 34 ≤ v) (hhigh : v ≤ 2 ^ 34) :
    ∃ out', arraySet out nb v = some out' ∧ SignedTop out' nb ∧
      val out' = val out + (2 ^ 32) ^ nb * v := by
  have hlen : nb < out.length := by rw [h.length_eq]; exact Nat.lt_succ_self nb
  have hget : (out.set nb v).getD nb 0 = v := by
    rw [List.getD_eq_getElem _ _ (by simpa using hlen), List.getElem_set_self]
  refine ⟨out.set nb v, if_pos hlen, ⟨?_, ?_, ?_, ?_⟩, ?_⟩
  · rw [List.length_set, h.length_eq]
  · rw [List.take_set_of_le le_rfl]
    exact h.limbs.take nb
  · rw [hget]
    exact hlow
  · rw [hget]
    exact hhigh
  · rw [val, value_set _ hlen, h.untouched nb le_rfl, sub_zero]
    rfl

theorem shiftInLoop_spec {r : Mag} {nb nr : Nat} (hr : LimbsOk r) (hnr : nr ≤ r.length)
    (hnb : nr ≤ nb) :
    ∀ k i cur, i + k = nr → Filling cur (nb + 1) (i + 1) →
      ∃ cur', shiftInLoop r nr i cur = some cur' ∧ Filling cur' (nb + 1) (nr + 1) ∧
        val cur' = val cur + (2 ^ 32) ^ (i + 1) * window (2 ^ 32) r i nr := by
  intro k
  induction k with
  | zero =>
      intro i cur hik hfill
      have hi : i = nr := by omega
      subst hi
      refine ⟨cur, ?_, hfill, ?_⟩
      · rw [shiftInLoop, if_neg (lt_irrefl _)]
      · rw [window_of_le _ _ le_rfl]
        ring
  | succ k ih =>
      intro i cur hik hfill
      have hx := Digits.getD (r := 2 ^ 32) (by norm_num) hr i
      obtain ⟨cur1, hset, hfill1, hval1⟩ := hfill.arraySet (by omega) hx.1 hx.2
      obtain ⟨cur', hrun, hfill', hval'⟩ := ih (i + 1) cur1 (by omega) hfill1
      refine ⟨cur', ?_, hfill', ?_⟩
      · rw [shiftInLoop, if_pos (by omega), arrayGet_eq (by omega)]
        simp only [Option.bind_eq_bind, Option.bind_some, hset, hrun]
      · rw [hval', hval1, window_step _ hnr i, digitAt, if_pos (by omega)]
        ring

theorem shiftIn_spec {r : Mag} {limb : Int} {nb : Nat} (hr : LimbsOk r)
    (hlimb : 0 ≤ limb) (hlimb' : limb < 2 ^ 32) (hval : val r < (2 ^ 32) ^ nb) :
    ∃ cur, shiftIn r limb nb = some cur ∧ cur.length = nb + 1 ∧ LimbsOk cur ∧
      val cur = val r * 2 ^ 32 + limb := by
  have hnr : (if r.length < nb then r.length else nb) = min r.length nb := by
    rw [min_def]
    split <;> split <;> omega
  have hsig : sigLen r ≤ min r.length nb :=
    le_min (sigLen_le_length r) ((sigLen_le_iff hr nb).2 hval)
  obtain ⟨cur0, hset, hfill0, hval0⟩ := (filling_arrayMake (nb + 1)).arraySet
    (Nat.succ_pos nb) hlimb hlimb'
  obtain ⟨cur, hrun, hfill, hvalcur⟩ := @shiftInLoop_spec r nb _ hr (min_le_left _ nb)
    (min_le_right _ _) _ 0 cur0 (Nat.zero_add _) hfill0
  refine ⟨cur, ?_, hfill.length_eq, hfill.limbs, ?_⟩
  · rw [shiftIn, hnr]
    simp only [Option.bind_eq_bind, hset, Option.bind_some, hrun]
  · have hwin : window (2 ^ 32) r 0 (min r.length nb) = val r :=
      (value_eq_window _ (min_le_left _ _) fun j hj => getD_sigLen r j (hsig.trans hj)).symm
    rw [hvalcur, hval0, hwin, val_arrayMake]
    ring

theorem sub_column {q y mid lo mc : Int} (h : PartialProduct q y mid lo)
    (hq : 0 ≤ q) (hq' : q < 2 ^ 32) (hy : 0 ≤ y) (hy' : y < 2 ^ 32)
    (hmc : 0 ≤ mc) (hmc' : mc < 2 ^ 32) :
    ∃ t limb next,
      add (bitAnd lo 4294967295) mc = t ∧
      bitAnd t 4294967295 = limb ∧
      add (add (add (mul (q / 65536) (y / 65536)) (bitUshr mid 16)) (bitUshr lo 32))
        (bitUshr t 32) = next ∧
      0 ≤ limb ∧ limb < 2 ^ 32 ∧ 0 ≤ next ∧ next < 2 ^ 32 ∧
      limb + 2 ^ 32 * next = q * y + mc := by
  have hlomask : 0 ≤ bitAnd lo 4294967295 ∧ bitAnd lo 4294967295 < 2 ^ 32 := by
    have hlo := h.lo_bounds
    rw [show bitAnd lo 4294967295 = lo % 2 ^ 32 from
      bitAnd_mask 32 hlo.1 (by omega) (by norm_num)]
    omega
  have hzero : add 0 (bitAnd lo 4294967295) = bitAnd lo 4294967295 := by
    rw [add_eq (by omega) (by omega), zero_add]
  have hcol := mul_column h hq hq' hy hy' le_rfl (by norm_num) hmc hmc'
  rwa [hzero, zero_add] at hcol

theorem mulsubLoop_spec {cur b : Mag} {nb : Nat} {q : Int} (hcur : LimbsOk cur)
    (hlen : cur.length = nb + 1) (hb : LimbsOk b) (hnb : nb ≤ b.length) (hq : 0 ≤ q)
    (hq' : q < 2 ^ 32) :
    ∀ k i mc borrow out, i + k = nb → Filling out (nb + 1) i → 0 ≤ mc → mc < 2 ^ 32 →
      0 ≤ borrow → borrow ≤ 1 →
      ∃ out', mulsubLoop cur b nb (q % 65536) (q / 65536) i mc borrow out = some out' ∧
        SignedTop out' nb ∧
        val out' = val out + (2 ^ 32) ^ i *
          (window (2 ^ 32) cur i (nb + 1) - q * window (2 ^ 32) b i nb - mc - borrow) := by
  intro k
  induction k with
  | zero =>
      intro i mc borrow out hik hfill hmc hmc' hborrow hborrow'
      have hi : i = nb := by omega
      subst hi
      have htop := Digits.getD (r := 2 ^ 32) (by norm_num) hcur i
      have hdiff : sub (sub (cur.getD i 0) mc) borrow = cur.getD i 0 - mc - borrow := by
        rw [sub_eq (x := cur.getD i 0) (by omega) (by omega), sub_eq (by omega) (by omega)]
      obtain ⟨out', hset, hsigned, hval⟩ := Filling.setTop (v := cur.getD i 0 - mc - borrow)
        hfill (by omega) (by omega)
      refine ⟨out', ?_, hsigned, ?_⟩
      · rw [mulsubLoop, if_neg (lt_irrefl _), arrayGet_eq (by omega)]
        simp only [Option.bind_eq_bind, Option.bind_some, hdiff, hset]
      · rw [hval, window_of_le _ b le_rfl, window_step _ (by omega) i, digitAt,
          if_pos (Nat.lt_succ_self i), window_of_le _ cur le_rfl]
        ring
  | succ k ih =>
      intro i mc borrow out hik hfill hmc hmc' hborrow hborrow'
      have hc := Digits.getD (r := 2 ^ 32) (by norm_num) hcur i
      have hy := Digits.getD (r := 2 ^ 32) (by norm_num) hb i
      have hpart := partialProduct hq hq' hy.1 hy.2
      obtain ⟨hylo, hyhi⟩ := limb_halves hy.1 hy.2
      obtain ⟨t, limb, next, ht, hlimb, hnext, hlimb0, hlimb1, hnext0, hnext1, hcol⟩ :=
        sub_column hpart hq hq' hy.1 hy.2 hmc hmc'
      have hdiff : sub (sub (cur.getD i 0) limb) borrow = cur.getD i 0 - limb - borrow := by
        rw [sub_eq (x := cur.getD i 0) (by omega) (by omega), sub_eq (by omega) (by omega)]
      have hcwin := @window_step (2 ^ 32) cur (nb + 1) (by omega) i
      rw [digitAt, if_pos (by omega)] at hcwin
      have hbwin := window_step (r := 2 ^ 32) hnb i
      rw [digitAt, if_pos (by omega)] at hbwin
      by_cases hneg : cur.getD i 0 - limb - borrow < 0
      · have hadd : add (cur.getD i 0 - limb - borrow) 4294967296 =
            cur.getD i 0 - limb - borrow + 2 ^ 32 := add_eq (by omega) (by omega)
        obtain ⟨out1, hset, hfill1, hval1⟩ := hfill.arraySet
          (v := cur.getD i 0 - limb - borrow + 2 ^ 32) (by omega) (by omega) (by omega)
        obtain ⟨out', hrun, hsigned, hval'⟩ := ih (i + 1) next 1 out1 (by omega) hfill1 hnext0
          hnext1 (by norm_num) le_rfl
        refine ⟨out', ?_, hsigned, ?_⟩
        · rw [mulsubLoop, if_pos (by omega), arrayGet_eq (a := b) (by omega),
            arrayGet_eq (a := cur) (by omega)]
          simp only [Option.bind_eq_bind, Option.bind_some, hylo, hyhi, hpart.mid_eq,
            hpart.lo_eq, ht, hlimb, hnext, hdiff, if_pos hneg, hadd, hset, hrun]
        · rw [hval', hval1, hcwin, hbwin]
          linear_combination -(2 ^ 32) ^ i * hcol
      · obtain ⟨out1, hset, hfill1, hval1⟩ := hfill.arraySet
          (v := cur.getD i 0 - limb - borrow) (by omega) (by omega) (by omega)
        obtain ⟨out', hrun, hsigned, hval'⟩ := ih (i + 1) next 0 out1 (by omega) hfill1 hnext0
          hnext1 le_rfl (by norm_num)
        refine ⟨out', ?_, hsigned, ?_⟩
        · rw [mulsubLoop, if_pos (by omega), arrayGet_eq (a := b) (by omega),
            arrayGet_eq (a := cur) (by omega)]
          simp only [Option.bind_eq_bind, Option.bind_some, hylo, hyhi, hpart.mid_eq,
            hpart.lo_eq, ht, hlimb, hnext, hdiff, if_neg hneg, hset, hrun]
        · rw [hval', hval1, hcwin, hbwin]
          linear_combination -(2 ^ 32) ^ i * hcol

theorem mulsub_spec {cur b : Mag} {nb : Nat} {q : Int} (hcur : LimbsOk cur)
    (hlen : cur.length = nb + 1) (hb : LimbsOk b) (hnb : sigLen b = nb) (hq : 0 ≤ q)
    (hq' : q < 2 ^ 32) :
    ∃ out, mulsub cur b nb q = some out ∧ SignedTop out nb ∧ val out = val cur - q * val b := by
  obtain ⟨hqlo, hqhi⟩ := limb_halves hq hq'
  have hnblen : nb ≤ b.length := hnb ▸ sigLen_le_length b
  obtain ⟨out, hrun, hsigned, hval⟩ := mulsubLoop_spec hcur hlen hb hnblen hq hq' nb 0 0 0 _
    (Nat.zero_add _) (filling_arrayMake _) le_rfl (by norm_num) le_rfl (by norm_num)
  refine ⟨out, ?_, hsigned, ?_⟩
  · rw [mulsub, hqlo, hqhi, hrun]
  · rw [hval, val_arrayMake, val_eq_window b, hnb, ← hlen, window_full, val]
    ring

theorem addBackLoop_spec {cur b : Mag} {nb : Nat} (hcur : SignedTop cur nb) (hb : LimbsOk b)
    (hnb : nb ≤ b.length) (htop : cur.getD nb 0 < 0) :
    ∀ k i carry out, i + k = nb → Filling out (nb + 1) i → 0 ≤ carry → carry ≤ 1 →
      ∃ out', addBackLoop cur b nb i carry out = some out' ∧ SignedTop out' nb ∧
        val out' = val out + (2 ^ 32) ^ i * (window (2 ^ 32) cur i nb +
          window (2 ^ 32) b i nb + carry) + (2 ^ 32) ^ nb * cur.getD nb 0 := by
  have hlen := hcur.length_eq
  intro k
  induction k with
  | zero =>
      intro i carry out hik hfill hlow hhigh
      have hi : i = nb := by omega
      subst hi
      have htop' := hcur.top_low
      have hsum : add (cur.getD i 0) carry = cur.getD i 0 + carry := add_eq (by omega) (by omega)
      obtain ⟨out', hset, hsigned, hval⟩ := Filling.setTop (v := cur.getD i 0 + carry) hfill
        (by omega) (by omega)
      refine ⟨out', ?_, hsigned, ?_⟩
      · rw [addBackLoop, if_neg (lt_irrefl _), arrayGet_eq (by omega)]
        simp only [Option.bind_eq_bind, Option.bind_some, hsum, hset]
      · rw [hval, window_of_le _ _ le_rfl, window_of_le _ _ le_rfl]
        ring
  | succ k ih =>
      intro i carry out hik hfill hlow hhigh
      have hc := hcur.digit (i := i) (by omega)
      have hy := Digits.getD (r := 2 ^ 32) (by norm_num) hb i
      have hsum : add (add (cur.getD i 0) (b.getD i 0)) carry =
          cur.getD i 0 + b.getD i 0 + carry := by
        rw [add_eq (x := cur.getD i 0) (by omega) (by omega), add_eq (by omega) (by omega)]
      obtain ⟨hlo, hlo', hhi, hsplit⟩ := limb_split (s := cur.getD i 0 + b.getD i 0 + carry)
        (by omega) (by omega)
      obtain ⟨out1, hset, hfill1, hval1⟩ := hfill.arraySet (by omega) hlo hlo'
      obtain ⟨out', hrun, hsigned, hval'⟩ := ih (i + 1)
        (limbHi (cur.getD i 0 + b.getD i 0 + carry)) out1 (by omega) hfill1 hhi (by omega)
      refine ⟨out', ?_, hsigned, ?_⟩
      · rw [addBackLoop, if_pos (by omega), arrayGet_eq (a := cur) (by omega),
          arrayGet_eq (a := b) (by omega)]
        simp only [Option.bind_eq_bind, Option.bind_some, hsum, hset, hrun]
      · rw [hval', hval1, @window_step _ cur _ (by omega) i, digitAt, if_pos (by omega),
          window_step _ hnb i, digitAt, if_pos (by omega)]
        linear_combination (2 ^ 32) ^ i * hsplit

theorem addBack_spec {cur b : Mag} {nb : Nat} (hcur : SignedTop cur nb) (hb : LimbsOk b)
    (hnb : sigLen b = nb) (htop : cur.getD nb 0 < 0) :
    ∃ out, addBack cur b nb = some out ∧ SignedTop out nb ∧ val out = val cur + val b := by
  obtain ⟨out, hrun, hsigned, hval⟩ := addBackLoop_spec hcur hb (hnb ▸ sigLen_le_length b) htop
    nb 0 0 _ (Nat.zero_add _) (filling_arrayMake _) le_rfl (by norm_num)
  refine ⟨out, hrun, hsigned, ?_⟩
  rw [hval, val_arrayMake, hcur.val_eq, val_eq_window b, hnb]
  ring

theorem fixNegative_spec {b : Mag} {nb : Nat} (hb : LimbsOk b) (hnb : sigLen b = nb) (n : Nat) :
    ∀ q cur, SignedTop cur nb → 0 ≤ q → q < 2 ^ 32 → 0 ≤ q * val b + val cur →
      val cur < val b → -(n * val b) ≤ val cur →
      ∃ q' r, fixNegative (n + 1) q cur b nb = some (q', r) ∧ LimbsOk r ∧ val r < val b ∧
        q' * val b + val r = q * val b + val cur := by
  have hblt : val b < (2 ^ 32) ^ nb := (sigLen_le_iff hb nb).1 hnb.le
  induction n with
  | zero =>
      intro q cur hsigned hq hq' htotal hlt hge
      have hval : 0 ≤ val cur := by simpa using hge
      refine ⟨q, cur, ?_, hsigned.limbsOk hval (hlt.trans hblt), hlt, rfl⟩
      rw [fixNegative, arrayGet_eq (by rw [hsigned.length_eq]; exact Nat.lt_succ_self nb)]
      simp only [Option.bind_eq_bind, Option.bind_some, ge_iff_le,
        if_pos (hsigned.top_nonneg_iff.2 hval)]
  | succ n ih =>
      intro q cur hsigned hq hq' htotal hlt hge
      by_cases hval : 0 ≤ val cur
      · refine ⟨q, cur, ?_, hsigned.limbsOk hval (hlt.trans hblt), hlt, rfl⟩
        rw [fixNegative, arrayGet_eq (by rw [hsigned.length_eq]; exact Nat.lt_succ_self nb)]
        simp only [Option.bind_eq_bind, Option.bind_some, ge_iff_le,
          if_pos (hsigned.top_nonneg_iff.2 hval)]
      · have htop : ¬ 0 ≤ cur.getD nb 0 := fun h => hval (hsigned.top_nonneg_iff.1 h)
        have hqpos : 0 < q := by
          by_contra hq0
          have hqz : q = 0 := by omega
          rw [hqz, zero_mul] at htotal
          omega
        obtain ⟨cur1, hadd, hsigned1, hval1⟩ := addBack_spec hsigned hb hnb (by omega)
        have hbn : ((n + 1 : Nat) : Int) * val b = n * val b + val b := by push_cast; ring
        have hsub : sub q 1 = q - 1 := sub_eq (by omega) (by omega)
        have hqb : (q - 1) * val b = q * val b - val b := by ring
        obtain ⟨q', r, hrun, hr, hrlt, htot⟩ := ih (q - 1) cur1 hsigned1 (by omega) (by omega)
          (by omega) (by omega) (by omega)
        refine ⟨q', r, ?_, hr, hrlt, by omega⟩
        rw [fixNegative, arrayGet_eq (by rw [hsigned.length_eq]; exact Nat.lt_succ_self nb)]
        simp only [Option.bind_eq_bind, Option.bind_some, ge_iff_le, if_neg htop, hadd, hsub, hrun]

theorem Normalized.sigLen_pos {b : Mag} (hb : Normalized b) : 0 < sigLen b := by
  by_contra h
  have hzero := (sigLen_eq_zero_iff hb.limbs).1 (by omega)
  have := hb.pos
  omega

theorem Normalized.top_limb {b : Mag} (hb : Normalized b) :
    val b = b.getD (sigLen b - 1) 0 * (2 ^ 32) ^ (sigLen b - 1) +
      window (2 ^ 32) b 0 (sigLen b - 1) ∧
    2 ^ 31 ≤ b.getD (sigLen b - 1) 0 := by
  have hpos := hb.sigLen_pos
  have hlen := sigLen_le_length b
  have hsplit : val b = window (2 ^ 32) b 0 (sigLen b - 1) +
      (2 ^ 32) ^ (sigLen b - 1) * b.getD (sigLen b - 1) 0 := by
    rw [← window_succ _ (by omega), Nat.sub_add_cancel hpos, val_eq_window]
  refine ⟨by rw [hsplit]; ring, ?_⟩
  have hlow := window_lt (r := 2 ^ 32) (by norm_num) hb.limbs 0 (sigLen b - 1)
  have htop := hb.top_bit
  have hpow : ((2 : Int) ^ 32) ^ sigLen b = 2 ^ 32 * (2 ^ 32) ^ (sigLen b - 1) := by
    rw [← pow_succ', Nat.sub_add_cancel hpos]
  rw [Nat.sub_zero] at hlow
  by_contra hsmall
  have hweight : (0 : Int) < (2 ^ 32) ^ (sigLen b - 1) := by positivity
  have hle : (2 ^ 32) ^ (sigLen b - 1) * b.getD (sigLen b - 1) 0 ≤
      (2 ^ 32) ^ (sigLen b - 1) * (2 ^ 31 - 1) :=
    mul_le_mul_of_nonneg_left (by omega) hweight.le
  rw [hsplit, hpow] at htop
  omega

theorem divStep_spec {r b : Mag} {limb : Int} {nb : Nat} (hr : LimbsOk r) (hb : Normalized b)
    (hnb : sigLen b = nb) (hrb : val r < val b) (hlimb : 0 ≤ limb) (hlimb' : limb < 2 ^ 32) :
    ∃ q r', divStep r limb b nb = some (q, r') ∧ LimbsOk r' ∧ val r' < val b ∧
      0 ≤ q ∧ q < 2 ^ 32 ∧ q * val b + val r' = val r * 2 ^ 32 + limb := by
  have hblt : val b < (2 ^ 32) ^ nb := (sigLen_le_iff hb.limbs nb).1 hnb.le
  have hpos := hb.sigLen_pos
  have hlen := sigLen_le_length b
  have hr0 := val_nonneg hr
  rw [hnb] at hpos hlen
  obtain ⟨cur, hshift, hcurlen, hcur, hcurval⟩ := @shiftIn_spec r limb nb hr hlimb hlimb'
    (hrb.trans hblt)
  have hcursplit : val cur = (cur.getD nb 0 * 2 ^ 32 + cur.getD (nb - 1) 0) *
      (2 ^ 32) ^ (nb - 1) + window (2 ^ 32) cur 0 (nb - 1) := by
    have hone : nb = nb - 1 + 1 := by omega
    have hpow : ((2 : Int) ^ 32) ^ nb = 2 ^ 32 * (2 ^ 32) ^ (nb - 1) := by
      rw [← pow_succ', ← hone]
    have htop : val cur = window (2 ^ 32) cur 0 nb + (2 ^ 32) ^ nb * cur.getD nb 0 := by
      rw [← window_succ _ (by omega), ← hcurlen, window_full]
      rfl
    have hnext : window (2 ^ 32) cur 0 nb = window (2 ^ 32) cur 0 (nb - 1) +
        (2 ^ 32) ^ (nb - 1) * cur.getD (nb - 1) 0 := by
      rw [← window_succ _ (by omega), ← hone]
    rw [htop, hnext, hpow]
    ring
  obtain ⟨hbsplit, hv1⟩ := hb.top_limb
  rw [hnb] at hbsplit hv1
  have hv1' := (Digits.getD (r := 2 ^ 32) (by norm_num) hb.limbs (nb - 1)).2
  have hu1 := Digits.getD (r := 2 ^ 32) (by norm_num) hcur nb
  have hu0 := Digits.getD (r := 2 ^ 32) (by norm_num) hcur (nb - 1)
  have hclow := window_lt (r := 2 ^ 32) (by norm_num) hcur 0 (nb - 1)
  have hblow := window_lt (r := 2 ^ 32) (by norm_num) hb.limbs 0 (nb - 1)
  rw [Nat.sub_zero] at hclow hblow
  have hcb : val cur < val b * 2 ^ 32 := by omega
  obtain ⟨q, hest, hq0, hq1, hqlt, hqge⟩ := qhatEstimate_bounds (by positivity) hcursplit hbsplit
    (window_nonneg (by norm_num) hcur 0 _) hclow (window_nonneg (by norm_num) hb.limbs 0 _) hblow
    hu1.1 hu0.1 hu0.2 hv1 hv1' hcb
  obtain ⟨diff, hmulsub, hsigned, hdiff⟩ := mulsub_spec hcur hcurlen hb.limbs hnb hq0 hq1
  obtain ⟨q', r', hfix, hr', hrlt, htotal⟩ := fixNegative_spec hb.limbs hnb 2 q diff hsigned hq0
    hq1 (by rw [hdiff]; have := val_nonneg hcur; omega) (by omega) (by push_cast; omega)
  have hqb : q' * val b + val r' = val r * 2 ^ 32 + limb := by omega
  have hr'0 := val_nonneg hr'
  have hb0 := hb.pos
  have hqnonneg : 0 ≤ q' := by
    by_contra hneg
    have : q' * val b ≤ -1 * val b := mul_le_mul_of_nonneg_right (by omega) hb0.le
    omega
  have hqlimb : q' < 2 ^ 32 := by
    by_contra hbig
    have : 2 ^ 32 * val b ≤ q' * val b := mul_le_mul_of_nonneg_right (by omega) hb0.le
    omega
  refine ⟨q', r', ?_, hr', hrlt, hqnonneg, hqlimb, hqb⟩
  rw [divStep, hshift, Option.bind_eq_bind, Option.bind_some, arrayGet_eq (a := cur) (by omega),
    arrayGet_eq (a := cur) (by omega), arrayGet_eq (a := b) (by omega)]
  simp only [Option.bind_eq_bind, Option.bind_some, hest, hmulsub, hfix]

theorem schoolLoop_spec {a b : Mag} {nb : Nat} (ha : LimbsOk a) (hb : Normalized b)
    (hnb : sigLen b = nb) (n : Nat) (hn : n ≤ a.length) :
    ∀ q r, LimbsOk q → LimbsOk r → n ≤ q.length → (∀ j, j < n → q.getD j 0 = 0) →
      val r < val b →
      ∃ q' r', schoolLoop a b nb n q r = some (q', r') ∧ LimbsOk q' ∧ LimbsOk r' ∧
        val r' < val b ∧ val q' * val b + val r' =
          val q * val b + (2 ^ 32) ^ n * val r + window (2 ^ 32) a 0 n := by
  induction n with
  | zero =>
      intro q r hq hr _ _ hrb
      refine ⟨q, r, rfl, hq, hr, hrb, ?_⟩
      rw [window_of_le _ _ le_rfl]
      ring
  | succ n ih =>
      intro q r hq hr hqlen hzero hrb
      have hx := Digits.getD (r := 2 ^ 32) (by norm_num) ha n
      obtain ⟨digit, r1, hstep, hr1, hr1b, hd0, hd1, hdigit⟩ := divStep_spec hr hb hnb hrb hx.1 hx.2
      have hset : arraySet q n digit = some (q.set n digit) := if_pos hqlen
      have hvalset : val (q.set n digit) = val q + (2 ^ 32) ^ n * digit := by
        rw [val, value_set _ hqlen, hzero n (Nat.lt_succ_self n), sub_zero]
        rfl
      obtain ⟨q', r', hrun, hq', hr', hrb', htotal⟩ := ih (by omega) (q.set n digit) r1
        (hq.set n hd0 hd1) hr1 (by rw [List.length_set]; omega)
        (fun j hj => by
          rw [List.getD_eq_getElem?_getD, List.getElem?_set_ne (by omega),
            ← List.getD_eq_getElem?_getD]
          exact hzero j (by omega)) hr1b
      refine ⟨q', r', ?_, hq', hr', hrb', ?_⟩
      · rw [schoolLoop, arrayGet_eq (a := a) (by omega)]
        simp only [Option.bind_eq_bind, Option.bind_some, hstep, hset, hrun]
      · rw [htotal, hvalset, window_succ _ (by omega)]
        linear_combination (2 ^ 32) ^ n * hdigit

theorem divides_of_total {m : Option (Mag × Mag)} {q r : Mag} {a b : Int} (hrun : m = some (q, r))
    (hq : LimbsOk q) (hr : LimbsOk r) (hrb : val r < b) (htotal : val q * b + val r = a) :
    Divides m a b := by
  have hr0 := val_nonneg hr
  have hab : a = val r + b * val q := by rw [← htotal]; ring
  refine ⟨q, r, hrun, hq, hr, ?_, ?_⟩
  · rw [hab, Int.add_mul_ediv_left _ _ (by omega), Int.ediv_eq_zero_of_lt hr0 hrb, zero_add]
  · rw [hab, Int.add_mul_emod_self_left, Int.emod_eq_of_lt hr0 hrb]

theorem schoolDivmod_spec {a b : Mag} (ha : LimbsOk a) (hb : Normalized b) :
    Divides (schoolDivmod a b) (val a) (val b) := by
  have hfill := filling_arrayMake (if sigLen a ≤ 0 then 1 else sigLen a)
  obtain ⟨q, r, hrun, hq, hr, hrb, htotal⟩ := schoolLoop_spec ha hb rfl (sigLen a)
    (sigLen_le_length a) _ zeroMag hfill.limbs limbsOk_zeroMag
    (by rw [hfill.length_eq]; split <;> omega) (fun j _ => hfill.untouched j (Nat.zero_le j))
    (by rw [val_zeroMag]; exact hb.pos)
  refine divides_of_total hrun hq hr hrb ?_
  rw [htotal, val_arrayMake, val_zeroMag, val_eq_window a]
  ring

/-- Lowering the quotient and raising `u` until the subtraction of `t` is possible
keeps the dividend they stand for. -/
theorem fixDown_spec {t d : Mag} (ht : LimbsOk t) (hd : LimbsOk d) (n : Nat) :
    ∀ q u, LimbsOk q → LimbsOk u → 0 ≤ val q * val d + val u - val t →
      val u - val t < val d → val t ≤ val u + n * val d →
      ∃ q' u', fixDown (n + 1) q u t d = some (q', u') ∧ LimbsOk q' ∧ LimbsOk u' ∧
        val t ≤ val u' ∧ val u' - val t < val d ∧
        val q' * val d + val u' = val q * val d + val u := by
  have hdone : ∀ m q u, LimbsOk u → val t ≤ val u → fixDown (m + 1) q u t d = some (q, u) := by
    intro m q u hu hle
    rw [fixDown, magCmp_spec hu ht, if_neg (not_lt.2 hle)]
    simp only [Option.bind_eq_bind, Option.bind_some]
    rw [if_pos (by split <;> norm_num)]
  induction n with
  | zero =>
      intro q u hq hu _ hlt hge
      have hle : val t ≤ val u := by simpa using hge
      exact ⟨q, u, hdone 0 q u hu hle, hq, hu, hle, hlt, rfl⟩
  | succ n ih =>
      intro q u hq hu htotal hlt hge
      by_cases hle : val t ≤ val u
      · exact ⟨q, u, hdone _ q u hu hle, hq, hu, hle, hlt, rfl⟩
      · have hq0 := val_nonneg hq
        have hqpos : 1 ≤ val q := by
          by_contra hz
          rw [show val q = 0 by omega, zero_mul] at htotal
          omega
        obtain ⟨q1, hsub, hq1, hq1val⟩ := magSub_spec hq limbsOk_oneMag (by simpa using hqpos)
        obtain ⟨u1, hadd, hu1, hu1val⟩ := magAdd_spec hu hd
        rw [val_oneMag] at hq1val
        have hqd : val q1 * val d = val q * val d - val d := by rw [hq1val]; ring
        have hnd : ((n + 1 : Nat) : Int) * val d = n * val d + val d := by push_cast; ring
        obtain ⟨q', u', hrun, hq', hu', hle', hlt', htot⟩ := ih q1 u1 hq1 hu1 (by omega)
          (by omega) (by omega)
        refine ⟨q', u', ?_, hq', hu', hle', hlt', by omega⟩
        rw [fixDown, magCmp_spec hu ht, if_pos (not_le.1 hle)]
        simp only [Option.bind_eq_bind, Option.bind_some, ge_iff_le]
        rw [if_neg (by norm_num), hsub, Option.bind_some, hadd, Option.bind_some, hrun]

/-- Dividing by the high part `b1` of `b1 * s + b0` gives a quotient at most three
too large, and the estimate with its correction still stands for the dividend. -/
theorem estimate_step {s w b1 b0 ahi alo q r x : Int} (hs : 0 < s) (hw : 0 < w)
    (hb0 : 0 ≤ b0) (hb0' : b0 < s) (halo : 0 ≤ alo) (halo' : alo < s * w)
    (hq : 0 ≤ q) (hqr : q * b1 + r = ahi) (hr : 0 ≤ r) (hr' : r < b1) (hb1 : 3 ≤ b1)
    (hahi : ahi < (b1 + 2) * x) (hx : x ≤ 2 * b1) :
    q * ((b1 * s + b0) * w) + (alo + r * (s * w)) - q * b0 * w = ahi * (s * w) + alo ∧
      alo + r * (s * w) - q * b0 * w < (b1 * s + b0) * w ∧
      q * b0 * w ≤ alo + r * (s * w) + 3 * ((b1 * s + b0) * w) := by
  have hsw : 0 < s * w := mul_pos hs hw
  have hb0w : 0 ≤ b0 * w := mul_nonneg hb0 hw.le
  have hqb0w : 0 ≤ q * b0 * w := mul_nonneg (mul_nonneg hq hb0) hw.le
  have hrsw : 0 ≤ r * (s * w) := mul_nonneg hr hsw.le
  have hd : (b1 * s + b0) * w = b1 * (s * w) + b0 * w := by ring
  refine ⟨?_, ?_, ?_⟩
  · rw [← hqr]
    ring
  · have h : (r + 1) * (s * w) ≤ b1 * (s * w) := mul_le_mul_of_nonneg_right hr' hsw.le
    have hexp : (r + 1) * (s * w) = r * (s * w) + s * w := by ring
    omega
  · have hbound : (b1 + 2) * x ≤ (b1 + 2) * (2 * b1) := mul_le_mul_of_nonneg_left hx (by omega)
    have hq3 : q ≤ 3 * b1 := by
      by_contra hbig
      have hmul : (3 * b1 + 1) * b1 ≤ q * b1 := mul_le_mul_of_nonneg_right (by omega) (by omega)
      have hsq : 3 * b1 ≤ b1 * b1 := mul_le_mul_of_nonneg_right hb1 (by omega)
      have hexp1 : (3 * b1 + 1) * b1 = 3 * (b1 * b1) + b1 := by ring
      have hexp2 : (b1 + 2) * (2 * b1) = 2 * (b1 * b1) + 4 * b1 := by ring
      omega
    have h1 : q * (b0 * w) ≤ 3 * b1 * (s * w) :=
      mul_le_mul hq3 (mul_le_mul_of_nonneg_right hb0'.le hw.le) hb0w (by omega)
    have h2 : q * (b0 * w) = q * b0 * w := by ring
    have h3 : 3 * b1 * (s * w) = 3 * (b1 * (s * w)) := by ring
    omega

theorem Normalized.high {b b1 : Mag} {k : Nat} (hb : Normalized b) (hb1 : LimbsOk b1)
    (hval : val b1 = val b / (2 ^ 32) ^ k) (hk : k < sigLen b) :
    Normalized b1 ∧ sigLen b1 = sigLen b - k := by
  have hpos : (0 : Int) < (2 ^ 32) ^ k := by positivity
  have hpow : ((2 : Int) ^ 32) ^ sigLen b =
      2 * (2 ^ 31 * (2 ^ 32) ^ (sigLen b - k - 1)) * (2 ^ 32) ^ k := by
    have hsplit : sigLen b = sigLen b - k - 1 + 1 + k := by omega
    conv_lhs => rw [hsplit, pow_add, pow_succ]
    ring
  have hlow : 2 ^ 31 * (2 ^ 32) ^ (sigLen b - k - 1) ≤ val b1 := by
    rw [hval, Int.le_ediv_iff_mul_le hpos]
    have htop := hb.top_bit
    rw [hpow, mul_assoc] at htop
    omega
  have hlen1 : sigLen b1 ≤ sigLen b - k :=
    sigLen_high_le hb.limbs hb1 hval (by omega)
  have hlen2 : sigLen b - k ≤ sigLen b1 := by
    by_contra hlt
    have hsmall : val b1 < (2 ^ 32) ^ (sigLen b - k - 1) :=
      (sigLen_le_iff hb1 _).1 (by omega)
    have hone : (0 : Int) < (2 ^ 32) ^ (sigLen b - k - 1) := by positivity
    omega
  have hlen : sigLen b1 = sigLen b - k := le_antisymm hlen1 hlen2
  have hweight : (0 : Int) < (2 ^ 32) ^ (sigLen b - k - 1) := by positivity
  refine ⟨⟨hb1, by omega, ?_⟩, hlen⟩
  have hsucc : ((2 : Int) ^ 32) ^ sigLen b1 = 2 * (2 ^ 31 * (2 ^ 32) ^ (sigLen b - k - 1)) := by
    rw [hlen, show sigLen b - k = sigLen b - k - 1 + 1 by omega, pow_succ, Nat.add_sub_cancel]
    ring
  rw [hsucc]
  omega

/-- A division procedure that is right for quotients of about `m` limbs, for every
`m` below `size`. -/
def Divider (bzRec : Mag → Mag → Nat → Option (Mag × Mag)) (size : Nat) : Prop :=
  ∀ a b m, m < size → LimbsOk a → Normalized b → m ≤ sigLen b →
    val a < (val b + 2) * (2 ^ 32) ^ m → Divides (bzRec a b m) (val a) (val b)

theorem Divides.eq {m : Option (Mag × Mag)} {a b : Int} (h : Divides m a b) (hb : 0 < b) :
    ∃ q r, m = some (q, r) ∧ LimbsOk q ∧ LimbsOk r ∧ val q * b + val r = a ∧ val r < b := by
  obtain ⟨q, r, hrun, hq, hr, hqval, hrval⟩ := h
  refine ⟨q, r, hrun, hq, hr, ?_, ?_⟩
  · rw [hqval, hrval, mul_comm, add_comm]
    exact Int.emod_add_mul_ediv a b
  · rw [hrval]
    exact Int.emod_lt_of_pos a hb

theorem bind_run {α β : Type} {m : Option α} {x : α} (h : m = some x) (f : α → Option β) :
    (m >>= f) = f x := by
  rw [h]
  rfl

theorem bzSplit_spec {bzRec : Mag → Mag → Nat → Option (Mag × Mag)} {a b : Mag} {m k : Nat}
    (hrec : Divider bzRec m) (ha : LimbsOk a) (hb : Normalized b) (hm : m ≤ sigLen b)
    (hk : k = m / 2) (hbig : bzThreshold ≤ m) (hab : val a < (val b + 2) * (2 ^ 32) ^ m) :
    Divides (bzSplit bzRec a b m k) (val a) (val b) := by
  simp only [bzThreshold] at hbig
  obtain ⟨b1, hsb1, hb1, hvb1⟩ := magSlice_high (k := k) hb.limbs le_rfl
  obtain ⟨b0, hsb0, hb0, hvb0⟩ := magSlice_low hb.limbs k
  obtain ⟨hnorm1, hlen1⟩ := hb.high hb1 hvb1 (by omega)
  obtain ⟨hb00, hb0k⟩ := hvb0 ▸ val_mod_bounds b k
  have hs : (0 : Int) < (2 ^ 32) ^ k := by positivity
  have hbsplit : val b1 * (2 ^ 32) ^ k + val b0 = val b := by
    have h := val_split b k
    rw [← hvb0, ← hvb1] at h
    linear_combination h
  have hx : ∀ j, j ≤ m - k → ((2 : Int) ^ 32) ^ j ≤ 2 * val b1 := fun j hj =>
    (pow_le_pow_right₀ (by norm_num) (by omega)).trans hnorm1.top_bit
  have hb13 : 3 ≤ val b1 := by
    have h := hx 1 (by omega)
    rw [pow_one] at h
    omega
  -- the high half of the quotient
  obtain ⟨ahi, hsahi, hahi, hvahi⟩ := magSlice_high (k := 2 * k) ha le_rfl
  obtain ⟨alo, hsalo, halo, hvalo⟩ := magSlice_low ha (2 * k)
  obtain ⟨halo0, halok⟩ := hvalo ▸ val_mod_bounds a (2 * k)
  have hss : ((2 : Int) ^ 32) ^ (2 * k) = (2 ^ 32) ^ k * (2 ^ 32) ^ k := by
    rw [two_mul, pow_add]
  have hasplit : val ahi * ((2 ^ 32) ^ k * (2 ^ 32) ^ k) + val alo = val a := by
    have h := val_split a (2 * k)
    rw [← hvalo, ← hvahi, hss] at h
    linear_combination h
  have hb2 : val b + 2 ≤ (val b1 + 2) * (2 ^ 32) ^ k := by
    have hexp : (val b1 + 2) * (2 ^ 32) ^ k = val b1 * (2 ^ 32) ^ k + 2 * (2 ^ 32) ^ k := by ring
    omega
  have hahilt : val ahi < (val b1 + 2) * (2 ^ 32) ^ (m - k) := by
    rw [hvahi, Int.ediv_lt_iff_lt_mul (by positivity)]
    calc
      val a < (val b + 2) * (2 ^ 32) ^ m := hab
      _ ≤ (val b1 + 2) * (2 ^ 32) ^ k * (2 ^ 32) ^ m :=
          mul_le_mul_of_nonneg_right hb2 (by positivity)
      _ = (val b1 + 2) * (2 ^ 32) ^ (m - k) * (2 ^ 32) ^ (2 * k) := by
          rw [mul_assoc, mul_assoc, ← pow_add, ← pow_add,
            show k + m = m - k + 2 * k by omega]
  obtain ⟨qhi, rhi, hrhi, hqhi, hrhiok, hqrhi, hrhilt⟩ :=
    (hrec ahi b1 (m - k) (by omega) hahi hnorm1 (by omega) hahilt).eq hnorm1.pos
  obtain ⟨u, hu, huok, huval⟩ := magAddShifted_spec halo hrhiok (2 * k)
  obtain ⟨thi, hthi, hthiok, hthival⟩ := magMulFast_spec hqhi hb0
  obtain ⟨t, ht, htok, htval⟩ := magAddShifted_spec limbsOk_zeroMag hthiok k
  obtain ⟨d, hd, hdok, hdval⟩ := magAddShifted_spec limbsOk_zeroMag hb.limbs k
  rw [val_zeroMag, zero_add] at htval hdval
  rw [hss] at huval halok
  obtain ⟨htotal1, hlt1, hge1⟩ := estimate_step hs hs hb00 hb0k halo0 halok (val_nonneg hqhi)
    hqrhi (val_nonneg hrhiok) hrhilt hb13 hahilt (hx (m - k) le_rfl)
  rw [hbsplit, ← huval, ← hthival, ← htval, ← hdval] at htotal1 hlt1 hge1
  rw [hasplit] at htotal1
  have ha0 := val_nonneg ha
  obtain ⟨qtop, utop, htop, hqtop, hutop, hutop0, hutop1, htoptotal⟩ :=
    fixDown_spec htok hdok 3 qhi u hqhi huok (by omega) hlt1 (by push_cast; omega)
  obtain ⟨a1, hsub1, ha1, ha1val⟩ := magSub_spec hutop htok hutop0
  -- the low half
  obtain ⟨a1hi, hsa1hi, ha1hi, hva1hi⟩ := magSlice_high (k := k) ha1 le_rfl
  obtain ⟨a1lo, hsa1lo, ha1lo, hva1lo⟩ := magSlice_low ha1 k
  obtain ⟨ha1lo0, ha1lok⟩ := hva1lo ▸ val_mod_bounds a1 k
  have ha1split : val a1hi * ((2 ^ 32) ^ k * 1) + val a1lo = val a1 := by
    have h := val_split a1 k
    rw [← hva1lo, ← hva1hi] at h
    linear_combination h
  have ha1hilt : val a1hi < (val b1 + 2) * (2 ^ 32) ^ k := by
    have hlt : val a1hi < val b := by
      rw [hva1hi, Int.ediv_lt_iff_lt_mul hs, ← hdval, ha1val]
      exact hutop1
    omega
  obtain ⟨qlo, rlo, hrlo, hqlo, hrlook, hqrlo, hrlolt⟩ :=
    (hrec a1hi b1 k (by omega) ha1hi hnorm1 (by omega) ha1hilt).eq hnorm1.pos
  obtain ⟨v, hv, hvok, hvval⟩ := magAddShifted_spec ha1lo hrlook k
  obtain ⟨t0, ht0, ht0ok, ht0val⟩ := magMulFast_spec hqlo hb0
  obtain ⟨htotal0, hlt0, hge0⟩ := estimate_step hs one_pos hb00 hb0k ha1lo0
    (by rwa [mul_one]) (val_nonneg hqlo) hqrlo (val_nonneg hrlook) hrlolt hb13 ha1hilt
    (hx k (by omega))
  rw [ha1split, hbsplit, mul_one, mul_one, mul_one, ← hvval, ← ht0val] at htotal0
  rw [hbsplit, mul_one, mul_one, mul_one, ← hvval, ← ht0val] at hlt0 hge0
  have ha10 := val_nonneg ha1
  obtain ⟨qbot, ubot, hbot, hqbot, hubot, hubot0, hubot1, hbottotal⟩ :=
    fixDown_spec ht0ok hb.limbs 3 qlo v hqlo hvok (by omega) hlt0 (by push_cast; omega)
  obtain ⟨q, hq, hqok, hqval⟩ := magAddShifted_spec hqbot hqtop k
  obtain ⟨r, hr, hrok, hrval⟩ := magSub_spec hubot ht0ok hubot0
  refine divides_of_total (q := q) (r := r) ?_ hqok hrok (by omega) ?_
  · rw [bzSplit, bind_run hsb1, bind_run hsb0, bind_run hsahi, bind_run hrhi, bind_run hsalo,
      bind_run hu, bind_run hthi, bind_run ht, bind_run hd, bind_run htop, bind_run hsub1,
      bind_run hsa1hi, bind_run hrlo, bind_run hsa1lo, bind_run hv, bind_run ht0,
      bind_run hbot, bind_run hq, bind_run hr]
  · rw [hqval, hrval]
    rw [hdval] at htoptotal htotal1
    linear_combination hbottotal + htotal0 + htoptotal + htotal1 + ha1val

theorem bzRecFuel_spec (fuel : Nat) : Divider (bzRecFuel fuel) fuel := by
  induction fuel with
  | zero => exact fun _ _ _ h => absurd h (Nat.not_lt_zero _)
  | succ fuel ih =>
      intro a b m hm ha hb hmb hab
      rw [bzRecFuel]
      by_cases hsmall : m < bzThreshold
      · rw [if_pos hsmall]
        exact schoolDivmod_spec ha hb
      · rw [if_neg hsmall]
        exact bzSplit_spec (fun a' b' m' hm' => ih a' b' m' (by omega)) ha hb hmb rfl
          (not_lt.1 hsmall) hab

theorem bzRec_spec {a b : Mag} {m : Nat} (ha : LimbsOk a) (hb : Normalized b) (hmb : m ≤ sigLen b)
    (hab : val a < (val b + 2) * (2 ^ 32) ^ m) : Divides (bzRec a b m) (val a) (val b) :=
  bzRecFuel_spec _ a b m (Nat.lt_succ_self m) ha hb hmb hab

theorem copyBlock_spec {src : Mag} {offset nq : Nat} (hsrc : LimbsOk src)
    (hnq : nq ≤ src.length) :
    ∀ k i q, i + k = nq → LimbsOk q → offset + nq ≤ q.length →
      (∀ j, offset + i ≤ j → j < offset + nq → q.getD j 0 = 0) →
      ∃ q', copyBlock src offset nq i q = some q' ∧ LimbsOk q' ∧ q'.length = q.length ∧
        (∀ j, j < offset → q'.getD j 0 = q.getD j 0) ∧
        val q' = val q + (2 ^ 32) ^ (offset + i) * window (2 ^ 32) src i nq := by
  intro k
  induction k with
  | zero =>
      intro i q hik hq _ _
      refine ⟨q, ?_, hq, rfl, fun _ _ => rfl, ?_⟩
      · rw [copyBlock, if_neg (by omega)]
      · rw [window_of_le _ _ (by omega)]
        ring
  | succ k ih =>
      intro i q hik hq hlen hzero
      have hx := Digits.getD (r := 2 ^ 32) (by norm_num) hsrc i
      have hget : ∀ j, j ≠ offset + i →
          (q.set (offset + i) (src.getD i 0)).getD j 0 = q.getD j 0 := by
        intro j hj
        rw [List.getD_eq_getElem?_getD, List.getElem?_set_ne hj.symm,
          ← List.getD_eq_getElem?_getD]
      obtain ⟨q', hrun, hq', hlen', hkeep, hval⟩ := ih (i + 1)
        (q.set (offset + i) (src.getD i 0)) (by omega) (hq.set _ hx.1 hx.2)
        (by rw [List.length_set]; exact hlen)
        (fun j hj hj' => by rw [hget j (by omega)]; exact hzero j (by omega) hj')
      have hset : arraySet q (offset + i) (src.getD i 0) =
          some (q.set (offset + i) (src.getD i 0)) := if_pos (by omega)
      refine ⟨q', ?_, hq', by rw [hlen', List.length_set], ?_, ?_⟩
      · rw [copyBlock, if_pos (by omega), arrayGet_eq (by omega)]
        simp only [Option.bind_eq_bind, Option.bind_some, hset, hrun]
      · intro j hj
        rw [hkeep j hj, hget j (by omega)]
      · rw [hval, val, value_set _ (by omega), hzero _ le_rfl (by omega), window_step _ hnq i,
          digitAt, if_pos (by omega), val]
        ring

theorem emod_mul_split (a : Int) {b c : Int} (hb : 0 < b) (hc : 0 < c) :
    a % (b * c) = a % b + b * (a / b % c) := by
  have h1 := Int.emod_add_mul_ediv a b
  have h2 := Int.emod_add_mul_ediv (a / b) c
  have hb0 := Int.emod_nonneg a hb.ne'
  have hb1 : a % b + 1 ≤ b := Int.emod_lt_of_pos a hb
  have hc0 := Int.emod_nonneg (a / b) hc.ne'
  have hc1 : a / b % c + 1 ≤ c := Int.emod_lt_of_pos (a / b) hc
  have hlt : b * (a / b % c + 1) ≤ b * c := mul_le_mul_of_nonneg_left hc1 hb.le
  have hnonneg : 0 ≤ b * (a / b % c) := mul_nonneg hb.le hc0
  have hwhole : a = a % b + b * (a / b % c) + b * c * (a / b / c) := by
    calc
      a = a % b + b * (a / b) := h1.symm
      _ = a % b + b * (a / b % c + c * (a / b / c)) := by rw [h2]
      _ = _ := by ring
  rw [mul_add_one] at hlt
  conv_lhs => rw [hwhole]
  rw [Int.add_mul_emod_self_left, Int.emod_eq_of_lt (by omega) (by omega)]

theorem blockLoop_spec {a b : Mag} {nb : Nat} (ha : LimbsOk a) (hb : Normalized b)
    (hnb : sigLen b = nb) (n : Nat) :
    ∀ q r, LimbsOk q → LimbsOk r → n * nb ≤ q.length →
      (∀ j, j < n * nb → q.getD j 0 = 0) → val r < val b →
      ∃ q' r', blockLoop a b nb n q r = some (q', r') ∧ LimbsOk q' ∧ LimbsOk r' ∧
        val r' < val b ∧ val q' * val b + val r' =
          val q * val b + (2 ^ 32) ^ (n * nb) * val r + val a % (2 ^ 32) ^ (n * nb) := by
  induction n with
  | zero =>
      intro q r hq hr _ _ hrb
      refine ⟨q, r, rfl, hq, hr, hrb, ?_⟩
      rw [Nat.zero_mul, pow_zero, Int.emod_one]
      ring
  | succ n ih =>
      intro q r hq hr hlen hzero hrb
      have hstep : (n + 1) * nb = n * nb + nb := Nat.succ_mul n nb
      have hweight : (0 : Int) < (2 ^ 32) ^ nb := by positivity
      have hr0 := val_nonneg hr
      obtain ⟨block, hslice, hblock, hblockval⟩ := magSlice_spec ha (n * nb) ((n + 1) * nb)
      rw [hstep, Nat.add_sub_cancel_left] at hblockval
      have hblock1 : val block < (2 ^ 32) ^ nb := by
        rw [hblockval]
        exact Int.emod_lt_of_pos _ hweight
      obtain ⟨cur, hcur, hcurok, hcurval⟩ := magAddShifted_spec hblock hr nb
      have hcurlt : val cur < val b * (2 ^ 32) ^ nb := by
        have h : (val r + 1) * (2 ^ 32) ^ nb ≤ val b * (2 ^ 32) ^ nb :=
          mul_le_mul_of_nonneg_right hrb hweight.le
        rw [add_one_mul] at h
        omega
      have hcurlt' : val cur < (val b + 2) * (2 ^ 32) ^ nb := by
        rw [add_mul]
        omega
      obtain ⟨qs, rs, hdiv, hqs, hrs, hqrs, hrslt⟩ :=
        (bzRec_spec hcurok hb hnb.ge hcurlt').eq hb.pos
      have hqslt : val qs < (2 ^ 32) ^ nb := by
        by_contra hbig
        have h : (2 ^ 32) ^ nb * val b ≤ val qs * val b :=
          mul_le_mul_of_nonneg_right (not_lt.1 hbig) hb.pos.le
        have := val_nonneg hrs
        rw [mul_comm (val b)] at hcurlt
        omega
      have hqslen : sigLen qs ≤ nb := (sigLen_le_iff hqs nb).2 hqslt
      obtain ⟨q1, hcopy, hq1, hq1len, hkeep, hq1val⟩ := @copyBlock_spec qs (n * nb) _ hqs
        (sigLen_le_length qs) _ 0 q (Nat.zero_add _) hq (by omega)
        (fun j _ hj => hzero j (by omega))
      obtain ⟨q', r', hrun, hq', hr', hrb', htotal⟩ := ih q1 rs hq1 hrs (by omega)
        (fun j hj => by rw [hkeep j hj]; exact hzero j (by omega)) hrslt
      refine ⟨q', r', ?_, hq', hr', hrb', ?_⟩
      · rw [blockLoop]
        simp only [Option.bind_eq_bind, hslice, Option.bind_some, hcur, hdiv, hcopy, hrun]
      · rw [← val_eq_window, add_zero] at hq1val
        rw [htotal, hq1val, hstep, pow_add, emod_mul_split _ (by positivity) hweight,
          ← hblockval]
        linear_combination (2 ^ 32) ^ (n * nb) * (hqrs + hcurval)

theorem blockDivmod_spec {a b : Mag} (ha : LimbsOk a) (hb : Normalized b) :
    Divides (blockDivmod a b) (val a) (val b) := by
  have hpos := hb.sigLen_pos
  generalize hblocks : (sigLen a + sigLen b - 1) / sigLen b = blocks
  have hcover : sigLen a ≤ blocks * sigLen b := by
    have h := Nat.div_add_mod (sigLen a + sigLen b - 1) (sigLen b)
    have hmod := Nat.mod_lt (sigLen a + sigLen b - 1) hpos
    rw [hblocks, mul_comm] at h
    omega
  have hfill := filling_arrayMake (blocks * sigLen b + 1)
  obtain ⟨q, r, hrun, hq, hr, hrb, htotal⟩ := blockLoop_spec ha hb rfl blocks _ zeroMag hfill.limbs
    limbsOk_zeroMag (by rw [hfill.length_eq]; omega)
    (fun j _ => hfill.untouched j (Nat.zero_le j)) (by rw [val_zeroMag]; exact hb.pos)
  refine divides_of_total (q := q) (r := r) ?_ hq hr hrb ?_
  · simp only [blockDivmod, hblocks, hrun]
  · rw [htotal, val_arrayMake, val_zeroMag,
      Int.emod_eq_of_lt (val_nonneg ha) ((sigLen_le_iff ha _).1 hcover)]
    ring

theorem normalizedDivmod_spec {a b : Mag} (ha : LimbsOk a) (hb : Normalized b) :
    Divides (normalizedDivmod a b) (val a) (val b) := by
  unfold normalizedDivmod
  by_cases hsmall : sigLen b < bzThreshold
  · rw [if_pos hsmall]
    exact schoolDivmod_spec ha hb
  · rw [if_neg hsmall]
    exact blockDivmod_spec ha hb

theorem normalized_shift {den dens : Mag} {s : Nat} (hden : LimbsOk den) (hdens : LimbsOk dens)
    (hpos : 0 < val den) (hval : val dens = val den * 2 ^ s)
    (hlow : 2 ^ 31 ≤ den.getD (sigLen den - 1) 0 * 2 ^ s)
    (hhigh : den.getD (sigLen den - 1) 0 * 2 ^ s < 2 ^ 32) (hs : s ≤ 31) : Normalized dens := by
  have hlen : 0 < sigLen den := by
    by_contra h
    have := (sigLen_eq_zero_iff hden).1 (by omega)
    omega
  have hlen' := sigLen_le_length den
  generalize htop : den.getD (sigLen den - 1) 0 = top at hlow hhigh
  have htwo : (0 : Int) < 2 ^ s := by positivity
  have hweight : (0 : Int) < (2 ^ 32) ^ (sigLen den - 1) := by positivity
  have hpow : ((2 : Int) ^ 32) ^ sigLen den = 2 ^ 32 * (2 ^ 32) ^ (sigLen den - 1) := by
    rw [← pow_succ', Nat.sub_add_cancel hlen]
  have hsplit : val den = window (2 ^ 32) den 0 (sigLen den - 1) +
      (2 ^ 32) ^ (sigLen den - 1) * top := by
    rw [← htop, ← window_succ _ (by omega), Nat.sub_add_cancel hlen, val_eq_window]
  have hw0 := window_nonneg (r := 2 ^ 32) (by norm_num) hden 0 (sigLen den - 1)
  have hw1 := window_lt (r := 2 ^ 32) (by norm_num) hden 0 (sigLen den - 1)
  rw [Nat.sub_zero] at hw1
  -- the shifted top limb is a multiple of the shift, so one more still fits
  have hfit : (top + 1) * 2 ^ s ≤ 2 ^ 32 := by
    have h32 : (2 : Int) ^ (32 - s) * 2 ^ s = 2 ^ 32 := by
      rw [← pow_add, Nat.sub_add_cancel (by omega)]
    rw [← h32] at hhigh ⊢
    exact mul_le_mul_of_nonneg_right (lt_of_mul_lt_mul_right hhigh htwo.le) htwo.le
  have hupper : val dens < (2 ^ 32) ^ sigLen den := by
    have h1 : val den < (2 ^ 32) ^ (sigLen den - 1) * (top + 1) := by
      rw [mul_add_one]
      omega
    calc
      val dens = val den * 2 ^ s := hval
      _ < (2 ^ 32) ^ (sigLen den - 1) * (top + 1) * 2 ^ s := mul_lt_mul_of_pos_right h1 htwo
      _ ≤ (2 ^ 32) ^ (sigLen den - 1) * 2 ^ 32 := by
          rw [mul_assoc]
          exact mul_le_mul_of_nonneg_left hfit hweight.le
      _ = (2 ^ 32) ^ sigLen den := by rw [hpow, mul_comm]
  have hlower : (2 ^ 32) ^ (sigLen den - 1) * 2 ^ 31 ≤ val dens := by
    calc
      (2 ^ 32) ^ (sigLen den - 1) * 2 ^ 31 ≤ (2 ^ 32) ^ (sigLen den - 1) * (top * 2 ^ s) :=
          mul_le_mul_of_nonneg_left hlow hweight.le
      _ ≤ (window (2 ^ 32) den 0 (sigLen den - 1) + (2 ^ 32) ^ (sigLen den - 1) * top) * 2 ^ s := by
          rw [add_mul, mul_assoc]
          exact le_add_of_nonneg_left (mul_nonneg hw0 htwo.le)
      _ = val dens := by rw [hval, hsplit]
  refine ⟨hdens, by omega, ?_⟩
  calc
    ((2 : Int) ^ 32) ^ sigLen dens ≤ (2 ^ 32) ^ sigLen den :=
        pow_le_pow_right₀ (by norm_num) ((sigLen_le_iff hdens _).2 hupper)
    _ ≤ 2 * val dens := by omega

theorem magDivmod_lt {num den : Mag} (hnum : LimbsOk num) (hden : LimbsOk den)
    (hlt : val num < val den) : magDivmod num den = some (zeroMag, num) := by
  rw [magDivmod, magCmp_spec hnum hden, if_pos hlt]
  rfl

/-- The division proper: both operands shifted, divided, and the remainder shifted back. -/
structure Shifted (num den q rs : Mag) (s : Nat) (nums dens r : Mag) : Prop where
  shift : limbNormShift (den.getD (sigLen den - 1) 0) = some s
  bits : s ≤ 31
  nums_ok : LimbsOk nums
  nums_val : val nums = val num * 2 ^ s
  dens_ok : Normalized dens
  dens_val : val dens = val den * 2 ^ s
  divide : normalizedDivmod nums dens = some (q, r)
  r_ok : LimbsOk r
  r_val : val r = val nums % val dens
  back : magShrBits r s = some rs

theorem magDivmod_ge {num den : Mag} (hnum : LimbsOk num) (hden : LimbsOk den)
    (hpos : 0 < val den) (hge : ¬ val num < val den) : ∃ q rs s nums dens r,
      magDivmod num den = some (q, rs) ∧ Shifted num den q rs s nums dens r ∧ LimbsOk q ∧
      LimbsOk rs ∧ val q = val num / val den ∧ val rs = val num % val den := by
  have hlen : 0 < sigLen den := by
    by_contra h
    have := (sigLen_eq_zero_iff hden).1 (by omega)
    omega
  have hlen' := sigLen_le_length den
  have htop := Digits.getD (r := 2 ^ 32) (by norm_num) hden (sigLen den - 1)
  have htop0 := getD_sigLen_pred hlen
  obtain ⟨s, hshift, hs, hlow, hhigh⟩ := limbNormShift_spec (by omega) htop.2
  obtain ⟨nums, hnums, hnumsok, hnumsval⟩ := magShlBits_spec hnum hs
  obtain ⟨dens, hdens, hdensok, hdensval⟩ := magShlBits_spec hden hs
  have hnorm := normalized_shift hden hdensok hpos hdensval hlow hhigh hs
  obtain ⟨q, r, hdiv, hq, hr, hqval, hrval⟩ := normalizedDivmod_spec hnumsok hnorm
  obtain ⟨rs, hshr, hrs, hrsval⟩ := magShrBits_spec hr hs
  have htwo : (0 : Int) < 2 ^ s := by positivity
  refine ⟨q, rs, s, nums, dens, r, ?_,
    ⟨hshift, hs, hnumsok, hnumsval, hnorm, hdensval, hdiv, hr, hrval, hshr⟩, hq, hrs, ?_, ?_⟩
  · have hcmp : ¬ (if val num > val den then (1 : Int) else 0) < 0 := by split <;> norm_num
    rw [magDivmod, magCmp_spec hnum hden, if_neg hge]
    simp only [Option.bind_eq_bind, Option.bind_some, if_neg hcmp]
    rw [arrayGet_eq (by omega)]
    simp only [Option.bind_some, hshift, hnums, hdens, hdiv, hshr]
  · rw [hqval, hnumsval, hdensval, Int.mul_ediv_mul_of_pos_left _ _ htwo]
  · rw [hrsval, hrval, hnumsval, hdensval, mul_comm, mul_comm (val den),
      Int.mul_emod_mul_of_pos _ _ htwo, Int.mul_ediv_cancel_left _ htwo.ne']

theorem magDivmod_spec {num den : Mag} (hnum : LimbsOk num) (hden : LimbsOk den)
    (hpos : 0 < val den) : Divides (magDivmod num den) (val num) (val den) := by
  by_cases hlt : val num < val den
  · refine ⟨zeroMag, num, magDivmod_lt hnum hden hlt, limbsOk_zeroMag, hnum, ?_, ?_⟩
    · rw [val_zeroMag, Int.ediv_eq_zero_of_lt (val_nonneg hnum) hlt]
    · exact (Int.emod_eq_of_lt (val_nonneg hnum) hlt).symm
  · obtain ⟨q, rs, s, nums, dens, r, hrun, -, hq, hrs, hqval, hrsval⟩ :=
      magDivmod_ge hnum hden hpos hlt
    exact ⟨q, rs, hrun, hq, hrs, hqval, hrsval⟩

end Kaikai.BigIntDivision
