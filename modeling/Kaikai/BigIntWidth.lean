import Kaikai.BigIntArith

namespace Kaikai.BigIntWidth

open Kaikai.BigIntLimbs
open Kaikai.BigIntShift
open Kaikai.BigIntKaratsuba
open Kaikai.BigIntDivision
open Kaikai.BigIntParse
open Kaikai.Decimal
open Kaikai.Str

/-- The number of base `2 ^ 32` digits of a number. -/
def limbs (v : Int) : Nat := (Nat.digits (2 ^ 32) v.toNat).length

theorem limbs_le_iff {v : Int} (hv : 0 ≤ v) (k : Nat) : limbs v ≤ k ↔ v < (2 ^ 32) ^ k := by
  have hcast : (((2 ^ 32) ^ k : Nat) : Int) = (2 ^ 32) ^ k := by push_cast; rfl
  rw [limbs, Nat.digits_length_le_iff (by norm_num), ← hcast]
  omega

theorem limbs_eq {v : Int} {k : Nat} (hlow : (2 ^ 32) ^ k ≤ v) (hhigh : v < (2 ^ 32) ^ (k + 1)) :
    limbs v = k + 1 := by
  have hpos : (0 : Int) ≤ (2 ^ 32) ^ k := by positivity
  have hle := (limbs_le_iff (hpos.trans hlow) (k + 1)).2 hhigh
  have hnot : ¬ limbs v ≤ k := by
    rw [limbs_le_iff (hpos.trans hlow)]
    exact not_lt.2 hlow
  omega

theorem sigLen_eq_limbs {a : Mag} (ha : LimbsOk a) : sigLen a = limbs (val a) := by
  have hle : ∀ k, sigLen a ≤ k ↔ limbs (val a) ≤ k := by
    intro k
    rw [sigLen_le_iff ha, limbs_le_iff (val_nonneg ha)]
  exact Nat.le_antisymm ((hle _).2 le_rfl) ((hle _).1 le_rfl)

theorem length_arraySet {a r : Mag} {i : Nat} {v : Int} (h : arraySet a i v = some r) :
    r.length = a.length := by
  rw [arraySet] at h
  split_ifs at h
  rw [← Option.some.inj h, List.length_set]

theorem length_arrayMake (n : Nat) (v : Int) : (arrayMake n v).length = n :=
  List.length_replicate

theorem length_magAddLoop {a b out r : Mag} {na nb n i : Nat} {carry : Int}
    (h : magAddLoop a b na nb n i carry out = some r) : r.length = out.length := by
  fun_induction magAddLoop a b na nb n i carry out with
  | case1 i carry out hlt ih =>
      simp only [Option.bind_eq_bind, Option.bind_eq_some_iff] at h
      obtain ⟨av, -, bv, -, out1, hset, h⟩ := h
      rw [ih _ _ _ h, length_arraySet hset]
  | case2 i carry out hge => exact length_arraySet h

theorem length_magSubLoop {a b out r : Mag} {na nb i : Nat} {borrow : Int}
    (h : magSubLoop a b na nb i borrow out = some r) : r.length = out.length := by
  fun_induction magSubLoop a b na nb i borrow out with
  | case1 i borrow out hlt ih1 ih2 =>
      simp only [Option.bind_eq_bind, Option.bind_eq_some_iff] at h
      obtain ⟨bv, -, av, -, h⟩ := h
      split_ifs at h
      · obtain ⟨out1, hset, h⟩ := Option.bind_eq_some_iff.1 h
        rw [ih1 bv av _ h, length_arraySet hset]
      · obtain ⟨out1, hset, h⟩ := Option.bind_eq_some_iff.1 h
        rw [ih2 bv av _ h, length_arraySet hset]
  | case2 i borrow out hge => rw [← Option.some.inj h]

theorem length_magMulInner {b out r : Mag} {nb i j : Nat} {xlo xhi carry : Int}
    (h : magMulInner b nb i xlo xhi j carry out = some r) : r.length = out.length := by
  fun_induction magMulInner b nb i xlo xhi j carry out with
  | case1 j carry out hlt ih =>
      simp only [Option.bind_eq_bind, Option.bind_eq_some_iff] at h
      obtain ⟨y, -, old, -, out1, hset, h⟩ := h
      rw [ih _ _ _ h, length_arraySet hset]
  | case2 j carry out hge => exact length_arraySet h

theorem length_magMulLoop {a b out r : Mag} {na nb i : Nat}
    (h : magMulLoop a b na nb i out = some r) : r.length = out.length := by
  fun_induction magMulLoop a b na nb i out with
  | case1 i out hlt ih =>
      simp only [Option.bind_eq_bind, Option.bind_eq_some_iff] at h
      obtain ⟨x, -, out1, hinner, h⟩ := h
      rw [ih _ h, length_magMulInner hinner]
  | case2 i out hge => rw [← Option.some.inj h]

theorem length_magMuladdLimbLoop {a out r : Mag} {m carry : Int} {n i : Nat}
    (h : magMuladdLimbLoop a m n i carry out = some r) : r.length = out.length := by
  fun_induction magMuladdLimbLoop a m n i carry out with
  | case1 i carry out hlt ih =>
      simp only [Option.bind_eq_bind, Option.bind_eq_some_iff] at h
      obtain ⟨x, -, out1, hset, h⟩ := h
      rw [ih _ _ h, length_arraySet hset]
  | case2 i carry out hge => exact length_arraySet h

theorem length_magAddShiftedLoop {x y out r : Mag} {nx ny k n i : Nat} {carry : Int}
    (h : magAddShiftedLoop x y nx ny k n i carry out = some r) : r.length = out.length := by
  fun_induction magAddShiftedLoop x y nx ny k n i carry out with
  | case1 i carry out hlt ih =>
      simp only [Option.bind_eq_bind, Option.bind_eq_some_iff] at h
      obtain ⟨xv, -, yv, -, out1, hset, h⟩ := h
      rw [ih _ _ _ h, length_arraySet hset]
  | case2 i carry out hge => exact length_arraySet h

theorem length_magShrLoop {a out r : Mag} {s n i : Nat}
    (h : magShrLoop a s n i out = some r) : r.length = out.length := by
  fun_induction magShrLoop a s n i out with
  | case1 i out hlt ih =>
      simp only [Option.bind_eq_bind, Option.bind_eq_some_iff] at h
      obtain ⟨next, -, x, -, out1, hset, h⟩ := h
      rw [ih _ h, length_arraySet hset]
  | case2 i out hge => rw [← Option.some.inj h]

theorem length_schoolLoop {a b q r q' r' : Mag} {nb n : Nat}
    (h : schoolLoop a b nb n q r = some (q', r')) : q'.length = q.length := by
  induction n generalizing q r with
  | zero =>
      obtain ⟨rfl, rfl⟩ := Prod.mk.inj (Option.some.inj h)
      rfl
  | succ n ih =>
      simp only [schoolLoop, Option.bind_eq_bind, Option.bind_eq_some_iff] at h
      obtain ⟨limb, -, s, -, q1, hset, h⟩ := h
      rw [ih h, length_arraySet hset]

theorem length_copyBlock {src q r : Mag} {offset nq i : Nat}
    (h : copyBlock src offset nq i q = some r) : r.length = q.length := by
  fun_induction copyBlock src offset nq i q with
  | case1 i q hlt ih =>
      simp only [Option.bind_eq_bind, Option.bind_eq_some_iff] at h
      obtain ⟨x, -, q1, hset, h⟩ := h
      rw [ih _ h, length_arraySet hset]
  | case2 i q hge => rw [← Option.some.inj h]

theorem length_blockLoop {a b q r q' r' : Mag} {nb n : Nat}
    (h : blockLoop a b nb n q r = some (q', r')) : q'.length = q.length := by
  induction n generalizing q r with
  | zero =>
      obtain ⟨rfl, rfl⟩ := Prod.mk.inj (Option.some.inj h)
      rfl
  | succ n ih =>
      simp only [blockLoop, Option.bind_eq_bind, Option.bind_eq_some_iff] at h
      obtain ⟨block, -, cur, -, s, -, q1, hcopy, h⟩ := h
      rw [ih h, length_copyBlock hcopy]

/-- A computation that does not trap and returns limbs of the given value in an array of
`w` entries. -/
def Allocates (m : Option Mag) (v : Int) (w : Nat) : Prop :=
  ∃ out, m = some out ∧ LimbsOk out ∧ val out = v ∧ out.length = w

theorem Allocates.of_returns {m : Option Mag} {v : Int} {w : Nat} (h : Returns m v)
    (hw : ∀ out, m = some out → out.length = w) : Allocates m v w := by
  obtain ⟨out, hm, hok, hval⟩ := h
  exact ⟨out, hm, hok, hval, hw out hm⟩

theorem magAdd_width {a b : Mag} (ha : LimbsOk a) (hb : LimbsOk b) :
    Allocates (magAdd a b) (val a + val b) (max (limbs (val a)) (limbs (val b)) + 1) := by
  apply Allocates.of_returns (magAdd_spec ha hb)
  intro out hout
  rw [length_magAddLoop hout, length_arrayMake, sigLen_eq_limbs ha, sigLen_eq_limbs hb]
  split <;> omega

theorem magSub_width {a b : Mag} (ha : LimbsOk a) (hb : LimbsOk b) (h : val b ≤ val a) :
    Allocates (magSub a b) (val a - val b) (limbs (val a)) := by
  apply Allocates.of_returns (magSub_spec ha hb h)
  intro out hout
  rw [length_magSubLoop hout, length_arrayMake, sigLen_eq_limbs ha]

/-- The array of `u + v * 2 ^ (32 * k)`. -/
def shiftedWidth (u v : Int) (k : Nat) : Nat :=
  max (limbs u) (if limbs v = 0 then 0 else limbs v + k) + 1

theorem length_magAddShifted {x y out : Mag} {k : Nat} (hx : LimbsOk x) (hy : LimbsOk y)
    (h : magAddShifted x y k = some out) : out.length = shiftedWidth (val x) (val y) k := by
  have hmax : ∀ m n : Nat, (if m > n then m else n) = max m n := by
    intro m n
    split <;> omega
  rw [length_magAddShiftedLoop h, length_arrayMake, sigLen_eq_limbs hx, sigLen_eq_limbs hy, hmax,
    shiftedWidth]

/-- The array of the product of `u` by a shorter `v`. -/
def mulOrderedWidth (u v : Int) : Nat :=
  if limbs v < karatsubaThreshold then limbs u + limbs v
  else
    let h := (limbs u + 1) / 2
    let radix : Int := (2 ^ 32) ^ h
    if limbs v ≤ h then shiftedWidth (u % radix * v) (u / radix * v) h
    else shiftedWidth (u % radix * (v % radix) +
      (u % radix * (v / radix) + u / radix * (v % radix)) * radix) (u / radix * (v / radix)) (2 * h)

def mulWidth (u v : Int) : Nat :=
  if limbs u < limbs v then mulOrderedWidth v u else mulOrderedWidth u v

theorem mulOrdered_width {mulFast : Mag → Mag → Option Mag} {size : Nat} {a b : Mag}
    (hmul : Multiplies mulFast size) (ha : LimbsOk a) (hb : LimbsOk b)
    (hsize : sigLen a + sigLen b ≤ size) (hle : sigLen b ≤ sigLen a) :
    Allocates (mulOrdered mulFast a b (sigLen a) (sigLen b)) (val a * val b)
      (mulOrderedWidth (val a) (val b)) := by
  apply Allocates.of_returns (mulOrdered_spec hmul ha hb hsize hle)
  intro out hout
  unfold mulOrdered at hout
  simp only [mulOrderedWidth, ← sigLen_eq_limbs ha, ← sigLen_eq_limbs hb]
  by_cases hsmall : sigLen b < karatsubaThreshold
  · rw [if_pos hsmall] at hout ⊢
    rw [length_magMulLoop hout, length_arrayMake]
  · rw [if_neg hsmall] at hout ⊢
    simp only [karatsubaThreshold] at hsmall
    by_cases hlong : sigLen b ≤ (sigLen a + 1) / 2
    · rw [if_pos hlong] at hout ⊢
      obtain ⟨low, high, hlow, hhigh, hlowval, hhighval, hlast⟩ :=
        mulSplitLong_last hmul ha hb hsize (h := (sigLen a + 1) / 2) (by omega) (by omega)
      rw [← hlowval, ← hhighval]
      exact length_magAddShifted hlow hhigh (hlast.symm.trans hout)
    · rw [if_neg hlong] at hout ⊢
      obtain ⟨low, high, hlow, hhigh, hlowval, hhighval, hlast⟩ :=
        mulSplitBoth_last hmul ha hb (h := (sigLen a + 1) / 2) (by omega) (by omega) (by omega)
      rw [← hlowval, ← hhighval]
      exact length_magAddShifted hlow hhigh (hlast.symm.trans hout)

theorem magMulFast_width {a b : Mag} (ha : LimbsOk a) (hb : LimbsOk b) :
    Allocates (magMulFast a b) (val a * val b) (mulWidth (val a) (val b)) := by
  have hfuel := magMulFastFuel_spec (sigLen a + sigLen b)
  rw [magMulFast, magMulFastFuel, mulWidth, ← sigLen_eq_limbs ha, ← sigLen_eq_limbs hb]
  by_cases hlt : sigLen a < sigLen b
  · simp only [if_pos hlt]
    rw [mul_comm]
    exact mulOrdered_width hfuel hb ha (by omega) (by omega)
  · simp only [if_neg hlt]
    exact mulOrdered_width hfuel ha hb (by omega) (by omega)

/-- The shift that sets the top bit of the top limb of `v`. -/
def divShift (v : Int) : Nat := (limbNormShift (v / (2 ^ 32) ^ (limbs v - 1))).getD 0

/-- The arrays of the quotient and of the remainder of `u` by a `v` that is at most `u`. -/
def quotientWidth (u v : Int) : Nat :=
  let na := limbs (u * 2 ^ divShift v)
  let nb := limbs (v * 2 ^ divShift v)
  if nb < bzThreshold then max 1 na else (na + nb - 1) / nb * nb + 1

def remainderWidth (u v : Int) : Nat :=
  max 1 (limbs (u * 2 ^ divShift v % (v * 2 ^ divShift v)))

theorem top_limb_eq {a : Mag} (ha : LimbsOk a) (hpos : 0 < sigLen a) :
    a.getD (sigLen a - 1) 0 = val a / (2 ^ 32) ^ (limbs (val a) - 1) := by
  have hlen := sigLen_le_length a
  have hsplit : val a = Positional.window (2 ^ 32) a 0 (sigLen a - 1) +
      (2 ^ 32) ^ (sigLen a - 1) * a.getD (sigLen a - 1) 0 := by
    rw [← Positional.window_succ _ (by omega), Nat.sub_add_cancel hpos, ← val_eq_window]
  have hlow := Positional.window_nonneg (r := 2 ^ 32) (by norm_num) ha 0 (sigLen a - 1)
  have hlt := Positional.window_lt (r := 2 ^ 32) (by norm_num) ha 0 (sigLen a - 1)
  rw [Nat.sub_zero] at hlt
  rw [← sigLen_eq_limbs ha]
  conv_rhs => rw [hsplit]
  rw [Int.add_mul_ediv_left _ _ (by positivity), Int.ediv_eq_zero_of_lt hlow hlt, zero_add]

theorem length_normalizedDivmod {a b q r : Mag} (ha : LimbsOk a) (hb : LimbsOk b)
    (h : normalizedDivmod a b = some (q, r)) :
    q.length = if limbs (val b) < bzThreshold then max 1 (limbs (val a))
      else (limbs (val a) + limbs (val b) - 1) / limbs (val b) * limbs (val b) + 1 := by
  rw [normalizedDivmod] at h
  rw [← sigLen_eq_limbs ha, ← sigLen_eq_limbs hb]
  by_cases hsmall : sigLen b < bzThreshold
  · rw [if_pos hsmall] at h ⊢
    rw [length_schoolLoop h, length_arrayMake]
    split <;> omega
  · rw [if_neg hsmall] at h ⊢
    rw [length_blockLoop h, length_arrayMake]

theorem magDivmod_width {num den : Mag} (hnum : LimbsOk num) (hden : LimbsOk den)
    (hpos : 0 < val den) (hge : ¬ val num < val den) : ∃ q r, magDivmod num den = some (q, r) ∧
      LimbsOk q ∧ LimbsOk r ∧ val q = val num / val den ∧ val r = val num % val den ∧
      q.length = quotientWidth (val num) (val den) ∧
      r.length = remainderWidth (val num) (val den) := by
  obtain ⟨q, rs, s, nums, dens, r, hrun, hshifted, hq, hrs, hqval, hrsval⟩ :=
    magDivmod_ge hnum hden hpos hge
  have hlen : 0 < sigLen den := by
    by_contra h
    have hzero := (sigLen_eq_zero_iff hden).1 (by omega)
    omega
  have hs : divShift (val den) = s := by
    rw [divShift, ← top_limb_eq hden hlen, hshifted.shift]
    rfl
  refine ⟨q, rs, hrun, hq, hrs, hqval, hrsval, ?_, ?_⟩
  · rw [quotientWidth, hs, ← hshifted.nums_val, ← hshifted.dens_val]
    exact length_normalizedDivmod hshifted.nums_ok hshifted.dens_ok.limbs hshifted.divide
  · rw [remainderWidth, hs, ← hshifted.nums_val, ← hshifted.dens_val, ← hshifted.r_val,
      length_magShrLoop hshifted.back, length_arrayMake, sigLen_eq_limbs hshifted.r_ok]
    split <;> omega

/-- The digits that a text starts with. -/
def digitPrefix (ds : Str) : Str := ds.takeWhile fun b => IsDigit b

/-- How many of the leading digits `p` of `ds` come in runs of nine before the last run. -/
def wholeDigits (p ds : Str) : Nat :=
  9 * (if p.length < ds.length then p.length / 9 else (p.length - 1) / 9)

/-- The array that a fold over `ds` leaves. -/
def foldWidth (ds : Str) : Nat :=
  limbs (digitsOf ((digitPrefix ds).take (wholeDigits (digitPrefix ds) ds))) + 1

/-- The number read from a text that is cut in halves, and the array it comes in: a half with
a byte that is no digit stands for the whole. -/
def readShape (ds : Str) : Int × Nat :=
  if ds.length ≤ leafDigits then (digitsOf (digitPrefix ds), foldWidth ds)
  else
    let width := leafDigits * 2 ^ splitLevel ds.length
    let high := ds.take (ds.length - width)
    let low := ds.drop (ds.length - width)
    if ¬ AllDigits high then readShape high
    else if ¬ AllDigits low then readShape low
    else (digitsOf ds, max (limbs (digitsOf high * 10 ^ width)) (limbs (digitsOf low)) + 1)
termination_by ds.length
decreasing_by
  · have hpos : 0 < leafDigits * 2 ^ splitLevel ds.length := by
      unfold leafDigits
      positivity
    rw [List.length_take]
    omega
  · have hlong : leafDigits < ds.length := by omega
    have hcut := (splitLevel_spec hlong).1
    rw [List.length_drop]
    omega

def textShape (ds : Str) : Int × Nat :=
  if ds.length ≤ parseSplitDigits then (digitsOf (digitPrefix ds), foldWidth ds) else readShape ds

/-- A parse that returns the given number in an array of the given width. -/
def Shaped (m : Option (Mag × Bool)) (shape : Int × Nat) : Prop :=
  ∃ out ok, m = some (out, ok) ∧ LimbsOk out ∧ val out = shape.1 ∧ out.length = shape.2

theorem digitPrefix_append {ds es : Str} (hds : AllDigits ds) :
    digitPrefix (ds ++ es) = ds ++ digitPrefix es := by
  apply List.takeWhile_append_of_pos
  intro b hb
  exact decide_eq_true (hds b hb)

theorem digitPrefix_stop {b : UInt8} {ds : Str} (hb : ¬ IsDigit b) : digitPrefix (b :: ds) = [] := by
  rw [digitPrefix, List.takeWhile_cons_of_neg]
  simpa using hb

theorem digitPrefix_all {ds : Str} (hds : AllDigits ds) : digitPrefix ds = ds := by
  have hnil : digitPrefix (ds ++ []) = ds ++ digitPrefix [] := digitPrefix_append hds
  simpa [digitPrefix] using hnil

theorem digitPrefix_length (ds : Str) : (digitPrefix ds).length ≤ ds.length :=
  (List.takeWhile_prefix _).length_le

theorem digitRun_bad {s : Str} {i n : Nat} {value mult : Int}
    (h : (digitRun s i n value mult).bad = true) :
    (digitRun s i n value mult).mult < chunkBase ∧ (digitRun s i n value mult).next < n ∧
      ∀ b, s[(digitRun s i n value mult).next]? = some b → ¬ IsDigit b := by
  fun_induction digitRun s i n value mult with
  | case1 i value mult hstop => exact absurd h (by simp)
  | case2 i value mult hstop d hdigit ih => exact ih h
  | case3 i value mult hstop d hdigit =>
      rw [not_or, not_le, not_le] at hstop
      refine ⟨hstop.1, hstop.2, ?_⟩
      intro b hb hbdigit
      obtain ⟨hi, rfl⟩ := List.getElem?_eq_some_iff.1 hb
      exact hdigit ((isDigit_iff hi).1 hbdigit)

theorem wholeDigits_short {p ds : Str} (h : p.length < 9 ∨ p.length = 9 ∧ ds.length ≤ 9) :
    wholeDigits p ds = 0 := by
  unfold wholeDigits
  split <;> omega

theorem wholeDigits_run {q p ds : Str} (hq : q.length = 9) (hp : p.length ≤ ds.length)
    (hds : 0 < ds.length) : wholeDigits (q ++ p) (q ++ ds) = 9 + wholeDigits p ds := by
  unfold wholeDigits
  rw [List.length_append, List.length_append, hq]
  by_cases hlt : p.length < ds.length
  · rw [if_pos (by omega), if_pos hlt]
    omega
  · rw [if_neg (by omega), if_neg hlt]
    omega

theorem foldDigitsFuel_shape {s : Str} {n : Nat} (hn : n ≤ s.length) (fuel : Nat) :
    ∀ i acc, n - i < fuel → i ≤ n → LimbsOk acc →
      Shaped (foldDigitsFuel fuel s i n acc)
        (val acc * 10 ^ (digitPrefix (span s i n)).length + digitsOf (digitPrefix (span s i n)),
          limbs (val acc * 10 ^ wholeDigits (digitPrefix (span s i n)) (span s i n) +
            digitsOf ((digitPrefix (span s i n)).take
              (wholeDigits (digitPrefix (span s i n)) (span s i n)))) + 1) := by
  induction fuel with
  | zero => omega
  | succ fuel ih =>
      intro i acc hfuel hi hacc
      obtain ⟨taken, hran⟩ :=
        digitRun_spec hn _ i 0 0 1 rfl hi (by norm_num) rfl le_rfl (by norm_num)
      have hstop := @digitRun_bad s i n 0 1
      rw [foldDigitsFuel]
      generalize digitRun s i n 0 1 = run at hran hstop ⊢
      obtain ⟨hnext, hle, hwidth, hall, hmult, hvalue, hlow, hhigh, -, hfull⟩ := hran
      rw [Nat.zero_add] at hmult hwidth hfull
      rw [zero_mul, zero_add] at hvalue
      have hpow : (10 : Int) ^ taken ≤ 10 ^ 9 := pow_le_pow_right₀ (by norm_num) hwidth
      have hpos : (0 : Int) < 10 ^ taken := by positivity
      obtain ⟨acc1, hrun, hacc1, hval⟩ := magMuladdLimb_spec (m := run.mult) (c := run.value) hacc
        (by omega) (by omega) hlow (by omega)
      have hlength : acc1.length = limbs (val acc) + 1 := by
        rw [length_magMuladdLimbLoop hrun, length_arrayMake, sigLen_eq_limbs hacc]
      have hsplit := span_split s (i + taken) (Nat.le_add_right i taken) hle
      have hlen : (span s i (i + taken)).length = taken := by
        rw [length_span (hle.trans hn), Nat.add_sub_cancel_left]
      have hspanlen : (span s i n).length = n - i := length_span hn
      rw [hmult, hvalue] at hval
      simp only [hrun, Option.bind_eq_bind, Option.bind_some]
      by_cases hlast : run.bad = true ∨ run.next ≥ n
      · -- the last run: the leading digits are those it took
        have hprefix : digitPrefix (span s i n) = span s i (i + taken) ∧
            wholeDigits (span s i (i + taken)) (span s i n) = 0 := by
          by_cases hend : i + taken = n
          · rw [← hend] at hspanlen ⊢
            refine ⟨digitPrefix_all hall, wholeDigits_short ?_⟩
            omega
          · have hbad : run.bad = true := by
              rcases hlast with hbad | hge
              · exact hbad
              · omega
            obtain ⟨hchunk, hlt, hbyte⟩ := hstop hbad
            have hnine : taken < 9 := by
              by_contra hge
              rw [hmult, show taken = 9 by omega, chunkBase] at hchunk
              norm_num at hchunk
            have hat : i + taken < s.length := by omega
            have hcons : span s (i + taken) n = s[i + taken] :: span s (i + taken + 1) n :=
              span_cons (by omega) hn
            have hno : ¬ IsDigit s[i + taken] := by
              apply hbyte
              rw [hnext]
              exact List.getElem?_eq_getElem hat
            refine ⟨?_, wholeDigits_short (by omega)⟩
            rw [hsplit, digitPrefix_append hall, hcons, digitPrefix_stop hno, List.append_nil]
        rw [if_pos hlast]
        refine ⟨acc1, !run.bad, rfl, hacc1, ?_, ?_⟩
        · rw [hval, hprefix.1, hlen]
        · rw [hlength, hprefix.1, hprefix.2]
          simp [digitsOf]
      · rw [if_neg hlast]
        have hnine : taken = 9 := by
          rw [not_or, Bool.not_eq_true] at hlast
          have hcases := hfull hlast.1
          omega
        obtain ⟨out, ok, hloop, hout, hread, hshape⟩ := ih (i + taken) acc1 (by omega) hle hacc1
        dsimp only at hread hshape
        have hrest : (span s (i + taken) n).length = n - (i + taken) := length_span hn
        have hwhole : wholeDigits
            (span s i (i + taken) ++ digitPrefix (span s (i + taken) n))
            (span s i (i + taken) ++ span s (i + taken) n) =
              9 + wholeDigits (digitPrefix (span s (i + taken) n)) (span s (i + taken) n) :=
          wholeDigits_run (by omega) (digitPrefix_length _) (by omega)
        rw [hnext]
        refine ⟨out, ok, hloop, hout, ?_, ?_⟩
        · rw [hread, hval, hsplit, digitPrefix_append hall, digitsOf_append, List.length_append, hlen]
          push_cast
          ring
        · have htake : ∀ (q p : Str) (k : Nat), q.length = 9 →
              (q ++ p).take (9 + k) = q ++ p.take k := by
            intro q p k hq
            rw [List.take_append, List.take_of_length_le (by omega), hq, Nat.add_sub_cancel_left]
          rw [hshape, hsplit, digitPrefix_append hall, hwhole, htake _ _ _ (by omega),
            digitsOf_append, hval, hnine]
          have hcut : wholeDigits (digitPrefix (span s (i + taken) n)) (span s (i + taken) n) ≤
              (digitPrefix (span s (i + taken) n)).length := by
            unfold wholeDigits
            split <;> omega
          rw [hnine] at hcut
          congr 2
          rw [digitsOf_append, List.length_take, Nat.min_eq_left hcut]
          push_cast
          ring

theorem foldDigits_shape {s : Str} {i n : Nat} (hi : i ≤ n) (hn : n ≤ s.length) :
    Shaped (foldDigits s i n BigIntKaratsuba.zeroMag)
      (digitsOf (digitPrefix (span s i n)), foldWidth (span s i n)) := by
  have h := foldDigitsFuel_shape hn _ i BigIntKaratsuba.zeroMag (Nat.lt_succ_self _) hi BigIntKaratsuba.limbsOk_zeroMag
  rw [BigIntKaratsuba.val_zeroMag, zero_mul, zero_add, zero_mul, zero_add] at h
  exact h

theorem joinHalves_shape {mh ml : Option (Mag × Bool)} {p : Mag} {ds es : Str}
    {high low : Int × Nat} (hh : Reads mh 0 ds) (hhs : Shaped mh high) (hl : Reads ml 0 es)
    (hls : Shaped ml low) (hp : LimbsOk p) (hval : val p = 10 ^ es.length) :
    Shaped (do
      let high ← mh
      let low ← ml
      joinHalves high low p)
      (if ¬ AllDigits ds then high else if ¬ AllDigits es then low
        else (digitsOf (ds ++ es),
          max (limbs (digitsOf ds * 10 ^ es.length)) (limbs (digitsOf es)) + 1)) := by
  obtain ⟨out, ok, rfl, hout, hflag, hread⟩ := hh
  obtain ⟨out', ok', rfl, hout', hflag', hread'⟩ := hl
  simp only [Option.bind_eq_bind, Option.bind_some, joinHalves]
  cases ok with
  | false =>
      have hbad : ¬ AllDigits ds := fun hall => Bool.false_ne_true (hflag.2 hall)
      rw [if_pos hbad]
      exact hhs
  | true =>
      have hds : AllDigits ds := hflag.1 rfl
      rw [if_neg (not_not.2 hds)]
      cases ok' with
      | false =>
          have hbad : ¬ AllDigits es := fun hall => Bool.false_ne_true (hflag'.2 hall)
          rw [if_pos hbad]
          exact hls
      | true =>
          have hes : AllDigits es := hflag'.1 rfl
          rw [if_neg (not_not.2 hes)]
          obtain ⟨product, hmul, hproduct, hprod⟩ := magMulFast_spec hout hp
          obtain ⟨sum, hadd, hsum, hsumval, hlen⟩ := magAdd_width hproduct hout'
          have hhigh := hread rfl
          have hlow := hread' rfl
          rw [zero_mul, zero_add] at hhigh hlow
          rw [hprod, hval, hhigh, hlow] at hsumval hlen
          refine ⟨sum, true, ?_, hsum, ?_, hlen⟩
          · simp only [hmul, hadd, Option.bind_some, Bool.not_true, Bool.false_eq_true, if_false]
          · rw [hsumval, digitsOf_append]
            push_cast
            rfl

theorem digitsValueFuel_shape {s : Str} {powers : List Mag} {levels : Nat}
    (hpowers : Powers powers leafDigits levels) (fuel : Nat) :
    ∀ lo hi, hi - lo < fuel → lo ≤ hi → hi ≤ s.length →
      (leafDigits < hi - lo → splitLevel (hi - lo) < levels) →
      Shaped (digitsValueFuel fuel s powers lo hi) (readShape (span s lo hi)) := by
  induction fuel with
  | zero => omega
  | succ fuel ih =>
      intro lo hi hfuel hlo hhi hlevels
      have hspan : (span s lo hi).length = hi - lo := length_span hhi
      rw [digitsValueFuel, readShape, hspan]
      by_cases hleaf : hi - lo ≤ leafDigits
      · rw [if_pos hleaf, if_pos hleaf]
        exact foldDigits_shape hlo hhi
      · rw [if_neg hleaf, if_neg hleaf, digitsSplit]
        have hlong := not_le.1 hleaf
        obtain ⟨hcut, -⟩ := splitLevel_spec hlong
        have hlevel := hlevels hlong
        obtain ⟨hpok, hpval⟩ := hpowers (splitLevel (hi - lo))
        have hpos : 0 < leafDigits * 2 ^ splitLevel (hi - lo) := by
          unfold leafDigits
          positivity
        have hpval := hpval hlevel
        generalize hwidth : leafDigits * 2 ^ splitLevel (hi - lo) = width at hcut hpos hpval ⊢
        have hmono : ∀ len, leafDigits < len → len ≤ hi - lo → splitLevel len < levels :=
          fun len hl hle => (splitLevel_mono hl hle).trans_lt hlevel
        have hhigh := ih lo (hi - width) (by omega) (by omega) (by omega)
          fun hl => hmono (hi - width - lo) hl (by omega)
        have hlow := ih (hi - width) hi (by omega) (by omega) hhi fun hl =>
          hmono (hi - (hi - width)) hl (by omega)
        have hreadHigh := digitsValueFuel_spec hpowers fuel lo (hi - width) (by omega) (by omega)
          ((Nat.sub_le _ _).trans hhi) fun hl => hmono (hi - width - lo) hl (by omega)
        have hreadLow := digitsValueFuel_spec hpowers fuel (hi - width) hi (by omega) (by omega) hhi
          fun hl => hmono (hi - (hi - width)) hl (by omega)
        have hlen : (span s (hi - width) hi).length = width := by
          rw [length_span hhi]
          omega
        have hlenHigh : (span s lo (hi - width)).length = hi - lo - width := by
          rw [length_span ((Nat.sub_le _ _).trans hhi)]
          omega
        have hsplit : span s lo hi = span s lo (hi - width) ++ span s (hi - width) hi :=
          span_split s (hi - width) (by omega) (by omega)
        have htake : (span s lo hi).take (hi - lo - width) = span s lo (hi - width) := by
          rw [hsplit, ← hlenHigh, List.take_left]
        have hdrop : (span s lo hi).drop (hi - lo - width) = span s (hi - width) hi := by
          rw [hsplit, ← hlenHigh, List.drop_left]
        simp only [htake, hdrop]
        have hshape := joinHalves_shape hreadHigh hhigh hreadLow hlow hpok (by rw [hpval, hlen])
        rw [hlen, ← hsplit] at hshape
        exact hshape

theorem magFromDigits_width {s : Str} {lo hi : Nat} (hlo : lo ≤ hi) (hhi : hi ≤ s.length) :
    Shaped (magFromDigits s lo hi) (textShape (span s lo hi)) := by
  rw [magFromDigits, textShape, length_span hhi]
  by_cases hshort : hi - lo ≤ parseSplitDigits
  · rw [if_pos hshort, if_pos hshort]
    exact foldDigits_shape hlo hhi
  · rw [if_neg hshort, if_neg hshort]
    obtain ⟨powers, hchain, hpowers⟩ := pow10Chain_spec (splitLevel (hi - lo) + 1)
    rw [hchain]
    exact digitsValueFuel_shape hpowers _ lo hi (Nat.lt_succ_self _) hlo hhi fun _ =>
      Nat.lt_succ_self _

end Kaikai.BigIntWidth
