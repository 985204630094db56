import Kaikai.BigIntKaratsuba
import Kaikai.Decimal

namespace Kaikai.BigIntParse

open Kaikai.BigIntKaratsuba
open Kaikai.BigIntLimbs
open Kaikai.Decimal
open Kaikai.Positional
open Kaikai.Str
open Kaikai.Word64

/-- The base of one conversion step, the largest power of ten below `2 ^ 31`. -/
def chunkBase : Int := 1000000000

def leafDoublings : Nat := 9

def leafDigits : Nat := 9 * 2 ^ leafDoublings

def parseSplitDigits : Nat := 24000

def splitLevelFrom (len j : Nat) : Nat :=
  if leafDigits * 2 ^ (j + 1) < len then splitLevelFrom len (j + 1) else j
termination_by len - leafDigits * 2 ^ (j + 1)
decreasing_by
  have hpow : 2 ^ (j + 1 + 1) = 2 * 2 ^ (j + 1) := by rw [pow_succ, mul_comm]
  have hpos : 0 < leafDigits * 2 ^ (j + 1) := by unfold leafDigits; positivity
  rw [hpow, Nat.mul_left_comm]
  omega

/-- The largest `j` with `leaf_digits * 2 ^ j` below `len`. -/
def splitLevel (len : Nat) : Nat := splitLevelFrom len 0

def baseMag : Mag := [chunkBase]

def pow10Leaf (p : Mag) : Nat → Option Mag
  | 0 => some p
  | doublings + 1 => do
      let square ← magMulFast p p
      pow10Leaf square doublings

def pow10From (p : Mag) : Nat → Option (List Mag)
  | 0 => some []
  | left + 1 => do
      let square ← magMulFast p p
      let rest ← pow10From square left
      some (p :: rest)

/-- The powers `10 ^ (leaf_digits * 2 ^ j)` for `j` below `levels`, ascending. -/
def pow10Chain (levels : Nat) : Option (List Mag) := do
  let leaf ← pow10Leaf baseMag leafDoublings
  pow10From leaf levels

def pow10At : List Mag → Nat → Mag
  | p :: rest, j => if j = 0 then p else pow10At rest (j - 1)
  | [], _ => zeroMag

structure DigitRun where
  value : Int
  mult : Int
  next : Nat
  bad : Bool

/-- The digit at `i`, out of `[0, 9]` when it is no decimal digit. -/
def digitAt (s : Str) (i : Nat) : Int :=
  match charAt s i with
  | some c => sub c.toNat 48
  | none => sub 0 1

/-- Up to nine digits of `s` from `i`: their value, the power of ten they span
and the index after them. Any non-digit ends the run with `bad`. -/
def digitRun (s : Str) (i n : Nat) (value mult : Int) : DigitRun :=
  if mult ≥ chunkBase ∨ i ≥ n then ⟨value, mult, i, false⟩
  else
    let d := digitAt s i
    if d ≥ 0 ∧ d ≤ 9 then digitRun s (i + 1) n (add (mul value 10) d) (mul mult 10)
    else ⟨value, mult, i, true⟩
termination_by n - i

def foldDigitsFuel : Nat → Str → Nat → Nat → Mag → Option (Mag × Bool)
  | 0, _, _, _, _ => none
  | fuel + 1, s, i, n, acc => do
      let run := digitRun s i n 0 1
      let acc1 ← magMuladdLimb acc run.mult run.value
      if run.bad ∨ run.next ≥ n then some (acc1, !run.bad)
      else foldDigitsFuel fuel s run.next n acc1

/-- Folds the digits `[i, n)` of `s` into `acc`; the flag is false when a
non-digit stopped the fold. Every run but the last takes a digit. -/
def foldDigits (s : Str) (i n : Nat) (acc : Mag) : Option (Mag × Bool) :=
  foldDigitsFuel (n - i + 1) s i n acc

def joinHalves (high low : Mag × Bool) (p : Mag) : Option (Mag × Bool) :=
  if !high.2 then some high
  else if !low.2 then some low
  else do
    let product ← magMulFast high.1 p
    let sum ← magAdd product low.1
    some (sum, true)

def digitsSplit (digitsValue : Nat → Nat → Option (Mag × Bool)) (lo hi : Nat)
    (powers : List Mag) (j : Nat) : Option (Mag × Bool) := do
  let cut := hi - leafDigits * 2 ^ j
  let high ← digitsValue lo cut
  let low ← digitsValue cut hi
  joinHalves high low (pow10At powers j)

/-- `digits_value` with at most `fuel` nested calls. -/
def digitsValueFuel : Nat → Str → List Mag → Nat → Nat → Option (Mag × Bool)
  | 0, _, _, _, _ => none
  | fuel + 1, s, powers, lo, hi =>
      if hi - lo ≤ leafDigits then foldDigits s lo hi zeroMag
      else digitsSplit (digitsValueFuel fuel s powers) lo hi powers (splitLevel (hi - lo))

/-- Every nested call reads a shorter span. -/
def digitsValue (s : Str) (lo hi : Nat) (powers : List Mag) : Option (Mag × Bool) :=
  digitsValueFuel (hi - lo + 1) s powers lo hi

/-- The magnitude of the decimal digits `[lo, hi)` of `s` and whether every
character was a digit. -/
def magFromDigits (s : Str) (lo hi : Nat) : Option (Mag × Bool) :=
  if hi - lo ≤ parseSplitDigits then foldDigits s lo hi zeroMag
  else do
    let powers ← pow10Chain (splitLevel (hi - lo) + 1)
    digitsValue s lo hi powers

/-- The bytes `[lo, hi)` of `s`. -/
def span (s : Str) (lo hi : Nat) : Str := (s.drop lo).take (hi - lo)

/-- A computation that reads the span `ds` behind the digits of `v`: it does not trap,
its flag tells whether all were digits, and it returns the number they spell. -/
def Reads (m : Option (Mag × Bool)) (v : Int) (ds : Str) : Prop :=
  ∃ out ok, m = some (out, ok) ∧ LimbsOk out ∧ (ok = true ↔ AllDigits ds) ∧
    (ok = true → val out = v * 10 ^ ds.length + digitsOf ds)

theorem length_span {s : Str} {lo hi : Nat} (hhi : hi ≤ s.length) :
    (span s lo hi).length = hi - lo := by
  rw [span, List.length_take, List.length_drop]
  omega

theorem span_self (s : Str) (lo : Nat) : span s lo lo = [] := by
  rw [span, Nat.sub_self, List.take_zero]

theorem span_cons {s : Str} {lo hi : Nat} (hlo : lo < hi) (hhi : hi ≤ s.length) :
    span s lo hi = s[lo] :: span s (lo + 1) hi := by
  have hwidth : hi - lo = hi - (lo + 1) + 1 := by omega
  rw [span, List.drop_eq_getElem_cons (by omega), hwidth, List.take_succ_cons, span]

theorem span_split (s : Str) {lo hi : Nat} (cut : Nat) (hlo : lo ≤ cut) (hcut : cut ≤ hi) :
    span s lo hi = span s lo cut ++ span s cut hi := by
  obtain ⟨i, rfl⟩ := Nat.exists_eq_add_of_le hlo
  obtain ⟨j, rfl⟩ := Nat.exists_eq_add_of_le hcut
  have hwidth : lo + i + j - lo = i + j := by omega
  rw [span, span, span, hwidth, Nat.add_sub_cancel_left, Nat.add_sub_cancel_left, List.take_add,
    List.drop_drop]

theorem limbsOk_baseMag : LimbsOk baseMag := by
  intro d hd
  rw [List.mem_singleton.1 hd]
  decide

theorem val_baseMag : val baseMag = 10 ^ 9 := by
  rw [val, baseMag, value_cons, value_nil, chunkBase]
  norm_num

theorem pow10Leaf_spec (doublings : Nat) : ∀ {p : Mag} {e : Nat}, LimbsOk p → val p = 10 ^ e →
    Returns (pow10Leaf p doublings) (10 ^ (e * 2 ^ doublings)) := by
  induction doublings with
  | zero => exact fun {p e} hp hval => ⟨p, rfl, hp, by rw [hval, pow_zero, Nat.mul_one]⟩
  | succ doublings ih =>
      intro p e hp hval
      obtain ⟨square, hmul, hsquare, hsq⟩ := magMulFast_spec hp hp
      rw [hval, ← pow_add, ← Nat.mul_two] at hsq
      obtain ⟨out, hrun, hout, hv⟩ := ih hsquare hsq
      refine ⟨out, by rw [pow10Leaf, hmul]; exact hrun, hout, ?_⟩
      rw [hv, pow_succ', Nat.mul_assoc]

/-- The powers of a chain, each the square of the one before. -/
def Powers (chain : List Mag) (e levels : Nat) : Prop :=
  ∀ j, LimbsOk (pow10At chain j) ∧ (j < levels → val (pow10At chain j) = 10 ^ (e * 2 ^ j))

theorem pow10From_spec (left : Nat) : ∀ {p : Mag} {e : Nat}, LimbsOk p → val p = 10 ^ e →
    ∃ chain, pow10From p left = some chain ∧ Powers chain e left := by
  induction left with
  | zero => exact fun {p e} _ _ => ⟨[], rfl, fun j => ⟨limbsOk_zeroMag, fun h => absurd h (by omega)⟩⟩
  | succ left ih =>
      intro p e hp hval
      obtain ⟨square, hmul, hsquare, hsq⟩ := magMulFast_spec hp hp
      rw [hval, ← pow_add, ← Nat.mul_two] at hsq
      obtain ⟨chain, hrun, hchain⟩ := ih hsquare hsq
      refine ⟨p :: chain, ?_, fun j => ?_⟩
      · rw [pow10From, hmul, Option.bind_eq_bind, Option.bind_some, hrun]
        rfl
      · rw [pow10At]
        cases j with
        | zero => exact ⟨hp, fun _ => by rw [if_pos rfl, hval, pow_zero, Nat.mul_one]⟩
        | succ j =>
            rw [if_neg (Nat.succ_ne_zero j), Nat.add_sub_cancel]
            refine ⟨(hchain j).1, fun hj => ?_⟩
            rw [(hchain j).2 (Nat.lt_of_succ_lt_succ hj), pow_succ', Nat.mul_assoc]

theorem pow10Chain_spec (levels : Nat) :
    ∃ chain, pow10Chain levels = some chain ∧ Powers chain leafDigits levels := by
  obtain ⟨leaf, hleaf, hok, hval⟩ := pow10Leaf_spec leafDoublings limbsOk_baseMag val_baseMag
  obtain ⟨chain, hrun, hchain⟩ := pow10From_spec levels hok hval
  exact ⟨chain, by rw [pow10Chain, hleaf]; exact hrun, hchain⟩

theorem digitAt_eq {s : Str} {i : Nat} (hi : i < s.length) : digitAt s i = s[i].toNat - 48 := by
  have hlt := s[i].toNat_lt
  rw [digitAt, charAt, List.getElem?_eq_getElem hi, Option.map_some]
  dsimp only
  rw [toNat_ofByte, sub_eq (by omega) (by omega)]

theorem isDigit_iff {s : Str} {i : Nat} (hi : i < s.length) :
    IsDigit s[i] ↔ digitAt s i ≥ 0 ∧ digitAt s i ≤ 9 := by
  rw [digitAt_eq hi, IsDigit]
  omega

/-- A run from `i` that has taken `taken` digits behind `digits` digits of `value`. -/
structure Ran (s : Str) (n i digits : Nat) (value : Int) (taken : Nat) (run : DigitRun) : Prop where
  next : run.next = i + taken
  le : i + taken ≤ n
  width : digits + taken ≤ 9
  all : AllDigits (span s i (i + taken))
  mult : run.mult = 10 ^ (digits + taken)
  value : run.value = value * 10 ^ taken + digitsOf (span s i (i + taken))
  nonneg : 0 ≤ run.value
  lt : run.value < run.mult
  bad : run.bad = true → i + taken < n ∧ ¬ AllDigits (span s (i + taken) n)
  full : run.bad = false → i + taken = n ∨ digits + taken = 9

theorem digitRun_spec {s : Str} {n : Nat} (hn : n ≤ s.length) :
    ∀ k i digits value mult, n - i = k → i ≤ n → digits ≤ 9 → mult = 10 ^ digits → 0 ≤ value →
      value < mult → ∃ taken, Ran s n i digits value taken (digitRun s i n value mult) := by
  intro k
  induction k with
  | zero =>
      intro i digits value mult hk hi hdigits hmult hlow hhigh
      rw [digitRun, if_pos (Or.inr (by omega))]
      refine ⟨0, rfl, hi, hdigits, ?_, hmult, ?_, hlow, hhigh, by simp, fun _ => .inl (by omega)⟩
      · rw [Nat.add_zero, span_self]
        exact fun b hb => absurd hb List.not_mem_nil
      · rw [Nat.add_zero, span_self]
        simp [digitsOf]
  | succ k ih =>
      intro i digits value mult hk hi hdigits hmult hlow hhigh
      rw [digitRun]
      by_cases hfull : mult ≥ chunkBase ∨ i ≥ n
      · rw [if_pos hfull]
        have hnine : digits = 9 := by
          by_contra hlt
          have hpow : (10 : Int) ^ digits ≤ 10 ^ 8 := pow_le_pow_right₀ (by norm_num) (by omega)
          rw [hmult, chunkBase] at hfull
          omega
        refine ⟨0, rfl, hi, hdigits, ?_, hmult, ?_, hlow, hhigh, by simp, fun _ => .inr hnine⟩
        · rw [Nat.add_zero, span_self]
          exact fun b hb => absurd hb List.not_mem_nil
        · rw [Nat.add_zero, span_self]
          simp [digitsOf]
      · rw [if_neg hfull]
        have hilt : i < s.length := by omega
        have hcons : span s i n = s[i] :: span s (i + 1) n := span_cons (by omega) hn
        by_cases hdigit : digitAt s i ≥ 0 ∧ digitAt s i ≤ 9
        · simp only [if_pos hdigit]
          have hlt : digits < 9 := by
            by_contra hge
            rw [hmult, show digits = 9 by omega] at hfull
            exact hfull (Or.inl (by decide))
          have hmultlt : mult < 1000000000 := by
            rw [chunkBase] at hfull
            omega
          have hmul10 : mul mult 10 = mult * 10 := mul_eq (by omega) (by omega)
          have hval10 : add (mul value 10) (digitAt s i) = value * 10 + digitAt s i := by
            rw [mul_eq (by omega) (by omega), add_eq (by omega) (by omega)]
          obtain ⟨taken, hran⟩ := ih (i + 1) (digits + 1) (value * 10 + digitAt s i) (mult * 10)
            (by omega) (by omega) (by omega) (by rw [hmult, pow_succ]) (by omega) (by omega)
          have hnext : i + 1 + taken = i + (taken + 1) := by omega
          have hwide : digits + 1 + taken = digits + (taken + 1) := by omega
          have hfit : i + (taken + 1) ≤ s.length := hnext ▸ hran.le.trans hn
          have hspan : span s i (i + (taken + 1)) = s[i] :: span s (i + 1) (i + (taken + 1)) :=
            span_cons (by omega) hfit
          have hbyte := (isDigit_iff hilt).2 hdigit
          rw [hmul10, hval10]
          refine ⟨taken + 1, hran.next.trans hnext, hnext ▸ hran.le, hwide ▸ hran.width, ?_,
            hwide ▸ hran.mult, ?_, hran.nonneg, hran.lt, hnext ▸ hran.bad, hnext ▸ hwide ▸ hran.full⟩
          · rw [hspan]
            exact List.forall_mem_cons.2 ⟨hbyte, hnext ▸ hran.all⟩
          · have hlow48 : 48 ≤ s[i].toNat := hbyte.1
            have hlen : (span s (i + 1) (i + (taken + 1))).length = taken := by
              rw [length_span hfit]
              omega
            rw [hran.value, hspan, digitsOf_cons, hlen, digitAt_eq hilt, hnext]
            push_cast [hlow48]
            ring
        · simp only [if_neg hdigit]
          refine ⟨0, rfl, hi, hdigits, ?_, hmult, ?_, hlow, hhigh, fun _ => ⟨by omega, ?_⟩, by simp⟩
          · rw [Nat.add_zero, span_self]
            exact fun b hb => absurd hb List.not_mem_nil
          · rw [Nat.add_zero, span_self]
            simp [digitsOf]
          · rw [Nat.add_zero, hcons]
            exact fun h => hdigit ((isDigit_iff hilt).1 (List.forall_mem_cons.1 h).1)

theorem foldDigitsFuel_spec {s : Str} {n : Nat} (hn : n ≤ s.length) (fuel : Nat) :
    ∀ i acc, n - i < fuel → i ≤ n → LimbsOk acc →
      Reads (foldDigitsFuel fuel s i n acc) (val acc) (span s i n) := by
  induction fuel with
  | zero => omega
  | succ fuel ih =>
      intro i acc hfuel hi hacc
      obtain ⟨taken, hran⟩ :=
        digitRun_spec hn _ i 0 0 1 rfl hi (by norm_num) rfl le_rfl (by norm_num)
      rw [foldDigitsFuel]
      generalize digitRun s i n 0 1 = run at hran ⊢
      obtain ⟨hnext, hle, hwidth, hall, hmult, hvalue, hlow, hhigh, hbad, hfull⟩ := hran
      rw [Nat.zero_add] at hmult hwidth hfull
      rw [zero_mul, zero_add] at hvalue
      have hpow : (10 : Int) ^ taken ≤ 10 ^ 9 := pow_le_pow_right₀ (by norm_num) hwidth
      have hpos : (0 : Int) < 10 ^ taken := by positivity
      obtain ⟨acc1, hrun, hacc1, hval⟩ := magMuladdLimb_spec (m := run.mult) (c := run.value) hacc
        (by omega) (by omega) hlow (by omega)
      have hsplit := span_split s (i + taken) (Nat.le_add_right i taken) hle
      have hlen : (span s i (i + taken)).length = taken := by
        rw [length_span (hle.trans hn), Nat.add_sub_cancel_left]
      rw [hmult, hvalue] at hval
      simp only [hrun, Option.bind_eq_bind, Option.bind_some]
      cases hb : run.bad with
      | true =>
          obtain ⟨-, hnot⟩ := hbad hb
          refine ⟨acc1, false, by simp, hacc1, ?_, by simp⟩
          rw [hsplit, AllDigits.append]
          simp [hnot]
      | false =>
          by_cases hdone : run.next ≥ n
          · rw [if_pos (.inr hdone)]
            have hend : i + taken = n := by omega
            rw [hend] at hlen hall hval
            exact ⟨acc1, true, rfl, hacc1, by simp [hall], fun _ => by rw [hval, hlen]⟩
          · rw [if_neg (by simpa using hdone)]
            have hnine : taken = 9 := (hfull hb).resolve_left (by omega)
            obtain ⟨out, ok, hloop, hout, hflag, hread⟩ := ih (i + taken) acc1 (by omega) hle hacc1
            rw [hnext]
            refine ⟨out, ok, hloop, hout, ?_, fun hok => ?_⟩
            · rw [hflag, hsplit, AllDigits.append]
              simp [hall]
            · rw [hread hok, hval, hsplit, digitsOf_append, List.length_append, hlen]
              push_cast
              ring

theorem foldDigits_spec {s : Str} {i n : Nat} (hi : i ≤ n) (hn : n ≤ s.length) {acc : Mag}
    (hacc : LimbsOk acc) : Reads (foldDigits s i n acc) (val acc) (span s i n) :=
  foldDigitsFuel_spec hn _ i acc (Nat.lt_succ_self _) hi hacc

theorem foldDigits_zeroMag {s : Str} {i n : Nat} (hi : i ≤ n) (hn : n ≤ s.length) :
    Reads (foldDigits s i n zeroMag) 0 (span s i n) := by
  have h := foldDigits_spec hi hn limbsOk_zeroMag
  rwa [val_zeroMag] at h

theorem joinHalves_spec {mh ml : Option (Mag × Bool)} {p : Mag} {ds es : Str}
    (hhigh : Reads mh 0 ds) (hlow : Reads ml 0 es) (hp : LimbsOk p) (hval : val p = 10 ^ es.length) :
    Reads (do
      let high ← mh
      let low ← ml
      joinHalves high low p) 0 (ds ++ es) := by
  obtain ⟨high, hok, rfl, hhighok, hhflag, hhread⟩ := hhigh
  obtain ⟨low, lok, rfl, hlowok, hlflag, hlread⟩ := hlow
  simp only [Option.bind_eq_bind, Option.bind_some, joinHalves]
  cases hok with
  | false =>
      refine ⟨high, false, rfl, hhighok, ?_, by simp⟩
      rw [AllDigits.append, ← hhflag]
      simp
  | true =>
      cases lok with
      | false =>
          refine ⟨low, false, rfl, hlowok, ?_, by simp⟩
          rw [AllDigits.append, ← hlflag]
          simp
      | true =>
          obtain ⟨product, hmul, hproduct, hprod⟩ := magMulFast_spec hhighok hp
          obtain ⟨sum, hadd, hsum, hsumval⟩ := magAdd_spec hproduct hlowok
          refine ⟨sum, true, ?_, hsum, ?_, fun _ => ?_⟩
          · simp only [hmul, hadd, Option.bind_some, Bool.not_true, Bool.false_eq_true, if_false]
          · rw [AllDigits.append, ← hhflag, ← hlflag]
            simp
          · rw [hsumval, hprod, hval, hhread rfl, hlread rfl, digitsOf_append]
            push_cast
            ring

theorem splitLevelFrom_spec {len : Nat} (d : Nat) :
    ∀ j, len - leafDigits * 2 ^ (j + 1) = d → leafDigits * 2 ^ j < len →
      leafDigits * 2 ^ splitLevelFrom len j < len ∧
        len ≤ leafDigits * 2 ^ (splitLevelFrom len j + 1) := by
  induction d using Nat.strong_induction_on with
  | _ d ih =>
      intro j hd hj
      rw [splitLevelFrom]
      by_cases hmore : leafDigits * 2 ^ (j + 1) < len
      · rw [if_pos hmore]
        have hpow : leafDigits * 2 ^ (j + 1 + 1) = 2 * (leafDigits * 2 ^ (j + 1)) := by
          rw [pow_succ 2 (j + 1)]
          ring
        have hpos : 0 < leafDigits * 2 ^ (j + 1) := by unfold leafDigits; positivity
        exact ih _ (by omega) (j + 1) rfl hmore
      · rw [if_neg hmore]
        exact ⟨hj, not_lt.1 hmore⟩

theorem splitLevel_spec {len : Nat} (h : leafDigits < len) :
    leafDigits * 2 ^ splitLevel len < len ∧ len ≤ leafDigits * 2 ^ (splitLevel len + 1) :=
  splitLevelFrom_spec _ 0 rfl (by simpa using h)

theorem splitLevel_mono {len len' : Nat} (h : leafDigits < len) (hle : len ≤ len') :
    splitLevel len ≤ splitLevel len' := by
  obtain ⟨hlow, -⟩ := splitLevel_spec h
  obtain ⟨-, hhigh⟩ := splitLevel_spec (h.trans_le hle)
  have hlt : leafDigits * 2 ^ splitLevel len < leafDigits * 2 ^ (splitLevel len' + 1) :=
    hlow.trans_le (hle.trans hhigh)
  have hpow := Nat.lt_of_mul_lt_mul_left hlt
  exact Nat.le_of_lt_succ ((Nat.pow_lt_pow_iff_right (by decide)).1 hpow)

theorem digitsValueFuel_spec {s : Str} {powers : List Mag} {levels : Nat}
    (hpowers : Powers powers leafDigits levels) (fuel : Nat) :
    ∀ lo hi, hi - lo < fuel → lo ≤ hi → hi ≤ s.length →
      (leafDigits < hi - lo → splitLevel (hi - lo) < levels) →
      Reads (digitsValueFuel fuel s powers lo hi) 0 (span s lo hi) := by
  induction fuel with
  | zero => omega
  | succ fuel ih =>
      intro lo hi hfuel hlo hhi hlevels
      rw [digitsValueFuel]
      by_cases hleaf : hi - lo ≤ leafDigits
      · rw [if_pos hleaf]
        exact foldDigits_zeroMag hlo hhi
      · rw [if_neg hleaf, digitsSplit]
        have hlong := not_le.1 hleaf
        obtain ⟨hcut, -⟩ := splitLevel_spec hlong
        have hlevel := hlevels hlong
        obtain ⟨hpok, hpval⟩ := hpowers (splitLevel (hi - lo))
        have hpos : 0 < leafDigits * 2 ^ splitLevel (hi - lo) := by
          unfold leafDigits
          positivity
        have hpval := hpval hlevel
        generalize hwidth : leafDigits * 2 ^ splitLevel (hi - lo) = width at hcut hpos hpval ⊢
        have hhigh := ih lo (hi - width) (by omega) (by omega) (by omega) fun hl =>
          (splitLevel_mono hl (by omega)).trans_lt hlevel
        have hlow := ih (hi - width) hi (by omega) (by omega) hhi fun hl =>
          (splitLevel_mono hl (by omega)).trans_lt hlevel
        have hlen : (span s (hi - width) hi).length = width := by
          rw [length_span hhi]
          omega
        rw [span_split s (hi - width) (by omega) (by omega)]
        exact joinHalves_spec hhigh hlow hpok (by rw [hpval, hlen])

theorem magFromDigits_spec {s : Str} {lo hi : Nat} (hlo : lo ≤ hi) (hhi : hi ≤ s.length) :
    Reads (magFromDigits s lo hi) 0 (span s lo hi) := by
  unfold magFromDigits
  by_cases hshort : hi - lo ≤ parseSplitDigits
  · rw [if_pos hshort]
    exact foldDigits_zeroMag hlo hhi
  · rw [if_neg hshort]
    obtain ⟨powers, hchain, hpowers⟩ := pow10Chain_spec (splitLevel (hi - lo) + 1)
    rw [hchain]
    exact digitsValueFuel_spec hpowers _ lo hi (Nat.lt_succ_self _) hlo hhi fun _ =>
      Nat.lt_succ_self _

end Kaikai.BigIntParse
