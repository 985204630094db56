import Kaikai.IntLiteral

/-!
The text of an `Int` in a radix from 2 to 36. The reader accumulates and the printer divides on the
non-positive side, which holds the least `Int`. `none` is a step that C leaves undefined: a signed
overflow, or a byte outside the digit table or the buffer.
-/

namespace Kaikai.RadixText

open Str Word64

/-- A signed result, undefined when it does not fit. -/
def checked (x : Int) : Option Int := if InRange x then some x else none

/-- The value of a byte in base 36; 36 for a byte that is no digit. -/
def radixDigit (c : UInt8) : Int :=
  if 48 ≤ c.toNat ∧ c.toNat ≤ 57 then c.toNat - 48
  else if 97 ≤ c.toNat ∧ c.toNat ≤ 122 then c.toNat - 97 + 10
  else if 65 ≤ c.toNat ∧ c.toNat ≤ 90 then c.toNat - 65 + 10
  else 36

/-- One digit; the inner `none` ends the loop with `ok` cleared. -/
def scanStep (radix acc : Int) (c : UInt8) : Option (Option Int) :=
  if radixDigit c ≥ radix then some none
  else do
    let low ← checked (-2 ^ 63 + radixDigit c)
    if acc < low.tdiv radix then some none
    else do
      let shifted ← checked (acc * radix)
      let next ← checked (shifted - radixDigit c)
      some (some next)

def scanRadix (radix : Int) : Str → Int → Option (Option Int)
  | [], acc => some (some acc)
  | c :: s, acc =>
      match scanStep radix acc c with
      | none => none
      | some none => some none
      | some (some acc') => scanRadix radix s acc'

/-- The value of the accumulator, negated unless a minus sign was read. -/
def finish (neg : Bool) (acc : Int) : Option (Option Int) :=
  if neg then some (some acc)
  else if acc = -2 ^ 63 then some none
  else (checked (-acc)).map some

/-- The text behind one optional sign. -/
def unsigned (s : Str) : Str := if s.head? = some 45 ∨ s.head? = some 43 then s.drop 1 else s

def toIntRadix (s : Str) (radix : Int) : Option (Option Int) :=
  if 2 ≤ radix ∧ radix ≤ 36 then
    if unsigned s = [] then some none
    else
      match scanRadix radix (unsigned s) 0 with
      | none => none
      | some none => some none
      | some (some acc) => finish (s.head? = some 45) acc
  else some none

/-- The table that the printer indexes. -/
def radixChars : Str := ascii "0123456789abcdefghijklmnopqrstuvwxyz"

/-- The digits of `m`, written into the last `room` bytes of the buffer, and the bytes left. -/
def renderLoop (radix : Int) : Nat → Int → Str → Option (Str × Nat)
  | 0, _, _ => none
  | room + 1, m, acc => do
      let c ← radixChars[(-(m.tmod radix)).toNat]?
      if m.tdiv radix = 0 then some (c :: acc, room)
      else renderLoop radix room (m.tdiv radix) (c :: acc)

/-- The number on the side that the printer divides on. -/
def nonPositive (n : Int) : Option Int := if n < 0 then some n else checked (-n)

def intToStringRadix (n radix : Int) : Option (Option Str) :=
  if radix < 2 ∨ radix > 36 then some none
  else do
    let m ← nonPositive n
    let (digits, room) ← renderLoop radix 72 m []
    if n < 0 then if room = 0 then none else some (some (45 :: digits)) else some (some digits)

/-- The lowercase digit of a value below 36. -/
def lowerDigit (d : Nat) : UInt8 := if d < 10 then UInt8.ofNat (48 + d) else UInt8.ofNat (87 + d)

def upperDigit (d : Nat) : UInt8 := if d < 10 then UInt8.ofNat (48 + d) else UInt8.ofNat (55 + d)

/-- The byte is the digit of value `d`, in either case. -/
def Denotes (c : UInt8) (d : Nat) : Prop := c = lowerDigit d ∨ c = upperDigit d

/-- The bytes are digits of base `r`, with the values `ds`. -/
def Spells (r : Nat) (s : Str) (ds : List Nat) : Prop :=
  List.Forall₂ Denotes s ds ∧ ∀ d ∈ ds, d < r

inductive Sign : Str → Int → Prop
  | none : Sign [] 1
  | plus : Sign [43] 1
  | minus : Sign [45] (-1)

/-- An optional sign and one or more digits of base `r`, which write `n`. -/
def Writes (r : Nat) (s : Str) (n : Int) : Prop :=
  ∃ sign unit digits ds, s = sign ++ digits ∧ Sign sign unit ∧ digits ≠ [] ∧ Spells r digits ds ∧
    n = unit * (Nat.ofDigits r ds.reverse : Nat)

/-- The canonical digits: lowercase, no leading zero, `0` for zero. -/
def digitsOf (r n : Nat) : Str :=
  if n = 0 then [48] else (Nat.digits r n).reverse.map lowerDigit

/-- The canonical numeral: a minus sign on negative numbers alone. -/
def numeral (r : Nat) (n : Int) : Str := (if n < 0 then [45] else []) ++ digitsOf r n.natAbs

theorem radixDigit_nonneg (c : UInt8) : 0 ≤ radixDigit c := by
  unfold radixDigit
  split_ifs <;> omega

theorem lowerDigit_values : ∀ d < 36, radixDigit (lowerDigit d) = d ∧ lowerDigit d ≠ 43 ∧
    lowerDigit d ≠ 45 ∧ radixChars[d]? = some (lowerDigit d) := by
  decide

theorem upperDigit_values : ∀ d < 36, radixDigit (upperDigit d) = d ∧ upperDigit d ≠ 43 ∧
    upperDigit d ≠ 45 := by
  decide

theorem denotes_of_radixDigit : ∀ c : Fin 256, radixDigit (UInt8.ofNat c) < 36 →
    UInt8.ofNat c = lowerDigit (radixDigit (UInt8.ofNat c)).toNat ∨
      UInt8.ofNat c = upperDigit (radixDigit (UInt8.ofNat c)).toNat := by
  decide +kernel

theorem denotes_iff {c : UInt8} {d : Nat} (hd : d < 36) : Denotes c d ↔ radixDigit c = d := by
  constructor
  · rintro (rfl | rfl)
    · exact (lowerDigit_values d hd).1
    · exact (upperDigit_values d hd).1
  · intro h
    have hc := denotes_of_radixDigit ⟨c.toNat, c.toNat_lt⟩
    rw [UInt8.ofNat_toNat, h, Int.toNat_natCast] at hc
    exact hc (by omega)

theorem Denotes.not_sign {c : UInt8} {d : Nat} (hd : d < 36) (h : Denotes c d) :
    c ≠ 43 ∧ c ≠ 45 := by
  rcases h with rfl | rfl
  · exact ⟨(lowerDigit_values d hd).2.1, (lowerDigit_values d hd).2.2.1⟩
  · exact ⟨(upperDigit_values d hd).2.1, (upperDigit_values d hd).2.2⟩

theorem Spells.cons_iff {r : Nat} {c : UInt8} {s : Str} {ds : List Nat} :
    Spells r (c :: s) ds ↔
      ∃ d es, ds = d :: es ∧ Denotes c d ∧ d < r ∧ Spells r s es := by
  constructor
  · rintro ⟨h, hlt⟩
    cases h with
    | cons hc hs => exact ⟨_, _, rfl, hc, hlt _ (by simp), hs, fun d hd => hlt d (by simp [hd])⟩
  · rintro ⟨d, es, rfl, hc, hd, hs, hlt⟩
    exact ⟨.cons hc hs, List.forall_mem_cons.2 ⟨hd, hlt⟩⟩

theorem Spells.nil_iff {r : Nat} {ds : List Nat} : Spells r [] ds ↔ ds = [] := by
  constructor
  · rintro ⟨h, -⟩
    cases h
    rfl
  · rintro rfl
    exact ⟨.nil, by simp⟩

theorem Spells.length {r : Nat} {s : Str} {ds : List Nat} (h : Spells r s ds) :
    s.length = ds.length :=
  h.1.length_eq

section Reader

variable {r : Nat}

theorem lt_tdiv_iff (acc : Int) {d : Int} (hr : 2 ≤ r) (hd : d < 2 ^ 63) :
    acc < (-2 ^ 63 + d).tdiv r ↔ acc * r - d < -2 ^ 63 := by
  have hneg : (-2 ^ 63 + d).tdiv r = -((2 ^ 63 - d) / r) := by
    rw [← Int.tdiv_eq_ediv_of_nonneg (by omega), ← Int.neg_tdiv]
    congr 1
    ring
  have hpos : (0 : Int) < r := by omega
  have hdiv : (2 ^ 63 - d) / r < -acc ↔ 2 ^ 63 - d < -acc * r := Int.ediv_lt_iff_lt_mul hpos
  rw [hneg, show acc < -((2 ^ 63 - d) / (r : Int)) ↔ (2 ^ 63 - d) / (r : Int) < -acc by
    constructor <;> intro h <;> omega, hdiv, neg_mul]
  constructor <;> intro h <;> omega

theorem scanStep_digit {acc : Int} {c : UInt8} {d : Nat} (hr : 2 ≤ r ∧ r ≤ 36) (hc : Denotes c d)
    (hd : d < r) (hacc : -2 ^ 63 ≤ acc ∧ acc ≤ 0) :
    scanStep r acc c =
      some (if -2 ^ 63 ≤ acc * r - d then some (acc * r - d) else none) := by
  have hvalue := (denotes_iff (by omega)).1 hc
  have hlow : checked (-2 ^ 63 + (d : Int)) = some (-2 ^ 63 + (d : Int)) :=
    if_pos ⟨by omega, by omega⟩
  have htest := lt_tdiv_iff acc hr.1 (show (d : Int) < 2 ^ 63 by omega)
  have hnonpos : acc * r ≤ 0 := mul_nonpos_of_nonpos_of_nonneg hacc.2 (by omega)
  rw [scanStep, hvalue, if_neg (by omega), hlow]
  simp only [Option.bind_eq_bind, Option.bind_some, htest]
  split_ifs with hout hin hin
  · omega
  · rfl
  · have hshift : checked (acc * r) = some (acc * r) := if_pos ⟨by omega, by omega⟩
    have hnext : checked (acc * r - d) = some (acc * r - d) := if_pos ⟨hin, by omega⟩
    rw [hshift, Option.bind_some, hnext, Option.bind_some]
  · omega

theorem scanStep_other {acc : Int} {c : UInt8} (hr : r ≤ 36) (hc : ∀ d < r, ¬ Denotes c d) :
    scanStep r acc c = some none := by
  have hge : radixDigit c ≥ r := by
    by_contra hlt
    have hnonneg := radixDigit_nonneg c
    exact hc (radixDigit c).toNat (by omega)
      ((denotes_iff (by omega)).2 (Int.toNat_of_nonneg hnonneg).symm)
  rw [scanStep, if_pos hge]

/-- The loop accepts exactly the digit runs whose value, on the non-positive side, still fits, and
never overflows. -/
theorem scanRadix_spec (hr : 2 ≤ r ∧ r ≤ 36) : ∀ (s : Str) (acc : Int), -2 ^ 63 ≤ acc ∧ acc ≤ 0 →
    ∃ res, scanRadix r s acc = some res ∧ ∀ a, res = some a ↔
      ∃ ds, Spells r s ds ∧ a = acc * r ^ s.length - (Nat.ofDigits r ds.reverse : Nat) ∧
        -2 ^ 63 ≤ a
  | [], acc, hacc => by
      refine ⟨some acc, rfl, fun a => ?_⟩
      simp only [Option.some.injEq, Spells.nil_iff, exists_eq_left, List.length_nil, pow_zero,
        mul_one, List.reverse_nil, Nat.ofDigits_nil, Nat.cast_zero, sub_zero]
      constructor
      · rintro rfl
        exact ⟨rfl, hacc.1⟩
      · exact fun h => h.1.symm
  | c :: s, acc, hacc => by
      by_cases hdigit : ∃ d < r, Denotes c d
      · obtain ⟨d, hd, hc⟩ := hdigit
        have hstep := scanStep_digit hr hc hd hacc
        have hunique : ∀ ds, Spells r (c :: s) ds ↔ ∃ es, ds = d :: es ∧ Spells r s es := by
          intro ds
          rw [Spells.cons_iff]
          constructor
          · rintro ⟨d', es, rfl, hc', hd', hs⟩
            have hsame := (denotes_iff (by omega)).1 hc
            rw [(denotes_iff (by omega)).1 hc', Nat.cast_inj] at hsame
            exact ⟨es, by rw [hsame], hs⟩
          · rintro ⟨es, rfl, hs⟩
            exact ⟨d, es, rfl, hc, hd, hs⟩
        have hvalue : ∀ es : List Nat, Spells r s es →
            acc * (r : Int) ^ (c :: s).length - (Nat.ofDigits r (d :: es).reverse : Nat) =
              (acc * r - d) * r ^ s.length - (Nat.ofDigits r es.reverse : Nat) := by
          intro es hs
          rw [IntLiteral.ofDigits_reverse_cons, List.length_cons, hs.length]
          push_cast
          ring
        have hnonpos : acc * r - d ≤ 0 := by
          have := mul_nonpos_of_nonpos_of_nonneg hacc.2 (show (0 : Int) ≤ r by omega)
          omega
        by_cases hfit : -2 ^ 63 ≤ acc * r - d
        · obtain ⟨res, hscan, hres⟩ := scanRadix_spec hr s _ ⟨hfit, hnonpos⟩
          refine ⟨res, ?_, fun a => ?_⟩
          · rw [scanRadix, hstep, if_pos hfit]
            exact hscan
          · rw [hres]
            constructor
            · rintro ⟨es, hs, ha, hlow⟩
              exact ⟨d :: es, (hunique _).2 ⟨es, rfl, hs⟩, by rw [hvalue es hs, ha], hlow⟩
            · rintro ⟨ds, hds, ha, hlow⟩
              obtain ⟨es, rfl, hs⟩ := (hunique ds).1 hds
              exact ⟨es, hs, by rw [← hvalue es hs, ha], hlow⟩
        · refine ⟨none, ?_, fun a => ?_⟩
          · rw [scanRadix, hstep, if_neg hfit]
          · -- Once below the least value, further digits only lower it.
            refine iff_of_false (by simp) ?_
            rintro ⟨ds, hds, ha, hlow⟩
            obtain ⟨es, rfl, hs⟩ := (hunique ds).1 hds
            have hgrow : (acc * r - d) * (r : Int) ^ s.length ≤ acc * r - d := by
              have hone : (1 : Int) ≤ (r : Int) ^ s.length := one_le_pow₀ (by omega)
              nlinarith
            rw [hvalue es hs] at ha
            omega
      · refine ⟨none, ?_, fun a => ?_⟩
        · rw [scanRadix, scanStep_other hr.2 fun d hd hc => hdigit ⟨d, hd, hc⟩]
        · refine iff_of_false (by simp) ?_
          rintro ⟨ds, hds, -⟩
          obtain ⟨d, es, -, hc, hd, -⟩ := Spells.cons_iff.1 hds
          exact hdigit ⟨d, hd, hc⟩

theorem Spells.unique (hr : r ≤ 36) : ∀ {s : Str} {ds es : List Nat}, Spells r s ds →
    Spells r s es → ds = es
  | [], ds, es, hds, hes => by rw [Spells.nil_iff.1 hds, Spells.nil_iff.1 hes]
  | c :: s, ds, es, hds, hes => by
      obtain ⟨d, ds, rfl, hd, hdr, hds⟩ := Spells.cons_iff.1 hds
      obtain ⟨e, es, rfl, he, her, hes⟩ := Spells.cons_iff.1 hes
      have hsame := (denotes_iff (by omega)).1 hd
      rw [(denotes_iff (by omega)).1 he, Nat.cast_inj] at hsame
      rw [hsame, Spells.unique hr hds hes]

/-- The unit that the sign of a text stands for. -/
def unitOf (s : Str) : Int := if s.head? = some 45 then -1 else 1

theorem writes_iff (hr : r ≤ 36) {s : Str} {n : Int} : Writes r s n ↔
    unsigned s ≠ [] ∧
      ∃ ds, Spells r (unsigned s) ds ∧ n = unitOf s * (Nat.ofDigits r ds.reverse : Nat) := by
  constructor
  · rintro ⟨sign, unit, digits, ds, rfl, hsign, hne, hds, rfl⟩
    obtain ⟨c, t, rfl⟩ := List.exists_cons_of_ne_nil hne
    obtain ⟨d, es, rfl, hc, hd, -⟩ := Spells.cons_iff.1 hds
    have hplain := hc.not_sign (by omega)
    cases hsign with
    | none =>
        have hbare : unsigned ([] ++ c :: t) = c :: t := by simp [unsigned, hplain]
        have hunit : unitOf ([] ++ c :: t) = 1 := by simp [unitOf, hplain]
        rw [hbare, hunit]
        exact ⟨hne, _, hds, rfl⟩
    | plus => exact ⟨hne, _, hds, rfl⟩
    | minus => exact ⟨hne, _, hds, rfl⟩
  · rintro ⟨hne, ds, hds, rfl⟩
    cases s with
    | nil => exact absurd rfl hne
    | cons c t =>
        by_cases hminus : c = 45
        · subst hminus
          exact ⟨[45], -1, t, ds, rfl, .minus, hne, hds, rfl⟩
        · by_cases hplus : c = 43
          · subst hplus
            exact ⟨[43], 1, t, ds, rfl, .plus, hne, hds, rfl⟩
          · have hbare : unsigned (c :: t) = c :: t := by simp [unsigned, hminus, hplus]
            have hunit : unitOf (c :: t) = 1 := by simp [unitOf, hminus]
            rw [hbare] at hds hne
            exact ⟨[], 1, c :: t, ds, rfl, .none, hne, hds, by rw [hunit]⟩

theorem finish_spec (s : Str) {acc : Int} (hacc : -2 ^ 63 ≤ acc ∧ acc ≤ 0) :
    ∃ res, finish (s.head? = some 45) acc = some res ∧
      ∀ n, res = some n ↔ n = unitOf s * -acc ∧ InRange n := by
  by_cases hneg : s.head? = some 45
  · refine ⟨some acc, by simp [finish, hneg], fun n => ?_⟩
    rw [unitOf, if_pos hneg, Option.some.injEq, InRange]
    constructor
    · rintro rfl
      omega
    · rintro ⟨hn, -⟩
      omega
  · by_cases hmin : acc = -2 ^ 63
    · refine ⟨none, by simp [finish, hneg, hmin], fun n => iff_of_false (by simp) ?_⟩
      rw [unitOf, if_neg hneg, InRange]
      omega
    · have hfit : InRange (-acc) := by
        unfold InRange
        omega
      have hpositive : finish (s.head? = some 45) acc = some (some (-acc)) := by
        rw [finish, if_neg (by simpa using hneg), if_neg hmin, checked, if_pos hfit]
        rfl
      refine ⟨some (-acc), hpositive, fun n => ?_⟩
      rw [unitOf, if_neg hneg, Option.some.injEq, one_mul]
      constructor
      · rintro rfl
        exact ⟨rfl, hfit⟩
      · exact fun h => h.1.symm

theorem toIntRadix_spec (hr : 2 ≤ r ∧ r ≤ 36) (s : Str) :
    ∃ res, toIntRadix s r = some res ∧ ∀ n, res = some n ↔ Writes r s n ∧ InRange n := by
  have hradix : (2 : Int) ≤ r ∧ (r : Int) ≤ 36 := by omega
  rw [toIntRadix, if_pos hradix]
  by_cases hempty : unsigned s = []
  · refine ⟨none, by rw [if_pos hempty], fun n => iff_of_false (by simp) ?_⟩
    rintro ⟨hwrites, -⟩
    exact ((writes_iff hr.2).1 hwrites).1 hempty
  · rw [if_neg hempty]
    obtain ⟨scanned, hscan, hspec⟩ := scanRadix_spec hr (unsigned s) 0 (by decide)
    rw [hscan]
    cases scanned with
    | none =>
        refine ⟨none, rfl, fun n => iff_of_false (by simp) ?_⟩
        rintro ⟨hwrites, hrange⟩
        obtain ⟨-, ds, hds, rfl⟩ := (writes_iff hr.2).1 hwrites
        refine absurd ((hspec (-(Nat.ofDigits r ds.reverse : Nat))).2
          ⟨ds, hds, by ring, ?_⟩) (by simp)
        unfold unitOf InRange at hrange
        split_ifs at hrange <;> omega
    | some acc =>
        obtain ⟨ds, hds, hacc, hlow⟩ := (hspec acc).1 rfl
        rw [zero_mul, zero_sub] at hacc
        have hvalue : -acc = (Nat.ofDigits r ds.reverse : Nat) := by omega
        obtain ⟨res, hfinish, hres⟩ := finish_spec s (show -2 ^ 63 ≤ acc ∧ acc ≤ 0 by omega)
        refine ⟨res, hfinish, fun n => ?_⟩
        rw [hres, writes_iff hr.2, hvalue]
        constructor
        · rintro ⟨hn, hrange⟩
          exact ⟨⟨hempty, ds, hds, hn⟩, hrange⟩
        · rintro ⟨⟨-, es, hes, hn⟩, hrange⟩
          rw [hds.unique hr.2 hes]
          exact ⟨hn, hrange⟩

end Reader

section Printer

variable {r : Nat}

theorem digitsOf_step (hr : 2 ≤ r) (k : Nat) :
    digitsOf r k = (if k / r = 0 then [] else digitsOf r (k / r)) ++ [lowerDigit (k % r)] := by
  by_cases hk : k = 0
  · subst hk
    simp [digitsOf, lowerDigit]
  · rw [digitsOf, if_neg hk, Nat.digits_def' (by omega) (Nat.pos_of_ne_zero hk), List.reverse_cons,
      List.map_append]
    congr 1
    split_ifs with hdiv
    · rw [hdiv]
      simp
    · rw [digitsOf, if_neg hdiv]

theorem renderLoop_spec (hr : 2 ≤ r ∧ r ≤ 36) : ∀ {j room k : Nat} (acc : Str), 0 < j → j ≤ room →
    k < r ^ j → ∃ left, room ≤ left + j ∧
      renderLoop r room (-(k : Int)) acc = some (digitsOf r k ++ acc, left)
  | 0, _, _, _, hj, _, _ => absurd hj (Nat.lt_irrefl 0)
  | j + 1, 0, _, _, _, hroom, _ => absurd hroom (Nat.not_succ_le_zero j)
  | j + 1, room + 1, k, acc, _, hroom, hk => by
      have hmod : (-((-(k : Int)).tmod r)).toNat = k % r := by
        rw [Int.neg_tmod, neg_neg, Int.tmod_eq_emod_of_nonneg (Int.natCast_nonneg k),
          ← Int.natCast_mod, Int.toNat_natCast]
      have hdiv : (-(k : Int)).tdiv r = -((k / r : Nat) : Int) := by
        rw [Int.neg_tdiv, Int.tdiv_eq_ediv_of_nonneg (Int.natCast_nonneg k), Int.natCast_ediv]
      have hlt : k % r < r := Nat.mod_lt _ (by omega)
      have hchar := (lowerDigit_values (k % r) (by omega)).2.2.2
      rw [renderLoop, hmod, hchar, hdiv, digitsOf_step hr.1]
      simp only [Option.bind_eq_bind, Option.bind_some, neg_eq_zero, Nat.cast_eq_zero]
      split_ifs with hlast
      · exact ⟨room, by omega, rfl⟩
      · have hsmaller : k / r < r ^ j := by
          rw [Nat.div_lt_iff_lt_mul (by omega), ← pow_succ]
          exact hk
        have hj : 0 < j := by
          by_contra hzero
          rw [show j = 0 by omega, pow_zero] at hsmaller
          exact hlast (Nat.lt_one_iff.1 hsmaller)
        obtain ⟨left, hleft, hrest⟩ := renderLoop_spec hr (lowerDigit (k % r) :: acc) hj
          (Nat.le_of_succ_le_succ hroom) hsmaller
        refine ⟨left, by omega, ?_⟩
        rw [hrest, List.append_assoc]
        rfl

theorem intToStringRadix_eq (hr : 2 ≤ r ∧ r ≤ 36) {n : Int} (hn : InRange n) :
    intToStringRadix n r = some (some (numeral r n)) := by
  have hradix : ¬ ((r : Int) < 2 ∨ (r : Int) > 36) := by omega
  have hmagnitude : nonPositive n = some (-(n.natAbs : Int)) := by
    unfold InRange at hn
    unfold nonPositive
    split_ifs with hneg
    · congr 1
      omega
    · rw [checked, if_pos ⟨by omega, by omega⟩]
      congr 1
      omega
  have hbound : n.natAbs < r ^ 64 := by
    unfold InRange at hn
    have hpow : 2 ^ 64 ≤ r ^ 64 := Nat.pow_le_pow_left hr.1 64
    omega
  obtain ⟨left, hleft, hloop⟩ := renderLoop_spec hr []
    (Nat.succ_pos 63) (show 64 ≤ 72 by decide) hbound
  rw [intToStringRadix, if_neg hradix, hmagnitude]
  simp only [Option.bind_eq_bind, Option.bind_some, hloop, List.append_nil, numeral]
  split_ifs with hneg hroom
  · omega
  · rfl
  · rfl

theorem spells_digitsOf (hr : 2 ≤ r ∧ r ≤ 36) (k : Nat) :
    ∃ ds, Spells r (digitsOf r k) ds ∧ Nat.ofDigits r ds.reverse = k := by
  by_cases hk : k = 0
  · subst hk
    exact ⟨[0], Spells.cons_iff.2 ⟨0, [], rfl, .inl rfl, by omega, Spells.nil_iff.2 rfl⟩,
      Nat.ofDigits_singleton⟩
  · refine ⟨(Nat.digits r k).reverse, ⟨?_, fun d hd => ?_⟩, ?_⟩
    · rw [digitsOf, if_neg hk, List.forall₂_map_left_iff]
      exact List.forall₂_same.2 fun d _ => .inl rfl
    · exact Nat.digits_lt_base (by omega) (List.mem_reverse.1 hd)
    · rw [List.reverse_reverse, Nat.ofDigits_digits]

theorem digitsOf_ne_nil (k : Nat) : digitsOf r k ≠ [] := by
  rw [digitsOf]
  split_ifs with hk
  · simp
  · simpa using Nat.digits_ne_nil_iff_ne_zero.2 hk

theorem writes_numeral (hr : 2 ≤ r ∧ r ≤ 36) (n : Int) : Writes r (numeral r n) n := by
  obtain ⟨ds, hds, hvalue⟩ := spells_digitsOf hr n.natAbs
  by_cases hneg : n < 0
  · refine ⟨[45], -1, _, ds, by rw [numeral, if_pos hneg], .minus, digitsOf_ne_nil _, hds, ?_⟩
    rw [hvalue]
    omega
  · refine ⟨[], 1, _, ds, by rw [numeral, if_neg hneg], .none, digitsOf_ne_nil _, hds, ?_⟩
    rw [hvalue]
    omega

end Printer

theorem writes_zeros {r : Nat} (hr : 2 ≤ r) {sign digits : Str} {unit n : Int} (k : Nat)
    (hsign : Sign sign unit) (hne : digits ≠ []) {ds : List Nat} (hds : Spells r digits ds)
    (hn : n = unit * (Nat.ofDigits r ds.reverse : Nat)) :
    Writes r (sign ++ List.replicate k 48 ++ digits) n := by
  refine ⟨sign, unit, List.replicate k 48 ++ digits, List.replicate k 0 ++ ds,
    List.append_assoc _ _ _, hsign, by simp [hne], ⟨?_, fun d hd => ?_⟩, ?_⟩
  · refine List.rel_append ?_ hds.1
    induction k with
    | zero => exact .nil
    | succ k ih => exact .cons (.inl rfl) ih
  · rcases List.mem_append.1 hd with hzero | hd
    · rw [(List.mem_replicate.1 hzero).2]
      omega
    · exact hds.2 d hd
  · rw [hn, List.reverse_append, List.reverse_replicate, Nat.ofDigits_append_replicate_zero]

/-- Printing in a radix and reading back is exact on every `Int`, the reader accepts exactly the
signed digit runs that write an `Int`, and neither leaves C's defined arithmetic. -/
theorem radix_exact {r : Nat} (hr : 2 ≤ r ∧ r ≤ 36) :
    (∀ n, InRange n → intToStringRadix n r = some (some (numeral r n)) ∧
      toIntRadix (numeral r n) r = some (some n)) ∧
    (∀ s, ∃ res, toIntRadix s r = some res ∧ ∀ n, res = some n ↔ Writes r s n ∧ InRange n) ∧
    ∀ sign unit digits ds k, Sign sign unit → digits ≠ [] → Spells r digits ds →
      InRange (unit * (Nat.ofDigits r ds.reverse : Nat)) →
      toIntRadix (sign ++ List.replicate k 48 ++ digits) r =
        some (some (unit * (Nat.ofDigits r ds.reverse : Nat))) := by
  refine ⟨fun n hn => ⟨intToStringRadix_eq hr hn, ?_⟩, toIntRadix_spec hr, ?_⟩
  · obtain ⟨res, hread, hres⟩ := toIntRadix_spec hr (numeral r n)
    rw [hread, (hres n).2 ⟨writes_numeral hr n, hn⟩]
  · intro sign unit digits ds k hsign hne hds hrange
    obtain ⟨res, hread, hres⟩ := toIntRadix_spec hr (sign ++ List.replicate k 48 ++ digits)
    rw [hread, (hres _).2 ⟨writes_zeros hr.1 k hsign hne hds rfl, hrange⟩]

theorem radix_exact_sixteen : toIntRadix (numeral 16 (-2 ^ 63)) 16 = some (some (-2 ^ 63)) :=
  ((radix_exact (show 2 ≤ 16 ∧ 16 ≤ 36 by decide)).1 (-2 ^ 63) (by decide)).2

example : toIntRadix (ascii "+7f") 16 = some (some 127) := by decide

end Kaikai.RadixText
