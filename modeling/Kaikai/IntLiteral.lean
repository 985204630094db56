import Kaikai.LexCursor
import Kaikai.StrOrder
import Kaikai.Word64

namespace Kaikai.IntLiteral

open Str Word64

/-- The base of the prefix in front of a text, zero without one. -/
def litBase : Str → Nat
  | a :: b :: _ =>
      if a = 48 then if b = 120 ∨ b = 88 then 16 else if b = 98 ∨ b = 66 then 2 else 0 else 0
  | _ => 0

def hexDigitValue (c : UInt8) : Nat :=
  if 48 ≤ c.toNat ∧ c.toNat ≤ 57 then c.toNat - 48
  else if 97 ≤ c.toNat ∧ c.toNat ≤ 102 then c.toNat - 97 + 10
  else if 65 ≤ c.toNat ∧ c.toNat ≤ 70 then c.toNat - 65 + 10
  else 0

/-- Hex digits end at `}` and read any other byte as 0, the other bases at the first byte that is no
digit. -/
def digitIn (c : UInt8) (base : Nat) : Option Nat :=
  if base = 16 then if c = 125 then none else some (hexDigitValue c)
  else if (48 ≤ c.toNat ∧ c.toNat ≤ 57) ∧ c.toNat - 48 < base then some (c.toNat - 48)
  else none

def scanDigits (base : Nat) : Str → Int → Int
  | [], acc => acc
  | c :: s, acc =>
      if c = 95 then scanDigits base s acc
      else
        match digitIn c base with
        | some d => scanDigits base s (add (mul acc base) d)
        | none => acc

def decodeMagnitude (span : Str) : Int :=
  if litBase span = 0 then scanDigits 10 span 0 else scanDigits (litBase span) (span.drop 2) 0

def decodeInt : Str → Int
  | [] => 0
  | c :: s => if c = 45 then sub 0 (decodeMagnitude s) else decodeMagnitude (c :: s)

/-- The digits of a text in its base, without separators and leading zeros. -/
def countBaseDigits : Str → Nat → Nat
  | [], acc => acc
  | c :: s, acc =>
      if c = 95 ∨ (c = 48 ∧ acc = 0) then countBaseDigits s acc else countBaseDigits s (acc + 1)

/-- The decimal digits without separators and leading zeros, up to the first other byte. -/
def significantDigits : Str → Str → Str
  | [], acc => acc
  | c :: s, acc =>
      if c = 95 ∨ (c = 48 ∧ acc = []) then significantDigits s acc
      else if 48 ≤ c.toNat ∧ c.toNat ≤ 57 then significantDigits s (acc ++ [c])
      else acc

/-- The longer text wins, else the order of strings decides. -/
def magGt (a b : Str) : Bool :=
  if a.length ≠ b.length then decide (a.length > b.length) else stringLt b a

/-- The decimal text of the largest `Int`. -/
def maxText : Str := [57, 50, 50, 51, 51, 55, 50, 48, 51, 54, 56, 53, 52, 55, 55, 53, 56, 48, 55]

def intLitOverflows (span : Str) : Bool :=
  if litBase span = 16 then decide (countBaseDigits (span.drop 2) 0 > 16)
  else if litBase span = 2 then decide (countBaseDigits (span.drop 2) 0 > 64)
  else magGt (significantDigits span []) maxText

/-- The byte spells a digit of the base. -/
def IsDigitOf (base : Nat) (c : UInt8) : Prop :=
  Lex.bIsHexDigit c.toNat = true ∧ hexDigitValue c < base

/-- A run of digits of the base and of separators. -/
def IsRun (base : Nat) (s : Str) : Prop := ∀ c ∈ s, c = 95 ∨ IsDigitOf base c

/-- The digits that a run spells. -/
def digits (s : Str) : List Nat := (s.filter (· ≠ 95)).map hexDigitValue

/-- The number that a run spells. -/
def spelled (base : Nat) (s : Str) : Nat := Nat.ofDigits base (digits s).reverse

/-- The base of a literal. -/
def writtenBase (span : Str) : Nat := if litBase span = 0 then 10 else litBase span

/-- The digits of a literal, behind its prefix. -/
def writtenRun (span : Str) : Str := if litBase span = 0 then span else span.drop 2

/-- The number that a literal writes. -/
def written (span : Str) : Nat := spelled (writtenBase span) (writtenRun span)

/-- A literal without a sign: digits of its base and separators. -/
def IsNumeral (span : Str) : Prop :=
  span.head? ≠ some 45 ∧ IsRun (writtenBase span) (writtenRun span)

/-- The `Int` that a literal stands for, if it fits: a decimal literal is a number, a prefixed one
the pattern of the 64 bits of a two's complement. -/
def denoted (span : Str) : Option Int :=
  if litBase span = 0 then if written span < 2 ^ 63 then some (written span) else none
  else if written span < 2 ^ 63 then some (written span)
  else if written span < 2 ^ 64 then some (written span - 2 ^ 64)
  else none

section Positional

variable {b : Nat}

theorem ofDigits_reverse_cons (d : Nat) (ds : List Nat) :
    Nat.ofDigits b (d :: ds).reverse = d * b ^ ds.length + Nat.ofDigits b ds.reverse := by
  rw [List.reverse_cons, Nat.ofDigits_append, Nat.ofDigits_singleton, List.length_reverse]
  ring

theorem ofDigits_reverse_lt (hb : 1 < b) {ds : List Nat} (h : ∀ d ∈ ds, d < b) :
    Nat.ofDigits b ds.reverse < b ^ ds.length := by
  rw [← List.length_reverse]
  exact Nat.ofDigits_lt_base_pow_length hb fun d hd => h d (List.mem_reverse.1 hd)

theorem ofDigits_reverse_dropWhile (ds : List Nat) :
    Nat.ofDigits b (ds.dropWhile (· = 0)).reverse = Nat.ofDigits b ds.reverse := by
  induction ds with
  | nil => rfl
  | cons d ds ih =>
      rw [List.dropWhile_cons]
      split_ifs with hd
      · rw [ih, ofDigits_reverse_cons, of_decide_eq_true hd, Nat.zero_mul, Nat.zero_add]
      · rfl

theorem pow_le_ofDigits_iff (hb : 1 < b) {ds : List Nat} (h : ∀ d ∈ ds, d < b) (k : Nat) :
    b ^ k ≤ Nat.ofDigits b ds.reverse ↔ k < (ds.dropWhile (· = 0)).length := by
  have hlt : ∀ d ∈ ds.dropWhile (· = 0), d < b := fun d hd => h d (List.dropWhile_subset _ hd)
  have hvalue := ofDigits_reverse_dropWhile (b := b) ds
  have hlead := List.head?_dropWhile_not (fun d : Nat => decide (d = 0)) ds
  generalize ds.dropWhile (· = 0) = es at hlt hvalue hlead ⊢
  rw [← hvalue]
  constructor
  · intro hle
    have hupper := ofDigits_reverse_lt hb hlt
    exact (Nat.pow_lt_pow_iff_right hb).1 (hle.trans_lt hupper)
  · intro hk
    cases es with
    | nil => exact absurd hk (Nat.not_lt_zero k)
    | cons d es =>
        have hd : d ≠ 0 := by simpa using hlead
        calc b ^ k ≤ b ^ es.length := Nat.pow_le_pow_right hb.le (Nat.lt_succ_iff.1 hk)
          _ ≤ d * b ^ es.length := Nat.le_mul_of_pos_left _ (Nat.pos_of_ne_zero hd)
          _ ≤ _ := by
            rw [ofDigits_reverse_cons]
            exact Nat.le_add_right _ _

end Positional

theorem wrap_shift (a : Nat) (base d : Nat) :
    add (mul (wrap a) base) d = wrap ((a * base + d : Nat) : Int) := by
  obtain ⟨k, hk⟩ := exists_wrap_eq a
  have hshift : ((a * base + d : Nat) : Int) = wrap a * base + d + -(k * base) * 2 ^ 64 := by
    rw [hk]
    push_cast
    ring
  rw [add, mul, wrap_wrap_add, hshift]
  unfold wrap
  omega

theorem IsRun.cons {base : Nat} {c : UInt8} {s : Str} (h : IsRun base (c :: s)) :
    (c = 95 ∨ IsDigitOf base c) ∧ IsRun base s :=
  List.forall_mem_cons.1 h

theorem digits_sep (s : Str) : digits (95 :: s) = digits s := rfl

theorem digits_cons {c : UInt8} (hc : c ≠ 95) (s : Str) :
    digits (c :: s) = hexDigitValue c :: digits s := by
  rw [digits, List.filter_cons, if_pos (decide_eq_true hc)]
  rfl

theorem IsRun.lt {base : Nat} {s : Str} (h : IsRun base s) : ∀ d ∈ digits s, d < base := by
  intro d hd
  obtain ⟨c, hc, rfl⟩ := List.mem_map.1 hd
  obtain ⟨hmem, hsep⟩ := List.mem_filter.1 hc
  exact ((h c hmem).resolve_left (of_decide_eq_true hsep)).2

theorem hexDigitValue_lt_ten {c : UInt8} (hc : Lex.bIsHexDigit c.toNat = true) :
    hexDigitValue c < 10 ↔ 48 ≤ c.toNat ∧ c.toNat ≤ 57 := by
  simp only [Lex.bIsHexDigit, Lex.bIsDigit, Bool.or_eq_true, decide_eq_true_eq] at hc
  unfold hexDigitValue
  split_ifs <;> omega

theorem digitIn_eq {base : Nat} (hbase : base = 16 ∨ base ≤ 10) {c : UInt8}
    (h : IsDigitOf base c) : digitIn c base = some (hexDigitValue c) := by
  obtain ⟨hhex, hlt⟩ := h
  unfold digitIn
  split_ifs with h16 hbrace hdigit
  · subst hbrace
    exact absurd hhex (by decide)
  · rfl
  · rw [hexDigitValue, if_pos hdigit.1]
  · have hten := (hexDigitValue_lt_ten hhex).1 (hlt.trans_le (hbase.resolve_left h16))
    rw [hexDigitValue, if_pos hten] at hlt
    exact absurd ⟨hten, hlt⟩ hdigit

theorem scanDigits_eq {base : Nat} (hbase : base = 16 ∨ base ≤ 10) :
    ∀ {s : Str}, IsRun base s → ∀ a : Nat, scanDigits base s (wrap a) =
      wrap ((a * base ^ (digits s).length + spelled base s : Nat) : Int)
  | [], _, a => by simp [scanDigits, digits, spelled]
  | c :: s, h, a => by
      obtain ⟨hc, hs⟩ := h.cons
      by_cases hsep : c = 95
      · rw [scanDigits, if_pos hsep, scanDigits_eq hbase hs, spelled, spelled, hsep, digits_sep]
      · rw [scanDigits, if_neg hsep, digitIn_eq hbase (hc.resolve_left hsep), spelled,
          digits_cons hsep, ofDigits_reverse_cons, List.length_cons, pow_succ]
        dsimp only
        rw [wrap_shift, scanDigits_eq hbase hs, spelled]
        congr 2
        ring

theorem scanDigits_zero {base : Nat} (hbase : base = 16 ∨ base ≤ 10) {s : Str} (h : IsRun base s) :
    scanDigits base s 0 = wrap (spelled base s) := by
  have hrun := scanDigits_eq hbase h 0
  rwa [Nat.zero_mul, Nat.zero_add] at hrun

theorem litBase_cases (span : Str) : litBase span = 0 ∨ litBase span = 16 ∨ litBase span = 2 := by
  unfold litBase
  split
  · split_ifs <;> simp
  · exact .inl rfl

theorem decodeInt_eq {span : Str} (h : IsNumeral span) : decodeInt span = wrap (written span) := by
  obtain ⟨hsign, hrun⟩ := h
  have hmagnitude : decodeMagnitude span = wrap (written span) := by
    unfold decodeMagnitude written
    unfold writtenBase writtenRun at *
    obtain hbase | hbase | hbase := litBase_cases span
    all_goals
      rw [hbase] at hrun ⊢
      exact scanDigits_zero (by decide) hrun
  rw [← hmagnitude]
  cases span with
  | nil => rfl
  | cons c s => rw [decodeInt, if_neg fun hc => hsign (congrArg some hc)]

theorem hexDigitValue_eq_zero {c : UInt8} (hc : Lex.bIsHexDigit c.toNat = true) :
    hexDigitValue c = 0 ↔ c = 48 := by
  rw [← UInt8.toNat_inj]
  simp only [Lex.bIsHexDigit, Lex.bIsDigit, Bool.or_eq_true, decide_eq_true_eq] at hc
  have hcode : (48 : UInt8).toNat = 48 := rfl
  unfold hexDigitValue
  rw [hcode]
  split_ifs <;> constructor <;> intro h
  all_goals first | omega | exact h.elim

theorem countBaseDigits_pos {base : Nat} : ∀ {s : Str}, IsRun base s → ∀ {n : Nat}, 0 < n →
    countBaseDigits s n = n + (digits s).length
  | [], _, n, _ => rfl
  | c :: s, h, n, hn => by
      obtain ⟨hc, hs⟩ := h.cons
      by_cases hsep : c = 95
      · rw [countBaseDigits, if_pos (.inl hsep), countBaseDigits_pos hs hn, hsep, digits_sep]
      · rw [countBaseDigits, if_neg (by rintro (h | h); exacts [hsep h, hn.ne' h.2]),
          countBaseDigits_pos hs n.succ_pos, digits_cons hsep, List.length_cons]
        omega

theorem countBaseDigits_eq {base : Nat} : ∀ {s : Str}, IsRun base s →
    countBaseDigits s 0 = ((digits s).dropWhile (· = 0)).length
  | [], _ => rfl
  | c :: s, h => by
      obtain ⟨hc, hs⟩ := h.cons
      by_cases hsep : c = 95
      · rw [countBaseDigits, if_pos (.inl hsep), countBaseDigits_eq hs, hsep, digits_sep]
      · have hzero := hexDigitValue_eq_zero (hc.resolve_left hsep).1
        rw [digits_cons hsep, List.dropWhile_cons, countBaseDigits]
        by_cases hc0 : c = 48
        · rw [if_pos (.inr ⟨hc0, rfl⟩), if_pos (decide_eq_true (hzero.2 hc0)),
            countBaseDigits_eq hs]
        · rw [if_neg (by rintro (h | h); exacts [hsep h, hc0 h.1]),
            if_neg fun h => hc0 (hzero.1 (of_decide_eq_true h)), countBaseDigits_pos hs Nat.one_pos,
            List.length_cons, Nat.add_comm]

theorem countBaseDigits_gt_iff {base : Nat} (hb : 1 < base) {s : Str} (h : IsRun base s) (k : Nat) :
    countBaseDigits s 0 > k ↔ base ^ k ≤ spelled base s := by
  rw [spelled, pow_le_ofDigits_iff hb h.lt, countBaseDigits_eq h]

/-- Decimal digits and nothing else. -/
def IsDecimal (s : Str) : Prop := ∀ c ∈ s, 48 ≤ c.toNat ∧ c.toNat ≤ 57

theorem IsDecimal.digits_eq {s : Str} (h : IsDecimal s) : digits s = s.map hexDigitValue := by
  rw [digits, List.filter_eq_self.2]
  intro c hc
  refine decide_eq_true fun hsep => ?_
  subst hsep
  exact absurd (h _ hc).2 (by decide)

theorem IsDecimal.isRun {s : Str} (h : IsDecimal s) : IsRun 10 s := by
  intro c hc
  have hdigit := h c hc
  have hhex : Lex.bIsHexDigit c.toNat = true := by
    simp only [Lex.bIsHexDigit, Lex.bIsDigit, Bool.or_eq_true, decide_eq_true_eq]
    omega
  exact .inr ⟨hhex, (hexDigitValue_lt_ten hhex).2 hdigit⟩

theorem IsDecimal.spelled_lt {s : Str} (h : IsDecimal s) : spelled 10 s < 10 ^ s.length := by
  have hlt := ofDigits_reverse_lt (b := 10) (by decide) h.isRun.lt
  rwa [h.digits_eq, List.length_map, ← h.digits_eq] at hlt

theorem IsDecimal.spelled_cons {c : UInt8} {s : Str} (h : IsDecimal (c :: s)) :
    spelled 10 (c :: s) = (c.toNat - 48) * 10 ^ s.length + spelled 10 s := by
  obtain ⟨hc, hs⟩ := List.forall_mem_cons.1 h
  have htail : IsDecimal s := hs
  rw [spelled, h.digits_eq, List.map_cons, ofDigits_reverse_cons, List.length_map,
    ← htail.digits_eq, hexDigitValue, if_pos hc, spelled]

theorem stringLt_iff_spelled : ∀ {a b : Str}, IsDecimal a → IsDecimal b → a.length = b.length →
    (stringLt a b = true ↔ spelled 10 a < spelled 10 b)
  | [], [], _, _, _ => iff_of_false Bool.false_ne_true (lt_irrefl _)
  | c :: a, d :: b, ha, hb, hlen => by
      have ha' : IsDecimal a := (List.forall_mem_cons.1 ha).2
      have hb' : IsDecimal b := (List.forall_mem_cons.1 hb).2
      have hc := (List.forall_mem_cons.1 ha).1
      have hd := (List.forall_mem_cons.1 hb).1
      have hlen' : a.length = b.length := Nat.succ.inj hlen
      have hva := ha'.spelled_lt
      have hvb := hb'.spelled_lt
      rw [stringLt, ha.spelled_cons, hb.spelled_cons]
      rw [hlen'] at hva ⊢
      split_ifs with heq
      · rw [heq, stringLt_iff_spelled ha' hb' hlen', Nat.add_lt_add_iff_left]
      · rw [decide_eq_true_eq, UInt8.lt_iff_toNat_lt]
        have hne : c.toNat ≠ d.toNat := fun h => heq (UInt8.toNat_inj.1 h)
        constructor
        · intro hlt
          have hmul : (c.toNat - 48 + 1) * 10 ^ b.length ≤ (d.toNat - 48) * 10 ^ b.length :=
            Nat.mul_le_mul_right _ (by omega)
          rw [Nat.add_mul] at hmul
          omega
        · intro hlt
          by_contra hge
          have hmul : (d.toNat - 48 + 1) * 10 ^ b.length ≤ (c.toNat - 48) * 10 ^ b.length :=
            Nat.mul_le_mul_right _ (by omega)
          rw [Nat.add_mul] at hmul
          omega

theorem IsDigitOf.isDecimal {c : UInt8} (h : IsDigitOf 10 c) : 48 ≤ c.toNat ∧ c.toNat ≤ 57 :=
  (hexDigitValue_lt_ten h.1).1 h.2

theorem significantDigits_append : ∀ {s : Str}, IsRun 10 s → ∀ {acc : Str}, acc ≠ [] →
    significantDigits s acc = acc ++ s.filter (· ≠ 95)
  | [], _, acc, _ => (List.append_nil acc).symm
  | c :: s, h, acc, hacc => by
      obtain ⟨hc, hs⟩ := h.cons
      rw [List.filter_cons]
      by_cases hsep : c = 95
      · rw [significantDigits, if_pos (.inl hsep), significantDigits_append hs hacc,
          if_neg (by simp [hsep])]
      · rw [significantDigits, if_neg (by rintro (h | h); exacts [hsep h, hacc h.2]),
          if_pos (hc.resolve_left hsep).isDecimal,
          significantDigits_append hs (List.append_ne_nil_of_right_ne_nil _ (List.cons_ne_nil c [])),
          if_pos (decide_eq_true hsep), List.append_assoc, List.singleton_append]

theorem significantDigits_eq : ∀ {s : Str}, IsRun 10 s →
    significantDigits s [] = (s.filter (· ≠ 95)).dropWhile (· = 48)
  | [], _ => rfl
  | c :: s, h => by
      obtain ⟨hc, hs⟩ := h.cons
      rw [List.filter_cons]
      by_cases hsep : c = 95
      · rw [significantDigits, if_pos (.inl hsep), significantDigits_eq hs,
          if_neg (by simp [hsep])]
      · rw [if_pos (decide_eq_true hsep), List.dropWhile_cons, significantDigits]
        by_cases hzero : c = 48
        · rw [if_pos (.inr ⟨hzero, rfl⟩), if_pos (decide_eq_true hzero), significantDigits_eq hs]
        · rw [if_neg (by rintro (h | h); exacts [hsep h, hzero h.1]),
            if_pos (hc.resolve_left hsep).isDecimal, if_neg fun h => hzero (of_decide_eq_true h),
            significantDigits_append hs (List.append_ne_nil_of_right_ne_nil _ (List.cons_ne_nil c []))]
          rfl

theorem map_dropWhile_zero : ∀ {s : Str}, IsDecimal s →
    (s.dropWhile (· = 48)).map hexDigitValue = (s.map hexDigitValue).dropWhile (· = 0)
  | [], _ => rfl
  | c :: s, h => by
      have hs : IsDecimal s := (List.forall_mem_cons.1 h).2
      have hc := h c List.mem_cons_self
      have hzero : hexDigitValue c = 0 ↔ c = 48 :=
        hexDigitValue_eq_zero ((h.isRun c List.mem_cons_self).resolve_left (by rintro rfl; exact absurd hc.2 (by decide))).1
      rw [List.map_cons, List.dropWhile_cons, List.dropWhile_cons]
      by_cases hc0 : c = 48
      · rw [if_pos (decide_eq_true hc0), if_pos (decide_eq_true (hzero.2 hc0)),
          map_dropWhile_zero hs]
      · rw [if_neg fun h => hc0 (of_decide_eq_true h),
          if_neg fun h => hc0 (hzero.1 (of_decide_eq_true h)), List.map_cons]

theorem IsRun.isDecimal_filter {s : Str} (h : IsRun 10 s) : IsDecimal (s.filter (· ≠ 95)) := by
  intro c hc
  obtain ⟨hmem, hsep⟩ := List.mem_filter.1 hc
  exact ((h c hmem).resolve_left (of_decide_eq_true hsep)).isDecimal

/-- The significant digits of a run are decimal and keep its value; their number is the one of the
digits behind the leading zeros. -/
theorem significantDigits_spec {s : Str} (h : IsRun 10 s) :
    IsDecimal (significantDigits s []) ∧
      spelled 10 (significantDigits s []) = spelled 10 s ∧
      (significantDigits s []).length = ((digits s).dropWhile (· = 0)).length := by
  have hfilter := h.isDecimal_filter
  have hdecimal : IsDecimal (significantDigits s []) := by
    rw [significantDigits_eq h]
    exact fun c hc => hfilter c (List.dropWhile_subset _ hc)
  have hdigits : digits (significantDigits s []) = (digits s).dropWhile (· = 0) := by
    rw [hdecimal.digits_eq, significantDigits_eq h, map_dropWhile_zero hfilter]
    rfl
  refine ⟨hdecimal, ?_, ?_⟩
  · rw [spelled, hdigits, ofDigits_reverse_dropWhile, spelled]
  · rw [← hdigits, hdecimal.digits_eq, List.length_map]

theorem isDecimal_maxText : IsDecimal maxText := by
  have hall : maxText.all (fun c => decide (48 ≤ c.toNat ∧ c.toNat ≤ 57)) = true := by decide
  exact fun c hc => of_decide_eq_true (List.all_eq_true.1 hall c hc)

theorem spelled_maxText : spelled 10 maxText = 2 ^ 63 - 1 := by decide

theorem magGt_significantDigits_iff {s : Str} (h : IsRun 10 s) :
    magGt (significantDigits s []) maxText = true ↔ 2 ^ 63 ≤ spelled 10 s := by
  obtain ⟨hdecimal, hvalue, hlength⟩ := significantDigits_spec h
  have hmax : maxText.length = 19 := rfl
  have hreach : ∀ k, 10 ^ k ≤ spelled 10 s ↔ k < (significantDigits s []).length := fun k => by
    rw [hlength, spelled, pow_le_ofDigits_iff (by decide) h.lt]
  have hlow := hreach 18
  have hhigh := hreach 19
  unfold magGt
  split_ifs with hlen
  · rw [hmax] at hlen ⊢
    rw [decide_eq_true_eq]
    omega
  · rw [stringLt_iff_spelled isDecimal_maxText hdecimal (not_not.1 hlen).symm, hvalue,
      spelled_maxText]
    omega

theorem intLitOverflows_iff {span : Str} (h : IsNumeral span) :
    intLitOverflows span = true ↔
      (if litBase span = 0 then 2 ^ 63 else 2 ^ 64) ≤ written span := by
  have hrun := h.2
  unfold intLitOverflows written
  unfold writtenBase writtenRun at *
  obtain hbase | hbase | hbase := litBase_cases span
  · rw [hbase] at hrun ⊢
    exact magGt_significantDigits_iff hrun
  · rw [hbase] at hrun ⊢
    rw [if_pos rfl, decide_eq_true_eq]
    exact countBaseDigits_gt_iff (by decide) hrun 16
  · rw [hbase] at hrun ⊢
    rw [if_neg (by decide), if_pos rfl, decide_eq_true_eq]
    exact countBaseDigits_gt_iff (by decide) hrun 64

theorem wrap_of_lt {n : Nat} (h : n < 2 ^ 63) : wrap n = n :=
  wrap_eq_self (by omega) (by omega)

theorem wrap_of_pattern {n : Nat} (hlow : 2 ^ 63 ≤ n) (hhigh : n < 2 ^ 64) :
    wrap n = n - 2 ^ 64 := by
  unfold wrap
  omega

theorem denoted_eq {span : Str} (h : IsNumeral span) :
    denoted span = if intLitOverflows span then none else some (decodeInt span) := by
  have hcheck := intLitOverflows_iff h
  rw [decodeInt_eq h]
  unfold denoted
  by_cases hover : intLitOverflows span = true
  · rw [if_pos hover]
    have hbig := hcheck.1 hover
    split_ifs at hbig ⊢ with hbase <;> first | rfl | omega
  · rw [if_neg hover]
    have hsmall := mt hcheck.2 hover
    split_ifs at hsmall ⊢ with hbase hlow hlow hhigh
    · rw [wrap_of_lt hlow]
    · exact absurd (not_lt.1 hlow) hsmall
    · rw [wrap_of_lt hlow]
    · rw [wrap_of_pattern (not_lt.1 hlow) hhigh]
    · exact absurd (not_lt.1 hhigh) hsmall

end Kaikai.IntLiteral
