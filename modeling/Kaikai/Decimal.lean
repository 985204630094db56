import Mathlib.Data.Nat.Digits.Lemmas
import Kaikai.Str

namespace Kaikai.Decimal

open Kaikai.Str

def IsDigit (b : UInt8) : Prop := 48 ≤ b.toNat ∧ b.toNat ≤ 57

instance (b : UInt8) : Decidable (IsDigit b) := inferInstanceAs (Decidable (_ ∧ _))

def AllDigits (ds : Str) : Prop := ∀ b ∈ ds, IsDigit b

instance (ds : Str) : Decidable (AllDigits ds) := inferInstanceAs (Decidable (∀ b ∈ ds, _))

/-- The number spelled by digits `ds` after the digits of `v`. -/
def digitsFrom (v : Nat) (ds : Str) : Nat := ds.foldl (fun v b => v * 10 + (b.toNat - 48)) v

def digitsOf (ds : Str) : Nat := digitsFrom 0 ds

/-- The digits of a number, none for zero. -/
def text (n : Nat) : Str := (Nat.digits 10 n).reverse.map fun d => UInt8.ofNat (48 + d)

def numeral (n : Nat) : Str := if n = 0 then [48] else text n

/-- The digits of a number behind zeros that fill the width. -/
def padded (width n : Nat) : Str := List.replicate (width - (text n).length) 48 ++ text n

/-- The base-10 numeral of a number: no leading zeros. -/
structure Canonical (ds : Str) (n : Nat) : Prop where
  digits : AllDigits ds
  nonempty : ds ≠ []
  value : digitsOf ds = n
  leading : ds.head? = some 48 → ds = [48]

def intToString (n : Int) : Str := if n < 0 then 45 :: numeral n.natAbs else numeral n.natAbs

@[simp] theorem digitsFrom_nil (v : Nat) : digitsFrom v [] = v := rfl

@[simp] theorem digitsFrom_cons (v : Nat) (b : UInt8) (ds : Str) :
    digitsFrom v (b :: ds) = digitsFrom (v * 10 + (b.toNat - 48)) ds := by
  rw [digitsFrom, List.foldl_cons, digitsFrom]

theorem digitsFrom_append (v : Nat) (ds es : Str) :
    digitsFrom v (ds ++ es) = digitsFrom (digitsFrom v ds) es :=
  List.foldl_append

theorem digitsFrom_eq (ds : Str) (v : Nat) : digitsFrom v ds = v * 10 ^ ds.length + digitsOf ds := by
  induction ds generalizing v with
  | nil => simp [digitsOf]
  | cons b ds ih =>
      rw [digitsOf, digitsFrom_cons, digitsFrom_cons, ih, ih (0 * 10 + (b.toNat - 48)),
        List.length_cons, pow_succ]
      ring

theorem digitsOf_cons (b : UInt8) (ds : Str) :
    digitsOf (b :: ds) = (b.toNat - 48) * 10 ^ ds.length + digitsOf ds := by
  rw [digitsOf, digitsFrom_cons, digitsFrom_eq, Nat.zero_mul, Nat.zero_add]

theorem digitsOf_append (ds es : Str) :
    digitsOf (ds ++ es) = digitsOf ds * 10 ^ es.length + digitsOf es := by
  rw [digitsOf, digitsFrom_append, digitsFrom_eq]
  rfl

theorem digitsOf_lt {ds : Str} (h : AllDigits ds) : digitsOf ds < 10 ^ ds.length := by
  induction ds with
  | nil => exact Nat.one_pos
  | cons b ds ih =>
      obtain ⟨hb, hds⟩ := List.forall_mem_cons.1 h
      have hrest := ih hds
      have hlead : (b.toNat - 48) * 10 ^ ds.length ≤ 9 * 10 ^ ds.length := by
        apply Nat.mul_le_mul_right
        unfold IsDigit at hb
        omega
      rw [digitsOf_cons, List.length_cons, pow_succ]
      omega

theorem AllDigits.append {ds es : Str} : AllDigits (ds ++ es) ↔ AllDigits ds ∧ AllDigits es := by
  simp only [AllDigits, List.forall_mem_append]

theorem AllDigits.replicate_zero (n : Nat) : AllDigits (List.replicate n 48) := by
  intro b hb
  rw [List.eq_of_mem_replicate hb]
  decide

theorem digitsOf_replicate_zero (n : Nat) : digitsOf (List.replicate n 48) = 0 := by
  induction n with
  | zero => rfl
  | succ n ih =>
      rw [List.replicate_succ, digitsOf, digitsFrom_cons]
      exact ih

theorem toNat_digit {d : Nat} (hd : d < 10) : (UInt8.ofNat (48 + d)).toNat = 48 + d := by
  rw [UInt8.toNat_ofNat']
  omega

theorem text_zero : text 0 = [] := by
  rw [text, Nat.digits_zero]
  rfl

theorem text_eq_nil_iff {n : Nat} : text n = [] ↔ n = 0 := by
  rw [text, List.map_eq_nil_iff, List.reverse_eq_nil_iff, Nat.digits_eq_nil_iff_eq_zero]

theorem allDigits_text (n : Nat) : AllDigits (text n) := by
  intro b hb
  obtain ⟨d, hd, rfl⟩ := List.mem_map.1 hb
  have hlt := Nat.digits_lt_base (by decide) (List.mem_reverse.1 hd)
  rw [IsDigit, toNat_digit hlt]
  omega

theorem digitsFrom_map {ds : List Nat} (hds : ∀ d ∈ ds, d < 10) :
    digitsOf (ds.reverse.map fun d => UInt8.ofNat (48 + d)) = Nat.ofDigits 10 ds := by
  induction ds with
  | nil => rfl
  | cons d ds ih =>
      obtain ⟨hd, hds⟩ := List.forall_mem_cons.1 hds
      rw [List.reverse_cons, List.map_append, digitsOf_append, ih hds, Nat.ofDigits_cons,
        List.map_singleton, List.length_singleton, digitsOf, digitsFrom_cons, digitsFrom_nil,
        toNat_digit hd]
      omega

theorem digitsOf_text (n : Nat) : digitsOf (text n) = n := by
  rw [text, digitsFrom_map fun d hd => Nat.digits_lt_base (by decide) hd, Nat.ofDigits_digits]

theorem head_text {n : Nat} (hn : n ≠ 0) : (text n).head? ≠ some 48 := by
  have hne : Nat.digits 10 n ≠ [] := Nat.digits_ne_nil_iff_ne_zero.2 hn
  rw [text, List.head?_map, List.head?_reverse, List.getLast?_eq_some_getLast hne, Option.map_some]
  intro h
  have hlt := Nat.digits_lt_base (b := 10) (by decide) (List.getLast_mem hne)
  have heq := congrArg UInt8.toNat (Option.some.inj h)
  rw [toNat_digit hlt] at heq
  exact Nat.getLast_digit_ne_zero 10 hn (by simpa using heq)

theorem canonical_text {n : Nat} (hn : n ≠ 0) : Canonical (text n) n where
  digits := allDigits_text n
  nonempty := fun h => hn (text_eq_nil_iff.1 h)
  value := digitsOf_text n
  leading := fun h => absurd h (head_text hn)

theorem canonical_numeral (n : Nat) : Canonical (numeral n) n := by
  rw [numeral]
  split_ifs with hn
  · subst hn
    have hzero : AllDigits [48] := by
      intro b hb
      rw [List.mem_singleton.1 hb, IsDigit]
      decide
    exact ⟨hzero, by simp, rfl, fun _ => rfl⟩
  · exact canonical_text hn

theorem map_digits {ds : Str} (h : AllDigits ds) :
    (ds.map fun b => b.toNat - 48).map (fun d => UInt8.ofNat (48 + d)) = ds := by
  rw [List.map_map]
  calc
    ds.map ((fun d => UInt8.ofNat (48 + d)) ∘ fun b => b.toNat - 48) = ds.map id := by
      apply List.map_congr_left
      intro b hb
      have hdigit := h b hb
      unfold IsDigit at hdigit
      have hcode : 48 + (b.toNat - 48) = b.toNat := by omega
      rw [Function.comp_apply, hcode, UInt8.ofNat_toNat, id]
    _ = ds := List.map_id ds

theorem Canonical.eq_numeral {ds : Str} {n : Nat} (h : Canonical ds n) : ds = numeral n := by
  by_cases hzero : ds.head? = some 48
  · have hds := h.leading hzero
    have hn := h.value
    rw [hds] at hn
    rw [hds, ← hn]
    rfl
  · obtain ⟨b, rest, rfl⟩ := List.exists_cons_of_ne_nil h.nonempty
    let L : List Nat := ((b :: rest).map fun b => b.toNat - 48).reverse
    have hlt : ∀ l ∈ L, l < 10 := by
      intro l hl
      obtain ⟨c, hc, rfl⟩ := List.mem_map.1 (List.mem_reverse.1 hl)
      have hdigit := h.digits c hc
      unfold IsDigit at hdigit
      omega
    have hlast : ∀ hL : L ≠ [], L.getLast hL ≠ 0 := by
      intro hL hval
      apply hzero
      have hb := h.digits b List.mem_cons_self
      have hhead : L.getLast hL = b.toNat - 48 := by simp [L]
      rw [hhead] at hval
      unfold IsDigit at hb
      have hcode : b.toNat = 48 := by omega
      rw [List.head?_cons, ← UInt8.toNat_inj.1 (show b.toNat = (48 : UInt8).toNat from hcode)]
    have hspell : L.reverse.map (fun d => UInt8.ofNat (48 + d)) = b :: rest := by
      rw [List.reverse_reverse]
      exact map_digits h.digits
    have hvalue : Nat.ofDigits 10 L = n := by
      rw [← digitsFrom_map hlt, hspell]
      exact h.value
    have hdigits : Nat.digits 10 n = L := by
      rw [← hvalue]
      exact Nat.digits_ofDigits 10 (by decide) L hlt hlast
    have htext : text n = b :: rest := by rw [text, hdigits, hspell]
    have hn : n ≠ 0 := by
      intro h0
      rw [text_eq_nil_iff.2 h0] at htext
      cases htext
    rw [numeral, if_neg hn, htext]

theorem length_text_le_iff {n k : Nat} : (text n).length ≤ k ↔ n < 10 ^ k := by
  rw [text, List.length_map, List.length_reverse, Nat.digits_length_le_iff (by decide)]

theorem length_padded {width n : Nat} (hn : n < 10 ^ width) : (padded width n).length = width := by
  have hlen := length_text_le_iff.2 hn
  rw [padded, List.length_append, List.length_replicate]
  omega

theorem text_split {q r k : Nat} (hr : r < 10 ^ k) (hq : 0 < q) :
    text (q * 10 ^ k + r) = text q ++ padded k r := by
  have hlen : (Nat.digits 10 r).length ≤ k := (Nat.digits_length_le_iff (by decide) r).2 hr
  have hsplit := Nat.digits_append_zeroes_append_digits (b := 10) (n := r)
    (k := k - (Nat.digits 10 r).length) (by decide) hq
  rw [Nat.add_sub_cancel' hlen, Nat.mul_comm, Nat.add_comm] at hsplit
  rw [padded, text, ← hsplit, text, text, List.reverse_append, List.reverse_append, List.map_append,
    List.map_append, List.length_map, List.length_reverse, List.reverse_replicate,
    List.map_replicate, Nat.add_zero]
  rfl

theorem padded_split {q r j k : Nat} (hr : r < 10 ^ k) :
    padded (j + k) (q * 10 ^ k + r) = padded j q ++ padded k r := by
  rcases Nat.eq_zero_or_pos q with rfl | hq
  · have hlen := length_text_le_iff.2 hr
    have hwidth : j + k - (text r).length = j + (k - (text r).length) := by omega
    rw [Nat.zero_mul, Nat.zero_add, padded, padded, padded, text_zero, List.append_nil, hwidth,
      List.replicate_add, List.append_assoc]
    rfl
  · have hlen := length_padded hr
    rw [padded, text_split hr hq, List.length_append, hlen, Nat.add_sub_add_right,
      ← List.append_assoc]
    rfl

end Kaikai.Decimal
