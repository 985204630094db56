import Kaikai.RegexpText

namespace Kaikai.Utf8

open Kaikai.RegexpSyntax
open Kaikai.RegexpText
open Kaikai.Str

/-- The bytes of a text. -/
def utf8 (text : List Char) : Str := text.flatMap String.utf8EncodeChar

theorem utf8_cons (c : Char) (text : List Char) :
    utf8 (c :: text) = String.utf8EncodeChar c ++ utf8 text :=
  List.flatMap_cons

theorem lead_two : ∀ x < 0x20, ¬ UInt8.ofNat (x + 0xc0) < 0x80 ∧
    UInt8.ofNat (x + 0xc0) &&& 0xE0 = 0xC0 ∧ (UInt8.ofNat (x + 0xc0) &&& 0x1F).toNat = x := by
  decide

theorem lead_three : ∀ x < 0x10, ¬ UInt8.ofNat (x + 0xe0) < 0x80 ∧
    ¬ UInt8.ofNat (x + 0xe0) &&& 0xE0 = 0xC0 ∧ UInt8.ofNat (x + 0xe0) &&& 0xF0 = 0xE0 ∧
    (UInt8.ofNat (x + 0xe0) &&& 0x0F).toNat = x := by
  decide

theorem lead_four : ∀ x < 8, ¬ UInt8.ofNat (x + 0xf0) < 0x80 ∧
    ¬ UInt8.ofNat (x + 0xf0) &&& 0xE0 = 0xC0 ∧ ¬ UInt8.ofNat (x + 0xf0) &&& 0xF0 = 0xE0 ∧
    UInt8.ofNat (x + 0xf0) &&& 0xF8 = 0xF0 ∧ (UInt8.ofNat (x + 0xf0) &&& 0x07).toNat = x := by
  decide

theorem continuation : ∀ x < 0x40, (UInt8.ofNat (x + 0x80) &&& 0x3F).toNat = x := by
  decide

theorem ascii_byte : ∀ x < 0x80, UInt8.ofNat x < 0x80 ∧ (UInt8.ofNat x).toNat = x := by
  decide

theorem scalarOrReplacement_char (c : Char) : scalarOrReplacement c.toNat = c.toNat := by
  have hvalid : c.toNat < 0xd800 ∨ (0xdfff < c.toNat ∧ c.toNat < 0x110000) := c.valid
  unfold scalarOrReplacement
  rw [if_neg (by omega)]

theorem decode_char (c : Char) {s : Str} {off : Nat} {rest : Str}
    (h : s.drop off = String.utf8EncodeChar c ++ rest) :
    stringCpLen s off = (String.utf8EncodeChar c).length ∧ stringCpAt s off = some c.toNat := by
  have hscalar := scalarOrReplacement_char c
  have hmax : c.toNat < 0x110000 := by
    have hvalid : c.toNat < 0xd800 ∨ (0xdfff < c.toNat ∧ c.toNat < 0x110000) := c.valid
    omega
  unfold stringCpLen stringCpAt
  rw [h]
  unfold String.utf8EncodeChar
  change _ = _ ∧ _ = some (c.val.toNat)
  change scalarOrReplacement c.val.toNat = c.val.toNat at hscalar
  change c.val.toNat < 0x110000 at hmax
  generalize c.val.toNat = v at hscalar hmax
  simp only
  by_cases h1 : v ≤ 0x7f
  · obtain ⟨hlt, hval⟩ := ascii_byte v (by omega)
    simp [h1, utf8SeqLen, hlt, hval]
  · by_cases h2 : v ≤ 0x7ff
    · obtain ⟨hlt, hlead, hval⟩ := lead_two (v / 64 % 0x20) (Nat.mod_lt _ (by decide))
      have hc := continuation (v % 0x40) (Nat.mod_lt _ (by decide))
      have hv : v / 64 % 0x20 * 64 + v % 0x40 = v := by omega
      simp only [h1, h2, utf8SeqLen, leadBits, gather, hlt, hlead, hval, hc, hv, hscalar, if_true,
        if_false, List.cons_append, List.nil_append, List.length_cons, List.length_nil]
      exact ⟨by omega, trivial⟩
    · by_cases h3 : v ≤ 0xffff
      · obtain ⟨hlt, hno, hlead, hval⟩ := lead_three (v / 4096 % 0x10) (Nat.mod_lt _ (by decide))
        have hc := continuation (v % 0x40) (Nat.mod_lt _ (by decide))
        have hc' := continuation (v / 64 % 0x40) (Nat.mod_lt _ (by decide))
        have hv : (v / 4096 % 0x10 * 64 + v / 64 % 0x40) * 64 + v % 0x40 = v := by omega
        simp only [h1, h2, h3, utf8SeqLen, leadBits, gather, hlt, hno, hlead, hval, hc, hc', hv,
          hscalar, if_true, if_false, List.cons_append, List.nil_append, List.length_cons,
          List.length_nil]
        exact ⟨by omega, trivial⟩
      · obtain ⟨hlt, hno, hno', hlead, hval⟩ :=
          lead_four (v / 262144 % 8) (Nat.mod_lt _ (by decide))
        have hc := continuation (v % 0x40) (Nat.mod_lt _ (by decide))
        have hc' := continuation (v / 64 % 0x40) (Nat.mod_lt _ (by decide))
        have hc'' := continuation (v / 4096 % 0x40) (Nat.mod_lt _ (by decide))
        have hv : ((v / 262144 % 8 * 64 + v / 4096 % 0x40) * 64 + v / 64 % 0x40) * 64 +
            v % 0x40 = v := by omega
        simp only [h1, h2, h3, utf8SeqLen, leadBits, gather, hlt, hno, hno', hlead, hval, hc, hc',
          hc'', hv, hscalar, if_true, if_false, List.cons_append, List.nil_append,
          List.length_cons, List.length_nil]
        exact ⟨by omega, trivial⟩

theorem rxCpAt_of_drop {s : Str} {off : Nat} {c : Char} {rest : Str}
    (h : s.drop off = String.utf8EncodeChar c ++ rest) : rxCpAt s off = c := by
  rw [rxCpAt, (decode_char c h).2, Option.getD_some]
  exact Char.ofNat_toNat c

theorem utf8EncodeChar_ne_nil (c : Char) : String.utf8EncodeChar c ≠ [] := by
  unfold String.utf8EncodeChar
  simp only
  split
  · simp
  · split
    · simp
    · split <;> simp

theorem codepointsFrom_utf8 (text : List Char) {s : Str} : ∀ {off : Nat},
    s.drop off = utf8 text → codepointsFrom s off = text := by
  induction text with
  | nil =>
      intro off h
      exact codepointsFrom_eq_nil (List.drop_eq_nil_iff.1 h)
  | cons c text ih =>
      intro off h
      rw [utf8, List.flatMap_cons] at h
      have hlt : off < s.length := by
        by_contra hge
        rw [List.drop_eq_nil_of_le (Nat.le_of_not_lt hge)] at h
        exact utf8EncodeChar_ne_nil c (List.append_eq_nil_iff.1 h.symm).1
      have hnext : s.drop (Regexp.rxNextPos s off) = utf8 text := by
        rw [Regexp.rxNextPos, if_neg (Nat.not_le.2 hlt), (decode_char c h).1, ← List.drop_drop, h,
          List.drop_left]
        rfl
      rw [codepointsFrom_cons hlt, rxCpAt_of_drop h, ih hnext]

theorem codepoints_utf8 (text : List Char) : codepoints (utf8 text) = text :=
  codepointsFrom_utf8 text rfl

end Kaikai.Utf8
