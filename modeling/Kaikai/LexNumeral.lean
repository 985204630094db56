import Kaikai.IntLiteral
import Kaikai.LexTiling

namespace Kaikai.Lex

open Str IntLiteral

/-- The length of the suffix of an integer token, `none` for the other tokens. -/
def suffixLength : TokKind → Option Nat
  | .tkInt => some 0
  | .tkUInt8 => some 2
  | .tkInt32 => some 3
  | .tkUInt32 => some 3
  | .tkUInt64 => some 3
  | .tkInt128 => some 4
  | _ => none

/-- The text of a token without the last `n` bytes. -/
def tokDigits (src : Str) (t : Token) (n : Nat) : Str :=
  stringSlice src t.start ((t.length : Int) - n)

theorem suffixLength_of_isPlain {k : TokKind} (h : k.isPlain = true) : suffixLength k = none := by
  cases k <;> first | rfl | cases h

theorem lexNext_number {l : Lexer} {n : Nat} (h : suffixLength (lexNext l).token.kind = some n) :
    ∃ m : Lexer, m.src = l.src ∧ bIsDigit (lexPeek m) = true ∧ lexNext l = lexNumber m := by
  have hkind : (lexNext l).token.kind.isPlain = false := by
    by_contra hplain
    rw [suffixLength_of_isPlain (Bool.not_eq_false _ ▸ hplain)] at h
    cases h
  obtain ⟨hnext, hdigit⟩ | ⟨hnext, -⟩ := lexNext_of_not_isPlain hkind
  · exact ⟨lexSkipWs l, lexMove_src _ _, hdigit, hnext⟩
  · have hstr : suffixLength (lexString (lexSkipWs l)).token.kind = none := by
      unfold lexString lexStrStep
      split <;> rfl
    rw [hnext, hstr] at h
    cases h

theorem byteAt_of_srcHasAt {src : Str} {i : Nat} {s : Str} {k : Nat}
    (h : srcHasAt src i s k = true) : ∀ {j : Nat}, k ≤ j → j < s.length →
      byteAt src (i + j) = byteAt s j := by
  induction k using srcHasAt.induct s with
  | case1 k hlt ih =>
      rw [srcHasAt, if_pos hlt, Bool.and_eq_true] at h
      intro j hkj hj
      obtain rfl | hlt' := Nat.eq_or_lt_of_le hkj
      · exact beq_iff_eq.1 h.1
      · exact ih h.2 hlt' hj
  | case2 k hge =>
      intro j hkj hj
      exact absurd (hkj.trans_lt hj) hge

theorem inside_of_lexMatchStr {l : Lexer} {s : String} {n : Nat} (h : lexMatchStr l s = true)
    (hn : (utf8 s).length = n + 1) : l.pos + (n + 1) ≤ l.src.length := by
  have hlast := byteAt_of_srcHasAt (Bool.and_eq_true_iff.1 h).1 n.zero_le (by omega)
  have hbyte : 0 ≤ byteAt (utf8 s) n := byteAt_nonneg_iff.2 (by omega)
  have hlt := lt_of_byteAt_eq hlast hbyte
  omega

theorem lexAdvanceN_pos {l : Lexer} {n : Nat} (h : l.pos + n ≤ l.src.length) :
    (lexAdvanceN l n).pos = l.pos + n := by
  rw [lexAdvanceN, if_neg (by omega), lexMove_pos (Nat.le_add_right _ _)]

theorem lexAdvance_of_peekIs {l : Lexer} {c : Char} (h : lexPeekIs l c = true) :
    (lexAdvance l).pos = l.pos + 1 ∧ (lexAdvance l).src = l.src := by
  have hpeek : ¬ lexPeek l < 0 := by
    rw [beq_iff_eq.1 h, charToInt]
    omega
  rw [lexAdvance, if_neg hpeek]
  exact ⟨lexMove_pos (Nat.le_succ _), lexMove_src _ _⟩

theorem lexWidthAfterI_spec {l : Lexer} {w : WidthSuffix} (h : lexWidthAfterI l = some w) :
    ∃ n, suffixLength w.kind = some (n + 1) ∧ w.next.pos = l.pos + n := by
  unfold lexWidthAfterI at h
  split_ifs at h with h32 h128
  · cases h
    exact ⟨2, rfl, lexAdvanceN_pos (inside_of_lexMatchStr h32 rfl)⟩
  · cases h
    exact ⟨3, rfl, lexAdvanceN_pos (inside_of_lexMatchStr h128 rfl)⟩

theorem lexWidthAfterU_spec {l : Lexer} {w : WidthSuffix} (h : lexWidthAfterU l = some w) :
    ∃ n, suffixLength w.kind = some (n + 1) ∧ w.next.pos = l.pos + n := by
  unfold lexWidthAfterU at h
  split_ifs at h with h8 h32 h64
  · cases h
    exact ⟨1, rfl, lexAdvanceN_pos (inside_of_lexMatchStr h8 rfl)⟩
  · cases h
    exact ⟨2, rfl, lexAdvanceN_pos (inside_of_lexMatchStr h32 rfl)⟩
  · cases h
    exact ⟨2, rfl, lexAdvanceN_pos (inside_of_lexMatchStr h64 rfl)⟩

theorem lexWidthSuffix_spec {l : Lexer} {k : TokKind} {w : WidthSuffix}
    (h : lexWidthSuffix l k = some w) :
    isIntKind k = true ∧ ∃ n, suffixLength w.kind = some n ∧ w.next.pos = l.pos + n := by
  unfold lexWidthSuffix at h
  split_ifs at h with hk hi hu
  · obtain ⟨n, hn, hpos⟩ := lexWidthAfterI_spec h
    rw [(lexAdvance_of_peekIs hi).1] at hpos
    exact ⟨by simpa using hk, n + 1, hn, by omega⟩
  · obtain ⟨n, hn, hpos⟩ := lexWidthAfterU_spec h
    rw [(lexAdvance_of_peekIs hu).1] at hpos
    exact ⟨by simpa using hk, n + 1, hn, by omega⟩

theorem lexMaybeComplexSuffix_spec {m : Lexer} {sl sc start : Nat} {k : TokKind} {n : Nat}
    (hk : k = .tkInt ∨ k = .tkReal)
    (h : suffixLength (lexMaybeComplexSuffix m sl sc start k).token.kind = some n) :
    k = .tkInt ∧ (lexMaybeComplexSuffix m sl sc start k).token.start = start ∧
      (lexMaybeComplexSuffix m sl sc start k).token.length = m.pos + n - start := by
  unfold lexMaybeComplexSuffix at h ⊢
  split at h
  · next w hw =>
      obtain ⟨hint, n', hn', hpos⟩ := lexWidthSuffix_spec hw
      obtain rfl : n' = n := Option.some.inj (hn'.symm.trans h)
      refine ⟨hk.resolve_right ?_, rfl, by rw [← hpos]; rfl⟩
      rintro rfl
      cases hint
  · split_ifs at h ⊢ with hdecimal hbig hcomplex
    · cases h
    · cases h
    · cases h
    · obtain rfl | rfl := hk
      · cases h
        exact ⟨rfl, rfl, rfl⟩
      · cases h

theorem of_mem_runSlice {p : Int → Bool} {src : Str} {i : Nat} {c : UInt8}
    (h : c ∈ (src.drop i).take (runEnd p src i - i)) : p c.toNat = true := by
  obtain ⟨k, hk, rfl⟩ := List.mem_iff_getElem.1 h
  have hlen := hk
  rw [List.length_take, List.length_drop] at hlen
  have hbyte : byteAt src (i + k) = ((src.drop i).take (runEnd p src i - i))[k].toNat := by
    rw [byteAt, List.getElem_take, List.getElem_drop, List.getElem?_eq_getElem (by omega)]
  rw [← hbyte]
  exact of_mem_runEnd p src (Nat.le_add_right i k) (by omega)

theorem tokDigits_eq {src : Str} {t : Token} {i stop n : Nat} (hstart : t.start = i)
    (hlength : t.length = stop + n - i) (h : i ≤ stop) :
    tokDigits src t n = (src.drop i).take (stop - i) := by
  rw [tokDigits, stringSlice, hstart, hlength, Int.toNat_natCast]
  congr 1
  omega

theorem slice_cons (src : Str) {i stop : Nat} (hlt : i < stop) (hle : stop ≤ src.length) :
    ∃ c : UInt8, byteAt src i = c.toNat ∧
      (src.drop i).take (stop - i) = c :: (src.drop (i + 1)).take (stop - (i + 1)) := by
  obtain ⟨c, hc, hbyte⟩ := exists_byte (hlt.trans_le hle)
  refine ⟨c, hbyte, ?_⟩
  obtain ⟨hi, rfl⟩ := List.getElem?_eq_some_iff.1 hc
  rw [List.drop_eq_getElem_cons hi, show stop - i = stop - (i + 1) + 1 by omega,
    List.take_succ_cons]

theorem eq_of_natCast {c : UInt8} {n : Nat} (hn : n < 256) (h : (c.toNat : Int) = n) :
    c = UInt8.ofNat n := by
  rw [← UInt8.toNat_inj, UInt8.toNat_ofNat', Nat.mod_eq_of_lt hn]
  exact Int.ofNat_inj.1 h

theorem isNumeral_decimal {c : UInt8} {s : Str} (hc : 48 ≤ c.toNat ∧ c.toNat ≤ 57)
    (h : ∀ d ∈ c :: s, (bIsDigit d.toNat || (d.toNat : Int) == bUnderscore) = true) :
    IsNumeral (c :: s) := by
  have hrun : IsRun 10 (c :: s) := by
    intro d hd
    obtain hdigit | hsep := Bool.or_eq_true_iff.1 (h d hd)
    · have hdecimal : 48 ≤ d.toNat ∧ d.toNat ≤ 57 := by
        have hrange := of_decide_eq_true hdigit
        omega
      exact IsDecimal.isRun (s := [d]) (by simpa [IsDecimal] using hdecimal) d List.mem_cons_self
    · exact .inl (eq_of_natCast (by decide) (beq_iff_eq.1 hsep))
  have hbase : litBase (c :: s) = 0 := by
    cases s with
    | nil => rfl
    | cons b s =>
        have hb : b = 95 ∨ b.toNat ≤ 57 :=
          (hrun b (List.mem_cons_of_mem _ List.mem_cons_self)).imp id fun h => h.isDecimal.2
        rw [litBase]
        split_ifs with hzero hx hbin
        · obtain rfl | rfl := hx <;> exact absurd hb (by decide)
        · obtain rfl | rfl := hbin <;> exact absurd hb (by decide)
        · rfl
        · rfl
  refine ⟨?_, ?_⟩
  · intro hsign
    rw [List.head?_cons, Option.some.injEq] at hsign
    subst hsign
    exact absurd hc.1 (by decide)
  · rwa [writtenBase, writtenRun, if_pos hbase, if_pos hbase]

theorem isNumeral_prefixed {a b : UInt8} {s : Str} (base : Nat) (ha : a = 48)
    (hbase : litBase (a :: b :: s) = base) (hpos : base ≠ 0) (h : IsRun base s) :
    IsNumeral (a :: b :: s) := by
  subst ha
  refine ⟨fun hsign => absurd (Option.some.inj hsign) (by decide), ?_⟩
  rwa [writtenBase, writtenRun, if_neg (hbase ▸ hpos), if_neg (hbase ▸ hpos), hbase]

theorem isRun_hex {s : Str}
    (h : ∀ d ∈ s, (bIsHexDigit d.toNat || (d.toNat : Int) == bUnderscore) = true) : IsRun 16 s := by
  intro d hd
  obtain hdigit | hsep := Bool.or_eq_true_iff.1 (h d hd)
  · refine .inr ⟨hdigit, ?_⟩
    unfold hexDigitValue
    split_ifs <;> omega
  · exact .inl (eq_of_natCast (by decide) (beq_iff_eq.1 hsep))

theorem isRun_bin {s : Str}
    (h : ∀ d ∈ s, ((d.toNat : Int) == 48 || (d.toNat : Int) == 49 ||
      (d.toNat : Int) == bUnderscore) = true) : IsRun 2 s := by
  intro d hd
  obtain hdigit | hsep := Bool.or_eq_true_iff.1 (h d hd)
  · obtain h0 | h1 := Bool.or_eq_true_iff.1 hdigit
    · rw [eq_of_natCast (by decide) (beq_iff_eq.1 h0)]
      exact .inr ⟨by decide, by decide⟩
    · rw [eq_of_natCast (by decide) (beq_iff_eq.1 h1)]
      exact .inr ⟨by decide, by decide⟩
  · exact .inl (eq_of_natCast (by decide) (beq_iff_eq.1 hsep))

theorem lexMaybeComplexSuffix_real (m : Lexer) (sl sc start : Nat) :
    suffixLength (lexMaybeComplexSuffix m sl sc start .tkReal).token.kind = none := by
  refine Option.eq_none_iff_forall_ne_some.2 fun n h => ?_
  cases (lexMaybeComplexSuffix_spec (.inr rfl) h).1

theorem lexExponent_suffix (l : Lexer) (sl sc start : Nat) :
    suffixLength (lexExponent l sl sc start).token.kind = none := by
  unfold lexExponent
  dsimp only
  split
  · exact lexMaybeComplexSuffix_real _ _ _ _
  · rfl

theorem inside_of_digit {l : Lexer} (h : bIsDigit (lexPeek l) = true) : l.pos < l.src.length := by
  have hrange := of_decide_eq_true h
  exact byteAt_nonneg_iff.1 (show 0 ≤ lexPeek l by omega)

theorem lexNumberDecimal_spec {l : Lexer} {n : Nat} (hdigit : bIsDigit (lexPeek l) = true)
    (h : suffixLength (lexNumberDecimal l l.line l.col l.pos).token.kind = some n) :
    IsNumeral (tokDigits l.src (lexNumberDecimal l l.line l.col l.pos).token n) := by
  unfold lexNumberDecimal at h ⊢
  dsimp only at h ⊢
  split_ifs at h ⊢ with hreal hexp hexp
  · rw [lexExponent_suffix] at h
    cases h
  · rw [lexMaybeComplexSuffix_real] at h
    cases h
  · rw [lexExponent_suffix] at h
    cases h
  · obtain ⟨-, hstart, hlength⟩ := lexMaybeComplexSuffix_spec (.inl rfl) h
    have hlt : l.pos < digitsEnd l.src l.pos := lt_digitsEnd hdigit
    rw [lexScanDigits, lexMove_pos hlt.le] at hlength
    rw [tokDigits_eq hstart hlength hlt.le]
    have hmem : ∀ d ∈ (l.src.drop l.pos).take (digitsEnd l.src l.pos - l.pos),
        (bIsDigit d.toNat || (d.toNat : Int) == bUnderscore) = true := fun _ => of_mem_runSlice
    obtain ⟨c, hc, hcons⟩ := slice_cons l.src hlt (runEnd_le _ _ _ (inside_of_digit hdigit).le)
    have hlead : bIsDigit c.toNat = true := hc ▸ hdigit
    have hrange := of_decide_eq_true hlead
    rw [hcons] at hmem ⊢
    exact isNumeral_decimal (by omega) hmem

theorem prefixed_text {l : Lexer} {stop n : Nat} (hzero : lexPeekIs l '0' = true)
    (hlow : l.pos + 2 ≤ stop) (hhigh : stop ≤ l.src.length)
    (h : suffixLength (lexMaybeComplexSuffix (lexMove l stop) l.line l.col l.pos
      .tkInt).token.kind = some n) :
    ∃ b : UInt8, lexPeekAt l 1 = b.toNat ∧
      tokDigits l.src (lexMaybeComplexSuffix (lexMove l stop) l.line l.col l.pos .tkInt).token n =
        48 :: b :: (l.src.drop (l.pos + 2)).take (stop - (l.pos + 2)) := by
  obtain ⟨-, hstart, hlength⟩ := lexMaybeComplexSuffix_spec (.inl rfl) h
  rw [lexMove_pos (by omega)] at hlength
  obtain ⟨a, ha, hcons⟩ := slice_cons l.src (i := l.pos) (by omega) hhigh
  obtain ⟨b, hb, hcons'⟩ := slice_cons l.src (i := l.pos + 1) (by omega) hhigh
  have hbyte : byteAt l.src l.pos = (48 : Nat) := beq_iff_eq.1 hzero
  have ha48 : a = 48 := eq_of_natCast (n := 48) (by decide) (ha.symm.trans hbyte)
  refine ⟨b, hb, ?_⟩
  rw [tokDigits_eq hstart hlength (by omega), hcons, hcons', ha48]

theorem lexHexOrBinInt_hex {l : Lexer} {n : Nat} (hzero : lexPeekIs l '0' = true)
    (hx : lexPeekAt l 1 = (120 : Nat) ∨ lexPeekAt l 1 = (88 : Nat))
    (h : suffixLength (lexHexOrBinInt l true l.line l.col l.pos).token.kind = some n) :
    IsNumeral (tokDigits l.src (lexHexOrBinInt l true l.line l.col l.pos).token n) := by
  have hsecond : l.pos + 1 < l.src.length :=
    byteAt_nonneg_iff.1 (show 0 ≤ lexPeekAt l 1 by omega)
  unfold lexHexOrBinInt at h ⊢
  dsimp only at h ⊢
  rw [if_pos rfl] at h ⊢
  have hlow : l.pos + 2 ≤ hexDigitsEnd l.src (l.pos + 2) := le_runEnd _ _ _
  have hhigh : hexDigitsEnd l.src (l.pos + 2) ≤ l.src.length := runEnd_le _ _ _ hsecond
  by_cases hspan : lexSpanHasDigit l.src (l.pos + 2) (hexDigitsEnd l.src (l.pos + 2)) = true
  · rw [if_pos hspan] at h ⊢
    obtain ⟨b, hb, htext⟩ := prefixed_text hzero hlow hhigh h
    rw [htext]
    refine isNumeral_prefixed 16 rfl ?_ (by decide)
      (isRun_hex fun _ => of_mem_runSlice)
    have hb' : b = 120 ∨ b = 88 :=
      hx.imp (fun h => eq_of_natCast (n := 120) (by decide) (hb.symm.trans h))
        fun h => eq_of_natCast (n := 88) (by decide) (hb.symm.trans h)
    rw [litBase, if_pos rfl, if_pos hb']
  · rw [if_neg hspan] at h
    cases h

theorem lexHexOrBinInt_bin {l : Lexer} {n : Nat} (hzero : lexPeekIs l '0' = true)
    (hx : lexPeekAt l 1 = (98 : Nat) ∨ lexPeekAt l 1 = (66 : Nat))
    (h : suffixLength (lexHexOrBinInt l false l.line l.col l.pos).token.kind = some n) :
    IsNumeral (tokDigits l.src (lexHexOrBinInt l false l.line l.col l.pos).token n) := by
  have hsecond : l.pos + 1 < l.src.length :=
    byteAt_nonneg_iff.1 (show 0 ≤ lexPeekAt l 1 by omega)
  unfold lexHexOrBinInt at h ⊢
  dsimp only at h ⊢
  rw [if_neg Bool.false_ne_true] at h ⊢
  have hlow : l.pos + 2 ≤ binDigitsEnd l.src (l.pos + 2) := le_runEnd _ _ _
  have hhigh : binDigitsEnd l.src (l.pos + 2) ≤ l.src.length := runEnd_le _ _ _ hsecond
  by_cases hspan : lexSpanHasDigit l.src (l.pos + 2) (binDigitsEnd l.src (l.pos + 2)) = true
  · rw [if_pos hspan] at h ⊢
    obtain ⟨b, hb, htext⟩ := prefixed_text hzero hlow hhigh h
    rw [htext]
    refine isNumeral_prefixed 2 rfl ?_ (by decide)
      (isRun_bin fun _ => of_mem_runSlice)
    have hb' : b = 98 ∨ b = 66 :=
      hx.imp (fun h => eq_of_natCast (n := 98) (by decide) (hb.symm.trans h))
        fun h => eq_of_natCast (n := 66) (by decide) (hb.symm.trans h)
    have hnot : ¬ (b = 120 ∨ b = 88) := by
      obtain rfl | rfl := hb' <;> decide
    rw [litBase, if_pos rfl, if_neg hnot, if_pos hb']
  · rw [if_neg hspan] at h
    cases h

theorem lexNumber_spec {l : Lexer} {n : Nat} (hdigit : bIsDigit (lexPeek l) = true)
    (h : suffixLength (lexNumber l).token.kind = some n) :
    IsNumeral (tokDigits l.src (lexNumber l).token n) := by
  unfold lexNumber at h ⊢
  split_ifs at h ⊢ with hhex hbin
  · obtain ⟨hzero, hx⟩ := Bool.and_eq_true_iff.1 hhex
    exact lexHexOrBinInt_hex hzero ((Bool.or_eq_true_iff.1 hx).imp beq_iff_eq.1 beq_iff_eq.1) h
  · obtain ⟨hzero, hx⟩ := Bool.and_eq_true_iff.1 hbin
    exact lexHexOrBinInt_bin hzero ((Bool.or_eq_true_iff.1 hx).imp beq_iff_eq.1 beq_iff_eq.1) h
  · exact lexNumberDecimal_spec hdigit h

theorem isNumeral_lexNext {l : Lexer} {n : Nat}
    (h : suffixLength (lexNext l).token.kind = some n) :
    IsNumeral (tokDigits l.src (lexNext l).token n) := by
  obtain ⟨m, hsrc, hdigit, heq⟩ := lexNext_number h
  rw [heq] at h ⊢
  exact hsrc ▸ lexNumber_spec hdigit h

/-- An integer token of a source: its digits are a numeral; where the check accepts them the decoder
reads the number they denote, and where it rejects them they do not fit 64 bits. -/
theorem tokenize_decodes {src : Str} {t : Token} {n : Nat} (ht : t ∈ tokenize src)
    (hn : suffixLength t.kind = some n) :
    IsNumeral (tokDigits src t n) ∧
      (intLitOverflows (tokDigits src t n) = false →
        denoted (tokDigits src t n) = some (decodeInt (tokDigits src t n))) ∧
      (intLitOverflows (tokDigits src t n) = true → denoted (tokDigits src t n) = none) := by
  obtain hmem | ⟨m, hsrc, rfl⟩ := mem_lexLoop ht
  · exact absurd hmem List.not_mem_nil
  · have hsource : m.src = src := hsrc
    have hnumeral : IsNumeral (tokDigits src (lexNext m).token n) :=
      hsource ▸ isNumeral_lexNext hn
    refine ⟨hnumeral, fun hfits => ?_, fun hover => ?_⟩
    · rw [denoted_eq hnumeral, hfits]
      rfl
    · rw [denoted_eq hnumeral, hover]
      rfl

/-- `0xFF_u8` with its suffix stripped is `0xFF_`. -/
theorem tokenize_decodes_hex :
    IsNumeral [48, 120, 70, 70, 95] ∧
      (intLitOverflows [48, 120, 70, 70, 95] = false →
        denoted [48, 120, 70, 70, 95] = some (decodeInt [48, 120, 70, 70, 95])) ∧
      (intLitOverflows [48, 120, 70, 70, 95] = true → denoted [48, 120, 70, 70, 95] = none) := by
  have hany : (tokenize [48, 120, 70, 70, 95, 117, 56]).any (fun t =>
      suffixLength t.kind == some 2 && t.start == 0 && t.length == 7) = true := by decide +kernel
  obtain ⟨t, ht, htoken⟩ := List.any_eq_true.1 hany
  rw [Bool.and_eq_true, Bool.and_eq_true, beq_iff_eq, beq_iff_eq, beq_iff_eq] at htoken
  obtain ⟨⟨hsuffix, hstart⟩, hlength⟩ := htoken
  have hdecodes := tokenize_decodes ht hsuffix
  rw [tokDigits, hstart, hlength] at hdecodes
  exact hdecodes

end Kaikai.Lex
