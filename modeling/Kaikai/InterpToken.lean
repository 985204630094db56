import Kaikai.InterpExact

namespace Kaikai.Lex

open Str Escapes SourceText

def TokKind.isString : TokKind → Bool
  | .tkString => true
  | _ => false

theorem lexWidthSuffix_isString {l : Lexer} {k : TokKind} {w : WidthSuffix}
    (h : lexWidthSuffix l k = some w) : w.kind.isString = false := by
  unfold lexWidthSuffix lexWidthAfterI lexWidthAfterU at h
  (repeat' split at h) <;> cases h <;> rfl

theorem lexMaybeComplexSuffix_isString {l : Lexer} {sl sc start : Nat} {k : TokKind}
    (hk : k.isString = false) : (lexMaybeComplexSuffix l sl sc start k).token.kind.isString = false := by
  unfold lexMaybeComplexSuffix
  split
  · next w hw => exact lexWidthSuffix_isString hw
  · (repeat' split) <;> first | rfl | exact hk

theorem lexNumber_isString (l : Lexer) : (lexNumber l).token.kind.isString = false := by
  have hbase (isHex : Bool) (sl sc start : Nat) :
      (lexHexOrBinInt l isHex sl sc start).token.kind.isString = false := by
    unfold lexHexOrBinInt
    dsimp only
    generalize (if isHex then hexDigitsEnd l.src (l.pos + 2)
      else binDigitsEnd l.src (l.pos + 2)) = stop
    split
    · exact lexMaybeComplexSuffix_isString rfl
    · rfl
  have hexponent (m : Lexer) (sl sc start : Nat) :
      (lexExponent m sl sc start).token.kind.isString = false := by
    unfold lexExponent
    dsimp only
    split
    · exact lexMaybeComplexSuffix_isString rfl
    · rfl
  unfold lexNumber
  split
  · exact hbase _ _ _ _
  · split
    · exact hbase _ _ _ _
    · unfold lexNumberDecimal
      dsimp only
      generalize (if lexPeekIs (lexScanDigits l) '.' && bIsDigit (lexPeekAt (lexScanDigits l) 1) then
        lexMove (lexScanDigits l) (digitsEnd (lexScanDigits l).src ((lexScanDigits l).pos + 2))
        else lexScanDigits l) = m
      split
      · exact hexponent _ _ _ _
      · refine lexMaybeComplexSuffix_isString ?_
        split <;> rfl

/-- A string token covers an accepted literal of the source. -/
structure StringToken (src : Str) (t : Token) : Prop where
  quote : byteAt src t.start = bDquote
  body : lexStringBody src (t.start + interpLead (tripleQuoteAt src t.start))
    (tripleQuoteAt src t.start) = .ok t.stop
  stop_le : t.stop ≤ src.length

theorem TokKind.not_isPlain_of_isString {k : TokKind} (h : k.isString = true) :
    k.isPlain = false := by
  cases k <;> first | rfl | cases h

theorem lexNext_eq_lexString {l : Lexer} (h : (lexNext l).token.kind.isString = true) :
    lexNext l = lexString (lexSkipWs l) ∧ lexPeek (lexSkipWs l) = bDquote := by
  obtain ⟨hnext, -⟩ | hstr := lexNext_of_not_isPlain (TokKind.not_isPlain_of_isString h)
  · rw [hnext, lexNumber_isString] at h
    cases h
  · exact hstr

theorem lexStrStep_stop {l : Lexer} {r : StrResult} {k : TokKind} (h : l.pos ≤ r.stop) :
    (lexStrStep l r k).token.stop = r.stop := by
  cases r with
  | ok j => exact Nat.add_sub_cancel' h
  | err j msg => exact Nat.add_sub_cancel' h

theorem lexStrStep_ok_of_isString {l : Lexer} {r : StrResult} {k : TokKind}
    (h : (lexStrStep l r k).token.kind.isString = true) : r = .ok r.stop := by
  cases r with
  | ok j => rfl
  | err j msg => cases h

theorem stringToken_of_lexNext {l : Lexer} (h : (lexNext l).token.kind.isString = true) :
    StringToken l.src (lexNext l).token := by
  have hsrc : (lexSkipWs l).src = l.src := lexMove_src _ _
  obtain ⟨hstring, hquote⟩ := lexNext_eq_lexString h
  have hpeek : ¬ lexPeek (lexSkipWs l) < 0 := by
    rw [hquote]
    decide
  rw [hstring] at h ⊢
  have hemits := emits_lexString hpeek
  have hstart := hemits.start
  have hlow : (lexSkipWs l).pos ≤ (lexString (lexSkipWs l)).token.stop :=
    hemits.stop ▸ hemits.lt.le
  have hok := lexStrStep_ok_of_isString h
  have hlead : (if tripleQuoteAt (lexSkipWs l).src (lexSkipWs l).pos then (lexSkipWs l).pos + 3
      else (lexSkipWs l).pos + 1) =
      (lexSkipWs l).pos + interpLead (tripleQuoteAt (lexSkipWs l).src (lexSkipWs l).pos) := by
    unfold interpLead
    split <;> rfl
  rw [hlead] at hok
  have hbody := lexStringBody_low hok
  have hstop := lexStrStep_stop (l := lexSkipWs l) (k := .tkString)
    ((Nat.le_add_right _ _).trans ((Nat.le_add_right _ _).trans hbody))
  rw [← hsrc]
  refine ⟨?_, ?_, ?_⟩
  · rw [hstart]
    exact hquote
  · rw [hstart, hok]
    congr 1
    rw [lexString, hlead]
    exact hstop.symm
  · rw [hemits.stop]
    exact hemits.reaches.high

theorem stringToken_of_mem {src : Str} {t : Token} (h : t ∈ tokenize src)
    (hk : t.kind = .tkString) : StringToken src t := by
  rcases mem_lexLoop h with hmem | ⟨m, hm, rfl⟩
  · exact absurd hmem List.not_mem_nil
  · have hsrc : m.src = src := hm
    exact hsrc ▸ stringToken_of_lexNext (by rw [hk]; rfl)

theorem interpLead_pos (triple : Bool) : 0 < interpLead triple := by
  cases triple <;> decide

theorem isPrefixOf_triple (s : Str) : (ascii "\"\"\"").isPrefixOf s = tripleQuoteAt s 0 := by
  have hbeq (b : UInt8) : (34 == b) = ((b.toNat : Int) == bDquote) := by
    rw [Bool.eq_iff_iff, beq_iff_eq, beq_iff_eq]
    constructor
    · rintro rfl
      rfl
    · intro h
      exact (UInt8.toNat_inj.mp (Int.ofNat_inj.mp h)).symm
  change [34, 34, 34].isPrefixOf s = _
  match s with
  | [] => rfl
  | [a] =>
      change ((34 == a) && false) = (((a.toNat : Int) == bDquote && false) && false)
      rw [Bool.and_false, Bool.and_false]
  | [a, b] =>
      change ((34 == a) && ((34 == b) && false)) =
        (((a.toNat : Int) == bDquote && (b.toNat : Int) == bDquote) && false)
      rw [Bool.and_false, Bool.and_false, Bool.and_false]
  | a :: b :: c :: rest =>
      change ((34 == a) && ((34 == b) && ((34 == c) && true))) =
        (((a.toNat : Int) == bDquote && (b.toNat : Int) == bDquote) && (c.toNat : Int) == bDquote)
      rw [hbeq, hbeq, hbeq, Bool.and_true, Bool.and_assoc]

section Token

variable {src : Str} {t : Token} (h : StringToken src t)

include h

theorem StringToken.room :
    2 * interpLead (tripleQuoteAt src t.start) ≤ t.length ∧ t.start + t.length ≤ src.length := by
  have hlow := lexStringBody_low h.body
  have hstop : t.stop = t.start + t.length := rfl
  have hhigh := h.stop_le
  constructor
  · omega
  · omega

theorem StringToken.length_span : (tokSource src t).length = t.length := by
  have hroom := h.room
  rw [tokSource, stringSlice, List.length_take, List.length_drop]
  simp only [Int.toNat_natCast]
  omega

theorem StringToken.spanAt :
    SpanAt src (tokSource src t) t.start
      (t.length - interpLead (tripleQuoteAt src t.start)) where
  stop_lt := by
    have hroom := h.room
    have hpos := interpLead_pos (tripleQuoteAt src t.start)
    rw [h.length_span]
    omega
  read := by
    intro k hk
    rw [h.length_span] at hk
    rw [tokSource, stringSlice, List.getElem?_take, List.getElem?_drop]
    simp only [Int.toNat_natCast]
    rw [if_pos hk]

theorem StringToken.isTripleSpan : isTripleSpan (tokSource src t) = tripleQuoteAt src t.start := by
  have hroom := h.room
  have hlen := h.length_span
  have hbytes : 3 ≤ t.length → ∀ k, k < 3 →
      byteAt (tokSource src t) k = byteAt src (t.start + k) := by
    intro hthree k hk
    rw [byteAt, byteAt, h.spanAt.read k (by omega)]
  have hsame : 3 ≤ t.length →
      tripleQuoteAt (tokSource src t) 0 = tripleQuoteAt src t.start := by
    intro hthree
    rw [tripleQuoteAt, tripleQuoteAt, hbytes hthree 0 (by decide), hbytes hthree (0 + 1) (by decide),
      hbytes hthree (0 + 2) (by decide)]
    rfl
  rw [Lex.isTripleSpan, isPrefixOf_triple, hlen]
  cases htriple : tripleQuoteAt src t.start with
  | true =>
      rw [htriple] at hroom
      have hsix : 6 ≤ t.length := hroom.1
      rw [hsame (by omega), htriple, Bool.and_true]
      exact decide_eq_true hsix
  | false =>
      by_cases hsix : t.length ≥ 6
      · rw [hsame (by omega), htriple, Bool.and_false]
      · rw [decide_eq_false hsix, Bool.false_and]

end Token

/-- The two scans read a string token alike: the parts restore the text between the
quotes, the bodies are the regions that the lexer skipped, and the token counts as
an interpolation iff it has a body. -/
structure ReadAlike (src : Str) (t : Token) : Prop where
  text : weave (interpParts (tokSource src t) (isTripleSpan (tokSource src t))) =
    between (tokSource src t) (interpLead (isTripleSpan (tokSource src t)),
      (tokSource src t).length - interpLead (isTripleSpan (tokSource src t)))
  bodies : bodies (interpParts (tokSource src t) (isTripleSpan (tokSource src t))) =
    (skippedRegions src (t.start + interpLead (tripleQuoteAt src t.start))
      (tripleQuoteAt src t.start)).map (between src)
  interpolates : spanInterpolates (tokSource src t) (isTripleSpan (tokSource src t)) = true ↔
    Lex.bodies (interpParts (tokSource src t) (isTripleSpan (tokSource src t))) ≠ []

theorem bodies_interpParts (span : Str) (triple : Bool) :
    bodies (interpParts span triple) =
      (splitRegions span (span.length - interpLead triple) (interpLead triple)).map
        (between span) := by
  rw [interpParts, bodies_collect]
  rfl

theorem spanInterpolates_iff (span : Str) (triple : Bool) :
    spanInterpolates span triple = true ↔ bodies (interpParts span triple) ≠ [] := by
  rw [bodies_interpParts, spanInterpolates, hasInterp_iff, Ne, Ne, List.map_eq_nil_iff]

theorem StringToken.readAlike_iff {src : Str} {t : Token} (h : StringToken src t) :
    ReadAlike src t ↔
      ∀ r ∈ skippedRegions src (t.start + interpLead (tripleQuoteAt src t.start))
        (tripleQuoteAt src t.start), Nested 123 125 (between src r) := by
  have hroom := h.room
  have hlen := h.length_span
  have hstop : t.stop = t.start + t.length := rfl
  have hbody := h.body
  have hend : t.stop = t.start + (t.length - interpLead (tripleQuoteAt src t.start)) +
      interpLead (tripleQuoteAt src t.start) := by omega
  rw [hend] at hbody
  have hagree := scansAgree h.spanAt (Nat.le_add_right _ _) hbody
  rw [Nat.add_sub_cancel_left] at hagree
  constructor
  · intro halike
    have hbodies := halike.bodies
    rw [h.isTripleSpan, bodies_interpParts, hlen] at hbodies
    exact hagree.iff.mp hbodies
  · intro hnested
    refine ⟨?_, ?_, spanInterpolates_iff _ _⟩
    · rw [h.isTripleSpan, interpParts, hlen]
      have hle : interpLead (tripleQuoteAt src t.start) ≤
          t.length - interpLead (tripleQuoteAt src t.start) := by omega
      exact weave_collect h.spanAt.stop_lt.le _ le_rfl hle (hagree.closed hnested)
    · rw [h.isTripleSpan, bodies_interpParts, hlen]
      exact hagree.iff.mpr hnested

/-- The two interpolation scanners read a string token alike iff no body hides an
unbalanced brace in a nested string literal. -/
theorem interp_readAlike_iff (src : Str) (t : Token) (ht : t ∈ tokenize src)
    (hk : t.kind = .tkString) :
    ReadAlike src t ↔
      ∀ r ∈ skippedRegions src (t.start + interpLead (tripleQuoteAt src t.start))
        (tripleQuoteAt src t.start), Nested 123 125 (between src r) :=
  (stringToken_of_mem ht hk).readAlike_iff

theorem token_mem_lexLoop (l : Lexer) (acc : List Token) : (lexNext l).token ∈ lexLoop l acc := by
  have hkeep (l : Lexer) (acc : List Token) : ∀ t ∈ acc, t ∈ lexLoop l acc := by
    induction l, acc using lexLoop.induct with
    | case1 l acc hlast =>
        intro t ht
        rw [lexLoop, if_pos hlast, List.mem_reverse]
        exact List.mem_cons_of_mem _ ht
    | case2 l acc hlast ih =>
        intro t ht
        rw [lexLoop, if_neg hlast]
        exact ih t (List.mem_cons_of_mem _ ht)
  rw [lexLoop]
  split
  · rw [List.mem_reverse]
    exact List.mem_cons_self
  · exact hkeep _ _ _ List.mem_cons_self

theorem mem_tokenize_of_literal {src : Str} {stop : Nat} (hquote : byteAt src 0 = bDquote)
    (htriple : tripleQuoteAt src 0 = false) (hbody : lexStringBody src 1 false = .ok stop) :
    (⟨.tkString, 1, 1, 0, stop⟩ : Token) ∈ tokenize src := by
  have hend : wsEnd src 0 = 0 := by
    rw [wsEnd, hquote, if_neg (by decide), if_pos (by decide)]
  have hskip : lexSkipWs (lexNew src) = lexNew src := by
    change lexMove (lexNew src) (wsEnd src 0) = _
    rw [hend]
    exact lexMove_self (lexNew src)
  have hpeek : lexPeek (lexNew src) = bDquote := hquote
  have hstep : lexNext (lexNew src) = lexString (lexNew src) := by
    rw [lexNext, hskip, hpeek]
    rfl
  have htoken : (lexNext (lexNew src)).token = ⟨.tkString, 1, 1, 0, stop⟩ := by
    have htripleNew : tripleQuoteAt (lexNew src).src (lexNew src).pos = false := htriple
    have hbodyNew : lexStringBody (lexNew src).src ((lexNew src).pos + 1) false = .ok stop := hbody
    rw [hstep, lexString, htripleNew, if_neg (by decide), hbodyNew]
    rfl
  rw [← htoken]
  exact token_mem_lexLoop _ _

/-- The literal `"#\x7ba\x7d"`. -/
def plainLiteral : Str := [34, 35, 123, 97, 125, 34]

theorem lexSkipInterp_plainLiteral : lexSkipInterp plainLiteral 3 1 = .ok 5 := by
  rw [lexSkipInterp, if_neg (by decide), if_neg (by decide), if_neg (by decide), if_neg (by decide),
    if_neg (by decide), lexSkipInterp, if_neg (by decide), if_neg (by decide), if_neg (by decide),
    if_pos (by decide), lexSkipInterp, if_pos rfl]

theorem lexStringBody_plainLiteral : lexStringBody plainLiteral 1 false = .ok 6 := by
  rw [lexStringBody_interp (by decide) lexSkipInterp_plainLiteral, lexStringBody,
    if_neg (by decide), if_neg (by decide), if_neg (by decide), if_neg (by decide),
    if_neg (by decide), if_pos (by decide)]

theorem interp_readAlike_plainLiteral : ReadAlike plainLiteral ⟨.tkString, 1, 1, 0, 6⟩ := by
  refine (interp_readAlike_iff plainLiteral _
    (mem_tokenize_of_literal (by decide) (by decide) lexStringBody_plainLiteral) rfl).mpr ?_
  have hregions : skippedRegions plainLiteral 1 false = [(3, 4)] := by
    rw [skippedRegions_interp (by decide) lexSkipInterp_plainLiteral, skippedRegions,
      if_neg (by decide), if_neg (by decide), if_neg (by decide), if_neg (by decide),
      if_neg (by decide), if_pos (by decide)]
  intro r hr
  have hmem : r ∈ [(3, 4)] := hregions ▸ hr
  rw [List.mem_singleton] at hmem
  rw [hmem, nested_iff (by decide)]
  decide

/-- The literal `"#\x7b"\x7d"\x7d"`, whose body is a string literal that holds a
brace. -/
def nestedLiteral : Str := [34, 35, 123, 34, 125, 34, 125, 34]

theorem lexSkipInterp_nestedLiteral : lexSkipInterp nestedLiteral 3 1 = .ok 7 := by
  have hinner : lexSkipInnerString nestedLiteral 4 = .ok 6 := by
    rw [lexSkipInnerString, if_neg (by decide), if_neg (by decide), if_pos (by decide),
      lexSkipInnerString, if_neg (by decide), if_pos (by decide)]
  rw [lexSkipInterp_inner (by decide) (by decide) hinner, lexSkipInterp, if_neg (by decide),
    if_neg (by decide), if_neg (by decide), if_pos (by decide), lexSkipInterp, if_pos rfl]

theorem lexStringBody_nestedLiteral : lexStringBody nestedLiteral 1 false = .ok 8 := by
  rw [lexStringBody_interp (by decide) lexSkipInterp_nestedLiteral, lexStringBody,
    if_neg (by decide), if_neg (by decide), if_neg (by decide), if_neg (by decide),
    if_neg (by decide), if_pos (by decide)]

theorem not_readAlike_nestedLiteral :
    ¬ ∀ (src : Str) (t : Token), t ∈ tokenize src → t.kind = .tkString → ReadAlike src t := by
  intro h
  have hmem := mem_tokenize_of_literal (by decide) (by decide) lexStringBody_nestedLiteral
  have halike := h nestedLiteral _ hmem rfl
  have hnested := (stringToken_of_mem hmem rfl).readAlike_iff.mp halike (3, 6) (by
    change (3, 6) ∈ skippedRegions nestedLiteral 1 false
    rw [skippedRegions_interp (by decide) lexSkipInterp_nestedLiteral]
    exact List.mem_cons_self)
  rw [nested_iff (by decide)] at hnested
  revert hnested
  decide

end Kaikai.Lex
