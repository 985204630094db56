import Kaikai.LexToken

namespace Kaikai.Lex

open Str Escapes SourceText

/-- A cursor that was moved ahead from another inside the source. -/
structure Reaches (l m : Lexer) : Prop where
  low : l.pos ≤ m.pos
  high : m.pos ≤ l.src.length
  eq : m = lexMove l m.pos

theorem Reaches.src {l m : Lexer} (h : Reaches l m) : m.src = l.src := by
  rw [h.eq, lexMove_src]

theorem reaches_lexMove {l : Lexer} {stop : Nat} (hlow : l.pos ≤ stop)
    (hhigh : stop ≤ l.src.length) : Reaches l (lexMove l stop) where
  low := (lexMove_pos hlow).symm ▸ hlow
  high := (lexMove_pos hlow).symm ▸ hhigh
  eq := by rw [lexMove_pos hlow]

theorem reaches_self {l : Lexer} (h : l.pos ≤ l.src.length) : Reaches l l where
  low := le_rfl
  high := h
  eq := (lexMove_self l).symm

theorem Reaches.trans {l m r : Lexer} (h : Reaches l m) (g : Reaches m r) : Reaches l r where
  low := h.low.trans g.low
  high := h.src ▸ g.high
  eq := by
    have heq := g.eq
    rw [h.eq, lexMove_lexMove h.low g.low] at heq
    exact heq

theorem Reaches.inside {l m : Lexer} (h : Reaches l m) : m.pos ≤ m.src.length :=
  h.src.symm ▸ h.high

theorem lexPeek_nonneg {l : Lexer} (h : ¬ lexPeek l < 0) : l.pos < l.src.length :=
  lt_of_not_neg h

theorem reaches_lexAdvance {l : Lexer} (h : l.pos ≤ l.src.length) : Reaches l (lexAdvance l) := by
  unfold lexAdvance
  split
  · exact reaches_self h
  · next hpeek => exact reaches_lexMove (Nat.le_succ _) (lexPeek_nonneg hpeek)

theorem lt_lexAdvance {l : Lexer} (h : ¬ lexPeek l < 0) : l.pos < (lexAdvance l).pos := by
  rw [lexAdvance, if_neg h, lexMove_pos (Nat.le_succ _)]
  exact Nat.lt_succ_self _

theorem reaches_lexAdvanceN {l : Lexer} (n : Nat) (h : l.pos ≤ l.src.length) :
    Reaches l (lexAdvanceN l n) := by
  unfold lexAdvanceN
  split
  · exact reaches_lexMove h le_rfl
  · next hn => exact reaches_lexMove (Nat.le_add_right _ _) (Nat.not_lt.mp hn)

theorem reaches_lexScanDigits {l : Lexer} (h : l.pos ≤ l.src.length) :
    Reaches l (lexScanDigits l) :=
  reaches_lexMove (le_runEnd _ _ _) (runEnd_le _ _ _ h)

theorem reaches_lexScanIdentRest {l : Lexer} (h : l.pos ≤ l.src.length) :
    Reaches l (lexScanIdentRest l) :=
  reaches_lexMove (le_runEnd _ _ _) (runEnd_le _ _ _ h)

theorem reaches_lexSkipSign {l : Lexer} (h : l.pos ≤ l.src.length) : Reaches l (lexSkipSign l) := by
  unfold lexSkipSign
  split
  · exact reaches_lexAdvance h
  · exact reaches_self h

def TokKind.isEof : TokKind → Bool
  | .tkEof => true
  | _ => false

/-- A step that emits a token: it starts at the cursor, ends ahead of it inside the
source, where the cursor moves, and is no end mark. -/
structure Emits (l : Lexer) (s : LexStep) : Prop where
  reaches : Reaches l s.next
  lt : l.pos < s.next.pos
  kind : s.token.kind.isEof = false
  token : s.token = tok s.token.kind l.line l.col l.pos s.next.pos

theorem emits_punct {l m : Lexer} {k : TokKind} (h : Reaches l m) (hlt : l.pos < m.pos)
    (hk : k.isEof = false) : Emits l (punct l m k) :=
  ⟨h, hlt, hk, rfl⟩

theorem kwOrIdent_isEof (src : Str) (start n : Nat) (s : String) (k : TokKind)
    (hk : k.isEof = false) : (kwOrIdent src start n s k).isEof = false := by
  unfold kwOrIdent
  split
  · exact hk
  · rfl

theorem keywordAt_isEof (src : Str) (start n : Nat) (c : Char) :
    (keywordAt src start n c).isEof = false := by
  unfold keywordAt kwA kwC kwE kwF kwI kwP kwT kwW
  split <;> (repeat' split) <;> first | rfl | exact kwOrIdent_isEof _ _ _ _ _ rfl

theorem identKind_isEof (src : Str) (start n : Nat) : (identKind src start n).isEof = false := by
  unfold identKind
  split
  · rfl
  · split
    · rfl
    · exact keywordAt_isEof _ _ _ _

theorem lt_identEnd {src : Str} {i : Nat} (h : bIsAlpha (byteAt src i) = true) :
    i < identEnd src i := by
  have hlt : i < src.length := by
    refine byteAt_nonneg_iff.mp ?_
    have halpha := of_decide_eq_true h
    unfold bUnderscore at halpha
    omega
  exact lt_runEnd _ src hlt (by rw [bIsAlnum, h, Bool.true_or])

theorem lt_digitsEnd {src : Str} {i : Nat} (h : bIsDigit (byteAt src i) = true) :
    i < digitsEnd src i := by
  have hlt : i < src.length := by
    refine byteAt_nonneg_iff.mp ?_
    have hdigit := of_decide_eq_true h
    omega
  exact lt_runEnd _ src hlt (by rw [h, Bool.true_or])

theorem emits_move {l : Lexer} {stop : Nat} {k : TokKind} (hlow : l.pos < stop)
    (hhigh : stop ≤ l.src.length) (hk : k.isEof = false) :
    Emits l ⟨lexMove l stop, tok k l.line l.col l.pos stop⟩ where
  reaches := reaches_lexMove hlow.le hhigh
  lt := (lexMove_pos hlow.le).symm ▸ hlow
  kind := hk
  token := by
    dsimp only
    rw [lexMove_pos hlow.le]
    rfl

theorem emits_lexIdent {l : Lexer} (halpha : bIsAlpha (lexPeek l) = true)
    (hpeek : ¬ lexPeek l < 0) : Emits l (lexIdent l) := by
  have hlow : l.pos < identEnd l.src l.pos := lt_identEnd halpha
  have hhigh : identEnd l.src l.pos ≤ l.src.length := runEnd_le _ _ _ (lexPeek_nonneg hpeek).le
  unfold lexIdent
  split
  · next hbang =>
      exact emits_move (Nat.lt_succ_of_lt hlow) (lt_of_byteAt_eq hbang.2.2 (by decide)) rfl
  · exact emits_move hlow hhigh (identKind_isEof _ _ _)

theorem emits_lexStrStep {l : Lexer} {r : StrResult} {k : TokKind} (hlow : l.pos < r.stop)
    (hhigh : r.stop ≤ l.src.length) (hk : k.isEof = false) : Emits l (lexStrStep l r k) := by
  cases r with
  | ok j => exact emits_move hlow hhigh hk
  | err j msg => exact emits_move hlow hhigh rfl

theorem emits_of_bounded {l : Lexer} {r : StrResult} {i : Nat} {k : TokKind} (hi : l.pos < i)
    (h : Bounded l.src i r) (hk : k.isEof = false) : Emits l (lexStrStep l r k) :=
  emits_lexStrStep (hi.trans_le h.low) h.high hk

theorem emits_lexString {l : Lexer} (hpeek : ¬ lexPeek l < 0) : Emits l (lexString l) := by
  unfold lexString
  cases htriple : tripleQuoteAt l.src l.pos with
  | true =>
      have hopen := lt_of_tripleQuoteAt htriple
      exact emits_of_bounded (Nat.lt_add_of_pos_right (by decide))
        (bounded_lexStringBody l.src (l.pos + 3) true hopen) rfl
  | false =>
      have hopen := lexPeek_nonneg hpeek
      exact emits_of_bounded (Nat.lt_succ_self l.pos)
        (bounded_lexStringBody l.src (l.pos + 1) false hopen) rfl

theorem emits_lexChar {l : Lexer} (hpeek : ¬ lexPeek l < 0) : Emits l (lexChar l) := by
  have hopen := lexPeek_nonneg hpeek
  unfold lexChar
  split
  · exact emits_lexStrStep (Nat.lt_succ_self l.pos) hopen rfl
  · next hbody =>
      have hbound := bounded_lexCharScanBody (lt_of_not_neg hbody)
      split
      · next j hj =>
          rw [hj] at hbound
          have hlow : l.pos < j := hbound.low
          split
          · next hquote =>
              exact emits_lexStrStep (Nat.lt_succ_of_lt hlow)
                (lt_of_byteAt_eq hquote (by decide)) rfl
          · exact emits_lexStrStep hlow hbound.high rfl
      · next j msg hj =>
          rw [hj] at hbound
          exact emits_of_bounded (Nat.lt_succ_self l.pos) hbound rfl

theorem emits_lexRegex {l : Lexer} (h : l.pos + 3 ≤ l.src.length) : Emits l (lexRegex l) :=
  emits_of_bounded (Nat.lt_add_of_pos_right (by decide))
    (bounded_lexRegexBody l.src (l.pos + 3) false h) rfl

section Punctuation

variable {l m : Lexer} (h : Reaches l m) (hlt : l.pos < m.pos)

include h hlt

theorem emits_punct_advance {k : TokKind} (hk : k.isEof = false) :
    Emits l (punct l (lexAdvance m) k) := by
  have hstep := reaches_lexAdvance h.inside
  exact emits_punct (h.trans hstep) (hlt.trans_le hstep.low) hk

theorem emits_punctPair {c : Char} {pair single : TokKind} (hpair : pair.isEof = false)
    (hsingle : single.isEof = false) : Emits l (punctPair l m c pair single) := by
  unfold punctPair
  split
  · exact emits_punct_advance h hlt hpair
  · exact emits_punct h hlt hsingle

theorem emits_lexSlash : Emits l (lexSlash l m) := by
  unfold lexSlash
  split
  · exact emits_punct_advance h hlt rfl
  · split
    · exact emits_punct_advance h hlt rfl
    · exact emits_punct h hlt rfl

theorem emits_lexEquals : Emits l (lexEquals l m) := by
  unfold lexEquals
  split
  · exact emits_punct_advance h hlt rfl
  · exact emits_punctPair h hlt rfl rfl

theorem emits_lexHole : Emits l (lexHole l m) := by
  unfold lexHole
  split
  · have hstep := reaches_lexAdvance h.inside
    have hrest := hstep.trans (reaches_lexScanIdentRest hstep.inside)
    exact emits_punct (h.trans hrest) (hlt.trans_le hrest.low) rfl
  · exact emits_punct h hlt rfl

theorem emits_lexBar : Emits l (lexBar l m) := by
  unfold lexBar
  split
  · exact emits_punct_advance h hlt rfl
  · split
    · exact emits_punct_advance h hlt rfl
    · split
      · exact emits_punct_advance h hlt rfl
      · exact emits_punctPair h hlt rfl rfl

theorem emits_lexDots : Emits l (lexDots l m) := by
  unfold lexDots
  split
  · have hstep := reaches_lexAdvance h.inside
    exact emits_punct_advance (h.trans hstep) (hlt.trans_le hstep.low) rfl
  · exact emits_punctPair h hlt rfl rfl

theorem emits_punct_advanceN {k : TokKind} (n : Nat) (hk : k.isEof = false) :
    Emits l (punct l (lexAdvanceN m n) k) := by
  have hstep := reaches_lexAdvanceN n h.inside
  exact emits_punct (h.trans hstep) (hlt.trans_le hstep.low) hk

theorem emits_lexHash : Emits l (lexHash l m) := by
  unfold lexHash
  split
  · exact emits_punct_advance h hlt rfl
  · split
    · exact emits_punct_advanceN h hlt 6 rfl
    · split
      · exact emits_punct_advanceN h hlt 8 rfl
      · exact emits_punct h hlt rfl

end Punctuation

theorem emits_lexTilde {l : Lexer} (hpeek : ¬ lexPeek l < 0) : Emits l (lexTilde l (lexAdvance l)) := by
  have hstep := reaches_lexAdvance (lexPeek_nonneg hpeek).le
  unfold lexTilde
  split
  · next hopen =>
      have hslash := beq_iff_eq.mp (Bool.and_eq_true_iff.mp hopen).2
      have hlt : (lexAdvance l).pos + 1 < (lexAdvance l).src.length :=
        lt_of_byteAt_eq hslash (by decide)
      rw [hstep.src] at hlt
      have hpos := lt_lexAdvance hpeek
      exact emits_lexRegex (by omega)
  · exact emits_punct hstep (lt_lexAdvance hpeek) rfl

theorem emits_lexPunct {l : Lexer} (hpeek : ¬ lexPeek l < 0) : Emits l (lexPunct l) := by
  have h := reaches_lexAdvance (lexPeek_nonneg hpeek).le
  have hlt := lt_lexAdvance hpeek
  rw [lexPunct, if_neg hpeek]
  split
  all_goals first
    | exact emits_punct h hlt rfl
    | exact emits_punctPair h hlt rfl rfl
    | exact emits_lexSlash h hlt
    | exact emits_lexEquals h hlt
    | exact emits_lexBar h hlt
    | exact emits_lexDots h hlt
    | exact emits_lexHash h hlt
    | exact emits_lexTilde hpeek
    | skip
  split
  · exact emits_punct_advance h hlt rfl
  · exact emits_lexHole h hlt

theorem lexWidthAfterI_reaches {l : Lexer} {w : WidthSuffix} (h : l.pos ≤ l.src.length)
    (hw : lexWidthAfterI l = some w) : Reaches l w.next ∧ w.kind.isEof = false := by
  unfold lexWidthAfterI at hw
  split at hw
  · cases hw
    exact ⟨reaches_lexAdvanceN 2 h, rfl⟩
  · split at hw
    · cases hw
      exact ⟨reaches_lexAdvanceN 3 h, rfl⟩
    · cases hw

theorem lexWidthAfterU_reaches {l : Lexer} {w : WidthSuffix} (h : l.pos ≤ l.src.length)
    (hw : lexWidthAfterU l = some w) : Reaches l w.next ∧ w.kind.isEof = false := by
  unfold lexWidthAfterU at hw
  split at hw
  · cases hw
    exact ⟨reaches_lexAdvanceN 1 h, rfl⟩
  · split at hw
    · cases hw
      exact ⟨reaches_lexAdvanceN 2 h, rfl⟩
    · split at hw
      · cases hw
        exact ⟨reaches_lexAdvanceN 2 h, rfl⟩
      · cases hw

theorem lexWidthSuffix_reaches {l : Lexer} {k : TokKind} {w : WidthSuffix}
    (h : l.pos ≤ l.src.length) (hw : lexWidthSuffix l k = some w) :
    Reaches l w.next ∧ w.kind.isEof = false := by
  have hstep := reaches_lexAdvance h
  unfold lexWidthSuffix at hw
  split at hw
  · cases hw
  · split at hw
    · have hafter := lexWidthAfterI_reaches hstep.inside hw
      exact ⟨hstep.trans hafter.1, hafter.2⟩
    · split at hw
      · have hafter := lexWidthAfterU_reaches hstep.inside hw
        exact ⟨hstep.trans hafter.1, hafter.2⟩
      · cases hw

theorem emits_lexMaybeComplexSuffix {l m : Lexer} {k : TokKind} (h : Reaches l m)
    (hlt : l.pos < m.pos) (hk : k.isEof = false) :
    Emits l (lexMaybeComplexSuffix m l.line l.col l.pos k) := by
  have hstep := reaches_lexAdvance h.inside
  have hnext := h.trans hstep
  have hahead := hlt.trans_le hstep.low
  unfold lexMaybeComplexSuffix
  split
  · next w hw =>
      have hsuffix := lexWidthSuffix_reaches h.inside hw
      exact ⟨h.trans hsuffix.1, hlt.trans_le hsuffix.1.low, hsuffix.2, rfl⟩
  · split
    · exact ⟨hnext, hahead, rfl, rfl⟩
    · split
      · exact ⟨hnext, hahead, rfl, rfl⟩
      · split
        · exact ⟨hnext, hahead, rfl, rfl⟩
        · exact ⟨h, hlt, hk, rfl⟩

theorem lt_of_peek2 {l : Lexer} (h : ∃ c : Char, lexPeekAt l 1 = charToInt c) :
    l.pos + 2 ≤ l.src.length := by
  obtain ⟨c, hc⟩ := h
  exact lt_of_byteAt_eq hc (Int.natCast_nonneg _)

theorem emits_lexHexOrBinInt {l : Lexer} {isHex : Bool} (h : l.pos + 2 ≤ l.src.length) :
    Emits l (lexHexOrBinInt l isHex l.line l.col l.pos) := by
  have hlow : l.pos + 2 ≤
      if isHex then hexDigitsEnd l.src (l.pos + 2) else binDigitsEnd l.src (l.pos + 2) := by
    split
    · exact le_runEnd _ _ _
    · exact le_runEnd _ _ _
  have hhigh : (if isHex then hexDigitsEnd l.src (l.pos + 2)
      else binDigitsEnd l.src (l.pos + 2)) ≤ l.src.length := by
    split
    · exact runEnd_le _ _ _ h
    · exact runEnd_le _ _ _ h
  have hlt := Nat.lt_of_succ_lt hlow
  unfold lexHexOrBinInt
  dsimp only
  generalize (if isHex then hexDigitsEnd l.src (l.pos + 2)
    else binDigitsEnd l.src (l.pos + 2)) = stop at hlt hhigh ⊢
  split
  · exact emits_lexMaybeComplexSuffix (reaches_lexMove hlt.le hhigh)
      ((lexMove_pos hlt.le).symm ▸ hlt) rfl
  · exact emits_move hlt hhigh rfl

theorem emits_lexExponent {l m : Lexer} (h : Reaches l m) (hlt : l.pos < m.pos) :
    Emits l (lexExponent m l.line l.col l.pos) := by
  have hstep := reaches_lexAdvance h.inside
  have hsign := hstep.trans (reaches_lexSkipSign hstep.inside)
  unfold lexExponent
  dsimp only
  split
  · have hdigits := hsign.trans (reaches_lexScanDigits hsign.inside)
    exact emits_lexMaybeComplexSuffix (h.trans hdigits) (hlt.trans_le hdigits.low) rfl
  · exact ⟨h.trans hsign, hlt.trans_le hsign.low, rfl, rfl⟩

theorem reaches_fraction {m : Lexer} (h : m.pos ≤ m.src.length) :
    Reaches m (if lexPeekIs m '.' && bIsDigit (lexPeekAt m 1) then
      lexMove m (digitsEnd m.src (m.pos + 2)) else m) := by
  split
  · next hdot =>
      have hdigit := of_decide_eq_true (Bool.and_eq_true_iff.mp hdot).2
      have hlt : m.pos + 1 < m.src.length := by
        refine byteAt_nonneg_iff.mp ?_
        unfold lexPeekAt at hdigit
        omega
      have hlow : m.pos + 2 ≤ digitsEnd m.src (m.pos + 2) := le_runEnd _ _ _
      exact reaches_lexMove (Nat.le_of_lt (Nat.lt_of_succ_lt hlow)) (runEnd_le _ _ _ hlt)
  · exact reaches_self h

theorem emits_lexNumberDecimal {l : Lexer} (hpeek : ¬ lexPeek l < 0)
    (hdigit : bIsDigit (lexPeek l) = true) :
    Emits l (lexNumberDecimal l l.line l.col l.pos) := by
  have hle := (lexPeek_nonneg hpeek).le
  have hscan := reaches_lexScanDigits hle
  have hlt : l.pos < (lexScanDigits l).pos := by
    have hdigits : l.pos < digitsEnd l.src l.pos := lt_digitsEnd hdigit
    rw [lexScanDigits, lexMove_pos hdigits.le]
    exact hdigits
  have hfraction := reaches_fraction hscan.inside
  have hall := hscan.trans hfraction
  have hahead := hlt.trans_le hfraction.low
  unfold lexNumberDecimal
  dsimp only
  generalize (if lexPeekIs (lexScanDigits l) '.' && bIsDigit (lexPeekAt (lexScanDigits l) 1) then
    lexMove (lexScanDigits l) (digitsEnd (lexScanDigits l).src ((lexScanDigits l).pos + 2))
    else lexScanDigits l) = m at hall hahead ⊢
  split
  · exact emits_lexExponent hall hahead
  · refine emits_lexMaybeComplexSuffix hall hahead ?_
    split
    · rfl
    · rfl

theorem emits_lexNumber {l : Lexer} (hpeek : ¬ lexPeek l < 0)
    (hdigit : bIsDigit (lexPeek l) = true) : Emits l (lexNumber l) := by
  have hbase {c d : Char} (h : (lexPeekIs l '0' && (lexPeek2Is l c || lexPeek2Is l d)) = true) :
      l.pos + 2 ≤ l.src.length := by
    rw [Bool.and_eq_true, Bool.or_eq_true] at h
    rcases h.2 with hc | hd
    · exact lt_of_peek2 ⟨c, beq_iff_eq.mp hc⟩
    · exact lt_of_peek2 ⟨d, beq_iff_eq.mp hd⟩
  unfold lexNumber
  split
  · next hhex => exact emits_lexHexOrBinInt (hbase hhex)
  · split
    · next hbin => exact emits_lexHexOrBinInt (hbase hbin)
    · exact emits_lexNumberDecimal hpeek hdigit

theorem reaches_lexSkipWs {l : Lexer} (h : l.pos ≤ l.src.length) : Reaches l (lexSkipWs l) :=
  reaches_lexMove (blankRun_wsEnd l.src l.pos).le (wsEnd_le h)

theorem lexSkipWs_pos (l : Lexer) : (lexSkipWs l).pos = wsEnd l.src l.pos :=
  lexMove_pos (blankRun_wsEnd l.src l.pos).le

/-- The step of `lexNext`: the end mark at the end of the source, or a token from
the cursor behind the blanks. -/
theorem lexNext_spec (l : Lexer) :
    (lexPeek (lexSkipWs l) < 0 ∧ lexNext l = ⟨lexSkipWs l, tok .tkEof (lexSkipWs l).line
      (lexSkipWs l).col (lexSkipWs l).pos (lexSkipWs l).pos⟩) ∨
    Emits (lexSkipWs l) (lexNext l) := by
  unfold lexNext
  dsimp only
  split
  · next hneg => exact Or.inl ⟨hneg, rfl⟩
  · next hpeek =>
      refine Or.inr ?_
      split
      · exact ⟨reaches_lexAdvance (lexPeek_nonneg hpeek).le, lt_lexAdvance hpeek, rfl, rfl⟩
      · split
        · next halpha => exact emits_lexIdent halpha hpeek
        · split
          · next hdigit => exact emits_lexNumber hpeek hdigit
          · split
            · exact emits_lexString hpeek
            · split
              · exact emits_lexChar hpeek
              · exact emits_lexPunct hpeek

theorem lexNext_advances {l : Lexer} (h : (lexNext l).token.kind.isEof = false) :
    (lexNext l).next.src = l.src ∧ l.pos < (lexNext l).next.pos ∧
      (lexNext l).next.pos ≤ l.src.length := by
  have hsrc : (lexSkipWs l).src = l.src := lexMove_src _ _
  rcases lexNext_spec l with ⟨-, heq⟩ | hemits
  · rw [heq] at h
    cases h
  · have hlow : l.pos ≤ (lexSkipWs l).pos := lexSkipWs_pos l ▸ (blankRun_wsEnd l.src l.pos).le
    exact ⟨hemits.reaches.src.trans hsrc, hlow.trans_lt hemits.lt, hsrc ▸ hemits.reaches.high⟩

/-- The tokens from the cursor on, behind those in `acc`, which is in reverse. -/
def lexLoop (l : Lexer) (acc : List Token) : List Token :=
  if (lexNext l).token.kind.isEof then ((lexNext l).token :: acc).reverse
  else lexLoop (lexNext l).next ((lexNext l).token :: acc)
termination_by l.src.length - l.pos
decreasing_by
  have hstep := lexNext_advances (Bool.eq_false_iff.mpr ‹¬ (lexNext l).token.kind.isEof = true›)
  rw [hstep.1]
  omega

def tokenize (src : Str) : List Token := lexLoop (lexNew src) []

def Token.stop (t : Token) : Nat := t.start + t.length

/-- The line and the column of a token are those of its first byte. -/
structure Located (src : Str) (t : Token) : Prop where
  line : t.line = lineAt 10 src t.start
  col : t.col = colAt 10 src t.start

/-- A byte that belongs to no token: a blank, or a part of a comment that stands
between the tokens. -/
def BetweenTokens (src : Str) (toks : List Token) (p : Nat) : Prop :=
  bIsSpace (byteAt src p) = true ∨
    ∃ a b, Comment src a b ∧ a ≤ p ∧ p < b ∧ ∀ t ∈ toks, t.stop ≤ a ∨ b ≤ t.start

/-- The tokens `body` and the end mark behind them tile the source. -/
structure TilesSource (src : Str) (body : List Token) (eof : Token) : Prop where
  eofKind : eof.kind = .tkEof
  eofStart : eof.start = src.length
  eofLength : eof.length = 0
  kind : ∀ t ∈ body, t.kind ≠ .tkEof
  length : ∀ t ∈ body, 0 < t.length
  inside : ∀ t ∈ body, t.stop ≤ src.length
  ordered : body.Pairwise fun t u => t.stop ≤ u.start
  outside : ∀ p, p < src.length → (∀ t ∈ body, ¬ (t.start ≤ p ∧ p < t.stop)) →
    BetweenTokens src body p
  located : ∀ t ∈ body ++ [eof], Located src t

theorem ne_tkEof_of_isEof {k : TokKind} (h : k.isEof = false) : k ≠ .tkEof := by
  rintro rfl
  cases h

theorem Placed.lexSkipWs {l : Lexer} (h : Placed l) : Placed (lexSkipWs l) :=
  h.lexMove (blankRun_wsEnd l.src l.pos).le (wsEnd_le h.le)

theorem Emits.placed {l : Lexer} {s : LexStep} (h : Emits l s) (hl : Placed l) : Placed s.next := by
  rw [h.reaches.eq]
  exact hl.lexMove h.reaches.low h.reaches.high

theorem Emits.start {l : Lexer} {s : LexStep} (h : Emits l s) : s.token.start = l.pos := by
  rw [h.token]
  rfl

theorem Emits.stop {l : Lexer} {s : LexStep} (h : Emits l s) : s.token.stop = s.next.pos := by
  rw [h.token]
  exact Nat.add_sub_cancel' h.lt.le

theorem Emits.located {l : Lexer} {s : LexStep} (h : Emits l s) (hl : Placed l) :
    Located l.src s.token := by
  rw [h.token]
  exact ⟨hl.line, hl.col⟩

theorem lexLoop_tiles (l : Lexer) (acc : List Token) (hl : Placed l) :
    ∃ body eof, lexLoop l acc = acc.reverse ++ (body ++ [eof]) ∧ eof.kind = .tkEof ∧
      eof.start = l.src.length ∧ eof.length = 0 ∧
      Tiles (BlankRun l.src) Token.start Token.stop l.pos body l.src.length ∧
      (∀ t ∈ body, t.kind ≠ .tkEof) ∧ ∀ t ∈ body ++ [eof], Located l.src t := by
  induction l, acc using lexLoop.induct with
  | case1 l acc hlast =>
      rw [lexLoop, if_pos hlast]
      rcases lexNext_spec l with ⟨hneg, heq⟩ | hemits
      · have hplaced := hl.lexSkipWs
        have hend : (lexSkipWs l).pos = l.src.length := by
          have hge : l.src.length ≤ (lexSkipWs l).pos := by
            rw [← lexMove_src l (wsEnd l.src l.pos)]
            exact byteAt_neg_iff.mp hneg
          exact le_antisymm ((reaches_lexSkipWs hl.le).high) hge
        refine ⟨[], (lexNext l).token, ?_, ?_, ?_, ?_, Tiles.nil ?_, ?_, ?_⟩
        · rw [List.reverse_cons, List.nil_append]
        · rw [heq]
          rfl
        · rw [heq]
          exact hend
        · rw [heq]
          exact Nat.sub_self _
        · rw [← hend, lexSkipWs_pos]
          exact blankRun_wsEnd _ _
        · intro t ht
          exact absurd ht List.not_mem_nil
        · intro t ht
          rw [List.nil_append, List.mem_singleton] at ht
          subst ht
          rw [heq]
          have hsrc : (lexSkipWs l).src = l.src := lexMove_src _ _
          exact ⟨hsrc ▸ hplaced.line, hsrc ▸ hplaced.col⟩
      · rw [hemits.kind] at hlast
        cases hlast
  | case2 l acc hlast ih =>
      rw [lexLoop, if_neg hlast]
      have hsrc : (lexSkipWs l).src = l.src := lexMove_src _ _
      rcases lexNext_spec l with ⟨-, heq⟩ | hemits
      · rw [heq] at hlast
        exact absurd rfl hlast
      · have hplaced := hl.lexSkipWs
        have hnext : (lexNext l).next.src = l.src := hemits.reaches.src.trans hsrc
        obtain ⟨body, eof, hrun, hkind, hstart, hlength, htiles, hkinds, hlocated⟩ :=
          ih (hemits.placed hplaced)
        rw [hnext] at hstart htiles hlocated
        refine ⟨(lexNext l).token :: body, eof, ?_, hkind, hstart, hlength,
          Tiles.cons ?_ ?_ ?_, ?_, ?_⟩
        · rw [hrun, List.reverse_cons, List.append_assoc]
          rfl
        · rw [hemits.start, lexSkipWs_pos]
          exact blankRun_wsEnd _ _
        · rw [hemits.start, hemits.stop]
          exact hemits.lt
        · rw [hemits.stop]
          exact htiles
        · intro t ht
          rcases List.mem_cons.mp ht with rfl | hmem
          · exact ne_tkEof_of_isEof hemits.kind
          · exact hkinds t hmem
        · intro t ht
          rcases List.mem_cons.mp ht with rfl | hmem
          · exact hsrc ▸ hemits.located hplaced
          · exact hlocated t hmem

/-- The lexer tiles every source. -/
theorem tokenize_tiles (src : Str) :
    ∃ body eof, tokenize src = body ++ [eof] ∧ TilesSource src body eof := by
  obtain ⟨body, eof, hrun, hkind, hstart, hlength, htiles, hkinds, hlocated⟩ :=
    lexLoop_tiles (lexNew src) [] (placed_lexNew src)
  have hbounds := htiles.bounds BlankRun.le
  refine ⟨body, eof, hrun, hkind, hstart, hlength, hkinds, ?_, ?_, htiles.pairwise BlankRun.le, ?_,
    hlocated⟩
  · intro t ht
    exact Nat.pos_of_lt_add_right (hbounds t ht).2.1
  · intro t ht
    exact (hbounds t ht).2.2
  · intro p hp hout
    obtain ⟨u, v, hgap, hu, hv, -, hfree⟩ :=
      htiles.gap_of_outside BlankRun.le (Nat.zero_le p) hp hout
    rcases hgap.mem hu hv with hspace | ⟨a, b, hcomment, ha, hb, hua, hbv⟩
    · exact Or.inl hspace
    · refine Or.inr ⟨a, b, hcomment, ha, hb, ?_⟩
      intro t ht
      rcases hfree t ht with hbefore | hafter
      · exact Or.inl (hbefore.trans hua)
      · exact Or.inr (hbv.trans hafter)

theorem mem_lexLoop {l : Lexer} {acc : List Token} {t : Token} (h : t ∈ lexLoop l acc) :
    t ∈ acc ∨ ∃ m : Lexer, m.src = l.src ∧ t = (lexNext m).token := by
  induction l, acc using lexLoop.induct with
  | case1 l acc hlast =>
      rw [lexLoop, if_pos hlast, List.mem_reverse] at h
      rcases List.mem_cons.mp h with rfl | hmem
      · exact Or.inr ⟨l, rfl, rfl⟩
      · exact Or.inl hmem
  | case2 l acc hlast ih =>
      rw [lexLoop, if_neg hlast] at h
      have hsrc := (lexNext_advances (Bool.eq_false_iff.mpr hlast)).1
      rcases ih h with hmem | ⟨m, hm, heq⟩
      · rcases List.mem_cons.mp hmem with rfl | hold
        · exact Or.inr ⟨l, rfl, rfl⟩
        · exact Or.inl hold
      · exact Or.inr ⟨m, hm.trans hsrc, heq⟩

/-- Neither an integer nor a string. -/
def TokKind.isPlain : TokKind → Bool
  | .tkInt | .tkUInt8 | .tkInt32 | .tkUInt32 | .tkUInt64 | .tkInt128 | .tkString => false
  | _ => true

theorem kwOrIdent_isPlain {src : Str} {start n : Nat} {s : String} {k : TokKind}
    (hk : k.isPlain = true) : (kwOrIdent src start n s k).isPlain = true := by
  unfold kwOrIdent
  split
  · exact hk
  · rfl

theorem keywordAt_isPlain (src : Str) (start n : Nat) (c : Char) :
    (keywordAt src start n c).isPlain = true := by
  unfold keywordAt kwA kwC kwE kwF kwI kwP kwT kwW
  split <;> (repeat' split) <;> first | rfl | exact kwOrIdent_isPlain rfl

theorem lexIdent_isPlain (l : Lexer) : (lexIdent l).token.kind.isPlain = true := by
  unfold lexIdent
  split
  · rfl
  · change (identKind _ _ _).isPlain = true
    unfold identKind
    split
    · rfl
    · split
      · rfl
      · exact keywordAt_isPlain _ _ _ _

theorem lexStrStep_isPlain {l : Lexer} {r : StrResult} {k : TokKind} (hk : k.isPlain = true) :
    (lexStrStep l r k).token.kind.isPlain = true := by
  cases r with
  | ok j => exact hk
  | err j msg => rfl

theorem lexChar_isPlain (l : Lexer) : (lexChar l).token.kind.isPlain = true := by
  unfold lexChar
  (repeat' split) <;> exact lexStrStep_isPlain rfl

theorem punctPair_isPlain {l m : Lexer} {c : Char} {pair single : TokKind}
    (hpair : pair.isPlain = true) (hsingle : single.isPlain = true) :
    (punctPair l m c pair single).token.kind.isPlain = true := by
  unfold punctPair
  split
  · exact hpair
  · exact hsingle

theorem lexPunct_isPlain (l : Lexer) : (lexPunct l).token.kind.isPlain = true := by
  unfold lexPunct lexSlash lexEquals lexHole lexBar lexDots lexHash lexTilde lexRegex
  split
  · rfl
  · split <;> (repeat' split) <;> first
      | rfl
      | exact punctPair_isPlain rfl rfl
      | exact lexStrStep_isPlain rfl

/-- Integer and string tokens come from `lexNumber` and `lexString` alone. -/
theorem lexNext_of_not_isPlain {l : Lexer} (h : (lexNext l).token.kind.isPlain = false) :
    (lexNext l = lexNumber (lexSkipWs l) ∧ bIsDigit (lexPeek (lexSkipWs l)) = true) ∨
      (lexNext l = lexString (lexSkipWs l) ∧ lexPeek (lexSkipWs l) = bDquote) := by
  unfold lexNext at h ⊢
  dsimp only at h ⊢
  split_ifs at h ⊢ with heof hnl halpha hdigit hquote hsquote
  · cases h
  · cases h
  · rw [lexIdent_isPlain] at h
    cases h
  · exact .inl ⟨rfl, hdigit⟩
  · exact .inr ⟨rfl, hquote⟩
  · rw [lexChar_isPlain] at h
    cases h
  · rw [lexPunct_isPlain] at h
    cases h

end Kaikai.Lex
