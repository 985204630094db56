import Kaikai.Escapes
import Kaikai.SourceText

namespace Kaikai.Lex

open Str Escapes SourceText

/-- The byte of `src` at `i`, negative past the end. -/
def byteAt (src : Str) (i : Nat) : Int :=
  match src[i]? with
  | some b => b.toNat
  | none => -1

def bTab : Int := 9
def bNl : Int := 10
def bCr : Int := 13
def bSpace : Int := 32
def bDquote : Int := 34
def bHash : Int := 35
def bSquote : Int := 39
def bSlash : Int := 47
def bLbracket : Int := 91
def bBackslash : Int := 92
def bRbracket : Int := 93
def bUnderscore : Int := 95
def bLbrace : Int := 123
def bRbrace : Int := 125

def charToInt (c : Char) : Int := c.toNat

def bIsDigit (b : Int) : Bool := decide (b ≥ 48 ∧ b ≤ 57)

def bIsAlpha (b : Int) : Bool :=
  decide ((b ≥ 97 ∧ b ≤ 122) ∨ (b ≥ 65 ∧ b ≤ 90) ∨ b = bUnderscore)

def bIsAlnum (b : Int) : Bool := bIsAlpha b || bIsDigit b

def bIsSpace (b : Int) : Bool := decide (b = bSpace ∨ b = bTab ∨ b = bCr)

def bIsHexDigit (b : Int) : Bool :=
  bIsDigit b || decide ((b ≥ 97 ∧ b ≤ 102) ∨ (b ≥ 65 ∧ b ≤ 70))

theorem byteAt_nonneg_iff {src : Str} {i : Nat} : 0 ≤ byteAt src i ↔ i < src.length := by
  unfold byteAt
  split
  · next b hb =>
      have hlt := (List.getElem?_eq_some_iff.mp hb).1
      exact ⟨fun _ => hlt, fun _ => Int.natCast_nonneg _⟩
  · next hnone =>
      have hle := List.getElem?_eq_none_iff.mp hnone
      exact ⟨fun h => absurd h (by decide), fun h => absurd h (Nat.not_lt.mpr hle)⟩

theorem byteAt_neg_iff {src : Str} {i : Nat} : byteAt src i < 0 ↔ src.length ≤ i := by
  rw [← Int.not_le, byteAt_nonneg_iff, Nat.not_lt]

theorem lt_of_byteAt_eq {src : Str} {i : Nat} {b : Int} (h : byteAt src i = b) (hb : 0 ≤ b) :
    i < src.length :=
  byteAt_nonneg_iff.mp (h ▸ hb)

/-- `s` spelled at `i`, byte for byte, from its index `k` on. -/
def srcHasAt (src : Str) (i : Nat) (s : Str) (k : Nat) : Bool :=
  if k < s.length then byteAt src (i + k) == byteAt s k && srcHasAt src i s (k + 1) else true
termination_by s.length - k

def wordAt (src : Str) (i : Nat) (s : Str) : Bool :=
  srcHasAt src i s 0 && !bIsAlnum (byteAt src (i + s.length))

/-- The end of the run of bytes from `i` on that `p` accepts: the shape that the
scanners below share. -/
def runEnd (p : Int → Bool) (src : Str) (i : Nat) : Nat :=
  if i < src.length then if p (byteAt src i) then runEnd p src (i + 1) else i else i
termination_by src.length - i

def identEnd (src : Str) (i : Nat) : Nat := runEnd bIsAlnum src i

def digitsEnd (src : Str) (i : Nat) : Nat :=
  runEnd (fun b => bIsDigit b || b == bUnderscore) src i

def hexDigitsEnd (src : Str) (i : Nat) : Nat :=
  runEnd (fun b => bIsHexDigit b || b == bUnderscore) src i

def binDigitsEnd (src : Str) (i : Nat) : Nat :=
  runEnd (fun b => b == 48 || b == 49 || b == bUnderscore) src i

/-- A comment runs up to its newline or to the end of the source. -/
def commentEnd (src : Str) (i : Nat) : Nat := runEnd (fun b => b != bNl) src i

/-- Past the UTF-8 continuation bytes after a lead byte. -/
def utf8ContinuationEnd (src : Str) (i : Nat) : Nat :=
  runEnd (fun b => decide (b ≥ 128 ∧ b < 192)) src i

section RunEnd

variable (p : Int → Bool) (src : Str)

theorem le_runEnd (i : Nat) : i ≤ runEnd p src i := by
  induction i using runEnd.induct p src with
  | case1 i hlt hp ih =>
      rw [runEnd, if_pos hlt, if_pos hp]
      omega
  | case2 i hlt hp => rw [runEnd, if_pos hlt, if_neg hp]
  | case3 i hlt => rw [runEnd, if_neg hlt]

theorem runEnd_le (i : Nat) (h : i ≤ src.length) : runEnd p src i ≤ src.length := by
  induction i using runEnd.induct p src with
  | case1 i hlt hp ih =>
      rw [runEnd, if_pos hlt, if_pos hp]
      exact ih hlt
  | case2 i hlt hp =>
      rw [runEnd, if_pos hlt, if_neg hp]
      exact h
  | case3 i hlt =>
      rw [runEnd, if_neg hlt]
      exact h

theorem lt_runEnd {i : Nat} (hlt : i < src.length) (hp : p (byteAt src i) = true) :
    i < runEnd p src i := by
  rw [runEnd, if_pos hlt, if_pos hp]
  exact le_runEnd p src (i + 1)

theorem of_mem_runEnd {i k : Nat} (hlow : i ≤ k) (hhigh : k < runEnd p src i) :
    p (byteAt src k) = true := by
  induction i using runEnd.induct p src with
  | case1 i hlt hp ih =>
      rw [runEnd, if_pos hlt, if_pos hp] at hhigh
      rcases Nat.eq_or_lt_of_le hlow with rfl | hgt
      · exact hp
      · exact ih hgt hhigh
  | case2 i hlt hp =>
      rw [runEnd, if_pos hlt, if_neg hp] at hhigh
      omega
  | case3 i hlt =>
      rw [runEnd, if_neg hlt] at hhigh
      omega

theorem stop_runEnd (i : Nat) (hlt : runEnd p src i < src.length) :
    p (byteAt src (runEnd p src i)) = false := by
  induction i using runEnd.induct p src with
  | case1 i hi hp ih =>
      rw [runEnd, if_pos hi, if_pos hp] at hlt ⊢
      exact ih hlt
  | case2 i hi hp =>
      rw [runEnd, if_pos hi, if_neg hp]
      exact Bool.eq_false_iff.mpr hp
  | case3 i hi =>
      rw [runEnd, if_neg hi] at hlt
      exact absurd hlt hi

end RunEnd

theorem lt_of_bIsSpace {src : Str} {i : Nat} (h : bIsSpace (byteAt src i) = true) :
    i < src.length := by
  refine byteAt_nonneg_iff.mp ?_
  have hspace := of_decide_eq_true h
  unfold bSpace bTab bCr at hspace
  omega

/-- Past the spaces and comments at `i`; a `#` that opens an attribute or a
legacy annotation is left to the lexer. -/
def wsEnd (src : Str) (i : Nat) : Nat :=
  if bIsSpace (byteAt src i) = true then wsEnd src (i + 1)
  else if byteAt src i ≠ bHash then i
  else if byteAt src (i + 1) = bLbracket ∨ wordAt src (i + 1) (ascii "derive") = true ∨
      wordAt src (i + 1) (ascii "unstable") = true then i
  else wsEnd src (commentEnd src (i + 1))
termination_by src.length - i
decreasing_by
  · have hlt := lt_of_bIsSpace ‹_›
    omega
  · have hlt : i < src.length := lt_of_byteAt_eq (not_not.mp ‹¬ byteAt src i ≠ bHash›) (by decide)
    have hle : i + 1 ≤ commentEnd src (i + 1) := le_runEnd _ _ _
    omega

/-- A comment: a `#` with everything up to its newline or to the end. -/
structure Comment (src : Str) (i j : Nat) : Prop where
  lt : i < j
  le : j ≤ src.length
  hash : byteAt src i = bHash
  inside : ∀ k, i ≤ k → k < j → byteAt src k ≠ bNl
  stop : j = src.length ∨ byteAt src j = bNl

/-- What may stand between two tokens: blank bytes and comments. -/
inductive BlankRun (src : Str) : Nat → Nat → Prop
  | nil (i : Nat) : BlankRun src i i
  | space {i j : Nat} : bIsSpace (byteAt src i) = true → BlankRun src (i + 1) j → BlankRun src i j
  | comment {i j k : Nat} : Comment src i k → BlankRun src k j → BlankRun src i j

theorem BlankRun.le {src : Str} (i j : Nat) (h : BlankRun src i j) : i ≤ j := by
  induction h with
  | nil i => exact le_rfl
  | space _ _ ih => exact Nat.le_of_succ_le ih
  | comment hc _ ih => exact hc.lt.le.trans ih

theorem BlankRun.mem {src : Str} {i j p : Nat} (h : BlankRun src i j) (hlow : i ≤ p) (hhigh : p < j) :
    bIsSpace (byteAt src p) = true ∨ ∃ a b, Comment src a b ∧ a ≤ p ∧ p < b ∧ i ≤ a ∧ b ≤ j := by
  induction h with
  | nil i => omega
  | @space i j hspace _ ih =>
      rcases Nat.eq_or_lt_of_le hlow with rfl | hlt
      · exact Or.inl hspace
      · rcases ih hlt hhigh with hs | ⟨a, b, hc, ha, hb, hia, hbj⟩
        · exact Or.inl hs
        · exact Or.inr ⟨a, b, hc, ha, hb, Nat.le_of_succ_le hia, hbj⟩
  | @comment i j k hc htail ih =>
      rcases Nat.lt_or_ge p k with hbefore | hafter
      · exact Or.inr ⟨i, k, hc, hlow, hbefore, le_rfl, htail.le⟩
      · rcases ih hafter hhigh with hs | ⟨a, b, hcom, ha, hb, hka, hbj⟩
        · exact Or.inl hs
        · exact Or.inr ⟨a, b, hcom, ha, hb, hc.lt.le.trans hka, hbj⟩

theorem comment_commentEnd {src : Str} {i : Nat} (h : byteAt src i = bHash) :
    Comment src i (commentEnd src (i + 1)) where
  lt := le_runEnd _ src (i + 1)
  le := runEnd_le _ src (i + 1) (lt_of_byteAt_eq h (by decide))
  hash := h
  inside := by
    intro k hlow hhigh
    rcases Nat.eq_or_lt_of_le hlow with rfl | hlt
    · rw [h]
      decide
    · exact bne_iff_ne.mp (of_mem_runEnd _ src hlt hhigh)
  stop := by
    rcases Nat.lt_or_ge (commentEnd src (i + 1)) src.length with hlt | hge
    · exact Or.inr (bne_eq_false_iff_eq.mp (stop_runEnd _ src (i + 1) hlt))
    · exact Or.inl (le_antisymm (runEnd_le _ src (i + 1) (lt_of_byteAt_eq h (by decide))) hge)

theorem blankRun_wsEnd (src : Str) (i : Nat) : BlankRun src i (wsEnd src i) := by
  induction i using wsEnd.induct src with
  | case1 i hspace ih =>
      rw [wsEnd, if_pos hspace]
      exact BlankRun.space hspace ih
  | case2 i hspace hhash =>
      rw [wsEnd, if_neg hspace, if_pos hhash]
      exact BlankRun.nil i
  | case3 i hspace hhash hkept =>
      rw [wsEnd, if_neg hspace, if_neg hhash, if_pos hkept]
      exact BlankRun.nil i
  | case4 i hspace hhash hkept ih =>
      rw [wsEnd, if_neg hspace, if_neg hhash, if_neg hkept]
      exact BlankRun.comment (comment_commentEnd (not_not.mp hhash)) ih

theorem wsEnd_le {src : Str} {i : Nat} (h : i ≤ src.length) : wsEnd src i ≤ src.length := by
  induction i using wsEnd.induct src with
  | case1 i hspace ih =>
      rw [wsEnd, if_pos hspace]
      exact ih (lt_of_bIsSpace hspace)
  | case2 i hspace hhash =>
      rw [wsEnd, if_neg hspace, if_pos hhash]
      exact h
  | case3 i hspace hhash hkept =>
      rw [wsEnd, if_neg hspace, if_neg hhash, if_pos hkept]
      exact h
  | case4 i hspace hhash hkept ih =>
      rw [wsEnd, if_neg hspace, if_neg hhash, if_neg hkept]
      exact ih (comment_commentEnd (not_not.mp hhash)).le

/-- The source being read and the position, line and column reached in it. -/
structure Lexer where
  src : Str
  pos : Nat
  line : Nat
  col : Nat
deriving DecidableEq

def lexNew (src : Str) : Lexer := ⟨src, 0, 1, 1⟩

def lexMoveFrom (src : Str) (i stop line col : Nat) : Lexer :=
  if i < stop then
    if byteAt src i = bNl then lexMoveFrom src (i + 1) stop (line + 1) 1
    else lexMoveFrom src (i + 1) stop line (col + 1)
  else ⟨src, i, line, col⟩
termination_by stop - i

/-- The cursor at `stop`, counting the lines and columns of the bytes passed. -/
def lexMove (l : Lexer) (stop : Nat) : Lexer := lexMoveFrom l.src l.pos stop l.line l.col

def lexPeekAt (l : Lexer) (off : Nat) : Int := byteAt l.src (l.pos + off)

def lexPeek (l : Lexer) : Int := lexPeekAt l 0

/-- The cursor one byte ahead, unless it is at the end. -/
def lexAdvance (l : Lexer) : Lexer := if lexPeek l < 0 then l else lexMove l (l.pos + 1)

/-- The cursor `n` bytes ahead, stopping at the end. -/
def lexAdvanceN (l : Lexer) (n : Nat) : Lexer :=
  if l.pos + n > l.src.length then lexMove l l.src.length else lexMove l (l.pos + n)

def lexPeekIs (l : Lexer) (want : Char) : Bool := lexPeek l == charToInt want

def lexPeek2Is (l : Lexer) (want : Char) : Bool := lexPeekAt l 1 == charToInt want

def lexMatchWordAt (l : Lexer) (off : Nat) (s : Str) : Bool := wordAt l.src (l.pos + off) s

def lexSkipWs (l : Lexer) : Lexer := lexMove l (wsEnd l.src l.pos)

def lexScanDigits (l : Lexer) : Lexer := lexMove l (digitsEnd l.src l.pos)

def lexScanIdentRest (l : Lexer) : Lexer := lexMove l (identEnd l.src l.pos)

theorem lexMoveFrom_src (src : Str) (i stop line col : Nat) :
    (lexMoveFrom src i stop line col).src = src := by
  induction i, line, col using lexMoveFrom.induct src stop with
  | case1 i line col hlt hnl ih => rwa [lexMoveFrom, if_pos hlt, if_pos hnl]
  | case2 i line col hlt hnl ih => rwa [lexMoveFrom, if_pos hlt, if_neg hnl]
  | case3 i line col hlt => rw [lexMoveFrom, if_neg hlt]

theorem lexMoveFrom_pos (src : Str) (i stop line col : Nat) (h : i ≤ stop) :
    (lexMoveFrom src i stop line col).pos = stop := by
  induction i, line, col using lexMoveFrom.induct src stop with
  | case1 i line col hlt hnl ih =>
      rw [lexMoveFrom, if_pos hlt, if_pos hnl]
      exact ih hlt
  | case2 i line col hlt hnl ih =>
      rw [lexMoveFrom, if_pos hlt, if_neg hnl]
      exact ih hlt
  | case3 i line col hlt =>
      rw [lexMoveFrom, if_neg hlt]
      exact le_antisymm h (Nat.not_lt.mp hlt)

theorem lexMoveFrom_lexMoveFrom (src : Str) (i mid stop line col : Nat) (hmid : i ≤ mid)
    (hstop : mid ≤ stop) :
    lexMove (lexMoveFrom src i mid line col) stop = lexMoveFrom src i stop line col := by
  induction i, line, col using lexMoveFrom.induct src mid with
  | case1 i line col hlt hnl ih =>
      rw [lexMoveFrom, if_pos hlt, if_pos hnl, ih hlt]
      conv_rhs => rw [lexMoveFrom, if_pos (Nat.lt_of_lt_of_le hlt hstop), if_pos hnl]
  | case2 i line col hlt hnl ih =>
      rw [lexMoveFrom, if_pos hlt, if_neg hnl, ih hlt]
      conv_rhs => rw [lexMoveFrom, if_pos (Nat.lt_of_lt_of_le hlt hstop), if_neg hnl]
  | case3 i line col hlt =>
      rw [lexMoveFrom, if_neg hlt]
      rfl

@[simp] theorem lexMove_src (l : Lexer) (stop : Nat) : (lexMove l stop).src = l.src :=
  lexMoveFrom_src _ _ _ _ _

theorem lexMove_pos {l : Lexer} {stop : Nat} (h : l.pos ≤ stop) : (lexMove l stop).pos = stop :=
  lexMoveFrom_pos _ _ _ _ _ h

theorem lexMove_lexMove {l : Lexer} {mid stop : Nat} (hmid : l.pos ≤ mid) (hstop : mid ≤ stop) :
    lexMove (lexMove l mid) stop = lexMove l stop :=
  lexMoveFrom_lexMoveFrom _ _ _ _ _ _ hmid hstop

theorem lexMove_self (l : Lexer) : lexMove l l.pos = l := by
  rw [lexMove, lexMoveFrom, if_neg (lt_irrefl _)]

theorem exists_byte {src : Str} {i : Nat} (hlt : i < src.length) :
    ∃ b, src[i]? = some b ∧ byteAt src i = b.toNat := by
  refine ⟨src[i], List.getElem?_eq_getElem hlt, ?_⟩
  rw [byteAt, List.getElem?_eq_getElem hlt]

/-- The cursor stands inside the source, with the line and the column of its
position. -/
structure Placed (l : Lexer) : Prop where
  le : l.pos ≤ l.src.length
  line : l.line = lineAt 10 l.src l.pos
  col : l.col = colAt 10 l.src l.pos

theorem placed_lexNew (src : Str) : Placed (lexNew src) where
  le := Nat.zero_le _
  line := (lineAt_zero _ _).symm
  col := (colAt_zero _ _).symm

theorem placed_lexMoveFrom (src : Str) (i stop line col : Nat) (hle : i ≤ stop)
    (hstop : stop ≤ src.length) (h : Placed ⟨src, i, line, col⟩) :
    Placed (lexMoveFrom src i stop line col) := by
  induction i, line, col using lexMoveFrom.induct src stop with
  | case1 i line col hlt hnl ih =>
      rw [lexMoveFrom, if_pos hlt, if_pos hnl]
      obtain ⟨b, hb, hbyte⟩ := exists_byte (Nat.lt_of_lt_of_le hlt hstop)
      have hsep : b = 10 := by
        rw [hbyte] at hnl
        exact UInt8.toNat_inj.mp (Int.ofNat_inj.mp hnl)
      subst hsep
      have hline : line = lineAt 10 src i := h.line
      refine ih hlt ⟨hlt.trans_le hstop, ?_, (colAt_succ_sep hb).symm⟩
      change line + 1 = lineAt 10 src (i + 1)
      rw [lineAt_succ_sep hb, ← hline]
  | case2 i line col hlt hnl ih =>
      rw [lexMoveFrom, if_pos hlt, if_neg hnl]
      obtain ⟨b, hb, hbyte⟩ := exists_byte (Nat.lt_of_lt_of_le hlt hstop)
      have hne : b ≠ 10 := by
        rintro rfl
        exact hnl hbyte
      have hline : line = lineAt 10 src i := h.line
      have hcol : col = colAt 10 src i := h.col
      refine ih hlt ⟨hlt.trans_le hstop, hline.trans (lineAt_succ_of_ne hb hne).symm, ?_⟩
      change col + 1 = colAt 10 src (i + 1)
      rw [colAt_succ_of_ne hb hne, ← hcol]
  | case3 i line col hlt =>
      rw [lexMoveFrom, if_neg hlt]
      exact h

theorem Placed.lexMove {l : Lexer} {stop : Nat} (h : Placed l) (hle : l.pos ≤ stop)
    (hstop : stop ≤ l.src.length) : Placed (lexMove l stop) :=
  placed_lexMoveFrom _ _ _ _ _ hle hstop h

end Kaikai.Lex
