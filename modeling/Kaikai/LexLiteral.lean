import Kaikai.LexCursor

namespace Kaikai.Lex

open Str Escapes

/-- Where a scan ends, with a message when the literal is rejected. -/
inductive StrResult where
  | ok (stop : Nat)
  | err (stop : Nat) (msg : Str)
deriving DecidableEq

def StrResult.stop : StrResult → Nat
  | .ok j => j
  | .err j _ => j

/-- A scan from `i` on ends at or behind `i`, inside the source. -/
structure Bounded (src : Str) (i : Nat) (r : StrResult) : Prop where
  low : i ≤ r.stop
  high : r.stop ≤ src.length

theorem Bounded.of_le {src : Str} {i j : Nat} {r : StrResult} (h : Bounded src j r) (hij : i ≤ j) :
    Bounded src i r :=
  ⟨hij.trans h.low, h.high⟩

theorem lt_of_not_neg {src : Str} {i : Nat} (h : ¬ byteAt src i < 0) : i < src.length :=
  byteAt_nonneg_iff.mp (Int.not_lt.mp h)

/-- The pattern of a regex literal; inside a class `/` and `]` swap their meaning. -/
def lexRegexBody (src : Str) (i : Nat) (inClass : Bool) : StrResult :=
  if byteAt src i < 0 then .err i (ascii "unterminated regex literal")
  else if byteAt src i = bBackslash then
    if byteAt src (i + 1) < 0 then .err (i + 1) (ascii "unterminated regex literal")
    else lexRegexBody src (i + 2) inClass
  else if byteAt src i = bNl then
    .err i (ascii "unterminated regex literal (newline before closing `/`)")
  else if inClass then lexRegexBody src (i + 1) (byteAt src i != bRbracket)
  else if byteAt src i = bSlash then .ok (i + 1)
  else lexRegexBody src (i + 1) (byteAt src i == bLbracket)
termination_by src.length - i
decreasing_by
  all_goals
    have hlt := lt_of_not_neg ‹¬ byteAt src i < 0›
    omega

theorem bounded_lexRegexBody (src : Str) (i : Nat) (inClass : Bool) (h : i ≤ src.length) :
    Bounded src i (lexRegexBody src i inClass) := by
  induction i, inClass using lexRegexBody.induct src with
  | case1 i inClass hneg =>
      rw [lexRegexBody, if_pos hneg]
      exact ⟨le_rfl, h⟩
  | case2 i inClass hneg hback hend =>
      rw [lexRegexBody, if_neg hneg, if_pos hback, if_pos hend]
      exact ⟨Nat.le_succ i, lt_of_not_neg hneg⟩
  | case3 i inClass hneg hback hend ih =>
      rw [lexRegexBody, if_neg hneg, if_pos hback, if_neg hend]
      exact (ih (lt_of_not_neg hend)).of_le (Nat.le_add_right i 2)
  | case4 i inClass hneg hback hnl =>
      rw [lexRegexBody, if_neg hneg, if_neg hback, if_pos hnl]
      exact ⟨le_rfl, h⟩
  | case5 i hneg hback hnl ih =>
      rw [lexRegexBody, if_neg hneg, if_neg hback, if_neg hnl, if_pos rfl]
      exact (ih (lt_of_not_neg hneg)).of_le (Nat.le_succ i)
  | case6 i inClass hneg hback hnl hclass hslash =>
      rw [lexRegexBody, if_neg hneg, if_neg hback, if_neg hnl, if_neg hclass, if_pos hslash]
      exact ⟨Nat.le_succ i, lt_of_not_neg hneg⟩
  | case7 i inClass hneg hback hnl hclass hslash ih =>
      rw [lexRegexBody, if_neg hneg, if_neg hback, if_neg hnl, if_neg hclass, if_neg hslash]
      exact (ih (lt_of_not_neg hneg)).of_le (Nat.le_succ i)

/-- Recovery from a bad escape in a character literal. -/
def lexCharSkipToQuote (src : Str) (i : Nat) : Nat :=
  if byteAt src i < 0 ∨ byteAt src i = bNl then i
  else if byteAt src i = bSquote then i + 1
  else lexCharSkipToQuote src (i + 1)
termination_by src.length - i
decreasing_by
  have hlt := lt_of_not_neg fun hneg => ‹¬ (byteAt src i < 0 ∨ byteAt src i = bNl)› (Or.inl hneg)
  omega

theorem bounds_lexCharSkipToQuote {src : Str} {i : Nat} (h : i ≤ src.length) :
    i ≤ lexCharSkipToQuote src i ∧ lexCharSkipToQuote src i ≤ src.length := by
  induction i using lexCharSkipToQuote.induct src with
  | case1 i hstop =>
      rw [lexCharSkipToQuote, if_pos hstop]
      exact ⟨le_rfl, h⟩
  | case2 i hstop hquote =>
      rw [lexCharSkipToQuote, if_neg hstop, if_pos hquote]
      exact ⟨Nat.le_succ i, lt_of_byteAt_eq hquote (by decide)⟩
  | case3 i hstop hquote ih =>
      rw [lexCharSkipToQuote, if_neg hstop, if_neg hquote]
      have hlt := lt_of_not_neg fun hneg => hstop (Or.inl hneg)
      exact ⟨Nat.le_of_succ_le (ih hlt).1, (ih hlt).2⟩

/-- The body of a character literal: an escape, or a byte with its continuation
bytes. -/
def lexCharScanBody (src : Str) (i : Nat) : StrResult :=
  if byteAt src i ≠ bBackslash then .ok (utf8ContinuationEnd src (i + 1))
  else
    match escDecodeAt src i (i + 1) src.length with
    | .bad msg _ => .err (lexCharSkipToQuote src i) msg
    | .ok _ next => .ok next

theorem bounded_lexCharScanBody {src : Str} {i : Nat} (h : i < src.length) :
    Bounded src i (lexCharScanBody src i) := by
  unfold lexCharScanBody
  split
  · have hlow : i + 1 ≤ utf8ContinuationEnd src (i + 1) := le_runEnd _ src (i + 1)
    exact ⟨Nat.le_of_succ_le hlow, runEnd_le _ src (i + 1) h⟩
  · split
    · next msg backslash _ =>
        have hskip := bounds_lexCharSkipToQuote h.le
        exact ⟨hskip.1, hskip.2⟩
    · next bytes next hesc =>
        have hext := escDecodeAt_ok hesc
        exact ⟨(Nat.le_succ i).trans hext.lt.le, hext.le⟩

def tripleQuoteAt (src : Str) (i : Nat) : Bool :=
  byteAt src i == bDquote && byteAt src (i + 1) == bDquote && byteAt src (i + 2) == bDquote

theorem lt_of_tripleQuoteAt {src : Str} {i : Nat} (h : tripleQuoteAt src i = true) :
    i + 3 ≤ src.length := by
  rw [tripleQuoteAt, Bool.and_eq_true, Bool.and_eq_true] at h
  exact lt_of_byteAt_eq (beq_iff_eq.mp h.2) (by decide)

/-- A string literal nested in an interpolation. -/
def lexSkipInnerString (src : Str) (i : Nat) : StrResult :=
  if byteAt src i < 0 then .err i (ascii "unterminated string inside interpolation")
  else if byteAt src i = bDquote then .ok (i + 1)
  else if byteAt src i ≠ bBackslash then lexSkipInnerString src (i + 1)
  else if byteAt src (i + 1) < 0 then
    .err (i + 1) (ascii "unterminated string inside interpolation")
  else
    match _hesc : escDecodeAt src i (i + 1) src.length with
    | .bad msg _ => .err i msg
    | .ok _ next => lexSkipInnerString src next
termination_by src.length - i
decreasing_by
  · have hlt := lt_of_not_neg ‹¬ byteAt src i < 0›
    omega
  · have hlt := lt_of_not_neg ‹¬ byteAt src i < 0›
    have hext := escDecodeAt_ok _hesc
    have hforward := hext.lt
    omega

theorem escape_continues {src : Str} {i next : Nat} {bytes : Str}
    (hesc : escDecodeAt src i (i + 1) src.length = .ok bytes next) : ¬ byteAt src (i + 1) < 0 := by
  have hext := escDecodeAt_ok hesc
  rw [byteAt_neg_iff]
  exact Nat.not_le.mpr (hext.lt.trans_le hext.le)

theorem lexSkipInnerString_escape {src : Str} {i next : Nat} {bytes : Str}
    (hback : byteAt src i = bBackslash)
    (hesc : escDecodeAt src i (i + 1) src.length = .ok bytes next) :
    lexSkipInnerString src i = lexSkipInnerString src next := by
  have hneg : ¬ byteAt src i < 0 := by
    rw [hback]
    decide
  have hquote : byteAt src i ≠ bDquote := by
    rw [hback]
    decide
  rw [lexSkipInnerString, if_neg hneg, if_neg hquote, if_neg (not_not.mpr hback),
    if_neg (escape_continues hesc)]
  split
  · next hbad =>
      rw [hesc] at hbad
      cases hbad
  · next hok =>
      rw [hesc] at hok
      cases hok
      rfl

theorem lexSkipInnerString_bad {src : Str} {i backslash : Nat} {msg : Str}
    (hback : byteAt src i = bBackslash) (hend : ¬ byteAt src (i + 1) < 0)
    (hesc : escDecodeAt src i (i + 1) src.length = .bad msg backslash) :
    lexSkipInnerString src i = .err i msg := by
  have hneg : ¬ byteAt src i < 0 := by
    rw [hback]
    decide
  have hquote : byteAt src i ≠ bDquote := by
    rw [hback]
    decide
  rw [lexSkipInnerString, if_neg hneg, if_neg hquote, if_neg (not_not.mpr hback), if_neg hend]
  split
  · next hbad =>
      rw [hesc] at hbad
      cases hbad
      rfl
  · next hok =>
      rw [hesc] at hok
      cases hok

theorem bounded_lexSkipInnerString (src : Str) (i : Nat) (h : i ≤ src.length) :
    Bounded src i (lexSkipInnerString src i) := by
  induction i using lexSkipInnerString.induct src with
  | case1 i hneg =>
      rw [lexSkipInnerString, if_pos hneg]
      exact ⟨le_rfl, h⟩
  | case2 i hneg hquote =>
      rw [lexSkipInnerString, if_neg hneg, if_pos hquote]
      exact ⟨Nat.le_succ i, lt_of_not_neg hneg⟩
  | case3 i hneg hquote hback ih =>
      rw [lexSkipInnerString, if_neg hneg, if_neg hquote, if_pos hback]
      exact (ih (lt_of_not_neg hneg)).of_le (Nat.le_succ i)
  | case4 i hneg hquote hback hend =>
      rw [lexSkipInnerString, if_neg hneg, if_neg hquote, if_neg hback, if_pos hend]
      exact ⟨Nat.le_succ i, lt_of_not_neg hneg⟩
  | case5 i hneg hquote hback hend msg backslash hesc =>
      rw [lexSkipInnerString_bad (not_not.mp hback) hend hesc]
      exact ⟨le_rfl, h⟩
  | case6 i hneg hquote hback hend bytes next hesc ih =>
      have hext := escDecodeAt_ok hesc
      rw [lexSkipInnerString_escape (not_not.mp hback) hesc]
      exact (ih hext.le).of_le ((Nat.le_succ i).trans hext.lt.le)

theorem lexSkipInnerString_lt {src : Str} {i j : Nat} (h : lexSkipInnerString src i = .ok j) :
    i < j := by
  induction i using lexSkipInnerString.induct src with
  | case1 i hneg =>
      rw [lexSkipInnerString, if_pos hneg] at h
      cases h
  | case2 i hneg hquote =>
      rw [lexSkipInnerString, if_neg hneg, if_pos hquote] at h
      cases h
      exact Nat.lt_succ_self i
  | case3 i hneg hquote hback ih =>
      rw [lexSkipInnerString, if_neg hneg, if_neg hquote, if_pos hback] at h
      exact Nat.lt_of_succ_lt (ih h)
  | case4 i hneg hquote hback hend =>
      rw [lexSkipInnerString, if_neg hneg, if_neg hquote, if_neg hback, if_pos hend] at h
      cases h
  | case5 i hneg hquote hback hend msg backslash hesc =>
      rw [lexSkipInnerString_bad (not_not.mp hback) hend hesc] at h
      cases h
  | case6 i hneg hquote hback hend bytes next hesc ih =>
      have hext := escDecodeAt_ok hesc
      rw [lexSkipInnerString_escape (not_not.mp hback) hesc] at h
      exact (Nat.lt_of_succ_lt hext.lt).trans (ih h)

theorem lexSkipInnerString_ok {src : Str} {i j : Nat} (hi : i ≤ src.length)
    (h : lexSkipInnerString src i = .ok j) : i < j ∧ j ≤ src.length := by
  have hbound := bounded_lexSkipInnerString src i hi
  rw [h] at hbound
  exact ⟨lexSkipInnerString_lt h, hbound.high⟩

/-- Past the rest of an interpolation, counting braces and passing string literals
whole. -/
def lexSkipInterp (src : Str) (i depth : Nat) : StrResult :=
  if depth = 0 then .ok i
  else if byteAt src i < 0 then .err i (ascii "unterminated interpolation in string")
  else if byteAt src i = bLbrace then lexSkipInterp src (i + 1) (depth + 1)
  else if byteAt src i = bRbrace then lexSkipInterp src (i + 1) (depth - 1)
  else if byteAt src i = bDquote then
    match _hinner : lexSkipInnerString src (i + 1) with
    | .ok j => lexSkipInterp src j depth
    | .err j msg => .err j msg
  else lexSkipInterp src (i + 1) depth
termination_by src.length - i
decreasing_by
  all_goals have hlt := lt_of_not_neg ‹¬ byteAt src i < 0›
  all_goals try omega
  have hinner := lexSkipInnerString_lt _hinner
  omega

theorem lexSkipInterp_inner {src : Str} {i j depth : Nat} (hdepth : depth ≠ 0)
    (hquote : byteAt src i = bDquote) (hinner : lexSkipInnerString src (i + 1) = .ok j) :
    lexSkipInterp src i depth = lexSkipInterp src j depth := by
  have hneg : ¬ byteAt src i < 0 := by
    rw [hquote]
    decide
  have hopen : byteAt src i ≠ bLbrace := by
    rw [hquote]
    decide
  have hclose : byteAt src i ≠ bRbrace := by
    rw [hquote]
    decide
  rw [lexSkipInterp, if_neg hdepth, if_neg hneg, if_neg hopen, if_neg hclose, if_pos hquote]
  split
  · next hok =>
      rw [hinner] at hok
      cases hok
      rfl
  · next herr =>
      rw [hinner] at herr
      cases herr

theorem lexSkipInterp_inner_err {src : Str} {i j depth : Nat} {msg : Str} (hdepth : depth ≠ 0)
    (hquote : byteAt src i = bDquote) (hinner : lexSkipInnerString src (i + 1) = .err j msg) :
    lexSkipInterp src i depth = .err j msg := by
  have hneg : ¬ byteAt src i < 0 := by
    rw [hquote]
    decide
  have hopen : byteAt src i ≠ bLbrace := by
    rw [hquote]
    decide
  have hclose : byteAt src i ≠ bRbrace := by
    rw [hquote]
    decide
  rw [lexSkipInterp, if_neg hdepth, if_neg hneg, if_neg hopen, if_neg hclose, if_pos hquote]
  split
  · next hok =>
      rw [hinner] at hok
      cases hok
  · next herr =>
      rw [hinner] at herr
      cases herr
      rfl

theorem bounded_lexSkipInterp (src : Str) (i depth : Nat) (h : i ≤ src.length) :
    Bounded src i (lexSkipInterp src i depth) := by
  induction i, depth using lexSkipInterp.induct src with
  | case1 i =>
      rw [lexSkipInterp, if_pos rfl]
      exact ⟨le_rfl, h⟩
  | case2 i depth hdepth hneg =>
      rw [lexSkipInterp, if_neg hdepth, if_pos hneg]
      exact ⟨le_rfl, h⟩
  | case3 i depth hdepth hneg hopen ih =>
      rw [lexSkipInterp, if_neg hdepth, if_neg hneg, if_pos hopen]
      exact (ih (lt_of_not_neg hneg)).of_le (Nat.le_succ i)
  | case4 i depth hdepth hneg hopen hclose ih =>
      rw [lexSkipInterp, if_neg hdepth, if_neg hneg, if_neg hopen, if_pos hclose]
      exact (ih (lt_of_not_neg hneg)).of_le (Nat.le_succ i)
  | case5 i depth hdepth hneg hopen hclose hquote j hinner ih =>
      have hspan := lexSkipInnerString_ok (lt_of_not_neg hneg) hinner
      rw [lexSkipInterp_inner hdepth hquote hinner]
      exact (ih hspan.2).of_le (Nat.le_of_lt (Nat.lt_of_succ_lt hspan.1))
  | case6 i depth hdepth hneg hopen hclose hquote j msg hinner =>
      have hbound := bounded_lexSkipInnerString src (i + 1) (lt_of_not_neg hneg)
      rw [hinner] at hbound
      rw [lexSkipInterp_inner_err hdepth hquote hinner]
      exact hbound.of_le (Nat.le_succ i)
  | case7 i depth hdepth hneg hopen hclose hquote ih =>
      rw [lexSkipInterp, if_neg hdepth, if_neg hneg, if_neg hopen, if_neg hclose, if_neg hquote]
      exact (ih (lt_of_not_neg hneg)).of_le (Nat.le_succ i)

/-- To the closing quote without reading escapes: recovery only. -/
def lexStringSkipToClose (src : Str) (i : Nat) (triple : Bool) : StrResult :=
  if byteAt src i < 0 then .err i (ascii "unterminated string")
  else if byteAt src i = bBackslash then
    if byteAt src (i + 1) < 0 then .err (i + 1) (ascii "unterminated string")
    else lexStringSkipToClose src (i + 2) triple
  else if triple then
    if tripleQuoteAt src i then .ok (i + 3) else lexStringSkipToClose src (i + 1) triple
  else if byteAt src i = bNl then .err i (ascii "unterminated string")
  else if byteAt src i = bDquote then .ok (i + 1)
  else lexStringSkipToClose src (i + 1) triple
termination_by src.length - i
decreasing_by
  all_goals
    have hlt := lt_of_not_neg ‹¬ byteAt src i < 0›
    omega

theorem bounded_lexStringSkipToClose (src : Str) (i : Nat) (triple : Bool) (h : i ≤ src.length) :
    Bounded src i (lexStringSkipToClose src i triple) := by
  induction i using lexStringSkipToClose.induct src triple with
  | case1 i hneg =>
      rw [lexStringSkipToClose, if_pos hneg]
      exact ⟨le_rfl, h⟩
  | case2 i hneg hback hend =>
      rw [lexStringSkipToClose, if_neg hneg, if_pos hback, if_pos hend]
      exact ⟨Nat.le_succ i, lt_of_not_neg hneg⟩
  | case3 i hneg hback hend ih =>
      rw [lexStringSkipToClose, if_neg hneg, if_pos hback, if_neg hend]
      exact (ih (lt_of_not_neg hend)).of_le (Nat.le_add_right i 2)
  | case4 i hneg hback htriple hquote =>
      rw [lexStringSkipToClose, if_neg hneg, if_neg hback, if_pos htriple, if_pos hquote]
      exact ⟨Nat.le_add_right i 3, lt_of_tripleQuoteAt hquote⟩
  | case5 i hneg hback htriple hquote ih =>
      rw [lexStringSkipToClose, if_neg hneg, if_neg hback, if_pos htriple, if_neg hquote]
      exact (ih (lt_of_not_neg hneg)).of_le (Nat.le_succ i)
  | case6 i hneg hback htriple hnl =>
      rw [lexStringSkipToClose, if_neg hneg, if_neg hback, if_neg htriple, if_pos hnl]
      exact ⟨le_rfl, h⟩
  | case7 i hneg hback htriple hnl hquote =>
      rw [lexStringSkipToClose, if_neg hneg, if_neg hback, if_neg htriple, if_neg hnl,
        if_pos hquote]
      exact ⟨Nat.le_succ i, lt_of_not_neg hneg⟩
  | case8 i hneg hback htriple hnl hquote ih =>
      rw [lexStringSkipToClose, if_neg hneg, if_neg hback, if_neg htriple, if_neg hnl,
        if_neg hquote]
      exact (ih (lt_of_not_neg hneg)).of_le (Nat.le_succ i)

/-- The message of a bad escape, with the end behind the closing quote. -/
def lexStringErrAt (src : Str) (i : Nat) (msg : Str) (triple : Bool) : StrResult :=
  match lexStringSkipToClose src (i + 1) triple with
  | .ok j => .err j msg
  | .err j _ => .err j msg

theorem bounded_lexStringErrAt {src : Str} {i : Nat} (msg : Str) (triple : Bool)
    (h : i + 1 ≤ src.length) : Bounded src i (lexStringErrAt src i msg triple) := by
  have hskip := bounded_lexStringSkipToClose src (i + 1) triple h
  have hstop : (lexStringErrAt src i msg triple).stop =
      (lexStringSkipToClose src (i + 1) triple).stop := by
    unfold lexStringErrAt
    cases lexStringSkipToClose src (i + 1) triple <;> rfl
  exact ⟨hstop ▸ Nat.le_of_succ_le hskip.low, hstop ▸ hskip.high⟩

/-- The body of a string literal, with `lex_string_escape` as the branch on a
backslash. -/
def lexStringBody (src : Str) (i : Nat) (triple : Bool) : StrResult :=
  if byteAt src i < 0 then .err i (ascii "unterminated string")
  else if byteAt src i = bBackslash then
    if byteAt src (i + 1) < 0 then .err (i + 1) (ascii "unterminated string")
    else
      match _hesc : escDecodeAt src i (i + 1) src.length with
      | .bad msg _ => lexStringErrAt src i msg triple
      | .ok _ next => lexStringBody src next triple
  else if byteAt src i = bHash ∧ byteAt src (i + 1) = bLbrace then
    match _hinterp : lexSkipInterp src (i + 2) 1 with
    | .ok j => lexStringBody src j triple
    | .err j msg => .err j msg
  else if triple then
    if tripleQuoteAt src i then .ok (i + 3) else lexStringBody src (i + 1) triple
  else if byteAt src i = bNl then
    .err i (ascii "unterminated string (newline in single-line string)")
  else if byteAt src i = bDquote then .ok (i + 1)
  else lexStringBody src (i + 1) triple
termination_by src.length - i
decreasing_by
  all_goals have hlt := lt_of_not_neg ‹¬ byteAt src i < 0›
  · have hforward := (escDecodeAt_ok _hesc).lt
    omega
  · have hopen := lt_of_byteAt_eq (And.right ‹_ ∧ byteAt src (i + 1) = bLbrace›) (by decide)
    have hbound := bounded_lexSkipInterp src (i + 2) 1 hopen
    rw [_hinterp] at hbound
    have hforward : i + 2 ≤ _ := hbound.low
    simp only [StrResult.stop] at hforward
    omega
  · omega
  · omega

theorem lexStringBody_escape {src : Str} {i next : Nat} {bytes : Str} {triple : Bool}
    (hback : byteAt src i = bBackslash)
    (hesc : escDecodeAt src i (i + 1) src.length = .ok bytes next) :
    lexStringBody src i triple = lexStringBody src next triple := by
  have hneg : ¬ byteAt src i < 0 := by
    rw [hback]
    decide
  rw [lexStringBody, if_neg hneg, if_pos hback, if_neg (escape_continues hesc)]
  split
  · next hbad =>
      rw [hesc] at hbad
      cases hbad
  · next hok =>
      rw [hesc] at hok
      cases hok
      rfl

theorem lexStringBody_bad {src : Str} {i backslash : Nat} {msg : Str} {triple : Bool}
    (hback : byteAt src i = bBackslash) (hend : ¬ byteAt src (i + 1) < 0)
    (hesc : escDecodeAt src i (i + 1) src.length = .bad msg backslash) :
    lexStringBody src i triple = lexStringErrAt src i msg triple := by
  have hneg : ¬ byteAt src i < 0 := by
    rw [hback]
    decide
  rw [lexStringBody, if_neg hneg, if_pos hback, if_neg hend]
  split
  · next hbad =>
      rw [hesc] at hbad
      cases hbad
      rfl
  · next hok =>
      rw [hesc] at hok
      cases hok

theorem lexStringBody_interp {src : Str} {i j : Nat} {triple : Bool}
    (hopen : byteAt src i = bHash ∧ byteAt src (i + 1) = bLbrace)
    (hinterp : lexSkipInterp src (i + 2) 1 = .ok j) :
    lexStringBody src i triple = lexStringBody src j triple := by
  have hneg : ¬ byteAt src i < 0 := by
    rw [hopen.1]
    decide
  have hback : byteAt src i ≠ bBackslash := by
    rw [hopen.1]
    decide
  rw [lexStringBody, if_neg hneg, if_neg hback, if_pos hopen]
  split
  · next hok =>
      rw [hinterp] at hok
      cases hok
      rfl
  · next herr =>
      rw [hinterp] at herr
      cases herr

theorem lexStringBody_interp_err {src : Str} {i j : Nat} {msg : Str} {triple : Bool}
    (hopen : byteAt src i = bHash ∧ byteAt src (i + 1) = bLbrace)
    (hinterp : lexSkipInterp src (i + 2) 1 = .err j msg) :
    lexStringBody src i triple = .err j msg := by
  have hneg : ¬ byteAt src i < 0 := by
    rw [hopen.1]
    decide
  have hback : byteAt src i ≠ bBackslash := by
    rw [hopen.1]
    decide
  rw [lexStringBody, if_neg hneg, if_neg hback, if_pos hopen]
  split
  · next hok =>
      rw [hinterp] at hok
      cases hok
  · next herr =>
      rw [hinterp] at herr
      cases herr
      rfl

theorem bounded_lexSkipInterp_of_open {src : Str} {i : Nat}
    (hopen : byteAt src i = bHash ∧ byteAt src (i + 1) = bLbrace) :
    Bounded src (i + 2) (lexSkipInterp src (i + 2) 1) :=
  bounded_lexSkipInterp src (i + 2) 1 (lt_of_byteAt_eq hopen.2 (by decide))

theorem bounded_lexStringBody (src : Str) (i : Nat) (triple : Bool) (h : i ≤ src.length) :
    Bounded src i (lexStringBody src i triple) := by
  induction i using lexStringBody.induct src triple with
  | case1 i hneg =>
      rw [lexStringBody, if_pos hneg]
      exact ⟨le_rfl, h⟩
  | case2 i hneg hback hend =>
      rw [lexStringBody, if_neg hneg, if_pos hback, if_pos hend]
      exact ⟨Nat.le_succ i, lt_of_not_neg hneg⟩
  | case3 i hneg hback hend msg backslash hesc =>
      rw [lexStringBody_bad hback hend hesc]
      exact bounded_lexStringErrAt msg triple (lt_of_not_neg hneg)
  | case4 i hneg hback hend bytes next hesc ih =>
      have hext := escDecodeAt_ok hesc
      rw [lexStringBody_escape hback hesc]
      exact (ih hext.le).of_le ((Nat.le_succ i).trans hext.lt.le)
  | case5 i hneg hback hopen j hinterp ih =>
      have hbound := bounded_lexSkipInterp_of_open hopen
      rw [hinterp] at hbound
      rw [lexStringBody_interp hopen hinterp]
      exact (ih hbound.high).of_le ((Nat.le_add_right i 2).trans hbound.low)
  | case6 i hneg hback hopen j msg hinterp =>
      have hbound := bounded_lexSkipInterp_of_open hopen
      rw [hinterp] at hbound
      rw [lexStringBody_interp_err hopen hinterp]
      exact hbound.of_le (Nat.le_add_right i 2)
  | case7 i hneg hback hopen htriple hquote =>
      rw [lexStringBody, if_neg hneg, if_neg hback, if_neg hopen, if_pos htriple, if_pos hquote]
      exact ⟨Nat.le_add_right i 3, lt_of_tripleQuoteAt hquote⟩
  | case8 i hneg hback hopen htriple hquote ih =>
      rw [lexStringBody, if_neg hneg, if_neg hback, if_neg hopen, if_pos htriple, if_neg hquote]
      exact (ih (lt_of_not_neg hneg)).of_le (Nat.le_succ i)
  | case9 i hneg hback hopen htriple hnl =>
      rw [lexStringBody, if_neg hneg, if_neg hback, if_neg hopen, if_neg htriple, if_pos hnl]
      exact ⟨le_rfl, h⟩
  | case10 i hneg hback hopen htriple hnl hquote =>
      rw [lexStringBody, if_neg hneg, if_neg hback, if_neg hopen, if_neg htriple, if_neg hnl,
        if_pos hquote]
      exact ⟨Nat.le_succ i, lt_of_not_neg hneg⟩
  | case11 i hneg hback hopen htriple hnl hquote ih =>
      rw [lexStringBody, if_neg hneg, if_neg hback, if_neg hopen, if_neg htriple, if_neg hnl,
        if_neg hquote]
      exact (ih (lt_of_not_neg hneg)).of_le (Nat.le_succ i)

end Kaikai.Lex
