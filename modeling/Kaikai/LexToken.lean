import Kaikai.LexLiteral

namespace Kaikai.Lex

open Str Escapes

inductive TokKind where
  | tkEof | tkNewline | tkAnd | tkAs | tkAssert | tkAxiom | tkBench | tkCase | tkCheck | tkConst
  | tkEffect | tkElse | tkEnsures | tkExtern | tkFalse | tkFn | tkFor | tkHandle | tkIf | tkImpl
  | tkImport | tkLazy | tkLet | tkMatch | tkNot | tkOr | tkPriv | tkProtocol | tkPub | tkRequires
  | tkTest | tkTheory | tkTrue | tkType | tkUse | tkVar | tkWhen | tkWhere | tkWith | tkHashOpen
  | tkRegex | tkInt | tkReal | tkChar | tkString | tkInt32 | tkUInt32 | tkUInt64 | tkInt128
  | tkUInt8 | tkDecimal | tkBigInt | tkComplex | tkIdent | tkUnderscore | tkLparen | tkRparen
  | tkLbracket | tkRbracket | tkLbrace | tkRbrace | tkComma | tkColon | tkColonEq | tkSemi
  | tkDot | tkDotDot | tkEllipsis | tkEq | tkArrow | tkFatArrow | tkPipe | tkPipeApply | tkBarBar
  | tkPipeQuestion | tkPipeEach | tkPlus | tkMinus | tkStar | tkSlash | tkPercent | tkPlusPlus
  | tkCoalesce | tkEqEq | tkNeq | tkLt | tkGt | tkLe | tkGe | tkBang | tkAt | tkAmp | tkDollar
  | tkCaret | tkHole | tkTodoBang
  | tkHoleName (name : Str)
  | tkError (msg : Str)

/-- A token: its kind, the line and column of its first byte, and its span. -/
structure Token where
  kind : TokKind
  line : Nat
  col : Nat
  start : Nat
  length : Nat

def tok (kind : TokKind) (line col start stop : Nat) : Token :=
  ⟨kind, line, col, start, stop - start⟩

/-- The cursor behind a token, with the token. -/
structure LexStep where
  next : Lexer
  token : Token

/-- The bytes of a text. -/
def utf8 (text : String) : Str := text.toUTF8.data.toList

/-- The `n` bytes of `src` at `start` spell `s`. -/
def kw (src : Str) (start n : Nat) (s : String) : Bool :=
  (utf8 s).length == n && srcHasAt src start (utf8 s) 0

def kwOrIdent (src : Str) (start n : Nat) (s : String) (k : TokKind) : TokKind :=
  if kw src start n s then k else .tkIdent

def kwA (src : Str) (start n : Nat) : TokKind :=
  if kw src start n "and" then .tkAnd
  else if kw src start n "as" then .tkAs
  else if kw src start n "assert" then .tkAssert
  else kwOrIdent src start n "axiom" .tkAxiom

def kwC (src : Str) (start n : Nat) : TokKind :=
  if kw src start n "case" then .tkCase
  else if kw src start n "check" then .tkCheck
  else kwOrIdent src start n "const" .tkConst

def kwE (src : Str) (start n : Nat) : TokKind :=
  if kw src start n "effect" then .tkEffect
  else if kw src start n "else" then .tkElse
  else if kw src start n "ensures" then .tkEnsures
  else kwOrIdent src start n "extern" .tkExtern

def kwF (src : Str) (start n : Nat) : TokKind :=
  if kw src start n "false" then .tkFalse
  else if kw src start n "fn" then .tkFn
  else kwOrIdent src start n "for" .tkFor

def kwI (src : Str) (start n : Nat) : TokKind :=
  if kw src start n "if" then .tkIf
  else if kw src start n "impl" then .tkImpl
  else kwOrIdent src start n "import" .tkImport

def kwP (src : Str) (start n : Nat) : TokKind :=
  if kw src start n "priv" then .tkPriv
  else if kw src start n "protocol" then .tkProtocol
  else kwOrIdent src start n "pub" .tkPub

def kwT (src : Str) (start n : Nat) : TokKind :=
  if kw src start n "test" then .tkTest
  else if kw src start n "theory" then .tkTheory
  else if kw src start n "true" then .tkTrue
  else kwOrIdent src start n "type" .tkType

def kwW (src : Str) (start n : Nat) : TokKind :=
  if kw src start n "when" then .tkWhen
  else if kw src start n "where" then .tkWhere
  else kwOrIdent src start n "with" .tkWith

def keywordAt (src : Str) (start n : Nat) (c : Char) : TokKind :=
  match c with
  | 'a' => kwA src start n
  | 'b' => kwOrIdent src start n "bench" .tkBench
  | 'c' => kwC src start n
  | 'e' => kwE src start n
  | 'f' => kwF src start n
  | 'h' => kwOrIdent src start n "handle" .tkHandle
  | 'i' => kwI src start n
  | 'l' => if kw src start n "lazy" then .tkLazy else kwOrIdent src start n "let" .tkLet
  | 'm' => kwOrIdent src start n "match" .tkMatch
  | 'n' => kwOrIdent src start n "not" .tkNot
  | 'o' => kwOrIdent src start n "or" .tkOr
  | 'p' => kwP src start n
  | 'r' => kwOrIdent src start n "requires" .tkRequires
  | 't' => kwT src start n
  | 'u' => kwOrIdent src start n "use" .tkUse
  | 'v' => kwOrIdent src start n "var" .tkVar
  | 'w' => kwW src start n
  | _ => .tkIdent

def intToChar (b : Int) : Char := Char.ofNat b.toNat

/-- The keyword an identifier spells, or `tkIdent`. -/
def identKind (src : Str) (start n : Nat) : TokKind :=
  if n = 1 ∧ byteAt src start = bUnderscore then .tkUnderscore
  else if n < 2 ∨ n > 8 ∨ byteAt src start < 97 ∨ byteAt src start > 119 then .tkIdent
  else keywordAt src start n (intToChar (byteAt src start))

/-- An identifier, a keyword or `todo!`. -/
def lexIdent (l : Lexer) : LexStep :=
  if identEnd l.src l.pos - l.pos = 4 ∧ srcHasAt l.src l.pos (utf8 "todo") 0 = true ∧
      byteAt l.src (identEnd l.src l.pos) = charToInt '!' then
    ⟨lexMove l (identEnd l.src l.pos + 1),
      tok .tkTodoBang l.line l.col l.pos (identEnd l.src l.pos + 1)⟩
  else
    ⟨lexMove l (identEnd l.src l.pos),
      tok (identKind l.src l.pos (identEnd l.src l.pos - l.pos)) l.line l.col l.pos
        (identEnd l.src l.pos)⟩

/-- The token of kind `k` that starts at `l` and ends at `stop`. -/
def punct (l stop : Lexer) (k : TokKind) : LexStep :=
  ⟨stop, tok k l.line l.col l.pos stop.pos⟩

def punctPair (l l1 : Lexer) (second : Char) (pair single : TokKind) : LexStep :=
  if lexPeekIs l1 second then punct l (lexAdvance l1) pair else punct l l1 single

/-- `//` and `/*` are reserved as errors. -/
def lexSlash (l l1 : Lexer) : LexStep :=
  if lexPeekIs l1 '/' then
    punct l (lexAdvance l1) (.tkError (utf8
      "kaikai uses `#` for comments, not `//` (and `//` is not an operator — `Int / Int` already truncates per #315)"))
  else if lexPeekIs l1 '*' then
    punct l (lexAdvance l1) (.tkError (utf8
      "block comments are not supported — use `#` on each line (kaikai follows Elixir on this)"))
  else punct l l1 .tkSlash

def lexEquals (l l1 : Lexer) : LexStep :=
  if lexPeekIs l1 '=' then punct l (lexAdvance l1) .tkEqEq
  else punctPair l l1 '>' .tkFatArrow .tkEq

/-- `?ident` is one token; `?` alone is a hole. -/
def lexHole (l l1 : Lexer) : LexStep :=
  if bIsAlpha (lexPeek l1) then
    punct l (lexScanIdentRest (lexAdvance l1)) (.tkHoleName (stringSlice l.src (l.pos + 1)
      ((lexScanIdentRest (lexAdvance l1)).pos - (l.pos + 1))))
  else punct l l1 .tkHole

def lexBar (l l1 : Lexer) : LexStep :=
  if lexPeekIs l1 '>' then punct l (lexAdvance l1) .tkPipeApply
  else if lexPeekIs l1 '|' then punct l (lexAdvance l1) .tkBarBar
  else if lexPeekIs l1 '!' then punct l (lexAdvance l1) .tkPipeEach
  else punctPair l l1 '?' .tkPipeQuestion .tkPipe

def lexDots (l l1 : Lexer) : LexStep :=
  if lexPeekIs l1 '.' && lexPeek2Is l1 '.' then
    punct l (lexAdvance (lexAdvance l1)) .tkEllipsis
  else punctPair l l1 '.' .tkDotDot .tkDot

/-- `#[` opens an attribute; the legacy annotations are errors. -/
def lexHash (l l1 : Lexer) : LexStep :=
  if lexPeekIs l1 '[' then punct l (lexAdvance l1) .tkHashOpen
  else if lexMatchWordAt l1 0 (utf8 "derive") then
    punct l (lexAdvanceN l1 6) (.tkError (utf8
      "deprecated annotation syntax (issue #608) — write `#[derive(...)]` instead of `#derive(...)`"))
  else if lexMatchWordAt l1 0 (utf8 "unstable") then
    punct l (lexAdvanceN l1 8) (.tkError (utf8
      "deprecated annotation syntax (issue #608) — write `#[unstable]` instead of `#unstable`"))
  else
    punct l l1 (.tkError (utf8
      "unexpected `#` — comments start with `#` followed by space; annotations use `#[...]`"))

def lexStrStep (l : Lexer) (r : StrResult) (kind : TokKind) : LexStep :=
  match r with
  | .ok j => ⟨lexMove l j, tok kind l.line l.col l.pos j⟩
  | .err j msg => ⟨lexMove l j, tok (.tkError msg) l.line l.col l.pos j⟩

/-- `l` sits on the `~`; the pattern opens after `~r/`. -/
def lexRegex (l : Lexer) : LexStep :=
  lexStrStep l (lexRegexBody l.src (l.pos + 3) false) .tkRegex

def lexTilde (l l1 : Lexer) : LexStep :=
  if lexPeekIs l1 'r' && lexPeekAt l1 1 == charToInt '/' then lexRegex l
  else
    punct l l1 (.tkError (utf8
      "unexpected character '~' (only `~r/.../` regex sigil is supported)"))

def lexPunct (l : Lexer) : LexStep :=
  if lexPeek l < 0 then punct l l .tkEof
  else
    match intToChar (lexPeek l) with
    | '(' => punct l (lexAdvance l) .tkLparen
    | ')' => punct l (lexAdvance l) .tkRparen
    | '[' => punct l (lexAdvance l) .tkLbracket
    | ']' => punct l (lexAdvance l) .tkRbracket
    | '{' => punct l (lexAdvance l) .tkLbrace
    | '}' => punct l (lexAdvance l) .tkRbrace
    | ',' => punct l (lexAdvance l) .tkComma
    | '@' => punct l (lexAdvance l) .tkAt
    | '&' => punct l (lexAdvance l) .tkAmp
    | '$' => punct l (lexAdvance l) .tkDollar
    | '^' => punct l (lexAdvance l) .tkCaret
    | ':' => punctPair l (lexAdvance l) '=' .tkColonEq .tkColon
    | ';' => punct l (lexAdvance l) .tkSemi
    | '+' => punctPair l (lexAdvance l) '+' .tkPlusPlus .tkPlus
    | '*' => punct l (lexAdvance l) .tkStar
    | '%' => punct l (lexAdvance l) .tkPercent
    | '-' => punctPair l (lexAdvance l) '>' .tkArrow .tkMinus
    | '/' => lexSlash l (lexAdvance l)
    | '=' => lexEquals l (lexAdvance l)
    | '<' => punctPair l (lexAdvance l) '=' .tkLe .tkLt
    | '>' => punctPair l (lexAdvance l) '=' .tkGe .tkGt
    | '!' => punctPair l (lexAdvance l) '=' .tkNeq .tkBang
    | '?' =>
        if lexPeekIs (lexAdvance l) '?' then punct l (lexAdvance (lexAdvance l)) .tkCoalesce
        else lexHole l (lexAdvance l)
    | '|' => lexBar l (lexAdvance l)
    | '.' => lexDots l (lexAdvance l)
    | '#' => lexHash l (lexAdvance l)
    | '~' => lexTilde l (lexAdvance l)
    | _ =>
        punct l (lexAdvance l) (.tkError
          (utf8 "unexpected character '" ++ (intToByteString (lexPeek l) ++ utf8 "'")))

/-- A character literal. -/
def lexChar (l : Lexer) : LexStep :=
  if byteAt l.src (l.pos + 1) < 0 then
    lexStrStep l (.err (l.pos + 1) (utf8 "unterminated char literal")) .tkChar
  else
    match lexCharScanBody l.src (l.pos + 1) with
    | .ok j =>
        if byteAt l.src j = bSquote then lexStrStep l (.ok (j + 1)) .tkChar
        else lexStrStep l (.err j (utf8 "unterminated char literal")) .tkChar
    | .err j msg => lexStrStep l (.err j msg) .tkChar

/-- A string literal. -/
def lexString (l : Lexer) : LexStep :=
  lexStrStep l
    (lexStringBody l.src (if tripleQuoteAt l.src l.pos then l.pos + 3 else l.pos + 1)
      (tripleQuoteAt l.src l.pos)) .tkString

def lexSpanHasDigit (src : Str) (i stop : Nat) : Bool :=
  if i < stop then byteAt src i != bUnderscore || lexSpanHasDigit src (i + 1) stop else false
termination_by stop - i

/-- A fixed-width suffix: the width token and the cursor past it. -/
structure WidthSuffix where
  kind : TokKind
  next : Lexer

/-- `s` stands at the cursor with no identifier byte behind it. -/
def lexMatchStr (l : Lexer) (s : String) : Bool := wordAt l.src l.pos (utf8 s)

def lexWidthAfterI (l : Lexer) : Option WidthSuffix :=
  if lexMatchStr l "32" then some ⟨.tkInt32, lexAdvanceN l 2⟩
  else if lexMatchStr l "128" then some ⟨.tkInt128, lexAdvanceN l 3⟩
  else none

def lexWidthAfterU (l : Lexer) : Option WidthSuffix :=
  if lexMatchStr l "8" then some ⟨.tkUInt8, lexAdvanceN l 1⟩
  else if lexMatchStr l "32" then some ⟨.tkUInt32, lexAdvanceN l 2⟩
  else if lexMatchStr l "64" then some ⟨.tkUInt64, lexAdvanceN l 2⟩
  else none

def isIntKind (k : TokKind) : Bool :=
  match k with
  | .tkInt => true
  | _ => false

/-- A width suffix, which only an integer base takes. -/
def lexWidthSuffix (l : Lexer) (fallback : TokKind) : Option WidthSuffix :=
  if !isIntKind fallback then none
  else if lexPeekIs l 'i' then lexWidthAfterI (lexAdvance l)
  else if lexPeekIs l 'u' then lexWidthAfterU (lexAdvance l)
  else none

def lexIsDecimalSuffix (l : Lexer) : Bool := lexPeekIs l 'd' && !bIsAlnum (lexPeekAt l 1)

def lexIsBigintSuffix (l : Lexer) (fallback : TokKind) : Bool :=
  isIntKind fallback && lexPeekIs l 'n' && !bIsAlnum (lexPeekAt l 1)

/-- The suffix that stands right behind a number, or the `fallback` kind. -/
def lexMaybeComplexSuffix (l : Lexer) (sl sc start : Nat) (fallback : TokKind) : LexStep :=
  match lexWidthSuffix l fallback with
  | some w => ⟨w.next, tok w.kind sl sc start w.next.pos⟩
  | none =>
      if lexIsDecimalSuffix l then
        ⟨lexAdvance l, tok .tkDecimal sl sc start (lexAdvance l).pos⟩
      else if lexIsBigintSuffix l fallback then
        ⟨lexAdvance l, tok .tkBigInt sl sc start (lexAdvance l).pos⟩
      else if lexPeekIs l 'i' then
        ⟨lexAdvance l, tok .tkComplex sl sc start (lexAdvance l).pos⟩
      else ⟨l, tok fallback sl sc start l.pos⟩

/-- `0x` and `0b` literals; a run of separators alone carries no digit. -/
def lexHexOrBinInt (l : Lexer) (isHex : Bool) (sl sc start : Nat) : LexStep :=
  let stop := if isHex then hexDigitsEnd l.src (l.pos + 2) else binDigitsEnd l.src (l.pos + 2)
  if lexSpanHasDigit l.src (l.pos + 2) stop then
    lexMaybeComplexSuffix (lexMove l stop) sl sc start .tkInt
  else
    ⟨lexMove l stop, tok (.tkError (if isHex then
        utf8 "malformed number: expected hex digits after 0x"
      else utf8 "malformed number: expected binary digits after 0b")) sl sc start stop⟩

/-- The cursor past a sign. -/
def lexSkipSign (l : Lexer) : Lexer :=
  if lexPeekIs l '+' || lexPeekIs l '-' then lexAdvance l else l

/-- The exponent behind the `e` at `l2`. -/
def lexExponent (l2 : Lexer) (sl sc start : Nat) : LexStep :=
  let l4 := lexSkipSign (lexAdvance l2)
  if bIsDigit (lexPeek l4) then lexMaybeComplexSuffix (lexScanDigits l4) sl sc start .tkReal
  else
    ⟨l4, tok (.tkError (utf8 "malformed number: expected digits after exponent")) sl sc start l4.pos⟩

/-- A decimal literal: digits, a fraction when `.` is followed by a digit, and an
exponent. -/
def lexNumberDecimal (l : Lexer) (sl sc start : Nat) : LexStep :=
  let l1 := lexScanDigits l
  let isReal1 := lexPeekIs l1 '.' && bIsDigit (lexPeekAt l1 1)
  let l2 := if isReal1 then lexMove l1 (digitsEnd l1.src (l1.pos + 2)) else l1
  if lexPeekIs l2 'e' || lexPeekIs l2 'E' then lexExponent l2 sl sc start
  else lexMaybeComplexSuffix l2 sl sc start (if isReal1 then .tkReal else .tkInt)

/-- A number literal. -/
def lexNumber (l : Lexer) : LexStep :=
  if lexPeekIs l '0' && (lexPeek2Is l 'x' || lexPeek2Is l 'X') then
    lexHexOrBinInt l true l.line l.col l.pos
  else if lexPeekIs l '0' && (lexPeek2Is l 'b' || lexPeek2Is l 'B') then
    lexHexOrBinInt l false l.line l.col l.pos
  else lexNumberDecimal l l.line l.col l.pos

/-- The next token behind the blanks at the cursor. -/
def lexNext (l : Lexer) : LexStep :=
  let l0 := lexSkipWs l
  let b := lexPeek l0
  if b < 0 then ⟨l0, tok .tkEof l0.line l0.col l0.pos l0.pos⟩
  else if b = bNl then
    ⟨lexAdvance l0, tok .tkNewline l0.line l0.col l0.pos (lexAdvance l0).pos⟩
  else if bIsAlpha b then lexIdent l0
  else if bIsDigit b then lexNumber l0
  else if b = bDquote then lexString l0
  else if b = bSquote then lexChar l0
  else lexPunct l0

end Kaikai.Lex
