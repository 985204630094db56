import Kaikai.Str
import Kaikai.Word64

/-!
How the compiler reads a regex pattern to decide that one refinement implies
another: anchored classes `^ <atom> <quant>? $` over ASCII masks. Positions are
bytes, and `stop` is the position of the final `$`.
-/

namespace Kaikai.RegexEntail

open Kaikai.Str

/-- The byte at `i` as a character, `x` outside the string. -/
def charAtOrZero (s : Str) (i : Nat) : Char := (charAt s i).getD 'x'

def chIsDigit (c : Char) : Bool := c ≥ '0' && c ≤ '9'

/-- A string of 128 digits, one for each ASCII codepoint; `true` is the digit `1`. -/
abbrev Mask := List Bool

def maskHas (m : Mask) (i : Nat) : Bool := m.getD i false

/-- The mask that a loop over the 128 positions builds. -/
def maskOf (f : Nat → Bool) : Mask := (List.range 128).map f

def maskEmpty : Mask := maskOf fun _ => false

def maskSetBit (m : Mask) (pos : Nat) : Mask := m.set pos true

def maskSingle (c : Char) : Mask :=
  if c.toNat ≥ 128 then maskEmpty else maskSetBit maskEmpty c.toNat

def maskRange (lo hi : Char) : Mask := maskOf fun i => lo.toNat ≤ i && i ≤ hi.toNat

def maskOr (a b : Mask) : Mask := maskOf fun i => maskHas a i || maskHas b i

def maskInvert (m : Mask) : Mask := maskOf fun i => !maskHas m i

def maskSubset (strict loose : Mask) : Bool :=
  (List.range 128).all fun i => !(maskHas strict i && !maskHas loose i)

def maskDigit : Mask := maskRange '0' '9'

def maskWord : Mask :=
  maskSetBit (maskOr (maskOr (maskRange 'A' 'Z') (maskRange 'a' 'z')) (maskRange '0' '9')) '_'.toNat

def maskSpace : Mask :=
  maskSetBit (maskSetBit (maskSetBit (maskSetBit maskEmpty ' '.toNat) '\t'.toNat) '\n'.toNat)
    '\r'.toNat

def maskDot : Mask := maskInvert (maskSingle '\n')

def isRegexMeta (c : Char) : Bool :=
  c = '^' || c = '$' || c = '|' || c = '(' || c = ')' || c = '[' || c = ']' || c = '{' ||
    c = '}' || c = '*' || c = '+' || c = '?' || c = '.' || c = '\\'

/-- A mask with the position behind what it was read from. -/
structure MaskAt where
  mask : Mask
  after : Nat

/-- The first token of a class member; only a char extends to a range. -/
inductive BracketFirst where
  | bFirst (mask : Mask) (after : Nat) (c : Char)
  | bClass (mask : Mask) (after : Nat)

def parseClassEscape (pat : Str) (i stop : Nat) : Option BracketFirst :=
  if i ≥ stop then none
  else
    let c := charAtOrZero pat i
    match c with
    | 'd' => some (.bClass maskDigit (i + 1))
    | 'D' => some (.bClass (maskInvert maskDigit) (i + 1))
    | 'w' => some (.bClass maskWord (i + 1))
    | 'W' => some (.bClass (maskInvert maskWord) (i + 1))
    | 's' => some (.bClass maskSpace (i + 1))
    | 'S' => some (.bClass (maskInvert maskSpace) (i + 1))
    | 'n' => some (.bFirst (maskSingle '\n') (i + 1) '\n')
    | 't' => some (.bFirst (maskSingle '\t') (i + 1) '\t')
    | 'r' => some (.bFirst (maskSingle '\r') (i + 1) '\r')
    | _ => some (.bFirst (maskSingle c) (i + 1) c)

def parseEscapeAtom (pat : Str) (i stop : Nat) : Option MaskAt :=
  if i ≥ stop then none
  else
    let c := charAtOrZero pat i
    match c with
    | 'd' => some ⟨maskDigit, i + 1⟩
    | 'D' => some ⟨maskInvert maskDigit, i + 1⟩
    | 'w' => some ⟨maskWord, i + 1⟩
    | 'W' => some ⟨maskInvert maskWord, i + 1⟩
    | 's' => some ⟨maskSpace, i + 1⟩
    | 'S' => some ⟨maskInvert maskSpace, i + 1⟩
    | 'n' => some ⟨maskSingle '\n', i + 1⟩
    | 't' => some ⟨maskSingle '\t', i + 1⟩
    | 'r' => some ⟨maskSingle '\r', i + 1⟩
    | _ => some ⟨maskSingle c, i + 1⟩

def bracketFirst (pat : Str) (i stop : Nat) : Option BracketFirst :=
  let c := charAtOrZero pat i
  if c = '\\' then parseClassEscape pat (i + 1) stop
  else if c = ']' || c = '[' then none
  else some (.bFirst (maskSingle c) (i + 1) c)

def bracketRange (pat : Str) (lo : Char) (after1 : Nat) : Option MaskAt :=
  let c2 := charAtOrZero pat (after1 + 1)
  if c2 = '\\' then none
  else if c2.toNat < lo.toNat then none
  else some ⟨maskRange lo c2, after1 + 2⟩

def bracketExtend (pat : Str) (f : BracketFirst) (stop : Nat) : Option MaskAt :=
  match f with
  | .bFirst m1 after1 lo =>
      if after1 < stop && charAtOrZero pat after1 = '-' && after1 + 1 < stop &&
          charAtOrZero pat (after1 + 1) ≠ ']' then
        bracketRange pat lo after1
      else some ⟨m1, after1⟩
  | .bClass m1 after1 => some ⟨m1, after1⟩

/-- A char, an escape or a range. -/
def parseBracketItem (pat : Str) (i stop : Nat) : Option MaskAt :=
  if i ≥ stop then none
  else do
    let f ← bracketFirst pat i stop
    bracketExtend pat f stop

/-- The members of a class up to `]`. The fuel is at least the number of positions
left, so that none is left when it is used up. -/
def parseBracketBody : Nat → Str → Nat → Nat → Mask → Bool → Option MaskAt
  | 0, _, _, _, _, _ => none
  | fuel + 1, pat, i, stop, acc, neg =>
      if i ≥ stop then none
      else if charAtOrZero pat i = ']' then some ⟨if neg then maskInvert acc else acc, i + 1⟩
      else do
        let item ← parseBracketItem pat i stop
        parseBracketBody fuel pat item.after stop (maskOr acc item.mask) neg

def parseBracketClass (pat : Str) (i stop : Nat) : Option MaskAt :=
  let neg := decide (i < stop) && charAtOrZero pat i = '^'
  let i1 := if neg then i + 1 else i
  parseBracketBody (stop - i1) pat i1 stop maskEmpty neg

def parseClassAtom (pat : Str) (i stop : Nat) : Option MaskAt :=
  if i ≥ stop then none
  else
    let c := charAtOrZero pat i
    if c = '[' then parseBracketClass pat (i + 1) stop
    else if c = '\\' then parseEscapeAtom pat (i + 1) stop
    else if c = '.' then some ⟨maskDot, i + 1⟩
    else if isRegexMeta c then none
    else some ⟨maskSingle c, i + 1⟩

structure IntParse where
  value : Int
  after : Nat

/-- The loop of `parse_pat_int` with `left` positions left before `stop`. -/
def parsePatIntLoop : Nat → Str → Nat → Int → Bool → Option IntParse
  | 0, _, i, acc, any => if any then some ⟨acc, i⟩ else none
  | left + 1, pat, i, acc, any =>
      let c := charAtOrZero pat i
      if chIsDigit c then
        parsePatIntLoop left pat (i + 1)
          (Word64.sub (Word64.add (Word64.mul acc 10) c.toNat) '0'.toNat) true
      else if any then some ⟨acc, i⟩ else none

def parsePatInt (pat : Str) (i stop : Nat) : Option IntParse :=
  parsePatIntLoop (stop - i) pat i 0 false

/-- A quantifier's text with the position behind it; `none` is a malformed repeat. -/
structure QShape where
  quant : String
  after : Nat

def closeRepeat (pat : Str) (lo hi : Int) (afterHi stop : Nat) : Option QShape :=
  if hi < lo then none
  else if afterHi ≥ stop then none
  else if charAtOrZero pat afterHi ≠ '}' then none
  else some ⟨toString lo ++ "," ++ toString hi, afterHi + 1⟩

def parseRepeatHi (pat : Str) (lo : Int) (afterLo stop : Nat) : Option QShape :=
  if afterLo + 1 < stop && charAtOrZero pat (afterLo + 1) = '}' then
    some ⟨toString lo ++ ",", afterLo + 2⟩
  else do
    let hi ← parsePatInt pat (afterLo + 1) stop
    closeRepeat pat lo hi.value hi.after stop

def parseRepeatTail (pat : Str) (lo : Int) (afterLo stop : Nat) : Option QShape :=
  match charAtOrZero pat afterLo with
  | '}' => some ⟨toString lo ++ "," ++ toString lo, afterLo + 1⟩
  | ',' => parseRepeatHi pat lo afterLo stop
  | _ => none

def parseRepeatQuant (pat : Str) (i stop : Nat) : Option QShape := do
  let lo ← parsePatInt pat i stop
  if lo.after ≥ stop then none else parseRepeatTail pat lo.value lo.after stop

def parseQuant (pat : Str) (i stop : Nat) : Option QShape :=
  if i ≥ stop then some ⟨"1", i⟩
  else
    match charAtOrZero pat i with
    | '+' => some ⟨"+", i + 1⟩
    | '*' => some ⟨"*", i + 1⟩
    | '?' => some ⟨"?", i + 1⟩
    | '{' => parseRepeatQuant pat (i + 1) stop
    | _ => some ⟨"1", i⟩

/-- An anchored class: the mask of its atom and its quantifier. -/
structure AnchoredClass where
  mask : Mask
  quant : String

def parseAnchoredClass (pat : Str) : Option AnchoredClass :=
  if pat.length < 2 then none
  else if charAtOrZero pat 0 ≠ '^' then none
  else if charAtOrZero pat (pat.length - 1) ≠ '$' then none
  else do
    let atom ← parseClassAtom pat 1 (pat.length - 1)
    let q ← parseQuant pat atom.after (pat.length - 1)
    if q.after = pat.length - 1 then some ⟨atom.mask, q.quant⟩ else none

def acContains (loose strict : AnchoredClass) : Bool :=
  if loose.quant ≠ strict.quant then false else maskSubset strict.mask loose.mask

/-- Whether every string that `strict` accepts is taken to be accepted by `loose`. -/
def regexPatternContains (loose strict : Str) : Bool :=
  match parseAnchoredClass loose with
  | none => false
  | some la =>
      match parseAnchoredClass strict with
      | none => false
      | some sa => acContains la sa

end Kaikai.RegexEntail
