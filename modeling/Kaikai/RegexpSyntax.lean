import Mathlib.Tactic.Linarith
import Kaikai.Str

/-!
Regex pattern syntax: the AST and its parser. Recursive parsing functions take
fuel; `parsePattern` supplies enough for every pattern.
-/

namespace Kaikai.RegexpSyntax

open Kaikai.Str

structure CharRange where
  lo : Char
  hi : Char
deriving DecidableEq, Repr

inductive Anchor where
  | anchorStart
  | anchorEnd
deriving DecidableEq, Repr

inductive RxAst where
  | rxChar (c : Char)
  | rxAny
  | rxClass (ranges : List CharRange) (negated : Bool)
  | rxAnchor (a : Anchor)
  | rxConcat (xs : List RxAst)
  | rxAlt (xs : List RxAst)
  | rxStar (x : RxAst)
  | rxPlus (x : RxAst)
  | rxOpt (x : RxAst)
  | rxRepeat (x : RxAst) (lo : Int) (hi : Option Int)
  | rxGroup (id : Int) (x : RxAst)

structure RxParseState where
  input : Str
  pos : Nat
  n : Nat
  groupId : Int
deriving DecidableEq

structure RxParseError where
  msg : String
  pos : Nat
deriving DecidableEq

/-- A parse state with the parsed AST, or with an error. -/
structure PRx where
  st : RxParseState
  r : Except RxParseError RxAst

def rxOk (st : RxParseState) (ast : RxAst) : PRx := ⟨st, .ok ast⟩

def rxErr (st : RxParseState) (msg : String) : PRx := ⟨st, .error ⟨msg, st.pos⟩⟩

def rxStateInit (input : Str) : RxParseState := ⟨input, 0, input.length, 0⟩

def rxAtEnd (st : RxParseState) : Bool := st.pos ≥ st.n

/-- `int_to_char(string_cp_at(s, i))`, for `i` inside the string. -/
def rxCpAt (s : Str) (i : Nat) : Char := Char.ofNat ((stringCpAt s i).getD 0)

/-- Byte offset following the codepoint at `i`, which is inside the input. -/
def rxNextPos (s : Str) (i : Nat) : Nat := i + stringCpLen s i

def rxPeek (st : RxParseState) : Option Char :=
  if rxAtEnd st then none else some (rxCpAt st.input st.pos)

def rxPeekAt (st : RxParseState) (off : Nat) : Option Char :=
  if st.pos + off ≥ st.n then none else some (rxCpAt st.input (st.pos + off))

def rxAdvance (st : RxParseState) : RxParseState :=
  { st with pos := rxNextPos st.input st.pos }

def rxAdvanceN (st : RxParseState) (k : Nat) : RxParseState := { st with pos := st.pos + k }

def rxBumpGroup (st : RxParseState) : RxParseState := { st with groupId := st.groupId + 1 }

def rxMaxCost : Int := 1000000

structure RxCostItem where
  node : RxAst
  mult : Int

def rxKids : RxAst → List RxAst
  | .rxConcat xs => xs
  | .rxAlt xs => xs
  | .rxStar x => [x]
  | .rxPlus x => [x]
  | .rxOpt x => [x]
  | .rxGroup _ x => [x]
  | .rxRepeat x _ _ => [x]
  | _ => []

/-- `mult * copies`, saturating just above the limit. -/
def rxScale (mult copies : Int) : Int :=
  if mult * copies > rxMaxCost then rxMaxCost + 1 else mult * copies

/-- A repeat compiles `hi` copies of its child, or `lo + 1` when unbounded. -/
def rxKidMult (a : RxAst) (mult : Int) : Int :=
  match a with
  | .rxRepeat _ _ (some h) => rxScale mult h
  | .rxRepeat _ lo none => rxScale mult (lo + 1)
  | _ => mult

def rxCostPush : List RxAst → Int → List RxCostItem → List RxCostItem
  | [], _, rest => rest
  | x :: more, mult, rest => rxCostPush more mult (⟨x, mult⟩ :: rest)

/-- `rx_cost_loop` with at most `fuel` nodes. -/
def rxCostLoop : Nat → List RxCostItem → Int → Option Int
  | _, [], total => some total
  | 0, _ :: _, _ => none
  | fuel + 1, it :: rest, total =>
      if total > rxMaxCost then some total
      else rxCostLoop fuel (rxCostPush (rxKids it.node) (rxKidMult it.node it.mult) rest)
        (total + it.mult)

mutual

/-- The number of nodes of an AST. -/
def RxAst.size : RxAst → Nat
  | .rxConcat xs => RxAst.sizeList xs + 1
  | .rxAlt xs => RxAst.sizeList xs + 1
  | .rxStar x => x.size + 1
  | .rxPlus x => x.size + 1
  | .rxOpt x => x.size + 1
  | .rxRepeat x _ _ => x.size + 1
  | .rxGroup _ x => x.size + 1
  | _ => 1

def RxAst.sizeList : List RxAst → Nat
  | [] => 0
  | x :: xs => x.size + RxAst.sizeList xs

end

/-- The number of nodes `a` expands to, exact below the limit. -/
def astCost (a : RxAst) : Option Int := rxCostLoop a.size [⟨a, 1⟩] 0

structure RxFrame where
  gid : Int
  noncap : Bool
  alts : List RxAst
  items : List RxAst

def rxAltOf : List RxAst → RxAst
  | [a] => a
  | alts => .rxAlt alts.reverse

def rxConcatOf : List RxAst → RxAst
  | [x] => x
  | items => .rxConcat items.reverse

def rxMaxRepeat : Int := 1000

def rxRepeatTooBig (st : RxParseState) : PRx := rxErr st "repeat count exceeds 1000"

def isDigit (c : Char) : Bool := c ≥ '0' && c ≤ '9'

structure RxIntParse where
  st : RxParseState
  rInt : Option Int

def rxIntDone (st : RxParseState) (acc : Int) (any : Bool) : RxIntParse :=
  ⟨st, if any then some acc else none⟩

/-- `rx_parse_int_loop` with at most `fuel` digits. -/
def rxParseIntLoop : Nat → RxParseState → Int → Bool → Option RxIntParse
  | 0, _, _, _ => none
  | fuel + 1, st, acc, any =>
      match rxPeek st with
      | some c =>
          if isDigit c then
            let d : Int := (c.toNat : Int) - ('0'.toNat : Int)
            rxParseIntLoop fuel (rxAdvance st)
              (if acc > rxMaxRepeat then acc else acc * 10 + d) true
          else some (rxIntDone st acc any)
      | none => some (rxIntDone st acc any)

/-- A base-10 integer of one or more digits, saturating above the repeat limit. -/
def rxParseInt (st : RxParseState) : Option RxIntParse :=
  rxParseIntLoop (st.n - st.pos + 1) st 0 false

/-- After `{lo,`: a closing brace or an upper bound. -/
def rxParseRepeatUpper (st : RxParseState) (p : RxAst) (lo : Int) : Option PRx :=
  match rxPeek st with
  | none => some (rxErr st "unterminated `\x7b`")
  | some '}' => some (rxOk (rxAdvance st) (.rxRepeat p lo none))
  | some _ => do
      let rh ← rxParseInt st
      match rh.rInt with
      | none => some (rxErr rh.st "expected count or `\x7d` after `,`")
      | some hi =>
          if hi > rxMaxRepeat then some (rxRepeatTooBig rh.st)
          else if hi < lo then some (rxErr rh.st "repeat count \x7bn,m\x7d: m < n")
          else match rxPeek rh.st with
            | some '}' => some (rxOk (rxAdvance rh.st) (.rxRepeat p lo (some hi)))
            | _ => some (rxErr rh.st "expected `\x7d` to close repeat")

/-- After `{lo`: a closing brace, or a comma and an optional upper bound. -/
def rxParseRepeatTail (st : RxParseState) (p : RxAst) (lo : Int) : Option PRx :=
  match rxPeek st with
  | none => some (rxErr st "unterminated `\x7b`")
  | some '}' => some (rxOk (rxAdvance st) (.rxRepeat p lo (some lo)))
  | some ',' => rxParseRepeatUpper (rxAdvance st) p lo
  | some _ => some (rxErr st "expected `,` or `\x7d` after count")

def rxParseRepeat (st : RxParseState) (p : RxAst) : Option PRx := do
  let rn ← rxParseInt st
  match rn.rInt with
  | none => some (rxErr rn.st "expected count after `\x7b`")
  | some lo =>
      if lo > rxMaxRepeat then some (rxRepeatTooBig rn.st)
      else rxParseRepeatTail rn.st p lo

def rxApplyQuantifier (st : RxParseState) (p : RxAst) : Option PRx :=
  match rxPeek st with
  | some '*' => some (rxOk (rxAdvance st) (.rxStar p))
  | some '+' => some (rxOk (rxAdvance st) (.rxPlus p))
  | some '?' => some (rxOk (rxAdvance st) (.rxOpt p))
  | some '{' => rxParseRepeat (rxAdvance st) p
  | _ => some (rxOk st p)

def rxIsMeta (c : Char) : Bool :=
  match c with
  | '*' => true
  | '+' => true
  | '?' => true
  | '{' => true
  | '}' => true
  | ']' => true
  | _ => false

structure RxCharParse where
  st : RxParseState
  rChar : Option Char

structure RxRangeParse where
  st : RxParseState
  rRange : Option CharRange

def rxEscapeChar (c : Char) : Char :=
  match c with
  | 'n' => '\n'
  | 't' => '\t'
  | 'r' => '\r'
  | _ => c

/-- Inside a class an escape resolves to a single char: `[\d]` is the literal `d`. -/
def rxParseEscapeChar (st : RxParseState) : RxCharParse :=
  match rxPeek st with
  | none => ⟨st, none⟩
  | some c => ⟨rxAdvance st, some (rxEscapeChar c)⟩

def rxClassChar (st : RxParseState) : RxCharParse :=
  match rxPeek st with
  | none => ⟨st, none⟩
  | some '\\' => rxParseEscapeChar (rxAdvance st)
  | some c => ⟨rxAdvance st, some c⟩

def rxClassRangeHi (st : RxParseState) (lo : Char) : RxRangeParse :=
  let last := rxClassChar st
  match last.rChar with
  | none => ⟨last.st, none⟩
  | some hi => if hi.toNat < lo.toNat then ⟨last.st, none⟩ else ⟨last.st, some ⟨lo, hi⟩⟩

def rxClassRangeTail (st : RxParseState) (lo : Char) : RxRangeParse :=
  match rxPeek st with
  | some '-' =>
      match rxPeekAt st 1 with
      | some ']' => ⟨st, some ⟨lo, lo⟩⟩
      | some _ => rxClassRangeHi (rxAdvance st) lo
      | none => ⟨st, none⟩
  | _ => ⟨st, some ⟨lo, lo⟩⟩

/-- A single char, or a range (a trailing `-` before `]` is a literal). -/
def rxParseClassAtom (st : RxParseState) : RxRangeParse :=
  let first := rxClassChar st
  match first.rChar with
  | none => ⟨first.st, none⟩
  | some lo => rxClassRangeTail first.st lo

/-- `rx_parse_class_loop` with at most `fuel` members. -/
def rxParseClassLoop : Nat → RxParseState → List CharRange → Bool → Option PRx
  | 0, _, _, _ => none
  | fuel + 1, st, acc, neg =>
      match rxPeek st with
      | none => some (rxErr st "unterminated character class")
      | some ']' =>
          if acc.isEmpty then some (rxErr st "empty character class")
          else some (rxOk (rxAdvance st) (.rxClass acc.reverse neg))
      | some _ =>
          let r := rxParseClassAtom st
          match r.rRange with
          | none => some (rxErr r.st "malformed character class")
          | some rng => rxParseClassLoop fuel r.st (rng :: acc) neg

/-- After `[`: an optional `^`, then class members until `]`. -/
def rxParseClass (st : RxParseState) : Option PRx :=
  let neg := rxPeek st = some '^'
  let st1 := if neg then rxAdvance st else st
  rxParseClassLoop (st1.n - st1.pos + 1) st1 [] neg

def rxWordRanges : List CharRange := [⟨'A', 'Z'⟩, ⟨'a', 'z'⟩, ⟨'0', '9'⟩, ⟨'_', '_'⟩]

def rxSpaceRanges : List CharRange := [⟨' ', ' '⟩, ⟨'\t', '\t'⟩, ⟨'\n', '\n'⟩, ⟨'\r', '\r'⟩]

def rxEscapeAst (c : Char) : RxAst :=
  match c with
  | 'd' => .rxClass [⟨'0', '9'⟩] false
  | 'D' => .rxClass [⟨'0', '9'⟩] true
  | 'w' => .rxClass rxWordRanges false
  | 'W' => .rxClass rxWordRanges true
  | 's' => .rxClass rxSpaceRanges false
  | 'S' => .rxClass rxSpaceRanges true
  | _ => .rxChar (rxEscapeChar c)

def rxParseEscape (st : RxParseState) : PRx :=
  match rxPeek st with
  | none => rxErr st "trailing backslash"
  | some c => rxOk (rxAdvance st) (rxEscapeAst c)

def rxParsePrimary (st : RxParseState) : Option PRx :=
  match rxPeek st with
  | none => some (rxErr st "unexpected end of pattern")
  | some '[' => rxParseClass (rxAdvance st)
  | some '.' => some (rxOk (rxAdvance st) .rxAny)
  | some '^' => some (rxOk (rxAdvance st) (.rxAnchor .anchorStart))
  | some '$' => some (rxOk (rxAdvance st) (.rxAnchor .anchorEnd))
  | some '\\' => some (rxParseEscape (rxAdvance st))
  | some c =>
      if rxIsMeta c then some (rxErr st "unexpected metacharacter in primary position")
      else some (rxOk (rxAdvance st) (.rxChar c))

def rxParseAtom (st : RxParseState) : Option PRx := do
  let r ← rxParsePrimary st
  match r.r with
  | .error _ => some r
  | .ok p => rxApplyQuantifier r.st p

/-- Whether the group just opened is a non-capturing one, `(?:`. -/
def rxNoncap (st1 : RxParseState) : Bool :=
  match rxPeek st1 with
  | some '?' => rxPeekAt st1 1 = some ':'
  | _ => false

/-- The driver for alternation, concatenation and groups, with at most `fuel` steps. -/
def rxParseLoop : Nat → RxParseState → List RxFrame → List RxAst → List RxAst → Option PRx
  | 0, _, _, _, _ => none
  | fuel + 1, st, stack, alts, items =>
      match rxPeek st with
      | some '|' => rxParseLoop fuel (rxAdvance st) stack (rxConcatOf items :: alts) []
      | some ')' =>
          match stack with
          | [] => some (rxOk st (rxAltOf (rxConcatOf items :: alts)))
          | fr :: outer => do
              let inner := rxAltOf (rxConcatOf items :: alts)
              let grouped := if fr.noncap then inner else .rxGroup fr.gid inner
              let r ← rxApplyQuantifier (rxAdvance st) grouped
              match r.r with
              | .error _ => some r
              | .ok at_ => rxParseLoop fuel r.st outer fr.alts (at_ :: fr.items)
      | none =>
          match stack with
          | [] => some (rxOk st (rxAltOf (rxConcatOf items :: alts)))
          | _ :: _ => some (rxErr st "expected `)` to close group")
      | some '(' =>
          let st1 := rxAdvance st
          let noncap := rxNoncap st1
          let st2 := if noncap then rxAdvanceN st1 2 else rxBumpGroup st1
          rxParseLoop fuel st2 (⟨st2.groupId, noncap, alts, items⟩ :: stack) [] []
      | some _ => do
          let r ← rxParseAtom st
          match r.r with
          | .error _ => some r
          | .ok at_ => rxParseLoop fuel r.st stack alts (at_ :: items)

def rxParseAlt (st : RxParseState) : Option PRx := rxParseLoop (st.n - st.pos + 1) st [] [] []

/-- Parses a pattern; the outer `none` would be a parser that does not return. -/
def parsePattern (pattern : Str) : Option (Except RxParseError RxAst) := do
  let r ← rxParseAlt (rxStateInit pattern)
  match r.r with
  | .error e => some (.error e)
  | .ok ast =>
      if !rxAtEnd r.st then some (.error ⟨"trailing characters after regex", r.st.pos⟩)
      else do
        let cost ← astCost ast
        if cost > rxMaxCost then
          some (.error ⟨"pattern too large: more than 1000000 nodes after repeats",
            pattern.length⟩)
        else some (.ok ast)

/-- What the parser guarantees of an AST: repeat bounds are in order and capture
groups are numbered from one. -/
inductive Parsed : RxAst → Prop where
  | rxChar (c : Char) : Parsed (.rxChar c)
  | rxAny : Parsed .rxAny
  | rxClass (ranges : List CharRange) (negated : Bool) : Parsed (.rxClass ranges negated)
  | rxAnchor (a : Anchor) : Parsed (.rxAnchor a)
  | rxConcat {xs : List RxAst} : (∀ x ∈ xs, Parsed x) → Parsed (.rxConcat xs)
  | rxAlt {xs : List RxAst} : (∀ x ∈ xs, Parsed x) → Parsed (.rxAlt xs)
  | rxStar {x : RxAst} : Parsed x → Parsed (.rxStar x)
  | rxPlus {x : RxAst} : Parsed x → Parsed (.rxPlus x)
  | rxOpt {x : RxAst} : Parsed x → Parsed (.rxOpt x)
  | rxRepeat {x : RxAst} {lo : Int} {hi : Option Int} : Parsed x → 0 ≤ lo → lo ≤ rxMaxRepeat →
      (∀ h ∈ hi, lo ≤ h ∧ h ≤ rxMaxRepeat) → Parsed (.rxRepeat x lo hi)
  | rxGroup {id : Int} {x : RxAst} : 1 ≤ id → Parsed x → Parsed (.rxGroup id x)

/-- A state further on in the same pattern. -/
structure Ahead (st st' : RxParseState) : Prop where
  input_eq : st'.input = st.input
  n_eq : st'.n = st.n
  pos_le : st.pos ≤ st'.pos
  groupId_le : st.groupId ≤ st'.groupId

/-- A state over a whole pattern. -/
def Whole (st : RxParseState) : Prop := st.n = st.input.length ∧ 0 ≤ st.groupId

theorem Ahead.refl (st : RxParseState) : Ahead st st := ⟨rfl, rfl, le_rfl, le_rfl⟩

theorem Ahead.trans {st st' st'' : RxParseState} (h : Ahead st st') (h' : Ahead st' st'') :
    Ahead st st'' :=
  ⟨h'.input_eq.trans h.input_eq, h'.n_eq.trans h.n_eq, h.pos_le.trans h'.pos_le,
    h.groupId_le.trans h'.groupId_le⟩

theorem Ahead.whole {st st' : RxParseState} (h : Ahead st st') (hst : Whole st) : Whole st' :=
  ⟨by rw [h.n_eq, h.input_eq, hst.1], hst.2.trans h.groupId_le⟩

theorem ahead_rxAdvance (st : RxParseState) : Ahead st (rxAdvance st) :=
  ⟨rfl, rfl, Nat.le_add_right _ _, le_rfl⟩

theorem rxPeek_lt {st : RxParseState} {c : Char} (h : rxPeek st = some c) : st.pos < st.n := by
  unfold rxPeek rxAtEnd at h
  by_contra hge
  rw [if_pos (by simpa using hge)] at h
  cases h

theorem rxAdvance_lt {st : RxParseState} (hst : Whole st) (hlt : st.pos < st.n) :
    st.pos < (rxAdvance st).pos := by
  have hlen := stringCpLen_eq_zero_iff st.input st.pos
  change st.pos < st.pos + stringCpLen st.input st.pos
  rw [hst.1] at hlt
  omega

/-- A step that returns, and whose AST is parsed and state ahead when it succeeds. -/
def Steps (st : RxParseState) (m : Option PRx) : Prop :=
  ∃ r, m = some r ∧ Ahead st r.st ∧ ∀ a, r.r = .ok a → Parsed a

theorem steps_ok {st st' : RxParseState} {a : RxAst} (h : Ahead st st') (ha : Parsed a) :
    Steps st (some (rxOk st' a)) :=
  ⟨_, rfl, h, fun b hb => by cases hb; exact ha⟩

theorem steps_err {st st' : RxParseState} {msg : String} (h : Ahead st st') :
    Steps st (some (rxErr st' msg)) :=
  ⟨_, rfl, h, fun b hb => by cases hb⟩

theorem Steps.ahead {st st' : RxParseState} {m : Option PRx} (h : Ahead st st')
    (hm : Steps st' m) : Steps st m := by
  obtain ⟨r, hr, hahead, hparsed⟩ := hm
  exact ⟨r, hr, h.trans hahead, hparsed⟩

theorem isDigit_bounds {c : Char} (h : isDigit c = true) :
    0 ≤ (c.toNat : Int) - ('0'.toNat : Int) := by
  unfold isDigit at h
  rw [Bool.and_eq_true, decide_eq_true_eq] at h
  have hle : ('0' : Char).toNat ≤ c.toNat := h.1
  omega

theorem rxParseIntLoop_spec (fuel : Nat) : ∀ st acc any, Whole st → st.n - st.pos < fuel →
    0 ≤ acc → ∃ r, rxParseIntLoop fuel st acc any = some r ∧ Ahead st r.st ∧
      ∀ v, r.rInt = some v → 0 ≤ v := by
  induction fuel with
  | zero => omega
  | succ fuel ih =>
      intro st acc any hst hfuel hacc
      have hdone : ∀ v, (rxIntDone st acc any).rInt = some v → 0 ≤ v := by
        intro v hv
        unfold rxIntDone at hv
        cases any with
        | false => cases hv
        | true => cases hv; exact hacc
      rw [rxParseIntLoop]
      cases hpeek : rxPeek st with
      | none => exact ⟨_, rfl, Ahead.refl st, hdone⟩
      | some c =>
          simp only
          by_cases hdigit : isDigit c = true
          · rw [if_pos hdigit]
            have hd := isDigit_bounds hdigit
            have hlt := rxAdvance_lt hst (rxPeek_lt hpeek)
            have hacc' : 0 ≤ if acc > rxMaxRepeat then acc
                else acc * 10 + ((c.toNat : Int) - ('0'.toNat : Int)) := by
              split <;> omega
            obtain ⟨r, hr, hahead, hv⟩ := ih (rxAdvance st) _ true
              ((ahead_rxAdvance st).whole hst)
              (by have := rxPeek_lt hpeek; change st.n - (rxAdvance st).pos < fuel; omega) hacc'
            exact ⟨r, hr, (ahead_rxAdvance st).trans hahead, hv⟩
          · rw [if_neg hdigit]
            exact ⟨_, rfl, Ahead.refl st, hdone⟩

theorem rxParseInt_spec {st : RxParseState} (hst : Whole st) :
    ∃ r, rxParseInt st = some r ∧ Ahead st r.st ∧ ∀ v, r.rInt = some v → 0 ≤ v :=
  rxParseIntLoop_spec _ st 0 false hst (Nat.lt_succ_self _) le_rfl

theorem rxParseRepeatUpper_steps {st : RxParseState} {p : RxAst} {lo : Int} (hst : Whole st)
    (hp : Parsed p) (hlo : 0 ≤ lo) (hlo' : lo ≤ rxMaxRepeat) :
    Steps st (rxParseRepeatUpper st p lo) := by
  unfold rxParseRepeatUpper
  split
  · exact steps_err (Ahead.refl st)
  · exact steps_ok (ahead_rxAdvance st) (.rxRepeat hp hlo hlo' (by simp))
  · obtain ⟨rh, hrh, hahead, hv⟩ := rxParseInt_spec hst
    rw [hrh, Option.bind_eq_bind, Option.bind_some]
    split
    · exact steps_err hahead
    · next hi hhi =>
        split
        · exact steps_err hahead
        · next hmax =>
            split
            · exact steps_err hahead
            · next hle =>
                split
                · refine steps_ok (hahead.trans (ahead_rxAdvance _)) (.rxRepeat hp hlo hlo' ?_)
                  intro h hh
                  cases hh
                  exact ⟨not_lt.1 hle, not_lt.1 hmax⟩
                · exact steps_err hahead

theorem rxParseRepeatTail_steps {st : RxParseState} {p : RxAst} {lo : Int} (hst : Whole st)
    (hp : Parsed p) (hlo : 0 ≤ lo) (hlo' : lo ≤ rxMaxRepeat) :
    Steps st (rxParseRepeatTail st p lo) := by
  unfold rxParseRepeatTail
  split
  · exact steps_err (Ahead.refl st)
  · refine steps_ok (ahead_rxAdvance st) (.rxRepeat hp hlo hlo' ?_)
    intro h hh
    cases hh
    exact ⟨le_rfl, hlo'⟩
  · exact Steps.ahead (ahead_rxAdvance st)
      (rxParseRepeatUpper_steps ((ahead_rxAdvance st).whole hst) hp hlo hlo')
  · exact steps_err (Ahead.refl st)

theorem rxParseRepeat_steps {st : RxParseState} {p : RxAst} (hst : Whole st) (hp : Parsed p) :
    Steps st (rxParseRepeat st p) := by
  obtain ⟨rn, hrn, hahead, hv⟩ := rxParseInt_spec hst
  unfold rxParseRepeat
  rw [hrn, Option.bind_eq_bind, Option.bind_some]
  split
  · exact steps_err hahead
  · next lo hlo =>
      split
      · exact steps_err hahead
      · next hmax =>
          exact Steps.ahead hahead
            (rxParseRepeatTail_steps (hahead.whole hst) hp (hv lo hlo) (not_lt.1 hmax))

theorem rxApplyQuantifier_steps {st : RxParseState} {p : RxAst} (hst : Whole st)
    (hp : Parsed p) : Steps st (rxApplyQuantifier st p) := by
  unfold rxApplyQuantifier
  split
  · exact steps_ok (ahead_rxAdvance st) (.rxStar hp)
  · exact steps_ok (ahead_rxAdvance st) (.rxPlus hp)
  · exact steps_ok (ahead_rxAdvance st) (.rxOpt hp)
  · exact Steps.ahead (ahead_rxAdvance st)
      (rxParseRepeat_steps ((ahead_rxAdvance st).whole hst) hp)
  · exact steps_ok (Ahead.refl st) hp

theorem ahead_rxParseEscapeChar (st : RxParseState) : Ahead st (rxParseEscapeChar st).st := by
  unfold rxParseEscapeChar
  split
  · exact Ahead.refl st
  · exact ahead_rxAdvance st

theorem ahead_rxClassChar (st : RxParseState) : Ahead st (rxClassChar st).st := by
  unfold rxClassChar
  split
  · exact Ahead.refl st
  · exact (ahead_rxAdvance st).trans (ahead_rxParseEscapeChar _)
  · exact ahead_rxAdvance st

theorem ahead_rxClassRangeHi (st : RxParseState) (lo : Char) :
    Ahead st (rxClassRangeHi st lo).st := by
  unfold rxClassRangeHi
  simp only
  split
  · exact ahead_rxClassChar st
  · split <;> exact ahead_rxClassChar st

theorem ahead_rxClassRangeTail (st : RxParseState) (lo : Char) :
    Ahead st (rxClassRangeTail st lo).st := by
  unfold rxClassRangeTail
  split
  · split
    · exact Ahead.refl st
    · exact (ahead_rxAdvance st).trans (ahead_rxClassRangeHi _ lo)
    · exact Ahead.refl st
  · exact Ahead.refl st

theorem rxParseClassAtom_lt {st : RxParseState} (hst : Whole st) (hlt : st.pos < st.n) :
    Ahead st (rxParseClassAtom st).st ∧
      ((rxParseClassAtom st).rRange ≠ none → st.pos < (rxParseClassAtom st).st.pos) := by
  have hchar : Ahead st (rxClassChar st).st ∧
      ((rxClassChar st).rChar ≠ none → st.pos < (rxClassChar st).st.pos) := by
    refine ⟨ahead_rxClassChar st, ?_⟩
    have hadv := rxAdvance_lt hst hlt
    unfold rxClassChar
    split
    · exact fun h => absurd rfl h
    · exact fun _ => hadv.trans_le (ahead_rxParseEscapeChar (rxAdvance st)).pos_le
    · exact fun _ => hadv
  unfold rxParseClassAtom
  simp only
  split
  · exact ⟨hchar.1, fun h => absurd rfl h⟩
  · next lo hlo =>
      have htail := ahead_rxClassRangeTail (rxClassChar st).st lo
      refine ⟨hchar.1.trans htail, fun _ => ?_⟩
      exact (hchar.2 (by rw [hlo]; simp)).trans_le htail.pos_le

theorem rxParseClassLoop_steps (fuel : Nat) : ∀ st acc neg, Whole st → st.n - st.pos < fuel →
    Steps st (rxParseClassLoop fuel st acc neg) := by
  induction fuel with
  | zero => omega
  | succ fuel ih =>
      intro st acc neg hst hfuel
      rw [rxParseClassLoop]
      split
      · exact steps_err (Ahead.refl st)
      · split
        · exact steps_err (Ahead.refl st)
        · exact steps_ok (ahead_rxAdvance st) (.rxClass _ _)
      · next c _ hpeek =>
          obtain ⟨hahead, hlt⟩ := rxParseClassAtom_lt hst (rxPeek_lt hpeek)
          simp only
          split
          · exact steps_err hahead
          · next rng hrng =>
              have hpos := hlt (by rw [hrng]; simp)
              have hn := rxPeek_lt hpeek
              exact Steps.ahead hahead (ih _ _ neg (hahead.whole hst) (by rw [hahead.n_eq]; omega))

theorem rxParseClass_steps {st : RxParseState} (hst : Whole st) : Steps st (rxParseClass st) := by
  have hahead : Ahead st (if rxPeek st = some '^' then rxAdvance st else st) := by
    split
    · exact ahead_rxAdvance st
    · exact Ahead.refl st
  unfold rxParseClass
  simp only
  exact Steps.ahead hahead (rxParseClassLoop_steps _ _ _ _ (hahead.whole hst) (Nat.lt_succ_self _))

theorem parsed_rxEscapeAst (c : Char) : Parsed (rxEscapeAst c) := by
  unfold rxEscapeAst
  split
  case h_7 => exact .rxChar _
  all_goals exact .rxClass _ _

theorem rxParseEscape_steps (st : RxParseState) : Steps st (some (rxParseEscape st)) := by
  unfold rxParseEscape
  split
  · exact steps_err (Ahead.refl st)
  · exact steps_ok (ahead_rxAdvance st) (parsed_rxEscapeAst _)

/-- An atom takes at least one character when it succeeds. -/
def StepsPast (st : RxParseState) (m : Option PRx) : Prop :=
  ∃ r, m = some r ∧ Ahead st r.st ∧ ∀ a, r.r = .ok a → Parsed a ∧ st.pos < r.st.pos

theorem Steps.past {st st' : RxParseState} {m : Option PRx} (h : Ahead st st')
    (hlt : st.pos < st'.pos) (hm : Steps st' m) : StepsPast st m := by
  obtain ⟨r, hr, hahead, hparsed⟩ := hm
  exact ⟨r, hr, h.trans hahead, fun a ha => ⟨hparsed a ha, hlt.trans_le hahead.pos_le⟩⟩

theorem rxParsePrimary_stepsPast {st : RxParseState} (hst : Whole st) :
    StepsPast st (rxParsePrimary st) := by
  have herr : ∀ msg, StepsPast st (some (rxErr st msg)) := fun msg =>
    ⟨_, rfl, Ahead.refl st, fun a ha => by cases ha⟩
  unfold rxParsePrimary
  cases hpeek : rxPeek st with
  | none => exact herr _
  | some c =>
      have hadv := ahead_rxAdvance st
      have hlt := rxAdvance_lt hst (rxPeek_lt hpeek)
      split
      · exact herr _
      · exact Steps.past hadv hlt (rxParseClass_steps (hadv.whole hst))
      · exact Steps.past hadv hlt (steps_ok (Ahead.refl _) .rxAny)
      · exact Steps.past hadv hlt (steps_ok (Ahead.refl _) (.rxAnchor _))
      · exact Steps.past hadv hlt (steps_ok (Ahead.refl _) (.rxAnchor _))
      · exact Steps.past hadv hlt (rxParseEscape_steps _)
      · split
        · exact herr _
        · exact Steps.past hadv hlt (steps_ok (Ahead.refl _) (.rxChar _))

theorem rxParseAtom_stepsPast {st : RxParseState} (hst : Whole st) :
    StepsPast st (rxParseAtom st) := by
  obtain ⟨r, hr, hahead, hparsed⟩ := rxParsePrimary_stepsPast hst
  unfold rxParseAtom
  rw [hr, Option.bind_eq_bind, Option.bind_some]
  split
  · exact ⟨r, rfl, hahead, hparsed⟩
  · next p hp =>
      obtain ⟨hpp, hlt⟩ := hparsed p hp
      exact Steps.past hahead hlt (rxApplyQuantifier_steps (hahead.whole hst) hpp)

theorem parsed_rxAltOf {alts : List RxAst} (h : ∀ a ∈ alts, Parsed a) : Parsed (rxAltOf alts) := by
  unfold rxAltOf
  split
  · exact h _ List.mem_cons_self
  · exact .rxAlt fun x hx => h x (List.mem_reverse.1 hx)

theorem parsed_rxConcatOf {items : List RxAst} (h : ∀ a ∈ items, Parsed a) :
    Parsed (rxConcatOf items) := by
  unfold rxConcatOf
  split
  · exact h _ List.mem_cons_self
  · exact .rxConcat fun x hx => h x (List.mem_reverse.1 hx)

/-- The parts of the levels still open, each already parsed. -/
def FramesOk (stack : List RxFrame) : Prop :=
  ∀ fr ∈ stack, (fr.noncap = false → 1 ≤ fr.gid) ∧ (∀ a ∈ fr.alts, Parsed a) ∧
    ∀ a ∈ fr.items, Parsed a

theorem forall_mem_cons_parsed {a : RxAst} {as : List RxAst} (ha : Parsed a)
    (has : ∀ x ∈ as, Parsed x) : ∀ x ∈ a :: as, Parsed x := by
  intro x hx
  rcases List.mem_cons.1 hx with rfl | hx
  · exact ha
  · exact has x hx

theorem rxParseLoop_steps (fuel : Nat) : ∀ st stack alts items, Whole st →
    st.n - st.pos < fuel → FramesOk stack → (∀ a ∈ alts, Parsed a) → (∀ a ∈ items, Parsed a) →
    Steps st (rxParseLoop fuel st stack alts items) := by
  induction fuel with
  | zero => omega
  | succ fuel ih =>
      intro st stack alts items hst hfuel hstack halts hitems
      have hlevel : ∀ a ∈ rxConcatOf items :: alts, Parsed a :=
        forall_mem_cons_parsed (parsed_rxConcatOf hitems) halts
      have hadv := ahead_rxAdvance st
      rw [rxParseLoop.eq_def]
      simp only
      split
      · next hpeek =>
          have hlt := rxAdvance_lt hst (rxPeek_lt hpeek)
          exact Steps.ahead hadv (ih _ _ _ _ (hadv.whole hst)
            (by have := rxPeek_lt hpeek; change st.n - (rxAdvance st).pos < fuel; omega)
            hstack hlevel (by simp))
      · next hpeek =>
          have hlt := rxAdvance_lt hst (rxPeek_lt hpeek)
          have hn := rxPeek_lt hpeek
          cases stack with
          | nil => exact steps_ok (Ahead.refl st) (parsed_rxAltOf hlevel)
          | cons fr outer =>
              obtain ⟨hgid, hfralts, hfritems⟩ := hstack fr List.mem_cons_self
              have hgrouped : Parsed (if fr.noncap = true then rxAltOf (rxConcatOf items :: alts)
                  else .rxGroup fr.gid (rxAltOf (rxConcatOf items :: alts))) := by
                split
                · exact parsed_rxAltOf hlevel
                · next hcap =>
                    exact .rxGroup (hgid (by simpa using hcap)) (parsed_rxAltOf hlevel)
              obtain ⟨r, hr, hahead, hparsed⟩ := rxApplyQuantifier_steps (hadv.whole hst) hgrouped
              simp only [hr, Option.bind_eq_bind, Option.bind_some]
              split
              · exact ⟨r, rfl, hadv.trans hahead, hparsed⟩
              · next a ha =>
                  have hpos := hahead.pos_le
                  exact Steps.ahead (hadv.trans hahead)
                    (ih _ _ _ _ ((hadv.trans hahead).whole hst)
                      (by rw [(hadv.trans hahead).n_eq]; omega)
                      (fun f hf => hstack f (List.mem_cons_of_mem fr hf)) hfralts
                      (forall_mem_cons_parsed (hparsed a ha) hfritems))
      · cases stack with
        | nil => exact steps_ok (Ahead.refl st) (parsed_rxAltOf hlevel)
        | cons fr outer => exact steps_err (Ahead.refl st)
      · next hpeek =>
          have hlt := rxAdvance_lt hst (rxPeek_lt hpeek)
          have hn := rxPeek_lt hpeek
          have hopen : Ahead (rxAdvance st)
              (if rxNoncap (rxAdvance st) = true then rxAdvanceN (rxAdvance st) 2
                else rxBumpGroup (rxAdvance st)) := by
            split
            · exact ⟨rfl, rfl, Nat.le_add_right _ _, le_rfl⟩
            · exact ⟨rfl, rfl, le_rfl, by change st.groupId ≤ st.groupId + 1; omega⟩
          have hopen' := hadv.trans hopen
          refine Steps.ahead hopen' (ih _ _ _ _ (hopen'.whole hst) ?_ ?_ (by simp) (by simp))
          · have := hopen.pos_le
            rw [hopen'.n_eq]
            omega
          · intro f hf
            rcases List.mem_cons.1 hf with rfl | hf
            · refine ⟨fun hcap => ?_, halts, hitems⟩
              simp only at hcap ⊢
              rw [hcap]
              have := hst.2
              change 1 ≤ st.groupId + 1
              omega
            · exact hstack f hf
      · next c _ _ _ hpeek =>
          have hn := rxPeek_lt hpeek
          obtain ⟨r, hr, hahead, hparsed⟩ := rxParseAtom_stepsPast hst
          simp only [hr, Option.bind_eq_bind, Option.bind_some]
          split
          · exact ⟨r, rfl, hahead, fun a ha => (hparsed a ha).1⟩
          · next a ha =>
              obtain ⟨hpa, hlt⟩ := hparsed a ha
              exact Steps.ahead hahead (ih _ _ _ _ (hahead.whole hst)
                (by rw [hahead.n_eq]; omega) hstack halts (forall_mem_cons_parsed hpa hitems))

theorem rxCostPush_eq (xs : List RxAst) (mult : Int) :
    ∀ rest, rxCostPush xs mult rest = (xs.map fun x => ⟨x, mult⟩).reverse ++ rest := by
  induction xs with
  | nil => exact fun _ => rfl
  | cons x xs ih => intro rest; simp [rxCostPush, ih]

/-- The nodes still to count. -/
def pendingSize (work : List RxCostItem) : Nat := RxAst.sizeList (work.map RxCostItem.node)

theorem sizeList_append (xs ys : List RxAst) :
    RxAst.sizeList (xs ++ ys) = RxAst.sizeList xs + RxAst.sizeList ys := by
  induction xs with
  | nil => simp [RxAst.sizeList]
  | cons x xs ih => simp [RxAst.sizeList, ih, Nat.add_assoc]

theorem sizeList_reverse (xs : List RxAst) :
    RxAst.sizeList xs.reverse = RxAst.sizeList xs := by
  induction xs with
  | nil => rfl
  | cons x xs ih => simp [sizeList_append, RxAst.sizeList, ih, Nat.add_comm]

theorem size_eq_kids (a : RxAst) : a.size = RxAst.sizeList (rxKids a) + 1 := by
  cases a <;> simp [RxAst.size, rxKids, RxAst.sizeList]

theorem rxCostLoop_terminates (fuel : Nat) : ∀ work total, pendingSize work ≤ fuel →
    ∃ cost, rxCostLoop fuel work total = some cost := by
  induction fuel with
  | zero =>
      intro work total hsize
      cases work with
      | nil => exact ⟨total, by rw [rxCostLoop]⟩
      | cons it rest =>
          have := size_eq_kids it.node
          simp only [pendingSize, List.map_cons, RxAst.sizeList] at hsize
          omega
  | succ fuel ih =>
      intro work total hsize
      cases work with
      | nil => exact ⟨total, by rw [rxCostLoop]⟩
      | cons it rest =>
          rw [rxCostLoop]
          split
          · exact ⟨total, rfl⟩
          · refine ih _ _ ?_
            have hkids := size_eq_kids it.node
            simp only [pendingSize, List.map_cons, RxAst.sizeList] at hsize
            rw [pendingSize, rxCostPush_eq, List.map_append, sizeList_append, List.map_reverse,
              sizeList_reverse, List.map_map]
            have hmap : (RxCostItem.node ∘ fun x => (⟨x, rxKidMult it.node it.mult⟩ : RxCostItem)) =
                id := rfl
            rw [hmap, List.map_id]
            omega

theorem parsePattern_spec (pattern : Str) :
    ∃ r, parsePattern pattern = some r ∧ ∀ a, r = .ok a → Parsed a := by
  obtain ⟨r, hr, hahead, hparsed⟩ := rxParseLoop_steps _ (rxStateInit pattern) [] [] []
    ⟨rfl, le_rfl⟩ (Nat.lt_succ_self _) (fun _ h => absurd h List.not_mem_nil) (by simp) (by simp)
  unfold parsePattern rxParseAlt
  rw [hr, Option.bind_eq_bind, Option.bind_some]
  split
  · exact ⟨_, rfl, fun a ha => by cases ha⟩
  · next ast hast =>
      split
      · exact ⟨_, rfl, fun a ha => by cases ha⟩
      · obtain ⟨cost, hcost⟩ := rxCostLoop_terminates ast.size [⟨ast, 1⟩] 0
          (by simp [pendingSize, RxAst.sizeList])
        rw [astCost, hcost, Option.bind_eq_bind, Option.bind_some]
        split
        · exact ⟨_, rfl, fun a ha => by cases ha⟩
        · exact ⟨_, rfl, fun a ha => by cases ha; exact hparsed ast hast⟩

end Kaikai.RegexpSyntax
