import Kaikai.IntLiteral
import Kaikai.UnitValue

/-!
Unit expressions as text. The formatter writes no parentheses, and the parser reads the operators
from the left, all of one precedence, and a power on the factor in front of it. Which expressions
keep their meaning.
-/

namespace Kaikai.UnitText

open Kaikai.Str
open Kaikai.Units (UnitExprT kindQualIndex kindSymKind measureKindName)
open IntLiteral (decodeInt)
open Word64

/-- Tokens, with the source text of those that have one. -/
inductive Token where
  | ident (text : Str)
  | int (text : Str)
  | string (text : Str)
  | star
  | slash
  | plus
  | caret
  | minus
  | dot
  | lparen
  | rparen
  | other
deriving DecidableEq

/-- A name as identifiers spell it: no quote or digit in front, and no `$`. -/
def IsName (s : Str) : Prop :=
  ∃ b rest, s = b :: rest ∧ b ≠ 34 ∧ ¬ Decimal.IsDigit b ∧ 36 ∉ s

/-- The introducer words and the kinds they declare into. -/
structure KindReg where
  intros : List (Str × Str)
  named : ∀ i ∈ intros, IsName i.2

def kindRegHasKind (r : KindReg) (name : Str) : Bool := (r.intros.map Prod.snd).contains name

def kindOfIntroducer (r : KindReg) (intro_ : Str) : Option Str :=
  (r.intros.find? fun i => i.1 = intro_).map Prod.snd

def kindRegResolveQualifier (r : KindReg) (qual : Str) : Option Str :=
  if kindRegHasKind r qual then some qual else kindOfIntroducer r qual

def kindQualifySym (kind sym : Str) : Str := kind ++ 36 :: sym

def kindQualifyNondefault (kind sym : Str) : Str :=
  if kind = measureKindName then sym else kindQualifySym kind sym

def kindSymIsQualified (s : Str) : Bool := (kindQualIndex s).isSome

/-- What stands behind the first `$`. -/
def kindSymBare (s : Str) : Str :=
  match kindQualIndex s with
  | none => s
  | some i => stringSlice s (i + 1) (s.length - (i + 1))

def isUnitOp (k : Token) : Bool := k = .star || k = .slash || k = .plus

def unitOpNode (k : Token) (lhs rhs : UnitExprT) : UnitExprT :=
  match k with
  | .slash => .uMul lhs (.uInv rhs)
  | .plus => .uJoin lhs rhs
  | _ => .uMul lhs rhs

/-- A parser: what it reads, and the tokens behind it. -/
abbrev Parse := List Token → Option (UnitExprT × List Token)

def parseUnitSignedInt : List Token → Option (Int × List Token)
  | .minus :: .int t :: r => some (sub 0 (decodeInt t), r)
  | .int t :: r => some (decodeInt t, r)
  | _ => none

def parseQualifiedUnit (kr : KindReg) (qual : Str) : Parse
  | .ident sym :: r =>
      (kindRegResolveQualifier kr qual).map fun kind => (.uSym (kindQualifyNondefault kind sym), r)
  | _ => none

def parseUnitInt (t : Str) : UnitExprT := if decodeInt t = 1 then .uOne else .uSym t

def unitGroupClose : Option (UnitExprT × List Token) → Option (UnitExprT × List Token)
  | some (u, .rparen :: r) => some (u, r)
  | _ => none

/-- `group` reads what stands behind a parenthesis. -/
def parseUnitFactor (kr : KindReg) (group : Parse) : Parse
  | .ident t :: .dot :: r => parseQualifiedUnit kr t r
  | .ident t :: r => some (.uSym t, r)
  | .int t :: r => some (parseUnitInt t, r)
  | .string t :: r => some (.uSym t, r)
  | .lparen :: r => unitGroupClose (group r)
  | _ => none

def unitPower (base : UnitExprT) : List Token → Option (UnitExprT × List Token)
  | .caret :: r => (parseUnitSignedInt r).map fun p => (.uPow base p.1, p.2)
  | r => some (base, r)

def parseUnitTerm (kr : KindReg) (group : Parse) : Parse := fun ts =>
  (parseUnitFactor kr group ts).bind fun p => unitPower p.1 p.2

/-- A term takes a token, so the tokens behind it are fewer. -/
def parseUnitExprRest (kr : KindReg) (group : Parse) (lhs : UnitExprT) (ts : List Token) :
    Option (UnitExprT × List Token) :=
  match ts with
  | [] => some (lhs, [])
  | k :: r =>
      if isUnitOp k then
        match parseUnitTerm kr group r with
        | none => none
        | some (rhs, rest) =>
            if rest.length < r.length then parseUnitExprRest kr group (unitOpNode k lhs rhs) rest
            else none
      else some (lhs, k :: r)
termination_by ts.length
decreasing_by simp only [List.length_cons]; omega

/-- `parse_unit_expr` with at most `fuel` nested groups. -/
def parseUnitExprFuel (kr : KindReg) : Nat → Parse
  | 0, _ => none
  | fuel + 1, ts =>
      (parseUnitTerm kr (parseUnitExprFuel kr fuel) ts).bind fun p =>
        parseUnitExprRest kr (parseUnitExprFuel kr fuel) p.1 p.2

/-- A group takes its parenthesis. -/
def parseUnitExpr (kr : KindReg) (ts : List Token) : Option (UnitExprT × List Token) :=
  parseUnitExprFuel kr (ts.length + 1) ts

/-- A symbol's text is one token, told by its first byte. -/
def textToken : Str → Token
  | [] => .other
  | b :: rest =>
      if b = 34 then .string (b :: rest)
      else if Decimal.IsDigit b then .int (b :: rest)
      else .ident (b :: rest)

/-- The tokens of a symbol as it is printed: a quoted text with a `$` stays one token. -/
def fmtSym (s : Str) : List Token :=
  if kindSymIsQualified s then
    if s.head? = some 34 then [.string (kindSymKind s ++ 46 :: kindSymBare s)]
    else [textToken (kindSymKind s), .dot, textToken (kindSymBare s)]
  else [textToken (kindSymBare s)]

/-- The tokens of `int_to_string`. -/
def fmtInt (n : Int) : List Token :=
  if n < 0 then [.minus, .int (Decimal.numeral n.natAbs)] else [.int (Decimal.numeral n.natAbs)]

mutual

def fmtUnitExpr : UnitExprT → List Token
  | .uOne => [.int [49]]
  | .uSym s => fmtSym s
  | .uMul a b =>
      match b with
      | .uInv bi =>
          match a with
          | .uOne => .int [49] :: .slash :: fmtUnitExpr bi
          | a => fmtUnitExpr a ++ .slash :: fmtUnitExpr bi
      | .uOne => fmtUnitExpr a
      | b =>
          match a with
          | .uOne => fmtUnitExpr b
          | .uInv ai => fmtUnitExpr b ++ .slash :: fmtUnitExpr ai
          | a => fmtUnitExpr a ++ .star :: fmtUnitExpr b
  | .uInv a => .int [49] :: .slash :: fmtUnitExpr a
  | .uPow a n => fmtUnitExpr a ++ .caret :: fmtInt n
  | .uJoin a b => fmtUnitExpr a ++ .plus :: fmtUnitExpr b
  | .uVar _ => [.other]
  | .uDims us => fmtUnitExprs us
  | .uParam _ => [.other]

def fmtUnitExprs : List UnitExprT → List Token
  | [] => []
  | [u] => fmtUnitExpr u
  | u :: us => fmtUnitExpr u ++ .other :: fmtUnitExprs us

end

abbrev Exponents := Str → ℤ

def single (s : Str) : Exponents := fun t => if t = s then 1 else 0

/-- The exponent of every symbol. -/
def exponents (u : UnitExprT) : Exponents := u.value single fun _ => 0

def slJoinCollect : UnitExprT → List UnitExprT → List UnitExprT
  | .uJoin a b, acc => slJoinCollect a (slJoinCollect b acc)
  | u, acc => u :: acc

/-- The exponents of the joined parts; the order of a join does not matter. -/
def parts (u : UnitExprT) : Multiset Exponents := ((slJoinCollect u []).map exponents : List Exponents)

/-- The formatted text is read to its end, as an expression of the same meaning. -/
def Preserved (kr : KindReg) (u : UnitExprT) : Prop :=
  ∃ u', parseUnitExpr kr (fmtUnitExpr u) = some (u', []) ∧ exponents u' = exponents u ∧ parts u' = parts u

inductive Op where
  | times
  | over_
  | join
deriving DecidableEq

def Op.token : Op → Token
  | times => .star
  | over_ => .slash
  | join => .plus

/-- The operations that are printed: without the ones that are left out, and a product with an
inverse as a quotient. -/
inductive Drawn where
  | one
  | sym (s : Str)
  | bin (op : Op) (a b : Drawn)
  | pow (a : Drawn) (n : Int)

/-- Parts to which a factor is joined, or which it multiplies or divides as a whole. -/
def Op.step (op : Op) (acc : Multiset Exponents) (x : Exponents) : Multiset Exponents :=
  match op with
  | times => {acc.sum + x}
  | over_ => {acc.sum - x}
  | join => acc + {x}

/-- A quoted symbol loses its first `$` to a dot. -/
def respell (s : Str) : Str :=
  if kindSymIsQualified s ∧ s.head? = some 34 then kindSymKind s ++ 46 :: kindSymBare s else s

namespace Drawn

/-- A power stands behind the last factor. -/
def EndsInPow : Drawn → Prop
  | one | sym _ => False
  | bin _ _ b => b.EndsInPow
  | pow _ _ => True

/-- No power stands behind another. -/
def SinglePowers : Drawn → Prop
  | one | sym _ => True
  | bin _ a b => a.SinglePowers ∧ b.SinglePowers
  | pow a _ => a.SinglePowers ∧ ¬ a.EndsInPow

/-- The parts when an operator in front reaches the first factor only, and a power behind the last
one only. -/
def reading : Drawn → Op → Int → Multiset Exponents → Multiset Exponents
  | one, op, _, acc => op.step acc 0
  | sym s, op, n, acc => op.step acc (n • single (respell s))
  | bin op' a b, op, n, acc => b.reading op' n (a.reading op 1 acc)
  | pow a n, op, _, acc => a.reading op n acc

end Drawn

def draw : UnitExprT → Drawn
  | .uOne => .one
  | .uSym s => .sym s
  | .uMul a (.uInv b) => .bin .over_ (draw a) (draw b)
  | .uMul a .uOne => draw a
  | .uMul .uOne b => draw b
  | .uMul a b => .bin .times (draw a) (draw b)
  | .uInv a => .bin .over_ .one (draw a)
  | .uPow a n => .pow (draw a) n
  | .uJoin a b => .bin .join (draw a) (draw b)
  | _ => .one

/-- No power is printed behind a power, and the parts of the text are those of the expression. -/
structure Readable (u : UnitExprT) : Prop where
  powers : (draw u).SinglePowers
  same : (draw u).reading .join 1 0 = parts u

def Op.sign : Op → Int
  | times | join => 1
  | over_ => -1

namespace Drawn

/-- The operators that are printed, from the left. -/
def ops : Drawn → List Op
  | one | sym _ => []
  | bin op a b => a.ops ++ op :: b.ops
  | pow a _ => a.ops

def symbols : Drawn → List Str
  | one => []
  | sym s => [s]
  | bin _ a b => a.symbols ++ b.symbols
  | pow a _ => a.symbols

/-- At every symbol, `k`, the product of the signs and powers that stand over it, is the sign of the
operator in front of it times the power behind it; and one that is respelled stands over nothing. -/
def Carries : Drawn → Int → Int → Int → Prop
  | one, _, _, _ => True
  | sym s, k, front, behind => k = front * behind ∧ (k = 0 ∨ respell s = s)
  | bin op a b, k, front, behind => a.Carries k front 1 ∧ b.Carries (op.sign * k) op.sign behind
  | pow a n, k, front, _ => a.Carries (k * n) front n

end Drawn

/-- The joined parts behind the first are single factors, and the first ends in no join. -/
def Joined (u : UnitExprT) : Prop :=
  ∃ first others, slJoinCollect u [] = first :: others ∧ (draw first).ops.getLast? ≠ some .join ∧
    ∀ part ∈ others, (draw part).ops = []

/-- Operators and powers stand over the factor beside them only. -/
structure Grouped (u : UnitExprT) : Prop where
  powers : (draw u).SinglePowers
  factors : (draw u).Carries 1 1 1
  joins : Joined u

/-- No symbol is another one, or its respelling. -/
def Apart (s t : Str) : Prop := s ≠ t ∧ respell s ≠ t ∧ s ≠ respell t ∧ respell s ≠ respell t

/-- Without joins, and no symbol twice. -/
structure Simple (u : UnitExprT) : Prop where
  joinless : Op.join ∉ (draw u).ops
  apart : (draw u).symbols.Pairwise Apart

/-- A symbol as the parser makes it. -/
inductive WfSym (kr : KindReg) : Str → Prop
  | name {s : Str} (h : IsName s) : WfSym kr s
  | qualified {kind s : Str} (hkind : kindRegHasKind kr kind = true) (hname : IsName kind)
      (hmeasure : kind ≠ measureKindName) (h : IsName s) : WfSym kr (kindQualifySym kind s)
  | int {b : UInt8} {s : Str} (hb : Decimal.IsDigit b) (hplain : 36 ∉ b :: s)
      (hone : decodeInt (b :: s) ≠ 1) : WfSym kr (b :: s)
  | string {s : Str} : WfSym kr (34 :: s)

/-- An expression as the parser makes it: an inverse stands right of a product only. -/
inductive Produced (kr : KindReg) : UnitExprT → Prop
  | one : Produced kr .uOne
  | sym {s : Str} (h : WfSym kr s) : Produced kr (.uSym s)
  | mul {a b : UnitExprT} (ha : Produced kr a) (hb : Produced kr b) : Produced kr (.uMul a b)
  | quot {a b : UnitExprT} (ha : Produced kr a) (hb : Produced kr b) : Produced kr (.uMul a (.uInv b))
  | pow {a : UnitExprT} {n : Int} (ha : Produced kr a) (hn : InRange n) : Produced kr (.uPow a n)
  | join {a b : UnitExprT} (ha : Produced kr a) (hb : Produced kr b) : Produced kr (.uJoin a b)

def Token.Lexed : Token → Prop
  | ident t => IsName t
  | int t => ∃ b rest, t = b :: rest ∧ Decimal.IsDigit b ∧ 36 ∉ t
  | string t => t.head? = some 34
  | _ => True

/-- The tokens of a source text. -/
structure Source where
  tokens : List Token
  lexed : ∀ t ∈ tokens, t.Lexed

section Produced

variable {kr : KindReg} {group : Parse} {ts r : List Token} {u : UnitExprT}

/-- What a parser reads is well formed, and leaves fewer of the tokens. -/
def Reads (kr : KindReg) (ts : List Token) (o : Option (UnitExprT × List Token)) : Prop :=
  ∀ u r, o = some (u, r) → Produced kr u ∧ r.length < ts.length ∧ ∀ t ∈ r, t ∈ ts

def AllLexed (ts : List Token) : Prop := ∀ t ∈ ts, t.Lexed

theorem kindOfIntroducer_mem {intro_ kind : Str} (h : kindOfIntroducer kr intro_ = some kind) :
    ∃ i ∈ kr.intros, i.2 = kind := by
  obtain ⟨i, hi, rfl⟩ := Option.map_eq_some_iff.1 h
  exact ⟨i, List.mem_of_find?_eq_some hi, rfl⟩

theorem kindRegHasKind_iff {kind : Str} :
    kindRegHasKind kr kind = true ↔ ∃ i ∈ kr.intros, i.2 = kind := by
  rw [kindRegHasKind, List.contains_iff_mem, List.mem_map]

theorem resolve_kind {qual kind : Str} (h : kindRegResolveQualifier kr qual = some kind) :
    kindRegHasKind kr kind = true ∧ IsName kind := by
  have hmem : ∃ i ∈ kr.intros, i.2 = kind := by
    rw [kindRegResolveQualifier] at h
    split_ifs at h with hkind
    · rw [← Option.some.inj h]
      exact kindRegHasKind_iff.1 hkind
    · exact kindOfIntroducer_mem h
  refine ⟨kindRegHasKind_iff.2 hmem, ?_⟩
  obtain ⟨i, hi, rfl⟩ := hmem
  exact kr.named i hi

theorem scanDigits_inRange {base : Nat} (s : Str) : ∀ {acc : Int}, InRange acc →
    InRange (IntLiteral.scanDigits base s acc) := by
  induction s with
  | nil => exact fun h => h
  | cons c s ih =>
      intro acc h
      rw [IntLiteral.scanDigits]
      split_ifs
      · exact ih h
      · split
        · exact ih (wrap_inRange _)
        · exact h

theorem decodeInt_inRange (t : Str) : InRange (decodeInt t) := by
  have hzero : InRange 0 := by
    unfold InRange
    decide
  have hmagnitude : ∀ s, InRange (IntLiteral.decodeMagnitude s) := by
    intro s
    rw [IntLiteral.decodeMagnitude]
    split_ifs <;> exact scanDigits_inRange _ hzero
  cases t with
  | nil => exact hzero
  | cons c s =>
      rw [decodeInt]
      split_ifs
      · exact wrap_inRange _
      · exact hmagnitude _

theorem parseUnitSignedInt_spec {n : Int} (h : parseUnitSignedInt ts = some (n, r)) :
    InRange n ∧ r.length < ts.length ∧ ∀ t ∈ r, t ∈ ts := by
  rw [parseUnitSignedInt.eq_def] at h
  split at h
  · cases h
    refine ⟨wrap_inRange _, by simp, fun t ht => ?_⟩
    exact List.mem_cons_of_mem _ (List.mem_cons_of_mem _ ht)
  · cases h
    exact ⟨decodeInt_inRange _, by simp, fun t ht => List.mem_cons_of_mem _ ht⟩
  · cases h

theorem reads_parseUnitFactor (hgroup : ∀ ts, AllLexed ts → Reads kr ts (group ts))
    (hts : AllLexed ts) : Reads kr ts (parseUnitFactor kr group ts) := by
  intro u r h
  rw [parseUnitFactor.eq_def] at h
  split at h
  · next t r' =>
      have ht : IsName t := hts _ List.mem_cons_self
      rw [parseQualifiedUnit.eq_def] at h
      split at h
      · next sym r'' =>
          obtain ⟨kind, hkind, hu⟩ := Option.map_eq_some_iff.1 h
          cases hu
          have hsym : IsName sym :=
            hts _ (List.mem_cons_of_mem _ (List.mem_cons_of_mem _ List.mem_cons_self))
          obtain ⟨hmem, hname⟩ := resolve_kind hkind
          refine ⟨.sym ?_, by simp; omega, fun t ht => ?_⟩
          · rw [kindQualifyNondefault]
            split_ifs with hmeasure
            · exact .name hsym
            · exact .qualified hmem hname hmeasure hsym
          · exact List.mem_cons_of_mem _ (List.mem_cons_of_mem _ (List.mem_cons_of_mem _ ht))
      · cases h
  · cases h
    exact ⟨.sym (.name (hts _ List.mem_cons_self)), by simp, fun t ht => List.mem_cons_of_mem _ ht⟩
  · next t r' =>
      cases h
      refine ⟨?_, by simp, fun t ht => List.mem_cons_of_mem _ ht⟩
      obtain ⟨b, rest, rfl, hb, hplain⟩ := hts _ List.mem_cons_self
      rw [parseUnitInt]
      split_ifs with hone
      · exact .one
      · exact .sym (.int hb hplain hone)
  · next t r' =>
      cases h
      refine ⟨.sym ?_, by simp, fun t ht => List.mem_cons_of_mem _ ht⟩
      obtain ⟨s, rfl⟩ := List.head?_eq_some_iff.1 (hts _ List.mem_cons_self)
      exact .string
  · next r' =>
      have hreads := hgroup r' fun t ht => hts t (List.mem_cons_of_mem _ ht)
      rw [unitGroupClose.eq_def] at h
      split at h
      · next v r'' hrun =>
          cases h
          obtain ⟨hv, hlen, hsub⟩ := hreads _ _ hrun
          rw [List.length_cons] at hlen
          exact ⟨hv, by rw [List.length_cons]; omega,
            fun t ht => List.mem_cons_of_mem _ (hsub t (List.mem_cons_of_mem _ ht))⟩
      · cases h
  · cases h

theorem reads_parseUnitTerm (hgroup : ∀ ts, AllLexed ts → Reads kr ts (group ts))
    (hts : AllLexed ts) : Reads kr ts (parseUnitTerm kr group ts) := by
  intro u r h
  obtain ⟨⟨base, r'⟩, hfactor, hpower⟩ := Option.bind_eq_some_iff.1 h
  obtain ⟨hbase, hlen, hsub⟩ := reads_parseUnitFactor hgroup hts _ _ hfactor
  dsimp only at hpower
  rw [unitPower.eq_def] at hpower
  split at hpower
  · next r'' =>
      obtain ⟨⟨n, r3⟩, hint, hu⟩ := Option.map_eq_some_iff.1 hpower
      cases hu
      obtain ⟨hn, hlen', hsub'⟩ := parseUnitSignedInt_spec hint
      rw [List.length_cons] at hlen
      exact ⟨.pow hbase hn, by dsimp only; omega, fun t ht => hsub t (List.mem_cons_of_mem _ (hsub' t ht))⟩
  · cases hpower
    exact ⟨hbase, hlen, hsub⟩

theorem produced_unitOpNode {k : Token} {lhs rhs : UnitExprT} (hl : Produced kr lhs)
    (hr : Produced kr rhs) : Produced kr (unitOpNode k lhs rhs) := by
  rw [unitOpNode.eq_def]
  split
  · exact .quot hl hr
  · exact .join hl hr
  · exact .mul hl hr

theorem reads_parseUnitExprRest (hgroup : ∀ ts, AllLexed ts → Reads kr ts (group ts)) (n : Nat) :
    ∀ {lhs : UnitExprT} {ts : List Token}, ts.length ≤ n → Produced kr lhs → AllLexed ts →
      ∀ u r, parseUnitExprRest kr group lhs ts = some (u, r) →
        Produced kr u ∧ r.length ≤ ts.length ∧ ∀ t ∈ r, t ∈ ts := by
  induction n with
  | zero =>
      intro lhs ts hn hl hts u r h
      rw [List.length_eq_zero_iff.1 (Nat.le_zero.1 hn), parseUnitExprRest] at h
      cases h
      exact ⟨hl, Nat.zero_le _, fun t ht => absurd ht List.not_mem_nil⟩
  | succ n ih =>
      intro lhs ts hn hl hts u r h
      cases ts with
      | nil =>
          rw [parseUnitExprRest] at h
          cases h
          exact ⟨hl, Nat.zero_le _, fun t ht => absurd ht List.not_mem_nil⟩
      | cons k ts =>
          rw [parseUnitExprRest] at h
          split_ifs at h with hop
          · have hrest : AllLexed ts := fun t ht => hts t (List.mem_cons_of_mem _ ht)
            split at h
            · cases h
            · next rhs rest hterm =>
                obtain ⟨hrhs, hlen, hsub⟩ := reads_parseUnitTerm hgroup hrest _ _ hterm
                rw [if_pos hlen] at h
                rw [List.length_cons] at hn
                obtain ⟨hu, hle, hmem⟩ := ih (by omega) (produced_unitOpNode hl hrhs)
                  (fun t ht => hrest t (hsub t ht)) u r h
                exact ⟨hu, by rw [List.length_cons]; omega,
                  fun t ht => List.mem_cons_of_mem _ (hsub t (hmem t ht))⟩
          · cases h
            exact ⟨hl, le_rfl, fun t ht => ht⟩

theorem reads_parseUnitExprFuel (fuel : Nat) :
    ∀ ts, AllLexed ts → Reads kr ts (parseUnitExprFuel kr fuel ts) := by
  induction fuel with
  | zero =>
      intro ts _ u r h
      cases h
  | succ fuel ih =>
      intro ts hts u r h
      obtain ⟨⟨lhs, r'⟩, hterm, hrest⟩ := Option.bind_eq_some_iff.1 h
      obtain ⟨hl, hlen, hsub⟩ := reads_parseUnitTerm ih hts _ _ hterm
      obtain ⟨hu, hle, hmem⟩ := reads_parseUnitExprRest ih _ le_rfl hl
        (fun t ht => hts t (hsub t ht)) u r hrest
      exact ⟨hu, by omega, fun t ht => hsub t (hmem t ht)⟩

theorem produced_of_parse (src : Source) {fuel : Nat}
    (h : parseUnitExprFuel kr fuel src.tokens = some (u, r)) : Produced kr u :=
  (reads_parseUnitExprFuel _ _ src.lexed _ _ h).1

end Produced

theorem slJoinCollect_append (u : UnitExprT) (acc more : List UnitExprT) :
    slJoinCollect u (acc ++ more) = slJoinCollect u acc ++ more := by
  fun_induction slJoinCollect u acc with
  | case1 acc a b ihb iha => rw [slJoinCollect, ihb, iha]
  | case2 acc u h =>
      rw [slJoinCollect.eq_def]
      split
      · next a b => exact absurd rfl (h a b)
      · rfl

theorem parts_join (a b : UnitExprT) : parts (.uJoin a b) = parts a + parts b := by
  have hsplit := slJoinCollect_append a [] (slJoinCollect b [])
  rw [List.nil_append] at hsplit
  rw [parts, slJoinCollect, hsplit, List.map_append, parts, parts, Multiset.coe_add]

theorem parts_of_not_join {u : UnitExprT} (h : ∀ a b, u ≠ .uJoin a b) : parts u = {exponents u} := by
  rw [parts, slJoinCollect.eq_def]
  split
  · next a b => exact absurd rfl (h a b)
  · rfl

theorem exponents_join (a b : UnitExprT) : exponents (.uJoin a b) = exponents a + exponents b := by
  rw [exponents, UnitExprT.value]
  rfl

theorem sum_parts (u : UnitExprT) : (parts u).sum = exponents u := by
  have hacc : ∀ acc : List UnitExprT, ((slJoinCollect u acc).map exponents).sum =
      exponents u + (acc.map exponents).sum := by
    intro acc
    fun_induction slJoinCollect u acc with
    | case1 acc a b ihb iha => rw [iha, ihb, exponents_join, add_assoc]
    | case2 acc u h => rw [List.map_cons, List.sum_cons]
  have h := hacc []
  rw [List.map_nil, List.sum_nil, add_zero] at h
  rw [parts, Multiset.sum_coe, h]

/-- The term behind an operator, or the first one. -/
def node (ctx : Option (UnitExprT × Op)) (t : UnitExprT) : UnitExprT :=
  match ctx with
  | none => t
  | some (lhs, op) => unitOpNode op.token lhs t

def opOf (ctx : Option (UnitExprT × Op)) : Op := ctx.elim .join Prod.snd

def partsOf (ctx : Option (UnitExprT × Op)) : Multiset Exponents := ctx.elim 0 fun c => parts c.1

theorem parts_node (ctx : Option (UnitExprT × Op)) {t : UnitExprT} (ht : ∀ a b, t ≠ .uJoin a b) :
    parts (node ctx t) = (opOf ctx).step (partsOf ctx) (exponents t) := by
  cases ctx with
  | none =>
      change parts t = 0 + {exponents t}
      rw [zero_add, parts_of_not_join ht]
  | some c =>
      obtain ⟨lhs, op⟩ := c
      cases op with
      | times =>
          change parts (.uMul lhs t) = {(parts lhs).sum + exponents t}
          rw [parts_of_not_join (fun a b h => by cases h), sum_parts, exponents, UnitExprT.value]
          rfl
      | over_ =>
          change parts (.uMul lhs (.uInv t)) = {(parts lhs).sum - exponents t}
          rw [parts_of_not_join (fun a b h => by cases h), sum_parts, exponents, UnitExprT.value,
            UnitExprT.value, sub_eq_add_neg]
          rfl
      | join =>
          change parts (.uJoin lhs t) = parts lhs + {exponents t}
          rw [parts_join, parts_of_not_join ht]

def powered (t : UnitExprT) : Option Int → UnitExprT
  | none => t
  | some n => .uPow t n

theorem exponents_powered (t : UnitExprT) (n : Option Int) :
    exponents (powered t n) = (n.getD 1) • exponents t := by
  cases n with
  | none => rw [powered, Option.getD_none, one_zsmul]
  | some n =>
      rw [powered, exponents, UnitExprT.value]
      rfl

/-- What the parser makes of the printed text. -/
def Drawn.reread : Drawn → Option (UnitExprT × Op) → Option Int → UnitExprT
  | one, ctx, n => node ctx (powered .uOne n)
  | sym s, ctx, n => node ctx (powered (.uSym (respell s)) n)
  | bin op a b, ctx, n => b.reread (some (a.reread ctx none, op)) n
  | pow a m, ctx, _ => a.reread ctx (some m)

theorem not_join_powered {t : UnitExprT} (ht : ∀ a b, t ≠ .uJoin a b) (n : Option Int) (a b : UnitExprT) :
    powered t n ≠ .uJoin a b := by
  cases n with
  | none => exact ht a b
  | some n => exact fun h => by cases h

theorem parts_reread (d : Drawn) : ∀ (ctx : Option (UnitExprT × Op)) (n : Option Int),
    parts (d.reread ctx n) = d.reading (opOf ctx) (n.getD 1) (partsOf ctx) := by
  induction d with
  | one =>
      intro ctx n
      rw [Drawn.reread, parts_node ctx (not_join_powered (fun a b h => by cases h) n),
        exponents_powered, Drawn.reading]
      have hone : exponents .uOne = 0 := by
        rw [exponents, UnitExprT.value]
      rw [hone, zsmul_zero]
  | sym s =>
      intro ctx n
      rw [Drawn.reread, parts_node ctx (not_join_powered (fun a b h => by cases h) n),
        exponents_powered, Drawn.reading]
      have hsym : exponents (.uSym (respell s)) = single (respell s) := by
        rw [exponents, UnitExprT.value]
      rw [hsym]
  | bin op a b iha ihb =>
      intro ctx n
      rw [Drawn.reread, ihb, Drawn.reading]
      change b.reading op _ (parts (a.reread ctx none)) = _
      rw [iha]
      rfl
  | pow a m ih =>
      intro ctx n
      rw [Drawn.reread, ih, Drawn.reading]
      rfl

theorem spelled_eq {ds : Str} (h : Decimal.AllDigits ds) : IntLiteral.spelled 10 ds = Decimal.digitsOf ds := by
  induction ds with
  | nil => rfl
  | cons b ds ih =>
      have hdecimal : IntLiteral.IsDecimal (b :: ds) := h
      rw [hdecimal.spelled_cons, Decimal.digitsOf_cons, ih (List.forall_mem_cons.1 h).2]

theorem litBase_digits {ds : Str} (h : Decimal.AllDigits ds) : IntLiteral.litBase ds = 0 := by
  rw [IntLiteral.litBase.eq_def]
  split
  · next a b rest =>
      have hb := h b (List.mem_cons_of_mem a List.mem_cons_self)
      have hcode : b ≠ 120 ∧ b ≠ 88 ∧ b ≠ 98 ∧ b ≠ 66 := by
        refine ⟨?_, ?_, ?_, ?_⟩ <;> rintro rfl <;> exact absurd hb (by decide)
      simp [hcode]
  · rfl

theorem decodeInt_numeral (n : Nat) : decodeInt (Decimal.numeral n) = wrap n := by
  have hcanonical := Decimal.canonical_numeral n
  have hdecimal : IntLiteral.IsDecimal (Decimal.numeral n) := hcanonical.digits
  have hbase := litBase_digits hcanonical.digits
  have hnumeral : IntLiteral.IsNumeral (Decimal.numeral n) := by
    constructor
    · intro hsign
      obtain ⟨rest, hrest⟩ := List.head?_eq_some_iff.1 hsign
      have hdigit := hcanonical.digits 45 (hrest ▸ List.mem_cons_self)
      exact absurd hdigit (by decide)
    · rw [IntLiteral.writtenBase, IntLiteral.writtenRun, if_pos hbase, if_pos hbase]
      exact hdecimal.isRun
  rw [IntLiteral.decodeInt_eq hnumeral, IntLiteral.written, IntLiteral.writtenBase,
    IntLiteral.writtenRun, if_pos hbase, if_pos hbase, spelled_eq hcanonical.digits, hcanonical.value]

theorem parseUnitSignedInt_fmtInt {n : Int} (hn : InRange n) (tail : List Token) :
    parseUnitSignedInt (fmtInt n ++ tail) = some (n, tail) := by
  obtain ⟨hlow, hhigh⟩ := hn
  rw [fmtInt]
  split_ifs with hneg
  · change some (sub 0 (decodeInt (Decimal.numeral n.natAbs)), tail) = _
    have hvalue : sub 0 (wrap n.natAbs) = n := by
      unfold sub wrap
      omega
    rw [decodeInt_numeral, hvalue]
  · change some (decodeInt (Decimal.numeral n.natAbs), tail) = _
    have hvalue : wrap n.natAbs = n := by
      rw [wrap_eq_self (by omega) (by omega)]
      omega
    rw [decodeInt_numeral, hvalue]

theorem textToken_name {s : Str} (h : IsName s) : textToken s = .ident s := by
  obtain ⟨b, rest, rfl, hquote, hdigit, -⟩ := h
  rw [textToken, if_neg hquote, if_neg hdigit]

theorem isQualified_iff {s : Str} : kindSymIsQualified s = true ↔ 36 ∈ s := by
  rw [kindSymIsQualified, kindQualIndex, List.findIdx?_isSome, List.any_eq_true]
  simp

theorem kindQualIndex_qualified {kind : Str} (sym : Str) (h : 36 ∉ kind) :
    kindQualIndex (kindQualifySym kind sym) = some kind.length := by
  rw [kindQualIndex, kindQualifySym]
  induction kind with
  | nil => rfl
  | cons b kind ih =>
      obtain ⟨hb, hkind⟩ := not_or.1 (mt List.mem_cons.2 h)
      rw [List.cons_append, List.findIdx?_cons, ih hkind, if_neg (by simpa using Ne.symm hb)]
      rfl

theorem qualified_split {kind : Str} (sym : Str) (h : 36 ∉ kind) :
    kindSymIsQualified (kindQualifySym kind sym) = true ∧
      kindSymKind (kindQualifySym kind sym) = kind ∧ kindSymBare (kindQualifySym kind sym) = sym := by
  have hindex := kindQualIndex_qualified sym h
  refine ⟨isQualified_iff.2 (List.mem_append_right _ List.mem_cons_self), ?_, ?_⟩
  · rw [kindSymKind, hindex]
    simp [stringSlice, kindQualifySym]
  · have hstart : ((kind.length : Int) + 1).toNat = (kind ++ [36]).length := by
      rw [List.length_append, List.length_singleton]
      omega
    have hsplit : kindQualifySym kind sym = (kind ++ [36]) ++ sym := by
      rw [kindQualifySym, List.append_assoc, List.singleton_append]
    rw [kindSymBare, hindex]
    simp only [stringSlice, hstart]
    rw [hsplit, List.drop_left, List.take_of_length_le]
    simp only [List.length_append, List.length_singleton]
    omega

theorem fmtSym_plain {s : Str} (h : 36 ∉ s) : fmtSym s = [textToken s] := by
  have hqualified : ¬ kindSymIsQualified s = true := mt isQualified_iff.1 h
  have hnone : kindQualIndex s = none := Option.not_isSome_iff_eq_none.1 hqualified
  rw [fmtSym, if_neg hqualified, kindSymBare, hnone]

theorem respell_of_head {s : Str} (h : s.head? ≠ some 34) : respell s = s := if_neg fun hs => h hs.2

theorem respell_plain {s : Str} (h : 36 ∉ s) : respell s = s :=
  if_neg fun hs => h (isQualified_iff.1 hs.1)

section Reparse

variable {kr : KindReg} {g : Parse}

theorem parseUnitFactor_fmtSym {s : Str} (h : WfSym kr s) {tail : List Token}
    (htail : tail.head? ≠ some .dot) :
    parseUnitFactor kr g (fmtSym s ++ tail) = some (.uSym (respell s), tail) := by
  cases h with
  | name h =>
      obtain ⟨b, rest, hs, -, -, hplain⟩ := id h
      rw [fmtSym_plain hplain, textToken_name h, respell_plain hplain]
      cases tail with
      | nil => rfl
      | cons k tail =>
          have hk : k ≠ .dot := fun hk => htail (hk ▸ rfl)
          cases k <;> first | rfl | exact absurd rfl hk
  | @qualified kind sym hkind hname hmeasure h =>
      obtain ⟨-, -, -, -, -, hplain⟩ := id hname
      obtain ⟨hqualified, hleft, hright⟩ := qualified_split sym hplain
      have hhead : (kindQualifySym kind sym).head? ≠ some 34 := by
        obtain ⟨b, rest, rfl, hquote, -⟩ := hname
        exact fun hhead => hquote (Option.some.inj hhead)
      rw [fmtSym, if_pos hqualified, if_neg hhead, hleft, hright, textToken_name hname,
        textToken_name h, respell_of_head hhead]
      change (kindRegResolveQualifier kr kind).map _ = _
      rw [kindRegResolveQualifier, if_pos hkind, Option.map_some, kindQualifyNondefault, if_neg hmeasure]
      rfl
  | @int b rest hb hplain hone =>
      have hquote : b ≠ 34 := by
        rintro rfl
        exact absurd hb (by decide)
      rw [fmtSym_plain hplain, respell_plain hplain, textToken, if_neg hquote, if_pos hb]
      change some (parseUnitInt (b :: rest), tail) = _
      rw [parseUnitInt, if_neg hone]
  | @string rest =>
      by_cases hplain : 36 ∈ (34 : UInt8) :: rest
      · have hqualified := isQualified_iff.2 hplain
        rw [fmtSym, if_pos hqualified, if_pos List.head?_cons, respell, if_pos ⟨hqualified, rfl⟩]
        rfl
      · rw [fmtSym_plain hplain, respell_plain hplain]
        rfl

/-- The tokens of the expression that is shown. -/
def Drawn.tokens : Drawn → List Token
  | one => [.int [49]]
  | sym s => fmtSym s
  | bin op a b => a.tokens ++ op.token :: b.tokens
  | pow a n => a.tokens ++ .caret :: fmtInt n

def Drawn.Wf (kr : KindReg) : Drawn → Prop
  | one => True
  | sym s => WfSym kr s
  | bin _ a b => a.Wf kr ∧ b.Wf kr
  | pow a n => a.Wf kr ∧ InRange n

def powTokens : Option Int → List Token
  | none => []
  | some n => .caret :: fmtInt n

/-- Nothing that the factor in front could take for its own. -/
def Stops (tail : List Token) : Prop := tail.head? ≠ some .caret ∧ tail.head? ≠ some .dot

theorem unitPower_powTokens (base : UnitExprT) {n : Option Int} (hn : ∀ m, n = some m → InRange m)
    {tail : List Token} (htail : n ≠ none ∨ Stops tail) :
    unitPower base (powTokens n ++ tail) = some (powered base n, tail) := by
  cases n with
  | some m =>
      change (parseUnitSignedInt (fmtInt m ++ tail)).map _ = _
      rw [parseUnitSignedInt_fmtInt (hn m rfl), Option.map_some]
      rfl
  | none =>
      obtain ⟨hcaret, -⟩ := htail.resolve_left fun h => h rfl
      cases tail with
      | nil => rfl
      | cons k tail =>
          have hk : k ≠ .caret := fun hk => hcaret (hk ▸ rfl)
          cases k <;> first | rfl | exact absurd rfl hk

theorem head_powTokens {n : Option Int} {tail : List Token} (htail : n ≠ none ∨ Stops tail) :
    (powTokens n ++ tail).head? ≠ some .dot := by
  cases n with
  | some m => exact fun h => by cases h
  | none => exact (htail.resolve_left fun h => h rfl).2

/-- The parser at a term: the first one, or one behind an operator. -/
def run (kr : KindReg) (g : Parse) (ctx : Option (UnitExprT × Op)) (ts : List Token) :
    Option (UnitExprT × List Token) :=
  match ctx with
  | none => (parseUnitTerm kr g ts).bind fun p => parseUnitExprRest kr g p.1 p.2
  | some (lhs, op) => parseUnitExprRest kr g lhs (op.token :: ts)

theorem isUnitOp_token (op : Op) : isUnitOp op.token = true := by
  cases op <;> decide

theorem run_term {ctx : Option (UnitExprT × Op)} {ts r : List Token} {t : UnitExprT}
    (hterm : parseUnitTerm kr g ts = some (t, r)) (hlen : r.length < ts.length) :
    run kr g ctx ts = parseUnitExprRest kr g (node ctx t) r := by
  cases ctx with
  | none =>
      rw [run, hterm]
      rfl
  | some c =>
      rw [run, parseUnitExprRest, if_pos (isUnitOp_token c.2), hterm]
      exact if_pos hlen

theorem run_leaf {ctx : Option (UnitExprT × Op)} {ts tail : List Token} {t : UnitExprT} {n : Option Int}
    (hn : ∀ m, n = some m → InRange m) (htail : n ≠ none ∨ Stops tail) (hts : ts ≠ [])
    (hfactor : parseUnitFactor kr g (ts ++ (powTokens n ++ tail)) = some (t, powTokens n ++ tail)) :
    run kr g ctx (ts ++ (powTokens n ++ tail)) =
      parseUnitExprRest kr g (node ctx (powered t n)) tail := by
  apply run_term
  · rw [parseUnitTerm, hfactor, Option.bind_some]
    exact unitPower_powTokens t hn htail
  · have hpos := List.length_pos_iff.2 hts
    rw [List.length_append, List.length_append]
    omega

theorem fmtSym_ne_nil (s : Str) : fmtSym s ≠ [] := by
  rw [fmtSym]
  split_ifs <;> simp

theorem token_stops (op : Op) (tail : List Token) : Stops (op.token :: tail) := by
  cases op <;> exact ⟨fun h => Token.noConfusion (Option.some.inj h),
    fun h => Token.noConfusion (Option.some.inj h)⟩

theorem stops_nil : Stops [] := ⟨by simp, by simp⟩

theorem run_tokens (d : Drawn) : ∀ (ctx : Option (UnitExprT × Op)) (n : Option Int) (tail : List Token),
    d.Wf kr → d.SinglePowers → (∀ m, n = some m → InRange m) → (n ≠ none → ¬ d.EndsInPow) →
      (d.EndsInPow ∨ n ≠ none ∨ Stops tail) →
        run kr g ctx (d.tokens ++ (powTokens n ++ tail)) =
          parseUnitExprRest kr g (d.reread ctx n) tail := by
  induction d with
  | one =>
      intro ctx n tail _ _ hn _ htail
      exact run_leaf hn (htail.resolve_left id) (List.cons_ne_nil _ _) rfl
  | sym s =>
      intro ctx n tail hwf _ hn _ htail
      have hstop := htail.resolve_left id
      exact run_leaf hn hstop (fmtSym_ne_nil s) (parseUnitFactor_fmtSym hwf (head_powTokens hstop))
  | bin op a b iha ihb =>
      intro ctx n tail hwf hsingle hn hpow htail
      have ha := iha ctx none (op.token :: (b.tokens ++ (powTokens n ++ tail))) hwf.1 hsingle.1
        (fun m h => by cases h) (fun h => absurd rfl h) (.inr (.inr (token_stops _ _)))
      rw [Drawn.tokens, List.append_assoc, List.cons_append]
      refine ha.trans ?_
      exact ihb (some (a.reread ctx none, op)) _ _ hwf.2 hsingle.2 hn hpow htail
  | pow a m ih =>
      intro ctx n tail hwf hsingle hn hpow htail
      have hnone : n = none := by
        by_contra hn
        exact hpow hn trivial
      subst hnone
      have ha := ih ctx (some m) tail hwf.1 hsingle.1
        (fun k hk => Option.some.inj hk ▸ hwf.2) (fun _ => hsingle.2) (.inr (.inl (by simp)))
      rw [Drawn.tokens, List.append_assoc]
      exact ha

theorem run_stacked (d : Drawn) : ∀ (ctx : Option (UnitExprT × Op)) (tail : List Token),
    d.Wf kr → ¬ d.SinglePowers →
      ∃ t r, run kr g ctx (d.tokens ++ tail) = some (t, .caret :: r) := by
  induction d with
  | one => exact fun _ _ _ h => absurd trivial h
  | sym s => exact fun _ _ _ h => absurd trivial h
  | bin op a b iha ihb =>
      intro ctx tail hwf hnot
      rw [Drawn.tokens, List.append_assoc, List.cons_append]
      by_cases hsingle : a.SinglePowers
      · have ha := run_tokens (g := g) a ctx none (op.token :: (b.tokens ++ tail)) hwf.1 hsingle (fun m h => by cases h)
          (fun h => absurd rfl h) (.inr (.inr (token_stops _ _)))
        obtain ⟨t, r, hb⟩ := ihb (some (a.reread ctx none, op)) tail hwf.2
          fun hb => hnot ⟨hsingle, hb⟩
        exact ⟨t, r, ha.trans hb⟩
      · exact iha _ _ hwf.1 hsingle
  | pow a m ih =>
      intro ctx tail hwf hnot
      rw [Drawn.tokens, List.append_assoc, List.cons_append]
      by_cases hsingle : a.SinglePowers
      · have hends : a.EndsInPow := by
          by_contra hends
          exact hnot ⟨hsingle, hends⟩
        have ha := run_tokens (g := g) a ctx none (.caret :: (fmtInt m ++ tail)) hwf.1 hsingle (fun m h => by cases h)
          (fun h => absurd rfl h) (.inl hends)
        refine ⟨a.reread ctx none, fmtInt m ++ tail, ha.trans ?_⟩
        rw [parseUnitExprRest, if_neg (by decide)]
      · exact ih _ _ hwf.1 hsingle

end Reparse

section Draw

variable {kr : KindReg} {a b u : UnitExprT}

theorem Produced.not_inv (h : Produced kr u) (v : UnitExprT) : u ≠ .uInv v := by
  rintro rfl
  cases h

theorem mul_cases (ha : Produced kr a) (hb : Produced kr b) :
    (b = .uOne ∧ fmtUnitExpr (.uMul a b) = fmtUnitExpr a ∧ draw (.uMul a b) = draw a) ∨
      (a = .uOne ∧ fmtUnitExpr (.uMul a b) = fmtUnitExpr b ∧ draw (.uMul a b) = draw b) ∨
      (fmtUnitExpr (.uMul a b) = fmtUnitExpr a ++ .star :: fmtUnitExpr b ∧
        draw (.uMul a b) = .bin .times (draw a) (draw b)) := by
  by_cases hbone : b = .uOne
  · subst hbone
    exact .inl ⟨rfl, by rw [fmtUnitExpr], by rw [draw]⟩
  · by_cases haone : a = .uOne
    · subst haone
      refine .inr (.inl ⟨rfl, ?_, ?_⟩)
      · rw [fmtUnitExpr]
        · exact hb.not_inv
        · exact hbone
      · rw [draw]
        · exact hb.not_inv
        · exact hbone
    · refine .inr (.inr ⟨?_, ?_⟩)
      · rw [fmtUnitExpr]
        · exact hb.not_inv
        · exact hbone
        · exact haone
        · exact ha.not_inv
      · rw [draw]
        · exact hb.not_inv
        · exact hbone
        · exact haone

theorem tokens_draw (h : Produced kr u) : (draw u).tokens = fmtUnitExpr u ∧ (draw u).Wf kr := by
  induction h with
  | one => exact ⟨by rw [draw, fmtUnitExpr]; rfl, by rw [draw]; trivial⟩
  | sym h => exact ⟨by rw [draw, fmtUnitExpr]; rfl, by rw [draw]; exact h⟩
  | mul ha hb iha ihb =>
      obtain ⟨-, hfmt, hdraw⟩ | ⟨-, hfmt, hdraw⟩ | ⟨hfmt, hdraw⟩ := mul_cases ha hb
      · rw [hfmt, hdraw]
        exact iha
      · rw [hfmt, hdraw]
        exact ihb
      · rw [hfmt, hdraw, ← iha.1, ← ihb.1]
        exact ⟨rfl, iha.2, ihb.2⟩
  | @quot a b ha hb iha ihb =>
      have hfmt : fmtUnitExpr (.uMul a (.uInv b)) = fmtUnitExpr a ++ .slash :: fmtUnitExpr b := by
        cases ha <;> simp [fmtUnitExpr]
      rw [hfmt, draw, ← iha.1, ← ihb.1]
      exact ⟨rfl, iha.2, ihb.2⟩
  | pow ha hn iha =>
      rw [draw, fmtUnitExpr, ← iha.1]
      exact ⟨rfl, iha.2, hn⟩
  | join ha hb iha ihb =>
      rw [draw, fmtUnitExpr, ← iha.1, ← ihb.1]
      exact ⟨rfl, iha.2, ihb.2⟩

theorem parseUnitExpr_eq_run (ts : List Token) :
    parseUnitExpr kr ts = run kr (parseUnitExprFuel kr ts.length) none ts := rfl

theorem preserved_iff (h : Produced kr u) : Preserved kr u ↔ Readable u := by
  obtain ⟨htokens, hwf⟩ := tokens_draw h
  have hstacked : ¬ (draw u).SinglePowers → ¬ Preserved kr u := by
    rintro hnot ⟨u', hparse, -⟩
    obtain ⟨t, r, hrun⟩ := run_stacked (g := parseUnitExprFuel kr (fmtUnitExpr u).length) (draw u)
      none [] hwf hnot
    rw [List.append_nil, htokens, ← parseUnitExpr_eq_run, hparse] at hrun
    cases hrun
  have hread : (draw u).SinglePowers →
      parseUnitExpr kr (fmtUnitExpr u) = some ((draw u).reread none none, []) := by
    intro hsingle
    have hrun := run_tokens (g := parseUnitExprFuel kr (fmtUnitExpr u).length) (draw u)
      none none [] hwf hsingle (fun m h => by cases h)
      (fun h => absurd rfl h) (.inr (.inr stops_nil))
    rw [powTokens, List.append_nil, List.append_nil, htokens, ← parseUnitExpr_eq_run,
      parseUnitExprRest] at hrun
    exact hrun
  have hparts : parts ((draw u).reread none none) = (draw u).reading .join 1 0 :=
    parts_reread (draw u) none none
  constructor
  · intro hpreserved
    have hsingle : (draw u).SinglePowers := by
      by_contra hnot
      exact hstacked hnot hpreserved
    obtain ⟨u', hparse, -, hsame⟩ := hpreserved
    rw [hread hsingle] at hparse
    cases hparse
    exact ⟨hsingle, hparts.symm.trans hsame⟩
  · rintro ⟨hsingle, hsame⟩
    have heq := hparts.trans hsame
    refine ⟨_, hread hsingle, ?_, heq⟩
    rw [← sum_parts, heq, sum_parts]

end Draw

namespace Drawn

variable (op : Op) (d : Drawn) (acc : Multiset Exponents) (k front behind : Int)

/-- The exponents of the shown expression to the power `k`. -/
def weigh : Drawn → Int → Exponents
  | one, _ => 0
  | sym s, k => k • single s
  | bin op a b, k => a.weigh k + b.weigh (op.sign * k)
  | pow a n, k => a.weigh (k * n)

/-- The exponents that the text adds behind an operator of sign `front`, with a power behind it. -/
def added : Drawn → Int → Int → Exponents
  | one, _, _ => 0
  | sym s, front, behind => (front * behind) • single (respell s)
  | bin op a b, front, behind => a.added front 1 + b.added op.sign behind
  | pow a n, front, _ => a.added front n

theorem sum_step (x : Exponents) : (op.step acc x).sum = acc.sum + op.sign • x := by
  cases op <;> simp [Op.step, Op.sign, sub_eq_add_neg]

theorem sum_reading : ∀ (op : Op) (n : Int) (acc : Multiset Exponents),
    (d.reading op n acc).sum = acc.sum + d.added op.sign n := by
  induction d with
  | one => exact fun op n acc => by rw [reading, sum_step, added, smul_zero]
  | sym s => exact fun op n acc => by rw [reading, sum_step, added, mul_smul]
  | bin op' a b iha ihb => exact fun op n acc => by rw [reading, ihb, iha, added, add_assoc]
  | pow a m ih => exact fun op n acc => by rw [reading, ih, added]

variable {op d acc k front behind}

theorem Carries.weigh_eq : ∀ {k front behind : Int}, d.Carries k front behind →
    d.weigh k = d.added front behind := by
  induction d with
  | one => exact fun _ => rfl
  | sym s =>
      rintro k front behind ⟨hk, hzero | hspelled⟩
      · rw [weigh, added, ← hk, hzero, zero_smul, zero_smul]
      · rw [weigh, added, ← hk, hspelled]
  | bin op a b iha ihb => exact fun h => by rw [weigh, added, iha h.1, ihb h.2]
  | pow a n ih => exact fun h => by rw [weigh, added, ih h]

theorem reading_of_ops_eq_nil (hops : d.ops = []) : d.reading op behind acc = op.step acc (d.added 1 behind) := by
  induction d generalizing behind with
  | one => rfl
  | sym s => rw [reading, added, one_mul]
  | bin op' a b => exact absurd hops (by simp [ops])
  | pow a n ih => rw [reading, added, ih hops]

theorem exists_reading_eq {last : Op} (hlast : (op :: d.ops).getLast? = some last) (hne : last ≠ .join) :
    ∃ x, d.reading op behind acc = {x} := by
  have hleaf : ∀ x, [op].getLast? = some last → ∃ y, op.step acc x = {y} := by
    intro x hop
    cases Option.some.inj hop
    cases op with
    | times => exact ⟨_, rfl⟩
    | over_ => exact ⟨_, rfl⟩
    | join => exact absurd rfl hne
  induction d generalizing op behind acc with
  | one => exact hleaf 0 hlast
  | sym s => exact hleaf _ hlast
  | bin op' a b iha ihb =>
      have hright : (op' :: b.ops).getLast? = some last := by
        rw [ops, ← List.cons_append, List.getLast?_append] at hlast
        simpa using hlast
      refine ihb hright fun x hop => ?_
      cases Option.some.inj hop
      cases op' with
      | times => exact ⟨_, rfl⟩
      | over_ => exact ⟨_, rfl⟩
      | join => exact absurd rfl hne
  | pow a n ih => exact ih hlast hleaf

end Drawn

section Grouped

variable {kr : KindReg} {u : UnitExprT}

theorem weigh_draw (h : Produced kr u) : ∀ k, (draw u).weigh k = k • exponents u := by
  induction h with
  | one => exact fun k => by rw [draw, Drawn.weigh, exponents, UnitExprT.value, smul_zero]
  | sym h => exact fun k => by rw [draw, Drawn.weigh, exponents, UnitExprT.value]
  | @mul a b ha hb iha ihb =>
      intro k
      have hvalue : exponents (.uMul a b) = exponents a + exponents b := by
        rw [exponents, UnitExprT.value]
        rfl
      have hone : exponents .uOne = 0 := by
        rw [exponents, UnitExprT.value]
      obtain ⟨rfl, -, hdraw⟩ | ⟨rfl, -, hdraw⟩ | ⟨-, hdraw⟩ := mul_cases ha hb
      · rw [hdraw, iha, hvalue, hone, add_zero]
      · rw [hdraw, ihb, hvalue, hone, zero_add]
      · rw [hdraw, Drawn.weigh, iha, ihb, hvalue, Op.sign, one_mul, smul_add]
  | @quot a b ha hb iha ihb =>
      intro k
      have hvalue : exponents (.uMul a (.uInv b)) = exponents a + -exponents b := by
        rw [exponents, UnitExprT.value, UnitExprT.value]
        rfl
      rw [draw, Drawn.weigh, iha, ihb, hvalue, Op.sign, neg_one_mul, smul_add, smul_neg, neg_smul]
  | @pow a n ha hn iha =>
      intro k
      have hvalue : exponents (.uPow a n) = n • exponents a := by
        rw [exponents, UnitExprT.value]
        rfl
      rw [draw, Drawn.weigh, iha, hvalue, mul_smul]
  | join ha hb iha ihb =>
      intro k
      rw [draw, Drawn.weigh, iha, ihb, exponents_join, Op.sign, one_mul, smul_add]

theorem exponents_eq_weigh (h : Produced kr u) : exponents u = (draw u).weigh 1 := by
  rw [weigh_draw h, one_smul]

theorem exists_slJoinCollect_eq_cons (u : UnitExprT) (acc : List UnitExprT) :
    ∃ first others, slJoinCollect u acc = first :: others := by
  fun_induction slJoinCollect u acc with
  | case1 acc a b ihb iha => exact iha
  | case2 v acc h => exact ⟨v, acc, rfl⟩

theorem produced_join {a b : UnitExprT} (h : Produced kr (.uJoin a b)) : Produced kr a ∧ Produced kr b := by
  cases h with
  | join ha hb => exact ⟨ha, hb⟩

theorem join_induction {P : UnitExprT → Prop} (join : ∀ a b, P a → P b → P (.uJoin a b))
    (part : ∀ u, (∀ a b, u ≠ .uJoin a b) → P u) (u : UnitExprT) : P u :=
  slJoinCollect.induct (fun u _ => P u) (fun a b _ hb ha => join a b ha hb)
    (fun u _ hnot => part u hnot) u []

theorem slJoinCollect_of_not_join (hnot : ∀ a b, u ≠ .uJoin a b) : slJoinCollect u [] = [u] := by
  rw [slJoinCollect.eq_def]
  split
  · next a b => exact absurd rfl (hnot a b)
  · rfl

theorem reading_of_single (hu : Produced kr u) (hfactors : (draw u).Carries 1 1 1)
    (hsingle : ∀ part ∈ slJoinCollect u [], (draw part).ops = []) :
    ∀ acc, (draw u).reading .join 1 acc = acc + parts u := by
  induction u using join_induction with
  | join a b iha ihb =>
      obtain ⟨ha, hb⟩ := produced_join hu
      have hsplit := slJoinCollect_append a [] (slJoinCollect b [])
      rw [List.nil_append] at hsplit
      rw [slJoinCollect, hsplit] at hsingle
      rw [draw] at hfactors
      intro acc
      rw [draw, Drawn.reading,
        iha ha hfactors.1 (fun part hpart => hsingle part (List.mem_append_left _ hpart)),
        ihb hb hfactors.2 (fun part hpart => hsingle part (List.mem_append_right _ hpart)),
        parts_join, add_assoc]
  | part u hnot =>
      intro acc
      rw [slJoinCollect_of_not_join hnot] at hsingle
      rw [Drawn.reading_of_ops_eq_nil (hsingle u List.mem_cons_self), ← hfactors.weigh_eq,
        ← exponents_eq_weigh hu, parts_of_not_join hnot]
      rfl

theorem parts_of_last (hu : Produced kr u) (hnot : ∀ a b, u ≠ .uJoin a b)
    (hfactors : (draw u).Carries 1 1 1) (hlast : (draw u).ops.getLast? ≠ some .join) :
    (draw u).reading .join 1 0 = parts u := by
  have hone : ∃ x, (draw u).reading .join 1 0 = {x} := by
    cases hops : (draw u).ops with
    | nil => exact ⟨_, (Drawn.reading_of_ops_eq_nil hops).trans (zero_add _)⟩
    | cons op ops =>
        have hsome := List.getLast?_eq_some_getLast (List.cons_ne_nil op ops)
        rw [hops, hsome] at hlast
        have hend : (.join :: (draw u).ops).getLast? =
            some ((op :: ops).getLast (List.cons_ne_nil op ops)) := by
          rw [hops, List.getLast?_cons_cons, hsome]
        exact Drawn.exists_reading_eq hend fun h => hlast (congrArg some h)
  obtain ⟨x, hx⟩ := hone
  have hsum := Drawn.sum_reading (draw u) .join 1 0
  rw [hx, Multiset.sum_singleton, Multiset.sum_zero, zero_add, Op.sign, ← hfactors.weigh_eq,
    ← exponents_eq_weigh hu] at hsum
  rw [hx, hsum, parts_of_not_join hnot]

theorem reading_of_joined (hu : Produced kr u) (hfactors : (draw u).Carries 1 1 1) (hjoined : Joined u) :
    (draw u).reading .join 1 0 = parts u := by
  induction u using join_induction with
  | join a b iha _ =>
      obtain ⟨ha, hb⟩ := produced_join hu
      obtain ⟨first, others, hcollect, hlast, hsingle⟩ := hjoined
      have hsplit := slJoinCollect_append a [] (slJoinCollect b [])
      rw [List.nil_append] at hsplit
      rw [slJoinCollect, hsplit] at hcollect
      rw [draw] at hfactors
      obtain ⟨head, tail, hleft⟩ := exists_slJoinCollect_eq_cons a []
      rw [hleft, List.cons_append, List.cons.injEq] at hcollect
      obtain ⟨rfl, rfl⟩ := hcollect
      rw [draw, Drawn.reading,
        iha ha hfactors.1 ⟨head, tail, hleft, hlast, fun part hpart => hsingle part (List.mem_append_left _ hpart)⟩,
        reading_of_single hb hfactors.2 (fun part hpart => hsingle part (List.mem_append_right _ hpart)), parts_join]
  | part u hnot =>
      obtain ⟨first, others, hcollect, hlast, -⟩ := hjoined
      rw [slJoinCollect_of_not_join hnot] at hcollect
      cases hcollect
      exact parts_of_last hu hnot hfactors hlast

theorem Grouped.readable (hu : Produced kr u) (h : Grouped u) : Readable u :=
  ⟨h.powers, reading_of_joined hu h.factors h.joins⟩

end Grouped

section Simple

variable {d : Drawn} {x : Str}

theorem single_self (s : Str) : single s s = 1 := if_pos rfl

theorem single_ne {s : Str} (h : x ≠ s) : single s x = 0 := if_neg h

theorem weigh_eq_zero (hx : ∀ s ∈ d.symbols, x ≠ s) : ∀ k, d.weigh k x = 0 := by
  induction d with
  | one => exact fun k => rfl
  | sym s =>
      intro k
      rw [Drawn.weigh, Pi.smul_apply, single_ne (hx s List.mem_cons_self), smul_zero]
  | bin op a b iha ihb =>
      intro k
      rw [Drawn.weigh, Pi.add_apply, iha (fun s hs => hx s (List.mem_append_left _ hs)),
        ihb (fun s hs => hx s (List.mem_append_right _ hs)), add_zero]
  | pow a n ih => exact fun k => ih hx _

theorem added_eq_zero (hx : ∀ s ∈ d.symbols, x ≠ respell s) : ∀ front behind, d.added front behind x = 0 := by
  induction d with
  | one => exact fun _ _ => rfl
  | sym s =>
      intro front behind
      rw [Drawn.added, Pi.smul_apply, single_ne (hx s List.mem_cons_self), smul_zero]
  | bin op a b iha ihb =>
      intro front behind
      rw [Drawn.added, Pi.add_apply, iha (fun s hs => hx s (List.mem_append_left _ hs)),
        ihb (fun s hs => hx s (List.mem_append_right _ hs)), add_zero]
  | pow a n ih => exact fun front _ => ih hx _ _

theorem carries_of_weigh_eq (hapart : d.symbols.Pairwise Apart) : ∀ {k front behind : Int},
    d.weigh k = d.added front behind → d.Carries k front behind := by
  induction d with
  | one => exact fun _ => trivial
  | sym s =>
      intro k front behind h
      have hs := congrFun h s
      rw [Drawn.weigh, Drawn.added, Pi.smul_apply, Pi.smul_apply, single_self, smul_eq_mul, mul_one] at hs
      by_cases hspelled : respell s = s
      · rw [hspelled, single_self, smul_eq_mul, mul_one] at hs
        exact ⟨hs, .inr hspelled⟩
      · have hspelling := congrFun h (respell s)
        rw [Drawn.weigh, Drawn.added, Pi.smul_apply, Pi.smul_apply, single_self, single_ne hspelled,
          smul_zero, smul_eq_mul, mul_one] at hspelling
        rw [single_ne (Ne.symm hspelled), smul_zero] at hs
        exact ⟨hs.trans hspelling, .inl hs⟩
  | bin op a b iha ihb =>
      intro k front behind h
      obtain ⟨ha, hb, hcross⟩ := List.pairwise_append.1 hapart
      have hleft : a.weigh k = a.added front 1 := by
        funext x
        have hx := congrFun h x
        rw [Drawn.weigh, Drawn.added, Pi.add_apply, Pi.add_apply] at hx
        by_cases hshown : ∃ s ∈ a.symbols, x = s ∨ x = respell s
        · obtain ⟨s, hs, hxs⟩ := hshown
          have hother : ∀ t ∈ b.symbols, x ≠ t ∧ x ≠ respell t := by
            intro t ht
            obtain ⟨h1, h2, h3, h4⟩ := hcross s hs t ht
            rcases hxs with rfl | rfl
            · exact ⟨h1, h3⟩
            · exact ⟨h2, h4⟩
          rwa [weigh_eq_zero fun t ht => (hother t ht).1, added_eq_zero fun t ht => (hother t ht).2,
            add_zero, add_zero] at hx
        · push Not at hshown
          rw [weigh_eq_zero fun s hs => (hshown s hs).1, added_eq_zero fun s hs => (hshown s hs).2]
      refine ⟨iha ha hleft, ihb hb ?_⟩
      rw [Drawn.weigh, Drawn.added, hleft] at h
      exact add_left_cancel h
  | pow a n ih => exact fun h => ih hapart h

theorem Simple.grouped {kr : KindReg} {u : UnitExprT} (hu : Produced kr u) (hsimple : Simple u)
    (h : Readable u) : Grouped u := by
  have hsum := Drawn.sum_reading (draw u) .join 1 0
  rw [h.same, sum_parts, exponents_eq_weigh hu, Multiset.sum_zero, zero_add] at hsum
  have hnot : ∀ a b, u ≠ .uJoin a b := by
    rintro a b rfl
    have hjoinless := hsimple.joinless
    rw [draw, Drawn.ops] at hjoinless
    exact hjoinless (List.mem_append_right _ List.mem_cons_self)
  exact ⟨h.powers, carries_of_weigh_eq hsimple.apart hsum, u, [], slJoinCollect_of_not_join hnot,
    fun hlast => hsimple.joinless (List.mem_of_getLast? hlast), by simp⟩

end Simple

/-- What the parser produces, however deep its groups, keeps its meaning when it is formatted where
operators and powers stand over the factor beside them only; and only there, where no two symbols
could make up for one another. -/
theorem format_preserves_iff (kr : KindReg) (src : Source) (fuel : Nat) (u : UnitExprT)
    (rest : List Token) (h : parseUnitExprFuel kr fuel src.tokens = some (u, rest)) :
    (Grouped u → Preserved kr u) ∧ (Simple u → (Preserved kr u ↔ Grouped u)) := by
  have hu := produced_of_parse src h
  refine ⟨fun hgrouped => (preserved_iff hu).2 (hgrouped.readable hu), fun hsimple => ?_⟩
  rw [preserved_iff hu]
  exact ⟨hsimple.grouped hu, fun hgrouped => hgrouped.readable hu⟩

/-- A registry without kinds. -/
def noKinds : KindReg := ⟨[], fun _ hi => absurd hi List.not_mem_nil⟩

/-- `m/s`. -/
def speed : Source where
  tokens := [.ident [109], .slash, .ident [115]]
  lexed := by
    simp only [List.forall_mem_cons, Token.Lexed]
    exact ⟨⟨109, [], rfl, by decide⟩, trivial, ⟨115, [], rfl, by decide⟩, by simp⟩

/-- `(m*s)^2`, which is printed as `m*s^2`. -/
def squared : Source where
  tokens := [.lparen, .ident [109], .star, .ident [115], .rparen, .caret, .int [50]]
  lexed := by
    simp only [List.forall_mem_cons, Token.Lexed]
    exact ⟨trivial, ⟨109, [], rfl, by decide⟩, trivial, ⟨115, [], rfl, by decide⟩, trivial, trivial,
      ⟨50, [], rfl, by decide⟩, by simp⟩

def speedExpr : UnitExprT := .uMul (.uSym [109]) (.uInv (.uSym [115]))

def squaredExpr : UnitExprT := .uPow (.uMul (.uSym [109]) (.uSym [115])) 2

theorem parse_speed : parseUnitExpr noKinds speed.tokens = some (speedExpr, []) := by
  simp [parseUnitExpr, parseUnitExprFuel, parseUnitTerm, parseUnitFactor, unitPower,
    parseUnitExprRest, isUnitOp, unitOpNode, speed, speedExpr]

theorem parse_squared : parseUnitExpr noKinds squared.tokens = some (squaredExpr, []) := by
  have hint : decodeInt [50] = 2 := by decide
  simp [parseUnitExpr, parseUnitExprFuel, parseUnitTerm, parseUnitFactor, unitPower, unitGroupClose,
    parseUnitExprRest, isUnitOp, unitOpNode, parseUnitSignedInt, hint, squared, squaredExpr]

theorem grouped_speed : Grouped speedExpr := by
  have hdraw : draw speedExpr = .bin .over_ (.sym [109]) (.sym [115]) := by
    rw [speedExpr, draw, draw, draw]
  refine ⟨?_, ?_, speedExpr, [], ?_, ?_, by simp⟩
  · rw [hdraw]
    exact ⟨trivial, trivial⟩
  · rw [hdraw]
    exact ⟨⟨rfl, .inr (respell_plain (by decide))⟩, ⟨rfl, .inr (respell_plain (by decide))⟩⟩
  · rw [speedExpr, slJoinCollect]
    exact fun a b h => by cases h
  · rw [hdraw]
    exact fun h => by cases h

theorem format_preserves_speed : Preserved noKinds speedExpr :=
  (format_preserves_iff noKinds speed 4 speedExpr [] parse_speed).1 grouped_speed

/-- The power reaches the second symbol only. -/
theorem not_preserved_squared :
    parseUnitExpr noKinds squared.tokens = some (squaredExpr, []) ∧ ¬ Preserved noKinds squaredExpr := by
  refine ⟨parse_squared, fun hpreserved => ?_⟩
  have hsame := ((preserved_iff (produced_of_parse squared parse_squared)).1 hpreserved).same
  have hparts : parts squaredExpr = {2 • (single [109] + single [115])} := by
    rw [parts_of_not_join (fun a b h => by cases h), exponents, squaredExpr, UnitExprT.value,
      UnitExprT.value, UnitExprT.value, UnitExprT.value]
    rfl
  rw [hparts, squaredExpr] at hsame
  simp only [draw, Drawn.reading, Op.step, zero_add, Multiset.sum_singleton, Multiset.singleton_inj,
    respell_plain (s := [109]) (by decide), respell_plain (s := [115]) (by decide)] at hsame
  have hm := congrFun hsame [109]
  simp [single] at hm

end Kaikai.UnitText
