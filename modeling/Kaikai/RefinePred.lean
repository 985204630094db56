import Kaikai.Str
import Kaikai.Word64
import Mathlib.Data.List.Lex

namespace Kaikai.RefinePred

open Kaikai.Str
open Kaikai.Word64 (Word)

inductive BinOp where
  | add | sub | mul | div | mod | pow | concat | eq | ne | lt | gt | le | ge | and | or
deriving DecidableEq, Repr

inductive UnOp where
  | neg | not
deriving DecidableEq, Repr

/-- The forms of a predicate; an integer literal has a 64-bit value, and the other literals are
those of `L`. -/
inductive Expr (L : Type) where
  | int (n : Word)
  | lit (l : L)
  | name (w : Str)
  | sym (id inst : Int)
  | loc (id : Int)
  | call (f : Expr L) (args : List (Expr L))
  | field (base : Expr L) (n : Str)
  | binop (op : BinOp) (a b : Expr L)
  | unop (op : UnOp) (x : Expr L)

variable {L : Type}

/-- What a predicate ranges over: a name as it was written, or a local binder. -/
inductive PredVar where
  | name (w : Str)
  | loc (id : Int)

def predSelf : Str := ascii "self"

def pvWrittenSelf : PredVar := .name predSelf

def localEq (a b : Int) : Bool := a ≠ 0 && a = b

def pvIs : PredVar → Expr L → Bool
  | .name n, .name w => w = n
  | .loc k, .loc l => localEq l k
  | _, _ => false

mutual

def substSelfKind (v : PredVar) (read : Expr L) (e : Expr L) : Expr L :=
  if pvIs v e then read
  else match e with
    | .call f args => .call (substSelfKind v read f) (substSelfList v read args)
    | .field base n => .field (substSelfKind v read base) n
    | .binop op a b => .binop op (substSelfKind v read a) (substSelfKind v read b)
    | .unop op x => .unop op (substSelfKind v read x)
    | e => e

def substSelfList (v : PredVar) (read : Expr L) : List (Expr L) → List (Expr L)
  | [] => []
  | e :: es => substSelfKind v read e :: substSelfList v read es

end

/-- The name of a parameter for the `self` of its refinement. -/
def substWrittenSelf (e : Expr L) (pname : Str) : Expr L :=
  substSelfKind pvWrittenSelf (.name pname) e

/-- The order of the operands of an equality: names, binders, declarations, literals. -/
def cmpLt (a b : Expr L) (written : Bool) : Bool :=
  match a, b with
  | .name an, .name bn => written && an < bn
  | .name _, _ => true
  | .loc _, .name _ => false
  | .loc al, .loc bl => al < bl
  | .loc _, _ => true
  | .sym _ _, .name _ => false
  | .sym _ _, .loc _ => false
  | .sym sa _, .sym sb _ => sa < sb
  | .sym _ _, _ => true
  | .int _, .name _ => false
  | .int _, .loc _ => false
  | .int _, .sym _ _ => false
  | .int av, .int bv => av.1 < bv.1
  | .int _, _ => true
  | _, _ => false

def binopIsEquality (op : BinOp) : Bool := op = .eq || op = .ne

def canon (written : Bool) : Expr L → Expr L
  | .binop op a b =>
      let ca := canon written a
      let cb := canon written b
      if op = .lt then .binop .gt cb ca
      else if op = .le then .binop .ge cb ca
      else if binopIsEquality op && !cmpLt ca cb written then .binop op cb ca
      else .binop op ca cb
  | .unop op x => .unop op (canon written x)
  | e => e

section Equality

variable (litEq : L → L → Bool)

mutual

/-- Structural equality over one of literals; a written name is its text where `byText` holds, else
it equals nothing. -/
def exprEq (byText : Bool) : Expr L → Expr L → Bool
  | .binop aop al ar, .binop bop bl br => aop = bop && exprEq byText al bl && exprEq byText ar br
  | .unop aop ai, .unop bop bi => aop = bop && exprEq byText ai bi
  | .field ab an, .field bb bn => an = bn && exprEq byText ab bb
  | .call af aa, .call bf ba => exprEq byText af bf && exprListEq byText aa ba
  | .int av, .int bv => av.1 = bv.1
  | .lit av, .lit bv => litEq av bv
  | .name an, .name bn => byText && an = bn
  | .sym sa ia, .sym sb ib => sa ≥ 0 && sa = sb && ia = ib
  | .loc la, .loc lb => localEq la lb
  | _, _ => false

def exprListEq (byText : Bool) : List (Expr L) → List (Expr L) → Bool
  | [], [] => true
  | ah :: arest, bh :: brest => exprEq byText ah bh && exprListEq byText arest brest
  | _, _ => false

end

end Equality

/-- Predicates over the integers have the truth values for their other literals. -/
abbrev Pred := Expr Bool

def exprWrittenEq (a b : Pred) : Bool := exprEq (fun av bv => av = bv) true a b

/-- The outer `none` is a trap of the compiler's own arithmetic. -/
def evalIntOp (op : BinOp) (a b : Word) : Option (Option Word) :=
  match op with
  | .add => some (some (.ofInt (a.1 + b.1)))
  | .sub => some (some (.ofInt (a.1 - b.1)))
  | .mul => some (some (.ofInt (a.1 * b.1)))
  | .div => if b.1 = 0 then some none else (Word.ofDiv Word64.div a b).map some
  | .mod => if b.1 = 0 then some none else (Word.ofDiv Word64.mod a b).map some
  | _ => some none

/-- The value of an expression of literals and arithmetic. -/
def tryEvalInt : Pred → Option (Option Word)
  | .int n => some (some n)
  | .unop .neg x => do
      let v ← tryEvalInt x
      some (v.map fun v => .ofInt (0 - v.1))
  | .binop op a b => do
      match ← tryEvalInt a with
      | none => some none
      | some av =>
          match ← tryEvalInt b with
          | none => some none
          | some bv => evalIntOp op av bv
  | _ => some none

inductive Interval where
  | top
  | bot
  | ival (lo hi : Word)

def ivalLt : Interval → Interval → Option Bool
  | .bot, _ => some true
  | .top, .bot => some true
  | .top, _ => none
  | .ival _ _, .bot => some true
  | .ival _ _, .top => none
  | .ival alo ahi, .ival blo bhi =>
      if ahi.1 < blo.1 then some true else if alo.1 ≥ bhi.1 then some false else none

def ivalLe : Interval → Interval → Option Bool
  | .bot, _ => some true
  | .top, .bot => some true
  | .top, _ => none
  | .ival _ _, .bot => some true
  | .ival _ _, .top => none
  | .ival alo ahi, .ival blo bhi =>
      if ahi.1 ≤ blo.1 then some true else if alo.1 > bhi.1 then some false else none

def ivalGt (a b : Interval) : Option Bool := ivalLt b a

def ivalGe (a b : Interval) : Option Bool := ivalLe b a

def ivalEq : Interval → Interval → Option Bool
  | .bot, _ => some true
  | .top, .bot => some true
  | .top, _ => none
  | .ival _ _, .bot => some true
  | .ival _ _, .top => none
  | .ival alo ahi, .ival blo bhi =>
      if alo.1 = ahi.1 ∧ blo.1 = bhi.1 ∧ alo.1 = blo.1 then some true
      else if ahi.1 < blo.1 ∨ alo.1 > bhi.1 then some false
      else none

def ivalNe (a b : Interval) : Option Bool := (ivalEq a b).map not

def ivalIntMax : Word := ⟨9223372036854775807, by decide⟩

def ivalIntMin : Word := ⟨-9223372036854775808, by decide⟩

/-- The values `x` of `x OP k`; the ends wrap at the ends of the type. -/
def intervalFromCmp (op : BinOp) (k : Word) : Option Interval :=
  match op with
  | .gt => some (.ival (.ofInt (k.1 + 1)) ivalIntMax)
  | .ge => some (.ival k ivalIntMax)
  | .lt => some (.ival ivalIntMin (.ofInt (k.1 - 1)))
  | .le => some (.ival ivalIntMin k)
  | .eq => some (.ival k k)
  | _ => none

def intervalOfPred (e : Pred) (pname : PredVar) : Option (Option Interval) :=
  match e with
  | .binop op a b =>
      if pvIs pname a then do
        match ← tryEvalInt b with
        | none => some none
        | some k => some (intervalFromCmp op k)
      else some none
  | _ => some none

def checkCmp (op : BinOp) (iv kiv : Interval) : Option Bool :=
  match op with
  | .gt => ivalGt iv kiv
  | .ge => ivalGe iv kiv
  | .lt => ivalLt iv kiv
  | .le => ivalLe iv kiv
  | .eq => ivalEq iv kiv
  | .ne => ivalNe iv kiv
  | _ => none

def checkPredWithInterval (req : Pred) (pname : PredVar) (iv : Interval) : Option (Option Bool) :=
  match req with
  | .binop op a b =>
      if pvIs pname a then do
        match ← tryEvalInt b with
        | none => some none
        | some k => some (checkCmp op iv (.ival k k))
      else some none
  | _ => some none

def predEntailedByRefinement (req : Pred) (pname : PredVar) (refPred : Pred) : Option Bool := do
  match ← intervalOfPred refPred pname with
  | none => some false
  | some iv =>
      let holds ← checkPredWithInterval req pname iv
      some (holds = some true)

/-- Whether the refinements of the parameters imply `pred`; `regex` is the arm that compares
patterns, and `none` is a trap of the compiler. -/
def predEntailedByParams (regex : Pred → Str → Pred → Bool) (pred : Pred) :
    List (Str × Pred) → Option Bool
  | [] => some false
  | (pname, ppExpr) :: rest =>
      if exprWrittenEq pred ppExpr then some true
      else if regex pred pname ppExpr then some true
      else
        let canonReq := canon true pred
        let canonRef := canon true (substWrittenSelf ppExpr pname)
        if exprWrittenEq canonReq canonRef then some true
        else do
          if ← predEntailedByRefinement canonReq (.name pname) canonRef then some true
          else predEntailedByParams regex pred rest

end Kaikai.RefinePred
