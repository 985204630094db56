import Kaikai.RefinePred

namespace Kaikai.Intervals

open Kaikai.RefinePred (BinOp UnOp Interval localEq ivalLt ivalLe ivalGt ivalGe ivalEq ivalNe)
open Kaikai.Word64 (Word wrap)

def ivalIntMin (a b : Word) : Word := if a.1 < b.1 then a else b

def ivalIntMax (a b : Word) : Word := if a.1 > b.1 then a else b

def ivalJoin (a b : Interval) : Interval :=
  match a with
  | .bot => b
  | .top => .top
  | .ival alo ahi =>
      match b with
      | .bot => a
      | .top => .top
      | .ival blo bhi => .ival (ivalIntMin alo blo) (ivalIntMax ahi bhi)

/-- The three ways in which an operation treats the ends of the lattice alike, and what it does
with two ranges. -/
def ivalRanges (f : Word → Word → Word → Word → Interval) (a b : Interval) : Interval :=
  match a with
  | .bot => .bot
  | .top =>
      match b with
      | .bot => .bot
      | _ => .top
  | .ival alo ahi =>
      match b with
      | .bot => .bot
      | .top => .top
      | .ival blo bhi => f alo ahi blo bhi

def ivalAdd : Interval → Interval → Interval :=
  ivalRanges fun alo ahi blo bhi => .ival (.ofInt (alo.1 + blo.1)) (.ofInt (ahi.1 + bhi.1))

def ivalSub : Interval → Interval → Interval :=
  ivalRanges fun alo ahi blo bhi => .ival (.ofInt (alo.1 - bhi.1)) (.ofInt (ahi.1 - blo.1))

def ivalMul : Interval → Interval → Interval :=
  ivalRanges fun alo ahi blo bhi =>
    let p1 := Word.ofInt (alo.1 * blo.1)
    let p2 := Word.ofInt (alo.1 * bhi.1)
    let p3 := Word.ofInt (ahi.1 * blo.1)
    let p4 := Word.ofInt (ahi.1 * bhi.1)
    let m1 := ivalIntMin p1 p2
    let m2 := ivalIntMin p3 p4
    let lo := ivalIntMin m1 m2
    let h1 := ivalIntMax p1 p2
    let h2 := ivalIntMax p3 p4
    let hi := ivalIntMax h1 h2
    .ival lo hi

/-- The intervals of the binders, innermost first. -/
abbrev IntervalEnv := List (Int × Interval)

def ieLookup (env : IntervalEnv) (l : Int) : Interval :=
  match env with
  | [] => .top
  | (k, iv) :: rest => if localEq k l then iv else ieLookup rest l

def ieExtend (env : IntervalEnv) (l : Int) (iv : Interval) : IntervalEnv := (l, iv) :: env

/-- A plain name, or another pattern with the binders it holds. -/
inductive Pattern where
  | bind (l : Int)
  | other (kind : ℕ) (binders : List Int)

mutual

/-- Expressions; the kinds into which the walker does not look are `other`. -/
inductive Expr where
  | int (n : Word)
  | loc (l : Int)
  | binop (op : BinOp) (a b : Expr)
  | unop (op : UnOp) (x : Expr)
  | cond (c t : Expr) (eo : Option Expr)
  | matching (scr : Expr) (arms : List Arm)
  | block (stmts : List Stmt) (tail : Option Expr)
  | other (kind : ℕ)

inductive Arm where
  | arm (pat : Pattern) (guard : Option Expr) (body : Expr)

/-- A binding, or a statement that binds nothing. -/
inductive Stmt where
  | letIn (pat : Pattern) (e : Expr)
  | run (e : Expr)

end

def ivalOfBinop (op : BinOp) (ia ib : Interval) : Interval :=
  match op with
  | .add => ivalAdd ia ib
  | .sub => ivalSub ia ib
  | .mul => ivalMul ia ib
  | _ => .top

def ivalOfUnop (op : UnOp) (ix : Interval) : Interval :=
  match op with
  | .neg =>
      match ix with
      | .bot => .bot
      | .top => .top
      | .ival lo hi => .ival (.ofInt (0 - hi.1)) (.ofInt (0 - lo.1))
  | .not => .top

def ivalBindPat (pat : Pattern) (iv : Interval) (env : IntervalEnv) : IntervalEnv :=
  match pat with
  | .bind l => ieExtend env l iv
  | .other _ _ => env

mutual

def ivalOfExpr : Expr → IntervalEnv → Interval
  | .int n, _ => .ival n n
  | .loc l, env => ieLookup env l
  | .binop op a b, env => ivalOfBinop op (ivalOfExpr a env) (ivalOfExpr b env)
  | .unop op x, env => ivalOfUnop op (ivalOfExpr x env)
  | .cond _ _ none, _ => .top
  | .cond _ t (some e), env => ivalJoin (ivalOfExpr t env) (ivalOfExpr e env)
  | .matching _ arms, env => ivalOfMatchLoop arms env .bot
  | .block _ none, _ => .top
  | .block stmts (some e), env => ivalOfExpr e (ivalThreadStmts stmts env)
  | .other _, _ => .top

def ivalOfMatchLoop : List Arm → IntervalEnv → Interval → Interval
  | [], _, acc => acc
  | .arm _ _ body :: rest, env, acc =>
      ivalOfMatchLoop rest env (ivalJoin acc (ivalOfExpr body env))

def ivalThreadStmts : List Stmt → IntervalEnv → IntervalEnv
  | [], env => env
  | .letIn pat e :: rest, env => ivalThreadStmts rest (ivalBindPat pat (ivalOfExpr e env) env)
  | .run _ :: rest, env => ivalThreadStmts rest env

end

inductive Value where
  | int (n : Word)
  | bool (b : Bool)
  | unit
  | other (k : ℕ)

abbrev Env := Int → Value

/-- What an expression takes from its program: the operators on values that are no integers, the
other operators (which see whether an operand has a value), patterns and the other kinds. -/
structure Meaning where
  arith : BinOp → Value → Value → Option Value
  op : BinOp → Option Value → Option Value → Option Value
  unop : UnOp → Value → Option Value
  fits : ℕ → Value → Option (List Value)
  other : ℕ → Env → Option Value

/-- The integer operations wrap. -/
def arithValue (M : Meaning) (op : BinOp) : Value → Value → Option Value
  | .int x, .int y =>
      match op with
      | .add => some (.int (.ofInt (x.1 + y.1)))
      | .sub => some (.int (.ofInt (x.1 - y.1)))
      | .mul => some (.int (.ofInt (x.1 * y.1)))
      | op => M.arith op (.int x) (.int y)
  | v, w => M.arith op v w

def isArith (op : BinOp) : Prop := op = .add ∨ op = .sub ∨ op = .mul

instance (op : BinOp) : Decidable (isArith op) := inferInstanceAs (Decidable (_ ∨ _))

def evalBinop (M : Meaning) (op : BinOp) (a b : Option Value) : Option Value :=
  if isArith op then do arithValue M op (← a) (← b) else M.op op a b

def evalUnop (M : Meaning) (op : UnOp) : Value → Option Value
  | .int n => if op = .neg then some (.int (.ofInt (0 - n.1))) else M.unop op (.int n)
  | v => M.unop op v

def bindAll : List Int → List Value → Env → Env
  | l :: ls, v :: vs, ρ => bindAll ls vs (Function.update ρ l v)
  | _, _, ρ => ρ

/-- The locals after a pattern, where the pattern fits. -/
def bindPat (M : Meaning) (pat : Pattern) (v : Value) (ρ : Env) : Option Env :=
  match pat with
  | .bind l => some (Function.update ρ l v)
  | .other kind ls => (M.fits kind v).map fun vs => bindAll ls vs ρ

mutual

def eval (M : Meaning) : Expr → Env → Option Value
  | .int n, _ => some (.int n)
  | .loc l, ρ => some (ρ l)
  | .binop op a b, ρ => evalBinop M op (eval M a ρ) (eval M b ρ)
  | .unop op x, ρ => (eval M x ρ).bind (evalUnop M op)
  | .cond c t none, ρ =>
      match eval M c ρ with
      | some (.bool true) => (eval M t ρ).map fun _ => .unit
      | some (.bool false) => some .unit
      | _ => none
  | .cond c t (some e), ρ =>
      match eval M c ρ with
      | some (.bool true) => eval M t ρ
      | some (.bool false) => eval M e ρ
      | _ => none
  | .matching scr arms, ρ =>
      match eval M scr ρ with
      | none => none
      | some v => evalArms M arms v ρ
  | .block stmts none, ρ => (evalStmts M stmts ρ).map fun _ => .unit
  | .block stmts (some e), ρ =>
      match evalStmts M stmts ρ with
      | none => none
      | some ρ1 => eval M e ρ1
  | .other kind, ρ => M.other kind ρ

/-- The first arm whose pattern fits and whose guard holds. -/
def evalArms (M : Meaning) : List Arm → Value → Env → Option Value
  | [], _, _ => none
  | .arm pat none body :: rest, v, ρ =>
      match bindPat M pat v ρ with
      | none => evalArms M rest v ρ
      | some ρ1 => eval M body ρ1
  | .arm pat (some guard) body :: rest, v, ρ =>
      match bindPat M pat v ρ with
      | none => evalArms M rest v ρ
      | some ρ1 =>
          match eval M guard ρ1 with
          | some (.bool true) => eval M body ρ1
          | some (.bool false) => evalArms M rest v ρ
          | _ => none

def evalStmts (M : Meaning) : List Stmt → Env → Option Env
  | [], ρ => some ρ
  | .letIn pat e :: rest, ρ =>
      match eval M e ρ with
      | none => none
      | some v =>
          match bindPat M pat v ρ with
          | none => none
          | some ρ1 => evalStmts M rest ρ1
  | .run e :: rest, ρ =>
      match eval M e ρ with
      | none => none
      | some _ => evalStmts M rest ρ

end

/-- The values of an interval. -/
def Contains : Interval → Value → Prop
  | .top, _ => True
  | .bot, _ => False
  | .ival lo hi, .int n => lo.1 ≤ n.1 ∧ n.1 ≤ hi.1
  | .ival _ _, _ => False

/-- Every local has a value of its interval. -/
def Within (env : IntervalEnv) (ρ : Env) : Prop := ∀ l, Contains (ieLookup env l) (ρ l)

/-- Whatever the expression evaluates to lies in its interval. -/
def Sound (e : Expr) (env : IntervalEnv) : Prop :=
  ∀ (M : Meaning) (ρ : Env) (v : Value), Within env ρ → eval M e ρ = some v →
    Contains (ivalOfExpr e env) v

/-- The answers of the comparisons are right for all integers of the two intervals. -/
def Compares (a b : Interval) : Prop :=
  ∀ (x y : Word) (t : Bool), Contains a (.int x) → Contains b (.int y) →
    (ivalLt a b = some t → (x.1 < y.1 ↔ t = true)) ∧ (ivalLe a b = some t → (x.1 ≤ y.1 ↔ t = true)) ∧
    (ivalGt a b = some t → (x.1 > y.1 ↔ t = true)) ∧ (ivalGe a b = some t → (x.1 ≥ y.1 ↔ t = true)) ∧
    (ivalEq a b = some t → (x = y ↔ t = true)) ∧ (ivalNe a b = some t → (x ≠ y ↔ t = true))

/-- The two integers wrap by the same multiple of `2 ^ 64`. -/
def OneBand (low high : ℤ) : Prop := wrap low - low = wrap high - high

instance (low high : ℤ) : Decidable (OneBand low high) := inferInstanceAs (Decidable (_ = _))

/-- The least and the greatest exact result of an operation over two ranges. -/
def exactEnds (op : BinOp) (alo ahi blo bhi : ℤ) : ℤ × ℤ :=
  match op with
  | .add => (alo + blo, ahi + bhi)
  | .sub => (alo - bhi, ahi - blo)
  | _ => (min (min (alo * blo) (alo * bhi)) (min (ahi * blo) (ahi * bhi)),
      max (max (alo * blo) (alo * bhi)) (max (ahi * blo) (ahi * bhi)))

/-- All the exact results lie in one band. -/
def Unbroken (op : BinOp) : Interval → Interval → Prop
  | .ival alo ahi, .ival blo bhi =>
      OneBand (exactEnds op alo.1 ahi.1 blo.1 bhi.1).1 (exactEnds op alo.1 ahi.1 blo.1 bhi.1).2
  | _, _ => True

instance (op : BinOp) : (a b : Interval) → Decidable (Unbroken op a b)
  | .ival _ _, .ival _ _ => inferInstanceAs (Decidable (OneBand _ _))
  | .bot, _ => isTrue trivial
  | .top, _ => isTrue trivial
  | .ival _ _, .bot => isTrue trivial
  | .ival _ _, .top => isTrue trivial

/-- The exact results, wrapped. -/
def exactRange (op : BinOp) : Interval → Interval → Interval :=
  ivalRanges fun alo ahi blo bhi =>
    .ival (.ofInt (exactEnds op alo.1 ahi.1 blo.1 bhi.1).1)
      (.ofInt (exactEnds op alo.1 ahi.1 blo.1 bhi.1).2)

def Pattern.binders : Pattern → List Int
  | .bind l => [l]
  | .other _ ls => ls

/-- The pattern binds no local that has an interval. -/
def Fresh (pat : Pattern) (env : IntervalEnv) : Prop := ∀ l ∈ pat.binders, ieLookup env l = .top

mutual

/-- The intervals of an expression whose operations stay in one band each and whose patterns bind
fresh locals. -/
inductive Steady : IntervalEnv → Expr → Interval → Prop
  | int (env : IntervalEnv) (n : Word) : Steady env (.int n) (.ival n n)
  | loc (env : IntervalEnv) (l : Int) : Steady env (.loc l) (ieLookup env l)
  | arith {env : IntervalEnv} {op : BinOp} {a b : Expr} {ia ib : Interval} (hop : isArith op)
      (ha : Steady env a ia) (hb : Steady env b ib) (h : Unbroken op ia ib) :
      Steady env (.binop op a b) (exactRange op ia ib)
  | binop (env : IntervalEnv) {op : BinOp} (hop : ¬ isArith op) (a b : Expr) :
      Steady env (.binop op a b) .top
  | neg {env : IntervalEnv} {x : Expr} {ix : Interval} (hx : Steady env x ix)
      (h : Unbroken .sub (.ival (.ofInt 0) (.ofInt 0)) ix) :
      Steady env (.unop .neg x) (exactRange .sub (.ival (.ofInt 0) (.ofInt 0)) ix)
  | not (env : IntervalEnv) (x : Expr) : Steady env (.unop .not x) .top
  | condUnit (env : IntervalEnv) (c t : Expr) : Steady env (.cond c t none) .top
  | cond {env : IntervalEnv} {t e : Expr} {it ie : Interval} (c : Expr) (ht : Steady env t it)
      (he : Steady env e ie) : Steady env (.cond c t (some e)) (ivalJoin it ie)
  | matching {env : IntervalEnv} {arms : List Arm} {iv : Interval} (scr : Expr)
      (h : SteadyArms env arms .bot iv) : Steady env (.matching scr arms) iv
  | blockUnit (env : IntervalEnv) (stmts : List Stmt) : Steady env (.block stmts none) .top
  | block {env env1 : IntervalEnv} {stmts : List Stmt} {e : Expr} {iv : Interval}
      (h : SteadyStmts env stmts env1) (he : Steady env1 e iv) :
      Steady env (.block stmts (some e)) iv
  | other (env : IntervalEnv) (kind : ℕ) : Steady env (.other kind) .top

inductive SteadyArms : IntervalEnv → List Arm → Interval → Interval → Prop
  | nil (env : IntervalEnv) (acc : Interval) : SteadyArms env [] acc acc
  | cons {env : IntervalEnv} {pat : Pattern} {body : Expr} {rest : List Arm}
      {acc ib iv : Interval} (guard : Option Expr) (hpat : Fresh pat env)
      (hbody : Steady env body ib) (hrest : SteadyArms env rest (ivalJoin acc ib) iv) :
      SteadyArms env (.arm pat guard body :: rest) acc iv

inductive SteadyStmts : IntervalEnv → List Stmt → IntervalEnv → Prop
  | nil (env : IntervalEnv) : SteadyStmts env [] env
  | bind {env env1 : IntervalEnv} {e : Expr} {iv : Interval} {rest : List Stmt} (l : Int)
      (he : Steady env e iv) (hrest : SteadyStmts (ieExtend env l iv) rest env1) :
      SteadyStmts env (.letIn (.bind l) e :: rest) env1
  | letIn {env env1 : IntervalEnv} {kind : ℕ} {ls : List Int} {rest : List Stmt} (e : Expr)
      (hpat : Fresh (.other kind ls) env) (hrest : SteadyStmts env rest env1) :
      SteadyStmts env (.letIn (.other kind ls) e :: rest) env1
  | run {env env1 : IntervalEnv} {rest : List Stmt} (e : Expr)
      (hrest : SteadyStmts env rest env1) : SteadyStmts env (.run e :: rest) env1

end

end Kaikai.Intervals
