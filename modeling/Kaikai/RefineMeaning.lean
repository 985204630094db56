import Kaikai.RefinePred

namespace Kaikai.RefinePred

open Kaikai.Str
open Kaikai.Word64 (Word)

/-- Values; reals are those of `R`. -/
inductive Value (R : Type) where
  | int (n : Word)
  | real (r : R)
  | bool (b : Bool)
  | char (c : ℕ)
  | str (s : Str)
  | unit
  | other (k : ℕ)

/-- What a predicate takes from its program and the machine: the comparisons of reals, where a NaN
stands in no order, values of declared types with their order, literals, resolved references,
functions, fields and the operators beside those of integers and truth values. -/
structure Meaning (R L : Type) where
  realLess : R → R → Bool
  realLe : R → R → Bool
  realEq : R → R → Bool
  realEq_comm : ∀ r s, realEq r s = realEq s r
  order : ℕ → ℕ → Option Ordering
  order_swap : ∀ k l, order l k = (order k l).map Ordering.swap
  same : ℕ → ℕ → Bool
  same_comm : ∀ k l, same k l = same l k
  literal : L → Option (Value R)
  sym : Int → Int → Value R
  loc : Int → Value R
  apply : Value R → List (Value R) → Option (Value R)
  field : Value R → Str → Option (Value R)
  arith : BinOp → Value R → Value R → Option (Value R)
  unary : UnOp → Value R → Option (Value R)

abbrev Env (R : Type) := Str → Value R

section Operators

variable {R L : Type} (M : Meaning R L)

/-- `<`; values without an order between them trap. -/
def less : Value R → Value R → Option Bool
  | .int x, .int y => some (x.1 < y.1)
  | .real r, .real s => some (M.realLess r s)
  | .char c, .char d => some (c < d)
  | .str s, .str t => some (s < t)
  | .other k, .other l => (M.order k l).map (· == .lt)
  | _, _ => none

def greater : Value R → Value R → Option Bool
  | .int x, .int y => some (x.1 > y.1)
  | .real r, .real s => some (M.realLess s r)
  | .char c, .char d => some (c > d)
  | .str s, .str t => some (s > t)
  | .other k, .other l => (M.order k l).map (· == .gt)
  | _, _ => none

/-- `<=`: the negation of `>`, except of reals. -/
def lessEq : Value R → Value R → Option Bool
  | .real r, .real s => some (M.realLe r s)
  | a, b => (greater M a b).map not

def greaterEq : Value R → Value R → Option Bool
  | .real r, .real s => some (M.realLe s r)
  | a, b => (less M a b).map not

def same : Value R → Value R → Bool
  | .int x, .int y => x.1 = y.1
  | .real r, .real s => M.realEq r s
  | .bool a, .bool b => a = b
  | .char c, .char d => c = d
  | .str s, .str t => s = t
  | .unit, .unit => true
  | .other k, .other l => M.same k l
  | _, _ => false

/-- Arithmetic; `none` is a trap. -/
def arithValue (op : BinOp) : Value R → Value R → Option (Value R)
  | .int x, .int y =>
      match op with
      | .add => some (.int (.ofInt (x.1 + y.1)))
      | .sub => some (.int (.ofInt (x.1 - y.1)))
      | .mul => some (.int (.ofInt (x.1 * y.1)))
      | .div => (Word.ofDiv Word64.div x y).map .int
      | .mod => (Word.ofDiv Word64.mod x y).map .int
      | op => M.arith op (.int x) (.int y)
  | a, b => M.arith op a b

/-- The right operand of a connective is evaluated when the left one does not decide. -/
def connective (decides : Bool) : Option (Value R) → Option (Value R) → Option (Value R)
  | some (.bool a), b =>
      if a = decides then some (.bool a)
      else
        match b with
        | some (.bool b) => some (.bool b)
        | _ => none
  | _, _ => none

def binopValue (op : BinOp) (a b : Value R) : Option (Value R) :=
  match op with
  | .eq => some (.bool (same M a b))
  | .ne => some (.bool !same M a b)
  | .lt => (less M a b).map .bool
  | .gt => (greater M a b).map .bool
  | .le => (lessEq M a b).map .bool
  | .ge => (greaterEq M a b).map .bool
  | op => arithValue M op a b

def evalBinop (op : BinOp) (a b : Option (Value R)) : Option (Value R) :=
  if op = .and then connective false a b
  else if op = .or then connective true a b
  else do binopValue M op (← a) (← b)

def evalUnop : UnOp → Value R → Option (Value R)
  | .neg, .int n => some (.int (.ofInt (0 - n.1)))
  | .not, .bool b => some (.bool !b)
  | op, v => M.unary op v

theorem greater_swap (v w : Value R) : greater M w v = less M v w := by
  cases v <;> cases w <;> try rfl
  case other.other k l =>
      rw [greater, less, M.order_swap]
      cases M.order k l with
      | none => rfl
      | some o => cases o <;> rfl

theorem greaterEq_swap (v w : Value R) : greaterEq M w v = lessEq M v w := by
  cases v <;> cases w <;> first
    | rfl
    | exact congrArg (Option.map not) (greater_swap M _ _).symm

theorem same_swap (v w : Value R) : same M w v = same M v w := by
  cases v <;> cases w <;> simp only [same, eq_comm, M.realEq_comm, M.same_comm]

theorem evalBinop_flip (a b : Option (Value R)) :
    evalBinop M .gt b a = evalBinop M .lt a b ∧ evalBinop M .ge b a = evalBinop M .le a b ∧
      evalBinop M .eq b a = evalBinop M .eq a b ∧ evalBinop M .ne b a = evalBinop M .ne a b := by
  cases a with
  | none => cases b <;> exact ⟨rfl, rfl, rfl, rfl⟩
  | some v =>
      cases b with
      | none => exact ⟨rfl, rfl, rfl, rfl⟩
      | some w =>
          refine ⟨?_, ?_, ?_, ?_⟩
          · exact congrArg (Option.map Value.bool) (greater_swap M v w)
          · exact congrArg (Option.map Value.bool) (greaterEq_swap M v w)
          · exact congrArg (fun e => some (Value.bool e)) (same_swap M v w)
          · exact congrArg (fun e => some (Value.bool !e)) (same_swap M v w)

end Operators

section Evaluation

variable {R L : Type} (M : Meaning R L) (env : Env R)

mutual

def eval : Expr L → Option (Value R)
  | .int n => some (.int n)
  | .lit l => M.literal l
  | .name w => some (env w)
  | .sym id inst => some (M.sym id inst)
  | .loc id => some (M.loc id)
  | .call f args => do M.apply (← eval f) (← evalList args)
  | .field base n => do M.field (← eval base) n
  | .binop op a b => evalBinop M op (eval a) (eval b)
  | .unop op x => do evalUnop M op (← eval x)

def evalList : List (Expr L) → Option (List (Value R))
  | [] => some []
  | e :: es => do some ((← eval e) :: (← evalList es))

end

theorem eval_canon (written : Bool) (e : Expr L) : eval M env (canon written e) = eval M env e := by
  fun_induction canon written e with
  | case1 a b ca cb iha ihb =>
      rw [eval, eval, iha, ihb]
      exact (evalBinop_flip M _ _).1
  | case2 a b ca cb hlt iha ihb =>
      rw [eval, eval, iha, ihb]
      exact (evalBinop_flip M _ _).2.1
  | case3 op a b ca cb hlt hle hswap iha ihb =>
      have hop : op = .eq ∨ op = .ne := by
        simpa [binopIsEquality] using (Bool.and_eq_true_iff.1 hswap).1
      rw [eval, eval, iha, ihb]
      rcases hop with rfl | rfl
      · exact (evalBinop_flip M _ _).2.2.1
      · exact (evalBinop_flip M _ _).2.2.2
  | case4 op a b ca cb hlt hle hkeep iha ihb => rw [eval, eval, iha, ihb]
  | case5 op x ih => rw [eval, eval, ih]
  | case6 e hbinop hunop => rfl

end Evaluation

section Equality

variable {L N : Type}

mutual

/-- The tree with its literals replaced. -/
def Expr.mapLit (f : L → N) : Expr L → Expr N
  | .int n => .int n
  | .lit l => .lit (f l)
  | .name w => .name w
  | .sym id inst => .sym id inst
  | .loc id => .loc id
  | .call g args => .call (g.mapLit f) (mapLits f args)
  | .field base n => .field (base.mapLit f) n
  | .binop op a b => .binop op (a.mapLit f) (b.mapLit f)
  | .unop op x => .unop op (x.mapLit f)

def mapLits (f : L → N) : List (Expr L) → List (Expr N)
  | [] => []
  | e :: es => e.mapLit f :: mapLits f es

end

variable {litEq : L → L → Bool} {f : L → N} {g : L → L} {byText : Bool}

mutual

theorem mapLit_eq_of_exprEq (hlit : ∀ l m, litEq l m = true → f l = f m) : ∀ {a b : Expr L},
    exprEq litEq byText a b = true → a.mapLit f = b.mapLit f
  | .binop aop al ar, b, h => by
      cases b with
      | binop bop bl br =>
          simp only [exprEq, Bool.and_eq_true, decide_eq_true_eq] at h
          rw [Expr.mapLit, Expr.mapLit, h.1.1, mapLit_eq_of_exprEq hlit h.1.2, mapLit_eq_of_exprEq hlit h.2]
      | _ => exact absurd h Bool.false_ne_true
  | .unop aop ai, b, h => by
      cases b with
      | unop bop bi =>
          simp only [exprEq, Bool.and_eq_true, decide_eq_true_eq] at h
          rw [Expr.mapLit, Expr.mapLit, h.1, mapLit_eq_of_exprEq hlit h.2]
      | _ => exact absurd h Bool.false_ne_true
  | .field ab an, b, h => by
      cases b with
      | field bb bn =>
          simp only [exprEq, Bool.and_eq_true, decide_eq_true_eq] at h
          rw [Expr.mapLit, Expr.mapLit, h.1, mapLit_eq_of_exprEq hlit h.2]
      | _ => exact absurd h Bool.false_ne_true
  | .call af aa, b, h => by
      cases b with
      | call bf ba =>
          simp only [exprEq, Bool.and_eq_true] at h
          rw [Expr.mapLit, Expr.mapLit, mapLit_eq_of_exprEq hlit h.1, mapLits_eq_of_exprListEq hlit h.2]
      | _ => exact absurd h Bool.false_ne_true
  | .int av, b, h => by
      cases b with
      | int bv => rw [Subtype.ext (of_decide_eq_true h)]
      | _ => exact absurd h Bool.false_ne_true
  | .lit av, b, h => by
      cases b with
      | lit bv => rw [Expr.mapLit, Expr.mapLit, hlit av bv h]
      | _ => exact absurd h Bool.false_ne_true
  | .name an, b, h => by
      cases b with
      | name bn =>
          simp only [exprEq, Bool.and_eq_true, decide_eq_true_eq] at h
          rw [h.2]
      | _ => exact absurd h Bool.false_ne_true
  | .sym sa ia, b, h => by
      cases b with
      | sym sb ib =>
          simp only [exprEq, Bool.and_eq_true, decide_eq_true_eq] at h
          rw [h.1.2, h.2]
      | _ => exact absurd h Bool.false_ne_true
  | .loc la, b, h => by
      cases b with
      | loc lb =>
          simp only [exprEq, localEq, Bool.and_eq_true, decide_eq_true_eq] at h
          rw [h.2]
      | _ => exact absurd h Bool.false_ne_true

theorem mapLits_eq_of_exprListEq (hlit : ∀ l m, litEq l m = true → f l = f m) :
    ∀ {as bs : List (Expr L)}, exprListEq litEq byText as bs = true → mapLits f as = mapLits f bs
  | [], bs, h => by
      cases bs with
      | nil => rfl
      | cons b bs => simp [exprListEq] at h
  | a :: as, bs, h => by
      cases bs with
      | nil => simp [exprListEq] at h
      | cons b bs =>
          rw [exprListEq, Bool.and_eq_true_iff] at h
          rw [mapLits, mapLits, mapLit_eq_of_exprEq hlit h.1, mapLits_eq_of_exprListEq hlit h.2]

end

mutual

theorem exprEq_mapLit (hlit : ∀ l m, litEq (g l) (g m) = litEq l m) : ∀ a b : Expr L,
    exprEq litEq byText (a.mapLit g) (b.mapLit g) = exprEq litEq byText a b
  | .binop aop al ar, b => by
      cases b with
      | binop bop bl br =>
          simp only [Expr.mapLit, exprEq, exprEq_mapLit hlit al bl, exprEq_mapLit hlit ar br]
      | _ => rfl
  | .unop aop ai, b => by
      cases b with
      | unop bop bi => simp only [Expr.mapLit, exprEq, exprEq_mapLit hlit ai bi]
      | _ => rfl
  | .field ab an, b => by
      cases b with
      | field bb bn => simp only [Expr.mapLit, exprEq, exprEq_mapLit hlit ab bb]
      | _ => rfl
  | .call af aa, b => by
      cases b with
      | call bf ba =>
          simp only [Expr.mapLit, exprEq, exprEq_mapLit hlit af bf, exprListEq_mapLits hlit aa ba]
      | _ => rfl
  | .lit av, b => by
      cases b with
      | lit bv => exact hlit av bv
      | _ => rfl
  | .int av, b => by cases b <;> rfl
  | .name an, b => by cases b <;> rfl
  | .sym sa ia, b => by cases b <;> rfl
  | .loc la, b => by cases b <;> rfl

theorem exprListEq_mapLits (hlit : ∀ l m, litEq (g l) (g m) = litEq l m) :
    ∀ as bs : List (Expr L),
      exprListEq litEq byText (mapLits g as) (mapLits g bs) = exprListEq litEq byText as bs
  | [], bs => by cases bs <;> rfl
  | a :: as, bs => by
      cases bs with
      | nil => rfl
      | cons b bs =>
          simp only [mapLits, exprListEq, exprEq_mapLit hlit a b, exprListEq_mapLits hlit as bs]

end

theorem cmpLt_mapLit (f : L → N) (a b : Expr L) (written : Bool) :
    cmpLt (a.mapLit f) (b.mapLit f) written = cmpLt a b written := by
  cases a <;> cases b <;> rfl

theorem canon_mapLit (f : L → N) (written : Bool) (e : Expr L) :
    canon written (e.mapLit f) = (canon written e).mapLit f := by
  fun_induction canon written e with
  | case1 a b ca cb iha ihb => rw [Expr.mapLit, canon, iha, ihb, if_pos rfl, Expr.mapLit]
  | case2 a b ca cb hlt iha ihb =>
      rw [Expr.mapLit, canon, iha, ihb, if_neg hlt, if_pos rfl, Expr.mapLit]
  | case3 op a b ca cb hlt hle hswap iha ihb =>
      rw [Expr.mapLit, canon, iha, ihb, if_neg hlt, if_neg hle, cmpLt_mapLit, if_pos hswap,
        Expr.mapLit]
  | case4 op a b ca cb hlt hle hkeep iha ihb =>
      rw [Expr.mapLit, canon, iha, ihb, if_neg hlt, if_neg hle, cmpLt_mapLit, if_neg hkeep,
        Expr.mapLit]
  | case5 op x ih => rw [Expr.mapLit, canon, ih, Expr.mapLit]
  | case6 e hbinop hunop =>
      cases e with
      | binop op a b => exact absurd rfl (hbinop op a b)
      | unop op x => exact absurd rfl (hunop op x)
      | _ => rfl

end Equality

end Kaikai.RefinePred
