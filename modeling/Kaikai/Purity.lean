import Mathlib.Data.Int.Notation
import Mathlib.Data.List.Basic
import Mathlib.Order.Bounds.Defs

namespace Kaikai.Pty

/-- `FnId`: a declaration and its instance. -/
structure FnId where
  sym : ℕ
  inst : ℤ
deriving DecidableEq

inductive BinOp where
  | add | sub | mul | div | mod | pow | concat | eq | ne | lt | gt | le | ge | and | or
deriving DecidableEq

inductive UnOp where
  | neg | not
deriving DecidableEq

/-- An unboxed value; a real is its bits. -/
inductive Scalar where
  | int (n : ℤ)
  | real (bits : ℕ)
  | bool (b : Bool)
  | char (c : ℕ)
  | unit
deriving DecidableEq

/-- The marks that the scan tells apart. -/
inductive Mark where
  | tcrecStep
  | tailStep
  | other
deriving DecidableEq

/-- A pattern; `structure` is one that takes a boxed value apart. -/
inductive Pattern where
  | wild
  | lit (s : Scalar)
  | bind (id : ℤ)
  | as (id : ℤ) (p : Pattern)
  | structure (ps : List Pattern)

mutual

/-- `ExprKind` of a lowered body; `boxed` is an expression whose value is handed on in a box, as
that of a node left `MBoxed` is and each operand of an operator left so, and `other` is each kind
that the scan does not list. -/
inductive Expr where
  | lit (s : Scalar)
  | local (id : ℤ)
  | sym (s : ℕ) (inst : ℤ)
  | binop (op : BinOp) (a b : Expr)
  | unop (op : UnOp) (a : Expr)
  | call (callee : Expr) (args : List Expr)
  | cond (c t : Expr) (e : Option Expr)
  | match (scrutinee : Expr) (arms : List Arm)
  | block (stmts : List Stmt) (tail : Option Expr)
  | litUnit (inner : Expr)
  | boxed (e : Expr)
  | mark (m : Mark)
  | other (parts : List Expr)

inductive Arm where
  | arm (p : Pattern) (guard : Option Expr) (body : Expr)

/-- `write` is `SVar`, `SIndexAssign` and `SAssign`. -/
inductive Stmt where
  | let (p : Pattern) (rhs : Expr)
  | assert (cond : Expr) (message : Option Expr)
  | expr (e : Expr)
  | use
  | write (e : Expr)

end

/-- `DFn`; `sig` is what `classify_unbox_sig` says of it: whether the return is unboxed, and which
parameters are. -/
structure DFn where
  fid : FnId
  sig : Option (Bool × List Bool)
  params : List ℤ
  body : Expr

inductive Decl where
  | fn (d : DFn)
  | const (s : ℕ) (init : Expr)
  | other

/-- What a scan finds: a touch of memory, or the functions it calls. -/
inductive Local where
  | impure
  | const (callees : List FnId)
deriving DecidableEq

inductive Purity where
  | impure
  | const
deriving DecidableEq

structure PurityMark where
  fid : FnId
  verdict : Purity
deriving DecidableEq

structure Candidate where
  fid : FnId
  raw : Bool
  found : Local

def merge2 : Local → Local → Local
  | .impure, _ => .impure
  | .const _, .impure => .impure
  | .const ca, .const cb => .const (ca ++ cb)

def merge3 (a b c : Local) : Local :=
  merge2 a (merge2 b c)

def mergeLoop : List Local → List (List FnId) → Local
  | [], parts => .const parts.reverse.flatten
  | .impure :: _, _ => .impure
  | .const c :: rest, parts => mergeLoop rest (c :: parts)

def mergeAll (ls : List Local) : Local :=
  mergeLoop ls []

section Scan

variable (mutableBuiltin : ℕ → Bool)

/-- `pty_call_head`; `mutableBuiltin` is `pty_is_mutable_builtin`. -/
def callHead : Expr → Local
  | .sym s inst => if mutableBuiltin s then .impure else .const [⟨s, inst⟩]
  | .mark .tcrecStep => .const []
  | .mark .tailStep => .const []
  | _ => .impure

mutual

/-- `pty_scan_body`, which does not ask for the mode of a node. -/
def scanBody : Expr → Local
  | .lit _ => .const []
  | .local _ => .const []
  | .sym s _ => if mutableBuiltin s then .impure else .const []
  | .binop _ a b => merge2 (scanBody a) (scanBody b)
  | .unop _ a => scanBody a
  | .call callee args => merge2 (callHead mutableBuiltin callee) (mergeAll (scanArgs args))
  | .cond c t e => merge3 (scanBody c) (scanBody t) (scanOpt e)
  | .match scrutinee arms => merge2 (scanBody scrutinee) (mergeAll (scanArms arms))
  | .block stmts tail => merge2 (mergeAll (scanStmts stmts)) (scanOpt tail)
  | .litUnit inner => scanBody inner
  | .boxed e => scanBody e
  | .mark _ => .impure
  | .other _ => .impure

def scanOpt : Option Expr → Local
  | none => .const []
  | some e => scanBody e

def scanArgs : List Expr → List Local
  | [] => []
  | e :: rest => scanBody e :: scanArgs rest

def scanArms : List Arm → List Local
  | [] => []
  | .arm _ guard body :: rest => scanOpt guard :: scanBody body :: scanArms rest

def scanStmts : List Stmt → List Local
  | [] => []
  | s :: rest => scanStmt s :: scanStmts rest

def scanStmt : Stmt → Local
  | .let _ rhs => scanBody rhs
  | .assert cond message => merge2 (scanBody cond) (scanOpt message)
  | .expr e => scanBody e
  | .use => .const []
  | .write _ => .impure

end

def sigIsAllRaw : Option (Bool × List Bool) → Bool
  | none => false
  | some (ret, mask) => ret && mask.all id && decide (0 < mask.length)

def candOfDecl : Decl → Option Candidate
  | .fn d => some { fid := d.fid, raw := sigIsAllRaw d.sig, found := scanBody mutableBuiltin d.body }
  | _ => none

def collectCandidates (decls : List Decl) : List Candidate :=
  decls.filterMap (candOfDecl mutableBuiltin)

end Scan

def purityOf : List PurityMark → FnId → Purity
  | [], _ => .impure
  | m :: rest, f => if f = m.fid then m.verdict else purityOf rest f

def Local.isConst : Local → Bool
  | .const _ => true
  | .impure => false

def seedVerdicts (cands : List Candidate) : List PurityMark :=
  cands.map fun c =>
    { fid := c.fid, verdict := if c.raw && c.found.isConst then .const else .impure }

def allCalleesConst : List FnId → List PurityMark → Bool
  | [], _ => true
  | f :: rest, marks => if purityOf marks f = .const then allCalleesConst rest marks else false

def refineOne (c : Candidate) (marks : List PurityMark) : PurityMark :=
  let keep := c.raw &&
    match c.found with
    | .impure => false
    | .const callees => allCalleesConst callees marks
  { fid := c.fid, verdict := if keep then .const else .impure }

def refinePass (cands : List Candidate) (marks : List PurityMark) : List PurityMark :=
  cands.map (refineOne · marks)

def marksEq : List PurityMark → List PurityMark → Bool
  | [], [] => true
  | a :: ra, b :: rb => if a.verdict = b.verdict then marksEq ra rb else false
  | _, _ => false

/-- The same functions, with fewer of them kept. -/
def MarksLe : List PurityMark → List PurityMark → Prop :=
  List.Forall₂ fun a b => a.fid = b.fid ∧ (a.verdict = .const → b.verdict = .const)

theorem MarksLe.purityOf {a b : List PurityMark} (h : MarksLe a b) {f : FnId}
    (hf : purityOf a f = .const) : Pty.purityOf b f = .const := by
  induction h with
  | nil => exact hf
  | @cons x y a b hxy _ ih =>
      rw [Pty.purityOf] at hf ⊢
      rw [hxy.1] at hf
      split
      · next heq =>
          rw [if_pos heq] at hf
          exact hxy.2 hf
      · next hne =>
          rw [if_neg hne] at hf
          exact ih hf

theorem allCalleesConst_iff {callees : List FnId} {marks : List PurityMark} :
    allCalleesConst callees marks = true ↔ ∀ f ∈ callees, purityOf marks f = .const := by
  induction callees with
  | nil => exact ⟨(fun _ _ hf => nomatch hf), fun _ => rfl⟩
  | cons g rest ih =>
      rw [allCalleesConst, List.forall_mem_cons]
      split
      · next hg => rw [ih, and_iff_right hg]
      · next hg => exact ⟨(fun h => nomatch h), fun h => absurd h.1 hg⟩

theorem refineOne_eq_const {c : Candidate} {marks : List PurityMark} :
    (refineOne c marks).verdict = .const ↔
      c.raw = true ∧ ∃ callees, c.found = .const callees ∧
        ∀ f ∈ callees, purityOf marks f = .const := by
  unfold refineOne
  cases hfound : c.found with
  | impure => simp
  | const callees => simp [allCalleesConst_iff]

theorem seedVerdicts_eq_const {c : Candidate} :
    (if c.raw && c.found.isConst then Purity.const else .impure) = .const ↔
      c.raw = true ∧ ∃ callees, c.found = .const callees := by
  cases c.found with
  | impure => simp [Local.isConst]
  | const callees => simp [Local.isConst]

theorem refinePass_mono (cands : List Candidate) {a b : List PurityMark} (h : MarksLe a b) :
    MarksLe (refinePass cands a) (refinePass cands b) := by
  induction cands with
  | nil => exact .nil
  | cons c rest ih =>
      refine .cons ⟨rfl, fun hc => ?_⟩ ih
      obtain ⟨hraw, callees, hfound, hall⟩ := refineOne_eq_const.1 hc
      exact refineOne_eq_const.2 ⟨hraw, callees, hfound, fun f hf => h.purityOf (hall f hf)⟩

theorem refinePass_seed (cands : List Candidate) (marks : List PurityMark) :
    MarksLe (refinePass cands marks) (seedVerdicts cands) := by
  induction cands with
  | nil => exact .nil
  | cons c rest ih =>
      refine .cons ⟨rfl, fun hc => ?_⟩ ih
      obtain ⟨hraw, callees, hfound, _⟩ := refineOne_eq_const.1 hc
      exact seedVerdicts_eq_const.2 ⟨hraw, callees, hfound⟩

/-- The functions that a table keeps, with repetition. -/
def kept (marks : List PurityMark) : ℕ :=
  marks.countP fun m => m.verdict = .const

theorem kept_cons (m : PurityMark) (marks : List PurityMark) :
    kept (m :: marks) = kept marks + if m.verdict = .const then 1 else 0 := by
  rw [kept, kept, List.countP_cons]
  simp only [decide_eq_true_eq]

theorem kept_le {a b : List PurityMark} (h : MarksLe a b) : kept a ≤ kept b := by
  induction h with
  | nil => exact Nat.le_refl _
  | cons hxy _ ih =>
      rw [kept_cons, kept_cons]
      split
      · next hx =>
          rw [if_pos (hxy.2 hx)]
          omega
      · split <;> omega

theorem kept_lt {a b : List PurityMark} (h : MarksLe a b) (hne : marksEq b a = false) :
    kept a < kept b := by
  induction h with
  | nil => exact nomatch hne
  | @cons x y a b hxy hrest ih =>
      have hle := kept_le hrest
      rw [marksEq] at hne
      rw [kept_cons, kept_cons]
      split at hne
      · next heq =>
          have hlt := ih hne
          rw [heq]
          omega
      · next hdiffer =>
          have hx : x.verdict ≠ .const := fun hx => hdiffer ((hxy.2 hx).trans hx.symm)
          have hy : y.verdict = .const := by
            cases hverdict : y.verdict with
            | const => rfl
            | impure =>
                cases hxv : x.verdict with
                | const => exact absurd hxv hx
                | impure => exact absurd (hverdict.trans hxv.symm) hdiffer
          rw [if_neg hx, if_pos hy]
          omega

/-- `pty_purity_fixpoint`, from a table that a pass only makes smaller. -/
def purityFixpoint (cands : List Candidate) (marks : List PurityMark)
    (h : MarksLe (refinePass cands marks) marks) : List PurityMark :=
  if _ : marksEq marks (refinePass cands marks) then refinePass cands marks
  else purityFixpoint cands (refinePass cands marks) (refinePass_mono cands h)
termination_by kept marks
decreasing_by exact kept_lt h (Bool.eq_false_iff.2 ‹_›)

def purityAnalyze (mutableBuiltin : ℕ → Bool) (decls : List Decl) : List PurityMark :=
  let cands := collectCandidates mutableBuiltin decls
  purityFixpoint cands (seedVerdicts cands) (refinePass_seed cands _)

end Kaikai.Pty
