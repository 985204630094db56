import Kaikai.Purity
import Mathlib.Algebra.Ring.Int.Defs
import Mathlib.Data.Set.Insert
import Mathlib.Tactic.Tauto

namespace Kaikai.Pty

/-- Why an evaluation ends without a value: a trap, its first touch of memory (an allocation, a
reference count, an operation of an effect, a write, a read through a pointer), or fuel. -/
inductive Stop where
  | trap
  | touch
  | more
deriving DecidableEq

/-- The operators on scalars, of which `none` is a trap, and the scalars whose box is a cell behind a
pointer: a real has one, a small integer is its own box. -/
structure Prims where
  binop : BinOp → Scalar → Scalar → Option Scalar
  unop : UnOp → Scalar → Option Scalar
  pointer : Scalar → Bool

abbrev Env := List (ℤ × Scalar)

def orTrap {α : Type} : Option α → Except Stop α
  | some a => .ok a
  | none => .error .trap

/-- A pattern against an unboxed value; one that takes a boxed value apart meets none. -/
def matchPattern (v : Scalar) : Pattern → Option Env
  | .wild => some []
  | .lit s => if s = v then some [] else none
  | .bind id => some [(id, v)]
  | .as id p => (matchPattern v p).map ((id, v) :: ·)
  | .structure _ => none

def fnOf (decls : List Decl) (f : FnId) : Option DFn :=
  decls.findSome? fun
    | .fn d => if d.fid = f then some d else none
    | _ => none

def constOf (decls : List Decl) (s : ℕ) : Option Expr :=
  decls.findSome? fun
    | .const c init => if c = s then some init else none
    | _ => none

section Eval

variable (prims : Prims) (decls : List Decl)

mutual

/-- Evaluation in the body of `self`. Each read of a constant evaluates its initialiser; any other
symbol is a pointer to a closure or to a cell of a constructor. -/
def eval : ℕ → DFn → Env → Expr → Except Stop Scalar
  | 0, _, _, _ => .error .more
  | k + 1, self, env, e =>
      match e with
      | .lit s => .ok s
      | .local id => orTrap (env.lookup id)
      | .sym s _ =>
          match constOf decls s with
          | some init => eval k self [] init
          | none => .error .touch
      | .binop op a b => do
          let x ← eval k self env a
          if op = .and ∧ x = .bool false ∨ op = .or ∧ x = .bool true then .ok x
          else
            let y ← eval k self env b
            orTrap (prims.binop op x y)
      | .unop op a => do
          let x ← eval k self env a
          orTrap (prims.unop op x)
      | .call callee args => do
          let vs ← evalArgs k self env args
          match callee with
          | .sym s inst =>
              match fnOf decls ⟨s, inst⟩ with
              | some d => enter k d vs
              | none => .error .touch
          | .mark .tcrecStep => enter k self vs
          | .mark .tailStep => orTrap vs.head?
          | _ => .error .touch
      | .cond c t e => do
          let x ← eval k self env c
          if x = .bool true then eval k self env t else evalOpt k self env e
      | .match scrutinee arms => do
          let x ← eval k self env scrutinee
          evalArms k self env x arms
      | .block stmts tail => do
          let env ← evalStmts k self env stmts
          evalOpt k self env tail
      | .litUnit inner => eval k self env inner
      | .boxed e => do
          let x ← eval k self env e
          if prims.pointer x then .error .touch else .ok x
      | .mark _ => .error .touch
      | .other _ => .error .touch

/-- A call, with its arguments in the parameters. -/
def enter : ℕ → DFn → List Scalar → Except Stop Scalar
  | 0, _, _ => .error .more
  | k + 1, d, vs =>
      if vs.length = d.params.length then eval k d (d.params.zip vs) d.body else .error .trap

def evalOpt : ℕ → DFn → Env → Option Expr → Except Stop Scalar
  | 0, _, _, _ => .error .more
  | _ + 1, _, _, none => .ok .unit
  | k + 1, self, env, some e => eval k self env e

def evalArgs : ℕ → DFn → Env → List Expr → Except Stop (List Scalar)
  | 0, _, _, _ => .error .more
  | _ + 1, _, _, [] => .ok []
  | k + 1, self, env, e :: rest => do
      let v ← eval k self env e
      let vs ← evalArgs k self env rest
      .ok (v :: vs)

/-- The first arm that matches and whose guard holds. -/
def evalArms : ℕ → DFn → Env → Scalar → List Arm → Except Stop Scalar
  | 0, _, _, _, _ => .error .more
  | _ + 1, _, _, _, [] => .error .trap
  | k + 1, self, env, v, .arm p guard body :: rest =>
      match matchPattern v p with
      | none => evalArms k self env v rest
      | some bound => do
          let holds ←
            match guard with
            | none => .ok (.bool true)
            | some g => eval k self (bound ++ env) g
          if holds = .bool true then eval k self (bound ++ env) body
          else evalArms k self env v rest

def evalStmts : ℕ → DFn → Env → List Stmt → Except Stop Env
  | 0, _, _, _ => .error .more
  | _ + 1, _, env, [] => .ok env
  | k + 1, self, env, s :: rest => do
      let env ← evalStmt k self env s
      evalStmts k self env rest

def evalStmt : ℕ → DFn → Env → Stmt → Except Stop Env
  | 0, _, _, _ => .error .more
  | k + 1, self, env, s =>
      match s with
      | .let p rhs => do
          let v ← eval k self env rhs
          let bound ← orTrap (matchPattern v p)
          .ok (bound ++ env)
      | .assert c message => do
          let v ← eval k self env c
          if v = .bool true then .ok env
          else
            let _ ← evalOpt k self env message
            .error .trap
      | .expr e => do
          let _ ← eval k self env e
          .ok env
      | .use => .ok env
      | .write _ => .error .touch

end

end Eval

/-- What the scan takes for a value: a symbol that is read, or an expression in a box. -/
inductive Read where
  | symbol (s : ℕ)
  | box (e : Expr)

mutual

/-- What an expression reads as values. -/
def reads : Expr → List Read
  | .lit _ => []
  | .local _ => []
  | .sym s _ => [.symbol s]
  | .binop _ a b => reads a ++ reads b
  | .unop _ a => reads a
  | .call _ args => readsArgs args
  | .cond c t e => reads c ++ (reads t ++ readsOpt e)
  | .match scrutinee arms => reads scrutinee ++ readsArms arms
  | .block stmts tail => readsStmts stmts ++ readsOpt tail
  | .litUnit inner => reads inner
  | .boxed e => .box e :: reads e
  | .mark _ => []
  | .other _ => []

def readsOpt : Option Expr → List Read
  | none => []
  | some e => reads e

def readsArgs : List Expr → List Read
  | [] => []
  | e :: rest => reads e ++ readsArgs rest

def readsArms : List Arm → List Read
  | [] => []
  | .arm _ guard body :: rest => readsOpt guard ++ (reads body ++ readsArms rest)

def readsStmts : List Stmt → List Read
  | [] => []
  | s :: rest => readsStmt s ++ readsStmts rest

def readsStmt : Stmt → List Read
  | .let _ rhs => reads rhs
  | .assert cond message => reads cond ++ readsOpt message
  | .expr e => reads e
  | .use => []
  | .write _ => []

end

/-- A scan that finds no touch, and calls to marked functions only. -/
def Local.Kept (marked : FnId → Prop) (l : Local) : Prop :=
  ∃ callees, l = .const callees ∧ ∀ f ∈ callees, marked f

section Scans

variable {marked : FnId → Prop}

theorem kept_merge2 {a b : Local} :
    (merge2 a b).Kept marked ↔ a.Kept marked ∧ b.Kept marked := by
  cases a with
  | impure => exact ⟨(fun ⟨_, h, _⟩ => nomatch h), fun ⟨⟨_, h, _⟩, _⟩ => nomatch h⟩
  | const ca =>
      cases b with
      | impure => exact ⟨(fun ⟨_, h, _⟩ => nomatch h), fun ⟨_, _, h, _⟩ => nomatch h⟩
      | const cb =>
          simp only [merge2, Local.Kept, Local.const.injEq, exists_eq_left']
          exact List.forall_mem_append

theorem kept_mergeLoop {ls : List Local} {parts : List (List FnId)} :
    (mergeLoop ls parts).Kept marked ↔
      (∀ part ∈ parts, ∀ f ∈ part, marked f) ∧ ∀ l ∈ ls, l.Kept marked := by
  induction ls generalizing parts with
  | nil =>
      rw [mergeLoop, and_iff_left (fun _ hl => nomatch hl)]
      simp only [Local.Kept, Local.const.injEq, exists_eq_left', List.mem_flatten,
        List.mem_reverse]
      constructor
      · intro h part hpart f hf
        exact h f ⟨part, hpart, hf⟩
      · rintro h f ⟨part, hpart, hf⟩
        exact h part hpart f hf
  | cons l rest ih =>
      cases l with
      | impure =>
          rw [mergeLoop, List.forall_mem_cons]
          exact ⟨(fun ⟨_, h, _⟩ => nomatch h), fun ⟨_, ⟨_, h, _⟩, _⟩ => nomatch h⟩
      | const c =>
          rw [mergeLoop, ih, List.forall_mem_cons, List.forall_mem_cons]
          simp only [Local.Kept, Local.const.injEq, exists_eq_left']
          tauto

theorem kept_mergeAll {ls : List Local} :
    (mergeAll ls).Kept marked ↔ ∀ l ∈ ls, l.Kept marked := by
  rw [mergeAll, kept_mergeLoop]
  exact and_iff_right fun _ hpart => nomatch hpart

theorem not_kept_impure : ¬ Local.impure.Kept marked :=
  fun ⟨_, h, _⟩ => nomatch h

end Scans

theorem bind_ne_touch {α β : Type} {x : Except Stop α} {f : α → Except Stop β}
    (hx : x ≠ .error .touch) (hf : ∀ a, f a ≠ .error .touch) : x >>= f ≠ .error .touch := by
  cases x with
  | error stop => exact fun h => hx (by injection h with h; rw [h])
  | ok a => exact hf a

theorem ok_of_bind_eq_ok {α β : Type} {x : Except Stop α} {f : α → Except Stop β} {b : β}
    (h : x >>= f = .ok b) : ∃ a, x = .ok a ∧ f a = .ok b := by
  cases x with
  | error stop => exact nomatch h
  | ok a => exact ⟨a, rfl, h⟩

theorem orTrap_ne_touch {α : Type} (o : Option α) : orTrap o ≠ .error .touch := by
  cases o <;> exact fun h => nomatch h

section NoTouch

variable (prims : Prims) (decls : List Decl) (mutableBuiltin : ℕ → Bool) (marked : FnId → Prop)

/-- A constant, no evaluation of whose initialiser touches memory, and an expression with values
that need no cell. -/
def Quiet : Read → Prop
  | .symbol s =>
      ∃ init, constOf decls s = some init ∧
        ∀ k self, eval prims decls k self [] init ≠ .error .touch
  | .box e => ∀ k self env v, eval prims decls k self env e = .ok v → prims.pointer v = false

/-- A scan that finds no touch and calls to marked functions, and quiet reads. -/
structure Clean (scans : List Local) (needs : List Read) : Prop where
  kept : ∀ l ∈ scans, l.Kept marked
  quiet : ∀ r ∈ needs, Quiet prims decls r

abbrev CleanBody (e : Expr) : Prop :=
  Clean prims decls marked [scanBody mutableBuiltin e] (reads e)

/-- What `k` steps of the evaluator keep to, on clean bodies. -/
structure NoTouch (k : ℕ) : Prop where
  body : ∀ self env e, CleanBody prims decls mutableBuiltin marked self.body →
    CleanBody prims decls mutableBuiltin marked e → eval prims decls k self env e ≠ .error .touch
  enter : ∀ d vs, CleanBody prims decls mutableBuiltin marked d.body →
    enter prims decls k d vs ≠ .error .touch
  opt : ∀ self env o, CleanBody prims decls mutableBuiltin marked self.body →
    Clean prims decls marked [scanOpt mutableBuiltin o] (readsOpt o) →
    evalOpt prims decls k self env o ≠ .error .touch
  args : ∀ self env es, CleanBody prims decls mutableBuiltin marked self.body →
    Clean prims decls marked (scanArgs mutableBuiltin es) (readsArgs es) →
    evalArgs prims decls k self env es ≠ .error .touch
  arms : ∀ self env v arms, CleanBody prims decls mutableBuiltin marked self.body →
    Clean prims decls marked (scanArms mutableBuiltin arms) (readsArms arms) →
    evalArms prims decls k self env v arms ≠ .error .touch
  stmts : ∀ self env ss, CleanBody prims decls mutableBuiltin marked self.body →
    Clean prims decls marked (scanStmts mutableBuiltin ss) (readsStmts ss) →
    evalStmts prims decls k self env ss ≠ .error .touch
  stmt : ∀ self env s, CleanBody prims decls mutableBuiltin marked self.body →
    Clean prims decls marked [scanStmt mutableBuiltin s] (readsStmt s) →
    evalStmt prims decls k self env s ≠ .error .touch

end NoTouch

section Clean

variable {prims : Prims} {decls : List Decl} {mutableBuiltin : ℕ → Bool} {marked : FnId → Prop}

theorem Clean.append {ls ms : List Local} {xs ys : List Read}
    (h : Clean prims decls marked (ls ++ ms) (xs ++ ys)) :
    Clean prims decls marked ls xs ∧ Clean prims decls marked ms ys :=
  ⟨⟨fun l hl => h.kept l (List.mem_append_left _ hl),
      fun s hs => h.quiet s (List.mem_append_left _ hs)⟩,
    ⟨fun l hl => h.kept l (List.mem_append_right _ hl),
      fun s hs => h.quiet s (List.mem_append_right _ hs)⟩⟩

theorem Clean.cons {l : Local} {ls : List Local} {xs ys : List Read}
    (h : Clean prims decls marked (l :: ls) (xs ++ ys)) :
    Clean prims decls marked [l] xs ∧ Clean prims decls marked ls ys := by
  have happend : Clean prims decls marked ([l] ++ ls) (xs ++ ys) := h
  exact happend.append

theorem Clean.merge2 {a b : Local} {xs ys : List Read}
    (h : Clean prims decls marked [merge2 a b] (xs ++ ys)) :
    Clean prims decls marked [a] xs ∧ Clean prims decls marked [b] ys := by
  have hkept := kept_merge2.1 (h.kept _ List.mem_cons_self)
  refine Clean.cons ⟨List.forall_mem_cons.2 ⟨hkept.1, ?_⟩, h.quiet⟩
  exact List.forall_mem_singleton.2 hkept.2

theorem Clean.mergeAll {ls : List Local} {xs : List Read}
    (h : Clean prims decls marked [mergeAll ls] xs) : Clean prims decls marked ls xs :=
  ⟨kept_mergeAll.1 (h.kept _ List.mem_cons_self), h.quiet⟩

theorem Clean.not_impure {xs : List Read} (h : Clean prims decls marked [.impure] xs) : False :=
  not_kept_impure (h.kept _ List.mem_cons_self)

variable {k : ℕ} (ih : NoTouch prims decls mutableBuiltin marked k) {self : DFn}
  (hself : CleanBody prims decls mutableBuiltin marked self.body)

include ih hself

theorem NoTouch.call {env : Env} {callee : Expr} {args : List Expr}
    (hmarked : ∀ f, marked f →
      ∃ d, fnOf decls f = some d ∧ CleanBody prims decls mutableBuiltin marked d.body)
    (h : CleanBody prims decls mutableBuiltin marked (.call callee args)) :
    eval prims decls (k + 1) self env (.call callee args) ≠ .error .touch := by
  have hparts : Clean prims decls marked [callHead mutableBuiltin callee] [] ∧
      Clean prims decls marked [mergeAll (scanArgs mutableBuiltin args)] (readsArgs args) :=
    Clean.merge2 h
  rw [eval]
  refine bind_ne_touch (ih.args self env args hself hparts.2.mergeAll) fun vs => ?_
  have hhead := hparts.1.kept _ List.mem_cons_self
  cases callee with
  | sym s inst =>
      rw [callHead] at hhead
      split at hhead
      · exact absurd hhead not_kept_impure
      · obtain ⟨callees, heq, hcallees⟩ := hhead
        injection heq with heq
        subst heq
        obtain ⟨d, hd, hclean⟩ := hmarked _ (hcallees _ List.mem_cons_self)
        simp only [hd]
        exact ih.enter d vs hclean
  | mark m =>
      cases m with
      | tcrecStep => exact ih.enter self vs hself
      | tailStep => exact orTrap_ne_touch _
      | other => exact absurd hhead not_kept_impure
  | _ => exact absurd hhead not_kept_impure

theorem NoTouch.bodyStep {env : Env} {e : Expr}
    (hmarked : ∀ f, marked f →
      ∃ d, fnOf decls f = some d ∧ CleanBody prims decls mutableBuiltin marked d.body)
    (h : CleanBody prims decls mutableBuiltin marked e) :
    eval prims decls (k + 1) self env e ≠ .error .touch := by
  cases e with
  | lit s => exact fun h => nomatch h
  | «local» id => exact orTrap_ne_touch _
  | sym s inst =>
      obtain ⟨init, hinit, hquiet⟩ := h.quiet (.symbol s) List.mem_cons_self
      rw [eval]
      simp only [hinit]
      exact hquiet k self
  | binop op a b =>
      have hparts := Clean.merge2 h
      rw [eval]
      refine bind_ne_touch (ih.body self env a hself hparts.1) fun x => ?_
      split
      · exact fun h => nomatch h
      · exact bind_ne_touch (ih.body self env b hself hparts.2) fun y => orTrap_ne_touch _
  | unop op a =>
      rw [eval]
      exact bind_ne_touch (ih.body self env a hself h) fun x => orTrap_ne_touch _
  | call callee args => exact NoTouch.call ih hself hmarked h
  | cond c t e =>
      have hparts := Clean.merge2 h
      have hbranches := Clean.merge2 hparts.2
      rw [eval]
      refine bind_ne_touch (ih.body self env c hself hparts.1) fun x => ?_
      split
      · exact ih.body self env t hself hbranches.1
      · exact ih.opt self env e hself hbranches.2
  | «match» scrutinee arms =>
      have hparts := Clean.merge2 h
      rw [eval]
      exact bind_ne_touch (ih.body self env scrutinee hself hparts.1) fun x =>
        ih.arms self env x arms hself hparts.2.mergeAll
  | block stmts tail =>
      have hparts := Clean.merge2 h
      rw [eval]
      exact bind_ne_touch (ih.stmts self env stmts hself hparts.1.mergeAll) fun env' =>
        ih.opt self env' tail hself hparts.2
  | litUnit inner => exact ih.body self env inner hself h
  | boxed e =>
      have hvalue := h.quiet (.box e) List.mem_cons_self
      have hrun := ih.body self env e hself
        ⟨h.kept, fun r hr => h.quiet r (List.mem_cons_of_mem _ hr)⟩
      rw [eval]
      cases heval : eval prims decls k self env e with
      | error stop =>
          rw [heval] at hrun
          exact hrun
      | ok v =>
          change (if prims.pointer v then Except.error Stop.touch else Except.ok v) ≠ _
          rw [hvalue k self env v heval]
          exact fun h => nomatch h
  | mark m => exact h.not_impure.elim
  | other parts => exact h.not_impure.elim

omit hself in
theorem NoTouch.enterStep {d : DFn} {vs : List Scalar}
    (h : CleanBody prims decls mutableBuiltin marked d.body) :
    Pty.enter prims decls (k + 1) d vs ≠ .error .touch := by
  rw [Pty.enter]
  split
  · exact ih.body d _ d.body h h
  · exact fun h => nomatch h

theorem NoTouch.optStep {env : Env} {o : Option Expr}
    (h : Clean prims decls marked [scanOpt mutableBuiltin o] (readsOpt o)) :
    evalOpt prims decls (k + 1) self env o ≠ .error .touch := by
  cases o with
  | none => exact fun h => nomatch h
  | some e => exact ih.body self env e hself h

theorem NoTouch.argsStep {env : Env} {es : List Expr}
    (h : Clean prims decls marked (scanArgs mutableBuiltin es) (readsArgs es)) :
    evalArgs prims decls (k + 1) self env es ≠ .error .touch := by
  cases es with
  | nil => exact fun h => nomatch h
  | cons e rest =>
      have hparts := Clean.cons h
      rw [evalArgs]
      refine bind_ne_touch (ih.body self env e hself hparts.1) fun v => ?_
      exact bind_ne_touch (ih.args self env rest hself hparts.2) fun vs h => nomatch h

theorem NoTouch.armsStep {env : Env} {v : Scalar} {arms : List Arm}
    (h : Clean prims decls marked (scanArms mutableBuiltin arms) (readsArms arms)) :
    evalArms prims decls (k + 1) self env v arms ≠ .error .touch := by
  cases arms with
  | nil => exact fun h => nomatch h
  | cons a rest =>
      obtain ⟨p, guard, body⟩ := a
      have hparts := Clean.cons h
      have hbodies := Clean.cons hparts.2
      rw [evalArms]
      cases matchPattern v p with
      | none => exact ih.arms self env v rest hself hbodies.2
      | some bound =>
          have hrest : ∀ holds : Scalar,
              (if holds = .bool true then eval prims decls k self (bound ++ env) body
                else evalArms prims decls k self env v rest) ≠ .error .touch := by
            intro holds
            split
            · exact ih.body self _ body hself hbodies.1
            · exact ih.arms self env v rest hself hbodies.2
          cases guard with
          | none => exact hrest (.bool true)
          | some g => exact bind_ne_touch (ih.body self _ g hself hparts.1) hrest

theorem NoTouch.stmtsStep {env : Env} {ss : List Stmt}
    (h : Clean prims decls marked (scanStmts mutableBuiltin ss) (readsStmts ss)) :
    evalStmts prims decls (k + 1) self env ss ≠ .error .touch := by
  cases ss with
  | nil => exact fun h => nomatch h
  | cons s rest =>
      have hparts := Clean.cons h
      rw [evalStmts]
      exact bind_ne_touch (ih.stmt self env s hself hparts.1) fun env' =>
        ih.stmts self env' rest hself hparts.2

theorem NoTouch.stmtStep {env : Env} {s : Stmt}
    (h : Clean prims decls marked [scanStmt mutableBuiltin s] (readsStmt s)) :
    evalStmt prims decls (k + 1) self env s ≠ .error .touch := by
  cases s with
  | «let» p rhs =>
      rw [evalStmt]
      refine bind_ne_touch (ih.body self env rhs hself h) fun v => ?_
      exact bind_ne_touch (orTrap_ne_touch _) fun bound h => nomatch h
  | assert cond message =>
      have hparts := Clean.merge2 h
      rw [evalStmt]
      refine bind_ne_touch (ih.body self env cond hself hparts.1) fun v => ?_
      split
      · exact fun h => nomatch h
      · exact bind_ne_touch (ih.opt self env message hself hparts.2) fun _ h => nomatch h
  | expr e =>
      rw [evalStmt]
      exact bind_ne_touch (ih.body self env e hself h) fun _ h => nomatch h
  | use => exact fun h => nomatch h
  | write e => exact h.not_impure.elim

omit ih hself

theorem noTouch
    (hmarked : ∀ f, marked f →
      ∃ d, fnOf decls f = some d ∧ CleanBody prims decls mutableBuiltin marked d.body) :
    ∀ k, NoTouch prims decls mutableBuiltin marked k
  | 0 => by constructor <;> intros <;> exact fun h => nomatch h
  | k + 1 =>
      have ih := noTouch hmarked k
      { body := fun _ _ _ hself h => ih.bodyStep hself hmarked h
        enter := fun _ _ h => ih.enterStep h
        opt := fun _ _ _ hself h => ih.optStep hself h
        args := fun _ _ _ hself h => ih.argsStep hself h
        arms := fun _ _ _ _ hself h => ih.armsStep hself h
        stmts := fun _ _ _ hself h => ih.stmtsStep hself h
        stmt := fun _ _ _ hself h => ih.stmtStep hself h }

end Clean

theorem MarksLe.eq {a b : List PurityMark} (h : MarksLe a b) (heq : marksEq b a = true) :
    b = a := by
  induction h with
  | nil => rfl
  | @cons x y a b hxy _ ih =>
      rw [marksEq] at heq
      split at heq
      · next hverdict =>
          rw [ih heq, List.cons.injEq, PurityMark.mk.injEq]
          exact ⟨⟨hxy.1.symm, hverdict⟩, rfl⟩
      · exact absurd heq Bool.false_ne_true

theorem refinePass_purityFixpoint (cands : List Candidate) (marks : List PurityMark)
    (h : MarksLe (refinePass cands marks) marks) :
    refinePass cands (purityFixpoint cands marks h) = purityFixpoint cands marks h := by
  fun_induction purityFixpoint cands marks h with
  | case1 marks h heq =>
      have hfixed := h.eq heq
      rw [← hfixed, ← hfixed]
  | case2 marks h hne ih => exact ih

variable {decls : List Decl} {mutableBuiltin : ℕ → Bool}

theorem find_collectCandidates (f : FnId) :
    (collectCandidates mutableBuiltin decls).find? (fun c => c.fid = f) =
      (fnOf decls f).map fun d =>
        { fid := d.fid, raw := sigIsAllRaw d.sig, found := scanBody mutableBuiltin d.body } := by
  induction decls with
  | nil => rfl
  | cons d rest ih =>
      rw [collectCandidates, List.filterMap_cons, fnOf, List.findSome?_cons]
      cases d with
      | fn d =>
          rw [candOfDecl, List.find?_cons]
          by_cases heq : d.fid = f
          · simp only [heq, decide_true, if_true, Option.map_some]
          · simp only [heq, decide_false, if_false]
            exact ih
      | «const» s init => exact ih
      | other => exact ih

theorem purityOf_map (cands : List Candidate) (mark : Candidate → PurityMark)
    (hmark : ∀ c, (mark c).fid = c.fid) (f : FnId) :
    purityOf (cands.map mark) f = .const ↔
      ∃ c, cands.find? (fun c => c.fid = f) = some c ∧ (mark c).verdict = .const := by
  induction cands with
  | nil => exact ⟨(fun h => nomatch h), fun ⟨_, h, _⟩ => nomatch h⟩
  | cons c rest ih =>
      rw [List.map_cons, purityOf, hmark, List.find?_cons]
      by_cases heq : c.fid = f
      · simp only [heq, decide_true, if_true, Option.some.injEq, exists_eq_left']
      · simp only [heq, Ne.symm heq, decide_false, if_false]
        exact ih

/-- The function of each member has an all-raw signature and a clean body that calls members. -/
def Closed (mutableBuiltin : ℕ → Bool) (decls : List Decl) (kept : Set FnId) : Prop :=
  ∀ f ∈ kept, ∃ d, fnOf decls f = some d ∧ sigIsAllRaw d.sig = true ∧
    (scanBody mutableBuiltin d.body).Kept (· ∈ kept)

theorem purityOf_refinePass (marks : List PurityMark) (f : FnId) :
    purityOf (refinePass (collectCandidates mutableBuiltin decls) marks) f = .const ↔
      ∃ d, fnOf decls f = some d ∧ sigIsAllRaw d.sig = true ∧
        (scanBody mutableBuiltin d.body).Kept fun g => purityOf marks g = .const := by
  rw [refinePass, purityOf_map _ _ (fun _ => rfl), find_collectCandidates]
  simp only [Option.map_eq_some_iff, refineOne_eq_const, Local.Kept]
  constructor
  · rintro ⟨_, ⟨d, hd, rfl⟩, hraw, hkept⟩
    exact ⟨d, hd, hraw, hkept⟩
  · rintro ⟨d, hd, hraw, hkept⟩
    exact ⟨_, ⟨d, hd, rfl⟩, hraw, hkept⟩

theorem purityOf_purityFixpoint {kept : Set FnId} (hclosed : Closed mutableBuiltin decls kept)
    (marks : List PurityMark)
    (h : MarksLe (refinePass (collectCandidates mutableBuiltin decls) marks) marks)
    (hmarks : ∀ f ∈ kept, purityOf marks f = .const) :
    ∀ f ∈ kept, purityOf (purityFixpoint _ marks h) f = .const := by
  have hpass : ∀ marks : List PurityMark, (∀ f ∈ kept, purityOf marks f = .const) → ∀ f ∈ kept,
      purityOf (refinePass (collectCandidates mutableBuiltin decls) marks) f = .const := by
    intro marks hmarks f hf
    obtain ⟨d, hd, hraw, callees, hfound, hcallees⟩ := hclosed f hf
    exact (purityOf_refinePass marks f).2
      ⟨d, hd, hraw, callees, hfound, fun g hg => hmarks g (hcallees g hg)⟩
  fun_induction purityFixpoint (collectCandidates mutableBuiltin decls) marks h with
  | case1 marks h heq => exact hpass marks hmarks
  | case2 marks h hne ih => exact ih (hpass marks hmarks)

theorem isGreatest_purityAnalyze (mutableBuiltin : ℕ → Bool) (decls : List Decl) :
    IsGreatest {kept | Closed mutableBuiltin decls kept}
      {f | purityOf (purityAnalyze mutableBuiltin decls) f = .const} := by
  constructor
  · intro f hf
    refine (purityOf_refinePass _ f).1 ?_
    rw [purityAnalyze, refinePass_purityFixpoint]
    exact hf
  · intro kept hclosed
    refine purityOf_purityFixpoint hclosed _ _ fun f hf => ?_
    obtain ⟨d, hd, hraw, callees, hfound, _⟩ := hclosed f hf
    rw [seedVerdicts, purityOf_map _ _ (fun _ => rfl), find_collectCandidates, hd]
    exact ⟨_, rfl, seedVerdicts_eq_const.2 ⟨hraw, callees, hfound⟩⟩

/-- Each symbol that the body of a marked function reads is a quiet constant, and what it puts in a
box needs no cell. -/
def ReadsQuiet (prims : Prims) (mutableBuiltin : ℕ → Bool) (decls : List Decl) : Prop :=
  ∀ f d, purityOf (purityAnalyze mutableBuiltin decls) f = .const → fnOf decls f = some d →
    ∀ r ∈ reads d.body, Quiet prims decls r

theorem Closed.marked {kept : Set FnId} (h : Closed mutableBuiltin decls kept) {f : FnId}
    (hf : f ∈ kept) : purityOf (purityAnalyze mutableBuiltin decls) f = .const :=
  (isGreatest_purityAnalyze mutableBuiltin decls).2 h hf

/-- `if n < 1 { limit } else { down(n - 1) }`, where `limit` comes in a box. -/
def downValue : Expr :=
  .cond (.binop .lt (.local 0) (.lit (.int 1))) (.boxed (.sym 0 0))
    (some (.call (.sym 1 0) [.binop .sub (.local 0) (.lit (.int 1))]))

/-- `fn down(n)`: a value with a branch in a box is in a box itself. -/
def down : DFn where
  fid := ⟨1, 0⟩
  sig := some (true, [true])
  params := [0]
  body := .boxed downValue

/-- `const limit = 3` and `down`. -/
def countdown : List Decl :=
  [.const 0 (.lit (.int 3)), .fn down]

/-- Integers of 63 bits are their own boxes. -/
def intPrims : Prims where
  binop
    | .lt, .int a, .int b => some (.bool (a < b))
    | .sub, .int a, .int b => some (.int (a - b))
    | .add, .int a, .int b => some (.int (a + b))
    | _, _, _ => none
  unop _ _ := none
  pointer
    | .int n => n < -2 ^ 62 || 2 ^ 62 ≤ n
    | .unit => false
    | _ => true

theorem fnOf_countdown {f : FnId} {d : DFn} (h : fnOf countdown f = some d) : d = down := by
  simp only [fnOf, countdown, List.findSome?_cons, List.findSome?_nil] at h
  split at h
  · next d' heq =>
      split at heq
      · rw [← heq, Option.some.injEq] at h
        exact h.symm
      · exact nomatch heq
  · exact nomatch h

theorem eval_limit {k : ℕ} {self : DFn} {env : Env} {v : Scalar}
    (h : eval intPrims countdown k self env (.sym 0 0) = .ok v) : v = .int 3 := by
  match k, h with
  | 0, h => exact nomatch h
  | 1, h => exact nomatch h
  | k + 2, h => exact (Except.ok.inj h).symm

theorem ok_of_boxed {prims : Prims} {decls : List Decl} {k : ℕ} {self : DFn} {env : Env} {e : Expr}
    {v : Scalar} (h : eval prims decls (k + 1) self env (.boxed e) = .ok v) :
    eval prims decls k self env e = .ok v := by
  rw [eval] at h
  obtain ⟨x, hx, h⟩ := ok_of_bind_eq_ok h
  split at h
  · exact nomatch h
  · rw [hx, h]

theorem eval_downValue (k : ℕ) : ∀ (self : DFn) (env : Env) (v : Scalar),
    eval intPrims countdown k self env downValue = .ok v → v = .int 3 := by
  induction k using Nat.strong_induction_on with
  | _ k ih =>
      intro self env v h
      match k, h with
      | j + 1, h =>
          rw [downValue, eval] at h
          obtain ⟨x, -, hbranch⟩ := ok_of_bind_eq_ok h
          split at hbranch
          · match j, hbranch with
            | i + 1, hbranch => exact eval_limit (ok_of_boxed hbranch)
          · match j, hbranch with
            | 1, hbranch => exact nomatch hbranch
            | i + 2, hbranch =>
                rw [evalOpt, eval] at hbranch
                obtain ⟨vs, -, hcall⟩ := ok_of_bind_eq_ok hbranch
                match i, hcall with
                | 1, hcall =>
                    change enter intPrims countdown 1 down vs = .ok v at hcall
                    rw [enter] at hcall
                    split at hcall <;> exact nomatch hcall
                | l + 2, hcall =>
                    change enter intPrims countdown (l + 2) down vs = .ok v at hcall
                    rw [enter] at hcall
                    split at hcall
                    · exact ih l (by omega) _ _ v (ok_of_boxed hcall)
                    · exact nomatch hcall

/-- `fn plus(n) = n + size`, over `const size = list_length([1])`. -/
def plus : DFn where
  fid := ⟨1, 0⟩
  sig := some (true, [true])
  params := [0]
  body := .boxed (.binop .add (.boxed (.local 0)) (.boxed (.sym 0 0)))

/-- `fn sq(x: Real) = x ^ 2`: there is no raw power of reals. -/
def sq : DFn where
  fid := ⟨1, 0⟩
  sig := some (true, [true])
  params := [0]
  body := .boxed (.binop .pow (.boxed (.local 0)) (.boxed (.lit (.int 2))))

example : purityOf (purityAnalyze (fun _ => false) [.fn sq]) ⟨1, 0⟩ = .const ∧
    enter intPrims [.fn sq] 5 sq [.real 0] = .error .touch := by
  have hclosed : Closed (fun _ => false) [.fn sq] {⟨1, 0⟩} := by
    intro f hf
    obtain rfl : f = ⟨1, 0⟩ := hf
    exact ⟨sq, rfl, rfl, [], rfl, fun _ h => nomatch h⟩
  exact ⟨hclosed.marked (Set.mem_singleton _), rfl⟩

end Kaikai.Pty
