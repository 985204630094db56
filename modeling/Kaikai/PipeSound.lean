import Kaikai.PipeStages
import Mathlib.Data.List.Forall2

namespace Kaikai.PipeFusion

open Kaikai.Word64 (Word)

variable {σ A : Type} {α β : Type}

/-- An end or a step of a range: a literal, any other expression, or a name that the block
ahead of the range binds. -/
inductive Operand where
  | int (n : Word)
  | written (w : Written)
  | bound (k : Nat)

def Operand.expr : Operand → Expr
  | .int n => .int n
  | .written w => w.expr .int
  | .bound k => .loc (.user k)

/-- A binding of a block. -/
structure Bind where
  k : Nat
  role : Role
  w : Written

def Bind.pair (b : Bind) : Local × Expr := (.user b.k, b.w.expr b.role)

inductive Source where
  | list (w : Written)
  | container (w : Written)
  | range (binds : List Bind) (start stop : Operand)
  | stepped (binds : List Bind) (start stop step : Operand)

def Source.expr : Source → Expr
  | .list w => w.expr .list
  | .container w => w.expr .container
  | .range binds start stop => block (binds.map Bind.pair) (.range start.expr stop.expr)
  | .stepped binds start stop step =>
      block (binds.map Bind.pair) (.rangeStep start.expr stop.expr step.expr)

inductive Head where
  | list | container | range | stepped
deriving DecidableEq

def Source.head : Source → Head
  | .list _ => .list
  | .container _ => .container
  | .range _ _ _ => .range
  | .stepped _ _ _ _ => .stepped

/-- A combiner; the row of its type may have labels. -/
structure Combiner where
  kind : Kind
  k : Nat
  effects : Bool

namespace Combiner

variable (M : Meaning σ A) (c : Combiner)

def expr : Expr := .written (if c.effects then .combine else .pureCombine) c.kind c.k

def Settled : Prop := c.kind ≠ .other

def run : Comp σ (Datum A → Datum A → Comp σ (Datum A)) :=
  if c.effects then (Written.mk c.kind c.k).run M .combine
  else (fun f a b => pure (f a b)) <$> (Written.mk c.kind c.k).run M .pureCombine

/-- The closure of a name or a lambda. -/
def value : Datum A → Datum A → Comp σ (Datum A) :=
  if c.effects then M.constant .combine c.kind c.k
  else fun a b => pure (M.constant .pureCombine c.kind c.k a b)

end Combiner

theorem eval_combiner (M : Meaning σ A) (fuel : Nat) (env : Env σ A) (c : Combiner) :
    eval M fuel env c.expr = .fn2 <$> c.run M := by
  obtain ⟨kind, k, effects⟩ := c
  have hwritten : ∀ r, eval M fuel env (.written r kind k) = r.val <$> (Written.mk kind k).run M r :=
    fun r => eval_written M fuel env ⟨kind, k⟩ r
  cases effects with
  | true => exact hwritten .combine
  | false =>
      refine (hwritten .pureCombine).trans ?_
      simp only [Combiner.run, Bool.false_eq_true, if_false, Functor.map_map]
      rfl

theorem Combiner.Settled.run {c : Combiner} (h : c.Settled) (M : Meaning σ A) :
    c.run M = pure (c.value M) := by
  obtain ⟨kind, k, effects⟩ := c
  have hwritten : ∀ r, (Written.mk kind k).run M r = pure (M.constant r kind k) :=
    fun r => Written.Settled.run (w := ⟨kind, k⟩) h M r
  cases effects with
  | true => exact hwritten .combine
  | false =>
      simp only [Combiner.run, Combiner.value, Bool.false_eq_true, if_false, hwritten, map_pure]

/-- A fold that a chain may end in. -/
inductive FoldOp where
  | foldl (init : Written) (combine : Combiner)
  | sum
  | product

/-- What a chain ends in: nothing, a fold, its length, or a `Vec`. -/
inductive Terminal where
  | map
  | fold (op : FoldOp)
  | length
  | collect

/-- The stage behind `|>`. -/
def FoldOp.rhs (container : Bool) : FoldOp → Expr
  | .foldl init combine =>
      .call (.core (if container then .protoFoldl else .foldl))
        [init.expr .datum, combine.expr]
  | .sum => .core .sum
  | .product => .core .product

/-- The program as it was written. -/
def program (src : Source) (stages : List (Pos × Stage)) : Terminal → Expr
  | .map => chain src.expr stages
  | .fold op => .pipe (chain src.expr stages) (op.rhs (src.head = .container))
  | .length => .pipe (chain src.expr stages) (.core .length)
  | .collect => .call (.core .vecFromList) [chain src.expr stages]

def rewriteFold (container : Bool) (lhs rhs : Expr) (pos : Pos) : Option Expr :=
  (asTerminalFold lhs rhs).map fun ff =>
    if container then genericFoldRewrite ff pos else foldRewrite ff pos

/-- The program that the compiler makes of it at `pos`; `none` leaves it as it is. -/
def rewritten (src : Source) (stages : List (Pos × Stage)) (pos : Pos) :
    Terminal → Option Expr
  | .map => if src.head = .container then none else some (lowerMapPipes (chain src.expr stages))
  | .fold op =>
      rewriteFold (src.head = .container) (chain src.expr stages)
        (op.rhs (src.head = .container)) pos
  | .length => rewriteFold (src.head = .container) (chain src.expr stages) (.core .length) pos
  | .collect =>
      let flat := flattenMapChain (chain src.expr stages)
      collectRewrite flat.source flat.stages pos

namespace FoldOp

/-- The fold over a list, a range and a stepped range. -/
def cf : FoldOp → CoreFn
  | .foldl _ _ => .mapFoldl
  | .sum => .mapSum
  | .product => .mapProduct

def extra : FoldOp → List Expr
  | .foldl init combine => [init.expr .datum, combine.expr]
  | _ => []

/-- The seed and the combiner. -/
def spec (M : Meaning σ A) : FoldOp → Comp σ (Datum A × (Datum A → Datum A → Comp σ (Datum A)))
  | .foldl init combine => do
      let i ← init.run M .datum
      let c ← combine.run M
      pure (i, c)
  | .sum => pure (M.zero, pureOp M.add)
  | .product => pure (M.one, pureOp M.mul)

def vals (op : FoldOp) (p : Datum A × (Datum A → Datum A → Comp σ (Datum A))) : List (Val σ A) :=
  match op with
  | .foldl _ _ => [.datum p.1, .fn2 p.2]
  | _ => []

/-- A fold after its traversal: the seed and the combiner, then element after element. -/
def run (M : Meaning σ A) (op : FoldOp) (ys : List (Datum A)) : Comp σ (Val σ A) := do
  let p ← op.spec M
  .datum <$> ys.foldlM p.2 p.1

/-- A fold in one pass, with a closure in front of the combiner. -/
def runWith (M : Meaning σ A) (op : FoldOp) (f : Datum A → Comp σ (Datum A))
    (xs : List (Datum A)) : Comp σ (Val σ A) := do
  let p ← op.spec M
  .datum <$> xs.foldlM (fun acc d => f d >>= p.2 acc) p.1

theorem evalList_extra (M : Meaning σ A) (fuel : Nat) (env : Env σ A) (op : FoldOp) :
    evalList M fuel env op.extra = op.vals <$> op.spec M := by
  cases op with
  | foldl init combine => simp [extra, evalList, eval_written, eval_combiner, spec, vals, Role.val]
  | sum => rfl
  | product => rfl

theorem extra_indep (M : Meaning σ A) (fuel : Nat) (op : FoldOp) {e : Expr} (he : e ∈ op.extra)
    (env env' : Env σ A) : eval M fuel env e = eval M fuel env' e := by
  cases op with
  | foldl init combine =>
      simp only [extra, List.mem_cons, List.not_mem_nil, or_false] at he
      rcases he with rfl | rfl
      · rw [eval_written, eval_written]
      · rw [eval_combiner, eval_combiner]
  | sum => cases he
  | product => cases he

end FoldOp

theorem mapFoldl_eq (f : Datum A → Comp σ (Datum A)) (c : Datum A → Datum A → Comp σ (Datum A))
    (xs : List (Datum A)) (acc : Datum A) :
    mapFoldl f c xs acc = xs.foldlM (fun acc d => f d >>= c acc) acc := by
  induction xs generalizing acc with
  | nil => rfl
  | cons x xs ih => simp [mapFoldl, ih]

theorem foldlM_pureOp (f : Datum A → Datum A → Datum A) (xs : List (Datum A)) (acc : Datum A) :
    xs.foldlM (pureOp f) acc = (pure (xs.foldl f acc) : Comp σ (Datum A)) := by
  induction xs generalizing acc with
  | nil => rfl
  | cons x xs ih => simp [pureOp, ih]

theorem rangeMapFoldl_eq (f : Datum A → Comp σ (Datum A)) (c : β → Datum A → Comp σ β)
    {stop step : Word} (hstep : step.1 > 0) {fuel : Nat} : ∀ {start : Word} {ns : List Word},
      rangeList stop step fuel start = some ns → ∀ acc,
      rangeMapFoldl f c stop step fuel start acc =
        (ns.map .int).foldlM (fun acc d => f d >>= c acc) acc := by
  induction fuel with
  | zero => exact fun h => by cases h
  | succ fuel ih =>
      intro start ns h acc
      simp only [rangeList, rangeEnded, if_pos hstep, decide_eq_true_eq] at h
      rw [rangeMapFoldl]
      by_cases hend : start.1 > stop.1
      · rw [if_pos hend, Option.some.injEq] at h
        rw [if_pos hend, ← h]
        rfl
      · rw [if_neg hend, Option.map_eq_some_iff] at h
        obtain ⟨rest, hrest, rfl⟩ := h
        rw [if_neg hend, List.map_cons, List.foldlM_cons, bind_assoc]
        congr 1
        funext y
        congr 1
        funext acc'
        exact ih hrest acc'

theorem callCore_fold (M : Meaning σ A) (fuel : Nat) (op : FoldOp) (xs : List (Datum A))
    (f : Datum A → Comp σ (Datum A)) :
    (do
      let p ← op.spec M
      callCore M fuel op.cf (.list xs :: .fn1 f :: op.vals p)) = (do
      let p ← op.spec M
      .datum <$> mapFoldl f p.2 xs p.1) := by
  cases op <;> rfl

theorem callCore_rangeFold (M : Meaning σ A) (fuel : Nat) (op : FoldOp) (a b : Word)
    (f : Datum A → Comp σ (Datum A)) :
    (do
      let p ← op.spec M
      callCore M fuel (rangeFold op.cf false)
        (.datum (.int a) :: .datum (.int b) :: .fn1 f :: op.vals p)) = (do
      let p ← op.spec M
      .datum <$> rangeMapFoldl f p.2 b oneStep fuel a p.1) := by
  cases op <;> rfl

theorem callCore_stepFold (M : Meaning σ A) (fuel : Nat) (op : FoldOp) (a b s : Word)
    (f : Datum A → Comp σ (Datum A)) :
    (do
      let p ← op.spec M
      callCore M fuel (rangeFold op.cf true)
        (.datum (.int a) :: .datum (.int b) :: .datum (.int s) :: .fn1 f :: op.vals p)) = (do
      let p ← op.spec M
      .datum <$> rangeMapFoldl f p.2 b s fuel a p.1) := by
  cases op <;> rfl

theorem oneStep_pos : oneStep.1 > 0 := by decide

theorem rangeElems_int (fuel : Nat) (a b s : Word) (hs : s.1 > 0) :
    (rangeElems fuel (.datum (.int a)) (.datum (.int b)) (.datum (.int s)) :
        Comp σ (List (Datum A))) =
      (do
        let ns ← StateT.lift (rangeList b s fuel a)
        pure (ns.map .int)) := by
  rw [rangeElems, if_neg (by omega)]

theorem refines_rangeElems {fuel : Nat} {va vb vs : Val σ A} {k : List (Datum A) → Comp σ α}
    {y : Comp σ α} (h : ∀ a b s, va = .datum (.int a) → vb = .datum (.int b) →
      vs = .datum (.int s) → Refines (rangeElems fuel va vb vs >>= k) y) :
    Refines (rangeElems fuel va vb vs >>= k) y := by
  unfold rangeElems at h ⊢
  split
  · exact h _ _ _ rfl rfl rfl
  · exact Refines.failure y

theorem refines_loop (M : Meaning σ A) {fuel : Nat} {a b s : Word} (hs : s.1 > 0) (op : FoldOp)
    (f : Datum A → Comp σ (Datum A)) {y : Comp σ (Val σ A)}
    (hy : y = (do
      let p ← op.spec M
      .datum <$> rangeMapFoldl f p.2 b s fuel a p.1)) :
    Refines (do
      let xs ← rangeElems fuel (.datum (.int a)) (.datum (.int b)) (.datum (.int s))
      op.runWith M f xs) y := by
  subst hy
  rw [rangeElems_int fuel a b s hs]
  cases hlist : rangeList b s fuel a with
  | none => exact Refines.failure _
  | some ns =>
      apply Refines.of_eq
      simp only [lift_some, pure_bind, FoldOp.runWith]
      congr 1
      funext p
      rw [rangeMapFoldl_eq _ p.2 hs hlist]

theorem AgreeOff.operand {stem : Stem} {env env' : Env σ A} (h : AgreeOff stem env env')
    (M : Meaning σ A) (fuel : Nat) (o : Operand) :
    eval M fuel env' o.expr = eval M fuel env o.expr := by
  cases o with
  | int n => rfl
  | written w => rw [Operand.expr, eval_written, eval_written]
  | bound k => rw [Operand.expr, eval, eval, h _ (by simp)]

theorem refines_listFold (M : Meaning σ A) (fuel : Nat) (env : Env σ A) (w : Written)
    {ws : List Stage} (h : Composable ws) (op : FoldOp) (pos : Pos) :
    Refines (do
      let xs ← w.run M .list
      let f ← stagesRun M ws
      op.runWith M f xs)
      (eval M fuel env
        (stageFold ⟨w.expr .list, ws.map Stage.expr, .sum⟩ op.cf op.extra pos)) := by
  obtain ⟨env', hagree, hblock, hstage⟩ := bindStages_eval M fuel pos env h
  have hfold : stageFold ⟨w.expr .list, ws.map Stage.expr, .sum⟩ op.cf op.extra pos =
      block (bindStages (ws.map Stage.expr) pos).binds (foldCall op.cf
        (w.expr .list :: (bindStages (ws.map Stage.expr) pos).stage :: op.extra)) := rfl
  apply Refines.of_eq
  rw [hfold, hblock, foldCall, eval, eval, pure_bind, evalList, evalList,
    hstage env' fun _ => rfl, FoldOp.evalList_extra, eval_written]
  simp only [applyVal, map_eq_pure_bind, bind_assoc, pure_bind]
  congr 1
  funext xs
  congr 1
  funext f
  simp only [Role.val]
  rw [callCore_fold]
  simp only [mapFoldl_eq, FoldOp.runWith]

/-- A run that has no effect: it traps or has a value at once. -/
def Still (e : Comp σ α) : Prop := e = failure ∨ ∃ a, e = pure a

theorem Still.swap {γ : Type} {e : Comp σ α} (he : Still e) {m : Comp σ γ} {F : α → γ → Comp σ β}
    {G : γ → Comp σ β} (h : ∀ c, Refines (e >>= fun a => F a c) (G c)) :
    Refines (e >>= fun a => m >>= F a) (m >>= G) := by
  rcases he with rfl | ⟨a, rfl⟩
  · exact Refines.failure _
  · simp only [pure_bind] at h ⊢
    exact (Refines.refl m).bind h

theorem still_rangeElems (fuel : Nat) (va vb vs : Val σ A) : Still (rangeElems fuel va vb vs) := by
  unfold rangeElems
  split
  · split
    · exact .inl rfl
    · cases hlist : rangeList _ _ fuel _ with
      | none => exact .inl rfl
      | some ns => exact .inr ⟨_, rfl⟩
  · exact .inl rfl

theorem refines_rangeFold (M : Meaning σ A) (fuel : Nat) (env : Env σ A) (a b : Operand)
    {ws : List Stage} (h : Composable ws) (op : FoldOp) (pos : Pos) :
    Refines (do
      let va ← eval M fuel env a.expr
      let vb ← eval M fuel env b.expr
      let xs ← rangeElems fuel va vb (.datum (.int oneStep))
      let f ← stagesRun M ws
      op.runWith M f xs)
      (eval M fuel env (stageFold ⟨.range a.expr b.expr, ws.map Stage.expr, .sum⟩
        op.cf op.extra pos)) := by
  obtain ⟨env', hagree, hblock, hstage⟩ := bindStages_eval M fuel pos env h
  have hfold : stageFold ⟨.range a.expr b.expr, ws.map Stage.expr, .sum⟩ op.cf
      op.extra pos = block (bindStages (ws.map Stage.expr) pos).binds
        (foldCall (rangeFold op.cf false) (a.expr :: b.expr ::
          (bindStages (ws.map Stage.expr) pos).stage :: op.extra)) := rfl
  rw [hfold, hblock, foldCall, eval, eval, pure_bind, evalList, evalList, evalList,
    hstage env' fun _ => rfl, FoldOp.evalList_extra, hagree.operand, hagree.operand]
  simp only [applyVal, map_eq_pure_bind, bind_assoc, pure_bind]
  refine (Refines.refl _).bind fun va => (Refines.refl _).bind fun vb => ?_
  refine refines_rangeElems ?_
  rintro a b s rfl rfl hs
  refine (still_rangeElems _ _ _ _).swap fun f => ?_
  exact refines_loop M oneStep_pos op f (callCore_rangeFold M fuel op a b _)

theorem readsFree_still (M : Meaning σ A) (fuel : Nat) (env : Env σ A) {e : Expr}
    (h : readsFree e = true) : Still (eval M fuel env e) := by
  unfold readsFree at h
  split at h
  · exact .inr ⟨_, by rw [eval]⟩
  · exact .inr ⟨_, by rw [eval]; simp⟩
  · rename_i l
    rw [eval]
    cases env l with
    | none => exact .inl rfl
    | some v => exact .inr ⟨v, rfl⟩
  · exact .inr ⟨_, by rw [eval]⟩
  · cases h

theorem bindAll_refines (M : Meaning σ A) (fuel : Nat) (pos : Pos) (env₀ : Env σ A) (body : Expr)
    (es : List Expr) : ∀ (i : Nat) (env : Env σ A) (K : List (Val σ A) → Comp σ (Val σ A)),
      (∀ e ∈ es, ∀ env', AgreeOff .fuser env₀ env' → eval M fuel env' e = eval M fuel env₀ e) →
      AgreeOff .fuser env₀ env →
      (∀ vs env', AgreeOff .fuser env₀ env' →
        (∀ j < i, env' (.minted .fuser pos j) = env (.minted .fuser pos j)) →
        List.Forall₂ (fun ref v => eval M fuel env' ref = pure v) (bindAll es i pos).refs vs →
        Refines (K vs) (eval M fuel env' body)) →
      Refines (evalList M fuel env₀ es >>= K)
        (eval M fuel env (block (bindAll es i pos).binds body)) := by
  induction es with
  | nil =>
      intro i env K hindep henv hbody
      rw [evalList, pure_bind]
      exact hbody [] env henv (fun _ _ => rfl) .nil
  | cons e es ih =>
      intro i env K hindep henv hbody
      have hrest : ∀ e' ∈ es, ∀ env', AgreeOff .fuser env₀ env' →
          eval M fuel env' e' = eval M fuel env₀ e' := fun e' he' => hindep e' (.tail _ he')
      have he := hindep e List.mem_cons_self
      rw [evalList]
      simp only [bind_assoc, pure_bind]
      by_cases hfree : readsFree e = true
      · have hbinds : (bindAll (e :: es) i pos).binds = (bindAll es (i + 1) pos).binds := by
          rw [bindAll, if_pos hfree]
        rw [hbinds]
        rcases readsFree_still M fuel env₀ hfree with hfail | ⟨v, hv⟩
        · rw [hfail]
          exact Refines.failure _
        · rw [hv, pure_bind]
          refine ih (i + 1) env (fun vs => K (v :: vs)) hrest henv ?_
          intro vs env' hagree hlow hrefs
          refine hbody (v :: vs) env' hagree (fun j hj => hlow j (by omega)) ?_
          rw [bindAll, if_pos hfree]
          exact .cons (by rw [he env' hagree, hv]) hrefs
      · have hblock : block (bindAll (e :: es) i pos).binds body =
            .letIn (.minted .fuser pos i) e (block (bindAll es (i + 1) pos).binds body) := by
          rw [bindAll, if_neg hfree]
          rfl
        rw [hblock, eval, he env henv]
        refine (Refines.refl _).bind fun v => ?_
        refine ih (i + 1) _ (fun vs => K (v :: vs)) hrest
          (henv.trans (AgreeOff.update _ _ _ _ _)) ?_
        intro vs env' hagree hlow hrefs
        refine hbody (v :: vs) env' hagree ?_ ?_
        · intro j hj
          rw [hlow j (by omega), Function.update_of_ne]
          intro heq
          injection heq
          omega
        · rw [bindAll, if_neg hfree]
          refine .cons ?_ hrefs
          rw [eval, hlow i (by omega), Function.update_self, lift_some]

theorem Still.swap_back {γ : Type} {e : Comp σ α} (he : Still e) (m : Comp σ γ)
    (F : α → γ → Comp σ β) :
    Refines (m >>= fun c => e >>= fun a => F a c) (e >>= fun a => m >>= F a) := by
  rcases he with rfl | ⟨a, rfl⟩
  · intro st r h
    obtain ⟨⟨c, st'⟩, -, hfail⟩ := Option.bind_eq_some_iff.1 h
    cases hfail
  · simp only [pure_bind]
    exact Refines.refl _

theorem bindAll_refs (e : Expr) (es : List Expr) (i : Nat) (pos : Pos) :
    ∃ r, (bindAll (e :: es) i pos).refs = r :: (bindAll es (i + 1) pos).refs := by
  rw [bindAll]
  split
  · exact ⟨_, rfl⟩
  · exact ⟨_, rfl⟩

theorem evalList_pure (M : Meaning σ A) (fuel : Nat) (env : Env σ A) {refs : List Expr}
    {vs : List (Val σ A)} (h : List.Forall₂ (fun ref v => eval M fuel env ref = pure v) refs vs) :
    evalList M fuel env refs = pure vs := by
  induction h with
  | nil => rfl
  | cons href _ ih => rw [evalList, href, ih, pure_bind, pure_bind]

theorem length_bindAll (es : List Expr) (i : Nat) (pos : Pos) :
    (bindAll es i pos).refs.length = es.length := by
  induction es generalizing i with
  | nil => rfl
  | cons e es ih =>
      obtain ⟨r, hr⟩ := bindAll_refs e es i pos
      rw [hr, List.length_cons, ih, List.length_cons]

/-- The ends and the step of a range ahead of the other arguments of a call. -/
def steppedCall (fuel : Nat) (P : List (Datum A) → List (Val σ A) → Comp σ (Val σ A)) :
    List (Val σ A) → Comp σ (Val σ A)
  | va :: vb :: vs :: vals => rangeElems fuel va vb vs >>= fun xs => P xs vals
  | _ => failure

/-- A call over a stepped range: the loop upward, or the call over the range. `P` is what
either computes from the elements and the values of the other arguments. -/
theorem refines_stepped (M : Meaning σ A) (fuel : Nat) (env : Env σ A) (a b s : Operand)
    {es : List Expr} {up : CoreFn} {plain : List Expr → Expr} {source : Expr} (pos : Pos)
    {P : List (Datum A) → List (Val σ A) → Comp σ (Val σ A)}
    (hindep : ∀ e ∈ es, ∀ env', AgreeOff .fuser env env' → eval M fuel env' e = eval M fuel env e)
    (hplain : ∀ (env' : Env σ A) src args E, args.length = es.length →
      eval M fuel env' src = Val.list <$> E →
      Refines (E >>= fun xs => evalList M fuel env' args >>= P xs)
        (eval M fuel env' (plain (src :: args))))
    (hup : ∀ (a b s : Word) vals, s.1 > 0 →
      Refines (rangeElems fuel (.datum (.int a)) (.datum (.int b)) (.datum (.int s)) >>=
        fun xs => P xs vals)
        (callCore M fuel up (.datum (.int a) :: .datum (.int b) :: .datum (.int s) :: vals)))
    (hsource : ∀ k, tryIntLiteral s.expr = some k → k.1 > 0 ∨
      source = .rangeStep a.expr b.expr s.expr) :
    Refines (do
      let va ← eval M fuel env a.expr
      let vb ← eval M fuel env b.expr
      let vs ← eval M fuel env s.expr
      let vals ← evalList M fuel env es
      let xs ← rangeElems fuel va vb vs
      P xs vals)
      (eval M fuel env (stepped up [a.expr, b.expr, s.expr] es plain source pos)) := by
  have hsteps : stepLiteral [a.expr, b.expr, s.expr] = tryIntLiteral s.expr := rfl
  rw [stepped, hsteps]
  cases hlit : tryIntLiteral s.expr with
  | some k =>
      have hk : s.expr = .int k := by
        unfold tryIntLiteral at hlit
        split at hlit
        · rename_i n hn
          rw [hn, Option.some.inj hlit]
        · cases hlit
      simp only
      by_cases hpos : k.1 > 0
      · rw [if_pos hpos, foldCall, eval, eval, pure_bind]
        simp only [List.cons_append, List.nil_append, evalList, bind_assoc, pure_bind, applyVal]
        refine (Refines.refl _).bind fun va => (Refines.refl _).bind fun vb => ?_
        rw [hk, eval, pure_bind, pure_bind]
        refine (Refines.refl _).bind fun vals => refines_rangeElems ?_
        rintro a b s rfl rfl hs
        exact hup a b k vals hpos
      · rw [if_neg hpos]
        have hrange : source = .rangeStep a.expr b.expr s.expr :=
          (hsource k hlit).resolve_left hpos
        have heval : eval M fuel env source = Val.list <$> (do
            let va ← eval M fuel env a.expr
            let vb ← eval M fuel env b.expr
            let vs ← eval M fuel env s.expr
            rangeElems fuel va vb vs) := by
          rw [hrange, eval]
          simp
        refine Refines.trans ?_ (hplain env source es _ rfl heval)
        simp only [bind_assoc]
        refine (Refines.refl _).bind fun va => (Refines.refl _).bind fun vb =>
          (Refines.refl _).bind fun vs => ?_
        exact (still_rangeElems fuel va vb vs).swap_back _ P
  | none =>
      simp only
      obtain ⟨ra, hra⟩ := bindAll_refs a.expr (b.expr :: s.expr :: es) 0 pos
      obtain ⟨rb, hrb⟩ := bindAll_refs b.expr (s.expr :: es) (0 + 1) pos
      obtain ⟨rs, hrs⟩ := bindAll_refs s.expr es (0 + 1 + 1) pos
      rw [hrb, hrs] at hra
      have hlen : (bindAll es (0 + 1 + 1 + 1) pos).refs.length = es.length := length_bindAll _ _ _
      simp only [List.cons_append, List.nil_append, hra]
      have hindep' : ∀ e ∈ a.expr :: b.expr :: s.expr :: es, ∀ env', AgreeOff .fuser env env' →
          eval M fuel env' e = eval M fuel env e := by
        intro e he env' henv
        rcases List.mem_cons.1 he with rfl | he
        · exact henv.operand M fuel a
        rcases List.mem_cons.1 he with rfl | he
        · exact henv.operand M fuel b
        rcases List.mem_cons.1 he with rfl | he
        · exact henv.operand M fuel s
        exact hindep e he env' henv
      have hbody := bindAll_refines M fuel pos env (.ite (.gtZero rs)
        (foldCall up (ra :: rb :: rs :: (bindAll es (0 + 1 + 1 + 1) pos).refs))
        (plain (.rangeStep ra rb rs :: (bindAll es (0 + 1 + 1 + 1) pos).refs)))
        (a.expr :: b.expr :: s.expr :: es) 0 env (steppedCall fuel P) hindep' (AgreeOff.refl _ _)
      simp only [evalList, bind_assoc, pure_bind] at hbody
      refine hbody ?_
      intro vs env' hagree hlow hrefs
      rw [hra] at hrefs
      obtain ⟨va, vs₁, hva, hrefs₁, rfl⟩ := List.forall₂_cons_left_iff.1 hrefs
      obtain ⟨vb, vs₂, hvb, hrefs₂, rfl⟩ := List.forall₂_cons_left_iff.1 hrefs₁
      obtain ⟨vst, vals, hvst, hrefs₃, rfl⟩ := List.forall₂_cons_left_iff.1 hrefs₂
      have hvals := evalList_pure M fuel env' hrefs₃
      refine refines_rangeElems ?_
      rintro a b s rfl rfl rfl
      rw [eval, eval, hvst]
      simp only [isPositive, pure_bind, map_pure]
      by_cases hpos : s.1 > 0
      · simp only [hpos, decide_true]
        rw [foldCall, eval, eval, pure_bind, evalList, evalList, evalList, hva, hvb, hvst, hvals]
        simp only [pure_bind, applyVal]
        exact hup a b s vals hpos
      · simp only [hpos, decide_false]
        have hrange : eval M fuel env' (.rangeStep ra rb rs) = Val.list <$>
            rangeElems fuel (.datum (.int a)) (.datum (.int b)) (.datum (.int s)) := by
          rw [eval, hva, hvb, hvst, pure_bind, pure_bind, pure_bind]
        refine Refines.trans (Refines.of_eq ?_) (hplain env' _ _ _ hlen hrange)
        simp only [hvals, pure_bind]

end Kaikai.PipeFusion
