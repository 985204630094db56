import Kaikai.PipeClosures

namespace Kaikai.PipeFusion

open Kaikai.Word64 (Word)

variable {σ A : Type} {α β : Type}

/-- A run behind the bindings of a block. -/
def underBlock (M : Meaning σ A) (fuel : Nat) : List Bind → Env σ A → (Env σ A → Comp σ α) →
    Comp σ α
  | [], env, k => k env
  | b :: bs, env, k => do
      let v ← eval M fuel env (b.w.expr b.role)
      underBlock M fuel bs (Function.update env (.user b.k) (some v)) k

theorem eval_block (M : Meaning σ A) (fuel : Nat) (body : Expr) (binds : List Bind) :
    ∀ env, eval M fuel env (block (binds.map Bind.pair) body) =
      underBlock M fuel binds env fun env' => eval M fuel env' body := by
  induction binds with
  | nil => exact fun env => rfl
  | cons b bs ih =>
      intro env
      have hblock : block ((b :: bs).map Bind.pair) body =
          .letIn (.user b.k) (b.w.expr b.role) (block (bs.map Bind.pair) body) := rfl
      rw [hblock, eval, underBlock]
      congr 1
      funext v
      exact ih _

theorem underBlock_bind (M : Meaning σ A) (fuel : Nat) (binds : List Bind)
    (k : Env σ A → Comp σ α) (f : α → Comp σ β) : ∀ env,
      underBlock M fuel binds env k >>= f = underBlock M fuel binds env fun env' => k env' >>= f := by
  induction binds with
  | nil => exact fun env => rfl
  | cons b bs ih =>
      intro env
      rw [underBlock, underBlock, bind_assoc]
      congr 1
      funext v
      exact ih _

theorem Refines.underBlock (M : Meaning σ A) (fuel : Nat) (binds : List Bind)
    {k k' : Env σ A → Comp σ α} (h : ∀ env, Refines (k env) (k' env)) : ∀ env,
      Refines (underBlock M fuel binds env k) (underBlock M fuel binds env k') := by
  induction binds with
  | nil => exact h
  | cons b bs ih => exact fun env => (Refines.refl _).bind fun v => ih _

theorem endsInRange_block {body : Expr} (h : endsInRange body = true) (binds : List (Local × Expr)) :
    endsInRange (block binds body) = true := by
  induction binds with
  | nil => exact h
  | cons b bs ih => exact ih

theorem underBinds_block {body : Expr} (h : endsInRange body = true) (rewrite : Expr → Expr)
    (hbody : underBinds body rewrite = rewrite body) (binds : List (Local × Expr)) :
    underBinds (block binds body) rewrite = block binds (rewrite body) := by
  induction binds with
  | nil => exact hbody
  | cons b bs ih =>
      have hblock : ∀ e, block (b :: bs) e = .letIn b.1 b.2 (block bs e) := fun _ => rfl
      rw [hblock, hblock, underBinds, if_pos (endsInRange_block h bs), ih]

theorem collectRewrite_block {body : Expr} (stages : List Expr) (pos : Pos)
    (hbody : collectRewrite body stages pos = collectOver body stages pos)
    (binds : List (Local × Expr)) :
    collectRewrite (block binds body) stages pos =
      (collectOver body stages pos).map (block binds) := by
  induction binds with
  | nil =>
      rw [show block [] = id from rfl, Option.map_id]
      exact hbody
  | cons b bs ih =>
      have hblock : ∀ e, block (b :: bs) e = .letIn b.1 b.2 (block bs e) := fun _ => rfl
      rw [hblock, collectRewrite, ih, Option.map_map]
      rfl

def Source.carrier : Source → Carrier
  | .container _ => .container
  | _ => .list

/-- The ends and the step of a range, and the elements between them. -/
def rangeRun (M : Meaning σ A) (fuel : Nat) (a b : Operand) (step : Env σ A → Comp σ (Val σ A))
    (env : Env σ A) : Comp σ (List (Datum A)) := do
  let va ← eval M fuel env a.expr
  let vb ← eval M fuel env b.expr
  let vs ← step env
  rangeElems fuel va vb vs

def Source.elems (M : Meaning σ A) (fuel : Nat) (env : Env σ A) : Source → Comp σ (List (Datum A))
  | .list w => w.run M .list
  | .container w => w.run M .container
  | .range binds a b =>
      underBlock M fuel binds env (rangeRun M fuel a b fun _ => pure (.datum (.int oneStep)))
  | .stepped binds a b s =>
      underBlock M fuel binds env (rangeRun M fuel a b fun env => eval M fuel env s.expr)

theorem eval_source (M : Meaning σ A) (fuel : Nat) (env : Env σ A) (src : Source) :
    eval M fuel env src.expr = src.carrier.val <$> src.elems M fuel env := by
  cases src with
  | list w => exact eval_written M fuel env w .list
  | container w => exact eval_written M fuel env w .container
  | range binds a b =>
      rw [Source.expr, eval_block, Source.elems, map_eq_pure_bind, underBlock_bind]
      congr 1
      funext env'
      rw [eval, rangeRun]
      simp [Source.carrier, Carrier.val]
  | stepped binds a b s =>
      rw [Source.expr, eval_block, Source.elems, map_eq_pure_bind, underBlock_bind]
      congr 1
      funext env'
      rw [eval, rangeRun]
      simp [Source.carrier, Carrier.val]

/-- What a terminal does with the mapped sequence. -/
def Terminal.run (M : Meaning σ A) (c : Carrier) (ys : List (Datum A)) : Terminal → Comp σ (Val σ A)
  | .map => pure (c.val ys)
  | .fold (.foldl init combine) => (FoldOp.foldl init combine).run M ys
  | .fold op =>
      match c with
      | .list => op.run M ys
      | .container => failure
  | .length =>
      match c with
      | .list => pure (.datum (.int (.ofInt ys.length)))
      | .container => failure
  | .collect =>
      match c with
      | .list => pure (.vec ys)
      | .container => failure

theorem eval_pipeCore (M : Meaning σ A) (fuel : Nat) (env : Env σ A) (a : Expr) (cf : CoreFn) :
    eval M fuel env (.pipe a (.core cf)) =
      eval M fuel env a >>= fun v => callCore M fuel cf [v] := by
  have hcore : eval M fuel env (.core cf) = pure (.core cf) := by rw [eval]
  rw [eval, hcore]
  · rfl
  · exact fun f args h => by cases h

theorem eval_program (M : Meaning σ A) (fuel : Nat) (env : Env σ A) (src : Source)
    (stages : List (Pos × Stage)) (t : Terminal) :
    eval M fuel env (program src stages t) = (do
      let xs ← src.elems M fuel env
      let ys ← mapStages M (stages.map Prod.snd) xs
      t.run M src.carrier ys) := by
  have hchain := eval_chain M fuel env src.carrier stages (eval_source M fuel env src)
  have hcore : ∀ cf, eval M fuel env (.core cf) = pure (.core cf) := fun _ => by rw [eval]
  cases t with
  | map =>
      refine hchain.trans ?_
      rw [map_eq_pure_bind, bind_assoc]
      rfl
  | length =>
      rw [program, eval_pipeCore, hchain]
      simp only [bind_map_left, bind_assoc]
      cases src <;> rfl
  | collect =>
      rw [program, eval, hcore, evalList, evalList, hchain]
      simp only [bind_map_left, bind_assoc, pure_bind, applyVal]
      cases src <;> rfl
  | fold op =>
      have hfold : ∀ xs : List (Datum A), op.run M xs = op.spec M >>= fun p =>
          .datum <$> xs.foldlM p.2 p.1 := fun _ => rfl
      cases op with
      | foldl init combine =>
          rw [program, FoldOp.rhs, eval, hchain, hcore]
          simp only [evalList, eval_written, eval_combiner, bind_assoc, pure_bind, applyVal, bind_map_left,
            Terminal.run, hfold, FoldOp.spec]
          cases src <;> rfl
      | sum =>
          rw [program, FoldOp.rhs, eval_pipeCore, hchain]
          simp only [bind_map_left, bind_assoc]
          cases src with
          | container w => rfl
          | _ => simp only [Source.carrier, Terminal.run, hfold, FoldOp.spec, pure_bind,
              foldlM_pureOp, map_pure]; rfl
      | product =>
          rw [program, FoldOp.rhs, eval_pipeCore, hchain]
          simp only [bind_map_left, bind_assoc]
          cases src with
          | container w => rfl
          | _ => simp only [Source.carrier, Terminal.run, hfold, FoldOp.spec, pure_bind,
              foldlM_pureOp, map_pure]; rfl

/-- The stages of a chain, as the compiler reads them. -/
def stageExprs (stages : List (Pos × Stage)) : List Expr :=
  (stages.map Prod.snd).map Stage.expr

theorem flatten_chain (ps : List (Pos × Stage)) : ∀ {pos : Pos} {a s src : Expr} {fs : List Expr},
    flattenMapChain (.mapPipe pos a s) = ⟨src, fs⟩ →
      flattenMapChain (chain (.mapPipe pos a s) ps) = ⟨src, fs ++ stageExprs ps⟩ := by
  induction ps with
  | nil =>
      intro pos a s src fs h
      rw [stageExprs, List.map_nil, List.map_nil, List.append_nil]
      exact h
  | cons p ps ih =>
      intro pos a s src fs h
      have hnext : flattenMapChain (.mapPipe p.1 (.mapPipe pos a s) p.2.expr) =
          ⟨src, fs ++ [p.2.expr]⟩ := by
        rw [flattenMapChain, h]
      have hchain := ih hnext
      rw [List.append_assoc] at hchain
      exact hchain

/-- An expression that is not itself a chain. -/
def Plain (e : Expr) : Prop := ∀ pos a s, e ≠ .mapPipe pos a s

theorem flatten_source {src : Expr} (h : Plain src) (p : Pos × Stage)
    (ps : List (Pos × Stage)) :
    flattenMapChain (chain src (p :: ps)) = ⟨src, stageExprs (p :: ps)⟩ := by
  have hfirst : flattenMapChain (.mapPipe p.1 src p.2.expr) =
      ⟨src, [p.2.expr]⟩ := by
    rw [flattenMapChain]
    exact fun pos a s heq => h pos a s heq
  exact flatten_chain ps hfirst

theorem chain_mapPipe (ps : List (Pos × Stage)) : ∀ (pos : Pos) (a s : Expr),
    ∃ pos' a' s', chain (.mapPipe pos a s) ps = .mapPipe pos' a' s' := by
  induction ps with
  | nil => exact fun pos a s => ⟨pos, a, s, rfl⟩
  | cons p ps ih => exact fun pos a s => ih _ _ _

theorem asTerminalFold_chain {src : Expr} (h : Plain src) (p : Pos × Stage)
    (ps : List (Pos × Stage)) (rhs : Expr) :
    asTerminalFold (chain src (p :: ps)) rhs =
      (asTerminal rhs).map fun term => ⟨src, stageExprs (p :: ps), term⟩ := by
  obtain ⟨pos, a, s, hchain⟩ := chain_mapPipe ps p.1 src p.2.expr
  have hflat := flatten_source h p ps
  have hcons : chain src (p :: ps) = .mapPipe pos a s := hchain
  rw [hcons] at hflat ⊢
  rw [asTerminalFold, hflat]

theorem plain_block (binds : List Bind) {body : Expr} (h : Plain body) :
    Plain (block (binds.map Bind.pair) body) := by
  cases binds with
  | nil => exact h
  | cons b bs => exact fun pos a s heq => by cases heq

theorem Source.plain (src : Source) : Plain src.expr := by
  cases src with
  | list w => exact fun pos a s heq => by cases heq
  | container w => exact fun pos a s heq => by cases heq
  | range binds a b => exact plain_block binds fun pos a s heq => by cases heq
  | stepped binds a b s => exact plain_block binds fun pos a s heq => by cases heq

theorem Source.asMapCall (src : Source) : asMapCall src.expr = none := by
  cases src with
  | list w => rfl
  | container w => rfl
  | range binds a b => cases binds <;> rfl
  | stepped binds a b s => cases binds <;> rfl

theorem Source.lowerMapPipes (src : Source) : lowerMapPipes src.expr = src.expr := by
  have hplain := src.plain
  unfold PipeFusion.lowerMapPipes
  split
  · rename_i pos a s heq
    exact absurd heq (hplain pos a s)
  · rfl

def FoldOp.term : FoldOp → FoldTerminal
  | .foldl init combine => .foldl (init.expr .datum) combine.expr
  | .sum => .sum
  | .product => .product

theorem FoldOp.asTerminal_rhs (op : FoldOp) (container : Bool) :
    asTerminal (op.rhs container) = some op.term := by
  cases op <;> cases container <;> rfl

theorem refines_foldRewrite (M : Meaning σ A) (fuel : Nat) (env : Env σ A) {src : Source}
    (hhead : src.head ≠ .container) {stages : List Expr} {term : FoldTerminal} (pos : Pos)
    {K : List (Datum A) → Comp σ (Val σ A)}
    (hlist : ∀ env (w : Written), Refines (w.run M .list >>= K)
      (eval M fuel env (foldRewriteOver ⟨w.expr .list, stages, term⟩ pos)))
    (hrange : ∀ env (a b : Operand),
      Refines (rangeRun M fuel a b (fun _ => pure (.datum (.int oneStep))) env >>= K)
        (eval M fuel env (foldRewriteOver ⟨.range a.expr b.expr, stages, term⟩ pos)))
    (hstepped : ∀ env (a b s : Operand),
      Refines (rangeRun M fuel a b (fun env => eval M fuel env s.expr) env >>= K)
        (eval M fuel env (foldRewriteOver ⟨.rangeStep a.expr b.expr s.expr, stages, term⟩ pos))) :
    Refines (src.elems M fuel env >>= K)
      (eval M fuel env (foldRewrite ⟨src.expr, stages, term⟩ pos)) := by
  cases src with
  | list w => exact hlist env w
  | container w => exact absurd rfl hhead
  | range binds a b =>
      have hrewrite : foldRewrite ⟨(Source.range binds a b).expr, stages, term⟩ pos =
          block (binds.map Bind.pair)
            (foldRewriteOver ⟨.range a.expr b.expr, stages, term⟩ pos) :=
        underBinds_block rfl _ rfl _
      rw [hrewrite, eval_block, Source.elems, underBlock_bind]
      exact Refines.underBlock M fuel binds (fun env' => hrange env' a b) env
  | stepped binds a b s =>
      have hrewrite : foldRewrite ⟨(Source.stepped binds a b s).expr, stages, term⟩ pos =
          block (binds.map Bind.pair)
            (foldRewriteOver ⟨.rangeStep a.expr b.expr s.expr, stages, term⟩ pos) :=
        underBinds_block rfl _ rfl _
      rw [hrewrite, eval_block, Source.elems, underBlock_bind]
      exact Refines.underBlock M fuel binds (fun env' => hstepped env' a b s) env

theorem foldRewriteOver_term (op : FoldOp) (src : Expr) (stages : List Expr) (pos : Pos) :
    foldRewriteOver ⟨src, stages, op.term⟩ pos =
      stageFold ⟨src, stages, .sum⟩ op.cf op.extra pos := by
  cases op <;> rfl

theorem refines_fold (M : Meaning σ A) (fuel : Nat) (env : Env σ A) {src : Source}
    (hhead : src.head ≠ .container) {stages : List (Pos × Stage)}
    (h : Composable (stages.map Prod.snd)) (op : FoldOp) (pos : Pos) :
    Refines (do
      let xs ← src.elems M fuel env
      let f ← stagesRun M (stages.map Prod.snd)
      op.runWith M f xs)
      (eval M fuel env (foldRewrite ⟨src.expr, stageExprs stages, op.term⟩ pos)) := by
  refine refines_foldRewrite M fuel env hhead pos ?_ ?_ ?_
  · intro env w
    rw [foldRewriteOver_term]
    exact refines_listFold M fuel env w h op pos
  · intro env a b
    rw [foldRewriteOver_term, rangeRun]
    simp only [bind_assoc, pure_bind]
    exact refines_rangeFold M fuel env a b h op pos
  · intro env a b s
    rw [foldRewriteOver_term, rangeRun]
    simp only [bind_assoc]
    exact refines_steppedFold M fuel env a b s h op pos

theorem refines_length (M : Meaning σ A) (fuel : Nat) (env : Env σ A) {src : Source}
    (hhead : src.head ≠ .container) (stages : List Expr) (pos : Pos) :
    Refines (src.elems M fuel env >>= lengthRun)
      (eval M fuel env (foldRewrite ⟨src.expr, stages, .length⟩ pos)) := by
  refine refines_foldRewrite M fuel env hhead pos ?_ ?_ ?_
  · exact fun env w => refines_listLength M fuel env w pos
  · intro env a b
    rw [rangeRun]
    simp only [bind_assoc, pure_bind]
    exact refines_rangeLength M fuel env a b pos
  · intro env a b s
    rw [rangeRun]
    simp only [bind_assoc]
    exact refines_steppedLength M fuel env a b s pos

theorem head_stepped {a b : Expr} {s : Operand} (h : head (.rangeStep a b s.expr) = true) :
    ∀ k, tryIntLiteral s.expr = some k → k.1 > 0 := by
  intro k hk
  rw [head, hk] at h
  simpa using h

theorem refines_collect (M : Meaning σ A) (fuel : Nat) (env : Env σ A) {src : Source}
    {stages : List (Pos × Stage)} (pos : Pos) {new : Expr}
    (hnew : collectRewrite src.expr (stageExprs stages) pos = some new)
    (h : Composable (stages.map Prod.snd)) :
    Refines (do
      let xs ← src.elems M fuel env
      let f ← stagesRun M (stages.map Prod.snd)
      .vec <$> xs.mapM f)
      (eval M fuel env new) := by
  cases src with
  | list w => cases hnew
  | container w => cases hnew
  | range binds a b =>
      rw [Source.expr, collectRewrite_block _ _ rfl, Option.map_eq_some_iff] at hnew
      obtain ⟨call, hcall, rfl⟩ := hnew
      cases hcall
      rw [eval_block, Source.elems, underBlock_bind]
      refine Refines.underBlock M fuel binds (fun env' => ?_) env
      rw [rangeRun]
      simp only [bind_assoc, pure_bind]
      exact refines_rangeCollect M fuel env' a b h pos
  | stepped binds a b s =>
      rw [Source.expr, collectRewrite_block _ _ rfl, Option.map_eq_some_iff] at hnew
      obtain ⟨call, hcall, rfl⟩ := hnew
      rw [collectOver] at hcall
      split at hcall
      · cases hcall
      · rename_i hhead
        cases hcall
        rw [eval_block, Source.elems, underBlock_bind]
        refine Refines.underBlock M fuel binds (fun env' => ?_) env
        rw [rangeRun]
        simp only [bind_assoc]
        exact refines_steppedCollect M fuel env' a b s h pos
          (head_stepped (by simpa using hhead))

theorem Source.carrier_list (src : Source) (h : src.head ≠ .container) : src.carrier = .list := by
  cases src with
  | container w => exact absurd rfl h
  | _ => rfl

theorem Source.carrier_container (src : Source) (h : src.head = .container) :
    src.carrier = .container := by
  cases src with
  | container w => rfl
  | _ => cases h

theorem rewriteFold_chain (src : Source) (p : Pos × Stage) (ps : List (Pos × Stage))
    (container : Bool) {rhs : Expr} (term : FoldTerminal) (h : asTerminal rhs = some term)
    (pos : Pos) :
    rewriteFold container (chain src.expr (p :: ps)) rhs pos =
      some (if container then genericFoldRewrite ⟨src.expr, stageExprs (p :: ps), term⟩ pos
        else foldRewrite ⟨src.expr, stageExprs (p :: ps), term⟩ pos) := by
  rw [rewriteFold, asTerminalFold_chain src.plain, h]
  rfl

/-- What the rewritten program computes from the elements of its source. -/
def Terminal.fused (M : Meaning σ A) (ws : List Stage) (xs : List (Datum A)) :
    Terminal → Comp σ (Val σ A)
  | .map => do
      let f ← stagesRun M ws
      .list <$> xs.mapM f
  | .fold op => do
      let f ← stagesRun M ws
      op.runWith M f xs
  | .length => lengthRun xs
  | .collect => do
      let f ← stagesRun M ws
      .vec <$> xs.mapM f

/-- Where the stage expressions of a rewritten pipeline are evaluated once. -/
def Fusable (head : Head) (ws : List Stage) : Terminal → Prop
  | .fold (.foldl _ combine) =>
      if head = .container then (∀ w ∈ ws, w.Settled) ∧ combine.Settled else Composable ws
  | .length => head ≠ .container
  | _ => head ≠ .container ∧ Composable ws

/-- The program that is made of a pipeline returns what one traversal does, with the closures of the
stages called in turn on every element. -/
theorem refines_fused (M : Meaning σ A) (fuel : Nat) (env : Env σ A) (src : Source)
    (p : Pos × Stage) (ps : List (Pos × Stage)) (t : Terminal) (pos : Pos) {new : Expr}
    (hnew : rewritten src (p :: ps) pos t = some new)
    (h : Fusable src.head ((p :: ps).map Prod.snd) t) :
    Refines (src.elems M fuel env >>= fun xs => t.fused M ((p :: ps).map Prod.snd) xs)
      (eval M fuel env new) := by
  cases t with
  | map =>
      obtain ⟨hhead, hstages⟩ := h
      rw [rewritten, if_neg hhead] at hnew
      cases hnew
      have hsrc := eval_source M fuel env src
      rw [src.carrier_list hhead] at hsrc
      exact refines_map M fuel env hsrc src.lowerMapPipes src.asMapCall p ps hstages
  | length =>
      rw [rewritten, rewriteFold_chain src p ps _ .length rfl, decide_eq_false h] at hnew
      cases hnew
      exact refines_length M fuel env h _ pos
  | collect =>
      rw [rewritten, flatten_source src.plain] at hnew
      exact refines_collect M fuel env pos hnew h.2
  | fold op =>
      rw [rewritten, rewriteFold_chain src p ps _ _ (op.asTerminal_rhs _)] at hnew
      by_cases hhead : src.head = .container
      · cases op with
        | foldl init combine =>
            rw [decide_eq_true hhead] at hnew
            cases hnew
            rw [Fusable, if_pos hhead] at h
            cases src with
            | container w => exact refines_containerFold M fuel env w init combine h.1 h.2 pos
            | _ => cases hhead
        | sum => exact absurd hhead h.1
        | product => exact absurd hhead h.1
      · rw [decide_eq_false hhead] at hnew
        cases hnew
        have hstages : Composable ((p :: ps).map Prod.snd) := by
          cases op with
          | foldl init combine =>
              rw [Fusable, if_neg hhead] at h
              exact h
          | sum => exact h.2
          | product => exact h.2
        exact refines_fold M fuel env hhead hstages op pos

/-- The number of stages whose closures may have effects. -/
def mutables (ws : List Stage) : Nat := ws.countP Stage.mutable

theorem Stage.value_of_pure (M : Meaning σ A) {w : Stage} (h : w.mutable = false) :
    w.value M = fun d => pure (M.constant .stage w.kind w.k d) := by
  rw [Stage.value, h]
  rfl

theorem settledFun_pure (M : Meaning σ A) {ws : List Stage} (h : mutables ws = 0) :
    ∃ g : Datum A → Datum A, settledFun M ws = fun d => pure (g d) := by
  induction ws with
  | nil => exact ⟨id, rfl⟩
  | cons w ws ih =>
      rw [mutables, List.countP_eq_zero, List.forall_mem_cons] at h
      obtain ⟨g, hg⟩ := ih (List.countP_eq_zero.2 h.2)
      refine ⟨fun d => g (M.constant .stage w.kind w.k d), ?_⟩
      rw [settledFun, hg, Stage.value_of_pure M (by simpa using h.1)]
      simp only [pure_bind]

theorem stagesRun_pure (M : Meaning σ A) {ws : List Stage} (h : mutables ws = 0) :
    ∃ run : Comp σ (Datum A → Datum A), stagesRun M ws = (fun g d => pure (g d)) <$> run := by
  induction ws with
  | nil => exact ⟨pure id, rfl⟩
  | cons w ws ih =>
      rw [mutables, List.countP_eq_zero, List.forall_mem_cons] at h
      obtain ⟨run, hrun⟩ := ih (List.countP_eq_zero.2 h.2)
      refine ⟨do
        let f ← (Written.mk w.kind w.k).run M .stage
        let g ← run
        pure (g ∘ f), ?_⟩
      rw [stagesRun, hrun, Stage.run, if_neg h.1]
      simp only [bind_map_left, map_bind, map_pure, pure_bind]
      rfl

theorem mapM_bind_pure (f : Datum A → Comp σ (Datum A)) (g : Datum A → Datum A)
    (xs : List (Datum A)) :
    (xs.mapM f >>= fun ys => pure (ys.map g)) = xs.mapM fun d => f d >>= fun y => pure (g y) := by
  induction xs with
  | nil => rfl
  | cons x xs ih =>
      rw [List.mapM_cons, List.mapM_cons, bind_assoc, bind_assoc]
      congr 1
      funext y
      rw [pure_bind, ← ih]
      simp only [bind_assoc, pure_bind, List.map_cons]

theorem mapStages_settled (M : Meaning σ A) {ws : List Stage} (h : ∀ w ∈ ws, w.Settled)
    (hone : mutables ws ≤ 1) : ∀ xs, mapStages M ws xs = xs.mapM (settledFun M ws) := by
  induction ws with
  | nil =>
      intro xs
      have hpure := List.mapM_pure (m := Comp σ) (l := xs) (f := id)
      rw [List.map_id] at hpure
      exact hpure.symm
  | cons w ws ih =>
      intro xs
      rw [mutables, List.countP_cons] at hone
      have hrest : mutables ws ≤ 1 := by
        rw [mutables]
        omega
      have hih := ih (fun w' hw' => h w' (List.mem_cons_of_mem _ hw')) hrest
      rw [mapStages, (h w List.mem_cons_self).run, pure_bind]
      simp only [hih, settledFun]
      cases hw : w.mutable with
      | false =>
          rw [Stage.value_of_pure M hw, List.mapM_pure, pure_bind, List.mapM_map]
          simp only [pure_bind]
          rfl
      | true =>
          rw [hw, if_pos rfl] at hone
          have hrest : mutables ws = 0 := by
            rw [mutables]
            omega
          obtain ⟨g, hg⟩ := settledFun_pure M hrest
          rw [hg]
          simp only [List.mapM_pure]
          exact mapM_bind_pure _ g xs

theorem mapStages_eq (M : Meaning σ A) {ws : List Stage} (h : Composable ws)
    (hone : mutables ws ≤ 1) (xs : List (Datum A)) :
    mapStages M ws xs = stagesRun M ws >>= fun f => xs.mapM f := by
  rcases h with hlen | hsettled
  · obtain ⟨w, rfl⟩ := List.length_eq_one_iff.1 hlen
    simp [mapStages, stagesRun]
  · rw [mapStages_settled M hsettled hone, stagesRun_settled M hsettled, pure_bind]

/-- A fold whose operands have no effects. -/
def FoldOp.Quiet : FoldOp → Prop
  | .foldl init combine => init.Settled ∧ combine.Settled ∧ combine.effects = false
  | _ => True

theorem FoldOp.Quiet.spec {op : FoldOp} (h : op.Quiet) (M : Meaning σ A) :
    ∃ i c, op.spec M = pure (i, pureOp c) := by
  cases op with
  | foldl init combine =>
      obtain ⟨hinit, hcombine, heffects⟩ := h
      refine ⟨M.constant .datum init.kind init.k,
        M.constant .pureCombine combine.kind combine.k, ?_⟩
      rw [FoldOp.spec, hinit.run, hcombine.run, pure_bind, pure_bind, Combiner.value, heffects]
      rfl
  | sum => exact ⟨_, _, rfl⟩
  | product => exact ⟨_, _, rfl⟩

theorem foldlM_mapM_pureOp (f : Datum A → Comp σ (Datum A)) (c : Datum A → Datum A → Datum A)
    (xs : List (Datum A)) : ∀ i : Datum A,
      (xs.mapM f >>= fun ys => ys.foldlM (pureOp c) i) =
        xs.foldlM (fun acc d => f d >>= pureOp c acc) i := by
  induction xs with
  | nil => exact fun i => by rw [List.mapM_nil, pure_bind, List.foldlM_nil, List.foldlM_nil]
  | cons x xs ih =>
      intro i
      rw [List.mapM_cons, List.foldlM_cons, bind_assoc, bind_assoc]
      congr 1
      funext y
      rw [pureOp, pure_bind, ← ih]
      simp only [bind_assoc, pure_bind, List.foldlM_cons, pureOp]

/-- A fold behind the traversal is the fold in one pass, when the closure in front or the operands
of the fold have no effects. -/
theorem foldRun_eq (M : Meaning σ A) {ws : List Stage} {op : FoldOp}
    (h : mutables ws = 0 ∨ op.Quiet) (xs : List (Datum A)) :
    (do
      let f ← stagesRun M ws
      let ys ← xs.mapM f
      op.run M ys) = (do
      let f ← stagesRun M ws
      op.runWith M f xs) := by
  rcases h with hzero | hquiet
  · obtain ⟨run, hrun⟩ := stagesRun_pure M hzero
    rw [hrun]
    simp only [bind_map_left, List.mapM_pure, pure_bind, FoldOp.run, FoldOp.runWith, List.foldlM_map]
  · obtain ⟨i, c, hspec⟩ := hquiet.spec M
    simp only [FoldOp.run, FoldOp.runWith, hspec, pure_bind]
    congr 1
    funext f
    rw [← foldlM_mapM_pureOp, map_bind]

/-- When the rewriting keeps the meaning of the pipelines over a kind of source: the stage
expressions are evaluated once, and their closures with effects are not interleaved. -/
def Sound (head : Head) (ws : List Stage) : Terminal → Prop
  | .map => head = .container ∨ Composable ws ∧ mutables ws ≤ 1
  | .fold (.foldl init combine) =>
      (if head = .container then (∀ w ∈ ws, w.Settled) ∧ combine.Settled else Composable ws) ∧
        (mutables ws = 0 ∨ mutables ws = 1 ∧ (FoldOp.foldl init combine).Quiet)
  | .fold _ => head = .container ∨ Composable ws ∧ mutables ws ≤ 1
  | .length => head = .container ∨ (∀ w ∈ ws, w.Settled) ∧ mutables ws = 0
  | .collect => head = .list ∨ head = .container ∨ Composable ws ∧ mutables ws ≤ 1

theorem refines_containerTrap (M : Meaning σ A) {t : Terminal}
    (h : ∀ ys, t.run M .container ys = (failure : Comp σ (Val σ A)))
    (E : Comp σ (List (Datum A))) (ws : List Stage) (y : Comp σ (Val σ A)) :
    Refines (do
      let xs ← E
      let ys ← mapStages M ws xs
      t.run M .container ys) y := by
  intro st r hrun
  obtain ⟨⟨xs, st₁⟩, -, hrun⟩ := Option.bind_eq_some_iff.1 hrun
  obtain ⟨⟨ys, st₂⟩, -, hrun⟩ := Option.bind_eq_some_iff.1 hrun
  simp only [h] at hrun
  cases hrun

theorem run_eq_fused (M : Meaning σ A) {ws : List Stage} {t : Terminal}
    (hstages : Composable ws) (hone : mutables ws ≤ 1)
    (hfold : ∀ op, t = .fold op → mutables ws = 0 ∨ op.Quiet)
    (hlength : t = .length → (∀ w ∈ ws, w.Settled) ∧ mutables ws = 0) (xs : List (Datum A)) :
    (mapStages M ws xs >>= fun ys => t.run M .list ys) = t.fused M ws xs := by
  have heq := mapStages_eq M hstages hone xs
  cases t with
  | map =>
      rw [heq, bind_assoc]
      rfl
  | collect =>
      rw [heq, bind_assoc]
      rfl
  | length =>
      obtain ⟨hsettled, hzero⟩ := hlength rfl
      obtain ⟨g, hg⟩ := settledFun_pure M hzero
      rw [mapStages_settled M hsettled hone, hg, List.mapM_pure, pure_bind]
      change lengthRun (xs.map g) = lengthRun xs
      rw [lengthRun, List.length_map, lengthRun]
  | fold op =>
      have hrun : ∀ ys : List (Datum A), (Terminal.fold op).run M .list ys = op.run M ys := by
        cases op <;> exact fun _ => rfl
      simp only [hrun]
      rw [heq, bind_assoc]
      exact foldRun_eq M (hfold op rfl) xs

/-- The pipeline does what its rewriting does, where the fused run is a refinement and the
conditions of its equality hold. -/
theorem refines_of_fusable (M : Meaning σ A) (fuel : Nat) (env : Env σ A) (src : Source)
    (p : Pos × Stage) (ps : List (Pos × Stage)) (t : Terminal) (pos : Pos) {new : Expr}
    (hnew : rewritten src (p :: ps) pos t = some new)
    (hfusable : Fusable src.head ((p :: ps).map Prod.snd) t)
    (hcarrier : ∀ ys, t.run M src.carrier ys = t.run M .list ys)
    (hstages : Composable ((p :: ps).map Prod.snd))
    (hone : mutables ((p :: ps).map Prod.snd) ≤ 1)
    (hfold : ∀ op, t = .fold op → mutables ((p :: ps).map Prod.snd) = 0 ∨ op.Quiet)
    (hlength : t = .length → (∀ w ∈ (p :: ps).map Prod.snd, w.Settled) ∧
      mutables ((p :: ps).map Prod.snd) = 0) :
    Refines (eval M fuel env (program src (p :: ps) t)) (eval M fuel env new) := by
  rw [eval_program]
  refine Refines.trans (Refines.of_eq ?_) (refines_fused M fuel env src p ps t pos hnew hfusable)
  congr 1
  funext xs
  simp only [hcarrier]
  exact run_eq_fused M hstages hone hfold hlength xs

theorem refines_rewritten (M : Meaning σ A) (fuel : Nat) (env : Env σ A) (src : Source)
    (p : Pos × Stage) (ps : List (Pos × Stage)) (t : Terminal) (pos : Pos) {new : Expr}
    (hnew : rewritten src (p :: ps) pos t = some new)
    (h : Sound src.head ((p :: ps).map Prod.snd) t) :
    Refines (eval M fuel env (program src (p :: ps) t)) (eval M fuel env new) := by
  have hkeep := refines_of_fusable M fuel env src p ps t pos hnew
  have hlist : src.head ≠ .container → ∀ ys, t.run M src.carrier ys = t.run M .list ys :=
    fun hhead ys => by rw [src.carrier_list hhead]
  by_cases hhead : src.head = .container
  · have hcontainer := src.carrier_container hhead
    cases t with
    | map =>
        rw [rewritten, if_pos hhead] at hnew
        cases hnew
    | length =>
        rw [eval_program, hcontainer]
        exact refines_containerTrap M (fun _ => rfl) _ _ _
    | collect =>
        rw [eval_program, hcontainer]
        exact refines_containerTrap M (fun _ => rfl) _ _ _
    | fold op =>
        cases op with
        | sum =>
            rw [eval_program, hcontainer]
            exact refines_containerTrap M (fun _ => rfl) _ _ _
        | product =>
            rw [eval_program, hcontainer]
            exact refines_containerTrap M (fun _ => rfl) _ _ _
        | foldl init combine =>
            obtain ⟨hsettled, hquiet⟩ := h
            rw [if_pos hhead] at hsettled
            refine hkeep ?_ (fun ys => rfl) (.inr hsettled.1) (by omega) ?_ (fun heq => by cases heq)
            · rw [Fusable, if_pos hhead]
              exact hsettled
            · rintro op heq
              cases heq
              exact hquiet.imp id And.right
  · cases t with
    | map =>
        obtain ⟨hstages, hone⟩ := h.resolve_left hhead
        exact hkeep ⟨hhead, hstages⟩ (hlist hhead) hstages hone (fun op heq => by cases heq)
          fun heq => by cases heq
    | length =>
        obtain ⟨hsettled, hzero⟩ := h.resolve_left hhead
        exact hkeep hhead (hlist hhead) (.inr hsettled) (by omega) (fun op heq => by cases heq)
          fun _ => ⟨hsettled, hzero⟩
    | collect =>
        rcases h with hsource | hcontainer | ⟨hstages, hone⟩
        · rw [rewritten, flatten_source src.plain] at hnew
          cases src with
          | list w => cases hnew
          | _ => cases hsource
        · exact absurd hcontainer hhead
        · exact hkeep ⟨hhead, hstages⟩ (hlist hhead) hstages hone (fun op heq => by cases heq)
            fun heq => by cases heq
    | fold op =>
        cases op with
        | foldl init combine =>
            obtain ⟨hstages, hquiet⟩ := h
            rw [if_neg hhead] at hstages
            refine hkeep ?_ (hlist hhead) hstages (by omega) ?_ (fun heq => by cases heq)
            · rw [Fusable, if_neg hhead]
              exact hstages
            · rintro op heq
              cases heq
              exact hquiet.imp id And.right
        | sum =>
            obtain ⟨hstages, hone⟩ := h.resolve_left hhead
            exact hkeep ⟨hhead, hstages⟩ (hlist hhead) hstages hone
              (fun op heq => by cases heq; exact .inr trivial) fun heq => by cases heq
        | product =>
            obtain ⟨hstages, hone⟩ := h.resolve_left hhead
            exact hkeep ⟨hhead, hstages⟩ (hlist hhead) hstages hone
              (fun op heq => by cases heq; exact .inr trivial) fun heq => by cases heq

end Kaikai.PipeFusion
