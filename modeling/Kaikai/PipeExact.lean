import Kaikai.PipeOrder

namespace Kaikai.PipeFusion

open Kaikai.Word64 (Word)

variable {α β : Type}

/-- A run that returns and moves the counter by `k`. -/
def Counts (x : Comp Nat α) (k : Nat) : Prop := ∀ n, ∃ a, x n = some (a, n + k)

theorem Counts.pure (a : α) : Counts (Pure.pure a) 0 := fun _ => ⟨a, rfl⟩

theorem Counts.bind {x : Comp Nat α} {f : α → Comp Nat β} {j k : Nat} (hx : Counts x j)
    (hf : ∀ a, Counts (f a) k) : Counts (x >>= f) (j + k) := by
  intro n
  obtain ⟨a, ha⟩ := hx n
  obtain ⟨b, hb⟩ := hf a (n + j)
  refine ⟨b, ?_⟩
  rw [← Nat.add_assoc]
  exact Option.bind_eq_some_iff.2 ⟨(a, n + j), ha, hb⟩

theorem Counts.map {x : Comp Nat α} {k : Nat} (hx : Counts x k) (f : α → β) : Counts (f <$> x) k := by
  rw [map_eq_pure_bind]
  exact hx.bind fun a => Counts.pure (f a)

theorem Counts.not_refines {x y : Comp Nat α} {k : Nat} (hx : Counts x k) (hk : 0 < k)
    (hy : Counts y 0) : ¬Refines x y := by
  intro h
  obtain ⟨a, ha⟩ := hx 0
  obtain ⟨b, hb⟩ := hy 0
  have heq := h 0 _ ha
  rw [hb, Option.some.injEq, Prod.mk.injEq] at heq
  omega

def zeroStep : Word := .ofInt 0

/-- A value of each role. -/
def Role.some (σ A : Type) : (r : Role) → r.Value σ A
  | .int => oneStep
  | .datum => .int oneStep
  | .list => []
  | .container => []
  | .stage => id
  | .mutStage => pure
  | .pureCombine => fun acc _ => acc
  | .combine => fun acc _ => pure acc

/-- Whose evaluations are counted. -/
inductive Counted where
  | stages
  | combiner
deriving DecidableEq

def Counted.role : Counted → Role → Bool
  | .stages, .stage => true
  | .stages, .mutStage => true
  | .combiner, .pureCombine => true
  | .combiner, .combine => true
  | _, _ => false

def counting (o : Counted) : Meaning Nat Unit where
  constant r _ _ := r.some Nat Unit
  run r _ := fun n => Option.some (r.some Nat Unit, if o.role r then n + 1 else n)
  add a _ := a
  mul a _ := a
  zero := .int zeroStep
  one := .int oneStep

theorem counts_run (o : Counted) (r : Role) (w : Written) :
    Counts (w.run (counting o) r) (if w.kind = .other ∧ o.role r = true then 1 else 0) := by
  obtain ⟨kind, k⟩ := w
  cases kind with
  | name => exact Counts.pure _
  | lambda => exact Counts.pure _
  | other =>
      intro n
      by_cases hr : o.role r = true <;> simp [Written.run, counting, hr]

theorem counts_stage (o : Counted) (w : Stage) :
    Counts (w.run (counting o)) (if w.kind = .other ∧ o = .stages then 1 else 0) := by
  obtain ⟨kind, k, mutable⟩ := w
  have hrole : ∀ r, o.role r = decide (o = .stages) → Counts ((Written.mk kind k).run (counting o) r)
      (if kind = .other ∧ o = .stages then 1 else 0) := by
    intro r hr
    have hrun := counts_run o r ⟨kind, k⟩
    simp only [hr, decide_eq_true_eq] at hrun
    exact hrun
  cases mutable with
  | true => exact hrole .mutStage (by cases o <;> rfl)
  | false => exact (hrole .stage (by cases o <;> rfl)).map _

theorem counts_combiner (o : Counted) (c : Combiner) :
    Counts (c.run (counting o)) (if c.kind = .other ∧ o = .combiner then 1 else 0) := by
  obtain ⟨kind, k, effects⟩ := c
  have hrole : ∀ r, o.role r = decide (o = .combiner) → Counts ((Written.mk kind k).run (counting o) r)
      (if kind = .other ∧ o = .combiner then 1 else 0) := by
    intro r hr
    have hrun := counts_run o r ⟨kind, k⟩
    simp only [hr, decide_eq_true_eq] at hrun
    exact hrun
  cases effects with
  | true => exact hrole .combine (by cases o <;> rfl)
  | false => exact (hrole .pureCombine (by cases o <;> rfl)).map _

/-- The number of stages that are neither names nor lambdas. -/
def unsettled (ws : List Stage) : Nat := ws.countP fun w => w.kind = .other

theorem unsettled_pos {ws : List Stage} (h : ¬∀ w ∈ ws, w.Settled) : 0 < unsettled ws := by
  rw [unsettled, List.countP_pos_iff]
  by_contra hnone
  refine h fun w hw heq => hnone ⟨w, hw, ?_⟩
  simpa using heq

theorem counts_mapStages (o : Counted) (ws : List Stage) :
    Counts (mapStages (counting o) ws []) (if o = .stages then unsettled ws else 0) := by
  induction ws with
  | nil =>
      have hnil : (if o = .stages then unsettled [] else 0) = 0 := by split <;> rfl
      rw [hnil]
      exact Counts.pure _
  | cons w ws ih =>
      have hcount := (counts_stage o w).bind fun f => (Counts.pure []).bind fun _ : List (Datum Unit) => ih
      have hsum : (if o = .stages then unsettled (w :: ws) else 0) =
          (if w.kind = .other ∧ o = .stages then 1 else 0) +
            (0 + (if o = .stages then unsettled ws else 0)) := by
        by_cases ho : o = .stages
        · by_cases hw : w.kind = .other <;> simp [unsettled, ho, hw]
          omega
        · simp [ho]
      rw [hsum]
      exact hcount

theorem mapStages_nil_bind (M : Meaning Nat Unit) (ws : List Stage)
    (k : List (Datum Unit) → Comp Nat α) :
    mapStages M ws [] >>= k = mapStages M ws [] >>= fun _ => k [] := by
  induction ws with
  | nil => rfl
  | cons w ws ih =>
      simp only [mapStages, List.mapM_nil, pure_bind, bind_assoc]
      rw [ih]

/-- A source without elements. -/
def emptySource : Head → Source
  | .list => .list ⟨.name, 0⟩
  | .container => .container ⟨.name, 0⟩
  | .range => .range [] (.int oneStep) (.int zeroStep)
  | .stepped => .stepped [] (.int oneStep) (.int zeroStep) (.int oneStep)

theorem emptySource_head (h : Head) : (emptySource h).head = h := by cases h <;> rfl

theorem rangeList_empty : rangeList zeroStep oneStep 1 oneStep = some [] := by decide

theorem rangeElems_empty (σ A : Type) : rangeElems 1 (.datum (.int oneStep)) (.datum (.int zeroStep))
    (.datum (.int oneStep)) = (pure [] : Comp σ (List (Datum A))) := by
  rw [rangeElems_int _ _ _ _ oneStep_pos, rangeList_empty]
  rfl

theorem emptySource_elems (o : Counted) (env : Env Nat Unit) (h : Head) :
    (emptySource h).elems (counting o) 1 env = pure [] := by
  cases h with
  | list => rfl
  | container => rfl
  | range =>
      simp only [emptySource, Source.elems, underBlock, rangeRun, Operand.expr, eval, pure_bind]
      exact rangeElems_empty Nat Unit
  | stepped =>
      simp only [emptySource, Source.elems, underBlock, rangeRun, Operand.expr, eval, pure_bind]
      exact rangeElems_empty Nat Unit

theorem counts_program (o : Counted) (env : Env Nat Unit) (h : Head) (stages : List (Pos × Stage))
    (t : Terminal) {k : Nat}
    (ht : Counts (t.run (counting o) (emptySource h).carrier []) k) :
    Counts (eval (counting o) 1 env (program (emptySource h) stages t))
      ((if o = .stages then unsettled (stages.map Prod.snd) else 0) + k) := by
  rw [eval_program, emptySource_elems, pure_bind, mapStages_nil_bind]
  exact (counts_mapStages o _).bind fun _ => ht

theorem counts_spec (o : Counted) (op : FoldOp) :
    Counts (op.spec (counting o))
      (match op with
        | .foldl _ combine => if combine.kind = .other ∧ o = .combiner then 1 else 0
        | _ => 0) := by
  cases op with
  | foldl init combine =>
      have hinit := counts_run o .datum init
      rw [if_neg (by cases o <;> simp [Counted.role])] at hinit
      have hspec := hinit.bind fun i => (counts_combiner o combine).bind fun c => Counts.pure (i, c)
      rw [zero_add, add_zero] at hspec
      exact hspec
  | sum => exact Counts.pure _
  | product => exact Counts.pure _

/-- An expression with a value at once, wherever it stands. -/
def IsValue (M : Meaning Nat Unit) (e : Expr) : Prop := ∀ env, ∃ v, eval M 1 env e = pure v

theorem counts_block {M : Meaning Nat Unit} {body : Expr} {k : Nat}
    (hbody : ∀ env, Counts (eval M 1 env body) k) {binds : List (Local × Expr)}
    (h : ∀ b ∈ binds, IsValue M b.2) : ∀ env, Counts (eval M 1 env (block binds body)) k := by
  induction binds with
  | nil => exact hbody
  | cons b bs ih =>
      intro env
      have hblock : block (b :: bs) body = .letIn b.1 b.2 (block bs body) := rfl
      obtain ⟨v, hv⟩ := h b List.mem_cons_self env
      rw [hblock, eval, hv, pure_bind]
      exact ih (fun b' hb' => h b' (List.mem_cons_of_mem _ hb')) _

theorem hoistLambdas_values {M : Meaning Nat Unit} {es : List Expr}
    (h : ∀ e ∈ es, isLambda e = true → IsValue M e) (pos : Pos) : ∀ i,
      ∀ b ∈ (hoistLambdas es i pos).binds, IsValue M b.2 := by
  induction es with
  | nil => exact fun i b hb => by cases hb
  | cons e es ih =>
      intro i b hb
      have hrest := ih (fun e' he' => h e' (List.mem_cons_of_mem _ he')) (i + 1)
      rw [hoistLambdas] at hb
      by_cases he : isLambda e = true
      · simp only [he, if_true] at hb
        rcases List.mem_cons.1 hb with rfl | hb
        · exact h e List.mem_cons_self he
        · exact hrest b hb
      · simp only [he] at hb
        exact hrest b hb

theorem written_lambda_value (M : Meaning Nat Unit) (w : Written) (r : Role)
    (h : isLambda (w.expr r) = true) : IsValue M (w.expr r) := by
  obtain ⟨kind, k⟩ := w
  cases kind with
  | lambda => exact fun env => ⟨_, by rw [eval_written]; rfl⟩
  | name => cases h
  | other => cases h

theorem stages_values (M : Meaning Nat Unit) (ws : List Stage) :
    ∀ e ∈ ws.map Stage.expr, isLambda e = true → IsValue M e := by
  intro e he hlambda
  obtain ⟨w, -, rfl⟩ := List.mem_map.1 he
  exact written_lambda_value M ⟨w.kind, w.k⟩ _ hlambda

theorem composed_value (M : Meaning Nat Unit) {ws : List Stage} (h : ws.length ≠ 1) (pos : Pos)
    (env : Env Nat Unit) : ∃ f,
      eval M 1 env (bindStages (ws.map Stage.expr) pos).stage = pure (.fn1 f) := by
  rw [bindStages_composed pos h, composeStages, eval]
  exact ⟨_, rfl⟩

theorem bindStages_values (M : Meaning Nat Unit) (ws : List Stage) (pos : Pos) :
    ∀ b ∈ (bindStages (ws.map Stage.expr) pos).binds, IsValue M b.2 := by
  by_cases hone : ws.length = 1
  · obtain ⟨w, rfl⟩ := List.length_eq_one_iff.1 hone
    exact fun b hb => by cases hb
  · rw [bindStages_composed pos hone]
    exact hoistLambdas_values (stages_values M ws) pos 0

theorem eval_composition (M : Meaning Nat Unit) (env : Env Nat Unit) (e : Expr)
    {ps : List (Pos × Stage)} (h : ps ≠ []) : ∃ f, eval M 1 env
      (ps.foldl (fun f p => compose f p.2.expr p.1) e) = pure (.fn1 f) := by
  obtain ⟨front, last, rfl⟩ := (List.eq_nil_or_concat ps).resolve_left h
  rw [List.concat_eq_append, List.foldl_append, List.foldl_cons, List.foldl_nil, compose, eval]
  exact ⟨_, rfl⟩

theorem counts_map (o : Counted) (env : Env Nat Unit) {h : Head} (hhead : h ≠ .container)
    (p : Pos × Stage) {ps : List (Pos × Stage)} (hps : ps ≠ []) :
    Counts (eval (counting o) 1 env (lowerMapPipes (chain (emptySource h).expr (p :: ps)))) 0 := by
  have hsrc := eval_source (counting o) 1 env (emptySource h)
  rw [emptySource_elems, (emptySource h).carrier_list (by rwa [emptySource_head]), map_pure] at hsrc
  have hfirst : lowerMapPipes (.mapPipe p.1 (emptySource h).expr p.2.expr) =
      .call (.core .pipeMap) [(emptySource h).expr, p.2.expr] := by
    rw [lowerMapPipes, Source.lowerMapPipes, tryFuseMapPipe, Source.asMapCall]
  obtain ⟨f, hf⟩ := eval_composition (counting o) env p.2.expr hps
  have hchain : chain (emptySource h).expr (p :: ps) =
      chain (.mapPipe p.1 (emptySource h).expr p.2.expr) ps := rfl
  rw [hchain, lowerMapPipes_chain ps hfirst, eval, eval, pure_bind, evalList, evalList, evalList,
    hsrc, hf]
  exact Counts.pure _

theorem counts_foldCall (op : FoldOp) (env : Env Nat Unit) {cf : CoreFn} (hd : List Expr)
    (vs : List (Val Nat Unit)) {stage : Expr} {f : Datum Unit → Comp Nat (Datum Unit)}
    {M : Meaning Nat Unit}
    (hhd : ∀ es, evalList M 1 env (hd ++ es) = (fun ws => vs ++ ws) <$> evalList M 1 env es)
    (hstage : eval M 1 env stage = pure (.fn1 f)) (hspec : Counts (op.spec M) 0)
    (hcall : (op.spec M >>= fun p => callCore M 1 cf (vs ++ .fn1 f :: op.vals p)) =
      op.spec M >>= fun p => pure (.datum p.1)) :
    Counts (eval M 1 env (foldCall cf (hd ++ stage :: op.extra))) 0 := by
  rw [foldCall, eval, eval, pure_bind, hhd, evalList, hstage, FoldOp.evalList_extra]
  simp only [bind_map_left, pure_bind, bind_assoc, applyVal]
  rw [hcall]
  exact hspec.bind fun p => Counts.pure _

theorem counts_stageFold (op : FoldOp) {o : Counted} (hspec : Counts (op.spec (counting o)) 0)
    {h : Head} (hhead : h ≠ .container) {ws : List Stage} (hws : ws.length ≠ 1) (pos : Pos)
    (env : Env Nat Unit) :
    Counts (eval (counting o) 1 env (foldRewriteOver
      ⟨(emptySource h).expr, ws.map Stage.expr, op.term⟩ pos)) 0 := by
  have hblock : ∀ call, (∀ env, Counts (eval (counting o) 1 env call) 0) →
      Counts (eval (counting o) 1 env
        (block (bindStages (ws.map Stage.expr) pos).binds call)) 0 :=
    fun call hcall => counts_block hcall (bindStages_values _ ws pos) env
  rw [foldRewriteOver_term]
  cases h with
  | container => exact absurd rfl hhead
  | list =>
      refine hblock _ fun env' => ?_
      obtain ⟨f, hf⟩ := composed_value (counting o) hws pos env'
      refine counts_foldCall op env' [(Written.mk .name 0).expr .list] [.list []] ?_ hf hspec ?_
      · intro es
        simp only [List.singleton_append, evalList, eval_written]
        rfl
      · exact callCore_fold (counting o) 1 op [] f
  | range =>
      refine hblock _ fun env' => ?_
      obtain ⟨f, hf⟩ := composed_value (counting o) hws pos env'
      refine counts_foldCall op env' [.int oneStep, .int zeroStep]
        [.datum (.int oneStep), .datum (.int zeroStep)] ?_ hf hspec ?_
      · intro es
        simp only [List.cons_append, List.nil_append, evalList, eval, pure_bind]
        simp
      · exact callCore_rangeFold (counting o) 1 op oneStep zeroStep f
  | stepped =>
      refine hblock _ fun env' => ?_
      obtain ⟨f, hf⟩ := composed_value (counting o) hws pos env'
      refine counts_foldCall op env' [.int oneStep, .int zeroStep, .int oneStep]
        [.datum (.int oneStep), .datum (.int zeroStep), .datum (.int oneStep)] ?_ hf hspec ?_
      · intro es
        simp only [List.cons_append, List.nil_append, evalList, eval, pure_bind]
        simp
      · exact callCore_stepFold (counting o) 1 op oneStep zeroStep oneStep f

theorem counts_length (o : Counted) {h : Head} (hhead : h ≠ .container) (stages : List Expr)
    (pos : Pos) (env : Env Nat Unit) :
    Counts (eval (counting o) 1 env
      (foldRewriteOver ⟨(emptySource h).expr, stages, .length⟩ pos)) 0 := by
  cases h with
  | container => exact absurd rfl hhead
  | list =>
      have hcall : foldRewriteOver ⟨(emptySource .list).expr, stages, .length⟩ pos =
          foldCall .length [(Written.mk .name 0).expr .list] := rfl
      rw [hcall, foldCall, eval, eval, pure_bind, evalList, evalList, eval_written]
      exact Counts.pure _
  | range =>
      have hcall : foldRewriteOver ⟨(emptySource .range).expr, stages, .length⟩ pos =
          foldCall .rangeLength [.int oneStep, .int zeroStep] := rfl
      rw [hcall, foldCall]
      simp only [eval, evalList, pure_bind]
      exact Counts.pure _
  | stepped =>
      have hcall : foldRewriteOver ⟨(emptySource .stepped).expr, stages, .length⟩ pos =
          foldCall .rangeStepLength [.int oneStep, .int zeroStep, .int oneStep] := rfl
      rw [hcall, foldCall]
      simp only [eval, evalList, pure_bind]
      exact Counts.pure _

theorem counts_collect (o : Counted) {h : Head} (hlist : h ≠ .list) (hhead : h ≠ .container)
    {ws : List Stage} (hws : ws.length ≠ 1) (pos : Pos) (env : Env Nat Unit) :
    ∃ new, collectRewrite (emptySource h).expr (ws.map Stage.expr) pos = some new ∧
      Counts (eval (counting o) 1 env new) 0 := by
  have hblock : ∀ call, (∀ env, Counts (eval (counting o) 1 env call) 0) →
      Counts (eval (counting o) 1 env
        (block (bindStages (ws.map Stage.expr) pos).binds call)) 0 :=
    fun call hcall => counts_block hcall (bindStages_values _ ws pos) env
  cases h with
  | list => exact absurd rfl hlist
  | container => exact absurd rfl hhead
  | range =>
      have hcall : collectCall .rangeMapCollectVec [.int oneStep, .int zeroStep]
          (ws.map Stage.expr) pos =
            block (bindStages (ws.map Stage.expr) pos).binds
              (foldCall .rangeMapCollectVec [.int oneStep, .int zeroStep,
                (bindStages (ws.map Stage.expr) pos).stage]) := rfl
      refine ⟨_, rfl, ?_⟩
      rw [Operand.expr, Operand.expr, hcall]
      refine hblock _ fun env' => ?_
      obtain ⟨f, hf⟩ := composed_value (counting o) hws pos env'
      rw [foldCall]
      simp only [eval, evalList, hf, pure_bind]
      exact Counts.pure _
  | stepped =>
      have hcall : collectCall .rangeStepMapCollectVec [.int oneStep, .int zeroStep, .int oneStep]
          (ws.map Stage.expr) pos =
            block (bindStages (ws.map Stage.expr) pos).binds
              (foldCall .rangeStepMapCollectVec [.int oneStep, .int zeroStep, .int oneStep,
                (bindStages (ws.map Stage.expr) pos).stage]) := rfl
      refine ⟨_, rfl, ?_⟩
      rw [Operand.expr, Operand.expr, hcall]
      refine hblock _ fun env' => ?_
      obtain ⟨f, hf⟩ := composed_value (counting o) hws pos env'
      rw [foldCall]
      simp only [eval, evalList, hf, pure_bind]
      exact Counts.pure _

theorem counts_containerFold (o : Counted) (init : Written) (combine : Combiner)
    (ws : List Stage) (pos : Pos) (env : Env Nat Unit) :
    Counts (eval (counting o) 1 env (genericFoldRewrite
      ⟨(emptySource .container).expr, ws.map Stage.expr,
        .foldl (init.expr .datum) combine.expr⟩ pos)) 0 := by
  rw [genericFoldRewrite]
  refine counts_block (fun env' => ?_) ?_ env
  · have hcomb : ∀ s c, ∃ f, eval (counting o) 1 env' (composeCombiner s c pos) =
        pure (.fn2 f) := by
      intro s c
      rw [composeCombiner, eval]
      exact ⟨_, rfl⟩
    obtain ⟨f, hf⟩ := hcomb (refsHead (hoistLambdas
        [(bindStages (ws.map Stage.expr) pos).stage, combine.expr] 0 pos).refs)
      (refsSecond (hoistLambdas
        [(bindStages (ws.map Stage.expr) pos).stage, combine.expr] 0 pos).refs)
    have hinit := counts_run o .datum init
    rw [if_neg (by cases o <;> simp [Counted.role])] at hinit
    rw [foldCall, eval, eval, pure_bind, evalList, evalList, evalList, evalList, hf, eval_written]
    simp only [emptySource, Source.expr, eval_written, bind_map_left, bind_assoc, pure_bind]
    exact hinit.bind fun i => Counts.pure _
  · intro b hb
    rcases List.mem_append.1 hb with hb | hb
    · exact bindStages_values _ ws pos b hb
    · refine hoistLambdas_values ?_ pos 0 b hb
      intro e he hlambda
      rcases List.mem_cons.1 he with rfl | he
      · by_cases hone : ws.length = 1
        · obtain ⟨w, rfl⟩ := List.length_eq_one_iff.1 hone
          exact written_lambda_value _ ⟨w.kind, w.k⟩ _ hlambda
        · intro env'
          obtain ⟨f, hf⟩ := composed_value (counting o) hone pos env'
          exact ⟨_, hf⟩
      · rw [List.mem_singleton.1 he] at hlambda ⊢
        exact written_lambda_value _ ⟨combine.kind, combine.k⟩ _ hlambda

/-- Over a kind of source, every rewritten pipeline returns what the pipeline returns, with
the same effects. -/
def Preserves (h : Head) (stages : List (Pos × Stage)) (t : Terminal) : Prop :=
  ∀ src : Source, src.head = h → ∀ pos new, rewritten src stages pos t = some new →
    ∀ (σ A : Type) (M : Meaning σ A) (fuel : Nat) (env : Env σ A),
      Refines (eval M fuel env (program src stages t)) (eval M fuel env new)

theorem Preserves.counts {h : Head} {stages : List (Pos × Stage)} {t : Terminal}
    (hpres : Preserves h stages t) (o : Counted) {new : Expr}
    (hnew : rewritten (emptySource h) stages (0, 0) t = some new)
    (hcount : Counts (eval (counting o) 1 (fun _ => none) new) 0) {k : Nat}
    (ht : Counts (t.run (counting o) (emptySource h).carrier []) k) :
    (if o = .stages then unsettled (stages.map Prod.snd) else 0) + k = 0 := by
  by_contra hpos
  exact (counts_program o (fun _ => none) h stages t ht).not_refines (by omega) hcount
    (hpres _ (emptySource_head h) _ _ hnew _ _ _ _ _)

theorem counts_foldRun (o : Counted) (op : FoldOp) {k : Nat} (h : Counts (op.spec (counting o)) k) :
    Counts (op.run (counting o) []) k :=
  h.bind fun _ => Counts.pure _

theorem counts_spec_stage (op : FoldOp) : Counts (op.spec (counting .stages)) 0 := by
  have h := counts_spec .stages op
  cases op with
  | foldl init combine => simpa using h
  | sum => exact h
  | product => exact h

theorem not_composable {p : Pos × Stage} {ps : List (Pos × Stage)}
    (h : ¬Composable ((p :: ps).map Prod.snd)) :
    ((p :: ps).map Prod.snd).length ≠ 1 ∧ 0 < unsettled ((p :: ps).map Prod.snd) ∧ ps ≠ [] := by
  rw [Composable, not_or] at h
  refine ⟨h.1, unsettled_pos h.2, ?_⟩
  rintro rfl
  exact h.1 rfl

theorem Preserves.apart {h : Head} {p : Pos × Stage} {ps : List (Pos × Stage)} {t : Terminal}
    (hpres : Preserves h (p :: ps) t) (hfusable : Fusable h ((p :: ps).map Prod.snd) t)
    {new : Expr} (hnew : rewritten (pairSource h) (p :: ps) (0, 0) t = some new)
    (hreturns : ∀ ys, Returns (t.run logging (pairSource h).carrier ys))
    (hpos : 0 < mutables ((p :: ps).map Prod.snd)) :
    t ≠ .length ∧ mutables ((p :: ps).map Prod.snd) ≤ 1 ∧ t.before = [] ∧ t.after = [] :=
  apart_of_refines hnew hfusable hreturns
    (hpres _ (pairSource_head h) _ _ hnew _ _ logging 3 fun _ => none) hpos

theorem Preserves.map_sound {h : Head} {p : Pos × Stage} {ps : List (Pos × Stage)}
    (hpres : Preserves h (p :: ps) .map) : Sound h ((p :: ps).map Prod.snd) .map := by
  refine or_iff_not_imp_left.2 fun hhead => ?_
  have hstages : Composable ((p :: ps).map Prod.snd) := by
    by_contra hstages
    obtain ⟨-, hpos, hps⟩ := not_composable hstages
    have hnew : rewritten (emptySource h) (p :: ps) (0, 0) .map =
        some (lowerMapPipes (chain (emptySource h).expr (p :: ps))) := by
      rw [rewritten, emptySource_head, if_neg hhead]
    have hzero := hpres.counts .stages hnew (counts_map _ _ hhead p hps) (k := 0) (Counts.pure _)
    simp only [if_true] at hzero
    omega
  refine ⟨hstages, ?_⟩
  by_contra hmutables
  have hnew : rewritten (pairSource h) (p :: ps) (0, 0) .map =
      some (lowerMapPipes (chain (pairSource h).expr (p :: ps))) := by
    rw [rewritten, pairSource_head, if_neg hhead]
  exact hmutables (hpres.apart ⟨hhead, hstages⟩ hnew (fun ys => ⟨_, _, Logs.pure _⟩) (by omega)).2.1

theorem Preserves.length_sound {h : Head} {p : Pos × Stage} {ps : List (Pos × Stage)}
    (hpres : Preserves h (p :: ps) .length) : Sound h ((p :: ps).map Prod.snd) .length := by
  refine or_iff_not_imp_left.2 fun hhead => ?_
  constructor
  · by_contra hstages
    have hpos := unsettled_pos hstages
    have hnew : rewritten (emptySource h) (p :: ps) (0, 0) .length =
        some (foldRewriteOver ⟨(emptySource h).expr, stageExprs (p :: ps), .length⟩ (0, 0)) := by
      rw [rewritten, rewriteFold_chain _ p ps _ .length rfl, emptySource_head,
        decide_eq_false hhead]
      cases h <;> rfl
    have hlist := (emptySource h).carrier_list (by rwa [emptySource_head])
    have hzero := hpres.counts .stages hnew (counts_length _ hhead _ _ _) (k := 0)
      (by rw [hlist]; exact Counts.pure _)
    simp only [if_true] at hzero
    omega
  · by_contra hmutables
    have hnew : rewritten (pairSource h) (p :: ps) (0, 0) .length =
        some (foldRewrite ⟨(pairSource h).expr, stageExprs (p :: ps), .length⟩ (0, 0)) := by
      rw [rewritten, rewriteFold_chain _ p ps _ .length rfl, pairSource_head,
        decide_eq_false hhead]
      rfl
    have hlist := (pairSource h).carrier_list (by rwa [pairSource_head])
    exact (hpres.apart hhead hnew (fun ys => by rw [hlist]; exact ⟨_, _, Logs.pure _⟩)
      (by omega)).1 rfl

theorem Preserves.collect_sound {h : Head} {p : Pos × Stage} {ps : List (Pos × Stage)}
    (hpres : Preserves h (p :: ps) .collect) : Sound h ((p :: ps).map Prod.snd) .collect := by
  refine or_iff_not_imp_left.2 fun hlist => or_iff_not_imp_left.2 fun hhead => ?_
  have hstages : Composable ((p :: ps).map Prod.snd) := by
    by_contra hstages
    obtain ⟨hone, hpos, -⟩ := not_composable hstages
    obtain ⟨new, hnew, hcount⟩ := counts_collect .stages hlist hhead hone (0, 0) fun _ => none
    have hrewritten : rewritten (emptySource h) (p :: ps) (0, 0) .collect = some new := by
      rw [rewritten, flatten_source (emptySource h).plain]
      exact hnew
    have hcarrier := (emptySource h).carrier_list (by rwa [emptySource_head])
    have hzero := hpres.counts .stages hrewritten hcount (k := 0)
      (by rw [hcarrier]; exact Counts.pure _)
    simp only [if_true] at hzero
    omega
  refine ⟨hstages, ?_⟩
  by_contra hmutables
  have hnew : ∃ new, rewritten (pairSource h) (p :: ps) (0, 0) .collect = some new := by
    rw [rewritten, flatten_source (pairSource h).plain]
    cases h with
    | list => exact absurd rfl hlist
    | container => exact absurd rfl hhead
    | range => exact ⟨_, rfl⟩
    | stepped => exact ⟨_, rfl⟩
  obtain ⟨new, hnew⟩ := hnew
  have hcarrier := (pairSource h).carrier_list (by rwa [pairSource_head])
  exact hmutables (hpres.apart ⟨hhead, hstages⟩ hnew
    (fun ys => by rw [hcarrier]; exact ⟨_, _, Logs.pure _⟩) (by omega)).2.1

theorem Preserves.fold_composable {h : Head} (hhead : h ≠ .container) {p : Pos × Stage}
    {ps : List (Pos × Stage)} {op : FoldOp} (hpres : Preserves h (p :: ps) (.fold op)) :
    Composable ((p :: ps).map Prod.snd) := by
  by_contra hstages
  obtain ⟨hone, hpos, -⟩ := not_composable hstages
  have hnew : rewritten (emptySource h) (p :: ps) (0, 0) (.fold op) =
      some (foldRewriteOver ⟨(emptySource h).expr, stageExprs (p :: ps), op.term⟩ (0, 0)) := by
    rw [rewritten, rewriteFold_chain _ p ps _ _ (op.asTerminal_rhs _), emptySource_head,
      decide_eq_false hhead]
    cases h <;> rfl
  have hlist := (emptySource h).carrier_list (by rwa [emptySource_head])
  have hrun : (Terminal.fold op).run (counting .stages) .list [] =
      op.run (counting .stages) [] := by
    cases op <;> rfl
  have hspec := counts_spec_stage op
  have hzero := hpres.counts .stages hnew (counts_stageFold op hspec hhead hone _ _) (k := 0)
    (by rw [hlist, hrun]; exact counts_foldRun _ op hspec)
  simp only [if_true] at hzero
  omega

theorem Preserves.container_settled {p : Pos × Stage} {ps : List (Pos × Stage)}
    {init : Written} {combine : Combiner}
    (hpres : Preserves .container (p :: ps) (.fold (.foldl init combine))) :
    (∀ w ∈ (p :: ps).map Prod.snd, w.Settled) ∧ combine.Settled := by
  have hnew : rewritten (emptySource .container) (p :: ps) (0, 0) (.fold (.foldl init combine)) =
      some (genericFoldRewrite ⟨(emptySource .container).expr, stageExprs (p :: ps),
        .foldl (init.expr .datum) combine.expr⟩ (0, 0)) := by
    rw [rewritten, rewriteFold_chain _ p ps _ _ (FoldOp.asTerminal_rhs _ _)]
    rfl
  constructor
  · by_contra hstages
    have hpos := unsettled_pos hstages
    have hspec := counts_spec_stage (.foldl init combine)
    have hzero := hpres.counts .stages hnew (counts_containerFold _ init combine _ _ _)
      (k := 0) (counts_foldRun _ _ hspec)
    simp only [if_true] at hzero
    omega
  · intro hother
    have hspec := counts_spec .combiner (.foldl init combine)
    have hzero := hpres.counts .combiner hnew (counts_containerFold _ init combine _ _ _)
      (counts_foldRun _ _ hspec)
    simp [hother] at hzero

theorem FoldOp.quiet_of_marks {op : FoldOp} (hbefore : op.before = []) (hafter : op.after = []) :
    op.Quiet := by
  cases op with
  | foldl init combine =>
      obtain ⟨hinit, hcombine⟩ := List.append_eq_nil_iff.1 hbefore
      refine ⟨(marks_eq_nil_iff _).1 hinit, (marks_eq_nil_iff _).1 hcombine, ?_⟩
      obtain ⟨kind, k, effects⟩ := combine
      cases effects with
      | true => cases hafter
      | false => rfl
  | _ => trivial

theorem Preserves.fold_apart {h : Head} {p : Pos × Stage} {ps : List (Pos × Stage)} {op : FoldOp}
    (hpres : Preserves h (p :: ps) (.fold op))
    (hfusable : Fusable h ((p :: ps).map Prod.snd) (.fold op))
    (hrun : ∀ ys, (Terminal.fold op).run logging (pairSource h).carrier ys = op.run logging ys) :
    mutables ((p :: ps).map Prod.snd) = 0 ∨
      mutables ((p :: ps).map Prod.snd) = 1 ∧ op.Quiet := by
  refine or_iff_not_imp_left.2 fun hpos => ?_
  have hnew := rewriteFold_chain (pairSource h) p ps (decide ((pairSource h).head = .container))
    op.term (op.asTerminal_rhs (decide ((pairSource h).head = .container))) (0, 0)
  obtain ⟨-, hone, hbefore, hafter⟩ := hpres.apart hfusable hnew
    (fun ys => by rw [hrun]; exact op.returns_run ys) (by omega)
  exact ⟨by omega, FoldOp.quiet_of_marks hbefore hafter⟩

theorem not_preserves_mutable :
    ¬Preserves .list [((1, 4), ⟨.lambda, 0, true⟩), ((1, 40), ⟨.lambda, 1, true⟩)] .map := by
  intro hpres
  obtain ⟨-, hone⟩ := hpres.map_sound.resolve_left (by decide)
  exact absurd hone (by decide)

end Kaikai.PipeFusion
