import Kaikai.PipeEval

namespace Kaikai.PipeFusion

open Kaikai.Word64 (Word)

variable {σ A : Type} {α β : Type}

/-- Whatever `x` returns, in whatever state it leaves, `y` returns too. -/
def Refines (x y : Comp σ α) : Prop := ∀ st r, x st = some r → y st = some r

theorem Refines.refl (x : Comp σ α) : Refines x x := fun _ _ h => h

theorem Refines.of_eq {x y : Comp σ α} (h : x = y) : Refines x y := h ▸ Refines.refl x

theorem Refines.trans {x y z : Comp σ α} (hxy : Refines x y) (hyz : Refines y z) : Refines x z :=
  fun st r h => hyz st r (hxy st r h)

theorem Refines.bind {x y : Comp σ α} {f g : α → Comp σ β} (hxy : Refines x y)
    (hfg : ∀ a, Refines (f a) (g a)) : Refines (x >>= f) (y >>= g) := by
  intro st r h
  obtain ⟨⟨a, st'⟩, hx, hf⟩ := Option.bind_eq_some_iff.1 h
  exact Option.bind_eq_some_iff.2 ⟨(a, st'), hxy st _ hx, hfg a st' r hf⟩

theorem Refines.failure (y : Comp σ α) : Refines failure y := fun _ _ h => by cases h

@[simp] theorem lift_some (a : α) : (StateT.lift (some a) : Comp σ α) = pure a := rfl

/-- An expression of the program. -/
structure Written where
  kind : Kind
  k : Nat

def Written.expr (w : Written) (r : Role) : Expr := .written r w.kind w.k

/-- A name or a lambda: its evaluation has no effect and always gives the same value. -/
def Written.Settled (w : Written) : Prop := w.kind ≠ .other

def Written.run (M : Meaning σ A) (w : Written) (r : Role) : Comp σ (r.Value σ A) :=
  match w.kind with
  | .other => M.run r w.k
  | kind => pure (M.constant r kind w.k)

theorem eval_written (M : Meaning σ A) (fuel : Nat) (env : Env σ A) (w : Written) (r : Role) :
    eval M fuel env (w.expr r) = r.val <$> w.run M r := by
  obtain ⟨kind, k⟩ := w
  cases kind <;> simp [Written.expr, Written.run, eval]

theorem Written.Settled.run {w : Written} (h : w.Settled) (M : Meaning σ A) (r : Role) :
    w.run M r = pure (M.constant r w.kind w.k) := by
  obtain ⟨kind, k⟩ := w
  cases kind with
  | name => rfl
  | lambda => rfl
  | other => exact absurd rfl h

/-- A stage that the purity gate admits; the row of its type may keep `Mutable`. -/
structure Stage where
  kind : Kind
  k : Nat
  mutable : Bool

namespace Stage

variable (M : Meaning σ A) (w : Stage)

def expr : Expr := .written (if w.mutable then .mutStage else .stage) w.kind w.k

def Settled : Prop := w.kind ≠ .other

def run : Comp σ (Datum A → Comp σ (Datum A)) :=
  if w.mutable then (Written.mk w.kind w.k).run M .mutStage
  else (fun f d => pure (f d)) <$> (Written.mk w.kind w.k).run M .stage

/-- The closure of a name or a lambda. -/
def value : Datum A → Comp σ (Datum A) :=
  if w.mutable then M.constant .mutStage w.kind w.k
  else fun d => pure (M.constant .stage w.kind w.k d)

end Stage

theorem eval_stage (M : Meaning σ A) (fuel : Nat) (env : Env σ A) (w : Stage) :
    eval M fuel env w.expr = .fn1 <$> w.run M := by
  obtain ⟨kind, k, mutable⟩ := w
  have hwritten : ∀ r, eval M fuel env (.written r kind k) = r.val <$> (Written.mk kind k).run M r :=
    fun r => eval_written M fuel env ⟨kind, k⟩ r
  cases mutable with
  | true => exact hwritten .mutStage
  | false =>
      refine (hwritten .stage).trans ?_
      simp only [Stage.run, Bool.false_eq_true, if_false, Functor.map_map]
      rfl

theorem Stage.Settled.run {w : Stage} (h : w.Settled) (M : Meaning σ A) :
    w.run M = pure (w.value M) := by
  obtain ⟨kind, k, mutable⟩ := w
  have hwritten : ∀ r, (Written.mk kind k).run M r = pure (M.constant r kind k) :=
    fun r => Written.Settled.run (w := ⟨kind, k⟩) h M r
  cases mutable with
  | true => exact hwritten .mutStage
  | false =>
      simp only [Stage.run, Stage.value, Bool.false_eq_true, if_false, hwritten, map_pure]

/-- A chain of map pipes. -/
def chain (src : Expr) (stages : List (Pos × Stage)) : Expr :=
  stages.foldl (fun e p => .mapPipe p.1 e p.2.expr) src

/-- Stage after stage, each evaluated ahead of its own traversal. -/
def mapStages (M : Meaning σ A) : List Stage → List (Datum A) → Comp σ (List (Datum A))
  | [], xs => pure xs
  | w :: ws, xs => do
      let f ← w.run M
      let ys ← xs.mapM f
      mapStages M ws ys

/-- The stage expressions evaluated once each, and the closure that calls theirs in turn. -/
def stagesRun (M : Meaning σ A) : List Stage → Comp σ (Datum A → Comp σ (Datum A))
  | [] => pure pure
  | w :: ws => do
      let f ← w.run M
      let g ← stagesRun M ws
      pure fun d => f d >>= g

/-- What makes the value of a traversable source: its elements stay in place. -/
inductive Carrier where
  | list
  | container

def Carrier.val : Carrier → List (Datum A) → Val σ A
  | .list => .list
  | .container => .container

theorem mapVal_carrier (c : Carrier) (xs : List (Datum A)) (f : Datum A → Comp σ (Datum A)) :
    mapVal (c.val xs) (.fn1 f) = c.val <$> xs.mapM f := by
  cases c <;> rfl

theorem eval_chain (M : Meaning σ A) (fuel : Nat) (env : Env σ A) (c : Carrier) {src : Expr}
    {elems : Comp σ (List (Datum A))} (stages : List (Pos × Stage))
    (hsrc : eval M fuel env src = c.val <$> elems) :
    eval M fuel env (chain src stages) =
      c.val <$> (elems >>= mapStages M (stages.map Prod.snd)) := by
  induction stages generalizing src elems with
  | nil => simp [chain, mapStages, hsrc]
  | cons p ps ih =>
      have hfirst : eval M fuel env (.mapPipe p.1 src p.2.expr) = c.val <$> (do
          let xs ← elems
          let f ← p.2.run M
          xs.mapM f) := by
        simp [eval, hsrc, eval_stage, mapVal_carrier]
      rw [chain, List.foldl_cons, ← chain, ih hfirst]
      simp [mapStages]

/-- The closure that settled stages compose to. -/
def settledFun (M : Meaning σ A) : List Stage → Datum A → Comp σ (Datum A)
  | [] => pure
  | w :: ws => fun d => w.value M d >>= settledFun M ws

theorem stagesRun_settled (M : Meaning σ A) {ws : List Stage} (h : ∀ w ∈ ws, w.Settled) :
    stagesRun M ws = pure (settledFun M ws) := by
  induction ws with
  | nil => rfl
  | cons w ws ih =>
      rw [stagesRun, (h w List.mem_cons_self).run,
        ih fun w' hw' => h w' (List.mem_cons_of_mem _ hw')]
      rfl

/-- Environments that differ in names of one stem only. -/
def AgreeOff (stem : Stem) (env env' : Env σ A) : Prop :=
  ∀ l, (∀ pos i, l ≠ .minted stem pos i) → env' l = env l

theorem AgreeOff.refl (stem : Stem) (env : Env σ A) : AgreeOff stem env env := fun _ _ => rfl

theorem AgreeOff.update (stem : Stem) (env : Env σ A) (pos : Pos) (i : Nat) (v : Option (Val σ A)) :
    AgreeOff stem env (Function.update env (.minted stem pos i) v) :=
  fun _ hl => Function.update_of_ne (hl pos i) _ _

theorem AgreeOff.trans {stem : Stem} {env env' env'' : Env σ A} (h : AgreeOff stem env env')
    (h' : AgreeOff stem env' env'') : AgreeOff stem env env'' :=
  fun l hl => (h' l hl).trans (h l hl)

/-- Hoisting the inline lambdas of a chain: their bindings have no effect, and every
reference stands for its stage. -/
theorem hoistLambdas_eval (M : Meaning σ A) (fuel : Nat) (pos : Pos) (ws : List Stage) :
    ∀ (i : Nat) (env : Env σ A), ∃ env' : Env σ A, AgreeOff .fusev env env' ∧
      (∀ j < i, env' (.minted .fusev pos j) = env (.minted .fusev pos j)) ∧
      (∀ body, eval M fuel env
        (block (hoistLambdas (ws.map Stage.expr) i pos).binds body) =
          eval M fuel env' body) ∧
      ∀ env'' : Env σ A, (∀ j, env'' (.minted .fusev pos j) = env' (.minted .fusev pos j)) →
        List.Forall₂ (fun ref w => eval M fuel env'' ref = .fn1 <$> w.run M)
          (hoistLambdas (ws.map Stage.expr) i pos).refs ws := by
  induction ws with
  | nil =>
      intro i env
      exact ⟨env, AgreeOff.refl _ _, fun _ _ => rfl, fun _ => rfl, fun _ _ => .nil⟩
  | cons w ws ih =>
      intro i env
      by_cases hlambda : isLambda w.expr = true
      · have hsettled : w.Settled := by
          obtain ⟨kind, k, mutable⟩ := w
          cases kind <;> simp [Stage.expr, isLambda, Stage.Settled] at hlambda ⊢
        have hvalue : ∀ env : Env σ A, eval M fuel env w.expr =
            pure (.fn1 (w.value M)) := by
          intro env
          rw [eval_stage, hsettled.run, map_pure]
        obtain ⟨env', hagree, hlow, hblock, hrefs⟩ := ih (i + 1)
          (Function.update env (.minted .fusev pos i)
            (some (.fn1 (w.value M))))
        refine ⟨env', (AgreeOff.update _ _ _ _ _).trans hagree, ?_, ?_, ?_⟩
        · intro j hj
          rw [hlow j (by omega), Function.update_of_ne]
          intro heq
          injection heq
          omega
        · intro body
          simp only [List.map_cons, hoistLambdas, hlambda, if_true, block, List.foldr_cons]
          rw [eval, hvalue, pure_bind]
          exact hblock body
        · intro env'' hsame
          simp only [List.map_cons, hoistLambdas, hlambda, if_true]
          refine .cons ?_ (hrefs env'' hsame)
          rw [eval, hsame, hlow i (by omega), Function.update_self, lift_some, hsettled.run,
            map_pure]
      · obtain ⟨env', hagree, hlow, hblock, hrefs⟩ := ih (i + 1) env
        refine ⟨env', hagree, fun j hj => hlow j (by omega), ?_, ?_⟩
        · intro body
          simp only [List.map_cons, hoistLambdas, hlambda]
          exact hblock body
        · intro env'' hsame
          simp only [List.map_cons, hoistLambdas, hlambda]
          exact .cons (eval_stage M fuel env'' w) (hrefs env'' hsame)

theorem eval_applyStages (M : Meaning σ A) (fuel : Nat) (env : Env σ A) {refs : List Expr}
    {ws : List Stage} (hrefs : List.Forall₂ (fun ref (w : Stage) =>
      eval M fuel env ref = .fn1 <$> w.run M) refs ws)
    (h : ∀ w ∈ ws, w.Settled) :
    ∀ {acc : Expr} {m : Comp σ (Datum A)}, eval M fuel env acc = .datum <$> m →
      eval M fuel env (applyStages refs acc) = .datum <$> (m >>= settledFun M ws) := by
  induction hrefs with
  | nil =>
      intro acc m hacc
      rw [applyStages, hacc, settledFun, bind_pure]
  | @cons ref w refs ws href hrest ih =>
      intro acc m hacc
      have hcall : eval M fuel env (apply ref [acc]) = .datum <$> (m >>= w.value M) := by
        rw [apply, eval, href, (h w List.mem_cons_self).run]
        simp [evalList, hacc, applyVal]
      rw [applyStages, ih (fun w' hw' => h w' (List.mem_cons_of_mem _ hw')) hcall, bind_assoc]
      rfl

theorem bindStages_composed (pos : Pos) {ws : List Stage} (h : ws.length ≠ 1) :
    bindStages (ws.map Stage.expr) pos =
      ⟨(hoistLambdas (ws.map Stage.expr) 0 pos).binds,
        composeStages (hoistLambdas (ws.map Stage.expr) 0 pos).refs pos⟩ := by
  unfold bindStages
  split
  · rename_i only hmap
    have hlen := congrArg List.length hmap
    rw [List.length_map] at hlen
    exact absurd hlen h
  · rfl

/-- A chain of one stage, or of names and lambdas. -/
def Composable (ws : List Stage) : Prop := ws.length = 1 ∨ ∀ w ∈ ws, w.Settled

/-- The stage of the rewritten call computes what the stages of a composable chain compute
one after the other. -/
theorem bindStages_eval (M : Meaning σ A) (fuel : Nat) (pos : Pos) (env : Env σ A)
    {ws : List Stage} (h : Composable ws) : ∃ env' : Env σ A, AgreeOff .fusev env env' ∧
      (∀ body, eval M fuel env
        (block (bindStages (ws.map Stage.expr) pos).binds body) =
          eval M fuel env' body) ∧
      ∀ env'' : Env σ A, (∀ j, env'' (.minted .fusev pos j) = env' (.minted .fusev pos j)) →
        eval M fuel env'' (bindStages (ws.map Stage.expr) pos).stage =
          .fn1 <$> stagesRun M ws := by
  by_cases hone : ws.length = 1
  · obtain ⟨w, rfl⟩ := List.length_eq_one_iff.1 hone
    refine ⟨env, AgreeOff.refl _ _, fun _ => rfl, ?_⟩
    intro env'' _
    simp [bindStages, eval_stage, stagesRun]
  · have hsettled := h.resolve_left hone
    obtain ⟨env', hagree, -, hblock, hrefs⟩ := hoistLambdas_eval M fuel pos ws 0 env
    rw [bindStages_composed pos hone]
    refine ⟨env', hagree, hblock, ?_⟩
    intro env'' hsame
    rw [composeStages, eval, stagesRun_settled M hsettled, map_pure]
    congr 2
    funext d
    have hupdate : ∀ j, (Function.update env'' (.minted .fusef pos 0) (some (.datum d)))
        (.minted .fusev pos j) = env' (.minted .fusev pos j) := by
      intro j
      rw [Function.update_of_ne (by simp), hsame]
    have hacc : eval M fuel (Function.update env'' (.minted .fusef pos 0) (some (.datum d)))
        (.loc (.minted .fusef pos 0)) = .datum <$> (pure d : Comp σ (Datum A)) := by
      rw [eval, Function.update_self, lift_some, map_pure]
    rw [eval_applyStages M fuel _ (hrefs _ hupdate) hsettled hacc, pure_bind, bind_map_left]
    simp only [asDatum, bind_pure]

end Kaikai.PipeFusion
