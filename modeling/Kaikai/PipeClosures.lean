import Kaikai.PipeTerminals

namespace Kaikai.PipeFusion

open Kaikai.Word64 (Word)

variable {σ A : Type} {α β : Type}

theorem lowerMapPipes_chain (ps : List (Pos × Stage)) : ∀ {e src f : Expr},
    lowerMapPipes e = .call (.core .pipeMap) [src, f] →
      lowerMapPipes (chain e ps) = .call (.core .pipeMap)
        [src, ps.foldl (fun f p => compose f p.2.expr p.1) f] := by
  induction ps with
  | nil => exact fun h => h
  | cons p ps ih =>
      intro e src f h
      refine ih (e := .mapPipe p.1 e p.2.expr) ?_
      rw [lowerMapPipes, h, tryFuseMapPipe, asMapCall]

theorem eval_compose (M : Meaning σ A) (fuel : Nat) {inner : Expr} {f : Datum A → Comp σ (Datum A)}
    (h : ∀ env, eval M fuel env inner = pure (.fn1 f)) {w : Stage} (hw : w.Settled)
    (pos : Pos) (env : Env σ A) :
    eval M fuel env (compose inner w.expr pos) = pure (.fn1 fun d => f d >>= w.value M) := by
  rw [compose, eval]
  congr 2
  funext d
  rw [apply, apply, eval, eval_stage, hw.run]
  simp only [evalList, eval, h, Function.update_self, lift_some, map_pure, pure_bind, bind_map_left,
    bind_assoc, applyVal, asDatum, bind_pure]

theorem eval_composed (M : Meaning σ A) (fuel : Nat) {ps : List (Pos × Stage)} :
    ∀ {inner : Expr} {f : Datum A → Comp σ (Datum A)},
      (∀ env, eval M fuel env inner = pure (.fn1 f)) →
      (∀ w ∈ ps.map Prod.snd, w.Settled) → ∀ env : Env σ A,
        eval M fuel env (ps.foldl (fun f p => compose f p.2.expr p.1) inner) =
          pure (.fn1 fun d => f d >>= settledFun M (ps.map Prod.snd)) := by
  induction ps with
  | nil =>
      intro inner f h _ env
      rw [List.foldl_nil, h]
      simp only [List.map_nil, settledFun, bind_pure]
  | cons p ps ih =>
      intro inner f h hsettled env
      rw [List.map_cons] at hsettled
      rw [List.foldl_cons, ih (eval_compose M fuel h (hsettled _ List.mem_cons_self) p.1)
        (fun w hw => hsettled w (List.mem_cons_of_mem _ hw)) env]
      simp only [List.map_cons, settledFun, bind_assoc]

theorem refines_map (M : Meaning σ A) (fuel : Nat) (env : Env σ A) {src : Expr}
    {E : Comp σ (List (Datum A))} (hsrc : eval M fuel env src = Val.list <$> E)
    (hlower : lowerMapPipes src = src) (hcall : asMapCall src = none) (p : Pos × Stage)
    (ps : List (Pos × Stage)) (h : Composable ((p :: ps).map Prod.snd)) :
    Refines (do
      let xs ← E
      let f ← stagesRun M ((p :: ps).map Prod.snd)
      .list <$> xs.mapM f)
      (eval M fuel env (lowerMapPipes (chain src (p :: ps)))) := by
  have hfirst : lowerMapPipes (.mapPipe p.1 src p.2.expr) =
      .call (.core .pipeMap) [src, p.2.expr] := by
    rw [lowerMapPipes, hlower, tryFuseMapPipe, hcall]
  have hstage : eval M fuel env (ps.foldl (fun f p => compose f p.2.expr p.1) p.2.expr) =
      .fn1 <$> stagesRun M ((p :: ps).map Prod.snd) := by
    rcases h with hone | hsettled
    · rw [List.map_cons, List.length_cons, Nat.add_eq_right, List.length_map,
        List.length_eq_zero_iff] at hone
      subst hone
      simp [eval_stage, stagesRun]
    · rw [List.map_cons] at hsettled
      have hp := hsettled _ List.mem_cons_self
      rw [eval_composed M fuel (fun env => by rw [eval_stage, hp.run, map_pure])
        (fun w hw => hsettled w (List.mem_cons_of_mem _ hw)), List.map_cons,
        stagesRun_settled M hsettled, map_pure]
      rfl
  have hchain : chain src (p :: ps) = chain (.mapPipe p.1 src p.2.expr) ps := rfl
  apply Refines.of_eq
  rw [hchain, lowerMapPipes_chain ps hfirst, eval, eval, pure_bind, evalList, evalList, evalList,
    hsrc, hstage]
  simp only [bind_map_left, pure_bind, bind_assoc, applyVal, callCore_pipeMap]

theorem refsSecond_cons (e : Expr) (refs : List Expr) : refsSecond (e :: refs) = refsHead refs := by
  cases refs <;> rfl

theorem hoistPair_eval (M : Meaning σ A) (fuel : Nat) (pos : Pos) (env : Env σ A) {e c : Expr}
    {f v : Val σ A} (he : eval M fuel env e = pure f)
    (hfree : isLambda e = false → ∀ env', eval M fuel env' e = pure f)
    (hc : ∀ env', eval M fuel env' c = pure v) :
    ∃ env' : Env σ A, AgreeOff .fusev env env' ∧
      (∀ body, eval M fuel env (block (hoistLambdas [e, c] 0 pos).binds body) =
        eval M fuel env' body) ∧
      ∀ env'' : Env σ A, (∀ j, env'' (.minted .fusev pos j) = env' (.minted .fusev pos j)) →
        eval M fuel env'' (refsHead (hoistLambdas [e, c] 0 pos).refs) = pure f ∧
        eval M fuel env'' (refsSecond (hoistLambdas [e, c] 0 pos).refs) = pure v := by
  have hsecond : ∀ env : Env σ A, ∃ env' : Env σ A, AgreeOff .fusev env env' ∧
      env' (.minted .fusev pos 0) = env (.minted .fusev pos 0) ∧
      (∀ body, eval M fuel env (block (hoistLambdas [c] 1 pos).binds body) =
        eval M fuel env' body) ∧
      ∀ env'' : Env σ A, (∀ j, env'' (.minted .fusev pos j) = env' (.minted .fusev pos j)) →
        eval M fuel env'' (refsHead (hoistLambdas [c] 1 pos).refs) = pure v := by
    intro env
    by_cases hlambda : isLambda c = true
    · refine ⟨Function.update env (.minted .fusev pos 1) (some v), AgreeOff.update _ _ _ _ _,
        Function.update_of_ne (by simp) _ _, ?_, ?_⟩
      · intro body
        simp only [hoistLambdas, hlambda, if_true, block, List.foldr_cons, List.foldr_nil]
        rw [eval, hc, pure_bind]
      · intro env'' hsame
        simp only [hoistLambdas, hlambda, if_true, refsHead]
        rw [eval, hsame, Function.update_self, lift_some]
    · refine ⟨env, AgreeOff.refl _ _, rfl, ?_, ?_⟩
      · intro body
        simp only [hoistLambdas, hlambda]
        rfl
      · intro env'' _
        simp only [hoistLambdas, hlambda]
        exact hc env''
  by_cases hlambda : isLambda e = true
  · obtain ⟨env', hagree, hzero, hblock, href⟩ :=
      hsecond (Function.update env (.minted .fusev pos 0) (some f))
    refine ⟨env', (AgreeOff.update _ _ _ _ _).trans hagree, ?_, ?_⟩
    · intro body
      rw [hoistLambdas]
      simp only [hlambda, if_true, block, List.foldr_cons]
      rw [eval, he, pure_bind]
      exact hblock body
    · intro env'' hsame
      rw [hoistLambdas]
      simp only [hlambda, if_true, refsHead]
      constructor
      · rw [eval, hsame, hzero, Function.update_self, lift_some]
      · rw [refsSecond_cons]
        exact href env'' hsame
  · obtain ⟨env', hagree, -, hblock, href⟩ := hsecond env
    refine ⟨env', hagree, ?_, ?_⟩
    · intro body
      rw [hoistLambdas]
      simp only [hlambda]
      exact hblock body
    · intro env'' hsame
      rw [hoistLambdas]
      simp only [hlambda, Bool.false_eq_true, if_false, refsSecond_cons]
      exact ⟨hfree (by simpa using hlambda) env'', href env'' hsame⟩

theorem bindStages_free (M : Meaning σ A) (fuel : Nat) (pos : Pos) {ws : List Stage}
    (h : ∀ w ∈ ws, w.Settled)
    (hfree : isLambda (bindStages (ws.map Stage.expr) pos).stage = false)
    (env : Env σ A) :
    eval M fuel env (bindStages (ws.map Stage.expr) pos).stage = pure (.fn1 (settledFun M ws)) := by
  by_cases hone : ws.length = 1
  · obtain ⟨w, rfl⟩ := List.length_eq_one_iff.1 hone
    have hw := h w List.mem_cons_self
    rw [List.map_singleton, bindStages, eval_stage, hw.run, map_pure]
    simp only [settledFun, bind_pure]
  · rw [bindStages_composed pos hone] at hfree
    cases hfree

theorem refines_containerFold (M : Meaning σ A) (fuel : Nat) (env : Env σ A)
    (w init : Written) (combine : Combiner) {ws : List Stage} (h : ∀ w ∈ ws, w.Settled)
    (hcombine : combine.Settled) (pos : Pos) :
    Refines (do
      let xs ← w.run M .container
      let f ← stagesRun M ws
      (FoldOp.foldl init combine).runWith M f xs)
      (eval M fuel env (genericFoldRewrite ⟨w.expr .container, ws.map Stage.expr,
        .foldl (init.expr .datum) combine.expr⟩ pos)) := by
  obtain ⟨env₁, -, hblock₁, hstage⟩ := bindStages_eval M fuel pos env (.inr h)
  have hvalue : ∀ env'' : Env σ A,
      (∀ j, env'' (.minted .fusev pos j) = env₁ (.minted .fusev pos j)) →
        eval M fuel env'' (bindStages (ws.map Stage.expr) pos).stage =
          pure (.fn1 (settledFun M ws)) := by
    intro env'' hsame
    rw [hstage env'' hsame, stagesRun_settled M h, map_pure]
  obtain ⟨env₂, -, hblock₂, hrefs⟩ := hoistPair_eval M fuel pos env₁
    (c := combine.expr) (v := .fn2 (combine.value M))
    (hvalue env₁ fun _ => rfl) (fun hfree => bindStages_free M fuel pos h hfree)
    (fun env' => by rw [eval_combiner, hcombine.run, map_pure])
  have hcomb : eval M fuel env₂ (composeCombiner
      (refsHead (hoistLambdas [(bindStages (ws.map Stage.expr) pos).stage, combine.expr] 0 pos).refs)
      (refsSecond (hoistLambdas [(bindStages (ws.map Stage.expr) pos).stage,
        combine.expr] 0 pos).refs) pos) =
      pure (.fn2 fun acc d => settledFun M ws d >>= combine.value M acc) := by
    rw [composeCombiner, eval]
    congr 2
    funext acc d
    obtain ⟨hstage', hcombine'⟩ := hrefs
      (Function.update (Function.update env₂ (.minted .fuseAcc pos 0) (some (.datum acc)))
        (.minted .fuseX pos 0) (some (.datum d)))
      fun j => by rw [Function.update_of_ne (by simp), Function.update_of_ne (by simp)]
    rw [apply, apply, eval, hcombine']
    simp only [evalList, eval, hstage', pure_bind, Function.update_self, lift_some, applyVal]
    rw [Function.update_of_ne (by simp), Function.update_self]
    simp only [lift_some, pure_bind, bind_map_left, bind_assoc, asDatum, bind_pure]
  have hrewrite : genericFoldRewrite ⟨w.expr .container, ws.map Stage.expr,
      .foldl (init.expr .datum) combine.expr⟩ pos =
      block (bindStages (ws.map Stage.expr) pos).binds
        (block (hoistLambdas [(bindStages (ws.map Stage.expr) pos).stage, combine.expr] 0 pos).binds
          (foldCall .protoFoldl [w.expr .container, init.expr .datum, composeCombiner
            (refsHead (hoistLambdas [(bindStages (ws.map Stage.expr) pos).stage,
              combine.expr] 0 pos).refs)
            (refsSecond (hoistLambdas [(bindStages (ws.map Stage.expr) pos).stage,
              combine.expr] 0 pos).refs) pos])) := by
    simp only [genericFoldRewrite, block, List.foldr_append]
  apply Refines.of_eq
  rw [hrewrite, hblock₁, hblock₂, foldCall, eval, eval, pure_bind]
  simp only [evalList, eval_written, hcomb, bind_map_left, bind_assoc, pure_bind, applyVal,
    Role.val, stagesRun_settled M h, FoldOp.runWith, FoldOp.spec, hcombine.run, callCore_protoFoldl]

end Kaikai.PipeFusion
