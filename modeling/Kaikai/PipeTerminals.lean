import Kaikai.PipeSound

namespace Kaikai.PipeFusion

open Kaikai.Word64 (Word)

variable {σ A : Type} {α β : Type}

/-- What the call of a fold reads from its arguments behind the traversed ones. -/
def FoldOp.parse (M : Meaning σ A) : FoldOp → List (Val σ A) →
    Option ((Datum A → Comp σ (Datum A)) × Datum A × (Datum A → Datum A → Comp σ (Datum A)))
  | .foldl _ _, [.fn1 f, .datum i, .fn2 c] => some (f, i, c)
  | .sum, [.fn1 f] => some (f, M.zero, pureOp M.add)
  | .product, [.fn1 f] => some (f, M.one, pureOp M.mul)
  | _, _ => none

theorem callCore_parse (M : Meaning σ A) (fuel : Nat) (op : FoldOp) (vals : List (Val σ A)) :
    (∀ xs, callCore M fuel op.cf (.list xs :: vals) = (do
      let p ← StateT.lift (op.parse M vals)
      .datum <$> mapFoldl p.1 p.2.2 xs p.2.1)) ∧
    ∀ a b s, callCore M fuel (rangeFold op.cf true)
        (.datum (.int a) :: .datum (.int b) :: .datum (.int s) :: vals) = (do
      let p ← StateT.lift (op.parse M vals)
      .datum <$> rangeMapFoldl p.1 p.2.2 b s fuel a p.2.1) := by
  rcases vals with _ | ⟨v, vals⟩
  · cases op <;> exact ⟨fun _ => rfl, fun _ _ _ => rfl⟩
  cases v with
  | fn1 f =>
      rcases vals with _ | ⟨v, vals⟩
      · cases op <;> exact ⟨fun _ => rfl, fun _ _ _ => rfl⟩
      cases v with
      | datum i =>
          rcases vals with _ | ⟨v, vals⟩
          · cases op <;> exact ⟨fun _ => rfl, fun _ _ _ => rfl⟩
          cases v with
          | fn2 c =>
              cases vals with
              | nil => cases op <;> exact ⟨fun _ => rfl, fun _ _ _ => rfl⟩
              | cons v vals => cases op <;> exact ⟨fun _ => rfl, fun _ _ _ => rfl⟩
          | _ => cases op <;> exact ⟨fun _ => rfl, fun _ _ _ => rfl⟩
      | _ => cases op <;> exact ⟨fun _ => rfl, fun _ _ _ => rfl⟩
  | _ => cases op <;> exact ⟨fun _ => rfl, fun _ _ _ => rfl⟩

theorem refines_upward {fuel : Nat} {a b s : Word} (hs : s.1 > 0) {k : List (Datum A) → Comp σ α}
    {y : Comp σ α} (h : ∀ ns, rangeList b s fuel a = some ns → k (ns.map .int) = y) :
    Refines (rangeElems fuel (.datum (.int a)) (.datum (.int b)) (.datum (.int s)) >>= k) y := by
  rw [rangeElems_int fuel a b s hs]
  cases hlist : rangeList b s fuel a with
  | none => exact Refines.failure _
  | some ns =>
      apply Refines.of_eq
      simp only [lift_some, pure_bind]
      exact h ns hlist

theorem refines_plain (M : Meaning σ A) (fuel : Nat) (cf : CoreFn) (env : Env σ A) {src : Expr}
    {E : Comp σ (List (Datum A))} (args : List Expr) (hsrc : eval M fuel env src = Val.list <$> E) :
    Refines (E >>= fun xs => evalList M fuel env args >>= fun vals =>
        callCore M fuel cf (.list xs :: vals))
      (eval M fuel env (foldCall cf (src :: args))) := by
  apply Refines.of_eq
  rw [foldCall, eval, eval, pure_bind, evalList, hsrc]
  simp only [bind_map_left, bind_assoc, pure_bind, applyVal]

theorem refines_steppedFold (M : Meaning σ A) (fuel : Nat) (env : Env σ A) (a b s : Operand)
    {ws : List Stage} (h : Composable ws) (op : FoldOp) (pos : Pos) :
    Refines (do
      let va ← eval M fuel env a.expr
      let vb ← eval M fuel env b.expr
      let vs ← eval M fuel env s.expr
      let xs ← rangeElems fuel va vb vs
      let f ← stagesRun M ws
      op.runWith M f xs)
      (eval M fuel env (stageFold ⟨.rangeStep a.expr b.expr s.expr,
        ws.map Stage.expr, .sum⟩ op.cf op.extra pos)) := by
  obtain ⟨env', hagree, hblock, hstage⟩ := bindStages_eval M fuel pos env h
  have hfold : stageFold ⟨.rangeStep a.expr b.expr s.expr, ws.map Stage.expr, .sum⟩
      op.cf op.extra pos = block (bindStages (ws.map Stage.expr) pos).binds
        (stepped (rangeFold op.cf true) [a.expr, b.expr, s.expr]
          ((bindStages (ws.map Stage.expr) pos).stage :: op.extra) (foldCall op.cf)
          (.rangeStep a.expr b.expr s.expr) pos) := rfl
  rw [hfold, hblock]
  have hstage' : ∀ env'', AgreeOff .fuser env' env'' →
      eval M fuel env'' (bindStages (ws.map Stage.expr) pos).stage =
        .fn1 <$> stagesRun M ws :=
    fun env'' hagree' => hstage env'' fun j => hagree' _ (by simp)
  refine Refines.trans ?_ (refines_stepped M fuel env' a b s pos
    (P := fun xs vals => callCore M fuel op.cf (.list xs :: vals)) ?_ ?_ ?_
    (fun _ _ => .inr rfl))
  · rw [hagree.operand, hagree.operand, hagree.operand]
    refine (Refines.refl _).bind fun va => (Refines.refl _).bind fun vb =>
      (Refines.refl _).bind fun vs => ?_
    rw [evalList, hstage' env' (AgreeOff.refl _ _), FoldOp.evalList_extra]
    simp only [bind_map_left, bind_assoc, pure_bind]
    refine (still_rangeElems _ _ _ _).swap fun f => ?_
    refine Refines.trans ?_ ((still_rangeElems _ _ _ _).swap fun p => Refines.refl _)
    apply Refines.of_eq
    congr 1
    funext xs
    rw [callCore_fold]
    simp only [mapFoldl_eq, FoldOp.runWith]
  · intro e he env'' hagree'
    rcases List.mem_cons.1 he with rfl | he
    · rw [hstage' env'' hagree', hstage' env' (AgreeOff.refl _ _)]
    · exact op.extra_indep M fuel he env'' env'
  · intro env'' src args E _ hsrc
    exact refines_plain M fuel op.cf env'' args hsrc
  · intro a b s vals hs
    refine refines_upward hs fun ns hns => ?_
    obtain ⟨hlist, hrange⟩ := callCore_parse M fuel op vals
    rw [hlist, hrange]
    congr 1
    funext p
    rw [rangeMapFoldl_eq _ _ hs hns, mapFoldl_eq]

theorem rangeList_greatest {stop : Word} (hstop : stop.1 = 2 ^ 63 - 1) {fuel : Nat} :
    ∀ start : Word, rangeList stop oneStep fuel start = none := by
  induction fuel with
  | zero => exact fun _ => rfl
  | succ fuel ih =>
      intro start
      have hend : ¬start.1 > stop.1 := by
        have := start.2.2
        omega
      rw [rangeList, rangeEnded, if_pos oneStep_pos, decide_eq_false hend, ih]
      rfl

theorem rangeList_length {stop : Word} {fuel : Nat} : ∀ {start : Word} {ns : List Word},
    rangeList stop oneStep fuel start = some ns →
      (ns.length : Int) = if start.1 > stop.1 then 0 else stop.1 - start.1 + 1 := by
  induction fuel with
  | zero => exact fun h => by cases h
  | succ fuel ih =>
      intro start ns h
      have hbelow : stop.1 ≠ 2 ^ 63 - 1 := by
        intro heq
        rw [rangeList_greatest heq] at h
        cases h
      simp only [rangeList, rangeEnded, if_pos oneStep_pos, decide_eq_true_eq] at h
      by_cases hend : start.1 > stop.1
      · rw [if_pos hend, Option.some.injEq] at h
        rw [if_pos hend, ← h]
        rfl
      · rw [if_neg hend, Option.map_eq_some_iff] at h
        obtain ⟨rest, hrest, rfl⟩ := h
        have hnext : (Word.ofInt (start.1 + oneStep.1)).1 = start.1 + 1 := by
          have hone : oneStep.1 = 1 := by decide
          have hstop := stop.2.2
          have hlow := start.2.1
          rw [hone]
          exact Word64.wrap_eq_self (by omega) (by omega)
        have hlen := ih hrest
        rw [hnext] at hlen
        rw [if_neg hend, List.length_cons, Nat.cast_succ, hlen]
        split <;> omega

theorem rangeLength_eq {fuel : Nat} {a b : Word} {ns : List Word}
    (h : rangeList b oneStep fuel a = some ns) : rangeLength a b = .ofInt ns.length := by
  rw [rangeLength, rangeList_length h]
  split <;> rfl

theorem rangeStepLength_eq {stop step : Word} (hstep : step.1 > 0) {fuel : Nat} :
    ∀ {start : Word} {ns : List Word}, rangeList stop step fuel start = some ns → ∀ n : Int,
      rangeStepLength stop step fuel start (.ofInt n) = some (.ofInt (n + ns.length)) := by
  induction fuel with
  | zero => exact fun h => by cases h
  | succ fuel ih =>
      intro start ns h n
      simp only [rangeList, rangeEnded, if_pos hstep, decide_eq_true_eq] at h
      rw [rangeStepLength]
      by_cases hend : start.1 > stop.1
      · rw [if_pos hend, Option.some.injEq] at h
        rw [if_pos hend, ← h]
        simp
      · rw [if_neg hend, Option.map_eq_some_iff] at h
        obtain ⟨rest, hrest, rfl⟩ := h
        have hnext : Word.ofInt ((Word.ofInt n).1 + 1) = Word.ofInt (n + 1) :=
          Subtype.ext (Word64.wrap_wrap_add n 1)
        rw [if_neg hend, hnext, ih hrest, List.length_cons, Nat.cast_succ]
        congr 2
        omega

/-- The length of a sequence. -/
def lengthRun (xs : List (Datum A)) : Comp σ (Val σ A) := pure (.datum (.int (.ofInt xs.length)))

theorem refines_listLength (M : Meaning σ A) (fuel : Nat) (env : Env σ A) (w : Written)
    (pos : Pos) :
    Refines (w.run M .list >>= lengthRun) (eval M fuel env (lengthCall (w.expr .list) pos)) := by
  have hcall : lengthCall (w.expr .list) pos = foldCall .length [w.expr .list] := rfl
  rw [hcall]
  refine Refines.trans (Refines.of_eq ?_)
    (refines_plain M fuel .length env [] (eval_written M fuel env w .list))
  congr 1

theorem refines_rangeLength (M : Meaning σ A) (fuel : Nat) (env : Env σ A) (a b : Operand)
    (pos : Pos) :
    Refines (do
      let va ← eval M fuel env a.expr
      let vb ← eval M fuel env b.expr
      let xs ← rangeElems fuel va vb (.datum (.int oneStep))
      lengthRun xs)
      (eval M fuel env (lengthCall (.range a.expr b.expr) pos)) := by
  have hcall : lengthCall (.range a.expr b.expr) pos =
      foldCall .rangeLength [a.expr, b.expr] := rfl
  rw [hcall, foldCall, eval, eval, pure_bind, evalList, evalList, evalList]
  simp only [pure_bind, bind_assoc, applyVal]
  refine (Refines.refl _).bind fun va => (Refines.refl _).bind fun vb => ?_
  refine refines_rangeElems ?_
  rintro a b s rfl rfl hs
  refine refines_upward oneStep_pos fun ns hns => ?_
  rw [lengthRun, callCore_rangeLength, rangeLength_eq hns, List.length_map]

theorem refines_steppedLength (M : Meaning σ A) (fuel : Nat) (env : Env σ A) (a b s : Operand)
    (pos : Pos) :
    Refines (do
      let va ← eval M fuel env a.expr
      let vb ← eval M fuel env b.expr
      let vs ← eval M fuel env s.expr
      let xs ← rangeElems fuel va vb vs
      lengthRun xs)
      (eval M fuel env (lengthCall (.rangeStep a.expr b.expr s.expr) pos)) := by
  have hcall : lengthCall (.rangeStep a.expr b.expr s.expr) pos =
      stepped .rangeStepLength [a.expr, b.expr, s.expr] [] (foldCall .length)
        (.rangeStep a.expr b.expr s.expr) pos := rfl
  rw [hcall]
  refine Refines.trans ?_ (refines_stepped M fuel env a b s pos
    (P := fun xs vals => callCore M fuel .length (.list xs :: vals)) ?_ ?_ ?_
    (fun _ _ => .inr rfl))
  · rw [evalList]
    refine (Refines.refl _).bind fun va => (Refines.refl _).bind fun vb =>
      (Refines.refl _).bind fun vs => ?_
    rw [pure_bind]
    refine (Refines.refl _).bind fun xs => Refines.of_eq ?_
    rw [lengthRun, callCore_length]
  · exact fun e he => by cases he
  · intro env' src args E _ hsrc
    exact refines_plain M fuel .length env' args hsrc
  · intro a b s vals hs
    refine refines_upward hs fun ns hns => ?_
    cases vals with
    | nil =>
        rw [callCore_length, callCore_rangeStepLength, rangeStepLength_eq hs hns, List.length_map,
          zero_add]
        rfl
    | cons v vals => rfl

theorem foldlM_mapM (f : Datum A → Comp σ (Datum A)) (xs acc : List (Datum A)) :
    xs.foldlM (fun acc d => f d >>= fun y => pure (acc ++ [y])) acc =
      (acc ++ ·) <$> xs.mapM f := by
  induction xs generalizing acc with
  | nil => simp
  | cons x xs ih =>
      rw [List.foldlM_cons, List.mapM_cons, bind_assoc, map_bind]
      congr 1
      funext y
      rw [pure_bind, ih, map_bind, map_eq_pure_bind]
      simp

theorem rangeCollect_eq (f : Datum A → Comp σ (Datum A)) {stop step : Word} (hstep : step.1 > 0)
    {fuel : Nat} {start : Word} {ns : List Word} (h : rangeList stop step fuel start = some ns) :
    rangeMapFoldl f (fun acc y => pure (acc ++ [y])) stop step fuel start [] =
      (ns.map .int).mapM f := by
  rw [rangeMapFoldl_eq _ _ hstep h, foldlM_mapM]
  simp

theorem refines_rangeCollect (M : Meaning σ A) (fuel : Nat) (env : Env σ A) (a b : Operand)
    {ws : List Stage} (h : Composable ws) (pos : Pos) :
    Refines (do
      let va ← eval M fuel env a.expr
      let vb ← eval M fuel env b.expr
      let xs ← rangeElems fuel va vb (.datum (.int oneStep))
      let f ← stagesRun M ws
      .vec <$> xs.mapM f)
      (eval M fuel env (collectCall .rangeMapCollectVec [a.expr, b.expr]
        (ws.map Stage.expr) pos)) := by
  obtain ⟨env', hagree, hblock, hstage⟩ := bindStages_eval M fuel pos env h
  have hcall : collectCall .rangeMapCollectVec [a.expr, b.expr] (ws.map Stage.expr)
      pos = block (bindStages (ws.map Stage.expr) pos).binds
        (foldCall .rangeMapCollectVec
          [a.expr, b.expr, (bindStages (ws.map Stage.expr) pos).stage]) := rfl
  rw [hcall, hblock, foldCall, eval, eval, pure_bind, evalList, evalList, evalList, evalList,
    hstage env' fun _ => rfl, hagree.operand, hagree.operand]
  simp only [applyVal, bind_map_left, bind_assoc, pure_bind]
  refine (Refines.refl _).bind fun va => (Refines.refl _).bind fun vb => ?_
  refine refines_rangeElems ?_
  rintro a b s rfl rfl hs
  refine (still_rangeElems _ _ _ _).swap fun f => ?_
  refine refines_upward oneStep_pos fun ns hns => ?_
  rw [callCore_rangeMapCollectVec, rangeCollect_eq _ oneStep_pos hns]

/-- The stage of a collected range, ahead of the conversion. -/
def collectPlain (M : Meaning σ A) (fuel : Nat) (xs : List (Datum A)) :
    List (Val σ A) → Comp σ (Val σ A)
  | [f] => mapVal (.list xs) f >>= fun v => callCore M fuel .vecFromList [v]
  | _ => failure

theorem callCore_collect (M : Meaning σ A) {fuel : Nat} {a b s : Word} (hs : s.1 > 0)
    {ns : List Word} (h : rangeList b s fuel a = some ns) (vals : List (Val σ A)) :
    callCore M fuel .rangeStepMapCollectVec
        (.datum (.int a) :: .datum (.int b) :: .datum (.int s) :: vals) =
      collectPlain M fuel (ns.map .int) vals := by
  cases vals with
  | nil => rfl
  | cons v vals =>
      cases vals with
      | cons v' vals => cases v <;> rfl
      | nil =>
          cases v with
          | fn1 f =>
              rw [callCore_rangeStepMapCollectVec, rangeCollect_eq f hs h, collectPlain, mapVal,
                bind_map_left, map_eq_pure_bind]
              simp only [callCore_vecFromList]
          | _ => rfl

theorem refines_steppedCollect (M : Meaning σ A) (fuel : Nat) (env : Env σ A) (a b s : Operand)
    {ws : List Stage} (h : Composable ws) (pos : Pos)
    (hstep : ∀ k, tryIntLiteral s.expr = some k → k.1 > 0) :
    Refines (do
      let va ← eval M fuel env a.expr
      let vb ← eval M fuel env b.expr
      let vs ← eval M fuel env s.expr
      let xs ← rangeElems fuel va vb vs
      let f ← stagesRun M ws
      .vec <$> xs.mapM f)
      (eval M fuel env (collectCall .rangeStepMapCollectVec [a.expr, b.expr, s.expr]
        (ws.map Stage.expr) pos)) := by
  obtain ⟨env', hagree, hblock, hstage⟩ := bindStages_eval M fuel pos env h
  have hcall : collectCall .rangeStepMapCollectVec [a.expr, b.expr, s.expr]
      (ws.map Stage.expr) pos =
        block (bindStages (ws.map Stage.expr) pos).binds
          (stepped .rangeStepMapCollectVec [a.expr, b.expr, s.expr]
            [(bindStages (ws.map Stage.expr) pos).stage] (collectViaList pos)
            .missing pos) := rfl
  rw [hcall, hblock]
  have hstage' : ∀ env'', AgreeOff .fuser env' env'' →
      eval M fuel env'' (bindStages (ws.map Stage.expr) pos).stage =
        .fn1 <$> stagesRun M ws :=
    fun env'' hagree' => hstage env'' fun j => hagree' _ (by simp)
  refine Refines.trans ?_ (refines_stepped M fuel env' a b s pos (P := collectPlain M fuel)
    ?_ ?_ ?_ fun k hk => .inl (hstep k hk))
  · rw [hagree.operand, hagree.operand, hagree.operand]
    refine (Refines.refl _).bind fun va => (Refines.refl _).bind fun vb =>
      (Refines.refl _).bind fun vs => ?_
    rw [evalList, evalList, hstage' env' (AgreeOff.refl _ _)]
    simp only [bind_map_left, pure_bind, bind_assoc]
    refine (still_rangeElems _ _ _ _).swap fun f => ?_
    refine (Refines.refl _).bind fun xs => Refines.of_eq ?_
    rw [collectPlain, mapVal, bind_map_left, map_eq_pure_bind]
    simp only [callCore_vecFromList]
  · intro e he env'' hagree'
    rw [List.mem_singleton.1 he, hstage' env'' hagree', hstage' env' (AgreeOff.refl _ _)]
  · intro env'' src args E hlen hsrc
    obtain ⟨stage, rfl⟩ := List.length_eq_one_iff.1 hlen
    apply Refines.of_eq
    have hplain : collectViaList pos [src, stage] =
        foldCall .vecFromList [.mapPipe pos src stage] := rfl
    rw [hplain]
    simp only [foldCall, eval, evalList, hsrc, bind_map_left, bind_assoc, pure_bind,
      collectPlain, applyVal]
  · intro a b s vals hs
    refine refines_upward hs fun ns hns => ?_
    rw [callCore_collect M hs hns]

end Kaikai.PipeFusion
