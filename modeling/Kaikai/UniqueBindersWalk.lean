import Kaikai.UniqueBindersExact

namespace Kaikai.UniqueBinders

open Kaikai.Str

theorem localEq_iff {a b : ℤ} : localEq a b = true ↔ a ≠ 0 ∧ a = b := by
  simp [localEq]

theorem localMinted_neg (key : Str) : localMinted key < 0 := by
  simp only [localMinted]
  split <;> omega

theorem Bind.due_ne_zero {dups : List ℤ} {b : Bind} (h : b.id ≠ 0) : b.due dups ≠ 0 := by
  unfold Bind.due
  split
  · split
    · exact (localMinted_neg _).ne
    · exact h
  · exact h

section References

variable {dups : List ℤ} {l : ℤ}

theorem target_cons (b : Bind) (scope : List Bind) :
    target dups (b :: scope) l =
      if localEq b.id l then b.due dups else target dups scope l := by
  unfold target
  rw [List.find?_cons]
  cases localEq b.id l <;> rfl

theorem refers_cons (b : Bind) (scope : List Bind) :
    refers (b :: scope) l = if localEq b.id l then some 0 else (refers scope l).map (· + 1) := by
  unfold refers
  exact List.findIdx?_cons

theorem Clear.cons_found {b : Bind} {scope : List Bind} (h : localEq b.id l = true) :
    Clear dups (b :: scope) l := by
  intro x hx
  simp [h] at hx

theorem clear_cons_missed {b : Bind} {scope : List Bind} (h : localEq b.id l = false) :
    Clear dups (b :: scope) l ↔
      localEq (b.due dups) (target dups scope l) = false ∧ Clear dups scope l := by
  unfold Clear
  simp only [List.takeWhile_cons, h, Bool.not_false, if_true, target_cons, Bool.false_eq_true,
    if_false, List.forall_mem_cons]

theorem refers_image_iff (scope : List Bind) :
    refers (scope.map (Bind.image dups)) (target dups scope l) = refers scope l ↔
      Clear dups scope l := by
  induction scope with
  | nil => simp [refers, Clear]
  | cons b rest ih =>
      rw [List.map_cons, refers_cons, refers_cons, target_cons]
      cases h : localEq b.id l with
      | true =>
          have hne : b.due dups ≠ 0 := Bind.due_ne_zero (localEq_iff.1 h).1
          have hself : localEq (b.due dups) (b.due dups) = true := localEq_iff.2 ⟨hne, rfl⟩
          simpa [Bind.image, hself] using Clear.cons_found h
      | false =>
          rw [clear_cons_missed h, ← ih]
          have hid : (b.image dups).id = b.due dups := rfl
          simp only [Bool.false_eq_true, if_false, hid]
          cases hb : localEq (b.due dups) (target dups rest l) with
          | true =>
              refine ⟨fun heq => ?_, fun hand => absurd hand.1 (by simp)⟩
              cases hr : refers rest l <;> simp [hr] at heq
          | false =>
              simp only [Bool.false_eq_true, if_false, true_and]
              exact (Option.map_injective fun m n hmn => Nat.succ.inj hmn).eq_iff

end References

/-- The pass's scope tells what each binder in scope is due. -/
structure Linked (dups : List ℤ) (cx : UbCx) (scope : List Bind) : Prop where
  env : cx.env.map (fun e => (e.was, e.now.id)) = scope.map fun b => (b.id, b.due dups)
  dups : cx.dups = dups

section Scopes

variable {dups : List ℤ} {cx : UbCx} {scope : List Bind}

theorem Linked.enter_one (h : Linked dups cx scope) {b : Binder ℤ} {site : Option Pos}
    {now : Binder ℤ} (hnow : now.id = Bind.due dups ⟨b.id, site⟩) :
    Linked dups (ubBind cx b now) (enter [⟨b.id, site⟩] scope) where
  env := by simp [ubBind, enter, h.env, hnow]
  dups := h.dups

theorem enter_append (bs cs : List Bind) :
    enter (bs ++ cs) scope = enter cs (enter bs scope) := by
  simp [enter]

theorem enter_cons (b : Bind) (bs : List Bind) :
    enter (b :: bs) scope = enter bs (enter [b] scope) :=
  enter_append [b] bs

theorem map_enter (f : Bind → Bind) (bs : List Bind) :
    (enter bs scope).map f = enter (bs.map f) (scope.map f) := by
  simp [enter]

theorem ubLookupId_of_linked {env : List UbBind} (l : ℤ)
    (h : env.map (fun e => (e.was, e.now.id)) = scope.map fun b => (b.id, b.due dups)) :
    ubLookupId env l = target dups scope l := by
  induction env generalizing scope with
  | nil =>
      obtain rfl : scope = [] := by simpa using h.symm
      rfl
  | cons e rest ih =>
      cases scope with
      | nil => simp at h
      | cons b bs =>
          obtain ⟨hhead, htail⟩ := List.cons.inj h
          obtain ⟨hwas, hnow⟩ := Prod.mk.inj hhead
          rw [ubLookupId, target_cons, hwas, hnow, ih htail]

theorem Linked.lookup (h : Linked dups cx scope) (l : ℤ) :
    ubLookupId cx.env l = target dups scope l :=
  ubLookupId_of_linked l h.env

theorem Linked.rebound (h : Linked dups cx scope) (b : Binder ℤ) (pos : Pos) :
    (ubRebound b pos cx).id = Bind.due dups ⟨b.id, some pos⟩ := by
  unfold ubRebound Bind.due
  rw [h.dups]
  split <;> rfl

theorem ubRebound_erase (b : Binder ℤ) (pos : Pos) (cx : UbCx) :
    (ubRebound b pos cx).erase = b.erase := by
  unfold ubRebound
  split <;> rfl

end Scopes

section Patterns

variable {A : Type} {dups : List ℤ}

mutual

theorem ubPat_spec : ∀ (p : Pattern A ℤ) {cx : UbCx} {scope : List Bind}, Linked dups cx scope →
    (ubPat p cx).1.binds = p.binds.map (Bind.image dups) ∧
      Linked dups (ubPat p cx).2 (enter p.binds scope)
  | .pBind b pos, cx, scope, h => by
      refine ⟨?_, h.enter_one (h.rebound b pos)⟩
      simp [ubPat, Pattern.binds, Bind.image, h.rebound b pos]
  | .pAs b inner pos, cx, scope, h => by
      obtain ⟨hbinds, hlinked⟩ := ubPat_spec inner (h.enter_one (h.rebound b pos))
      constructor
      · simp [ubPat, Pattern.binds, Bind.image, h.rebound b pos, hbinds]
      · rw [Pattern.binds, enter_cons]
        exact hlinked
  | .pNarrow b type pos, cx, scope, h => by
      refine ⟨?_, h.enter_one (h.rebound b pos)⟩
      simp [ubPat, Pattern.binds, Bind.image, h.rebound b pos]
  | .pList ps (some b) pos, cx, scope, h => by
      obtain ⟨hbinds, hlinked⟩ := ubPats_spec ps h
      constructor
      · simp [ubPat, Pattern.binds, Bind.image, hlinked.rebound b pos, hbinds]
      · rw [Pattern.binds, enter_append]
        exact hlinked.enter_one (hlinked.rebound b pos)
  | .pList ps none pos, cx, scope, h => by
      obtain ⟨hbinds, hlinked⟩ := ubPats_spec ps h
      exact ⟨hbinds, hlinked⟩
  | .other head ps pos, cx, scope, h => by
      obtain ⟨hbinds, hlinked⟩ := ubPats_spec ps h
      exact ⟨hbinds, hlinked⟩

theorem ubPats_spec : ∀ (ps : List (Pattern A ℤ)) {cx : UbCx} {scope : List Bind},
    Linked dups cx scope →
    bindsAll (ubPats ps cx).1 = (bindsAll ps).map (Bind.image dups) ∧
      Linked dups (ubPats ps cx).2 (enter (bindsAll ps) scope)
  | [], cx, scope, h => ⟨rfl, h⟩
  | p :: rest, cx, scope, h => by
      obtain ⟨hp, hscope⟩ := ubPat_spec p h
      obtain ⟨hrest, hlinked⟩ := ubPats_spec rest hscope
      constructor
      · rw [ubPats, bindsAll, bindsAll, hp, hrest, List.map_append]
      · rw [bindsAll, enter_append]
        exact hlinked

end

mutual

theorem ubPat_erase : ∀ (p : Pattern A ℤ) (cx : UbCx), (ubPat p cx).1.erase = p.erase
  | .pBind b pos, cx => by rw [ubPat, Pattern.erase, Pattern.erase, ubRebound_erase]
  | .pAs b inner pos, cx => by
      rw [ubPat, Pattern.erase, Pattern.erase, ubRebound_erase, ubPat_erase inner]
  | .pNarrow b type pos, cx => by rw [ubPat, Pattern.erase, Pattern.erase, ubRebound_erase]
  | .pList ps (some b) pos, cx => by
      rw [ubPat, Pattern.erase, Pattern.erase, ubPats_erase ps, Option.map_some, Option.map_some,
        ubRebound_erase]
  | .pList ps none pos, cx => by rw [ubPat, Pattern.erase, Pattern.erase, ubPats_erase ps]
  | .other head ps pos, cx => by rw [ubPat, Pattern.erase, Pattern.erase, ubPats_erase ps]

theorem ubPats_erase : ∀ (ps : List (Pattern A ℤ)) (cx : UbCx),
    erasePats (ubPats ps cx).1 = erasePats ps
  | [], cx => rfl
  | p :: rest, cx => by rw [ubPats, erasePats, erasePats, ubPat_erase p, ubPats_erase rest]

end

end Patterns

section Parameters

variable {A : Type} {dups : List ℤ} {cx : UbCx} {scope : List Bind}

theorem Linked.param (h : Linked dups cx scope) (p : Param A ℤ) :
    (ubParam p cx).bind = p.bind.image dups := by
  simp [Param.bind, Bind.image, ubParam, h.rebound p.binder p.pos]

theorem ubParam_erase (p : Param A ℤ) : (ubParam p cx).erase = p.erase := by
  simp [Param.erase, ubParam, ubRebound_erase]

theorem Linked.params (h : Linked dups cx scope) (ps : List (Param A ℤ)) :
    (ps.map (ubParam · cx)).map Param.bind = (ps.map Param.bind).map (Bind.image dups) := by
  rw [List.map_map, List.map_map]
  exact List.map_congr_left fun p _ => h.param p

theorem ubClauseParams_cons (q : Param A ℤ) (rest : List (Param A ℤ)) :
    ∃ q' rest', ubClauseParams cx (q :: rest) = q' :: rest' := by
  cases rest with
  | nil => exact ⟨_, _, rfl⟩
  | cons => exact ⟨_, _, rfl⟩

theorem Linked.clauseParams (h : Linked dups cx scope) : ∀ ps : List (Param A ℤ),
    clauseBinds (ubClauseParams cx ps) = (clauseBinds ps).map (Bind.image dups)
  | [] => rfl
  | [p] => rfl
  | p :: q :: rest => by
      have ih := h.clauseParams (q :: rest)
      obtain ⟨q', rest', hq⟩ : ∃ q' rest', ubClauseParams cx (q :: rest) = q' :: rest' :=
        ubClauseParams_cons q rest
      rw [clauseBinds, List.map_cons, ← ih, ← h.param p, ubClauseParams, hq, clauseBinds]
      all_goals simp

theorem ubClauseParams_erase : ∀ ps : List (Param A ℤ),
    (ubClauseParams cx ps).map Param.erase = ps.map Param.erase
  | [] => rfl
  | [p] => rfl
  | p :: q :: rest => by
      rw [ubClauseParams, List.map_cons, List.map_cons, ubClauseParams_erase (q :: rest),
        ubParam_erase]
      simp

theorem clauseBinds_ids : ∀ ps : List (Param A ℤ),
    (clauseBinds ps).map (·.id) = ps.map (·.binder.id)
  | [] => rfl
  | [p] => rfl
  | p :: q :: rest => by
      rw [clauseBinds, List.map_cons, List.map_cons, clauseBinds_ids (q :: rest)]
      · rfl
      · simp

theorem Linked.bindParams {bs : List Bind} : ∀ {ps qs : List (Param A ℤ)} {cx : UbCx}
    {scope : List Bind}, ps.map (·.binder.id) = bs.map (·.id) →
    qs.map (·.binder.id) = bs.map (Bind.due dups) → Linked dups cx scope →
    Linked dups (ubBindParams ps qs cx) (enter bs scope) := by
  induction bs with
  | nil =>
      intro ps qs cx scope hps hqs h
      obtain rfl : ps = [] := by simpa using hps
      obtain rfl : qs = [] := by simpa using hqs
      exact h
  | cons b rest ih =>
      intro ps qs cx scope hps hqs h
      cases ps with
      | nil => simp at hps
      | cons p ps =>
          cases qs with
          | nil => simp at hqs
          | cons q qs =>
              obtain ⟨hp, hps⟩ := List.cons.inj hps
              obtain ⟨hq, hqs⟩ := List.cons.inj hqs
              rw [ubBindParams, enter_cons]
              refine ih hps hqs ?_
              obtain ⟨id, site⟩ := b
              obtain rfl : p.binder.id = id := hp
              exact h.enter_one hq

theorem Linked.bindLambda (h : Linked dups cx scope) (ps : List (Param A ℤ)) :
    Linked dups (ubBindParams ps (ps.map (ubParam · cx)) cx) (enter (ps.map Param.bind) scope) := by
  refine Linked.bindParams ?_ ?_ h
  · rw [List.map_map]
    rfl
  · have hids := congrArg (List.map (·.id)) (h.params ps)
    simp only [List.map_map] at hids ⊢
    exact hids

theorem Linked.bindClause (h : Linked dups cx scope) (ps : List (Param A ℤ)) :
    Linked dups (ubBindParams ps (ubClauseParams cx ps) cx) (enter (clauseBinds ps) scope) := by
  refine Linked.bindParams (clauseBinds_ids ps).symm ?_ h
  rw [← clauseBinds_ids, h.clauseParams, List.map_map]
  rfl

end Parameters

section Walk

variable {A : Type} {dups : List ℤ}

theorem map_image_bind (bs : List Bind) :
    (bs.map (Bind.image dups)).map Mark.bind = (bs.map Mark.bind).map (Mark.image dups) := by
  rw [List.map_map, List.map_map]
  rfl

theorem Linked.via {cx : UbCx} {scope : List Bind} (h : Linked dups cx scope) (via : OpVia ℤ) :
    (ubVia via cx.env).marks (scope.map (Bind.image dups)) =
      (via.marks scope).map (Mark.image dups) := by
  cases via with
  | viaAmbient => rfl
  | viaNamed => rfl
  | viaAlias l => simp [ubVia, OpVia.marks, Mark.image, h.lookup l]
  | viaRecv l => simp [ubVia, OpVia.marks, Mark.image, h.lookup l]

theorem Linked.alias {cx : UbCx} {scope : List Bind} (h : Linked dups cx scope) (a : Binder ℤ) :
    Linked dups (ubBind cx a a) (enter [⟨a.id, none⟩] scope) :=
  h.enter_one rfl

mutual

theorem ubExpr_marks : ∀ (e : Expr A ℤ) {cx : UbCx} {scope : List Bind}, Linked dups cx scope →
    (ubExpr e cx).marks (scope.map (Bind.image dups)) = (e.marks scope).map (Mark.image dups)
  | .eLocal l info, cx, scope, h => by
      simp [ubExpr, Expr.marks, Mark.image, h.lookup l]
  | .eOp via info, cx, scope, h => h.via via
  | .eLambda ps body info, cx, scope, h => by
      have hbody := ubExpr_marks body (h.bindLambda ps)
      rw [map_enter, ← h.params ps] at hbody
      rw [ubExpr, Expr.marks, Expr.marks, List.map_append, hbody, h.params ps, map_image_bind]
  | .eBlock ss tail info, cx, scope, h => by
      obtain ⟨hss, hbinds, hscope⟩ := ubBlock_marks ss h
      have htail := ubOpt_marks tail hscope
      rw [map_enter, ← hbinds] at htail
      rw [ubExpr, Expr.marks, Expr.marks, List.map_append, hss, htail]
  | .eMatch scrutinee arms info, cx, scope, h => by
      rw [ubExpr, Expr.marks, Expr.marks, List.map_append, ubExpr_marks scrutinee h,
        ubArms_marks arms h]
  | .eHandle body init (some a) cls oret info, cx, scope, h => by
      have hbody := ubExpr_marks body (h.alias a)
      rw [map_enter] at hbody
      have himage : [Bind.mk a.id none].map (Bind.image dups) = [⟨a.id, none⟩] := rfl
      rw [himage] at hbody
      rw [ubExpr, Expr.marks, Expr.marks, List.map_cons, List.map_append, List.map_append,
        List.map_append, hbody, ubOpt_marks init h, ubClauses_marks cls h, ubReturn_marks oret h]
      rfl
  | .eHandle body init none cls oret info, cx, scope, h => by
      rw [ubExpr, Expr.marks, Expr.marks, List.map_append, List.map_append, List.map_append,
        ubExpr_marks body h, ubOpt_marks init h, ubClauses_marks cls h, ubReturn_marks oret h]
  | .other head xs, cx, scope, h => ubAll_marks xs h

theorem ubAll_marks : ∀ (xs : List (Expr A ℤ)) {cx : UbCx} {scope : List Bind},
    Linked dups cx scope →
    marksAll (ubAll xs cx) (scope.map (Bind.image dups)) =
      (marksAll xs scope).map (Mark.image dups)
  | [], _, _, _ => rfl
  | x :: rest, cx, scope, h => by
      rw [ubAll, marksAll, marksAll, List.map_append, ubExpr_marks x h, ubAll_marks rest h]

theorem ubOpt_marks : ∀ (x : Option (Expr A ℤ)) {cx : UbCx} {scope : List Bind},
    Linked dups cx scope →
    marksOpt (ubOpt x cx) (scope.map (Bind.image dups)) =
      (marksOpt x scope).map (Mark.image dups)
  | none, _, _, _ => rfl
  | some x, _, _, h => ubExpr_marks x h

theorem ubBlock_marks : ∀ (ss : List (Stmt A ℤ)) {cx : UbCx} {scope : List Bind},
    Linked dups cx scope →
    marksStmts (ubBlock ss cx).1 (scope.map (Bind.image dups)) =
        (marksStmts ss scope).map (Mark.image dups) ∧
      (ubBlock ss cx).1.flatMap Stmt.binds = (ss.flatMap Stmt.binds).map (Bind.image dups) ∧
      Linked dups (ubBlock ss cx).2 (enter (ss.flatMap Stmt.binds) scope)
  | [], _, _, h => ⟨rfl, rfl, h⟩
  | .sLet p ann rhs :: rest, cx, scope, h => by
      obtain ⟨hp, hscope⟩ := ubPat_spec p h
      obtain ⟨hmarks, hbinds, hlinked⟩ := ubBlock_marks rest hscope
      rw [map_enter, ← hp] at hmarks
      refine ⟨?_, ?_, ?_⟩
      · rw [ubBlock, marksStmts, marksStmts, List.map_append, List.map_append, hmarks,
          ubExpr_marks rhs h, hp, map_image_bind]
      · rw [ubBlock, List.flatMap_cons, List.flatMap_cons, List.map_append, hbinds]
        exact congrArg (· ++ _) hp
      · rw [List.flatMap_cons, enter_append]
        exact hlinked
  | .sVar b ann rhs pos :: rest, cx, scope, h => by
      have hnow := h.rebound b pos
      obtain ⟨hmarks, hbinds, hlinked⟩ := ubBlock_marks rest (h.enter_one hnow)
      have himage : [Bind.mk b.id (some pos)].map (Bind.image dups) =
          [⟨(ubRebound b pos cx).id, some pos⟩] := by rw [hnow]; rfl
      rw [map_enter, himage] at hmarks
      refine ⟨?_, ?_, ?_⟩
      · rw [ubBlock, marksStmts, marksStmts, List.map_cons, List.map_append, hmarks,
          ubExpr_marks rhs h, hnow]
        rfl
      · rw [ubBlock, List.flatMap_cons, List.flatMap_cons, List.map_append, hbinds]
        exact congrArg (· ++ _) himage.symm
      · rw [List.flatMap_cons, enter_append]
        exact hlinked
  | .other head xs :: rest, cx, scope, h => by
      obtain ⟨hmarks, hbinds, hlinked⟩ := ubBlock_marks rest h
      refine ⟨?_, hbinds, hlinked⟩
      rw [ubBlock, marksStmts, marksStmts, List.map_append, hmarks, ubAll_marks xs h]

theorem ubArms_marks : ∀ (arms : List (Arm A ℤ)) {cx : UbCx} {scope : List Bind},
    Linked dups cx scope →
    marksArms (ubArms arms cx) (scope.map (Bind.image dups)) =
      (marksArms arms scope).map (Mark.image dups)
  | [], _, _, _ => rfl
  | .arm p guard body :: rest, cx, scope, h => by
      obtain ⟨hp, hscope⟩ := ubPat_spec p h
      have hguard := ubOpt_marks guard hscope
      have hbody := ubExpr_marks body hscope
      rw [map_enter, ← hp] at hguard hbody
      rw [ubArms, marksArms, marksArms, List.map_append, List.map_append, List.map_append, hguard,
        hbody, ubArms_marks rest h, hp, map_image_bind]

theorem ubClauses_marks : ∀ (cls : List (HClause A ℤ)) {cx : UbCx} {scope : List Bind},
    Linked dups cx scope →
    marksClauses (ubClauses cls cx) (scope.map (Bind.image dups)) =
      (marksClauses cls scope).map (Mark.image dups)
  | [], _, _, _ => rfl
  | .hc op ps body pos :: rest, cx, scope, h => by
      have hbody := ubExpr_marks body (h.bindClause ps)
      rw [map_enter, ← h.clauseParams ps] at hbody
      rw [ubClauses, marksClauses, marksClauses, List.map_append, List.map_append, hbody,
        ubClauses_marks rest h, h.clauseParams ps, map_image_bind]

theorem ubReturn_marks : ∀ (oret : Option (HReturn A ℤ)) {cx : UbCx} {scope : List Bind},
    Linked dups cx scope →
    marksRet (ubReturn oret cx) (scope.map (Bind.image dups)) =
      (marksRet oret scope).map (Mark.image dups)
  | none, _, _, _ => rfl
  | some (.hr b body pos), cx, scope, h => by
      have hnow := h.rebound b pos
      have hbody := ubExpr_marks body (h.enter_one hnow)
      have himage : [Bind.mk b.id (some pos)].map (Bind.image dups) =
          [⟨(ubRebound b pos cx).id, some pos⟩] := by rw [hnow]; rfl
      rw [map_enter, himage] at hbody
      rw [ubReturn, marksRet, marksRet, List.map_cons, hbody, hnow]
      rfl

end

mutual

theorem ubExpr_erase : ∀ (e : Expr A ℤ) (cx : UbCx), (ubExpr e cx).erase = e.erase
  | .eLocal l info, cx => rfl
  | .eOp via info, cx => by
      rw [ubExpr, Expr.erase, Expr.erase]
      cases via <;> rfl
  | .eLambda ps body info, cx => by
      rw [ubExpr, Expr.erase, Expr.erase, ubExpr_erase body, List.map_map]
      congr 1
      exact List.map_congr_left fun p _ => ubParam_erase p
  | .eBlock ss tail info, cx => by
      rw [ubExpr, Expr.erase, Expr.erase, ubBlock_erase ss, ubOpt_erase tail]
  | .eMatch scrutinee arms info, cx => by
      rw [ubExpr, Expr.erase, Expr.erase, ubExpr_erase scrutinee, ubArms_erase arms]
  | .eHandle body init (some a) cls oret info, cx => by
      rw [ubExpr, Expr.erase, Expr.erase, ubExpr_erase body, ubOpt_erase init, ubClauses_erase cls,
        ubReturn_erase oret]
  | .eHandle body init none cls oret info, cx => by
      rw [ubExpr, Expr.erase, Expr.erase, ubExpr_erase body, ubOpt_erase init, ubClauses_erase cls,
        ubReturn_erase oret]
  | .other head xs, cx => by rw [ubExpr, Expr.erase, Expr.erase, ubAll_erase xs]

theorem ubAll_erase : ∀ (xs : List (Expr A ℤ)) (cx : UbCx), eraseAll (ubAll xs cx) = eraseAll xs
  | [], _ => rfl
  | x :: rest, cx => by rw [ubAll, eraseAll, eraseAll, ubExpr_erase x, ubAll_erase rest]

theorem ubOpt_erase : ∀ (x : Option (Expr A ℤ)) (cx : UbCx), eraseOpt (ubOpt x cx) = eraseOpt x
  | none, _ => rfl
  | some x, cx => by rw [ubOpt, eraseOpt, eraseOpt, ubExpr_erase x]

theorem ubBlock_erase : ∀ (ss : List (Stmt A ℤ)) (cx : UbCx),
    eraseStmts (ubBlock ss cx).1 = eraseStmts ss
  | [], _ => rfl
  | .sLet p ann rhs :: rest, cx => by
      rw [ubBlock, eraseStmts, eraseStmts, ubPat_erase p, ubExpr_erase rhs, ubBlock_erase rest]
  | .sVar b ann rhs pos :: rest, cx => by
      rw [ubBlock, eraseStmts, eraseStmts, ubRebound_erase, ubExpr_erase rhs, ubBlock_erase rest]
  | .other head xs :: rest, cx => by
      rw [ubBlock, eraseStmts, eraseStmts, ubAll_erase xs, ubBlock_erase rest]

theorem ubArms_erase : ∀ (arms : List (Arm A ℤ)) (cx : UbCx),
    eraseArms (ubArms arms cx) = eraseArms arms
  | [], _ => rfl
  | .arm p guard body :: rest, cx => by
      rw [ubArms, eraseArms, eraseArms, ubPat_erase p, ubOpt_erase guard, ubExpr_erase body,
        ubArms_erase rest]

theorem ubClauses_erase : ∀ (cls : List (HClause A ℤ)) (cx : UbCx),
    eraseClauses (ubClauses cls cx) = eraseClauses cls
  | [], _ => rfl
  | .hc op ps body pos :: rest, cx => by
      rw [ubClauses, eraseClauses, eraseClauses, ubClauseParams_erase ps, ubExpr_erase body,
        ubClauses_erase rest]

theorem ubReturn_erase : ∀ (oret : Option (HReturn A ℤ)) (cx : UbCx),
    eraseRet (ubReturn oret cx) = eraseRet oret
  | none, _ => rfl
  | some (.hr b body pos), cx => by
      rw [ubReturn, eraseRet, eraseRet, ubRebound_erase, ubExpr_erase body]

end

end Walk

end Kaikai.UniqueBinders
