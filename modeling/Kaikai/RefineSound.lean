import Kaikai.RefineMeaning

namespace Kaikai.RefinePred

open Kaikai.Str
open Kaikai.Word64 (Word)

variable {R : Type} (M : Meaning R Bool) (env : Env R)

theorem evalBinop_eq (v : Value R) (k : Word) :
    evalBinop M .eq (some v) (some (.int k)) = some (.bool (same M v (.int k))) := rfl

theorem evalBinop_ne (v : Value R) (k : Word) :
    evalBinop M .ne (some v) (some (.int k)) = some (.bool !same M v (.int k)) := rfl

theorem evalBinop_lt (x y : Word) :
    evalBinop M .lt (some (.int x)) (some (.int y)) = some (.bool (x.1 < y.1)) := rfl

theorem evalBinop_gt (x y : Word) :
    evalBinop M .gt (some (.int x)) (some (.int y)) = some (.bool (x.1 > y.1)) := rfl

theorem evalBinop_le (x y : Word) :
    evalBinop M .le (some (.int x)) (some (.int y)) = some (.bool !decide (x.1 > y.1)) := rfl

theorem evalBinop_ge (x y : Word) :
    evalBinop M .ge (some (.int x)) (some (.int y)) = some (.bool !decide (x.1 < y.1)) := rfl

theorem same_int {v : Value R} {k : Word} (h : same M v (.int k) = true) : v = .int k := by
  cases v <;> first
    | exact absurd h Bool.false_ne_true
    | exact congrArg Value.int (Subtype.ext (of_decide_eq_true h))

mutual

theorem eval_substSelfKind (w p : Str) :
    ∀ e : Pred, eval M env (substSelfKind (.name w) (.name p) e) =
      eval M (Function.update env w (env p)) e
  | .name v => by
      by_cases hv : v = w
      · subst hv
        simp [substSelfKind, pvIs, eval]
      · simp [substSelfKind, pvIs, eval, hv]
  | .int n => by simp [substSelfKind, pvIs, eval]
  | .lit b => by simp [substSelfKind, pvIs, eval]
  | .sym id inst => by simp [substSelfKind, pvIs, eval]
  | .loc id => by simp [substSelfKind, pvIs, eval]
  | .call f args => by
      simp [substSelfKind, pvIs, eval, eval_substSelfKind w p f, eval_substSelfList w p args]
  | .field base n => by simp [substSelfKind, pvIs, eval, eval_substSelfKind w p base]
  | .binop op a b => by
      simp [substSelfKind, pvIs, eval, eval_substSelfKind w p a, eval_substSelfKind w p b]
  | .unop op x => by simp [substSelfKind, pvIs, eval, eval_substSelfKind w p x]

theorem eval_substSelfList (w p : Str) :
    ∀ es : List Pred, evalList M env (substSelfList (.name w) (.name p) es) =
      evalList M (Function.update env w (env p)) es
  | [] => by simp [substSelfList, evalList]
  | e :: es => by
      simp [substSelfList, evalList, eval_substSelfKind w p e, eval_substSelfList w p es]

end

mutual

/-- The name stands in the expression. -/
def readsName (w : Str) : Pred → Bool
  | .name v => v = w
  | .call f args => readsName w f || readsNames w args
  | .field base _ => readsName w base
  | .binop _ a b => readsName w a || readsName w b
  | .unop _ x => readsName w x
  | _ => false

def readsNames (w : Str) : List Pred → Bool
  | [] => false
  | e :: es => readsName w e || readsNames w es

end

mutual

theorem eval_update_of_not_reads {w : Str} (v : Value R) :
    ∀ e : Pred, readsName w e = false → eval M (Function.update env w v) e = eval M env e
  | .name u, h => by
      have hne : u ≠ w := of_decide_eq_false h
      simp [eval, Function.update_of_ne hne]
  | .int n, _ => by simp [eval]
  | .lit b, _ => by simp [eval]
  | .sym id inst, _ => by simp [eval]
  | .loc id, _ => by simp [eval]
  | .call f args, h => by
      rw [readsName, Bool.or_eq_false_iff] at h
      rw [eval, eval, eval_update_of_not_reads v f h.1, evalList_update_of_not_reads v args h.2]
  | .field base n, h => by rw [eval, eval, eval_update_of_not_reads v base h]
  | .binop op a b, h => by
      rw [readsName, Bool.or_eq_false_iff] at h
      rw [eval, eval, eval_update_of_not_reads v a h.1, eval_update_of_not_reads v b h.2]
  | .unop op x, h => by rw [eval, eval, eval_update_of_not_reads v x h]

theorem evalList_update_of_not_reads {w : Str} (v : Value R) :
    ∀ es : List Pred, readsNames w es = false →
      evalList M (Function.update env w v) es = evalList M env es
  | [], _ => rfl
  | e :: es, h => by
      rw [readsNames, Bool.or_eq_false_iff] at h
      rw [evalList, evalList, eval_update_of_not_reads v e h.1,
        evalList_update_of_not_reads v es h.2]

end

mutual

theorem Expr.mapLit_id : ∀ e : Pred, e.mapLit id = e
  | .int _ => rfl
  | .lit _ => rfl
  | .name _ => rfl
  | .sym _ _ => rfl
  | .loc _ => rfl
  | .call f args => by rw [Expr.mapLit, Expr.mapLit_id f, mapLits_id args]
  | .field base n => by rw [Expr.mapLit, Expr.mapLit_id base]
  | .binop op a b => by rw [Expr.mapLit, Expr.mapLit_id a, Expr.mapLit_id b]
  | .unop op x => by rw [Expr.mapLit, Expr.mapLit_id x]

theorem mapLits_id : ∀ es : List Pred, mapLits id es = es
  | [] => rfl
  | e :: es => by rw [mapLits, Expr.mapLit_id e, mapLits_id es]

end

theorem eq_of_exprEq {a b : Pred} (h : exprWrittenEq a b = true) : a = b := by
  have hmap := mapLit_eq_of_exprEq (f := id) (fun l m hlm => of_decide_eq_true hlm) h
  rwa [Expr.mapLit_id, Expr.mapLit_id] at hmap

theorem evalIntOp_sound {op : BinOp} {a b k : Word}
    (h : evalIntOp op a b = some (some k)) :
    evalBinop M op (some (.int a)) (some (.int b)) = some (.int k) := by
  unfold evalIntOp at h
  cases op with
  | add => simp_all [evalBinop, binopValue, arithValue]
  | sub => simp_all [evalBinop, binopValue, arithValue]
  | mul => simp_all [evalBinop, binopValue, arithValue]
  | div =>
      simp only at h
      split_ifs at h
      · simp at h
      · simp_all [evalBinop, binopValue, arithValue]
  | mod =>
      simp only at h
      split_ifs at h
      · simp at h
      · simp_all [evalBinop, binopValue, arithValue]
  | _ => simp at h

theorem tryEvalInt_sound :
    ∀ {e : Pred} {k : Word}, tryEvalInt e = some (some k) → eval M env e = some (.int k)
  | .int n, k, h => by
      rw [tryEvalInt, Option.some.injEq, Option.some.injEq] at h
      rw [eval, h]
  | .unop .neg x, k, h => by
      rw [tryEvalInt, Option.bind_eq_bind, Option.bind_eq_some_iff] at h
      obtain ⟨v, hv, h⟩ := h
      rw [Option.some.injEq, Option.map_eq_some_iff] at h
      obtain ⟨n, rfl, rfl⟩ := h
      rw [eval, tryEvalInt_sound hv]
      rfl
  | .unop .not x, k, h => by simp [tryEvalInt] at h
  | .binop op a b, k, h => by
      rw [tryEvalInt, Option.bind_eq_bind, Option.bind_eq_some_iff] at h
      obtain ⟨av, ha, h⟩ := h
      cases av with
      | none => simp at h
      | some x =>
          obtain ⟨bv, hb, h⟩ := Option.bind_eq_some_iff.1 h
          cases bv with
          | none => simp at h
          | some y =>
              rw [eval, tryEvalInt_sound ha, tryEvalInt_sound hb]
              exact evalIntOp_sound M h
  | .lit _, k, h => by simp [tryEvalInt] at h
  | .name _, k, h => by simp [tryEvalInt] at h
  | .sym _ _, k, h => by simp [tryEvalInt] at h
  | .loc _, k, h => by simp [tryEvalInt] at h
  | .call _ _, k, h => by simp [tryEvalInt] at h
  | .field _ _, k, h => by simp [tryEvalInt] at h

theorem pvIs_name {w : Str} {e : Pred} (h : pvIs (.name w) e = true) : e = .name w := by
  cases e <;> simp [pvIs] at h
  rw [h]

def Interval.Has : Interval → Int → Prop
  | .top, _ => True
  | .bot, _ => False
  | .ival lo hi, x => lo.1 ≤ x ∧ x ≤ hi.1

theorem some_bool_iff {b : Bool} : some (.bool b : Value R) = some (.bool true) ↔ b = true := by
  rw [Option.some.injEq, Value.bool.injEq]

theorem intervalFromCmp_sound {op : BinOp} {v : Value R} {k : Word} {iv : Interval}
    (hiv : intervalFromCmp op k = some iv)
    (h : evalBinop M op (some v) (some (.int k)) = some (.bool true)) :
    ∃ x, v = .int x ∧ iv.Has x.1 := by
  have hrange : ∀ x : Word, -2 ^ 63 ≤ x.1 ∧ x.1 < 2 ^ 63 := fun x => x.2
  obtain ⟨hklow, hkhigh⟩ := hrange k
  cases op with
  | eq =>
      cases hiv
      rw [evalBinop_eq, some_bool_iff] at h
      exact ⟨k, same_int M h, le_rfl, le_rfl⟩
  | gt | ge | lt | le =>
      cases hiv
      cases v with
      | int x =>
          obtain ⟨hlow, hhigh⟩ := hrange x
          simp only [evalBinop_gt, evalBinop_ge, evalBinop_lt, evalBinop_le, some_bool_iff,
            Bool.not_eq_true', decide_eq_true_eq, decide_eq_false_iff_not] at h
          refine ⟨x, rfl, ?_⟩
          simp only [Interval.Has, ivalIntMax, ivalIntMin, Word.ofInt, Word64.wrap]
          omega
      | _ => cases h
  | _ => cases hiv

theorem decided_true {P Q : Prop} [Decidable P] [Decidable Q]
    (h : (if P then some true else if Q then some false else none) = some true) : P := by
  by_contra hP
  rw [if_neg hP] at h
  split_ifs at h
  cases h

theorem decided_false {P Q : Prop} [Decidable P] [Decidable Q]
    (h : (if P then some true else if Q then some false else none) = some false) : Q := by
  split_ifs at h with hP hQ
  · cases h
  · exact hQ

theorem checkCmp_sound {op : BinOp} {iv : Interval} {k x : Word}
    (hcheck : checkCmp op iv (.ival k k) = some true) (hx : iv.Has x.1) :
    evalBinop M op (some (.int x)) (some (.int k)) = some (.bool true) := by
  cases iv with
  | top => cases op <;> cases hcheck
  | bot => exact hx.elim
  | ival lo hi =>
      obtain ⟨hlow, hhigh⟩ := hx
      cases op with
      | gt | ge | lt | le =>
          have hends := decided_true hcheck
          simp only [evalBinop_gt, evalBinop_ge, evalBinop_lt, evalBinop_le, some_bool_iff,
            Bool.not_eq_true', decide_eq_true_eq, decide_eq_false_iff_not]
          omega
      | eq =>
          obtain ⟨hends, -, hk⟩ := decided_true hcheck
          rw [evalBinop_eq, some_bool_iff]
          exact decide_eq_true (by omega)
      | ne =>
          obtain ⟨b, heq, hb⟩ := Option.map_eq_some_iff.1 hcheck
          cases b with
          | true => cases hb
          | false =>
              have hends := decided_false heq
              rw [evalBinop_ne, some_bool_iff, Bool.not_eq_true']
              exact decide_eq_false (by omega)
      | _ => cases hcheck

theorem of_constant {α : Type} {p : Str} {a b : Pred} {f : Word → Option α} {r : α}
    (h : (if pvIs (.name p) a then do
        match ← tryEvalInt b with
        | none => some none
        | some k => some (f k)
      else some none) = some (some r)) :
    a = .name p ∧ ∃ k, tryEvalInt b = some (some k) ∧ f k = some r := by
  split_ifs at h with hp
  · obtain ⟨v, hv, h⟩ := Option.bind_eq_some_iff.1 h
    cases v with
    | none => cases h
    | some k => exact ⟨pvIs_name hp, k, hv, Option.some.inj h⟩
  · cases h

theorem predEntailedByRefinement_sound {req ref : Pred} {p : Str}
    (h : predEntailedByRefinement req (.name p) ref = some true)
    (href : eval M env ref = some (.bool true)) : eval M env req = some (.bool true) := by
  obtain ⟨iv, hiv, h⟩ := Option.bind_eq_some_iff.1 h
  cases iv with
  | none => cases h
  | some iv =>
      obtain ⟨holds, hreq, h⟩ := Option.bind_eq_some_iff.1 h
      rw [Option.some.injEq, decide_eq_true_eq] at h
      subst h
      cases ref with
      | binop op a b =>
          cases req with
          | binop op' a' b' =>
              obtain ⟨rfl, k, hk, hfrom⟩ := of_constant hiv
              obtain ⟨rfl, k', hk', hcheck⟩ := of_constant hreq
              rw [eval, eval, tryEvalInt_sound M env hk] at href
              obtain ⟨x, hx, hhas⟩ := intervalFromCmp_sound M hfrom href
              rw [eval, eval, tryEvalInt_sound M env hk', hx]
              exact checkCmp_sound M hcheck hhas
          | _ => cases hreq
      | _ => cases hiv

/-- The discharge of `req` by the refinement `ref` of the parameter `p`, the pattern arm
aside. -/
def Discharged (req : Pred) (p : Str) (ref : Pred) : Prop :=
  predEntailedByParams (fun _ _ _ => false) req [(p, ref)] = some true

/-- Whenever `ref` holds of the value of `p` for its `self`, `req` holds. -/
def Implied (req : Pred) (p : Str) (ref : Pred) : Prop :=
  ∀ (R : Type) (M : Meaning R Bool), (∀ b, M.literal b = some (.bool b)) →
    ∀ (env : Env R) (n : Word), env p = .int n →
      eval M (Function.update env predSelf (.int n)) ref = some (.bool true) →
      eval M env req = some (.bool true)

/-- A discharge is sound, except where the two are one text that reads `self`, which stands for the
parameter in the one and for a name in scope in the other. -/
theorem implied_of_discharged {req ref : Pred} {p : Str}
    (hself : exprWrittenEq req ref = true → readsName predSelf req = false ∨ p = predSelf)
    (h : Discharged req p ref) : Implied req p ref := by
  intro R M _ env n hn href
  have hsubst : eval M env (canon true (substWrittenSelf ref p)) = some (.bool true) := by
    rw [eval_canon, substWrittenSelf, pvWrittenSelf, eval_substSelfKind, hn]
    exact href
  rw [Discharged, predEntailedByParams] at h
  by_cases heq : exprWrittenEq req ref = true
  · have hreq := eq_of_exprEq heq
    subst hreq
    rcases hself heq with hfree | rfl
    · rwa [eval_update_of_not_reads M env _ req hfree] at href
    · rwa [← hn, Function.update_eq_self] at href
  · rw [if_neg heq, if_neg Bool.false_ne_true] at h
    rw [← eval_canon M env true req]
    simp only at h
    split_ifs at h with hcanon
    · rw [eq_of_exprEq hcanon]
      exact hsubst
    · obtain ⟨holds, hholds, h⟩ := Option.bind_eq_some_iff.1 h
      cases holds with
      | false => cases h
      | true => exact predEntailedByRefinement_sound M env hholds hsubst

/-- `self OP k`. -/
def selfCmp (op : BinOp) (k : Word) : Pred := .binop op (.name predSelf) (.int k)

/-- A comparison that some integers meet and some do not. -/
def Tells (op : BinOp) (k : Word) : Prop :=
  (op = .gt ∨ op = .le) ∧ k ≠ ivalIntMax ∨ (op = .lt ∨ op = .ge) ∧ k ≠ ivalIntMin ∨
    op = .eq ∨ op = .ne

/-- A program without reals, functions, fields and declared types. -/
def plainMeaning : Meaning Unit Bool where
  realLess _ _ := false
  realLe _ _ := true
  realEq _ _ := true
  realEq_comm _ _ := rfl
  order _ _ := none
  order_swap _ _ := rfl
  same _ _ := true
  same_comm _ _ := rfl
  literal b := some (.bool b)
  sym _ _ := .unit
  loc _ := .unit
  apply _ _ := none
  field _ _ := none
  arith _ _ _ := none
  unary _ _ := none

theorem eval_selfCmp (env : Env Unit) (op : BinOp) (k : Word) :
    eval plainMeaning env (selfCmp op k) =
      evalBinop plainMeaning op (some (env predSelf)) (some (.int k)) := rfl

theorem evalBinop_int (op : BinOp) (x k : Word) :
    evalBinop plainMeaning op (some (.int x)) (some (.int k)) = some (.bool true) ↔
      match op with
      | .gt => x.1 > k.1
      | .ge => x.1 ≥ k.1
      | .lt => x.1 < k.1
      | .le => x.1 ≤ k.1
      | .eq => x.1 = k.1
      | .ne => x.1 ≠ k.1
      | _ => False := by
  cases op with
  | gt => rw [evalBinop_gt, some_bool_iff, decide_eq_true_eq]
  | ge => rw [evalBinop_ge, some_bool_iff, Bool.not_eq_true', decide_eq_false_iff_not, not_lt]
  | lt => rw [evalBinop_lt, some_bool_iff, decide_eq_true_eq]
  | le => rw [evalBinop_le, some_bool_iff, Bool.not_eq_true', decide_eq_false_iff_not, not_lt]
  | eq =>
      rw [evalBinop_eq, some_bool_iff]
      exact decide_eq_true_iff
  | ne =>
      rw [evalBinop_ne, some_bool_iff, Bool.not_eq_true']
      exact decide_eq_false_iff_not
  | _ => simp [evalBinop, binopValue, arithValue, connective, plainMeaning]

theorem Tells.exists {op : BinOp} {k : Word} (h : Tells op k) :
    ∃ n m : Word,
      evalBinop plainMeaning op (some (.int n)) (some (.int k)) = some (.bool true) ∧
        evalBinop plainMeaning op (some (.int m)) (some (.int k)) ≠ some (.bool true) := by
  have hrange : -2 ^ 63 ≤ k.1 ∧ k.1 < 2 ^ 63 := k.2
  have hmax : ivalIntMax.1 = 2 ^ 63 - 1 := rfl
  have hmin : ivalIntMin.1 = -2 ^ 63 := rfl
  have hne : ∀ w : Word, k ≠ w → k.1 ≠ w.1 := fun w hk heq => hk (Subtype.ext heq)
  obtain ⟨other, hother⟩ : ∃ n : Word, n.1 ≠ k.1 := by
    by_cases hk : k.1 = ivalIntMax.1
    · exact ⟨ivalIntMin, by omega⟩
    · exact ⟨ivalIntMax, fun heq => hk heq.symm⟩
  rcases h with ⟨rfl | rfl, hk⟩ | ⟨rfl | rfl, hk⟩ | rfl | rfl
  · have hk := hne _ hk
    refine ⟨ivalIntMax, k, (evalBinop_int _ _ _).2 ?_, fun h => (evalBinop_int _ _ _).1 h |>.ne rfl⟩
    change _ > _
    omega
  · have hk := hne _ hk
    refine ⟨k, ivalIntMax, (evalBinop_int _ _ _).2 le_rfl, fun h => ?_⟩
    have hle : ivalIntMax.1 ≤ k.1 := (evalBinop_int _ _ _).1 h
    omega
  · have hk := hne _ hk
    refine ⟨ivalIntMin, k, (evalBinop_int _ _ _).2 ?_, fun h => (evalBinop_int _ _ _).1 h |>.ne rfl⟩
    change _ < _
    omega
  · have hk := hne _ hk
    refine ⟨k, ivalIntMin, (evalBinop_int _ _ _).2 le_rfl, fun h => ?_⟩
    have hge : ivalIntMin.1 ≥ k.1 := (evalBinop_int _ _ _).1 h
    omega
  · exact ⟨k, other, (evalBinop_int _ _ _).2 rfl, fun h => hother ((evalBinop_int _ _ _).1 h)⟩
  · exact ⟨other, k, (evalBinop_int _ _ _).2 hother, fun h => (evalBinop_int _ _ _).1 h rfl⟩

theorem discharged_selfCmp (op : BinOp) (k : Word) (p : Str) :
    Discharged (selfCmp op k) p (selfCmp op k) := by
  rw [Discharged, predEntailedByParams, if_pos]
  simp [exprWrittenEq, exprEq, selfCmp]

theorem Tells.not_implied {op : BinOp} {k : Word} (h : Tells op k) {p : Str} (hp : p ≠ predSelf) :
    ¬ Implied (selfCmp op k) p (selfCmp op k) := by
  intro himplied
  obtain ⟨n, m, hn, hm⟩ := h.exists
  let env : Env Unit := Function.update (fun _ => .int n) predSelf (.int m)
  have hpn : env p = .int n := Function.update_of_ne hp _ _
  have hself : env predSelf = .int m := Function.update_self _ _ _
  have hreq := himplied Unit plainMeaning (fun _ => rfl) env n hpn (by
    rw [eval_selfCmp, Function.update_self]
    exact hn)
  rw [eval_selfCmp, hself] at hreq
  exact hm hreq

/-- When a discharge is sound: where the two are one text, it must not read `self`, or `self` must be
the parameter; a comparison of `self` is sound in no other case. -/
theorem discharged_sound (p : Str) :
    (∀ req ref,
      (exprWrittenEq req ref = true → readsName predSelf req = false ∨ p = predSelf) →
        Discharged req p ref → Implied req p ref) ∧
      ∀ op k, Tells op k →
        ((Discharged (selfCmp op k) p (selfCmp op k) →
            Implied (selfCmp op k) p (selfCmp op k)) ↔ p = predSelf) := by
  refine ⟨fun req ref hself h => implied_of_discharged hself h, fun op k h => ?_⟩
  constructor
  · intro hsound
    by_contra hp
    exact h.not_implied hp (hsound (discharged_selfCmp op k p))
  · exact fun hp => implied_of_discharged fun _ => .inr hp

/-- `x >= 0` for `x : Int where self > -1`, by the intervals of the two. -/
theorem discharged_sound_interval :
    Discharged (.binop .ge (.name (ascii "x")) (.int (.ofInt 0))) (ascii "x")
        (selfCmp .gt (.ofInt (-1))) ∧
      Implied (.binop .ge (.name (ascii "x")) (.int (.ofInt 0))) (ascii "x")
        (selfCmp .gt (.ofInt (-1))) := by
  have hdischarged : Discharged (.binop .ge (.name (ascii "x")) (.int (.ofInt 0))) (ascii "x")
      (selfCmp .gt (.ofInt (-1))) := by
    rw [Discharged]
    decide
  exact ⟨hdischarged, (discharged_sound (ascii "x")).1 _ _ (by decide) hdischarged⟩

/-- The requirement `self > 0` of a method, and a parameter `x : Int where self > 0`. -/
theorem discharged_not_sound_self :
    Discharged (selfCmp .gt (.ofInt 0)) (ascii "x") (selfCmp .gt (.ofInt 0)) ∧
      ¬ Implied (selfCmp .gt (.ofInt 0)) (ascii "x") (selfCmp .gt (.ofInt 0)) := by
  have htells : Tells .gt (.ofInt 0) := .inl ⟨.inl rfl, by decide⟩
  exact ⟨discharged_selfCmp _ _ _, htells.not_implied (by decide)⟩

end Kaikai.RefinePred
