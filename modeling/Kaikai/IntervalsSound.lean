import Mathlib.Algebra.Order.Group.MinMax
import Kaikai.Intervals

namespace Kaikai.Intervals

open Kaikai.RefinePred (BinOp UnOp Interval localEq ivalLt ivalLe ivalGt ivalGe ivalEq ivalNe)
open Kaikai.Word64 (Word wrap)

section Bands

variable {low high t : ℤ}

theorem OneBand.shift (h : OneBand low high) (hlow : low ≤ t) (hhigh : t ≤ high) :
    wrap t = t + (wrap low - low) := by
  unfold OneBand wrap at *
  omega

theorem OneBand.mem (h : OneBand low high) (hlow : low ≤ t) (hhigh : t ≤ high) :
    wrap low ≤ wrap t ∧ wrap t ≤ wrap high := by
  have ht := h.shift hlow hhigh
  have hh := h.shift (hlow.trans hhigh) le_rfl
  omega

theorem exists_outside (hle : low ≤ high) (hlow : -2 ^ 64 ≤ low) (hhigh : high ≤ 2 ^ 64)
    (h : ¬ OneBand low high) :
    ∃ t, low ≤ t ∧ t ≤ high ∧ ¬ (wrap low ≤ wrap t ∧ wrap t ≤ wrap high) := by
  by_contra hno
  have hin : ∀ t, low ≤ t → t ≤ high → wrap low ≤ wrap t ∧ wrap t ≤ wrap high := by
    intro t ht ht'
    by_contra hout
    exact hno ⟨t, ht, ht', hout⟩
  -- the last integer of a band and the first one of the next wrap to the ends of the type
  have h1 := hin (2 ^ 63 - 1)
  have h2 := hin (2 ^ 63)
  have h3 := hin (-2 ^ 63 - 1)
  have h4 := hin (-2 ^ 63)
  unfold OneBand wrap at *
  omega

theorem mul_between {a b x : ℤ} (hax : a ≤ x) (hxb : x ≤ b) (y : ℤ) :
    min (a * y) (b * y) ≤ x * y ∧ x * y ≤ max (a * y) (b * y) := by
  obtain hy | hy := le_total 0 y
  · exact ⟨(min_le_left _ _).trans (mul_le_mul_of_nonneg_right hax hy),
      (mul_le_mul_of_nonneg_right hxb hy).trans (le_max_right _ _)⟩
  · exact ⟨(min_le_right _ _).trans (mul_le_mul_of_nonpos_right hxb hy),
      (mul_le_mul_of_nonpos_right hax hy).trans (le_max_left _ _)⟩

theorem exactEnds_mul {alo ahi blo bhi x y : ℤ} (hx : alo ≤ x ∧ x ≤ ahi) (hy : blo ≤ y ∧ y ≤ bhi) :
    (exactEnds .mul alo ahi blo bhi).1 ≤ x * y ∧ x * y ≤ (exactEnds .mul alo ahi blo bhi).2 := by
  have hxy := mul_between hx.1 hx.2 y
  have hlo := mul_between hy.1 hy.2 alo
  have hhi := mul_between hy.1 hy.2 ahi
  rw [mul_comm blo, mul_comm bhi, mul_comm y] at hlo hhi
  exact ⟨(min_le_min hlo.1 hhi.1).trans hxy.1, hxy.2.trans (max_le_max hlo.2 hhi.2)⟩

end Bands

section Lattice

variable {a b : Interval} {v w u : Value} {op : BinOp} {M : Meaning}

theorem contains_ival {lo hi : Word} (h : Contains (.ival lo hi) v) :
    ∃ n, v = .int n ∧ lo.1 ≤ n.1 ∧ n.1 ≤ hi.1 := by
  cases v with
  | int n => exact ⟨n, rfl, h⟩
  | _ => cases h

theorem ivalIntMin_val (x y : Word) : (ivalIntMin x y).1 = min x.1 y.1 := by
  rw [ivalIntMin]
  split_ifs with h
  · exact (min_eq_left h.le).symm
  · exact (min_eq_right (not_lt.1 h)).symm

theorem ivalIntMax_val (x y : Word) : (ivalIntMax x y).1 = max x.1 y.1 := by
  rw [ivalIntMax]
  split_ifs with h
  · exact (max_eq_left h.le).symm
  · exact (max_eq_right (not_lt.1 h)).symm

theorem contains_join_left (h : Contains a v) (b : Interval) : Contains (ivalJoin a b) v := by
  cases a with
  | bot => exact h.elim
  | top => trivial
  | ival alo ahi =>
      cases b with
      | bot => exact h
      | top => trivial
      | ival blo bhi =>
          obtain ⟨n, rfl, hlo, hhi⟩ := contains_ival h
          change (ivalIntMin alo blo).1 ≤ n.1 ∧ n.1 ≤ (ivalIntMax ahi bhi).1
          rw [ivalIntMin_val, ivalIntMax_val]
          exact ⟨(min_le_left _ _).trans hlo, hhi.trans (le_max_left _ _)⟩

theorem contains_join_right (a : Interval) (h : Contains b v) : Contains (ivalJoin a b) v := by
  cases a with
  | bot => exact h
  | top => trivial
  | ival alo ahi =>
      cases b with
      | bot => exact h.elim
      | top => trivial
      | ival blo bhi =>
          obtain ⟨n, rfl, hlo, hhi⟩ := contains_ival h
          change (ivalIntMin alo blo).1 ≤ n.1 ∧ n.1 ≤ (ivalIntMax ahi bhi).1
          rw [ivalIntMin_val, ivalIntMax_val]
          exact ⟨(min_le_right _ _).trans hlo, hhi.trans (le_max_right _ _)⟩

/-- The exact result of an operation on two integers. -/
def exactValue (op : BinOp) (x y : ℤ) : ℤ :=
  match op with
  | .add => x + y
  | .sub => x - y
  | _ => x * y

theorem arithValue_int (hop : isArith op) (x y : Word) :
    arithValue M op (.int x) (.int y) = some (.int (.ofInt (exactValue op x.1 y.1))) := by
  obtain rfl | rfl | rfl := hop <;> rfl

theorem exactEnds_bounds (hop : isArith op) {alo ahi blo bhi x y : ℤ} (hx : alo ≤ x ∧ x ≤ ahi)
    (hy : blo ≤ y ∧ y ≤ bhi) :
    (exactEnds op alo ahi blo bhi).1 ≤ exactValue op x y ∧
      exactValue op x y ≤ (exactEnds op alo ahi blo bhi).2 := by
  obtain rfl | rfl | rfl := hop
  · exact ⟨Int.add_le_add hx.1 hy.1, Int.add_le_add hx.2 hy.2⟩
  · exact ⟨Int.sub_le_sub hx.1 hy.2, Int.sub_le_sub hx.2 hy.1⟩
  · exact exactEnds_mul hx hy

theorem contains_exactRange (hop : isArith op) (ha : Contains a v) (hb : Contains b w)
    (h : Unbroken op a b) (hu : arithValue M op v w = some u) : Contains (exactRange op a b) u := by
  cases a with
  | bot => exact ha.elim
  | top =>
      cases b with
      | bot => exact hb.elim
      | top => trivial
      | ival blo bhi => trivial
  | ival alo ahi =>
      cases b with
      | bot => exact hb.elim
      | top => trivial
      | ival blo bhi =>
          obtain ⟨x, rfl, hx⟩ := contains_ival ha
          obtain ⟨y, rfl, hy⟩ := contains_ival hb
          rw [arithValue_int hop] at hu
          cases hu
          obtain ⟨hlo, hhi⟩ := exactEnds_bounds hop hx hy
          exact OneBand.mem h hlo hhi

theorem wrap_four {p1 p2 p3 p4 : ℤ}
    (h : OneBand (min (min p1 p2) (min p3 p4)) (max (max p1 p2) (max p3 p4))) :
    min (min (wrap p1) (wrap p2)) (min (wrap p3) (wrap p4)) =
        wrap (min (min p1 p2) (min p3 p4)) ∧
      max (max (wrap p1) (wrap p2)) (max (wrap p3) (wrap p4)) =
        wrap (max (max p1 p2) (max p3 p4)) := by
  have hp1 := h.shift (t := p1) (by simp) (by simp)
  have hp2 := h.shift (t := p2) (by simp) (by simp)
  have hp3 := h.shift (t := p3) (by simp) (by simp)
  have hp4 := h.shift (t := p4) (by simp) (by simp)
  have hmin := h.shift le_rfl (by simp)
  have hmax := h.shift (by simp) le_rfl
  generalize wrap (min (min p1 p2) (min p3 p4)) - min (min p1 p2) (min p3 p4) = k at *
  rw [hp1, hp2, hp3, hp4, hmin, hmax]
  simp only [min_add_add_right, max_add_add_right, and_self]

theorem ivalOfBinop_eq (hop : isArith op) (h : Unbroken op a b) :
    ivalOfBinop op a b = exactRange op a b := by
  obtain rfl | rfl | rfl := hop
  · rfl
  · rfl
  · cases a with
    | bot => rfl
    | top => cases b <;> rfl
    | ival alo ahi =>
        cases b with
        | bot => rfl
        | top => rfl
        | ival blo bhi =>
            obtain ⟨hmin, hmax⟩ := wrap_four h
            change Interval.ival _ _ = Interval.ival _ _
            congr 1
            · apply Subtype.ext
              rw [ivalIntMin_val, ivalIntMin_val, ivalIntMin_val]
              exact hmin
            · apply Subtype.ext
              rw [ivalIntMax_val, ivalIntMax_val, ivalIntMax_val]
              exact hmax

theorem ivalOfUnop_neg (a : Interval) :
    ivalOfUnop .neg a = exactRange .sub (.ival (.ofInt 0) (.ofInt 0)) a := by
  cases a <;> rfl

theorem contains_neg (ha : Contains a v)
    (h : Unbroken .sub (.ival (.ofInt 0) (.ofInt 0)) a) (hu : evalUnop M .neg v = some u) :
    Contains (exactRange .sub (.ival (.ofInt 0) (.ofInt 0)) a) u := by
  cases a with
  | bot => exact ha.elim
  | top => trivial
  | ival lo hi =>
      obtain ⟨x, rfl, hx⟩ := contains_ival ha
      refine contains_exactRange (M := M) (v := .int (.ofInt 0)) (.inr (.inl rfl))
        ⟨le_rfl, le_rfl⟩ (show Contains (.ival lo hi) (.int x) from hx) h ?_
      rw [arithValue_int (.inr (.inl rfl))]
      exact hu

end Lattice

section Locals

variable {env : IntervalEnv} {ρ ρ1 : Env} {v : Value} {iv : Interval}

theorem localEq_iff {k l : Int} : localEq k l = true ↔ k ≠ 0 ∧ k = l := by
  rw [localEq, Bool.and_eq_true, decide_eq_true_eq, decide_eq_true_eq]

theorem within_extend (h : Within env ρ) (hv : Contains iv v) (l : Int) :
    Within (ieExtend env l iv) (Function.update ρ l v) := by
  intro m
  rw [ieExtend, ieLookup]
  split_ifs with heq
  · rw [← (localEq_iff.1 heq).2, Function.update_self]
    exact hv
  · by_cases hm : m = l
    · subst hm
      have hzero : ieLookup env m = .top := by
        have hm0 : m = 0 := by
          by_contra hne
          exact heq (localEq_iff.2 ⟨hne, rfl⟩)
        subst hm0
        clear h heq hv
        induction env with
        | nil => rfl
        | cons b env ih =>
            rw [ieLookup, if_neg, ih]
            intro hb
            obtain ⟨hne, hb0⟩ := localEq_iff.1 hb
            exact hne hb0
      rw [hzero]
      trivial
    · rw [Function.update_of_ne hm]
      exact h m

theorem within_bindAll {ls : List Int} {vs : List Value} (h : Within env ρ)
    (hfresh : ∀ l ∈ ls, ieLookup env l = .top) : Within env (bindAll ls vs ρ) := by
  induction ls generalizing vs ρ with
  | nil => exact h
  | cons l ls ih =>
      cases vs with
      | nil => exact h
      | cons v vs =>
          obtain ⟨hl, hls⟩ := List.forall_mem_cons.1 hfresh
          refine ih (fun m => ?_) hls
          by_cases hm : m = l
          · subst hm
            rw [hl]
            trivial
          · rw [Function.update_of_ne hm]
            exact h m

theorem within_bindPat {M : Meaning} {pat : Pattern} (h : Within env ρ) (hfresh : Fresh pat env)
    (hbind : bindPat M pat v ρ = some ρ1) : Within env ρ1 := by
  cases pat with
  | bind l =>
      cases hbind
      exact @within_bindAll _ _ [l] [v] h hfresh
  | other kind ls =>
      obtain ⟨vs, _, rfl⟩ := Option.map_eq_some_iff.1 hbind
      exact within_bindAll h hfresh

end Locals

mutual

theorem Steady.spec : ∀ {env : IntervalEnv} {e : Expr} {iv : Interval}, Steady env e iv →
    ivalOfExpr e env = iv ∧ ∀ (M : Meaning) (ρ : Env) (v : Value), Within env ρ →
      eval M e ρ = some v → Contains iv v
  | _, _, _, .int _ n => ⟨rfl, fun M ρ v _ hv => by
      cases hv
      exact ⟨le_rfl, le_rfl⟩⟩
  | _, _, _, .loc _ l => ⟨rfl, fun M ρ v hρ hv => by
      cases hv
      exact hρ l⟩
  | env, .binop op a b, _, .arith hop ha hb h => by
      obtain ⟨haiv, ha⟩ := ha.spec
      obtain ⟨hbiv, hb⟩ := hb.spec
      refine ⟨?_, fun M ρ v hρ hv => ?_⟩
      · rw [ivalOfExpr, haiv, hbiv, ivalOfBinop_eq hop h]
      · rw [eval, evalBinop, if_pos hop] at hv
        obtain ⟨va, hva, hv⟩ := Option.bind_eq_some_iff.1 hv
        obtain ⟨vb, hvb, hv⟩ := Option.bind_eq_some_iff.1 hv
        exact contains_exactRange hop (ha M ρ va hρ hva) (hb M ρ vb hρ hvb) h hv
  | env, .binop op a b, _, .binop _ hop _ _ => by
      refine ⟨?_, fun M ρ v _ _ => trivial⟩
      rw [ivalOfExpr]
      cases op <;> first | rfl | exact absurd (by decide) hop
  | env, .unop _ x, _, .neg hx h => by
      obtain ⟨hxiv, hx⟩ := hx.spec
      refine ⟨?_, fun M ρ v hρ hv => ?_⟩
      · rw [ivalOfExpr, hxiv, ivalOfUnop_neg]
      · rw [eval] at hv
        obtain ⟨vx, hvx, hv⟩ := Option.bind_eq_some_iff.1 hv
        exact contains_neg (hx M ρ vx hρ hvx) h hv
  | _, _, _, .not _ x => ⟨rfl, fun _ _ _ _ _ => trivial⟩
  | _, _, _, .condUnit _ c t => ⟨rfl, fun _ _ _ _ _ => trivial⟩
  | env, .cond c t (some e), _, .cond _ ht he => by
      obtain ⟨htiv, ht⟩ := ht.spec
      obtain ⟨heiv, he⟩ := he.spec
      refine ⟨?_, fun M ρ v hρ hv => ?_⟩
      · rw [ivalOfExpr, htiv, heiv]
      · rw [eval] at hv
        split at hv
        · exact contains_join_left (ht M ρ v hρ hv) _
        · exact contains_join_right _ (he M ρ v hρ hv)
        · cases hv
  | env, .matching scr arms, _, .matching _ h => by
      obtain ⟨hiv, _, harms⟩ := h.spec
      refine ⟨?_, fun M ρ v hρ hv => ?_⟩
      · rw [ivalOfExpr, hiv]
      · rw [eval] at hv
        split at hv
        · cases hv
        · exact harms M ρ _ v hρ hv
  | _, _, _, .blockUnit _ stmts => ⟨rfl, fun _ _ _ _ _ => trivial⟩
  | env, .block stmts (some e), _, .block h he => by
      obtain ⟨henv, hstmts⟩ := h.spec
      obtain ⟨heiv, he⟩ := he.spec
      refine ⟨?_, fun M ρ v hρ hv => ?_⟩
      · rw [ivalOfExpr, henv, heiv]
      · rw [eval] at hv
        split at hv
        · cases hv
        · rename_i ρ1 hρ1
          exact he M ρ1 v (hstmts M ρ ρ1 hρ hρ1) hv
  | _, _, _, .other _ kind => ⟨rfl, fun _ _ _ _ _ => trivial⟩

theorem SteadyArms.spec : ∀ {env : IntervalEnv} {arms : List Arm} {acc iv : Interval},
    SteadyArms env arms acc iv →
    ivalOfMatchLoop arms env acc = iv ∧ (∀ v, Contains acc v → Contains iv v) ∧
      ∀ (M : Meaning) (ρ : Env) (s v : Value), Within env ρ → evalArms M arms s ρ = some v →
        Contains iv v
  | _, _, _, _, .nil _ acc => ⟨rfl, fun _ h => h, fun M ρ s v _ hv => by cases hv⟩
  | env, .arm pat guard body :: rest, acc, _, .cons _ hpat hbody hrest => by
      obtain ⟨hbiv, hbody⟩ := hbody.spec
      obtain ⟨hiv, hgrow, hrest⟩ := hrest.spec
      refine ⟨?_, fun v hv => hgrow v (contains_join_left hv _), fun M ρ s v hρ hv => ?_⟩
      · rw [ivalOfMatchLoop, hbiv, hiv]
      · have hhere : ∀ ρ1, bindPat M pat s ρ = some ρ1 → eval M body ρ1 = some v → Contains _ v :=
          fun ρ1 hbind hv =>
            hgrow v (contains_join_right acc (hbody M ρ1 v (within_bindPat hρ hpat hbind) hv))
        cases guard with
        | none =>
            rw [evalArms] at hv
            split at hv
            · exact hrest M ρ s v hρ hv
            · rename_i ρ1 hbind
              exact hhere ρ1 hbind hv
        | some guard =>
            rw [evalArms] at hv
            split at hv
            · exact hrest M ρ s v hρ hv
            · rename_i ρ1 hbind
              split at hv
              · exact hhere ρ1 hbind hv
              · exact hrest M ρ s v hρ hv
              · cases hv

theorem SteadyStmts.spec : ∀ {env env1 : IntervalEnv} {stmts : List Stmt},
    SteadyStmts env stmts env1 →
    ivalThreadStmts stmts env = env1 ∧ ∀ (M : Meaning) (ρ ρ1 : Env), Within env ρ →
      evalStmts M stmts ρ = some ρ1 → Within env1 ρ1
  | _, _, _, .nil _ => ⟨rfl, fun M ρ ρ1 hρ h => by
      cases h
      exact hρ⟩
  | env, _, .letIn (.bind _) e :: rest, .bind l he hrest => by
      obtain ⟨heiv, he⟩ := he.spec
      obtain ⟨henv, hrest⟩ := hrest.spec
      refine ⟨?_, fun M ρ ρ1 hρ h => ?_⟩
      · rw [ivalThreadStmts, heiv]
        exact henv
      · rw [evalStmts] at h
        split at h
        · cases h
        · rename_i v hv
          exact hrest M _ ρ1 (within_extend hρ (he M ρ v hρ hv) l) h
  | env, _, .letIn (.other kind ls) e :: rest, .letIn _ hpat hrest => by
      obtain ⟨henv, hrest⟩ := hrest.spec
      refine ⟨?_, fun M ρ ρ1 hρ h => ?_⟩
      · rw [ivalThreadStmts]
        exact henv
      · rw [evalStmts] at h
        split at h
        · cases h
        · split at h
          · cases h
          · rename_i v hv ρ2 hbind
            exact hrest M ρ2 ρ1 (within_bindPat hρ hpat hbind) h
  | env, _, .run e :: rest, .run _ hrest => by
      obtain ⟨henv, hrest⟩ := hrest.spec
      refine ⟨?_, fun M ρ ρ1 hρ h => ?_⟩
      · rw [ivalThreadStmts]
        exact henv
      · rw [evalStmts] at h
        split at h
        · cases h
        · exact hrest M ρ ρ1 hρ h

end

theorem answer_iff {P Q R : Prop} [Decidable P] [Decidable Q] {t : Bool} (hyes : P → R)
    (hno : Q → ¬ R)
    (h : (if P then some true else if Q then some false else none) = some t) : R ↔ t = true := by
  split_ifs at h with hP hQ
  · cases h
    simpa using hyes hP
  · cases h
    simpa using hno hQ

theorem not_answer_iff {R : Prop} {o : Option Bool} {t : Bool}
    (hright : ∀ b, o = some b → (R ↔ b = true)) (h : o.map not = some t) : ¬ R ↔ t = true := by
  cases o with
  | none => cases h
  | some b =>
      cases h
      rw [hright b rfl]
      cases b <;> simp

theorem compares_ival (alo ahi blo bhi : Word) :
    Compares (.ival alo ahi) (.ival blo bhi) := by
  intro x y t hx hy
  obtain ⟨hxlo, hxhi⟩ : alo.1 ≤ x.1 ∧ x.1 ≤ ahi.1 := hx
  obtain ⟨hylo, hyhi⟩ : blo.1 ≤ y.1 ∧ y.1 ≤ bhi.1 := hy
  have heq : ∀ b, ivalEq (.ival alo ahi) (.ival blo bhi) = some b → (x = y ↔ b = true) :=
    fun b => answer_iff (fun h => Subtype.ext (by omega)) (fun h hxy => by subst hxy; omega)
  refine ⟨answer_iff ?_ ?_, answer_iff ?_ ?_, answer_iff ?_ ?_, answer_iff ?_ ?_, heq t,
    not_answer_iff heq⟩
  all_goals
    intro h
    omega

theorem compares (a b : Interval) : Compares a b := by
  cases a with
  | bot => exact fun x y t hx hy => hx.elim
  | top =>
      cases b with
      | bot => exact fun x y t hx hy => hy.elim
      | top => exact fun x y t hx hy => by simp [ivalLt, ivalLe, ivalGt, ivalGe, ivalEq, ivalNe]
      | ival blo bhi =>
          exact fun x y t hx hy => by simp [ivalLt, ivalLe, ivalGt, ivalGe, ivalEq, ivalNe]
  | ival alo ahi =>
      cases b with
      | bot => exact fun x y t hx hy => hy.elim
      | top => exact fun x y t hx hy => by simp [ivalLt, ivalLe, ivalGt, ivalGe, ivalEq, ivalNe]
      | ival blo bhi => exact compares_ival alo ahi blo bhi

section Ends

variable {op : BinOp} {alo ahi blo bhi : Word}

theorem exists_operands (hop : op = .add ∨ op = .sub) (ha : alo.1 ≤ ahi.1) (hb : blo.1 ≤ bhi.1)
    {t : ℤ} (hlow : (exactEnds op alo.1 ahi.1 blo.1 bhi.1).1 ≤ t)
    (hhigh : t ≤ (exactEnds op alo.1 ahi.1 blo.1 bhi.1).2) :
    ∃ x y : Word, (alo.1 ≤ x.1 ∧ x.1 ≤ ahi.1) ∧ (blo.1 ≤ y.1 ∧ y.1 ≤ bhi.1) ∧
      exactValue op x.1 y.1 = t := by
  have hwords : ∀ z : ℤ, alo.1 ≤ z → z ≤ ahi.1 → ∃ x : Word, x.1 = z := fun z hlo hhi =>
    ⟨⟨z, alo.2.1.trans hlo, hhi.trans_lt ahi.2.2⟩, rfl⟩
  have hwords' : ∀ z : ℤ, blo.1 ≤ z → z ≤ bhi.1 → ∃ x : Word, x.1 = z := fun z hlo hhi =>
    ⟨⟨z, blo.2.1.trans hlo, hhi.trans_lt bhi.2.2⟩, rfl⟩
  obtain rfl | rfl := hop
  · change alo.1 + blo.1 ≤ t at hlow
    change t ≤ ahi.1 + bhi.1 at hhigh
    obtain ⟨x, hx⟩ := hwords (min ahi.1 (t - blo.1)) (by omega) (by omega)
    obtain ⟨y, hy⟩ := hwords' (t - min ahi.1 (t - blo.1)) (by omega) (by omega)
    refine ⟨x, y, by omega, by omega, ?_⟩
    change x.1 + y.1 = t
    omega
  · change alo.1 - bhi.1 ≤ t at hlow
    change t ≤ ahi.1 - blo.1 at hhigh
    obtain ⟨x, hx⟩ := hwords (min ahi.1 (t + bhi.1)) (by omega) (by omega)
    obtain ⟨y, hy⟩ := hwords' (min ahi.1 (t + bhi.1) - t) (by omega) (by omega)
    refine ⟨x, y, by omega, by omega, ?_⟩
    change x.1 - y.1 = t
    omega

theorem exists_escape (hop : op = .add ∨ op = .sub) (ha : alo.1 ≤ ahi.1) (hb : blo.1 ≤ bhi.1)
    (h : ¬ Unbroken op (.ival alo ahi) (.ival blo bhi)) :
    ∃ x y : Word, (alo.1 ≤ x.1 ∧ x.1 ≤ ahi.1) ∧ (blo.1 ≤ y.1 ∧ y.1 ≤ bhi.1) ∧
      ¬ Contains (ivalOfBinop op (.ival alo ahi) (.ival blo bhi))
        (.int (.ofInt (exactValue op x.1 y.1))) := by
  have ha1 := alo.2
  have ha2 := ahi.2
  have hb1 := blo.2
  have hb2 := bhi.2
  unfold Word64.InRange at ha1 ha2 hb1 hb2
  have hends : (exactEnds op alo.1 ahi.1 blo.1 bhi.1).1 ≤ (exactEnds op alo.1 ahi.1 blo.1 bhi.1).2 ∧
      -2 ^ 64 ≤ (exactEnds op alo.1 ahi.1 blo.1 bhi.1).1 ∧
      (exactEnds op alo.1 ahi.1 blo.1 bhi.1).2 ≤ 2 ^ 64 := by
    obtain rfl | rfl := hop
    · change alo.1 + blo.1 ≤ ahi.1 + bhi.1 ∧ -2 ^ 64 ≤ alo.1 + blo.1 ∧ ahi.1 + bhi.1 ≤ 2 ^ 64
      omega
    · change alo.1 - bhi.1 ≤ ahi.1 - blo.1 ∧ -2 ^ 64 ≤ alo.1 - bhi.1 ∧ ahi.1 - blo.1 ≤ 2 ^ 64
      omega
  obtain ⟨t, hlow, hhigh, hout⟩ := exists_outside hends.1 hends.2.1 hends.2.2 h
  obtain ⟨x, y, hx, hy, hxy⟩ := exists_operands hop ha hb hlow hhigh
  refine ⟨x, y, hx, hy, fun hin => hout ?_⟩
  rw [hxy] at hin
  obtain rfl | rfl := hop
  · exact hin
  · exact hin

/-- A program whose other operators and patterns have no meaning. -/
def bareMeaning : Meaning where
  arith := fun _ _ _ => none
  op := fun _ _ _ => none
  unop := fun _ _ => none
  fits := fun _ _ => none
  other := fun _ _ => none

theorem sound_binop_iff (hop : op = .add ∨ op = .sub) (ha : alo.1 ≤ ahi.1) (hb : blo.1 ≤ bhi.1) :
    Sound (.binop op (.loc 1) (.loc 2)) [(1, .ival alo ahi), (2, .ival blo bhi)] ↔
      Unbroken op (.ival alo ahi) (.ival blo bhi) := by
  have harith : isArith op := hop.elim .inl fun h => .inr (.inl h)
  constructor
  · intro hsound
    by_contra h
    obtain ⟨x, y, hx, hy, hout⟩ := exists_escape hop ha hb h
    refine hout (hsound bareMeaning (fun l => if l = 1 then .int x else .int y) _ (fun l => ?_) ?_)
    · by_cases hl : l = 1
      · subst hl
        exact hx
      · have h1 : ¬ localEq 1 l := fun h1 => hl (localEq_iff.1 h1).2.symm
        rw [ieLookup, if_neg h1, ieLookup]
        split_ifs with h2
        · obtain rfl := (localEq_iff.1 h2).2
          exact hy
        · trivial
    · rw [eval, evalBinop, if_pos harith]
      exact arithValue_int harith x y
  · intro h
    have hsteady := Steady.arith harith (Steady.loc [(1, .ival alo ahi), (2, .ival blo bhi)] 1)
      (Steady.loc _ 2) h
    obtain ⟨hiv, hspec⟩ := hsteady.spec
    intro M ρ v hρ hv
    rw [hiv]
    exact hspec M ρ v hρ hv

theorem sound_neg_iff (ha : alo.1 ≤ ahi.1) :
    Sound (.unop .neg (.loc 1)) [(1, .ival alo ahi)] ↔
      Unbroken .sub (.ival (.ofInt 0) (.ofInt 0)) (.ival alo ahi) := by
  constructor
  · intro hsound
    by_contra h
    obtain ⟨x, y, hx, hy, hout⟩ := exists_escape (Or.inr rfl) (le_refl _) ha h
    have hx0 : x.1 = 0 := le_antisymm hx.2 hx.1
    refine hout (hsound bareMeaning (fun _ => .int y) _ (fun l => ?_) ?_)
    · rw [ieLookup]
      split_ifs
      · exact hy
      · trivial
    · change some (Value.int (Word.ofInt (0 - y.1))) = some (.int (.ofInt (x.1 - y.1)))
      rw [hx0]
  · intro h
    obtain ⟨hiv, hspec⟩ := (Steady.neg (Steady.loc [(1, .ival alo ahi)] 1) h).spec
    intro M ρ v hρ hv
    rw [hiv]
    exact hspec M ρ v hρ hv

end Ends

/-- Every expression whose operations stay in one band each, and whose patterns bind fresh locals,
evaluates within its interval, and the comparisons are right; a sum, a difference or a negation of
locals that leaves its band escapes. -/
theorem sound_of_steady (env : IntervalEnv) (e : Expr) (iv : Interval) (h : Steady env e iv)
    (a b : Interval) (op : BinOp) (hop : op = .add ∨ op = .sub) (alo ahi blo bhi : Word)
    (ha : alo.1 ≤ ahi.1) (hb : blo.1 ≤ bhi.1) :
    (ivalOfExpr e env = iv ∧ Sound e env) ∧ Compares a b ∧
    (Sound (.binop op (.loc 1) (.loc 2)) [(1, .ival alo ahi), (2, .ival blo bhi)] ↔
      Unbroken op (.ival alo ahi) (.ival blo bhi)) ∧
    (Sound (.unop .neg (.loc 1)) [(1, .ival alo ahi)] ↔
      Unbroken .sub (.ival (.ofInt 0) (.ofInt 0)) (.ival alo ahi)) := by
  obtain ⟨hiv, hspec⟩ := h.spec
  refine ⟨⟨hiv, fun M ρ v hρ hv => ?_⟩, compares a b, sound_binop_iff hop ha hb, sound_neg_iff ha⟩
  rw [hiv]
  exact hspec M ρ v hρ hv

/-- The product of two negated locals, in a block. -/
theorem sound_product :
    (ivalOfExpr (.block [.letIn (.bind 2) (.unop .neg (.loc 1))]
        (some (.binop .mul (.loc 1) (.loc 2)))) [(1, .ival (.ofInt (-3)) (.ofInt 5))] =
        .ival (.ofInt (-25)) (.ofInt 15) ∧
      Sound (.block [.letIn (.bind 2) (.unop .neg (.loc 1))]
        (some (.binop .mul (.loc 1) (.loc 2)))) [(1, .ival (.ofInt (-3)) (.ofInt 5))]) ∧
    Compares .top .bot ∧
    (Sound (.binop .add (.loc 1) (.loc 2))
        [(1, .ival (.ofInt 0) (.ofInt 1)), (2, .ival (.ofInt 0) (.ofInt 1))] ↔
      Unbroken .add (.ival (.ofInt 0) (.ofInt 1)) (.ival (.ofInt 0) (.ofInt 1))) ∧
    (Sound (.unop .neg (.loc 1)) [(1, .ival (.ofInt 0) (.ofInt 1))] ↔
      Unbroken .sub (.ival (.ofInt 0) (.ofInt 0)) (.ival (.ofInt 0) (.ofInt 1))) :=
  sound_of_steady _ _ _
    (.block (.bind 2 (.neg (.loc _ 1) (by decide)) (.nil _))
      (.arith (.inr (.inr rfl)) (.loc _ 1) (.loc _ 2) (by decide)))
    _ _ .add (.inl rfl) _ _ _ _ (by decide) (by decide)

/-- The sum of a local at the top of the type and one that is `0` or `1` escapes. -/
theorem not_sound_add :
    ¬ Sound (.binop .add (.loc 1) (.loc 2))
      [(1, .ival (.ofInt 0) (.ofInt 9223372036854775807)), (2, .ival (.ofInt 0) (.ofInt 1))] := by
  rw [sound_binop_iff (Or.inl rfl) (by decide) (by decide)]
  decide

end Kaikai.Intervals
