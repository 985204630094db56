import Kaikai.RefineMeaning

namespace Kaikai.RefineCanon

open Kaikai.RefinePred
open Kaikai.Str

/-- The literals beside the integers: a real by its bits, a number of fixed width or of none by its
text, and in `other` each kind that predicates do not use. -/
inductive Literal where
  | real (bits : BitVec 64)
  | fixed (span : Str) (width : ℕ)
  | big (span : Str)
  | decimal (span : Str)
  | bool (b : Bool)
  | char (c : ℕ)
  | str (span : Str)
  | unit
  | other (kind : ℕ)
deriving DecidableEq, Repr

/-- `expr_lit_eq`, which takes no note of a width, and finds nothing equal to a number of none. -/
def litEq : Literal → Literal → Bool
  | .real av, .real bv => av = bv
  | .fixed sa _, .fixed sb _ => sa = sb
  | .bool av, .bool bv => av = bv
  | .char av, .char bv => av = bv
  | .str av, .str bv => av = bv
  | .unit, .unit => true
  | _, _ => false

/-- What the comparison of literals takes note of. -/
def bare : Literal → Literal
  | .fixed span _ => .fixed span 0
  | l => l

/-- One tree, up to positions and the width of literals. -/
def SameTree (a b : Expr Literal) : Prop :=
  a.mapLit bare = b.mapLit bare

theorem exprEq_iff_sameTree (byText : Bool) (a b : Expr Literal) :
    exprEq litEq byText a b = true ↔ SameTree a b ∧ exprEq litEq byText a a = true := by
  have hlit : ∀ l m, litEq l m = true → bare l = bare m := by
    intro l m h
    cases l <;> cases m <;> first
      | exact absurd h Bool.false_ne_true
      | rfl
      | exact congrArg Literal.real (of_decide_eq_true h)
      | exact congrArg (Literal.fixed · 0) (of_decide_eq_true h)
      | exact congrArg Literal.bool (of_decide_eq_true h)
      | exact congrArg Literal.char (of_decide_eq_true h)
      | exact congrArg Literal.str (of_decide_eq_true h)
  have hbare : ∀ l m, litEq (bare l) (bare m) = litEq l m := by
    intro l m
    cases l <;> cases m <;> rfl
  constructor
  · intro h
    have hsame : SameTree a b := mapLit_eq_of_exprEq hlit h
    refine ⟨hsame, ?_⟩
    rw [← exprEq_mapLit hbare] at h ⊢
    rwa [← hsame] at h
  · rintro ⟨hsame, h⟩
    rw [← exprEq_mapLit hbare] at h ⊢
    rwa [← hsame]

variable {L : Type}

/-- The comparison does not decide between the two expressions. -/
def Undecided (written : Bool) (a b : Expr L) : Prop :=
  cmpLt a b written = false ∧ cmpLt b a written = false

instance (written : Bool) (a b : Expr L) : Decidable (Undecided written a b) :=
  inferInstanceAs (Decidable (_ ∧ _))

/-- Like `canon`, but equalities keep the order of operands that the comparison does not decide. -/
def settle (written : Bool) : Expr L → Expr L
  | .binop op a b =>
      let sa := settle written a
      let sb := settle written b
      if op = .lt then .binop .gt sb sa
      else if op = .le then .binop .ge sb sa
      else if binopIsEquality op ∧ cmpLt b a written then .binop op sb sa
      else .binop op sa sb
  | .unop op x => .unop op (settle written x)
  | e => e

/-- Exchanges the operands of the equalities whose order is not decided. -/
def mirror (written : Bool) : Expr L → Expr L
  | .binop op a b =>
      if binopIsEquality op ∧ Undecided written a b then .binop op (mirror written b) (mirror written a)
      else .binop op (mirror written a) (mirror written b)
  | .unop op x => .unop op (mirror written x)
  | e => e

/-- Where the order of an equality is not decided, its operands mirror each other. -/
def Balanced (written : Bool) : Expr L → Prop
  | .binop op a b =>
      if binopIsEquality op ∧ Undecided written a b then
        mirror written (settle written a) = settle written b
      else Balanced written a ∧ Balanced written b
  | .unop _ x => Balanced written x
  | _ => True

/-- No `<` and `<=`, and no equality whose operands are decided to stand the other way. -/
def Settled (written : Bool) : Expr L → Prop
  | .binop op a b =>
      op ≠ .lt ∧ op ≠ .le ∧ (binopIsEquality op = true → cmpLt b a written = false) ∧
        Settled written a ∧ Settled written b
  | .unop _ x => Settled written x
  | _ => True

/-- The order of the two operands is decided, or it does not matter. -/
def Ordered (written : Bool) (a b : Expr L) : Prop :=
  Undecided written a b → settle written a = settle written b

/-- Two operators, or the same expression: what the comparison cannot tell apart. -/
inductive Alike : Expr L → Expr L → Prop
  | refl (e : Expr L) : Alike e e
  | binop (op op' : BinOp) (a b a' b' : Expr L) : Alike (.binop op a b) (.binop op' a' b')
  | unop (op op' : UnOp) (x x' : Expr L) : Alike (.unop op x) (.unop op' x')

section Order

variable {written : Bool} {a a' b b' e : Expr L} {op : BinOp}

theorem cmpLt_congr (ha : Alike a a') (hb : Alike b b') :
    cmpLt a b written = cmpLt a' b' written := by
  cases ha with
  | refl a =>
      cases hb with
      | refl b => rfl
      | binop => cases a <;> rfl
      | unop => cases a <;> rfl
  | binop => rfl
  | unop => rfl

theorem undecided_congr (ha : Alike a a') (hb : Alike b b') :
    Undecided written a b ↔ Undecided written a' b' := by
  rw [Undecided, Undecided, cmpLt_congr ha hb, cmpLt_congr hb ha]

theorem undecided_comm : Undecided written a b ↔ Undecided written b a := and_comm

theorem cmpLt_asymm (h : cmpLt a b written = true) : cmpLt b a written = false := by
  cases a with
  | name an =>
      cases b with
      | name bn =>
          rw [cmpLt, Bool.and_eq_true, decide_eq_true_eq] at h
          rw [cmpLt, Bool.and_eq_false_iff, decide_eq_false_iff_not]
          exact .inr (List.lt_asymm h.2)
      | _ => rfl
  | loc al =>
      cases b with
      | name bn => cases h
      | loc bl =>
          rw [cmpLt, decide_eq_true_eq] at h
          rw [cmpLt, decide_eq_false_iff_not]
          exact lt_asymm h
      | _ => rfl
  | sym sa ia =>
      cases b with
      | name bn => cases h
      | loc bl => cases h
      | sym sb ib =>
          rw [cmpLt, decide_eq_true_eq] at h
          rw [cmpLt, decide_eq_false_iff_not]
          exact lt_asymm h
      | _ => rfl
  | int av =>
      cases b with
      | name bn => cases h
      | loc bl => cases h
      | sym sb ib => cases h
      | int bv =>
          rw [cmpLt, decide_eq_true_eq] at h
          rw [cmpLt, decide_eq_false_iff_not]
          exact lt_asymm h
      | _ => rfl
  | _ => cases h

theorem alike_settle (e : Expr L) : Alike e (settle written e) := by
  cases e with
  | binop op a b =>
      rw [settle]
      split_ifs
      all_goals exact .binop ..
  | unop op x => exact .unop ..
  | _ => exact .refl _

theorem alike_mirror (e : Expr L) : Alike e (mirror written e) := by
  cases e with
  | binop op a b =>
      rw [mirror]
      split_ifs
      all_goals exact .binop ..
  | unop op x => exact .unop ..
  | _ => exact .refl _

theorem alike_canon (e : Expr L) : Alike e (canon written e) := by
  cases e with
  | binop op a b =>
      rw [canon]
      split_ifs
      all_goals exact .binop ..
  | unop op x => exact .unop ..
  | _ => exact .refl _

theorem not_undecided_of_lt (h : cmpLt a b written = true) : ¬ Undecided written a b := by
  intro hno
  rw [hno.1] at h
  cases h

theorem operator_induction (written : Bool) {P : Expr L → Prop}
    (binop : ∀ op a b, P a → P b → P (.binop op a b)) (unop : ∀ op x, P x → P (.unop op x))
    (leaf : ∀ e, settle written e = e → mirror written e = e → canon written e = e →
      Settled written e → Balanced written e → P e) (e : Expr L) : P e := by
  induction e using mirror.induct written with
  | case1 op a b _ iha ihb => exact binop op a b ihb iha
  | case2 op a b _ iha ihb => exact binop op a b iha ihb
  | case3 op x ih => exact unop op x ih
  | case4 e hbinop hunop =>
      cases e with
      | binop op a b => exact absurd rfl (hbinop op a b)
      | unop op x => exact absurd rfl (hunop op x)
      | _ => exact leaf _ rfl rfl rfl trivial trivial

/-- The operators besides `<`, `<=` and the equalities keep their operands where they are. -/
def Plain (op : BinOp) : Prop := op ≠ .lt ∧ op ≠ .le ∧ binopIsEquality op = false

theorem op_cases (op : BinOp) :
    op = .lt ∨ op = .le ∨ binopIsEquality op = true ∨ Plain op := by
  cases op <;> simp [Plain, binopIsEquality]

theorem order_cases (written : Bool) (a b : Expr L) :
    cmpLt a b written = true ∧ cmpLt b a written = false ∨
      cmpLt a b written = false ∧ cmpLt b a written = true ∨ Undecided written a b := by
  cases hab : cmpLt a b written with
  | true => exact .inl ⟨rfl, cmpLt_asymm hab⟩
  | false =>
      cases hba : cmpLt b a written with
      | true => exact .inr (.inl ⟨rfl, rfl⟩)
      | false => exact .inr (.inr ⟨hab, hba⟩)

theorem canon_plain (h : Plain op) :
    canon written (.binop op a b) = .binop op (canon written a) (canon written b) := by
  rw [canon, if_neg h.1, if_neg h.2.1, if_neg]
  rw [h.2.2, Bool.false_and]
  exact Bool.false_ne_true

theorem settle_plain (h : Plain op) :
    settle written (.binop op a b) = .binop op (settle written a) (settle written b) := by
  rw [settle, if_neg h.1, if_neg h.2.1, if_neg]
  rw [h.2.2]
  exact fun hno => Bool.false_ne_true hno.1

theorem mirror_keep (h : ¬ (binopIsEquality op = true ∧ Undecided written a b)) :
    mirror written (.binop op a b) = .binop op (mirror written a) (mirror written b) := by
  rw [mirror, if_neg h]

theorem not_equality (h : binopIsEquality op = false) :
    ¬ (binopIsEquality op = true ∧ Undecided written a b) := by
  rw [h]
  exact fun hno => Bool.false_ne_true hno.1

theorem equality_ne (h : binopIsEquality op = true) : op ≠ .lt ∧ op ≠ .le := by
  constructor
  · rintro rfl
    cases h
  · rintro rfl
    cases h

theorem canon_equality (h : binopIsEquality op = true) :
    canon written (.binop op a b) =
      if cmpLt a b written then .binop op (canon written a) (canon written b)
      else .binop op (canon written b) (canon written a) := by
  rw [canon, if_neg (equality_ne h).1, if_neg (equality_ne h).2, h, Bool.true_and,
    ← cmpLt_congr (alike_canon a) (alike_canon b)]
  cases cmpLt a b written <;> rfl

theorem settle_equality (h : binopIsEquality op = true) :
    settle written (.binop op a b) =
      if cmpLt b a written then .binop op (settle written b) (settle written a)
      else .binop op (settle written a) (settle written b) := by
  rw [settle, if_neg (equality_ne h).1, if_neg (equality_ne h).2]
  simp only [h, true_and]

theorem undecided_settle :
    Undecided written (settle written a) (settle written b) ↔ Undecided written a b :=
  (undecided_congr (alike_settle a) (alike_settle b)).symm

theorem undecided_mirror :
    Undecided written (mirror written a) (mirror written b) ↔ Undecided written a b :=
  (undecided_congr (alike_mirror a) (alike_mirror b)).symm

theorem canon_eq (e : Expr L) : canon written e = mirror written (settle written e) := by
  induction e using operator_induction written with
  | leaf e hsettle hmirror hcanon _ _ => rw [hcanon, hsettle, hmirror]
  | unop op x ih => rw [canon, settle, mirror, ih]
  | binop op a b iha ihb =>
      obtain rfl | rfl | heq | hplain := op_cases op
      · change Expr.binop .gt (canon written b) (canon written a) =
          mirror written (.binop .gt (settle written b) (settle written a))
        rw [mirror_keep (not_equality rfl), iha, ihb]
      · change Expr.binop .ge (canon written b) (canon written a) =
          mirror written (.binop .ge (settle written b) (settle written a))
        rw [mirror_keep (not_equality rfl), iha, ihb]
      · rw [canon_equality heq, settle_equality heq]
        obtain ⟨hab, hba⟩ | ⟨hab, hba⟩ | hno := order_cases written a b
        · rw [hab, hba, if_pos rfl, if_neg Bool.false_ne_true, mirror_keep, iha, ihb]
          rw [undecided_settle]
          exact fun h => not_undecided_of_lt hab h.2
        · rw [hab, hba, if_pos rfl, if_neg Bool.false_ne_true, mirror_keep, iha, ihb]
          rw [undecided_settle]
          exact fun h => not_undecided_of_lt hba h.2
        · rw [hno.1, hno.2, if_neg Bool.false_ne_true, if_neg Bool.false_ne_true, mirror, if_pos,
            iha, ihb]
          exact ⟨heq, undecided_settle.2 hno⟩
      · rw [canon_plain hplain, settle_plain hplain, mirror_keep (not_equality hplain.2.2), iha, ihb]

theorem mirror_mirror (e : Expr L) : mirror written (mirror written e) = e := by
  induction e using operator_induction written with
  | leaf e _ hmirror _ _ _ => rw [hmirror, hmirror]
  | unop op x ih => rw [mirror, mirror, ih]
  | binop op a b iha ihb =>
      by_cases hswap : binopIsEquality op = true ∧ Undecided written a b
      · rw [mirror, if_pos hswap, mirror, if_pos, iha, ihb]
        rw [undecided_mirror, undecided_comm]
        exact hswap
      · rw [mirror_keep hswap, mirror_keep, iha, ihb]
        rwa [undecided_mirror]

theorem settled_settle (e : Expr L) : Settled written (settle written e) := by
  induction e using operator_induction written with
  | leaf e hsettle _ _ hsettled _ => rwa [hsettle]
  | unop op x ih => exact ih
  | binop op a b iha ihb =>
      obtain rfl | rfl | heq | hplain := op_cases op
      · exact ⟨by decide, by decide, fun h => absurd h (by decide), ihb, iha⟩
      · exact ⟨by decide, by decide, fun h => absurd h (by decide), ihb, iha⟩
      · rw [settle_equality heq]
        split_ifs with hba
        · refine ⟨(equality_ne heq).1, (equality_ne heq).2, fun _ => ?_, ihb, iha⟩
          rw [← cmpLt_congr (alike_settle a) (alike_settle b)]
          exact cmpLt_asymm hba
        · refine ⟨(equality_ne heq).1, (equality_ne heq).2, fun _ => ?_, iha, ihb⟩
          rw [← cmpLt_congr (alike_settle b) (alike_settle a)]
          exact Bool.eq_false_iff.2 hba
      · rw [settle_plain hplain]
        exact ⟨hplain.1, hplain.2.1, fun h => absurd (hplain.2.2.symm.trans h) Bool.false_ne_true,
          iha, ihb⟩

theorem Settled.settle_eq (h : Settled written e) : settle written e = e := by
  induction e using operator_induction written with
  | leaf e hsettle => exact hsettle
  | unop op x ih => rw [settle, ih h]
  | binop op a b iha ihb =>
      obtain ⟨hlt, hle, hkeep, ha, hb⟩ := h
      rw [settle, if_neg hlt, if_neg hle, if_neg, iha ha, ihb hb]
      exact fun hno => Bool.false_ne_true ((hkeep hno.1).symm.trans hno.2)

theorem Settled.mirror (h : Settled written e) : Settled written (mirror written e) := by
  induction e using operator_induction written with
  | leaf e _ hmirror => rwa [hmirror]
  | unop op x ih => exact ih h
  | binop op a b iha ihb =>
      obtain ⟨hlt, hle, hkeep, ha, hb⟩ := h
      rw [RefineCanon.mirror]
      split_ifs with hswap
      · refine ⟨hlt, hle, fun _ => ?_, ihb hb, iha ha⟩
        rw [← cmpLt_congr (alike_mirror a) (alike_mirror b)]
        exact hswap.2.1
      · refine ⟨hlt, hle, fun heq => ?_, iha ha, ihb hb⟩
        rw [← cmpLt_congr (alike_mirror b) (alike_mirror a)]
        exact hkeep heq

theorem canon_canon (e : Expr L) : canon written (canon written e) = settle written e := by
  rw [canon_eq e, canon_eq, (settled_settle e).mirror.settle_eq, mirror_mirror]

theorem balanced_iff (e : Expr L) :
    Balanced written e ↔ mirror written (settle written e) = settle written e := by
  induction e using operator_induction written with
  | leaf e hsettle hmirror _ _ hbalanced =>
      rw [hsettle, hmirror]
      exact iff_of_true hbalanced rfl
  | unop op x ih =>
      rw [Balanced, ih, settle, mirror, Expr.unop.injEq]
      exact ⟨fun h => ⟨rfl, h⟩, fun h => h.2⟩
  | binop op a b iha ihb =>
      have hsides : ∀ {op} {x y : Expr L},
          mirror written (.binop op x y) = .binop op (mirror written x) (mirror written y) →
            (mirror written (.binop op x y) = .binop op x y ↔
              mirror written x = x ∧ mirror written y = y) := by
        intro op x y h
        rw [h, Expr.binop.injEq]
        exact ⟨fun h => h.2, fun h => ⟨rfl, h⟩⟩
      obtain rfl | rfl | heq | hplain := op_cases op
      · rw [Balanced, if_neg (not_equality rfl), iha, ihb]
        change _ ↔ mirror written (.binop .gt (settle written b) (settle written a)) =
          .binop .gt (settle written b) (settle written a)
        rw [hsides (mirror_keep (not_equality rfl)), and_comm]
      · rw [Balanced, if_neg (not_equality rfl), iha, ihb]
        change _ ↔ mirror written (.binop .ge (settle written b) (settle written a)) =
          .binop .ge (settle written b) (settle written a)
        rw [hsides (mirror_keep (not_equality rfl)), and_comm]
      · rw [settle_equality heq]
        obtain ⟨hab, hba⟩ | ⟨hab, hba⟩ | hno := order_cases written a b
        · rw [hba, if_neg Bool.false_ne_true, Balanced,
            if_neg fun h => not_undecided_of_lt hab h.2, iha, ihb, hsides (mirror_keep _)]
          rw [undecided_settle]
          exact fun h => not_undecided_of_lt hab h.2
        · rw [hba, if_pos rfl, Balanced, if_neg fun h => not_undecided_of_lt hba (undecided_comm.1 h.2),
            iha, ihb, hsides (mirror_keep _), and_comm]
          rw [undecided_settle]
          exact fun h => not_undecided_of_lt hba h.2
        · rw [hno.2, if_neg Bool.false_ne_true, Balanced, if_pos ⟨heq, hno⟩, mirror,
            if_pos ⟨heq, undecided_settle.2 hno⟩, Expr.binop.injEq]
          constructor
          · intro h
            refine ⟨rfl, ?_, h⟩
            rw [← h, mirror_mirror]
          · exact fun h => h.2.2
      · rw [settle_plain hplain, Balanced, if_neg (not_equality hplain.2.2), iha, ihb,
          hsides (mirror_keep (not_equality hplain.2.2))]

theorem idempotent_iff (e : Expr L) :
    canon written (canon written e) = canon written e ↔ Balanced written e := by
  rw [canon_canon, canon_eq, balanced_iff, eq_comm]

theorem canon_comm_iff (heq : binopIsEquality op = true) (a b : Expr L) :
    canon written (.binop op a b) = canon written (.binop op b a) ↔ Ordered written a b := by
  rw [canon_equality heq, canon_equality heq, Ordered]
  obtain ⟨hab, hba⟩ | ⟨hab, hba⟩ | hno := order_cases written a b
  · rw [hab, hba, if_pos rfl, if_neg Bool.false_ne_true]
    exact iff_of_true rfl fun h => absurd h (not_undecided_of_lt hab)
  · rw [hab, hba, if_pos rfl, if_neg Bool.false_ne_true]
    exact iff_of_true rfl fun h => absurd (undecided_comm.1 h) (not_undecided_of_lt hba)
  · rw [hno.1, hno.2, if_neg Bool.false_ne_true, if_neg Bool.false_ne_true, Expr.binop.injEq,
      canon_eq a, canon_eq b]
    constructor
    · intro h _
      rw [← mirror_mirror (settle written a), h.2.2, mirror_mirror]
    · intro h
      rw [h hno]
      exact ⟨rfl, rfl, rfl⟩

end Order

/-- What is asked of the canonical form, for an expression and for two operands. -/
structure Normal (written : Bool) (e a b : Expr Literal) : Prop where
  truth : ∀ (R : Type) (M : Meaning R Literal) (env : Env R),
    eval M env (canon written e) = eval M env e
  idem : SameTree (canon written (canon written e)) (canon written e)
  lt : SameTree (canon written (.binop .lt a b)) (canon written (.binop .gt b a))
  le : SameTree (canon written (.binop .le a b)) (canon written (.binop .ge b a))
  eq : SameTree (canon written (.binop .eq a b)) (canon written (.binop .eq b a))
  ne : SameTree (canon written (.binop .ne a b)) (canon written (.binop .ne b a))

theorem sameTree_canon_comm_iff {written : Bool} {op : BinOp} (heq : binopIsEquality op = true)
    (a b : Expr Literal) :
    SameTree (canon written (.binop op a b)) (canon written (.binop op b a)) ↔
      Ordered written (a.mapLit bare) (b.mapLit bare) := by
  rw [SameTree, ← canon_mapLit, ← canon_mapLit]
  exact canon_comm_iff heq _ _

/-- The canonical form is what it should be exactly for balanced expressions and ordered operands,
the width of their literals aside. -/
theorem normal_iff (written : Bool) (e a b : Expr Literal) :
    Normal written e a b ↔
      Balanced written (e.mapLit bare) ∧ Ordered written (a.mapLit bare) (b.mapLit bare) := by
  have hidem : SameTree (canon written (canon written e)) (canon written e) ↔
      Balanced written (e.mapLit bare) := by
    rw [SameTree, ← canon_mapLit, ← canon_mapLit]
    exact idempotent_iff _
  constructor
  · exact fun h => ⟨hidem.1 h.idem, (sameTree_canon_comm_iff rfl a b).1 h.eq⟩
  · rintro ⟨he, hab⟩
    exact
      { truth := fun R M env => eval_canon M env written e
        idem := hidem.2 he
        lt := rfl
        le := rfl
        eq := (sameTree_canon_comm_iff rfl a b).2 hab
        ne := (sameTree_canon_comm_iff rfl a b).2 hab }

/-- The calls `f(x)` and `g(y)` over declarations are not ordered: their equality has two canonical
forms, which a further pass exchanges. -/
theorem not_normal_calls :
    let a : Expr Literal := .call (.sym 1 0) [.loc 1]
    let b : Expr Literal := .call (.sym 2 0) [.loc 2]
    let e : Expr Literal := .binop .eq a b
    ¬ SameTree (canon false (canon false e)) (canon false e) ∧
      ¬ SameTree (canon false (.binop .eq a b)) (canon false (.binop .eq b a)) := by
  refine ⟨fun h => ?_, fun h => ?_⟩
  · cases h
  · cases h

end Kaikai.RefineCanon
