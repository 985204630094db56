import Kaikai.UnitValue
import Mathlib.Algebra.BigOperators.Finsupp.Basic

namespace Kaikai.Units

open Kaikai.Str Kaikai.Word64
open Relation

mutual

def UnitExprT.vars : UnitExprT → List ℕ
  | .uOne => []
  | .uSym _ => []
  | .uParam _ => []
  | .uVar v => [v]
  | .uMul a b => a.vars ++ b.vars
  | .uInv a => a.vars
  | .uPow a _ => a.vars
  | .uJoin a b => a.vars ++ b.vars
  | .uDims us => varsAll us

def varsAll : List UnitExprT → List ℕ
  | [] => []
  | u :: rest => u.vars ++ varsAll rest

end

/-- The binding of `v` mentions `w`. -/
def Refers (s : Subst) (w v : ℕ) : Prop :=
  ∃ u, substUnitLookup s v = some u ∧ w ∈ u.vars

/-- No chain of bindings comes back to a variable. -/
def Acyclic (s : Subst) : Prop :=
  WellFounded (Refers s)

def Unbound (s : Subst) (v : ℕ) : Prop :=
  substUnitLookup s v = none

section Assignments

variable {M N : Type*} [AddCommGroup M] [AddCommGroup N]

/-- An assignment gives each bound variable the value of its binding. -/
def Respects (s : Subst) (sym : Str → M) (θ : ℕ → M) : Prop :=
  ∀ v u, substUnitLookup s v = some u → θ v = u.value sym θ

variable {s : Subst} {sym : Str → M}

mutual

theorem value_congr {θ ψ : ℕ → M} : ∀ u : UnitExprT, (∀ v ∈ u.vars, θ v = ψ v) →
    u.value sym θ = u.value sym ψ
  | .uOne, _ => rfl
  | .uSym _, _ => rfl
  | .uParam _, _ => rfl
  | .uVar v, h => h v List.mem_cons_self
  | .uMul a b, h => by
      rw [UnitExprT.value, UnitExprT.value, value_congr a fun v hv => h v (List.mem_append_left _ hv),
        value_congr b fun v hv => h v (List.mem_append_right _ hv)]
  | .uInv a, h => by rw [UnitExprT.value, UnitExprT.value, value_congr a h]
  | .uPow a n, h => by rw [UnitExprT.value, UnitExprT.value, value_congr a h]
  | .uJoin a b, h => by
      rw [UnitExprT.value, UnitExprT.value, value_congr a fun v hv => h v (List.mem_append_left _ hv),
        value_congr b fun v hv => h v (List.mem_append_right _ hv)]
  | .uDims us, h => valueAll_congr us h

theorem valueAll_congr {θ ψ : ℕ → M} : ∀ us : List UnitExprT, (∀ v ∈ varsAll us, θ v = ψ v) →
    valueAll sym θ us = valueAll sym ψ us
  | [], _ => rfl
  | u :: rest, h => by
      rw [valueAll, valueAll, value_congr u fun v hv => h v (List.mem_append_left _ hv),
        valueAll_congr rest fun v hv => h v (List.mem_append_right _ hv)]

end

mutual

theorem map_value (φ : M →+ N) (θ : ℕ → M) : ∀ u : UnitExprT,
    φ (u.value sym θ) = u.value (fun k => φ (sym k)) fun v => φ (θ v)
  | .uOne => map_zero φ
  | .uSym _ => rfl
  | .uParam _ => rfl
  | .uVar _ => rfl
  | .uMul a b => by
      rw [UnitExprT.value, UnitExprT.value, map_add, map_value φ θ a, map_value φ θ b]
  | .uInv a => by rw [UnitExprT.value, UnitExprT.value, map_neg, map_value φ θ a]
  | .uPow a n => by rw [UnitExprT.value, UnitExprT.value, map_zsmul, map_value φ θ a]
  | .uJoin a b => by
      rw [UnitExprT.value, UnitExprT.value, map_add, map_value φ θ a, map_value φ θ b]
  | .uDims us => map_valueAll φ θ us

theorem map_valueAll (φ : M →+ N) (θ : ℕ → M) : ∀ us : List UnitExprT,
    φ (valueAll sym θ us) = valueAll (fun k => φ (sym k)) (fun v => φ (θ v)) us
  | [] => map_zero φ
  | u :: rest => by rw [valueAll, valueAll, map_add, map_value φ θ u, map_valueAll φ θ rest]

end

theorem Respects.map {θ : ℕ → M} (h : Respects s sym θ) (φ : M →+ N) :
    Respects s (fun k => φ (sym k)) fun v => φ (θ v) := by
  intro v u hu
  change φ (θ v) = _
  rw [h v u hu, map_value]

theorem Acyclic.exists_respects (h : Acyclic s) (sym : Str → M) (ψ : ℕ → M) :
    ∃ θ, Respects s sym θ ∧ ∀ v, Unbound s v → θ v = ψ v := by
  classical
  let step (v : ℕ) (rec : ∀ w, Refers s w v → M) : M :=
    match substUnitLookup s v with
    | none => ψ v
    | some u => u.value sym fun w => if hw : Refers s w v then rec w hw else 0
  refine ⟨h.fix step, fun v u hu => ?_, fun v hv => ?_⟩
  · rw [h.fix_eq step v]
    simp only [step, hu]
    exact value_congr u fun w hw => dif_pos ⟨u, hu, hw⟩
  · rw [h.fix_eq step v]
    unfold Unbound at hv
    simp only [step, hv]

/-- A symbol or a variable. -/
abbrev Atom := Str ⊕ ℕ

/-- The exponents of a unit, over symbols and unbound variables. -/
abbrev Exponents := Atom →₀ ℤ

noncomputable def symExponents (k : Str) : Exponents :=
  Finsupp.single (.inl k) 1

/-- The assignment that leaves the unbound variables as they are. -/
structure Formal (s : Subst) (θ : ℕ → Exponents) : Prop where
  respects : Respects s symExponents θ
  unbound : ∀ v, Unbound s v → θ v = Finsupp.single (.inr v) 1

theorem Acyclic.exists_formal (h : Acyclic s) : ∃ θ, Formal s θ := by
  obtain ⟨θ, hθ, hunbound⟩ := h.exists_respects symExponents fun v => Finsupp.single (.inr v) 1
  exact ⟨θ, hθ, hunbound⟩

/-- Exponents as a product of the values of the atoms. -/
noncomputable def spread (sym : Str → M) (θ : ℕ → M) : Exponents →+ M :=
  Finsupp.liftAddHom fun a => (zmultiplesHom M) (Sum.elim sym θ a)

theorem spread_single (sym : Str → M) (θ : ℕ → M) (a : Atom) (n : ℤ) :
    spread sym θ (Finsupp.single a n) = n • Sum.elim sym θ a := by
  simp [spread]

theorem spread_symExponents (sym : Str → M) (θ : ℕ → M) :
    (fun k => spread sym θ (symExponents k)) = sym := by
  funext k
  rw [symExponents, spread_single, one_smul, Sum.elim_inl]

theorem Formal.spread_eq (hs : Acyclic s) {θ : ℕ → Exponents} (h : Formal s θ) {ψ : ℕ → M}
    (hψ : Respects s sym ψ) (v : ℕ) : spread sym ψ (θ v) = ψ v := by
  induction v using hs.induction with
  | _ v ih =>
      cases hv : substUnitLookup s v with
      | none => rw [h.unbound v hv, spread_single, one_smul, Sum.elim_inr]
      | some u =>
          rw [h.respects v u hv, map_value, spread_symExponents, hψ v u hv]
          exact value_congr u fun w hw => ih w ⟨u, hv, hw⟩

theorem Formal.spread_value (hs : Acyclic s) {θ : ℕ → Exponents} (h : Formal s θ) {ψ : ℕ → M}
    (hψ : Respects s sym ψ) (u : UnitExprT) :
    spread sym ψ (u.value symExponents θ) = u.value sym ψ := by
  rw [map_value, spread_symExponents]
  exact value_congr u fun v _ => h.spread_eq hs hψ v

end Assignments

section Chasing

variable {M : Type*} [AddCommGroup M] {s : Subst} {sym : Str → M} {θ : ℕ → M}

mutual

theorem value_unitResolveToAt (hM : Tame M) (hθ : Respects s sym θ) :
    ∀ (u : UnitExprT) (scale : ℤ) (t : UTable) (seen : List ℕ),
    (unitResolveToAt s u scale t seen).value sym θ = t.value sym θ + scale • u.value sym θ
  | .uOne, scale, t, seen => by rw [unitResolveToAt, UnitExprT.value, smul_zero, add_zero]
  | .uSym k, scale, t, seen => by
      rw [unitResolveToAt, value_insertSym sym θ hM, UnitExprT.value]
  | .uParam p, scale, t, seen => by
      rw [unitResolveToAt, value_insertSym sym θ hM, UnitExprT.value]
  | .uVar v, scale, t, seen => by
      rw [unitResolveToAt]
      split
      · rw [value_insertVar sym θ hM, UnitExprT.value]
      · split
        · next u hu =>
            rw [value_unitResolveToAt hM hθ u, UnitExprT.value, hθ v u hu]
        · rw [value_insertVar sym θ hM, UnitExprT.value]
  | .uMul a b, scale, t, seen => by
      rw [unitResolveToAt, value_unitResolveToAt hM hθ b, value_unitResolveToAt hM hθ a,
        UnitExprT.value, smul_add, add_assoc]
  | .uInv a, scale, t, seen => by
      rw [unitResolveToAt, value_unitResolveToAt hM hθ a, UnitExprT.value, Word64.sub, hM,
        zero_sub, neg_smul, smul_neg]
  | .uPow a n, scale, t, seen => by
      rw [unitResolveToAt, value_unitResolveToAt hM hθ a, UnitExprT.value, Word64.mul, hM,
        mul_smul]
  | .uJoin a b, scale, t, seen => by
      rw [unitResolveToAt, value_unitResolveToAt hM hθ b, value_unitResolveToAt hM hθ a,
        UnitExprT.value, smul_add, add_assoc]
  | .uDims us, scale, t, seen => by
      rw [unitResolveToAt, value_unitsResolveToAt hM hθ us, UnitExprT.value]
termination_by u _ _ seen => (unseen s seen, sizeOf u)
decreasing_by
  · exact Prod.Lex.left _ _ (unseen_cons_lt (lt_of_substUnitLookup ‹_›) ‹_›)
  all_goals exact Prod.Lex.right _ (by simp <;> omega)

theorem value_unitsResolveToAt (hM : Tame M) (hθ : Respects s sym θ) :
    ∀ (us : List UnitExprT) (scale : ℤ) (t : UTable) (seen : List ℕ),
    (unitsResolveToAt s us scale t seen).value sym θ = t.value sym θ + scale • valueAll sym θ us
  | [], scale, t, seen => by rw [unitsResolveToAt, valueAll, smul_zero, add_zero]
  | u :: rest, scale, t, seen => by
      rw [unitsResolveToAt, value_unitsResolveToAt hM hθ rest, value_unitResolveToAt hM hθ u,
        valueAll, smul_add, add_assoc]
termination_by us _ _ seen => (unseen s seen, sizeOf us)
decreasing_by
  all_goals exact Prod.Lex.right _ (by simp <;> omega)

end

theorem value_unitToTableResolved (hM : Tame M) (hθ : Respects s sym θ) (u : UnitExprT) :
    (unitToTableResolved u s).value sym θ = u.value sym θ := by
  rw [unitToTableResolved, value_unitResolveToAt hM hθ, value_utableEmpty, one_smul, zero_add]

theorem value_unitResolveHabHead (hθ : Respects s sym θ) (u : UnitExprT) (seen : List ℕ) :
    (unitResolveHabHead s u seen).value sym θ = u.value sym θ := by
  unfold unitResolveHabHead
  split
  · next v =>
      split
      · rfl
      · split
        · next b hb =>
            rw [value_unitResolveHabHead hθ b (v :: seen), UnitExprT.value, hθ v b hb]
        · rfl
  · rfl
termination_by unseen s seen
decreasing_by exact unseen_cons_lt (lt_of_substUnitLookup ‹_›) ‹_›

/-- A table is sorted, without zero exponents. -/
structure UTable.Canonical (t : UTable) : Prop where
  syms : Units.Canonical stringLt t.syms
  vars : Units.Canonical (fun a b : ℕ => decide (a < b)) t.vars

theorem UTable.Canonical.empty : utableEmpty.Canonical :=
  ⟨.nil, .nil⟩

theorem UTable.Canonical.insertSym {t : UTable} (h : t.Canonical) (k : Str) {n : ℤ}
    (hn : InRange n) : (t.insertSym k n).Canonical :=
  ⟨h.syms.entryInsert strict_stringLt k hn, h.vars⟩

theorem UTable.Canonical.insertVar {t : UTable} (h : t.Canonical) (v : ℕ) {n : ℤ}
    (hn : InRange n) : (t.insertVar v n).Canonical :=
  ⟨h.syms, h.vars.entryInsert strict_nat v hn⟩

mutual

theorem canonical_unitResolveToAt : ∀ (u : UnitExprT) {scale : ℤ} {t : UTable} (seen : List ℕ),
    InRange scale → t.Canonical → (unitResolveToAt s u scale t seen).Canonical
  | .uOne, scale, t, seen, hscale, ht => by rwa [unitResolveToAt]
  | .uSym k, scale, t, seen, hscale, ht => by
      rw [unitResolveToAt]
      exact ht.insertSym k hscale
  | .uParam p, scale, t, seen, hscale, ht => by
      rw [unitResolveToAt]
      exact ht.insertSym _ hscale
  | .uVar v, scale, t, seen, hscale, ht => by
      rw [unitResolveToAt]
      split
      · exact ht.insertVar v hscale
      · split
        · next u hu => exact canonical_unitResolveToAt u (v :: seen) hscale ht
        · exact ht.insertVar v hscale
  | .uMul a b, scale, t, seen, hscale, ht => by
      rw [unitResolveToAt]
      exact canonical_unitResolveToAt b seen hscale (canonical_unitResolveToAt a seen hscale ht)
  | .uInv a, scale, t, seen, hscale, ht => by
      rw [unitResolveToAt]
      exact canonical_unitResolveToAt a seen (wrap_inRange _) ht
  | .uPow a n, scale, t, seen, hscale, ht => by
      rw [unitResolveToAt]
      exact canonical_unitResolveToAt a seen (wrap_inRange _) ht
  | .uJoin a b, scale, t, seen, hscale, ht => by
      rw [unitResolveToAt]
      exact canonical_unitResolveToAt b seen hscale (canonical_unitResolveToAt a seen hscale ht)
  | .uDims us, scale, t, seen, hscale, ht => by
      rw [unitResolveToAt]
      exact canonical_unitsResolveToAt us seen hscale ht
termination_by u _ _ seen => (unseen s seen, sizeOf u)
decreasing_by
  · exact Prod.Lex.left _ _ (unseen_cons_lt (lt_of_substUnitLookup ‹_›) ‹_›)
  all_goals exact Prod.Lex.right _ (by simp <;> omega)

theorem canonical_unitsResolveToAt : ∀ (us : List UnitExprT) {scale : ℤ} {t : UTable}
    (seen : List ℕ), InRange scale → t.Canonical → (unitsResolveToAt s us scale t seen).Canonical
  | [], scale, t, seen, hscale, ht => by rwa [unitsResolveToAt]
  | u :: rest, scale, t, seen, hscale, ht => by
      rw [unitsResolveToAt]
      exact canonical_unitsResolveToAt rest seen hscale
        (canonical_unitResolveToAt u seen hscale ht)
termination_by us _ _ seen => (unseen s seen, sizeOf us)
decreasing_by
  all_goals exact Prod.Lex.right _ (by simp <;> omega)

end

/-- No variable that a walk has been through can be reached from here. -/
def Ahead (s : Subst) (seen : List ℕ) (vars : List ℕ) : Prop :=
  ∀ w ∈ vars, ∀ x ∈ seen, TransGen (Refers s) w x

theorem Ahead.append_left {seen as bs : List ℕ} (h : Ahead s seen (as ++ bs)) : Ahead s seen as :=
  fun w hw => h w (List.mem_append_left _ hw)

theorem Ahead.append_right {seen as bs : List ℕ} (h : Ahead s seen (as ++ bs)) : Ahead s seen bs :=
  fun w hw => h w (List.mem_append_right _ hw)

theorem Ahead.not_mem (hs : Acyclic s) {seen vars : List ℕ} (h : Ahead s seen vars) {v : ℕ}
    (hv : v ∈ vars) : v ∉ seen :=
  fun hseen => hs.transGen.irrefl.irrefl v (h v hv v hseen)

theorem Ahead.binding {seen : List ℕ} {v : ℕ} {u : UnitExprT} (h : Ahead s seen [v])
    (hu : substUnitLookup s v = some u) : Ahead s (v :: seen) u.vars := by
  intro w hw x hx
  have hstep : TransGen (Refers s) w v := .single ⟨u, hu, hw⟩
  obtain rfl | hx := List.mem_cons.1 hx
  · exact hstep
  · exact hstep.trans (h v List.mem_cons_self x hx)

/-- The variables of a table are unbound. -/
def Resolved (s : Subst) (t : UTable) : Prop :=
  ∀ e ∈ t.vars, Unbound s e.1

theorem Resolved.insertVar {t : UTable} (h : Resolved s t) {v : ℕ} (hv : Unbound s v) (n : ℤ) :
    Resolved s (t.insertVar v n) := by
  intro e he
  obtain heq | ⟨a, ha, heq⟩ := key_of_mem_entryInsert he
  · rwa [heq]
  · rw [← heq]
    exact h a ha

mutual

theorem resolved_unitResolveToAt (hs : Acyclic s) : ∀ (u : UnitExprT) (scale : ℤ) {t : UTable}
    (seen : List ℕ), Ahead s seen u.vars → Resolved s t →
    Resolved s (unitResolveToAt s u scale t seen)
  | .uOne, scale, t, seen, hahead, ht => by rwa [unitResolveToAt]
  | .uSym k, scale, t, seen, hahead, ht => by
      rw [unitResolveToAt]
      exact ht
  | .uParam p, scale, t, seen, hahead, ht => by
      rw [unitResolveToAt]
      exact ht
  | .uVar v, scale, t, seen, hahead, ht => by
      rw [unitResolveToAt, dif_neg (hahead.not_mem hs List.mem_cons_self)]
      split
      · next u hu =>
          have hseen := hahead.not_mem hs List.mem_cons_self
          exact resolved_unitResolveToAt hs u scale (v :: seen) (hahead.binding hu) ht
      · next hnone => exact ht.insertVar hnone scale
  | .uMul a b, scale, t, seen, hahead, ht => by
      rw [unitResolveToAt]
      exact resolved_unitResolveToAt hs b scale seen hahead.append_right
        (resolved_unitResolveToAt hs a scale seen hahead.append_left ht)
  | .uInv a, scale, t, seen, hahead, ht => by
      rw [unitResolveToAt]
      exact resolved_unitResolveToAt hs a _ seen hahead ht
  | .uPow a n, scale, t, seen, hahead, ht => by
      rw [unitResolveToAt]
      exact resolved_unitResolveToAt hs a _ seen hahead ht
  | .uJoin a b, scale, t, seen, hahead, ht => by
      rw [unitResolveToAt]
      exact resolved_unitResolveToAt hs b scale seen hahead.append_right
        (resolved_unitResolveToAt hs a scale seen hahead.append_left ht)
  | .uDims us, scale, t, seen, hahead, ht => by
      rw [unitResolveToAt]
      exact resolved_unitsResolveToAt hs us scale seen hahead ht
termination_by u _ _ seen => (unseen s seen, sizeOf u)
decreasing_by
  · exact Prod.Lex.left _ _ (unseen_cons_lt (lt_of_substUnitLookup ‹_›) ‹_›)
  all_goals exact Prod.Lex.right _ (by simp <;> omega)

theorem resolved_unitsResolveToAt (hs : Acyclic s) : ∀ (us : List UnitExprT) (scale : ℤ)
    {t : UTable} (seen : List ℕ), Ahead s seen (varsAll us) → Resolved s t →
    Resolved s (unitsResolveToAt s us scale t seen)
  | [], scale, t, seen, hahead, ht => by rwa [unitsResolveToAt]
  | u :: rest, scale, t, seen, hahead, ht => by
      rw [unitsResolveToAt]
      exact resolved_unitsResolveToAt hs rest scale seen hahead.append_right
        (resolved_unitResolveToAt hs u scale seen hahead.append_left ht)
termination_by us _ _ seen => (unseen s seen, sizeOf us)
decreasing_by
  all_goals exact Prod.Lex.right _ (by simp <;> omega)

end

theorem resolved_unitToTableResolved (hs : Acyclic s) (u : UnitExprT) :
    Resolved s (unitToTableResolved u s) :=
  resolved_unitResolveToAt hs u 1 [] (fun _ _ _ hx => nomatch hx) fun _ he => nomatch he

theorem canonical_unitToTableResolved (u : UnitExprT) : (unitToTableResolved u s).Canonical :=
  canonical_unitResolveToAt u [] (by decide) .empty

end Chasing

section Extension

theorem join_getElem?_set {l : List (Option UnitExprT)} {v : ℕ} (hv : v < l.length)
    (u : UnitExprT) (w : ℕ) : ((l.set v (some u))[w]?).join = if w = v then some u else l[w]?.join := by
  rw [List.getElem?_set]
  split
  · next heq =>
      rw [if_pos heq.symm]
      rfl
  · next hne => rw [if_neg (Ne.symm hne)]

theorem join_getElem?_append (l : List (Option UnitExprT)) (n w : ℕ) :
    ((l ++ List.replicate n none)[w]?).join = l[w]?.join := by
  by_cases hw : w < l.length
  · rw [List.getElem?_append_left hw]
  · rw [List.getElem?_append_right (not_lt.1 hw), List.getElem?_eq_none (not_lt.1 hw),
      List.getElem?_replicate]
    split <;> rfl

theorem substUnitLookup_extend (s : Subst) (v : ℕ) (u : UnitExprT) (w : ℕ) :
    substUnitLookup (substUnitExtend s v u) w =
      if w = v then some u else substUnitLookup s w := by
  simp only [substUnitLookup, substUnitExtend]
  split
  · next hlen =>
      rw [join_getElem?_set, join_getElem?_append]
      rw [List.length_append, List.length_replicate]
      split <;> omega
  · next hlen => exact join_getElem?_set (not_le.1 hlen) u w

theorem substUnitLookup_addUnitKind (s : Subst) (v : ℕ) (k : Str) (w : ℕ) :
    substUnitLookup (substAddUnitKind s v k) w = substUnitLookup s w := by
  unfold substAddUnitKind
  split <;> rfl

theorem substUnitKindLookup_addUnitKind (s : Subst) (v : ℕ) {k : Str} (hk : k ≠ []) (w : ℕ) :
    substUnitKindLookup (substAddUnitKind s v k) w =
      if v = w then some k else substUnitKindLookup s w := by
  rw [substAddUnitKind, if_neg hk]
  rfl

end Extension

end Kaikai.Units
