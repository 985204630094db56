import Kaikai.UnitUnify

namespace Kaikai.Units

open Kaikai.Str Kaikai.Word64

/-- The unit is no positional list, and its symbols and variables are of abelian kinds. -/
structure Abelian (s : Subst) (u : UnitExprT) : Prop where
  scalar : ∀ us, unitResolveHabHead s u [] ≠ .uDims us
  semilattice : utableSemilatticeTheory (unitToTableResolved u s) s = false
  firstOrder : utableFirstOrder (unitToTableResolved u s) s = false

/-- `s'` adds to `s` what makes one unit of `u1` and `u2`. -/
structure Unifies (s s' : Subst) (u1 u2 : UnitExprT) : Prop where
  equal : ∀ depth, applyUnit s' (depth + 1) u1 = applyUnit s' (depth + 1) u2
  acyclic : Acyclic s'
  bindings : ∀ v b, substUnitLookup s v = some b → substUnitLookup s' v = some b
  constraints : ∀ v k, substUnitKindLookup s v = some k → substUnitKindLookup s' v = some k
  kinds : ∀ v b k, Unbound s v → substUnitLookup s' v = some b →
    substUnitKindLookup s v = some k → k ≠ [] → OfKind s' b k

/-- Every solution of `u1 = u2` factors through `s'`. -/
def MostGeneral (s s' : Subst) (u1 u2 : UnitExprT) : Prop :=
  ∀ θ : ℕ → Exponents, Respects s symExponents θ →
    u1.value symExponents θ = u2.value symExponents θ → Respects s' symExponents θ

/-- The units have the same exponents. -/
def EqualExponents (s : Subst) (u1 u2 : UnitExprT) : Prop :=
  ∀ θ, Formal s θ → u1.value symExponents θ = u2.value symExponents θ

/-- The exponents of the quotient of the units fit, and so do the opposites of those that are
negated: of all of them, unless the quotient is a power of one variable. -/
def Fits (s : Subst) (u1 u2 : UnitExprT) : Prop :=
  ∀ θ, Formal s θ →
    (∀ a, |(u1.value symExponents θ - u2.value symExponents θ) a| < 2 ^ 63) ∨
      ∃ v, u1.value symExponents θ - u2.value symExponents θ = Finsupp.single (.inr v) (-2 ^ 63)

section Unify

variable {engines : Engines} {s s' : Subst} {u1 u2 : UnitExprT}

/-- The table that is left to unify. -/
def quotientTable (s : Subst) (u1 u2 : UnitExprT) : UTable :=
  utableDiff (unitToTableResolved u1 s) (unitToTableResolved u2 s)

theorem unifyDim_abelian (hs : Acyclic s) (h1 : Abelian s u1) (h2 : Abelian s u2) :
    unifyDim engines u1 u2 s = unifyAbelianDiff (quotientTable s u1 u2) s := by
  unfold unifyDim
  split
  · next heq _ => exact absurd heq (h1.scalar _)
  · next heq _ => exact absurd heq (h1.scalar _)
  · next heq _ _ => exact absurd heq (h1.scalar _)
  · next heq => exact absurd heq (h2.scalar _)
  · next heq _ _ => exact absurd heq (h2.scalar _)
  · dsimp only
    rw [unitToTableResolved_head hs, unitToTableResolved_head hs, h1.semilattice,
      h2.semilattice, h1.firstOrder, h2.firstOrder]
    rfl

theorem canonical_quotientTable : (quotientTable s u1 u2).Canonical :=
  canonical_utableDiff (canonical_unitToTableResolved u1) _

theorem resolved_quotientTable (hs : Acyclic s) : Resolved s (quotientTable s u1 u2) :=
  resolved_utableDiff (resolved_unitToTableResolved hs u1) (resolved_unitToTableResolved hs u2)

theorem value_quotientTable {M : Type*} [AddCommGroup M] (hM : Tame M) {sym : Str → M} {θ : ℕ → M}
    (hθ : Respects s sym θ) :
    (quotientTable s u1 u2).value sym θ = u1.value sym θ - u2.value sym θ := by
  rw [quotientTable, value_utableDiff sym θ hM, value_unitToTableResolved hM hθ,
    value_unitToTableResolved hM hθ]

theorem residues_quotientTable {θ : ℕ → Exponents} (hθ : Respects s symExponents θ) :
    residues ((quotientTable s u1 u2).value symExponents θ) =
      residues (u1.value symExponents θ - u2.value symExponents θ) := by
  rw [map_tableValue, map_sub, map_value, map_value]
  exact value_quotientTable (tame_zmod _) (hθ.map residues)

theorem applyUnit_eq (hs : Acyclic s) {θ : ℕ → Exponents} (hθ : Formal s θ)
    (h1 : ∀ us, unitResolveHabHead s u1 [] ≠ .uDims us)
    (h2 : ∀ us, unitResolveHabHead s u2 [] ≠ .uDims us)
    (heq : residues (u1.value symExponents θ) = residues (u2.value symExponents θ)) (depth : ℕ) :
    applyUnit s (depth + 1) u1 = applyUnit s (depth + 1) u2 := by
  have hhead : ∀ {u}, (∀ us, unitResolveHabHead s u [] ≠ .uDims us) →
      applyUnit s (depth + 1) u = utableToTree (unitToTableResolved u s) := by
    intro u hu
    rw [applyUnit]
    split
    · next hdims => exact absurd hdims (hu _)
    · rw [unitToTableResolved_head hs]
  rw [hhead h1, hhead h2, hθ.resolved_eq hs heq]

theorem unifies_of_residues_eq_zero (hs : Acyclic s) (h1 : Abelian s u1) (h2 : Abelian s u2)
    {θ : ℕ → Exponents} (hθ : Formal s θ)
    (hzero : residues ((quotientTable s u1 u2).value symExponents θ) = 0) :
    Unifies s s u1 u2 where
  equal := by
    rw [residues_quotientTable hθ.respects, map_sub, sub_eq_zero] at hzero
    exact applyUnit_eq hs hθ h1.scalar h2.scalar hzero
  acyclic := hs
  bindings _ _ h := h
  constraints _ _ h := h
  kinds v b _ hv hb _ _ := nomatch hb.symm.trans hv

theorem value_of_isOne {M : Type*} [AddCommGroup M] {t : UTable} (h : utableIsOne t = true)
    (sym : Str → M) (θ : ℕ → M) : t.value sym θ = 0 := by
  rw [utableIsOne, Bool.and_eq_true, List.isEmpty_iff, List.isEmpty_iff] at h
  rw [UTable.value, h.1, h.2]
  exact add_zero 0

theorem unifies_of_pick (hs : Acyclic s) (h1 : Abelian s u1) (h2 : Abelian s u2)
    {pick : ℕ × ℤ} (hpick : pick ∈ (quotientTable s u1 u2).vars)
    (h : unifyAbelianPick (quotientTable s u1 u2) s pick = some (some s')) :
    Unifies s s' u1 u2 := by
  obtain ⟨rest', s1, hdiv, hneg, hgate, rfl⟩ := unifyAbelianPick_some h
  have hcan : (quotientTable s u1 u2).Canonical := canonical_quotientTable
  have hbinds := binds_of_pick hcan (resolved_quotientTable hs) hpick hneg hgate
  have hs' := hbinds.acyclic hs
  refine ⟨?_, hs', fun v b hv => ?_, fun v k hv => unitKindGate_kept hgate hv, ?_⟩
  · obtain ⟨θ, hθ⟩ := hs'.exists_formal
    refine applyUnit_eq hs' hθ (hbinds.head_ne_uDims u1 [] h1.scalar)
      (hbinds.head_ne_uDims u2 [] h2.scalar) ?_
    obtain ⟨hold, hbound⟩ := hbinds.respects.1 (hθ.respects.map residues)
    have hzero : (quotientTable s u1 u2).value (fun k => residues (symExponents k))
        (fun v => residues (θ v)) = 0 :=
      value_eq_zero_of_binds (tame_zmod _) hcan hpick hdiv hneg hbound
    rw [value_quotientTable (tame_zmod _) hold] at hzero
    rw [map_value, map_value]
    exact sub_eq_zero.1 hzero
  · rw [hbinds.lookup_of_ne (hbinds.ne hv), hv]
  · intro v b k hv hb hk hne
    have hpivot : v = pick.1 := by
      by_contra hvx
      rw [hbinds.lookup_of_ne hvx] at hb
      exact nomatch hb.symm.trans hv
    subst hpivot
    obtain rfl := Option.some.inj (hbinds.lookup_self.symm.trans hb)
    obtain ⟨hsyms, hvars⟩ := unitKindGate_ofKind hgate hk hne
    exact ⟨hsyms, hvars⟩

theorem unifies_of_unifyDim (hs : Acyclic s) (h1 : Abelian s u1) (h2 : Abelian s u2)
    (h : unifyDim engines u1 u2 s = some (some s')) : Unifies s s' u1 u2 := by
  rw [unifyDim_abelian hs h1 h2] at h
  unfold unifyAbelianDiff at h
  split at h
  · next hone =>
      obtain rfl := Option.some.inj (Option.some.inj h)
      obtain ⟨θ, hθ⟩ := hs.exists_formal
      refine unifies_of_residues_eq_zero hs h1 h2 hθ ?_
      rw [value_of_isOne hone, map_zero]
  · split at h
    · exact nomatch Option.some.inj h
    · next pick hpick => exact unifies_of_pick hs h1 h2 (utablePickMinVar_mem hpick) h

theorem Fits.inRange (hfits : Fits s u1 u2) {θ : ℕ → Exponents} (hθ : Formal s θ)
    (a : Str ⊕ ℕ) :
    InRange ((u1.value symExponents θ - u2.value symExponents θ) a) := by
  rcases hfits θ hθ with hall | ⟨v, hv⟩
  · have h := abs_lt.1 (hall a)
    exact ⟨h.1.le, h.2⟩
  · rw [hv, Finsupp.single_apply]
    split
    · exact ⟨le_refl _, by norm_num⟩
    · exact ⟨by norm_num, by norm_num⟩

theorem Fits.value_quotientTable (hfits : Fits s u1 u2) (hs : Acyclic s) {θ : ℕ → Exponents}
    (hθ : Formal s θ) :
    (quotientTable s u1 u2).value symExponents θ =
      u1.value symExponents θ - u2.value symExponents θ := by
  ext a
  have hcan : (quotientTable s u1 u2).Canonical := canonical_quotientTable
  have hres : Resolved s (quotientTable s u1 u2) := resolved_quotientTable hs
  obtain ⟨hsyms, hvars⟩ := hθ.exponent_eq hres
  refine eq_of_residue ?_ (hfits.inRange hθ a)
    (congrFun (residues_quotientTable hθ.respects) a)
  cases a with
  | inl k =>
      rw [hsyms]
      exact hcan.syms.exponent_inRange strict_stringLt k
  | inr v =>
      rw [hvars]
      exact hcan.vars.exponent_inRange strict_nat v

theorem Fits.small (hfits : Fits s u1 u2) (hs : Acyclic s) {x : ℕ} {e : ℤ}
    (hx : (x, e) ∈ (quotientTable s u1 u2).vars) :
    Small (utableDropVar (quotientTable s u1 u2) x).syms ∧
      Small (utableDropVar (quotientTable s u1 u2) x).vars := by
  obtain ⟨θ, hθ⟩ := hs.exists_formal
  have hcan : (quotientTable s u1 u2).Canonical := canonical_quotientTable
  have hres : Resolved s (quotientTable s u1 u2) := resolved_quotientTable hs
  obtain ⟨hsyms, hvars⟩ := hθ.exponent_eq hres
  have hsym : ∀ a ∈ (quotientTable s u1 u2).syms,
      (u1.value symExponents θ - u2.value symExponents θ) (.inl a.1) = a.2 := by
    intro a ha
    rw [← hfits.value_quotientTable hs hθ, hsyms, hcan.syms.exponent_of_mem strict_stringLt ha]
  have hvar : ∀ a ∈ (quotientTable s u1 u2).vars,
      (u1.value symExponents θ - u2.value symExponents θ) (.inr a.1) = a.2 := by
    intro a ha
    rw [← hfits.value_quotientTable hs hθ, hvars, hcan.vars.exponent_of_mem strict_nat ha]
  rcases hfits θ hθ with hall | ⟨v, hv⟩
  · refine ⟨fun a ha => ?_, fun a ha => ?_⟩
    · rw [← hsym a ha]
      exact hall _
    · rw [← hvar a (utableDropVarLoop_subset ha)]
      exact hall _
  · -- the quotient is a power of the pivot, so nothing stands beside it
    have honly : ∀ a ∈ (quotientTable s u1 u2).vars, a.1 = v := by
      intro a ha
      by_contra hne
      have h := hvar a ha
      rw [hv, Finsupp.single_apply, if_neg fun heq => hne (Sum.inr.inj heq).symm] at h
      exact hcan.vars.nonzero a ha h.symm
    refine ⟨fun a ha => ?_, fun a ha => ?_⟩
    · have h := hsym a ha
      rw [hv, Finsupp.single_apply, if_neg nofun] at h
      exact absurd h.symm (hcan.syms.nonzero a ha)
    · have hne : a.1 ≠ x := (hcan.vars.drop hx fun _ => (0 : ℤ)).2 a ha
      exact absurd ((honly a (utableDropVarLoop_subset ha)).trans (honly _ hx).symm) hne

theorem Fits.value_eq_zero (hfits : Fits s u1 u2) (hs : Acyclic s) {θ : ℕ → Exponents}
    (hθ : Respects s symExponents θ)
    (heq : u1.value symExponents θ = u2.value symExponents θ) :
    (quotientTable s u1 u2).value symExponents θ = 0 := by
  obtain ⟨ψ, hψ⟩ := hs.exists_formal
  have hvar : (fun v => spread symExponents θ (ψ v)) = θ := by
    funext v
    exact hψ.spread_eq hs hθ v
  calc (quotientTable s u1 u2).value symExponents θ
      = spread symExponents θ ((quotientTable s u1 u2).value symExponents ψ) := by
        rw [map_tableValue, spread_symExponents, hvar]
    _ = spread symExponents θ (u1.value symExponents ψ - u2.value symExponents ψ) := by
        rw [hfits.value_quotientTable hs hψ]
    _ = u1.value symExponents θ - u2.value symExponents θ := by
        rw [map_sub, hψ.spread_value hs hθ, hψ.spread_value hs hθ]
    _ = 0 := sub_eq_zero.2 heq

theorem Fits.mostGeneral (hfits : Fits s u1 u2) (hs : Acyclic s) (h1 : Abelian s u1)
    (h2 : Abelian s u2) (h : unifyDim engines u1 u2 s = some (some s')) :
    MostGeneral s s' u1 u2 := by
  intro θ hθ heq
  rw [unifyDim_abelian hs h1 h2] at h
  unfold unifyAbelianDiff at h
  split at h
  · obtain rfl := Option.some.inj (Option.some.inj h)
    exact hθ
  · split at h
    · exact nomatch Option.some.inj h
    · next pick hpick =>
        have hmem := utablePickMinVar_mem hpick
        have hcan : (quotientTable s u1 u2).Canonical := canonical_quotientTable
        obtain ⟨hsyms, hvars⟩ := hfits.small hs hmem
        obtain ⟨rest', s1, hdiv, hneg, hgate, rfl⟩ := unifyAbelianPick_some h
        have hbinds := binds_of_pick hcan (resolved_quotientTable hs) hmem hneg hgate
        refine hbinds.respects.2 ⟨hθ, ?_⟩
        exact binds_of_value_eq_zero hcan hmem hsyms hvars hdiv hneg
          (hfits.value_eq_zero hs hθ heq)

theorem unifyDim_of_equal (hs : Acyclic s) (h1 : Abelian s u1) (h2 : Abelian s u2)
    (heq : EqualExponents s u1 u2) : unifyDim engines u1 u2 s = some (some s) := by
  obtain ⟨θ, hθ⟩ := hs.exists_formal
  have hempty : quotientTable s u1 u2 = utableEmpty := by
    refine hθ.table_eq canonical_quotientTable .empty (resolved_quotientTable hs)
      (fun _ he => nomatch he) ?_
    rw [residues_quotientTable hθ.respects, heq θ hθ, sub_self, value_utableEmpty]
  rw [unifyDim_abelian hs h1 h2, unifyAbelianDiff, hempty]
  rfl

end Unify

section Runs

/-- Nothing is bound or constrained. -/
def noSubst : Subst :=
  { unitSlots := [], kindTheories := [], unitVarKinds := [] }

theorem noSubst_unbound (v : ℕ) : Unbound noSubst v :=
  rfl

theorem noSubst_acyclic : Acyclic noSubst :=
  ⟨fun v => Acc.intro v fun _ ⟨_, hu, _⟩ => nomatch hu⟩

def noEngines : Engines where
  unifyDims _ _ _ := none
  unifySemilattice _ _ _ := none
  unifyNominal _ _ _ := none

/-- `u · u ^ 2 ^ 64`, as two powers that a word can hold. -/
def wrapped : UnitExprT :=
  .uMul (.uVar 0) (.uPow (.uPow (.uVar 0) (2 ^ 32)) (2 ^ 32))

theorem wrapped_table : unitToTableResolved wrapped noSubst = { syms := [], vars := [(0, 1)] } := by
  simp [unitToTableResolved, wrapped, unitResolveToAt]
  decide

theorem uVar_table (v : ℕ) :
    unitToTableResolved (.uVar v) noSubst = { syms := [], vars := [(v, 1)] } := by
  simp [unitToTableResolved, unitResolveToAt, noSubst, substUnitLookup]
  rfl

theorem wrapped_abelian : Abelian noSubst wrapped where
  scalar us := by simp [wrapped, unitResolveHabHead]
  semilattice := by rw [wrapped_table]; rfl
  firstOrder := by rw [wrapped_table]; rfl

theorem uVar_abelian (v : ℕ) : Abelian noSubst (.uVar v) where
  scalar us := by
    rw [unitResolveHabHead_unbound (noSubst_unbound v)]
    simp
  semilattice := by rw [uVar_table]; rfl
  firstOrder := by rw [uVar_table]; rfl

theorem unifyDim_of_table {u : UnitExprT} (hu : Abelian noSubst u)
    (htable : unitToTableResolved u noSubst = { syms := [], vars := [(0, 1)] }) :
    unifyDim noEngines u (.uVar 1) noSubst =
      some (some (substUnitExtend noSubst 0 (.uVar 1))) := by
  rw [unifyDim_abelian noSubst_acyclic hu (uVar_abelian 1), quotientTable, htable, uVar_table]
  have hdiff : utableDiff { syms := [], vars := [(0, 1)] } { syms := [], vars := [(1, 1)] } =
      { syms := [], vars := [(0, 1), (1, -1)] } := by decide
  have hdivisible : utableAllDivisible (utableDropVar { syms := [], vars := [(0, 1), (1, -1)] } 0) 1 =
      some true := by decide
  have hnegdiv : utableNegdiv (utableDropVar { syms := [], vars := [(0, 1), (1, -1)] } 0) 1 =
      some { syms := [], vars := [(1, 1)] } := by decide
  have hoccurs : occursUnit 0 (utableToTree { syms := [], vars := [(1, 1)] }) noSubst = false := by
    change occursUnit 0 (.uVar 1) noSubst = false
    rw [occursUnit, uVar_table]
    rfl
  rw [hdiff]
  change unifyAbelianPick _ _ (0, 1) = _
  rw [unifyAbelianPick, hdivisible, hnegdiv]
  simp only [Option.bind_eq_bind, Option.bind_some, ↓reduceIte, hoccurs]
  rfl

theorem uVar_fits : Fits noSubst (.uVar 0) (.uVar 1) := by
  refine fun θ hθ => .inl fun a => ?_
  rw [UnitExprT.value, UnitExprT.value, hθ.unbound 0 (noSubst_unbound 0),
    hθ.unbound 1 (noSubst_unbound 1), Finsupp.sub_apply, Finsupp.single_apply,
    Finsupp.single_apply]
  split <;> split <;> norm_num

end Runs

end Kaikai.Units
