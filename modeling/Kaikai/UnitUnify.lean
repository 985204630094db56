import Kaikai.UnitSubst
import Mathlib.Data.Int.Interval

namespace Kaikai.Units

open Kaikai.Str Kaikai.Word64

section Tables

variable {s : Subst} {t t' : UTable} {θ : ℕ → Exponents}

theorem zsmul_exponents (n : ℤ) (x : Exponents) (a : Atom) : (n • x) a = n * x a :=
  rfl

theorem entriesValue_single {κ : Type} [DecidableEq κ] {f : κ → Exponents} {j : κ → Atom}
    (hj : Function.Injective j) {l : List (κ × ℤ)} (hf : ∀ e ∈ l, f e.1 = Finsupp.single (j e.1) 1) :
    (∀ k, entriesValue f l (j k) = exponent l k) ∧
      ∀ a, (∀ k, j k ≠ a) → entriesValue f l a = 0 := by
  induction l with
  | nil => exact ⟨fun k => rfl, fun a ha => rfl⟩
  | cons e rest ih =>
      obtain ⟨hk, ha⟩ := ih fun b hb => hf b (List.mem_cons_of_mem _ hb)
      have he := hf e List.mem_cons_self
      constructor
      · intro k
        rw [entriesValue_cons, Finsupp.add_apply, hk, exponent_cons, he, zsmul_exponents,
          Finsupp.single_apply]
        simp only [hj.eq_iff, mul_ite, mul_one, mul_zero]
      · intro a hne
        rw [entriesValue_cons, Finsupp.add_apply, ha a hne, he, zsmul_exponents,
          Finsupp.single_apply, if_neg (hne e.1), mul_zero, zero_add]

theorem Formal.exponent_eq (h : Formal s θ) (ht : Resolved s t) :
    (∀ k, t.value symExponents θ (.inl k) = exponent t.syms k) ∧
      ∀ v, t.value symExponents θ (.inr v) = exponent t.vars v := by
  obtain ⟨hsyms, hsyms'⟩ := entriesValue_single (f := symExponents) (j := (.inl : Str → Atom))
    Sum.inl_injective (l := t.syms) fun _ _ => rfl
  obtain ⟨hvars, hvars'⟩ := entriesValue_single (f := θ) (j := (.inr : ℕ → Atom))
    Sum.inr_injective (l := t.vars) fun e he => h.unbound e.1 (ht e he)
  refine ⟨fun k => ?_, fun v => ?_⟩
  · rw [UTable.value, Finsupp.add_apply, hsyms, hvars' _ (by simp), add_zero]
  · rw [UTable.value, Finsupp.add_apply, hvars, hsyms' _ (by simp), zero_add]

/-- Exponents modulo `2 ^ 64`. -/
noncomputable def residues : Exponents →+ (Atom → ZMod (2 ^ 64)) where
  toFun n a := n a
  map_zero' := by
    funext a
    exact Int.cast_zero
  map_add' m n := by
    funext a
    rw [Finsupp.add_apply, Int.cast_add, Pi.add_apply]

theorem eq_of_residue {m n : ℤ} (hm : InRange m) (hn : InRange n)
    (h : (m : ZMod (2 ^ 64)) = n) : m = n := by
  rw [ZMod.intCast_eq_intCast_iff_dvd_sub] at h
  obtain ⟨hmlow, hmhigh⟩ := hm
  obtain ⟨hnlow, hnhigh⟩ := hn
  push_cast at h
  omega

theorem map_tableValue {M N : Type*} [AddCommGroup M] [AddCommGroup N] {sym : Str → M} (φ : M →+ N)
    (ψ : ℕ → M) (t : UTable) :
    φ (t.value sym ψ) = t.value (fun k => φ (sym k)) fun v => φ (ψ v) := by
  have hentries : ∀ {κ : Type} (f : κ → M) (l : List (κ × ℤ)),
      φ (entriesValue f l) = entriesValue (fun k => φ (f k)) l := by
    intro κ f l
    induction l with
    | nil => exact map_zero φ
    | cons e rest ih => rw [entriesValue_cons, entriesValue_cons, map_add, map_zsmul, ih]
  rw [UTable.value, UTable.value, map_add, hentries, hentries]

theorem Formal.table_eq (h : Formal s θ) (ht : t.Canonical) (ht' : t'.Canonical)
    (hres : Resolved s t) (hres' : Resolved s t')
    (heq : residues (t.value symExponents θ) = residues (t'.value symExponents θ)) : t = t' := by
  obtain ⟨hsyms, hvars⟩ := h.exponent_eq hres
  obtain ⟨hsyms', hvars'⟩ := h.exponent_eq hres'
  have hs : t.syms = t'.syms := by
    refine ht.syms.eq_of_exponent strict_stringLt ht'.syms fun k => ?_
    refine eq_of_residue (ht.syms.exponent_inRange strict_stringLt k)
      (ht'.syms.exponent_inRange strict_stringLt k) ?_
    rw [← hsyms, ← hsyms']
    exact congrFun heq (.inl k)
  have hv : t.vars = t'.vars := by
    refine ht.vars.eq_of_exponent strict_nat ht'.vars fun v => ?_
    refine eq_of_residue (ht.vars.exponent_inRange strict_nat v)
      (ht'.vars.exponent_inRange strict_nat v) ?_
    rw [← hvars, ← hvars']
    exact congrFun heq (.inr v)
  cases t
  cases t'
  exact congrArg₂ UTable.mk hs hv

theorem Formal.residues_table (h : Formal s θ) (u : UnitExprT) :
    residues ((unitToTableResolved u s).value symExponents θ) =
      residues (u.value symExponents θ) := by
  rw [map_tableValue, map_value]
  exact value_unitToTableResolved (tame_zmod _) (h.respects.map residues) u

theorem Formal.resolved_eq (hs : Acyclic s) (h : Formal s θ) {u u' : UnitExprT}
    (heq : residues (u.value symExponents θ) = residues (u'.value symExponents θ)) :
    unitToTableResolved u s = unitToTableResolved u' s :=
  h.table_eq (canonical_unitToTableResolved u) (canonical_unitToTableResolved u')
    (resolved_unitToTableResolved hs u) (resolved_unitToTableResolved hs u')
    (by rw [h.residues_table, h.residues_table, heq])

theorem unitToTableResolved_head (hs : Acyclic s) (u : UnitExprT) (seen : List ℕ) :
    unitToTableResolved (unitResolveHabHead s u seen) s = unitToTableResolved u s := by
  obtain ⟨θ, hθ⟩ := hs.exists_formal
  exact hθ.resolved_eq hs (by rw [value_unitResolveHabHead hθ.respects])

end Tables

section Difference

variable {s : Subst}

theorem key_of_mem_entriesDiff {κ : Type} {insert : List (κ × ℤ) → κ → ℤ → List (κ × ℤ)}
    (hinsert : ∀ l k n, ∀ e ∈ insert l k n, e.1 = k ∨ ∃ a ∈ l, a.1 = e.1) {a b : List (κ × ℤ)}
    {e : κ × ℤ} (h : e ∈ entriesDiff insert a b) : ∃ c ∈ a ++ b, c.1 = e.1 := by
  induction b generalizing a with
  | nil => exact ⟨e, List.mem_append_left _ h, rfl⟩
  | cons c rest ih =>
      obtain ⟨k, n⟩ := c
      rw [entriesDiff] at h
      obtain ⟨d, hd, hkey⟩ := ih h
      obtain hd | hd := List.mem_append.1 hd
      · obtain heq | ⟨b, hb, heq⟩ := hinsert a k _ d hd
        · exact ⟨(k, n), List.mem_append_right _ List.mem_cons_self, heq.symm.trans hkey⟩
        · exact ⟨b, List.mem_append_left _ hb, heq.trans hkey⟩
      · exact ⟨d, List.mem_append_right _ (List.mem_cons_of_mem _ hd), hkey⟩

theorem canonical_utableDiff {a : UTable} (ha : a.Canonical) (b : UTable) :
    (utableDiff a b).Canonical :=
  ⟨ha.syms.entriesDiff (fun _ k _ h hn => h.entryInsert strict_stringLt k hn) b.syms,
    ha.vars.entriesDiff (fun _ k _ h hn => h.entryInsert strict_nat k hn) b.vars⟩

theorem resolved_utableDiff {a b : UTable} (ha : Resolved s a) (hb : Resolved s b) :
    Resolved s (utableDiff a b) := by
  intro e he
  obtain ⟨c, hc, heq⟩ := key_of_mem_entriesDiff
    (fun _ _ _ _ h => key_of_mem_entryInsert h) he
  rw [← heq]
  obtain hc | hc := List.mem_append.1 hc
  · exact ha c hc
  · exact hb c hc

end Difference

section Pivot

variable {M : Type*} [AddCommGroup M]

theorem utablePickMinVarPick_mem (l : List (ℕ × ℤ)) (best : ℕ × ℤ) :
    utablePickMinVarPick l best ∈ best :: l := by
  induction l generalizing best with
  | nil => exact List.mem_cons_self
  | cons e tl ih =>
      rw [utablePickMinVarPick]
      split
      · exact List.mem_cons_of_mem _ (ih e)
      · obtain h | h := List.mem_cons.1 (ih best)
        · rw [h]
          exact List.mem_cons_self
        · exact List.mem_cons_of_mem _ (List.mem_cons_of_mem _ h)

theorem utablePickMinVar_mem {t : UTable} {pick : ℕ × ℤ} (h : utablePickMinVar t = some pick) :
    pick ∈ t.vars := by
  unfold utablePickMinVar at h
  split at h
  · exact nomatch h
  · next e rest hvars =>
      rw [hvars, ← Option.some.inj h]
      exact utablePickMinVarPick_mem rest e

theorem utableDropVarLoop_subset {l : List (ℕ × ℤ)} {x : ℕ} {e : ℕ × ℤ}
    (h : e ∈ utableDropVarLoop l x) : e ∈ l := by
  induction l with
  | nil => exact h
  | cons a rest ih =>
      obtain ⟨k, n⟩ := a
      rw [utableDropVarLoop] at h
      split at h
      · exact List.mem_cons_of_mem _ h
      · obtain rfl | h := List.mem_cons.1 h
        · exact List.mem_cons_self
        · exact List.mem_cons_of_mem _ (ih h)

theorem Canonical.drop {l : List (ℕ × ℤ)} (h : Canonical (fun a b : ℕ => decide (a < b)) l)
    {x : ℕ} {n : ℤ} (hx : (x, n) ∈ l) (f : ℕ → M) :
    entriesValue f l = n • f x + entriesValue f (utableDropVarLoop l x) ∧
      ∀ e ∈ utableDropVarLoop l x, e.1 ≠ x := by
  induction l with
  | nil => cases hx
  | cons a rest ih =>
      obtain ⟨k, m⟩ := a
      have hhead := (List.pairwise_cons.1 h.sorted).1
      rw [utableDropVarLoop]
      split
      · next heq =>
          subst heq
          obtain hx | hx := List.mem_cons.1 hx
          · obtain rfl : n = m := congrArg Prod.snd hx
            refine ⟨entriesValue_cons f _ _, fun e he hek => ?_⟩
            have hlt := hhead e he
            rw [hek] at hlt
            simp at hlt
          · have hlt := hhead _ hx
            simp at hlt
      · next hne =>
          obtain hx | hx := List.mem_cons.1 hx
          · exact absurd (congrArg Prod.fst hx).symm hne
          · obtain ⟨hvalue, hkeys⟩ := ih h.tail hx
            refine ⟨?_, List.forall_mem_cons.2 ⟨hne, hkeys⟩⟩
            rw [entriesValue_cons, entriesValue_cons, hvalue, add_left_comm]

theorem key_of_mem_entriesNegdiv {κ : Type} {l l' : List (κ × ℤ)} {k : ℤ}
    (h : entriesNegdiv l k = some l') {e : κ × ℤ} (he : e ∈ l') : ∃ a ∈ l, a.1 = e.1 := by
  induction l generalizing l' with
  | nil =>
      obtain rfl : [] = l' := Option.some.inj h
      cases he
  | cons a rest ih =>
      obtain ⟨b, n⟩ := a
      obtain ⟨q, rest', -, hrest, rfl⟩ := entriesNegdiv_cons h
      obtain rfl | he := List.mem_cons.1 he
      · exact ⟨(b, n), List.mem_cons_self, rfl⟩
      · obtain ⟨c, hc, heq⟩ := ih hrest he
        exact ⟨c, List.mem_cons_of_mem _ hc, heq⟩

theorem vars_factor {atom : UnitExprT} {n : ℤ} : (factor atom n).vars = atom.vars := by
  unfold factor
  split
  · rfl
  · split
    · rfl
    · split <;> rfl

theorem vars_treeChain (acc : UnitExprT) (l : List UnitExprT) :
    (treeChain acc l).vars = acc.vars ++ l.flatMap (·.vars) := by
  induction l generalizing acc with
  | nil => simp [treeChain]
  | cons h tl ih => rw [treeChain, ih, UnitExprT.vars, List.flatMap_cons, List.append_assoc]

theorem vars_utableToTree (t : UTable) : (utableToTree t).vars = t.vars.map (·.1) := by
  have hall : ((t.syms.map fun e => factor (.uSym e.1) e.2) ++
      t.vars.map fun e => factor (.uVar e.1) e.2).flatMap (·.vars) = t.vars.map (·.1) := by
    rw [List.flatMap_append, List.flatMap_map, List.flatMap_map, List.map_eq_flatMap]
    simp [vars_factor, UnitExprT.vars]
  unfold utableToTree
  split
  · next hnil =>
      rw [← hall, hnil]
      rfl
  · next h rest hcons => rw [vars_treeChain, ← hall, hcons, List.flatMap_cons]

theorem factor_ne_uDims {atom : UnitExprT} (hatom : ∀ us, atom ≠ .uDims us) (n : ℤ)
    (us : List UnitExprT) : factor atom n ≠ .uDims us := by
  unfold factor
  split
  · exact hatom us
  · split
    · simp
    · split <;> simp

theorem treeChain_ne_uDims {acc : UnitExprT} (hacc : ∀ us, acc ≠ .uDims us) (l : List UnitExprT)
    (us : List UnitExprT) : treeChain acc l ≠ .uDims us := by
  induction l generalizing acc with
  | nil => exact hacc us
  | cons h tl ih => exact ih fun us => by simp

theorem utableToTree_ne_uDims (t : UTable) (us : List UnitExprT) :
    utableToTree t ≠ .uDims us := by
  unfold utableToTree
  split
  · simp
  · next h rest hcons =>
      refine treeChain_ne_uDims (fun us => ?_) rest us
      have hmem : h ∈ t.syms.map (fun e => factor (.uSym e.1) e.2) ++
          t.vars.map fun e => factor (.uVar e.1) e.2 := by
        rw [hcons]
        exact List.mem_cons_self
      obtain hmem | hmem := List.mem_append.1 hmem
      · obtain ⟨e, -, rfl⟩ := List.mem_map.1 hmem
        exact factor_ne_uDims (fun us => by simp) e.2 us
      · obtain ⟨e, -, rfl⟩ := List.mem_map.1 hmem
        exact factor_ne_uDims (fun us => by simp) e.2 us

end Pivot

section Binding

/-- `s'` binds the unbound `x` to a unit over other unbound variables. -/
structure Binds (s s' : Subst) (x : ℕ) (bound : UnitExprT) : Prop where
  unbound : Unbound s x
  fresh : ∀ w ∈ bound.vars, Unbound s w ∧ w ≠ x
  scalar : ∀ us, bound ≠ .uDims us
  lookup : ∀ w, substUnitLookup s' w = if w = x then some bound else substUnitLookup s w

variable {s s' : Subst} {x : ℕ} {bound : UnitExprT}

theorem Binds.lookup_self (h : Binds s s' x bound) : substUnitLookup s' x = some bound := by
  rw [h.lookup, if_pos rfl]

theorem Binds.lookup_of_ne (h : Binds s s' x bound) {w : ℕ} (hw : w ≠ x) :
    substUnitLookup s' w = substUnitLookup s w := by
  rw [h.lookup, if_neg hw]

theorem Binds.ne (h : Binds s s' x bound) {w : ℕ} {u : UnitExprT}
    (hw : substUnitLookup s w = some u) : w ≠ x := by
  rintro rfl
  exact nomatch hw.symm.trans h.unbound

theorem Binds.unbound_of_mem (h : Binds s s' x bound) {w : ℕ} (hw : w ∈ bound.vars) :
    Unbound s' w :=
  (h.lookup_of_ne (h.fresh w hw).2).trans (h.fresh w hw).1

theorem Binds.acyclic (h : Binds s s' x bound) (hs : Acyclic s) : Acyclic s' := by
  refine ⟨fun v => ?_⟩
  induction v using hs.induction with
  | _ v ih =>
      refine Acc.intro v fun w hw => ?_
      obtain ⟨u, hu, hmem⟩ := hw
      by_cases hv : v = x
      · subst hv
        obtain rfl : bound = u := Option.some.inj (h.lookup_self.symm.trans hu)
        refine Acc.intro w fun y hy => ?_
        obtain ⟨b, hb, -⟩ := hy
        exact nomatch hb.symm.trans (h.unbound_of_mem hmem)
      · rw [h.lookup_of_ne hv] at hu
        exact ih w ⟨u, hu, hmem⟩

theorem Binds.respects {M : Type*} [AddCommGroup M] {sym : Str → M} {θ : ℕ → M}
    (h : Binds s s' x bound) :
    Respects s' sym θ ↔ Respects s sym θ ∧ θ x = bound.value sym θ := by
  constructor
  · intro hθ
    refine ⟨fun v u hv => hθ v u ?_, hθ x bound h.lookup_self⟩
    rw [h.lookup_of_ne (h.ne hv), hv]
  · rintro ⟨hθ, hx⟩ v u hv
    by_cases heq : v = x
    · subst heq
      obtain rfl : bound = u := Option.some.inj (h.lookup_self.symm.trans hv)
      exact hx
    · rw [h.lookup_of_ne heq] at hv
      exact hθ v u hv

theorem unitResolveHabHead_seen (s : Subst) {v : ℕ} {seen : List ℕ} (hseen : v ∈ seen) :
    unitResolveHabHead s (.uVar v) seen = .uVar v := by
  unfold unitResolveHabHead
  exact dif_pos hseen

theorem unitResolveHabHead_bound {v : ℕ} {seen : List ℕ} {b : UnitExprT} (hseen : v ∉ seen)
    (hv : substUnitLookup s v = some b) :
    unitResolveHabHead s (.uVar v) seen = unitResolveHabHead s b (v :: seen) := by
  rw [unitResolveHabHead, dif_neg hseen]
  split
  · next c hc => rw [Option.some.inj (hv.symm.trans hc)]
  · next hnone =>
      rw [hv] at hnone
      cases hnone

theorem unitResolveHabHead_unbound {v : ℕ} (hv : Unbound s v) (seen : List ℕ) :
    unitResolveHabHead s (.uVar v) seen = .uVar v := by
  unfold unitResolveHabHead
  split
  · rfl
  · split
    · next c hc =>
        rw [Unbound, hc] at hv
        cases hv
    · rfl

theorem unitResolveHabHead_of_unbound {u : UnitExprT} (hu : ∀ v ∈ u.vars, Unbound s v)
    (seen : List ℕ) : unitResolveHabHead s u seen = u := by
  cases u with
  | uVar v => exact unitResolveHabHead_unbound (hu v List.mem_cons_self) seen
  | _ =>
      rw [unitResolveHabHead]
      simp

theorem Binds.head_ne_uDims (h : Binds s s' x bound) (u : UnitExprT) (seen : List ℕ)
    (hu : ∀ us, unitResolveHabHead s u seen ≠ .uDims us) (us : List UnitExprT) :
    unitResolveHabHead s' u seen ≠ .uDims us := by
  match u with
  | .uVar v =>
      by_cases hseen : v ∈ seen
      · rw [unitResolveHabHead_seen s' hseen]
        simp
      · cases hv : substUnitLookup s v with
        | some b =>
            rw [unitResolveHabHead_bound hseen hv] at hu
            rw [unitResolveHabHead_bound hseen ((h.lookup_of_ne (h.ne hv)).trans hv)]
            exact h.head_ne_uDims b (v :: seen) hu us
        | none =>
            by_cases hx : v = x
            · subst hx
              rw [unitResolveHabHead_bound hseen h.lookup_self,
                unitResolveHabHead_of_unbound fun w hw => h.unbound_of_mem hw]
              exact h.scalar us
            · rw [unitResolveHabHead_unbound ((h.lookup_of_ne hx).trans hv)]
              simp
  | .uDims ys =>
      rw [unitResolveHabHead] at hu
      · exact absurd rfl (hu ys)
      · simp
  | .uOne | .uSym _ | .uMul _ _ | .uInv _ | .uPow _ _ | .uJoin _ _ | .uParam _ =>
      rw [unitResolveHabHead] <;> simp
termination_by unseen s seen
decreasing_by exact unseen_cons_lt (lt_of_substUnitLookup ‹_›) ‹_›

end Binding

section Kinds

variable {s s' : Subst} {k : Str}

theorem ukConstrainVars_lookup {l : List (ℕ × ℤ)} (h : ukConstrainVars l k s = some s') (w : ℕ) :
    substUnitLookup s' w = substUnitLookup s w := by
  induction l generalizing s with
  | nil =>
      obtain rfl : s = s' := Option.some.inj h
      rfl
  | cons e rest ih =>
      obtain ⟨v, n⟩ := e
      rw [ukConstrainVars] at h
      split at h
      · rw [ih h, substUnitLookup_addUnitKind]
      · split at h
        · exact ih h
        · exact nomatch h

theorem substUnitKindLookup_kept {v w : ℕ} {k' : Str} (hv : substUnitKindLookup s v = none)
    (hw : substUnitKindLookup s w = some k') :
    substUnitKindLookup (substAddUnitKind s v k) w = some k' := by
  by_cases hk : k = []
  · rwa [substAddUnitKind, if_pos hk]
  · rw [substUnitKindLookup_addUnitKind s v hk, if_neg, hw]
    rintro rfl
    rw [hv] at hw
    cases hw

theorem ukConstrainVars_kept {l : List (ℕ × ℤ)} (h : ukConstrainVars l k s = some s') {w : ℕ}
    {k' : Str} (hw : substUnitKindLookup s w = some k') : substUnitKindLookup s' w = some k' := by
  induction l generalizing s with
  | nil =>
      obtain rfl : s = s' := Option.some.inj h
      exact hw
  | cons e rest ih =>
      obtain ⟨v, n⟩ := e
      rw [ukConstrainVars] at h
      split at h
      · next hnone => exact ih h (substUnitKindLookup_kept hnone hw)
      · split at h
        · exact ih h hw
        · exact nomatch h

theorem ukConstrainVars_kind (hk : k ≠ []) {l : List (ℕ × ℤ)}
    (h : ukConstrainVars l k s = some s') : ∀ e ∈ l, substUnitKindLookup s' e.1 = some k := by
  induction l generalizing s with
  | nil => exact fun _ he => nomatch he
  | cons e rest ih =>
      obtain ⟨v, n⟩ := e
      rw [ukConstrainVars] at h
      split at h
      · next hnone =>
          refine List.forall_mem_cons.2 ⟨ukConstrainVars_kept h ?_, ih h⟩
          rw [substUnitKindLookup_addUnitKind s v hk, if_pos rfl]
      · next k2 hk2 =>
          split at h
          · next heq =>
              subst heq
              exact List.forall_mem_cons.2 ⟨ukConstrainVars_kept h hk2, ih h⟩
          · exact nomatch h

/-- The symbols and the variables of a unit meet the kind of a variable. -/
structure OfKind (s : Subst) (u : UnitExprT) (k : Str) : Prop where
  syms : ∀ e ∈ (unitToTable u).syms, unitSymKindName e.1 = k
  vars : ∀ e ∈ (unitToTable u).vars, substUnitKindLookup s e.1 = some k

theorem unitKindGate_lookup {v : ℕ} {bound : UnitExprT} (h : unitKindGate s v bound = some s')
    (w : ℕ) : substUnitLookup s' w = substUnitLookup s w := by
  unfold unitKindGate at h
  split at h
  · obtain rfl : s = s' := Option.some.inj h
    rfl
  · dsimp only at h
    split at h
    · exact ukConstrainVars_lookup h w
    · exact nomatch h

theorem unitKindGate_ofKind {v : ℕ} {bound : UnitExprT} (h : unitKindGate s v bound = some s')
    (hv : substUnitKindLookup s v = some k) (hk : k ≠ []) : OfKind s' bound k := by
  unfold unitKindGate at h
  rw [hv] at h
  dsimp only at h
  split at h
  · next hsyms =>
      refine ⟨fun e he => ?_, ukConstrainVars_kind hk h⟩
      exact of_decide_eq_true (List.all_eq_true.1 hsyms e he)
  · exact nomatch h

theorem unitKindGate_kept {v : ℕ} {bound : UnitExprT} (h : unitKindGate s v bound = some s')
    {w : ℕ} (hw : substUnitKindLookup s w = some k) : substUnitKindLookup s' w = some k := by
  unfold unitKindGate at h
  split at h
  · obtain rfl : s = s' := Option.some.inj h
    exact hw
  · dsimp only at h
    split at h
    · exact ukConstrainVars_kept h hw
    · exact nomatch h

end Kinds

section Solving

variable {M : Type*} [AddCommGroup M] {s s' : Subst} {t rest rest' : UTable} {e : ℤ}

/-- Every exponent has an opposite. -/
def Small {κ : Type} (l : List (κ × ℤ)) : Prop :=
  ∀ e ∈ l, |e.2| < 2 ^ 63

theorem Small.negates {κ : Type} {l : List (κ × ℤ)} (h : Small l) (M : Type*) [AddCommGroup M] :
    Negates M l := by
  intro e he m
  have hsmall := abs_lt.1 (h e he)
  rw [wrap_eq_self (by omega) (by omega), neg_smul]

theorem Small.negdiv {κ : Type} {l l' : List (κ × ℤ)} {k : ℤ} (h : Small l)
    (hl : entriesNegdiv l k = some l') : Small l' := by
  induction l generalizing l' with
  | nil =>
      obtain rfl : [] = l' := Option.some.inj hl
      exact h
  | cons a rest ih =>
      obtain ⟨b, n⟩ := a
      obtain ⟨q, rest', hq, hrest, rfl⟩ := entriesNegdiv_cons hl
      have hn := abs_lt.1 (h (b, n) List.mem_cons_self)
      have hneg : Word64.sub 0 n = -n := by
        rw [Word64.sub, zero_sub]
        exact wrap_eq_self (by omega) (by omega)
      have hquot : |q| < 2 ^ 63 := by
        rw [← eq_of_div_eq_some hq, hneg, Int.abs_eq_natAbs, Int.natAbs_tdiv, Int.natAbs_neg]
        have hle : n.natAbs.div k.natAbs ≤ n.natAbs := Nat.div_le_self _ _
        omega
      exact List.forall_mem_cons.2
        ⟨hquot, ih (fun e he => h e (List.mem_cons_of_mem _ he)) hrest⟩

theorem utableNegdiv_some (h : utableNegdiv rest e = some rest') :
    entriesNegdiv rest.syms e = some rest'.syms ∧ entriesNegdiv rest.vars e = some rest'.vars := by
  unfold utableNegdiv at h
  obtain ⟨syms, hsyms, h⟩ := Option.bind_eq_some_iff.1 h
  obtain ⟨vars, hvars, h⟩ := Option.bind_eq_some_iff.1 h
  obtain rfl := Option.some.inj h
  exact ⟨hsyms, hvars⟩

theorem utableAllDivisible_some (h : utableAllDivisible rest e = some true) :
    entriesDivisible rest.syms e = some true ∧ entriesDivisible rest.vars e = some true := by
  unfold utableAllDivisible at h
  obtain ⟨b, hsyms, h⟩ := Option.bind_eq_some_iff.1 h
  split at h
  · next hb => exact ⟨by rw [hsyms, hb], h⟩
  · exact nomatch h

theorem unifyAbelianPick_some {pick : ℕ × ℤ} (h : unifyAbelianPick t s pick = some (some s')) :
    ∃ rest' s1, utableAllDivisible (utableDropVar t pick.1) pick.2 = some true ∧
      utableNegdiv (utableDropVar t pick.1) pick.2 = some rest' ∧
      unitKindGate s pick.1 (utableToTree rest') = some s1 ∧
      s' = substUnitExtend s1 pick.1 (utableToTree rest') := by
  unfold unifyAbelianPick at h
  obtain ⟨b, hb, h⟩ := Option.bind_eq_some_iff.1 h
  split at h
  · next htrue =>
      obtain ⟨rest', hrest', h⟩ := Option.bind_eq_some_iff.1 h
      dsimp only at h
      split at h
      · exact nomatch h
      · obtain ⟨s1, hs1, heq⟩ := Option.map_eq_some_iff.1 (Option.some.inj h)
        exact ⟨rest', s1, by rw [hb, htrue], hrest', hs1, heq.symm⟩
  · exact nomatch h

theorem binds_of_pick (hcan : t.Canonical) (hres : Resolved s t) {x : ℕ} (hx : (x, e) ∈ t.vars)
    (hneg : utableNegdiv (utableDropVar t x) e = some rest') {s1 : Subst}
    (hgate : unitKindGate s x (utableToTree rest') = some s1) :
    Binds s (substUnitExtend s1 x (utableToTree rest')) x (utableToTree rest') where
  unbound := hres _ hx
  fresh w hw := by
    rw [vars_utableToTree] at hw
    obtain ⟨a, ha, rfl⟩ := List.mem_map.1 hw
    obtain ⟨c, hc, hkey⟩ := key_of_mem_entriesNegdiv (utableNegdiv_some hneg).2 ha
    rw [← hkey]
    exact ⟨hres c (utableDropVarLoop_subset hc), (hcan.vars.drop hx fun _ => (0 : ℤ)).2 c hc⟩
  scalar := utableToTree_ne_uDims rest'
  lookup w := by rw [substUnitLookup_extend, unitKindGate_lookup hgate]

theorem value_negdiv (sym : Str → M) (θ : ℕ → M) (hrange : rest.Canonical)
    (hdiv : utableAllDivisible rest e = some true) (hneg : utableNegdiv rest e = some rest')
    (hsyms : Negates M rest.syms) (hvars : Negates M rest.vars) :
    e • rest'.value sym θ = -rest.value sym θ := by
  obtain ⟨hdivs, hdivv⟩ := utableAllDivisible_some hdiv
  obtain ⟨hnegs, hnegv⟩ := utableNegdiv_some hneg
  rw [UTable.value, smul_add, entriesValue_negdiv sym hrange.syms.range hdivs hnegs hsyms,
    entriesValue_negdiv θ hrange.vars.range hdivv hnegv hvars, UTable.value, neg_add]

theorem value_drop (sym : Str → M) (θ : ℕ → M) (hcan : t.Canonical) {x : ℕ}
    (hx : (x, e) ∈ t.vars) :
    t.value sym θ = e • θ x + (utableDropVar t x).value sym θ := by
  rw [UTable.value, (hcan.vars.drop hx θ).1, UTable.value]
  exact add_left_comm _ _ _

theorem Canonical.utableDropVarLoop {l : List (ℕ × ℤ)}
    (h : Canonical (fun a b : ℕ => decide (a < b)) l) (x : ℕ) :
    Canonical (fun a b : ℕ => decide (a < b)) (utableDropVarLoop l x) := by
  induction l with
  | nil => exact h
  | cons a rest ih =>
      obtain ⟨k, n⟩ := a
      rw [Units.utableDropVarLoop]
      split
      · exact h.tail
      · refine (ih h.tail).cons (fun b hb => ?_) (h.range _ List.mem_cons_self)
          (h.nonzero _ List.mem_cons_self)
        exact (List.pairwise_cons.1 h.sorted).1 b (utableDropVarLoop_subset hb)

theorem UTable.Canonical.utableDropVar (h : t.Canonical) (x : ℕ) :
    (utableDropVar t x).Canonical :=
  ⟨h.syms, h.vars.utableDropVarLoop x⟩

theorem value_eq_zero_of_binds (hM : Tame M) {sym : Str → M} {θ : ℕ → M} (hcan : t.Canonical)
    {x : ℕ} (hx : (x, e) ∈ t.vars)
    (hdiv : utableAllDivisible (utableDropVar t x) e = some true)
    (hneg : utableNegdiv (utableDropVar t x) e = some rest')
    (hbound : θ x = (utableToTree rest').value sym θ) : t.value sym θ = 0 := by
  rw [value_drop sym θ hcan hx, hbound,
    value_utableToTree sym θ (hM.negates _) (hM.negates _),
    value_negdiv sym θ (hcan.utableDropVar x) hdiv hneg (hM.negates _) (hM.negates _),
    neg_add_cancel]

theorem binds_of_value_eq_zero {sym : Str → Exponents} {θ : ℕ → Exponents} (hcan : t.Canonical)
    {x : ℕ} (hx : (x, e) ∈ t.vars) (hsyms : Small (utableDropVar t x).syms)
    (hvars : Small (utableDropVar t x).vars)
    (hdiv : utableAllDivisible (utableDropVar t x) e = some true)
    (hneg : utableNegdiv (utableDropVar t x) e = some rest') (hzero : t.value sym θ = 0) :
    θ x = (utableToTree rest').value sym θ := by
  obtain ⟨hnegs, hnegv⟩ := utableNegdiv_some hneg
  have hpivot := value_drop sym θ hcan hx
  have hquot := value_negdiv sym θ (hcan.utableDropVar x) hdiv hneg (hsyms.negates _)
    (hvars.negates _)
  rw [value_utableToTree sym θ ((hsyms.negdiv hnegs).negates _) ((hvars.negdiv hnegv).negates _)]
  have hcancel : e • θ x = e • rest'.value sym θ := by
    rw [hquot]
    exact eq_neg_of_add_eq_zero_left (hpivot.symm.trans hzero)
  ext a
  have ha := DFunLike.congr_fun hcancel a
  rw [zsmul_exponents, zsmul_exponents] at ha
  exact mul_left_cancel₀ (hcan.vars.nonzero _ hx) ha

end Solving

end Kaikai.Units
