import Kaikai.UnitTable
import Mathlib.Algebra.Module.Basic
import Mathlib.Data.ZMod.Basic
import Mathlib.Tactic.Abel

/-!
What units and their tables stand for in an abelian group. A word that wraps still acts as the
exact exponent where `2 ^ 64` acts as zero.
-/

namespace Kaikai.Units

open Kaikai.Str Kaikai.Word64

variable {M : Type*} [AddCommGroup M]

mutual

/-- The value of a unit, from those of the symbols and of the variables. -/
def UnitExprT.value (sym : Str → M) (θ : ℕ → M) : UnitExprT → M
  | .uOne => 0
  | .uSym k => sym k
  | .uParam p => sym (unitParamAtom p)
  | .uVar v => θ v
  | .uMul a b => a.value sym θ + b.value sym θ
  | .uInv a => -a.value sym θ
  | .uPow a n => n • a.value sym θ
  | .uJoin a b => a.value sym θ + b.value sym θ
  | .uDims us => valueAll sym θ us

def valueAll (sym : Str → M) (θ : ℕ → M) : List UnitExprT → M
  | [] => 0
  | u :: rest => u.value sym θ + valueAll sym θ rest

end

def entriesValue {κ : Type} (f : κ → M) (l : List (κ × ℤ)) : M :=
  (l.map fun e => e.2 • f e.1).sum

def UTable.value (sym : Str → M) (θ : ℕ → M) (t : UTable) : M :=
  entriesValue sym t.syms + entriesValue θ t.vars

/-- Words that wrap act as exact exponents. -/
def Tame (M : Type*) [AddCommGroup M] : Prop :=
  ∀ (n : ℤ) (m : M), wrap n • m = n • m

theorem tame_zmod (ι : Type) : Tame (ι → ZMod (2 ^ 64)) := by
  intro n m
  obtain ⟨k, hk⟩ := exists_wrap_eq n
  funext i
  have hzero : (2 : ZMod (2 ^ 64)) ^ 64 = 0 := by
    have hself := ZMod.natCast_self (2 ^ 64)
    rwa [Nat.cast_pow, Nat.cast_ofNat] at hself
  have hmodulus : ((2 ^ 64 : ℤ) • m) i = 0 := by
    rw [Pi.smul_apply, zsmul_eq_mul, Int.cast_pow, Int.cast_ofNat, hzero, zero_mul]
  rw [hk, add_smul, Pi.add_apply, mul_smul, add_eq_left, Pi.smul_apply, hmodulus, smul_zero]

section Entries

variable {κ : Type} (f : κ → M)

theorem entriesValue_nil : entriesValue f [] = 0 :=
  rfl

theorem entriesValue_cons (e : κ × ℤ) (l : List (κ × ℤ)) :
    entriesValue f (e :: l) = e.2 • f e.1 + entriesValue f l :=
  List.sum_cons

theorem entriesValue_entryInsert [DecidableEq κ] (hM : Tame M) (lt : κ → κ → Bool)
    (l : List (κ × ℤ)) (k : κ) (n : ℤ) :
    entriesValue f (entryInsert lt l k n) = entriesValue f l + n • f k := by
  induction l with
  | nil =>
      rw [entryInsert]
      split
      · next hn => rw [hn, zero_smul, add_zero]
      · rw [entriesValue_cons, entriesValue_nil, add_comm]
  | cons e rest ih =>
      obtain ⟨hk, hn⟩ := e
      rw [entryInsert]
      split
      · next heq =>
          subst heq
          have hadd : add hn n • f hk = hn • f hk + n • f hk := by rw [add, hM, add_smul]
          split
          · next hzero =>
              rw [hzero, zero_smul] at hadd
              rw [entriesValue_cons, add_right_comm, ← hadd, zero_add]
          · rw [entriesValue_cons, entriesValue_cons, hadd, add_right_comm]
      · split
        · split
          · next hn => rw [hn, zero_smul, add_zero]
          · rw [entriesValue_cons, add_comm]
        · rw [entriesValue_cons, entriesValue_cons, ih, add_assoc]

theorem entriesValue_entriesDiff (hM : Tame M) {insert : List (κ × ℤ) → κ → ℤ → List (κ × ℤ)}
    (hinsert : ∀ l k n, entriesValue f (insert l k n) = entriesValue f l + n • f k)
    (a b : List (κ × ℤ)) :
    entriesValue f (entriesDiff insert a b) = entriesValue f a - entriesValue f b := by
  induction b generalizing a with
  | nil => rw [entriesDiff, entriesValue_nil, sub_zero]
  | cons e rest ih =>
      obtain ⟨k, n⟩ := e
      rw [entriesDiff, ih, hinsert, entriesValue_cons, Word64.sub, hM, zero_sub, neg_smul]
      abel

end Entries

section Tables

variable (sym : Str → M) (θ : ℕ → M)

theorem value_utableEmpty : utableEmpty.value sym θ = 0 :=
  add_zero 0

theorem value_insertSym (hM : Tame M) (t : UTable) (k : Str) (n : ℤ) :
    (t.insertSym k n).value sym θ = t.value sym θ + n • sym k := by
  rw [UTable.value, UTable.insertSym, usymInsert, entriesValue_entryInsert _ hM, UTable.value]
  abel

theorem value_insertVar (hM : Tame M) (t : UTable) (v : ℕ) (n : ℤ) :
    (t.insertVar v n).value sym θ = t.value sym θ + n • θ v := by
  rw [UTable.value, UTable.insertVar, uvarInsert, entriesValue_entryInsert _ hM, UTable.value]
  abel

theorem value_utableDiff (hM : Tame M) (a b : UTable) :
    (utableDiff a b).value sym θ = a.value sym θ - b.value sym θ := by
  have hsyms : entriesValue sym (utableDiff a b).syms = _ :=
    entriesValue_entriesDiff sym hM (entriesValue_entryInsert sym hM stringLt) a.syms b.syms
  have hvars : entriesValue θ (utableDiff a b).vars = _ :=
    entriesValue_entriesDiff θ hM (entriesValue_entryInsert θ hM _) a.vars b.vars
  rw [UTable.value, hsyms, hvars, UTable.value, UTable.value]
  abel

theorem value_treeChain (acc : UnitExprT) (l : List UnitExprT) :
    (treeChain acc l).value sym θ = acc.value sym θ + (l.map (·.value sym θ)).sum := by
  induction l generalizing acc with
  | nil => rw [treeChain, List.map_nil, List.sum_nil, add_zero]
  | cons h tl ih =>
      rw [treeChain, ih, UnitExprT.value, List.map_cons, List.sum_cons, add_assoc]

/-- The opposites of a list of exponents act as they should. -/
def Negates (M : Type*) [AddCommGroup M] {κ : Type} (l : List (κ × ℤ)) : Prop :=
  ∀ e ∈ l, ∀ m : M, wrap (-e.2) • m = -(e.2 • m)

theorem Tame.negates (hM : Tame M) {κ : Type} (l : List (κ × ℤ)) : Negates M l := by
  intro e _ m
  rw [hM, neg_smul]

theorem value_factor (atom : UnitExprT) {n : ℤ} (h : ∀ m : M, wrap (-n) • m = -(n • m)) :
    (factor atom n).value sym θ = n • atom.value sym θ := by
  unfold factor
  split
  · next hn => rw [hn, one_smul]
  · split
    · next hn => rw [hn, UnitExprT.value, neg_smul, one_smul]
    · split
      · rw [UnitExprT.value]
      · rw [UnitExprT.value, UnitExprT.value, Word64.sub, zero_sub, h, neg_neg]

theorem value_factors {κ : Type} (atom : κ → UnitExprT) {l : List (κ × ℤ)} (h : Negates M l) :
    ((l.map fun e => factor (atom e.1) e.2).map (·.value sym θ)).sum =
      entriesValue (fun k => (atom k).value sym θ) l := by
  rw [List.map_map, entriesValue]
  congr 1
  exact List.map_congr_left fun e he => value_factor sym θ (atom e.1) (h e he)

theorem value_utableToTree {t : UTable} (hsyms : Negates M t.syms) (hvars : Negates M t.vars) :
    (utableToTree t).value sym θ = t.value sym θ := by
  have hsum : (((t.syms.map fun e => factor (.uSym e.1) e.2) ++
      t.vars.map fun e => factor (.uVar e.1) e.2).map (·.value sym θ)).sum = t.value sym θ := by
    rw [List.map_append, List.sum_append, value_factors sym θ (.uSym ·) hsyms,
      value_factors sym θ (.uVar ·) hvars]
    rfl
  unfold utableToTree
  split
  · next hnil => rw [← hsum, hnil, List.map_nil, List.sum_nil, UnitExprT.value]
  · next h rest hcons => rw [value_treeChain, ← hsum, hcons, List.map_cons, List.sum_cons]

end Tables

section Division

variable {κ : Type} (f : κ → M)

theorem eq_of_div_eq_some {n k q : ℤ} (h : Word64.div n k = some q) : n.tdiv k = q := by
  unfold Word64.div at h
  split at h
  · exact nomatch h
  · split at h
    · exact nomatch h
    · exact Option.some.inj h

theorem tmod_inRange {n : ℤ} (k : ℤ) (h : InRange n) : InRange (n.tmod k) := by
  obtain ⟨hlow, hhigh⟩ := h
  have habs : (n.tmod k).natAbs ≤ n.natAbs := by
    rw [Int.natAbs_tmod]
    exact Nat.mod_le _ _
  by_cases hn : 0 ≤ n
  · have hsign := Int.tmod_nonneg k hn
    exact ⟨by omega, by omega⟩
  · have hsign := Int.tmod_nonneg (a := -n) k (by omega)
    rw [Int.neg_tmod] at hsign
    exact ⟨by omega, by omega⟩

theorem dvd_of_check {n k q : ℤ} (hn : InRange n) (hdiv : Word64.div n k = some q)
    (hcheck : Word64.sub n (Word64.mul q k) = 0) : k ∣ n := by
  obtain rfl := eq_of_div_eq_some hdiv
  refine Int.dvd_of_tmod_eq_zero ?_
  have hmod : n - n.tdiv k * k = n.tmod k := by linarith [Int.tdiv_mul_add_tmod n k]
  obtain ⟨j, hj⟩ := exists_wrap_eq (n.tdiv k * k)
  have hrange := tmod_inRange k hn
  rw [Word64.sub, Word64.mul, hj] at hcheck
  have hwrap : wrap (n - (n.tdiv k * k + j * 2 ^ 64)) = wrap (n.tmod k) := by
    rw [← hmod]
    unfold wrap
    omega
  rw [hwrap, wrap_eq_self hrange.1 hrange.2] at hcheck
  exact hcheck

theorem dvd_wrap_neg {n k : ℤ} (hn : InRange n) (h : k ∣ n) : k ∣ wrap (-n) := by
  obtain ⟨hlow, hhigh⟩ := hn
  by_cases hleast : n = -2 ^ 63
  · have hwrap : wrap (-n) = n := by
      unfold wrap
      omega
    rwa [hwrap]
  · have hwrap : wrap (-n) = -n := wrap_eq_self (by omega) (by omega)
    rwa [hwrap, dvd_neg]

theorem entriesDivisible_cons {a : κ} {n k : ℤ} {rest : List (κ × ℤ)}
    (h : entriesDivisible ((a, n) :: rest) k = some true) :
    ∃ q, Word64.div n k = some q ∧ Word64.sub n (Word64.mul q k) = 0 ∧
      entriesDivisible rest k = some true := by
  rw [entriesDivisible] at h
  obtain ⟨q, hq, hrest⟩ := Option.bind_eq_some_iff.1 h
  split at hrest
  · next hcheck => exact ⟨q, hq, hcheck, hrest⟩
  · exact nomatch hrest

theorem entriesNegdiv_cons {a : κ} {n k : ℤ} {rest l' : List (κ × ℤ)}
    (h : entriesNegdiv ((a, n) :: rest) k = some l') :
    ∃ q rest', Word64.div (Word64.sub 0 n) k = some q ∧ entriesNegdiv rest k = some rest' ∧
      l' = (a, q) :: rest' := by
  rw [entriesNegdiv] at h
  obtain ⟨q, hq, h⟩ := Option.bind_eq_some_iff.1 h
  obtain ⟨rest', hrest, h⟩ := Option.bind_eq_some_iff.1 h
  exact ⟨q, rest', hq, hrest, (Option.some.inj h).symm⟩

theorem entriesValue_negdiv {l l' : List (κ × ℤ)} {k : ℤ} (hrange : ∀ e ∈ l, InRange e.2)
    (hdivisible : entriesDivisible l k = some true) (hl : entriesNegdiv l k = some l')
    (hnegates : Negates M l) : k • entriesValue f l' = -entriesValue f l := by
  induction l generalizing l' with
  | nil =>
      obtain rfl : [] = l' := Option.some.inj hl
      change k • (0 : M) = -0
      rw [smul_zero, neg_zero]
  | cons e rest ih =>
      obtain ⟨a, n⟩ := e
      obtain ⟨q, hq, hcheck, hdivisible⟩ := entriesDivisible_cons hdivisible
      obtain ⟨q', rest', hq', hrest, rfl⟩ := entriesNegdiv_cons hl
      have hn := hrange (a, n) List.mem_cons_self
      have ih := ih (fun e he => hrange e (List.mem_cons_of_mem _ he)) hdivisible hrest
        fun e he => hnegates e (List.mem_cons_of_mem _ he)
      have hexact : k * q' = wrap (-n) := by
        rw [← eq_of_div_eq_some hq', Word64.sub, zero_sub]
        exact Int.mul_tdiv_cancel' (dvd_wrap_neg hn (dvd_of_check hn hq hcheck))
      rw [entriesValue_cons, entriesValue_cons, smul_add, ih, ← mul_smul, hexact,
        hnegates (a, n) List.mem_cons_self, neg_add]

end Division

section Canonical

variable {κ : Type}

/-- Sorted by key, without a zero exponent. -/
structure Canonical (lt : κ → κ → Bool) (l : List (κ × ℤ)) : Prop where
  sorted : l.Pairwise fun a b => lt a.1 b.1 = true
  range : ∀ e ∈ l, InRange e.2
  nonzero : ∀ e ∈ l, e.2 ≠ 0

/-- A strict order that compares any two keys. -/
structure Strict (lt : κ → κ → Bool) : Prop where
  irrefl : ∀ a, lt a a = false
  trans : ∀ a b c, lt a b = true → lt b c = true → lt a c = true
  total : ∀ a b, a ≠ b → lt a b = false → lt b a = true

theorem strict_stringLt : Strict stringLt where
  irrefl a := by
    rw [← Bool.not_eq_true, stringLt_iff]
    exact lt_irrefl _
  trans a b c hab hbc := by
    rw [stringLt_iff] at *
    exact hab.trans hbc
  total a b hne hab := by
    rw [← Bool.not_eq_true, stringLt_iff] at hab
    rw [stringLt_iff]
    exact lt_of_le_of_ne (not_lt.1 hab) fun h => hne (codes_injective h).symm

theorem strict_nat : Strict fun a b : ℕ => decide (a < b) where
  irrefl a := by simp
  trans a b c hab hbc := by
    simp only [decide_eq_true_eq] at *
    omega
  total a b hne hab := by
    simp only [decide_eq_true_eq, decide_eq_false_iff_not] at *
    omega

variable {lt : κ → κ → Bool} {l : List (κ × ℤ)}

theorem Canonical.nil : Canonical lt [] :=
  ⟨.nil, by simp, by simp⟩

theorem Canonical.tail {e : κ × ℤ} (h : Canonical lt (e :: l)) : Canonical lt l :=
  ⟨(List.pairwise_cons.1 h.sorted).2, fun a ha => h.range a (List.mem_cons_of_mem _ ha),
    fun a ha => h.nonzero a (List.mem_cons_of_mem _ ha)⟩

theorem Canonical.cons {e : κ × ℤ} (h : Canonical lt l) (hlt : ∀ a ∈ l, lt e.1 a.1 = true)
    (hrange : InRange e.2) (hne : e.2 ≠ 0) : Canonical lt (e :: l) :=
  ⟨List.pairwise_cons.2 ⟨hlt, h.sorted⟩, List.forall_mem_cons.2 ⟨hrange, h.range⟩,
    List.forall_mem_cons.2 ⟨hne, h.nonzero⟩⟩

theorem key_of_mem_entryInsert [DecidableEq κ] {k : κ} {n : ℤ} {e : κ × ℤ}
    (h : e ∈ entryInsert lt l k n) : e.1 = k ∨ ∃ a ∈ l, a.1 = e.1 := by
  induction l with
  | nil =>
      rw [entryInsert] at h
      split at h
      · cases h
      · obtain rfl := List.mem_singleton.1 h
        exact .inl rfl
  | cons a rest ih =>
      obtain ⟨hk, hn⟩ := a
      have hin : ∀ {m : List (κ × ℤ)}, e ∈ m → m = rest ∨ m = (hk, hn) :: rest →
          ∃ a ∈ (hk, hn) :: rest, a.1 = e.1 := by
        rintro m he (rfl | rfl)
        · exact ⟨e, List.mem_cons_of_mem _ he, rfl⟩
        · exact ⟨e, he, rfl⟩
      rw [entryInsert] at h
      split at h
      · next heq =>
          split at h
          · exact .inr (hin h (.inl rfl))
          · obtain rfl | h := List.mem_cons.1 h
            · exact .inl heq
            · exact .inr (hin h (.inl rfl))
      · split at h
        · split at h
          · exact .inr (hin h (.inr rfl))
          · obtain rfl | h := List.mem_cons.1 h
            · exact .inl rfl
            · exact .inr (hin h (.inr rfl))
        · obtain rfl | h := List.mem_cons.1 h
          · exact .inr ⟨(hk, hn), List.mem_cons_self, rfl⟩
          · obtain heq | ⟨a, ha, heq⟩ := ih h
            · exact .inl heq
            · exact .inr ⟨a, List.mem_cons_of_mem _ ha, heq⟩

theorem Canonical.entryInsert [DecidableEq κ] (hlt : Strict lt) (h : Canonical lt l) (k : κ)
    {n : ℤ} (hn : InRange n) : Canonical lt (entryInsert lt l k n) := by
  induction l with
  | nil =>
      rw [Units.entryInsert]
      split
      · exact .nil
      · next hne => exact Canonical.nil.cons (by simp) hn hne
  | cons a rest ih =>
      obtain ⟨hk, hn'⟩ := a
      have hrest := h.tail
      have hhead := (List.pairwise_cons.1 h.sorted).1
      rw [Units.entryInsert]
      split
      · next heq =>
          split
          · exact hrest
          · next hne => exact hrest.cons hhead (wrap_inRange _) hne
      · next hne =>
          split
          · next hltk =>
              split
              · exact h
              · next hzero =>
                  refine h.cons (fun b hb => ?_) hn hzero
                  obtain rfl | hb := List.mem_cons.1 hb
                  · exact hltk
                  · exact hlt.trans _ _ _ hltk (hhead b hb)
          · next hltk =>
              have hkey : lt hk k = true := hlt.total k hk (Ne.symm hne) (Bool.not_eq_true _ ▸ hltk)
              refine (ih hrest).cons (fun b hb => ?_) (h.range _ List.mem_cons_self)
                (h.nonzero _ List.mem_cons_self)
              obtain heq | ⟨c, hc, heq⟩ := key_of_mem_entryInsert hb
              · rw [heq]
                exact hkey
              · rw [← heq]
                exact hhead c hc

theorem Canonical.entriesDiff {insert : List (κ × ℤ) → κ → ℤ → List (κ × ℤ)}
    (hinsert : ∀ l k n, Canonical lt l → InRange n → Canonical lt (insert l k n))
    {a : List (κ × ℤ)} (ha : Canonical lt a) (b : List (κ × ℤ)) :
    Canonical lt (entriesDiff insert a b) := by
  induction b generalizing a with
  | nil => exact ha
  | cons e rest ih =>
      rw [Units.entriesDiff]
      exact ih (hinsert _ _ _ ha (wrap_inRange _))

variable [DecidableEq κ]

/-- The exponent of a key. -/
def exponent (l : List (κ × ℤ)) (k : κ) : ℤ :=
  (l.map fun e => if e.1 = k then e.2 else 0).sum

theorem exponent_cons (e : κ × ℤ) (l : List (κ × ℤ)) (k : κ) :
    exponent (e :: l) k = (if e.1 = k then e.2 else 0) + exponent l k :=
  List.sum_cons

theorem exponent_eq_zero {k : κ} (h : ∀ e ∈ l, e.1 ≠ k) : exponent l k = 0 := by
  refine List.sum_eq_zero fun x hx => ?_
  obtain ⟨e, he, rfl⟩ := List.mem_map.1 hx
  exact if_neg (h e he)

theorem Canonical.exponent_head (hlt : Strict lt) {e : κ × ℤ} (h : Canonical lt (e :: l)) :
    exponent (e :: l) e.1 = e.2 := by
  rw [exponent_cons, if_pos rfl, exponent_eq_zero fun b hb hk => ?_, add_zero]
  have hself := (List.pairwise_cons.1 h.sorted).1 b hb
  rw [hk, hlt.irrefl] at hself
  exact nomatch hself

theorem Canonical.exponent_below (hlt : Strict lt) {e : κ × ℤ} (h : Canonical lt (e :: l)) {k : κ}
    (hk : lt k e.1 = true) : exponent (e :: l) k = 0 := by
  refine exponent_eq_zero fun b hb heq => ?_
  subst heq
  obtain rfl | hb := List.mem_cons.1 hb
  · rw [hlt.irrefl] at hk
    exact nomatch hk
  · have hself := hlt.trans _ _ _ hk ((List.pairwise_cons.1 h.sorted).1 b hb)
    rw [hlt.irrefl] at hself
    exact nomatch hself

theorem Canonical.exponent_inRange (hlt : Strict lt) (h : Canonical lt l) (k : κ) :
    InRange (exponent l k) := by
  induction l with
  | nil => exact ⟨by simp [exponent], by simp [exponent]⟩
  | cons e rest ih =>
      by_cases heq : e.1 = k
      · rw [← heq, h.exponent_head hlt]
        exact h.range e List.mem_cons_self
      · rw [exponent_cons, if_neg heq, zero_add]
        exact ih h.tail

theorem Canonical.exponent_of_mem (hlt : Strict lt) (h : Canonical lt l) {e : κ × ℤ} (he : e ∈ l) :
    exponent l e.1 = e.2 := by
  induction l with
  | nil => cases he
  | cons a rest ih =>
      obtain rfl | hrest := List.mem_cons.1 he
      · exact h.exponent_head hlt
      · have hne : a.1 ≠ e.1 := fun heq => by
          have hself := (List.pairwise_cons.1 h.sorted).1 e hrest
          rw [heq, hlt.irrefl] at hself
          exact nomatch hself
        rw [exponent_cons, if_neg hne, zero_add]
        exact ih h.tail hrest

theorem Canonical.eq_of_exponent (hlt : Strict lt) {l' : List (κ × ℤ)} (h : Canonical lt l)
    (h' : Canonical lt l') (heq : ∀ k, exponent l k = exponent l' k) : l = l' := by
  induction l generalizing l' with
  | nil =>
      cases l' with
      | nil => rfl
      | cons b rest' =>
          have hb := heq b.1
          rw [h'.exponent_head hlt] at hb
          exact absurd hb.symm (h'.nonzero b List.mem_cons_self)
  | cons a rest ih =>
      cases l' with
      | nil =>
          have ha := heq a.1
          rw [h.exponent_head hlt] at ha
          exact absurd ha (h.nonzero a List.mem_cons_self)
      | cons b rest' =>
          have hkey : a.1 = b.1 := by
            by_contra hne
            cases hab : lt a.1 b.1 with
            | true =>
                have ha := heq a.1
                rw [h.exponent_head hlt, h'.exponent_below hlt hab] at ha
                exact h.nonzero a List.mem_cons_self ha
            | false =>
                have hb := heq b.1
                rw [h'.exponent_head hlt, h.exponent_below hlt (hlt.total _ _ hne hab)] at hb
                exact h'.nonzero b List.mem_cons_self hb.symm
          have hexp : a.2 = b.2 := by
            have ha := heq a.1
            rwa [h.exponent_head hlt, hkey, h'.exponent_head hlt] at ha
          obtain rfl : a = b := Prod.ext hkey hexp
          rw [ih h.tail h'.tail fun k => ?_]
          have hk := heq k
          rw [exponent_cons, exponent_cons] at hk
          exact add_left_cancel hk

end Canonical

end Kaikai.Units
