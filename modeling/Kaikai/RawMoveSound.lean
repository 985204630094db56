import Kaikai.RawMove

namespace Kaikai.RawMove

open Kaikai.RefinePred (localEq)

section Counts

variable {coercion : ℤ → Bool} {b : ℤ}

/-- The count of one arm. -/
def armPaths (coercion : ℤ → Bool) (b : ℤ) : Arm → ℕ
  | .arm none body => pcsMaxPathsBExpr coercion b .empty body
  | .arm (some g) body =>
      pcsMaxPathsBExpr coercion b .empty g + pcsMaxPathsBExpr coercion b .empty body

@[simp] theorem maxPaths_loc (u : ℤ) :
    pcsMaxPathsBExpr coercion b .empty (.loc u) = if localEq u b then 1 else 0 :=
  rfl

@[simp] theorem maxPaths_call (f : Expr) (xs : List Expr) :
    pcsMaxPathsBExpr coercion b .empty (.call f xs) =
      pcsMaxPathsBExpr coercion b .empty f + pcsMaxPathsBArgs coercion b .empty [] 0 xs := by
  have hslots : (if pcsAnyArgBare coercion b xs then pcsBorrowSlots .empty f else []) = [] := by
    split_ifs <;> rfl
  change _ + pcsMaxPathsBArgs coercion b .empty (if _ then _ else _) 0 xs = _
  rw [hslots]

@[simp] theorem maxPaths_cond_none (c t : Expr) :
    pcsMaxPathsBExpr coercion b .empty (.cond c t none) =
      pcsMaxPathsBExpr coercion b .empty c + pcsMaxPathsBExpr coercion b .empty t :=
  congrArg _ (Nat.max_zero _)

@[simp] theorem maxPaths_cond_some (c t e : Expr) :
    pcsMaxPathsBExpr coercion b .empty (.cond c t (some e)) =
      pcsMaxPathsBExpr coercion b .empty c +
        max (pcsMaxPathsBExpr coercion b .empty t) (pcsMaxPathsBExpr coercion b .empty e) :=
  rfl

@[simp] theorem maxPaths_matching (s : Expr) (arms : List Arm) :
    pcsMaxPathsBExpr coercion b .empty (.matching s arms) =
      pcsMaxPathsBExpr coercion b .empty s + pcsMaxPathsBArms coercion b .empty arms 0 :=
  rfl

@[simp] theorem maxPaths_node (kind : Kind) (ps : List XPos) :
    pcsMaxPathsBExpr coercion b .empty (.node kind ps) = pcsMaxPathsBPs coercion b .empty ps :=
  rfl

@[simp] theorem maxPathsArgs_cons (i : ℤ) (h : Expr) (rest : List Expr) :
    pcsMaxPathsBArgs coercion b .empty [] i (h :: rest) =
      pcsMaxPathsBExpr coercion b .empty h + pcsMaxPathsBArgs coercion b .empty [] (i + 1) rest :=
  rfl

theorem maxPathsArms_cons (a : Arm) (rest : List Arm) (best : ℕ) :
    pcsMaxPathsBArms coercion b .empty (a :: rest) best =
      pcsMaxPathsBArms coercion b .empty rest (max best (armPaths coercion b a)) := by
  obtain ⟨g, body⟩ := a
  cases g with
  | none => rw [pcsMaxPathsBArms, armPaths, Nat.zero_add]
  | some g => rw [pcsMaxPathsBArms, armPaths]

theorem maxPathsArms_best (arms : List Arm) (best : ℕ) :
    pcsMaxPathsBArms coercion b .empty arms best =
      max best (pcsMaxPathsBArms coercion b .empty arms 0) := by
  induction arms generalizing best with
  | nil => rw [pcsMaxPathsBArms, pcsMaxPathsBArms, Nat.max_zero]
  | cons a rest ih =>
      rw [maxPathsArms_cons, maxPathsArms_cons, ih, ih (max 0 _), Nat.zero_max, Nat.max_assoc]

@[simp] theorem maxPathsArms_zero_cons (a : Arm) (rest : List Arm) :
    pcsMaxPathsBArms coercion b .empty (a :: rest) 0 =
      max (armPaths coercion b a) (pcsMaxPathsBArms coercion b .empty rest 0) := by
  rw [maxPathsArms_cons, maxPathsArms_best, Nat.zero_max]

theorem maxPathsPs_cons {r : XRole} (hr : r ≠ .lam) (c : Expr) (rest : List XPos) :
    pcsMaxPathsBPs coercion b .empty (.xp r c :: rest) =
      pcsMaxPathsBExpr coercion b .empty c + pcsMaxPathsBPs coercion b .empty rest := by
  cases r with
  | lam => exact absurd rfl hr
  | _ => rw [pcsMaxPathsBPs]; exact hr

theorem maxPathsPs_le (r : XRole) (c : Expr) (rest : List XPos) :
    pcsMaxPathsBPs coercion b .empty rest ≤ pcsMaxPathsBPs coercion b .empty (.xp r c :: rest) := by
  by_cases hr : r = .lam
  · subst hr
    rw [pcsMaxPathsBPs, Nat.zero_add]
  · rw [maxPathsPs_cons hr]
    exact Nat.le_add_left _ _

theorem XRole.runs.ne_lam {r : XRole} (h : r.runs) : r ≠ .lam := by
  rintro rfl
  exact h

end Counts

section Reads

variable (coercion : ℤ → Bool) {b : ℤ} {bmap : BorrowMap}

theorem readsOf_append (t u : List Read) : readsOf b (t ++ u) = readsOf b t ++ readsOf b u :=
  List.filter_append _ _

theorem readsOf_reject (t : List Read) : readsOf b (t.map reject) = (readsOf b t).map reject := by
  rw [readsOf, readsOf, List.filter_map]
  rfl

theorem readsOf_single_eq_nil {r : Read} (h : localEq r.local' b = false) : readsOf b [r] = [] := by
  rw [readsOf, List.filter_cons_of_neg (by simp [h])]
  rfl

mutual

theorem Path.none : {e : Expr} → {t : List Read} → Path bmap e t →
    pcsMaxPathsBExpr coercion b .empty e = 0 → readsOf b t = []
  | _, _, .loc l, h => by
      rw [maxPaths_loc] at h
      split_ifs at h with heq
      exact readsOf_single_eq_nil (by simpa using heq)
  | _, _, .sym _ _, _ => rfl
  | _, _, .op, _ => rfl
  | _, _, .mark _, _ => rfl
  | _, _, .call hf hxs, h => by
      rw [maxPaths_call] at h
      obtain ⟨h1, h2⟩ := Nat.add_eq_zero_iff.1 h
      rw [readsOf_append, hf.none h1, hxs.none 0 h2]
      rfl
  | .cond c t none, _, .condThen hc ht, h => by
      rw [maxPaths_cond_none] at h
      rw [readsOf_append, hc.none (by omega), ht.none (by omega)]
      rfl
  | .cond c t (some e), _, .condThen hc ht, h => by
      rw [maxPaths_cond_some] at h
      rw [readsOf_append, hc.none (by omega), ht.none (by omega)]
      rfl
  | _, _, .condElse hc he, h => by
      rw [maxPaths_cond_some] at h
      rw [readsOf_append, hc.none (by omega), he.none (by omega)]
      rfl
  | _, _, .condUnit hc, h => by
      rw [maxPaths_cond_none] at h
      exact hc.none (by omega)
  | _, _, .matching hs harms, h => by
      rw [maxPaths_matching] at h
      rw [readsOf_append, hs.none (by omega), harms.none (by omega)]
      rfl
  | _, _, .node hps, h => hps.none (by rwa [maxPaths_node] at h)

theorem PathArgs.none : {positions : List ℤ} → {i : ℤ} → {xs : List Expr} → {t : List Read} →
    PathArgs bmap positions i xs t → (j : ℤ) → pcsMaxPathsBArgs coercion b .empty [] j xs = 0 →
    readsOf b t = []
  | _, _, _, _, .nil _ _, _, _ => rfl
  | _, _, _, _, .lent l _ hrest, j, h => by
      rw [maxPathsArgs_cons, maxPaths_loc] at h
      obtain ⟨h1, h2⟩ := Nat.add_eq_zero_iff.1 h
      split_ifs at h1 with heq
      rw [← List.singleton_append, readsOf_append, hrest.none (j + 1) h2,
        readsOf_single_eq_nil (by simpa using heq)]
      rfl
  | _, _, _, _, .own _ ha hrest, j, h => by
      rw [maxPathsArgs_cons] at h
      obtain ⟨h1, h2⟩ := Nat.add_eq_zero_iff.1 h
      rw [readsOf_append, ha.none h1, hrest.none (j + 1) h2]
      rfl

theorem PathArms.none : {arms : List Arm} → {t : List Read} → PathArms bmap arms t →
    pcsMaxPathsBArms coercion b .empty arms 0 = 0 → readsOf b t = []
  | _, _, .skip hrest, h => by
      rw [maxPathsArms_zero_cons] at h
      exact hrest.none (by omega)
  | _, _, .take hbody, h => by
      rw [maxPathsArms_zero_cons, armPaths] at h
      exact hbody.none (by omega)
  | _, _, .pass hg hbody, h => by
      rw [maxPathsArms_zero_cons, armPaths] at h
      rw [readsOf_append, hg.none (by omega), hbody.none (by omega)]
      rfl
  | _, _, .fail hg hrest, h => by
      rw [maxPathsArms_zero_cons, armPaths] at h
      rw [readsOf_append, readsOf_reject, hg.none (by omega), hrest.none (by omega)]
      rfl

theorem PathPs.none : {ps : List XPos} → {t : List Read} → PathPs bmap ps t →
    pcsMaxPathsBPs coercion b .empty ps = 0 → readsOf b t = []
  | _, _, .nil, _ => rfl
  | _, _, .run hr he hps, h => by
      rw [maxPathsPs_cons hr.ne_lam] at h
      rw [readsOf_append, he.none (by omega), hps.none (by omega)]
      rfl
  | .xp r e :: ps, _, .skip _ _ hps, h =>
      hps.none (Nat.le_zero.1 ((maxPathsPs_le r e ps).trans h.le))

end

/-- A read of the binder that hands it over, and is no part of a rejecting guard. -/
def HasOwnRead (b : ℤ) (t : List Read) : Prop :=
  ∃ r ∈ readsOf b t, r.lent = false ∧ r.rejected = false

theorem HasOwnRead.left {t : List Read} (h : HasOwnRead b t) (u : List Read) :
    HasOwnRead b (t ++ u) := by
  obtain ⟨r, hr, hown⟩ := h
  refine ⟨r, ?_, hown⟩
  rw [readsOf_append]
  exact List.mem_append_left _ hr

theorem HasOwnRead.right {u : List Read} (h : HasOwnRead b u) (t : List Read) :
    HasOwnRead b (t ++ u) := by
  obtain ⟨r, hr, hown⟩ := h
  refine ⟨r, ?_, hown⟩
  rw [readsOf_append]
  exact List.mem_append_right _ hr

theorem HasOwnRead.ne_nil {t : List Read} (h : HasOwnRead b t) : readsOf b t ≠ [] := by
  obtain ⟨r, hr, -⟩ := h
  exact List.ne_nil_of_mem hr

theorem consumedArgs_of_not_var (positions : List ℤ) (i : ℤ) {xs : List Expr}
    (h : pcsAnyArgIsVar b xs = false) :
    pcsConsumedBArgs b bmap positions i xs = pcsConsumedBArgs b bmap [] i xs := by
  induction xs generalizing i with
  | nil => rw [pcsConsumedBArgs, pcsConsumedBArgs]
  | cons a rest ih =>
      rw [pcsAnyArgIsVar, List.any_cons, Bool.or_eq_false_iff] at h
      rw [pcsConsumedBArgs, pcsConsumedBArgs, ih (i + 1) h.2, List.contains_nil,
        if_neg Bool.false_ne_true]
      congr 1
      split_ifs with hi hleaf
      · cases a with
        | loc u =>
            rw [pcsConsumedBExpr]
            exact h.1.symm
        | sym s inst => rw [pcsConsumedBExpr]
        | _ => exact absurd hleaf (by simp [pcsIsLeafRef])
      · rfl
      · rfl

theorem consumedArgs_lent (f : Expr) (xs : List Expr) :
    pcsConsumedBArgs b bmap (pcsLentSlots b bmap f xs) 0 xs =
      pcsConsumedBArgs b bmap (pcsBorrowSlots bmap f) 0 xs := by
  rw [pcsLentSlots]
  split_ifs with h
  · rfl
  · exact (consumedArgs_of_not_var _ 0 (by simpa using h)).symm

theorem consumedPs_cons {r : XRole} {e : Expr} {ps : List XPos}
    (h : pcsConsumedBPs b bmap (.xp r e :: ps) = true) :
    (r = .all ∧ pcsConsumedBExpr b bmap e = true) ∨ pcsConsumedBPs b bmap ps = true := by
  by_cases hall : r = .all
  · subst hall
    rw [pcsConsumedBPs, Bool.or_eq_true] at h
    exact h.imp_left fun he => ⟨rfl, he⟩
  · rw [pcsConsumedBPs] at h
    · exact .inr h
    · exact hall

mutual

theorem Path.handsOver : {e : Expr} → {t : List Read} → Path bmap e t →
    pcsConsumedBExpr b bmap e = true → HasOwnRead b t
  | _, _, .loc l, h => by
      rw [pcsConsumedBExpr] at h
      exact ⟨⟨l, false, false⟩, List.mem_filter.2 ⟨List.mem_cons_self, h⟩, rfl, rfl⟩
  | _, _, .sym _ _, h => by simp [pcsConsumedBExpr] at h
  | _, _, .op, h => by simp [pcsConsumedBExpr] at h
  | _, _, .mark _, h => by simp [pcsConsumedBExpr] at h
  | _, _, .call hf hxs, h => by
      rw [pcsConsumedBExpr, consumedArgs_lent, Bool.or_eq_true] at h
      obtain h | h := h
      · exact (hf.handsOver h).left _
      · exact (hxs.handsOver h).right _
  | .cond c t none, _, .condThen hc ht, h => by
      rw [pcsConsumedBExpr] at h
      exact (hc.handsOver h).left _
  | .cond c t (some e), _, .condThen hc ht, h => by
      rw [pcsConsumedBExpr, Bool.or_eq_true, Bool.and_eq_true] at h
      obtain h | ⟨h, -⟩ := h
      · exact (hc.handsOver h).left _
      · exact (ht.handsOver h).right _
  | _, _, .condElse hc he, h => by
      rw [pcsConsumedBExpr, Bool.or_eq_true, Bool.and_eq_true] at h
      obtain h | ⟨-, h⟩ := h
      · exact (hc.handsOver h).left _
      · exact (he.handsOver h).right _
  | _, _, .condUnit hc, h => by
      rw [pcsConsumedBExpr] at h
      exact hc.handsOver h
  | _, _, .matching hs harms, h => by
      rw [pcsConsumedBExpr, Bool.or_eq_true] at h
      obtain h | h := h
      · exact (hs.handsOver h).left _
      · exact (harms.handsOver h).right _
  | _, _, .node hps, h => hps.handsOver (by rwa [pcsConsumedBExpr] at h)

theorem PathArgs.handsOver : {positions : List ℤ} → {i : ℤ} → {xs : List Expr} → {t : List Read} →
    PathArgs bmap positions i xs t → pcsConsumedBArgs b bmap positions i xs = true → HasOwnRead b t
  | _, _, _, _, .nil _ _, h => by simp [pcsConsumedBArgs] at h
  | _, _, _, _, .lent l hi hrest, h => by
      rw [pcsConsumedBArgs, if_pos hi] at h
      exact (hrest.handsOver h).right [_]
  | _, _, _, _, .own hi ha hrest, h => by
      rw [pcsConsumedBArgs, Bool.or_eq_true] at h
      obtain h | h := h
      · split_ifs at h
        · exact (ha.handsOver h).left _
        · exact (ha.handsOver h).left _
      · exact (hrest.handsOver h).right _

theorem PathArms.handsOver : {arms : List Arm} → {t : List Read} → PathArms bmap arms t →
    pcsConsumedBArms b bmap arms = true → HasOwnRead b t
  | .arm _ _ :: _, _, .skip hrest, h => by
      rw [pcsConsumedBArms, Bool.and_eq_true] at h
      exact hrest.handsOver h.2
  | _, _, .take hbody, h => by
      rw [pcsConsumedBArms, Bool.and_eq_true] at h
      exact hbody.handsOver h.1
  | _, _, .pass hg hbody, h => by
      rw [pcsConsumedBArms, Bool.and_eq_true] at h
      exact (hbody.handsOver h.1).right _
  | _, _, .fail hg hrest, h => by
      rw [pcsConsumedBArms, Bool.and_eq_true] at h
      exact (hrest.handsOver h.2).right _

theorem PathPs.handsOver : {ps : List XPos} → {t : List Read} → PathPs bmap ps t →
    pcsConsumedBPs b bmap ps = true → HasOwnRead b t
  | _, _, .nil, h => by simp [pcsConsumedBPs] at h
  | _, _, .run hr he hps, h => by
      obtain ⟨-, h⟩ | h := consumedPs_cons h
      · exact (he.handsOver h).left _
      · exact (hps.handsOver h).right _
  | _, _, .skip hr _ hps, h => by
      obtain ⟨rfl, -⟩ | h := consumedPs_cons h
      · exact absurd hr id
      · exact hps.handsOver h

end

section Positive

theorem Path.pos {e : Expr} {t : List Read} (h : Path bmap e t)
    (hc : pcsConsumedBExpr b bmap e = true) : 1 ≤ pcsMaxPathsBExpr coercion b .empty e :=
  Nat.one_le_iff_ne_zero.2 fun hzero => (h.handsOver hc).ne_nil (h.none coercion hzero)

theorem PathArgs.pos {positions : List ℤ} {i : ℤ} {xs : List Expr} {t : List Read}
    (h : PathArgs bmap positions i xs t) (hc : pcsConsumedBArgs b bmap positions i xs = true)
    (j : ℤ) : 1 ≤ pcsMaxPathsBArgs coercion b .empty [] j xs :=
  Nat.one_le_iff_ne_zero.2 fun hzero => (h.handsOver hc).ne_nil (h.none coercion j hzero)

theorem PathArms.pos {arms : List Arm} {t : List Read} (h : PathArms bmap arms t)
    (hc : pcsConsumedBArms b bmap arms = true) : 1 ≤ pcsMaxPathsBArms coercion b .empty arms 0 :=
  Nat.one_le_iff_ne_zero.2 fun hzero => (h.handsOver hc).ne_nil (h.none coercion hzero)

theorem PathPs.pos {ps : List XPos} {t : List Read} (h : PathPs bmap ps t)
    (hc : pcsConsumedBPs b bmap ps = true) : 1 ≤ pcsMaxPathsBPs coercion b .empty ps :=
  Nat.one_le_iff_ne_zero.2 fun hzero => (h.handsOver hc).ne_nil (h.none coercion hzero)

end Positive

/-- No read of the binder happens in a guard that turns its arm down. -/
def Unrejected (b : ℤ) (t : List Read) : Prop := ∀ r ∈ readsOf b t, r.rejected = false

theorem Unrejected.append {t u : List Read} :
    Unrejected b (t ++ u) ↔ Unrejected b t ∧ Unrejected b u := by
  rw [Unrejected, readsOf_append]
  exact List.forall_mem_append

theorem Unrejected.reject {t : List Read} (h : Unrejected b (t.map reject)) : readsOf b t = [] := by
  rw [Unrejected, readsOf_reject] at h
  by_contra hne
  obtain ⟨r, hr⟩ := List.exists_mem_of_ne_nil _ hne
  exact Bool.noConfusion (h _ (List.mem_map_of_mem hr))

theorem length_readsOf_append (t u : List Read) :
    (readsOf b (t ++ u)).length = (readsOf b t).length + (readsOf b u).length := by
  rw [readsOf_append, List.length_append]

mutual

theorem Path.once : {e : Expr} → {t : List Read} → Path bmap e t →
    pcsConsumedBExpr b bmap e = true → pcsMaxPathsBExpr coercion b .empty e ≤ 1 →
    Unrejected b t → (readsOf b t).length = 1
  | _, _, .loc l, h, _, _ => by
      rw [pcsConsumedBExpr] at h
      simp [readsOf, h]
  | _, _, .sym _ _, h, _, _ => by simp [pcsConsumedBExpr] at h
  | _, _, .op, h, _, _ => by simp [pcsConsumedBExpr] at h
  | _, _, .mark _, h, _, _ => by simp [pcsConsumedBExpr] at h
  | _, _, .call hf hxs, h, hle, hun => by
      rw [pcsConsumedBExpr, consumedArgs_lent, Bool.or_eq_true] at h
      rw [maxPaths_call] at hle
      obtain ⟨hunf, hunx⟩ := Unrejected.append.1 hun
      rw [length_readsOf_append]
      obtain h | h := h
      · have hpos := hf.pos coercion h
        rw [hf.once h (by omega) hunf, hxs.none coercion 0 (by omega)]
        rfl
      · have hpos := hxs.pos coercion h 0
        rw [hf.none coercion (by omega), hxs.once 0 h (by omega) hunx]
        rfl
  | .cond c t none, _, .condThen hc ht, h, hle, hun => by
      rw [pcsConsumedBExpr] at h
      rw [maxPaths_cond_none] at hle
      have hpos := hc.pos coercion h
      rw [length_readsOf_append, hc.once h (by omega) (Unrejected.append.1 hun).1,
        ht.none coercion (by omega)]
      rfl
  | .cond c t (some e), _, .condThen hc ht, h, hle, hun => by
      rw [pcsConsumedBExpr, Bool.or_eq_true, Bool.and_eq_true] at h
      rw [maxPaths_cond_some] at hle
      obtain ⟨hunc, hunt⟩ := Unrejected.append.1 hun
      rw [length_readsOf_append]
      obtain h | ⟨h, -⟩ := h
      · have hpos := hc.pos coercion h
        rw [hc.once h (by omega) hunc, ht.none coercion (by omega)]
        rfl
      · have hpos := ht.pos coercion h
        rw [hc.none coercion (by omega), ht.once h (by omega) hunt]
        rfl
  | _, _, .condElse hc he, h, hle, hun => by
      rw [pcsConsumedBExpr, Bool.or_eq_true, Bool.and_eq_true] at h
      rw [maxPaths_cond_some] at hle
      obtain ⟨hunc, hune⟩ := Unrejected.append.1 hun
      rw [length_readsOf_append]
      obtain h | ⟨-, h⟩ := h
      · have hpos := hc.pos coercion h
        rw [hc.once h (by omega) hunc, he.none coercion (by omega)]
        rfl
      · have hpos := he.pos coercion h
        rw [hc.none coercion (by omega), he.once h (by omega) hune]
        rfl
  | _, _, .condUnit hc, h, hle, hun => by
      rw [pcsConsumedBExpr] at h
      rw [maxPaths_cond_none] at hle
      exact hc.once h (by omega) hun
  | _, _, .matching hs harms, h, hle, hun => by
      rw [pcsConsumedBExpr, Bool.or_eq_true] at h
      rw [maxPaths_matching] at hle
      obtain ⟨huns, huna⟩ := Unrejected.append.1 hun
      rw [length_readsOf_append]
      obtain h | h := h
      · have hpos := hs.pos coercion h
        rw [hs.once h (by omega) huns, harms.none coercion (by omega)]
        rfl
      · have hpos := harms.pos coercion h
        rw [hs.none coercion (by omega), harms.once h (by omega) huna]
        rfl
  | _, _, .node hps, h, hle, hun =>
      hps.once (by rwa [pcsConsumedBExpr] at h) (by rwa [maxPaths_node] at hle) hun

theorem PathArgs.once : {positions : List ℤ} → {i : ℤ} → {xs : List Expr} → {t : List Read} →
    PathArgs bmap positions i xs t → (j : ℤ) → pcsConsumedBArgs b bmap positions i xs = true →
    pcsMaxPathsBArgs coercion b .empty [] j xs ≤ 1 → Unrejected b t → (readsOf b t).length = 1
  | _, _, _, _, .nil _ _, _, h, _, _ => by simp [pcsConsumedBArgs] at h
  | _, _, _, _, .lent l hi hrest, j, h, hle, hun => by
      rw [pcsConsumedBArgs, if_pos hi] at h
      rw [maxPathsArgs_cons, maxPaths_loc] at hle
      have hpos := hrest.pos coercion h (j + 1)
      have hl : localEq l b = false := by
        split_ifs at hle with heq
        · omega
        · simpa using heq
      rw [if_neg (by simp [hl]), Nat.zero_add] at hle
      rw [← List.singleton_append, length_readsOf_append, readsOf_single_eq_nil hl,
        hrest.once (j + 1) h hle (Unrejected.append (t := [_]).1 hun).2]
      rfl
  | _, _, a :: _, _, .own hi ha hrest, j, h, hle, hun => by
      rw [pcsConsumedBArgs, Bool.or_eq_true] at h
      rw [maxPathsArgs_cons] at hle
      obtain ⟨huna, hunr⟩ := Unrejected.append.1 hun
      rw [length_readsOf_append]
      obtain h | h := h
      · have h' : pcsConsumedBExpr b bmap a = true := by
          split_ifs at h
          · exact h
          · exact h
        have hpos := ha.pos coercion h'
        rw [ha.once h' (by omega) huna, hrest.none coercion (j + 1) (by omega)]
        rfl
      · have hpos := hrest.pos coercion h (j + 1)
        rw [ha.none coercion (by omega), hrest.once (j + 1) h (by omega) hunr]
        rfl

theorem PathArms.once : {arms : List Arm} → {t : List Read} → PathArms bmap arms t →
    pcsConsumedBArms b bmap arms = true → pcsMaxPathsBArms coercion b .empty arms 0 ≤ 1 →
    Unrejected b t → (readsOf b t).length = 1
  | .arm _ _ :: _, _, .skip hrest, h, hle, hun => by
      rw [pcsConsumedBArms, Bool.and_eq_true] at h
      rw [maxPathsArms_zero_cons] at hle
      exact hrest.once h.2 (by omega) hun
  | _, _, .take hbody, h, hle, hun => by
      rw [pcsConsumedBArms, Bool.and_eq_true] at h
      rw [maxPathsArms_zero_cons, armPaths] at hle
      exact hbody.once h.1 (by omega) hun
  | _, _, .pass hg hbody, h, hle, hun => by
      rw [pcsConsumedBArms, Bool.and_eq_true] at h
      rw [maxPathsArms_zero_cons, armPaths] at hle
      have hpos := hbody.pos coercion h.1
      rw [length_readsOf_append, hg.none coercion (by omega),
        hbody.once h.1 (by omega) (Unrejected.append.1 hun).2]
      rfl
  | _, _, .fail hg hrest, h, hle, hun => by
      rw [pcsConsumedBArms, Bool.and_eq_true] at h
      rw [maxPathsArms_zero_cons] at hle
      obtain ⟨hung, hunr⟩ := Unrejected.append.1 hun
      rw [length_readsOf_append, readsOf_reject, hung.reject, hrest.once h.2 (by omega) hunr]
      rfl

theorem PathPs.once : {ps : List XPos} → {t : List Read} → PathPs bmap ps t →
    pcsConsumedBPs b bmap ps = true → pcsMaxPathsBPs coercion b .empty ps ≤ 1 →
    Unrejected b t → (readsOf b t).length = 1
  | _, _, .nil, h, _, _ => by simp [pcsConsumedBPs] at h
  | _, _, .run hr he hps, h, hle, hun => by
      rw [maxPathsPs_cons hr.ne_lam] at hle
      obtain ⟨hune, hunp⟩ := Unrejected.append.1 hun
      rw [length_readsOf_append]
      obtain ⟨-, h⟩ | h := consumedPs_cons h
      · have hpos := he.pos coercion h
        rw [he.once h (by omega) hune, hps.none coercion (by omega)]
        rfl
      · have hpos := hps.pos coercion h
        rw [he.none coercion (by omega), hps.once h (by omega) hunp]
        rfl
  | _, _, .skip hr _ hps, h, hle, hun => by
      obtain ⟨rfl, -⟩ | h := consumedPs_cons h
      · exact absurd hr id
      · exact hps.once h ((maxPathsPs_le _ _ _).trans hle) hun

end

theorem HasOwnRead.one {t : List Read} (h : HasOwnRead b t) (hlen : (readsOf b t).length = 1) :
    OneOwnRead b t := by
  obtain ⟨r, hr⟩ := List.length_eq_one_iff.1 hlen
  obtain ⟨r', hr', hlent, -⟩ := h
  rw [hr, List.mem_singleton] at hr'
  exact ⟨r, hr, hr' ▸ hlent⟩

theorem HasOwnRead.unrejected {t : List Read} (h : HasOwnRead b t) (hone : OneOwnRead b t) :
    Unrejected b t := by
  obtain ⟨r, hr, -⟩ := hone
  obtain ⟨r', hr', -, hrej⟩ := h
  rw [hr, List.mem_singleton] at hr'
  intro q hq
  rw [hr, List.mem_singleton] at hq
  rw [hq, ← hr', hrej]

end Reads

theorem movesRaw_iff {coercion : ℤ → Bool} {b : ℤ} {bmap : BorrowMap} {body : Expr} :
    pcsParamMovesRaw coercion b bmap body = true ↔
      pcsMaxPathsBExpr coercion b .empty body ≤ 1 ∧ pcsConsumedBExpr b bmap body = true ∧
        pcsAllConsumersLinear b body = true := by
  rw [pcsParamMovesRaw, pcsParamConsumedLinear, pcsMaxPathsInExpr, Bool.and_eq_true,
    Bool.and_eq_true, decide_eq_true_iff]

/-- A parameter that passes the test is handed over by exactly one read on every path, unless a path
reads it in a guard that turns its arm down. -/
theorem movesRaw_spec (coercion : ℤ → Bool) (b : ℤ) (bmap : BorrowMap) (body : Expr)
    (h : pcsParamMovesRaw coercion b bmap body = true) :
    HandsOver b bmap body ↔ NoRejectedRead b bmap body := by
  obtain ⟨hle, hc, -⟩ := movesRaw_iff.1 h
  constructor
  · intro hover t ht
    exact (ht.handsOver hc).unrejected (hover t ht)
  · intro hun t ht
    exact (ht.handsOver hc).one (ht.once coercion hc hle (hun t ht))

/-- The body `match n { 0 if big(n) -> b  _ -> if n { b } else { use(b) } }`, with `b` as local 2 and
`n` as local 1. -/
def guardedBody : Expr :=
  .matching (.loc 1)
    [.arm (some (.call (.sym 8 0) [.loc 1])) (.loc 2),
      .arm none (.cond (.loc 1) (.loc 2) (some (.call (.sym 7 0) [.loc 2])))]

theorem movesRaw_spec_cond : HandsOver 2 .empty guardedBody ↔ NoRejectedRead 2 .empty guardedBody :=
  movesRaw_spec (fun _ => false) 2 .empty _ (by decide)

section EmptyMatch

/-- The body `match n { 0 if seen(b) -> match n {}  _ -> b }`, with `b` as local 2 and `n` as
local 1. -/
def emptyMatchBody : Expr :=
  .matching (.loc 1)
    [.arm (some (.call (.sym 7 0) [.loc 2])) (.matching (.loc 1) []), .arm none (.loc 2)]

theorem emptyMatchBody_path :
    Path .empty emptyMatchBody [⟨1, false, false⟩, ⟨2, false, true⟩, ⟨2, false, false⟩] :=
  have hargs : PathArgs .empty [] 0 [.loc 2] ([⟨2, false, false⟩] ++ []) :=
    .own (fun hi => absurd hi (by decide)) (.loc 2) (.nil _ _)
  have hguard : Path .empty (.call (.sym 7 0) [.loc 2]) ([] ++ [⟨2, false, false⟩]) :=
    .call (.sym 7 0) hargs
  have harms : PathArms .empty
      [.arm (some (.call (.sym 7 0) [.loc 2])) (.matching (.loc 1) []), .arm none (.loc 2)]
      ([⟨2, false, false⟩].map reject ++ [⟨2, false, false⟩]) :=
    .fail hguard (.take (.loc 2))
  .matching (.loc 1) harms

/-- The test lets the parameter through, and a path reads it twice. -/
theorem not_handsOver_emptyMatch :
    pcsParamMovesRaw (fun _ => false) 2 .empty emptyMatchBody = true ∧
      ¬ HandsOver 2 .empty emptyMatchBody := by
  refine ⟨by decide, fun h => ?_⟩
  obtain ⟨r, hr, -⟩ := h _ emptyMatchBody_path
  exact absurd (congrArg List.length hr) (by decide : ¬ 2 = 1)

end EmptyMatch

end Kaikai.RawMove
