import Mathlib.Data.List.TakeWhile
import Mathlib.Tactic.Common

/-!
Positions in a text and tilings of it: the line and the column of an offset, and
lists of spans that leave only gaps of a given kind between them.
-/

namespace Kaikai.SourceText

section Position

variable {α : Type*} [DecidableEq α] (sep : α) (text : List α)

/-- The line of an offset: one more than the separators in front of it. -/
def lineAt (i : Nat) : Nat := 1 + (text.take i).count sep

/-- The column of an offset: one more than the symbols since the last separator
in front of it. -/
def colAt (i : Nat) : Nat := 1 + ((text.take i).reverse.takeWhile (· ≠ sep)).length

@[simp] theorem lineAt_zero : lineAt sep text 0 = 1 := by simp [lineAt]

@[simp] theorem colAt_zero : colAt sep text 0 = 1 := by simp [colAt]

variable {sep text}

omit [DecidableEq α] in
theorem take_succ_of_getElem? {i : Nat} {a : α} (h : text[i]? = some a) :
    text.take (i + 1) = text.take i ++ [a] := by
  rw [List.take_add_one, h]
  rfl

theorem lineAt_succ_sep {i : Nat} (h : text[i]? = some sep) :
    lineAt sep text (i + 1) = lineAt sep text i + 1 := by
  rw [lineAt, take_succ_of_getElem? h, List.count_append, List.count_singleton_self, ← Nat.add_assoc]
  rfl

theorem colAt_succ_sep {i : Nat} (h : text[i]? = some sep) : colAt sep text (i + 1) = 1 := by
  rw [colAt, take_succ_of_getElem? h, List.reverse_append]
  simp

theorem lineAt_succ_of_ne {i : Nat} {a : α} (h : text[i]? = some a) (hne : a ≠ sep) :
    lineAt sep text (i + 1) = lineAt sep text i := by
  rw [lineAt, take_succ_of_getElem? h, List.count_append]
  simp [lineAt, hne]

theorem colAt_succ_of_ne {i : Nat} {a : α} (h : text[i]? = some a) (hne : a ≠ sep) :
    colAt sep text (i + 1) = colAt sep text i + 1 := by
  rw [colAt, take_succ_of_getElem? h, List.reverse_append]
  simp [colAt, hne, Nat.add_assoc]

end Position

section Tiling

variable {α : Type*} (Gap : Nat → Nat → Prop) (lo hi : α → Nat)

/-- Spans in increasing order from one offset to another, with gaps between. -/
inductive Tiles : Nat → List α → Nat → Prop
  | nil {i j : Nat} : Gap i j → Tiles i [] j
  | cons {i j : Nat} {a : α} {rest : List α} :
      Gap i (lo a) → lo a < hi a → Tiles (hi a) rest j → Tiles i (a :: rest) j

variable {Gap lo hi}

theorem Tiles.le (hgap : ∀ i j, Gap i j → i ≤ j) {i j : Nat} {spans : List α}
    (h : Tiles Gap lo hi i spans j) : i ≤ j := by
  induction h with
  | nil hg => exact hgap _ _ hg
  | cons hg hlt _ ih => exact ((hgap _ _ hg).trans hlt.le).trans ih

theorem Tiles.bounds (hgap : ∀ i j, Gap i j → i ≤ j) {i j : Nat} {spans : List α}
    (h : Tiles Gap lo hi i spans j) : ∀ a ∈ spans, i ≤ lo a ∧ lo a < hi a ∧ hi a ≤ j := by
  induction h with
  | nil hg =>
      intro a ha
      exact absurd ha List.not_mem_nil
  | cons hg hlt htail ih =>
      intro a ha
      rcases List.mem_cons.mp ha with rfl | hmem
      · exact ⟨hgap _ _ hg, hlt, htail.le hgap⟩
      · obtain ⟨hlow, hspan, hhigh⟩ := ih a hmem
        exact ⟨((hgap _ _ hg).trans hlt.le).trans hlow, hspan, hhigh⟩

theorem Tiles.pairwise (hgap : ∀ i j, Gap i j → i ≤ j) {i j : Nat} {spans : List α}
    (h : Tiles Gap lo hi i spans j) : spans.Pairwise fun a b => hi a ≤ lo b := by
  induction h with
  | nil _ => exact List.Pairwise.nil
  | cons _ _ htail ih => exact List.Pairwise.cons (fun b hb => (htail.bounds hgap b hb).1) ih

theorem Tiles.gap_of_outside (hgap : ∀ i j, Gap i j → i ≤ j) {i j p : Nat} {spans : List α}
    (h : Tiles Gap lo hi i spans j) (hlow : i ≤ p) (hhigh : p < j)
    (hout : ∀ a ∈ spans, ¬ (lo a ≤ p ∧ p < hi a)) :
    ∃ u v, Gap u v ∧ u ≤ p ∧ p < v ∧ i ≤ u ∧ ∀ a ∈ spans, hi a ≤ u ∨ v ≤ lo a := by
  induction h with
  | nil hg => exact ⟨_, _, hg, hlow, hhigh, le_rfl, fun a ha => absurd ha List.not_mem_nil⟩
  | @cons i j a rest hg hlt htail ih =>
      rcases Nat.lt_or_ge p (lo a) with hbefore | hafter
      · refine ⟨i, lo a, hg, hlow, hbefore, le_rfl, ?_⟩
        intro b hb
        rcases List.mem_cons.mp hb with rfl | hmem
        · exact Or.inr le_rfl
        · exact Or.inr (hlt.le.trans (htail.bounds hgap b hmem).1)
      · have hpast : hi a ≤ p :=
          Nat.le_of_not_lt fun hp => hout a List.mem_cons_self ⟨hafter, hp⟩
        obtain ⟨u, v, hgapuv, hu, hv, hlo, hfree⟩ :=
          ih hpast hhigh fun b hb => hout b (List.mem_cons_of_mem a hb)
        refine ⟨u, v, hgapuv, hu, hv, ((hgap _ _ hg).trans hlt.le).trans hlo, ?_⟩
        intro b hb
        rcases List.mem_cons.mp hb with rfl | hmem
        · exact Or.inl hlo
        · exact hfree b hmem

end Tiling

section Nesting

variable {α : Type*} [DecidableEq α] (op cl : α)

/-- The nesting depth behind a text that starts at depth `d`, `none` once the text
closes the outermost level. -/
def depthAfter : Nat → List α → Option Nat
  | d, [] => some d
  | d, a :: rest =>
      if a = op then depthAfter (d + 1) rest
      else if a = cl then if d = 1 then none else depthAfter (d - 1) rest
      else depthAfter d rest

/-- No prefix closes more levels than it opens, and the whole text as many. -/
def Nested (text : List α) : Prop :=
  (∀ k, (text.take k).count cl ≤ (text.take k).count op) ∧ text.count op = text.count cl

variable {op cl}

theorem depthAfter_pos {d m : Nat} {text : List α} (hd : 1 ≤ d)
    (h : depthAfter op cl d text = some m) : 1 ≤ m := by
  induction text generalizing d with
  | nil =>
      cases h
      exact hd
  | cons a rest ih =>
      rw [depthAfter] at h
      split at h
      · exact ih (Nat.le_succ_of_le hd) h
      · split at h
        · split at h
          · cases h
          · next hne => exact ih (by omega) h
        · exact ih hd h

theorem depthAfter_eq_some_iff (hne : op ≠ cl) {d m : Nat} {text : List α} :
    depthAfter op cl (d + 1) text = some (m + 1) ↔
      (∀ k, (text.take k).count cl ≤ d + (text.take k).count op) ∧
        m + text.count cl = d + text.count op := by
  induction text generalizing d with
  | nil => simp [depthAfter, eq_comm]
  | cons a rest ih =>
      have hsplit (P : Nat → Prop) : (∀ k, P k) ↔ P 0 ∧ ∀ k, P (k + 1) :=
        ⟨fun h => ⟨h 0, fun k => h (k + 1)⟩, fun h k => Nat.casesOn k h.1 h.2⟩
      rw [hsplit, depthAfter]
      by_cases hop : a = op
      · subst hop
        rw [if_pos rfl, ih]
        simp only [List.take_zero, List.count_nil, List.take_succ_cons, List.count_cons_self,
          List.count_cons_of_ne hne]
        constructor
        · intro h
          refine ⟨⟨Nat.zero_le _, fun k => ?_⟩, ?_⟩
          · have hk := h.1 k
            omega
          · omega
        · intro h
          refine ⟨fun k => ?_, ?_⟩
          · have hk := h.1.2 k
            omega
          · omega
      · rw [if_neg hop]
        by_cases hcl : a = cl
        · subst hcl
          rw [if_pos rfl]
          simp only [List.take_zero, List.count_nil, List.take_succ_cons, List.count_cons_self,
            List.count_cons_of_ne (Ne.symm hne)]
          cases d with
          | zero =>
              simp only [Nat.zero_add, if_true]
              constructor
              · intro h
                cases h
              · intro h
                have hone := h.1.2 0
                simp at hone
          | succ d =>
              rw [if_neg (by omega), Nat.add_sub_cancel, ih]
              constructor
              · intro h
                refine ⟨⟨Nat.zero_le _, fun k => ?_⟩, ?_⟩
                · have hk := h.1 k
                  omega
                · omega
              · intro h
                refine ⟨fun k => ?_, ?_⟩
                · have hk := h.1.2 k
                  omega
                · omega
        · rw [if_neg hcl, ih]
          simp only [List.take_zero, List.count_nil, List.take_succ_cons, List.count_cons_of_ne hop,
            List.count_cons_of_ne hcl]
          simp

theorem nested_iff (hne : op ≠ cl) {text : List α} :
    Nested op cl text ↔ depthAfter op cl 1 text = some 1 := by
  have h : depthAfter op cl 1 text = some 1 ↔ _ := depthAfter_eq_some_iff (d := 0) (m := 0) hne
  simp only [Nat.zero_add] at h
  rw [h, Nested, eq_comm (a := text.count op)]

end Nesting

end Kaikai.SourceText
