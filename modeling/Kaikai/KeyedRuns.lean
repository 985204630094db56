import Mathlib.Data.List.Forall2
import Mathlib.Order.Lattice

/-!
Lists sorted by a key, elements of one key in the reverse of their order, and with an element
dropped that its right neighbour repeats. Such a list is known from its runs, one a key.
-/

namespace Kaikai.KeyedRuns

variable {α κ : Type*} [LinearOrder κ]

/-- An element goes behind those of its key. -/
def insertAfter (key : α → κ) (a : α) : List α → List α
  | [] => [a]
  | b :: rest => if key a < key b then a :: b :: rest else b :: insertAfter key a rest

def sortBy (key : α → κ) (l : List α) : List α :=
  l.foldr (insertAfter key) []

/-- The elements of one key. -/
def run (key : α → κ) (k : κ) (l : List α) : List α :=
  l.filter fun a => key a = k

/-- Every element that its right neighbour does not repeat. -/
def collapse (same : α → α → Bool) : List α → List α
  | [] => []
  | [a] => [a]
  | a :: b :: rest =>
      if same a b then collapse same (b :: rest) else a :: collapse same (b :: rest)

def Sorted (key : α → κ) (l : List α) : Prop :=
  l.Pairwise fun a b => key a ≤ key b

section Sorting

variable {key : α → κ} {k : κ}

theorem mem_insertAfter {a b : α} {l : List α} : b ∈ insertAfter key a l ↔ b = a ∨ b ∈ l := by
  induction l with
  | nil => simp [insertAfter]
  | cons c rest ih =>
      simp only [insertAfter]
      split
      · simp
      · rw [List.mem_cons, List.mem_cons, ih, or_left_comm]

theorem Sorted.insertAfter {a : α} {l : List α} (h : Sorted key l) :
    Sorted key (insertAfter key a l) := by
  induction l with
  | nil => exact List.pairwise_singleton _ _
  | cons c rest ih =>
      obtain ⟨hc, hrest⟩ := List.pairwise_cons.1 h
      simp only [KeyedRuns.insertAfter]
      split
      case isTrue hlt =>
        refine List.pairwise_cons.2 ⟨fun b hb => ?_, h⟩
        obtain rfl | hb := List.mem_cons.1 hb
        · exact hlt.le
        · exact hlt.le.trans (hc b hb)
      case isFalse hge =>
        refine List.pairwise_cons.2 ⟨fun b hb => ?_, ih hrest⟩
        obtain rfl | hb := mem_insertAfter.1 hb
        · exact not_lt.1 hge
        · exact hc b hb

theorem sorted_sortBy (l : List α) : Sorted key (sortBy key l) := by
  induction l with
  | nil => exact List.Pairwise.nil
  | cons a rest ih => exact ih.insertAfter

theorem mem_sortBy {a : α} {l : List α} : a ∈ sortBy key l ↔ a ∈ l := by
  induction l with
  | nil => exact Iff.rfl
  | cons b rest ih =>
      change a ∈ KeyedRuns.insertAfter key b (sortBy key rest) ↔ _
      rw [mem_insertAfter, ih, List.mem_cons]

theorem run_cons (a : α) (l : List α) :
    run key k (a :: l) = if key a = k then a :: run key k l else run key k l := by
  simp [run, List.filter_cons]

theorem run_nil : run key k [] = [] :=
  rfl

theorem run_eq_nil {l : List α} (h : ∀ a ∈ l, key a ≠ k) : run key k l = [] := by
  simpa [run] using h

theorem run_insertAfter {a : α} {l : List α} (h : Sorted key l) :
    run key k (insertAfter key a l) = run key k l ++ run key k [a] := by
  induction l with
  | nil => rfl
  | cons b rest ih =>
      obtain ⟨hb, hrest⟩ := List.pairwise_cons.1 h
      simp only [insertAfter]
      split
      case isTrue hlt =>
        rw [run_cons]
        split
        case isTrue hk =>
          have hnil : run key k (b :: rest) = [] := by
            refine run_eq_nil fun c hc heq => ?_
            obtain rfl | hc := List.mem_cons.1 hc
            · exact hlt.ne (hk.trans heq.symm)
            · exact (hlt.trans_le (hb c hc)).ne (hk.trans heq.symm)
          rw [hnil, run_cons, if_pos hk]
          rfl
        case isFalse hk => rw [run_cons a [], if_neg hk, run_nil, List.append_nil]
      case isFalse hge =>
        rw [run_cons, run_cons, ih hrest]
        split
        · rfl
        · rfl

theorem run_sortBy (l : List α) : run key k (sortBy key l) = (run key k l).reverse := by
  induction l with
  | nil => rfl
  | cons a rest ih =>
      change run key k (insertAfter key a (sortBy key rest)) = _
      rw [run_insertAfter (sorted_sortBy rest), ih, run_cons a rest, run_cons a []]
      split
      · rw [List.reverse_cons]
        rfl
      · exact List.append_nil _

end Sorting

section Collapsing

variable {key : α → κ} {same : α → α → Bool}

theorem mem_of_mem_collapse {b : α} {l : List α} (h : b ∈ collapse same l) : b ∈ l := by
  induction l with
  | nil => exact h
  | cons a rest ih =>
      cases rest with
      | nil => exact h
      | cons c rest =>
          rw [collapse] at h
          split at h
          · exact List.mem_cons_of_mem _ (ih h)
          · obtain rfl | h := List.mem_cons.1 h
            · exact List.mem_cons_self
            · exact List.mem_cons_of_mem _ (ih h)

theorem collapse_ne_nil {l : List α} (h : l ≠ []) : collapse same l ≠ [] := by
  induction l with
  | nil => exact h
  | cons a rest ih =>
      cases rest with
      | nil => exact h
      | cons b rest =>
          rw [collapse]
          split
          · exact ih (List.cons_ne_nil _ _)
          · exact List.cons_ne_nil _ _

theorem collapse_of_same {l : List α} (h : ∀ a ∈ l, ∀ b ∈ l, same a b = true) (hne : l ≠ []) :
    ∃ a ∈ l, collapse same l = [a] := by
  induction l with
  | nil => exact absurd rfl hne
  | cons a rest ih =>
      cases rest with
      | nil => exact ⟨a, List.mem_cons_self, rfl⟩
      | cons b rest =>
          have hrest : ∀ c ∈ b :: rest, ∀ d ∈ b :: rest, same c d = true := fun c hc d hd =>
            h c (List.mem_cons_of_mem _ hc) d (List.mem_cons_of_mem _ hd)
          obtain ⟨c, hc, hlast⟩ := ih hrest (List.cons_ne_nil _ _)
          have hab := h a List.mem_cons_self b (List.mem_cons_of_mem _ List.mem_cons_self)
          refine ⟨c, List.mem_cons_of_mem _ hc, ?_⟩
          rw [collapse, if_pos hab, hlast]

theorem collapse_eq_self {l : List α} (h : ∀ a ∈ l, ∀ b ∈ l, same a b = false) :
    collapse same l = l := by
  induction l with
  | nil => rfl
  | cons a rest ih =>
      cases rest with
      | nil => rfl
      | cons b rest =>
          have hab := h a List.mem_cons_self b (List.mem_cons_of_mem _ List.mem_cons_self)
          rw [collapse, hab, ih fun c hc d hd =>
            h c (List.mem_cons_of_mem _ hc) d (List.mem_cons_of_mem _ hd)]
          rfl

theorem getLast?_collapse (l : List α) : (collapse same l).getLast? = l.getLast? := by
  induction l with
  | nil => rfl
  | cons a rest ih =>
      cases rest with
      | nil => rfl
      | cons b rest =>
          rw [collapse, List.getLast?_cons_cons, ← ih]
          split
          · rfl
          · have hne : collapse same (b :: rest) ≠ [] := collapse_ne_nil (List.cons_ne_nil b rest)
            obtain ⟨c, rest', hrest⟩ := List.exists_cons_of_ne_nil hne
            rw [hrest, List.getLast?_cons_cons]

theorem Sorted.collapse {l : List α} (h : Sorted key l) : Sorted key (collapse same l) := by
  induction l with
  | nil => exact h
  | cons a rest ih =>
      cases rest with
      | nil => exact h
      | cons b rest =>
          obtain ⟨ha, hrest⟩ := List.pairwise_cons.1 h
          rw [KeyedRuns.collapse]
          split
          · exact ih hrest
          · exact List.pairwise_cons.2 ⟨fun c hc => ha c (mem_of_mem_collapse hc), ih hrest⟩

theorem run_collapse (hsame : ∀ a b, same a b = true → key a = key b) {k : κ} {l : List α}
    (h : Sorted key l) : run key k (collapse same l) = collapse same (run key k l) := by
  induction l with
  | nil => rfl
  | cons a rest ih =>
      cases rest with
      | nil =>
          rw [collapse, run_cons]
          split <;> rfl
      | cons b rest =>
          obtain ⟨ha, hrest⟩ := List.pairwise_cons.1 h
          have hb := (List.pairwise_cons.1 hrest).1
          have ih := ih hrest
          rw [collapse]
          split
          case isTrue hab =>
            have hkey := hsame a b hab
            rw [ih, run_cons a, run_cons b]
            split
            case isTrue hk => rw [if_pos (hkey.trans hk), collapse, if_pos hab]
            case isFalse hk => rw [if_neg fun ha => hk (hkey.symm.trans ha)]
          case isFalse hab =>
            rw [run_cons, run_cons a, ih, run_cons b]
            split
            case isTrue hk =>
              split
              case isTrue hbk => rw [collapse, if_neg hab]
              case isFalse hbk =>
                have hnil : run key k rest = [] := by
                  refine run_eq_nil fun c hc heq => hbk (le_antisymm ?_ ?_)
                  · exact heq ▸ hb c hc
                  · exact hk ▸ ha b List.mem_cons_self
                rw [hnil]
                rfl
            case isFalse hk => rfl

end Collapsing

section Runs

variable {key : α → κ} {R : α → α → Prop}

theorem exists_of_run_ne_nil {k : κ} {l : List α} (h : run key k l ≠ []) :
    ∃ a ∈ l, key a = k := by
  by_contra hnone
  exact h (run_eq_nil fun a ha hk => hnone ⟨a, ha, hk⟩)

theorem sorted_head_le {a b : α} {l : List α} (h : Sorted key (a :: l)) (hb : b ∈ a :: l) :
    key a ≤ key b := by
  obtain rfl | hb := List.mem_cons.1 hb
  · exact le_rfl
  · exact (List.pairwise_cons.1 h).1 b hb

theorem forall₂_iff_runs (hR : ∀ a b, R a b → key a = key b) {l m : List α}
    (hl : Sorted key l) (hm : Sorted key m) :
    List.Forall₂ R l m ↔ ∀ k, List.Forall₂ R (run key k l) (run key k m) := by
  constructor
  · intro h k
    induction h with
    | nil => exact .nil
    | cons hab _ ih =>
        obtain ⟨-, hl⟩ := List.pairwise_cons.1 hl
        obtain ⟨-, hm⟩ := List.pairwise_cons.1 hm
        rw [run_cons, run_cons, hR _ _ hab]
        split
        · exact .cons hab (ih hl hm)
        · exact ih hl hm
  · intro h
    induction l generalizing m with
    | nil =>
        cases m with
        | nil => exact .nil
        | cons b m =>
            have hb := h (key b)
            rw [run_cons b, if_pos rfl] at hb
            cases hb
    | cons a l ih =>
        have ha := h (key a)
        rw [run_cons a, if_pos rfl] at ha
        cases m with
        | nil => cases ha
        | cons b m =>
            have hl' := hl
            obtain ⟨-, hl⟩ := List.pairwise_cons.1 hl
            obtain ⟨-, hm'⟩ := List.pairwise_cons.1 hm
            -- each head has a partner of its key on the other side
            have hb := h (key b)
            rw [run_cons b, if_pos rfl] at hb
            have hleft : run key (key b) (a :: l) ≠ [] := fun hnil => by rw [hnil] at hb; cases hb
            have hright : run key (key a) (b :: m) ≠ [] := fun hnil => by rw [hnil] at ha; cases ha
            have hkey : key a = key b := by
              obtain ⟨c, hc, hcb⟩ := exists_of_run_ne_nil hleft
              obtain ⟨d, hd, hda⟩ := exists_of_run_ne_nil hright
              exact le_antisymm (hcb ▸ sorted_head_le hl' hc) (hda ▸ sorted_head_le hm hd)
            rw [run_cons b, if_pos hkey.symm] at ha
            obtain ⟨hab, -⟩ := List.forall₂_cons.1 ha
            refine .cons hab (ih hl hm' fun k => ?_)
            have hk := h k
            rw [run_cons, run_cons, hkey] at hk
            split at hk
            · exact (List.forall₂_cons.1 hk).2
            · exact hk

theorem forall₂_collapse_sortBy_iff {same : α → α → Bool}
    (hsame : ∀ a b, same a b = true → key a = key b) (hR : ∀ a b, R a b → key a = key b)
    (l m : List α) :
    List.Forall₂ R (collapse same (sortBy key l)) (collapse same (sortBy key m)) ↔
      ∀ k, List.Forall₂ R (collapse same (run key k l).reverse)
        (collapse same (run key k m).reverse) := by
  rw [forall₂_iff_runs hR (sorted_sortBy l).collapse (sorted_sortBy m).collapse]
  refine forall_congr' fun k => ?_
  rw [run_collapse hsame (sorted_sortBy l), run_collapse hsame (sorted_sortBy m), run_sortBy,
    run_sortBy]

end Runs

end Kaikai.KeyedRuns
