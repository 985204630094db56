import Mathlib.Data.List.Sort

/-!
The merge sort of lists. A comparator may have effects: it passes a state along, and its answer may
depend on it.
-/

namespace Kaikai.ListSort

variable {α σ : Type}

/-- The first `n` elements. -/
def take (xs : List α) (n : Int) : List α :=
  if n ≤ 0 then []
  else
    match xs with
    | [] => []
    | h :: t => h :: take t (n - 1)

/-- The list without its first `n` elements. -/
def drop (xs : List α) (n : Int) : List α :=
  if n ≤ 0 then xs
  else
    match xs with
    | [] => []
    | _ :: t => drop t (n - 1)

theorem take_eq (xs : List α) (n : Int) : take xs n = xs.take n.toNat := by
  induction xs generalizing n with
  | nil =>
      rw [take, List.take_nil]
      split_ifs <;> rfl
  | cons h t ih =>
      rw [take]
      split_ifs with hn
      · rw [Int.toNat_of_nonpos hn, List.take_zero]
      · have hsucc : n.toNat = (n - 1).toNat + 1 := by omega
        rw [hsucc, List.take_succ_cons, ← ih]

theorem drop_eq (xs : List α) (n : Int) : drop xs n = xs.drop n.toNat := by
  induction xs generalizing n with
  | nil =>
      rw [drop, List.drop_nil]
      split_ifs <;> rfl
  | cons h t ih =>
      rw [drop]
      split_ifs with hn
      · rw [Int.toNat_of_nonpos hn, List.drop_zero]
      · have hsucc : n.toNat = (n - 1).toNat + 1 := by omega
        rw [hsucc, List.drop_succ_cons, ← ih]

theorem take_append_drop (xs : List α) (n : Int) : take xs n ++ drop xs n = xs := by
  rw [take_eq, drop_eq, List.take_append_drop]

/-- Ties go to the left list. -/
def mergeByLoop (cmp : α → α → σ → Int × σ) (xs ys acc : List α) (s : σ) : List α × σ :=
  match xs, ys with
  | [], ys => (acc.reverse ++ ys, s)
  | hx :: tx, [] => (acc.reverse ++ hx :: tx, s)
  | hx :: tx, hy :: ty =>
      let r := cmp hx hy s
      if r.1 ≤ 0 then mergeByLoop cmp tx (hy :: ty) (hx :: acc) r.2
      else mergeByLoop cmp (hx :: tx) ty (hy :: acc) r.2
termination_by xs.length + ys.length

def mergeBy (cmp : α → α → σ → Int × σ) (xs ys : List α) (s : σ) : List α × σ :=
  mergeByLoop cmp xs ys [] s

theorem mid_eq (n : Nat) : ((n : Int).tdiv 2).toNat = n / 2 := by
  rw [Int.tdiv_eq_ediv_of_nonneg (Int.natCast_nonneg n)]
  omega

/-- The halves are shorter than the list, whatever the comparator answers. -/
def sortBy (cmp : α → α → σ → Int × σ) (xs : List α) (s : σ) : List α × σ :=
  let n : Int := xs.length
  if n ≤ 1 then (xs, s)
  else
    let mid := n.tdiv 2
    let left := take xs mid
    let right := drop xs mid
    let l := sortBy cmp left s
    let r := sortBy cmp right l.2
    mergeBy cmp l.1 r.1 r.2
termination_by xs.length
decreasing_by
  all_goals
    simp only [take_eq, drop_eq, List.length_take, List.length_drop, mid_eq]
    omega

theorem perm_mergeByLoop (cmp : α → α → σ → Int × σ) (xs ys acc : List α) (s : σ) :
    (mergeByLoop cmp xs ys acc s).1.Perm (acc.reverse ++ (xs ++ ys)) := by
  induction xs, ys, acc, s using mergeByLoop.induct cmp with
  | case1 ys acc s => rw [mergeByLoop, List.nil_append]
  | case2 acc s hx tx => rw [mergeByLoop, List.append_nil]
  | case3 acc s hx tx hy ty r hr ih =>
      rw [mergeByLoop]
      simp only [r] at hr
      rw [if_pos hr]
      rw [List.reverse_cons, List.append_assoc] at ih
      exact ih
  | case4 acc s hx tx hy ty r hr ih =>
      rw [mergeByLoop]
      simp only [r] at hr
      rw [if_neg hr]
      rw [List.reverse_cons, List.append_assoc] at ih
      exact ih.trans ((List.perm_middle.symm : (hy :: (hx :: tx ++ ty)).Perm _).append_left _)

theorem perm_sortBy (cmp : α → α → σ → Int × σ) (xs : List α) (s : σ) :
    (sortBy cmp xs s).1.Perm xs := by
  induction xs, s using sortBy.induct cmp with
  | case1 xs s n hn =>
      rw [sortBy, if_pos hn]
  | case2 xs s n hn mid left right l ihl _ ihr =>
      rw [sortBy, if_neg hn]
      refine (perm_mergeByLoop cmp _ _ [] _).trans ((ihl.append ihr).trans ?_)
      rw [show left ++ right = xs from take_append_drop xs mid]

/-- The answers order the elements: any two compare one way or the other, and the order carries over. -/
structure TotalPreorder (f : α → α → Int) : Prop where
  total : ∀ a b, f a b ≤ 0 ∨ f b a ≤ 0
  trans : ∀ a b c, f a b ≤ 0 → f b c ≤ 0 → f a c ≤ 0

/-- Ascending under the comparator. -/
def Ascending (f : α → α → Int) (xs : List α) : Prop := xs.Pairwise fun a b => f a b ≤ 0

/-- Elements that compare equal. -/
def sameKey (f : α → α → Int) (a b : α) : Bool := f a b ≤ 0 ∧ f b a ≤ 0

section Ordered

variable {f : α → α → Int} {cmp : α → α → σ → Int × σ}

theorem mergeByLoop_eq (hcmp : ∀ a b s, (cmp a b s).1 = f a b) (xs ys acc : List α) (s : σ) :
    (mergeByLoop cmp xs ys acc s).1 = acc.reverse ++ xs.merge ys fun a b => f a b ≤ 0 := by
  induction xs, ys, acc, s using mergeByLoop.induct cmp with
  | case1 ys acc s => rw [mergeByLoop, List.nil_merge]
  | case2 acc s hx tx => rw [mergeByLoop, List.merge_right]
  | case3 acc s hx tx hy ty r hr ih =>
      simp only [r] at hr
      rw [mergeByLoop, if_pos hr, ih, List.reverse_cons, List.append_assoc,
        List.cons_merge_cons_pos]
      · rfl
      · rw [hcmp] at hr
        exact decide_eq_true hr
  | case4 acc s hx tx hy ty r hr ih =>
      simp only [r] at hr
      rw [mergeByLoop, if_neg hr, ih, List.reverse_cons, List.append_assoc,
        List.cons_merge_cons_neg]
      · rfl
      · rw [hcmp] at hr
        exact fun h => hr (of_decide_eq_true h)

theorem ascending_merge (hf : TotalPreorder f) {xs ys : List α} (hxs : Ascending f xs)
    (hys : Ascending f ys) : Ascending f (xs.merge ys fun a b => f a b ≤ 0) := by
  have hle : ∀ {zs : List α}, (zs.Pairwise fun a b => decide (f a b ≤ 0) = true) ↔ Ascending f zs := by
    intro zs
    simp only [decide_eq_true_eq, Ascending]
  refine hle.1 (List.pairwise_merge ?_ ?_ xs ys (hle.2 hxs) (hle.2 hys))
  · intro a b c hab hbc
    exact decide_eq_true (hf.trans a b c (of_decide_eq_true hab) (of_decide_eq_true hbc))
  · intro a b
    rw [Bool.or_eq_true]
    exact (hf.total a b).imp decide_eq_true decide_eq_true

theorem filter_merge (hf : TotalPreorder f) (a : α) {xs ys : List α} (hxs : Ascending f xs) :
    (xs.merge ys fun a b => f a b ≤ 0).filter (sameKey f a) =
      xs.filter (sameKey f a) ++ ys.filter (sameKey f a) := by
  induction xs generalizing ys with
  | nil => rw [List.nil_merge, List.filter_nil, List.nil_append]
  | cons x tx ihx =>
      induction ys with
      | nil => rw [List.merge_right, List.filter_nil, List.append_nil]
      | cons y ty ihy =>
          obtain ⟨hx, htx⟩ := List.pairwise_cons.1 hxs
          by_cases hxy : f x y ≤ 0
          · rw [List.cons_merge_cons_pos _ _ _ (decide_eq_true hxy)]
            cases hax : sameKey f a x with
            | false => rw [List.filter_cons_of_neg (by simp [hax]), List.filter_cons_of_neg
                (by simp [hax]), ihx htx]
            | true => rw [List.filter_cons_of_pos hax, List.filter_cons_of_pos hax, ihx htx,
                List.cons_append]
          · rw [List.cons_merge_cons_neg _ _ _ fun h => hxy (of_decide_eq_true h), List.filter_cons,
              ihy]
            split_ifs with hay
            · -- no element of the left list has the key of the right head
              have hnone : (x :: tx).filter (sameKey f a) = [] := by
                refine List.filter_eq_nil_iff.2 fun z hz haz => hxy ?_
                obtain ⟨-, hza⟩ := of_decide_eq_true haz
                obtain ⟨hay, -⟩ := of_decide_eq_true hay
                have hxz : f x z ≤ 0 := by
                  obtain rfl | hz := List.mem_cons.1 hz
                  · exact (hf.total z z).elim id id
                  · exact hx z hz
                exact hf.trans x z y hxz (hf.trans z a y hza hay)
              rw [hnone, List.nil_append, List.nil_append, List.filter_cons_of_pos hay]
            · rw [List.filter_cons_of_neg hay]

theorem sortBy_ordered (hf : TotalPreorder f) (hcmp : ∀ a b s, (cmp a b s).1 = f a b) (xs : List α)
    (s : σ) : Ascending f (sortBy cmp xs s).1 ∧
      ∀ a, (sortBy cmp xs s).1.filter (sameKey f a) = xs.filter (sameKey f a) := by
  induction xs, s using sortBy.induct cmp with
  | case1 xs s n hn =>
      rw [sortBy, if_pos hn]
      refine ⟨?_, fun a => rfl⟩
      cases xs with
      | nil => exact .nil
      | cons x t =>
          cases t with
          | nil => exact List.pairwise_singleton _ x
          | cons y t =>
              simp only [n, List.length_cons] at hn
              omega
  | case2 xs s n hn mid left right l ihl _ ihr =>
      rw [sortBy, if_neg hn]
      obtain ⟨hleft, hkeep⟩ := ihl
      obtain ⟨hright, hkeep'⟩ := ihr
      simp only [mergeBy]
      rw [mergeByLoop_eq hcmp, List.reverse_nil, List.nil_append]
      refine ⟨ascending_merge hf hleft hright, fun a => ?_⟩
      rw [filter_merge hf a hleft, hkeep a, hkeep' a, ← List.filter_append,
        show left ++ right = xs from take_append_drop xs mid]

end Ordered

/-- The sort of a list is a permutation of it for every comparator; for one whose answers are a total
preorder it is ascending, and elements that compare equal keep their order. -/
theorem sortBy_stable (cmp : α → α → σ → Int × σ) (xs : List α) (s : σ) :
    (sortBy cmp xs s).1.Perm xs ∧
      ∀ f : α → α → Int, TotalPreorder f → (∀ a b s, (cmp a b s).1 = f a b) →
        Ascending f (sortBy cmp xs s).1 ∧
          ∀ a, (sortBy cmp xs s).1.filter (sameKey f a) = xs.filter (sameKey f a) :=
  ⟨perm_sortBy cmp xs s, fun _ hf hcmp => sortBy_ordered hf hcmp xs s⟩

/-- Order by the tens digit. -/
def byTens (a b : Int) : Int := a / 10 - b / 10

theorem sortBy_stable_byTens :
    Ascending byTens (sortBy (fun a b (s : Nat) => (byTens a b, s + 1)) [21, 13, 25, 11] 0).1 ∧
      ∀ a, (sortBy (fun a b (s : Nat) => (byTens a b, s + 1)) [21, 13, 25, 11] 0).1.filter
        (sameKey byTens a) = [21, 13, 25, 11].filter (sameKey byTens a) := by
  have horder : TotalPreorder byTens := by
    constructor
    · intro a b
      unfold byTens
      omega
    · intro a b c
      unfold byTens
      omega
  exact (sortBy_stable _ _ _).2 byTens horder fun _ _ _ => rfl

end Kaikai.ListSort
