import Kaikai.AvlMap
import Kaikai.ListSort

namespace Kaikai.OrderedSet

open AvlMap

variable {α : Type} [LinearOrder α]

/-- Each member with the number of its insertion, and the next number. -/
structure Set (α : Type) where
  index : Map α Int
  next : Int

def empty : Set α := ⟨AvlMap.empty, 0⟩

def contains (s : Set α) (x : α) : Bool := AvlMap.contains s.index x

def insert (s : Set α) (x : α) : Set α :=
  if AvlMap.contains s.index x then s else ⟨put s.index x s.next, s.next + 1⟩

def remove (s : Set α) (x : α) : Set α := ⟨AvlMap.remove s.index x, s.next⟩

def byInsertion (s : Set α) : List (α × Int) :=
  (ListSort.sortBy (fun p q (_ : Unit) => (p.2 - q.2, ())) (toPairs s.index) ()).1

def toList (s : Set α) : List α := (byInsertion s).map Prod.fst

def setUnionLoop (left : Set α) : List α → Set α
  | [] => left
  | h :: tail => setUnionLoop (insert left h) tail

def union (s1 s2 : Set α) : Set α := setUnionLoop s1 (toList s2)

/-- How a program builds a set. -/
inductive Built (α : Type) where
  | empty
  | insert (s : Built α) (x : α)
  | remove (s : Built α) (x : α)
  | union (s t : Built α)

def Built.set : Built α → Set α
  | empty => OrderedSet.empty
  | insert s x => OrderedSet.insert s.set x
  | remove s x => OrderedSet.remove s.set x
  | union s t => OrderedSet.union s.set t.set

def add (l : List α) (x : α) : List α := if x ∈ l then l else l ++ [x]

/-- The members in order of insertion. -/
def Built.members : Built α → List α
  | empty => []
  | insert s x => add s.members x
  | remove s x => s.members.filter (· ≠ x)
  | union s t => t.members.foldl add s.members

/-- The tree holds the pairs of `ps`, which their numbers order. -/
structure Numbered (s : Set α) (ps : List (α × Int)) : Prop where
  ascending : Ascending (pairs s.index.root)
  mem_iff : ∀ k n, (k, n) ∈ pairs s.index.root ↔ (k, n) ∈ ps
  ordered : ps.Pairwise (·.2 < ·.2)
  below : ∀ p ∈ ps, p.2 < s.next

/-- The set has the members of `l`, inserted in that order. -/
def Lists (s : Set α) (l : List α) : Prop := ∃ ps, Numbered s ps ∧ ps.map Prod.fst = l

variable {s : Set α} {l : List α}

theorem Lists.toList (h : Lists s l) : toList s = l := by
  obtain ⟨ps, h, rfl⟩ := h
  have hnums : (ps.map Prod.snd).Nodup := (List.pairwise_map.2 h.ordered).imp ne_of_lt
  have hkeys : (pairs s.index.root).Nodup := h.ascending.imp fun hlt heq => (heq ▸ hlt).false
  have hperm : (byInsertion s).Perm ps := by
    refine (ListSort.perm_sortBy _ _ _).trans ?_
    rw [toPairs_eq]
    exact (List.perm_ext_iff_of_nodup hkeys hnums.of_map).2 fun p => h.mem_iff p.1 p.2
  have horder : ListSort.TotalPreorder fun p q : α × Int => p.2 - q.2 :=
    ⟨fun _ _ => by omega, fun _ _ _ => by omega⟩
  have hsorted : ListSort.Ascending _ (byInsertion s) :=
    (ListSort.sortBy_ordered horder (fun _ _ _ => rfl) _ _).1
  refine congrArg (List.map Prod.fst) (hperm.eq_of_pairwise (fun p q hp hq hpq hqp => ?_) hsorted
    (h.ordered.imp fun hlt => sub_nonpos.2 hlt.le))
  exact List.inj_on_of_nodup_map hnums (hperm.subset hp) hq
    (le_antisymm (sub_nonpos.1 hpq) (sub_nonpos.1 hqp))

theorem Lists.contains (h : Lists s l) (x : α) : contains s x = decide (x ∈ l) := by
  obtain ⟨ps, h, rfl⟩ := h
  have hrep : Represents (pairs s.index.root) (treeGet s.index.root) :=
    ⟨h.ascending, fun k v => (treeGet_eq h.ascending k v).symm⟩
  rw [OrderedSet.contains, hrep.contains, Bool.eq_iff_iff, Option.isSome_iff_exists]
  simp [treeGet_eq h.ascending, h.mem_iff]

theorem Lists.insert (h : Lists s l) (x : α) : Lists (insert s x) (add l x) := by
  have hc : AvlMap.contains s.index x = decide (x ∈ l) := h.contains x
  rw [OrderedSet.insert, add, hc]
  by_cases hx : x ∈ l
  · simpa [hx] using h
  obtain ⟨ps, h, rfl⟩ := h
  obtain ⟨hasc, hmem⟩ := treeInsert_spec h.ascending x s.next
  have hnew : ∀ k n, (k, n) ∈ ps → k ≠ x := fun k n hp hk =>
    hx (List.mem_map.2 ⟨(k, n), hp, hk⟩)
  rw [if_neg (by simpa using hx), if_neg hx]
  refine ⟨ps ++ [(x, s.next)], ⟨hasc, fun k n => ?_, ?_, ?_⟩, by simp⟩
  · rw [put, hmem, h.mem_iff, List.mem_append, List.mem_singleton, Prod.mk.injEq]
    grind
  · exact List.pairwise_append.2 ⟨h.ordered, List.pairwise_singleton _ _, by simpa using h.below⟩
  · exact List.forall_mem_append.2 ⟨fun p hp => (h.below p hp).trans (lt_add_one _), by simp⟩

theorem Lists.remove (h : Lists s l) (x : α) : Lists (remove s x) (l.filter (· ≠ x)) := by
  obtain ⟨ps, h, rfl⟩ := h
  obtain ⟨hasc, hmem⟩ := treeRemove_spec h.ascending x
  refine ⟨ps.filter (·.1 ≠ x), ⟨hasc, fun k n => ?_, h.ordered.filter _,
    fun p hp => h.below p (List.mem_filter.1 hp).1⟩, by rw [List.filter_map]; rfl⟩
  rw [OrderedSet.remove, AvlMap.remove, hmem, h.mem_iff, List.mem_filter, and_comm]
  simp

theorem Lists.union (xs : List α) (h : Lists s l) : Lists (setUnionLoop s xs) (xs.foldl add l) := by
  induction xs generalizing s l with
  | nil => exact h
  | cons x xs ih => exact ih (h.insert x)

theorem Built.lists (s : Built α) : Lists s.set s.members := by
  induction s with
  | empty => exact ⟨[], ⟨.nil, by simp [set, OrderedSet.empty, AvlMap.empty, pairs], .nil, by simp⟩, rfl⟩
  | insert s x ih => exact ih.insert x
  | remove s x ih => exact ih.remove x
  | union s t ihs iht =>
      rw [set, OrderedSet.union, iht.toList]
      exact ihs.union t.members

/-- A set lists its members in order of insertion, whichever operations built it. -/
theorem set_keeps_order (s : Built α) : toList s.set = s.members ∧
    ∀ x, contains s.set x = decide (x ∈ s.members) :=
  ⟨s.lists.toList, s.lists.contains⟩

end Kaikai.OrderedSet
