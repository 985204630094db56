import Mathlib.Data.List.Infix
import Kaikai.AvlBalance

namespace Kaikai.AvlMap

variable {κ ν : Type}

inductive Op (κ ν : Type) where
  | put (key : κ) (value : ν)
  | remove (key : κ)

section Order

variable [LinearOrder κ]

def Op.apply (m : Map κ ν) : Op κ ν → Map κ ν
  | .put key value => AvlMap.put m key value
  | .remove key => AvlMap.remove m key

/-- The last put wins, a removal deletes its key only. -/
def Op.onRef (ref : κ → Option ν) : Op κ ν → κ → Option ν
  | .put key value => Function.update ref key (some value)
  | .remove key => Function.update ref key none

def run (ops : List (Op κ ν)) : Map κ ν := ops.foldl Op.apply empty

def reference (ops : List (Op κ ν)) : κ → Option ν := ops.foldl Op.onRef fun _ => none

end Order

inductive Subtree : Tree κ ν → Tree κ ν → Prop
  | refl (t : Tree κ ν) : Subtree t t
  | left {t : Tree κ ν} {k : κ} {v : ν} {p : Int} {l r : Tree κ ν} :
      Subtree t l → Subtree t (.tNode k v p l r)
  | right {t : Tree κ ν} {k : κ} {v : ν} {p : Int} {l r : Tree κ ν} :
      Subtree t r → Subtree t (.tNode k v p l r)

instance (t : Tree κ ν) : Decidable (Fits t) := inferInstanceAs (Decidable (_ ∧ _))

section Order

variable [LinearOrder κ]

theorem Op.apply_represents {m : Map κ ν} {ref : κ → Option ν}
    (h : Represents (pairs m.root) ref) (op : Op κ ν) :
    Represents (pairs (op.apply m).root) (op.onRef ref) := by
  cases op with
  | put key value => exact h.insert key value
  | remove key => exact h.remove key

theorem foldl_represents (ops : List (Op κ ν)) : ∀ {m : Map κ ν} {ref : κ → Option ν},
    Represents (pairs m.root) ref →
      Represents (pairs (ops.foldl Op.apply m).root) (ops.foldl Op.onRef ref) := by
  induction ops with
  | nil => exact fun h => h
  | cons op ops ih => exact fun h => ih (Op.apply_represents h op)

theorem run_represents (ops : List (Op κ ν)) :
    Represents (pairs (run ops).root) (reference ops) :=
  foldl_represents ops represents_empty

theorem Op.apply_good {m : Map κ ν} (h : Good m.root) (hfits : Fits m.root) (op : Op κ ν) :
    Good (op.apply m).root := by
  cases op with
  | put key value => exact (treeInsert_grown h hfits key value).good
  | remove key => exact (treeRemove_shrunk h hfits key).good

theorem run_good (ops : List (Op κ ν)) (hfits : ∀ pre ∈ ops.inits, Fits (run pre).root) :
    Good (run ops).root := by
  induction ops using List.reverseRecOn with
  | nil => exact ⟨trivial, trivial⟩
  | append_singleton ops op ih =>
      have hpre : ∀ pre ∈ ops.inits, Fits (run pre).root := by
        intro pre hm
        apply hfits
        rw [List.mem_inits] at hm ⊢
        exact hm.trans (List.prefix_append ops [op])
      rw [run, List.foldl_append]
      exact Op.apply_good (ih hpre) (hpre ops ((List.mem_inits ops ops).2 (List.prefix_refl ops))) op

end Order

theorem Subtree.good {t s : Tree κ ν} (h : Subtree t s) : Good s → Fits s → Good t ∧ Fits t := by
  induction h with
  | refl => exact fun hgood hfits => ⟨hgood, hfits⟩
  | left _ ih => exact fun hgood hfits => ih hgood.left hfits.left
  | right _ ih => exact fun hgood hfits => ih hgood.right hfits.right

section Order

variable [LinearOrder κ]

/-- The ordered map is the finite map that its operations build, and it is balanced and
sized while every map of the run fits its packed word. -/
theorem map_agrees (ops ops' : List (Op κ ν)) :
    Agrees (run ops) (reference ops) ∧
    Agrees (merge (run ops) (run ops'))
      (fun k => (reference ops k).orElse fun _ => reference ops' k) ∧
    ((∀ pre ∈ ops.inits, Fits (run pre).root) →
      Balanced (run ops).root ∧
      (∀ t, Subtree t (run ops).root → treeHeight t = height t ∧ treeSize t = nodes t) ∧
      size (run ops) = (toPairs (run ops)).length) := by
  refine ⟨(run_represents ops).agrees,
    ((run_represents ops).merge (run_represents ops')).agrees, fun hfits => ?_⟩
  have hgood := run_good ops hfits
  have hroot := hfits ops ((List.mem_inits ops ops).2 (List.prefix_refl ops))
  have hdecode : ∀ t, Subtree t (run ops).root → treeHeight t = height t ∧ treeSize t = nodes t := by
    intro t ht
    obtain ⟨htgood, htfits⟩ := ht.good hgood hroot
    exact htgood.packed.decode htfits
  refine ⟨hgood.balanced, hdecode, ?_⟩
  rw [toPairs_eq, ← nodes_eq]
  exact (hdecode _ (.refl _)).2

end Order

/-- Three puts in one direction, and the root of the rotated tree removed. -/
theorem map_agrees_rotated :
    size (run [.put 1 10, .put 2 20, .put 3 30, .remove 2] : Map Int Int) = 2 ∧
      get (run [.put 1 10, .put 2 20, .put 3 30, .remove 2] : Map Int Int) 3 = some 30 := by
  obtain ⟨hagrees, -, hbalance⟩ :=
    map_agrees ([.put 1 10, .put 2 20, .put 3 30, .remove 2] : List (Op Int Int)) []
  obtain ⟨-, -, hsize⟩ := hbalance (by decide)
  constructor
  · rw [hsize]
    rfl
  · rw [hagrees.get]
    rfl

end Kaikai.AvlMap
