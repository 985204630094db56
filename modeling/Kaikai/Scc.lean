import Mathlib.Algebra.GroupWithZero.Nat
import Mathlib.Algebra.Order.Group.Int
import Mathlib.Data.Fintype.Card

namespace Kaikai.Scc

variable {n : ℕ}

def sccAdjFill : List (Fin n × Fin n) → (Fin n → List (Fin n)) → Fin n → List (Fin n)
  | [], adj => adj
  | (a, b) :: rest, adj => sccAdjFill rest (Function.update adj a (b :: adj a))

/-- One successor list per node, in edge order. -/
def sccAdjacency (es : List (Fin n × Fin n)) : Fin n → List (Fin n) :=
  sccAdjFill es.reverse fun _ => []

/-- The nodes that a walk has yet to mark. -/
def unmarked (seen : Fin n → Bool) : ℕ := (Finset.univ.filter fun v => seen v = false).card

theorem unmarked_update {seen : Fin n → Bool} {v : Fin n} (h : ¬ seen v = true) :
    unmarked (Function.update seen v true) < unmarked seen := by
  refine Finset.card_lt_card ⟨fun u hu => ?_, fun hsub => ?_⟩
  · rw [Finset.mem_filter] at hu ⊢
    refine ⟨Finset.mem_univ u, ?_⟩
    by_cases huv : u = v
    · rw [huv, Function.update_self] at hu
      exact absurd hu.2 (by decide)
    · rw [Function.update_of_ne huv] at hu
      exact hu.2
  · have hv := hsub (Finset.mem_filter.2 ⟨Finset.mem_univ v, Bool.eq_false_iff.2 h⟩)
    rw [Finset.mem_filter, Function.update_self] at hv
    exact absurd hv.2 (by decide)

/-- The frames of a stack, with what they have yet to try. -/
def pending (stack : List (Fin n × List (Fin n))) : ℕ :=
  (stack.map fun f => f.2.length + 1).sum

theorem pending_close (v : Fin n) (rest : List (Fin n × List (Fin n))) :
    pending rest < pending ((v, []) :: rest) := by
  simp [pending]

theorem pending_skip (v w : Fin n) (more : List (Fin n)) (rest : List (Fin n × List (Fin n))) :
    pending ((v, more) :: rest) < pending ((v, w :: more) :: rest) := by
  simp [pending]

/-- Each stack frame is an open node and the successors it has yet to try. -/
def sccDfs (succ : Fin n → List (Fin n)) (stack : List (Fin n × List (Fin n))) (seen : Fin n → Bool)
    (fin : List (Fin n)) : (Fin n → Bool) × List (Fin n) :=
  match stack with
  | [] => (seen, fin)
  | (v, []) :: rest => sccDfs succ rest seen (v :: fin)
  | (v, w :: more) :: rest =>
      if seen w then sccDfs succ ((v, more) :: rest) seen fin
      else sccDfs succ ((w, succ w) :: (v, more) :: rest) (Function.update seen w true) fin
termination_by (unmarked seen, pending stack)
decreasing_by
  · exact Prod.Lex.right _ (pending_close v rest)
  · exact Prod.Lex.right _ (pending_skip v w more rest)
  · exact Prod.Lex.left _ _ (unmarked_update ‹_›)

def sccDfsRoots (succ : Fin n → List (Fin n)) (i : ℕ) (seen : Fin n → Bool) (fin : List (Fin n)) :
    List (Fin n) :=
  if h : i < n then
    if seen ⟨i, h⟩ then sccDfsRoots succ (i + 1) seen fin
    else
      let (seen1, fin1) :=
        sccDfs succ [(⟨i, h⟩, succ ⟨i, h⟩)] (Function.update seen ⟨i, h⟩ true) fin
      sccDfsRoots succ (i + 1) seen1 fin1
  else fin
termination_by n - i

/-- Every node, latest-finishing first, of a depth-first walk over `succ`. -/
def sccFinishOrder (succ : Fin n → List (Fin n)) : List (Fin n) :=
  sccDfsRoots succ 0 (fun _ => false) []

def sccClaim (pred : Fin n → List (Fin n)) (todo : List (Fin n)) (comp : Fin n → ℤ) (c : ℕ) :
    Fin n → ℤ :=
  match todo with
  | [] => comp
  | v :: rest =>
      if comp v ≥ 0 then sccClaim pred rest comp c
      else sccClaim pred (pred v ++ rest) (Function.update comp v c) c
termination_by (unmarked fun v => decide (comp v ≥ 0), todo.length)
decreasing_by
  · exact Prod.Lex.right _ (by simp)
  · refine Prod.Lex.left _ _ ?_
    have hmark : (fun u => decide (Function.update comp v (c : ℤ) u ≥ 0)) =
        Function.update (fun u => decide (comp u ≥ 0)) v true := by
      funext u
      by_cases huv : u = v
      · simp [huv]
      · simp [Function.update_of_ne huv]
    rw [hmark]
    exact unmarked_update (by simpa using ‹¬ comp v ≥ 0›)

def sccAssign (pred : Fin n → List (Fin n)) :
    List (Fin n) → (Fin n → ℤ) → ℕ → Fin n → ℤ
  | [], comp, _ => comp
  | v :: rest, comp, c =>
      if comp v ≥ 0 then sccAssign pred rest comp c
      else sccAssign pred rest (sccClaim pred [v] comp c) (c + 1)

/-- Each root of `order` claims, as one component, what it reaches over `pred` that no earlier root
claimed. -/
def sccComponentIds (pred : Fin n → List (Fin n)) (order : List (Fin n)) : Fin n → ℤ :=
  sccAssign pred order (fun _ => 0 - 1) 0

/-- The least count above all numbers among the first `i` nodes and `k`. -/
def sccCount (comp : Fin n → ℤ) : (i : ℕ) → i ≤ n → ℤ → ℤ
  | 0, _, k => k + 1
  | i + 1, h, k => sccCount comp i (Nat.le_of_succ_le h) (if comp ⟨i, h⟩ > k then comp ⟨i, h⟩ else k)

/-- The nodes below `i`, each in the cell of its component. -/
def sccMembers (comp : Fin n → ℤ) : (i : ℕ) → i ≤ n → (ℤ → List (Fin n)) → ℤ → List (Fin n)
  | 0, _, acc => acc
  | i + 1, h, acc =>
      let c := comp ⟨i, h⟩
      sccMembers comp i (Nat.le_of_succ_le h) (Function.update acc c (⟨i, h⟩ :: acc c))

def sccRows (members : ℤ → List (Fin n)) (c k : ℤ) (acc : List (List (Fin n))) :
    List (List (Fin n)) :=
  if c ≥ k then acc else sccRows members (c + 1) k (members c :: acc)
termination_by (k - c).toNat

def sccByComponent (comp : Fin n → ℤ) : List (List (Fin n)) :=
  let k := sccCount comp n (Nat.le_refl n) 0
  let members := sccMembers comp n (Nat.le_refl n) fun _ => []
  sccRows members 0 k []

/-- The queue is `front` plus reversed `back`. -/
def sccBfs (succ : Fin n → List (Fin n)) (comp : Fin n → ℤ) (c : ℤ) (front back : List (Fin n))
    (done : Fin n → Bool) (acc : List (Fin n)) : List (Fin n) × (Fin n → Bool) :=
  match front with
  | [] =>
      match back with
      | [] => (acc, done)
      | b :: back => sccBfs succ comp c (b :: back).reverse [] done acc
  | v :: rest =>
      if done v = true ∨ comp v ≠ c then sccBfs succ comp c rest back done acc
      else
        sccBfs succ comp c rest ((succ v).reverse ++ back) (Function.update done v true) (v :: acc)
termination_by (unmarked done, front.length + 2 * back.length)
decreasing_by
  · exact Prod.Lex.right _ (by simp)
  · exact Prod.Lex.right _ (by simp)
  · exact Prod.Lex.left _ _ (unmarked_update fun h => absurd (Or.inl h) ‹_›)

def sccGroupsAt (succ : Fin n → List (Fin n)) (comp : Fin n → ℤ) (i : ℕ) (done : Fin n → Bool)
    (acc : List (List (Fin n))) : List (List (Fin n)) :=
  if h : i < n then
    if done ⟨i, h⟩ then sccGroupsAt succ comp (i + 1) done acc
    else
      let (ms, done1) := sccBfs succ comp (comp ⟨i, h⟩) [⟨i, h⟩] [] done []
      sccGroupsAt succ comp (i + 1) done1 (if ms.length ≥ 2 then ms :: acc else acc)
  else acc.reverse
termination_by n - i

def sccGroupsIn (succ : Fin n → List (Fin n)) (comp : Fin n → ℤ) : List (List (Fin n)) :=
  sccGroupsAt succ comp 0 (fun _ => false) []

/-- The component number of every node. -/
def componentIds (es : List (Fin n × Fin n)) : Fin n → ℤ :=
  let succ := sccAdjacency es
  let pred := sccAdjacency (es.map fun e => (e.2, e.1))
  sccComponentIds pred (sccFinishOrder succ)

/-- The components of two or more members, ordered by their lowest index. -/
def sccGroups (n : ℕ) (es : List (Fin n × Fin n)) : List (List (Fin n)) :=
  sccGroupsIn (sccAdjacency es) (componentIds es)

/-- Every component, singletons included, each before the components that reach it. -/
def sccComponents (n : ℕ) (es : List (Fin n × Fin n)) : List (List (Fin n)) :=
  sccByComponent (componentIds es)

end Kaikai.Scc
