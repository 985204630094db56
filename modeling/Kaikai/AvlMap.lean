import Kaikai.Word64

/-!
The ordered map of the standard library: an AVL tree whose nodes pack the size and
the height of their subtree into one machine word, `size * 64 + height`.
-/

namespace Kaikai.AvlMap

variable {κ ν α : Type}

inductive Tree (κ ν : Type) where
  | tEmpty
  | tNode (key : κ) (value : ν) (packed : Int) (l r : Tree κ ν)
deriving Repr

structure Map (κ ν : Type) where
  root : Tree κ ν

def treeHeight : Tree κ ν → Int
  | .tEmpty => 0
  | .tNode _ _ h _ _ => h.tmod 64

def treeSize : Tree κ ν → Int
  | .tEmpty => 0
  | .tNode _ _ h _ _ => h.tdiv 64

def treeNode (key : κ) (value : ν) (l r : Tree κ ν) : Tree κ ν :=
  let lh := treeHeight l
  let rh := treeHeight r
  let h := if lh > rh then Word64.add lh 1 else Word64.add rh 1
  .tNode key value
    (Word64.add (Word64.mul (Word64.add (Word64.add (treeSize l) (treeSize r)) 1) 64) h) l r

def treeBalanceFactor : Tree κ ν → Int
  | .tEmpty => 0
  | .tNode _ _ _ l r => Word64.sub (treeHeight l) (treeHeight r)

def treeRotateRight : Tree κ ν → Tree κ ν
  | .tNode yk yv _ (.tNode xk xv _ t1 t2) t3 => treeNode xk xv t1 (treeNode yk yv t2 t3)
  | t => t

def treeRotateLeft : Tree κ ν → Tree κ ν
  | .tNode xk xv _ t1 (.tNode yk yv _ t2 t3) => treeNode yk yv (treeNode xk xv t1 t2) t3
  | t => t

def treeBalance : Tree κ ν → Tree κ ν
  | .tEmpty => .tEmpty
  | .tNode nk nv _ l r =>
      let bf := Word64.sub (treeHeight l) (treeHeight r)
      if bf > 1 then
        if treeBalanceFactor l < 0 then treeRotateRight (treeNode nk nv (treeRotateLeft l) r)
        else treeRotateRight (treeNode nk nv l r)
      else if Word64.sub 0 bf > 1 then
        if treeBalanceFactor r > 0 then treeRotateLeft (treeNode nk nv l (treeRotateRight r))
        else treeRotateLeft (treeNode nk nv l r)
      else treeNode nk nv l r

section Keys

variable [LinearOrder κ]

def treeGet : Tree κ ν → κ → Option ν
  | .tEmpty, _ => none
  | .tNode nk nv _ l r, key =>
      if key = nk then some nv
      else if key < nk then treeGet l key
      else treeGet r key

def treeInsert : Tree κ ν → κ → ν → Tree κ ν
  | .tEmpty, key, value => .tNode key value 65 .tEmpty .tEmpty
  | .tNode nk nv _ l r, key, value =>
      if key = nk then treeNode nk value l r
      else if key < nk then treeBalance (treeNode nk nv (treeInsert l key value) r)
      else treeBalance (treeNode nk nv l (treeInsert r key value))

def treeMinPair : Tree κ ν → Option (κ × ν)
  | .tEmpty => none
  | .tNode nk nv _ .tEmpty _ => some (nk, nv)
  | .tNode _ _ _ l _ => treeMinPair l

def treeRemoveMin : Tree κ ν → Tree κ ν
  | .tEmpty => .tEmpty
  | .tNode _ _ _ .tEmpty r => r
  | .tNode nk nv _ l r => treeBalance (treeNode nk nv (treeRemoveMin l) r)

/-- A node that holds the key, with its two subtrees: an inner one takes the least
pair of its right subtree. -/
def treeRemoveHere (l r : Tree κ ν) : Tree κ ν :=
  match l with
  | .tEmpty => r
  | _ =>
      match r with
      | .tEmpty => l
      | _ =>
          match treeMinPair r with
          | some mp => treeBalance (treeNode mp.1 mp.2 l (treeRemoveMin r))
          | none => l

def treeRemove : Tree κ ν → κ → Tree κ ν
  | .tEmpty, _ => .tEmpty
  | .tNode nk nv _ l r, key =>
      if key < nk then treeBalance (treeNode nk nv (treeRemove l key) r)
      else if key > nk then treeBalance (treeNode nk nv l (treeRemove r key))
      else treeRemoveHere l r

end Keys

/-- In-order pairs, in front of `acc`. -/
def treeToPairsAcc : Tree κ ν → List (κ × ν) → List (κ × ν)
  | .tEmpty, acc => acc
  | .tNode nk nv _ l r, acc => treeToPairsAcc l ((nk, nv) :: treeToPairsAcc r acc)

def treeFold : Tree κ ν → α → (α → κ × ν → α) → α
  | .tEmpty, acc, _ => acc
  | .tNode nk nv _ l r, acc, f =>
      let leftDone := treeFold l acc f
      let withSelf := f leftDone (nk, nv)
      treeFold r withSelf f

def empty : Map κ ν := ⟨.tEmpty⟩

def size (m : Map κ ν) : Int := treeSize m.root

def toPairs (m : Map κ ν) : List (κ × ν) := treeToPairsAcc m.root []

def foldl (m : Map κ ν) (init : α) (f : α → κ × ν → α) : α := treeFold m.root init f

section Keys

variable [LinearOrder κ]

def get (m : Map κ ν) (key : κ) : Option ν := treeGet m.root key

def contains (m : Map κ ν) (key : κ) : Bool :=
  match get m key with
  | some _ => true
  | none => false

def put (m : Map κ ν) (key : κ) (value : ν) : Map κ ν := ⟨treeInsert m.root key value⟩

def remove (m : Map κ ν) (key : κ) : Map κ ν := ⟨treeRemove m.root key⟩

/-- Keys present in `m1` win. -/
def merge (m1 m2 : Map κ ν) : Map κ ν :=
  foldl m2 m1 fun acc p => if contains acc p.1 then acc else put acc p.1 p.2

end Keys

/-- The pairs of a tree in order. -/
def pairs : Tree κ ν → List (κ × ν)
  | .tEmpty => []
  | .tNode nk nv _ l r => pairs l ++ (nk, nv) :: pairs r

theorem treeToPairsAcc_eq (t : Tree κ ν) (acc : List (κ × ν)) :
    treeToPairsAcc t acc = pairs t ++ acc := by
  induction t generalizing acc with
  | tEmpty => rfl
  | tNode nk nv _ l r ihl ihr =>
      rw [treeToPairsAcc, ihr, ihl, pairs, List.append_assoc, List.cons_append]

theorem treeFold_eq (t : Tree κ ν) (acc : α) (f : α → κ × ν → α) :
    treeFold t acc f = (pairs t).foldl f acc := by
  induction t generalizing acc with
  | tEmpty => rfl
  | tNode nk nv _ l r ihl ihr =>
      simp only [treeFold, pairs, List.foldl_append, List.foldl_cons, ihl, ihr]

@[simp] theorem pairs_treeNode (key : κ) (value : ν) (l r : Tree κ ν) :
    pairs (treeNode key value l r) = pairs l ++ (key, value) :: pairs r :=
  rfl

@[simp] theorem pairs_treeRotateRight (t : Tree κ ν) : pairs (treeRotateRight t) = pairs t := by
  rcases t with _ | ⟨yk, yv, _, _ | ⟨xk, xv, _, t1, t2⟩, t3⟩
  · rfl
  · rfl
  · simp [treeRotateRight, pairs]

@[simp] theorem pairs_treeRotateLeft (t : Tree κ ν) : pairs (treeRotateLeft t) = pairs t := by
  rcases t with _ | ⟨xk, xv, _, t1, _ | ⟨yk, yv, _, t2, t3⟩⟩
  · rfl
  · rfl
  · simp [treeRotateLeft, pairs]

@[simp] theorem pairs_treeBalance (t : Tree κ ν) : pairs (treeBalance t) = pairs t := by
  rcases t with _ | ⟨nk, nv, _, l, r⟩
  · rfl
  · rw [treeBalance]
    split_ifs <;> simp [pairs]

theorem pairs_min (t : Tree κ ν) : (treeMinPair t = none ∧ t = .tEmpty) ∨
    ∃ mp, treeMinPair t = some mp ∧ pairs t = mp :: pairs (treeRemoveMin t) := by
  induction t with
  | tEmpty => exact .inl ⟨rfl, rfl⟩
  | tNode nk nv _ l r ihl _ =>
      right
      rcases l with _ | ⟨lk, lv, lp, ll, lr⟩
      · exact ⟨(nk, nv), rfl, rfl⟩
      · rcases ihl with ⟨-, h⟩ | ⟨mp, hmin, hpairs⟩
        · cases h
        · refine ⟨mp, hmin, ?_⟩
          rw [treeRemoveMin, pairs_treeBalance, pairs_treeNode, pairs, hpairs, List.cons_append]
          rintro ⟨⟩

theorem pairs_treeRemoveHere (l r : Tree κ ν) : pairs (treeRemoveHere l r) = pairs l ++ pairs r := by
  rcases l with _ | ⟨lk, lv, lp, ll, lr⟩
  · rfl
  · rcases r with _ | ⟨rk, rv, rp, rl, rr⟩
    · simp [treeRemoveHere, pairs]
    · rcases pairs_min (.tNode rk rv rp rl rr) with ⟨-, h⟩ | ⟨mp, hmin, hpairs⟩
      · cases h
      · simp only [treeRemoveHere, hmin, pairs_treeBalance, pairs_treeNode, hpairs]

theorem toPairs_eq (m : Map κ ν) : toPairs m = pairs m.root := by
  rw [toPairs, treeToPairsAcc_eq, List.append_nil]

section Order

variable [LinearOrder κ]

def Ascending (ps : List (κ × ν)) : Prop := ps.Pairwise fun p q => p.1 < q.1

theorem ascending_node {nk : κ} {nv : ν} {xs ys : List (κ × ν)} :
    Ascending (xs ++ (nk, nv) :: ys) ↔ (Ascending xs ∧ ∀ p ∈ xs, p.1 < nk) ∧
      Ascending ys ∧ ∀ q ∈ ys, nk < q.1 := by
  rw [Ascending, List.pairwise_append, List.pairwise_cons]
  constructor
  · rintro ⟨hx, ⟨hy, hys⟩, hxy⟩
    exact ⟨⟨hx, fun p hp => hxy p hp (nk, nv) List.mem_cons_self⟩, hys, hy⟩
  · rintro ⟨⟨hx, hlt⟩, hys, hgt⟩
    refine ⟨hx, ⟨hgt, hys⟩, fun p hp q hq => ?_⟩
    rcases List.mem_cons.1 hq with rfl | hq
    · exact hlt p hp
    · exact (hlt p hp).trans (hgt q hq)

/-- An ascending list of pairs as a function. -/
structure Represents (ps : List (κ × ν)) (ref : κ → Option ν) : Prop where
  ascending : Ascending ps
  mem_iff : ∀ k v, (k, v) ∈ ps ↔ ref k = some v

theorem treeGet_eq {t : Tree κ ν} (h : Ascending (pairs t)) (k : κ) (v : ν) :
    treeGet t k = some v ↔ (k, v) ∈ pairs t := by
  induction t with
  | tEmpty => simp [treeGet, pairs]
  | tNode nk nv _ l r ihl ihr =>
      obtain ⟨⟨hl, hlt⟩, hr, hgt⟩ := ascending_node.1 h
      rw [treeGet, pairs, List.mem_append, List.mem_cons, Prod.mk.injEq]
      rcases lt_trichotomy k nk with hk | rfl | hk
      · have hright : (k, v) ∉ pairs r := fun hm => (hgt _ hm).not_gt hk
        rw [if_neg hk.ne, if_pos hk, ihl hl]
        simp [hk.ne, hright]
      · have hleft : (k, v) ∉ pairs l := fun hm => (hlt _ hm).false
        have hright : (k, v) ∉ pairs r := fun hm => (hgt _ hm).false
        rw [if_pos rfl]
        simp [hleft, hright, eq_comm]
      · have hleft : (k, v) ∉ pairs l := fun hm => (hlt _ hm).not_gt hk
        rw [if_neg hk.ne', if_neg hk.not_gt, ihr hr]
        simp [hk.ne', hleft]

theorem treeInsert_spec {t : Tree κ ν} (h : Ascending (pairs t)) (key : κ) (value : ν) :
    Ascending (pairs (treeInsert t key value)) ∧ ∀ k v, (k, v) ∈ pairs (treeInsert t key value) ↔
      (k = key ∧ v = value) ∨ (k ≠ key ∧ (k, v) ∈ pairs t) := by
  induction t with
  | tEmpty => simp [treeInsert, pairs, Ascending]
  | tNode nk nv _ l r ihl ihr =>
      obtain ⟨⟨hl, hlt⟩, hr, hgt⟩ := ascending_node.1 h
      rw [treeInsert]
      rcases lt_trichotomy key nk with hk | rfl | hk
      · obtain ⟨hasc, hmem⟩ := ihl hl
        rw [if_neg hk.ne, if_pos hk, pairs_treeBalance, pairs_treeNode]
        refine ⟨ascending_node.2 ⟨⟨hasc, fun p hp => ?_⟩, hr, hgt⟩, fun k v => ?_⟩
        · rcases (hmem p.1 p.2).1 hp with ⟨heq, -⟩ | ⟨-, hp⟩
          · exact heq ▸ hk
          · exact hlt p hp
        · have hnode : k = nk → k ≠ key := fun heq => heq ▸ hk.ne'
          have hright : (k, v) ∈ pairs r → k ≠ key := fun hm => (hk.trans (hgt _ hm)).ne'
          simp only [pairs, List.mem_append, List.mem_cons, Prod.mk.injEq, hmem]
          grind
      · rw [if_pos rfl, pairs_treeNode]
        refine ⟨ascending_node.2 ⟨⟨hl, hlt⟩, hr, hgt⟩, fun k v => ?_⟩
        have hleft : (k, v) ∈ pairs l → k ≠ key := fun hm => (hlt _ hm).ne
        have hright : (k, v) ∈ pairs r → k ≠ key := fun hm => (hgt _ hm).ne'
        simp only [pairs, List.mem_append, List.mem_cons, Prod.mk.injEq]
        grind
      · obtain ⟨hasc, hmem⟩ := ihr hr
        rw [if_neg hk.ne', if_neg hk.not_gt, pairs_treeBalance, pairs_treeNode]
        refine ⟨ascending_node.2 ⟨⟨hl, hlt⟩, hasc, fun p hp => ?_⟩, fun k v => ?_⟩
        · rcases (hmem p.1 p.2).1 hp with ⟨heq, -⟩ | ⟨-, hp⟩
          · exact heq ▸ hk
          · exact hgt p hp
        · have hnode : k = nk → k ≠ key := fun heq => heq ▸ hk.ne
          have hleft : (k, v) ∈ pairs l → k ≠ key := fun hm => ((hlt _ hm).trans hk).ne
          simp only [pairs, List.mem_append, List.mem_cons, Prod.mk.injEq, hmem]
          grind

theorem treeRemove_spec {t : Tree κ ν} (h : Ascending (pairs t)) (key : κ) :
    Ascending (pairs (treeRemove t key)) ∧ ∀ k v, (k, v) ∈ pairs (treeRemove t key) ↔
      k ≠ key ∧ (k, v) ∈ pairs t := by
  induction t with
  | tEmpty => simp [treeRemove, pairs, Ascending]
  | tNode nk nv _ l r ihl ihr =>
      obtain ⟨⟨hl, hlt⟩, hr, hgt⟩ := ascending_node.1 h
      rw [treeRemove]
      rcases lt_trichotomy key nk with hk | rfl | hk
      · obtain ⟨hasc, hmem⟩ := ihl hl
        rw [if_pos hk, pairs_treeBalance, pairs_treeNode]
        refine ⟨ascending_node.2 ⟨⟨hasc, fun p hp => hlt p ((hmem p.1 p.2).1 hp).2⟩, hr, hgt⟩,
          fun k v => ?_⟩
        have hnode : k = nk → k ≠ key := fun heq => heq ▸ hk.ne'
        have hright : (k, v) ∈ pairs r → k ≠ key := fun hm => (hk.trans (hgt _ hm)).ne'
        simp only [pairs, List.mem_append, List.mem_cons, Prod.mk.injEq, hmem]
        grind
      · rw [if_neg (lt_irrefl _), if_neg (lt_irrefl _), pairs_treeRemoveHere]
        refine ⟨List.pairwise_append.2 ⟨hl, hr, fun p hp q hq => (hlt p hp).trans (hgt q hq)⟩,
          fun k v => ?_⟩
        have hleft : (k, v) ∈ pairs l → k ≠ key := fun hm => (hlt _ hm).ne
        have hright : (k, v) ∈ pairs r → k ≠ key := fun hm => (hgt _ hm).ne'
        simp only [pairs, List.mem_append, List.mem_cons, Prod.mk.injEq]
        grind
      · obtain ⟨hasc, hmem⟩ := ihr hr
        rw [if_neg hk.not_gt, if_pos hk, pairs_treeBalance, pairs_treeNode]
        refine ⟨ascending_node.2 ⟨⟨hl, hlt⟩, hasc, fun p hp => hgt p ((hmem p.1 p.2).1 hp).2⟩,
          fun k v => ?_⟩
        have hnode : k = nk → k ≠ key := fun heq => heq ▸ hk.ne
        have hleft : (k, v) ∈ pairs l → k ≠ key := fun hm => ((hlt _ hm).trans hk).ne
        simp only [pairs, List.mem_append, List.mem_cons, Prod.mk.injEq, hmem]
        grind

theorem represents_empty : Represents ([] : List (κ × ν)) fun _ => none :=
  ⟨List.Pairwise.nil, by simp⟩

theorem Represents.insert {t : Tree κ ν} {ref : κ → Option ν} (h : Represents (pairs t) ref)
    (key : κ) (value : ν) :
    Represents (pairs (treeInsert t key value)) (Function.update ref key (some value)) := by
  obtain ⟨hasc, hmem⟩ := treeInsert_spec h.ascending key value
  refine ⟨hasc, fun k v => ?_⟩
  rw [hmem, Function.update_apply, h.mem_iff]
  by_cases hk : k = key
  · simp [hk, eq_comm]
  · simp [hk]

theorem Represents.remove {t : Tree κ ν} {ref : κ → Option ν} (h : Represents (pairs t) ref)
    (key : κ) : Represents (pairs (treeRemove t key)) (Function.update ref key none) := by
  obtain ⟨hasc, hmem⟩ := treeRemove_spec h.ascending key
  refine ⟨hasc, fun k v => ?_⟩
  rw [hmem, Function.update_apply, h.mem_iff]
  by_cases hk : k = key
  · simp [hk]
  · simp [hk]

theorem Represents.get {m : Map κ ν} {ref : κ → Option ν} (h : Represents (pairs m.root) ref)
    (k : κ) : get m k = ref k := by
  apply Option.ext
  intro v
  exact (treeGet_eq h.ascending k v).trans (h.mem_iff k v)

theorem Represents.contains {m : Map κ ν} {ref : κ → Option ν} (h : Represents (pairs m.root) ref)
    (k : κ) : contains m k = (ref k).isSome := by
  rw [AvlMap.contains, h.get]
  cases ref k <;> rfl

theorem Represents.foldl_put {ps : List (κ × ν)} (hps : Ascending ps) :
    ∀ {acc : Map κ ν} {ref : κ → Option ν}, Represents (pairs acc.root) ref →
      ∃ ref', Represents (pairs (ps.foldl (fun acc p =>
          if AvlMap.contains acc p.1 then acc else put acc p.1 p.2) acc).root) ref' ∧
        ∀ k v, ref' k = some v ↔ ref k = some v ∨ (ref k = none ∧ (k, v) ∈ ps) := by
  induction ps with
  | nil => exact fun {_ ref} h => ⟨ref, h, by simp⟩
  | cons p ps ih =>
      intro acc ref h
      obtain ⟨hp, hps⟩ := List.pairwise_cons.1 hps
      have hnot : ∀ v, (p.1, v) ∉ ps := fun v hm => (hp _ hm).false
      rw [List.foldl_cons, h.contains]
      cases hr : ref p.1 with
      | some w =>
          obtain ⟨ref', hrep, href⟩ := ih hps h
          refine ⟨ref', hrep, fun k v => ?_⟩
          rw [href, List.mem_cons]
          have hk : (k, v) = p → ref k ≠ none := by
            rintro rfl
            rw [hr]
            exact Option.some_ne_none w
          grind
      | none =>
          obtain ⟨ref', hrep, href⟩ := ih hps (h.insert p.1 p.2)
          refine ⟨ref', hrep, fun k v => ?_⟩
          rw [href, List.mem_cons, Function.update_apply]
          by_cases hk : k = p.1
          · subst hk
            simp [hr, Prod.ext_iff, hnot, eq_comm]
          · simp [hk, Prod.ext_iff]

theorem Represents.merge {m1 m2 : Map κ ν} {ref1 ref2 : κ → Option ν}
    (h1 : Represents (pairs m1.root) ref1) (h2 : Represents (pairs m2.root) ref2) :
    Represents (pairs (merge m1 m2).root) fun k => (ref1 k).orElse fun _ => ref2 k := by
  obtain ⟨ref', hrep, href⟩ := Represents.foldl_put h2.ascending h1
  rw [AvlMap.merge, AvlMap.foldl, treeFold_eq]
  refine ⟨hrep.ascending, fun k v => ?_⟩
  rw [hrep.mem_iff, href, h2.mem_iff]
  cases ref1 k <;> simp

/-- The operations of a map read the finite map `ref`. -/
structure Agrees (m : Map κ ν) (ref : κ → Option ν) : Prop where
  ascending : Ascending (toPairs m)
  toPairs : ∀ k v, (k, v) ∈ toPairs m ↔ ref k = some v
  get : ∀ k, get m k = ref k
  contains : ∀ k, contains m k = (ref k).isSome
  foldl : ∀ (α : Type) (init : α) (f : α → κ × ν → α),
    foldl m init f = (AvlMap.toPairs m).foldl f init

theorem Represents.agrees {m : Map κ ν} {ref : κ → Option ν} (h : Represents (pairs m.root) ref) :
    Agrees m ref where
  ascending := by
    rw [toPairs_eq]
    exact h.ascending
  toPairs := by
    rw [toPairs_eq]
    exact h.mem_iff
  get := h.get
  contains := h.contains
  foldl α init f := by
    rw [AvlMap.foldl, treeFold_eq, toPairs_eq]

end Order

end Kaikai.AvlMap
