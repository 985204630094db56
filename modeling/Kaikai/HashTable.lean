import Mathlib.Algebra.Order.Ring.Int
import Kaikai.KeyedPairs

/-!
The hash table of the standard library: chains of pairs in an array whose capacity
doubles at a load of three quarters. An access outside an array traps, as `none`.
-/

namespace Kaikai.HashTable

open KeyedPairs

variable {κ ν α : Type}

class Hash (κ : Type) where
  hash : κ → Int

/-- Equal keys hash alike, whatever the hashes are. -/
class LawfulHash (κ : Type) [BEq κ] [Hash κ] : Prop extends EquivBEq κ where
  hash_eq : ∀ a b : κ, (a == b) = true → Hash.hash a = Hash.hash b

abbrev Buckets (κ ν : Type) := List (List (κ × ν))

structure HashMap (κ ν : Type) where
  buckets : Buckets κ ν
  count : Int
  cap : Int

def arrayGet (arr : List α) (i : Int) : Option α := if i < 0 then none else arr[i.toNat]?

def arraySet (arr : List α) (i : Int) (x : α) : Option (List α) :=
  if 0 ≤ i ∧ i < arr.length then some (arr.set i.toNat x) else none

def initialCap : Int := 16

def bucketIndex (h cap : Int) : Int :=
  let m := h.tmod cap
  if m < 0 then m + cap else m

section Keys

variable [BEq κ]

def chainGet : List (κ × ν) → κ → Option ν
  | [], _ => none
  | p :: r, key => if p.1 == key then some p.2 else chainGet r key

/-- The walked prefix is `seen`, reversed. -/
def chainPutLoop : List (κ × ν) → κ → ν → List (κ × ν) → List (κ × ν) × Bool
  | [], key, value, seen => (((key, value) :: seen).reverse, false)
  | p :: r, key, value, seen =>
      if p.1 == key then (seen.reverse ++ (key, value) :: r, true)
      else chainPutLoop r key value (p :: seen)

def chainPut (ps : List (κ × ν)) (key : κ) (value : ν) : List (κ × ν) × Bool :=
  chainPutLoop ps key value []

def chainRemoveLoop : List (κ × ν) → κ → List (κ × ν) → List (κ × ν) × Bool
  | [], _, seen => (seen.reverse, false)
  | p :: r, key, seen =>
      if p.1 == key then (seen.reverse ++ r, true) else chainRemoveLoop r key (p :: seen)

def chainRemove (ps : List (κ × ν)) (key : κ) : List (κ × ν) × Bool := chainRemoveLoop ps key []

end Keys

def rehashChain [Hash κ] : List (κ × ν) → Buckets κ ν → Int → Option (Buckets κ ν)
  | [], dst, _ => some dst
  | p :: r, dst, newCap => do
      let j := bucketIndex (Hash.hash p.1) newCap
      let chain ← arrayGet dst j
      let dst' ← arraySet dst j (p :: chain)
      rehashChain r dst' newCap

def rehashLoop [Hash κ] (src : Buckets κ ν) (i cap : Int) (dst : Buckets κ ν) (newCap : Int) :
    Option (Buckets κ ν) :=
  if i ≥ cap then some dst
  else do
    let chain ← arrayGet src i
    let dst' ← rehashChain chain dst newCap
    rehashLoop src (i + 1) cap dst' newCap
termination_by (cap - i).toNat

/-- Doubles the capacity when the load passes three quarters. -/
def maybeGrow [Hash κ] (m : HashMap κ ν) : Option (HashMap κ ν) :=
  if m.count * 4 > m.cap * 3 then do
    let newCap := m.cap * 2
    let dst ← rehashLoop m.buckets 0 m.cap (List.replicate newCap.toNat []) newCap
    some { m with buckets := dst, cap := newCap }
  else some m

def collectBuckets (arr : Buckets κ ν) (i cap : Int) (acc : List (κ × ν)) :
    Option (List (κ × ν)) :=
  if i ≥ cap then some acc
  else do
    let chain ← arrayGet arr i
    collectBuckets arr (i + 1) cap (chain ++ acc)
termination_by (cap - i).toNat

def empty : HashMap κ ν := ⟨List.replicate initialCap.toNat [], 0, initialCap⟩

def size (m : HashMap κ ν) : Int := m.count

def toPairs (m : HashMap κ ν) : Option (List (κ × ν)) := collectBuckets m.buckets 0 m.cap []

section Keys

variable [BEq κ] [Hash κ]

def get (m : HashMap κ ν) (key : κ) : Option (Option ν) := do
  let chain ← arrayGet m.buckets (bucketIndex (Hash.hash key) m.cap)
  some (chainGet chain key)

def contains (m : HashMap κ ν) (key : κ) : Option Bool := do
  match ← get m key with
  | some _ => some true
  | none => some false

def put (m : HashMap κ ν) (key : κ) (value : ν) : Option (HashMap κ ν) := do
  let i := bucketIndex (Hash.hash key) m.cap
  let chain ← arrayGet m.buckets i
  let res := chainPut chain key value
  let arr ← arraySet m.buckets i res.1
  if res.2 then some { m with buckets := arr }
  else maybeGrow { m with buckets := arr, count := m.count + 1 }

def remove (m : HashMap κ ν) (key : κ) : Option (HashMap κ ν) := do
  let i := bucketIndex (Hash.hash key) m.cap
  let chain ← arrayGet m.buckets i
  let res := chainRemove chain key
  let arr ← arraySet m.buckets i res.1
  if res.2 then some { m with buckets := arr, count := m.count - 1 }
  else some { m with buckets := arr }

/-- Puts the pairs whose keys `acc` does not have. -/
def mergeLoop : List (κ × ν) → HashMap κ ν → Option (HashMap κ ν)
  | [], acc => some acc
  | p :: rest, acc => do
      let present ← contains acc p.1
      let acc' ← if present then some acc else put acc p.1 p.2
      mergeLoop rest acc'

def merge (a b : HashMap κ ν) : Option (HashMap κ ν) := do
  let ps ← toPairs b
  mergeLoop ps a

end Keys

/-- Every pair of the array lies in the bucket of its hash. -/
structure Placed [Hash κ] (buckets : Buckets κ ν) (cap : Int) : Prop where
  pos : 0 < cap
  length : (buckets.length : Int) = cap
  index : ∀ (i : Nat) chain, buckets[i]? = some chain →
    ∀ p ∈ chain, bucketIndex (Hash.hash p.1) cap = i

theorem bucketIndex_bounds (h : Int) {cap : Int} (hcap : 0 < cap) :
    0 ≤ bucketIndex h cap ∧ bucketIndex h cap < cap := by
  have hlow := Int.lt_tmod_of_pos h hcap
  have hhigh := Int.tmod_lt_of_pos h hcap
  simp only [bucketIndex]
  split_ifs <;> omega

theorem Placed.split [Hash κ] {buckets : Buckets κ ν} {cap : Int} (h : Placed buckets cap)
    (hash : Int) : ∃ front chain back, buckets = front ++ chain :: back ∧
      bucketIndex hash cap = front.length ∧
      arrayGet buckets (bucketIndex hash cap) = some chain ∧
      ∀ x, arraySet buckets (bucketIndex hash cap) x = some (front ++ x :: back) := by
  obtain ⟨hlow, hhigh⟩ := bucketIndex_bounds hash h.pos
  obtain ⟨n, hn⟩ := Int.eq_ofNat_of_zero_le hlow
  have hlt : n < buckets.length := by
    have hlen := h.length
    omega
  obtain ⟨front, back, heq, hfront, -⟩ := @List.exists_of_set _ n [] buckets hlt
  refine ⟨front, buckets[n], back, heq, by rw [hn, hfront], ?_, fun x => ?_⟩
  · rw [arrayGet, hn, if_neg (by omega), Int.toNat_natCast, List.getElem?_eq_getElem hlt]
  · rw [arraySet, hn, if_pos (by omega), Int.toNat_natCast]
    obtain ⟨front', back', heq', hfront', hset⟩ := @List.exists_of_set _ n x buckets hlt
    have hsame := List.append_inj (heq.symm.trans heq') (hfront.trans hfront'.symm)
    rw [hset, hsame.1, (List.cons.inj hsame.2).2]

theorem getElem?_split (front back : List α) (x : α) :
    (front ++ x :: back)[front.length]? = some x := by
  rw [List.getElem?_append_right (Nat.le_refl _), Nat.sub_self, List.getElem?_cons_zero]

theorem Placed.replace [Hash κ] {front back : Buckets κ ν} {chain chain' : List (κ × ν)} {cap : Int}
    (h : Placed (front ++ chain :: back) cap)
    (hchain : ∀ p ∈ chain', bucketIndex (Hash.hash p.1) cap = front.length) :
    Placed (front ++ chain' :: back) cap := by
  refine ⟨h.pos, ?_, fun i c hc p hp => ?_⟩
  · rw [← h.length, List.length_append, List.length_append]
    rfl
  · have hold := h.index i
    rcases Nat.lt_trichotomy i front.length with hi | rfl | hi
    · rw [List.getElem?_append_left hi] at hc hold
      exact hold c hc p hp
    · rw [getElem?_split, Option.some_inj] at hc
      exact hchain p (hc ▸ hp)
    · obtain ⟨j, hj⟩ := Nat.exists_eq_add_of_lt hi
      have hsub : i - front.length = j + 1 := by omega
      rw [List.getElem?_append_right (Nat.le_of_lt hi), hsub, List.getElem?_cons_succ] at hc hold
      exact hold c hc p hp

theorem Placed.mem_chain [Hash κ] {front back : Buckets κ ν} {chain : List (κ × ν)} {cap : Int}
    (h : Placed (front ++ chain :: back) cap) {p : κ × ν}
    (hp : p ∈ (front ++ chain :: back).flatten)
    (hindex : bucketIndex (Hash.hash p.1) cap = front.length) : p ∈ chain := by
  obtain ⟨c, hc, hpc⟩ := List.mem_flatten.1 hp
  obtain ⟨i, hi⟩ := List.mem_iff_getElem?.1 hc
  have hlen := h.index i c hi p hpc
  rw [hindex, Int.ofNat_inj] at hlen
  rw [← hlen, getElem?_split, Option.some_inj] at hi
  exact hi ▸ hpc

theorem Placed.chain_index [Hash κ] {front back : Buckets κ ν} {chain : List (κ × ν)} {cap : Int}
    (h : Placed (front ++ chain :: back) cap) :
    ∀ p ∈ chain, bucketIndex (Hash.hash p.1) cap = front.length :=
  h.index front.length chain (getElem?_split front back chain)

theorem flatten_split (front back : Buckets κ ν) (chain : List (κ × ν)) :
    (front ++ chain :: back).flatten = front.flatten ++ (chain ++ back.flatten) := by
  rw [List.flatten_append, List.flatten_cons]

theorem flatten_cons_perm (front back : Buckets κ ν) (chain : List (κ × ν)) (p : κ × ν) :
    ((front ++ (p :: chain) :: back).flatten).Perm (p :: (front ++ chain :: back).flatten) := by
  rw [flatten_split, flatten_split, List.cons_append]
  exact List.perm_middle

theorem rehashChain_spec [Hash κ] {cap : Int} (ps : List (κ × ν)) :
    ∀ {dst : Buckets κ ν}, Placed dst cap →
      ∃ dst', rehashChain ps dst cap = some dst' ∧ Placed dst' cap ∧
        dst'.flatten.Perm (ps ++ dst.flatten) := by
  induction ps with
  | nil => exact fun {dst} h => ⟨dst, rfl, h, .refl _⟩
  | cons p r ih =>
      intro dst h
      obtain ⟨front, chain, back, rfl, hindex, hget, hset⟩ := h.split (Hash.hash p.1)
      have hchain : ∀ q ∈ p :: chain, bucketIndex (Hash.hash q.1) cap = front.length := by
        intro q hq
        rcases List.mem_cons.1 hq with rfl | hq
        · exact hindex
        · exact h.chain_index q hq
      obtain ⟨dst', hloop, hplaced, hperm⟩ := ih (h.replace hchain)
      refine ⟨dst', ?_, hplaced, hperm.trans ?_⟩
      · simp only [rehashChain, hget, hset, Option.bind_eq_bind, Option.bind_some, hloop]
      · exact ((flatten_cons_perm front back chain p).append_left r).trans List.perm_middle

theorem arrayGet_natCast {arr : List α} {n : Nat} (h : n < arr.length) :
    arrayGet arr n = some arr[n] := by
  rw [arrayGet, if_neg (by omega), Int.toNat_natCast, List.getElem?_eq_getElem h]

theorem rehashLoop_spec [Hash κ] {src : Buckets κ ν} {newCap : Int} (n : Nat) :
    ∀ {dst : Buckets κ ν}, n ≤ src.length → Placed dst newCap →
      ∃ dst', rehashLoop src (src.length - n : Nat) src.length dst newCap = some dst' ∧
        Placed dst' newCap ∧ dst'.flatten.Perm ((src.drop (src.length - n)).flatten ++ dst.flatten) := by
  induction n with
  | zero =>
      intro dst _ h
      refine ⟨dst, ?_, h, ?_⟩
      · rw [rehashLoop, if_pos (by omega)]
      · rw [Nat.sub_zero, List.drop_length]
        exact .refl _
  | succ n ih =>
      intro dst hn h
      have hlt : src.length - (n + 1) < src.length := by omega
      have hnext : ((src.length - (n + 1) : Nat) : Int) + 1 = (src.length - n : Nat) := by omega
      have hdrop : src.length - (n + 1) + 1 = src.length - n := by omega
      obtain ⟨dst1, hchain, hplaced, hperm⟩ := rehashChain_spec src[src.length - (n + 1)] h
      obtain ⟨dst', hloop, hplaced', hperm'⟩ := ih (Nat.le_of_succ_le hn) hplaced
      refine ⟨dst', ?_, hplaced', hperm'.trans ?_⟩
      · rw [rehashLoop, if_neg (by omega), arrayGet_natCast hlt]
        simp only [Option.bind_eq_bind, Option.bind_some, hchain, hnext, hloop]
      · rw [List.drop_eq_getElem_cons hlt, hdrop, List.flatten_cons, List.append_assoc]
        exact (hperm.append_left _).trans (List.perm_append_comm_assoc _ _ _)

theorem collectBuckets_spec (arr : Buckets κ ν) (n : Nat) : ∀ (acc : List (κ × ν)),
    n ≤ arr.length → ∃ ps, collectBuckets arr (arr.length - n : Nat) arr.length acc = some ps ∧
      ps.Perm ((arr.drop (arr.length - n)).flatten ++ acc) := by
  induction n with
  | zero =>
      intro acc _
      refine ⟨acc, ?_, ?_⟩
      · rw [collectBuckets, if_pos (by omega)]
      · rw [Nat.sub_zero, List.drop_length]
        exact .refl _
  | succ n ih =>
      intro acc hn
      have hlt : arr.length - (n + 1) < arr.length := by omega
      have hnext : ((arr.length - (n + 1) : Nat) : Int) + 1 = (arr.length - n : Nat) := by omega
      have hdrop : arr.length - (n + 1) + 1 = arr.length - n := by omega
      obtain ⟨ps, hloop, hperm⟩ := ih (arr[arr.length - (n + 1)] ++ acc) (Nat.le_of_succ_le hn)
      refine ⟨ps, ?_, hperm.trans ?_⟩
      · rw [collectBuckets, if_neg (by omega), arrayGet_natCast hlt]
        simp only [Option.bind_eq_bind, Option.bind_some, hnext, hloop]
      · rw [List.drop_eq_getElem_cons hlt, hdrop, List.flatten_cons, List.append_assoc]
        exact List.perm_append_comm_assoc _ _ _

theorem placed_replicate [Hash κ] {n : Nat} (hn : 0 < n) :
    Placed (List.replicate n [] : Buckets κ ν) n := by
  refine ⟨Int.ofNat_lt.2 hn, by rw [List.length_replicate], fun i chain hi p hp => ?_⟩
  obtain ⟨hlt, rfl⟩ := List.getElem?_eq_some_iff.1 hi
  rw [List.getElem_replicate] at hp
  cases hp

section Keys

variable [BEq κ]

theorem chain_cases (ps : List (κ × ν)) (key : κ) :
    (∃ s p r, ps = s ++ p :: r ∧ (∀ q ∈ s, (q.1 == key) = false) ∧ (p.1 == key) = true) ∨
    ∀ q ∈ ps, (q.1 == key) = false := by
  induction ps with
  | nil => exact .inr (by simp)
  | cons p ps ih =>
      cases hp : p.1 == key with
      | true => exact .inl ⟨[], p, ps, rfl, by simp, hp⟩
      | false =>
          rcases ih with ⟨s, q, r, rfl, hs, hq⟩ | h
          · exact .inl ⟨p :: s, q, r, rfl, List.forall_mem_cons.2 ⟨hp, hs⟩, hq⟩
          · exact .inr (List.forall_mem_cons.2 ⟨hp, h⟩)

theorem chainPutLoop_skip {s : List (κ × ν)} {key : κ} (hs : ∀ q ∈ s, (q.1 == key) = false)
    (ps : List (κ × ν)) (value : ν) (seen : List (κ × ν)) :
    chainPutLoop (s ++ ps) key value seen = chainPutLoop ps key value (s.reverse ++ seen) := by
  induction s generalizing seen with
  | nil => rfl
  | cons q s ih =>
      obtain ⟨hq, hs⟩ := List.forall_mem_cons.1 hs
      rw [List.cons_append, chainPutLoop, if_neg (by simp [hq]), ih hs, List.reverse_cons,
        List.append_assoc]
      rfl

theorem chainRemoveLoop_skip {s : List (κ × ν)} {key : κ} (hs : ∀ q ∈ s, (q.1 == key) = false)
    (ps : List (κ × ν)) (seen : List (κ × ν)) :
    chainRemoveLoop (s ++ ps) key seen = chainRemoveLoop ps key (s.reverse ++ seen) := by
  induction s generalizing seen with
  | nil => rfl
  | cons q s ih =>
      obtain ⟨hq, hs⟩ := List.forall_mem_cons.1 hs
      rw [List.cons_append, chainRemoveLoop, if_neg (by simp [hq]), ih hs, List.reverse_cons,
        List.append_assoc]
      rfl

theorem chainGet_skip {s : List (κ × ν)} {key : κ} (hs : ∀ q ∈ s, (q.1 == key) = false)
    (ps : List (κ × ν)) : chainGet (s ++ ps) key = chainGet ps key := by
  induction s with
  | nil => rfl
  | cons q s ih =>
      obtain ⟨hq, hs⟩ := List.forall_mem_cons.1 hs
      rw [List.cons_append, chainGet, if_neg (by simp [hq]), ih hs]

theorem chainPut_present {s r : List (κ × ν)} {p : κ × ν} {key : κ}
    (hs : ∀ q ∈ s, (q.1 == key) = false) (hp : (p.1 == key) = true) (value : ν) :
    chainPut (s ++ p :: r) key value = (s ++ (key, value) :: r, true) := by
  rw [chainPut, chainPutLoop_skip hs, chainPutLoop, if_pos hp, List.append_nil, List.reverse_reverse]

theorem chainPut_absent {ps : List (κ × ν)} {key : κ} (hps : ∀ q ∈ ps, (q.1 == key) = false)
    (value : ν) : chainPut ps key value = (ps ++ [(key, value)], false) := by
  have hskip := chainPutLoop_skip hps [] value []
  rw [List.append_nil, List.append_nil] at hskip
  rw [chainPut, hskip, chainPutLoop, List.reverse_cons, List.reverse_reverse]

theorem chainRemove_present {s r : List (κ × ν)} {p : κ × ν} {key : κ}
    (hs : ∀ q ∈ s, (q.1 == key) = false) (hp : (p.1 == key) = true) :
    chainRemove (s ++ p :: r) key = (s ++ r, true) := by
  rw [chainRemove, chainRemoveLoop_skip hs, chainRemoveLoop, if_pos hp, List.append_nil,
    List.reverse_reverse]

theorem chainRemove_absent {ps : List (κ × ν)} {key : κ} (hps : ∀ q ∈ ps, (q.1 == key) = false) :
    chainRemove ps key = (ps, false) := by
  have hskip := chainRemoveLoop_skip hps [] []
  rw [List.append_nil, List.append_nil] at hskip
  rw [chainRemove, hskip, chainRemoveLoop, List.reverse_reverse]

theorem chainGet_present {s r : List (κ × ν)} {p : κ × ν} {key : κ}
    (hs : ∀ q ∈ s, (q.1 == key) = false) (hp : (p.1 == key) = true) :
    chainGet (s ++ p :: r) key = some p.2 := by
  rw [chainGet_skip hs, chainGet, if_pos hp]

theorem chainGet_absent {ps : List (κ × ν)} {key : κ} (hps : ∀ q ∈ ps, (q.1 == key) = false) :
    chainGet ps key = none := by
  have hskip := chainGet_skip hps []
  rw [List.append_nil] at hskip
  rw [hskip, chainGet]

/-- The table holds a finite map, every pair in its bucket and counted. -/
structure Refines [Hash κ] (m : HashMap κ ν) (ref : Lookup κ ν) : Prop where
  capacity : ∃ j : Nat, m.cap = 16 * 2 ^ j
  placed : Placed m.buckets m.cap
  holds : Holds m.buckets.flatten ref
  count : m.count = m.buckets.flatten.length

theorem refines_empty [Hash κ] : Refines (empty : HashMap κ ν) fun _ => none := by
  refine ⟨⟨0, rfl⟩, placed_replicate (by decide), ?_, ?_⟩
  · rw [empty, List.flatten_replicate_nil]
    exact holds_nil
  · rw [empty, List.flatten_replicate_nil]
    rfl

section Equivalence

variable [Hash κ] [LawfulHash κ]

theorem maybeGrow_spec {m : HashMap κ ν} {ref : Lookup κ ν} (h : Refines m ref) :
    ∃ m', maybeGrow m = some m' ∧ Refines m' ref := by
  obtain ⟨buckets, count, cap⟩ := m
  obtain ⟨⟨j, hj⟩, hplaced, hholds, hcount⟩ := h
  have hcap : (buckets.length : Int) = cap := hplaced.length
  have hpos : 0 < cap := hplaced.pos
  rw [maybeGrow]
  split_ifs
  · have hnew : Placed (List.replicate (cap * 2).toNat [] : Buckets κ ν) (cap * 2) := by
      have hrep := placed_replicate (κ := κ) (ν := ν) (n := (cap * 2).toNat) (by omega)
      rwa [Int.toNat_of_nonneg (by omega)] at hrep
    obtain ⟨dst, hloop, hdst, hperm⟩ := rehashLoop_spec buckets.length (Nat.le_refl _) hnew
    rw [List.flatten_replicate_nil, List.append_nil, Nat.sub_self, List.drop_zero] at hperm
    rw [Nat.sub_self, hcap] at hloop
    refine ⟨⟨dst, count, cap * 2⟩, ?_, ⟨j + 1, ?_⟩, hdst, hholds.perm hperm.symm, ?_⟩
    · simp only [Option.bind_eq_bind, Option.bind_eq_some_iff]
      exact ⟨dst, hloop, rfl⟩
    · rw [Int.pow_succ, ← Int.mul_assoc, ← hj]
    · rw [hperm.length_eq]
      exact hcount
  · exact ⟨_, rfl, ⟨j, hj⟩, hplaced, hholds, hcount⟩

theorem Refines.chain {m : HashMap κ ν} {ref : Lookup κ ν} (h : Refines m ref) (key : κ) :
    ∃ front chain back, m.buckets = front ++ chain :: back ∧
      bucketIndex (Hash.hash key) m.cap = front.length ∧
      arrayGet m.buckets (bucketIndex (Hash.hash key) m.cap) = some chain ∧
      (∀ x, arraySet m.buckets (bucketIndex (Hash.hash key) m.cap) x = some (front ++ x :: back)) ∧
      ∀ p ∈ m.buckets.flatten, (p.1 == key) = true → p ∈ chain := by
  obtain ⟨front, chain, back, heq, hindex, hget, hset⟩ := h.placed.split (Hash.hash key)
  refine ⟨front, chain, back, heq, hindex, hget, hset, fun p hp hkey => ?_⟩
  have hplaced := h.placed
  rw [heq] at hplaced hp
  apply hplaced.mem_chain hp
  rw [LawfulHash.hash_eq p.1 key hkey, hindex]

theorem get_spec {m : HashMap κ ν} {ref : Lookup κ ν} (h : Refines m ref) (key : κ) :
    get m key = some ((ref key).map Prod.snd) := by
  obtain ⟨front, chain, back, heq, -, hget, -, hmem⟩ := h.chain key
  simp only [get, hget, Option.bind_eq_bind, Option.bind_some, Option.some_inj]
  rcases chain_cases chain key with ⟨s, p, r, rfl, hs, hp⟩ | hnone
  · have hfound : ref key = some p := by
      refine (h.holds.lookup key p).2 ⟨?_, hp⟩
      rw [heq, flatten_split]
      simp
    rw [chainGet_present hs hp, hfound, Option.map_some]
  · have habsent : ref key = none := by
      apply h.holds.eq_none
      intro p hp
      cases hk : p.1 == key with
      | true => exact hk.symm.trans (hnone p (hmem p hp hk))
      | false => rfl
    rw [chainGet_absent hnone, habsent, Option.map_none]

theorem contains_spec {m : HashMap κ ν} {ref : Lookup κ ν} (h : Refines m ref) (key : κ) :
    contains m key = some (ref key).isSome := by
  rw [contains, get_spec h]
  cases ref key <;> rfl

theorem put_spec {m : HashMap κ ν} {ref : Lookup κ ν} (h : Refines m ref) (key : κ) (value : ν) :
    ∃ m', put m key value = some m' ∧ Refines m' (ref.put key value) := by
  obtain ⟨front, chain, back, heq, hindex, hget, hset, hmem⟩ := h.chain key
  obtain ⟨buckets, count, cap⟩ := m
  obtain ⟨hcapacity, hplaced, hholds, hcount⟩ := h
  dsimp only at *
  subst heq
  rcases chain_cases chain key with ⟨s, p, r, rfl, hs, hp⟩ | hnone
  · refine ⟨⟨front ++ (s ++ (key, value) :: r) :: back, count, cap⟩, ?_, hcapacity, ?_, ?_, ?_⟩
    · simp only [put, hget, hset, chainPut_present hs hp, Option.bind_eq_bind, Option.bind_some,
        if_true]
    · apply hplaced.replace
      intro q hq
      rcases List.mem_append.1 hq with hq | hq
      · exact hplaced.chain_index q (by simp [hq])
      · rcases List.mem_cons.1 hq with rfl | hq
        · exact hindex
        · exact hplaced.chain_index q (by simp [hq])
    · rw [flatten_split, List.append_assoc, ← List.append_assoc] at hholds ⊢
      exact hholds.replace hp value
    · rw [hcount, flatten_split, flatten_split]
      simp
  · have habsent : ∀ q ∈ (front ++ chain :: back).flatten, (q.1 == key) = false := by
      intro q hq
      cases hk : q.1 == key with
      | true => exact hk.symm.trans (hnone q (hmem q hq hk))
      | false => rfl
    have hperm : ((front ++ (chain ++ [(key, value)]) :: back).flatten).Perm
        ((key, value) :: (front ++ chain :: back).flatten) := by
      refine List.Perm.trans ?_ (flatten_cons_perm front back chain (key, value))
      rw [flatten_split, flatten_split]
      exact (List.perm_append_singleton _ _).append_right _ |>.append_left _
    have hgrow : Refines ⟨front ++ (chain ++ [(key, value)]) :: back, count + 1, cap⟩
        (ref.put key value) := by
      refine ⟨hcapacity, ?_, (hholds.cons habsent value).perm hperm.symm, ?_⟩
      · apply hplaced.replace
        intro q hq
        rcases List.mem_append.1 hq with hq | hq
        · exact hplaced.chain_index q hq
        · rw [List.mem_singleton.1 hq]
          exact hindex
      · rw [hperm.length_eq, hcount]
        rfl
    obtain ⟨m', hm', hrefines⟩ := maybeGrow_spec hgrow
    refine ⟨m', ?_, hrefines⟩
    simp only [put, hget, hset, chainPut_absent hnone, Option.bind_eq_bind, Option.bind_some, hm',
      Bool.false_eq_true, if_false]

theorem remove_spec {m : HashMap κ ν} {ref : Lookup κ ν} (h : Refines m ref) (key : κ) :
    ∃ m', remove m key = some m' ∧ Refines m' (ref.remove key) := by
  obtain ⟨front, chain, back, heq, hindex, hget, hset, hmem⟩ := h.chain key
  obtain ⟨buckets, count, cap⟩ := m
  obtain ⟨hcapacity, hplaced, hholds, hcount⟩ := h
  dsimp only at *
  subst heq
  rcases chain_cases chain key with ⟨s, p, r, rfl, hs, hp⟩ | hnone
  · refine ⟨⟨front ++ (s ++ r) :: back, count - 1, cap⟩, ?_, hcapacity, ?_, ?_, ?_⟩
    · simp only [remove, hget, hset, chainRemove_present hs hp, Option.bind_eq_bind,
        Option.bind_some, if_true]
    · apply hplaced.replace
      intro q hq
      rcases List.mem_append.1 hq with hq | hq
      · exact hplaced.chain_index q (by simp [hq])
      · exact hplaced.chain_index q (by simp [hq])
    · rw [flatten_split, List.append_assoc, ← List.append_assoc] at hholds ⊢
      exact hholds.remove hp
    · rw [hcount, flatten_split, flatten_split]
      simp only [List.length_append, List.length_cons]
      omega
  · have habsent : ref.remove key = ref := by
      funext k
      rw [Lookup.remove]
      split_ifs with hk
      · refine (hholds.eq_none fun q hq => ?_).symm
        cases hqk : q.1 == k with
        | true =>
            have hkey := BEq.trans hqk (BEq.symm hk)
            exact hkey.symm.trans (hnone q (hmem q hq hkey))
        | false => rfl
      · rfl
    refine ⟨⟨front ++ chain :: back, count, cap⟩, ?_, hcapacity, hplaced, ?_, hcount⟩
    · simp only [remove, hget, hset, chainRemove_absent hnone, Option.bind_eq_bind,
        Option.bind_some, Bool.false_eq_true, if_false]
    · rw [habsent]
      exact hholds

theorem toPairs_spec {m : HashMap κ ν} {ref : Lookup κ ν} (h : Refines m ref) :
    ∃ ps, toPairs m = some ps ∧ Holds ps ref ∧ size m = ps.length := by
  obtain ⟨ps, hps, hperm⟩ := collectBuckets_spec m.buckets m.buckets.length []
    (Nat.le_refl _)
  rw [Nat.sub_self, List.drop_zero, List.append_nil] at hperm
  rw [Nat.sub_self, h.placed.length] at hps
  refine ⟨ps, hps, h.holds.perm hperm.symm, ?_⟩
  rw [size, h.count, hperm.length_eq]

end Equivalence

end Keys

end Kaikai.HashTable
