import Kaikai.HashTable

namespace Kaikai.HashTable

open KeyedPairs

variable {κ ν τ : Type}

/-- Tables are named by the order in which they were made. -/
inductive Op (κ ν : Type) where
  | empty
  | put (m : Nat) (key : κ) (value : ν)
  | remove (m : Nat) (key : κ)
  | merge (a b : Nat)
  | get (m : Nat) (key : κ)

/-- The tables of a program and what its lookups returned. -/
structure World (τ ν : Type) where
  tables : List τ
  reads : List (Option ν)

section Keys

variable [BEq κ]

/-- One operation; it changes the table it names in place. -/
def step [Hash κ] (w : World (HashMap κ ν) ν) : Op κ ν → Option (World (HashMap κ ν) ν)
  | .empty => some { w with tables := w.tables ++ [empty] }
  | .put i key value => do
      let m ← w.tables[i]?
      let m' ← put m key value
      some { w with tables := w.tables.set i m' }
  | .remove i key => do
      let m ← w.tables[i]?
      let m' ← remove m key
      some { w with tables := w.tables.set i m' }
  | .merge i j => do
      let a ← w.tables[i]?
      let b ← w.tables[j]?
      let a' ← merge a b
      some { w with tables := w.tables.set i a' }
  | .get i key => do
      let m ← w.tables[i]?
      let v ← get m key
      some { w with reads := w.reads ++ [v] }

/-- The same operation on finite maps. -/
def specStep (w : World (Lookup κ ν) ν) : Op κ ν → Option (World (Lookup κ ν) ν)
  | .empty => some { w with tables := w.tables ++ [fun _ => none] }
  | .put i key value => do
      let ref ← w.tables[i]?
      some { w with tables := w.tables.set i (ref.put key value) }
  | .remove i key => do
      let ref ← w.tables[i]?
      some { w with tables := w.tables.set i (ref.remove key) }
  | .merge i j => do
      let a ← w.tables[i]?
      let b ← w.tables[j]?
      some { w with tables := w.tables.set i (a.union b) }
  | .get i key => do
      let ref ← w.tables[i]?
      some { w with reads := w.reads ++ [(ref key).map Prod.snd] }

def run [Hash κ] (ops : List (Op κ ν)) : Option (World (HashMap κ ν) ν) :=
  ops.foldlM step ⟨[], []⟩

def specRun (ops : List (Op κ ν)) : Option (World (Lookup κ ν) ν) := ops.foldlM specStep ⟨[], []⟩

/-- What a table of a run is, and what its operations read. -/
structure Correct [Hash κ] (m : HashMap κ ν) (ref : Lookup κ ν) : Prop where
  capacity : ∃ j : Nat, m.cap = 16 * 2 ^ j
  length : (m.buckets.length : Int) = m.cap
  placed : ∀ (i : Nat) chain, m.buckets[i]? = some chain →
    ∀ p ∈ chain, bucketIndex (Hash.hash p.1) m.cap = i
  distinct : Distinct m.buckets.flatten
  count : m.count = m.buckets.flatten.length
  get : ∀ k, get m k = some ((ref k).map Prod.snd)
  contains : ∀ k, contains m k = some (ref k).isSome
  toPairs : ∃ ps, toPairs m = some ps ∧ Distinct ps ∧ (∀ p, p ∈ ps ↔ ref p.1 = some p) ∧
    size m = ps.length

section Worlds

variable [Hash κ]

/-- Two worlds with the same reads, whose tables refine each other's maps. -/
structure Simulates (w : World (HashMap κ ν) ν) (w' : World (Lookup κ ν) ν) : Prop where
  length : w.tables.length = w'.tables.length
  refines : ∀ (i : Nat) m ref, w.tables[i]? = some m → w'.tables[i]? = some ref → Refines m ref
  reads : w.reads = w'.reads

theorem Simulates.table {w : World (HashMap κ ν) ν} {w' : World (Lookup κ ν) ν}
    (h : Simulates w w') {i : Nat} {ref : Lookup κ ν} (hi : w'.tables[i]? = some ref) :
    ∃ m, w.tables[i]? = some m ∧ Refines m ref := by
  obtain ⟨hlt, -⟩ := List.getElem?_eq_some_iff.1 hi
  have hm := List.getElem?_eq_getElem (h.length.symm ▸ hlt : i < w.tables.length)
  exact ⟨_, hm, h.refines i _ ref hm hi⟩

theorem Simulates.set {w : World (HashMap κ ν) ν} {w' : World (Lookup κ ν) ν}
    (h : Simulates w w') (i : Nat) {m : HashMap κ ν} {ref : Lookup κ ν} (hm : Refines m ref) :
    Simulates { w with tables := w.tables.set i m } { w' with tables := w'.tables.set i ref } := by
  refine ⟨?_, fun j m' ref' hj hj' => ?_, h.reads⟩
  · rw [List.length_set, List.length_set]
    exact h.length
  · dsimp only at hj hj'
    by_cases hij : i = j
    · subst hij
      obtain ⟨_, rfl⟩ := List.getElem?_eq_some_iff.1 hj
      obtain ⟨_, rfl⟩ := List.getElem?_eq_some_iff.1 hj'
      rw [List.getElem_set_self, List.getElem_set_self]
      exact hm
    · rw [List.getElem?_set_ne hij] at hj hj'
      exact h.refines j m' ref' hj hj'

theorem Simulates.append {w : World (HashMap κ ν) ν} {w' : World (Lookup κ ν) ν}
    (h : Simulates w w') {m : HashMap κ ν} {ref : Lookup κ ν} (hm : Refines m ref) :
    Simulates { w with tables := w.tables ++ [m] } { w' with tables := w'.tables ++ [ref] } := by
  refine ⟨?_, fun j m' ref' hj hj' => ?_, h.reads⟩
  · rw [List.length_append, List.length_append, h.length]
    rfl
  · dsimp only at hj hj'
    rcases Nat.lt_or_ge j w.tables.length with hlt | hge
    · rw [List.getElem?_append_left hlt] at hj
      rw [List.getElem?_append_left (h.length ▸ hlt)] at hj'
      exact h.refines j m' ref' hj hj'
    · rw [List.getElem?_append_right hge] at hj
      rw [List.getElem?_append_right (h.length ▸ hge), ← h.length] at hj'
      rw [List.getElem?_singleton] at hj hj'
      split_ifs at hj hj'
      cases hj
      cases hj'
      exact hm

end Worlds

section Equivalence

variable [Hash κ] [LawfulHash κ]

theorem Refines.correct {m : HashMap κ ν} {ref : Lookup κ ν} (h : Refines m ref) :
    Correct m ref where
  capacity := h.capacity
  length := h.placed.length
  placed := h.placed.index
  distinct := h.holds.distinct
  count := h.count
  get := get_spec h
  contains := contains_spec h
  toPairs := by
    obtain ⟨ps, hps, hholds, hsize⟩ := toPairs_spec h
    exact ⟨ps, hps, hholds.distinct, hholds.mem_iff, hsize⟩

theorem mergeLoop_spec (ps : List (κ × ν)) : ∀ {acc : HashMap κ ν} {ref ref' : Lookup κ ν},
    Refines acc ref → Holds ps ref' →
      ∃ acc', mergeLoop ps acc = some acc' ∧ Refines acc' (ref.union ref') := by
  induction ps with
  | nil =>
      intro acc ref ref' h hps
      have hunion : ref.union ref' = ref := by
        funext k
        rw [Lookup.union, hps.eq_none (by simp)]
        cases ref k <;> rfl
      exact ⟨acc, rfl, hunion.symm ▸ h⟩
  | cons p rest ih =>
      intro acc ref ref' h hps
      have hrest : Holds rest (ref'.remove p.1) := hps.tail BEq.rfl
      have hcontains := contains_spec h p.1
      cases hp : ref p.1 with
      | some q =>
          obtain ⟨acc', hloop, hrefines⟩ := ih h hrest
          have hunion : ref.union (ref'.remove p.1) = ref.union ref' := by
            funext k
            rw [Lookup.union, Lookup.union, Lookup.remove]
            split_ifs with hk
            · rw [h.holds.congr hk] at hp
              rw [hp]
              rfl
            · rfl
          refine ⟨acc', ?_, hunion ▸ hrefines⟩
          simp only [mergeLoop, hcontains, hp, Option.isSome_some, Option.bind_eq_bind,
            Option.bind_some, if_true, hloop]
      | none =>
          obtain ⟨acc1, hput, hrefines1⟩ := put_spec h p.1 p.2
          obtain ⟨acc', hloop, hrefines⟩ := ih hrefines1 hrest
          have hunion : (ref.put p.1 p.2).union (ref'.remove p.1) = ref.union ref' := by
            funext k
            rw [Lookup.union, Lookup.union, Lookup.remove, Lookup.put]
            split_ifs with hk
            · rw [h.holds.congr hk] at hp
              rw [hp, (hps.lookup k p).2 ⟨List.mem_cons_self, hk⟩]
              rfl
            · rfl
          refine ⟨acc', ?_, hunion ▸ hrefines⟩
          simp only [mergeLoop, hcontains, hp, Option.isSome_none, Option.bind_eq_bind,
            Option.bind_some, Bool.false_eq_true, if_false, hput, hloop]

theorem merge_spec {a b : HashMap κ ν} {refA refB : Lookup κ ν} (ha : Refines a refA)
    (hb : Refines b refB) : ∃ a', merge a b = some a' ∧ Refines a' (refA.union refB) := by
  obtain ⟨ps, hps, hholds, -⟩ := toPairs_spec hb
  obtain ⟨a', hloop, hrefines⟩ := mergeLoop_spec ps ha hholds
  refine ⟨a', ?_, hrefines⟩
  simp only [merge, hps, Option.bind_eq_bind, Option.bind_some, hloop]

theorem step_simulates {w : World (HashMap κ ν) ν} {w' w1' : World (Lookup κ ν) ν}
    (h : Simulates w w') (op : Op κ ν) (hop : specStep w' op = some w1') :
    ∃ w1, step w op = some w1 ∧ Simulates w1 w1' := by
  cases op with
  | empty =>
      cases hop
      exact ⟨_, rfl, h.append refines_empty⟩
  | put i key value =>
      obtain ⟨ref, hi, hop⟩ := Option.bind_eq_some_iff.1 hop
      cases hop
      obtain ⟨m, hm, hrefines⟩ := h.table hi
      obtain ⟨m', hput, hrefines'⟩ := put_spec hrefines key value
      refine ⟨_, ?_, h.set i hrefines'⟩
      simp only [step, hm, hput, Option.bind_eq_bind, Option.bind_some]
  | remove i key =>
      obtain ⟨ref, hi, hop⟩ := Option.bind_eq_some_iff.1 hop
      cases hop
      obtain ⟨m, hm, hrefines⟩ := h.table hi
      obtain ⟨m', hremove, hrefines'⟩ := remove_spec hrefines key
      refine ⟨_, ?_, h.set i hrefines'⟩
      simp only [step, hm, hremove, Option.bind_eq_bind, Option.bind_some]
  | merge i j =>
      obtain ⟨refA, hi, hop⟩ := Option.bind_eq_some_iff.1 hop
      obtain ⟨refB, hj, hop⟩ := Option.bind_eq_some_iff.1 hop
      cases hop
      obtain ⟨a, ha, hrefinesA⟩ := h.table hi
      obtain ⟨b, hb, hrefinesB⟩ := h.table hj
      obtain ⟨a', hmerge, hrefines'⟩ := merge_spec hrefinesA hrefinesB
      refine ⟨_, ?_, h.set i hrefines'⟩
      simp only [step, ha, hb, hmerge, Option.bind_eq_bind, Option.bind_some]
  | get i key =>
      obtain ⟨ref, hi, hop⟩ := Option.bind_eq_some_iff.1 hop
      cases hop
      obtain ⟨m, hm, hrefines⟩ := h.table hi
      refine ⟨⟨w.tables, w.reads ++ [(ref key).map Prod.snd]⟩, ?_, h.length, h.refines, ?_⟩
      · simp only [step, hm, get_spec hrefines, Option.bind_eq_bind, Option.bind_some]
      · rw [h.reads]

theorem foldlM_simulates (ops : List (Op κ ν)) : ∀ {w : World (HashMap κ ν) ν}
    {w' w1' : World (Lookup κ ν) ν}, Simulates w w' → ops.foldlM specStep w' = some w1' →
      ∃ w1, ops.foldlM step w = some w1 ∧ Simulates w1 w1' := by
  induction ops with
  | nil =>
      intro w w' w1' h hrun
      cases hrun
      exact ⟨w, rfl, h⟩
  | cons op ops ih =>
      intro w w' w1' h hrun
      rw [List.foldlM_cons] at hrun
      obtain ⟨w2', hop, hrun⟩ := Option.bind_eq_some_iff.1 hrun
      obtain ⟨w2, hstep, h2⟩ := step_simulates h op hop
      obtain ⟨w1, hrun1, h1⟩ := ih h2 hrun
      refine ⟨w1, ?_, h1⟩
      rw [List.foldlM_cons, hstep]
      exact hrun1

/-- Every run over existing tables goes through, reads what the finite maps hold, and
leaves correct tables. -/
theorem hashmap_refines (ops : List (Op κ ν)) (w' : World (Lookup κ ν) ν)
    (hrun : specRun ops = some w') :
    ∃ w, run ops = some w ∧ w.reads = w'.reads ∧ w.tables.length = w'.tables.length ∧
      ∀ (i : Nat) m ref, w.tables[i]? = some m → w'.tables[i]? = some ref → Correct m ref := by
  have hstart : Simulates (⟨[], []⟩ : World (HashMap κ ν) ν) ⟨[], []⟩ := by
    refine ⟨rfl, fun i m ref hm => ?_, rfl⟩
    rw [List.getElem?_nil] at hm
    cases hm
  obtain ⟨w, hw, h⟩ := foldlM_simulates ops hstart hrun
  exact ⟨w, hw, h.reads, h.length, fun i m ref hm href => (h.refines i m ref hm href).correct⟩

end Equivalence

end Keys

/-- The hash of an integer is the integer. -/
instance instHashInt : Hash Int := ⟨id⟩

instance instLawfulHashInt : LawfulHash Int where
  hash_eq _ _ h := by rw [eq_of_beq h]

/-- Thirteen negative keys, the last of which makes the table grow. -/
theorem hashmap_refines_grown : ∃ w, run (.empty :: ((List.range 13).map fun i : Nat =>
    .put 0 (-(i : Int)) i) ++ [.get 0 (-7), .get 0 7]) = some w ∧ w.reads = [some 7, none] := by
  have hspec : (specRun (.empty :: ((List.range 13).map fun i : Nat =>
      .put 0 (-(i : Int)) i) ++ [.get 0 (-7), .get 0 7])).map World.reads = some [some 7, none] := by
    decide +kernel
  obtain ⟨w', hw', hw⟩ := Option.map_eq_some_iff.1 hspec
  obtain ⟨w, hrun, hreads, -⟩ := hashmap_refines _ w' hw'
  exact ⟨w, hrun, hreads.trans hw⟩

end Kaikai.HashTable
