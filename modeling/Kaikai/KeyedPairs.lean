import Mathlib.Data.List.Pairwise
import Mathlib.Data.List.Perm.Basic

/-!
Lists of pairs whose keys differ, as finite maps. Keys are compared by `==`, so a map
keeps with each key the pair that was stored for it.
-/

namespace Kaikai.KeyedPairs

variable {κ ν : Type} [BEq κ]

def Apart (p q : κ × ν) : Prop := (p.1 == q.1) = false

/-- No two pairs of the list have the same key. -/
def Distinct (ps : List (κ × ν)) : Prop := ps.Pairwise Apart

/-- The pairs found under each key. -/
abbrev Lookup (κ ν : Type) := κ → Option (κ × ν)

namespace Lookup

def put (ref : Lookup κ ν) (key : κ) (value : ν) : Lookup κ ν :=
  fun k => if key == k then some (key, value) else ref k

def remove (ref : Lookup κ ν) (key : κ) : Lookup κ ν :=
  fun k => if key == k then none else ref k

def union (ref1 ref2 : Lookup κ ν) : Lookup κ ν := fun k => (ref1 k).orElse fun _ => ref2 k

end Lookup

structure Holds (ps : List (κ × ν)) (ref : Lookup κ ν) : Prop where
  distinct : Distinct ps
  lookup : ∀ k p, ref k = some p ↔ p ∈ ps ∧ (p.1 == k) = true

theorem holds_nil : Holds ([] : List (κ × ν)) fun _ => none :=
  ⟨List.Pairwise.nil, by simp⟩

theorem Holds.eq_none {ps : List (κ × ν)} {ref : Lookup κ ν} (h : Holds ps ref) {k : κ}
    (hk : ∀ p ∈ ps, (p.1 == k) = false) : ref k = none := by
  rw [Option.eq_none_iff_forall_ne_some]
  intro p hp
  obtain ⟨hm, heq⟩ := (h.lookup k p).1 hp
  rw [hk p hm] at heq
  exact Bool.false_ne_true heq

theorem Holds.absent {ps : List (κ × ν)} {ref : Lookup κ ν} (h : Holds ps ref) {k : κ}
    (hk : ref k = none) : ∀ p ∈ ps, (p.1 == k) = false := by
  intro p hp
  rw [Bool.eq_false_iff]
  intro heq
  rw [(h.lookup k p).2 ⟨hp, heq⟩] at hk
  cases hk

theorem Lookup.put_remove (ref : Lookup κ ν) (key : κ) (value : ν) :
    (ref.remove key).put key value = ref.put key value := by
  funext k
  rw [Lookup.put, Lookup.put, Lookup.remove]
  split_ifs <;> rfl

section Equivalence

variable [EquivBEq κ]

theorem Apart.symm {p q : κ × ν} (h : Apart p q) : Apart q p := by
  rw [Apart, BEq.comm]
  exact h

theorem Holds.perm {ps qs : List (κ × ν)} {ref : Lookup κ ν} (h : Holds ps ref) (hperm : ps.Perm qs) :
    Holds qs ref := by
  refine ⟨(hperm.pairwise_iff Apart.symm).1 h.distinct, fun k p => ?_⟩
  rw [h.lookup, hperm.mem_iff]

theorem Holds.mem_iff {ps : List (κ × ν)} {ref : Lookup κ ν} (h : Holds ps ref) (p : κ × ν) :
    p ∈ ps ↔ ref p.1 = some p := by
  rw [h.lookup, BEq.rfl]
  simp

theorem Holds.cons {ps : List (κ × ν)} {ref : Lookup κ ν} (h : Holds ps ref) {key : κ}
    (hkey : ∀ p ∈ ps, (p.1 == key) = false) (value : ν) :
    Holds ((key, value) :: ps) (ref.put key value) := by
  refine ⟨List.pairwise_cons.2 ⟨fun p hp => ?_, h.distinct⟩, fun k p => ?_⟩
  · rw [Apart, BEq.comm]
    exact hkey p hp
  · rw [Lookup.put, List.mem_cons]
    by_cases hk : (key == k) = true
    · have hnot : p ∈ ps → (p.1 == k) = false := by
        intro hp
        rw [← BEq.congr_right hk]
        exact hkey p hp
      rw [if_pos hk, Option.some_inj]
      constructor
      · rintro rfl
        exact ⟨.inl rfl, hk⟩
      · rintro ⟨rfl | hp, heq⟩
        · rfl
        · rw [hnot hp] at heq
          cases heq
    · rw [if_neg hk, h.lookup]
      constructor
      · exact fun ⟨hp, heq⟩ => ⟨.inr hp, heq⟩
      · rintro ⟨rfl | hp, heq⟩
        · exact absurd heq hk
        · exact ⟨hp, heq⟩

theorem Holds.tail {ps : List (κ × ν)} {ref : Lookup κ ν} {p : κ × ν} (h : Holds (p :: ps) ref)
    {key : κ} (hkey : (p.1 == key) = true) : Holds ps (ref.remove key) := by
  obtain ⟨hp, hps⟩ := List.pairwise_cons.1 h.distinct
  refine ⟨hps, fun k q => ?_⟩
  rw [Lookup.remove]
  by_cases hk : (key == k) = true
  · rw [if_pos hk]
    constructor
    · rintro ⟨⟩
    · rintro ⟨hq, heq⟩
      have hpk := BEq.trans hkey (BEq.trans hk (BEq.symm heq))
      have happ := hp q hq
      rw [Apart, hpk] at happ
      cases happ
  · rw [if_neg hk, h.lookup, List.mem_cons]
    constructor
    · rintro ⟨rfl | hq, heq⟩
      · exact absurd (BEq.trans (BEq.symm hkey) heq) hk
      · exact ⟨hq, heq⟩
    · exact fun ⟨hq, heq⟩ => ⟨.inr hq, heq⟩

theorem Holds.congr {ps : List (κ × ν)} {ref : Lookup κ ν} (h : Holds ps ref) {k k' : κ}
    (hk : (k == k') = true) : ref k = ref k' := by
  apply Option.ext
  intro p
  rw [h.lookup, h.lookup, BEq.congr_right hk]

theorem Holds.remove {s r : List (κ × ν)} {p : κ × ν} {ref : Lookup κ ν} {key : κ}
    (h : Holds (s ++ p :: r) ref) (hkey : (p.1 == key) = true) : Holds (s ++ r) (ref.remove key) :=
  (h.perm List.perm_middle).tail hkey

theorem Holds.replace {s r : List (κ × ν)} {p : κ × ν} {ref : Lookup κ ν} {key : κ}
    (h : Holds (s ++ p :: r) ref) (hkey : (p.1 == key) = true) (value : ν) :
    Holds (s ++ (key, value) :: r) (ref.put key value) := by
  have hrest := h.remove hkey
  have hnone : ref.remove key key = none := if_pos BEq.rfl
  have hput := hrest.cons (hrest.absent hnone) value
  rw [Lookup.put_remove] at hput
  exact hput.perm List.perm_middle.symm

end Equivalence

end Kaikai.KeyedPairs
