import Mathlib.Data.Set.Card
import Mathlib.Order.CompletePartialOrder

/-!
Depth-first search with a visited set over a graph whose edges are ordered and
act on the data carried along a path. A node is finished, and tested against the
goal, after everything it leads to.
-/

namespace Kaikai.OrderedSearch

structure Graph (ν κ : Type) where
  succ : ν → List (ν × (κ → κ))
  goal : ν → Prop

inductive Item (ν κ : Type) where
  | visit (n : ν) (k : κ)
  | finish (n : ν) (k : κ)

inductive Outcome (ν κ : Type) where
  | found (n : ν) (k : κ)
  | exhausted (visited : Set ν)

namespace Graph

variable {ν κ : Type} (G : Graph ν κ)

/-- The work that entering a node adds, in edge order. -/
def children (n : ν) (k : κ) : List (Item ν κ) :=
  (G.succ n).map fun e => .visit e.1 (e.2 k)

/-- The search of a stack of work from a visited set. -/
inductive Runs : List (Item ν κ) → Set ν → Outcome ν κ → Prop where
  | done {V : Set ν} : Runs [] V (.exhausted V)
  | skip {n : ν} {k : κ} {w : List (Item ν κ)} {V : Set ν} {o : Outcome ν κ} :
      n ∈ V → Runs w V o → Runs (.visit n k :: w) V o
  | enter {n : ν} {k : κ} {w : List (Item ν κ)} {V : Set ν} {o : Outcome ν κ} :
      n ∉ V → Runs (G.children n k ++ .finish n k :: w) (insert n V) o →
      Runs (.visit n k :: w) V o
  | hit {n : ν} {k : κ} {w : List (Item ν κ)} {V : Set ν} :
      G.goal n → Runs (.finish n k :: w) V (.found n k)
  | miss {n : ν} {k : κ} {w : List (Item ν κ)} {V : Set ν} {o : Outcome ν κ} :
      ¬ G.goal n → Runs w V o → Runs (.finish n k :: w) V o

/-- One edge, with what it does to the data of the path. -/
def Edge (x y : ν × κ) : Prop := ∃ e ∈ G.succ x.1, y = (e.1, e.2 x.2)

/-- The paths of the graph. -/
def Reach : ν × κ → ν × κ → Prop := Relation.ReflTransGen G.Edge

/-- The first success among several starts, each searched afresh. -/
inductive FirstFound : List (ν × κ) → Option ((ν × κ) × (ν × κ)) → Prop where
  | nil : FirstFound [] none
  | here {x : ν × κ} {rest : List (ν × κ)} {n : ν} {k : κ} :
      G.Runs [.visit x.1 x.2] ∅ (.found n k) → FirstFound (x :: rest) (some (x, (n, k)))
  | later {x : ν × κ} {rest : List (ν × κ)} {V : Set ν} {r : Option ((ν × κ) × (ν × κ))} :
      G.Runs [.visit x.1 x.2] ∅ (.exhausted V) → FirstFound rest r → FirstFound (x :: rest) r

/-- A set of nodes that no edge leaves. -/
def Closed (S : Set ν) : Prop := ∀ n ∈ S, ∀ e ∈ G.succ n, e.1 ∈ S

/-- The work visits nodes of `S` only. -/
def Within (S : Set ν) (w : List (Item ν κ)) : Prop := ∀ n k, .visit n k ∈ w → n ∈ S

/-- A closed set without a goal. -/
def Dead (D : Set ν) : Prop := G.Closed D ∧ ∀ n ∈ D, ¬ G.goal n

variable {G}

theorem mem_children {n m : ν} {k j : κ} :
    .visit m j ∈ G.children n k ↔ ∃ e ∈ G.succ n, m = e.1 ∧ j = e.2 k := by
  unfold children
  rw [List.mem_map]
  constructor
  · rintro ⟨e, he, heq⟩
    cases heq
    exact ⟨e, he, rfl, rfl⟩
  · rintro ⟨e, he, rfl, rfl⟩
    exact ⟨e, he, rfl⟩

theorem finish_not_mem_children {n m : ν} {k j : κ} : .finish m j ∉ G.children n k := by
  unfold children
  rw [List.mem_map]
  rintro ⟨e, -, heq⟩
  cases heq

theorem Runs.unique {w : List (Item ν κ)} {V : Set ν} {o o' : Outcome ν κ}
    (h : G.Runs w V o) (h' : G.Runs w V o') : o = o' := by
  induction h with
  | done => cases h' with | done => rfl
  | skip hmem _ ih =>
      cases h' with
      | skip _ h' => exact ih h'
      | enter hnot _ => exact absurd hmem hnot
  | enter hnot _ ih =>
      cases h' with
      | skip hmem _ => exact absurd hmem hnot
      | enter _ h' => exact ih h'
  | hit hgoal =>
      cases h' with
      | hit _ => rfl
      | miss hno _ => exact absurd hgoal hno
  | miss hno _ ih =>
      cases h' with
      | hit hgoal => exact absurd hgoal hno
      | miss _ h' => exact ih h'

theorem FirstFound.unique {starts : List (ν × κ)} {r r' : Option ((ν × κ) × (ν × κ))}
    (h : G.FirstFound starts r) (h' : G.FirstFound starts r') : r = r' := by
  induction h with
  | nil => cases h' with | nil => rfl
  | here hrun =>
      cases h' with
      | here hrun' => cases hrun.unique hrun'; rfl
      | later hrun' _ => cases hrun.unique hrun'
  | later hrun _ ih =>
      cases h' with
      | here hrun' => cases hrun.unique hrun'
      | later _ h' => exact ih h'

theorem FirstFound.run {starts : List (ν × κ)} {r : (ν × κ) × (ν × κ)}
    (h : G.FirstFound starts (some r)) :
    r.1 ∈ starts ∧ G.Runs [.visit r.1.1 r.1.2] ∅ (.found r.2.1 r.2.2) := by
  generalize hr : some r = r' at h
  induction h with
  | nil => cases hr
  | here hrun =>
      cases hr
      exact ⟨List.mem_cons_self, hrun⟩
  | later _ _ ih =>
      obtain ⟨hmem, hrun⟩ := ih hr
      exact ⟨List.mem_cons_of_mem _ hmem, hrun⟩

theorem Runs.append_found {p q : List (Item ν κ)} {V : Set ν} {n : ν} {k : κ}
    (h : G.Runs p V (.found n k)) : G.Runs (p ++ q) V (.found n k) := by
  generalize ho : Outcome.found n k = o at h
  induction h with
  | done => cases ho
  | skip hmem _ ih => exact .skip hmem (ih ho)
  | enter hnot _ ih =>
      have h := ih ho
      rw [List.append_assoc] at h
      exact .enter hnot h
  | hit hgoal => cases ho; exact .hit hgoal
  | miss hno _ ih => exact .miss hno (ih ho)

theorem Runs.append_exhausted {p q : List (Item ν κ)} {V V1 : Set ν} {o : Outcome ν κ}
    (hp : G.Runs p V (.exhausted V1)) (hq : G.Runs q V1 o) : G.Runs (p ++ q) V o := by
  generalize ho : Outcome.exhausted V1 = o' at hp
  induction hp with
  | done => cases ho; exact hq
  | skip hmem _ ih => exact .skip hmem (ih ho)
  | enter hnot _ ih =>
      have h := ih ho
      rw [List.append_assoc] at h
      exact .enter hnot h
  | hit hgoal => cases ho
  | miss hno _ ih => exact .miss hno (ih ho)

theorem Runs.of_append {p q : List (Item ν κ)} {V : Set ν} {o : Outcome ν κ}
    (h : G.Runs (p ++ q) V o) :
    (∃ n k, o = .found n k ∧ G.Runs p V o) ∨
      ∃ V1, G.Runs p V (.exhausted V1) ∧ G.Runs q V1 o := by
  generalize hw : p ++ q = w at h
  induction h generalizing p with
  | @done V =>
      obtain ⟨rfl, rfl⟩ := List.append_eq_nil_iff.1 hw
      exact .inr ⟨V, .done, .done⟩
  | @skip n k w V o hmem hrun ih =>
      cases p with
      | nil =>
          rw [List.nil_append] at hw
          exact .inr ⟨V, .done, hw ▸ .skip hmem hrun⟩
      | cons i p =>
          obtain ⟨rfl, htail⟩ := List.cons.inj hw
          rcases ih htail with ⟨n', k', ho, hp⟩ | ⟨V1, hp, hq⟩
          · exact .inl ⟨n', k', ho, .skip hmem hp⟩
          · exact .inr ⟨V1, .skip hmem hp, hq⟩
  | @enter n k w V o hnot hrun ih =>
      cases p with
      | nil =>
          rw [List.nil_append] at hw
          exact .inr ⟨V, .done, hw ▸ .enter hnot hrun⟩
      | cons i p =>
          obtain ⟨rfl, htail⟩ := List.cons.inj hw
          rcases ih (p := G.children n k ++ .finish n k :: p)
            (by rw [List.append_assoc, List.cons_append]; exact congrArg _ (congrArg _ htail)) with
            ⟨n', k', ho, hp⟩ | ⟨V1, hp, hq⟩
          · exact .inl ⟨n', k', ho, .enter hnot hp⟩
          · exact .inr ⟨V1, .enter hnot hp, hq⟩
  | @hit n k w V hgoal =>
      cases p with
      | nil =>
          rw [List.nil_append] at hw
          exact .inr ⟨V, .done, hw ▸ .hit hgoal⟩
      | cons i p =>
          obtain ⟨rfl, htail⟩ := List.cons.inj hw
          exact .inl ⟨n, k, rfl, .hit hgoal⟩
  | @miss n k w V o hno hrun ih =>
      cases p with
      | nil =>
          rw [List.nil_append] at hw
          exact .inr ⟨V, .done, hw ▸ .miss hno hrun⟩
      | cons i p =>
          obtain ⟨rfl, htail⟩ := List.cons.inj hw
          rcases ih htail with ⟨n', k', ho, hp⟩ | ⟨V1, hp, hq⟩
          · exact .inl ⟨n', k', ho, .miss hno hp⟩
          · exact .inr ⟨V1, .miss hno hp, hq⟩

/-- What a search that finds nothing has established. -/
structure Explored (G : Graph ν κ) (w : List (Item ν κ)) (V V1 : Set ν) : Prop where
  subset : V ⊆ V1
  visited : ∀ n k, .visit n k ∈ w → n ∈ V1
  finished : ∀ n k, .finish n k ∈ w → ¬ G.goal n
  closed : ∀ n ∈ V1, n ∉ V → ¬ G.goal n ∧ ∀ e ∈ G.succ n, e.1 ∈ V1

theorem Runs.explored {w : List (Item ν κ)} {V V1 : Set ν}
    (h : G.Runs w V (.exhausted V1)) : Explored G w V V1 := by
  generalize ho : Outcome.exhausted V1 = o at h
  induction h with
  | done =>
      cases ho
      exact ⟨subset_rfl, by simp, by simp, fun n hn hnot => absurd hn hnot⟩
  | skip hmem _ ih =>
      have ih := ih ho
      refine ⟨ih.subset, ?_, ?_, ih.closed⟩
      · intro n k hn
        rcases List.mem_cons.1 hn with heq | hn
        · cases heq; exact ih.subset hmem
        · exact ih.visited n k hn
      · intro n k hn
        rcases List.mem_cons.1 hn with heq | hn
        · cases heq
        · exact ih.finished n k hn
  | @enter m j w V o hnot _ ih =>
      have ih := ih ho
      have hm : m ∈ V1 := ih.subset (Set.mem_insert m V)
      refine ⟨fun n hn => ih.subset (Set.mem_insert_of_mem m hn), ?_, ?_, ?_⟩
      · intro n k hn
        rcases List.mem_cons.1 hn with heq | hn
        · cases heq; exact hm
        · exact ih.visited n k (List.mem_append_right _ (List.mem_cons_of_mem _ hn))
      · intro n k hn
        rcases List.mem_cons.1 hn with heq | hn
        · cases heq
        · exact ih.finished n k (List.mem_append_right _ (List.mem_cons_of_mem _ hn))
      · intro n hn hnV
        by_cases hnm : n = m
        · subst hnm
          refine ⟨ih.finished n j (List.mem_append_right _ List.mem_cons_self), fun e he => ?_⟩
          exact ih.visited e.1 (e.2 j)
            (List.mem_append_left _ (mem_children.2 ⟨e, he, rfl, rfl⟩))
        · exact ih.closed n hn fun h => (Set.mem_insert_iff.1 h).elim hnm hnV
  | hit hgoal => cases ho
  | miss hno _ ih =>
      have ih := ih ho
      refine ⟨ih.subset, ?_, ?_, ih.closed⟩
      · intro n k hn
        rcases List.mem_cons.1 hn with heq | hn
        · cases heq
        · exact ih.visited n k hn
      · intro n k hn
        rcases List.mem_cons.1 hn with heq | hn
        · cases heq; exact hno
        · exact ih.finished n k hn

theorem Runs.dead {w : List (Item ν κ)} {D V1 : Set ν} (hD : G.Dead D)
    (h : G.Runs w D (.exhausted V1)) : G.Dead V1 := by
  have hexp := h.explored
  constructor
  · intro n hn e he
    by_cases hnD : n ∈ D
    · exact hexp.subset (hD.1 n hnD e he)
    · exact (hexp.closed n hn hnD).2 e he
  · intro n hn
    by_cases hnD : n ∈ D
    · exact hD.2 n hnD
    · exact (hexp.closed n hn hnD).1

theorem dead_empty : G.Dead ∅ := ⟨fun _ h => h.elim, fun _ h => h.elim⟩

theorem Closed.reach {S : Set ν} (hS : G.Closed S) {x y : ν × κ} (hx : x.1 ∈ S)
    (h : G.Reach x y) : y.1 ∈ S := by
  induction h with
  | refl => exact hx
  | tail _ hedge ih =>
      obtain ⟨e, he, rfl⟩ := hedge
      exact hS _ ih e he

theorem Runs.no_goal {w : List (Item ν κ)} {x y : ν × κ} {V : Set ν}
    (h : G.Runs w ∅ (.exhausted V)) (hx : .visit x.1 x.2 ∈ w) (hreach : G.Reach x y) :
    ¬ G.goal y.1 := by
  have hdead := h.dead dead_empty
  exact hdead.2 _ (hdead.1.reach (h.explored.visited x.1 x.2 hx) hreach)

theorem Runs.reaches {w : List (Item ν κ)} {V : Set ν} {n : ν} {k : κ}
    (h : G.Runs w V (.found n k)) :
    G.goal n ∧ (.finish n k ∈ w ∨ ∃ m j, .visit m j ∈ w ∧ G.Reach (m, j) (n, k)) := by
  generalize ho : Outcome.found n k = o at h
  induction h with
  | done => cases ho
  | skip _ _ ih =>
      obtain ⟨hgoal, hw⟩ := ih ho
      refine ⟨hgoal, hw.imp (List.mem_cons_of_mem _) ?_⟩
      rintro ⟨m, j, hm, hr⟩
      exact ⟨m, j, List.mem_cons_of_mem _ hm, hr⟩
  | @enter m j w V o _ _ ih =>
      obtain ⟨hgoal, hw⟩ := ih ho
      refine ⟨hgoal, ?_⟩
      rcases hw with hw | ⟨m', j', hm', hr⟩
      · rcases List.mem_append.1 hw with hw | hw
        · exact absurd hw finish_not_mem_children
        · rcases List.mem_cons.1 hw with heq | hw
          · cases heq
            exact .inr ⟨n, k, List.mem_cons_self, .refl⟩
          · exact .inl (List.mem_cons_of_mem _ hw)
      · rcases List.mem_append.1 hm' with hm' | hm'
        · obtain ⟨e, he, rfl, rfl⟩ := mem_children.1 hm'
          exact .inr ⟨m, j, List.mem_cons_self, .head ⟨e, he, rfl⟩ hr⟩
        · rcases List.mem_cons.1 hm' with heq | hm'
          · cases heq
          · exact .inr ⟨m', j', List.mem_cons_of_mem _ hm', hr⟩
  | hit hgoal =>
      cases ho
      exact ⟨hgoal, .inl List.mem_cons_self⟩
  | miss _ _ ih =>
      obtain ⟨hgoal, hw⟩ := ih ho
      refine ⟨hgoal, hw.imp (List.mem_cons_of_mem _) ?_⟩
      rintro ⟨m, j, hm, hr⟩
      exact ⟨m, j, List.mem_cons_of_mem _ hm, hr⟩

theorem within_children {S : Set ν} (hS : G.Closed S) {n : ν} (hn : n ∈ S) {k : κ}
    {w : List (Item ν κ)} (hw : Within S w) :
    Within S (G.children n k ++ .finish n k :: w) := by
  intro m j hm
  rcases List.mem_append.1 hm with hm | hm
  · obtain ⟨e, he, rfl, -⟩ := mem_children.1 hm
    exact hS n hn e he
  · rcases List.mem_cons.1 hm with heq | hm
    · cases heq
    · exact hw m j hm

theorem Within.tail {S : Set ν} {i : Item ν κ} {w : List (Item ν κ)} (h : Within S (i :: w)) :
    Within S w := fun n k hn => h n k (List.mem_cons_of_mem i hn)

theorem Within.head {S : Set ν} {n : ν} {k : κ} {w : List (Item ν κ)}
    (h : Within S (.visit n k :: w)) : n ∈ S := h n k List.mem_cons_self

theorem exists_runs {S : Set ν} (hfin : S.Finite) (hS : G.Closed S) (w : List (Item ν κ))
    (hw : Within S w) (V : Set ν) : ∃ o, G.Runs w V o := by
  generalize hsize : (S \ V).ncard = size
  induction size using Nat.strong_induction_on generalizing w V with
  | _ size ihsize =>
      induction w with
      | nil => exact ⟨_, .done⟩
      | cons i w ih =>
          obtain ⟨o, ho⟩ := ih hw.tail
          cases i with
          | visit n k =>
              by_cases hn : n ∈ V
              · exact ⟨o, .skip hn ho⟩
              · have hlt : (S \ insert n V).ncard < size := by
                  rw [← hsize]
                  refine Set.ncard_lt_ncard ⟨?_, ?_⟩ hfin.sdiff
                  · exact Set.sdiff_subset_sdiff_right (Set.subset_insert n V)
                  · exact fun h => (h ⟨hw.head, hn⟩).2 (Set.mem_insert n V)
                obtain ⟨o', ho'⟩ := ihsize _ hlt (G.children n k ++ .finish n k :: w)
                  (within_children hS hw.head hw.tail) (insert n V) rfl
                exact ⟨o', .enter hn ho'⟩
          | finish n k =>
              by_cases hgoal : G.goal n
              · exact ⟨_, .hit hgoal⟩
              · exact ⟨o, .miss hgoal ho⟩

theorem Runs.unmark {S M : Set ν} (hS : G.Closed S) (hM : Disjoint S M) {w : List (Item ν κ)}
    {V W : Set ν} {o : Outcome ν κ} (h : G.Runs w W o) (hW : W = V ∪ M) (hw : Within S w) :
    (∃ n k, o = .found n k ∧ G.Runs w V o) ∨
      ∃ V1, o = .exhausted (V1 ∪ M) ∧ G.Runs w V (.exhausted V1) ∧ V ⊆ V1 ∧ V1 ⊆ V ∪ S := by
  induction h generalizing V with
  | done =>
      subst hW
      exact .inr ⟨V, rfl, .done, subset_rfl, Set.subset_union_left⟩
  | skip hmem _ ih =>
      subst hW
      have hmem : _ ∈ V := hmem.elim id fun h => absurd h (Set.disjoint_left.1 hM hw.head)
      rcases ih rfl hw.tail with ⟨n, k, ho, hrun⟩ | ⟨V1, ho, hrun, hsub, hsup⟩
      · exact .inl ⟨n, k, ho, .skip hmem hrun⟩
      · exact .inr ⟨V1, ho, .skip hmem hrun, hsub, hsup⟩
  | @enter n k w W o hnot _ ih =>
      subst hW
      have hnV : n ∉ V := fun h => hnot (Or.inl h)
      rcases ih (Set.insert_union).symm (within_children hS hw.head hw.tail) with
        ⟨n', k', ho, hrun⟩ | ⟨V1, ho, hrun, hsub, hsup⟩
      · exact .inl ⟨n', k', ho, .enter hnV hrun⟩
      · refine .inr ⟨V1, ho, .enter hnV hrun, (Set.subset_insert n V).trans hsub,
          hsup.trans ?_⟩
        rw [Set.insert_union]
        exact Set.insert_subset (Or.inr hw.head) subset_rfl
  | hit hgoal => exact .inl ⟨_, _, rfl, .hit hgoal⟩
  | miss hno _ ih =>
      rcases ih hW hw.tail with ⟨n, k, ho, hrun⟩ | ⟨V1, ho, hrun, hsub, hsup⟩
      · exact .inl ⟨n, k, ho, .miss hno hrun⟩
      · exact .inr ⟨V1, ho, .miss hno hrun, hsub, hsup⟩

/-- `w'` is `w` without some of the work on nodes of `D`. -/
inductive Pruned (D : Set ν) : List (Item ν κ) → List (Item ν κ) → Prop where
  | nil : Pruned D [] []
  | keep {i : Item ν κ} {w w' : List (Item ν κ)} : Pruned D w w' → Pruned D (i :: w) (i :: w')
  | dropVisit {n : ν} {k : κ} {w w' : List (Item ν κ)} :
      n ∈ D → Pruned D w w' → Pruned D (.visit n k :: w) w'
  | dropFinish {n : ν} {k : κ} {w w' : List (Item ν κ)} :
      n ∈ D → Pruned D w w' → Pruned D (.finish n k :: w) w'

theorem Pruned.refl (D : Set ν) (w : List (Item ν κ)) : Pruned D w w := by
  induction w with
  | nil => exact .nil
  | cons i w ih => exact .keep ih

theorem Pruned.append {D : Set ν} (p : List (Item ν κ)) {w w' : List (Item ν κ)}
    (h : Pruned D w w') : Pruned D (p ++ w) (p ++ w') := by
  induction p with
  | nil => exact h
  | cons i p ih => exact .keep ih

theorem Pruned.children {D : Set ν} (hD : G.Closed D) {n : ν} (hn : n ∈ D) (k : κ)
    {w w' : List (Item ν κ)} (h : Pruned D w w') :
    Pruned D (G.children n k ++ .finish n k :: w) w' := by
  have hlist : ∀ es : List (ν × (κ → κ)), (∀ e ∈ es, e.1 ∈ D) →
      Pruned D (es.map (fun e => Item.visit e.1 (e.2 k)) ++ .finish n k :: w) w' := by
    intro es
    induction es with
    | nil => exact fun _ => .dropFinish hn h
    | cons e es ih =>
        intro hes
        exact .dropVisit (hes e List.mem_cons_self)
          (ih fun e' he' => hes e' (List.mem_cons_of_mem e he'))
  exact hlist _ (hD n hn)

theorem Runs.prune {D : Set ν} (hD : G.Dead D) {w w' : List (Item ν κ)} {V W : Set ν}
    {o : Outcome ν κ} (h : G.Runs w V o) (hp : Pruned D w w') (hW : V ∪ D = W) :
    (∃ n k, o = .found n k ∧ G.Runs w' W o) ∨
      ∃ V1 W1, o = .exhausted V1 ∧ G.Runs w' W (.exhausted W1) := by
  induction h generalizing w' W with
  | done =>
      cases hp
      exact .inr ⟨_, _, rfl, .done⟩
  | skip hmem _ ih =>
      cases hp with
      | keep hp =>
          rcases ih hp hW with ⟨n, k, ho, hrun⟩ | ⟨V1, W1, ho, hrun⟩
          · exact .inl ⟨n, k, ho, .skip (hW ▸ Or.inl hmem) hrun⟩
          · exact .inr ⟨V1, W1, ho, .skip (hW ▸ Or.inl hmem) hrun⟩
      | dropVisit _ hp => exact ih hp hW
  | @enter n k w V o hnot _ ih =>
      cases hp with
      | keep hp =>
          by_cases hn : n ∈ D
          · have hWn : insert n V ∪ D = W := by
              rw [← hW, Set.insert_union, Set.insert_eq_of_mem (show n ∈ V ∪ D from Or.inr hn)]
            rcases ih (Pruned.children hD.1 hn k hp) hWn with
              ⟨n', k', ho, hrun⟩ | ⟨V1, W1, ho, hrun⟩
            · exact .inl ⟨n', k', ho, .skip (hW ▸ Or.inr hn) hrun⟩
            · exact .inr ⟨V1, W1, ho, .skip (hW ▸ Or.inr hn) hrun⟩
          · have hnW : n ∉ W := hW ▸ fun h => h.elim hnot hn
            have hWn : insert n V ∪ D = insert n W := by rw [← hW, Set.insert_union]
            rcases ih (Pruned.append _ (.keep hp)) hWn with
              ⟨n', k', ho, hrun⟩ | ⟨V1, W1, ho, hrun⟩
            · exact .inl ⟨n', k', ho, .enter hnW hrun⟩
            · exact .inr ⟨V1, W1, ho, .enter hnW hrun⟩
      | dropVisit hn hp =>
          have hWn : insert n V ∪ D = W := by
            rw [← hW, Set.insert_union, Set.insert_eq_of_mem (show n ∈ V ∪ D from Or.inr hn)]
          exact ih (Pruned.children hD.1 hn k hp) hWn
  | hit hgoal =>
      cases hp with
      | keep hp => exact .inl ⟨_, _, rfl, .hit hgoal⟩
      | dropFinish hn _ => exact absurd hgoal (hD.2 _ hn)
  | miss hno _ ih =>
      cases hp with
      | keep hp =>
          rcases ih hp hW with ⟨n, k, ho, hrun⟩ | ⟨V1, W1, ho, hrun⟩
          · exact .inl ⟨n, k, ho, .miss hno hrun⟩
          · exact .inr ⟨V1, W1, ho, .miss hno hrun⟩
      | dropFinish _ hp => exact ih hp hW

theorem Runs.firstFound {S : Set ν} (hfin : S.Finite) (hS : G.Closed S)
    (starts : List (ν × κ)) (hw : ∀ x ∈ starts, x.1 ∈ S) {D : Set ν} (hD : G.Dead D)
    {o : Outcome ν κ} (h : G.Runs (starts.map fun x => .visit x.1 x.2) D o) :
    ∃ r, G.FirstFound starts r ∧
      ((∃ V, o = .exhausted V ∧ r = none) ∨
        ∃ x n k, o = .found n k ∧ r = some (x, (n, k)) ∧ x ∈ starts) := by
  induction starts generalizing D with
  | nil =>
      cases h
      exact ⟨none, .nil, .inl ⟨_, rfl, rfl⟩⟩
  | cons x starts ih =>
      have hfresh : ∃ o', G.Runs [.visit x.1 x.2] ∅ o' := by
        refine exists_runs hfin hS _ ?_ ∅
        intro n k hn
        cases List.mem_singleton.1 hn
        exact hw x List.mem_cons_self
      obtain ⟨o', ho'⟩ := hfresh
      have hagree := ho'.prune hD (Pruned.refl D _) (Set.empty_union D)
      rcases Runs.of_append (p := [.visit x.1 x.2]) h with ⟨n, k, rfl, hx⟩ | ⟨V1, hx, hrest⟩
      · rcases hagree with ⟨n', k', rfl, hrun⟩ | ⟨V1, W1, rfl, hrun⟩
        · cases hrun.unique hx
          exact ⟨_, .here ho', .inr ⟨x, n, k, rfl, rfl, List.mem_cons_self⟩⟩
        · cases hrun.unique hx
      · rcases hagree with ⟨n', k', rfl, hrun⟩ | ⟨V2, W1, rfl, hrun⟩
        · cases hrun.unique hx
        · obtain ⟨r, hr, hcase⟩ := ih (fun y hy => hw y (List.mem_cons_of_mem x hy))
            (hx.dead hD) hrest
          refine ⟨r, .later ho' hr, hcase.imp id ?_⟩
          rintro ⟨y, n, k, ho, hry, hy⟩
          exact ⟨y, n, k, ho, hry, List.mem_cons_of_mem x hy⟩

end Graph

end Kaikai.OrderedSearch
