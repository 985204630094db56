import Mathlib.Algebra.Order.Group.Int
import Mathlib.Data.List.Nodup

/-!
Searches of a directed graph: the order in which a depth-first walk finishes, the strong components
that reversed walks in that order claim, and the order of a breadth-first walk.
-/

namespace Kaikai.GraphSearch

open Relation (ReflTransGen)

variable {V : Type*} {edge : V → V → Prop}

/-- The two nodes reach each other. -/
def Mutual (edge : V → V → Prop) (u v : V) : Prop := ReflTransGen edge u v ∧ ReflTransGen edge v u

theorem Mutual.refl (v : V) : Mutual edge v v := ⟨.refl, .refl⟩

theorem Mutual.symm {u v : V} (h : Mutual edge u v) : Mutual edge v u := ⟨h.2, h.1⟩

theorem Mutual.trans {u v w : V} (huv : Mutual edge u v) (hvw : Mutual edge v w) :
    Mutual edge u w := ⟨huv.1.trans hvw.1, hvw.2.trans huv.2⟩

/-- `w` is `u` or stands before it. -/
def Precedes (l : List V) (w u : V) : Prop := w = u ∨ [w, u].Sublist l

theorem Precedes.mono {l l' : List V} {w u : V} (h : Precedes l w u) (hl : l.Sublist l') :
    Precedes l' w u :=
  h.imp id fun h => h.trans hl

theorem Precedes.mem_of_append {pre post : List V} {w v : V} (h : Precedes (pre ++ v :: post) w v)
    (hnodup : (pre ++ v :: post).Nodup) (hne : w ≠ v) : w ∈ pre := by
  have hv : v ∉ pre := fun hv => (List.disjoint_of_nodup_append hnodup) hv List.mem_cons_self
  have hsub := h.resolve_left hne
  have hpost : ¬ [w, v].Sublist (v :: post) := by
    intro hbad
    have hnd := hnodup.of_append_right
    rw [List.nodup_cons] at hnd
    cases hbad with
    | cons _ hbad => exact hnd.1 (hbad.subset (by simp))
    | cons_cons _ hbad => exact hne rfl
  obtain ⟨l1, l2, hl, h1, h2⟩ := List.sublist_append_iff.1 hsub
  cases l1 with
  | nil => exact absurd (by rw [hl]; exact h2) hpost
  | cons x l1 =>
      rw [List.cons_append, List.cons.injEq] at hl
      rw [hl.1]
      exact h1.subset List.mem_cons_self

/-- Of every node's component some member finishes no earlier than any node it reaches; the list
names the last to finish first. -/
structure Finished (edge : V → V → Prop) (fin : List V) : Prop where
  nodup : fin.Nodup
  early : ∀ v ∈ fin, ∀ u, ReflTransGen edge v u → ∃ w, Mutual edge v w ∧ Precedes fin w u

/-- A stack of open nodes, innermost first, each with the successors it has yet to try. -/
abbrev Stack (V : Type*) := List (V × List V)

/-- The seen nodes in the order in which they finish, the last first. -/
def order (stack : Stack V) (fin : List V) : List V := (stack.map Prod.fst).reverse ++ fin

/-- A depth-first walk under way: the open nodes lie on a path, and what a finished node reaches
either finishes no later than some member of its component or is still to be seen below one that is
open. -/
structure Walking (edge : V → V → Prop) (stack : Stack V) (fin : List V) : Prop where
  nodup : (order stack fin).Nodup
  path : (stack.map Prod.fst).Pairwise fun upper lower => ReflTransGen edge lower upper
  pending : ∀ f ∈ stack, ∀ u ∈ f.2, edge f.1 u
  tried : ∀ f ∈ stack, ∀ u, edge f.1 u → u ∈ order stack fin ∨ u ∈ f.2
  closed : ∀ v ∈ fin, ∀ u, edge v u → u ∈ order stack fin
  early : ∀ v ∈ fin, ∀ u, ReflTransGen edge v u → ∃ w, Mutual edge v w ∧
    (u ∈ order stack fin → Precedes (order stack fin) w u) ∧
    (u ∉ order stack fin → w ∈ stack.map Prod.fst)

theorem mem_order {stack : Stack V} {fin : List V} {v : V} :
    v ∈ order stack fin ↔ v ∈ stack.map Prod.fst ∨ v ∈ fin := by
  rw [order, List.mem_append, List.mem_reverse]

theorem Walking.nil : Walking edge [] [] where
  nodup := List.nodup_nil
  path := .nil
  pending := fun _ hf => absurd hf List.not_mem_nil
  tried := fun _ hf => absurd hf List.not_mem_nil
  closed := fun _ hv => absurd hv List.not_mem_nil
  early := fun _ hv => absurd hv List.not_mem_nil

theorem Walking.finished {fin : List V} (h : Walking edge [] fin) : Finished edge fin where
  nodup := h.nodup
  early := fun v hv u hu => by
    obtain ⟨w, hw, hseen, hnew⟩ := h.early v hv u hu
    by_cases hmem : u ∈ order [] fin
    · exact ⟨w, hw, hseen hmem⟩
    · exact absurd (hnew hmem) List.not_mem_nil

section Steps

variable {stack stack' : Stack V} {fin ws more : List V} {v w : V}

theorem Walking.enter (h : Walking edge stack fin) (hw : w ∉ order stack fin)
    (hnodes : stack'.map Prod.fst = stack.map Prod.fst)
    (hreach : ∀ u ∈ stack.map Prod.fst, ReflTransGen edge u w)
    (hpending : ∀ f ∈ stack', ∀ u ∈ f.2, edge f.1 u)
    (htried : ∀ f ∈ stack', ∀ u, edge f.1 u → u ∈ order stack fin ∨ u = w ∨ u ∈ f.2)
    (hws : ∀ u, u ∈ ws ↔ edge w u) : Walking edge ((w, ws) :: stack') fin := by
  have horder : order ((w, ws) :: stack') fin = (stack.map Prod.fst).reverse ++ w :: fin := by
    simp [order, hnodes]
  have hmem : ∀ u, u ∈ order ((w, ws) :: stack') fin ↔ u ∈ order stack fin ∨ u = w := by
    intro u
    rw [horder, order]
    simp only [List.mem_append, List.mem_cons]
    tauto
  have hsub : (order stack fin).Sublist (order ((w, ws) :: stack') fin) := by
    rw [horder]
    exact (List.Sublist.refl _).append (List.sublist_cons_self _ _)
  constructor
  · rw [horder, List.nodup_middle, List.nodup_cons]
    exact ⟨hw, h.nodup⟩
  · rw [List.map_cons, hnodes, List.pairwise_cons]
    exact ⟨hreach, h.path⟩
  · rw [List.forall_mem_cons]
    exact ⟨fun u hu => (hws u).1 hu, hpending⟩
  · rw [List.forall_mem_cons]
    refine ⟨fun u hu => .inr ((hws u).2 hu), fun f hf u hu => ?_⟩
    rw [hmem]
    obtain hu | hu | hu := htried f hf u hu
    · exact .inl (.inl hu)
    · exact .inl (.inr hu)
    · exact .inr hu
  · intro v hv u hu
    exact (hmem u).2 (.inl (h.closed v hv u hu))
  · intro v hv u hu
    obtain ⟨m, hm, hseen, hnew⟩ := h.early v hv u hu
    refine ⟨m, hm, fun hu' => ?_, fun hu' => ?_⟩
    · obtain hu' | rfl := (hmem u).1 hu'
      · exact (hseen hu').mono hsub
      · right
        rw [horder]
        exact (List.singleton_sublist.2 (List.mem_reverse.2 (hnew hw))).append
          (List.singleton_sublist.2 List.mem_cons_self)
    · rw [hmem, not_or] at hu'
      rw [List.map_cons, hnodes]
      exact List.mem_cons_of_mem _ (hnew hu'.1)

theorem Walking.root (h : Walking edge [] fin) (hw : w ∉ fin) (hws : ∀ u, u ∈ ws ↔ edge w u) :
    Walking edge [(w, ws)] fin :=
  h.enter hw rfl (fun _ hu => absurd hu List.not_mem_nil) (fun _ hf => absurd hf List.not_mem_nil)
    (fun _ hf => absurd hf List.not_mem_nil) hws

theorem Walking.push (h : Walking edge ((v, w :: more) :: stack) fin)
    (hw : w ∉ order ((v, w :: more) :: stack) fin) (hws : ∀ u, u ∈ ws ↔ edge w u) :
    Walking edge ((w, ws) :: (v, more) :: stack) fin := by
  have hvw : edge v w := h.pending (v, w :: more) List.mem_cons_self w List.mem_cons_self
  have hpath := h.path
  rw [List.map_cons, List.pairwise_cons] at hpath
  refine h.enter hw rfl (fun u hu => ?_) ?_ ?_ hws
  · rw [List.map_cons, List.mem_cons] at hu
    obtain rfl | hu := hu
    · exact .single hvw
    · exact (hpath.1 u hu).tail hvw
  · have hp := h.pending
    rw [List.forall_mem_cons] at hp ⊢
    exact ⟨fun u hu => hp.1 u (List.mem_cons_of_mem _ hu), hp.2⟩
  · have ht := h.tried
    rw [List.forall_mem_cons] at ht ⊢
    refine ⟨fun u hu => (ht.1 u hu).imp id fun hu => ?_, fun f hf u hu =>
      (ht.2 f hf u hu).imp id .inr⟩
    exact List.mem_cons.1 hu

theorem Walking.skip (h : Walking edge ((v, w :: more) :: stack) fin)
    (hw : w ∈ order ((v, w :: more) :: stack) fin) :
    Walking edge ((v, more) :: stack) fin where
  nodup := h.nodup
  path := h.path
  pending := by
    have hp := h.pending
    rw [List.forall_mem_cons] at hp ⊢
    exact ⟨fun u hu => hp.1 u (List.mem_cons_of_mem _ hu), hp.2⟩
  tried := by
    have ht := h.tried
    rw [List.forall_mem_cons] at ht ⊢
    refine ⟨fun u hu => ?_, ht.2⟩
    obtain hu | hu := ht.1 u hu
    · exact .inl hu
    · obtain rfl | hu := List.mem_cons.1 hu
      · exact .inl hw
      · exact .inr hu
  closed := h.closed
  early := h.early

theorem exists_leaving {P : V → Prop} {u : V} (h : ReflTransGen edge v u) (hv : P v) (hu : ¬ P u) :
    ∃ x y, ReflTransGen edge v x ∧ edge x y ∧ P x ∧ ¬ P y := by
  induction h with
  | refl => exact absurd hv hu
  | @tail x y hvx hxy ih =>
      by_cases hx : P x
      · exact ⟨x, y, hvx, hxy, hx, hu⟩
      · exact ih hx

theorem Walking.pop (h : Walking edge ((v, []) :: stack) fin) : Walking edge stack (v :: fin) := by
  have horder : order stack (v :: fin) = order ((v, []) :: stack) fin := by simp [order]
  have hpath := h.path
  rw [List.map_cons, List.pairwise_cons] at hpath
  have hpending := h.pending
  have htried := h.tried
  rw [List.forall_mem_cons] at hpending htried
  have hdone : ∀ u, edge v u → u ∈ order ((v, []) :: stack) fin := fun u hu =>
    (htried.1 u hu).resolve_right List.not_mem_nil
  -- a node below `v` is open, so it reaches `v`
  have hbelow : ∀ u, ReflTransGen edge v u → u ∉ order ((v, []) :: stack) fin →
      ∃ w, Mutual edge v w ∧ w ∈ stack.map Prod.fst := by
    intro u hu hout
    obtain ⟨x, y, hvx, hxy, hx, hy⟩ := exists_leaving (P := (· ∈ order ((v, []) :: stack) fin)) hu
      (mem_order.2 (.inl List.mem_cons_self)) hout
    obtain hx | hx := mem_order.1 hx
    · rw [List.map_cons, List.mem_cons] at hx
      obtain rfl | hx := hx
      · exact absurd (hdone y hxy) hy
      · exact ⟨x, ⟨hvx, hpath.1 x hx⟩, hx⟩
    · exact absurd (h.closed x hx y hxy) hy
  constructor
  · rw [horder]
    exact h.nodup
  · exact hpath.2
  · exact hpending.2
  · rw [horder]
    exact htried.2
  · rw [horder, List.forall_mem_cons]
    exact ⟨hdone, h.closed⟩
  · rw [horder, List.forall_mem_cons]
    refine ⟨fun u hu => ?_, fun x hx u hu => ?_⟩
    · by_cases hseen : u ∈ order ((v, []) :: stack) fin
      · -- what stands before `v` in the order is open below it
        by_cases hstack : u ∈ stack.map Prod.fst
        · exact ⟨u, ⟨hu, hpath.1 u hstack⟩, fun _ => .inl rfl, fun hout => absurd hseen hout⟩
        · refine ⟨v, .refl v, fun _ => ?_, fun hout => absurd hseen hout⟩
          by_cases huv : u = v
          · exact .inl huv.symm
          · right
            have hfin : u ∈ fin := by
              simpa [mem_order, huv, hstack] using hseen
            rw [← horder, order]
            exact ((List.singleton_sublist.2 hfin).cons_cons v).trans
              (List.sublist_append_right _ _)
      · obtain ⟨w, hw, hmem⟩ := hbelow u hu hseen
        exact ⟨w, hw, fun hin => absurd hin hseen, fun _ => hmem⟩
    · obtain ⟨w, hw, hseen, hnew⟩ := h.early x hx u hu
      by_cases hin : u ∈ order ((v, []) :: stack) fin
      · exact ⟨w, hw, hseen, fun hout => absurd hin hout⟩
      · have hwmem := hnew hin
        rw [List.map_cons, List.mem_cons] at hwmem
        obtain rfl | hwmem := hwmem
        · obtain ⟨m, hm, hmem⟩ := hbelow u (hw.2.trans hu) hin
          exact ⟨m, hw.trans hm, fun hin' => absurd hin' hin, fun _ => hmem⟩
        · exact ⟨w, hw, fun hin' => absurd hin' hin, fun _ => hwmem⟩

end Steps

/-- The nodes with a number below `c` make up whole components, numbered so that no edge leads to a
smaller number; a negative number marks a node that no component has claimed. -/
structure Numbered (edge : V → V → Prop) (comp : V → ℤ) (c : ℕ) : Prop where
  lt : ∀ v, comp v < c
  same : ∀ u v, 0 ≤ comp u → (Mutual edge u v ↔ comp v = comp u)
  upward : ∀ u v, edge u v → 0 ≤ comp v → 0 ≤ comp u ∧ comp u ≤ comp v
  used : ∀ k < c, ∃ v, comp v = (k : ℤ)

theorem Numbered.none {comp : V → ℤ} (h : ∀ v, comp v < 0) : Numbered edge comp 0 where
  lt := h
  same := fun u _ hu => absurd (h u) (not_lt.2 hu)
  upward := fun _ v _ hv => absurd (h v) (not_lt.2 hv)
  used := fun k hk => absurd hk (Nat.not_lt_zero k)

/-- A walk against the edges from `r` gives the number `c` to the unclaimed nodes it meets. -/
structure Claimed (edge : V → V → Prop) (r : V) (c : ℕ) (comp comp' : V → ℤ) : Prop where
  keep : ∀ v, 0 ≤ comp v → comp' v = comp v
  new : ∀ v, comp v < 0 → comp' v = comp v ∨ comp' v = c ∧ ReflTransGen edge v r
  root : 0 ≤ comp' r
  closed : ∀ u v, comp v < 0 → 0 ≤ comp' v → edge u v → 0 ≤ comp' u

section Claim

variable {r : V} {c : ℕ} {comp comp' : V → ℤ}

/-- Where every unclaimed node that reaches the root is of its component, exactly that component
is claimed. -/
theorem Claimed.mutual_iff (h : Claimed edge r c comp comp') (hnum : Numbered edge comp c)
    (hr : comp r < 0) (hlast : ∀ v, ReflTransGen edge v r → comp v < 0 → Mutual edge v r) {v : V}
    (hv : comp v < 0) : 0 ≤ comp' v ↔ Mutual edge v r := by
  have hunclaimed : ∀ u, Mutual edge u r → comp u < 0 := by
    intro u hu
    by_contra hclaimed
    have heq := (hnum.same u r (not_lt.1 hclaimed)).1 hu
    omega
  constructor
  · intro hclaimed
    obtain heq | ⟨_, hreach⟩ := h.new v hv
    · omega
    · exact hlast v hreach hv
  · rintro ⟨hvr, hrv⟩
    induction hvr using ReflTransGen.head_induction_on with
    | refl => exact h.root
    | @head x y hxy hyr ih =>
        have hy : Mutual edge y r := ⟨hyr, hrv.tail hxy⟩
        exact h.closed x y (hunclaimed y hy) (ih (hunclaimed y hy) hy.2) hxy

theorem Claimed.numbered (h : Claimed edge r c comp comp') (hnum : Numbered edge comp c)
    (hr : comp r < 0) (hlast : ∀ v, ReflTransGen edge v r → comp v < 0 → Mutual edge v r) :
    Numbered edge comp' (c + 1) := by
  have hiff := fun v => h.mutual_iff hnum hr hlast (v := v)
  -- a node that has a number after the walk had it before, or has the new one
  have hcases : ∀ v, 0 ≤ comp' v →
      0 ≤ comp v ∧ comp' v = comp v ∨ comp v < 0 ∧ comp' v = c ∧ Mutual edge v r := by
    intro v hv
    by_cases hold : 0 ≤ comp v
    · exact .inl ⟨hold, h.keep v hold⟩
    · have hneg := not_le.1 hold
      obtain heq | ⟨heq, -⟩ := h.new v hneg
      · omega
      · exact .inr ⟨hneg, heq, (hiff v hneg).1 hv⟩
  have hnew : ∀ v, comp v < 0 → Mutual edge v r → comp' v = c := by
    intro v hv hmut
    have hpos := (hiff v hv).2 hmut
    obtain heq | ⟨heq, -⟩ := h.new v hv
    · omega
    · exact heq
  constructor
  · intro v
    have hlt := hnum.lt v
    by_cases hold : 0 ≤ comp v
    · rw [h.keep v hold]
      omega
    · obtain heq | ⟨heq, -⟩ := h.new v (not_le.1 hold) <;> omega
  · intro u v hu
    obtain ⟨hold, heq⟩ | ⟨hneg, heq, hmut⟩ := hcases u hu
    · rw [hnum.same u v hold, heq]
      constructor
      · intro hv
        rw [h.keep v (by omega), hv]
      · intro hv
        have hlt := hnum.lt u
        obtain ⟨-, heq'⟩ | ⟨-, heq', -⟩ := hcases v (by omega) <;> omega
    · rw [heq]
      constructor
      · intro huv
        have hvr : Mutual edge v r := huv.symm.trans hmut
        refine hnew v ?_ hvr
        by_contra hclaimed
        have hsame := (hnum.same v u (not_lt.1 hclaimed)).1 huv.symm
        omega
      · intro hv
        have hlt := hnum.lt v
        obtain ⟨-, heq'⟩ | ⟨-, -, hmut'⟩ := hcases v (by omega)
        · omega
        · exact hmut.trans hmut'.symm
  · intro u v huv hv
    obtain ⟨hold, heq⟩ | ⟨hneg, heq, hmut⟩ := hcases v hv
    · obtain ⟨hpos, hle⟩ := hnum.upward u v huv hold
      rw [h.keep u hpos]
      omega
    · have hpos := h.closed u v hneg hv huv
      refine ⟨hpos, ?_⟩
      have hlt := hnum.lt u
      obtain ⟨-, heq'⟩ | ⟨-, heq', -⟩ := hcases u hpos <;> omega
  · intro k hk
    by_cases hlast' : k < c
    · obtain ⟨v, hv⟩ := hnum.used k hlast'
      exact ⟨v, by rw [h.keep v (by omega), hv]⟩
    · exact ⟨r, by rw [hnew r hr (.refl r)]; omega⟩

end Claim

theorem Finished.mutual_of_reaches {pre post : List V} {r v : V} {c : ℕ} {comp : V → ℤ}
    (h : Finished edge (pre ++ r :: post)) (hnum : Numbered edge comp c)
    (hpre : ∀ u ∈ pre, 0 ≤ comp u) (hmem : v ∈ pre ++ r :: post) (hv : comp v < 0)
    (hreach : ReflTransGen edge v r) : Mutual edge v r := by
  obtain ⟨w, hw, hbefore⟩ := h.early v hmem r hreach
  by_cases hwr : w = r
  · rw [← hwr]
    exact hw
  · have hclaimed := hpre w (hbefore.mem_of_append h.nodup hwr)
    have hsame := (hnum.same w v hclaimed).1 hw.symm
    omega

section BreadthFirst

variable [DecidableEq V] {succ : V → List V} {inside : V → Prop} [DecidablePred inside]

/-- What of `ws` is found for the first time, in order and each node once. -/
def discoveries (inside : V → Prop) [DecidablePred inside] (found ws : List V) : List V :=
  (ws.filter fun w => inside w ∧ w ∉ found).eraseDups

/-- A breadth-first walk with a queue of found nodes and the order in which nodes were found, to
the order in the end. -/
inductive BreadthFirst (succ : V → List V) (inside : V → Prop) [DecidablePred inside] :
    List V → List V → List V → Prop
  | done (found : List V) : BreadthFirst succ inside [] found found
  | visit {v : V} {queue found result : List V}
      (h : BreadthFirst succ inside (queue ++ discoveries inside found (succ v))
        (found ++ discoveries inside found (succ v)) result) :
      BreadthFirst succ inside (v :: queue) found result

theorem mem_discoveries {found ws : List V} {w : V} :
    w ∈ discoveries inside found ws ↔ w ∈ ws ∧ inside w ∧ w ∉ found := by
  rw [discoveries, List.mem_eraseDups, List.mem_filter, decide_eq_true_eq]

theorem nodup_eraseDups (l : List V) : l.eraseDups.Nodup := by
  induction hn : l.length using Nat.strong_induction_on generalizing l with
  | _ n ih =>
      cases l with
      | nil => exact List.nodup_nil
      | cons a l =>
          rw [List.eraseDups_cons, List.nodup_cons, List.mem_eraseDups, List.mem_filter]
          refine ⟨by simp, ih _ ?_ _ rfl⟩
          rw [← hn, List.length_cons]
          exact Nat.lt_succ_of_le (List.length_filter_le _ _)

variable {queue found result : List V}

theorem BreadthFirst.subset (h : BreadthFirst succ inside queue found result) :
    found ⊆ result := by
  induction h with
  | done found => exact List.Subset.refl _
  | visit h ih => exact fun w hw => ih (List.mem_append_left _ hw)

theorem BreadthFirst.nodup (h : BreadthFirst succ inside queue found result)
    (hfound : found.Nodup) : result.Nodup := by
  induction h with
  | done found => exact hfound
  | @visit v queue found result h ih =>
      refine ih (hfound.append (nodup_eraseDups _) fun w hw hnew => ?_)
      exact (mem_discoveries.1 hnew).2.2 hw

theorem BreadthFirst.sound {P : V → Prop} (h : BreadthFirst succ inside queue found result)
    (hqueue : ∀ v ∈ queue, P v) (hfound : ∀ v ∈ found, P v)
    (hstep : ∀ v w, P v → w ∈ succ v → inside w → P w) : ∀ v ∈ result, P v := by
  induction h with
  | done found => exact hfound
  | @visit v queue found result h ih =>
      have hnew : ∀ w ∈ discoveries inside found (succ v), P w := fun w hw => by
        obtain ⟨hw, hin, -⟩ := mem_discoveries.1 hw
        exact hstep v w (hqueue v List.mem_cons_self) hw hin
      refine ih (fun w hw => ?_) fun w hw => ?_
      · obtain hw | hw := List.mem_append.1 hw
        · exact hqueue w (List.mem_cons_of_mem _ hw)
        · exact hnew w hw
      · obtain hw | hw := List.mem_append.1 hw
        · exact hfound w hw
        · exact hnew w hw

theorem BreadthFirst.closed (h : BreadthFirst succ inside queue found result)
    (hfound : ∀ v ∈ found, v ∈ queue ∨ ∀ w ∈ succ v, inside w → w ∈ found) :
    ∀ v ∈ result, ∀ w ∈ succ v, inside w → w ∈ result := by
  induction h with
  | done found =>
      intro v hv
      exact (hfound v hv).resolve_left List.not_mem_nil
  | @visit v queue found result h ih =>
      have hvisited : ∀ w ∈ succ v, inside w → w ∈ found ++ discoveries inside found (succ v) := by
        intro w hw hin
        by_cases hmem : w ∈ found
        · exact List.mem_append_left _ hmem
        · exact List.mem_append_right _ (mem_discoveries.2 ⟨hw, hin, hmem⟩)
      refine ih fun u hu => ?_
      obtain hu | hu := List.mem_append.1 hu
      · obtain hu | hu := hfound u hu
        · obtain rfl | hu := List.mem_cons.1 hu
          · exact .inr hvisited
          · exact .inl (List.mem_append_left _ hu)
        · exact .inr fun w hw hin => List.mem_append_left _ (hu w hw hin)
      · exact .inl (List.mem_append_right _ hu)

theorem BreadthFirst.mem_iff {v : V} (hedge : ∀ u w, edge u w ↔ w ∈ succ u)
    (hinside : ∀ u, inside u ↔ Mutual edge v u) (h : BreadthFirst succ inside [v] [v] result)
    (u : V) : u ∈ result ↔ Mutual edge v u := by
  constructor
  · refine h.sound (P := Mutual edge v) (fun w hw => ?_) (fun w hw => ?_)
      (fun x w _ _ hw => (hinside w).1 hw) u
    · rw [List.mem_singleton.1 hw]
      exact .refl v
    · rw [List.mem_singleton.1 hw]
      exact .refl v
  · rintro ⟨hvu, huv⟩
    induction hvu with
    | refl => exact h.subset List.mem_cons_self
    | @tail x y hvx hxy ih =>
        refine h.closed (fun w hw => .inl hw) x (ih (.head hxy huv)) y ((hedge x y).1 hxy) ?_
        exact (hinside y).2 ⟨hvx.tail hxy, huv⟩

end BreadthFirst

end Kaikai.GraphSearch
