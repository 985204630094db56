import Kaikai.GraphSearch
import Kaikai.Scc

namespace Kaikai.Scc

open Relation (ReflTransGen)
open Kaikai.GraphSearch

variable {n : ℕ} {es : List (Fin n × Fin n)}

def Edge (es : List (Fin n × Fin n)) (u v : Fin n) : Prop := (u, v) ∈ es

/-- The targets of a node in edge order. -/
def targets (es : List (Fin n × Fin n)) (v : Fin n) : List (Fin n) :=
  (es.filter fun e => e.1 = v).map Prod.snd

/-- The components partition the nodes into the classes of mutual reachability, and an edge's target
lies in the source's component or an earlier one. -/
structure ComponentsExact (es : List (Fin n × Fin n)) (cs : List (List (Fin n))) : Prop where
  nonempty : [] ∉ cs
  partition : cs.flatten.Perm (List.finRange n)
  same : ∀ u v, (∃ c ∈ cs, u ∈ c ∧ v ∈ c) ↔ Mutual (Edge es) u v
  targetsFirst : ∀ (i j : ℕ) (ci cj : List (Fin n)), cs[i]? = some ci → cs[j]? = some cj →
    ∀ u ∈ ci, ∀ v ∈ cj, Edge es u v → j ≤ i

/-- The least node of a component of two or more. -/
def LeastOfGroup (es : List (Fin n × Fin n)) (v : Fin n) : Prop :=
  (∀ u, Mutual (Edge es) v u → v ≤ u) ∧ ∃ u, u ≠ v ∧ Mutual (Edge es) v u

open Classical in
/-- A component against the order of a breadth-first walk from `v` that stays inside it. -/
def IsGroup (es : List (Fin n × Fin n)) (v : Fin n) (g : List (Fin n)) : Prop :=
  g.Nodup ∧ (∀ u, u ∈ g ↔ Mutual (Edge es) v u) ∧
    ∃ walk, BreadthFirst (targets es) (Mutual (Edge es) v) [v] [v] walk ∧ g = walk.reverse

/-- One group for each component of two or more, by least node. -/
def GroupsExact (es : List (Fin n × Fin n)) (gs : List (List (Fin n))) : Prop :=
  ∃ leasts : List (Fin n), leasts.Pairwise (· < ·) ∧ (∀ v, v ∈ leasts ↔ LeastOfGroup es v) ∧
    List.Forall₂ (IsGroup es) leasts gs

theorem sccAdjFill_eq (es : List (Fin n × Fin n)) (adj : Fin n → List (Fin n)) (v : Fin n) :
    sccAdjFill es adj v = (targets es v).reverse ++ adj v := by
  induction es generalizing adj with
  | nil => rfl
  | cons e es ih =>
      obtain ⟨a, b⟩ := e
      rw [sccAdjFill, ih, targets, targets, List.filter_cons]
      by_cases h : a = v
      · subst h
        simp
      · rw [Function.update_of_ne (Ne.symm h), if_neg (by simpa using h)]

theorem sccAdjacency_eq (es : List (Fin n × Fin n)) : sccAdjacency es = targets es := by
  funext v
  rw [sccAdjacency, sccAdjFill_eq, List.append_nil, targets, targets, List.filter_reverse,
    List.map_reverse, List.reverse_reverse]

theorem mem_targets {u v : Fin n} : v ∈ targets es u ↔ Edge es u v := by
  simp [targets, Edge]

section FinishOrder

variable {succ : Fin n → List (Fin n)} {edge : Fin n → Fin n → Prop}

/-- The marks are on the seen nodes. -/
def Marks (seen : Fin n → Bool) (stack : Stack (Fin n)) (fin : List (Fin n)) : Prop :=
  ∀ v, seen v = true ↔ v ∈ order stack fin

theorem Marks.enter {seen : Fin n → Bool} {stack stack' : Stack (Fin n)} {fin ws : List (Fin n)}
    {w : Fin n} (h : Marks seen stack fin) (hnodes : stack'.map Prod.fst = stack.map Prod.fst) :
    Marks (Function.update seen w true) ((w, ws) :: stack') fin := by
  intro v
  rw [mem_order, List.map_cons, List.mem_cons, hnodes, or_assoc, ← mem_order, ← h v]
  by_cases hv : v = w
  · simp [hv]
  · simp [hv]

theorem sccDfs_spec (hsucc : ∀ u v, v ∈ succ u ↔ edge u v) (stack : Stack (Fin n))
    (seen : Fin n → Bool) (fin : List (Fin n)) (h : Walking edge stack fin)
    (hseen : Marks seen stack fin) :
    Walking edge [] (sccDfs succ stack seen fin).2 ∧
      Marks (sccDfs succ stack seen fin).1 [] (sccDfs succ stack seen fin).2 ∧
      ∀ v, seen v = true → (sccDfs succ stack seen fin).1 v = true := by
  fun_induction sccDfs succ stack seen fin with
  | case1 seen fin => exact ⟨h, hseen, fun v hv => hv⟩
  | case2 seen fin v rest ih =>
      refine ih h.pop fun u => ?_
      rw [hseen u]
      simp [order]
  | case3 seen fin v w more rest hw ih => exact ih (h.skip ((hseen w).1 hw)) hseen
  | case4 seen fin v w more rest hw ih =>
      have hout : w ∉ order ((v, w :: more) :: rest) fin := fun hin => hw ((hseen w).2 hin)
      obtain ⟨hwalk, hmarks, hmono⟩ := ih (h.push hout (hsucc w)) (hseen.enter rfl)
      refine ⟨hwalk, hmarks, fun u hu => hmono u ?_⟩
      by_cases huw : u = w
      · rw [huw, Function.update_self]
      · rw [Function.update_of_ne huw]
        exact hu

theorem sccDfsRoots_spec (hsucc : ∀ u v, v ∈ succ u ↔ edge u v) (i : ℕ) (seen : Fin n → Bool)
    (fin : List (Fin n)) (h : Walking edge [] fin) (hseen : Marks seen [] fin)
    (hbelow : ∀ v : Fin n, v.1 < i → seen v = true) :
    Finished edge (sccDfsRoots succ i seen fin) ∧ ∀ v, v ∈ sccDfsRoots succ i seen fin := by
  fun_induction sccDfsRoots succ i seen fin with
  | case1 i seen fin hi hmark ih =>
      refine ih h hseen fun v hv => ?_
      obtain hv | hv := Nat.lt_succ_iff_lt_or_eq.1 hv
      · exact hbelow v hv
      · have hvi : v = ⟨i, hi⟩ := Fin.ext hv
        rw [hvi]
        exact hmark
  | case2 i seen fin hi hmark seen1 fin1 heq ih =>
      have hout : (⟨i, hi⟩ : Fin n) ∉ order [] fin := fun hin => hmark ((hseen _).2 hin)
      obtain ⟨hwalk, hmarks, hmono⟩ := sccDfs_spec hsucc _ _ _ (h.root hout (hsucc ⟨i, hi⟩))
        (hseen.enter rfl)
      rw [heq] at hwalk hmarks hmono
      refine ih hwalk hmarks fun v hv => hmono v ?_
      by_cases hvi : v = ⟨i, hi⟩
      · rw [hvi, Function.update_self]
      · rw [Function.update_of_ne hvi]
        refine hbelow v ?_
        have hne : v.1 ≠ i := fun heq => hvi (Fin.ext heq)
        omega
  | case3 i seen fin hi =>
      refine ⟨h.finished, fun v => ?_⟩
      have hv := (hseen v).1 (hbelow v (by omega))
      exact hv

theorem sccFinishOrder_spec (hsucc : ∀ u v, v ∈ succ u ↔ edge u v) :
    Finished edge (sccFinishOrder succ) ∧ ∀ v, v ∈ sccFinishOrder succ :=
  sccDfsRoots_spec hsucc 0 _ [] .nil (fun v => by simp [order])
    fun v hv => absurd hv (Nat.not_lt_zero _)

end FinishOrder

section Numbers

variable {pred : Fin n → List (Fin n)} {edge : Fin n → Fin n → Prop}

/-- A claim under way: every node that is claimed anew reaches the root, and its predecessors are
claimed or still to be tried. -/
structure Claiming (edge : Fin n → Fin n → Prop) (r : Fin n) (c : ℕ) (comp : Fin n → ℤ)
    (todo : List (Fin n)) (comp' : Fin n → ℤ) : Prop where
  keep : ∀ v, 0 ≤ comp v → comp' v = comp v
  new : ∀ v, comp v < 0 → comp' v = comp v ∨ comp' v = c ∧ ReflTransGen edge v r
  reach : ∀ v ∈ todo, ReflTransGen edge v r
  root : 0 ≤ comp' r ∨ r ∈ todo
  closed : ∀ u v, comp v < 0 → 0 ≤ comp' v → edge u v → 0 ≤ comp' u ∨ u ∈ todo

theorem sccClaim_spec (hpred : ∀ u v, u ∈ pred v ↔ edge u v) {r : Fin n} {comp0 : Fin n → ℤ}
    (todo : List (Fin n)) (comp : Fin n → ℤ) (c : ℕ) (h : Claiming edge r c comp0 todo comp) :
    Claimed edge r c comp0 (sccClaim pred todo comp c) := by
  fun_induction sccClaim pred todo comp c with
  | case1 comp =>
      exact ⟨h.keep, h.new, h.root.resolve_right List.not_mem_nil, fun u v hv hv' huv =>
        (h.closed u v hv hv' huv).resolve_right List.not_mem_nil⟩
  | case2 comp v rest hv ih =>
      refine ih ⟨h.keep, h.new, fun u hu => h.reach u (List.mem_cons_of_mem _ hu), ?_, ?_⟩
      · obtain hr | hr := h.root
        · exact .inl hr
        · obtain rfl | hr := List.mem_cons.1 hr
          · exact .inl hv
          · exact .inr hr
      · intro x y hy hy' hxy
        obtain hx | hx := h.closed x y hy hy' hxy
        · exact .inl hx
        · obtain rfl | hx := List.mem_cons.1 hx
          · exact .inl hv
          · exact .inr hx
  | case3 comp v rest hv ih =>
      have hreach := h.reach v List.mem_cons_self
      have hvneg : comp v < 0 := not_le.1 hv
      have hset : ∀ u, 0 ≤ comp u → 0 ≤ Function.update comp v (c : ℤ) u := by
        intro u hu
        by_cases huv : u = v
        · simp [huv]
        · rw [Function.update_of_ne huv]
          exact hu
      have htodo : ∀ u, 0 ≤ comp u ∨ u ∈ v :: rest →
          0 ≤ Function.update comp v (c : ℤ) u ∨ u ∈ pred v ++ rest := by
        rintro u (hu | hu)
        · exact .inl (hset u hu)
        · obtain rfl | hu := List.mem_cons.1 hu
          · simp
          · exact .inr (List.mem_append_right _ hu)
      refine ih ⟨fun u hu => ?_, fun u hu => ?_, fun u hu => ?_, htodo r h.root, ?_⟩
      · have hkeep := h.keep u hu
        by_cases huv : u = v
        · subst huv
          omega
        · rw [Function.update_of_ne huv, hkeep]
      · by_cases huv : u = v
        · rw [huv, Function.update_self]
          exact .inr ⟨rfl, hreach⟩
        · rw [Function.update_of_ne huv]
          exact h.new u hu
      · obtain hu | hu := List.mem_append.1 hu
        · exact .head ((hpred u v).1 hu) hreach
        · exact h.reach u (List.mem_cons_of_mem _ hu)
      · intro x y hy hy' hxy
        by_cases hyv : y = v
        · subst hyv
          exact .inr (List.mem_append_left _ ((hpred x y).2 hxy))
        · rw [Function.update_of_ne hyv] at hy'
          exact htodo x (h.closed x y hy hy' hxy)

theorem sccAssign_spec (hpred : ∀ u v, u ∈ pred v ↔ edge u v) {fin : List (Fin n)}
    (hfin : Finished edge fin) (hall : ∀ v, v ∈ fin) (pre rest : List (Fin n))
    (hsplit : fin = pre ++ rest) (comp : Fin n → ℤ) (c : ℕ) (hnum : Numbered edge comp c)
    (hpre : ∀ v ∈ pre, 0 ≤ comp v) :
    ∃ k, Numbered edge (sccAssign pred rest comp c) k ∧
      ∀ v, 0 ≤ sccAssign pred rest comp c v := by
  induction rest generalizing pre comp c with
  | nil =>
      rw [List.append_nil] at hsplit
      exact ⟨c, hnum, fun v => hpre v (hsplit ▸ hall v)⟩
  | cons r rest ih =>
      have hsplit' : fin = (pre ++ [r]) ++ rest := by rw [hsplit]; simp
      rw [sccAssign]
      split_ifs with hr
      · refine ih (pre ++ [r]) hsplit' comp c hnum fun v hv => ?_
        obtain hv | hv := List.mem_append.1 hv
        · exact hpre v hv
        · rw [List.mem_singleton.1 hv]
          exact hr
      · have hrneg : comp r < 0 := not_le.1 hr
        have hclaim : Claimed edge r c comp (sccClaim pred [r] comp c) := by
          refine sccClaim_spec hpred [r] comp c ⟨fun v _ => rfl, fun v _ => .inl rfl, ?_, ?_, ?_⟩
          · intro v hv
            rw [List.mem_singleton.1 hv]
          · exact .inr List.mem_cons_self
          · intro u v hv hv'
            omega
        have hlast : ∀ v, ReflTransGen edge v r → comp v < 0 → Mutual edge v r := fun v hv hneg =>
          Finished.mutual_of_reaches (hsplit ▸ hfin) hnum hpre (hsplit ▸ hall v) hneg hv
        refine ih (pre ++ [r]) hsplit' _ (c + 1) (hclaim.numbered hnum hrneg hlast) fun v hv => ?_
        obtain hv | hv := List.mem_append.1 hv
        · rw [hclaim.keep v (hpre v hv)]
          exact hpre v hv
        · rw [List.mem_singleton.1 hv]
          exact hclaim.root

end Numbers

theorem mem_targets_swap {u v : Fin n} :
    u ∈ targets (es.map fun e => (e.2, e.1)) v ↔ Edge es u v := by
  rw [mem_targets, Edge, Edge, List.mem_map]
  constructor
  · rintro ⟨⟨a, b⟩, hab, heq⟩
    cases heq
    exact hab
  · intro h
    exact ⟨(u, v), h, rfl⟩

theorem componentIds_spec (es : List (Fin n × Fin n)) :
    ∃ k, Numbered (Edge es) (componentIds es) k ∧ ∀ v, 0 ≤ componentIds es v := by
  have htargets : ∀ u v, v ∈ targets es u ↔ Edge es u v := fun u v => mem_targets
  obtain ⟨hfin, hall⟩ := sccFinishOrder_spec htargets
  rw [componentIds, sccAdjacency_eq, sccAdjacency_eq, sccComponentIds]
  exact sccAssign_spec (fun u v => mem_targets_swap) hfin hall [] _ rfl _ 0
    (.none fun v => by decide) fun v hv => absurd hv List.not_mem_nil

section Rows

variable {comp : Fin n → ℤ}

theorem sccCount_spec (comp : Fin n → ℤ) (i : ℕ) (h : i ≤ n) (k : ℤ) :
    (k < sccCount comp i h k ∧ ∀ v : Fin n, v.1 < i → comp v < sccCount comp i h k) ∧
      (sccCount comp i h k = k + 1 ∨ ∃ v, sccCount comp i h k = comp v + 1) := by
  induction i generalizing k with
  | zero => exact ⟨⟨by rw [sccCount]; omega, fun v hv => absurd hv (Nat.not_lt_zero _)⟩, .inl rfl⟩
  | succ i ih =>
      obtain ⟨⟨hk, hlt⟩, hatt⟩ := ih (Nat.le_of_succ_le h)
        (if comp ⟨i, h⟩ > k then comp ⟨i, h⟩ else k)
      rw [sccCount]
      have hmax : k ≤ (if comp ⟨i, h⟩ > k then comp ⟨i, h⟩ else k) ∧
          comp ⟨i, h⟩ ≤ if comp ⟨i, h⟩ > k then comp ⟨i, h⟩ else k := by
        split_ifs <;> omega
      refine ⟨⟨by omega, fun v hv => ?_⟩, ?_⟩
      · obtain hv | hv := Nat.lt_succ_iff_lt_or_eq.1 hv
        · exact hlt v hv
        · have hvi : v = ⟨i, h⟩ := Fin.ext hv
          rw [hvi]
          omega
      · obtain heq | hv := hatt
        · rw [heq]
          split_ifs
          · exact .inr ⟨_, rfl⟩
          · exact .inl rfl
        · exact .inr hv

theorem sccCount_of_numbered {edge : Fin n → Fin n → Prop} {c : ℕ} (h : Numbered edge comp c)
    (hall : ∀ v, 0 ≤ comp v) (hn : 0 < n) : sccCount comp n (Nat.le_refl n) 0 = c := by
  obtain ⟨⟨hpos, hlt⟩, hatt⟩ := sccCount_spec comp n (Nat.le_refl n) 0
  have hc : 0 < c := by
    have h1 := hall ⟨0, hn⟩
    have h2 := h.lt ⟨0, hn⟩
    omega
  obtain ⟨v, hv⟩ := h.used (c - 1) (by omega)
  have hle := hlt v v.2
  obtain heq | ⟨u, heq⟩ := hatt
  · omega
  · have hu := h.lt u
    omega

theorem sccMembers_eq (comp : Fin n → ℤ) (i : ℕ) (h : i ≤ n) (acc : ℤ → List (Fin n)) (c : ℤ) :
    sccMembers comp i h acc c =
      (((List.finRange i).map (Fin.castLE h)).filter fun v => comp v = c) ++ acc c := by
  induction i generalizing acc with
  | zero => simp [sccMembers]
  | succ i ih =>
      rw [sccMembers, ih, List.finRange_succ_last, List.map_append, List.filter_append,
        List.append_assoc, List.map_map]
      congr 1
      by_cases hc : comp ⟨i, h⟩ = c
      · subst hc
        have hlast : Fin.castLE h (Fin.last i) = ⟨i, h⟩ := rfl
        simp [hlast]
      · have hlast : Fin.castLE h (Fin.last i) = ⟨i, h⟩ := rfl
        rw [Function.update_of_ne (Ne.symm hc)]
        simp [hlast, hc]

theorem sccRows_eq (members : ℤ → List (Fin n)) (c : ℤ) (k : ℤ) (acc : List (List (Fin n))) :
    sccRows members c k acc =
      ((List.range (k - c).toNat).map fun j : ℕ => members (c + j)).reverse ++ acc := by
  fun_induction sccRows members c k acc with
  | case1 c acc hck =>
      have hzero : (k - c).toNat = 0 := by omega
      rw [hzero]
      rfl
  | case2 c acc hck ih =>
      have hsucc : (k - c).toNat = (k - (c + 1)).toNat + 1 := by omega
      rw [ih, hsucc, List.range_succ_eq_map, List.map_cons, List.map_map, List.reverse_cons,
        List.append_assoc]
      congr 2
      · refine List.map_congr_left fun j _ => ?_
        rw [Function.comp_apply]
        congr 1
        push_cast
        omega
      · simp

theorem sccByComponent_eq (comp : Fin n → ℤ) :
    sccByComponent comp =
      ((List.range (sccCount comp n (Nat.le_refl n) 0).toNat).map fun j : ℕ =>
        (List.finRange n).filter fun v => comp v = j).reverse := by
  rw [sccByComponent, sccRows_eq, List.append_nil, Int.sub_zero]
  congr 1
  refine List.map_congr_left fun j _ => ?_
  rw [sccMembers_eq, List.append_nil, Int.zero_add]
  congr 1
  exact List.map_id _

theorem componentsExact (es : List (Fin n × Fin n)) (hn : 0 < n) :
    ComponentsExact es (sccComponents n es) := by
  obtain ⟨k, hnum, hall⟩ := componentIds_spec es
  have hrow : ∀ j v, v ∈ ((List.finRange n).filter fun v => componentIds es v = (j : ℕ)) ↔
      componentIds es v = j := by simp
  have hlt : ∀ v, (componentIds es v).toNat < k := fun v => by
    have := hnum.lt v
    have := hall v
    omega
  have hnat : ∀ v, componentIds es v = (componentIds es v).toNat := fun v =>
    (Int.toNat_of_nonneg (hall v)).symm
  have hsame : ∀ u v, componentIds es v = componentIds es u ↔ Mutual (Edge es) u v := fun u v =>
    (hnum.same u v (hall u)).symm
  rw [sccComponents, sccByComponent_eq, sccCount_of_numbered hnum hall hn, Int.toNat_natCast]
  constructor
  · intro hnil
    obtain ⟨j, hj, heq⟩ := List.mem_map.1 (List.mem_reverse.1 hnil)
    obtain ⟨v, hv⟩ := hnum.used j (List.mem_range.1 hj)
    have hmem := (hrow j v).2 hv
    rw [heq] at hmem
    exact List.not_mem_nil hmem
  · refine (List.perm_ext_iff_of_nodup ?_ (List.nodup_finRange n)).2 fun v => ?_
    · rw [List.nodup_flatten]
      constructor
      · intro l hl
        obtain ⟨j, hj, rfl⟩ := List.mem_map.1 (List.mem_reverse.1 hl)
        exact (List.nodup_finRange n).filter _
      · rw [List.pairwise_reverse, List.pairwise_map]
        refine List.pairwise_lt_range.imp fun {a b} hab v hb ha => ?_
        rw [hrow] at ha hb
        omega
    · simp only [List.mem_finRange, iff_true, List.mem_flatten, List.mem_reverse, List.mem_map,
        List.mem_range]
      exact ⟨_, ⟨_, hlt v, rfl⟩, (hrow _ v).2 (hnat v)⟩
  · intro u v
    rw [← hsame]
    constructor
    · rintro ⟨l, hl, hu, hv⟩
      obtain ⟨j, hj, rfl⟩ := List.mem_map.1 (List.mem_reverse.1 hl)
      rw [hrow] at hu hv
      rw [hu, hv]
    · intro huv
      refine ⟨_, List.mem_reverse.2 (List.mem_map.2 ⟨_, List.mem_range.2 (hlt u), rfl⟩),
        (hrow _ u).2 (hnat u), (hrow _ v).2 ?_⟩
      rw [huv]
      exact hnat u
  · intro i j ci cj hi hj u hu v hv huv
    obtain ⟨hik, hi⟩ := List.getElem?_eq_some_iff.1 hi
    obtain ⟨hjk, hj⟩ := List.getElem?_eq_some_iff.1 hj
    simp only [List.length_reverse, List.length_map, List.length_range] at hik hjk
    rw [List.getElem_reverse, List.getElem_map, List.getElem_range] at hi hj
    rw [← hi, hrow] at hu
    rw [← hj, hrow] at hv
    have hle := (hnum.upward u v huv (hall v)).2
    simp only [List.length_map, List.length_range] at hu hv
    omega

theorem sccComponents_zero (es : List (Fin 0 × Fin 0)) : sccComponents 0 es = [[]] := by
  rw [sccComponents, sccByComponent_eq]
  rfl

end Rows

section Groups

variable {succ : Fin n → List (Fin n)} {comp : Fin n → ℤ} {c : ℤ}
  {inside : Fin n → Prop} [DecidablePred inside]

/-- The nodes that the queue still brings into the walk, each at its first place. -/
def awaited (inside : Fin n → Prop) [DecidablePred inside] (done : Fin n → Bool)
    (queue : List (Fin n)) : List (Fin n) :=
  (queue.filter fun v => inside v ∧ ¬ done v = true).eraseDups

theorem awaited_skip {done : Fin n → Bool} {v : Fin n} (h : done v = true ∨ ¬ inside v)
    (queue : List (Fin n)) : awaited inside done (v :: queue) = awaited inside done queue := by
  rw [awaited, awaited, List.filter_cons_of_neg]
  rw [decide_eq_true_eq]
  tauto

/-- A node that is dequeued for the first time leaves the nodes behind it and the discoveries among
its successors. -/
theorem awaited_visit (succ : Fin n → List (Fin n)) {done : Fin n → Bool} {acc : List (Fin n)}
    (rest : List (Fin n)) {v : Fin n} (hv : inside v) (hnew : ¬ done v = true) (hacc : ∀ u, inside u → (done u = true ↔ u ∈ acc)) :
    ∃ queue, awaited inside done (v :: rest) = v :: queue ∧
      awaited inside (Function.update done v true) (rest ++ succ v) =
        queue ++ discoveries inside (acc.reverse ++ v :: queue) (succ v) := by
  refine ⟨((rest.filter fun u => inside u ∧ ¬ done u = true).filter fun u => !u == v).eraseDups,
    ?_, ?_⟩
  · rw [awaited, List.filter_cons_of_pos (by simp [hv, hnew]), List.eraseDups_cons]
  · have hupdate : ∀ u, (inside u ∧ ¬ Function.update done v true u = true) ↔
        (inside u ∧ ¬ done u = true) ∧ u ≠ v := by
      intro u
      by_cases huv : u = v
      · simp [huv]
      · simp [huv]
    rw [awaited, List.filter_append, List.eraseDups_append, discoveries]
    congr 1
    · rw [List.filter_filter]
      congr 1
      refine List.filter_congr fun u _ => ?_
      rw [Bool.eq_iff_iff]
      simp only [decide_eq_true_eq, Bool.and_eq_true, Bool.not_eq_true', beq_eq_false_iff_ne,
        hupdate]
      tauto
    · congr 1
      rw [List.removeAll, List.filter_filter]
      refine List.filter_congr fun u _ => ?_
      rw [Bool.eq_iff_iff]
      simp only [Bool.and_eq_true, Bool.not_eq_true', decide_eq_true_eq, List.elem_eq_mem,
        decide_eq_false_iff_not, List.mem_filter, List.mem_append, List.mem_reverse, List.mem_cons,
        List.mem_eraseDups, beq_eq_false_iff_ne, hupdate]
      have := hacc u
      tauto

/-- The walk that marks nodes as they leave its queue finds them in the order of the one that marks
them as they enter. -/
theorem sccBfs_spec (succ : Fin n → List (Fin n)) (hinside : ∀ v, inside v ↔ comp v = c) (front back : List (Fin n))
    (done : Fin n → Bool) (acc : List (Fin n)) (hsub : ∀ v ∈ acc, done v = true)
    (hacc : ∀ v, inside v → (done v = true ↔ v ∈ acc)) :
    ∃ walk, BreadthFirst succ inside (awaited inside done (front ++ back.reverse))
        (acc.reverse ++ awaited inside done (front ++ back.reverse)) walk ∧
      (sccBfs succ comp c front back done acc).1 = walk.reverse ∧
      ∀ v, (sccBfs succ comp c front back done acc).2 v = true ↔
        done v = true ∨ v ∈ (sccBfs succ comp c front back done acc).1 := by
  fun_induction sccBfs succ comp c front back done acc with
  | case1 done acc =>
      refine ⟨acc.reverse, ?_, (List.reverse_reverse acc).symm, fun v => ?_⟩
      · change BreadthFirst succ inside [] (acc.reverse ++ []) acc.reverse
        rw [List.append_nil]
        exact .done _
      · constructor
        · exact .inl
        · rintro (h | h)
          · exact h
          · exact hsub v h
  | case2 done acc b back ih =>
      have h := ih hsub hacc
      rw [List.reverse_nil, List.append_nil] at h
      exact h
  | case3 back done acc v rest hskip ih =>
      rw [List.cons_append, awaited_skip (hskip.imp id fun h hin => h ((hinside v).1 hin))]
      exact ih hsub hacc
  | case4 back done acc v rest hvisit ih =>
      rw [not_or, not_not] at hvisit
      have hv : inside v := (hinside v).2 hvisit.2
      have hsub' : ∀ u ∈ v :: acc, Function.update done v true u = true := by
        intro u hu
        by_cases huv : u = v
        · rw [huv, Function.update_self]
        · rw [Function.update_of_ne huv]
          exact hsub u ((List.mem_cons.1 hu).resolve_left huv)
      have hacc' : ∀ u, inside u → (Function.update done v true u = true ↔ u ∈ v :: acc) := by
        intro u hu
        by_cases huv : u = v
        · simp [huv]
        · rw [Function.update_of_ne huv, List.mem_cons, hacc u hu]
          simp [huv]
      obtain ⟨walk, hwalk, hms, hdone⟩ := ih hsub' hacc'
      obtain ⟨queue, hbefore, hafter⟩ := awaited_visit succ (rest ++ back.reverse) hv
        hvisit.1 hacc
      rw [List.reverse_append, List.reverse_reverse, ← List.append_assoc, hafter] at hwalk
      refine ⟨walk, ?_, hms, fun u => ?_⟩
      · rw [List.cons_append, hbefore]
        refine .visit ?_
        simpa using hwalk
      · rw [hdone u]
        by_cases huv : u = v
        · subst huv
          have hmem : u ∈ walk := hwalk.subset (by simp)
          simp [hms, hmem]
        · rw [Function.update_of_ne huv]

theorem sccBfs_isGroup (hcomp : ∀ u v, comp v = comp u ↔ Mutual (Edge es) u v) {v : Fin n}
    {done : Fin n → Bool} (hdone : ∀ u, Mutual (Edge es) v u → ¬ done u = true) :
    IsGroup es v (sccBfs (targets es) comp (comp v) [v] [] done []).1 ∧
      ∀ u, (sccBfs (targets es) comp (comp v) [v] [] done []).2 u = true ↔
        done u = true ∨ Mutual (Edge es) v u := by
  classical
  obtain ⟨walk, hwalk, hms, hmarks⟩ := sccBfs_spec (targets es)
    (fun u => (hcomp v u).symm) [v] [] done []
    (fun u hu => absurd hu List.not_mem_nil) (fun u hu => by simp [hdone u hu])
  have hqueue : awaited (Mutual (Edge es) v) done ([v] ++ [].reverse) = [v] := by
    have hself : ¬ done v = true := hdone v (.refl v)
    rw [List.reverse_nil, List.append_nil, awaited, List.filter_cons_of_pos]
    · rfl
    · simp [hself, Mutual.refl]
  rw [hqueue, List.reverse_nil, List.nil_append] at hwalk
  have hmem : ∀ u, u ∈ walk ↔ Mutual (Edge es) v u :=
    hwalk.mem_iff (fun u w => mem_targets.symm) fun u => Iff.rfl
  refine ⟨⟨?_, fun u => ?_, walk, ?_, hms⟩, fun u => ?_⟩
  · rw [hms, List.nodup_reverse]
    exact hwalk.nodup (List.nodup_singleton v)
  · rw [hms, List.mem_reverse, hmem]
  · convert hwalk
  · rw [hmarks, hms, List.mem_reverse, hmem]

theorem IsGroup.two_le_iff {v : Fin n} {g : List (Fin n)} (h : IsGroup es v g) :
    2 ≤ g.length ↔ ∃ u, u ≠ v ∧ Mutual (Edge es) v u := by
  obtain ⟨hnodup, hmem, -⟩ := h
  have hv : v ∈ g := (hmem v).2 (.refl v)
  constructor
  · intro hlen
    by_contra hnone
    have hsub : g ⊆ [v] := fun u hu => by
      by_contra huv
      exact hnone ⟨u, fun heq => huv (by simp [heq]), (hmem u).1 hu⟩
    have hle := (hnodup.subperm hsub).length_le
    rw [List.length_singleton] at hle
    omega
  · rintro ⟨u, huv, hu⟩
    have hsub : [u, v] ⊆ g := by
      intro w hw
      obtain rfl | hw := List.mem_cons.1 hw
      · exact (hmem w).2 hu
      · rw [List.mem_singleton.1 hw]
        exact hv
    exact (List.Nodup.subperm (by simp [huv]) hsub).length_le

theorem sccGroupsAt_spec (hcomp : ∀ u v, comp v = comp u ↔ Mutual (Edge es) u v) (i : ℕ)
    (done : Fin n → Bool) (acc : List (List (Fin n)))
    (hdone : ∀ v, done v = true ↔ ∃ u : Fin n, u.1 < i ∧ Mutual (Edge es) u v)
    (leasts : List (Fin n)) (hsorted : leasts.Pairwise (· < ·))
    (hleasts : ∀ v, v ∈ leasts ↔ v.1 < i ∧ LeastOfGroup es v)
    (hgroups : List.Forall₂ (IsGroup es) leasts acc.reverse) :
    GroupsExact es (sccGroupsAt (targets es) comp i done acc) := by
  fun_induction sccGroupsAt (targets es) comp i done acc generalizing leasts with
  | case1 i done acc hi hmark ih =>
      obtain ⟨u, hui, hmut⟩ := (hdone ⟨i, hi⟩).1 hmark
      refine ih (fun v => ?_) leasts hsorted (fun v => ?_) hgroups
      · rw [hdone v]
        constructor
        · rintro ⟨w, hw, hwv⟩
          exact ⟨w, by omega, hwv⟩
        · rintro ⟨w, hw, hwv⟩
          obtain hw | hw := Nat.lt_succ_iff_lt_or_eq.1 hw
          · exact ⟨w, hw, hwv⟩
          · have hwi : w = ⟨i, hi⟩ := Fin.ext hw
            exact ⟨u, hui, hmut.trans (hwi ▸ hwv)⟩
      · rw [hleasts v]
        refine and_congr_left fun hleast => ⟨fun h => by omega, fun h => ?_⟩
        obtain h | h := Nat.lt_succ_iff_lt_or_eq.1 h
        · exact h
        · have hvi : v = ⟨i, hi⟩ := Fin.ext h
          have hle : v.1 ≤ u.1 := hleast.1 u (hvi ▸ hmut.symm)
          omega
  | case2 i done acc hi hmark ms done1 heq ih =>
      have hout : ∀ u, Mutual (Edge es) ⟨i, hi⟩ u → ¬ done u = true := by
        intro u hu hmem
        obtain ⟨w, hw, hwu⟩ := (hdone u).1 hmem
        exact hmark ((hdone _).2 ⟨w, hw, hwu.trans hu.symm⟩)
      obtain ⟨hgroup, hmarks⟩ := sccBfs_isGroup hcomp hout
      rw [heq] at hgroup hmarks
      have hleast : ∀ u, Mutual (Edge es) ⟨i, hi⟩ u → (⟨i, hi⟩ : Fin n) ≤ u := by
        intro u hu
        by_contra hlt
        exact hmark ((hdone _).2 ⟨u, by simpa [Fin.lt_def] using hlt, hu.symm⟩)
      have hdone1 : ∀ v, done1 v = true ↔ ∃ u : Fin n, u.1 < i + 1 ∧ Mutual (Edge es) u v := by
        intro v
        rw [hmarks v, hdone v]
        constructor
        · rintro (⟨u, hu, huv⟩ | h)
          · exact ⟨u, by omega, huv⟩
          · exact ⟨⟨i, hi⟩, Nat.lt_succ_self i, h⟩
        · rintro ⟨u, hu, huv⟩
          obtain hu | hu := Nat.lt_succ_iff_lt_or_eq.1 hu
          · exact .inl ⟨u, hu, huv⟩
          · have hui : u = ⟨i, hi⟩ := Fin.ext hu
            exact .inr (hui ▸ huv)
      have hsplit : ∀ v : Fin n, v.1 < i + 1 ∧ LeastOfGroup es v ↔
          v ∈ leasts ∨ v = ⟨i, hi⟩ ∧ 2 ≤ ms.length := by
        intro v
        rw [hleasts v, hgroup.two_le_iff, Nat.lt_succ_iff_lt_or_eq]
        constructor
        · rintro ⟨hv | hv, hl⟩
          · exact .inl ⟨hv, hl⟩
          · have hvi : v = ⟨i, hi⟩ := Fin.ext hv
            subst hvi
            exact .inr ⟨rfl, hl.2⟩
        · rintro (⟨hv, hl⟩ | ⟨rfl, hother⟩)
          · exact ⟨.inl hv, hl⟩
          · exact ⟨.inr rfl, hleast, hother⟩
      by_cases hlen : ms.length ≥ 2
      · rw [dif_pos hlen] at ih
        rw [if_pos hlen]
        refine ih hdone1 (leasts ++ [⟨i, hi⟩]) ?_ (fun v => ?_) ?_
        · rw [List.pairwise_append]
          refine ⟨hsorted, List.pairwise_singleton _ _, fun v hv w hw => ?_⟩
          rw [List.mem_singleton.1 hw]
          exact ((hleasts v).1 hv).1
        · rw [hsplit v, List.mem_append, List.mem_singleton]
          tauto
        · rw [List.reverse_cons]
          exact List.rel_append hgroups (.cons hgroup .nil)
      · rw [dif_neg hlen] at ih
        rw [if_neg hlen]
        refine ih hdone1 leasts hsorted (fun v => ?_) hgroups
        rw [hsplit v]
        tauto
  | case3 i done acc hi =>
      refine ⟨leasts, hsorted, fun v => ?_, hgroups⟩
      rw [hleasts v]
      exact and_iff_right (by omega)

theorem groupsExact (es : List (Fin n × Fin n)) : GroupsExact es (sccGroups n es) := by
  obtain ⟨k, hnum, hall⟩ := componentIds_spec es
  rw [sccGroups, sccGroupsIn, sccAdjacency_eq]
  refine sccGroupsAt_spec (fun u v => (hnum.same u v (hall u)).symm) 0 _ [] (fun v => ?_) [] .nil
    (fun v => ?_) .nil
  · simp
  · simp

end Groups

/-- Both listings are exact on every graph that has a node, and on no other. -/
theorem components_exact_iff (n : ℕ) (es : List (Fin n × Fin n)) :
    ComponentsExact es (sccComponents n es) ∧ GroupsExact es (sccGroups n es) ↔ 0 < n := by
  constructor
  · rintro ⟨hcs, -⟩
    by_contra hn
    obtain rfl := Nat.eq_zero_of_not_pos hn
    refine hcs.nonempty ?_
    rw [sccComponents_zero]
    exact List.mem_singleton_self _
  · exact fun hn => ⟨componentsExact es hn, groupsExact es⟩

/-- The graph without nodes. -/
theorem not_exact_zero :
    ¬ (ComponentsExact (n := 0) [] (sccComponents 0 []) ∧ GroupsExact (n := 0) [] (sccGroups 0 [])) := by
  rintro ⟨hcs, -⟩
  refine hcs.nonempty ?_
  rw [sccComponents_zero]
  exact List.mem_singleton_self _

end Kaikai.Scc
