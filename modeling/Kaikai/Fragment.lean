import Mathlib.Data.Set.Insert

/-!
Graph fragments with one entry and one exit, whose arcs transform data. A
fragment realizes the relation between the data at its entry and at its exit;
the constructions below build fragments over consecutive ranges of states.
-/

namespace Kaikai.Fragment

open Relation

variable {X : Type}

structure Arc (X : Type) where
  src : Nat
  dst : Nat
  rel : X → X → Prop

/-- One arc taken. -/
def Move (E : Set (Arc X)) (u v : Nat × X) : Prop :=
  ∃ a ∈ E, a.src = u.1 ∧ a.dst = v.1 ∧ a.rel u.2 v.2

def Path (E : Set (Arc X)) : Nat × X → Nat × X → Prop := ReflTransGen (Move E)

/-- `k` steps of a relation. -/
def iter (R : X → X → Prop) : Nat → X → X → Prop
  | 0 => Eq
  | k + 1 => Comp R (iter R k)

/-- The states of a fragment lie in `[lo, hi)`, and its paths from `s` to `e` are
the pairs of `R`. -/
structure Realizes (E : Set (Arc X)) (lo hi s e : Nat) (R : X → X → Prop) : Prop where
  arcs : ∀ a ∈ E, (lo ≤ a.src ∧ a.src < hi) ∧ lo ≤ a.dst ∧ a.dst < hi
  start : lo ≤ s ∧ s < hi
  accept : lo ≤ e ∧ e < hi
  path : ∀ x y, Path E (s, x) (e, y) ↔ R x y

/-- A fragment whose entry is never returned to and whose exit is never left. -/
structure Choice (E : Set (Arc X)) (lo hi s e : Nat) (R : X → X → Prop) : Prop
    extends Realizes E lo hi s e R where
  entry : ∀ a ∈ E, a.dst ≠ s
  exit : ∀ a ∈ E, a.src ≠ e
  ne : s ≠ e

theorem Path.mono {E F : Set (Arc X)} (h : E ⊆ F) {u v : Nat × X} (p : Path E u v) :
    Path F u v := by
  induction p with
  | refl => exact .refl
  | tail _ hmove ih =>
      obtain ⟨a, ha, hm⟩ := hmove
      exact .tail ih ⟨a, h ha, hm⟩

theorem Path.arc {E : Set (Arc X)} {a : Arc X} (ha : a ∈ E) {x y : X} (h : a.rel x y) :
    Path E (a.src, x) (a.dst, y) :=
  .single ⟨a, ha, rfl, rfl, h⟩

theorem Realizes.congr {E : Set (Arc X)} {lo hi s e : Nat} {R R' : X → X → Prop}
    (h : Realizes E lo hi s e R) (hR : ∀ x y, R x y ↔ R' x y) : Realizes E lo hi s e R' :=
  ⟨h.arcs, h.start, h.accept, fun x y => (h.path x y).trans (hR x y)⟩

theorem realizes_empty (p : Nat) : Realizes (∅ : Set (Arc X)) p (p + 1) p p Eq where
  arcs := fun a ha => ha.elim
  start := ⟨le_rfl, Nat.lt_succ_self p⟩
  accept := ⟨le_rfl, Nat.lt_succ_self p⟩
  path := fun x y => by
    constructor
    · intro h
      rcases h.cases_head with heq | ⟨_, ⟨a, ha, -⟩, -⟩
      · exact (Prod.mk.inj heq).2
      · exact ha.elim
    · rintro rfl
      exact .refl

theorem realizes_leaf (p : Nat) (R : X → X → Prop) :
    Realizes {(⟨p, p + 1, R⟩ : Arc X)} p (p + 2) p (p + 1) R where
  arcs := by
    rintro a rfl
    exact ⟨⟨le_rfl, Nat.lt_add_of_pos_right (by decide)⟩, Nat.le_succ p, Nat.lt_succ_self _⟩
  start := ⟨le_rfl, Nat.lt_add_of_pos_right (by decide)⟩
  accept := ⟨Nat.le_succ p, Nat.lt_succ_self _⟩
  path := fun x y => by
    constructor
    · intro h
      rcases h.cases_head with heq | ⟨⟨q, z⟩, ⟨a, rfl, -, hq, hrel⟩, hrest⟩
      · exact absurd (Prod.mk.inj heq).1 (Nat.lt_succ_self p).ne
      · cases hq
        rcases hrest.cases_head with heq | ⟨_, ⟨a, rfl, hsrc, -⟩, -⟩
        · cases heq
          exact hrel
        · exact absurd hsrc (Nat.lt_succ_self p).ne
    · exact fun h => Path.arc (a := ⟨p, p + 1, R⟩) (Set.mem_singleton _) h

theorem Realizes.seq {E F : Set (Arc X)} {lo mid hi s1 e1 s2 e2 : Nat} {R S : X → X → Prop}
    (h1 : Realizes E lo mid s1 e1 R) (h2 : Realizes F mid hi s2 e2 S) :
    Realizes (insert (⟨e1, s2, Eq⟩ : Arc X) (F ∪ E)) lo hi s1 e2 (Comp R S) := by
  have hlm : lo < mid := h1.start.1.trans_lt h1.start.2
  have hmh : mid < hi := h2.start.1.trans_lt h2.start.2
  have hE : E ⊆ insert (⟨e1, s2, Eq⟩ : Arc X) (F ∪ E) := fun a ha => Or.inr (Or.inr ha)
  have hF : F ⊆ insert (⟨e1, s2, Eq⟩ : Arc X) (F ∪ E) := fun a ha => Or.inr (Or.inl ha)
  refine ⟨?_, ⟨h1.start.1, h1.start.2.trans hmh⟩, ⟨hlm.le.trans h2.accept.1, h2.accept.2⟩, ?_⟩
  · rintro a (rfl | ha | ha)
    · exact ⟨⟨h1.accept.1, h1.accept.2.trans hmh⟩, hlm.le.trans h2.start.1, h2.start.2⟩
    · obtain ⟨⟨h, h'⟩, h'', h'''⟩ := h2.arcs a ha
      exact ⟨⟨hlm.le.trans h, h'⟩, hlm.le.trans h'', h'''⟩
    · obtain ⟨⟨h, h'⟩, h'', h'''⟩ := h1.arcs a ha
      exact ⟨⟨h, h'.trans hmh⟩, h'', h'''.trans hmh⟩
  · intro x y
    constructor
    · intro hpath
      -- below `mid` a path still has to pass through the wire, above it has passed
      have hsplit : ∀ u, Path (insert (⟨e1, s2, Eq⟩ : Arc X) (F ∪ E)) u (e2, y) →
          (u.1 < mid → ∃ z, Path E u (e1, z) ∧ Path F (s2, z) (e2, y)) ∧
            (mid ≤ u.1 → Path F u (e2, y)) := by
        intro u hu
        induction hu using ReflTransGen.head_induction_on with
        | refl => exact ⟨fun h => absurd h h2.accept.1.not_gt, fun _ => .refl⟩
        | @head u v hmove _ ih =>
            obtain ⟨a, rfl | ha | ha, hsrc, hdst, hrel⟩ := hmove
            · simp only at hsrc hdst hrel
              refine ⟨fun _ => ⟨u.2, ?_, ?_⟩, fun h => absurd h (hsrc ▸ h1.accept.2).not_ge⟩
              · rw [show (e1, u.2) = u from Prod.ext hsrc rfl]
                exact .refl
              · rw [show (s2, u.2) = v from Prod.ext hdst hrel]
                exact ih.2 (hdst ▸ h2.start.1)
            · have harc := h2.arcs a ha
              refine ⟨fun h => absurd h (hsrc ▸ harc.1.1).not_gt, fun _ => ?_⟩
              exact .head ⟨a, ha, hsrc, hdst, hrel⟩ (ih.2 (hdst ▸ harc.2.1))
            · have harc := h1.arcs a ha
              refine ⟨fun _ => ?_, fun h => absurd h (hsrc ▸ harc.1.2).not_ge⟩
              obtain ⟨z, hz, hz'⟩ := ih.1 (hdst ▸ harc.2.2)
              exact ⟨z, .head ⟨a, ha, hsrc, hdst, hrel⟩ hz, hz'⟩
      obtain ⟨z, hz, hz'⟩ := (hsplit (s1, x) hpath).1 h1.start.2
      exact ⟨z, (h1.path x z).1 hz, (h2.path z y).1 hz'⟩
    · rintro ⟨z, hxz, hzy⟩
      exact (((h1.path x z).2 hxz).mono hE).trans
        ((Path.arc (a := ⟨e1, s2, Eq⟩) (Or.inl rfl) (rfl : z = z)).trans
          (((h2.path z y).2 hzy).mono hF))

theorem Realizes.plus {E : Set (Arc X)} {lo hi s e : Nat} {R : X → X → Prop}
    (h : Realizes E lo hi s e R) :
    Realizes (insert (⟨e, s, Eq⟩ : Arc X) E) lo hi s e (Comp R (ReflTransGen R)) := by
  have hE : E ⊆ insert (⟨e, s, Eq⟩ : Arc X) E := Set.subset_insert _ _
  refine ⟨?_, h.start, h.accept, ?_⟩
  · rintro a (rfl | ha)
    · exact ⟨h.accept, h.start⟩
    · exact h.arcs a ha
  · intro x y
    constructor
    · intro hpath
      have hsplit : ∀ u, Path (insert (⟨e, s, Eq⟩ : Arc X) E) u (e, y) →
          ∃ z, Path E u (e, z) ∧ ReflTransGen R z y := by
        intro u hu
        induction hu using ReflTransGen.head_induction_on with
        | refl => exact ⟨y, .refl, .refl⟩
        | @head u v hmove _ ih =>
            obtain ⟨z, hz, hzy⟩ := ih
            obtain ⟨a, rfl | ha, hsrc, hdst, hrel⟩ := hmove
            · simp only at hsrc hdst hrel
              refine ⟨u.2, ?_, .head ((h.path u.2 z).1 ?_) hzy⟩
              · rw [show (e, u.2) = u from Prod.ext hsrc rfl]
                exact .refl
              · rw [show (s, u.2) = v from Prod.ext hdst hrel]
                exact hz
            · exact ⟨z, .head ⟨a, ha, hsrc, hdst, hrel⟩ hz, hzy⟩
      obtain ⟨z, hz, hzy⟩ := hsplit (s, x) hpath
      exact ⟨z, (h.path x z).1 hz, hzy⟩
    · rintro ⟨z, hxz, hzy⟩
      have hback : Path (insert (⟨e, s, Eq⟩ : Arc X) E) (e, z) (e, y) := by
        clear hxz
        induction hzy using ReflTransGen.head_induction_on with
        | refl => exact .refl
        | @head z w hzw _ ih =>
            exact (Path.arc (a := ⟨e, s, Eq⟩) (Or.inl rfl) (rfl : z = z)).trans
              ((((h.path z w).2 hzw).mono hE).trans ih)
      exact (((h.path x z).2 hxz).mono hE).trans hback

theorem choice_base (p : Nat) :
    Choice (∅ : Set (Arc X)) p (p + 2) p (p + 1) (fun _ _ => False) where
  arcs := fun a ha => ha.elim
  start := ⟨le_rfl, Nat.lt_add_of_pos_right (by decide)⟩
  accept := ⟨Nat.le_succ p, Nat.lt_succ_self _⟩
  path := fun x y => by
    refine ⟨fun h => ?_, False.elim⟩
    rcases h.cases_head with heq | ⟨_, ⟨a, ha, -⟩, -⟩
    · exact (Nat.lt_succ_self p).ne (Prod.mk.inj heq).1
    · exact ha.elim
  entry := fun a ha => ha.elim
  exit := fun a ha => ha.elim
  ne := (Nat.lt_succ_self p).ne

theorem Choice.path_exit {E : Set (Arc X)} {lo hi s e : Nat} {R : X → X → Prop}
    (h : Choice E lo hi s e R) {x y : X} (p : Path E (e, x) (e, y)) : x = y := by
  rcases p.cases_head with heq | ⟨_, ⟨a, ha, hsrc, -⟩, -⟩
  · exact (Prod.mk.inj heq).2
  · exact absurd hsrc (h.exit a ha)

theorem Choice.skip {E : Set (Arc X)} {lo hi s e : Nat} {R : X → X → Prop}
    (h : Choice E lo hi s e R) :
    Choice (insert (⟨s, e, Eq⟩ : Arc X) E) lo hi s e (fun x y => x = y ∨ R x y) := by
  have hE : E ⊆ insert (⟨s, e, Eq⟩ : Arc X) E := Set.subset_insert _ _
  refine ⟨⟨?_, h.start, h.accept, ?_⟩, ?_, ?_, h.ne⟩
  · rintro a (rfl | ha)
    · exact ⟨h.start, h.accept⟩
    · exact h.arcs a ha
  · intro x y
    constructor
    · intro hpath
      have hsplit : ∀ u, Path (insert (⟨s, e, Eq⟩ : Arc X) E) u (e, y) →
          Path E u (e, y) ∨ u = (s, y) := by
        intro u hu
        induction hu using ReflTransGen.head_induction_on with
        | refl => exact .inl .refl
        | @head u v hmove _ ih =>
            obtain ⟨a, rfl | ha, hsrc, hdst, hrel⟩ := hmove
            · simp only at hsrc hdst hrel
              have hv : v = (e, u.2) := Prod.ext hdst.symm hrel.symm
              rcases ih with hpath | heq
              · rw [hv] at hpath
                exact .inr (Prod.ext hsrc.symm (h.path_exit hpath))
              · exact absurd ((hdst.trans (congrArg Prod.fst heq)).symm) h.ne
            · rcases ih with hpath | heq
              · exact .inl (.head ⟨a, ha, hsrc, hdst, hrel⟩ hpath)
              · exact absurd (hdst.trans (congrArg Prod.fst heq)) (h.entry a ha)
      rcases hsplit (s, x) hpath with hpath | heq
      · exact .inr ((h.path x y).1 hpath)
      · exact .inl (Prod.mk.inj heq).2
    · rintro (rfl | hR)
      · exact Path.arc (a := ⟨s, e, Eq⟩) (Or.inl rfl) rfl
      · exact ((h.path x y).2 hR).mono hE
  · rintro a (rfl | ha)
    · exact h.ne.symm
    · exact h.entry a ha
  · rintro a (rfl | ha)
    · exact h.ne
    · exact h.exit a ha

theorem Choice.add {E F : Set (Arc X)} {lo mid hi s e s2 e2 : Nat} {R S G H : X → X → Prop}
    (h : Choice E lo mid s e R) (h2 : Realizes F mid hi s2 e2 S) :
    Choice (insert (⟨e2, e, H⟩ : Arc X) (insert (⟨s, s2, G⟩ : Arc X) (F ∪ E))) lo hi s e
      (fun x y => R x y ∨ ∃ u v, G x u ∧ S u v ∧ H v y) := by
  have hlm : lo < mid := h.start.1.trans_lt h.start.2
  have hmh : mid < hi := h2.start.1.trans_lt h2.start.2
  have hE : E ⊆ insert (⟨e2, e, H⟩ : Arc X) (insert (⟨s, s2, G⟩ : Arc X) (F ∪ E)) :=
    fun a ha => Or.inr (Or.inr (Or.inr ha))
  have hF : F ⊆ insert (⟨e2, e, H⟩ : Arc X) (insert (⟨s, s2, G⟩ : Arc X) (F ∪ E)) :=
    fun a ha => Or.inr (Or.inr (Or.inl ha))
  refine ⟨⟨?_, ⟨h.start.1, h.start.2.trans hmh⟩, ⟨h.accept.1, h.accept.2.trans hmh⟩, ?_⟩,
    ?_, ?_, h.ne⟩
  · rintro a (rfl | rfl | ha | ha)
    · exact ⟨⟨hlm.le.trans h2.accept.1, h2.accept.2⟩, h.accept.1, h.accept.2.trans hmh⟩
    · exact ⟨⟨h.start.1, h.start.2.trans hmh⟩, hlm.le.trans h2.start.1, h2.start.2⟩
    · obtain ⟨⟨h, h'⟩, h'', h'''⟩ := h2.arcs a ha
      exact ⟨⟨hlm.le.trans h, h'⟩, hlm.le.trans h'', h'''⟩
    · obtain ⟨⟨h, h'⟩, h'', h'''⟩ := h.arcs a ha
      exact ⟨⟨h, h'.trans hmh⟩, h'', h'''.trans hmh⟩
  · intro x y
    constructor
    · intro hpath
      have hsplit : ∀ u, Path (insert (⟨e2, e, H⟩ : Arc X) (insert (⟨s, s2, G⟩ : Arc X) (F ∪ E)))
          u (e, y) →
          (u.1 < mid → Path E u (e, y) ∨ u.1 = s ∧ ∃ v w, G u.2 v ∧ S v w ∧ H w y) ∧
            (mid ≤ u.1 → ∃ w, Path F u (e2, w) ∧ H w y) := by
        intro u hu
        induction hu using ReflTransGen.head_induction_on with
        | refl => exact ⟨fun _ => .inl .refl, fun hge => absurd hge h.accept.2.not_ge⟩
        | @head u v hmove _ ih =>
            obtain ⟨a, rfl | rfl | ha | ha, hsrc, hdst, hrel⟩ := hmove
            · simp only at hsrc hdst hrel
              refine ⟨fun hlt => absurd hlt (hsrc ▸ h2.accept.1).not_gt, fun _ => ?_⟩
              rcases ih.1 (hdst ▸ h.accept.2) with hpath | ⟨heq, -⟩
              · rw [show v = (e, v.2) from Prod.ext hdst.symm rfl] at hpath
                rw [h.path_exit hpath] at hrel
                refine ⟨u.2, ?_, hrel⟩
                rw [show (e2, u.2) = u from Prod.ext hsrc rfl]
                exact .refl
              · exact absurd (hdst.trans heq).symm h.ne
            · simp only at hsrc hdst hrel
              refine ⟨fun _ => .inr ⟨hsrc.symm, ?_⟩, fun hge => absurd hge
                (hsrc ▸ h.start.2).not_ge⟩
              obtain ⟨w, hw, hwy⟩ := ih.2 (hdst ▸ h2.start.1)
              rw [show v = (s2, v.2) from Prod.ext hdst.symm rfl] at hw
              exact ⟨v.2, w, hrel, (h2.path _ _).1 hw, hwy⟩
            · have harc := h2.arcs a ha
              refine ⟨fun hlt => absurd hlt (hsrc ▸ harc.1.1).not_gt, fun _ => ?_⟩
              obtain ⟨w, hw, hwy⟩ := ih.2 (hdst ▸ harc.2.1)
              exact ⟨w, .head ⟨a, ha, hsrc, hdst, hrel⟩ hw, hwy⟩
            · have harc := h.arcs a ha
              refine ⟨fun _ => ?_, fun hge => absurd hge (hsrc ▸ harc.1.2).not_ge⟩
              rcases ih.1 (hdst ▸ harc.2.2) with hpath | ⟨heq, -⟩
              · exact .inl (.head ⟨a, ha, hsrc, hdst, hrel⟩ hpath)
              · exact absurd (hdst.trans heq) (h.entry a ha)
      rcases (hsplit (s, x) hpath).1 h.start.2 with hpath | ⟨-, v, w, hG, hS, hH⟩
      · exact .inl ((h.path x y).1 hpath)
      · exact .inr ⟨v, w, hG, hS, hH⟩
    · rintro (hR | ⟨u, v, hG, hS, hH⟩)
      · exact ((h.path x y).2 hR).mono hE
      · exact (Path.arc (a := ⟨s, s2, G⟩) (Or.inr (Or.inl rfl)) hG).trans
          ((((h2.path u v).2 hS).mono hF).trans
            (Path.arc (a := ⟨e2, e, H⟩) (Or.inl rfl) hH))
  · rintro a (rfl | rfl | ha | ha)
    · exact h.ne.symm
    · exact (h.start.2.trans_le h2.start.1).ne'
    · exact (h.start.2.trans_le (h2.arcs a ha).2.1).ne'
    · exact h.entry a ha
  · rintro a (rfl | rfl | ha | ha)
    · exact (h.accept.2.trans_le h2.accept.1).ne'
    · exact h.ne
    · exact (h.accept.2.trans_le (h2.arcs a ha).1.1).ne'
    · exact h.exit a ha

end Kaikai.Fragment
