import Kaikai.Fragment
import Kaikai.Regexp

namespace Kaikai.RegexpLanguage

open Relation
open Kaikai.Fragment
open Kaikai.Regexp
open Kaikai.RegexpEngine
open Kaikai.RegexpSyntax

variable {X : Type}

/-- How one codepoint, an anchor and the two ends of a group act on the data. -/
structure Reading (X : Type) where
  take : (Char → Bool) → X → X → Prop
  anchor : Anchor → X → X → Prop
  opens : Int → X → X → Prop
  closes : Int → X → X → Prop

def inClass (rs : List CharRange) (d : Char) : Bool := rs.any fun r => r.lo ≤ d && d ≤ r.hi

section

variable (M : Reading X) (counts : Int → Option Int → Nat → Prop)

mutual

/-- The pairs of data that a pattern leads between, for a reading of its leaves and
of the numbers of times a repeat allows. -/
def spans : RxAst → X → X → Prop
  | .rxChar c => M.take fun d => d = c
  | .rxAny => M.take fun d => d ≠ '\n'
  | .rxClass rs neg => M.take fun d => inClass rs d ≠ neg
  | .rxAnchor an => M.anchor an
  | .rxConcat xs => spansAll xs
  | .rxAlt xs => spansAny xs
  | .rxStar x => ReflTransGen (spans x)
  | .rxPlus x => Comp (spans x) (ReflTransGen (spans x))
  | .rxOpt x => fun u v => u = v ∨ spans x u v
  | .rxRepeat x lo hi => fun u v => ∃ k, counts lo hi k ∧ iter (spans x) k u v
  | .rxGroup id x => Comp (M.opens id) (Comp (spans x) (M.closes id))

def spansAll : List RxAst → X → X → Prop
  | [] => Eq
  | x :: xs => Comp (spans x) (spansAll xs)

def spansAny : List RxAst → X → X → Prop
  | [] => fun _ _ => False
  | x :: xs => fun u v => spans x u v ∨ spansAny xs u v

end

end

/-- The counts that a well-formed repeat stands for. -/
def repeatCounts (lo : Int) (hi : Option Int) (k : Nat) : Prop := lo ≤ k ∧ ∀ h ∈ hi, (k : Int) ≤ h

/-- The counts that compilation gives: `lo` copies, then a loop or `hi - lo` optional
ones. -/
def copyCounts (lo : Int) (hi : Option Int) (k : Nat) : Prop :=
  lo.toNat ≤ k ∧ ∀ h ∈ hi, k ≤ lo.toNat + (Word64.sub h lo).toNat

theorem rxClassMatches_eq (rs : List CharRange) (d : Char) : rxClassMatches rs d = inClass rs d := by
  induction rs with
  | nil => rfl
  | cons r rs ih =>
      have hle : ∀ c c' : Char, c ≤ c' ↔ c.toNat ≤ c'.toNat := fun _ _ => Iff.rfl
      rw [rxClassMatches, ih]
      by_cases hr : d.toNat ≥ r.lo.toNat ∧ d.toNat ≤ r.hi.toNat
      · rw [if_pos hr]
        simp [inClass, hle, hr.1, hr.2]
      · rw [if_neg hr]
        have hno : (decide (r.lo ≤ d) && decide (d ≤ r.hi)) = false := by
          rw [Bool.and_eq_false_iff, decide_eq_false_iff_not, decide_eq_false_iff_not, hle, hle]
          omega
        rw [inClass, inClass, List.any_cons, hno, Bool.false_or]

def dst : NfaTransition → Nat
  | .tChar _ d => d
  | .tClass _ _ d => d
  | .tAny d => d
  | .tEpsilon d => d
  | .tGroupOpen _ d => d
  | .tGroupClose _ d => d
  | .tAnchor _ d => d

def Reading.transition (M : Reading X) : NfaTransition → X → X → Prop
  | .tChar c _ => M.take fun d => d = c
  | .tClass rs neg _ => M.take fun d => rxClassMatches rs d ≠ neg
  | .tAny _ => M.take fun d => d ≠ '\n'
  | .tEpsilon _ => Eq
  | .tGroupOpen gid _ => M.opens gid
  | .tGroupClose gid _ => M.closes gid
  | .tAnchor an _ => M.anchor an

def arcOf (M : Reading X) (e : Nat × NfaTransition) : Arc X := ⟨e.1, dst e.2, M.transition e.2⟩

def arcs (M : Reading X) (edges : List (Nat × NfaTransition)) : Set (Arc X) :=
  {a | ∃ e ∈ edges, arcOf M e = a}

theorem arcs_nil (M : Reading X) : arcs M [] = ∅ := by
  ext a
  simp [arcs]

theorem arcs_cons (M : Reading X) (e : Nat × NfaTransition) (edges : List (Nat × NfaTransition)) :
    arcs M (e :: edges) = insert (arcOf M e) (arcs M edges) := by
  ext a
  simp [arcs, eq_comm]

theorem arcs_append (M : Reading X) (edges edges' : List (Nat × NfaTransition)) :
    arcs M (edges ++ edges') = arcs M edges ∪ arcs M edges' := by
  ext a
  simp [arcs, or_and_right, exists_or]

/-- Whether a transition reads a character. -/
def consuming (t : NfaTransition) : Bool := rxConsumes [t]

/-- A state that reads a character does nothing else. -/
def Sole (edges : List (Nat × NfaTransition)) : Prop :=
  ∀ p, ∀ t ∈ outEdges edges p, consuming t = true → outEdges edges p = [t]

/-- No character is read from `p`. -/
def Idle (edges : List (Nat × NfaTransition)) (p : Nat) : Prop :=
  ∀ t ∈ outEdges edges p, consuming t = false

theorem outEdges_append (edges edges' : List (Nat × NfaTransition)) (p : Nat) :
    outEdges (edges ++ edges') p = outEdges edges' p ++ outEdges edges p := by
  simp [outEdges]

theorem outEdges_cons (q : Nat) (t : NfaTransition) (edges : List (Nat × NfaTransition)) (p : Nat) :
    outEdges ((q, t) :: edges) p = if q = p then outEdges edges p ++ [t] else outEdges edges p := by
  by_cases h : q = p <;> simp [outEdges, h]

theorem mem_outEdges {edges : List (Nat × NfaTransition)} {p : Nat} {t : NfaTransition} :
    t ∈ outEdges edges p ↔ (p, t) ∈ edges := by
  simp only [outEdges, List.mem_reverse, List.mem_map, List.mem_filter, decide_eq_true_eq]
  constructor
  · rintro ⟨⟨q, u⟩, ⟨he, rfl⟩, rfl⟩
    exact he
  · exact fun h => ⟨(p, t), ⟨h, rfl⟩, rfl⟩

theorem idle_cons {edges : List (Nat × NfaTransition)} {p q : Nat} {t : NfaTransition}
    (h : Idle edges p) (ht : consuming t = false) : Idle ((q, t) :: edges) p := by
  intro u hu
  rw [mem_outEdges] at hu
  rcases List.mem_cons.1 hu with heq | hu
  · cases heq
    exact ht
  · exact h u (mem_outEdges.2 hu)

theorem idle_append {edges edges' : List (Nat × NfaTransition)} {p : Nat}
    (h : Idle edges p) (h' : Idle edges' p) : Idle (edges ++ edges') p := by
  intro u hu
  rw [outEdges_append, List.mem_append] at hu
  exact hu.elim (h' u) (h u)

theorem sole_cons {edges : List (Nat × NfaTransition)} {q : Nat} {t : NfaTransition}
    (h : Sole edges) (hq : Idle edges q) (ht : consuming t = false) : Sole ((q, t) :: edges) := by
  intro p u hu hcons
  rw [outEdges_cons] at hu ⊢
  by_cases hp : q = p
  · subst hp
    rw [if_pos rfl, List.mem_append, List.mem_singleton] at hu
    rcases hu with hu | rfl
    · rw [hq u hu] at hcons
      cases hcons
    · rw [ht] at hcons
      cases hcons
  · rw [if_neg hp] at hu ⊢
    exact h p u hu hcons

theorem sole_append {edges edges' : List (Nat × NfaTransition)} (h : Sole edges)
    (h' : Sole edges') (hdisj : ∀ e ∈ edges, ∀ e' ∈ edges', e.1 ≠ e'.1) :
    Sole (edges ++ edges') := by
  have hempty : ∀ {E E' : List (Nat × NfaTransition)} {p : Nat} {t : NfaTransition},
      (∀ e ∈ E, ∀ e' ∈ E', e.1 ≠ e'.1) → t ∈ outEdges E p → outEdges E' p = [] := by
    intro E E' p t hne ht
    rw [List.eq_nil_iff_forall_not_mem]
    exact fun u hu => hne _ (mem_outEdges.1 ht) _ (mem_outEdges.1 hu) rfl
  intro p u hu hcons
  rw [outEdges_append, List.mem_append] at hu
  rcases hu with hu | hu
  · rw [outEdges_append, h' p u hu hcons,
      hempty (fun e he e' he' => (hdisj e' he' e he).symm) hu, List.append_nil]
  · rw [outEdges_append, h p u hu hcons, hempty hdisj hu, List.nil_append]

/-- The edges of a fragment, what it realizes and where it reads characters. -/
structure Covers (M : Reading X) (edges : List (Nat × NfaTransition)) (lo hi : Nat)
    (f : NfaFrag) (R : X → X → Prop) : Prop where
  realizes : Realizes (arcs M edges) lo hi f.start f.accept R
  sole : Sole edges
  idle : Idle edges f.accept

/-- A builder step that adds a fragment realizing `R`. -/
def Lowers (M : Reading X) (body : NfaBuilder → Built) (R : X → X → Prop) : Prop :=
  ∀ b, ∃ new, (body b).1.edges = new ++ b.edges ∧
    Covers M new b.nextId (body b).1.nextId (body b).2 R

theorem Covers.src {M : Reading X} {edges : List (Nat × NfaTransition)} {lo hi : Nat}
    {f : NfaFrag} {R : X → X → Prop} (h : Covers M edges lo hi f R) :
    ∀ e ∈ edges, lo ≤ e.1 ∧ e.1 < hi :=
  fun e he => (h.realizes.arcs (arcOf M e) ⟨e, he, rfl⟩).1

theorem Covers.idle_outside {M : Reading X} {edges : List (Nat × NfaTransition)} {lo hi : Nat}
    {f : NfaFrag} {R : X → X → Prop} (h : Covers M edges lo hi f R) {p : Nat}
    (hp : p < lo ∨ hi ≤ p) : Idle edges p := by
  intro t ht
  have hsrc := h.src _ (mem_outEdges.1 ht)
  exact absurd hsrc (by simp only; omega)

theorem Lowers.congr {M : Reading X} {body : NfaBuilder → Built} {R R' : X → X → Prop}
    (h : Lowers M body R) (hR : ∀ x y, R x y ↔ R' x y) : Lowers M body R' := by
  intro b
  obtain ⟨new, hnew, hcov⟩ := h b
  exact ⟨new, hnew, hcov.realizes.congr hR, hcov.sole, hcov.idle⟩

theorem lowers_empty (M : Reading X) : Lowers M lowerEmpty Eq := by
  intro b
  refine ⟨[], rfl, ?_, ?_, ?_⟩
  · rw [arcs_nil]
    exact realizes_empty b.nextId
  · exact fun p t ht => absurd (mem_outEdges.1 ht) List.not_mem_nil
  · exact fun t ht => absurd (mem_outEdges.1 ht) List.not_mem_nil

theorem lowers_leaf (M : Reading X) {t : Nat → NfaTransition} {R : X → X → Prop}
    (hdst : ∀ d, dst (t d) = d) (hR : ∀ d, M.transition (t d) = R) : Lowers M (lowerLeaf t) R := by
  intro b
  have hout : ∀ p u, u ∈ outEdges [(b.nextId, t (b.nextId + 1))] p →
      p = b.nextId ∧ u = t (b.nextId + 1) := by
    intro p u hu
    cases List.mem_singleton.1 (mem_outEdges.1 hu)
    exact ⟨rfl, rfl⟩
  refine ⟨[(b.nextId, t (b.nextId + 1))], rfl, ?_, ?_, ?_⟩
  · have harc : arcs M [(b.nextId, t (b.nextId + 1))] = {⟨b.nextId, b.nextId + 1, R⟩} := by
      rw [arcs_cons, arcs_nil, arcOf, hdst, hR, ← Set.singleton_def]
    rw [harc]
    exact realizes_leaf b.nextId R
  · intro p u hu _
    obtain ⟨rfl, rfl⟩ := hout p u hu
    rw [outEdges_cons, if_pos rfl]
    rfl
  · intro u hu
    exact absurd (hout _ u hu).1 (Nat.succ_ne_self _)

theorem lowers_wire {M : Reading X} {E : List (Nat × NfaTransition)} {lo : Nat} {f : NfaFrag}
    {second : NfaBuilder → Built} {R S : X → X → Prop} {b : NfaBuilder}
    (h1 : Covers M E lo b.nextId f R) (h2 : Lowers M second S) :
    ∃ new, (lowerWire f second b).1.edges = new ++ b.edges ∧
      Covers M (new ++ E) lo (lowerWire f second b).1.nextId (lowerWire f second b).2
        (Comp R S) := by
  obtain ⟨new, hnew, hcov⟩ := h2 b
  have hf : f.accept < b.nextId := h1.realizes.accept.2
  have hsole : Sole (new ++ E) := by
    refine sole_append hcov.sole h1.sole fun e he e' he' => ?_
    have := (hcov.src e he).1
    have := (h1.src e' he').2
    omega
  refine ⟨(f.accept, .tEpsilon (second b).2.start) :: new, ?_, ?_, ?_, ?_⟩
  · change (f.accept, NfaTransition.tEpsilon (second b).2.start) :: (second b).1.edges = _
    rw [hnew]
    rfl
  · rw [List.cons_append, arcs_cons, arcs_append]
    exact h1.realizes.seq hcov.realizes
  · exact sole_cons hsole (idle_append (hcov.idle_outside (Or.inl hf)) h1.idle) rfl
  · refine idle_cons (idle_append hcov.idle ?_) rfl
    exact h1.idle_outside (Or.inr hcov.realizes.accept.1)

theorem Lowers.plus {M : Reading X} {body : NfaBuilder → Built} {R : X → X → Prop}
    (h : Lowers M body R) : Lowers M (lowerPlus body) (Comp R (ReflTransGen R)) := by
  intro b
  obtain ⟨new, hnew, hcov⟩ := h b
  refine ⟨((body b).2.accept, .tEpsilon (body b).2.start) :: new, ?_, ?_, ?_, ?_⟩
  · change ((body b).2.accept, NfaTransition.tEpsilon (body b).2.start) :: (body b).1.edges = _
    rw [hnew]
    rfl
  · rw [arcs_cons]
    exact hcov.realizes.plus
  · exact sole_cons hcov.sole hcov.idle rfl
  · exact idle_cons hcov.idle rfl

theorem Lowers.inner {M : Reading X} {body : NfaBuilder → Built} {R : X → X → Prop}
    (h : Lowers M body R) (b : NfaBuilder) :
    ∃ new, (body (nbFresh2 b)).1.edges = new ++ b.edges ∧
      Covers M new (b.nextId + 2) (body (nbFresh2 b)).1.nextId (body (nbFresh2 b)).2 R :=
  h (nbFresh2 b)

theorem Lowers.opt {M : Reading X} {body : NfaBuilder → Built} {R : X → X → Prop}
    (h : Lowers M body R) : Lowers M (lowerOpt body) (fun u v => u = v ∨ R u v) := by
  intro b
  obtain ⟨new, hnew, hcov⟩ := h.inner b
  have hos : Idle new b.nextId := hcov.idle_outside (Or.inl (by omega))
  have hoe : Idle new (b.nextId + 1) := hcov.idle_outside (Or.inl (by omega))
  refine ⟨[((body (nbFresh2 b)).2.accept, NfaTransition.tEpsilon (b.nextId + 1)),
    (b.nextId, NfaTransition.tEpsilon (b.nextId + 1)),
    (b.nextId, NfaTransition.tEpsilon (body (nbFresh2 b)).2.start)] ++ new, ?_, ?_, ?_, ?_⟩
  · change _ :: _ :: _ :: (body (nbFresh2 b)).1.edges = _
    rw [hnew]
    rfl
  · have hchoice := ((choice_base b.nextId).add hcov.realizes (G := Eq) (H := Eq)).skip
    rw [List.cons_append, List.cons_append, List.cons_append, List.nil_append, arcs_cons,
      arcs_cons, arcs_cons, Set.insert_comm]
    rw [Set.union_empty] at hchoice
    refine hchoice.toRealizes.congr fun x y => ?_
    simp
  · exact sole_cons (sole_cons (sole_cons hcov.sole hos rfl) (idle_cons hos rfl) rfl)
      (idle_cons (idle_cons hcov.idle rfl) rfl) rfl
  · exact idle_cons (idle_cons (idle_cons hoe rfl) rfl) rfl

theorem Lowers.star {M : Reading X} {body : NfaBuilder → Built} {R : X → X → Prop}
    (h : Lowers M body R) : Lowers M (lowerStar body) (ReflTransGen R) := by
  intro b
  obtain ⟨new, hnew, hcov⟩ := h.inner b
  have hos : Idle new b.nextId := hcov.idle_outside (Or.inl (by omega))
  have hoe : Idle new (b.nextId + 1) := hcov.idle_outside (Or.inl (by omega))
  refine ⟨[((body (nbFresh2 b)).2.accept, NfaTransition.tEpsilon (b.nextId + 1)),
    ((body (nbFresh2 b)).2.accept, NfaTransition.tEpsilon (body (nbFresh2 b)).2.start),
    (b.nextId, NfaTransition.tEpsilon (b.nextId + 1)),
    (b.nextId, NfaTransition.tEpsilon (body (nbFresh2 b)).2.start)] ++ new, ?_, ?_, ?_, ?_⟩
  · change _ :: _ :: _ :: _ :: (body (nbFresh2 b)).1.edges = _
    rw [hnew]
    rfl
  · have hchoice := ((choice_base b.nextId).add hcov.realizes.plus (G := Eq) (H := Eq)).skip
    rw [Set.union_empty] at hchoice
    have hshuffle : ∀ (p q r t : Arc X) (S : Set (Arc X)),
        insert p (insert q (insert r (insert t S))) =
          insert r (insert p (insert t (insert q S))) := by
      intro p q r t S
      rw [Set.insert_comm q r, Set.insert_comm p r, Set.insert_comm q t]
    rw [List.cons_append, List.cons_append, List.cons_append, List.cons_append, List.nil_append,
      arcs_cons, arcs_cons, arcs_cons, arcs_cons, hshuffle]
    refine hchoice.toRealizes.congr fun x y => ?_
    rw [ReflTransGen.cases_head_iff]
    simp [Comp]
  · exact sole_cons (sole_cons (sole_cons (sole_cons hcov.sole hos rfl) (idle_cons hos rfl) rfl)
      (idle_cons (idle_cons hcov.idle rfl) rfl) rfl)
      (idle_cons (idle_cons (idle_cons hcov.idle rfl) rfl) rfl) rfl
  · exact idle_cons (idle_cons (idle_cons (idle_cons hoe rfl) rfl) rfl) rfl

theorem Lowers.group {M : Reading X} {body : NfaBuilder → Built} {R : X → X → Prop} (gid : Int)
    (h : Lowers M body R) :
    Lowers M (lowerGroup gid body) (Comp (M.opens gid) (Comp R (M.closes gid))) := by
  intro b
  obtain ⟨new, hnew, hcov⟩ :=
    h.inner { b with numGroups := if gid > b.numGroups then gid else b.numGroups }
  simp only at hnew hcov
  generalize hr : body (nbFresh2 { b with numGroups :=
    if gid > b.numGroups then gid else b.numGroups }) = r at hnew hcov
  have hos : Idle new b.nextId := hcov.idle_outside (Or.inl (by omega))
  have hoe : Idle new (b.nextId + 1) := hcov.idle_outside (Or.inl (by omega))
  have hlower : lowerGroup gid body b = (nbAddTransition (nbAddTransition r.1 b.nextId
      (.tGroupOpen gid r.2.start)) r.2.accept (.tGroupClose gid (b.nextId + 1)),
      ⟨b.nextId, b.nextId + 1⟩) := by
    rw [← hr]
    rfl
  rw [hlower]
  refine ⟨[(r.2.accept, NfaTransition.tGroupClose gid (b.nextId + 1)),
    (b.nextId, NfaTransition.tGroupOpen gid r.2.start)] ++ new, ?_, ?_, ?_, ?_⟩
  · change _ :: _ :: r.1.edges = _
    rw [hnew]
    rfl
  · have hchoice := (choice_base b.nextId).add hcov.realizes (G := M.opens gid)
      (H := M.closes gid)
    rw [List.cons_append, List.cons_append, List.nil_append, arcs_cons, arcs_cons]
    rw [Set.union_empty] at hchoice
    refine hchoice.toRealizes.congr fun x y => ?_
    simp [Comp]
  · exact sole_cons (sole_cons hcov.sole hos rfl) (idle_cons hcov.idle rfl) rfl
  · exact idle_cons (idle_cons hoe rfl) rfl

theorem Lowers.copies {M : Reading X} {one : NfaBuilder → Built} {R : X → X → Prop}
    (h : Lowers M one R) (n : Nat) : Lowers M (lowerCopies one n) (iter R n) := by
  induction n using copiesTasks.induct with
  | case1 => exact lowers_empty M
  | case2 =>
      refine h.congr fun x y => ?_
      simp [iter, Comp]
  | case3 n ih =>
      intro b
      obtain ⟨new, hnew, hcov⟩ := h b
      obtain ⟨new', hnew', hcov'⟩ := lowers_wire hcov ih
      refine ⟨new' ++ new, ?_, hcov'⟩
      rw [List.append_assoc, ← hnew]
      exact hnew'

theorem iter_add {R : X → X → Prop} (m n : Nat) (u v : X) :
    iter R (m + n) u v ↔ Comp (iter R m) (iter R n) u v := by
  induction m generalizing u with
  | zero =>
      rw [Nat.zero_add]
      simp [iter, Comp]
  | succ m ih =>
      rw [Nat.succ_add]
      constructor
      · rintro ⟨w, hw, hrest⟩
        obtain ⟨z, hz, hzv⟩ := (ih w).1 hrest
        exact ⟨z, ⟨w, hw, hz⟩, hzv⟩
      · rintro ⟨z, ⟨w, hw, hz⟩, hzv⟩
        exact ⟨w, hw, (ih w).2 ⟨z, hz, hzv⟩⟩

theorem reflTransGen_iff_iter {R : X → X → Prop} {u v : X} :
    ReflTransGen R u v ↔ ∃ k, iter R k u v := by
  constructor
  · intro h
    induction h using ReflTransGen.head_induction_on with
    | refl => exact ⟨0, rfl⟩
    | head hstep _ ih =>
        obtain ⟨k, hk⟩ := ih
        exact ⟨k + 1, _, hstep, hk⟩
  · rintro ⟨k, hk⟩
    induction k generalizing u with
    | zero =>
        cases hk
        exact .refl
    | succ k ih =>
        obtain ⟨w, hw, hrest⟩ := hk
        exact .head hw (ih hrest)

theorem iter_opt {R : X → X → Prop} (n : Nat) (u v : X) :
    iter (fun u v => u = v ∨ R u v) n u v ↔ ∃ k ≤ n, iter R k u v := by
  induction n generalizing u with
  | zero =>
      constructor
      · exact fun h => ⟨0, le_rfl, h⟩
      · rintro ⟨k, hk, h⟩
        cases Nat.le_zero.1 hk
        exact h
  | succ n ih =>
      constructor
      · rintro ⟨w, rfl | hw, hrest⟩
        · obtain ⟨k, hk, h⟩ := (ih u).1 hrest
          exact ⟨k, Nat.le_succ_of_le hk, h⟩
        · obtain ⟨k, hk, h⟩ := (ih w).1 hrest
          exact ⟨k + 1, Nat.succ_le_succ hk, w, hw, h⟩
      · rintro ⟨k, hk, h⟩
        cases k with
        | zero => exact ⟨u, .inl rfl, (ih u).2 ⟨0, Nat.zero_le n, h⟩⟩
        | succ k =>
            obtain ⟨w, hw, hrest⟩ := h
            exact ⟨w, .inr hw, (ih w).2 ⟨k, Nat.le_of_succ_le_succ hk, hrest⟩⟩

theorem iter_copyCounts {R : X → X → Prop} (lo : Int) (hi : Option Int) (u v : X) :
    Comp (iter R lo.toNat) (match hi with
        | none => ReflTransGen R
        | some h => iter (fun u v => u = v ∨ R u v) (Word64.sub h lo).toNat) u v ↔
      ∃ k, copyCounts lo hi k ∧ iter R k u v := by
  cases hi with
  | none =>
      constructor
      · rintro ⟨w, hw, hrest⟩
        obtain ⟨k, hk⟩ := reflTransGen_iff_iter.1 hrest
        exact ⟨lo.toNat + k, ⟨Nat.le_add_right _ _, by simp⟩, (iter_add _ _ u v).2 ⟨w, hw, hk⟩⟩
      · rintro ⟨k, ⟨hlo, -⟩, h⟩
        rw [← Nat.add_sub_of_le hlo] at h
        obtain ⟨w, hw, hrest⟩ := (iter_add _ _ u v).1 h
        exact ⟨w, hw, reflTransGen_iff_iter.2 ⟨_, hrest⟩⟩
  | some h =>
      constructor
      · rintro ⟨w, hw, hrest⟩
        obtain ⟨k, hk, hiter⟩ := (iter_opt _ w v).1 hrest
        refine ⟨lo.toNat + k, ⟨Nat.le_add_right _ _, ?_⟩, (iter_add _ _ u v).2 ⟨w, hw, hiter⟩⟩
        intro h' hh'
        cases Option.mem_some.1 hh'
        exact Nat.add_le_add_left hk _
      · rintro ⟨k, ⟨hlo, hhi⟩, hiter⟩
        have hk := hhi h rfl
        rw [← Nat.add_sub_of_le hlo] at hiter
        obtain ⟨w, hw, hrest⟩ := (iter_add _ _ u v).1 hiter
        exact ⟨w, hw, (iter_opt _ w v).2 ⟨k - lo.toNat, by omega, hrest⟩⟩

mutual

theorem lowers_lower (M : Reading X) : ∀ a : RxAst, Lowers M (lower a) (spans M copyCounts a)
  | .rxChar c => lowers_leaf M (fun _ => rfl) fun _ => rfl
  | .rxAny => lowers_leaf M (fun _ => rfl) fun _ => rfl
  | .rxClass rs neg => lowers_leaf M (fun _ => rfl) fun _ => by
      simp [Reading.transition, spans, rxClassMatches_eq]
  | .rxAnchor an => lowers_leaf M (fun _ => rfl) fun _ => rfl
  | .rxConcat [] => lowers_empty M
  | .rxConcat (x :: xs) => by
      intro b
      obtain ⟨new, hnew, hcov⟩ := lowers_lower M x b
      obtain ⟨new', hnew', hcov'⟩ := lowers_cat M xs new b.nextId _ _ _ hcov
      refine ⟨new' ++ new, ?_, hcov'⟩
      rw [List.append_assoc, ← hnew]
      exact hnew'
  | .rxAlt xs => by
      intro b
      obtain ⟨new, hnew, hchoice, hsole, hos, hoe⟩ :=
        lowers_alts M xs [] b.nextId (b.nextId + 1) (nbFresh2 b) (fun _ _ => False)
          (by rw [arcs_nil]; exact choice_base b.nextId)
          (fun _ _ ht => absurd (mem_outEdges.1 ht) List.not_mem_nil)
          (fun _ ht => absurd (mem_outEdges.1 ht) List.not_mem_nil)
          (fun _ ht => absurd (mem_outEdges.1 ht) List.not_mem_nil)
      rw [List.append_nil] at hchoice hsole hoe
      refine ⟨new, hnew, hchoice.toRealizes.congr fun x y => ?_, hsole, hoe⟩
      simp [spans]
  | .rxStar x => (lowers_lower M x).star
  | .rxPlus x => (lowers_lower M x).plus
  | .rxOpt x => (lowers_lower M x).opt
  | .rxRepeat x lo hi => by
      have htail : Lowers M (match hi with
            | none => lowerStar (lower x)
            | some h => lowerCopies (lowerOpt (lower x)) (Word64.sub h lo).toNat)
          (match hi with
            | none => ReflTransGen (spans M copyCounts x)
            | some h => iter (fun u v => u = v ∨ spans M copyCounts x u v)
                (Word64.sub h lo).toNat) := by
        cases hi with
        | none => exact (lowers_lower M x).star
        | some h => exact (lowers_lower M x).opt.copies _
      intro b
      obtain ⟨new, hnew, hcov⟩ := (lowers_lower M x).copies lo.toNat b
      obtain ⟨new', hnew', hcov'⟩ := lowers_wire hcov htail
      refine ⟨new' ++ new, ?_, hcov'.realizes.congr (iter_copyCounts lo hi), hcov'.sole,
        hcov'.idle⟩
      rw [List.append_assoc, ← hnew]
      exact hnew'
  | .rxGroup id x => (lowers_lower M x).group id

theorem lowers_cat (M : Reading X) : ∀ (xs : List RxAst) (E : List (Nat × NfaTransition))
    (lo : Nat) (f : NfaFrag) (b : NfaBuilder) (R : X → X → Prop), Covers M E lo b.nextId f R →
    ∃ new, (lowerCat xs f b).1.edges = new ++ b.edges ∧
      Covers M (new ++ E) lo (lowerCat xs f b).1.nextId (lowerCat xs f b).2
        (Comp R (spansAll M copyCounts xs))
  | [], E, lo, f, b, R, hcov => by
      refine ⟨[], rfl, hcov.realizes.congr fun x y => ?_, hcov.sole, hcov.idle⟩
      simp [spansAll, Comp]
  | x :: xs, E, lo, f, b, R, hcov => by
      obtain ⟨new, hnew, hcov1⟩ := lowers_wire hcov (lowers_lower M x)
      obtain ⟨new', hnew', hcov2⟩ := lowers_cat M xs (new ++ E) lo _ _ _ hcov1
      refine ⟨new' ++ new, ?_, ?_⟩
      · rw [List.append_assoc, ← hnew]
        exact hnew'
      · rw [List.append_assoc]
        refine ⟨hcov2.realizes.congr fun u v => ?_, hcov2.sole, hcov2.idle⟩
        rw [comp_assoc]
        rfl

theorem lowers_alts (M : Reading X) : ∀ (xs : List RxAst) (E : List (Nat × NfaTransition))
    (os oe : Nat) (b : NfaBuilder) (R : X → X → Prop),
    Choice (arcs M E) os b.nextId os oe R → Sole E → Idle E os → Idle E oe →
    ∃ new, (lowerAlts xs os oe b).edges = new ++ b.edges ∧
      Choice (arcs M (new ++ E)) os (lowerAlts xs os oe b).nextId os oe
        (fun u v => R u v ∨ spansAny M copyCounts xs u v) ∧
      Sole (new ++ E) ∧ Idle (new ++ E) os ∧ Idle (new ++ E) oe
  | [], E, os, oe, b, R, hchoice, hsole, hos, hoe => by
      have hR : (fun u v => R u v ∨ spansAny M copyCounts [] u v) = R := by
        funext u v
        simp [spansAny]
      refine ⟨[], rfl, ?_, hsole, hos, hoe⟩
      rw [hR]
      exact hchoice
  | x :: xs, E, os, oe, b, R, hchoice, hsole, hos, hoe => by
      obtain ⟨new, hnew, hcov⟩ := lowers_lower M x b
      have hin : os < b.nextId ∧ oe < b.nextId := ⟨hchoice.start.2, hchoice.accept.2⟩
      have hboth : Sole (new ++ E) := by
        refine sole_append hcov.sole hsole fun e he e' he' => ?_
        have := (hcov.src e he).1
        have := (hchoice.arcs (arcOf M e') ⟨e', he', rfl⟩).1.2
        change e'.1 < b.nextId at this
        omega
      have hEout : Idle E (lower x b).2.accept := by
        intro t ht
        have := (hchoice.arcs (arcOf M _) ⟨_, mem_outEdges.1 ht, rfl⟩).1.2
        have := hcov.realizes.accept.1
        simp only [arcOf] at *
        omega
      have hos1 : Idle (new ++ E) os := idle_append (hcov.idle_outside (Or.inl hin.1)) hos
      have hoe1 : Idle (new ++ E) oe := idle_append (hcov.idle_outside (Or.inl hin.2)) hoe
      have hacc : Idle (new ++ E) (lower x b).2.accept := idle_append hcov.idle hEout
      have hadd := hchoice.add hcov.realizes (G := Eq) (H := Eq)
      rw [← arcs_append] at hadd
      obtain ⟨new', hnew', hchoice', hsole', hos', hoe'⟩ := lowers_alts M xs
        ([((lower x b).2.accept, NfaTransition.tEpsilon oe),
          (os, NfaTransition.tEpsilon (lower x b).2.start)] ++ (new ++ E))
        os oe (nbEps (nbEps (lower x b).1 os (lower x b).2.start) (lower x b).2.accept oe) _
        (by rw [List.cons_append, List.cons_append, List.nil_append, arcs_cons, arcs_cons]
            exact hadd)
        (sole_cons (sole_cons hboth hos1 rfl) (idle_cons hacc rfl) rfl)
        (idle_cons (idle_cons hos1 rfl) rfl) (idle_cons (idle_cons hoe1 rfl) rfl)
      have happ : (new' ++ [((lower x b).2.accept, NfaTransition.tEpsilon oe),
          (os, NfaTransition.tEpsilon (lower x b).2.start)] ++ new) ++ E =
          new' ++ ([((lower x b).2.accept, NfaTransition.tEpsilon oe),
            (os, NfaTransition.tEpsilon (lower x b).2.start)] ++ (new ++ E)) := by simp
      have hR : (fun u v => (R u v ∨ ∃ w z, u = w ∧ spans M copyCounts x w z ∧ z = v) ∨
          spansAny M copyCounts xs u v) =
          fun u v => R u v ∨ spansAny M copyCounts (x :: xs) u v := by
        funext u v
        simp [spansAny, or_assoc]
      refine ⟨new' ++ [((lower x b).2.accept, NfaTransition.tEpsilon oe),
        (os, NfaTransition.tEpsilon (lower x b).2.start)] ++ new, ?_, ?_, ?_, ?_, ?_⟩
      · change (lowerAlts xs os oe _).edges = _
        rw [hnew', List.append_assoc, List.append_assoc, ← hnew]
        rfl
      · rw [happ, ← hR]
        exact hchoice'
      all_goals rw [happ]
      · exact hsole'
      · exact hos'
      · exact hoe'

end

end Kaikai.RegexpLanguage
