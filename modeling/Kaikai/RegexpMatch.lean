import Kaikai.RegexpRun

namespace Kaikai.RegexpMatch

open Relation
open Kaikai.Fragment
open Kaikai.OrderedSearch
open Kaikai.OrderedSearch.Graph
open Kaikai.Regexp
open Kaikai.RegexpEngine
open Kaikai.RegexpLanguage
open Kaikai.RegexpPike
open Kaikai.RegexpRun
open Kaikai.RegexpSyntax
open Kaikai.RegexpText
open Kaikai.Str

/-- The builder that compilation starts from. -/
def emptyBuilder : NfaBuilder := ⟨[], 0, 0, -1⟩

def stateTable (a : RxAst) : List NfaState :=
  (List.range (lower a emptyBuilder).1.nextId).map fun p : Nat =>
    ⟨p, outEdges (lower a emptyBuilder).1.edges p, (p : Int) = (lower a emptyBuilder).2.accept⟩

def compiled (a : RxAst) : Nfa :=
  ⟨stateTable a, (lower a emptyBuilder).2.start, (lower a emptyBuilder).1.numGroups + 1⟩

theorem covers_lower {X : Type} (M : Reading X) (a : RxAst) :
    Covers M (lower a emptyBuilder).1.edges 0 (lower a emptyBuilder).1.nextId
      (lower a emptyBuilder).2 (spans M copyCounts a) := by
  obtain ⟨new, hnew, hcov⟩ := lowers_lower M a emptyBuilder
  rw [hnew, emptyBuilder, List.append_nil]
  exact hcov

theorem compileNfa_eq (a : RxAst) : compileNfa a = some (compiled a) := by
  have hsrc := (covers_lower (byteReading []) a).src
  rw [compileNfa, show (⟨[], 0, 0, -1⟩ : NfaBuilder) = emptyBuilder from rfl, compileFrag_eq,
    Option.bind_eq_bind, Option.bind_some,
    nbStates_spec { (lower a emptyBuilder).1 with accept := (lower a emptyBuilder).2.accept }
      (fun e he => (hsrc e he).2)]
  rfl

theorem stateTable_getElem? (a : RxAst) (q : Nat) :
    (stateTable a)[q]? = if q < (lower a emptyBuilder).1.nextId then
      some ⟨q, outEdges (lower a emptyBuilder).1.edges q,
        (q : Int) = (lower a emptyBuilder).2.accept⟩ else none := by
  unfold stateTable
  rw [List.getElem?_map]
  split
  · next h => rw [List.getElem?_range h]; rfl
  · next h => rw [List.getElem?_eq_none (by rw [List.length_range]; omega)]; rfl

/-- States whose ids count up from `k`. -/
def Numbered (k : Nat) : List NfaState → Prop
  | [] => True
  | st :: rest => st.id = k ∧ Numbered (k + 1) rest

theorem numbered_map_range' (f : Nat → NfaState) (hf : ∀ p, (f p).id = p) (n : Nat) :
    ∀ k, Numbered k ((List.range' k n).map f) := by
  induction n with
  | zero => exact fun k => trivial
  | succ n ih =>
      intro k
      rw [List.range'_succ, List.map_cons]
      exact ⟨hf k, ih (k + 1)⟩

theorem numbered_stateTable (a : RxAst) : Numbered 0 (stateTable a) := by
  unfold stateTable
  rw [List.range_eq_range']
  exact numbered_map_range' _ (fun _ => rfl) _ 0

theorem rxMaxId_numbered (states : List NfaState) : ∀ (k : Nat) (best : Int), Numbered k states →
    states ≠ [] → best ≤ k → rxMaxId states best = k + states.length - 1 := by
  induction states with
  | nil => exact fun k best _ hne => absurd rfl hne
  | cons st states ih =>
      intro k best hnum _ hbest
      obtain ⟨hid, hrest⟩ := hnum
      have htop : (if st.id > best then st.id else best) = k := by
        rw [hid]
        split <;> omega
      rw [rxMaxId, htop]
      by_cases hnil : states = []
      · subst hnil
        simp [rxMaxId]
      · rw [ih (k + 1) k hrest hnil (by omega), List.length_cons]
        omega

theorem rxFillTable_numbered (states : List NfaState) : ∀ (k : Nat) (tbl : List NfaState),
    Numbered k states → k + states.length = tbl.length →
    rxFillTable states tbl = some (tbl.take k ++ states) := by
  induction states with
  | nil =>
      intro k tbl _ hlen
      rw [rxFillTable, List.take_of_length_le (by simpa using hlen.ge), List.append_nil]
  | cons st states ih =>
      intro k tbl hnum hlen
      obtain ⟨hid, hrest⟩ := hnum
      rw [List.length_cons] at hlen
      have hk : k < tbl.length := by omega
      rw [rxFillTable, if_neg (by omega), hid, Int.toNat_natCast, vecSet, if_pos hk,
        Option.bind_eq_bind, Option.bind_some,
        ih (k + 1) _ hrest (by rw [List.length_set]; omega)]
      rw [List.take_succ_eq_append_getElem (by rw [List.length_set]; exact hk),
        List.getElem_set_self, List.take_set_of_le le_rfl, List.append_assoc, List.singleton_append]

theorem stateTable_ne_nil (a : RxAst) : stateTable a ≠ [] := by
  have hstart := (covers_lower (byteReading []) a).realizes.start.2
  intro hnil
  have hlen := congrArg List.length hnil
  rw [stateTable, List.length_map, List.length_range, List.length_nil] at hlen
  omega

theorem rxSim_compiled (a : RxAst) (s : Str) :
    rxSim (compiled a) s = some ⟨compiled a, stateTable a, s, s.length⟩ := by
  have hnum := numbered_stateTable a
  have hmax := rxMaxId_numbered _ 0 0 hnum (stateTable_ne_nil a) le_rfl
  rw [rxSim, show (compiled a).states = stateTable a from rfl, hmax]
  rw [rxFillTable_numbered (stateTable a) 0 _ hnum (by rw [vecMake, List.length_replicate]; omega)]
  rfl

theorem sound_compiled (a : RxAst) (s : Str) : Sound ⟨compiled a, stateTable a, s, s.length⟩ := by
  have hcov := covers_lower (byteReading []) a
  have hlen : (stateTable a).length = (lower a emptyBuilder).1.nextId := by
    rw [stateTable, List.length_map, List.length_range]
  have hst : ∀ {q : Nat} {st : NfaState}, (stateTable a)[q]? = some st →
      st = ⟨q, outEdges (lower a emptyBuilder).1.edges q,
        (q : Int) = (lower a emptyBuilder).2.accept⟩ := by
    intro q st h
    rw [stateTable_getElem?] at h
    split at h
    · exact (Option.some.inj h).symm
    · cases h
  refine ⟨rfl, ?_, ?_, ?_⟩
  · rw [hlen]
    exact hcov.realizes.start.2
  · intro q st h t ht
    rw [hst h, mem_outEdges] at ht
    rw [hlen]
    exact (hcov.realizes.arcs (arcOf _ _) ⟨_, ht, rfl⟩).2.2
  · intro q st h t ht hcons
    rw [hst h] at ht ⊢
    refine ⟨hcov.sole q t ht hcons, ?_⟩
    rw [decide_eq_false_iff_not]
    intro hacc
    rw [Int.natCast_inj.1 hacc] at ht
    rw [hcov.idle t ht] at hcons
    cases hcons

/-- Positions in bytes together with the captures recorded so far. -/
def captureReading (s : Str) : Reading (Nat × List Capture) where
  take := fun P x y => (x.1 < s.length ∧ P (rxCpAt s x.1) = true) ∧ y = (Regexp.rxNextPos s x.1, x.2)
  anchor := fun an x y => (match an with
    | .anchorStart => x.1 = 0
    | .anchorEnd => x.1 ≥ s.length) ∧ y = x
  opens := fun id x y => y = (x.1, rxCaptureSet x.2 id x.1 (-1) true)
  closes := fun id x y => y = (x.1, rxCaptureClose x.2 id x.1)

theorem bisim_captures (s : Str) :
    Bisim (fun x i => x.1 = i) (captureReading s) (byteReading s) where
  take := fun P => by
    constructor
    · rintro x _ _ rfl ⟨h, rfl⟩
      exact ⟨_, ⟨h, rfl⟩, rfl⟩
    · rintro x _ _ rfl ⟨h, rfl⟩
      exact ⟨_, ⟨h, rfl⟩, rfl⟩
  anchor := fun an => by
    cases an <;> constructor
    all_goals
      rintro x _ _ rfl ⟨h, rfl⟩
      exact ⟨_, ⟨h, rfl⟩, rfl⟩
  opens := fun id => by
    constructor <;> rintro x _ _ rfl rfl <;> exact ⟨_, rfl, rfl⟩
  closes := fun id => by
    constructor <;> rintro x _ _ rfl rfl <;> exact ⟨_, rfl, rfl⟩

theorem transition_iff (s : Str) (t : NfaTransition) (x y : Nat × List Capture) :
    (captureReading s).transition t x y ↔
      ∃ e, edgeAt s x.1 t = some e ∧ e.1 = (dst t, y.1) ∧ e.2 x.2 = y.2 := by
  have htake : ∀ P d, (captureReading s).take P x y ↔ ∃ e : Node × (List Capture → List Capture),
      (if x.1 < s.length then
        (if P (rxCpAt s x.1) = true then some d else none).map
          fun d => ((d, Regexp.rxNextPos s x.1), id)
        else none) = some e ∧ e.1 = (d, y.1) ∧ e.2 x.2 = y.2 := by
    intro P d
    by_cases hlt : x.1 < s.length
    · by_cases hP : P (rxCpAt s x.1) = true
      · rw [if_pos hlt, if_pos hP]
        constructor
        · rintro ⟨-, rfl⟩
          exact ⟨_, rfl, rfl, rfl⟩
        · rintro ⟨e, he, hpos, hcaps⟩
          cases he
          exact ⟨⟨hlt, hP⟩, Prod.ext (Prod.mk.inj hpos).2.symm hcaps.symm⟩
      · rw [if_pos hlt, if_neg hP]
        constructor
        · exact fun h => absurd h.1.2 hP
        · rintro ⟨e, he, -⟩
          cases he
    · rw [if_neg hlt]
      constructor
      · exact fun h => absurd h.1.1 hlt
      · rintro ⟨e, he, -⟩
        cases he
  have hkeep : ∀ (p : Prop) [Decidable p] (d : Nat), (p ∧ y = x) ↔
      ∃ e : Node × (List Capture → List Capture),
        (if p then some ((d, x.1), id) else none) = some e ∧ e.1 = (d, y.1) ∧ e.2 x.2 = y.2 := by
    intro p _ d
    by_cases hp : p
    · rw [if_pos hp]
      constructor
      · rintro ⟨-, rfl⟩
        exact ⟨_, rfl, rfl, rfl⟩
      · rintro ⟨e, he, hpos, hcaps⟩
        cases he
        exact ⟨hp, Prod.ext (Prod.mk.inj hpos).2.symm hcaps.symm⟩
    · rw [if_neg hp]
      constructor
      · exact fun h => absurd h.1 hp
      · rintro ⟨e, he, -⟩
        cases he
  have hrec : ∀ (f : List Capture → List Capture) (d : Nat), y = (x.1, f x.2) ↔
      ∃ e : Node × (List Capture → List Capture),
        some ((d, x.1), f) = some e ∧ e.1 = (d, y.1) ∧ e.2 x.2 = y.2 := by
    intro f d
    constructor
    · rintro rfl
      exact ⟨_, rfl, rfl, rfl⟩
    · rintro ⟨e, he, hpos, hcaps⟩
      cases he
      exact Prod.ext (Prod.mk.inj hpos).2.symm hcaps.symm
  cases t with
  | tChar c d =>
      refine (htake _ d).trans ?_
      simp only [edgeAt, rxConsumeTarget, dst, decide_eq_true_eq, @eq_comm _ (rxCpAt s x.1) c]
  | tClass rs neg d =>
      refine (htake _ d).trans ?_
      simp only [edgeAt, rxConsumeTarget, dst, decide_eq_true_eq]
  | tAny d =>
      refine (htake _ d).trans ?_
      simp only [edgeAt, rxConsumeTarget, dst, decide_eq_true_eq, ite_not]
  | tEpsilon d =>
      refine Iff.trans ?_ (hrec id d)
      exact eq_comm
  | tGroupOpen gid d => exact hrec (fun caps => rxCaptureSet caps gid x.1 (-1) true) d
  | tGroupClose gid d => exact hrec (fun caps => rxCaptureClose caps gid x.1) d
  | tAnchor an d =>
      cases an with
      | anchorStart => exact hkeep (x.1 = 0) d
      | anchorEnd => exact hkeep (x.1 ≥ s.length) d

/-- The graph that the simulation searches. -/
def tableGraph (a : RxAst) (s : Str) (full : Bool) : OrderedSearch.Graph Node (List Capture) :=
  simGraph ⟨compiled a, stateTable a, s, s.length⟩ full

theorem edge_iff_move (a : RxAst) (s : Str) (full : Bool) (q q' : Nat) (x y : Nat × List Capture) :
    (tableGraph a s full).Edge ((q, x.1), x.2) ((q', y.1), y.2) ↔
      Move (arcs (captureReading s) (lower a emptyBuilder).1.edges) (q, x) (q', y) := by
  have hlt : ∀ t, t ∈ outEdges (lower a emptyBuilder).1.edges q →
      q < (lower a emptyBuilder).1.nextId := fun t ht =>
    ((covers_lower (byteReading []) a).src _ (mem_outEdges.1 ht)).2
  have hsucc : ∀ e, e ∈ (tableGraph a s full).succ (q, x.1) ↔
      ∃ t ∈ outEdges (lower a emptyBuilder).1.edges q, edgeAt s x.1 t = some e := by
    intro e
    simp only [tableGraph, simGraph, backtrack, stateTable_getElem?]
    by_cases hq : q < (lower a emptyBuilder).1.nextId
    · rw [if_pos hq]
      exact List.mem_filterMap
    · rw [if_neg hq]
      constructor
      · exact fun h => absurd h List.not_mem_nil
      · rintro ⟨t, ht, -⟩
        exact absurd (hlt t ht) hq
  constructor
  · rintro ⟨e, he, heq⟩
    obtain ⟨t, ht, hedge⟩ := (hsucc e).1 he
    obtain ⟨hnode, hcaps⟩ := Prod.mk.inj heq
    have hdst : e.1 = (dst t, y.1) := by
      have hto := edgeAt_dst hedge
      rw [← hnode] at hto ⊢
      exact Prod.ext hto rfl
    refine ⟨arcOf _ (q, t), ⟨_, mem_outEdges.1 ht, rfl⟩, rfl, ?_, ?_⟩
    · rw [hdst] at hnode
      exact (Prod.mk.inj hnode).1.symm
    · exact (transition_iff s t x y).2 ⟨e, hedge, hdst, hcaps.symm⟩
  · rintro ⟨_, ⟨⟨p, t⟩, ht, rfl⟩, hsrc, hdst, hrel⟩
    cases hsrc
    cases hdst
    obtain ⟨e, hedge, hto, hcaps⟩ := (transition_iff s t x y).1 hrel
    refine ⟨e, (hsucc e).2 ⟨t, mem_outEdges.2 ht, hedge⟩, ?_⟩
    rw [hto, hcaps]
    rfl

theorem reach_iff_path (a : RxAst) (s : Str) (full : Bool) (q q' : Nat)
    (x y : Nat × List Capture) :
    (tableGraph a s full).Reach ((q, x.1), x.2) ((q', y.1), y.2) ↔
      Path (arcs (captureReading s) (lower a emptyBuilder).1.edges) (q, x) (q', y) := by
  constructor
  · intro h
    exact ReflTransGen.lift (fun z : Node × List Capture => (z.1.1, (z.1.2, z.2)))
      (fun u v huv => (edge_iff_move a s full u.1.1 v.1.1 (u.1.2, u.2) (v.1.2, v.2)).1 huv)
      _ _ h
  · intro h
    exact ReflTransGen.lift (fun z : Nat × (Nat × List Capture) => ((z.1, z.2.1), z.2.2))
      (fun u v huv => (edge_iff_move a s full u.1 v.1 u.2 v.2).2 huv) _ _ h

theorem goal_iff_accept (a : RxAst) (s : Str) (full : Bool) (n : Node) :
    (tableGraph a s full).goal n ↔
      n.1 = (lower a emptyBuilder).2.accept ∧ (n.2 ≥ s.length ∨ full = false) := by
  have hacc := (covers_lower (byteReading []) a).realizes.accept.2
  simp only [tableGraph, simGraph, backtrack, stateTable_getElem?]
  refine and_congr_left fun _ => ?_
  constructor
  · rintro ⟨st, hst, h⟩
    split at hst
    · cases hst
      exact Int.natCast_inj.1 (of_decide_eq_true h)
    · cases hst
  · intro h
    rw [if_pos (h ▸ hacc)]
    exact ⟨_, rfl, by rw [h]; exact decide_eq_true rfl⟩

theorem reach_goal_iff_spans (a : RxAst) (s : Str) (full : Bool) (p : Nat) (caps : List Capture)
    (n : Node) (caps' : List Capture) :
    ((tableGraph a s full).Reach (((compiled a).start, p), caps) (n, caps') ∧
        (tableGraph a s full).goal n) ↔
      n.1 = (lower a emptyBuilder).2.accept ∧ (n.2 ≥ s.length ∨ full = false) ∧
        spans (captureReading s) copyCounts a (p, caps) (n.2, caps') := by
  rw [goal_iff_accept, ← (covers_lower (captureReading s) a).realizes.path,
    show compiled a = ⟨stateTable a, (lower a emptyBuilder).2.start, _⟩ from rfl]
  have hpath := reach_iff_path a s full (lower a emptyBuilder).2.start n.1 (p, caps) (n.2, caps')
  constructor
  · rintro ⟨hreach, hacc, hend⟩
    refine ⟨hacc, hend, ?_⟩
    rw [← hacc]
    exact hpath.1 hreach
  · rintro ⟨hacc, hend, h⟩
    rw [← hacc] at h
    exact ⟨hpath.2 h, hacc, hend⟩

end Kaikai.RegexpMatch
