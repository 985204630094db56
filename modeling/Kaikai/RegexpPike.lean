import Kaikai.OrderedSearch
import Kaikai.RegexpText

/-!
The zero-width closure of the Pike VM, against a depth-first search of states and
positions. The closure works one position at a time: what it emits is the part of
the search that the later positions are still to do.
-/

namespace Kaikai.RegexpPike

open Kaikai.OrderedSearch
open Kaikai.OrderedSearch.Graph
open Kaikai.Regexp
open Kaikai.RegexpEngine
open Kaikai.RegexpLanguage
open Kaikai.RegexpSyntax
open Kaikai.RegexpText
open Kaikai.Str

/-- A state at a byte position. -/
abbrev Node := Nat × Nat

abbrev Work := Item Node (List Capture)

/-- A transition tried at a position: where it leads and what it records. -/
def edgeAt (s : Str) (pos : Nat) (t : NfaTransition) :
    Option (Node × (List Capture → List Capture)) :=
  match t with
  | .tEpsilon d => some ((d, pos), id)
  | .tGroupOpen gid d => some ((d, pos), fun caps => rxCaptureSet caps gid pos (-1) true)
  | .tGroupClose gid d => some ((d, pos), fun caps => rxCaptureClose caps gid pos)
  | .tAnchor .anchorStart d => if pos = 0 then some ((d, pos), id) else none
  | .tAnchor .anchorEnd d => if pos ≥ s.length then some ((d, pos), id) else none
  | t =>
      if pos < s.length then
        (rxConsumeTarget t (rxCpAt s pos)).map fun d => ((d, Regexp.rxNextPos s pos), id)
      else none

/-- The backtracking search of an NFA given by its states: transitions in list
order, then acceptance. -/
def backtrack (look : Nat → Option NfaState) (s : Str) (full : Bool) :
    OrderedSearch.Graph Node (List Capture) where
  succ := fun x =>
    match look x.1 with
    | some st => st.transitions.filterMap (edgeAt s x.2)
    | none => []
  goal := fun x =>
    (∃ st, look x.1 = some st ∧ st.accept = true) ∧ (x.2 ≥ s.length ∨ full = false)

/-- What the simulation needs of its table. -/
structure Sound (sim : RxSim) : Prop where
  n_eq : sim.n = sim.input.length
  start_lt : sim.nfa.start < sim.tbl.length
  dst_lt : ∀ {q : Nat} {st : NfaState}, sim.tbl[q]? = some st → ∀ t ∈ st.transitions, dst t < sim.tbl.length
  sole : ∀ {q : Nat} {st : NfaState}, sim.tbl[q]? = some st → ∀ t ∈ st.transitions, consuming t = true →
    st.transitions = [t] ∧ st.accept = false

def simGraph (sim : RxSim) (full : Bool) : OrderedSearch.Graph Node (List Capture) :=
  backtrack (fun q => sim.tbl[q]?) sim.input full

/-- Where the consuming transitions of a state lead. -/
def targets (sim : RxSim) (pos q : Nat) : List Nat :=
  match sim.tbl[q]? with
  | some st =>
      if pos < sim.n then
        st.transitions.filterMap fun t => rxConsumeTarget t (rxCpAt sim.input pos)
      else []
  | none => []

/-- The work of a thread at the next position. -/
def moveWork (sim : RxSim) (pos : Nat) (t : Thread) : List RxWork :=
  (targets sim pos t.stateId).map fun d => .wVisit d t.captures

/-- What the search still does of an emitted thread. -/
def expand (sim : RxSim) (pos : Nat) (t : Thread) : List Work :=
  (targets sim pos t.stateId).map
      (fun d => .visit (d, Regexp.rxNextPos sim.input pos) t.captures) ++
    [.finish (t.stateId, pos) t.captures]

/-- What the search does of a piece of closure work. -/
def items (sim : RxSim) (pos : Nat) : RxWork → List Work
  | .wVisit q caps => [.visit (q, pos) caps]
  | .wEmit q caps => expand sim pos ⟨q, caps⟩

theorem rxZeroWidthTargets_eq (ts : List NfaTransition) (caps : List Capture) (n pos : Nat) :
    ∀ acc, rxZeroWidthTargets ts caps n pos acc =
      (ts.filterMap fun t => rxZeroWidthStep t caps n pos).reverse ++ acc := by
  induction ts with
  | nil => exact fun _ => rfl
  | cons t ts ih =>
      intro acc
      rw [rxZeroWidthTargets]
      split
      · next w hw =>
          rw [ih, List.filterMap_cons, hw]
          simp
      · next hw => rw [ih, List.filterMap_cons, hw]

theorem consuming_of_consumeTarget {t : NfaTransition} {c : Char} {d : Nat}
    (h : rxConsumeTarget t c = some d) : consuming t = true := by
  cases t <;> first | rfl | cases h

theorem consumeTarget_dst {t : NfaTransition} {c : Char} {d : Nat}
    (h : rxConsumeTarget t c = some d) : d = dst t := by
  unfold rxConsumeTarget at h
  split at h
  · split at h <;> cases h; rfl
  · split at h <;> cases h; rfl
  · split at h <;> cases h; rfl
  · cases h

theorem rxZeroWidthStep_eq {t : NfaTransition} (ht : consuming t = false) (caps : List Capture)
    (s : Str) (pos : Nat) :
    rxZeroWidthStep t caps s.length pos =
      (edgeAt s pos t).map fun e => .wVisit e.1.1 (e.2 caps) := by
  cases t with
  | tChar c d => cases ht
  | tClass rs neg d => cases ht
  | tAny d => cases ht
  | tEpsilon d => rfl
  | tGroupOpen gid d => rfl
  | tGroupClose gid d => rfl
  | tAnchor an d =>
      cases an <;> simp only [rxZeroWidthStep, edgeAt] <;> split <;> rfl

theorem edgeAt_zeroWidth {t : NfaTransition} (ht : consuming t = false) {s : Str} {pos : Nat}
    {e : Node × (List Capture → List Capture)} (h : edgeAt s pos t = some e) :
    e.1 = (dst t, pos) := by
  cases t with
  | tChar c d => cases ht
  | tClass rs neg d => cases ht
  | tAny d => cases ht
  | tEpsilon d => cases h; rfl
  | tGroupOpen gid d => cases h; rfl
  | tGroupClose gid d => cases h; rfl
  | tAnchor an d =>
      cases an <;> simp only [edgeAt] at h <;> split at h <;> cases h <;> rfl

theorem edgeAt_consuming {t : NfaTransition} (ht : consuming t = true) (s : Str) (pos : Nat) :
    edgeAt s pos t = if pos < s.length then
      (rxConsumeTarget t (rxCpAt s pos)).map fun d => ((d, Regexp.rxNextPos s pos), id)
      else none := by
  cases t with
  | tChar c d => rfl
  | tClass rs neg d => rfl
  | tAny d => rfl
  | tEpsilon d => cases ht
  | tGroupOpen gid d => cases ht
  | tGroupClose gid d => cases ht
  | tAnchor an d => cases ht

theorem rxZeroWidthStep_consuming {t : NfaTransition} (ht : consuming t = true)
    (caps : List Capture) (n pos : Nat) : rxZeroWidthStep t caps n pos = none := by
  cases t with
  | tChar c d => rfl
  | tClass rs neg d => rfl
  | tAny d => rfl
  | tEpsilon d => cases ht
  | tGroupOpen gid d => cases ht
  | tGroupClose gid d => cases ht
  | tAnchor an d => cases ht

theorem consumeTarget_eq_none {t : NfaTransition} (ht : consuming t = false) (c : Char) :
    rxConsumeTarget t c = none := by
  cases h : rxConsumeTarget t c with
  | none => rfl
  | some d =>
      rw [consuming_of_consumeTarget h] at ht
      cases ht

theorem children_eq {sim : RxSim} (hsim : Sound sim) (full : Bool) {q : Nat} {st : NfaState}
    (hst : sim.tbl[q]? = some st) (pos : Nat) (caps : List Capture) :
    (simGraph sim full).children (q, pos) caps ++ [.finish (q, pos) caps] =
      ((rxZeroWidthTargets st.transitions caps sim.n pos []).reverse ++
        [RxWork.wEmit q caps]).flatMap (items sim pos) := by
  have hsucc : (simGraph sim full).succ (q, pos) =
      st.transitions.filterMap (edgeAt sim.input pos) := by
    simp only [simGraph, backtrack, hst]
  have htargets : targets sim pos q = if pos < sim.n then
      st.transitions.filterMap fun t => rxConsumeTarget t (rxCpAt sim.input pos) else [] := by
    simp only [targets, hst]
  rw [rxZeroWidthTargets_eq, List.append_nil, List.reverse_reverse, List.flatMap_append, children,
    hsucc, List.flatMap_singleton, items, expand, htargets, hsim.n_eq]
  by_cases hcons : ∃ t ∈ st.transitions, consuming t = true
  · obtain ⟨t, hmem, ht⟩ := hcons
    rw [(hsim.sole hst t hmem ht).1]
    simp only [List.filterMap_cons, List.filterMap_nil, edgeAt_consuming ht,
      rxZeroWidthStep_consuming ht, List.flatMap_nil, List.nil_append]
    by_cases hlt : pos < sim.input.length
    · rw [if_pos hlt, if_pos hlt]
      cases rxConsumeTarget t (rxCpAt sim.input pos) <;> rfl
    · rw [if_neg hlt, if_neg hlt]
      rfl
  · have hzero : ∀ t ∈ st.transitions, consuming t = false := fun t hmem => by
      rw [← Bool.not_eq_true]
      exact fun ht => hcons ⟨t, hmem, ht⟩
    have hnone : st.transitions.filterMap
        (fun t => rxConsumeTarget t (rxCpAt sim.input pos)) = [] := by
      rw [List.filterMap_eq_nil_iff]
      exact fun t hmem => consumeTarget_eq_none (hzero t hmem) _
    have hkids : ∀ ts : List NfaTransition, (∀ t ∈ ts, consuming t = false) →
        (ts.filterMap (edgeAt sim.input pos)).map (fun e => Item.visit e.1 (e.2 caps)) =
          (ts.filterMap fun t => rxZeroWidthStep t caps sim.input.length pos).flatMap
            (items sim pos) := by
      intro ts
      induction ts with
      | nil => exact fun _ => rfl
      | cons t ts ih =>
          intro hts
          have ht := hts t List.mem_cons_self
          have hstep := rxZeroWidthStep_eq ht caps sim.input pos
          have ih := ih fun u hu => hts u (List.mem_cons_of_mem t hu)
          cases hedge : edgeAt sim.input pos t with
          | none =>
              rw [hedge] at hstep
              rw [List.filterMap_cons_none hedge, ih, List.filterMap_cons, hstep]
              rfl
          | some e =>
              have hpos := edgeAt_zeroWidth ht hedge
              rw [hedge] at hstep
              rw [List.filterMap_cons_some hedge, List.map_cons, ih, List.filterMap_cons, hstep,
                Option.map_some, hpos]
              rfl
    rw [hnone, ite_self, List.map_nil, List.nil_append, hkids _ hzero]

/-- The closure as a relation: work, the stamps before, the threads emitted in
priority order, and the stamps after. -/
inductive Closes (sim : RxSim) (pos : Nat) :
    List RxWork → List Int → List Thread → List Int → Prop where
  | nil {seen : List Int} : Closes sim pos [] seen [] seen
  | skip {q : Nat} {caps : List Capture} {rest : List RxWork} {seen seen' : List Int}
      {T : List Thread} : seen[q]? = some (pos : Int) → Closes sim pos rest seen T seen' →
      Closes sim pos (.wVisit q caps :: rest) seen T seen'
  | enter {q : Nat} {caps : List Capture} {rest : List RxWork} {seen seen' : List Int}
      {T : List Thread} {x : Int} {st : NfaState} : seen[q]? = some x → x ≠ pos →
      sim.tbl[q]? = some st →
      Closes sim pos ((rxZeroWidthTargets st.transitions caps sim.n pos []).reverse ++
        .wEmit q caps :: rest) (seen.set q pos) T seen' →
      Closes sim pos (.wVisit q caps :: rest) seen T seen'
  | emit {q : Nat} {caps : List Capture} {rest : List RxWork} {seen seen' : List Int}
      {T : List Thread} {st : NfaState} : sim.tbl[q]? = some st → rxIsLive st = true →
      Closes sim pos rest seen T seen' →
      Closes sim pos (.wEmit q caps :: rest) seen (⟨q, caps⟩ :: T) seen'
  | drop {q : Nat} {caps : List Capture} {rest : List RxWork} {seen seen' : List Int}
      {T : List Thread} {st : NfaState} : sim.tbl[q]? = some st → rxIsLive st = false →
      Closes sim pos rest seen T seen' →
      Closes sim pos (.wEmit q caps :: rest) seen T seen'

theorem Closes.append {sim : RxSim} {pos : Nat} {W W' : List RxWork} {seen seen1 seen2 : List Int}
    {T T' : List Thread} (h : Closes sim pos W seen T seen1)
    (h' : Closes sim pos W' seen1 T' seen2) : Closes sim pos (W ++ W') seen (T ++ T') seen2 := by
  induction h with
  | nil => exact h'
  | skip hseen _ ih => exact .skip hseen (ih h')
  | enter hseen hne hst _ ih =>
      have ih := ih h'
      rw [List.append_assoc] at ih
      exact .enter hseen hne hst ih
  | emit hst hlive _ ih => exact .emit hst hlive (ih h')
  | drop hst hlive _ ih => exact .drop hst hlive (ih h')

theorem Closes.state_lt {sim : RxSim} {pos : Nat} {W : List RxWork} {seen seen' : List Int}
    {T : List Thread} (h : Closes sim pos W seen T seen') : ∀ t ∈ T, t.stateId < sim.tbl.length := by
  induction h with
  | nil => exact fun t ht => absurd ht List.not_mem_nil
  | skip _ _ ih => exact ih
  | enter _ _ _ _ ih => exact ih
  | emit hst _ _ ih =>
      intro t ht
      rcases List.mem_cons.1 ht with rfl | ht
      · exact (List.getElem?_eq_some_iff.1 hst).1
      · exact ih t ht
  | drop _ _ _ ih => exact ih

theorem getElem?_stamp {seen : List Int} {q : Nat} {x : Int} (h : seen[q]? = some x) (pos : Int)
    (q' : Nat) :
    (seen.set q pos)[q']? = some pos ↔ q' = q ∨ seen[q']? = some pos := by
  have hlt := (List.getElem?_eq_some_iff.1 h).1
  by_cases hq : q = q'
  · subst hq
    simp [hlt]
  · rw [List.getElem?_set_ne hq]
    simp [Ne.symm hq]

theorem Closes.stamped {sim : RxSim} {pos : Nat} {W : List RxWork} {seen seen' : List Int}
    {T : List Thread} (h : Closes sim pos W seen T seen') :
    ∀ q : Nat, seen[q]? = some (pos : Int) → seen'[q]? = some (pos : Int) := by
  induction h with
  | nil => exact fun _ h => h
  | skip _ _ ih => exact ih
  | enter hseen _ _ _ ih => exact fun q hq => ih q ((getElem?_stamp hseen _ q).2 (.inr hq))
  | emit _ _ _ ih => exact ih
  | drop _ _ _ ih => exact ih

/-- The nodes that the stamps of a position stand for. -/
def marks (seen : List Int) (pos : Nat) : Set Node :=
  {x | x.2 = pos ∧ seen[x.1]? = some (pos : Int)}

/-- The search has visited, at this position, what the stamps say. -/
def Marked (V : Set Node) (seen : List Int) (pos : Nat) : Prop :=
  ∀ q, (q, pos) ∈ V ↔ seen[q]? = some (pos : Int)

theorem Marked.union_marks {V : Set Node} {seen : List Int} {pos : Nat} (h : Marked V seen pos) :
    V ∪ marks seen pos = V := by
  apply Set.union_eq_left.2
  rintro ⟨q, p⟩ ⟨hp, hq⟩
  cases hp
  exact (h q).2 hq

/-- The nodes past a position. -/
def past (pos : Nat) : Set Node := {x | pos < x.2}

theorem disjoint_past_marks (seen : List Int) (pos : Nat) : Disjoint (past pos) (marks seen pos) := by
  rw [Set.disjoint_left]
  rintro x hx ⟨hp, -⟩
  exact absurd hp (ne_of_gt hx)

theorem edgeAt_dst {s : Str} {pos : Nat} {t : NfaTransition}
    {e : Node × (List Capture → List Capture)} (h : edgeAt s pos t = some e) : e.1.1 = dst t := by
  by_cases ht : consuming t = true
  · rw [edgeAt_consuming ht] at h
    split at h
    · rw [Option.map_eq_some_iff] at h
      obtain ⟨d, hd, rfl⟩ := h
      exact consumeTarget_dst hd
    · cases h
  · rw [edgeAt_zeroWidth (by simpa using ht) h]

theorem le_of_edgeAt {s : Str} {pos : Nat} {t : NfaTransition}
    {e : Node × (List Capture → List Capture)} (h : edgeAt s pos t = some e) : pos ≤ e.1.2 := by
  by_cases ht : consuming t = true
  · rw [edgeAt_consuming ht] at h
    split at h
    · next hlt =>
        rw [Option.map_eq_some_iff] at h
        obtain ⟨d, -, rfl⟩ := h
        exact (rxNextPos_bounds hlt).1.le
    · cases h
  · rw [edgeAt_zeroWidth (by simpa using ht) h]

theorem closed_past (look : Nat → Option NfaState) (s : Str) (full : Bool) (pos : Nat) :
    (backtrack look s full).Closed (past pos) := by
  intro x hx e he
  simp only [backtrack] at he
  split at he
  · obtain ⟨t, -, ht⟩ := List.mem_filterMap.1 he
    exact lt_of_lt_of_le hx (le_of_edgeAt ht)
  · cases he

theorem mem_targets {sim : RxSim} {pos q d : Nat} (h : d ∈ targets sim pos q) :
    pos < sim.n ∧ ∃ st, sim.tbl[q]? = some st ∧ ∃ t ∈ st.transitions, consuming t = true ∧ d = dst t := by
  unfold targets at h
  split at h
  · next st hst =>
      split at h
      · next hlt =>
          obtain ⟨t, ht, hd⟩ := List.mem_filterMap.1 h
          exact ⟨hlt, st, hst, t, ht, consuming_of_consumeTarget hd, consumeTarget_dst hd⟩
      · cases h
  · cases h

theorem within_expand {sim : RxSim} (hsim : Sound sim) (pos : Nat) (t : Thread) :
    Within (past pos) (expand sim pos t) := by
  intro n k hn
  unfold expand at hn
  rcases List.mem_append.1 hn with hn | hn
  · obtain ⟨d, hd, heq⟩ := List.mem_map.1 hn
    cases heq
    have hlt := (mem_targets hd).1
    rw [hsim.n_eq] at hlt
    exact (rxNextPos_bounds hlt).1
  · cases List.mem_singleton.1 hn

theorem within_append {S : Set Node} {p q : List Work} (hp : Within S p) (hq : Within S q) :
    Within S (p ++ q) := by
  intro n k hn
  rcases List.mem_append.1 hn with hn | hn
  · exact hp n k hn
  · exact hq n k hn

theorem within_flatMap_expand {sim : RxSim} (hsim : Sound sim) (pos : Nat) (T : List Thread) :
    Within (past pos) (T.flatMap (expand sim pos)) := by
  induction T with
  | nil => exact fun n k hn => absurd hn List.not_mem_nil
  | cons t T ih => exact within_append (within_expand hsim pos t) ih

/-- Work past a position comes first: it does not see the marks of the position, and
leaves them as they are. -/
theorem runs_prefix {look : Nat → Option NfaState} {s : Str} {full : Bool} {pos : Nat}
    {seen seen' : List Int} {P Q Q' : List Work} {V : Set Node} {o : Outcome Node (List Capture)}
    (hP : Within (past pos) P) (hV : Marked V seen pos)
    (hQ : ∀ V', Marked V' seen pos → (backtrack look s full).Runs Q (V' ∪ marks seen' pos) o →
      (backtrack look s full).Runs Q' V' o)
    (h : (backtrack look s full).Runs (P ++ Q) (V ∪ marks seen' pos) o) :
    (backtrack look s full).Runs (P ++ Q') V o := by
  have hS := closed_past look s full pos
  have hM := disjoint_past_marks seen' pos
  rcases h.of_append with ⟨n, k, rfl, hrun⟩ | ⟨V1, hrun, hrest⟩
  · rcases hrun.unmark hS hM rfl hP with ⟨n', k', ho, hrun'⟩ | ⟨V1, ho, -⟩
    · exact hrun'.append_found
    · cases ho
  · rcases hrun.unmark hS hM rfl hP with ⟨n', k', ho, -⟩ | ⟨V2, ho, hrun', hsub, hsup⟩
    · cases ho
    · cases ho
      refine hrun'.append_exhausted (hQ V2 (fun q => ?_) hrest)
      rw [← hV q]
      constructor
      · intro hq
        exact (hsup hq).elim id fun hpast => absurd hpast (lt_irrefl pos)
      · exact fun hq => hsub hq

theorem not_goal_of_not_live {sim : RxSim} {full : Bool} {q pos : Nat} {st : NfaState}
    (hst : sim.tbl[q]? = some st) (h : rxIsLive st = false) : ¬ (simGraph sim full).goal (q, pos) := by
  rintro ⟨⟨st', hst', hacc⟩, -⟩
  cases hst.symm.trans hst'
  simp [rxIsLive, hacc] at h

theorem consumes_of_mem {ts : List NfaTransition} {t : NfaTransition} (h : t ∈ ts)
    (ht : consuming t = true) : rxConsumes ts = true := by
  induction ts with
  | nil => cases h
  | cons u ts ih =>
      rcases List.mem_cons.1 h with rfl | hts
      · cases t <;> first | rfl | cases ht
      · cases u <;> first | rfl | exact ih hts

theorem targets_of_not_live {sim : RxSim} {q pos : Nat} {st : NfaState}
    (hst : sim.tbl[q]? = some st) (h : rxIsLive st = false) : targets sim pos q = [] := by
  rw [List.eq_nil_iff_forall_not_mem]
  intro d hd
  obtain ⟨-, st', hst', t, ht, hcons, -⟩ := mem_targets hd
  cases hst.symm.trans hst'
  rw [rxIsLive, Bool.or_eq_false_iff, consumes_of_mem ht hcons] at h
  cases h.2

/-- Searching the emitted threads, with everything the closure stamped already
visited, is searching the closure's work. -/
theorem Closes.runs {sim : RxSim} (hsim : Sound sim) (full : Bool) {pos : Nat} {W : List RxWork}
    {seen seen' : List Int} {T : List Thread} (h : Closes sim pos W seen T seen') :
    ∀ {V : Set Node} {rest : List Work} {o : Outcome Node (List Capture)}, Marked V seen pos →
      (simGraph sim full).Runs (T.flatMap (expand sim pos) ++ rest) (V ∪ marks seen' pos) o →
      (simGraph sim full).Runs (W.flatMap (items sim pos) ++ rest) V o := by
  induction h with
  | nil =>
      intro V rest o hV hrun
      rwa [hV.union_marks] at hrun
  | skip hseen _ ih => exact fun hV hrun => .skip ((hV _).2 hseen) (ih hV hrun)
  | @enter q caps W seen seen' T x st hseen hne hst hcl ih =>
      intro V rest o hV hrun
      have hnot : (q, pos) ∉ V := fun hq => by
        rw [(hV q).1 hq] at hseen
        exact hne (Option.some.inj hseen).symm
      have hV1 : Marked (insert (q, pos) V) (seen.set q pos) pos := fun q' => by
        rw [getElem?_stamp hseen, ← hV q', Set.mem_insert_iff, Prod.mk.injEq]
        simp
      have hmark : (q, pos) ∈ V ∪ marks seen' pos :=
        Or.inr ⟨rfl, hcl.stamped q ((getElem?_stamp hseen _ q).2 (.inl rfl))⟩
      have hrun1 := @ih _ rest o hV1
        (by rwa [Set.insert_union, Set.insert_eq_of_mem hmark])
      refine .enter hnot ?_
      have hkids := children_eq hsim full hst pos caps
      rw [← List.singleton_append, ← List.append_assoc, List.flatMap_append, ← hkids,
        List.append_assoc, List.append_assoc] at hrun1
      exact hrun1
  | emit hst hlive _ ih =>
      intro V rest o hV hrun
      rw [List.flatMap_cons, List.append_assoc] at hrun ⊢
      exact runs_prefix (within_expand hsim pos _) hV (fun V' hV' hrun' => ih hV' hrun') hrun
  | @drop q caps W seen seen' T st hst hlive _ ih =>
      intro V rest o hV hrun
      rw [List.flatMap_cons, items, expand, targets_of_not_live hst hlive]
      exact .miss (not_goal_of_not_live hst hlive) (ih hV hrun)

end Kaikai.RegexpPike
