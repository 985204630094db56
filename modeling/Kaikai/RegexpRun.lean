import Kaikai.RegexpPike

namespace Kaikai.RegexpRun

open Kaikai.OrderedSearch
open Kaikai.OrderedSearch.Graph
open Kaikai.Regexp
open Kaikai.RegexpEngine
open Kaikai.RegexpLanguage
open Kaikai.RegexpPike
open Kaikai.RegexpSyntax
open Kaikai.RegexpText
open Kaikai.Str

/-- The work that the states not stamped yet can still add. -/
def room (pos : Nat) : List NfaState → List Int → Nat
  | st :: tbl, x :: seen =>
      (if x = pos then 0 else st.transitions.length + 1) + room pos tbl seen
  | _, _ => 0

theorem room_le (pos : Nat) (tbl : List NfaState) :
    ∀ seen, room pos tbl seen ≤ (tbl.map fun st => st.transitions.length + 1).sum := by
  induction tbl with
  | nil =>
      intro seen
      rw [room.eq_def]
      exact Nat.zero_le _
  | cons st tbl ih =>
      intro seen
      cases seen with
      | nil => exact Nat.zero_le _
      | cons x seen =>
          have := ih seen
          rw [room, List.map_cons, List.sum_cons]
          split <;> omega

theorem room_stamp (pos : Nat) (tbl : List NfaState) : ∀ (seen : List Int) (q : Nat) (x : Int)
    (st : NfaState), tbl[q]? = some st → seen[q]? = some x → x ≠ pos →
    room pos tbl (seen.set q pos) + (st.transitions.length + 1) = room pos tbl seen := by
  induction tbl with
  | nil =>
      intro seen q x st hst
      cases hst
  | cons st0 tbl ih =>
      intro seen q x st hst hseen hne
      cases seen with
      | nil => cases hseen
      | cons y seen =>
          cases q with
          | zero =>
              cases hst
              cases hseen
              rw [List.set_cons_zero, room, room, if_pos rfl, if_neg hne]
              omega
          | succ q =>
              rw [List.set_cons_succ, room, room]
              have := ih seen q x st hst hseen hne
              omega

/-- Closure work on states of the table. -/
def InTable (sim : RxSim) : RxWork → Prop
  | .wVisit q _ => q < sim.tbl.length
  | .wEmit q _ => q < sim.tbl.length

theorem rxZeroWidthStep_dst {t : NfaTransition} {caps : List Capture} {n pos : Nat} {w : RxWork}
    (h : rxZeroWidthStep t caps n pos = some w) : ∃ caps', w = .wVisit (dst t) caps' := by
  unfold rxZeroWidthStep at h
  split at h
  · cases h; exact ⟨_, rfl⟩
  · cases h; exact ⟨_, rfl⟩
  · cases h; exact ⟨_, rfl⟩
  · split at h <;> cases h; exact ⟨_, rfl⟩
  · split at h <;> cases h; exact ⟨_, rfl⟩
  · cases h

theorem inTable_kids {sim : RxSim} (hsim : Sound sim) {q : Nat} {st : NfaState}
    (hst : sim.tbl[q]? = some st) (caps : List Capture) (n pos : Nat) :
    ∀ w ∈ rxZeroWidthTargets st.transitions caps n pos [], InTable sim w := by
  intro w hw
  rw [rxZeroWidthTargets_eq, List.append_nil, List.mem_reverse] at hw
  obtain ⟨t, ht, hstep⟩ := List.mem_filterMap.1 hw
  obtain ⟨caps', rfl⟩ := rxZeroWidthStep_dst hstep
  exact hsim.dst_lt hst t ht

theorem rxAddFuel_closes {sim : RxSim} (hsim : Sound sim) (pos : Nat) (fuel : Nat) :
    ∀ (W : List RxWork) (seen : List Int) (out : List Thread),
      seen.length = sim.tbl.length → (∀ w ∈ W, InTable sim w) →
      W.length + room pos sim.tbl seen ≤ fuel →
      ∃ T seen', rxAddFuel fuel sim W pos seen out = some ⟨T.reverse ++ out, seen'⟩ ∧
        Closes sim pos W seen T seen' ∧ seen'.length = sim.tbl.length := by
  induction fuel with
  | zero =>
      intro W seen out hlen hW hfuel
      cases W with
      | nil => exact ⟨[], seen, by rw [rxAddFuel]; rfl, .nil, hlen⟩
      | cons w W => simp at hfuel
  | succ fuel ih =>
      intro W seen out hlen hW hfuel
      cases W with
      | nil => exact ⟨[], seen, by rw [rxAddFuel]; rfl, .nil, hlen⟩
      | cons w W =>
          have hrest : ∀ w ∈ W, InTable sim w := fun w' hw' => hW w' (List.mem_cons_of_mem w hw')
          rw [List.length_cons] at hfuel
          cases w with
          | wVisit q caps =>
              have hq : q < sim.tbl.length := hW _ List.mem_cons_self
              obtain ⟨st, hst⟩ : ∃ st, sim.tbl[q]? = some st := ⟨_, List.getElem?_eq_getElem hq⟩
              obtain ⟨x, hseen⟩ : ∃ x, seen[q]? = some x :=
                ⟨_, List.getElem?_eq_getElem (hlen ▸ hq)⟩
              rw [rxAddFuel, vecGet, hseen, Option.bind_eq_bind, Option.bind_some]
              by_cases hstamp : x = (pos : Int)
              · rw [if_pos hstamp]
                obtain ⟨T, seen', hrun, hcl, hlen'⟩ := ih W seen out hlen hrest (by omega)
                rw [hstamp] at hseen
                exact ⟨T, seen', hrun, .skip hseen hcl, hlen'⟩
              · rw [if_neg hstamp, vecGet, hst, Option.bind_eq_bind, Option.bind_some, vecSet,
                  if_pos (hlen ▸ hq), Option.bind_eq_bind, Option.bind_some]
                have hroom := room_stamp pos sim.tbl seen q _ _ hst hseen hstamp
                have hkids : (rxZeroWidthTargets st.transitions caps sim.n pos
                    []).length ≤ st.transitions.length := by
                  rw [rxZeroWidthTargets_eq, List.append_nil, List.length_reverse]
                  exact List.length_filterMap_le _ _
                obtain ⟨T, seen', hrun, hcl, hlen'⟩ := ih
                  ((rxZeroWidthTargets st.transitions caps sim.n pos []).reverse ++
                    .wEmit q caps :: W) (seen.set q pos) out (by rw [List.length_set, hlen])
                  (by
                    intro w hw
                    rcases List.mem_append.1 hw with hw | hw
                    · exact inTable_kids hsim hst caps sim.n pos w (List.mem_reverse.1 hw)
                    · rcases List.mem_cons.1 hw with rfl | hw
                      · exact hq
                      · exact hrest w hw)
                  (by
                    rw [List.length_append, List.length_reverse, List.length_cons]
                    omega)
                exact ⟨T, seen', hrun, .enter hseen hstamp hst hcl, hlen'⟩
          | wEmit q caps =>
              have hq : q < sim.tbl.length := hW _ List.mem_cons_self
              obtain ⟨st, hst⟩ : ∃ st, sim.tbl[q]? = some st := ⟨_, List.getElem?_eq_getElem hq⟩
              rw [rxAddFuel, vecGet, hst, Option.bind_eq_bind, Option.bind_some]
              by_cases hlive : rxIsLive st = true
              · obtain ⟨T, seen', hrun, hcl, hlen'⟩ :=
                  ih W seen (⟨q, caps⟩ :: out) hlen hrest (by omega)
                refine ⟨⟨q, caps⟩ :: T, seen', ?_, .emit hst hlive hcl, hlen'⟩
                rw [if_pos hlive, hrun]
                simp
              · obtain ⟨T, seen', hrun, hcl, hlen'⟩ := ih W seen out hlen hrest (by omega)
                refine ⟨T, seen', ?_, .drop hst (by simpa using hlive) hcl, hlen'⟩
                rw [if_neg hlive, hrun]

theorem rxAdd_closes {sim : RxSim} (hsim : Sound sim) {q : Nat} (hq : q < sim.tbl.length)
    (caps : List Capture) (pos : Nat) {seen : List Int} (out : List Thread)
    (hlen : seen.length = sim.tbl.length) :
    ∃ T seen', rxAdd sim q caps pos seen out = some ⟨T.reverse ++ out, seen'⟩ ∧
      Closes sim pos [.wVisit q caps] seen T seen' ∧ seen'.length = sim.tbl.length := by
  refine rxAddFuel_closes hsim pos _ _ seen out hlen ?_ ?_
  · intro w hw
    cases List.mem_singleton.1 hw
    exact hq
  · have := room_le pos sim.tbl seen
    rw [closureFuel, List.length_singleton]
    omega

/-- The work that the consuming transitions of a list add. -/
def consumed (ts : List NfaTransition) (caps : List Capture) (c : Char) : List RxWork :=
  (ts.filterMap fun t => rxConsumeTarget t c).map fun d => .wVisit d caps

theorem rxStepThread_closes {sim : RxSim} (hsim : Sound sim) (caps : List Capture) (c : Char)
    (npos : Nat) (ts : List NfaTransition) (hts : ∀ t ∈ ts, dst t < sim.tbl.length) :
    ∀ (seen : List Int) (out : List Thread), seen.length = sim.tbl.length →
      ∃ T seen', rxStepThread sim ts caps c npos seen out = some ⟨T.reverse ++ out, seen'⟩ ∧
        Closes sim npos (consumed ts caps c) seen T seen' ∧ seen'.length = sim.tbl.length := by
  induction ts with
  | nil => exact fun seen out hlen => ⟨[], seen, rfl, .nil, hlen⟩
  | cons t ts ih =>
      intro seen out hlen
      have ih := ih fun u hu => hts u (List.mem_cons_of_mem t hu)
      rw [rxStepThread]
      cases htarget : rxConsumeTarget t c with
      | none =>
          rw [consumed, List.filterMap_cons, htarget]
          exact ih seen out hlen
      | some d =>
          have hd : d < sim.tbl.length := by
            rw [consumeTarget_dst htarget]
            exact hts t List.mem_cons_self
          obtain ⟨T1, seen1, hadd, hcl1, hlen1⟩ := rxAdd_closes hsim hd caps npos out hlen
          obtain ⟨T2, seen2, hstep, hcl2, hlen2⟩ := ih seen1 (T1.reverse ++ out) hlen1
          refine ⟨T1 ++ T2, seen2, ?_, ?_, hlen2⟩
          · simp only [hadd, Option.bind_eq_bind, Option.bind_some, hstep, List.reverse_append,
              List.append_assoc]
          · rw [consumed, List.filterMap_cons, htarget]
            exact hcl1.append hcl2

/-- The match that a thread accepting at `pos` makes. -/
def matchOf (pos : Nat) (caps : List Capture) : Match :=
  let closed := rxCaptureClose caps 0 pos
  ⟨rxMatchStart closed, pos, closed⟩

/-- The character that threads at `pos` read. -/
def charAtPos (sim : RxSim) (pos : Nat) : Option Char :=
  if pos ≥ sim.n then none else some (rxCpAt sim.input pos)

theorem goal_iff {sim : RxSim} (hsim : Sound sim) {full : Bool} {q pos : Nat} {st : NfaState}
    (hst : sim.tbl[q]? = some st) :
    (simGraph sim full).goal (q, pos) ↔ (st.accept && (pos ≥ sim.n || !full)) = true := by
  simp only [simGraph, backtrack, hst, hsim.n_eq, Option.some.injEq, exists_eq_left', Bool.and_eq_true,
    Bool.or_eq_true, decide_eq_true_eq, Bool.not_eq_true']

theorem moveWork_eq {sim : RxSim} {pos : Nat} {t : Thread} {st : NfaState}
    (hst : sim.tbl[t.stateId]? = some st) :
    moveWork sim pos t = match charAtPos sim pos with
      | none => []
      | some c => consumed st.transitions t.captures c := by
  unfold moveWork targets charAtPos consumed
  simp only [hst]
  by_cases hpos : pos ≥ sim.n
  · rw [if_pos hpos, if_neg (Nat.not_lt.2 hpos), List.map_nil]
  · rw [if_neg hpos, if_pos (Nat.lt_of_not_le hpos)]

/-- Threads run in priority order until the first that accepts: the earlier ones
have moved on, the later ones are cut. -/
theorem rxRun_spec {sim : RxSim} (hsim : Sound sim) (full : Bool) (pos : Nat)
    (best : Option Match) (threads : List Thread) : ∀ (out : List Thread) (seen : List Int),
    (∀ t ∈ threads, t.stateId < sim.tbl.length) → seen.length = sim.tbl.length →
    ∃ A T seen' best', rxRun sim threads pos (charAtPos sim pos) full out seen best =
        some ⟨T.reverse ++ out, seen', best'⟩ ∧
      Closes sim (Regexp.rxNextPos sim.input pos) (A.flatMap (moveWork sim pos)) seen T seen' ∧
      seen'.length = sim.tbl.length ∧
      (∀ t ∈ A, ¬ (simGraph sim full).goal (t.stateId, pos)) ∧
      ((threads = A ∧ best' = best) ∨ ∃ t B, threads = A ++ t :: B ∧
        (simGraph sim full).goal (t.stateId, pos) ∧ best' = some (matchOf pos t.captures)) := by
  induction threads with
  | nil =>
      intro out seen _ hlen
      exact ⟨[], [], seen, best, rfl, .nil, hlen, by simp, .inl ⟨rfl, rfl⟩⟩
  | cons t threads ih =>
      intro out seen hstates hlen
      obtain ⟨st, hst⟩ : ∃ st, sim.tbl[t.stateId]? = some st :=
        ⟨_, List.getElem?_eq_getElem (hstates t List.mem_cons_self)⟩
      have hgoal := @goal_iff _ hsim full _ pos _ hst
      have ih := fun out seen => ih out seen fun u hu => hstates u (List.mem_cons_of_mem t hu)
      rw [rxRun, vecGet, hst, Option.bind_eq_bind, Option.bind_some]
      by_cases hacc : (st.accept && (decide (pos ≥ sim.n) || !full)) = true
      · rw [if_pos hacc]
        exact ⟨[], [], seen, _, rfl, .nil, hlen, by simp, .inr ⟨t, threads, rfl, hgoal.2 hacc, rfl⟩⟩
      · rw [if_neg hacc]
        have hmove := @moveWork_eq _ pos _ _ hst
        have hA : ∀ A : List Thread, (∀ u ∈ A, ¬ (simGraph sim full).goal (u.stateId, pos)) →
            ∀ u ∈ t :: A, ¬ (simGraph sim full).goal (u.stateId, pos) := by
          intro A hA u hu
          rcases List.mem_cons.1 hu with rfl | hu
          · exact fun h => hacc (hgoal.1 h)
          · exact hA u hu
        cases hch : charAtPos sim pos with
        | none =>
            rw [hch] at ih hmove
            obtain ⟨A, T, seen', best', hrun, hcl, hlen', hnot, hend⟩ := ih out seen hlen
            refine ⟨t :: A, T, seen', best', hrun, ?_, hlen', hA A hnot, ?_⟩
            · rwa [List.flatMap_cons, hmove, List.nil_append]
            · rcases hend with ⟨rfl, hbest⟩ | ⟨u, B, rfl, hu⟩
              · exact .inl ⟨rfl, hbest⟩
              · exact .inr ⟨u, B, rfl, hu⟩
        | some c =>
            rw [hch] at ih hmove
            obtain ⟨T1, seen1, hstep, hcl1, hlen1⟩ := rxStepThread_closes hsim t.captures c
              (Regexp.rxNextPos sim.input pos) _ (hsim.dst_lt hst) seen out hlen
            obtain ⟨A, T, seen', best', hrun, hcl, hlen', hnot, hend⟩ :=
              ih (T1.reverse ++ out) seen1 hlen1
            refine ⟨t :: A, T1 ++ T, seen', best', ?_, ?_, hlen', hA A hnot, ?_⟩
            · simp only [hstep, Option.bind_eq_bind, Option.bind_some, hrun, List.reverse_append,
                List.append_assoc]
            · rw [List.flatMap_cons, hmove]
              exact hcl1.append hcl
            · rcases hend with ⟨rfl, hbest⟩ | ⟨u, B, rfl, hu⟩
              · exact .inl ⟨rfl, hbest⟩
              · exact .inr ⟨u, B, rfl, hu⟩

/-- The positions that a search may start from. -/
def startPositions (s : Str) (pos : Nat) : List Nat :=
  if _h : pos < s.length then pos :: startPositions s (Regexp.rxNextPos s pos) else [pos]
termination_by s.length - pos
decreasing_by
  have := rxNextPos_bounds _h
  omega

theorem startPositions_eq (s : Str) (pos : Nat) : startPositions s pos =
    pos :: if pos < s.length then startPositions s (Regexp.rxNextPos s pos) else [] := by
  rw [startPositions]
  split <;> rfl

/-- The data of a search that enters at `pos`. -/
def startAt (nfa : Nfa) (pos : Nat) : Node × List Capture := ((nfa.start, pos), [⟨0, pos, -1⟩])

def startItem (sim : RxSim) (pos : Nat) : Work := .visit (sim.nfa.start, pos) [⟨0, pos, -1⟩]

/-- The starts after `pos`, while nothing has been found. -/
def laterStarts (sim : RxSim) (full : Bool) (best : Option Match) (pos : Nat) : List Work :=
  if full || best.isSome then []
  else if pos < sim.n then
    (startPositions sim.input (Regexp.rxNextPos sim.input pos)).map (startItem sim)
  else []

/-- The starts from `pos` on. -/
def starts (sim : RxSim) (fromPos pos : Nat) (full : Bool) (best : Option Match) : List Work :=
  if best.isSome || full && pos > fromPos then [] else startItem sim pos :: laterStarts sim full best pos

theorem starts_next {sim : RxSim} (hsim : Sound sim) {fromPos pos : Nat} (hfrom : fromPos ≤ pos)
    (hpos : pos < sim.n) (full : Bool) (best : Option Match) :
    starts sim fromPos (Regexp.rxNextPos sim.input pos) full best =
      laterStarts sim full best pos := by
  have hnext := rxNextPos_bounds (s := sim.input) (hsim.n_eq ▸ hpos)
  unfold starts laterStarts
  cases best with
  | some m => simp
  | none =>
      cases full with
      | true =>
          have hgt : Regexp.rxNextPos sim.input pos > fromPos := by omega
          simp [hgt]
      | false =>
          simp only [Option.isSome_none, Bool.false_and, Bool.or_false, Bool.false_eq_true,
            if_false, if_pos hpos]
          rw [startPositions_eq sim.input (Regexp.rxNextPos sim.input pos), hsim.n_eq]
          split <;> rfl

/-- The search has marked no position past `pos`, and at `pos` what is stamped. -/
structure Upto (V : Set Node) (seen : List Int) (pos : Nat) : Prop where
  marked : Marked V seen pos
  le : ∀ x ∈ V, x.2 ≤ pos
  stamp_le : ∀ x ∈ seen, x ≤ (pos : Int)

theorem stamps_le {sim : RxSim} {pos : Nat} {W : List RxWork} {seen seen' : List Int}
    {T : List Thread} (h : Closes sim pos W seen T seen') :
    (∀ x ∈ seen, x ≤ (pos : Int)) → ∀ x ∈ seen', x ≤ (pos : Int) := by
  induction h with
  | nil => exact id
  | skip _ _ ih => exact ih
  | enter _ _ _ _ ih =>
      intro hle
      refine ih fun x hx => ?_
      rcases List.mem_or_eq_of_mem_set hx with hx | rfl
      · exact hle x hx
      · exact le_rfl
  | emit _ _ _ ih => exact ih
  | drop _ _ _ ih => exact ih

theorem Upto.closes {sim : RxSim} {pos : Nat} {W : List RxWork} {seen seen' : List Int}
    {T : List Thread} {V : Set Node} (h : Upto V seen pos) (hcl : Closes sim pos W seen T seen') :
    Upto (V ∪ marks seen' pos) seen' pos where
  marked := fun q => by
    constructor
    · rintro (hq | ⟨-, hq⟩)
      · exact hcl.stamped q ((h.marked q).1 hq)
      · exact hq
    · exact fun hq => .inr ⟨rfl, hq⟩
  le := by
    rintro x (hx | ⟨hx, -⟩)
    · exact h.le x hx
    · exact hx.le
  stamp_le := stamps_le hcl h.stamp_le

theorem Upto.next {V : Set Node} {seen : List Int} {pos npos : Nat} (h : Upto V seen pos)
    (hlt : pos < npos) : Upto V seen npos where
  marked := fun q => by
    constructor
    · intro hq
      exact absurd (h.le _ hq) (Nat.not_le.2 hlt)
    · intro hq
      have := h.stamp_le _ (List.mem_of_getElem? hq)
      omega
  le := fun x hx => (h.le x hx).trans hlt.le
  stamp_le := fun x hx => by
    have := h.stamp_le x hx
    omega

theorem expand_eq (sim : RxSim) (pos : Nat) (t : Thread) : expand sim pos t =
    (moveWork sim pos t).flatMap (items sim (Regexp.rxNextPos sim.input pos)) ++
      [.finish (t.stateId, pos) t.captures] := by
  unfold expand moveWork
  rw [List.flatMap_map]
  congr 1
  induction targets sim pos t.stateId with
  | nil => rfl
  | cons d ds ih =>
      rw [List.map_cons, ih]
      rfl

theorem runs_misses {sim : RxSim} {full : Bool} {pos : Nat} {A : List Thread}
    (hA : ∀ t ∈ A, ¬ (simGraph sim full).goal (t.stateId, pos)) {rest : List Work} :
    ∀ {V : Set Node} {o : Outcome Node (List Capture)},
      (simGraph sim full).Runs ((A.flatMap (moveWork sim pos)).flatMap
        (items sim (Regexp.rxNextPos sim.input pos)) ++ rest) V o →
      (simGraph sim full).Runs (A.flatMap (expand sim pos) ++ rest) V o := by
  induction A with
  | nil => exact fun h => h
  | cons t A ih =>
      intro V o h
      have hA' : ∀ u ∈ A, ¬ (simGraph sim full).goal (u.stateId, pos) :=
        fun u hu => hA u (List.mem_cons_of_mem t hu)
      rw [List.flatMap_cons, List.flatMap_append, List.append_assoc] at h
      rw [List.flatMap_cons, List.append_assoc, expand_eq, List.append_assoc]
      rcases h.of_append with ⟨n, k, rfl, hrun⟩ | ⟨V1, hrun, hrest⟩
      · exact hrun.append_found
      · exact hrun.append_exhausted (.miss (hA t List.mem_cons_self) (ih hA' hrest))

theorem targets_of_goal {sim : RxSim} (hsim : Sound sim) {full : Bool} {q pos : Nat}
    (h : (simGraph sim full).goal (q, pos)) : targets sim pos q = [] := by
  obtain ⟨⟨st, hst, hacc⟩, -⟩ := h
  rw [List.eq_nil_iff_forall_not_mem]
  intro d hd
  obtain ⟨-, st', hst', t, ht, hcons, -⟩ := mem_targets hd
  cases hst.symm.trans hst'
  rw [(hsim.sole hst t ht hcons).2] at hacc
  cases hacc

theorem targets_of_ge {sim : RxSim} {pos q : Nat} (h : pos ≥ sim.n) : targets sim pos q = [] := by
  rw [List.eq_nil_iff_forall_not_mem]
  exact fun d hd => absurd (mem_targets hd).1 (Nat.not_lt.2 h)

/-- What the loop answers for an outcome of the search. -/
def answer : Outcome Node (List Capture) → Option Match
  | .found n caps => some (matchOf n.2 caps)
  | .exhausted _ => none

/-- Seeding gives threads whose search is the search of the live threads and the
start at this position. -/
def Seeds (sim : RxSim) (full : Bool) (fromPos pos : Nat) (live : List Thread)
    (best : Option Match) (seen : List Int) (V : Set Node) : Prop :=
  ∃ (T : List Thread) (seen' : List Int),
    rxSeed sim fromPos pos full live best seen = some ⟨T.reverse, seen'⟩ ∧
    (∀ t ∈ T, t.stateId < sim.tbl.length) ∧ seen'.length = sim.tbl.length ∧
    Upto (V ∪ marks seen' pos) seen' pos ∧
    ∀ o, (simGraph sim full).Runs (T.flatMap (expand sim pos) ++ laterStarts sim full best pos)
        (V ∪ marks seen' pos) o →
      (simGraph sim full).Runs (live.flatMap (expand sim pos) ++
        starts sim fromPos pos full best) V o

theorem rxSeed_spec {sim : RxSim} (hsim : Sound sim) (full : Bool) (fromPos pos : Nat)
    {live : List Thread} (best : Option Match) {seen : List Int}
    (hlive : ∀ t ∈ live, t.stateId < sim.tbl.length) (hlen : seen.length = sim.tbl.length)
    {V : Set Node} (hV : Upto V seen pos) : Seeds sim full fromPos pos live best seen V := by
  have hkeep : rxSeed sim fromPos pos full live best seen = some ⟨live.reverse, seen⟩ →
      laterStarts sim full best pos = starts sim fromPos pos full best →
      Seeds sim full fromPos pos live best seen V := by
    intro hseed hstarts
    refine ⟨live, seen, hseed, hlive, hlen, ?_, fun o h => ?_⟩
    · rwa [hV.marked.union_marks]
    · rwa [hV.marked.union_marks, hstarts] at h
  cases best with
  | some m => exact hkeep rfl (by simp [laterStarts, starts])
  | none =>
      by_cases hfull : (full && decide (pos > fromPos)) = true
      · refine hkeep (by rw [rxSeed, if_pos hfull]) ?_
        simp only [Bool.and_eq_true] at hfull
        simp [laterStarts, starts, hfull.1, hfull.2]
      · obtain ⟨T, seen', hadd, hcl, hlen'⟩ :=
          rxAdd_closes hsim hsim.start_lt [⟨0, pos, -1⟩] pos live.reverse hlen
        refine ⟨live ++ T, seen', ?_, ?_, hlen', hV.closes hcl, fun o h => ?_⟩
        · rw [rxSeed, if_neg hfull, hadd, List.reverse_append]
        · intro t ht
          rcases List.mem_append.1 ht with ht | ht
          · exact hlive t ht
          · exact hcl.state_lt t ht
        · have hstarts : starts sim fromPos pos full none =
              startItem sim pos :: laterStarts sim full none pos := by
            rw [starts, if_neg (by simpa using hfull)]
          rw [hstarts]
          rw [List.flatMap_append, List.append_assoc] at h
          exact runs_prefix (within_flatMap_expand hsim pos live) hV.marked
            (fun V' hV' hrun => hcl.runs hsim full hV' hrun) h

/-- The loop returns, and answers the outcome of searching the live threads and the
starts to come, falling back on the best match so far. -/
theorem rxSearchLoop_spec {sim : RxSim} (hsim : Sound sim) (full : Bool) (fromPos fuel : Nat) :
    ∀ (pos : Nat) (live : List Thread) (best : Option Match) (seen : List Int) (V : Set Node),
      fromPos ≤ pos → pos ≤ sim.n → sim.n - pos < fuel →
      (∀ t ∈ live, t.stateId < sim.tbl.length) → seen.length = sim.tbl.length →
      Upto V seen pos →
      ∃ r o, rxSearchLoop fuel sim fromPos pos full live best seen = some r ∧
        (simGraph sim full).Runs (live.flatMap (expand sim pos) ++
          starts sim fromPos pos full best) V o ∧
        r = (answer o).or best := by
  induction fuel with
  | zero => exact fun pos live best seen V _ _ hfuel => absurd hfuel (Nat.not_lt_zero _)
  | succ fuel ih =>
      intro pos live best seen V hfrom hpos hfuel hlive hlen hV
      obtain ⟨T, seen1, hseed, hT, hlen1, hV1, hback⟩ :=
        rxSeed_spec hsim full fromPos pos best hlive hlen hV
      obtain ⟨A, T', seen2, best', hrun, hcl, hlen2, hA, hend⟩ :=
        rxRun_spec hsim full pos best T [] seen1 hT hlen1
      have hloop : rxSearchLoop (fuel + 1) sim fromPos pos full live best seen =
          if (decide (pos ≥ sim.n) || (T'.isEmpty && best'.isSome)) = true then some best'
          else rxSearchLoop fuel sim fromPos (Regexp.rxNextPos sim.input pos) full T' best'
            seen2 := by
        rw [rxSearchLoop, hseed]
        simp only [Option.bind_eq_bind, Option.bind_some, List.reverse_reverse]
        change (rxRun sim T pos (charAtPos sim pos) full [] seen1 best).bind _ = _
        rw [hrun]
        simp
      rw [hloop]
      have hlater : ∀ m, laterStarts sim full (some m) pos = [] := fun m => by simp [laterStarts]
      have hlt : pos < Regexp.rxNextPos sim.input pos := by
        by_cases hlt : pos < sim.input.length
        · exact (rxNextPos_bounds hlt).1
        · rw [Regexp.rxNextPos, if_pos (Nat.le_of_not_lt hlt)]
          exact Nat.lt_succ_self pos
      have hV2 := (hV1.next hlt).closes hcl
      -- the rest of the search, from the next position
      have hnext : ∃ r o, (if (decide (pos ≥ sim.n) || (T'.isEmpty && best'.isSome)) = true
            then some best'
            else rxSearchLoop fuel sim fromPos (Regexp.rxNextPos sim.input pos) full T' best'
              seen2) = some r ∧
          (simGraph sim full).Runs (T'.flatMap (expand sim (Regexp.rxNextPos sim.input pos)) ++
            laterStarts sim full best' pos)
            ((V ∪ marks seen1 pos) ∪ marks seen2 (Regexp.rxNextPos sim.input pos)) o ∧
          r = (answer o).or best' := by
        have hstop : T' = [] → laterStarts sim full best' pos = [] →
            ∃ o, (simGraph sim full).Runs (T'.flatMap
                (expand sim (Regexp.rxNextPos sim.input pos)) ++ laterStarts sim full best' pos)
                ((V ∪ marks seen1 pos) ∪ marks seen2 (Regexp.rxNextPos sim.input pos)) o ∧
              best' = (answer o).or best' := by
          intro hT' hlater
          rw [hT', hlater]
          exact ⟨.exhausted _, .done, rfl⟩
        by_cases hge : pos ≥ sim.n
        · have hwork : A.flatMap (moveWork sim pos) = [] := by
            rw [List.flatMap_eq_nil_iff]
            intro t _
            rw [moveWork, targets_of_ge hge, List.map_nil]
          rw [hwork] at hcl
          have hnil : T' = [] := by
            cases hcl
            rfl
          have hlater' : laterStarts sim full best' pos = [] := by
            unfold laterStarts
            rw [if_neg (Nat.not_lt.2 hge), ite_self]
          obtain ⟨o, ho, hr⟩ := hstop hnil hlater'
          exact ⟨best', o, by rw [if_pos (by simp [hge])], ho, hr⟩
        · by_cases hearly : (T'.isEmpty && best'.isSome) = true
          · rw [Bool.and_eq_true] at hearly
            obtain ⟨m, hm⟩ := Option.isSome_iff_exists.1 hearly.2
            obtain ⟨o, ho, hr⟩ := hstop (List.isEmpty_iff.1 hearly.1) (by rw [hm]; exact hlater m)
            exact ⟨best', o, by rw [if_pos (by simp [hearly.1, hearly.2])], ho, hr⟩
          · have hlt' : pos < sim.n := Nat.lt_of_not_le hge
            have hle := (rxNextPos_bounds (s := sim.input) (hsim.n_eq ▸ hlt')).2
            obtain ⟨r, o, hr, hruns, ho⟩ := ih (Regexp.rxNextPos sim.input pos) T' best' seen2 _
              (hfrom.trans hlt.le) (hsim.n_eq ▸ hle) (by omega) hcl.state_lt hlen2 hV2
            rw [starts_next hsim hfrom hlt'] at hruns
            refine ⟨r, o, ?_, hruns, ho⟩
            rw [if_neg (by simpa [hge] using hearly), hr]
      obtain ⟨r, o, hr, hruns, ho⟩ := hnext
      rw [hr]
      have hmoves := hcl.runs hsim full (hV1.next hlt).marked hruns
      rcases hend with ⟨rfl, rfl⟩ | ⟨t, B, rfl, hgoal, rfl⟩
      · exact ⟨r, o, rfl, hback o (runs_misses hA hmoves), ho⟩
      · rw [hlater, List.append_nil] at hmoves
        rw [List.flatMap_append, List.flatMap_cons, List.append_assoc, List.append_assoc] at hback
        have hhit : ∀ V', (simGraph sim full).Runs (expand sim pos t ++ (B.flatMap (expand sim pos) ++
            laterStarts sim full best pos)) V' (.found (t.stateId, pos) t.captures) := by
          intro V'
          rw [expand, targets_of_goal hsim hgoal]
          exact .hit hgoal
        cases o with
        | found n k =>
            exact ⟨r, _, rfl, hback _ (runs_misses hA hmoves.append_found), ho⟩
        | exhausted V3 =>
            exact ⟨r, _, rfl, hback _ (runs_misses hA (hmoves.append_exhausted (hhit V3))), ho⟩

end Kaikai.RegexpRun
