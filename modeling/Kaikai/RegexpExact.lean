import Mathlib.Data.Set.Finite.Lattice
import Kaikai.RegexpCaptures

namespace Kaikai.RegexpExact

open Kaikai.OrderedSearch
open Kaikai.OrderedSearch.Graph
open Kaikai.Regexp
open Kaikai.RegexpCaptures
open Kaikai.RegexpEngine
open Kaikai.RegexpLanguage
open Kaikai.RegexpMatch
open Kaikai.RegexpPike
open Kaikai.RegexpRun
open Kaikai.RegexpSyntax
open Kaikai.RegexpText
open Kaikai.Str

/-- The positions of the starts that a search tries. -/
def startsOf (s : Str) (full : Bool) : List Nat := if full then [0] else startPositions s 0

theorem rxSearch_from (a : RxAst) (s : Str) (full : Bool) {fromPos : Nat}
    (hfrom : fromPos ≤ s.length) :
    ∃ o, rxSearch ⟨compiled a, stateTable a, s, s.length⟩ fromPos full = some (answer o) ∧
      (tableGraph a s full).Runs ((if full then [fromPos] else startPositions s fromPos).map fun p =>
        .visit ((compiled a).start, p) [⟨0, p, -1⟩]) ∅ o := by
  have hsim := sound_compiled a s
  have hupto : Upto ∅ (vecMake (stateTable a).length (-1)) fromPos := by
    refine ⟨fun q => ⟨fun h => absurd h (Set.notMem_empty _), fun h => ?_⟩, by simp, ?_⟩
    · rw [vecMake, List.getElem?_replicate] at h
      split at h
      · exact absurd (Option.some.inj h) (by omega)
      · cases h
    · intro x hx
      rw [List.eq_of_mem_replicate hx]
      omega
  obtain ⟨r, o, hloop, hruns, hr⟩ := rxSearchLoop_spec hsim full fromPos (s.length - fromPos + 1)
    fromPos [] none (vecMake (stateTable a).length (-1)) ∅ le_rfl hfrom (Nat.lt_succ_self _)
    (by simp) List.length_replicate hupto
  refine ⟨o, ?_, ?_⟩
  · rw [rxSearch, if_neg (Nat.not_lt.2 hfrom), hloop, hr, Option.or_none]
  · have hstarts : starts ⟨compiled a, stateTable a, s, s.length⟩ fromPos fromPos full none =
        (if full then [fromPos] else startPositions s fromPos).map fun p =>
          .visit ((compiled a).start, p) [⟨0, p, -1⟩] := by
      unfold starts
      rw [if_neg (by simp)]
      cases full with
      | true => rfl
      | false =>
          rw [if_neg Bool.false_ne_true, startPositions_eq]
          change _ :: _ = _ :: _
          congr 1
          change (if fromPos < s.length then
            (startPositions s (Regexp.rxNextPos s fromPos)).map _ else []) = _
          split <;> rfl
    rw [hstarts] at hruns
    exact hruns

theorem rxSearch_outcome (a : RxAst) (s : Str) (full : Bool) :
    ∃ o, rxSearch ⟨compiled a, stateTable a, s, s.length⟩ 0 full = some (answer o) ∧
      (tableGraph a s full).Runs ((startsOf s full).map fun p =>
        .visit ((compiled a).start, p) [⟨0, p, -1⟩]) ∅ o :=
  rxSearch_from a s full (Nat.zero_le _)

theorem exists_at {s : Str} (i : Nat) (h : i ≤ (codepoints s).length) : ∃ b, At s i b := by
  induction i with
  | zero => exact ⟨0, .zero⟩
  | succ i ih =>
      obtain ⟨b, hat⟩ := ih (Nat.le_of_succ_le h)
      refine ⟨_, .next hat ?_⟩
      by_contra hge
      have := hat.eq_length_iff.2 (Nat.le_of_not_lt hge)
      omega

theorem mem_startPositions_next {s : Str} (p : Nat) : ∀ b ∈ startPositions s p, b < s.length →
    Regexp.rxNextPos s b ∈ startPositions s p := by
  induction p using startPositions.induct s with
  | case1 p hlt ih =>
      intro b hb hb'
      rw [startPositions_eq, if_pos hlt] at hb ⊢
      rcases List.mem_cons.1 hb with rfl | hb
      · rw [startPositions_eq]
        exact List.mem_cons_of_mem _ List.mem_cons_self
      · exact List.mem_cons_of_mem _ (ih b hb hb')
  | case2 p hge =>
      intro b hb hb'
      rw [startPositions_eq, if_neg hge, List.mem_singleton] at hb
      exact absurd hb' (hb ▸ hge)

theorem mem_startPositions_of_at {s : Str} {i b : Nat} (h : At s i b) :
    b ∈ startPositions s 0 := by
  induction h with
  | zero =>
      rw [startPositions_eq]
      exact List.mem_cons_self
  | next _ hlt ih => exact mem_startPositions_next 0 _ ih hlt

theorem exists_at_of_mem {s : Str} (p : Nat) : ∀ j, At s j p → ∀ b ∈ startPositions s p,
    ∃ i, At s i b := by
  induction p using startPositions.induct s with
  | case1 p hlt ih =>
      intro j hat b hb
      rw [startPositions_eq, if_pos hlt] at hb
      rcases List.mem_cons.1 hb with rfl | hb
      · exact ⟨j, hat⟩
      · exact ih (j + 1) (.next hat hlt) b hb
  | case2 p hge =>
      intro j hat b hb
      rw [startPositions_eq, if_neg hge, List.mem_singleton] at hb
      exact ⟨j, hb ▸ hat⟩

theorem spans_captures_iff {s : Str} {a : RxAst} {i b : Nat} (hat : At s i b)
    (caps : List Capture) :
    (∃ y, spans (captureReading s) copyCounts a (b, caps) y) ↔
      ∃ j, spans (textReading (codepoints s)) copyCounts a i j := by
  have hcaps := spans_matched (bisim_captures s) copyCounts a
  have htext := spans_matched (bisim_at s) copyCounts a
  constructor
  · rintro ⟨y, hy⟩
    obtain ⟨b', hb', -⟩ := hcaps.forth (y := b) rfl hy
    obtain ⟨j, hj, -⟩ := htext.back hat hb'
    exact ⟨j, hj⟩
  · rintro ⟨j, hj⟩
    obtain ⟨b', hb', -⟩ := htext.forth hat hj
    obtain ⟨y, hy, -⟩ := hcaps.back (x := (b, caps)) rfl hb'
    exact ⟨y, hy⟩

/-- A search of the starts finds something exactly when the pattern leads from one of
them to an end it accepts. -/
theorem found_iff {a : RxAst} {s : Str} {full : Bool} {o : Outcome Node (List Capture)}
    (h : (tableGraph a s full).Runs ((startsOf s full).map fun p =>
      .visit ((compiled a).start, p) [⟨0, p, -1⟩]) ∅ o) :
    (answer o).isSome = true ↔ ∃ p ∈ startsOf s full, ∃ y : Nat × List Capture,
      (y.1 ≥ s.length ∨ full = false) ∧
        spans (captureReading s) copyCounts a (p, [⟨0, p, -1⟩]) y := by
  constructor
  · intro hsome
    cases o with
    | exhausted V => cases hsome
    | found n k =>
        obtain ⟨hgoal, hfinish | ⟨m, j, hvisit, hreach⟩⟩ := h.reaches
        · obtain ⟨p, -, heq⟩ := List.mem_map.1 hfinish
          cases heq
        · obtain ⟨p, hp, heq⟩ := List.mem_map.1 hvisit
          cases heq
          obtain ⟨-, hend, hspans⟩ := (reach_goal_iff_spans a s full p _ n k).1 ⟨hreach, hgoal⟩
          exact ⟨p, hp, (n.2, k), hend, hspans⟩
  · rintro ⟨p, hp, y, hend, hspans⟩
    cases o with
    | found n k => rfl
    | exhausted V =>
        obtain ⟨hreach, hgoal⟩ := (reach_goal_iff_spans a s full p [⟨0, p, -1⟩]
          ((lower a emptyBuilder).2.accept, y.1) y.2).2 ⟨rfl, hend, hspans⟩
        exact absurd hgoal (h.no_goal (x := (((compiled a).start, p), [⟨0, p, -1⟩]))
          (List.mem_map.2 ⟨p, hp, rfl⟩) hreach)

theorem spans_text_le {s : Str} {a : RxAst} {y : Nat × List Capture} {caps : List Capture}
    (h : spans (captureReading s) copyCounts a (0, caps) y) : y.1 ≤ s.length := by
  obtain ⟨b, hb, hyb⟩ := (spans_matched (bisim_captures s) copyCounts a).forth (y := 0) rfl h
  obtain ⟨j, -, hat⟩ := (spans_matched (bisim_at s) copyCounts a).back .zero hb
  rw [hyb]
  exact hat.le

theorem compile_eq_ok {p : Str} {re : Nfa} (h : compile p = some (.ok re)) :
    ∃ a, parsePattern p = some (.ok a) ∧ Parsed a ∧ re = compiled a := by
  obtain ⟨r, hparse, hparsed⟩ := parsePattern_spec p
  rw [compile, hparse, Option.bind_eq_bind, Option.bind_some] at h
  cases r with
  | error e => cases h
  | ok a =>
      simp only [compileNfa_eq, Option.bind_eq_bind, Option.bind_some, Option.some.injEq,
        Except.ok.injEq] at h
      exact ⟨a, hparse, hparsed a rfl, h.symm⟩

theorem matches_compiled {a : RxAst} (h : Parsed a) (s : Str) :
    ∃ b, Regexp.matches s (compiled a) = some b ∧
      (b = true ↔ denote (codepoints s) a 0 (codepoints s).length) := by
  obtain ⟨o, hsearch, hruns⟩ := rxSearch_outcome a s true
  refine ⟨(answer o).isSome, ?_, ?_⟩
  · rw [Regexp.matches, rxSim_compiled, Option.bind_eq_bind, Option.bind_some, hsearch]
    rfl
  · rw [found_iff hruns, ← spans_whole_iff h]
    have hcaps := spans_matched (bisim_captures s) copyCounts a
    constructor
    · rintro ⟨q, hq, y, hend, hspans⟩
      cases List.mem_singleton.1 hq
      obtain ⟨b, hb, hyb⟩ := hcaps.forth (y := 0) rfl hspans
      have hle := spans_text_le hspans
      have hge : y.1 ≥ s.length := hend.elim id fun h => by cases h
      rwa [← hyb, Nat.le_antisymm hle hge] at hb
    · intro hspans
      obtain ⟨y, hy, hyb⟩ := hcaps.back (x := (0, [⟨0, 0, -1⟩])) rfl hspans
      exact ⟨0, List.mem_singleton.2 rfl, y, .inl hyb.ge, hy⟩

/-- `matches` holds exactly of the texts in the language of the pattern. -/
theorem matches_exact (p s : Str) (re : Nfa) (h : compile p = some (.ok re)) :
    ∃ a b, parsePattern p = some (.ok a) ∧ Regexp.matches s re = some b ∧
      (b = true ↔ denote (codepoints s) a 0 (codepoints s).length) := by
  obtain ⟨a, hparse, hparsed, rfl⟩ := compile_eq_ok h
  obtain ⟨b, hmatches, hiff⟩ := matches_compiled hparsed s
  exact ⟨a, b, hparse, hmatches, hiff⟩

theorem matches_exact_nullable_star : ∃ re, compile (ascii "(|a)+") = some (.ok re) ∧
    ∃ a b, parsePattern (ascii "(|a)+") = some (.ok a) ∧
      Regexp.matches (ascii "aa") re = some b ∧
      (b = true ↔ denote (codepoints (ascii "aa")) a 0 (codepoints (ascii "aa")).length) :=
  ⟨_, rfl, matches_exact _ (ascii "aa") _ rfl⟩

/-- The state of an NFA with a given id. -/
def stateAt (states : List NfaState) (q : Nat) : Option NfaState := states.find? fun st => st.id = q

theorem find?_numbered (states : List NfaState) : ∀ k q : Nat, Numbered k states →
    states.find? (fun st => st.id = (q : Int)) = if k ≤ q then states[q - k]? else none := by
  induction states with
  | nil =>
      intro k q _
      split <;> rfl
  | cons st states ih =>
      intro k q hnum
      obtain ⟨hid, hrest⟩ := hnum
      rw [List.find?_cons, ih (k + 1) q hrest]
      by_cases hk : k = q
      · subst hk
        rw [if_pos le_rfl, Nat.sub_self]
        simp [hid]
      · have hne : decide (st.id = (q : Int)) = false := by
          rw [decide_eq_false_iff_not, hid]
          omega
        rw [hne]
        simp only
        by_cases hle : k ≤ q
        · rw [if_pos hle, if_pos (by omega), show q - k = q - (k + 1) + 1 by omega,
            List.getElem?_cons_succ]
        · rw [if_neg hle, if_neg (by omega)]

theorem backtrack_compiled (a : RxAst) (s : Str) (full : Bool) :
    backtrack (stateAt (compiled a).states) s full = tableGraph a s full := by
  have hlook : stateAt (compiled a).states = fun q => (stateTable a)[q]? := by
    funext q
    have hfind := find?_numbered (stateTable a) 0 q (numbered_stateTable a)
    rw [if_pos (Nat.zero_le q), Nat.sub_zero] at hfind
    exact hfind
  rw [hlook]
  rfl

/-- The nodes that a search of a text can meet. -/
def reachable (a : RxAst) (s : Str) : Set Node :=
  {x | x.1 < (stateTable a).length ∧ x.2 ≤ s.length}

theorem finite_reachable (a : RxAst) (s : Str) : (reachable a s).Finite := by
  refine ((Set.finite_lt_nat (stateTable a).length).prod (Set.finite_le_nat s.length)).subset ?_
  rintro ⟨q, pos⟩ ⟨hq, hpos⟩
  exact ⟨hq, hpos⟩

theorem edgeAt_le {s : Str} {pos : Nat} {t : NfaTransition}
    {e : Node × (List Capture → List Capture)} (h : edgeAt s pos t = some e)
    (hpos : pos ≤ s.length) : e.1.2 ≤ s.length := by
  by_cases ht : consuming t = true
  · rw [edgeAt_consuming ht] at h
    split at h
    · next hlt =>
        rw [Option.map_eq_some_iff] at h
        obtain ⟨d, -, rfl⟩ := h
        exact (rxNextPos_bounds hlt).2
    · cases h
  · rw [edgeAt_zeroWidth (by simpa using ht) h]
    exact hpos

theorem closed_reachable (a : RxAst) (s : Str) (full : Bool) :
    (tableGraph a s full).Closed (reachable a s) := by
  have hsim := sound_compiled a s
  rintro x ⟨-, hpos⟩ e he
  simp only [tableGraph, simGraph, backtrack] at he
  split at he
  · next st hst =>
      obtain ⟨t, ht, hedge⟩ := List.mem_filterMap.1 he
      refine ⟨?_, edgeAt_le hedge hpos⟩
      rw [edgeAt_dst hedge]
      exact hsim.dst_lt hst t ht
  · cases he

/-- The match that backtracking makes of the start and the end of its path. -/
def matchFrom (r : (Node × List Capture) × (Node × List Capture)) : Match :=
  ⟨r.1.1.2, r.2.1.2, rxCaptureClose r.2.2 0 r.2.1.2⟩

/-- A path found from a start keeps its captures within the match, and the match
starts where the path does. -/
theorem found_kept {a : RxAst} (hgid : 0 ∉ groupIds a) {s : Str} {p : Nat} {n : Node}
    {k : List Capture}
    (h : (tableGraph a s false).Runs [.visit ((compiled a).start, p) [⟨0, p, -1⟩]] ∅
      (.found n k)) : Kept [] p n.2 k := by
  obtain ⟨hgoal, hfinish | ⟨m, j, hvisit, hreach⟩⟩ := h.reaches
  · cases List.mem_singleton.1 hfinish
  · cases List.mem_singleton.1 hvisit
    obtain ⟨-, -, hspans⟩ := (reach_goal_iff_spans a s false p _ n k).1 ⟨hreach, hgoal⟩
    exact keeps_spans s copyCounts a hgid [] p _ _ hspans (kept_start p)

/-- The simulation answers what backtracking finds from the first start that
succeeds, for groups with ids other than 0. -/
theorem simulate_backtracks (a : RxAst) (s : Str) (hgid : 0 ∉ groupIds a) :
    ∃ nfa r, compileNfa a = some nfa ∧
      (backtrack (stateAt nfa.states) s false).FirstFound
        ((startPositions s 0).map (startAt nfa)) r ∧
      (∀ r', (backtrack (stateAt nfa.states) s false).FirstFound
        ((startPositions s 0).map (startAt nfa)) r' → r' = r) ∧
      simulate nfa s = some (r.map matchFrom) ∧
      (r = none ↔ ∀ i j, i ≤ (codepoints s).length →
        ¬ spans (textReading (codepoints s)) copyCounts a i j) ∧
      ∀ x ∈ r, ∀ c ∈ (matchFrom x).groups,
        (matchFrom x).start ≤ c.start ∧ c.start ≤ c.stop ∧ c.stop ≤ (matchFrom x).stop := by
  obtain ⟨o, hsearch, hruns⟩ := rxSearch_outcome a s false
  have hsim : simulate (compiled a) s = some (answer o) := by
    rw [simulate, rxSim_compiled, Option.bind_eq_bind, Option.bind_some, hsearch]
  have hstarts : ∀ x ∈ (startPositions s 0).map (startAt (compiled a)), x.1 ∈ reachable a s := by
    intro x hx
    obtain ⟨b, hb, rfl⟩ := List.mem_map.1 hx
    obtain ⟨i, hat⟩ := exists_at_of_mem 0 0 .zero b hb
    exact ⟨(sound_compiled a s).start_lt, hat.le⟩
  have hitems : (startsOf s false).map (fun p => .visit ((compiled a).start, p) [⟨0, p, -1⟩]) =
      ((startPositions s 0).map (startAt (compiled a))).map fun x => Item.visit x.1 x.2 := by
    rw [List.map_map]
    rfl
  have hfound := found_iff hruns
  rw [hitems] at hruns
  obtain ⟨r, hfirst, hcase⟩ := hruns.firstFound (finite_reachable a s)
    (closed_reachable a s false) _ hstarts dead_empty
  -- what is found keeps its captures, so the recorded start is the start of the search
  have hkept : ∀ x ∈ r, ∃ p, x.1 = startAt (compiled a) p ∧ Kept [] p x.2.1.2 x.2.2 := by
    rintro x hx
    cases Option.mem_def.1 hx
    obtain ⟨hmem, hrun⟩ := hfirst.run
    obtain ⟨p, -, heq⟩ := List.mem_map.1 hmem
    rw [← heq] at hrun
    exact ⟨p, heq.symm, found_kept hgid hrun⟩
  have hanswer : answer o = r.map matchFrom := by
    rcases hcase with ⟨V, rfl, rfl⟩ | ⟨x, n, k, rfl, rfl, -⟩
    · rfl
    · obtain ⟨p, hp, hk⟩ := hkept _ rfl
      simp only at hp hk
      rw [answer, matchOf, hk.close.1, Option.map_some, matchFrom]
      simp only [hp, startAt]
  refine ⟨compiled a, r, compileNfa_eq a, ?_, ?_, by rw [hsim, hanswer], ?_, ?_⟩
  · rw [backtrack_compiled]
    exact hfirst
  · intro r' hr'
    rw [backtrack_compiled] at hr'
    exact hr'.unique hfirst
  · rw [hanswer] at hfound
    constructor
    · rintro rfl i j hi hspans
      obtain ⟨b, hat⟩ := exists_at i hi
      obtain ⟨y, hy⟩ := (spans_captures_iff hat [⟨0, b, -1⟩]).2 ⟨j, hspans⟩
      exact absurd (hfound.2 ⟨b, mem_startPositions_of_at hat, y, .inr rfl, hy⟩) (by simp)
    · intro hnone
      cases r with
      | none => rfl
      | some x =>
          obtain ⟨b, hb, y, -, hy⟩ := hfound.1 rfl
          obtain ⟨i, hat⟩ := exists_at_of_mem 0 0 .zero b hb
          obtain ⟨j, hj⟩ := (spans_captures_iff hat _).1 ⟨y, hy⟩
          refine absurd hj (hnone i j ?_)
          by_contra hgt
          have hget := hat.drop
          rw [List.drop_eq_nil_of_le (by omega)] at hget
          by_cases hlt : b < s.length
          · rw [codepointsFrom_cons hlt] at hget
            cases hget
          · have := hat.eq_length_iff.2 (Nat.le_of_not_lt hlt)
            omega
  · intro x hx
    obtain ⟨p, hp, hk⟩ := hkept x hx
    have hstart : (matchFrom x).start = p := by
      rw [matchFrom, hp]
      rfl
    intro c hc
    rw [hstart]
    exact hk.close.2 c hc

theorem simulate_backtracks_alternation : 0 ∉ groupIds (.rxAlt [.rxChar 'a', .rxGroup 1 .rxAny]) ∧
    ∃ nfa r, compileNfa (.rxAlt [.rxChar 'a', .rxGroup 1 .rxAny]) = some nfa ∧
      (backtrack (stateAt nfa.states) (ascii "ba") false).FirstFound
        ((startPositions (ascii "ba") 0).map (startAt nfa)) r ∧
      (∀ r', (backtrack (stateAt nfa.states) (ascii "ba") false).FirstFound
        ((startPositions (ascii "ba") 0).map (startAt nfa)) r' → r' = r) ∧
      simulate nfa (ascii "ba") = some (r.map matchFrom) ∧
      (r = none ↔ ∀ i j, i ≤ (codepoints (ascii "ba")).length →
        ¬ spans (textReading (codepoints (ascii "ba"))) copyCounts
          (.rxAlt [.rxChar 'a', .rxGroup 1 .rxAny]) i j) ∧
      ∀ x ∈ r, ∀ c ∈ (matchFrom x).groups,
        (matchFrom x).start ≤ c.start ∧ c.start ≤ c.stop ∧ c.stop ≤ (matchFrom x).stop :=
  ⟨by decide, simulate_backtracks _ (ascii "ba") (by decide)⟩

/-- A capture group with the id of the whole match moves the recorded start: here
the search starts at 0 and the answer at 1. -/
theorem simulate_group_zero : ∃ nfa,
    compileNfa (.rxConcat [.rxChar 'a', .rxGroup 0 (.rxChar 'b')]) = some nfa ∧
    ∀ r, (backtrack (stateAt nfa.states) (ascii "ab") false).FirstFound
        ((startPositions (ascii "ab") 0).map (startAt nfa)) r →
      simulate nfa (ascii "ab") ≠ some (r.map matchFrom) := by
  have hstarts : startPositions (ascii "ab") 0 = [0, 1, 2] := by
    rw [startPositions_eq, if_pos (by decide), startPositions_eq, if_pos (by decide),
      startPositions_eq, if_neg (by decide)]
    rfl
  refine ⟨_, compileNfa_eq _, fun r hr => ?_⟩
  have hrun : (backtrack (stateAt (compiled (.rxConcat [.rxChar 'a',
      .rxGroup 0 (.rxChar 'b')])).states) (ascii "ab") false).FirstFound
      ([0, 1, 2].map (startAt (compiled (.rxConcat [.rxChar 'a', .rxGroup 0 (.rxChar 'b')]))))
      (some (_, ((3, 2), [⟨0, 1, 2⟩]))) := .here
    (.enter (by simp) (.enter (by decide) (.enter (by decide) (.enter (by decide)
      (.enter (by decide) (.enter (by decide) (.hit ⟨⟨_, rfl, rfl⟩, .inr rfl⟩)))))))
  rw [hstarts] at hr
  rw [hr.unique hrun]
  exact fun h => absurd h (by decide)

end Kaikai.RegexpExact
