import Kaikai.RegexpExact

namespace Kaikai.RegexpScan

open Kaikai.OrderedSearch
open Kaikai.OrderedSearch.Graph
open Kaikai.Regexp
open Kaikai.RegexpCaptures
open Kaikai.RegexpEngine
open Kaikai.RegexpExact
open Kaikai.RegexpLanguage
open Kaikai.RegexpMatch
open Kaikai.RegexpPike
open Kaikai.RegexpRun
open Kaikai.RegexpSyntax
open Kaikai.RegexpText
open Kaikai.Str

/-- Where the scan resumes after a match: its end, or the next codepoint when it is empty. -/
def rxAfter (sim : RxSim) (m : Match) : Nat :=
  if m.stop > m.start then m.stop.toNat else Regexp.rxNextPos sim.input m.start.toNat

/-- `rx_find_all_loop` over at most `fuel` searches. -/
def rxFindAllLoop : Nat → RxSim → Nat → List Match → Option (List Match)
  | 0, _, _, _ => none
  | fuel + 1, sim, fromPos, acc =>
      if fromPos > sim.n then some acc.reverse
      else do
        match ← rxSearch sim fromPos false with
        | none => some acc.reverse
        | some m => rxFindAllLoop fuel sim (rxAfter sim m) (m :: acc)

def findAll (re : Nfa) (s : Str) : Option (List Match) := do
  let sim ← rxSim re s
  rxFindAllLoop (sim.n + 2) sim 0 []

def rxGroupSpan : List Capture → Int → Str → Str
  | [], _, _ => []
  | c :: rest, gid, src =>
      if c.groupId = gid then stringSlice src c.start (c.stop - c.start)
      else rxGroupSpan rest gid src

def rxExpandPiece (c : Char) (dollar : Bool) (m : Match) (src : Str) (parts : List Str) :
    List Str :=
  if !dollar then
    if c = '$' then parts else intToByteString c.toNat :: parts
  else if c = '$' then ascii "$" :: parts
  else if isDigit c then rxGroupSpan m.groups ((c.toNat : Int) - '0'.toNat) src :: parts
  else intToByteString c.toNat :: ascii "$" :: parts

/-- The replacement byte by byte; `dollar` is set right after a `$`. -/
def rxExpandLoop (repl : Str) (i n : Nat) (m : Match) (src : Str) (parts : List Str)
    (dollar : Bool) : List Str :=
  if i ≥ n then if dollar then ascii "$" :: parts else parts
  else
    match charAt repl i with
    | none => parts
    | some c =>
        rxExpandLoop repl (i + 1) n m src (rxExpandPiece c dollar m src parts) (!dollar && c = '$')
termination_by n - i

/-- The output pieces, newest first. -/
def rxReplaceLoop : Nat → RxSim → Str → Nat → List Str → Option (List Str)
  | 0, _, _, _, _ => none
  | fuel + 1, sim, repl, fromPos, parts =>
      if fromPos > sim.n then some parts
      else do
        match ← rxSearch sim fromPos false with
        | none => some (stringSlice sim.input fromPos (sim.n - fromPos) :: parts)
        | some m =>
            let before := stringSlice sim.input fromPos (m.start - fromPos)
            let parts1 := (rxExpandLoop repl 0 repl.length m sim.input [] false).reverse.flatten ::
              before :: parts
            let next := rxAfter sim m
            let parts2 :=
              if m.stop = m.start ∧ m.start < sim.n then
                stringSlice sim.input m.start (next - m.start) :: parts1
              else parts1
            rxReplaceLoop fuel sim repl next parts2

def replace (re : Nfa) (s replacement : Str) : Option Str := do
  let sim ← rxSim re s
  let parts ← rxReplaceLoop (sim.n + 2) sim replacement 0 []
  some parts.reverse.flatten

def rxSplitDone (sim : RxSim) (seg : Nat) (acc : List Str) : List Str :=
  (stringSlice sim.input seg (sim.n - seg) :: acc).reverse

/-- `seg` is where the current segment starts, `fromPos` where the scan resumes. -/
def rxSplitLoop : Nat → RxSim → Nat → Nat → List Str → Option (List Str)
  | 0, _, _, _, _ => none
  | fuel + 1, sim, seg, fromPos, acc =>
      if fromPos > sim.n then some (rxSplitDone sim seg acc)
      else do
        match ← rxSearch sim fromPos false with
        | none => some (rxSplitDone sim seg acc)
        | some m =>
            rxSplitLoop fuel sim m.stop.toNat (rxAfter sim m)
              (stringSlice sim.input seg (m.start - seg) :: acc)

def split (re : Nfa) (s : Str) : Option (List Str) := do
  let sim ← rxSim re s
  rxSplitLoop (sim.n + 2) sim 0 0 []

/-- The text of a match. -/
def matched (s : Str) (m : Match) : Str := stringSlice s m.start (m.stop - m.start)

/-- Segments with texts between them. -/
def interleave : List Str → List Str → Str
  | segment :: segments, text :: texts => segment ++ (text ++ interleave segments texts)
  | segments, _ => segments.flatten

/-- The match lies between two codepoint boundaries. -/
def OnBoundaries (s : Str) (m : Match) : Prop :=
  ∃ i j b e : Nat, m.start = b ∧ m.stop = e ∧ b ≤ e ∧ At s i b ∧ At s j e

/-- One match before another: it starts earlier and they share no byte. -/
def Before (m m' : Match) : Prop := m.start < m'.start ∧ m.stop ≤ m'.start

/-- Scanning terminates, and loses and duplicates no text. -/
def Lossless (re : Nfa) (s : Str) : Prop :=
  ∃ ms segments, findAll re s = some ms ∧ ms.Pairwise Before ∧ (∀ m ∈ ms, OnBoundaries s m) ∧
    split re s = some segments ∧ segments.length = ms.length + 1 ∧
    interleave segments (ms.map (matched s)) = s ∧ replace re s (ascii "$0") = some s

/-- What a search from a position on finds: where the match lies, and that its first group is the
whole match. -/
structure Located (s : Str) (fromPos : Nat) (m : Match) (b e : Nat) : Prop where
  start : m.start = b
  stop : m.stop = e
  from_le : fromPos ≤ b
  le : b ≤ e
  start_at : ∃ i, At s i b
  stop_at : ∃ j, At s j e
  whole : ∀ src, rxGroupSpan m.groups 0 src = stringSlice src b (e - b)

section Search

variable {s : Str} {a : RxAst} {fromPos : Nat}

theorem le_of_mem_startPositions {p : Nat} :
    ∀ {b : Nat}, b ∈ startPositions s p → p ≤ b := by
  induction p using startPositions.induct s with
  | case1 p hlt ih =>
      intro b hb
      rw [startPositions_eq, if_pos hlt] at hb
      rcases List.mem_cons.1 hb with rfl | hb
      · exact le_rfl
      · exact (rxNextPos_bounds hlt).1.le.trans (ih hb)
  | case2 p hge =>
      intro b hb
      rw [startPositions_eq, if_neg hge, List.mem_singleton] at hb
      exact hb.ge

mutual

theorem zero_notMem_groupIds : ∀ {a : RxAst}, Parsed a → 0 ∉ groupIds a
  | .rxChar _, _ => List.not_mem_nil
  | .rxAny, _ => List.not_mem_nil
  | .rxClass _ _, _ => List.not_mem_nil
  | .rxAnchor _, _ => List.not_mem_nil
  | .rxConcat _, .rxConcat h => zero_notMem_groupIdsAll h
  | .rxAlt _, .rxAlt h => zero_notMem_groupIdsAll h
  | .rxStar x, .rxStar h => zero_notMem_groupIds (a := x) h
  | .rxPlus x, .rxPlus h => zero_notMem_groupIds (a := x) h
  | .rxOpt x, .rxOpt h => zero_notMem_groupIds (a := x) h
  | .rxRepeat x _ _, .rxRepeat h _ _ _ => zero_notMem_groupIds (a := x) h
  | .rxGroup id _, .rxGroup hid h => by
      rw [groupIds, List.mem_cons, not_or]
      exact ⟨by omega, zero_notMem_groupIds h⟩

theorem zero_notMem_groupIdsAll : ∀ {xs : List RxAst}, (∀ x ∈ xs, Parsed x) → 0 ∉ groupIdsAll xs
  | [], _ => List.not_mem_nil
  | x :: xs, h => by
      rw [groupIdsAll, List.mem_append, not_or]
      exact ⟨zero_notMem_groupIds (h x List.mem_cons_self),
        zero_notMem_groupIdsAll fun y hy => h y (List.mem_cons_of_mem x hy)⟩

end

theorem rxSearch_located (hgid : 0 ∉ groupIds a) (hat : ∃ i, At s i fromPos) :
    ∃ r, rxSearch ⟨compiled a, stateTable a, s, s.length⟩ fromPos false = some r ∧
      ∀ m ∈ r, ∃ b e, Located s fromPos m b e := by
  obtain ⟨i, hat⟩ := hat
  obtain ⟨o, hsearch, hruns⟩ := rxSearch_from a s false hat.le
  refine ⟨answer o, hsearch, fun m hm => ?_⟩
  cases o with
  | exhausted V => cases hm
  | found n k =>
      cases hm
      obtain ⟨hgoal, hfinish | ⟨x, j, hvisit, hreach⟩⟩ := hruns.reaches
      · obtain ⟨p, -, heq⟩ := List.mem_map.1 hfinish
        cases heq
      · obtain ⟨p, hp, heq⟩ := List.mem_map.1 hvisit
        cases heq
        rw [if_neg Bool.false_ne_true] at hp
        obtain ⟨-, -, hspans⟩ := (reach_goal_iff_spans a s false p _ n k).1 ⟨hreach, hgoal⟩
        have hkept : Kept [] p n.2 k := keeps_spans s copyCounts a hgid [] p _ _ hspans (kept_start p)
        obtain ⟨ip, hpat⟩ := exists_at_of_mem fromPos i hat p hp
        obtain ⟨b, hb, hbn⟩ := (spans_matched (bisim_captures s) copyCounts a).forth (y := p) rfl hspans
        change n.2 = b at hbn
        subst hbn
        obtain ⟨je, -, heat⟩ := (spans_matched (bisim_at s) copyCounts a).back hpat hb
        refine ⟨p, n.2, hkept.close.1, rfl, le_of_mem_startPositions hp, hkept.le, ⟨ip, hpat⟩,
          ⟨je, heat⟩, fun src => ?_⟩
        obtain ⟨tail, htail⟩ := hkept.head
        change rxGroupSpan (rxCaptureClose k 0 n.2) 0 src = _
        rw [htail, rxCaptureClose_eq, putCapture, if_pos rfl, rxGroupSpan, if_pos rfl]

end Search

/-- The simulation of a compiled pattern. -/
def simOf (a : RxAst) (s : Str) : RxSim := ⟨compiled a, stateTable a, s, s.length⟩

/-- The matches of successive searches from a position on. -/
inductive Scan (a : RxAst) (s : Str) : Nat → List Match → Prop
  | past {p : Nat} (h : p = s.length + 1) : Scan a s p []
  | stop {p : Nat} (h : p ≤ s.length) (hnone : rxSearch (simOf a s) p false = some none) :
      Scan a s p []
  | found {p b e : Nat} {m : Match} {ms : List Match} (h : p ≤ s.length)
      (hsome : rxSearch (simOf a s) p false = some (some m)) (hm : Located s p m b e)
      (hrest : Scan a s (rxAfter (simOf a s) m) ms) : Scan a s p (m :: ms)

section Loops

variable {s : Str} {a : RxAst} {p b e : Nat} {m : Match} {ms : List Match}

theorem Located.inside (h : Located s p m b e) : e ≤ s.length := by
  obtain ⟨j, hat⟩ := h.stop_at
  exact hat.le

theorem rxAfter_eq (h : Located s p m b e) :
    rxAfter (simOf a s) m = if b < e then e else Regexp.rxNextPos s b := by
  rw [rxAfter, h.start, h.stop, Int.toNat_natCast, Int.toNat_natCast]
  simp only [gt_iff_lt, Nat.cast_lt]
  rfl

theorem rxAfter_spec (h : Located s p m b e) :
    b < rxAfter (simOf a s) m ∧ e ≤ rxAfter (simOf a s) m ∧
      ((∃ j, At s j (rxAfter (simOf a s) m)) ∨ rxAfter (simOf a s) m = s.length + 1) := by
  have hinside := h.inside
  have hle := h.le
  rw [rxAfter_eq h]
  split_ifs with hlt
  · exact ⟨hlt, le_rfl, .inl h.stop_at⟩
  · by_cases hend : b < s.length
    · obtain ⟨i, hat⟩ := h.start_at
      have hbounds := rxNextPos_bounds hend
      exact ⟨hbounds.1, by omega, .inl ⟨_, .next hat hend⟩⟩
    · rw [Regexp.rxNextPos, if_pos (Nat.le_of_not_lt hend)]
      exact ⟨Nat.lt_succ_self b, by omega, .inr (by omega)⟩

theorem exists_scan (hgid : 0 ∉ groupIds a) (hp : (∃ i, At s i p) ∨ p = s.length + 1) :
    ∃ ms, Scan a s p ms := by
  induction hk : s.length + 1 - p using Nat.strong_induction_on generalizing p with
  | _ k ih =>
      rcases hp with hat | hpast
      · have hle : p ≤ s.length := hat.elim fun i hat => hat.le
        obtain ⟨r, hsearch, hlocated⟩ := rxSearch_located hgid hat
        cases r with
        | none => exact ⟨[], .stop hle hsearch⟩
        | some m =>
            obtain ⟨b, e, hm⟩ := hlocated m rfl
            obtain ⟨hlt, -, hnext⟩ := rxAfter_spec (a := a) hm
            have hfrom := hm.from_le
            obtain ⟨ms, hms⟩ := ih _ (by omega) hnext rfl
            exact ⟨m :: ms, .found hle hsearch hm hms⟩
      · exact ⟨[], .past hpast⟩

theorem not_past (h : p ≤ s.length) : ¬ p > (simOf a s).n := Nat.not_lt.2 h

theorem rxFindAllLoop_eq (h : Scan a s p ms) {fuel : Nat} (hfuel : s.length + 1 < fuel + p)
    (acc : List Match) : rxFindAllLoop fuel (simOf a s) p acc = some (acc.reverse ++ ms) := by
  induction h generalizing fuel acc with
  | past h =>
      obtain ⟨fuel, rfl⟩ := Nat.exists_eq_succ_of_ne_zero (n := fuel) (by omega)
      rw [rxFindAllLoop, if_pos (h ▸ Nat.lt_succ_self _), List.append_nil]
  | stop h hnone =>
      obtain ⟨fuel, rfl⟩ := Nat.exists_eq_succ_of_ne_zero (n := fuel) (by omega)
      rw [rxFindAllLoop, if_neg (not_past h), hnone, List.append_nil]
      rfl
  | @found p b e m ms h hsome hm _ ih =>
      obtain ⟨fuel, rfl⟩ := Nat.exists_eq_succ_of_ne_zero (n := fuel) (by omega)
      have hlt := (rxAfter_spec (a := a) hm).1
      have hfrom := hm.from_le
      rw [rxFindAllLoop, if_neg (not_past h), hsome]
      refine (ih (by omega) (m :: acc)).trans ?_
      rw [List.reverse_cons, List.append_assoc, List.singleton_append]

/-- The segments that matches cut out of a text from a position on. -/
def segmentsOf (s : Str) : Nat → List Match → List Str
  | seg, [] => [stringSlice s seg (s.length - seg)]
  | seg, m :: ms => stringSlice s seg (m.start - seg) :: segmentsOf s m.stop.toNat ms

theorem length_segmentsOf (seg : Nat) (ms : List Match) :
    (segmentsOf s seg ms).length = ms.length + 1 := by
  induction ms generalizing seg with
  | nil => rfl
  | cons m ms ih => rw [segmentsOf, List.length_cons, ih, List.length_cons]

theorem rxSplitLoop_eq (h : Scan a s p ms) {fuel : Nat} (hfuel : s.length + 1 < fuel + p)
    (seg : Nat) (acc : List Str) :
    rxSplitLoop fuel (simOf a s) seg p acc = some (acc.reverse ++ segmentsOf s seg ms) := by
  induction h generalizing fuel seg acc with
  | past h =>
      obtain ⟨fuel, rfl⟩ := Nat.exists_eq_succ_of_ne_zero (n := fuel) (by omega)
      rw [rxSplitLoop, if_pos (h ▸ Nat.lt_succ_self _), rxSplitDone, List.reverse_cons]
      rfl
  | stop h hnone =>
      obtain ⟨fuel, rfl⟩ := Nat.exists_eq_succ_of_ne_zero (n := fuel) (by omega)
      rw [rxSplitLoop, if_neg (not_past h), hnone]
      change some (rxSplitDone (simOf a s) seg acc) = _
      rw [rxSplitDone, List.reverse_cons]
      rfl
  | @found p b e m ms h hsome hm _ ih =>
      obtain ⟨fuel, rfl⟩ := Nat.exists_eq_succ_of_ne_zero (n := fuel) (by omega)
      have hlt := (rxAfter_spec (a := a) hm).1
      have hfrom := hm.from_le
      rw [rxSplitLoop, if_neg (not_past h), hsome]
      refine (ih (by omega) m.stop.toNat (stringSlice s seg (m.start - seg) :: acc)).trans ?_
      rw [List.reverse_cons, List.append_assoc, List.singleton_append, segmentsOf]

theorem stringSlice_append_drop {i j : Nat} (hij : i ≤ j) :
    stringSlice s i (j - i) ++ s.drop j = s.drop i := by
  have hlen : ((j : Int) - i).toNat = j - i := by omega
  have hrest : s.drop j = (s.drop i).drop (j - i) := by
    rw [List.drop_drop, Nat.add_sub_cancel' hij]
  rw [stringSlice, Int.toNat_natCast, hlen, hrest, List.take_append_drop]

theorem stringSlice_rest (i : Nat) : stringSlice s i (s.length - i) = s.drop i := by
  have hlen : ((s.length : Int) - i).toNat = (s.drop i).length := by
    rw [List.length_drop]
    omega
  rw [stringSlice, Int.toNat_natCast, hlen, List.take_length]

theorem interleave_segmentsOf (h : Scan a s p ms) {seg : Nat} (hseg : seg ≤ p) :
    interleave (segmentsOf s seg ms) (ms.map (matched s)) = s.drop seg := by
  induction h generalizing seg with
  | past =>
      change [stringSlice s seg (s.length - seg)].flatten = _
      rw [List.flatten_singleton, stringSlice_rest]
  | stop =>
      change [stringSlice s seg (s.length - seg)].flatten = _
      rw [List.flatten_singleton, stringSlice_rest]
  | @found p b e m ms _ _ hm _ ih =>
      have hle := hseg.trans hm.from_le
      rw [segmentsOf, List.map_cons, interleave, hm.stop, Int.toNat_natCast,
        ih (rxAfter_spec hm).2.1, matched, hm.start, hm.stop, stringSlice_append_drop hm.le,
        stringSlice_append_drop hle]

theorem rxExpandLoop_whole (m : Match) (src : Str) :
    rxExpandLoop (ascii "$0") 0 (ascii "$0").length m src [] false = [rxGroupSpan m.groups 0 src] := by
  have hfirst : charAt (ascii "$0") 0 = some '$' := rfl
  have hsecond : charAt (ascii "$0") 1 = some '0' := rfl
  rw [rxExpandLoop, if_neg (by decide), hfirst]
  change rxExpandLoop (ascii "$0") 1 (ascii "$0").length m src [] true = _
  rw [rxExpandLoop, if_neg (by decide), hsecond]
  change rxExpandLoop (ascii "$0") 2 (ascii "$0").length m src [rxGroupSpan m.groups 0 src] false = _
  rw [rxExpandLoop, if_pos (by decide)]
  rfl

theorem rxReplaceLoop_eq (h : Scan a s p ms) {fuel : Nat} (hfuel : s.length + 1 < fuel + p)
    (parts : List Str) :
    ∃ out, rxReplaceLoop fuel (simOf a s) (ascii "$0") p parts = some out ∧
      out.reverse.flatten = parts.reverse.flatten ++ s.drop p := by
  induction h generalizing fuel parts with
  | @past p h =>
      obtain ⟨fuel, rfl⟩ := Nat.exists_eq_succ_of_ne_zero (n := fuel) (by omega)
      refine ⟨parts, ?_, ?_⟩
      · rw [rxReplaceLoop, if_pos (h ▸ Nat.lt_succ_self _)]
      · rw [List.drop_of_length_le (by omega), List.append_nil]
  | @stop p h hnone =>
      obtain ⟨fuel, rfl⟩ := Nat.exists_eq_succ_of_ne_zero (n := fuel) (by omega)
      refine ⟨stringSlice s p (s.length - p) :: parts, ?_, ?_⟩
      · rw [rxReplaceLoop, if_neg (not_past h), hnone]
        rfl
      · rw [List.reverse_cons, List.flatten_append, List.flatten_singleton, stringSlice_rest]
  | @found p b e m ms h hsome hm _ ih =>
      obtain ⟨fuel, rfl⟩ := Nat.exists_eq_succ_of_ne_zero (n := fuel) (by omega)
      have hlt := (rxAfter_spec (a := a) hm).1
      have hfrom := hm.from_le
      have hinside := hm.inside
      have hle := hm.le
      -- the skipped character of an empty match, and what the scan still has to copy
      have hskip : (if m.stop = m.start ∧ m.start < s.length then
            stringSlice s m.start (rxAfter (simOf a s) m - m.start) else []) ++
          s.drop (rxAfter (simOf a s) m) = s.drop e := by
        rw [hm.start, hm.stop]
        split_ifs with hempty
        · obtain rfl : e = b := by exact_mod_cast hempty.1
          exact stringSlice_append_drop hlt.le
        · rw [List.nil_append, rxAfter_eq hm]
          split_ifs with hbe
          · rfl
          · have hend : ¬ b < s.length := fun hb => hempty ⟨by omega, by omega⟩
            rw [Regexp.rxNextPos, if_pos (Nat.le_of_not_lt hend), List.drop_of_length_le (by omega),
              List.drop_of_length_le (by omega)]
      obtain ⟨out, hout, hflat⟩ := @ih fuel (by omega)
        (if m.stop = m.start ∧ m.start < s.length then
          stringSlice s m.start (rxAfter (simOf a s) m - m.start) ::
            stringSlice s b (e - b) :: stringSlice s p (b - p) :: parts
        else stringSlice s b (e - b) :: stringSlice s p (b - p) :: parts)
      refine ⟨out, ?_, ?_⟩
      · rw [rxReplaceLoop, if_neg (not_past h), hsome]
        refine Eq.trans ?_ hout
        simp only [Option.bind_eq_bind, Option.bind_some, rxExpandLoop_whole, hm.whole]
        rw [List.reverse_singleton, List.flatten_singleton, hm.start]
        rfl
      · rw [hflat, ← stringSlice_append_drop hfrom, ← stringSlice_append_drop hle, ← hskip]
        split_ifs
        · simp only [List.reverse_cons, List.flatten_append, List.flatten_singleton,
            List.append_assoc]
        · simp only [List.reverse_cons, List.flatten_append, List.flatten_singleton,
            List.append_assoc, List.nil_append]

theorem Scan.starts (h : Scan a s p ms) : ∀ m ∈ ms, (p : Int) ≤ m.start := by
  induction h with
  | past => exact fun m hm => absurd hm List.not_mem_nil
  | stop => exact fun m hm => absurd hm List.not_mem_nil
  | @found p b e m ms _ _ hm _ ih =>
      intro m' hm'
      have hfrom := hm.from_le
      have hlt := (rxAfter_spec (a := a) hm).1
      rcases List.mem_cons.1 hm' with rfl | hm'
      · rw [hm.start]
        omega
      · have hlater := ih m' hm'
        omega

theorem Scan.before (h : Scan a s p ms) : ms.Pairwise Before := by
  induction h with
  | past => exact .nil
  | stop => exact .nil
  | @found p b e m ms _ _ hm hrest ih =>
      refine .cons (fun m' hm' => ?_) ih
      have hlater := hrest.starts m' hm'
      obtain ⟨hlt, hle, -⟩ := rxAfter_spec (a := a) hm
      rw [Before, hm.start, hm.stop]
      omega

theorem Scan.onBoundaries (h : Scan a s p ms) : ∀ m ∈ ms, OnBoundaries s m := by
  induction h with
  | past => exact fun m hm => absurd hm List.not_mem_nil
  | stop => exact fun m hm => absurd hm List.not_mem_nil
  | found _ _ hm _ ih =>
      refine List.forall_mem_cons.2 ⟨?_, ih⟩
      obtain ⟨i, hi⟩ := hm.start_at
      obtain ⟨j, hj⟩ := hm.stop_at
      exact ⟨i, j, _, _, hm.start, hm.stop, hm.le, hi, hj⟩

end Loops

/-- Scanning with a compiled pattern loses and duplicates no text. -/
theorem lossless_of_compile (pattern s : Str) (re : Nfa) (h : compile pattern = some (.ok re)) :
    Lossless re s := by
  obtain ⟨a, -, hparsed, rfl⟩ := compile_eq_ok h
  obtain ⟨ms, hscan⟩ := exists_scan (s := s) (p := 0) (zero_notMem_groupIds hparsed)
    (.inl ⟨0, .zero⟩)
  have hfuel : s.length + 1 < s.length + 2 + 0 := Nat.lt_succ_self _
  have hsim : rxSim (compiled a) s = some (simOf a s) := rxSim_compiled a s
  obtain ⟨out, hout, hflat⟩ := rxReplaceLoop_eq hscan hfuel []
  refine ⟨ms, segmentsOf s 0 ms, ?_, hscan.before, hscan.onBoundaries, ?_,
    length_segmentsOf 0 ms, interleave_segmentsOf hscan le_rfl, ?_⟩
  · rw [findAll, hsim]
    exact rxFindAllLoop_eq hscan hfuel []
  · rw [split, hsim]
    exact rxSplitLoop_eq hscan hfuel 0 []
  · rw [replace, hsim]
    change (rxReplaceLoop (s.length + 2) (simOf a s) (ascii "$0") 0 []).bind _ = _
    rw [hout]
    exact congrArg some hflat

theorem lossless_star : ∃ re, compile (ascii "a*") = some (.ok re) ∧ Lossless re (ascii "baab") :=
  ⟨_, rfl, lossless_of_compile (ascii "a*") (ascii "baab") _ rfl⟩

end Kaikai.RegexpScan
