import Kaikai.UrlRoundTrip

namespace Kaikai.UrlRef

open Kaikai.Json (stringByteAtInt)
open Kaikai.Str
open Kaikai.Stretch
open Kaikai.Text (startsWith)

/-- The last offset of byte `b` among the first `i`. -/
def urlFindLast (s : Str) (b : Int) : ℕ → Option ℕ
  | 0 => none
  | i + 1 => if stringByteAtInt s i = b then some i else urlFindLast s b i

def urlPopSegment (out : Str) : Str :=
  match urlFindLast out 47 out.length with
  | none => []
  | some i => stringSlice out 0 i

/-- The end of the first path segment, not counting a leading `/`. -/
def urlSegmentEnd (input : Str) : ℕ :=
  let start := if startsWith input (ascii "/") then 1 else 0
  orEnd (urlFind input 47 start input.length) input.length

/-- The input after dropping a leading dot segment. -/
def urlSkipDotPrefix (input : Str) : Option Str :=
  if startsWith input (ascii "../") then some (urlAfter input 3)
  else if startsWith input (ascii "./") then some (urlAfter input 2)
  else if startsWith input (ascii "/./") then some (urlAfter input 2)
  else if input = ascii "/." then some (ascii "/")
  else none

/-- The remaining input and the output so far. -/
def urlDotStepUp (input out : Str) : Str × Str :=
  if startsWith input (ascii "/../") then (urlAfter input 3, urlPopSegment out)
  else if input = ascii "/.." then (ascii "/", urlPopSegment out)
  else if input = ascii "." ∨ input = ascii ".." then ([], out)
  else
    let e := urlSegmentEnd input
    (urlAfter input e, out ++ urlRange input 0 e)

def urlDotStep (input out : Str) : Str × Str :=
  match urlSkipDotPrefix input with
  | some rest => (rest, out)
  | none => urlDotStepUp input out

section Step

variable {s t u : Str} {c : UInt8}

theorem startsWith_iff {lead : Str} : startsWith s lead = true ↔ ∃ t, s = lead ++ t := by
  rw [startsWith, List.isPrefixOf_iff_prefix]
  exact ⟨fun ⟨t, h⟩ => ⟨t, h.symm⟩, fun ⟨t, h⟩ => ⟨t, h.symm⟩⟩

theorem urlAfter_append (s t : Str) : urlAfter (s ++ t) s.length = t := by
  rw [urlAfter, stringSlice, Int.toNat_natCast, List.drop_left, List.length_append]
  exact List.take_of_length_le (by omega)

theorem urlFindLast_of_not_mem (h : c ∉ s) (i : ℕ) : urlFindLast s c.toNat i = none := by
  induction i with
  | zero => rfl
  | succ i ih =>
      rw [urlFindLast, if_neg, ih]
      intro hbyte
      rw [stringByteAtInt] at hbyte
      split at hbyte
      · rename_i b hb
        rw [Nat.cast_inj, UInt8.toNat_inj] at hbyte
        exact h (hbyte ▸ List.mem_of_getElem? hb)
      · omega

theorem urlFindLast_of_mem (h : c ∉ t) :
    urlFindLast (s ++ c :: t) c.toNat (s ++ c :: t).length = some s.length := by
  have hlast : ∀ i, i ≤ t.length →
      urlFindLast (s ++ c :: t) c.toNat (s.length + 1 + i) = some s.length := by
    intro i hi
    induction i with
    | zero =>
        rw [Nat.add_zero, urlFindLast, if_pos]
        exact byteAt (by simp)
    | succ i ih =>
        rw [← Nat.add_assoc, urlFindLast, if_neg, ih (by omega)]
        have hget : (s ++ c :: t)[s.length + 1 + i]? = some t[i] := by
          rw [Nat.add_assoc, List.getElem?_append_right (by omega)]
          simp [Nat.add_comm 1 i]
        rw [byteAt hget, Nat.cast_inj, UInt8.toNat_inj]
        intro heq
        exact h (heq ▸ List.getElem_mem _)
  have hlen : (s ++ c :: t).length = s.length + 1 + t.length := by
    rw [List.length_append, List.length_cons]
    omega
  rw [hlen]
  exact hlast t.length (Nat.le_refl _)

theorem exists_last_slash (s : Str) : 47 ∉ s ∨ ∃ t u, s = t ++ 47 :: u ∧ 47 ∉ u := by
  obtain ⟨seg, rest, hrev, hseg, hrest⟩ := exists_first_segment s.reverse
  rcases hrest with rfl | hrest
  · left
    rw [List.append_nil] at hrev
    rw [← List.mem_reverse, hrev]
    exact hseg
  · right
    obtain ⟨t, rfl⟩ : ∃ t, rest = 47 :: t := by
      cases rest with
      | nil => exact absurd hrest (by simp)
      | cons b t => exact ⟨t, by rw [Option.some.inj hrest]⟩
    refine ⟨t.reverse, seg.reverse, ?_, by simpa using hseg⟩
    have hs := congrArg List.reverse hrev
    rw [List.reverse_reverse] at hs
    simpa using hs

theorem urlPopSegment_of_not_mem (h : 47 ∉ s) : urlPopSegment s = [] := by
  have hnone := urlFindLast_of_not_mem h s.length
  change urlFindLast s 47 s.length = none at hnone
  rw [urlPopSegment, hnone]

theorem urlPopSegment_append (h : 47 ∉ t) : urlPopSegment (s ++ 47 :: t) = s := by
  have hsome := urlFindLast_of_mem (s := s) h
  change urlFindLast (s ++ 47 :: t) 47 (s ++ 47 :: t).length = some s.length at hsome
  rw [urlPopSegment, hsome]
  exact List.take_left

theorem urlSegmentEnd_eq {lead seg rest : Str} (hlead : lead = [] ∧ seg ≠ [] ∨ lead = [47])
    (hseg : 47 ∉ seg) (hrest : rest = [] ∨ rest.head? = some 47) :
    urlSegmentEnd (lead ++ (seg ++ rest)) = (lead ++ seg).length := by
  have hspan : Spans (lead ++ (seg ++ rest)) lead.length (seg ++ rest)
      (lead ++ (seg ++ rest)).length := by
    refine ⟨by simp, Nat.le_refl _, ?_⟩
    rw [List.drop_left, List.drop_length, List.append_nil]
  have hstart : (if startsWith (lead ++ (seg ++ rest)) (ascii "/") then 1 else 0) = lead.length := by
    rcases hlead with ⟨rfl, hne⟩ | rfl
    · rw [if_neg]
      · rfl
      · rw [startsWith_iff]
        rintro ⟨u, hu⟩
        obtain ⟨b, seg, rfl⟩ := List.exists_cons_of_ne_nil hne
        rw [List.nil_append, List.cons_append] at hu
        have hb : b = 47 := (List.cons.inj hu).1
        exact hseg (hb ▸ List.mem_cons_self)
    · rw [if_pos]
      · rfl
      · rw [startsWith_iff]
        exact ⟨seg ++ rest, rfl⟩
  rw [urlSegmentEnd, hstart]
  rcases hrest with rfl | hrest
  · rw [List.append_nil] at hspan ⊢
    have hnone := urlFind_of_not_mem hspan hseg
    change urlFind _ 47 _ _ = none at hnone
    rw [hnone, orEnd]
  · obtain ⟨t, rfl⟩ : ∃ t, rest = 47 :: t := by
      cases rest with
      | nil => exact absurd hrest (by simp)
      | cons b t => exact ⟨t, by rw [Option.some.inj hrest]⟩
    have hsome := urlFind_of_mem hspan hseg
    change urlFind _ 47 _ _ = some _ at hsome
    rw [hsome, orEnd, List.length_append]

end Step

/-- A segment that steps in place or up. -/
def DotSegment (seg : Str) : Prop := seg = ascii "." ∨ seg = ascii ".."

/-- What one step does to a nonempty input. -/
inductive DotStep (out : Str) : Str → Str × Str → Prop
  | drop (t : Str) {dots : Str} (h : DotSegment dots) : DotStep out (dots ++ 47 :: t) (t, out)
  | stay (t : Str) (ht : t = [] ∨ t.head? = some 47) : DotStep out (ascii "/." ++ t)
      (47 :: t.tail, out)
  | up (t : Str) (ht : t = [] ∨ t.head? = some 47) : DotStep out (ascii "/.." ++ t)
      (47 :: t.tail, urlPopSegment out)
  | last {dots : Str} (h : DotSegment dots) : DotStep out dots ([], out)
  | move {lead seg rest : Str} (hlead : lead = [] ∧ seg ≠ [] ∨ lead = [47]) (hseg : 47 ∉ seg)
      (hdots : ¬ DotSegment seg) (hrest : rest = [] ∨ rest.head? = some 47) :
      DotStep out (lead ++ (seg ++ rest)) (rest, out ++ (lead ++ seg))

theorem exists_lead {input : Str} (h : input ≠ []) :
    ∃ lead seg rest, input = lead ++ (seg ++ rest) ∧ (lead = [] ∧ seg ≠ [] ∨ lead = [47]) ∧
      47 ∉ seg ∧ (rest = [] ∨ rest.head? = some 47) := by
  obtain ⟨seg, rest, rfl, hseg, hrest⟩ := exists_first_segment input
  by_cases hne : seg = []
  · subst hne
    obtain ⟨t, rfl⟩ : ∃ t, rest = 47 :: t := by
      cases rest with
      | nil => exact absurd rfl h
      | cons b t =>
          refine ⟨t, ?_⟩
          rw [Option.some.inj (hrest.resolve_left (List.cons_ne_nil b t))]
    obtain ⟨seg, rest, rfl, hseg, hrest⟩ := exists_first_segment t
    exact ⟨[47], seg, rest, rfl, .inr rfl, hseg, hrest⟩
  · exact ⟨[], seg, rest, rfl, .inl ⟨rfl, hne⟩, hseg, hrest⟩

theorem urlDotStep_spec {input : Str} (out : Str) (h : input ≠ []) :
    DotStep out input (urlDotStep input out) := by
  rw [urlDotStep, urlSkipDotPrefix]
  by_cases h1 : startsWith input (ascii "../") = true
  · obtain ⟨t, rfl⟩ := startsWith_iff.1 h1
    rw [if_pos h1]
    exact (urlAfter_append (ascii "../") t).symm ▸ .drop t (.inr rfl)
  rw [if_neg h1]
  by_cases h2 : startsWith input (ascii "./") = true
  · obtain ⟨t, rfl⟩ := startsWith_iff.1 h2
    rw [if_pos h2]
    exact (urlAfter_append (ascii "./") t).symm ▸ .drop t (.inl rfl)
  rw [if_neg h2]
  by_cases h3 : startsWith input (ascii "/./") = true
  · obtain ⟨t, rfl⟩ := startsWith_iff.1 h3
    rw [if_pos h3]
    exact (urlAfter_append (ascii "/.") (47 :: t)).symm ▸ .stay (47 :: t) (.inr rfl)
  rw [if_neg h3]
  by_cases h4 : input = ascii "/."
  · subst h4
    exact .stay [] (.inl rfl)
  rw [if_neg h4]
  change DotStep out input (urlDotStepUp input out)
  rw [urlDotStepUp]
  by_cases h5 : startsWith input (ascii "/../") = true
  · obtain ⟨t, rfl⟩ := startsWith_iff.1 h5
    rw [if_pos h5]
    exact (urlAfter_append (ascii "/..") (47 :: t)).symm ▸ .up (47 :: t) (.inr rfl)
  rw [if_neg h5]
  by_cases h6 : input = ascii "/.."
  · subst h6
    exact .up [] (.inl rfl)
  rw [if_neg h6]
  by_cases h7 : input = ascii "." ∨ input = ascii ".."
  · rw [if_pos h7]
    exact .last h7
  rw [if_neg h7]
  obtain ⟨lead, seg, rest, rfl, hlead, hseg, hrest⟩ := exists_lead h
  have hafter : urlAfter (lead ++ (seg ++ rest)) (lead ++ seg).length = rest := by
    rw [← List.append_assoc]
    exact urlAfter_append _ _
  have hrange : urlRange (lead ++ (seg ++ rest)) 0 (lead ++ seg).length = lead ++ seg := by
    rw [← List.append_assoc]
    refine urlRange_spans ⟨by simp, by simp, ?_⟩
    rw [List.drop_zero, List.drop_left]
  change DotStep out (lead ++ (seg ++ rest))
    (urlAfter (lead ++ (seg ++ rest)) (urlSegmentEnd (lead ++ (seg ++ rest))),
      out ++ urlRange (lead ++ (seg ++ rest)) 0 (urlSegmentEnd (lead ++ (seg ++ rest))))
  rw [urlSegmentEnd_eq hlead hseg hrest, hafter, hrange]
  refine .move hlead hseg (fun hdots => ?_) hrest
  -- a dot segment at the front would have been caught by one of the tests
  have hslash : ∀ lead dots : Str, rest.head? = some 47 →
      startsWith (lead ++ (dots ++ rest)) (lead ++ (dots ++ ascii "/")) = true := by
    intro lead dots hhead
    cases rest with
    | nil => exact absurd hhead (by simp)
    | cons b t =>
        rw [Option.some.inj hhead, startsWith_iff]
        exact ⟨t, by simp [ascii]⟩
  rcases hlead with ⟨rfl, -⟩ | rfl <;> rcases hdots with rfl | rfl <;> rcases hrest with rfl | hhead
  · exact h7 (.inl rfl)
  · exact h2 (hslash [] (ascii ".") hhead)
  · exact h7 (.inr rfl)
  · exact h1 (hslash [] (ascii "..") hhead)
  · exact h4 rfl
  · exact h3 (hslash [47] (ascii ".") hhead)
  · exact h6 rfl
  · exact h5 (hslash [47] (ascii "..") hhead)

theorem urlDotStep_lt {input : Str} (out : Str) (h : input ≠ []) :
    (urlDotStep input out).1.length < input.length := by
  have hstep := urlDotStep_spec out h
  generalize urlDotStep input out = result at hstep
  cases hstep with
  | drop t _ =>
      change t.length < _
      rw [List.length_append, List.length_cons]
      omega
  | stay t _ => simp [ascii]
  | up t _ =>
      simp only [ascii, List.length_append, List.length_map, List.length_cons, List.length_tail]
      change t.length - 1 + 1 < 3 + t.length
      omega
  | last hdots => exact List.length_pos_iff.2 h
  | @move lead seg rest hlead _ _ _ =>
      rcases hlead with ⟨rfl, hne⟩ | rfl
      · have hpos := List.length_pos_iff.2 hne
        simp only [List.nil_append, List.length_append]
        omega
      · simp only [List.length_append, List.length_singleton]
        omega

def urlRemoveDots (input out : Str) : Str :=
  if _h : input = [] then out
  else urlRemoveDots (urlDotStep input out).1 (urlDotStep input out).2
termination_by input.length
decreasing_by exact urlDotStep_lt out _h

def urlMerge (base : Url) (rel : Str) : Str :=
  if base.host.isSome ∧ base.path.length = 0 then ascii "/" ++ rel
  else
    match urlFindLast base.path 47 base.path.length with
    | none => rel
    | some i => urlRange base.path 0 (i + 1) ++ rel

def urlResolvePath (base r : Url) : Str :=
  if startsWith r.path (ascii "/") then urlRemoveDots r.path []
  else urlRemoveDots (urlMerge base r.path) []

def urlResolveRef (base r : Url) : Url :=
  if r.scheme.isSome then { r with path := urlRemoveDots r.path [] }
  else if r.host.isSome then { r with scheme := base.scheme, path := urlRemoveDots r.path [] }
  else if r.path.length = 0 then
    { base with query := if r.query.isSome then r.query else base.query, fragment := r.fragment }
  else { base with path := urlResolvePath base r, query := r.query, fragment := r.fragment }

def resolve (base r : Url) : Except String Url :=
  if base.scheme.isSome then .ok (urlResolveRef base r)
  else .error "resolve: base has no scheme"

end Kaikai.UrlRef
