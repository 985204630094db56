import Kaikai.RegexpLanguage

namespace Kaikai.RegexpText

open Relation
open Kaikai.Fragment
open Kaikai.Regexp
open Kaikai.RegexpLanguage
open Kaikai.RegexpSyntax
open Kaikai.Str

variable {X Y : Type}

/-- The codepoints from a byte offset on, as the engine decodes them. -/
def codepointsFrom (s : Str) (pos : Nat) : List Char :=
  if _h : pos < s.length then rxCpAt s pos :: codepointsFrom s (Regexp.rxNextPos s pos) else []
termination_by s.length - pos
decreasing_by
  have hlen := stringCpLen_eq_zero_iff s pos
  rw [Regexp.rxNextPos, if_neg (by omega)]
  omega

def codepoints (s : Str) : List Char := codepointsFrom s 0

/-- Positions between codepoints. -/
def textReading (cs : List Char) : Reading Nat where
  take := fun P i j => (∃ c, cs[i]? = some c ∧ P c = true) ∧ j = i + 1
  anchor := fun an i j => (match an with
    | .anchorStart => i = 0
    | .anchorEnd => i = cs.length) ∧ j = i
  opens := fun _ => Eq
  closes := fun _ => Eq

/-- The language of a pattern: the pairs of positions of `cs` it leads between. -/
def denote (cs : List Char) (a : RxAst) : Nat → Nat → Prop := spans (textReading cs) repeatCounts a

/-- Positions in bytes. -/
def byteReading (s : Str) : Reading Nat where
  take := fun P i j => (i < s.length ∧ P (rxCpAt s i) = true) ∧ j = Regexp.rxNextPos s i
  anchor := fun an i j => (match an with
    | .anchorStart => i = 0
    | .anchorEnd => i ≥ s.length) ∧ j = i
  opens := fun _ => Eq
  closes := fun _ => Eq

/-- Two relations that answer each other's steps through `B`. -/
structure Matched (B : X → Y → Prop) (R : X → X → Prop) (S : Y → Y → Prop) : Prop where
  forth : ∀ {x y x'}, B x y → R x x' → ∃ y', S y y' ∧ B x' y'
  back : ∀ {x y y'}, B x y → S y y' → ∃ x', R x x' ∧ B x' y'

/-- Two readings whose leaves answer each other. -/
structure Bisim (B : X → Y → Prop) (M : Reading X) (N : Reading Y) : Prop where
  take : ∀ P, Matched B (M.take P) (N.take P)
  anchor : ∀ an, Matched B (M.anchor an) (N.anchor an)
  opens : ∀ id, Matched B (M.opens id) (N.opens id)
  closes : ∀ id, Matched B (M.closes id) (N.closes id)

theorem matched_eq (B : X → Y → Prop) : Matched B Eq Eq where
  forth := by
    rintro x y _ hB rfl
    exact ⟨y, rfl, hB⟩
  back := by
    rintro x y _ hB rfl
    exact ⟨x, rfl, hB⟩

theorem Matched.comp {B : X → Y → Prop} {R R' : X → X → Prop} {S S' : Y → Y → Prop}
    (h : Matched B R S) (h' : Matched B R' S') : Matched B (Comp R R') (Comp S S') where
  forth := by
    rintro x y x' hB ⟨w, hw, hx'⟩
    obtain ⟨z, hz, hwz⟩ := h.forth hB hw
    obtain ⟨y', hy', hB'⟩ := h'.forth hwz hx'
    exact ⟨y', ⟨z, hz, hy'⟩, hB'⟩
  back := by
    rintro x y y' hB ⟨z, hz, hy'⟩
    obtain ⟨w, hw, hwz⟩ := h.back hB hz
    obtain ⟨x', hx', hB'⟩ := h'.back hwz hy'
    exact ⟨x', ⟨w, hw, hx'⟩, hB'⟩

theorem Matched.or {B : X → Y → Prop} {R R' : X → X → Prop} {S S' : Y → Y → Prop}
    (h : Matched B R S) (h' : Matched B R' S') :
    Matched B (fun u v => R u v ∨ R' u v) (fun u v => S u v ∨ S' u v) where
  forth := by
    rintro x y x' hB (hR | hR)
    · obtain ⟨y', hS, hB'⟩ := h.forth hB hR
      exact ⟨y', .inl hS, hB'⟩
    · obtain ⟨y', hS, hB'⟩ := h'.forth hB hR
      exact ⟨y', .inr hS, hB'⟩
  back := by
    rintro x y y' hB (hS | hS)
    · obtain ⟨x', hR, hB'⟩ := h.back hB hS
      exact ⟨x', .inl hR, hB'⟩
    · obtain ⟨x', hR, hB'⟩ := h'.back hB hS
      exact ⟨x', .inr hR, hB'⟩

theorem Matched.iter {B : X → Y → Prop} {R : X → X → Prop} {S : Y → Y → Prop}
    (h : Matched B R S) (k : Nat) : Matched B (iter R k) (iter S k) := by
  induction k with
  | zero => exact matched_eq B
  | succ k ih => exact h.comp ih

theorem Matched.counted {B : X → Y → Prop} {R : X → X → Prop} {S : Y → Y → Prop}
    (h : Matched B R S) (allowed : Nat → Prop) :
    Matched B (fun u v => ∃ k, allowed k ∧ Fragment.iter R k u v)
      (fun u v => ∃ k, allowed k ∧ Fragment.iter S k u v) where
  forth := by
    rintro x y x' hB ⟨k, hk, hR⟩
    obtain ⟨y', hS, hB'⟩ := (h.iter k).forth hB hR
    exact ⟨y', ⟨k, hk, hS⟩, hB'⟩
  back := by
    rintro x y y' hB ⟨k, hk, hS⟩
    obtain ⟨x', hR, hB'⟩ := (h.iter k).back hB hS
    exact ⟨x', ⟨k, hk, hR⟩, hB'⟩

theorem Matched.star {B : X → Y → Prop} {R : X → X → Prop} {S : Y → Y → Prop}
    (h : Matched B R S) : Matched B (ReflTransGen R) (ReflTransGen S) where
  forth := by
    intro x y x' hB hR
    obtain ⟨k, hk⟩ := reflTransGen_iff_iter.1 hR
    obtain ⟨y', hS, hB'⟩ := (h.iter k).forth hB hk
    exact ⟨y', reflTransGen_iff_iter.2 ⟨k, hS⟩, hB'⟩
  back := by
    intro x y y' hB hS
    obtain ⟨k, hk⟩ := reflTransGen_iff_iter.1 hS
    obtain ⟨x', hR, hB'⟩ := (h.iter k).back hB hk
    exact ⟨x', reflTransGen_iff_iter.2 ⟨k, hR⟩, hB'⟩

mutual

theorem spans_matched {B : X → Y → Prop} {M : Reading X} {N : Reading Y} (h : Bisim B M N)
    (counts : Int → Option Int → Nat → Prop) :
    ∀ a : RxAst, Matched B (spans M counts a) (spans N counts a)
  | .rxChar _ => h.take _
  | .rxAny => h.take _
  | .rxClass _ _ => h.take _
  | .rxAnchor an => h.anchor an
  | .rxConcat xs => spansAll_matched h counts xs
  | .rxAlt xs => spansAny_matched h counts xs
  | .rxStar x => (spans_matched h counts x).star
  | .rxPlus x => (spans_matched h counts x).comp (spans_matched h counts x).star
  | .rxOpt x => (matched_eq B).or (spans_matched h counts x)
  | .rxRepeat x lo hi => (spans_matched h counts x).counted (counts lo hi)
  | .rxGroup id x => (h.opens id).comp ((spans_matched h counts x).comp (h.closes id))

theorem spansAll_matched {B : X → Y → Prop} {M : Reading X} {N : Reading Y} (h : Bisim B M N)
    (counts : Int → Option Int → Nat → Prop) :
    ∀ xs : List RxAst, Matched B (spansAll M counts xs) (spansAll N counts xs)
  | [] => matched_eq B
  | x :: xs => (spans_matched h counts x).comp (spansAll_matched h counts xs)

theorem spansAny_matched {B : X → Y → Prop} {M : Reading X} {N : Reading Y} (h : Bisim B M N)
    (counts : Int → Option Int → Nat → Prop) :
    ∀ xs : List RxAst, Matched B (spansAny M counts xs) (spansAny N counts xs)
  | [] => ⟨fun _ hR => hR.elim, fun _ hS => hS.elim⟩
  | x :: xs => (spans_matched h counts x).or (spansAny_matched h counts xs)

end

theorem copyCounts_iff {lo : Int} {hi : Option Int} (hlo : 0 ≤ lo) (hmax : lo ≤ rxMaxRepeat)
    (hhi : ∀ h ∈ hi, lo ≤ h ∧ h ≤ rxMaxRepeat) (k : Nat) :
    copyCounts lo hi k ↔ repeatCounts lo hi k := by
  unfold copyCounts repeatCounts
  have hlower : lo.toNat ≤ k ↔ lo ≤ k := by omega
  rw [hlower]
  refine and_congr_right fun _ => forall₂_congr fun h hh => ?_
  obtain ⟨hle, hle'⟩ := hhi h hh
  unfold rxMaxRepeat at hmax hle'
  rw [Word64.sub_eq (by omega) (by omega)]
  omega

mutual

theorem spans_copyCounts (M : Reading X) : ∀ {a : RxAst}, Parsed a →
    spans M copyCounts a = spans M repeatCounts a
  | .rxChar _, _ => rfl
  | .rxAny, _ => rfl
  | .rxClass _ _, _ => rfl
  | .rxAnchor _, _ => rfl
  | .rxConcat _, .rxConcat h => spansAll_copyCounts M h
  | .rxAlt _, .rxAlt h => spansAny_copyCounts M h
  | .rxStar x, .rxStar h => by rw [spans, spans, spans_copyCounts M h]
  | .rxPlus x, .rxPlus h => by rw [spans, spans, spans_copyCounts M h]
  | .rxOpt x, .rxOpt h => by rw [spans, spans, spans_copyCounts M h]
  | .rxRepeat x lo hi, .rxRepeat h hlo hmax hhi => by
      funext u v
      rw [spans, spans, spans_copyCounts M h]
      simp only [copyCounts_iff hlo hmax hhi]
  | .rxGroup id x, .rxGroup _ h => by rw [spans, spans, spans_copyCounts M h]

theorem spansAll_copyCounts (M : Reading X) : ∀ {xs : List RxAst}, (∀ x ∈ xs, Parsed x) →
    spansAll M copyCounts xs = spansAll M repeatCounts xs
  | [], _ => rfl
  | x :: xs, h => by
      rw [spansAll, spansAll, spans_copyCounts M (h x List.mem_cons_self),
        spansAll_copyCounts M fun y hy => h y (List.mem_cons_of_mem x hy)]

theorem spansAny_copyCounts (M : Reading X) : ∀ {xs : List RxAst}, (∀ x ∈ xs, Parsed x) →
    spansAny M copyCounts xs = spansAny M repeatCounts xs
  | [], _ => rfl
  | x :: xs, h => by
      rw [spansAny, spansAny, spans_copyCounts M (h x List.mem_cons_self),
        spansAny_copyCounts M fun y hy => h y (List.mem_cons_of_mem x hy)]

end

theorem rxNextPos_bounds {s : Str} {b : Nat} (h : b < s.length) :
    b < Regexp.rxNextPos s b ∧ Regexp.rxNextPos s b ≤ s.length := by
  have hzero := stringCpLen_eq_zero_iff s b
  have hlen : stringCpLen s b ≤ s.length - b := by
    unfold stringCpLen
    rw [← List.length_drop]
    split
    · exact Nat.zero_le _
    · next heq =>
        rw [heq, List.length_cons]
        exact Nat.min_le_right _ _
  rw [Regexp.rxNextPos, if_neg (by omega)]
  omega

/-- The byte offset of a codepoint index. -/
inductive At (s : Str) : Nat → Nat → Prop where
  | zero : At s 0 0
  | next {i b : Nat} : At s i b → b < s.length → At s (i + 1) (Regexp.rxNextPos s b)

theorem codepointsFrom_cons {s : Str} {b : Nat} (h : b < s.length) :
    codepointsFrom s b = rxCpAt s b :: codepointsFrom s (Regexp.rxNextPos s b) := by
  rw [codepointsFrom, dif_pos h]

theorem codepointsFrom_eq_nil {s : Str} {b : Nat} (h : s.length ≤ b) : codepointsFrom s b = [] := by
  rw [codepointsFrom, dif_neg (by omega)]

theorem At.le {s : Str} {i b : Nat} (h : At s i b) : b ≤ s.length := by
  cases h with
  | zero => exact Nat.zero_le _
  | next _ hlt => exact (rxNextPos_bounds hlt).2

theorem At.drop {s : Str} {i b : Nat} (h : At s i b) :
    codepointsFrom s b = (codepoints s).drop i := by
  induction h with
  | zero => rfl
  | @next i b _ hlt ih =>
      rw [← List.drop_drop, ← ih, codepointsFrom_cons hlt]
      rfl

theorem At.getElem? {s : Str} {i b : Nat} (h : At s i b) :
    (codepoints s)[i]? = if b < s.length then some (rxCpAt s b) else none := by
  rw [← List.head?_drop, ← h.drop]
  split
  · next hlt =>
      rw [codepointsFrom_cons hlt]
      rfl
  · next hge =>
      rw [codepointsFrom_eq_nil (Nat.le_of_not_lt hge)]
      rfl

theorem At.eq_zero_iff {s : Str} {i b : Nat} (h : At s i b) : i = 0 ↔ b = 0 := by
  cases h with
  | zero => exact ⟨fun _ => rfl, fun _ => rfl⟩
  | next _ hlt =>
      have := (rxNextPos_bounds hlt).1
      omega

theorem At.eq_length_iff {s : Str} {i b : Nat} (h : At s i b) :
    i = (codepoints s).length ↔ s.length ≤ b := by
  have hle : i ≤ (codepoints s).length := by
    cases h with
    | zero => exact Nat.zero_le _
    | @next j c hat hlt =>
        have hget := hat.getElem?
        rw [if_pos hlt] at hget
        exact (List.getElem?_eq_some_iff.1 hget).1
  have hget := h.getElem?
  constructor
  · intro hi
    rw [hi, List.getElem?_eq_none_iff.2 le_rfl] at hget
    by_contra hlt
    rw [if_pos (Nat.lt_of_not_le hlt)] at hget
    cases hget
  · intro hb
    rw [if_neg (Nat.not_lt.2 hb), List.getElem?_eq_none_iff] at hget
    exact Nat.le_antisymm hle hget

theorem bisim_at (s : Str) : Bisim (At s) (textReading (codepoints s)) (byteReading s) where
  take := fun P => by
    constructor
    · rintro i b _ hat ⟨⟨c, hc, hP⟩, rfl⟩
      rw [hat.getElem?] at hc
      split at hc
      · next hlt =>
          cases hc
          exact ⟨_, ⟨⟨hlt, hP⟩, rfl⟩, .next hat hlt⟩
      · cases hc
    · rintro i b _ hat ⟨⟨hlt, hP⟩, rfl⟩
      refine ⟨i + 1, ⟨⟨rxCpAt s b, ?_, hP⟩, rfl⟩, .next hat hlt⟩
      rw [hat.getElem?, if_pos hlt]
  anchor := fun an => by
    cases an with
    | anchorStart =>
        constructor
        · rintro i b _ hat ⟨h, rfl⟩
          exact ⟨b, ⟨hat.eq_zero_iff.1 h, rfl⟩, hat⟩
        · rintro i b _ hat ⟨h, rfl⟩
          exact ⟨i, ⟨hat.eq_zero_iff.2 h, rfl⟩, hat⟩
    | anchorEnd =>
        constructor
        · rintro i b _ hat ⟨h, rfl⟩
          exact ⟨b, ⟨hat.eq_length_iff.1 h, rfl⟩, hat⟩
        · rintro i b _ hat ⟨h, rfl⟩
          exact ⟨i, ⟨hat.eq_length_iff.2 h, rfl⟩, hat⟩
  opens := fun _ => matched_eq _
  closes := fun _ => matched_eq _

theorem spans_whole_iff {a : RxAst} (h : Parsed a) (s : Str) :
    spans (byteReading s) copyCounts a 0 s.length ↔
      denote (codepoints s) a 0 (codepoints s).length := by
  rw [spans_copyCounts _ h]
  have hmatch := spans_matched (bisim_at s) repeatCounts a
  constructor
  · intro hspan
    obtain ⟨i, hden, hat⟩ := hmatch.back .zero hspan
    rwa [hat.eq_length_iff.2 le_rfl] at hden
  · intro hden
    obtain ⟨b, hspan, hat⟩ := hmatch.forth .zero hden
    rwa [Nat.le_antisymm hat.le (hat.eq_length_iff.1 rfl)] at hspan

end Kaikai.RegexpText
