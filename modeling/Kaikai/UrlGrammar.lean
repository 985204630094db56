import Mathlib.Data.List.SplitBy
import Kaikai.Decimal

namespace Kaikai.UrlRef

open Kaikai.Decimal
open Kaikai.Str

def Alpha (b : UInt8) : Prop := (65 ≤ b.toNat ∧ b.toNat ≤ 90) ∨ (97 ≤ b.toNat ∧ b.toNat ≤ 122)

def HexDig (b : UInt8) : Prop :=
  IsDigit b ∨ (65 ≤ b.toNat ∧ b.toNat ≤ 70) ∨ (97 ≤ b.toNat ∧ b.toNat ≤ 102)

/-- Letters, digits, `-`, `.`, `_` and `~`. -/
def Unreserved (b : UInt8) : Prop :=
  Alpha b ∨ IsDigit b ∨ b.toNat = 45 ∨ b.toNat = 46 ∨ b.toNat = 95 ∨ b.toNat = 126

/-- `!` `$` `&` the quote `(` `)` `*` `+` `,` `;` `=`. -/
def SubDelim (b : UInt8) : Prop := b.toNat ∈ [33, 36, 38, 39, 40, 41, 42, 43, 44, 59, 61]

/-- Letters, digits, `+`, `-` and `.`. -/
def SchemeChar (b : UInt8) : Prop :=
  Alpha b ∨ IsDigit b ∨ b.toNat = 43 ∨ b.toNat = 45 ∨ b.toNat = 46

def RegNameChar (b : UInt8) : Prop := Unreserved b ∨ SubDelim b

def UserinfoChar (b : UInt8) : Prop := RegNameChar b ∨ b.toNat = 58

def PChar (b : UInt8) : Prop := UserinfoChar b ∨ b.toNat = 64

def PathChar (b : UInt8) : Prop := PChar b ∨ b.toNat = 47

def QueryChar (b : UInt8) : Prop := PathChar b ∨ b.toNat = 63

/-- Characters of a class and percent escapes. -/
inductive Encoded (ok : UInt8 → Prop) : Str → Prop
  | nil : Encoded ok []
  | plain {b : UInt8} {s : Str} (hb : ok b) (hs : Encoded ok s) : Encoded ok (b :: s)
  | escape {x y : UInt8} {s : Str} (hx : HexDig x) (hy : HexDig y) (hs : Encoded ok s) :
      Encoded ok (37 :: x :: y :: s)

/-- A scheme: a letter, then scheme characters. -/
def Scheme (s : Str) : Prop := ∃ b rest, s = b :: rest ∧ Alpha b ∧ ∀ c ∈ rest, SchemeChar c

def Segment (s : Str) : Prop := Encoded PChar s

/-- `path-abempty`: segments behind a slash each. -/
inductive PathAbempty : Str → Prop
  | nil : PathAbempty []
  | cons {seg rest : Str} (hseg : Segment seg) (hrest : PathAbempty rest) :
      PathAbempty (47 :: (seg ++ rest))

/-- `path-rootless`: the first segment is not empty. -/
def PathRootless (s : Str) : Prop :=
  ∃ seg rest, s = seg ++ rest ∧ seg ≠ [] ∧ Segment seg ∧ PathAbempty rest

def PathAbsolute (s : Str) : Prop := ∃ rest, s = 47 :: rest ∧ (rest = [] ∨ PathRootless rest)

/-- `path-noscheme`: the first segment has no colon either. -/
def PathNoscheme (s : Str) : Prop :=
  ∃ seg rest, s = seg ++ rest ∧ seg ≠ [] ∧ Segment seg ∧ 58 ∉ seg ∧ PathAbempty rest

/-- An IP literal by its characters: after `v` characters of a user name with a dot among
them, otherwise hexadecimal digits, dots and colons with a colon among them. -/
def IpLiteral (s : Str) : Prop :=
  ∃ b rest, s = b :: rest ∧
    if b.toNat = 118 ∨ b.toNat = 86 then (∀ c ∈ rest, UserinfoChar c) ∧ 46 ∈ rest
    else (∀ c ∈ s, HexDig c ∨ c.toNat = 58 ∨ c.toNat = 46) ∧ 58 ∈ s

/-- A host: an IP literal in brackets or a registered name, among them the dotted addresses. -/
def Host (s : Str) : Prop := (∃ c, s = 91 :: (c ++ [93]) ∧ IpLiteral c) ∨ Encoded RegNameChar s

def Port (s : Str) : Prop := AllDigits s ∧ s.length ≤ 9 ∧ digitsOf s ≤ 65535

structure Authority where
  userinfo : Option Str
  host : Str
  port : Option Str

structure Authority.WellFormed (a : Authority) : Prop where
  userinfo : ∀ u, a.userinfo = some u → Encoded UserinfoChar u
  host : Host a.host
  port : ∀ p, a.port = some p → Port p

/-- A component before its delimiter. -/
def closedBy (o : Option Str) (d : UInt8) : Str :=
  match o with
  | none => []
  | some x => x ++ [d]

/-- A component behind its delimiter. -/
def openedBy (d : UInt8) (o : Option Str) : Str :=
  match o with
  | none => []
  | some x => d :: x

def Authority.text (a : Authority) : Str := closedBy a.userinfo 64 ++ (a.host ++ openedBy 58 a.port)

def authorityText (o : Option Authority) : Str :=
  match o with
  | none => []
  | some a => 47 :: 47 :: a.text

inductive HierPart : Option Authority → Str → Prop
  | authority {a : Authority} {path : Str} (ha : a.WellFormed) (hpath : PathAbempty path) :
      HierPart (some a) path
  | absolute {path : Str} (hpath : PathAbsolute path) : HierPart none path
  | rootless {path : Str} (hpath : PathRootless path) : HierPart none path
  | empty : HierPart none []

inductive RelativePart : Option Authority → Str → Prop
  | authority {a : Authority} {path : Str} (ha : a.WellFormed) (hpath : PathAbempty path) :
      RelativePart (some a) path
  | absolute {path : Str} (hpath : PathAbsolute path) : RelativePart none path
  | noscheme {path : Str} (hpath : PathNoscheme path) : RelativePart none path
  | empty : RelativePart none []

/-- `[ scheme ":" ] hier-part`, or `relative-part` without a scheme. -/
def FrontPart (rule : Str → Prop) (scheme : Option Str) (authority : Option Authority)
    (path : Str) : Prop :=
  match scheme with
  | some x => rule x ∧ HierPart authority path
  | none => RelativePart authority path

/-- The components of a reference, each as it is written. -/
structure Parts where
  scheme : Option Str
  authority : Option Authority
  path : Str
  query : Option Str
  fragment : Option Str

/-- The components put together again. -/
def Parts.text (p : Parts) : Str :=
  closedBy p.scheme 58 ++ (authorityText p.authority ++ (p.path ++
    (openedBy 63 p.query ++ openedBy 35 p.fragment)))

/-- `URI-reference`, over a rule for the scheme. -/
structure UriReference (rule : Str → Prop) (p : Parts) : Prop where
  front : FrontPart rule p.scheme p.authority p.path
  query : ∀ q, p.query = some q → Encoded QueryChar q
  fragment : ∀ f, p.fragment = some f → Encoded QueryChar f

section Encoded

variable {ok ok' : UInt8 → Prop} {s t : Str} {d : UInt8}

/-- A byte that neither the class nor an escape can hold. -/
def Delimits (ok : UInt8 → Prop) (d : UInt8) : Prop := ¬ ok d ∧ d ≠ 37 ∧ ¬ HexDig d

theorem Encoded.not_mem (h : Encoded ok s) (hd : Delimits ok d) : d ∉ s := by
  obtain ⟨hok, hpercent, hhex⟩ := hd
  induction h with
  | nil => exact List.not_mem_nil
  | plain hb _ ih =>
      rw [List.mem_cons, not_or]
      exact ⟨fun h => hok (h ▸ hb), ih⟩
  | escape hx hy _ ih =>
      rw [List.mem_cons, List.mem_cons, List.mem_cons, not_or, not_or, not_or]
      exact ⟨hpercent, fun h => hhex (h ▸ hx), fun h => hhex (h ▸ hy), ih⟩

theorem Encoded.append (hs : Encoded ok s) (ht : Encoded ok t) : Encoded ok (s ++ t) := by
  induction hs with
  | nil => exact ht
  | plain hb _ ih => exact Encoded.plain hb ih
  | escape hx hy _ ih => exact Encoded.escape hx hy ih

theorem Encoded.imp (h : Encoded ok s) (himp : ∀ b ∈ s, ok b → ok' b) : Encoded ok' s := by
  induction h with
  | nil => exact Encoded.nil
  | plain hb _ ih =>
      exact Encoded.plain (himp _ List.mem_cons_self hb)
        (ih fun b hmem => himp b (List.mem_cons_of_mem _ hmem))
  | escape hx hy _ ih =>
      apply Encoded.escape hx hy
      apply ih
      intro b hmem
      exact himp b (List.mem_cons_of_mem _ (List.mem_cons_of_mem _ (List.mem_cons_of_mem _ hmem)))

theorem Encoded.of_forall (h : ∀ b ∈ s, ok b) : Encoded ok s := by
  induction s with
  | nil => exact Encoded.nil
  | cons b s ih =>
      exact Encoded.plain (h b List.mem_cons_self) (ih fun c hc => h c (List.mem_cons_of_mem _ hc))

theorem Encoded.split (h : Encoded ok (s ++ d :: t)) (hpercent : d ≠ 37) (hhex : ¬ HexDig d) :
    Encoded ok s ∧ ok d ∧ Encoded ok t := by
  generalize hall : s ++ d :: t = all at h
  induction h generalizing s with
  | nil => exact absurd hall (by simp)
  | plain hb hrest ih =>
      cases s with
      | nil =>
          obtain ⟨rfl, rfl⟩ := List.cons.inj hall
          exact ⟨Encoded.nil, hb, hrest⟩
      | cons c s =>
          obtain ⟨rfl, htail⟩ := List.cons.inj hall
          obtain ⟨hs, hd, ht⟩ := ih htail
          exact ⟨Encoded.plain hb hs, hd, ht⟩
  | escape hx hy hrest ih =>
      cases s with
      | nil => exact absurd (List.cons.inj hall).1 hpercent
      | cons c₀ s =>
          obtain ⟨rfl, htail⟩ := List.cons.inj hall
          cases s with
          | nil =>
              obtain ⟨rfl, -⟩ := List.cons.inj htail
              exact absurd hx hhex
          | cons c₁ s =>
              obtain ⟨rfl, htail'⟩ := List.cons.inj htail
              cases s with
              | nil =>
                  obtain ⟨rfl, -⟩ := List.cons.inj htail'
                  exact absurd hy hhex
              | cons c₂ s =>
                  obtain ⟨rfl, htail''⟩ := List.cons.inj htail'
                  obtain ⟨hs, hd, ht⟩ := ih htail''
                  exact ⟨Encoded.escape hx hy hs, hd, ht⟩

end Encoded

theorem not_hexDig_slash : ¬ HexDig 47 := by
  unfold HexDig IsDigit
  decide

theorem exists_first_segment (s : Str) :
    ∃ seg rest, s = seg ++ rest ∧ 47 ∉ seg ∧ (rest = [] ∨ rest.head? = some 47) := by
  induction s with
  | nil => exact ⟨[], [], rfl, List.not_mem_nil, Or.inl rfl⟩
  | cons b s ih =>
      by_cases hb : b = 47
      · subst hb
        exact ⟨[], 47 :: s, rfl, List.not_mem_nil, Or.inr rfl⟩
      · obtain ⟨seg, rest, rfl, hseg, hrest⟩ := ih
        refine ⟨b :: seg, rest, rfl, ?_, hrest⟩
        rw [List.mem_cons, not_or]
        exact ⟨fun h => hb h.symm, hseg⟩

theorem PathAbempty.encoded {s : Str} (h : PathAbempty s) : Encoded PathChar s := by
  induction h with
  | nil => exact Encoded.nil
  | cons hseg _ ih =>
      exact Encoded.plain (Or.inr rfl) ((hseg.imp fun b _ hb => Or.inl hb).append ih)

theorem PathAbempty.head {s : Str} (h : PathAbempty s) : s = [] ∨ s.head? = some 47 := by
  cases h with
  | nil => exact Or.inl rfl
  | cons _ _ => exact Or.inr rfl

theorem encoded_segment {seg rest : Str} (h : Encoded PathChar (seg ++ rest)) (hseg : 47 ∉ seg)
    (hrest : rest = [] ∨ rest.head? = some 47) : Segment seg ∧ Encoded PathChar rest := by
  have hclass : ∀ b ∈ seg, PathChar b → PChar b := by
    rintro b hb (hp | hslash)
    · exact hp
    · have heq : b = 47 := UInt8.toNat_inj.1 hslash
      exact absurd (heq ▸ hb) hseg
  rcases hrest with rfl | hrest
  · rw [List.append_nil] at h
    exact ⟨h.imp hclass, Encoded.nil⟩
  · obtain ⟨t, rfl⟩ : ∃ t, rest = 47 :: t := by
      cases rest with
      | nil => exact absurd hrest (by simp)
      | cons c t => exact ⟨t, by rw [Option.some.inj hrest]⟩
    obtain ⟨hs, hd, ht⟩ := h.split (by decide) not_hexDig_slash
    exact ⟨hs.imp hclass, Encoded.plain hd ht⟩

theorem pathAbempty_of_encoded {s : Str} (h : Encoded PathChar s)
    (hhead : s = [] ∨ s.head? = some 47) : PathAbempty s := by
  induction hn : s.length using Nat.strong_induction_on generalizing s with
  | _ n ih =>
      cases s with
      | nil => exact PathAbempty.nil
      | cons b t =>
          have hb : b = 47 := by
            rcases hhead with hnil | hhead
            · cases hnil
            · exact Option.some.inj hhead
          subst hb
          obtain ⟨seg, rest, rfl, hseg, hrest⟩ := exists_first_segment t
          have htail : Encoded PathChar (seg ++ rest) :=
            (Encoded.split (s := []) h (by decide) not_hexDig_slash).2.2
          obtain ⟨hs, hr⟩ := encoded_segment htail hseg hrest
          apply PathAbempty.cons hs
          apply ih rest.length ?_ hr hrest rfl
          rw [List.length_cons, List.length_append] at hn
          omega

theorem pathAbempty_iff {s : Str} :
    PathAbempty s ↔ Encoded PathChar s ∧ (s = [] ∨ s.head? = some 47) :=
  ⟨fun h => ⟨h.encoded, h.head⟩, fun h => pathAbempty_of_encoded h.1 h.2⟩

theorem delimits_slash : Delimits PChar 47 := by
  refine ⟨?_, by decide, not_hexDig_slash⟩
  unfold PChar UserinfoChar RegNameChar Unreserved SubDelim Alpha IsDigit
  decide

theorem Segment.not_mem_slash {s : Str} (h : Segment s) : 47 ∉ s := Encoded.not_mem h delimits_slash

theorem head_append_ne {seg rest : Str} (hseg : Segment seg) (hne : seg ≠ []) :
    (seg ++ rest).head? ≠ some 47 := by
  rw [List.head?_append_of_ne_nil _ hne]
  intro h
  exact hseg.not_mem_slash (List.mem_of_head? h)

theorem pathRootless_iff {s : Str} :
    PathRootless s ↔ Encoded PathChar s ∧ s ≠ [] ∧ s.head? ≠ some 47 := by
  constructor
  · rintro ⟨seg, rest, rfl, hne, hseg, hrest⟩
    refine ⟨?_, ?_, head_append_ne hseg hne⟩
    · exact (hseg.imp fun b _ hb => Or.inl hb).append hrest.encoded
    · exact List.append_ne_nil_of_left_ne_nil hne rest
  · rintro ⟨hs, hne, hhead⟩
    obtain ⟨seg, rest, rfl, hseg, hrest⟩ := exists_first_segment s
    have hseg0 : seg ≠ [] := by
      rintro rfl
      rcases hrest with rfl | hrest
      · exact hne rfl
      · exact hhead hrest
    obtain ⟨hs, hr⟩ := encoded_segment hs hseg hrest
    exact ⟨seg, rest, rfl, hseg0, hs, pathAbempty_of_encoded hr hrest⟩

theorem pathAbsolute_iff {s : Str} :
    PathAbsolute s ↔ ∃ rest, s = 47 :: rest ∧ Encoded PathChar rest ∧ rest.head? ≠ some 47 := by
  constructor
  · rintro ⟨rest, rfl, rfl | hrest⟩
    · exact ⟨[], rfl, Encoded.nil, by simp⟩
    · obtain ⟨hr, -, hhead⟩ := pathRootless_iff.1 hrest
      exact ⟨rest, rfl, hr, hhead⟩
  · rintro ⟨rest, rfl, hr, hhead⟩
    refine ⟨rest, rfl, ?_⟩
    by_cases hne : rest = []
    · exact Or.inl hne
    · exact Or.inr (pathRootless_iff.2 ⟨hr, hne, hhead⟩)

/-- A colon in the first segment would start a scheme. -/
def ColonFree (s : Str) : Prop := ∀ t u, s = t ++ 58 :: u → 47 ∈ t

theorem colonFree_iff {seg rest : Str} (hseg : 47 ∉ seg) (hrest : rest = [] ∨ rest.head? = some 47) :
    ColonFree (seg ++ rest) ↔ 58 ∉ seg := by
  constructor
  · intro hfree hcolon
    obtain ⟨t, u, rfl⟩ := List.append_of_mem hcolon
    exact hseg (List.mem_append_left _ (hfree t (u ++ rest) (by simp)))
  · intro hcolon t u htext
    by_contra hslash
    rcases List.append_eq_append_iff.1 htext with ⟨more, rfl, hmore⟩ | ⟨more, rfl, hmore⟩
    · rcases hrest with rfl | hhead
      · simp at hmore
      · cases more with
        | nil =>
            rw [hmore] at hhead
            exact absurd hhead (by simp)
        | cons c more =>
            rw [hmore, List.cons_append, List.head?_cons, Option.some.injEq] at hhead
            apply hslash
            rw [hhead]
            exact List.mem_append_right _ List.mem_cons_self
    · cases more with
      | nil =>
          rw [List.nil_append] at hmore
          rcases hrest with rfl | hhead
          · cases hmore
          · rw [← hmore] at hhead
            exact absurd hhead (by simp)
      | cons c more =>
          obtain ⟨rfl, -⟩ := List.cons.inj hmore
          exact hcolon (List.mem_append_right _ List.mem_cons_self)

theorem pathNoscheme_iff {s : Str} : PathNoscheme s ↔ PathRootless s ∧ ColonFree s := by
  constructor
  · rintro ⟨seg, rest, rfl, hne, hseg, hcolon, hrest⟩
    exact ⟨⟨seg, rest, rfl, hne, hseg, hrest⟩, (colonFree_iff hseg.not_mem_slash hrest.head).2 hcolon⟩
  · rintro ⟨⟨seg, rest, rfl, hne, hseg, hrest⟩, hfree⟩
    exact ⟨seg, rest, rfl, hne, hseg, (colonFree_iff hseg.not_mem_slash hrest.head).1 hfree, hrest⟩

theorem slashes_iff {rest : Str} : [47, 47] <+: 47 :: rest ↔ rest.head? = some 47 := by
  cases rest with
  | nil => simp
  | cons c rest => simp [eq_comm]

theorem hierPart_none_iff {path : Str} :
    HierPart none path ↔ Encoded PathChar path ∧ ¬ [47, 47] <+: path := by
  constructor
  · intro h
    cases h with
    | absolute hpath =>
        obtain ⟨rest, rfl, hr, hhead⟩ := pathAbsolute_iff.1 hpath
        exact ⟨Encoded.plain (Or.inr rfl) hr, fun h => hhead (slashes_iff.1 h)⟩
    | rootless hpath =>
        obtain ⟨hs, -, hhead⟩ := pathRootless_iff.1 hpath
        refine ⟨hs, ?_⟩
        rintro ⟨t, rfl⟩
        exact hhead rfl
    | empty => exact ⟨Encoded.nil, by simp⟩
  · rintro ⟨hs, hslashes⟩
    cases path with
    | nil => exact HierPart.empty
    | cons b rest =>
        by_cases hb : b = 47
        · subst hb
          have hrest := (Encoded.split (s := []) hs (by decide) not_hexDig_slash).2.2
          exact HierPart.absolute (pathAbsolute_iff.2
            ⟨rest, rfl, hrest, fun h => hslashes (slashes_iff.2 h)⟩)
        · exact HierPart.rootless (pathRootless_iff.2 ⟨hs, by simp, by simpa using hb⟩)

theorem colonFree_of_slash {path : Str} (h : path.head? = some 47) : ColonFree path := by
  rintro t u rfl
  cases t with
  | nil => exact absurd h (by simp)
  | cons b t =>
      rw [List.cons_append, List.head?_cons, Option.some.injEq] at h
      exact h ▸ List.mem_cons_self

theorem relativePart_none_iff {path : Str} :
    RelativePart none path ↔ HierPart none path ∧ ColonFree path := by
  constructor
  · intro h
    cases h with
    | absolute hpath =>
        refine ⟨HierPart.absolute hpath, ?_⟩
        obtain ⟨rest, rfl, -⟩ := hpath
        exact colonFree_of_slash rfl
    | noscheme hpath =>
        obtain ⟨hroot, hfree⟩ := pathNoscheme_iff.1 hpath
        exact ⟨HierPart.rootless hroot, hfree⟩
    | empty =>
        refine ⟨HierPart.empty, ?_⟩
        intro t u htext
        simp at htext
  · rintro ⟨hpath, hfree⟩
    cases hpath with
    | absolute hpath => exact RelativePart.absolute hpath
    | rootless hpath => exact RelativePart.noscheme (pathNoscheme_iff.2 ⟨hpath, hfree⟩)
    | empty => exact RelativePart.empty

theorem relativePart_some_iff {a : Authority} {path : Str} :
    RelativePart (some a) path ↔ HierPart (some a) path := by
  constructor
  · intro h
    cases h with
    | authority ha hpath => exact HierPart.authority ha hpath
  · intro h
    cases h with
    | authority ha hpath => exact RelativePart.authority ha hpath

theorem hierPart_some_iff {a : Authority} {path : Str} :
    HierPart (some a) path ↔
      a.WellFormed ∧ Encoded PathChar path ∧ (path = [] ∨ path.head? = some 47) := by
  constructor
  · intro h
    cases h with
    | authority ha hpath => exact ⟨ha, pathAbempty_iff.1 hpath⟩
  · rintro ⟨ha, hpath⟩
    exact HierPart.authority ha (pathAbempty_iff.2 hpath)

end Kaikai.UrlRef
