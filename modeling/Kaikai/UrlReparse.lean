import Kaikai.UrlResolve

namespace Kaikai.UrlRef

open Kaikai.Decimal
open Kaikai.Str
open Kaikai.Text (startsWith)

/-- No complete segment is a dot segment. -/
def NoDots (path : Str) : Prop := ∀ seg ∈ path.splitOn 47, ¬ DotSegment seg

instance (path : Str) : Decidable (NoDots path) :=
  inferInstanceAs (Decidable (∀ seg ∈ path.splitOn 47, ¬ (_ ∨ _)))

theorem noDots_segment {seg : Str} (hseg : 47 ∉ seg) : NoDots seg ↔ ¬ DotSegment seg := by
  rw [NoDots, List.splitOn_eq_singleton hseg]
  exact List.forall_mem_singleton

theorem noDots_append {s t : Str} : NoDots (s ++ 47 :: t) ↔ NoDots s ∧ NoDots t := by
  rw [NoDots, List.splitOn_append_cons_self]
  exact List.forall_mem_append

theorem noDots_nil : NoDots [] := by
  rw [noDots_segment List.not_mem_nil]
  rintro (h | h) <;> exact absurd h (by decide)

/-- Empty, or with a slash in front. -/
def Slashed (s : Str) : Prop := s = [] ∨ s.head? = some 47

theorem slashed_append {s t : Str} (hs : Slashed s) (ht : Slashed t) : Slashed (s ++ t) := by
  cases s with
  | nil => exact ht
  | cons b s => exact .inr (hs.resolve_left (List.cons_ne_nil b s))

/-- What the removal keeps of its input and output; `rooted` paths stay rooted. -/
structure Removing (rooted : Prop) (input out : Str) : Prop where
  front : Encoded PathChar input
  back : Encoded PathChar out
  clean : NoDots out
  joined : out = [] ∨ Slashed input
  root : rooted → Slashed input ∧ Slashed out

section Removing

variable {rooted : Prop} {input out : Str}

theorem pathChar_slash : PathChar 47 := Or.inr rfl

theorem encoded_slash {s : Str} (h : Encoded PathChar s) : Encoded PathChar (47 :: s) :=
  .plain pathChar_slash h

theorem urlPopSegment_spec (hout : Encoded PathChar out) (hclean : NoDots out) :
    Encoded PathChar (urlPopSegment out) ∧ NoDots (urlPopSegment out) ∧
      (Slashed out → Slashed (urlPopSegment out)) := by
  obtain hnone | ⟨s, t, rfl, ht⟩ := exists_last_slash out
  · rw [urlPopSegment_of_not_mem hnone]
    exact ⟨.nil, noDots_nil, fun _ => .inl rfl⟩
  · rw [urlPopSegment_append ht]
    refine ⟨(hout.split (by decide) not_hexDig_slash).1, (noDots_append.1 hclean).1, ?_⟩
    cases s with
    | nil => exact fun _ => .inl rfl
    | cons b s => exact fun h => .inr (h.resolve_left (List.cons_ne_nil _ _))

theorem slashed_tail {s : Str} (h : Slashed s) (hs : Encoded PathChar s) :
    Encoded PathChar s.tail := by
  obtain rfl | h := h
  · exact .nil
  · cases s with
    | nil => exact .nil
    | cons b s =>
        obtain rfl := Option.some.inj h
        exact (Encoded.split (s := []) hs (by decide) not_hexDig_slash).2.2

theorem Encoded.after_dots {dots t : Str} (hdots : DotSegment dots)
    (h : Encoded PathChar (47 :: (dots ++ t))) (ht : Slashed t) : Encoded PathChar t := by
  have hrest := (Encoded.split (s := []) h (by decide) not_hexDig_slash).2.2
  have hout : 47 ∉ dots := by
    rcases hdots with rfl | rfl <;> decide
  exact (encoded_segment hrest hout ht).2

theorem Removing.step (h : Removing rooted input out) (hne : input ≠ []) :
    Removing rooted (urlDotStep input out).1 (urlDotStep input out).2 := by
  obtain ⟨hin, hout, hclean, hjoined, hroot⟩ := h
  have hstep := urlDotStep_spec out hne
  generalize urlDotStep input out = result at hstep ⊢
  cases hstep with
  | @drop t dots hdots =>
      obtain ⟨b, dots, rfl, hb⟩ : ∃ b rest, dots = b :: rest ∧ b ≠ 47 := by
        rcases hdots with rfl | rfl
        · exact ⟨46, [], rfl, by decide⟩
        · exact ⟨46, [46], rfl, by decide⟩
      have hnot : ¬ Slashed (b :: dots ++ 47 :: t) := by
        rintro (h | h)
        · exact absurd h (List.cons_ne_nil _ _)
        · exact hb (Option.some.inj h)
      refine ⟨(hin.split (by decide) not_hexDig_slash).2.2, hout, hclean, ?_, ?_⟩
      · exact .inl (hjoined.resolve_right hnot)
      · exact fun hr => absurd (hroot hr).1 hnot
  | stay t ht =>
      have htail := slashed_tail ht (Encoded.after_dots (.inl rfl) hin ht)
      exact ⟨encoded_slash htail, hout, hclean, .inr (.inr rfl), fun hr => ⟨.inr rfl, (hroot hr).2⟩⟩
  | up t ht =>
      have htail := slashed_tail ht (Encoded.after_dots (.inr rfl) hin ht)
      obtain ⟨hpop, hpopclean, hpoproot⟩ := urlPopSegment_spec hout hclean
      exact ⟨encoded_slash htail, hpop, hpopclean, .inr (.inr rfl), fun hr =>
        ⟨.inr rfl, hpoproot (hroot hr).2⟩⟩
  | last hdots => exact ⟨.nil, hout, hclean, .inr (.inl rfl), fun hr => ⟨.inl rfl, (hroot hr).2⟩⟩
  | @move lead seg rest hlead hseg hdots hrest =>
      have hsegclean := (noDots_segment hseg).2 hdots
      rcases hlead with ⟨rfl, hsegne⟩ | rfl
      · rw [List.nil_append] at hin hne hjoined hroot
        obtain ⟨hs, hr⟩ := encoded_segment hin hseg hrest
        have hnot : ¬ Slashed (seg ++ rest) := by
          rintro (h | h)
          · exact hne h
          · exact head_append_ne hs hsegne h
        obtain rfl := hjoined.resolve_right hnot
        refine ⟨hr, hs.imp fun b _ hb => Or.inl hb, hsegclean, .inr hrest, fun hr => ?_⟩
        exact absurd (hroot hr).1 hnot
      · change Encoded PathChar (47 :: (seg ++ rest)) at hin
        have hin' := (Encoded.split (s := []) hin (by decide) not_hexDig_slash).2.2
        obtain ⟨hs, hr⟩ := encoded_segment hin' hseg hrest
        refine ⟨hr, hout.append (encoded_slash (hs.imp fun b _ hb => Or.inl hb)),
          noDots_append.2 ⟨hclean, hsegclean⟩, .inr hrest, fun hr => ⟨hrest, ?_⟩⟩
        exact slashed_append (hroot hr).2 (.inr rfl)

theorem Removing.run (h : Removing rooted input out) :
    Removing rooted [] (urlRemoveDots input out) := by
  induction hn : input.length using Nat.strong_induction_on generalizing input out with
  | _ n ih =>
      rw [urlRemoveDots]
      by_cases hne : input = []
      · subst hne
        exact h
      · rw [dif_neg hne]
        exact ih _ (hn ▸ urlDotStep_lt out hne) (h.step hne) rfl

end Removing

/-- A path that is free of dots, well formed, and rooted where it has to be. -/
structure CleanPath (rooted : Prop) (path : Str) : Prop where
  encoded : Encoded PathChar path
  clean : NoDots path
  root : rooted → Slashed path

theorem cleanPath_removeDots {rooted : Prop} {path : Str} (h : Encoded PathChar path)
    (hroot : rooted → Slashed path) : CleanPath rooted (urlRemoveDots path []) := by
  have hstart : Removing rooted path [] :=
    ⟨h, .nil, noDots_nil, .inl rfl, fun hr => ⟨hroot hr, .inl rfl⟩⟩
  have hrun := hstart.run
  exact ⟨hrun.back, hrun.clean, fun hr => (hrun.root hr).2⟩

/-- A reference with a scheme, but for two slashes in front of a path without authority. -/
structure NearReference (p : Parts) : Prop where
  scheme : ∃ x, p.scheme = some x ∧ LaxScheme x
  authority : ∀ a, p.authority = some a → a.WellFormed ∧ Slashed p.path
  path : Encoded PathChar p.path
  query : ∀ q, p.query = some q → Encoded QueryChar q
  fragment : ∀ f, p.fragment = some f → Encoded QueryChar f

theorem NearReference.uriReference_iff {p : Parts} (h : NearReference p) :
    UriReference LaxScheme p ↔ ¬ (p.authority = none ∧ [47, 47] <+: p.path) := by
  obtain ⟨⟨x, hx, hlax⟩, hauthority, hpath, hquery, hfragment⟩ := h
  obtain ⟨scheme, authority, path, query, fragment⟩ := p
  obtain rfl : scheme = some x := hx
  cases authority with
  | none =>
      constructor
      · rintro ⟨hfront, -, -⟩ ⟨-, hslashes⟩
        exact (hierPart_none_iff.1 hfront.2).2 hslashes
      · intro hslashes
        exact ⟨⟨hlax, hierPart_none_iff.2 ⟨hpath, fun hbad => hslashes ⟨rfl, hbad⟩⟩⟩, hquery,
          hfragment⟩
  | some a =>
      refine iff_of_true ?_ fun hbad => absurd hbad.1 (by simp)
      exact ⟨⟨hlax, hierPart_some_iff.2 ⟨(hauthority a rfl).1, hpath, (hauthority a rfl).2⟩⟩, hquery,
        hfragment⟩

theorem UriReference.hier {p : Parts} (h : UriReference LaxScheme p) :
    (∀ a, p.authority = some a → a.WellFormed ∧ Slashed p.path) ∧ Encoded PathChar p.path ∧
      ∀ x, p.scheme = some x → LaxScheme x := by
  obtain ⟨hfront, -, -⟩ := h
  obtain ⟨scheme, authority, path, query, fragment⟩ := p
  have hhier : HierPart authority path := by
    cases scheme with
    | some x => exact hfront.2
    | none =>
        cases authority with
        | none => exact (relativePart_none_iff.1 hfront).1
        | some a => exact relativePart_some_iff.1 hfront
  refine ⟨?_, ?_, ?_⟩
  · rintro a rfl
    exact (hierPart_some_iff.1 hhier).imp id And.right
  · cases authority with
    | none => exact (hierPart_none_iff.1 hhier).1
    | some a => exact (hierPart_some_iff.1 hhier).2.1
  · rintro x rfl
    exact hfront.1

theorem Parts.url_eq (p : Parts) :
    p.url = ⟨p.scheme, p.authority.bind Authority.userinfo, p.authority.map Authority.host,
      p.authority.bind fun a => a.port.bind portValue, p.path, p.query, p.fragment⟩ := by
  obtain ⟨scheme, authority, path, query, fragment⟩ := p
  cases authority <;> cases scheme <;> rfl

theorem Parts.url_host (p : Parts) : p.url.host = p.authority.map Authority.host := by
  rw [p.url_eq]

theorem Parts.url_path (p : Parts) : p.url.path = p.path := by
  rw [p.url_eq]

theorem portValue_printed {port : Option Str} (h : ∀ d, port = some d → Port d) :
    (printedPort port).bind portValue = port.bind portValue ∧
      ∀ d, printedPort port = some d → Port d := by
  cases port with
  | none => exact ⟨rfl, fun d hd => by cases hd⟩
  | some d =>
      obtain ⟨hdigits, hlen, hvalue⟩ := h d rfl
      by_cases hne : d = []
      · subst hne
        exact ⟨rfl, fun d hd => by cases hd⟩
      · have hcanon := canonical_numeral (digitsOf d)
        rw [printedPort_some hne, Option.bind_some, Option.bind_some, portValue, portValue,
          if_neg hne, if_neg hcanon.nonempty, hcanon.value]
        refine ⟨rfl, fun e he => ?_⟩
        cases he
        refine ⟨hcanon.digits, ?_, ?_⟩
        · rw [numeral]
          split_ifs
          · exact Nat.one_le_ofNat
          · exact length_text_le_iff.2 (by omega)
        · rw [hcanon.value]
          exact hvalue

theorem Parts.url_printed {p : Parts} (h : ∀ a, p.authority = some a → a.WellFormed) :
    p.printed.url = p.url := by
  obtain ⟨scheme, authority, path, query, fragment⟩ := p
  cases authority with
  | none => rfl
  | some a =>
      have hport := (portValue_printed (h a rfl).port).1
      cases scheme <;> simp only [Parts.url, Parts.printed, Option.map_some, Authority.printed,
        Url.withScheme, Url.withHier, hport]

theorem NearReference.printed {p : Parts} (h : NearReference p) : NearReference p.printed where
  scheme := h.scheme
  authority := by
    intro b hb
    obtain ⟨a, ha, rfl⟩ := Option.map_eq_some_iff.1 hb
    obtain ⟨⟨huser, hhost, hport⟩, hpath⟩ := h.authority a ha
    exact ⟨⟨huser, hhost, (portValue_printed hport).2⟩, hpath⟩
  path := h.path
  query := h.query
  fragment := h.fragment

/-- A reference with a scheme reads back exactly when its path without authority does not look like
an authority. -/
theorem NearReference.parse_toString_iff {p : Parts} (h : NearReference p) :
    parse p.url.toString = .ok p.url ↔ ¬ (p.authority = none ∧ [47, 47] <+: p.path) := by
  constructor
  · rintro hparse ⟨hnone, hslashes⟩
    obtain ⟨q, hq, -, hurl⟩ := parse_iff.1 hparse
    have hauthority : q.authority = none := by
      have hhost := q.url_host
      rw [hurl, p.url_host, hnone, Option.map_none] at hhost
      exact Option.map_eq_none_iff.1 hhost.symm
    have hpath : q.path = p.path := by rw [← q.url_path, hurl, p.url_path]
    obtain ⟨x, hx, -⟩ := h.scheme
    have hscheme : q.scheme = some x := by rw [← q.url_scheme, hurl, p.url_scheme, hx]
    obtain ⟨hfront, -, -⟩ := hq
    rw [hauthority, hscheme, hpath] at hfront
    exact (hierPart_none_iff.1 hfront.2).2 hslashes
  · intro hslashes
    rw [Parts.toString_url]
    refine parse_iff.2 ⟨p.printed, h.printed.uriReference_iff.2 ?_, rfl,
      Parts.url_printed fun a ha => (h.authority a ha).1⟩
    rintro ⟨hnone, hbad⟩
    exact hslashes ⟨Option.map_eq_none_iff.1 hnone, hbad⟩

theorem urlMerge_spec {base : Parts} {rel : Str} (hbase : Encoded PathChar base.path)
    (hroot : ∀ a, base.authority = some a → Slashed base.path) (hrel : Encoded PathChar rel) :
    Encoded PathChar (urlMerge base.url rel) ∧
      (base.authority ≠ none → Slashed (urlMerge base.url rel)) := by
  rw [urlMerge, base.url_path, base.url_host, Option.isSome_map]
  by_cases hempty : base.authority.isSome = true ∧ base.path.length = 0
  · rw [if_pos hempty]
    exact ⟨encoded_slash hrel, fun _ => .inr rfl⟩
  · rw [if_neg hempty]
    obtain hnone | ⟨s, t, hpath, ht⟩ := exists_last_slash base.path
    · have hfind : urlFindLast base.path 47 base.path.length = none :=
        urlFindLast_of_not_mem hnone base.path.length
      rw [hfind]
      refine ⟨hrel, fun hsome => ?_⟩
      obtain ⟨a, ha⟩ := Option.ne_none_iff_exists'.1 hsome
      obtain hnil | hhead := hroot a ha
      · exact absurd ⟨by rw [ha]; rfl, by rw [hnil]; rfl⟩ hempty
      · exact absurd (List.mem_of_head? hhead) hnone
    · have hfind : urlFindLast (s ++ 47 :: t) 47 (s ++ 47 :: t).length = some s.length :=
        urlFindLast_of_mem ht
      have hrange : urlRange (s ++ 47 :: t) 0 (s.length + 1) = s ++ [47] := by
        refine urlRange_spans ⟨by simp, by simp, ?_⟩
        rw [List.drop_zero, List.drop_append]
        simp
      rw [hpath] at hbase hroot ⊢
      rw [hfind]
      change Encoded PathChar (urlRange (s ++ 47 :: t) 0 (s.length + 1) ++ rel) ∧
        (_ → Slashed (urlRange (s ++ 47 :: t) 0 (s.length + 1) ++ rel))
      rw [hrange, List.append_assoc]
      refine ⟨(hbase.split (by decide) not_hexDig_slash).1.append (encoded_slash hrel), fun hsome => ?_⟩
      obtain ⟨a, ha⟩ := Option.ne_none_iff_exists'.1 hsome
      have hslashed := hroot a ha
      cases s with
      | nil => exact .inr rfl
      | cons b s => exact .inr (hslashed.resolve_left (List.cons_ne_nil _ _))

theorem urlResolvePath_spec {base r : Parts} (hbase : Encoded PathChar base.path)
    (hroot : ∀ a, base.authority = some a → Slashed base.path) (hr : Encoded PathChar r.path) :
    CleanPath (base.authority ≠ none) (urlResolvePath base.url r.url) := by
  rw [urlResolvePath, r.url_path]
  split_ifs with hslash
  · refine cleanPath_removeDots hr fun _ => .inr ?_
    obtain ⟨t, ht⟩ := startsWith_iff.1 hslash
    rw [ht]
    rfl
  · obtain ⟨hmerge, hmergeroot⟩ := urlMerge_spec hbase hroot hr
    exact cleanPath_removeDots hmerge hmergeroot

/-- A resolved reference has its components from the base and the reference, and a path without
dot segments unless it is the base's as it stands. -/
theorem exists_resolved {base r : Parts} (hbase : UriReference LaxScheme base)
    (hr : UriReference LaxScheme r) {x : Str} (hx : base.scheme = some x) :
    ∃ p : Parts, urlResolveRef base.url r.url = p.url ∧ NearReference p ∧
      (r.scheme ≠ none ∨ r.authority ≠ none ∨ r.path ≠ [] → NoDots p.path) ∧
      (r.scheme = none → r.authority = none → r.path = [] → p.path = base.path) := by
  obtain ⟨hbauth, hbpath, hbscheme⟩ := hbase.hier
  obtain ⟨hrauth, hrpath, hrscheme⟩ := hr.hier
  have hremoved : CleanPath (r.authority ≠ none) (urlRemoveDots r.path []) := by
    refine cleanPath_removeDots hrpath fun hsome => ?_
    obtain ⟨a, ha⟩ := Option.ne_none_iff_exists'.1 hsome
    exact (hrauth a ha).2
  rw [urlResolveRef]
  by_cases hscheme : r.url.scheme.isSome = true
  · rw [if_pos hscheme]
    rw [r.url_scheme] at hscheme
    obtain ⟨y, hy⟩ := Option.isSome_iff_exists.1 hscheme
    have hne : r.scheme ≠ none := by rw [hy]; exact Option.some_ne_none y
    refine ⟨{ r with path := urlRemoveDots r.path [] }, by simp only [Parts.url_eq],
      ⟨⟨y, hy, hrscheme y hy⟩, fun a ha => ⟨(hrauth a ha).1, hremoved.root ?_⟩, hremoved.encoded,
        hr.query, hr.fragment⟩, fun _ => hremoved.clean, fun h => absurd h hne⟩
    rw [show r.authority = some a from ha]
    exact Option.some_ne_none a
  rw [if_neg hscheme]
  have hnone : r.scheme = none := by simpa [r.url_scheme] using hscheme
  by_cases hhost : r.url.host.isSome = true
  · rw [if_pos hhost]
    have hne : r.authority ≠ none := by
      intro hnone
      rw [r.url_host, hnone] at hhost
      exact absurd hhost (by decide)
    exact ⟨{ r with scheme := base.scheme, path := urlRemoveDots r.path [] },
      by simp only [Parts.url_eq],
      ⟨⟨x, hx, hbscheme x hx⟩, fun a ha => ⟨(hrauth a ha).1, hremoved.root hne⟩, hremoved.encoded,
        hr.query, hr.fragment⟩, fun _ => hremoved.clean, fun _ h => absurd h hne⟩
  rw [if_neg hhost]
  have hauth : r.authority = none := by simpa [r.url_host] using hhost
  by_cases hlen : r.url.path.length = 0
  · rw [if_pos hlen]
    have hpath : r.path = [] := by
      rw [← r.url_path]
      exact List.length_eq_zero_iff.1 hlen
    refine ⟨{ base with query := if r.query.isSome then r.query else base.query,
                        fragment := r.fragment }, by simp only [Parts.url_eq],
      ⟨⟨x, hx, hbscheme x hx⟩, hbauth, hbpath, ?_, hr.fragment⟩, fun h => ?_, fun _ _ _ => rfl⟩
    · intro q hq
      change (if r.query.isSome then r.query else base.query) = some q at hq
      split_ifs at hq
      · exact hr.query q hq
      · exact hbase.query q hq
    · simp [hnone, hauth, hpath] at h
  rw [if_neg hlen]
  rw [r.url_path] at hlen
  have hresolved := urlResolvePath_spec (r := r) hbpath (fun a ha => (hbauth a ha).2) hrpath
  refine ⟨{ base with path := urlResolvePath base.url r.url, query := r.query,
                      fragment := r.fragment }, by simp only [Parts.url_eq],
    ⟨⟨x, hx, hbscheme x hx⟩, fun a ha => ⟨(hbauth a ha).1, hresolved.root ?_⟩, hresolved.encoded,
      hr.query, hr.fragment⟩, fun _ => hresolved.clean,
    fun _ _ h => absurd (congrArg List.length h) hlen⟩
  rw [show base.authority = some a from ha]
  exact Option.some_ne_none a

/-- A resolved reference has no dot segments unless it takes the base's path, and reads back exactly
when its path does not look like an authority. -/
theorem resolve_spec (b r : Str) (u v t : Url) (hu : parse b = .ok u) (hv : parse r = .ok v)
    (ht : resolve u v = .ok t) :
    (v.scheme ≠ none ∨ v.host ≠ none ∨ v.path ≠ [] → NoDots t.path) ∧
    (v.scheme = none → v.host = none → v.path = [] → t.path = u.path) ∧
    (parse t.toString = .ok t ↔ ¬ (t.host = none ∧ ascii "//" <+: t.path)) := by
  obtain ⟨base, hbase, -, rfl⟩ := parse_iff.1 hu
  obtain ⟨ref, href, -, rfl⟩ := parse_iff.1 hv
  rw [resolve, base.url_scheme] at ht
  split_ifs at ht with hscheme
  obtain ⟨x, hx⟩ := Option.isSome_iff_exists.1 hscheme
  obtain ⟨p, hp, hnear, hclean, hsame⟩ := exists_resolved hbase href hx
  obtain rfl : p.url = t := hp ▸ Except.ok.inj ht
  rw [ref.url_scheme, ref.url_host, ref.url_path, base.url_path, p.url_path, p.url_host]
  simp only [ne_eq, Option.map_eq_none_iff]
  exact ⟨hclean, hsame, hnear.parse_toString_iff⟩

def schemeBase : Parts := ⟨some (ascii "s"), none, ascii "/a/../b", none, none⟩

def emptyRef : Parts := ⟨none, none, [], none, none⟩

def dotRef : Parts := ⟨none, none, ascii "/.//c", none, none⟩

def upRef : Parts := ⟨none, none, ascii "/b/../c", none, none⟩

theorem encoded_path {s : Str} (h : s.all fun b => urlIsPath b.toNat) : Encoded PathChar s :=
  .of_forall fun b hb => (urlIsPath_iff b).1 (List.all_eq_true.1 h b hb)

theorem relative_reference {path : Str} (h : path.all fun b => urlIsPath b.toNat)
    (hslashes : ¬ [47, 47] <+: path) (hcolon : 58 ∉ path) :
    UriReference LaxScheme ⟨none, none, path, none, none⟩ := by
  refine ⟨relativePart_none_iff.2 ⟨hierPart_none_iff.2 ⟨encoded_path h, hslashes⟩, ?_⟩,
    by rintro q ⟨⟩, by rintro q ⟨⟩⟩
  rintro t u rfl
  exact absurd (by simp) hcolon

theorem emptyRef_reference : UriReference LaxScheme emptyRef :=
  relative_reference (by decide) (by decide) (by decide)

theorem dotRef_reference : UriReference LaxScheme dotRef :=
  relative_reference (by decide) (by decide) (by decide)

theorem upRef_reference : UriReference LaxScheme upRef :=
  relative_reference (by decide) (by decide) (by decide)

theorem schemeBase_reference : UriReference LaxScheme schemeBase := by
  refine ⟨⟨⟨115, [], rfl, Or.inr (by decide), .nil⟩, hierPart_none_iff.2 ⟨encoded_path (by decide),
    by decide⟩⟩, by rintro q ⟨⟩, by rintro q ⟨⟩⟩

theorem resolve_upRef : urlRemoveDots (ascii "/b/../c") [] = ascii "/c" := by
  simp [urlRemoveDots, urlDotStep, urlSkipDotPrefix, urlDotStepUp, urlSegmentEnd, urlFind, ascii,
    startsWith, urlAfter, urlRange, stringSlice, orEnd, Json.stringByteAtInt, urlPopSegment,
    urlFindLast]

theorem resolve_dotRef : urlRemoveDots (ascii "/.//c") [] = ascii "//c" := by
  simp [urlRemoveDots, urlDotStep, urlSkipDotPrefix, urlDotStepUp, urlSegmentEnd, urlFind, ascii,
    startsWith, urlAfter, urlRange, stringSlice, orEnd, Json.stringByteAtInt]

/-- An absolute path against a base with a path of its own. -/
theorem resolve_spec_up :
    (upRef.url.scheme ≠ none ∨ upRef.url.host ≠ none ∨ upRef.url.path ≠ [] → NoDots (ascii "/c")) ∧
    (upRef.url.scheme = none → upRef.url.host = none → upRef.url.path = [] →
      ascii "/c" = schemeBase.url.path) ∧
    (parse (Url.toString { schemeBase.url with path := ascii "/c" }) =
        .ok { schemeBase.url with path := ascii "/c" } ↔
      ¬ (schemeBase.url.host = none ∧ ascii "//" <+: ascii "/c")) :=
  resolve_spec _ _ schemeBase.url upRef.url { schemeBase.url with path := ascii "/c" }
    (parse_iff.2 ⟨schemeBase, schemeBase_reference, rfl, rfl⟩)
    (parse_iff.2 ⟨upRef, upRef_reference, rfl, rfl⟩)
    (by rw [← resolve_upRef]; rfl)

/-- A base keeps its dot segments under an empty reference, and a path that comes to start with two
slashes reads back as an authority. -/
theorem not_resolve_clean :
    (∃ b r u v t, parse b = .ok u ∧ parse r = .ok v ∧ resolve u v = .ok t ∧ ¬ NoDots t.path) ∧
    ∃ b r u v t, parse b = .ok u ∧ parse r = .ok v ∧ resolve u v = .ok t ∧
      parse t.toString ≠ .ok t := by
  refine ⟨⟨_, _, schemeBase.url, emptyRef.url, schemeBase.url,
    parse_iff.2 ⟨schemeBase, schemeBase_reference, rfl, rfl⟩,
    parse_iff.2 ⟨emptyRef, emptyRef_reference, rfl, rfl⟩, rfl, by decide⟩,
    ⟨_, _, schemeBase.url, dotRef.url, { schemeBase.url with path := ascii "//c" },
      parse_iff.2 ⟨schemeBase, schemeBase_reference, rfl, rfl⟩,
      parse_iff.2 ⟨dotRef, dotRef_reference, rfl, rfl⟩, by rw [← resolve_dotRef]; rfl, ?_⟩⟩
  intro hparse
  obtain ⟨q, hq, -, hurl⟩ := parse_iff.1 hparse
  obtain ⟨scheme, authority, path, query, fragment⟩ := q
  rw [Parts.url_eq, Url.mk.injEq] at hurl
  obtain ⟨hscheme, -, hhost, -, hpath, -⟩ := hurl
  obtain rfl : scheme = some (ascii "s") := hscheme
  obtain rfl : authority = none := Option.map_eq_none_iff.1 hhost
  obtain rfl : path = ascii "//c" := hpath
  exact (hierPart_none_iff.1 hq.front.2).2 (show [47, 47] <+: ascii "//c" by decide)

end Kaikai.UrlRef
