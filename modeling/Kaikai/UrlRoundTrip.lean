import Kaikai.UrlParse

namespace Kaikai.UrlRef

open Kaikai.Decimal
open Kaikai.Str

def urlPrefixed (lead : Str) (o : Option Str) : Str :=
  match o with
  | some x => lead ++ x
  | none => []

def urlAuthorityString (u : Url) (host : Str) : Str :=
  ascii "//" ++ ((match u.userinfo with
    | some x => x ++ ascii "@"
    | none => []) ++ (host ++ (match u.port with
    | some p => ascii ":" ++ intToString p
    | none => [])))

/-- `to_string`: components are written as held. -/
def Url.toString (u : Url) : Str :=
  (match u.scheme with
    | some x => x ++ ascii ":"
    | none => []) ++ ((match u.host with
    | some h => urlAuthorityString u h
    | none => []) ++ (u.path ++ (urlPrefixed (ascii "?") u.query ++
      urlPrefixed (ascii "#") u.fragment)))

/-- The port as it is printed: its digits without leading zeros, and nothing for an empty one. -/
def printedPort (port : Option Str) : Option Str :=
  (port.bind portValue).map intToString

def Authority.printed (a : Authority) : Authority := { a with port := printedPort a.port }

def Parts.printed (p : Parts) : Parts :=
  { p with authority := p.authority.map Authority.printed }

theorem Parts.url_scheme (p : Parts) : p.url.scheme = p.scheme := by
  obtain ⟨scheme, authority, path, query, fragment⟩ := p
  cases authority <;> cases scheme <;> rfl

theorem Parts.url_port (p : Parts) :
    p.url.port = p.authority.bind fun a => a.port.bind portValue := by
  obtain ⟨scheme, authority, path, query, fragment⟩ := p
  cases authority <;> cases scheme <;> rfl

theorem Parts.toString_url (p : Parts) : p.url.toString = p.printed.text := by
  obtain ⟨scheme, authority, path, query, fragment⟩ := p
  have hopened : ∀ (lead : Str) (d : UInt8) (o : Option Str), lead = [d] →
      urlPrefixed lead o = openedBy d o := by
    rintro lead d o rfl
    cases o <;> rfl
  have hq : urlPrefixed (ascii "?") query = openedBy 63 query := hopened _ _ _ rfl
  have hf : urlPrefixed (ascii "#") fragment = openedBy 35 fragment := hopened _ _ _ rfl
  cases authority with
  | none => cases scheme <;> simp only [Url.toString, Parts.url, Url.withScheme, Url.withHier,
      Parts.printed, Parts.text, hq, hf] <;> rfl
  | some a =>
      obtain ⟨userinfo, host, port⟩ := a
      have hauth : ∀ u : Url, u.userinfo = userinfo → u.port = port.bind portValue →
          urlAuthorityString u host =
            authorityText (some (Authority.printed ⟨userinfo, host, port⟩)) := by
        intro u huser hport
        rw [urlAuthorityString, huser, hport, authorityText, Authority.text, Authority.printed,
          printedPort]
        cases userinfo <;> cases port.bind portValue <;> rfl
      cases scheme <;> simp only [Url.toString, Parts.url, Url.withScheme, Url.withHier,
        Parts.printed, Parts.text, hq, hf] <;> rw [hauth _ rfl rfl] <;> rfl

/-- A reference whose port is empty. -/
def EmptyPort (s : Str) : Prop :=
  ∃ p a, UriReference LaxScheme p ∧ p.text = s ∧ p.authority = some a ∧ a.port = some []

/-- What the documentation promises: references and no other texts are accepted, with their
components, and they print as they were written. -/
structure KeepsPromise (s : Str) : Prop where
  accepts : ∀ u, parse s = .ok u ↔ ∃ p, UriReference Scheme p ∧ p.text = s ∧ p.url = u
  prints : ∀ u, parse s = .ok u → ¬ EmptyPort s → u.toString = s

/-- However the text reads as a reference, its scheme has no escape and its port no leading
zero. -/
structure Plain (s : Str) : Prop where
  scheme : ∀ p x, UriReference LaxScheme p → p.text = s → p.scheme = some x → Scheme x
  port : ∀ p a d, UriReference LaxScheme p → p.text = s → p.authority = some a →
    a.port = some d → d.head? = some 48 → d = [48]

theorem UriReference.lax {p : Parts} (h : UriReference Scheme p) : UriReference LaxScheme p := by
  obtain ⟨hfront, hquery, hfragment⟩ := h
  refine ⟨?_, hquery, hfragment⟩
  obtain ⟨scheme, authority, path, query, fragment⟩ := p
  cases scheme with
  | none => exact hfront
  | some x => exact ⟨hfront.1.lax, hfront.2⟩

theorem UriReference.strict {p : Parts} (h : UriReference LaxScheme p)
    (hscheme : ∀ x, p.scheme = some x → Scheme x) : UriReference Scheme p := by
  obtain ⟨hfront, hquery, hfragment⟩ := h
  refine ⟨?_, hquery, hfragment⟩
  obtain ⟨scheme, authority, path, query, fragment⟩ := p
  cases scheme with
  | none => exact hfront
  | some x => exact ⟨hscheme x rfl, hfront.2⟩

theorem UriReference.port {rule : Str → Prop} {p : Parts} {a : Authority} {d : Str}
    (h : UriReference rule p) (ha : p.authority = some a) (hd : a.port = some d) : Port d := by
  obtain ⟨hfront, -, -⟩ := h
  obtain ⟨scheme, authority, path, query, fragment⟩ := p
  obtain rfl : authority = some a := ha
  cases scheme with
  | none => exact (hierPart_some_iff.1 (relativePart_some_iff.1 hfront)).1.port d hd
  | some x => exact (hierPart_some_iff.1 hfront.2).1.port d hd

theorem url_unique {p q : Parts} (hp : UriReference LaxScheme p) (hq : UriReference LaxScheme q)
    (h : p.text = q.text) : p.url = q.url := by
  have hparse := parse_iff.2 ⟨p, hp, rfl, rfl⟩
  rw [h] at hparse
  exact Except.ok.inj (hparse.symm.trans (parse_iff.2 ⟨q, hq, rfl, rfl⟩))

theorem portValue_nonempty {d : Str} (hne : d ≠ []) :
    (portValue d).map intToString = some (numeral (digitsOf d)) := by
  have hnonneg : ¬ ((digitsOf d : Int) < 0) := by omega
  rw [portValue, if_neg hne, Option.map_some, intToString, if_neg hnonneg, Int.natAbs_natCast]

theorem printedPort_some {d : Str} (hne : d ≠ []) :
    printedPort (some d) = some (numeral (digitsOf d)) :=
  portValue_nonempty hne

theorem numeral_of_digits {d : Str} (hd : AllDigits d) (hne : d ≠ []) :
    numeral (digitsOf d) = d ↔ (d.head? = some 48 → d = [48]) := by
  constructor
  · intro h
    rw [← h]
    exact (canonical_numeral _).leading
  · intro hlead
    exact (Canonical.eq_numeral ⟨hd, hne, rfl, hlead⟩).symm

theorem printed_text_iff {p : Parts} :
    p.printed.text = p.text ↔ ∀ a, p.authority = some a → printedPort a.port = a.port := by
  obtain ⟨scheme, authority, path, query, fragment⟩ := p
  cases authority with
  | none =>
      refine iff_of_true rfl ?_
      rintro a ⟨⟩
  | some a =>
      obtain ⟨userinfo, host, port⟩ := a
      have hopened : ∀ o o' : Option Str, openedBy 58 o = openedBy 58 o' → o = o' := by
        intro o o' h
        cases o <;> cases o' <;> simp_all [openedBy]
      constructor
      · rintro htext _ ⟨⟩
        have hcancel := List.append_cancel_left htext
        simp only [Parts.printed, Option.map_some, Authority.printed, authorityText,
          Authority.text, List.cons_append, List.append_assoc, List.cons.injEq, true_and,
          List.append_cancel_left_eq, List.append_cancel_right_eq] at hcancel
        exact hopened _ _ hcancel
      · intro h
        have hport := h _ rfl
        rw [Parts.printed, Option.map_some, Authority.printed, hport]

theorem keepsPromise_of_plain {s : Str} (h : Plain s) : KeepsPromise s := by
  constructor
  · intro u
    rw [parse_iff]
    constructor
    · rintro ⟨p, hp, htext, hurl⟩
      exact ⟨p, hp.strict fun x hx => h.scheme p x hp htext hx, htext, hurl⟩
    · rintro ⟨p, hp, htext, hurl⟩
      exact ⟨p, hp.lax, htext, hurl⟩
  · intro u hu hempty
    obtain ⟨p, hp, rfl, rfl⟩ := parse_iff.1 hu
    rw [Parts.toString_url, printed_text_iff]
    intro a ha
    cases hd : a.port with
    | none => rfl
    | some d =>
        have hne : d ≠ [] := by
          rintro rfl
          exact hempty ⟨p, a, hp, rfl, ha, hd⟩
        rw [printedPort_some hne, (numeral_of_digits (hp.port ha hd).1 hne).2]
        exact h.port p a d hp rfl ha hd

theorem plain_of_keepsPromise {s : Str} (h : KeepsPromise s) : Plain s := by
  constructor
  · intro p x hp htext hx
    have hparse := parse_iff.2 ⟨p, hp, htext, rfl⟩
    obtain ⟨q, hq, -, hurl⟩ := (h.accepts _).1 hparse
    have hscheme : q.scheme = some x := by rw [← q.url_scheme, hurl, p.url_scheme, hx]
    obtain ⟨hfront, -, -⟩ := hq
    rw [hscheme] at hfront
    exact hfront.1
  · intro p a d hp htext ha hd hhead
    have hne : d ≠ [] := by
      rintro rfl
      exact absurd hhead (by simp)
    -- the same text has no reading with an empty port
    have hempty : ¬ EmptyPort s := by
      rintro ⟨q, b, hq, hqtext, hb, hbport⟩
      have hport := congrArg Url.port (url_unique hp hq (htext.trans hqtext.symm))
      rw [p.url_port, q.url_port, ha, hb, Option.bind_some, Option.bind_some, hd, hbport,
        Option.bind_some, Option.bind_some, portValue, portValue, if_neg hne, if_pos rfl] at hport
      cases hport
    have hprint := h.prints _ (parse_iff.2 ⟨p, hp, htext, rfl⟩) hempty
    rw [Parts.toString_url, ← htext, printed_text_iff] at hprint
    have hdigits := hprint a ha
    rw [hd, printedPort_some hne, Option.some.injEq] at hdigits
    exact (numeral_of_digits (hp.port ha hd).1 hne).1 hdigits hhead

/-- Acceptance and printing are as documented exactly for the texts without an escape in a
scheme or a leading zero in a port. -/
theorem keepsPromise_iff (s : Str) : KeepsPromise s ↔ Plain s :=
  ⟨plain_of_keepsPromise, keepsPromise_of_plain⟩

def escapedScheme : Parts := ⟨some (ascii "a%41"), none, ascii "x", none, none⟩

def zeroPort : Parts := ⟨none, some ⟨none, ascii "h", some (ascii "080")⟩, [], none, none⟩

theorem escapedScheme_reference : UriReference LaxScheme escapedScheme := by
  have hscheme : LaxScheme (ascii "a%41") := by
    refine ⟨97, ascii "%41", rfl, Or.inr (by decide), ?_⟩
    exact Encoded.escape (Or.inl (by decide)) (Or.inl (by decide)) Encoded.nil
  have hpath : HierPart none (ascii "x") := by
    refine hierPart_none_iff.2 ⟨?_, by decide⟩
    exact Encoded.plain (Or.inl (Or.inl (Or.inl (Or.inl (Or.inl (Or.inr (by decide))))))) Encoded.nil
  exact ⟨⟨hscheme, hpath⟩, by rintro q ⟨⟩, by rintro q ⟨⟩⟩

theorem digits_eighty : AllDigits (ascii "080") ∧ AllDigits (ascii "80") := by
  have hlead : AllDigits (48 :: ascii "80") := by
    intro b hb
    have hcases : b = 48 ∨ b = 56 ∨ b = 48 := by simpa [ascii] using hb
    rcases hcases with rfl | rfl | rfl <;> decide
  exact ⟨hlead, fun b hb => hlead b (List.mem_cons_of_mem _ hb)⟩

theorem zeroPort_reference : UriReference LaxScheme zeroPort := by
  have hhost : Host (ascii "h") := by
    refine Or.inr (Encoded.plain (Or.inl (Or.inl (Or.inr (by decide)))) Encoded.nil)
  have hport : Port (ascii "080") := by
    exact ⟨digits_eighty.1, by decide, by decide⟩
  refine ⟨relativePart_some_iff.2 (hierPart_some_iff.2 ⟨⟨by rintro u ⟨⟩, hhost, ?_⟩, Encoded.nil,
    Or.inl rfl⟩), by rintro q ⟨⟩, by rintro q ⟨⟩⟩
  rintro p ⟨⟩
  exact hport

/-- A scheme with an escape is no scheme but is accepted, and a port loses its leading zero. -/
theorem promise_broken :
    (∃ u, parse (ascii "a%41:x") = .ok u) ∧ ¬ KeepsPromise (ascii "a%41:x") ∧
    (∃ u, parse (ascii "//h:080") = .ok u ∧ u.toString = ascii "//h:80") ∧
    ¬ KeepsPromise (ascii "//h:080") := by
  have hescape : ¬ Scheme (ascii "a%41") := by
    rintro ⟨b, rest, heq, -, hrest⟩
    have hpercent : SchemeChar 37 := by
      apply hrest
      rw [← (List.cons.inj heq).2]
      exact List.mem_cons_self
    exact not_percent_scheme hpercent
  refine ⟨⟨_, parse_iff.2 ⟨escapedScheme, escapedScheme_reference, rfl, rfl⟩⟩, ?_,
    ⟨_, parse_iff.2 ⟨zeroPort, zeroPort_reference, rfl, rfl⟩, ?_⟩, ?_⟩
  · intro h
    exact hescape ((plain_of_keepsPromise h).scheme escapedScheme _ escapedScheme_reference rfl rfl)
  · rw [Parts.toString_url]
    have hport : printedPort (some (ascii "080")) = some (ascii "80") := by
      have hnumeral : ascii "80" = numeral (digitsOf (ascii "080")) := by
        apply Canonical.eq_numeral
        exact ⟨digits_eighty.2, by decide, rfl, by decide⟩
      rw [printedPort_some (by decide), hnumeral]
    rw [zeroPort, Parts.printed, Option.map_some, Authority.printed, hport]
    rfl
  · intro h
    have hlead := (plain_of_keepsPromise h).port zeroPort _ _ zeroPort_reference rfl rfl rfl rfl
    cases hlead

end Kaikai.UrlRef
