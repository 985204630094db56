import Kaikai.UrlScan

namespace Kaikai.UrlRef

open Kaikai.Decimal
open Kaikai.Json (stringByteAtInt)
open Kaikai.Str
open Kaikai.Stretch
open Kaikai.Text

/-- The port that digits stand for; an empty port is none. -/
def portValue (digits : Str) : Option Int := if digits = [] then none else some (digitsOf digits)

theorem urlPortValue_iff {s t : Str} {i j : Nat} {v : Option Int} (h : Spans s i t j) :
    urlPortValue s i j = .ok v ↔ Port t ∧ v = portValue t := by
  have hstop := h.stop
  by_cases hnil : t = []
  · subst hnil
    have hge : i ≥ j := (spans_nil_iff.1 h).1.ge
    rw [urlPortValue, if_pos hge, portValue, if_pos rfl]
    constructor
    · intro hv
      exact ⟨⟨by simp [AllDigits], by simp, by decide⟩, (Except.ok.inj hv).symm⟩
    · rintro ⟨-, rfl⟩
      rfl
  · have hlt := h.lt hnil
    have hdigits : urlFirstBad s i j urlIsDigit = none ↔ AllDigits t := by
      rw [urlFirstBad_eq_none_iff h]
      exact forall₂_congr fun b _ => urlIsDigit_iff b
    rw [urlPortValue, if_neg (by omega), urlPortDigits, portValue, if_neg hnil]
    by_cases hall : AllDigits t
    · rw [hdigits.2 hall]
      simp only
      have hlen : j - i = t.length := by omega
      rw [hlen]
      by_cases hnine : t.length ≤ 9
      · have hbound : digitsOf t < 10 ^ 9 :=
          (digitsOf_lt hall).trans_le (Nat.pow_le_pow_right (by decide) hnine)
        have hread : stringToInt t = some (digitsOf t : Int) := by
          apply stringToInt_digits hall hnil (by omega)
          constructor <;> omega
        rw [if_neg (by omega), urlPortRange, urlRange_spans h, hread]
        simp only
        split_ifs with hmax
        · constructor
          · intro hv
            exact ⟨⟨hall, hnine, by omega⟩, (Except.ok.inj hv).symm⟩
          · rintro ⟨-, rfl⟩
            rfl
        · refine iff_of_false (by simp) ?_
          rintro ⟨hport, -⟩
          have hle := hport.2.2
          omega
      · rw [if_pos (by omega)]
        refine iff_of_false (by simp) ?_
        rintro ⟨hport, -⟩
        exact hnine hport.2.1
    · cases hbad : urlFirstBad s i j urlIsDigit with
      | none => exact absurd (hdigits.1 hbad) hall
      | some bad =>
          refine iff_of_false (by simp) ?_
          rintro ⟨hport, -⟩
          exact hall hport.1

theorem urlFind_isSome_iff {s t : Str} {i j : Nat} {c : UInt8} (h : Spans s i t j) :
    (∃ k, urlFind s c.toNat i j = some k) ↔ c ∈ t := by
  constructor
  · rintro ⟨k, hk⟩
    by_contra hc
    rw [urlFind_of_not_mem h hc] at hk
    cases hk
  · intro hc
    obtain ⟨t₁, t₂, rfl, hfirst⟩ := List.eq_append_cons_of_mem hc
    exact ⟨_, urlFind_of_mem h hfirst⟩

theorem charsThenByte_iff (bad found : Option Nat) (why why' : String) (i : Nat) :
    (match bad with
      | some b => urlIpError why b
      | none =>
          match found with
          | none => urlIpError why' i
          | some _ => .ok ()) = .ok () ↔ bad = none ∧ ∃ k, found = some k := by
  cases bad <;> cases found <;> simp [urlIpError]

theorem urlCheckIpLiteral_iff {s t : Str} {i j : Nat} (h : Spans s i t j) :
    urlCheckIpLiteral s i j = .ok () ↔ IpLiteral t := by
  cases t with
  | nil =>
      rw [urlCheckIpLiteral, if_pos (spans_nil_iff.1 h).1.ge]
      refine iff_of_false (by simp [urlIpError]) ?_
      rintro ⟨b, rest, hnil, -⟩
      cases hnil
  | cons b rest =>
      have hlt := h.lt (List.cons_ne_nil b rest)
      have hlit : IpLiteral (b :: rest) ↔
          if b.toNat = 118 ∨ b.toNat = 86 then (∀ c ∈ rest, UserinfoChar c) ∧ 46 ∈ rest
          else (∀ c ∈ b :: rest, HexDig c ∨ c.toNat = 58 ∨ c.toNat = 46) ∧ 58 ∈ b :: rest := by
        constructor
        · rintro ⟨b', rest', heq, hcond⟩
          obtain ⟨rfl, rfl⟩ := List.cons.inj heq
          exact hcond
        · exact fun hcond => ⟨b, rest, rfl, hcond⟩
      have hfirst : (stringByteAtInt s i = 118 ∨ stringByteAtInt s i = 86) ↔
          (b.toNat = 118 ∨ b.toNat = 86) := by
        rw [byteAt_spans h]
        norm_cast
      rw [hlit, urlCheckIpLiteral, if_neg (by omega)]
      by_cases hv : b.toNat = 118 ∨ b.toNat = 86
      · have hdot : 46 ∈ b :: rest ↔ 46 ∈ rest := by
          rw [List.mem_cons]
          refine or_iff_right ?_
          rintro rfl
          exact absurd hv (by decide)
        rw [if_pos (hfirst.2 hv), if_pos hv, urlCheckIpFuture, ← hdot, ← urlFind_isSome_iff h]
        refine (charsThenByte_iff _ _ _ _ _).trans (and_congr_left' ?_)
        rw [urlFirstBad_eq_none_iff (spans_cons_iff.1 h).2]
        exact forall₂_congr fun c _ => urlIsUserinfo_iff c
      · rw [if_neg (fun h' => hv (hfirst.1 h')), if_neg hv, urlCheckIpV6, ← urlFind_isSome_iff h]
        refine (charsThenByte_iff _ _ _ _ _).trans (and_congr_left' ?_)
        rw [urlFirstBad_eq_none_iff h]
        exact forall₂_congr fun c _ => urlIsIpv6_iff c

theorem ipLiteral_not_mem {c : Str} (h : IpLiteral c) {d : UInt8}
    (hd : d.toNat = 93 ∨ d.toNat = 64 ∨ d.toNat = 47 ∨ d.toNat = 35 ∨ d.toNat = 63) : d ∉ c := by
  obtain ⟨b, rest, rfl, hcond⟩ := h
  intro hmem
  split_ifs at hcond with hv
  · rcases List.mem_cons.1 hmem with rfl | hmem
    · omega
    · have huser := hcond.1 d hmem
      unfold UserinfoChar RegNameChar Unreserved SubDelim Alpha IsDigit at huser
      simp only [List.mem_cons, List.not_mem_nil, or_false] at huser
      omega
  · have hclass := hcond.1 d hmem
    unfold HexDig IsDigit at hclass
    omega

section HostPort

variable {s t t₁ t₂ c : Str} {i j : Nat} {hp : UrlHostPort}

/-- Where the colon before a port stands, if there is a port. -/
def ColonAt (s : Str) (j : Nat) (colon : Option Nat) (port : Option Str) : Prop :=
  match port with
  | none => colon = none
  | some p => ∃ k, colon = some k ∧ Spans s (k + 1) p j

theorem urlHostPort_iff {host : Str} {colon : Option Nat} (port : Option Str)
    (hport : ColonAt s j colon port) :
    urlHostPort s host colon j = .ok hp ↔
      (∀ p, port = some p → Port p) ∧ hp = ⟨host, port.bind portValue⟩ := by
  cases port with
  | none =>
      rw [show colon = none from hport, urlHostPort]
      constructor
      · intro h
        exact ⟨by simp, (Except.ok.inj h).symm⟩
      · rintro ⟨-, rfl⟩
        rfl
  | some p =>
      obtain ⟨k, rfl, hspan⟩ := hport
      rw [urlHostPort]
      cases hvalue : urlPortValue s (k + 1) j with
      | error e =>
          refine iff_of_false (by simp) ?_
          rintro ⟨hok, -⟩
          have hread := (urlPortValue_iff hspan (v := portValue p)).2 ⟨hok p rfl, rfl⟩
          rw [hvalue] at hread
          cases hread
      | ok v =>
          obtain ⟨hok, rfl⟩ := (urlPortValue_iff hspan).1 hvalue
          constructor
          · intro h
            refine ⟨?_, (Except.ok.inj h).symm⟩
            rintro _ ⟨⟩
            exact hok
          · rintro ⟨-, rfl⟩
            rfl

theorem not_bracket (h : Spans s i t j) (ht : t.head? ≠ some 91) :
    ¬ (i < j ∧ stringByteAtInt s i = 91) := by
  rintro ⟨hlt, hbyte⟩
  obtain ⟨b, rest, rfl⟩ := exists_cons_of_lt h (by omega)
  apply ht
  rw [byteAt_spans h] at hbyte
  rw [List.head?_cons, Option.some.injEq, ← UInt8.toNat_inj]
  change b.toNat = 91
  exact_mod_cast hbyte

theorem urlParseHostPort_regName {host : Str} (port : Option Str)
    (h : Spans s i (host ++ openedBy 58 port) j)
    (hhead : (host ++ openedBy 58 port).head? ≠ some 91) (hcolon : 58 ∉ host) :
    urlParseHostPort s i j = .ok hp ↔
      Encoded RegNameChar host ∧ (∀ p, port = some p → Port p) ∧
        hp = ⟨host, port.bind portValue⟩ := by
  obtain ⟨k, hhost, hrest⟩ := spans_append_iff.1 h
  have hk : k = i + host.length := hhost.stop.symm
  have hport : ColonAt s j (urlFind s 58 i j) port := by
    cases port with
    | none =>
        rw [openedBy, List.append_nil] at h
        exact urlFind_of_not_mem (c := 58) h hcolon
    | some p =>
        refine ⟨k, ?_, (spans_cons_iff.1 hrest).2⟩
        rw [hk]
        exact urlFind_of_mem (c := 58) h hcolon
  have hend : orEnd (urlFind s 58 i j) j = k := by
    cases port with
    | none =>
        rw [show urlFind s 58 i j = none from hport]
        exact (spans_nil_iff.1 hrest).1.symm
    | some p =>
        rw [show urlFind s 58 i j = some k by rw [hk]; exact urlFind_of_mem (c := 58) h hcolon]
        rfl
  rw [urlParseHostPort, if_neg (not_bracket h hhead)]
  dsimp only
  rw [hend, urlRange_spans hhost]
  by_cases henc : Encoded RegNameChar host
  · rw [(urlCheck_iff urlIsRegName_iff not_percent_regName hhost).2 henc]
    rw [← urlHostPort_iff _ hport]
    exact ⟨fun hok => ⟨henc, hok⟩, fun hok => hok.2⟩
  · obtain ⟨e, he⟩ := urlCheck_error "host" urlIsRegName_iff not_percent_regName hhost henc
    rw [he]
    exact iff_of_false (by simp) fun hok => henc hok.1

theorem bracket (h : Spans s i (91 :: t) j) : i < j ∧ stringByteAtInt s i = 91 :=
  ⟨h.lt (List.cons_ne_nil _ _), byteAt_spans h⟩

theorem urlParseHostPort_unterminated (h : Spans s i (91 :: t) j) (hclose : 93 ∉ t) :
    ∃ e, urlParseHostPort s i j = .error e := by
  have hnone : urlFind s 93 i j = none := by
    apply urlFind_of_not_mem (c := 93) h
    rw [List.mem_cons, not_or]
    exact ⟨by decide, hclose⟩
  rw [urlParseHostPort, if_pos (bracket h), urlParseIpLiteral, hnone]
  exact ⟨_, rfl⟩

theorem urlIpLiteralTail_iff {k : Nat} (hspan : Spans s i (91 :: (c ++ 93 :: t)) j)
    (hk : k = i + (91 :: c).length) :
    urlIpLiteralTail s i k j = .ok hp ↔
      ∃ port, t = openedBy 58 port ∧ (∀ p, port = some p → Port p) ∧
        hp = ⟨91 :: (c ++ [93]), port.bind portValue⟩ := by
  have hassoc : 91 :: (c ++ 93 :: t) = (91 :: (c ++ [93])) ++ t := by simp
  obtain ⟨m, hhost, hrest⟩ := spans_append_iff.1 (hassoc ▸ hspan)
  have hm : m = k + 1 := by
    have hstop := hhost.stop
    simp only [List.length_cons, List.length_append, List.length_nil] at hstop hk
    omega
  subst hm
  rw [urlIpLiteralTail]
  cases t with
  | nil =>
      have hend : k + 1 = j := (spans_nil_iff.1 hrest).1
      rw [if_pos hend, ← hend, urlRange_spans hhost, urlHostPort_iff none rfl]
      constructor
      · rintro ⟨hport, rfl⟩
        exact ⟨none, rfl, hport, rfl⟩
      · rintro ⟨port, hopened, hport, rfl⟩
        cases port with
        | none => exact ⟨hport, rfl⟩
        | some p => cases hopened
  | cons b rest =>
      have hne : k + 1 ≠ j := (hrest.lt (List.cons_ne_nil b rest)).ne
      rw [if_neg hne, urlRange_spans hhost]
      by_cases hb : b = 58
      · subst hb
        have hcolon : ColonAt s j (some (k + 1)) (some rest) := ⟨k + 1, rfl, (spans_cons_iff.1 hrest).2⟩
        have hbyte : stringByteAtInt s (k + 1) = 58 := byteAt_spans hrest
        rw [if_pos hbyte, urlHostPort_iff _ hcolon]
        constructor
        · rintro ⟨hport, rfl⟩
          exact ⟨some rest, rfl, hport, rfl⟩
        · rintro ⟨port, hopened, hport, rfl⟩
          cases port with
          | none => cases hopened
          | some p =>
              obtain ⟨-, rfl⟩ := List.cons.inj hopened
              exact ⟨hport, rfl⟩
      · have hbyte : ¬ stringByteAtInt s (k + 1) = 58 :=
          fun heq => hb ((byteAt_eq_iff (c := 58) hrest).1 heq)
        rw [if_neg hbyte]
        refine iff_of_false (by simp) ?_
        rintro ⟨port, hopened, -, -⟩
        cases port with
        | none => cases hopened
        | some p => exact hb (List.cons.inj hopened).1

theorem urlParseHostPort_literal (h : Spans s i (91 :: (c ++ 93 :: t)) j) (hclose : 93 ∉ c) :
    urlParseHostPort s i j = .ok hp ↔
      IpLiteral c ∧ ∃ port, t = openedBy 58 port ∧ (∀ p, port = some p → Port p) ∧
        hp = ⟨91 :: (c ++ [93]), port.bind portValue⟩ := by
  have hfirst : 93 ∉ 91 :: c := by
    rw [List.mem_cons, not_or]
    exact ⟨by decide, hclose⟩
  have hfind : urlFind s 93 i j = some (i + (91 :: c).length) := urlFind_of_mem (c := 93) h hfirst
  have hinner : Spans s (i + 1) c (i + (91 :: c).length) := by
    obtain ⟨m, hc, -⟩ := spans_append_iff.1 (spans_cons_iff.1 h).2
    have hm : m = i + (91 :: c).length := by
      have hstop := hc.stop
      rw [List.length_cons]
      omega
    exact hm ▸ hc
  rw [urlParseHostPort, if_pos (bracket h), urlParseIpLiteral, hfind]
  dsimp only
  by_cases hlit : IpLiteral c
  · rw [(urlCheckIpLiteral_iff hinner).2 hlit, ← urlIpLiteralTail_iff h rfl]
    exact ⟨fun hok => ⟨hlit, hok⟩, fun hok => hok.2⟩
  · cases hcheck : urlCheckIpLiteral s (i + 1) (i + (91 :: c).length) with
    | ok u => exact absurd ((urlCheckIpLiteral_iff hinner).1 hcheck) hlit
    | error e => exact iff_of_false (by simp) fun hok => hlit hok.1

theorem delimits_regName {d : UInt8}
    (hd : d.toNat = 58 ∨ d.toNat = 64 ∨ d.toNat = 47 ∨ d.toNat = 91 ∨ d.toNat = 63 ∨ d.toNat = 35) :
    Delimits RegNameChar d := by
  unfold Delimits RegNameChar Unreserved SubDelim Alpha HexDig IsDigit
  simp only [List.mem_cons, List.not_mem_nil, or_false, ne_eq, ← UInt8.toNat_inj]
  change _ ∧ ¬ d.toNat = 37 ∧ _
  omega

theorem regName_head {host : Str} {port : Option Str} (h : Encoded RegNameChar host) :
    (host ++ openedBy 58 port).head? ≠ some 91 := by
  cases host with
  | nil => cases port <;> simp [openedBy]
  | cons b host =>
      rw [List.cons_append, List.head?_cons]
      intro hb
      have hmem : 91 ∈ b :: host := Option.some.inj hb ▸ List.mem_cons_self
      exact h.not_mem (delimits_regName (by decide)) hmem

theorem urlParseHostPort_iff (h : Spans s i t j) :
    urlParseHostPort s i j = .ok hp ↔
      ∃ host port, t = host ++ openedBy 58 port ∧ Host host ∧ (∀ p, port = some p → Port p) ∧
        hp = ⟨host, port.bind portValue⟩ := by
  constructor
  · intro hok
    by_cases hhead : t.head? = some 91
    · obtain ⟨t', rfl⟩ : ∃ t', t = 91 :: t' := by
        cases t with
        | nil => exact absurd hhead (by simp)
        | cons b t' => exact ⟨t', by rw [Option.some.inj hhead]⟩
      by_cases hclose : 93 ∈ t'
      · obtain ⟨c, t₂, rfl, hfirst⟩ := List.eq_append_cons_of_mem hclose
        obtain ⟨hlit, port, rfl, hport, rfl⟩ := (urlParseHostPort_literal h hfirst).1 hok
        exact ⟨91 :: (c ++ [93]), port, by simp, Or.inl ⟨c, rfl, hlit⟩, hport, rfl⟩
      · obtain ⟨e, he⟩ := urlParseHostPort_unterminated h hclose
        rw [he] at hok
        cases hok
    · by_cases hcolon : 58 ∈ t
      · obtain ⟨host, p, rfl, hfirst⟩ := List.eq_append_cons_of_mem hcolon
        obtain ⟨henc, hport, rfl⟩ :=
          (urlParseHostPort_regName (some p) h hhead hfirst).1 hok
        exact ⟨host, some p, rfl, Or.inr henc, hport, rfl⟩
      · have hself : t = t ++ openedBy 58 none := (List.append_nil t).symm
        rw [hself] at h hhead
        obtain ⟨henc, hport, rfl⟩ := (urlParseHostPort_regName _ h hhead hcolon).1 hok
        exact ⟨t, none, hself, Or.inr henc, hport, rfl⟩
  · rintro ⟨host, port, rfl, ⟨c, rfl, hlit⟩ | henc, hport, rfl⟩
    · have hassoc : 91 :: (c ++ [93]) ++ openedBy 58 port = 91 :: (c ++ 93 :: openedBy 58 port) := by
        simp
      rw [hassoc] at h
      exact (urlParseHostPort_literal h (ipLiteral_not_mem hlit (Or.inl rfl))).2
        ⟨hlit, port, rfl, hport, rfl⟩
    · exact (urlParseHostPort_regName _ h (regName_head henc)
        (henc.not_mem (delimits_regName (by decide)))).2 ⟨henc, hport, rfl⟩

end HostPort

/-- The delimiters that no part of an authority holds. -/
def OutsideAuthority (d : UInt8) : Prop :=
  d.toNat = 64 ∨ d.toNat = 47 ∨ d.toNat = 35 ∨ d.toNat = 63

theorem delimits_userinfo {d : UInt8} (hd : OutsideAuthority d) : Delimits UserinfoChar d := by
  unfold OutsideAuthority at hd
  have hname : Delimits RegNameChar d := delimits_regName (by omega)
  refine ⟨?_, hname.2⟩
  rintro (hreg | hcolon)
  · exact hname.1 hreg
  · omega

theorem host_not_mem {host : Str} (h : Host host) {d : UInt8} (hd : OutsideAuthority d) :
    d ∉ host := by
  unfold OutsideAuthority at hd
  rcases h with ⟨c, rfl, hlit⟩ | henc
  · have hc := ipLiteral_not_mem hlit (d := d) (by omega)
    simp only [List.mem_cons, List.mem_append, List.not_mem_nil, or_false, not_or,
      ← UInt8.toNat_inj]
    change ¬ d.toNat = 91 ∧ _ ∧ ¬ d.toNat = 93
    exact ⟨by omega, hc, by omega⟩
  · exact henc.not_mem (delimits_regName (by omega))

theorem openedPort_not_mem {port : Option Str} (h : ∀ p, port = some p → Port p) {d : UInt8}
    (hd : OutsideAuthority d) : d ∉ openedBy 58 port := by
  unfold OutsideAuthority at hd
  cases port with
  | none => exact List.not_mem_nil
  | some p =>
      have hp := h p rfl
      simp only [openedBy, List.mem_cons, not_or, ← UInt8.toNat_inj]
      change ¬ d.toNat = 58 ∧ _
      refine ⟨by omega, fun hmem => ?_⟩
      have hdigit := hp.1 d hmem
      unfold IsDigit at hdigit
      omega

theorem Authority.WellFormed.not_mem {a : Authority} (h : a.WellFormed) {d : UInt8}
    (hd : OutsideAuthority d) (hat : d ≠ 64) : d ∉ a.text := by
  rw [Authority.text, List.mem_append, List.mem_append, not_or, not_or]
  refine ⟨?_, host_not_mem h.host hd, openedPort_not_mem h.port hd⟩
  cases hu : a.userinfo with
  | none => exact List.not_mem_nil
  | some u =>
      rw [closedBy, List.mem_append, List.mem_singleton, not_or]
      exact ⟨(h.userinfo u hu).not_mem (delimits_userinfo hd), hat⟩

theorem outside_slash : OutsideAuthority 47 := Or.inr (Or.inl rfl)

theorem outside_at : OutsideAuthority 64 := Or.inl rfl

/-- The values that the parser keeps of an authority. -/
def Authority.values (a : Authority) : UrlAuthority :=
  ⟨a.userinfo, a.host, a.port.bind portValue⟩

section Authority

variable {s t : Str} {i j : Nat} {v : UrlAuthority}

theorem urlAuthorityRest_iff {userinfo : Option Str} (h : Spans s i t j) :
    urlAuthorityRest s userinfo i j = .ok v ↔
      ∃ host port, t = host ++ openedBy 58 port ∧ Host host ∧ (∀ p, port = some p → Port p) ∧
        v = ⟨userinfo, host, port.bind portValue⟩ := by
  rw [urlAuthorityRest]
  cases hparse : urlParseHostPort s i j with
  | error e =>
      refine iff_of_false (by simp) ?_
      rintro ⟨host, port, htext, hhost, hport, -⟩
      have hok : urlParseHostPort s i j = .ok ⟨host, port.bind portValue⟩ := (urlParseHostPort_iff h).2
        ⟨host, port, htext, hhost, hport, rfl⟩
      rw [hparse] at hok
      cases hok
  | ok hp =>
      constructor
      · intro hok
        obtain ⟨host, port, htext, hhost, hport, rfl⟩ := (urlParseHostPort_iff h).1 hparse
        exact ⟨host, port, htext, hhost, hport, (Except.ok.inj hok).symm⟩
      · rintro ⟨host, port, htext, hhost, hport, rfl⟩
        have hok : urlParseHostPort s i j = .ok ⟨host, port.bind portValue⟩ := (urlParseHostPort_iff h).2
          ⟨host, port, htext, hhost, hport, rfl⟩
        rw [hparse] at hok
        rw [Except.ok.inj hok]

theorem urlParseAuthority_at {u rest : Str} (h : Spans s i (u ++ 64 :: rest) j) (hat : 64 ∉ u) :
    urlParseAuthority s i j = .ok v ↔
      Encoded UserinfoChar u ∧ ∃ host port, rest = host ++ openedBy 58 port ∧ Host host ∧
        (∀ p, port = some p → Port p) ∧ v = ⟨some u, host, port.bind portValue⟩ := by
  obtain ⟨k, hu, htail⟩ := spans_append_iff.1 h
  have hk : i + u.length = k := hu.stop
  have hfind : urlFind s 64 i j = some k := hk ▸ urlFind_of_mem (c := 64) h hat
  rw [urlParseAuthority, hfind]
  dsimp only
  rw [urlRange_spans hu, ← urlAuthorityRest_iff (spans_cons_iff.1 htail).2]
  by_cases henc : Encoded UserinfoChar u
  · rw [(urlCheck_iff urlIsUserinfo_iff not_percent_userinfo hu).2 henc]
    exact ⟨fun hok => ⟨henc, hok⟩, fun hok => hok.2⟩
  · obtain ⟨e, he⟩ :=
      urlCheck_error "userinfo" urlIsUserinfo_iff not_percent_userinfo hu henc
    rw [he]
    exact iff_of_false (by simp) fun hok => henc hok.1

theorem urlParseAuthority_bare (h : Spans s i t j) (hat : 64 ∉ t) :
    urlParseAuthority s i j = .ok v ↔
      ∃ host port, t = host ++ openedBy 58 port ∧ Host host ∧ (∀ p, port = some p → Port p) ∧
        v = ⟨none, host, port.bind portValue⟩ := by
  have hfind : urlFind s 64 i j = none := urlFind_of_not_mem (c := 64) h hat
  rw [urlParseAuthority, hfind]
  exact urlAuthorityRest_iff h

theorem urlParseAuthority_iff (h : Spans s i t j) :
    urlParseAuthority s i j = .ok v ↔ ∃ a : Authority, a.WellFormed ∧ t = a.text ∧ v = a.values := by
  constructor
  · intro hok
    by_cases hat : 64 ∈ t
    · obtain ⟨u, rest, rfl, hfirst⟩ := List.eq_append_cons_of_mem hat
      obtain ⟨henc, host, port, rfl, hhost, hport, rfl⟩ := (urlParseAuthority_at h hfirst).1 hok
      refine ⟨⟨some u, host, port⟩, ⟨?_, hhost, hport⟩, by simp [Authority.text, closedBy], rfl⟩
      rintro _ ⟨⟩
      exact henc
    · obtain ⟨host, port, rfl, hhost, hport, rfl⟩ := (urlParseAuthority_bare h hat).1 hok
      exact ⟨⟨none, host, port⟩, ⟨by simp, hhost, hport⟩, rfl, rfl⟩
  · rintro ⟨⟨userinfo, host, port⟩, ⟨huser, hhost, hport⟩, rfl, rfl⟩
    cases userinfo with
    | none =>
        have hno : 64 ∉ host ++ openedBy 58 port := by
          rw [List.mem_append, not_or]
          exact ⟨host_not_mem hhost outside_at, openedPort_not_mem hport outside_at⟩
        exact (urlParseAuthority_bare h hno).2 ⟨host, port, rfl, hhost, hport, rfl⟩
    | some u =>
        have henc := huser u rfl
        have htext : Authority.text ⟨some u, host, port⟩ = u ++ 64 :: (host ++ openedBy 58 port) := by
          simp [Authority.text, closedBy]
        rw [htext] at h
        exact (urlParseAuthority_at h (henc.not_mem (delimits_userinfo outside_at))).2
          ⟨henc, host, port, rfl, hhost, hport, rfl⟩

end Authority

/-- The components that an authority and a path fill in. -/
def Url.withHier (u : Url) (authority : Option Authority) (path : Str) : Url :=
  match authority with
  | none => { u with path := path }
  | some a =>
      { u with userinfo := a.userinfo, host := some a.host, port := a.port.bind portValue,
               path := path }

section Hier

variable {s t path : Str} {i j : Nat} {u v : Url}

theorem urlWithPath_iff (h : Spans s i t j) :
    urlWithPath s u i j = .ok v ↔ Encoded PathChar t ∧ v = { u with path := t } := by
  rw [urlWithPath]
  by_cases henc : Encoded PathChar t
  · rw [(urlCheck_iff urlIsPath_iff not_percent_path h).2 henc, urlRange_spans h]
    constructor
    · exact fun hok => ⟨henc, (Except.ok.inj hok).symm⟩
    · rintro ⟨-, rfl⟩
      rfl
  · obtain ⟨e, he⟩ := urlCheck_error "path" urlIsPath_iff not_percent_path h henc
    rw [he]
    exact iff_of_false (by simp) fun hok => henc hok.1

theorem urlHasAuthority_iff (h : Spans s i t j) :
    urlHasAuthority s i j = true ↔ [47, 47] <+: t := by
  have hstop := h.stop
  rw [urlHasAuthority, Bool.and_eq_true, Bool.and_eq_true, decide_eq_true_eq, beq_iff_eq, beq_iff_eq]
  constructor
  · rintro ⟨⟨hlt, hfirst⟩, hsecond⟩
    obtain ⟨b, rest, rfl⟩ := exists_cons_of_lt h (by omega)
    have hrest := (spans_cons_iff.1 h).2
    obtain ⟨b', rest', rfl⟩ := exists_cons_of_lt hrest (by omega)
    obtain rfl := (byteAt_eq_iff (c := 47) h).1 hfirst
    obtain rfl := (byteAt_eq_iff (c := 47) hrest).1 hsecond
    exact ⟨rest', rfl⟩
  · rintro ⟨rest, rfl⟩
    have hrest := (spans_cons_iff.1 h).2
    rw [List.length_append] at hstop
    have hlt := hrest.lt (List.cons_ne_nil 47 rest)
    exact ⟨⟨hlt, byteAt_spans h⟩, byteAt_spans hrest⟩

theorem urlParseHier_path (h : Spans s i t j) (hslashes : ¬ [47, 47] <+: t) :
    urlParseHier s u i j = .ok v ↔ Encoded PathChar t ∧ v = { u with path := t } := by
  have hno : ¬ urlHasAuthority s i j = true := fun hyes => hslashes ((urlHasAuthority_iff h).1 hyes)
  rw [urlParseHier, if_neg hno]
  exact urlWithPath_iff h

theorem urlParseHier_authority (h : Spans s i (47 :: 47 :: (t ++ path)) j) (ht : 47 ∉ t)
    (hpath : path = [] ∨ path.head? = some 47) :
    urlParseHier s u i j = .ok v ↔
      (∃ a : Authority, a.WellFormed ∧ t = a.text ∧ v = u.withHier (some a) path) ∧
        Encoded PathChar path := by
  have hyes : urlHasAuthority s i j = true := (urlHasAuthority_iff h).2 ⟨t ++ path, rfl⟩
  have hinner := (spans_cons_iff.1 (spans_cons_iff.1 h).2).2
  obtain ⟨k, hauth, hrest⟩ := spans_append_iff.1 hinner
  have hend : orEnd (urlFind s 47 (i + 2) j) j = k := by
    rcases hpath with rfl | hhead
    · rw [List.append_nil] at hinner
      rw [show urlFind s 47 (i + 2) j = none from urlFind_of_not_mem (c := 47) hinner ht]
      exact (spans_nil_iff.1 hrest).1.symm
    · obtain ⟨rest, rfl⟩ : ∃ rest, path = 47 :: rest := by
        cases path with
        | nil => exact absurd hhead (by simp)
        | cons b rest => exact ⟨rest, by rw [Option.some.inj hhead]⟩
      rw [show urlFind s 47 (i + 2) j = some (i + 2 + t.length) from
        urlFind_of_mem (c := 47) hinner ht]
      exact hauth.stop
  rw [urlParseHier, if_pos hyes]
  dsimp only
  rw [hend]
  cases hparse : urlParseAuthority s (i + 2) k with
  | error e =>
      refine iff_of_false (by simp) ?_
      rintro ⟨⟨a, ha, htext, -⟩, -⟩
      have hok := (urlParseAuthority_iff hauth).2 ⟨a, ha, htext, rfl⟩
      rw [hparse] at hok
      cases hok
  | ok w =>
      dsimp only
      rw [urlWithPath_iff hrest]
      constructor
      · rintro ⟨henc, rfl⟩
        obtain ⟨a, ha, htext, rfl⟩ := (urlParseAuthority_iff hauth).1 hparse
        exact ⟨⟨a, ha, htext, rfl⟩, henc⟩
      · rintro ⟨⟨a, ha, htext, rfl⟩, henc⟩
        have hok := (urlParseAuthority_iff hauth).2 ⟨a, ha, htext, rfl⟩
        rw [hparse] at hok
        rw [Except.ok.inj hok]
        exact ⟨henc, rfl⟩

theorem urlParseHier_iff (h : Spans s i t j) :
    urlParseHier s u i j = .ok v ↔
      ∃ authority path, t = authorityText authority ++ path ∧ HierPart authority path ∧
        v = u.withHier authority path := by
  constructor
  · intro hok
    by_cases hslashes : [47, 47] <+: t
    · obtain ⟨t', rfl⟩ := hslashes
      obtain ⟨auth, path, rfl, hauth, hpath⟩ := exists_first_segment t'
      obtain ⟨⟨a, ha, rfl, rfl⟩, henc⟩ :=
        (urlParseHier_authority (t := auth) h hauth hpath).1 hok
      exact ⟨some a, path, rfl, hierPart_some_iff.2 ⟨ha, henc, hpath⟩, rfl⟩
    · obtain ⟨henc, rfl⟩ := (urlParseHier_path h hslashes).1 hok
      exact ⟨none, t, rfl, hierPart_none_iff.2 ⟨henc, hslashes⟩, rfl⟩
  · rintro ⟨authority, path, rfl, hhier, rfl⟩
    cases authority with
    | none =>
        obtain ⟨henc, hslashes⟩ := hierPart_none_iff.1 hhier
        exact (urlParseHier_path h hslashes).2 ⟨henc, rfl⟩
    | some a =>
        obtain ⟨ha, henc, hpath⟩ := hierPart_some_iff.1 hhier
        exact (urlParseHier_authority h (ha.not_mem outside_slash (by decide)) hpath).2 ⟨⟨a, ha, rfl, rfl⟩, henc⟩

end Hier

/-- The schemes that the parser takes: behind the letter escapes pass too. -/
def LaxScheme (s : Str) : Prop := ∃ b rest, s = b :: rest ∧ Alpha b ∧ Encoded SchemeChar rest

theorem Scheme.lax {s : Str} (h : Scheme s) : LaxScheme s := by
  obtain ⟨b, rest, rfl, hb, hrest⟩ := h
  exact ⟨b, rest, rfl, hb, Encoded.of_forall hrest⟩

theorem delimits_scheme {d : UInt8}
    (hd : d.toNat = 58 ∨ d.toNat = 47 ∨ d.toNat = 35 ∨ d.toNat = 63) : Delimits SchemeChar d := by
  unfold Delimits SchemeChar Alpha HexDig IsDigit
  rw [ne_eq, ← UInt8.toNat_inj]
  change _ ∧ ¬ d.toNat = 37 ∧ _
  omega

theorem LaxScheme.not_mem {s : Str} (h : LaxScheme s) {d : UInt8}
    (hd : d.toNat = 58 ∨ d.toNat = 47 ∨ d.toNat = 35 ∨ d.toNat = 63) : d ∉ s := by
  obtain ⟨b, rest, rfl, hb, hrest⟩ := h
  rw [List.mem_cons, not_or]
  refine ⟨?_, hrest.not_mem (delimits_scheme hd)⟩
  rintro rfl
  unfold Alpha at hb
  omega

def Url.withScheme (u : Url) (scheme : Option Str) : Url :=
  match scheme with
  | none => u
  | some x => { u with scheme := some x }

section Front

variable {s t : Str} {j k : Nat} {u v : Url}

theorem urlCheckScheme_iff (h : Spans s 0 t k) : urlCheckScheme s k = .ok () ↔ LaxScheme t := by
  cases t with
  | nil =>
      have hzero : k = 0 := (spans_nil_iff.1 h).1.symm
      rw [urlCheckScheme, if_pos hzero]
      refine iff_of_false (by simp) ?_
      rintro ⟨b, rest, hnil, -⟩
      cases hnil
  | cons b rest =>
      have hpos := h.lt (List.cons_ne_nil b rest)
      have hlax : LaxScheme (b :: rest) ↔ Alpha b ∧ Encoded SchemeChar rest := by
        constructor
        · rintro ⟨b', rest', heq, hb, hrest⟩
          obtain ⟨rfl, rfl⟩ := List.cons.inj heq
          exact ⟨hb, hrest⟩
        · exact fun hboth => ⟨b, rest, rfl, hboth⟩
      rw [hlax, urlCheckScheme, if_neg (by omega), byteAt_spans h]
      by_cases hb : Alpha b
      · rw [(urlIsAlpha_iff b).2 hb]
        simp only [Bool.not_true, Bool.false_eq_true, if_false]
        rw [urlCheck_iff urlIsSchemeChar_iff not_percent_scheme (spans_cons_iff.1 h).2]
        exact ⟨fun hrest => ⟨hb, hrest⟩, fun hboth => hboth.2⟩
      · have hno : urlIsAlpha b.toNat = false := by
          rw [← Bool.not_eq_true, urlIsAlpha_iff]
          exact hb
        rw [hno]
        exact iff_of_false (by simp) fun hboth => hb hboth.1

theorem firstSlash_eq {seg rest : Str} (h : Spans s 0 (seg ++ rest) j) (hseg : 47 ∉ seg)
    (hrest : rest = [] ∨ rest.head? = some 47) :
    orEnd (urlFind s 47 0 j) j = seg.length := by
  rcases hrest with rfl | hhead
  · have hstop := h.stop
    rw [List.append_nil, Nat.zero_add] at hstop
    rw [List.append_nil] at h
    rw [show urlFind s 47 0 j = none from urlFind_of_not_mem (c := 47) h hseg]
    exact hstop.symm
  · obtain ⟨rest', rfl⟩ : ∃ rest', rest = 47 :: rest' := by
      cases rest with
      | nil => exact absurd hhead (by simp)
      | cons b rest' => exact ⟨rest', by rw [Option.some.inj hhead]⟩
    rw [show urlFind s 47 0 j = some (0 + seg.length) from urlFind_of_mem (c := 47) h hseg]
    exact Nat.zero_add _

theorem urlParseFront_relative {seg rest : Str} (h : Spans s 0 (seg ++ rest) j) (hseg : 47 ∉ seg)
    (hrest : rest = [] ∨ rest.head? = some 47) (hcolon : 58 ∉ seg) :
    urlParseFront s u j = urlParseHier s u 0 j := by
  obtain ⟨m, hspan, -⟩ := spans_append_iff.1 h
  have hm : m = seg.length := by rw [← hspan.stop, Nat.zero_add]
  rw [urlParseFront, firstSlash_eq h hseg hrest, show urlFind s 58 0 seg.length = none from
    urlFind_of_not_mem (c := 58) (hm ▸ hspan) hcolon]

theorem urlParseFront_scheme {x y rest : Str} (h : Spans s 0 ((x ++ 58 :: y) ++ rest) j)
    (hseg : 47 ∉ x ++ 58 :: y) (hrest : rest = [] ∨ rest.head? = some 47) (hx : 58 ∉ x) :
    urlParseFront s u j = .ok v ↔
      LaxScheme x ∧ urlParseHier s { u with scheme := some x } (x.length + 1) j = .ok v := by
  obtain ⟨m, hspan, -⟩ := spans_append_iff.1 h
  have hm : m = (x ++ 58 :: y).length := by rw [← hspan.stop, Nat.zero_add]
  have hfind : urlFind s 58 0 (x ++ 58 :: y).length = some x.length := by
    rw [← Nat.zero_add x.length]
    exact urlFind_of_mem (c := 58) (hm ▸ hspan) hx
  obtain ⟨k, hscheme, -⟩ := spans_append_iff.1 hspan
  have hk : k = x.length := by rw [← hscheme.stop, Nat.zero_add]
  subst hk
  rw [urlParseFront, firstSlash_eq h hseg hrest, hfind]
  dsimp only
  rw [urlRange_spans hscheme]
  cases hcheck : urlCheckScheme s x.length with
  | error e =>
      refine iff_of_false (by simp) ?_
      rintro ⟨hlax, -⟩
      rw [(urlCheckScheme_iff hscheme).2 hlax] at hcheck
      cases hcheck
  | ok w =>
      have hlax := (urlCheckScheme_iff hscheme).1 hcheck
      exact ⟨fun hok => ⟨hlax, hok⟩, fun hok => hok.2⟩

theorem urlParseFront_iff (h : Spans s 0 t j) :
    urlParseFront s u j = .ok v ↔
      ∃ scheme authority path, t = closedBy scheme 58 ++ (authorityText authority ++ path) ∧
        FrontPart LaxScheme scheme authority path ∧
        v = (u.withScheme scheme).withHier authority path := by
  constructor
  · intro hok
    obtain ⟨seg, rest, rfl, hseg, hrest⟩ := exists_first_segment t
    by_cases hcolon : 58 ∈ seg
    · obtain ⟨x, y, rfl, hx⟩ := List.eq_append_cons_of_mem hcolon
      obtain ⟨hlax, hhier⟩ := (urlParseFront_scheme h hseg hrest hx).1 hok
      have hassoc : (x ++ 58 :: y) ++ rest = x ++ 58 :: (y ++ rest) := by simp
      obtain ⟨k, hscheme, htail⟩ := spans_append_iff.1 (hassoc ▸ h)
      have hk : k = x.length := by rw [← hscheme.stop, Nat.zero_add]
      subst hk
      obtain ⟨authority, path, htext, hpart, rfl⟩ :=
        (urlParseHier_iff (spans_cons_iff.1 htail).2).1 hhier
      refine ⟨some x, authority, path, ?_, ⟨hlax, hpart⟩, rfl⟩
      rw [hassoc, htext, closedBy, List.append_assoc]
      rfl
    · rw [urlParseFront_relative h hseg hrest hcolon] at hok
      obtain ⟨authority, path, htext, hpart, rfl⟩ := (urlParseHier_iff h).1 hok
      refine ⟨none, authority, path, htext, ?_, rfl⟩
      cases authority with
      | some a => exact relativePart_some_iff.2 hpart
      | none =>
          refine relativePart_none_iff.2 ⟨hpart, ?_⟩
          rw [show path = seg ++ rest from htext.symm]
          exact (colonFree_iff hseg hrest).2 hcolon
  · rintro ⟨scheme, authority, path, rfl, hfront, rfl⟩
    cases scheme with
    | none =>
        rw [closedBy, List.nil_append] at h
        obtain ⟨seg, rest, htext, hseg, hrest⟩ := exists_first_segment (authorityText authority ++ path)
        have hpart : HierPart authority path ∧ ColonFree (authorityText authority ++ path) := by
          cases authority with
          | none => exact relativePart_none_iff.1 hfront
          | some a => exact ⟨relativePart_some_iff.1 hfront, colonFree_of_slash rfl⟩
        rw [htext] at hpart
        have hcolon := (colonFree_iff hseg hrest).1 hpart.2
        rw [urlParseFront_relative (htext ▸ h) hseg hrest hcolon]
        exact (urlParseHier_iff h).2 ⟨authority, path, rfl, hpart.1, rfl⟩
    | some x =>
        obtain ⟨hlax, hpart⟩ := hfront
        obtain ⟨y, rest, htext, hy, hrest⟩ := exists_first_segment (authorityText authority ++ path)
        have hassoc : closedBy (some x) 58 ++ (authorityText authority ++ path) =
            (x ++ 58 :: y) ++ rest := by
          rw [htext, closedBy]
          simp
        have hseg : 47 ∉ x ++ 58 :: y := by
          rw [List.mem_append, List.mem_cons, not_or, not_or]
          exact ⟨hlax.not_mem (Or.inr (Or.inl rfl)), by decide, hy⟩
        have hfull : Spans s 0 (x ++ 58 :: (authorityText authority ++ path)) j := by
          rw [closedBy, List.append_assoc] at h
          exact h
        obtain ⟨k, hscheme, htail⟩ := spans_append_iff.1 hfull
        have hk : k = x.length := by rw [← hscheme.stop, Nat.zero_add]
        subst hk
        refine (urlParseFront_scheme (hassoc ▸ h) hseg hrest (hlax.not_mem (Or.inl rfl))).2
          ⟨hlax, ?_⟩
        exact (urlParseHier_iff (spans_cons_iff.1 htail).2).2 ⟨authority, path, rfl, hpart, rfl⟩

end Front

/-- The components as the parser returns them. -/
def Parts.url (p : Parts) : Url :=
  ((⟨none, none, none, none, [], p.query, p.fragment⟩ : Url).withScheme p.scheme).withHier
    p.authority p.path

theorem exists_openedBy (s : Str) (d : UInt8) :
    ∃ front o, s = front ++ openedBy d o ∧ d ∉ front := by
  by_cases hd : d ∈ s
  · obtain ⟨front, rest, rfl, hfront⟩ := List.eq_append_cons_of_mem hd
    exact ⟨front, some rest, rfl, hfront⟩
  · exact ⟨s, none, (List.append_nil s).symm, hd⟩

section Component

variable {s front : Str} {o : Option Str} {d : UInt8} {j : Nat}

theorem openedBy_stop (h : Spans s 0 (front ++ openedBy d o) j) (hd : d ∉ front) :
    orEnd (urlFind s d.toNat 0 j) j = front.length ∧ Spans s 0 front front.length := by
  obtain ⟨k, hfront, hrest⟩ := spans_append_iff.1 h
  have hk : k = front.length := by rw [← hfront.stop, Nat.zero_add]
  subst hk
  refine ⟨?_, hfront⟩
  cases o with
  | none =>
      rw [openedBy, List.append_nil] at h
      rw [urlFind_of_not_mem h hd]
      exact (spans_nil_iff.1 hrest).1.symm
  | some x =>
      rw [urlFind_of_mem h hd]
      exact Nat.zero_add _

theorem urlComponent_iff (what : String) {w : Option Str}
    (h : Spans s 0 (front ++ openedBy d o) j) (hd : d ∉ front) :
    urlComponent s (urlFind s d.toNat 0 j) j what = .ok w ↔
      (∀ x, o = some x → Encoded QueryChar x) ∧ w = o := by
  cases o with
  | none =>
      rw [openedBy, List.append_nil] at h
      rw [urlFind_of_not_mem h hd, urlComponent]
      constructor
      · exact fun hok => ⟨by simp, (Except.ok.inj hok).symm⟩
      · rintro ⟨-, rfl⟩
        rfl
  | some x =>
      obtain ⟨k, hfront, hrest⟩ := spans_append_iff.1 h
      have hk : k = 0 + front.length := hfront.stop.symm
      subst hk
      have hx := (spans_cons_iff.1 hrest).2
      rw [urlFind_of_mem h hd, urlComponent]
      by_cases henc : Encoded QueryChar x
      · rw [(urlCheck_iff urlIsQuery_iff not_percent_query hx).2 henc, urlRange_spans hx]
        constructor
        · intro hok
          refine ⟨?_, (Except.ok.inj hok).symm⟩
          rintro _ ⟨⟩
          exact henc
        · rintro ⟨-, rfl⟩
          rfl
      · obtain ⟨e, he⟩ := urlCheck_error what urlIsQuery_iff not_percent_query hx henc
        rw [he]
        exact iff_of_false (by simp) fun hok => henc (hok.1 x rfl)

end Component

theorem delimits_query {d : UInt8} (hd : d.toNat = 35) : Delimits QueryChar d := by
  unfold Delimits QueryChar PathChar PChar UserinfoChar RegNameChar Unreserved SubDelim Alpha HexDig
    IsDigit
  simp only [List.mem_cons, List.not_mem_nil, or_false, ne_eq, ← UInt8.toNat_inj]
  change _ ∧ ¬ d.toNat = 37 ∧ _
  omega

theorem delimits_path {d : UInt8} (hd : d.toNat = 35 ∨ d.toNat = 63) : Delimits PathChar d := by
  unfold Delimits PathChar PChar UserinfoChar RegNameChar Unreserved SubDelim Alpha HexDig IsDigit
  simp only [List.mem_cons, List.not_mem_nil, or_false, ne_eq, ← UInt8.toNat_inj]
  change _ ∧ ¬ d.toNat = 37 ∧ _
  omega

theorem front_not_mem {scheme : Option Str} {authority : Option Authority} {path : Str}
    (h : FrontPart LaxScheme scheme authority path) {d : UInt8} (hd : d.toNat = 35 ∨ d.toNat = 63) :
    d ∉ closedBy scheme 58 ++ (authorityText authority ++ path) := by
  have hhier : HierPart authority path ∧ ∀ x, scheme = some x → LaxScheme x := by
    cases scheme with
    | none =>
        cases authority with
        | none => exact ⟨(relativePart_none_iff.1 h).1, by simp⟩
        | some a => exact ⟨relativePart_some_iff.1 h, by simp⟩
    | some x =>
        refine ⟨h.2, ?_⟩
        rintro _ ⟨⟩
        exact h.1
  obtain ⟨hhier, hscheme⟩ := hhier
  have hpath : Encoded PathChar path ∧ d ∉ authorityText authority := by
    cases authority with
    | none => exact ⟨(hierPart_none_iff.1 hhier).1, List.not_mem_nil⟩
    | some a =>
        obtain ⟨ha, henc, -⟩ := hierPart_some_iff.1 hhier
        have hat : d ≠ 64 := by
          rintro rfl
          exact absurd hd (by decide)
        have hslash : d ≠ 47 := by
          rintro rfl
          exact absurd hd (by decide)
        refine ⟨henc, ?_⟩
        rw [authorityText, List.mem_cons, List.mem_cons, not_or, not_or]
        exact ⟨hslash, hslash, ha.not_mem (Or.inr (Or.inr hd)) hat⟩
  rw [List.mem_append, List.mem_append, not_or, not_or]
  refine ⟨?_, hpath.2, hpath.1.not_mem (delimits_path hd)⟩
  cases scheme with
  | none => exact List.not_mem_nil
  | some x =>
      have hcolon : d ≠ 58 := by
        rintro rfl
        exact absurd hd (by decide)
      rw [closedBy, List.mem_append, List.mem_singleton, not_or]
      exact ⟨(hscheme x rfl).not_mem (Or.inr (Or.inr hd)), hcolon⟩

theorem urlParseTail_iff {s front : Str} {query fragment : Option Str} {j : Nat} {u : Url}
    (h : Spans s 0 (front ++ openedBy 63 query) j) (hq : 63 ∉ front) :
    urlParseTail s (urlFind s 63 0 j) j fragment = .ok u ↔
      (∀ q, query = some q → Encoded QueryChar q) ∧
        ∃ scheme authority path, front = closedBy scheme 58 ++ (authorityText authority ++ path) ∧
          FrontPart LaxScheme scheme authority path ∧
          u = Parts.url ⟨scheme, authority, path, query, fragment⟩ := by
  obtain ⟨hstop, hfront⟩ := openedBy_stop (d := 63) h hq
  have hcomp := fun w => urlComponent_iff "query" (w := w) (d := 63) h hq
  unfold urlParseTail
  rw [show urlFind s 63 0 j = urlFind s (63 : UInt8).toNat 0 j from rfl, hstop]
  cases hquery : urlComponent s (urlFind s (63 : UInt8).toNat 0 j) j "query" with
  | error e =>
      refine iff_of_false (by simp) ?_
      rintro ⟨henc, -⟩
      have hok := (hcomp query).2 ⟨henc, rfl⟩
      rw [hquery] at hok
      cases hok
  | ok w =>
      obtain ⟨henc, rfl⟩ := (hcomp w).1 hquery
      dsimp only
      rw [urlParseFront_iff hfront]
      exact ⟨fun hok => ⟨henc, hok⟩, fun hok => hok.2⟩

theorem parse_eq_ok_iff {s front : Str} {query fragment : Option Str} {u : Url}
    (htext : s = (front ++ openedBy 63 query) ++ openedBy 35 fragment) (hq : 63 ∉ front)
    (hhash : 35 ∉ front ++ openedBy 63 query) :
    parse s = .ok u ↔
      (∀ f, fragment = some f → Encoded QueryChar f) ∧
        (∀ q, query = some q → Encoded QueryChar q) ∧
        ∃ scheme authority path, front = closedBy scheme 58 ++ (authorityText authority ++ path) ∧
          FrontPart LaxScheme scheme authority path ∧
          u = Parts.url ⟨scheme, authority, path, query, fragment⟩ := by
  have h : Spans s 0 ((front ++ openedBy 63 query) ++ openedBy 35 fragment) s.length :=
    spans_whole_iff.2 htext.symm
  obtain ⟨hstop, htail⟩ := openedBy_stop (d := 35) h hhash
  have hcomp := fun w => urlComponent_iff "fragment" (w := w) (d := 35) h hhash
  unfold parse
  dsimp only
  rw [show urlFind s 35 0 s.length = urlFind s (35 : UInt8).toNat 0 s.length from rfl, hstop,
    ← urlParseTail_iff htail hq]
  cases hfragment : urlComponent s (urlFind s (35 : UInt8).toNat 0 s.length) s.length
      "fragment" with
  | error e =>
      refine iff_of_false (by simp) ?_
      rintro ⟨henc, -⟩
      have hok := (hcomp fragment).2 ⟨henc, rfl⟩
      rw [hfragment] at hok
      cases hok
  | ok w =>
      obtain ⟨henc, rfl⟩ := (hcomp w).1 hfragment
      exact ⟨fun hok => ⟨henc, hok⟩, fun hok => hok.2⟩

theorem Parts.text_eq (p : Parts) :
    p.text = (closedBy p.scheme 58 ++ (authorityText p.authority ++ p.path) ++
      openedBy 63 p.query) ++ openedBy 35 p.fragment := by
  simp only [Parts.text, List.append_assoc]

theorem parse_iff {s : Str} {u : Url} :
    parse s = .ok u ↔ ∃ p, UriReference LaxScheme p ∧ p.text = s ∧ p.url = u := by
  constructor
  · intro hok
    obtain ⟨r, fragment, hs, hhash⟩ := exists_openedBy s 35
    obtain ⟨front, query, rfl, hq⟩ := exists_openedBy r 63
    obtain ⟨hf, hqueryenc, scheme, authority, path, rfl, hfront, rfl⟩ :=
      (parse_eq_ok_iff hs hq hhash).1 hok
    refine ⟨⟨scheme, authority, path, query, fragment⟩, ⟨hfront, hqueryenc, hf⟩, ?_, rfl⟩
    rw [Parts.text_eq, hs]
  · rintro ⟨⟨scheme, authority, path, query, fragment⟩, ⟨hfront, hquery, hfragment⟩, rfl, rfl⟩
    have hhash : 35 ∉ closedBy scheme 58 ++ (authorityText authority ++ path) ++ openedBy 63 query := by
      rw [List.mem_append, not_or]
      refine ⟨front_not_mem hfront (Or.inl rfl), ?_⟩
      cases query with
      | none => exact List.not_mem_nil
      | some q =>
          rw [openedBy, List.mem_cons, not_or]
          exact ⟨by decide, (hquery q rfl).not_mem (delimits_query rfl)⟩
    exact (parse_eq_ok_iff (Parts.text_eq _) (front_not_mem hfront (Or.inr rfl)) hhash).2
      ⟨hfragment, hquery, scheme, authority, path, rfl, hfront, rfl⟩

end Kaikai.UrlRef
