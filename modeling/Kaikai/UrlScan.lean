import Kaikai.Text
import Kaikai.UrlGrammar

/-!
The URL parser: successive searches for delimiters over one text, with a class check of
every stretch between them. Searches answer `none` where the module answers `-1`.
-/

namespace Kaikai.UrlRef

open Kaikai.Decimal
open Kaikai.Json (stringByteAtInt)
open Kaikai.Str
open Kaikai.Stretch
open Kaikai.Text

/-- A reference split into its components, each exactly as written. -/
structure Url where
  scheme : Option Str
  userinfo : Option Str
  host : Option Str
  port : Option Int
  path : Str
  query : Option Str
  fragment : Option Str

def urlIsAlpha (b : Int) : Bool := (b ≥ 65 && b ≤ 90) || (b ≥ 97 && b ≤ 122)

def urlIsDigit (b : Int) : Bool := b ≥ 48 && b ≤ 57

def urlIsUnreserved (b : Int) : Bool :=
  urlIsAlpha b || urlIsDigit b || b == 45 || b == 46 || b == 95 || b == 126

def urlIsSubDelim (b : Int) : Bool :=
  b == 33 || b == 36 || (b ≥ 38 && b ≤ 44) || b == 59 || b == 61

def urlIsSchemeChar (b : Int) : Bool :=
  urlIsAlpha b || urlIsDigit b || b == 43 || b == 45 || b == 46

def urlIsRegName (b : Int) : Bool := urlIsUnreserved b || urlIsSubDelim b

def urlIsUserinfo (b : Int) : Bool := urlIsRegName b || b == 58

def urlIsPchar (b : Int) : Bool := urlIsUserinfo b || b == 64

def urlIsPath (b : Int) : Bool := urlIsPchar b || b == 47

def urlIsQuery (b : Int) : Bool := urlIsPath b || b == 63

def urlHexValue (b : Int) : Int :=
  if b ≥ 48 ∧ b ≤ 57 then b - 48
  else if b ≥ 65 ∧ b ≤ 70 then b - 55
  else if b ≥ 97 ∧ b ≤ 102 then b - 87
  else -1

def urlIsIpv6 (b : Int) : Bool := urlHexValue b ≥ 0 || b == 58 || b == 46

/-- The first offset of byte `b` between two offsets. -/
def urlFind (s : Str) (b : Int) (start stop : Nat) : Option Nat :=
  if start ≥ stop then none
  else if stringByteAtInt s start = b then some start
  else urlFind s b (start + 1) stop
termination_by stop - start

/-- A search result, or the end where nothing was found. -/
def orEnd (found : Option Nat) (stop : Nat) : Nat :=
  match found with
  | none => stop
  | some i => i

def urlRange (s : Str) (start stop : Nat) : Str := stringSlice s start (stop - start)

def urlAfter (s : Str) (at' : Nat) : Str := stringSlice s at' (s.length - at')

def urlEscapeOk (s : Str) (i stop : Nat) : Bool :=
  i + 2 < stop && urlHexValue (stringByteAtInt s (i + 1)) ≥ 0 &&
    urlHexValue (stringByteAtInt s (i + 2)) ≥ 0

def urlCheckByte (s : Str) (i stop : Nat) (ok : Int → Bool) (what : String) : Except String Nat :=
  let b := stringByteAtInt s i
  if b = 37 then
    if urlEscapeOk s i stop then .ok (i + 3)
    else .error ("parse: bad percent escape in " ++ what ++ " at offset " ++ toString i)
  else if ok b then .ok (i + 1)
  else .error ("parse: invalid character in " ++ what ++ " at offset " ++ toString i)

theorem urlCheckByte_gt {s : Str} {i stop next : Nat} {ok : Int → Bool} {what : String}
    (h : urlCheckByte s i stop ok what = .ok next) : i < next := by
  rw [urlCheckByte] at h
  split_ifs at h <;> cases h <;> omega

/-- Every byte between two offsets is in `ok` or part of an escape. -/
def urlCheck (s : Str) (i stop : Nat) (ok : Int → Bool) (what : String) : Except String Unit :=
  if i ≥ stop then .ok ()
  else
    match _h : urlCheckByte s i stop ok what with
    | .error e => .error e
    | .ok next => urlCheck s next stop ok what
termination_by stop - i
decreasing_by
  have hgt := urlCheckByte_gt _h
  omega

def urlCheckScheme (s : Str) (stop : Nat) : Except String Unit :=
  if stop = 0 then .error "parse: empty scheme at offset 0"
  else if !urlIsAlpha (stringByteAtInt s 0) then
    .error "parse: invalid character in scheme at offset 0"
  else urlCheck s 1 stop urlIsSchemeChar "scheme"

/-- A component behind a delimiter at `at'`. -/
def urlComponent (s : Str) (at' : Option Nat) (stop : Nat) (what : String) :
    Except String (Option Str) :=
  match at' with
  | none => .ok none
  | some i =>
      match urlCheck s (i + 1) stop urlIsQuery what with
      | .error e => .error e
      | .ok _ => .ok (some (urlRange s (i + 1) stop))

/-- The first offset whose byte fails `ok`; escapes count as bytes here. -/
def urlFirstBad (s : Str) (i stop : Nat) (ok : Int → Bool) : Option Nat :=
  if i ≥ stop then none
  else if ok (stringByteAtInt s i) then urlFirstBad s (i + 1) stop ok
  else some i
termination_by stop - i

def urlPortError (what : String) (i : Nat) : String :=
  "parse: " ++ what ++ " in port at offset " ++ toString i

def urlPortRange (s : Str) (start stop : Nat) : Except String (Option Int) :=
  match stringToInt (urlRange s start stop) with
  | some p => if p ≤ 65535 then .ok (some p) else .error (urlPortError "value out of range" start)
  | none => .error (urlPortError "value out of range" start)

/-- Nine digits cannot overflow, so the range test is exact. -/
def urlPortDigits (s : Str) (start stop : Nat) : Except String (Option Int) :=
  match urlFirstBad s start stop urlIsDigit with
  | some bad => .error (urlPortError "invalid character" bad)
  | none =>
      if stop - start > 9 then .error (urlPortError "value out of range" start)
      else urlPortRange s start stop

def urlPortValue (s : Str) (start stop : Nat) : Except String (Option Int) :=
  if start ≥ stop then .ok none else urlPortDigits s start stop

structure UrlHostPort where
  host : Str
  port : Option Int

structure UrlAuthority where
  userinfo : Option Str
  host : Str
  port : Option Int

def urlHostPort (s host : Str) (colon : Option Nat) (stop : Nat) : Except String UrlHostPort :=
  match colon with
  | none => .ok ⟨host, none⟩
  | some i =>
      match urlPortValue s (i + 1) stop with
      | .error e => .error e
      | .ok p => .ok ⟨host, p⟩

def urlIpError (what : String) (i : Nat) : Except String Unit :=
  .error ("parse: " ++ what ++ " at offset " ++ toString i)

def urlCheckIpFuture (s : Str) (start stop : Nat) : Except String Unit :=
  match urlFirstBad s (start + 1) stop urlIsUserinfo with
  | some bad => urlIpError "invalid character in IP literal" bad
  | none =>
      match urlFind s 46 start stop with
      | none => urlIpError "malformed IP literal" start
      | some _ => .ok ()

def urlCheckIpV6 (s : Str) (start stop : Nat) : Except String Unit :=
  match urlFirstBad s start stop urlIsIpv6 with
  | some bad => urlIpError "invalid character in IP literal" bad
  | none =>
      match urlFind s 58 start stop with
      | none => urlIpError "malformed IP literal" start
      | some _ => .ok ()

def urlCheckIpLiteral (s : Str) (start stop : Nat) : Except String Unit :=
  if start ≥ stop then urlIpError "empty IP literal" start
  else
    let first := stringByteAtInt s start
    if first = 118 ∨ first = 86 then urlCheckIpFuture s start stop else urlCheckIpV6 s start stop

def urlIpLiteralTail (s : Str) (start close stop : Nat) : Except String UrlHostPort :=
  if close + 1 = stop then urlHostPort s (urlRange s start stop) none stop
  else if stringByteAtInt s (close + 1) = 58 then
    urlHostPort s (urlRange s start (close + 1)) (some (close + 1)) stop
  else .error ("parse: invalid character after IP literal at offset " ++ toString (close + 1))

def urlParseIpLiteral (s : Str) (start stop : Nat) : Except String UrlHostPort :=
  match urlFind s 93 start stop with
  | none => .error ("parse: unterminated IP literal at offset " ++ toString start)
  | some close =>
      match urlCheckIpLiteral s (start + 1) close with
      | .error e => .error e
      | .ok _ => urlIpLiteralTail s start close stop

def urlParseHostPort (s : Str) (start stop : Nat) : Except String UrlHostPort :=
  if start < stop ∧ stringByteAtInt s start = 91 then urlParseIpLiteral s start stop
  else
    let colon := urlFind s 58 start stop
    let hostEnd := orEnd colon stop
    match urlCheck s start hostEnd urlIsRegName "host" with
    | .error e => .error e
    | .ok _ => urlHostPort s (urlRange s start hostEnd) colon stop

def urlAuthorityRest (s : Str) (userinfo : Option Str) (start stop : Nat) :
    Except String UrlAuthority :=
  match urlParseHostPort s start stop with
  | .error e => .error e
  | .ok hp => .ok ⟨userinfo, hp.host, hp.port⟩

def urlParseAuthority (s : Str) (start stop : Nat) : Except String UrlAuthority :=
  match urlFind s 64 start stop with
  | none => urlAuthorityRest s none start stop
  | some i =>
      match urlCheck s start i urlIsUserinfo "userinfo" with
      | .error e => .error e
      | .ok _ => urlAuthorityRest s (some (urlRange s start i)) (i + 1) stop

def urlWithPath (s : Str) (u : Url) (start stop : Nat) : Except String Url :=
  match urlCheck s start stop urlIsPath "path" with
  | .error e => .error e
  | .ok _ => .ok { u with path := urlRange s start stop }

def urlHasAuthority (s : Str) (start stop : Nat) : Bool :=
  start + 1 < stop && stringByteAtInt s start == 47 && stringByteAtInt s (start + 1) == 47

def urlParseHier (s : Str) (u : Url) (start stop : Nat) : Except String Url :=
  if urlHasAuthority s start stop then
    let slash := urlFind s 47 (start + 2) stop
    let authEnd := orEnd slash stop
    match urlParseAuthority s (start + 2) authEnd with
    | .error e => .error e
    | .ok a =>
        urlWithPath s { u with userinfo := a.userinfo, host := some a.host, port := a.port }
          authEnd stop
  else urlWithPath s u start stop

/-- A colon starts a scheme only before the first slash. -/
def urlParseFront (s : Str) (u : Url) (stop : Nat) : Except String Url :=
  let slash := urlFind s 47 0 stop
  let colon := urlFind s 58 0 (orEnd slash stop)
  match colon with
  | none => urlParseHier s u 0 stop
  | some i =>
      match urlCheckScheme s i with
      | .error e => .error e
      | .ok _ => urlParseHier s { u with scheme := some (urlRange s 0 i) } (i + 1) stop

def urlParseTail (s : Str) (q : Option Nat) (stop : Nat) (fragment : Option Str) :
    Except String Url :=
  match urlComponent s q stop "query" with
  | .error e => .error e
  | .ok query =>
      urlParseFront s ⟨none, none, none, none, [], query, fragment⟩ (orEnd q stop)

def parse (s : Str) : Except String Url :=
  let n := s.length
  let hash := urlFind s 35 0 n
  let stop := orEnd hash n
  match urlComponent s hash n "fragment" with
  | .error e => .error e
  | .ok fragment => urlParseTail s (urlFind s 63 0 stop) stop fragment

section Classes

variable (b : UInt8)

theorem urlIsAlpha_iff : urlIsAlpha b.toNat = true ↔ Alpha b := by
  simp only [urlIsAlpha, Alpha, Bool.or_eq_true, Bool.and_eq_true, decide_eq_true_eq]
  omega

theorem urlIsDigit_iff : urlIsDigit b.toNat = true ↔ IsDigit b := by
  simp only [urlIsDigit, IsDigit, Bool.and_eq_true, decide_eq_true_eq]
  omega

theorem urlIsUnreserved_iff : urlIsUnreserved b.toNat = true ↔ Unreserved b := by
  simp only [urlIsUnreserved, Unreserved, Bool.or_eq_true, beq_iff_eq, urlIsAlpha_iff,
    urlIsDigit_iff, or_assoc]
  norm_cast

theorem urlIsSubDelim_iff : urlIsSubDelim b.toNat = true ↔ SubDelim b := by
  simp only [urlIsSubDelim, SubDelim, Bool.or_eq_true, Bool.and_eq_true, beq_iff_eq,
    decide_eq_true_eq, List.mem_cons, List.not_mem_nil, or_false]
  omega

theorem urlIsSchemeChar_iff : urlIsSchemeChar b.toNat = true ↔ SchemeChar b := by
  simp only [urlIsSchemeChar, SchemeChar, Bool.or_eq_true, beq_iff_eq, urlIsAlpha_iff,
    urlIsDigit_iff, or_assoc]
  norm_cast

theorem urlIsRegName_iff : urlIsRegName b.toNat = true ↔ RegNameChar b := by
  rw [urlIsRegName, Bool.or_eq_true, urlIsUnreserved_iff, urlIsSubDelim_iff, RegNameChar]

theorem urlIsUserinfo_iff : urlIsUserinfo b.toNat = true ↔ UserinfoChar b := by
  rw [urlIsUserinfo, Bool.or_eq_true, urlIsRegName_iff, beq_iff_eq, UserinfoChar]
  norm_cast

theorem urlIsPchar_iff : urlIsPchar b.toNat = true ↔ PChar b := by
  rw [urlIsPchar, Bool.or_eq_true, urlIsUserinfo_iff, beq_iff_eq, PChar]
  norm_cast

theorem urlIsPath_iff : urlIsPath b.toNat = true ↔ PathChar b := by
  rw [urlIsPath, Bool.or_eq_true, urlIsPchar_iff, beq_iff_eq, PathChar]
  norm_cast

theorem urlIsQuery_iff : urlIsQuery b.toNat = true ↔ QueryChar b := by
  rw [urlIsQuery, Bool.or_eq_true, urlIsPath_iff, beq_iff_eq, QueryChar]
  norm_cast

theorem urlHexValue_iff : urlHexValue b.toNat ≥ 0 ↔ HexDig b := by
  unfold urlHexValue HexDig IsDigit
  split_ifs <;> omega

theorem urlIsIpv6_iff :
    urlIsIpv6 b.toNat = true ↔ HexDig b ∨ b.toNat = 58 ∨ b.toNat = 46 := by
  rw [urlIsIpv6, Bool.or_eq_true, Bool.or_eq_true, decide_eq_true_eq, urlHexValue_iff, beq_iff_eq,
    beq_iff_eq, or_assoc]
  norm_cast

end Classes

section Scan

variable {s t t₁ t₂ : Str} {b c : UInt8} {i j : Nat} {cls : UInt8 → Prop} {ok : Int → Bool}
  {what : String}

theorem byteAt (h : s[i]? = some b) : stringByteAtInt s i = b.toNat := by
  rw [stringByteAtInt, h]

theorem byteAt_spans (h : Spans s i (b :: t) j) : stringByteAtInt s i = b.toNat :=
  byteAt (spans_cons_iff.1 h).1

theorem byteAt_eq_iff (h : Spans s i (b :: t) j) :
    stringByteAtInt s i = (c.toNat : Int) ↔ b = c := by
  rw [byteAt_spans h, Nat.cast_inj, UInt8.toNat_inj]

theorem urlRange_spans (h : Spans s i t j) : urlRange s i j = t := by
  have hlen : ((j : Int) - i).toNat = j - i := by omega
  rw [urlRange, stringSlice, hlen, Int.toNat_natCast]
  exact h.slice

theorem urlFind_of_not_mem (h : Spans s i t j) (hc : c ∉ t) : urlFind s c.toNat i j = none := by
  induction t generalizing i with
  | nil =>
      rw [urlFind, if_pos (spans_nil_iff.1 h).1.ge]
  | cons b t ih =>
      rw [List.mem_cons, not_or] at hc
      have hlt := h.lt (List.cons_ne_nil b t)
      have hne : ¬ stringByteAtInt s i = c.toNat := fun heq => hc.1 ((byteAt_eq_iff h).1 heq).symm
      rw [urlFind, if_neg (by omega), if_neg hne]
      exact ih (spans_cons_iff.1 h).2 hc.2

theorem urlFind_of_mem (h : Spans s i (t₁ ++ c :: t₂) j) (hc : c ∉ t₁) :
    urlFind s c.toNat i j = some (i + t₁.length) := by
  induction t₁ generalizing i with
  | nil =>
      have hlt := h.lt (List.cons_ne_nil c t₂)
      rw [urlFind, if_neg (by omega), if_pos (byteAt_spans h)]
      rfl
  | cons b t ih =>
      rw [List.mem_cons, not_or] at hc
      have hlt := h.lt (List.cons_ne_nil b (t ++ c :: t₂))
      have hne : ¬ stringByteAtInt s i = c.toNat := fun heq => hc.1 ((byteAt_eq_iff h).1 heq).symm
      have hrest : i + (b :: t).length = i + 1 + t.length := by
        rw [List.length_cons]
        omega
      rw [urlFind, if_neg (by omega), if_neg hne, hrest]
      exact ih (spans_cons_iff.1 h).2 hc.2

theorem urlFirstBad_eq_none_iff (h : Spans s i t j) :
    urlFirstBad s i j ok = none ↔ ∀ b ∈ t, ok b.toNat = true := by
  induction t generalizing i with
  | nil =>
      rw [urlFirstBad, if_pos (spans_nil_iff.1 h).1.ge]
      simp
  | cons b t ih =>
      have hlt := h.lt (List.cons_ne_nil b t)
      rw [urlFirstBad, if_neg (by omega), byteAt_spans h, List.forall_mem_cons]
      split_ifs with hb
      · rw [ih (spans_cons_iff.1 h).2]
        exact ⟨fun hrest => ⟨hb, hrest⟩, fun hall => hall.2⟩
      · simp [hb]

theorem encoded_cons_iff (hb : b ≠ 37) : Encoded cls (b :: t) ↔ cls b ∧ Encoded cls t := by
  constructor
  · intro h
    cases h with
    | plain hb ht => exact ⟨hb, ht⟩
    | escape _ _ _ => exact absurd rfl hb
  · exact fun h => Encoded.plain h.1 h.2

theorem encoded_percent_iff (h37 : ¬ cls 37) :
    Encoded cls (37 :: t) ↔ ∃ x y rest, t = x :: y :: rest ∧ HexDig x ∧ HexDig y ∧ Encoded cls rest := by
  constructor
  · intro h
    cases h with
    | plain hb _ => exact absurd hb h37
    | escape hx hy hs => exact ⟨_, _, _, rfl, hx, hy, hs⟩
  · rintro ⟨x, y, rest, rfl, hx, hy, hs⟩
    exact Encoded.escape hx hy hs

theorem urlEscapeOk_iff (h : Spans s i (37 :: t) j) :
    urlEscapeOk s i j = true ↔ ∃ x y rest, t = x :: y :: rest ∧ HexDig x ∧ HexDig y := by
  have hstop := h.stop
  have htail := (spans_cons_iff.1 h).2
  rw [urlEscapeOk, Bool.and_eq_true, Bool.and_eq_true, decide_eq_true_eq, decide_eq_true_eq,
    decide_eq_true_eq]
  constructor
  · rintro ⟨⟨hlt, hx⟩, hy⟩
    cases t with
    | nil =>
        rw [List.length_singleton] at hstop
        omega
    | cons x t =>
        cases t with
        | nil =>
            rw [List.length_cons, List.length_singleton] at hstop
            omega
        | cons y rest =>
            rw [byteAt_spans htail, urlHexValue_iff] at hx
            rw [byteAt_spans (spans_cons_iff.1 htail).2, urlHexValue_iff] at hy
            exact ⟨x, y, rest, rfl, hx, hy⟩
  · rintro ⟨x, y, rest, rfl, hx, hy⟩
    rw [byteAt_spans htail, urlHexValue_iff, byteAt_spans (spans_cons_iff.1 htail).2,
      urlHexValue_iff]
    rw [List.length_cons, List.length_cons, List.length_cons] at hstop
    exact ⟨⟨by omega, hx⟩, hy⟩

theorem toNat_eq_percent_iff : (b.toNat : Int) = 37 ↔ b = 37 := by
  rw [← UInt8.toNat_inj]
  change (b.toNat : Int) = 37 ↔ b.toNat = 37
  norm_cast

theorem exists_cons_of_lt (h : Spans s i t j) (hlt : ¬ i ≥ j) : ∃ b rest, t = b :: rest := by
  cases t with
  | nil => exact absurd (spans_nil_iff.1 h).1.ge hlt
  | cons b rest => exact ⟨b, rest, rfl⟩

theorem urlCheck_iff (hok : ∀ b : UInt8, ok b.toNat = true ↔ cls b) (h37 : ¬ cls 37)
    (h : Spans s i t j) : urlCheck s i j ok what = .ok () ↔ Encoded cls t := by
  fun_induction urlCheck s i j ok what generalizing t with
  | case1 i hge =>
      cases t with
      | nil => exact ⟨fun _ => Encoded.nil, fun _ => rfl⟩
      | cons b t => exact absurd (h.lt (List.cons_ne_nil b t)) (by omega)
  | case2 i hge e hbyte =>
      obtain ⟨b, rest, rfl⟩ := exists_cons_of_lt h hge
      refine iff_of_false (by simp) ?_
      rw [urlCheckByte, byteAt_spans h] at hbyte
      by_cases hb : b = 37
      · subst hb
        rw [encoded_percent_iff h37]
        rintro ⟨x, y, rest', rfl, hx, hy, -⟩
        rw [if_pos (toNat_eq_percent_iff.2 rfl),
          if_pos ((urlEscapeOk_iff h).2 ⟨x, y, rest', rfl, hx, hy⟩)] at hbyte
        cases hbyte
      · rw [encoded_cons_iff hb]
        rintro ⟨hcls, -⟩
        rw [if_neg (fun heq => hb (toNat_eq_percent_iff.1 heq)), if_pos ((hok b).2 hcls)] at hbyte
        cases hbyte
  | case3 i hge next hbyte ih =>
      obtain ⟨b, rest, rfl⟩ := exists_cons_of_lt h hge
      rw [urlCheckByte, byteAt_spans h] at hbyte
      by_cases hb : b = 37
      · subst hb
        rw [if_pos (toNat_eq_percent_iff.2 rfl)] at hbyte
        split_ifs at hbyte with hescape
        obtain ⟨x, y, rest', rfl, hx, hy⟩ := (urlEscapeOk_iff h).1 hescape
        obtain rfl := Except.ok.inj hbyte
        have htail := (spans_cons_iff.1 (spans_cons_iff.1 (spans_cons_iff.1 h).2).2).2
        rw [encoded_percent_iff h37, ih htail]
        constructor
        · exact fun hrest => ⟨x, y, rest', rfl, hx, hy, hrest⟩
        · rintro ⟨x', y', rest'', heq, -, -, hrest⟩
          obtain ⟨-, heq⟩ := List.cons.inj heq
          obtain ⟨-, rfl⟩ := List.cons.inj heq
          exact hrest
      · rw [if_neg (fun heq => hb (toNat_eq_percent_iff.1 heq))] at hbyte
        split_ifs at hbyte with hcls
        obtain rfl := Except.ok.inj hbyte
        rw [encoded_cons_iff hb, ih (spans_cons_iff.1 h).2]
        exact ⟨fun hrest => ⟨(hok b).1 hcls, hrest⟩, fun hrest => hrest.2⟩

theorem urlCheck_error (what : String) (hok : ∀ b : UInt8, ok b.toNat = true ↔ cls b) (h37 : ¬ cls 37)
    (h : Spans s i t j) (ht : ¬ Encoded cls t) : ∃ e, urlCheck s i j ok what = .error e := by
  cases hcheck : urlCheck s i j ok what with
  | error e => exact ⟨e, rfl⟩
  | ok u => exact absurd ((urlCheck_iff hok h37 h).1 hcheck) ht

end Scan

theorem not_percent_regName : ¬ RegNameChar 37 := by
  unfold RegNameChar Unreserved SubDelim Alpha IsDigit
  decide

theorem not_percent_query : ¬ QueryChar 37 := by
  unfold QueryChar PathChar PChar UserinfoChar
  rintro ((((h | h) | h) | h) | h)
  · exact not_percent_regName h
  all_goals exact absurd h (by decide)

theorem not_percent_path : ¬ PathChar 37 := fun h => not_percent_query (Or.inl h)

theorem not_percent_userinfo : ¬ UserinfoChar 37 := fun h => not_percent_path (Or.inl (Or.inl h))

theorem not_percent_scheme : ¬ SchemeChar 37 := by
  unfold SchemeChar Alpha IsDigit
  decide

end Kaikai.UrlRef
