import Kaikai.UrlScan

namespace Kaikai.UrlRef

open Kaikai.Decimal (IsDigit intToString)
open Kaikai.Json (stringByteAtInt)
open Kaikai.Str
open Kaikai.Stretch
open Kaikai.Text

def urlHexDigit (n : Int) : Str := stringSlice (ascii "0123456789ABCDEF") n 1

def urlEncodeByte (s : Str) (i : Nat) : Str :=
  let b := stringByteAtInt s i
  if urlIsUnreserved b then stringSlice s i 1
  else [ascii "%", urlHexDigit (b / 16), urlHexDigit (b % 16)].flatten

def urlEncodeLoop (s : Str) (i n : Nat) (parts : List Str) : Str :=
  if i ≥ n then parts.reverse.flatten else urlEncodeLoop s (i + 1) n (urlEncodeByte s i :: parts)
termination_by n - i

def percentEncode (s : Str) : Str := urlEncodeLoop s 0 s.length []

theorem urlFind_bounds {s : Str} {b : Int} {i j k : Nat} (h : urlFind s b i j = some k) :
    i ≤ k ∧ k < j ∧ stringByteAtInt s k = b := by
  fun_induction urlFind s b i j with
  | case1 => cases h
  | case2 i hlt hb =>
      cases h
      exact ⟨le_rfl, by omega, hb⟩
  | case3 i hlt hb ih =>
      obtain ⟨hle, hlt, hk⟩ := ih h
      exact ⟨by omega, hlt, hk⟩

theorem lt_orEnd_urlFind {s : Str} {b : Int} {i j : Nat} (hij : ¬ i ≥ j)
    (hb : stringByteAtInt s i ≠ b) : i < orEnd (urlFind s b i j) j := by
  cases hfind : urlFind s b i j with
  | none => exact not_le.1 hij
  | some k =>
      obtain ⟨hle, _, hk⟩ := urlFind_bounds hfind
      refine lt_of_le_of_ne hle ?_
      rintro rfl
      exact hb hk

def urlDecodeLoop (s : Str) (i n : Nat) (parts : List Str) : Except String Str :=
  if i ≥ n then .ok parts.reverse.flatten
  else if stringByteAtInt s i ≠ 37 then
    let stop := orEnd (urlFind s 37 i n) n
    urlDecodeLoop s stop n (urlRange s i stop :: parts)
  else if urlEscapeOk s i n then
    let v := urlHexValue (stringByteAtInt s (i + 1)) * 16 + urlHexValue (stringByteAtInt s (i + 2))
    urlDecodeLoop s (i + 3) n (intToByteString v :: parts)
  else .error s!"percent_decode: bad escape at offset {i}"
termination_by n - i
decreasing_by
  · rename_i hin hb
    have hlt := lt_orEnd_urlFind hin hb
    omega
  · omega

def percentDecode (s : Str) : Except String Str := urlDecodeLoop s 0 s.length []

def urlDecodeLenient (s : Str) : Str :=
  match percentDecode s with
  | .ok d => d
  | .error _ => s

def urlNonempty (s : Str) : Bool := s.length > 0

def urlSplitPair (part : Str) : Str × Str :=
  match stringFind part (ascii "=") with
  | none => (urlDecodeLenient part, [])
  | some eq => (urlDecodeLenient (stringSlice part 0 eq), urlDecodeLenient (urlAfter part (eq + 1)))

def queryPairs (q : Str) : List (Str × Str) :=
  ((stringSplit q (ascii "&")).filter urlNonempty).map urlSplitPair

def urlJoinPair (p : Str × Str) : Str := [percentEncode p.1, ascii "=", percentEncode p.2].flatten

def queryString (pairs : List (Str × Str)) : Str :=
  (ascii "&").intercalate (pairs.map urlJoinPair)

/-- Every `%` stands before two hexadecimal digits. -/
def EscapesOk (t : Str) : Prop :=
  ∀ i : Nat, t[i]? = some 37 → ∃ x y, t[i + 1]? = some x ∧ t[i + 2]? = some y ∧ HexDig x ∧ HexDig y

/-- What a text of bytes and escapes stands for. -/
inductive Decodes : Str → Str → Prop
  | nil : Decodes [] []
  | plain {b : UInt8} {t d : Str} (hb : b ≠ 37) (ht : Decodes t d) : Decodes (b :: t) (b :: d)
  | escape {x y : UInt8} {t d : Str} (hx : HexDig x) (hy : HexDig y) (ht : Decodes t d) :
      Decodes (37 :: x :: y :: t)
        (intToByteString (urlHexValue x.toNat * 16 + urlHexValue y.toNat) ++ d)

section Hex

theorem urlHexDigit_mem {n : Nat} (hn : n < 16) :
    ∃ x, urlHexDigit n = [x] ∧ HexDig x ∧ urlHexValue x.toNat = n := by
  interval_cases n
  all_goals exact ⟨_, rfl, by unfold HexDig IsDigit; decide, by decide⟩

end Hex

section Decode

variable {s t d : Str} {b : UInt8} {i j : Nat}

theorem encoded_iff_decodes : Encoded (· ≠ 37) t ↔ ∃ d, Decodes t d := by
  constructor
  · intro h
    induction h with
    | nil => exact ⟨[], .nil⟩
    | plain hb _ ih =>
        obtain ⟨d, hd⟩ := ih
        exact ⟨_, .plain hb hd⟩
    | escape hx hy _ ih =>
        obtain ⟨d, hd⟩ := ih
        exact ⟨_, .escape hx hy hd⟩
  · rintro ⟨d, hd⟩
    induction hd with
    | nil => exact .nil
    | plain hb _ ih => exact .plain hb ih
    | escape hx hy _ ih => exact .escape hx hy ih

theorem hexDig_ne_percent {x : UInt8} (h : HexDig x) : x ≠ 37 := by
  rintro rfl
  revert h
  unfold HexDig IsDigit
  decide

theorem escapesOk_cons (hb : b ≠ 37) : EscapesOk (b :: t) ↔ EscapesOk t := by
  constructor
  · exact fun h i hi => h (i + 1) hi
  · rintro h (_ | i) hi
    · exact absurd (Option.some.inj hi) hb
    · exact h i hi

theorem escapesOk_percent :
    EscapesOk (37 :: t) ↔ ∃ x y rest, t = x :: y :: rest ∧ HexDig x ∧ HexDig y ∧ EscapesOk rest := by
  constructor
  · intro h
    obtain ⟨x, y, hx, hy, hxdig, hydig⟩ := h 0 rfl
    cases t with
    | nil => cases hx
    | cons x' t =>
        cases t with
        | nil => cases hy
        | cons y' rest =>
            cases hx
            cases hy
            exact ⟨x, y, rest, rfl, hxdig, hydig, fun i hi => h (i + 3) hi⟩
  · rintro ⟨x, y, rest, rfl, hx, hy, h⟩ (_ | _ | _ | i) hi
    · exact ⟨x, y, rfl, rfl, hx, hy⟩
    · exact absurd (Option.some.inj hi) (hexDig_ne_percent hx)
    · exact absurd (Option.some.inj hi) (hexDig_ne_percent hy)
    · exact h i hi

theorem encoded_iff_escapesOk (t : Str) : Encoded (· ≠ 37) t ↔ EscapesOk t := by
  induction hn : t.length using Nat.strong_induction_on generalizing t with
  | _ n ih =>
      cases t with
      | nil => exact iff_of_true .nil fun i hi => by cases hi
      | cons b t =>
          rw [List.length_cons] at hn
          by_cases hb : b = 37
          · subst hb
            rw [encoded_percent_iff (by simp), escapesOk_percent]
            constructor
            · rintro ⟨x, y, rest, rfl, hx, hy, h⟩
              rw [List.length_cons, List.length_cons] at hn
              exact ⟨x, y, rest, rfl, hx, hy, (ih _ (by omega) rest rfl).1 h⟩
            · rintro ⟨x, y, rest, rfl, hx, hy, h⟩
              rw [List.length_cons, List.length_cons] at hn
              exact ⟨x, y, rest, rfl, hx, hy, (ih _ (by omega) rest rfl).2 h⟩
          · rw [encoded_cons_iff hb, escapesOk_cons hb, ih _ (by omega) t rfl]
            exact ⟨fun h => h.2, fun h => ⟨hb, h⟩⟩

theorem decodes_cons_iff (hb : b ≠ 37) :
    Decodes (b :: t) d ↔ ∃ d', d = b :: d' ∧ Decodes t d' := by
  constructor
  · intro h
    cases h with
    | plain _ ht => exact ⟨_, rfl, ht⟩
    | escape => exact absurd rfl hb
  · rintro ⟨d', rfl, hd'⟩
    exact .plain hb hd'

theorem decodes_append_iff {run : Str} (hrun : 37 ∉ run) :
    Decodes (run ++ t) d ↔ ∃ d', d = run ++ d' ∧ Decodes t d' := by
  induction run generalizing d with
  | nil => simp
  | cons b run ih =>
      rw [List.mem_cons, not_or] at hrun
      rw [List.cons_append, decodes_cons_iff (Ne.symm hrun.1)]
      constructor
      · rintro ⟨_, rfl, h⟩
        obtain ⟨d', rfl, hd'⟩ := (ih hrun.2).1 h
        exact ⟨d', rfl, hd'⟩
      · rintro ⟨d', rfl, hd'⟩
        exact ⟨_, rfl, (ih hrun.2).2 ⟨d', rfl, hd'⟩⟩

theorem exists_run (h : Spans s i (b :: t) j) (hb : b ≠ 37) :
    ∃ run rest, b :: t = run ++ rest ∧ 37 ∉ run ∧ run ≠ [] ∧
      Spans s i run (orEnd (urlFind s 37 i j) j) ∧ Spans s (orEnd (urlFind s 37 i j) j) rest j := by
  by_cases hmem : 37 ∈ b :: t
  · obtain ⟨run, rest, heq, hrun⟩ := List.eq_append_cons_of_mem hmem
    have hne : run ≠ [] := by
      rintro rfl
      exact hb (List.cons.inj heq).1
    rw [heq] at h
    have hfind : urlFind s 37 i j = some (i + run.length) := urlFind_of_mem h hrun
    obtain ⟨k, hleft, hright⟩ := spans_append_iff.1 h
    rw [hfind]
    change ∃ run' rest', _ ∧ _ ∧ _ ∧ Spans s i run' (i + run.length) ∧ Spans s (i + run.length) rest' j
    rw [hleft.stop]
    exact ⟨run, 37 :: rest, heq, hrun, hne, hleft, hright⟩
  · have hfind : urlFind s 37 i j = none := urlFind_of_not_mem h hmem
    rw [hfind]
    refine ⟨b :: t, [], (List.append_nil _).symm, hmem, List.cons_ne_nil b t, h, ?_⟩
    exact Spans.nil h.inside

theorem urlDecodeLoop_eq (h : Spans s i t s.length) (parts : List Str) :
    (∀ d, Decodes t d → urlDecodeLoop s i s.length parts = .ok (parts.reverse.flatten ++ d)) ∧
      ((∀ d, ¬ Decodes t d) → ∃ e, urlDecodeLoop s i s.length parts = .error e) := by
  induction hn : t.length using Nat.strong_induction_on generalizing t i parts with
  | _ n ih =>
      cases t with
      | nil =>
          rw [urlDecodeLoop, if_pos (spans_nil_iff.1 h).1.ge]
          refine ⟨fun d hd => ?_, fun hno => absurd .nil (hno [])⟩
          cases hd
          rw [List.append_nil]
      | cons b t =>
          rw [List.length_cons] at hn
          have hlt := h.lt (List.cons_ne_nil b t)
          rw [urlDecodeLoop, if_neg (by omega)]
          by_cases hb : b = 37
          · subst hb
            have hpercent : stringByteAtInt s i = 37 := byteAt_spans h
            rw [if_neg (not_not.2 hpercent)]
            split_ifs with hok
            · obtain ⟨x, y, rest, rfl, hx, hy⟩ := (urlEscapeOk_iff h).1 hok
              have htail := (spans_cons_iff.1 h).2
              have hrest := (spans_cons_iff.1 htail).2
              rw [byteAt_spans htail, byteAt_spans hrest]
              rw [List.length_cons, List.length_cons] at hn
              obtain ⟨hyes, hno⟩ := ih rest.length (by omega) (spans_cons_iff.1 hrest).2
                (intToByteString (urlHexValue x.toNat * 16 + urlHexValue y.toNat) :: parts) rfl
              constructor
              · intro d hd
                cases hd with
                | plain hb => exact absurd rfl hb
                | escape _ _ hd =>
                    rw [hyes _ hd, List.reverse_cons, List.flatten_append, List.flatten_singleton,
                      List.append_assoc]
              · exact fun hnot => hno fun d hd => hnot _ (.escape hx hy hd)
            · refine ⟨fun d hd => ?_, fun _ => ⟨_, rfl⟩⟩
              cases hd with
              | plain hb => exact absurd rfl hb
              | escape hx hy => exact absurd ((urlEscapeOk_iff h).2 ⟨_, _, _, rfl, hx, hy⟩) hok
          · have hne : stringByteAtInt s i ≠ 37 := mt (byteAt_eq_iff (c := 37) h).1 hb
            rw [if_pos hne]
            obtain ⟨run, rest, heq, hrun, hrunNe, hleft, hright⟩ := exists_run h hb
            have hlen := congrArg List.length heq
            have hpos := List.length_pos_iff.2 hrunNe
            rw [List.length_cons, List.length_append] at hlen
            obtain ⟨hyes, hno⟩ := ih rest.length (by omega) hright (run :: parts) rfl
            rw [heq]
            simp only [urlRange_spans hleft]
            constructor
            · intro d hd
              obtain ⟨d', rfl, hd'⟩ := (decodes_append_iff hrun).1 hd
              rw [hyes _ hd', List.reverse_cons, List.flatten_append, List.flatten_singleton,
                List.append_assoc]
            · refine fun hnot => hno fun d hd => hnot _ ((decodes_append_iff hrun).2 ⟨d, rfl, hd⟩)

theorem percentDecode_eq (h : Decodes t d) : percentDecode t = .ok d :=
  (urlDecodeLoop_eq (spans_whole_iff.2 rfl) []).1 d h

theorem percentDecode_ok_iff (t : Str) : (∃ d, percentDecode t = .ok d) ↔ EscapesOk t := by
  rw [← encoded_iff_escapesOk, encoded_iff_decodes]
  constructor
  · rintro ⟨d, hd⟩
    by_contra hno
    obtain ⟨e, he⟩ := (urlDecodeLoop_eq (spans_whole_iff.2 rfl) []).2
      (not_exists.1 hno)
    rw [percentDecode, he] at hd
    cases hd
  · exact fun ⟨d, hd⟩ => ⟨d, percentDecode_eq hd⟩

end Decode

section Encode

variable {s : Str} {b : UInt8} {i : Nat}

/-- A byte kept, or its escape. -/
def codedByte (b : UInt8) : Str :=
  if urlIsUnreserved b.toNat then [b]
  else [ascii "%", urlHexDigit ((b.toNat : Int) / 16), urlHexDigit ((b.toNat : Int) % 16)].flatten

theorem urlEncodeByte_eq (h : s[i]? = some b) : urlEncodeByte s i = codedByte b := by
  have hslice : stringSlice s i 1 = [b] := by
    rw [stringSlice, Int.toNat_natCast, List.drop_eq_getElem?_toList_append, h]
    rfl
  rw [urlEncodeByte, codedByte, byteAt h, hslice]

theorem urlEncodeLoop_eq (t : Str) (parts : List Str) (h : Spans s i t s.length) :
    urlEncodeLoop s i s.length parts = parts.reverse.flatten ++ t.flatMap codedByte := by
  induction t generalizing i parts with
  | nil =>
      rw [urlEncodeLoop, if_pos (spans_nil_iff.1 h).1.ge, List.flatMap_nil, List.append_nil]
  | cons b t ih =>
      obtain ⟨hb, hrest⟩ := spans_cons_iff.1 h
      have hlt := h.lt (List.cons_ne_nil b t)
      rw [urlEncodeLoop, if_neg (by omega), ih _ hrest, urlEncodeByte_eq hb, List.reverse_cons,
        List.flatten_append, List.flatten_singleton, List.append_assoc, List.flatMap_cons]

theorem percentEncode_eq (s : Str) : percentEncode s = s.flatMap codedByte :=
  urlEncodeLoop_eq s [] (spans_whole_iff.2 rfl)

theorem codedByte_cases (b : UInt8) :
    (codedByte b = [b] ∧ Unreserved b) ∨
      ∃ x y, codedByte b = [37, x, y] ∧ HexDig x ∧ HexDig y ∧
        intToByteString (urlHexValue x.toNat * 16 + urlHexValue y.toNat) = [b] := by
  rw [codedByte]
  split_ifs with h
  · exact .inl ⟨rfl, (urlIsUnreserved_iff b).1 h⟩
  · have hlt := b.toNat_lt
    obtain ⟨x, hx, hxdig, hxval⟩ := urlHexDigit_mem (n := b.toNat / 16) (by omega)
    obtain ⟨y, hy, hydig, hyval⟩ := urlHexDigit_mem (n := b.toNat % 16) (by omega)
    refine .inr ⟨x, y, ?_, hxdig, hydig, ?_⟩
    · push_cast at hx hy
      rw [hx, hy]
      rfl
    · have hcode : ((b.toNat / 16 : ℕ) * 16 + (b.toNat % 16 : ℕ) : Int) % 256 = b.toNat := by omega
      rw [hxval, hyval, intToByteString, hcode, Int.toNat_natCast, UInt8.ofNat_toNat]

theorem decodes_percentEncode (s : Str) : Decodes (percentEncode s) s := by
  rw [percentEncode_eq]
  induction s with
  | nil => exact .nil
  | cons b s ih =>
      rw [List.flatMap_cons]
      obtain ⟨hcode, hb⟩ | ⟨x, y, hcode, hx, hy, hvalue⟩ := codedByte_cases b
      · rw [hcode]
        refine .plain ?_ ih
        rintro rfl
        revert hb
        unfold Unreserved Alpha IsDigit
        decide
      · have hescape := Decodes.escape hx hy ih
        rw [hvalue] at hescape
        rw [hcode]
        exact hescape

theorem percentDecode_percentEncode (s : Str) : percentDecode (percentEncode s) = .ok s :=
  percentDecode_eq (decodes_percentEncode s)

theorem urlDecodeLenient_percentEncode (s : Str) : urlDecodeLenient (percentEncode s) = s := by
  rw [urlDecodeLenient, percentDecode_percentEncode]

theorem percentEncode_bytes {c : UInt8} (h : c ∈ percentEncode s) : Unreserved c ∨ c = 37 := by
  rw [percentEncode_eq, List.mem_flatMap] at h
  obtain ⟨b, _, hc⟩ := h
  have hdig : ∀ {x : UInt8}, HexDig x → Unreserved x := by
    intro x hx
    unfold HexDig IsDigit at hx
    unfold Unreserved Alpha IsDigit
    omega
  obtain ⟨hcode, hb⟩ | ⟨x, y, hcode, hx, hy, _⟩ := codedByte_cases b
  · rw [hcode, List.mem_singleton] at hc
    exact .inl (hc ▸ hb)
  · rw [hcode, List.mem_cons, List.mem_cons, List.mem_singleton] at hc
    rcases hc with rfl | rfl | rfl
    · exact .inr rfl
    · exact .inl (hdig hx)
    · exact .inl (hdig hy)

theorem not_mem_percentEncode (s : Str) : 38 ∉ percentEncode s ∧ 61 ∉ percentEncode s := by
  constructor
  · intro h
    have hbyte := percentEncode_bytes h
    revert hbyte
    unfold Unreserved Alpha IsDigit
    decide
  · intro h
    have hbyte := percentEncode_bytes h
    revert hbyte
    unfold Unreserved Alpha IsDigit
    decide

end Encode

section Query

variable {c : UInt8}

theorem stringFind_absent {s : Str} (h : c ∉ s) : stringFind s [c] = none := by
  induction s with
  | nil => rfl
  | cons b s ih =>
      rw [List.mem_cons, not_or] at h
      rw [stringFind, if_neg, ih h.2]
      · rfl
      · rw [List.cons_prefix_cons]
        exact fun hpre => h.1 hpre.1

theorem stringFind_first {pre post : Str} (h : c ∉ pre) :
    stringFind (pre ++ c :: post) [c] = some pre.length := by
  induction pre with
  | nil => exact if_pos ⟨post, rfl⟩
  | cons b pre ih =>
      rw [List.mem_cons, not_or] at h
      rw [List.cons_append, stringFind, if_neg, ih h.2]
      · rfl
      · rw [List.cons_prefix_cons]
        exact fun hpre => h.1 hpre.1

theorem splitLoop_intercalate {pieces : List Str} (hne : pieces ≠ []) {fuel : Nat}
    (h : ∀ p ∈ pieces, c ∉ p) (hfuel : pieces.length ≤ fuel + 1) :
    splitLoop [c] fuel ([c].intercalate pieces) = pieces := by
  induction pieces generalizing fuel with
  | nil => exact absurd rfl hne
  | cons p pieces ih =>
      obtain ⟨hp, hrest⟩ := List.forall_mem_cons.1 h
      cases pieces with
      | nil =>
          rw [List.intercalate_singleton]
          cases fuel with
          | zero => rfl
          | succ fuel => rw [splitLoop, stringFind_absent hp]
      | cons q pieces =>
          cases fuel with
          | zero => simp at hfuel
          | succ fuel =>
              have hlen : (q :: pieces).length ≤ fuel + 1 := by simpa using hfuel
              have hlast := ih (List.cons_ne_nil q pieces) hrest hlen
              rw [List.intercalate_cons_cons, List.append_assoc, List.singleton_append, splitLoop,
                stringFind_first hp]
              simp only [List.take_left, List.length_singleton]
              rw [List.append_cons, List.drop_left' (by simp), hlast]

theorem length_intercalate {sep : Str} (hsep : sep ≠ []) (pieces : List Str) :
    pieces.length ≤ (sep.intercalate pieces).length + 1 := by
  have hpos := List.length_pos_iff.2 hsep
  induction pieces with
  | nil => exact Nat.zero_le _
  | cons p pieces ih =>
      cases pieces with
      | nil =>
          rw [List.length_singleton]
          omega
      | cons q pieces =>
          rw [List.intercalate_cons_cons, List.length_append, List.length_append, List.length_cons]
          omega

theorem urlJoinPair_eq (p : Str × Str) :
    urlJoinPair p = percentEncode p.1 ++ 61 :: percentEncode p.2 := by
  rw [urlJoinPair, List.flatten_cons, List.flatten_cons, List.flatten_singleton]
  rfl

theorem urlSplitPair_urlJoinPair (p : Str × Str) : urlSplitPair (urlJoinPair p) = p := by
  have hfind : stringFind (urlJoinPair p) (ascii "=") = some (percentEncode p.1).length := by
    rw [urlJoinPair_eq]
    exact stringFind_first (not_mem_percentEncode p.1).2
  have hkey : stringSlice (urlJoinPair p) 0 (percentEncode p.1).length = percentEncode p.1 := by
    rw [stringSlice, Int.toNat_natCast, urlJoinPair_eq]
    exact List.take_left
  have hvalue : urlAfter (urlJoinPair p) ((percentEncode p.1).length + 1) = percentEncode p.2 := by
    have hdrop : (urlJoinPair p).drop ((percentEncode p.1).length + 1) = percentEncode p.2 := by
      rw [urlJoinPair_eq, List.append_cons]
      exact List.drop_left' (by simp)
    rw [urlAfter, stringSlice, Int.toNat_natCast, hdrop]
    apply List.take_of_length_le
    rw [urlJoinPair_eq, List.length_append, List.length_cons]
    omega
  rw [urlSplitPair, hfind]
  change (urlDecodeLenient (stringSlice (urlJoinPair p) 0 (percentEncode p.1).length),
    urlDecodeLenient (urlAfter (urlJoinPair p) ((percentEncode p.1).length + 1))) = p
  rw [hkey, hvalue, urlDecodeLenient_percentEncode, urlDecodeLenient_percentEncode]

theorem queryPairs_queryString (ps : List (Str × Str)) : queryPairs (queryString ps) = ps := by
  rw [queryPairs]
  cases ps with
  | nil => rfl
  | cons p ps =>
      have hpieces : ∀ piece ∈ (p :: ps).map urlJoinPair, 38 ∉ piece := by
        intro piece hpiece
        obtain ⟨q, _, rfl⟩ := List.mem_map.1 hpiece
        rw [urlJoinPair_eq, List.mem_append, List.mem_cons, not_or, not_or]
        exact ⟨(not_mem_percentEncode q.1).1, by decide, (not_mem_percentEncode q.2).1⟩
      have hsplit : stringSplit (queryString (p :: ps)) (ascii "&") = (p :: ps).map urlJoinPair :=
        splitLoop_intercalate (by simp) hpieces (length_intercalate (List.cons_ne_nil 38 []) _)
      have hkeep : ((p :: ps).map urlJoinPair).filter urlNonempty = (p :: ps).map urlJoinPair := by
        apply List.filter_eq_self.2
        intro piece hpiece
        obtain ⟨q, _, rfl⟩ := List.mem_map.1 hpiece
        rw [urlNonempty, decide_eq_true_eq, urlJoinPair_eq]
        simp
      rw [hsplit, hkeep, List.map_map]
      calc
        (p :: ps).map (urlSplitPair ∘ urlJoinPair) = (p :: ps).map id :=
          List.map_congr_left fun q _ => urlSplitPair_urlJoinPair q
        _ = p :: ps := List.map_id _

end Query

/-- Query strings and percent coding round-trip; decoding accepts exactly complete escapes. -/
theorem query_roundtrip (ps : List (Str × Str)) (s t : Str) :
    queryPairs (queryString ps) = ps ∧ percentDecode (percentEncode s) = .ok s ∧
      ((∃ d, percentDecode t = .ok d) ↔ EscapesOk t) :=
  ⟨queryPairs_queryString ps, percentDecode_percentEncode s, percentDecode_ok_iff t⟩

end Kaikai.UrlRef
