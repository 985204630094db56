import Kaikai.RegexEntail
import Kaikai.Utf8

namespace Kaikai.RegexAgree

open Kaikai.RegexEntail
open Kaikai.RegexpLanguage
open Kaikai.RegexpSyntax
open Kaikai.RegexpText
open Kaikai.Str
open Kaikai.Utf8

theorem encode_ascii {c : Char} (hc : c.toNat < 0x80) :
    String.utf8EncodeChar c = [UInt8.ofNat c.toNat] := by
  unfold String.utf8EncodeChar
  simp only
  rw [if_pos (show c.val.toNat ≤ 0x7f from Nat.le_of_lt_succ hc)]
  rfl

theorem high_lead_two : ∀ x < 0x20, 0x80 ≤ (UInt8.ofNat (x + 0xc0)).toNat := by
  decide

theorem high_lead_three : ∀ x < 0x10, 0x80 ≤ (UInt8.ofNat (x + 0xe0)).toNat := by
  decide

theorem high_lead_four : ∀ x < 8, 0x80 ≤ (UInt8.ofNat (x + 0xf0)).toNat := by
  decide

theorem high_continuation : ∀ x < 0x40, 0x80 ≤ (UInt8.ofNat (x + 0x80)).toNat := by
  decide

theorem encode_high {c : Char} (hc : 0x80 ≤ c.toNat) :
    ∀ b ∈ String.utf8EncodeChar c, 0x80 ≤ b.toNat := by
  have h1 : ¬ c.val.toNat ≤ 0x7f := Nat.not_le.2 hc
  intro b hb
  unfold String.utf8EncodeChar at hb
  simp only [if_neg h1] at hb
  generalize c.val.toNat = v at hb
  have htwo := high_lead_two (v / 64 % 0x20) (Nat.mod_lt _ (by decide))
  have hthree := high_lead_three (v / 4096 % 0x10) (Nat.mod_lt _ (by decide))
  have hfour := high_lead_four (v / 262144 % 8) (Nat.mod_lt _ (by decide))
  have hlow := high_continuation (v % 0x40) (Nat.mod_lt _ (by decide))
  have hmid := high_continuation (v / 64 % 0x40) (Nat.mod_lt _ (by decide))
  have htop := high_continuation (v / 4096 % 0x40) (Nat.mod_lt _ (by decide))
  split at hb
  · simp only [List.mem_cons, List.not_mem_nil, or_false] at hb
    rcases hb with rfl | rfl
    · exact htwo
    · exact hlow
  · split at hb
    · simp only [List.mem_cons, List.not_mem_nil, or_false] at hb
      rcases hb with rfl | rfl | rfl
      · exact hthree
      · exact hmid
      · exact hlow
    · simp only [List.mem_cons, List.not_mem_nil, or_false] at hb
      rcases hb with rfl | rfl | rfl | rfl
      · exact hfour
      · exact htop
      · exact hmid
      · exact hlow

/-- A parse state over a UTF-8 pattern, with the text that is still ahead. -/
structure Sees (st : RxParseState) (post : List Char) : Prop where
  drop : st.input.drop st.pos = utf8 post
  n_eq : st.n = st.input.length
  le : st.pos ≤ st.input.length

theorem Sees.lt {st : RxParseState} {c : Char} {post : List Char} (h : Sees st (c :: post)) :
    st.pos < st.n := by
  by_contra hge
  have hdrop := h.drop
  rw [h.n_eq] at hge
  rw [List.drop_eq_nil_of_le (Nat.le_of_not_lt hge), utf8_cons] at hdrop
  exact utf8EncodeChar_ne_nil c (List.append_eq_nil_iff.1 hdrop.symm).1

theorem Sees.ge {st : RxParseState} (h : Sees st []) : st.n ≤ st.pos := by
  rw [h.n_eq]
  exact List.drop_eq_nil_iff.1 h.drop

theorem Sees.peek {st : RxParseState} {post : List Char} (h : Sees st post) :
    rxPeek st = post.head? := by
  unfold rxPeek rxAtEnd
  cases post with
  | nil => rw [if_pos (decide_eq_true h.ge)]; rfl
  | cons c post =>
      rw [if_neg (by simpa using h.lt)]
      rw [rxCpAt_of_drop (h.drop.trans (utf8_cons c post))]
      rfl

theorem Sees.advance {st : RxParseState} {c : Char} {post : List Char} (h : Sees st (c :: post)) :
    Sees (rxAdvance st) post := by
  have hdrop := h.drop.trans (utf8_cons c post)
  refine ⟨?_, h.n_eq, ?_⟩
  · change st.input.drop (st.pos + stringCpLen st.input st.pos) = utf8 post
    rw [(decode_char c hdrop).1, ← List.drop_drop, hdrop, List.drop_left]
  · change st.pos + stringCpLen st.input st.pos ≤ st.input.length
    have hlen := congrArg List.length hdrop
    have hle := h.le
    rw [List.length_drop, List.length_append] at hlen
    rw [(decode_char c hdrop).1]
    omega

theorem Sees.advance_pos {st : RxParseState} {c : Char} {post : List Char}
    (h : Sees st (c :: post)) (hc : c.toNat < 0x80) : (rxAdvance st).pos = st.pos + 1 := by
  change st.pos + stringCpLen st.input st.pos = st.pos + 1
  rw [(decode_char c (h.drop.trans (utf8_cons c post))).1, encode_ascii hc]
  rfl

theorem Sees.peekAt {st : RxParseState} {c : Char} {post : List Char} (h : Sees st (c :: post))
    (hc : c.toNat < 0x80) : rxPeekAt st 1 = post.head? := by
  have hpos := h.advance_pos hc
  have hpeek := h.advance.peek
  unfold rxPeek rxAtEnd at hpeek
  unfold rxPeekAt
  rw [hpos] at hpeek
  rw [← hpeek]
  change (if st.pos + 1 ≥ st.n then none else some (rxCpAt st.input (st.pos + 1))) =
    if decide (st.pos + 1 ≥ st.n) = true then none else some (rxCpAt st.input (st.pos + 1))
  simp only [decide_eq_true_eq]

/-- The bytes of a pattern as the compiler reads them, each a character. -/
def latin (s : Str) : List Char := s.map fun b => Char.ofNat b.toNat

theorem charAtOrZero_eq {s : Str} {i : Nat} {c : Char} {rest : List Char}
    (h : (latin s).drop i = c :: rest) : charAtOrZero s i = c := by
  have hget : (latin s)[i]? = some c := by rw [← List.head?_drop, h]; rfl
  rw [latin, List.getElem?_map] at hget
  rw [charAtOrZero, charAt, hget]
  rfl

theorem latin_drop_cons {s : Str} {i : Nat} (h : i < s.length) :
    (latin s).drop i = charAtOrZero s i :: (latin s).drop (i + 1) := by
  have hlt : i < (latin s).length := by rwa [latin, List.length_map]
  rw [List.drop_eq_getElem_cons hlt, charAtOrZero_eq (List.drop_eq_getElem_cons hlt)]

theorem latin_append (s t : Str) : latin (s ++ t) = latin s ++ latin t := List.map_append

theorem latin_ascii {c : Char} (hc : c.toNat < 0x80) : latin (String.utf8EncodeChar c) = [c] := by
  rw [encode_ascii hc, latin, List.map_singleton, (ascii_byte _ hc).2, Char.ofNat_toNat]

theorem high_toNat : ∀ x < 256, (Char.ofNat x).toNat = x := by
  intro x hx
  have hvalid : x.isValidChar := Or.inl (by omega)
  rw [Char.ofNat, dif_pos hvalid]
  rfl

theorem latin_high {c : Char} (hc : 0x80 ≤ c.toNat) :
    ∀ d ∈ latin (String.utf8EncodeChar c), 0x80 ≤ d.toNat := by
  intro d hd
  obtain ⟨b, hb, rfl⟩ := List.mem_map.1 hd
  rw [high_toNat _ b.toNat_lt]
  exact encode_high hc b hb

theorem Sees.latin {st : RxParseState} {post : List Char} (h : Sees st post) :
    (latin st.input).drop st.pos = RegexAgree.latin (utf8 post) := by
  rw [RegexAgree.latin, RegexAgree.latin, ← List.map_drop, h.drop]

/-- The inside of a class: no `]` but behind a backslash. -/
inductive Body : List Char → Prop where
  | nil : Body []
  | plain {c : Char} {rest : List Char} : c ≠ ']' → c ≠ '\\' → Body rest → Body (c :: rest)
  | escaped {c : Char} {rest : List Char} : Body rest → Body ('\\' :: c :: rest)

theorem Body.append {B B' : List Char} (h : Body B) (h' : Body B') : Body (B ++ B') := by
  induction h with
  | nil => exact h'
  | plain hne hne' _ ih => exact .plain hne hne' ih
  | escaped _ ih => exact .escaped ih

theorem body_singleton {c : Char} (h : c ≠ ']') (h' : c ≠ '\\') : Body [c] := .plain h h' .nil

theorem body_of_high {B : List Char} (h : ∀ c ∈ B, 0x80 ≤ c.toNat) : Body B := by
  induction B with
  | nil => exact .nil
  | cons c B ih =>
      have hc := h c List.mem_cons_self
      refine .plain ?_ ?_ (ih fun d hd => h d (List.mem_cons_of_mem c hd))
      · rintro rfl
        exact absurd hc (by decide)
      · rintro rfl
        exact absurd hc (by decide)

theorem Body.unique {B B' X X' : List Char} (h : Body B) (h' : Body B')
    (heq : B ++ ']' :: X = B' ++ ']' :: X') : X = X' := by
  induction h generalizing B' with
  | nil =>
      cases h' with
      | nil => exact (List.cons.inj heq).2
      | plain hne _ _ => exact absurd (List.cons.inj heq).1.symm hne
      | escaped _ => exact absurd (List.cons.inj heq).1 (by decide)
  | plain hne hne' _ ih =>
      cases h' with
      | nil => exact absurd (List.cons.inj heq).1 hne
      | plain _ _ h' => exact ih h' (List.cons.inj heq).2
      | escaped _ => exact absurd (List.cons.inj heq).1 hne'
  | escaped _ ih =>
      cases h' with
      | nil => exact absurd (List.cons.inj heq).1 (by decide)
      | plain _ hne' _ => exact absurd (List.cons.inj heq).1.symm hne'
      | escaped h' => exact ih h' (List.cons.inj (List.cons.inj heq).2).2

theorem Body.latin {B : List Char} (h : Body B) : Body (latin (utf8 B)) := by
  have hother : ∀ {c : Char} {rest : List Char}, 0x80 ≤ c.toNat →
      Body (RegexAgree.latin (utf8 rest)) → Body (RegexAgree.latin (utf8 (c :: rest))) := by
    intro c rest hc hrest
    rw [utf8_cons, latin_append]
    exact (body_of_high (latin_high hc)).append hrest
  induction h with
  | nil => exact .nil
  | @plain c rest hne hne' _ ih =>
      by_cases hc : c.toNat < 0x80
      · rw [utf8_cons, latin_append, latin_ascii hc]
        exact .plain hne hne' ih
      · exact hother (Nat.le_of_not_lt hc) ih
  | @escaped c rest _ ih =>
      rw [utf8_cons, latin_append, latin_ascii (by decide : ('\\' : Char).toNat < 0x80)]
      by_cases hc : c.toNat < 0x80
      · rw [utf8_cons, latin_append, latin_ascii hc]
        exact .escaped ih
      · rw [utf8_cons, latin_append]
        have hhigh := latin_high (Nat.le_of_not_lt hc)
        cases hbytes : RegexAgree.latin (String.utf8EncodeChar c) with
        | nil =>
            rw [RegexAgree.latin, List.map_eq_nil_iff] at hbytes
            exact absurd hbytes (utf8EncodeChar_ne_nil c)
        | cons d ds =>
            rw [hbytes] at hhigh
            exact .escaped ((body_of_high fun e he => hhigh e (List.mem_cons_of_mem d he)).append ih)

theorem parseClassEscape_after {pat : Str} {i stop : Nat} {f : BracketFirst}
    (h : parseClassEscape pat i stop = some f) : i < stop ∧
      ((∃ m c, f = .bFirst m (i + 1) c) ∨ ∃ m, f = .bClass m (i + 1)) := by
  unfold parseClassEscape at h
  split at h
  · cases h
  · next hlt =>
      refine ⟨Nat.lt_of_not_le hlt, ?_⟩
      simp only at h
      split at h <;> cases h
      all_goals first | exact .inl ⟨_, _, rfl⟩ | exact .inr ⟨_, rfl⟩

theorem parseBracketItem_body {pat : Str} {i stop : Nat} {item : MaskAt} (hstop : stop ≤ pat.length)
    (h : parseBracketItem pat i stop = some item) : ∃ B, Body B ∧
      (latin pat).drop i = B ++ (latin pat).drop item.after ∧ i < item.after := by
  unfold parseBracketItem at h
  split at h
  · cases h
  · next hlt =>
      have hi : i < pat.length := by omega
      rw [Option.bind_eq_bind, Option.bind_eq_some_iff] at h
      obtain ⟨f, hf, hext⟩ := h
      have hfirst : ∃ B, Body B ∧ (∃ j, i < j ∧ (latin pat).drop i = B ++ (latin pat).drop j ∧
          ((∃ m c, f = .bFirst m j c) ∨ ∃ m, f = .bClass m j)) := by
        unfold bracketFirst at hf
        simp only at hf
        split at hf
        · next hc =>
            obtain ⟨hlt', hcase⟩ := parseClassEscape_after hf
            refine ⟨['\\', charAtOrZero pat (i + 1)], .escaped .nil, i + 2, by omega, ?_, hcase⟩
            rw [latin_drop_cons hi, hc, latin_drop_cons (by omega : i + 1 < pat.length)]
            rfl
        · next hc =>
            split at hf
            · cases hf
            · next hc' =>
                cases hf
                rw [Bool.or_eq_true, decide_eq_true_eq, decide_eq_true_eq, not_or] at hc'
                exact ⟨[charAtOrZero pat i], body_singleton hc'.1 hc, i + 1, Nat.lt_succ_self i,
                  latin_drop_cons hi, .inl ⟨_, _, rfl⟩⟩
      obtain ⟨B, hB, j, hij, hdrop, hcase⟩ := hfirst
      rcases hcase with ⟨m, c, rfl⟩ | ⟨m, rfl⟩
      · unfold bracketExtend at hext
        simp only at hext
        split at hext
        · next hrange =>
            simp only [Bool.and_eq_true, decide_eq_true_eq] at hrange
            obtain ⟨⟨⟨hj, hdash⟩, hj'⟩, hclose⟩ := hrange
            unfold bracketRange at hext
            simp only at hext
            split at hext
            · cases hext
            · next hback =>
                split at hext
                · cases hext
                · cases hext
                  refine ⟨B ++ ['-', charAtOrZero pat (j + 1)], hB.append
                    (.plain (by decide) (by decide) (body_singleton hclose hback)), ?_, by
                      change i < j + 2
                      omega⟩
                  rw [hdrop, latin_drop_cons (by omega : j < pat.length), hdash,
                    latin_drop_cons (by omega : j + 1 < pat.length), List.append_assoc]
                  rfl
        · cases hext
          exact ⟨B, hB, hdrop, hij⟩
      · cases hext
        exact ⟨B, hB, hdrop, hij⟩

theorem parseBracketBody_body {pat : Str} {stop : Nat} (hstop : stop ≤ pat.length) {neg : Bool}
    (fuel : Nat) : ∀ {i : Nat} {acc : Mask} {r : MaskAt},
      parseBracketBody fuel pat i stop acc neg = some r → ∃ B, Body B ∧
        (latin pat).drop i = B ++ ']' :: (latin pat).drop r.after ∧ r.after ≤ stop := by
  induction fuel with
  | zero =>
      intro i acc r h
      cases h
  | succ fuel ih =>
      intro i acc r h
      rw [parseBracketBody] at h
      split at h
      · cases h
      · next hlt =>
          split at h
          · next hclose =>
              cases h
              refine ⟨[], .nil, ?_, by change i + 1 ≤ stop; omega⟩
              rw [latin_drop_cons (by omega : i < pat.length), hclose]
              rfl
          · rw [Option.bind_eq_bind, Option.bind_eq_some_iff] at h
            obtain ⟨item, hitem, hrest⟩ := h
            obtain ⟨B, hB, hdrop, -⟩ := parseBracketItem_body hstop hitem
            obtain ⟨B', hB', hdrop', hle⟩ := ih hrest
            refine ⟨B ++ B', hB.append hB', ?_, hle⟩
            rw [hdrop, hdrop', List.append_assoc]

/-- The text of one character of a class. -/
def Token (B : List Char) (c : Char) : Prop :=
  (B = [c] ∧ c ≠ '\\') ∨ ∃ e, B = ['\\', e] ∧ c = rxEscapeChar e

theorem rxClassChar_sees {st : RxParseState} {post : List Char} (hst : Sees st post) {c : Char}
    (h : (rxClassChar st).rChar = some c) : ∃ B post', post = B ++ post' ∧
      Sees (rxClassChar st).st post' ∧ (rxClassChar st).st.input = st.input ∧
      Token B c := by
  have hpeek := hst.peek
  unfold rxClassChar at h ⊢
  cases post with
  | nil =>
      rw [hpeek] at h
      cases h
  | cons d post =>
      rw [hpeek] at h ⊢
      simp only [List.head?_cons] at h ⊢
      split at h
      · cases h
      · next heq =>
          cases heq
          have hadv := hst.advance
          have hpeek' := hadv.peek
          unfold rxParseEscapeChar at h ⊢
          cases post with
          | nil =>
              rw [hpeek'] at h
              cases h
          | cons e post =>
              rw [hpeek'] at h ⊢
              cases h
              exact ⟨['\\', e], post, rfl, hadv.advance, rfl, .inr ⟨e, rfl, rfl⟩⟩
      · next d' hne heq =>
          cases heq
          cases h
          exact ⟨[c], post, rfl, hst.advance, rfl, .inl ⟨rfl, hne⟩⟩

theorem Token.body {B : List Char} {c : Char} (h : Token B c) (hne : B.head? ≠ some ']') :
    Body B := by
  rcases h with ⟨rfl, hc⟩ | ⟨e, rfl, -⟩
  · exact body_singleton (fun heq => hne (congrArg some heq)) hc
  · exact .escaped .nil

theorem rxClassRangeTail_sees {st : RxParseState} {post : List Char} (hst : Sees st post)
    {lo : Char} {rng : CharRange} (h : (rxClassRangeTail st lo).rRange = some rng) :
    ∃ B post', post = B ++ post' ∧ Body B ∧ Sees (rxClassRangeTail st lo).st post' ∧
      (rxClassRangeTail st lo).st.input = st.input := by
  have hpeek := hst.peek
  unfold rxClassRangeTail at h ⊢
  cases post with
  | nil =>
      rw [hpeek]
      exact ⟨[], [], rfl, .nil, hst, rfl⟩
  | cons d post =>
      rw [hpeek] at h ⊢
      simp only [List.head?_cons] at h ⊢
      by_cases hd : d = '-'
      · subst hd
        have hat := hst.peekAt (by decide)
        rw [hat] at h ⊢
        simp only at h ⊢
        cases post with
        | nil => cases h
        | cons e post =>
            simp only [List.head?_cons] at h ⊢
            by_cases he : e = ']'
            · subst he
              exact ⟨[], _, rfl, .nil, hst, rfl⟩
            · split at h
              · next heq => exact absurd (Option.some.inj heq) he
              · unfold rxClassRangeHi at h ⊢
                simp only at h ⊢
                split at h
                · cases h
                · next hi hhi =>
                    obtain ⟨B, post', hsplit, hsees, hinput, htok⟩ :=
                      rxClassChar_sees hst.advance hhi
                    have hbody : Body B := by
                      refine Token.body htok ?_
                      rcases htok with ⟨rfl, -⟩ | ⟨x, rfl, -⟩
                      · rw [(List.cons.inj hsplit).1] at he
                        exact fun h => he (Option.some.inj h)
                      · exact fun h => absurd (Option.some.inj h) (by decide)
                    split
                    all_goals exact ⟨'-' :: B, post', by rw [hsplit]; rfl,
                      .plain (by decide) (by decide) hbody, hsees, hinput⟩
              · cases h
      · split
        · next heq => exact absurd (Option.some.inj heq) hd
        · exact ⟨[], _, rfl, .nil, hst, rfl⟩

theorem rxParseClassAtom_sees {st : RxParseState} {post : List Char} (hst : Sees st post)
    (hne : post.head? ≠ some ']') {rng : CharRange}
    (h : (rxParseClassAtom st).rRange = some rng) :
    ∃ B post', post = B ++ post' ∧ Body B ∧ Sees (rxParseClassAtom st).st post' ∧
      (rxParseClassAtom st).st.input = st.input := by
  unfold rxParseClassAtom at h ⊢
  simp only at h ⊢
  split at h
  · cases h
  · next lo hlo =>
      obtain ⟨B, post', rfl, hsees, hinput, htok⟩ := rxClassChar_sees hst hlo
      obtain ⟨B', post'', rfl, hB', hsees', hinput'⟩ := rxClassRangeTail_sees hsees h
      have hB : Body B := by
        refine Token.body htok fun heq => hne ?_
        rcases htok with ⟨rfl, -⟩ | ⟨x, rfl, -⟩ <;> exact heq
      exact ⟨B ++ B', post'', by rw [List.append_assoc], hB.append hB', hsees',
        hinput'.trans hinput⟩

theorem rxParseClassLoop_sees (fuel : Nat) : ∀ {st : RxParseState} {post : List Char}
    {acc : List CharRange} {neg : Bool} {r : PRx} {a : RxAst}, Sees st post →
    rxParseClassLoop fuel st acc neg = some r → r.r = .ok a →
    ∃ B post' rs, post = B ++ ']' :: post' ∧ Body B ∧ Sees r.st post' ∧
      r.st.input = st.input ∧ a = .rxClass rs neg := by
  induction fuel with
  | zero =>
      intro st post acc neg r a _ h
      cases h
  | succ fuel ih =>
      intro st post acc neg r a hst h ha
      rw [rxParseClassLoop, hst.peek] at h
      cases post with
      | nil =>
          cases h
          cases ha
      | cons c post =>
          simp only [List.head?_cons] at h
          split at h
          · next heq => cases heq
          · next heq =>
              cases heq
              split at h
              · cases h
                cases ha
              · cases h
                cases ha
                exact ⟨[], post, _, rfl, .nil, hst.advance, rfl, rfl⟩
          · next hne heq =>
              cases heq
              split at h
              · cases h
                cases ha
              · next rng hrng =>
                  obtain ⟨B, post', hsplit, hB, hsees, hinput⟩ :=
                    rxParseClassAtom_sees hst (fun heq => hne (Option.some.inj heq)) hrng
                  obtain ⟨B', post'', rs, hsplit', hB', hsees', hinput', hast⟩ := ih hsees h ha
                  refine ⟨B ++ B', post'', rs, ?_, hB.append hB', hsees', hinput'.trans hinput, hast⟩
                  rw [hsplit, hsplit', List.append_assoc]

theorem class_after_eq {st : RxParseState} {post : List Char} (hst : Sees st post)
    {stop fuel fuel' : Nat} (hstop : stop ≤ st.input.length) {acc : Mask}
    {accS : List CharRange} {neg neg' : Bool} {item : MaskAt} {r : PRx} {a : RxAst}
    (hc : parseBracketBody fuel st.input st.pos stop acc neg = some item)
    (hs : rxParseClassLoop fuel' st accS neg' = some r) (ha : r.r = .ok a) :
    r.st.pos = item.after ∧ r.st.input = st.input ∧ (∃ post', Sees r.st post') ∧
      ∃ rs, a = .rxClass rs neg' := by
  obtain ⟨B, hB, hdrop, hle⟩ := parseBracketBody_body hstop fuel hc
  obtain ⟨B', post', rs, rfl, hB', hsees, hinput, rfl⟩ := rxParseClassLoop_sees fuel' hst hs ha
  have hsplit : utf8 (B' ++ ']' :: post') = utf8 B' ++ utf8 (']' :: post') := List.flatMap_append
  rw [hst.latin, hsplit, latin_append, utf8_cons, latin_append,
    latin_ascii (by decide : (']' : Char).toNat < 0x80), ← hsees.latin, hinput] at hdrop
  have hrest := hB'.latin.unique hB hdrop
  have hlen := congrArg List.length hrest
  change ((latin st.input).drop r.st.pos).length = _ at hlen
  rw [List.length_drop, List.length_drop, latin, List.length_map] at hlen
  refine ⟨?_, hinput, ⟨post', hsees⟩, rs, rfl⟩
  have hpos := hsees.le
  rw [hinput] at hpos
  omega

end Kaikai.RegexAgree
