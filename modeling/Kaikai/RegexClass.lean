import Kaikai.RegexAgree

namespace Kaikai.RegexClass

open Kaikai.RegexAgree
open Kaikai.RegexEntail
open Kaikai.RegexpLanguage
open Kaikai.RegexpSyntax
open Kaikai.Str
open Kaikai.Utf8

theorem maskHas_maskOf {f : Nat → Bool} {k : Nat} (hk : k < 128) : maskHas (maskOf f) k = f k := by
  rw [maskHas, maskOf, List.getD_eq_getElem?_getD, List.getElem?_map, List.getElem?_range hk]
  rfl

theorem length_maskOf (f : Nat → Bool) : (maskOf f).length = 128 := by
  rw [maskOf, List.length_map, List.length_range]

theorem maskHas_maskSetBit {m : Mask} (hm : m.length = 128) {pos k : Nat} (hk : k < 128) :
    maskHas (maskSetBit m pos) k = (decide (k = pos) || maskHas m k) := by
  rw [maskHas, maskHas, maskSetBit, List.getD_eq_getElem?_getD, List.getD_eq_getElem?_getD]
  by_cases hp : pos = k
  · subst hp
    rw [List.getElem?_set_self (hm ▸ hk)]
    simp
  · rw [List.getElem?_set_ne hp]
    simp [Ne.symm hp]

theorem maskHas_maskSingle (c : Char) {k : Nat} (hk : k < 128) :
    maskHas (maskSingle c) k = decide (k = c.toNat) := by
  unfold maskSingle
  split
  · next hc =>
      rw [maskEmpty, maskHas_maskOf hk, eq_comm, decide_eq_false_iff_not]
      omega
  · rw [maskEmpty, maskHas_maskSetBit (length_maskOf _) hk, maskHas_maskOf hk, Bool.or_false]

/-- A letter that names a class of its own behind a backslash. -/
def isClassLetter (c : Char) : Bool :=
  c = 'd' || c = 'D' || c = 'w' || c = 'W' || c = 's' || c = 'S'

/-- Whether a class, from its inside on, has an escape such as `\d`. -/
def classEscape : List Char → Bool
  | [] => false
  | [_] => false
  | c :: d :: rest =>
      if c = ']' then false
      else if c = '\\' then isClassLetter d || classEscape rest
      else classEscape (d :: rest)

theorem classEscape_cons {c : Char} {rest : List Char} (hc : c ≠ ']') (hc' : c ≠ '\\') :
    classEscape (c :: rest) = classEscape rest := by
  cases rest with
  | nil => rfl
  | cons d rest => rw [classEscape, if_neg hc, if_neg hc']

theorem parseClassEscape_eq {pat : Str} {i stop : Nat} (hlt : i < stop)
    (hc : isClassLetter (charAtOrZero pat i) = false) :
    parseClassEscape pat i stop = some (.bFirst (maskSingle (rxEscapeChar (charAtOrZero pat i)))
      (i + 1) (rxEscapeChar (charAtOrZero pat i))) := by
  unfold parseClassEscape
  rw [if_neg (Nat.not_le.2 hlt)]
  simp only
  generalize charAtOrZero pat i = c at hc
  split
  case h_7 | h_8 | h_9 => rfl
  case h_10 hn ht hr =>
    have hesc : rxEscapeChar c = c := by
      unfold rxEscapeChar
      split
      · exact absurd rfl hn
      · exact absurd rfl ht
      · exact absurd rfl hr
      · rfl
    rw [hesc]
  all_goals exact absurd hc (by decide)

/-- Only ASCII characters. -/
def Ascii (text : List Char) : Prop := ∀ c ∈ text, c.toNat < 0x80

theorem latin_utf8 {text : List Char} (h : Ascii text) : latin (utf8 text) = text := by
  induction text with
  | nil => rfl
  | cons c text ih =>
      rw [utf8_cons, latin_append, latin_ascii (h c List.mem_cons_self),
        ih fun d hd => h d (List.mem_cons_of_mem c hd)]
      rfl

theorem sees_chars {st : RxParseState} {post : List Char} (h : Sees st post) (ha : Ascii post) :
    (latin st.input).drop st.pos = post := by
  rw [h.latin, latin_utf8 ha]

theorem bracketFirst_eq {st : RxParseState} {post : List Char} (hst : Sees st post)
    (ha : Ascii post) (hesc : classEscape post = false) {stop : Nat} {f : BracketFirst}
    (hf : bracketFirst st.input st.pos stop = some f) {c : Char}
    (hc : (rxClassChar st).rChar = some c) : ∃ post', Sees (rxClassChar st).st post' ∧
      (rxClassChar st).st.input = st.input ∧ Ascii post' ∧ classEscape post' = false ∧
      f = .bFirst (maskSingle c) (rxClassChar st).st.pos c ∧ st.pos < (rxClassChar st).st.pos := by
  obtain ⟨B, post', rfl, hsees, hinput, htok⟩ := rxClassChar_sees hst hc
  have ha' : Ascii post' := fun d hd => ha d (List.mem_append_right B hd)
  have hchars := sees_chars hst ha
  unfold bracketFirst at hf
  simp only at hf
  rcases htok with ⟨rfl, hne⟩ | ⟨e, rfl, rfl⟩
  · have hpos : (rxClassChar st).st.pos = st.pos + 1 := by
      unfold rxClassChar
      rw [hst.peek]
      simp only [List.singleton_append, List.head?_cons]
      exact Sees.advance_pos hst (ha c List.mem_cons_self)
    rw [charAtOrZero_eq hchars, if_neg hne] at hf
    split at hf
    · cases hf
    · next hclose =>
        rw [Bool.or_eq_true, decide_eq_true_eq, decide_eq_true_eq, not_or] at hclose
        cases hf
        rw [List.singleton_append, classEscape_cons hclose.1 hne] at hesc
        exact ⟨post', hsees, hinput, ha', hesc, by rw [hpos], by omega⟩
  · have he := ha e (List.mem_cons_of_mem _ List.mem_cons_self)
    have hpos : (rxClassChar st).st.pos = st.pos + 2 := by
      have hadv := hst.advance
      unfold rxClassChar rxParseEscapeChar
      rw [hst.peek]
      simp only [List.cons_append, List.head?_cons, hadv.peek]
      change (rxAdvance (rxAdvance st)).pos = st.pos + 2
      rw [Sees.advance_pos hadv he, Sees.advance_pos hst (by decide)]
    rw [List.cons_append, List.cons_append, List.nil_append, classEscape, if_neg (by decide),
      if_pos rfl, Bool.or_eq_false_iff] at hesc
    have hnext : (latin st.input).drop (st.pos + 1) = e :: post' := by
      rw [← List.drop_drop, hchars]
      rfl
    rw [charAtOrZero_eq hchars, if_pos rfl] at hf
    have hlt := (parseClassEscape_after hf).1
    rw [parseClassEscape_eq hlt (by rw [charAtOrZero_eq hnext]; exact hesc.1),
      charAtOrZero_eq hnext] at hf
    cases hf
    exact ⟨post', hsees, hinput, ha', hesc.2, by rw [hpos], by omega⟩

theorem parseBracketBody_stop {pat : Str} {i stop fuel : Nat} {acc : Mask} {neg : Bool}
    (h : i ≥ stop) : parseBracketBody fuel pat i stop acc neg = none := by
  cases fuel with
  | zero => rfl
  | succ fuel => rw [parseBracketBody, if_pos h]

theorem parseBracketBody_last {pat : Str} {i stop fuel : Nat} {acc : Mask} {neg : Bool}
    (hi : charAtOrZero pat i = '-') (h : i + 1 ≥ stop) :
    parseBracketBody fuel pat i stop acc neg = none := by
  cases fuel with
  | zero => rfl
  | succ fuel =>
      rw [parseBracketBody]
      split
      · rfl
      · next hlt =>
          rw [hi, if_neg (by decide), parseBracketItem, if_neg hlt, bracketFirst]
          simp only [hi]
          rw [if_neg (by decide), if_neg (by decide), Option.bind_eq_bind, Option.bind_eq_bind,
            Option.bind_some, bracketExtend]
          rw [if_neg (by simp; omega), Option.bind_some]
          exact parseBracketBody_stop h

theorem rxClassChar_plain {st : RxParseState} {c : Char} {post : List Char}
    (hst : Sees st (c :: post)) (hc : c ≠ '\\') : rxClassChar st = ⟨rxAdvance st, some c⟩ := by
  unfold rxClassChar
  rw [hst.peek]
  simp only [List.head?_cons]

theorem bracketExtend_eq {st : RxParseState} {post : List Char} (hst : Sees st post)
    (ha : Ascii post) (hesc : classEscape post = false) {stop : Nat}
    (hstop : stop + 1 = st.input.length) {lo : Char} {item : MaskAt}
    (hi : bracketExtend st.input (.bFirst (maskSingle lo) st.pos lo) stop = some item)
    {rng : CharRange} (hr : (rxClassRangeTail st lo).rRange = some rng) {fuel : Nat} {acc : Mask}
    {neg : Bool} {last : MaskAt}
    (hcont : parseBracketBody fuel st.input item.after stop acc neg = some last) :
    ∃ post', Sees (rxClassRangeTail st lo).st post' ∧ (rxClassRangeTail st lo).st.input = st.input ∧
      Ascii post' ∧ classEscape post' = false ∧ item.after = (rxClassRangeTail st lo).st.pos ∧
      ∀ k < 128, maskHas item.mask k = (decide (rng.lo.toNat ≤ k) && decide (k ≤ rng.hi.toNat)) := by
  have hchars := sees_chars hst ha
  have hsingle : ∀ k < 128, maskHas (maskSingle lo) k =
      (decide (lo.toNat ≤ k) && decide (k ≤ lo.toNat)) := by
    intro k hk
    rw [maskHas_maskSingle lo hk, ← Bool.decide_and]
    exact decide_eq_decide.2 (by omega)
  unfold bracketExtend at hi
  unfold rxClassRangeTail at hr ⊢
  simp only at hi
  rw [hst.peek] at hr ⊢
  cases post with
  | nil =>
      have hge : st.pos ≥ st.input.length := by
        have := hst.ge
        rwa [hst.n_eq] at this
      rw [if_neg (by simp; omega)] at hi
      cases hi
      cases hr
      exact ⟨[], hst, rfl, ha, hesc, rfl, hsingle⟩
  | cons d rest =>
      have hhead := charAtOrZero_eq hchars
      by_cases hd : d = '-'
      · subst hd
        simp only [List.head?_cons] at hr ⊢
        rw [hst.peekAt (by decide)] at hr ⊢
        have hnext : (latin st.input).drop (st.pos + 1) = rest := by
          rw [← List.drop_drop, hchars]
          rfl
        cases rest with
        | nil => cases hr
        | cons e rest =>
            have he := charAtOrZero_eq hnext
            by_cases hclose : e = ']'
            · subst hclose
              rw [if_neg (by simp [he])] at hi
              cases hi
              cases hr
              exact ⟨_, hst, rfl, ha, hesc, rfl, hsingle⟩
            · have hadv := hst.advance
              have hea : e.toNat < 0x80 := ha e (List.mem_cons_of_mem _ List.mem_cons_self)
              simp only [List.head?_cons] at hr ⊢
              by_cases hin : st.pos + 1 < stop
              · rw [if_pos (by simp [hhead, he, hclose]; omega), bracketRange] at hi
                simp only [he] at hi
                split at hi
                · cases hi
                · next hback =>
                    split at hi
                    · cases hi
                    · next hle =>
                        unfold rxClassRangeHi at hr ⊢
                        simp only [rxClassChar_plain hadv hback, if_neg hle] at hr ⊢
                        cases hi
                        cases hr
                        rw [classEscape_cons (by decide) (by decide),
                          classEscape_cons hclose hback] at hesc
                        refine ⟨rest, hadv.advance, rfl,
                          fun x hx => ha x (List.mem_cons_of_mem _ (List.mem_cons_of_mem _ hx)),
                          hesc, ?_, ?_⟩
                        · change st.pos + 2 = (rxAdvance (rxAdvance st)).pos
                          rw [hadv.advance_pos hea, hst.advance_pos (by decide)]
                        · intro k hk
                          change maskHas (maskRange lo e) k = _
                          rw [maskRange, maskHas_maskOf hk]
              · rw [if_neg (by simp; omega)] at hi
                cases hi
                rw [parseBracketBody_last hhead (Nat.le_of_not_lt hin)] at hcont
                cases hcont
      · rw [if_neg (by simp [hhead, hd])] at hi
        cases hi
        simp only [List.head?_cons] at hr ⊢
        split at hr
        · next heq => exact absurd (Option.some.inj heq) hd
        · cases hr
          exact ⟨_, hst, rfl, ha, hesc, rfl, hsingle⟩

theorem parseBracketItem_eq {st : RxParseState} {post : List Char} (hst : Sees st post)
    (ha : Ascii post) (hesc : classEscape post = false) {stop : Nat}
    (hstop : stop + 1 = st.input.length) {item : MaskAt}
    (hi : parseBracketItem st.input st.pos stop = some item) {rng : CharRange}
    (hr : (rxParseClassAtom st).rRange = some rng) {fuel : Nat} {acc : Mask} {neg : Bool}
    {last : MaskAt} (hcont : parseBracketBody fuel st.input item.after stop acc neg = some last) :
    ∃ post', Sees (rxParseClassAtom st).st post' ∧ (rxParseClassAtom st).st.input = st.input ∧
      Ascii post' ∧ classEscape post' = false ∧ item.after = (rxParseClassAtom st).st.pos ∧
      ∀ k < 128, maskHas item.mask k = (decide (rng.lo.toNat ≤ k) && decide (k ≤ rng.hi.toNat)) := by
  unfold parseBracketItem at hi
  split at hi
  · cases hi
  · rw [Option.bind_eq_bind, Option.bind_eq_some_iff] at hi
    obtain ⟨f, hf, hext⟩ := hi
    cases hlo : (rxClassChar st).rChar with
    | none =>
        unfold rxParseClassAtom at hr
        simp only [hlo] at hr
        cases hr
    | some lo =>
        have hatom : rxParseClassAtom st = rxClassRangeTail (rxClassChar st).st lo := by
          unfold rxParseClassAtom
          simp only [hlo]
        rw [hatom] at hr ⊢
        obtain ⟨post1, hsees, hinput, ha1, hesc1, rfl, -⟩ := bracketFirst_eq hst ha hesc hf hlo
        rw [← hinput] at hext hcont hstop ⊢
        exact bracketExtend_eq hsees ha1 hesc1 hstop hext hr hcont

theorem inClass_cons (r : CharRange) (rs : List CharRange) (d : Char) :
    inClass (r :: rs) d = ((decide (r.lo.toNat ≤ d.toNat) && decide (d.toNat ≤ r.hi.toNat)) ||
      inClass rs d) := rfl

theorem parseBracketBody_eq {stop : Nat} {neg : Bool} (fuel : Nat) : ∀ {fuel' : Nat}
    {st : RxParseState} {post : List Char} {acc : Mask} {accS : List CharRange} {item : MaskAt}
    {r : PRx} {a : RxAst}, Sees st post → Ascii post → classEscape post = false →
    stop + 1 = st.input.length →
    (∀ d : Char, d.toNat < 128 → maskHas acc d.toNat = inClass accS d) →
    parseBracketBody fuel st.input st.pos stop acc neg = some item →
    rxParseClassLoop fuel' st accS neg = some r → r.r = .ok a →
    ∃ rs, a = .rxClass rs neg ∧
      ∀ d : Char, d.toNat < 128 → maskHas item.mask d.toNat = decide (inClass rs d ≠ neg) := by
  induction fuel with
  | zero =>
      intro fuel' st post acc accS item r a _ _ _ _ _ h
      cases h
  | succ fuel ih =>
      intro fuel' st post acc accS item r a hst ha hesc hstop hacc h hr hok
      have hchars := sees_chars hst ha
      cases fuel' with
      | zero => cases hr
      | succ fuel' =>
          rw [parseBracketBody] at h
          rw [rxParseClassLoop, hst.peek] at hr
          split at h
          · cases h
          · split at h
            · next hclose =>
                cases h
                cases post with
                | nil =>
                    cases hr
                    cases hok
                | cons c post =>
                    rw [charAtOrZero_eq hchars] at hclose
                    subst hclose
                    simp only [List.head?_cons] at hr
                    split at hr
                    · cases hr
                      cases hok
                    · cases hr
                      cases hok
                      refine ⟨accS.reverse, rfl, fun d hd => ?_⟩
                      have hrev : inClass accS.reverse d = inClass accS d := List.any_reverse
                      rw [hrev]
                      cases neg with
                      | false => simp [hacc d hd]
                      | true => simp [maskInvert, maskHas_maskOf hd, hacc d hd]
            · next hopen =>
                rw [Option.bind_eq_bind, Option.bind_eq_some_iff] at h
                obtain ⟨it, hit, hcont⟩ := h
                cases post with
                | nil =>
                    cases hr
                    cases hok
                | cons c post =>
                    rw [charAtOrZero_eq hchars] at hopen
                    simp only [List.head?_cons] at hr
                    split at hr
                    · cases hr
                      cases hok
                    · next rng hrng =>
                        obtain ⟨post', hsees, hinput, ha', hesc', hafter, hmask⟩ :=
                          parseBracketItem_eq hst ha hesc hstop hit hrng hcont
                        rw [hafter, ← hinput] at hcont
                        refine ih hsees ha' hesc' (by rw [hinput]; exact hstop) (fun d hd => ?_)
                          hcont hr hok
                        rw [maskOr, maskHas_maskOf hd, inClass_cons, hmask _ hd, hacc d hd,
                          Bool.or_comm]

end Kaikai.RegexClass
