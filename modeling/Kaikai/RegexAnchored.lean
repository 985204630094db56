import Kaikai.RegexClass

namespace Kaikai.RegexAnchored

open Kaikai.RegexAgree
open Kaikai.RegexClass
open Kaikai.RegexEntail
open Kaikai.RegexpLanguage
open Kaikai.RegexpSyntax
open Kaikai.Str
open Kaikai.Utf8

theorem sees_byte {st : RxParseState} {c : Char} {post : List Char} (h : Sees st (c :: post)) :
    (c.toNat < 0x80 ∧ charAtOrZero st.input st.pos = c) ∨
      (0x80 ≤ c.toNat ∧ 0x80 ≤ (charAtOrZero st.input st.pos).toNat) := by
  have hlatin := h.latin
  rw [utf8_cons, latin_append] at hlatin
  by_cases hc : c.toNat < 0x80
  · rw [latin_ascii hc] at hlatin
    exact .inl ⟨hc, charAtOrZero_eq hlatin⟩
  · have hhigh := latin_high (Nat.le_of_not_lt hc)
    cases hbytes : latin (String.utf8EncodeChar c) with
    | nil =>
        rw [latin, List.map_eq_nil_iff] at hbytes
        exact absurd hbytes (utf8EncodeChar_ne_nil c)
    | cons d ds =>
        rw [hbytes] at hlatin hhigh
        rw [charAtOrZero_eq hlatin]
        exact .inr ⟨Nat.le_of_not_lt hc, hhigh d List.mem_cons_self⟩

theorem sees_ascii {st : RxParseState} {c x : Char} {post : List Char} (h : Sees st (c :: post))
    (hx : charAtOrZero st.input st.pos = x) (hlt : x.toNat < 0x80) : c = x := by
  rcases sees_byte h with ⟨-, heq⟩ | ⟨-, hge⟩
  · exact heq.symm.trans hx
  · rw [hx] at hge
    omega

theorem high_second {c : Char} (hc : 0x80 ≤ c.toNat) :
    ∃ d e ds, latin (String.utf8EncodeChar c) = d :: e :: ds ∧ 0x80 ≤ e.toNat := by
  have hhigh := latin_high hc
  have hlen : 2 ≤ (latin (String.utf8EncodeChar c)).length := by
    have h1 : ¬ c.val.toNat ≤ 0x7f := Nat.not_le.2 hc
    rw [latin, List.length_map]
    unfold String.utf8EncodeChar
    simp only [if_neg h1]
    split
    · exact le_rfl
    · split <;> simp
  rcases hl : latin (String.utf8EncodeChar c) with _ | ⟨d, _ | ⟨e, ds⟩⟩
  · simp [hl] at hlen
  · simp [hl] at hlen
  · rw [hl] at hhigh
    exact ⟨d, e, ds, rfl, hhigh e (List.mem_cons_of_mem d List.mem_cons_self)⟩

theorem parseQuant_high {pat : Str} {i stop : Nat} (hi : i < stop)
    (hc : 0x80 ≤ (charAtOrZero pat i).toNat) : parseQuant pat i stop = some ⟨"1", i⟩ := by
  unfold parseQuant
  rw [if_neg (Nat.not_le.2 hi)]
  generalize charAtOrZero pat i = c at hc
  split
  case h_5 => rfl
  all_goals exact absurd hc (by decide)

theorem parseQuant_inside {st : RxParseState} {c : Char} {post : List Char}
    (h : Sees st (c :: post)) (hc : 0x80 ≤ c.toNat) {stop : Nat}
    (hend : charAtOrZero st.input stop = '$') (hlt : st.pos < stop) {q : QShape}
    (hq : parseQuant st.input (st.pos + 1) stop = some q) : q.after ≠ stop := by
  obtain ⟨d, e, ds, hbytes, he⟩ := high_second hc
  have hlatin := h.latin
  rw [utf8_cons, latin_append, hbytes] at hlatin
  have hnext : (latin st.input).drop (st.pos + 1) = e :: (ds ++ latin (utf8 post)) := by
    rw [← List.drop_drop, hlatin]
    rfl
  have hbyte := charAtOrZero_eq hnext
  have hne : st.pos + 1 ≠ stop := by
    rintro rfl
    rw [hbyte] at hend
    rw [hend] at he
    exact absurd he (by decide)
  rw [parseQuant_high (by omega) (by rwa [hbyte])] at hq
  cases hq
  exact hne

theorem isDigit_high {c : Char} (hc : 0x80 ≤ c.toNat) : isDigit c = false := by
  unfold isDigit
  rw [Bool.and_eq_false_iff]
  refine .inr (decide_eq_false ?_)
  intro hle
  have hnat : c.toNat ≤ ('9' : Char).toNat := hle
  exact absurd (Nat.le_trans hc hnat) (by decide)

theorem chIsDigit_eq {st : RxParseState} {c : Char} {post : List Char} (h : Sees st (c :: post)) :
    chIsDigit (charAtOrZero st.input st.pos) = isDigit c := by
  rcases sees_byte h with ⟨-, heq⟩ | ⟨hc, hbyte⟩
  · rw [heq]
    rfl
  · rw [isDigit_high hc]
    exact isDigit_high hbyte

theorem parsePatIntLoop_eq {stop : Nat} (left : Nat) : ∀ {fuel : Nat} {st : RxParseState}
    {post : List Char} {acc accS : Int} {any : Bool} {ip : IntParse} {r : RxIntParse},
    Sees st post → left = stop - st.pos → st.pos ≤ stop → charAtOrZero st.input stop = '$' →
    stop < st.input.length → 0 ≤ accS → (accS > rxMaxRepeat ∨ acc = accS) →
    parsePatIntLoop left st.input st.pos acc any = some ip →
    rxParseIntLoop fuel st accS any = some r →
    (∃ post', Sees r.st post') ∧ r.st.input = st.input ∧ r.st.pos = ip.after ∧ ip.after ≤ stop ∧
      ∃ v, r.rInt = some v ∧ 0 ≤ v ∧ (v > rxMaxRepeat ∨ ip.value = v) := by
  induction left with
  | zero =>
      intro fuel st post acc accS any ip r hst hleft hle hend hstop hpos hacc h hr
      have heq : st.pos = stop := by omega
      have hdigit : ∀ c, rxPeek st = some c → isDigit c = false := by
        intro c hc
        rw [hst.peek] at hc
        cases post with
        | nil => cases hc
        | cons d post =>
            cases hc
            rw [← chIsDigit_eq hst, heq, hend]
            decide
      rw [parsePatIntLoop] at h
      cases fuel with
      | zero => cases hr
      | succ fuel =>
          have hdone : rxParseIntLoop (fuel + 1) st accS any = some (rxIntDone st accS any) := by
            rw [rxParseIntLoop]
            cases hpeek : rxPeek st with
            | none => rfl
            | some c =>
                simp only
                rw [if_neg (by simp [hdigit c hpeek])]
          rw [hdone] at hr
          cases hr
          cases any with
          | false => cases h
          | true =>
              cases h
              exact ⟨⟨post, hst⟩, rfl, rfl, hle, accS, rfl, hpos, hacc⟩
  | succ left ih =>
      intro fuel st post acc accS any ip r hst hleft hle hend hstop hpos hacc h hr
      have hlt : st.pos < stop := by omega
      cases post with
      | nil =>
          have := hst.ge
          rw [hst.n_eq] at this
          omega
      | cons c post =>
          have hdig := chIsDigit_eq hst
          cases fuel with
          | zero => cases hr
          | succ fuel =>
              rw [parsePatIntLoop] at h
              rw [rxParseIntLoop, hst.peek] at hr
              simp only [List.head?_cons] at h hr
              by_cases hd : isDigit c = true
              · rw [hdig, if_pos hd] at h
                rw [if_pos hd] at hr
                have hc : c.toNat < 0x80 := by
                  by_contra hge
                  rw [isDigit_high (Nat.le_of_not_lt hge)] at hd
                  cases hd
                have hbyte : charAtOrZero st.input st.pos = c := by
                  rcases sees_byte hst with ⟨-, heq⟩ | ⟨hge, -⟩
                  · exact heq
                  · omega
                have hbounds := isDigit_bounds hd
                have hadv := hst.advance_pos hc
                rw [← hadv, hbyte] at h
                refine @ih fuel (rxAdvance st) post _ _ _ _ _ hst.advance (by rw [hadv]; omega) (by omega) hend
                  hstop ?_ ?_ h hr
                · split <;> omega
                · by_cases hbig : accS > rxMaxRepeat
                  · rw [if_pos hbig]
                    exact .inl hbig
                  · rw [if_neg hbig]
                    right
                    rw [hacc.resolve_left hbig]
                    unfold rxMaxRepeat at hbig
                    have h0 : (('0' : Char).toNat : Int) = 48 := rfl
                    rw [h0] at hbounds ⊢
                    rw [Word64.mul_eq (by omega) (by omega), Word64.add_eq (by omega) (by omega),
                      Word64.sub_eq (by omega) (by omega)]
                    omega
              · rw [hdig, if_neg hd] at h
                rw [if_neg hd] at hr
                cases hr
                cases any with
                | false => cases h
                | true =>
                    cases h
                    exact ⟨⟨_, hst⟩, rfl, rfl, hle, accS, rfl, hpos, hacc⟩

/-- A quantifier's text and what the engine makes of it. -/
inductive Quantified (x : RxAst) : String → RxAst → Prop where
  | one : Quantified x "1" x
  | plus : Quantified x "+" (.rxPlus x)
  | star : Quantified x "*" (.rxStar x)
  | opt : Quantified x "?" (.rxOpt x)
  | atLeast {lo : Int} : 0 ≤ lo → Quantified x (toString lo ++ ",") (.rxRepeat x lo none)
  | between {lo hi : Int} : 0 ≤ lo → lo ≤ hi →
      Quantified x (toString lo ++ "," ++ toString hi) (.rxRepeat x lo (some hi))

/-- What both readers have agreed on behind a quantified atom. -/
structure Behind (st st' : RxParseState) (stop : Nat) : Prop where
  sees : ∃ post, Sees st' post
  input_eq : st'.input = st.input
  pos_eq : st'.pos = stop

theorem parseRepeatHi_eq {st : RxParseState} {post : List Char} (hst : Sees st (',' :: post))
    {stop : Nat} (hle : st.pos < stop) (hend : charAtOrZero st.input stop = '$')
    (hstop : stop < st.input.length) {x ast : RxAst} {lo : Int} (hlo : 0 ≤ lo)
    {q : QShape} (hq : parseRepeatHi st.input lo st.pos stop = some q) {r : PRx}
    (hr : rxParseRepeatUpper (rxAdvance st) x lo = some r) (hok : r.r = .ok ast) :
    Quantified x q.quant ast ∧ Behind st r.st q.after := by
  have hpos := hst.advance_pos (by decide : (',' : Char).toNat < 0x80)
  have hadv := hst.advance
  have hpeek := hadv.peek
  unfold parseRepeatHi at hq
  unfold rxParseRepeatUpper at hr
  rw [hpeek] at hr
  cases post with
  | nil =>
      cases hr
      cases hok
  | cons c post =>
      simp only [List.head?_cons] at hr
      by_cases hc : c = '}'
      · subst hc
        have hbyte : charAtOrZero st.input (st.pos + 1) = '}' := by
          rw [← hpos]
          rcases sees_byte hadv with ⟨-, heq⟩ | ⟨hge, -⟩
          · exact heq
          · exact absurd hge (by decide)
        have hlt : st.pos + 1 < stop := by
          have hne : st.pos + 1 ≠ stop := by
            rintro rfl
            rw [hbyte] at hend
            exact absurd hend (by decide)
          omega
        rw [if_pos (by simp [hbyte, hlt])] at hq
        cases hq
        cases hr
        cases hok
        refine ⟨.atLeast hlo, ⟨⟨post, hadv.advance⟩, rfl, ?_⟩⟩
        change (rxAdvance (rxAdvance st)).pos = st.pos + 2
        rw [hadv.advance_pos (by decide), hpos]
      · have hbyte : charAtOrZero st.input (st.pos + 1) ≠ '}' := fun h =>
          hc (sees_ascii hadv (by rw [hpos]; exact h) (by decide))
        rw [if_neg (by simp [hbyte])] at hq
        split at hr
        · next heq => cases heq
        · next heq => exact absurd (Option.some.inj heq) hc
        · rw [Option.bind_eq_bind, Option.bind_eq_some_iff] at hq hr
          obtain ⟨hi, hhi, hclose⟩ := hq
          obtain ⟨rh, hrh, hr⟩ := hr
          rw [← hpos] at hhi
          obtain ⟨⟨post', hsees⟩, hinput, hafter, hle', v, hv, hv0, hval⟩ :=
            parsePatIntLoop_eq _ hadv rfl (by omega) hend hstop le_rfl (.inr rfl) hhi hrh
          rw [hv] at hr
          simp only at hr
          split at hr
          · cases hr
            cases hok
          · next hbig =>
              split at hr
              · cases hr
                cases hok
              · next hlow =>
                  unfold closeRepeat at hclose
                  rw [hval.resolve_left hbig, if_neg hlow] at hclose
                  split at hclose
                  · cases hclose
                  · split at hclose
                    · cases hclose
                    · next hbrace =>
                        rw [ne_eq, not_not] at hbrace
                        cases hclose
                        rw [hsees.peek] at hr
                        cases post' with
                        | nil =>
                            cases hr
                            cases hok
                        | cons e post' =>
                            have he := sees_ascii (x := '}') hsees
                              (by rw [hinput, hafter]; exact hbrace) (by decide)
                            subst he
                            cases hr
                            cases hok
                            refine ⟨.between hlo (Int.le_of_not_gt hlow),
                              ⟨⟨post', hsees.advance⟩, hinput, ?_⟩⟩
                            change (rxAdvance rh.st).pos = hi.after + 1
                            rw [hsees.advance_pos (by decide), hafter]

theorem parseRepeatQuant_eq {st : RxParseState} {post : List Char} (hst : Sees st post)
    {stop : Nat} (hle : st.pos ≤ stop) (hend : charAtOrZero st.input stop = '$')
    (hstop : stop < st.input.length) {x ast : RxAst} {q : QShape}
    (hq : parseRepeatQuant st.input st.pos stop = some q) {r : PRx}
    (hr : rxParseRepeat st x = some r) (hok : r.r = .ok ast) :
    Quantified x q.quant ast ∧ Behind st r.st q.after := by
  unfold parseRepeatQuant at hq
  unfold rxParseRepeat at hr
  rw [Option.bind_eq_bind, Option.bind_eq_some_iff] at hq hr
  obtain ⟨lo, hlo, htail⟩ := hq
  obtain ⟨rn, hrn, hr⟩ := hr
  obtain ⟨⟨post', hsees⟩, hinput, hafter, hle', v, hv, hv0, hval⟩ :=
    parsePatIntLoop_eq _ hst rfl hle hend hstop le_rfl (.inr rfl) hlo hrn
  rw [hv] at hr
  simp only at hr
  split at hr
  · cases hr
    cases hok
  · next hbig =>
      split at htail
      · cases htail
      · next hlt =>
          have hvalue := hval.resolve_left hbig
          rw [hvalue, ← hafter, ← hinput] at htail
          unfold parseRepeatTail at htail
          unfold rxParseRepeatTail at hr
          rw [hsees.peek] at hr
          cases post' with
          | nil =>
              cases hr
              cases hok
          | cons c post' =>
              simp only [List.head?_cons] at hr
              split at htail
              · next hbrace =>
                  have hc := sees_ascii hsees hbrace (by decide)
                  subst hc
                  cases htail
                  cases hr
                  cases hok
                  refine ⟨.between hv0 le_rfl, ⟨⟨post', hsees.advance⟩, hinput, ?_⟩⟩
                  exact hsees.advance_pos (by decide)
              · next hcomma =>
                  have hc := sees_ascii hsees hcomma (by decide)
                  subst hc
                  obtain ⟨hquant, hbehind⟩ := parseRepeatHi_eq hsees (by omega)
                    (by rw [hinput]; exact hend) (by rw [hinput]; exact hstop) hv0 htail hr hok
                  exact ⟨hquant, hbehind.sees, hbehind.input_eq.trans hinput, hbehind.pos_eq⟩
              · cases htail

theorem parseQuant_eq {st : RxParseState} {post : List Char} (hst : Sees st post) {stop : Nat}
    (hend : charAtOrZero st.input stop = '$')
    (hstop : stop < st.input.length) {x ast : RxAst} {q : QShape}
    (hq : parseQuant st.input st.pos stop = some q) (hafter : q.after = stop) {r : PRx}
    (hr : rxApplyQuantifier st x = some r) (hok : r.r = .ok ast) :
    Quantified x q.quant ast ∧ Behind st r.st stop := by
  have hnone : st.pos = stop → q = ⟨"1", st.pos⟩ →
      Quantified x q.quant ast ∧ Behind st r.st stop := by
    rintro heq rfl
    have hr' : rxApplyQuantifier st x = some (rxOk st x) := by
      unfold rxApplyQuantifier
      rw [hst.peek]
      cases post with
      | nil => rfl
      | cons c post =>
          have hc := sees_ascii (x := '$') hst (by rw [heq]; exact hend) (by decide)
          subst hc
          rfl
    rw [hr'] at hr
    cases hr
    cases hok
    exact ⟨.one, ⟨post, hst⟩, rfl, heq⟩
  unfold parseQuant at hq
  split at hq
  · next hge =>
      cases hq
      exact hnone hafter rfl
  · next hlt =>
      cases post with
      | nil =>
          have := hst.ge
          rw [hst.n_eq] at this
          omega
      | cons c post =>
          unfold rxApplyQuantifier at hr
          rw [hst.peek] at hr
          simp only [List.head?_cons] at hr
          split at hq
          · next hbyte =>
              have hc := sees_ascii hst hbyte (by decide)
              subst hc
              cases hq
              cases hr
              cases hok
              exact ⟨.plus, ⟨post, hst.advance⟩, rfl,
                (hst.advance_pos (by decide)).trans hafter⟩
          · next hbyte =>
              have hc := sees_ascii hst hbyte (by decide)
              subst hc
              cases hq
              cases hr
              cases hok
              exact ⟨.star, ⟨post, hst.advance⟩, rfl,
                (hst.advance_pos (by decide)).trans hafter⟩
          · next hbyte =>
              have hc := sees_ascii hst hbyte (by decide)
              subst hc
              cases hq
              cases hr
              cases hok
              exact ⟨.opt, ⟨post, hst.advance⟩, rfl,
                (hst.advance_pos (by decide)).trans hafter⟩
          · next hbyte =>
              have hc := sees_ascii hst hbyte (by decide)
              subst hc
              have hpos := hst.advance_pos (by decide : ('{' : Char).toNat < 0x80)
              rw [← hpos] at hq
              obtain ⟨hquant, hbehind⟩ := parseRepeatQuant_eq hst.advance (by omega) hend hstop
                hq hr hok
              exact ⟨hquant, hbehind.sees, hbehind.input_eq, hbehind.pos_eq.trans hafter⟩
          · cases hq
            exact hnone hafter rfl

/-- An AST that reads one character. -/
def IsAtom : RxAst → Prop
  | .rxChar _ => True
  | .rxAny => True
  | .rxClass _ _ => True
  | _ => False

def atomReads : RxAst → Char → Bool
  | .rxChar c, d => d = c
  | .rxAny, d => d ≠ '\n'
  | .rxClass rs neg, d => inClass rs d ≠ neg
  | _, _ => false

/-- The mask of an atom is the ASCII part of what the engine reads. -/
def MaskReads (m : Mask) (x : RxAst) : Prop :=
  ∀ d : Char, d.toNat < 128 → maskHas m d.toNat = atomReads x d

theorem maskReads_char (c : Char) : MaskReads (maskSingle c) (.rxChar c) := by
  intro d hd
  rw [maskHas_maskSingle c hd]
  exact decide_eq_decide.2 Char.toNat_inj

theorem maskReads_any : MaskReads maskDot .rxAny := by
  intro d hd
  rw [maskDot, maskInvert, maskHas_maskOf hd, maskHas_maskSingle _ hd, atomReads, ← decide_not]
  exact decide_eq_decide.2 (not_congr Char.toNat_inj)

theorem maskReads_range (lo hi : Char) : MaskReads (maskRange lo hi) (.rxClass [⟨lo, hi⟩] false) := by
  intro d hd
  rw [maskRange, maskHas_maskOf hd, atomReads, inClass_cons]
  simp [inClass]

theorem reads_setBit {m : Mask} (hm : m.length = 128) (x : Char) {d : Char} (hd : d.toNat < 128) :
    maskHas (maskSetBit m x.toNat) d.toNat =
      (decide (x.toNat ≤ d.toNat) && decide (d.toNat ≤ x.toNat) || maskHas m d.toNat) := by
  rw [maskHas_maskSetBit hm hd, ← Bool.decide_and]
  congr 1
  exact decide_eq_decide.2 (by omega)

theorem length_maskSetBit (m : Mask) (pos : Nat) : (maskSetBit m pos).length = m.length :=
  List.length_set

theorem maskReads_word : MaskReads maskWord (.rxClass rxWordRanges false) := by
  intro d hd
  simp only [maskWord, maskOr, maskRange]
  rw [reads_setBit (length_maskOf _) _ hd, maskHas_maskOf hd, maskHas_maskOf hd, maskHas_maskOf hd,
    maskHas_maskOf hd, maskHas_maskOf hd, atomReads, rxWordRanges, inClass_cons, inClass_cons,
    inClass_cons, inClass_cons]
  have hnil : inClass [] d = false := rfl
  simp only [hnil, Bool.or_false, ne_eq, Bool.not_eq_false, Bool.decide_eq_true]
  ac_rfl

theorem maskReads_space : MaskReads maskSpace (.rxClass rxSpaceRanges false) := by
  intro d hd
  have hempty : maskEmpty.length = 128 := length_maskOf _
  rw [maskSpace, reads_setBit (by simp only [length_maskSetBit, hempty]) _ hd,
    reads_setBit (by simp only [length_maskSetBit, hempty]) _ hd,
    reads_setBit (by simp only [length_maskSetBit, hempty]) _ hd, reads_setBit hempty _ hd,
    maskEmpty, maskHas_maskOf hd, atomReads, rxSpaceRanges, inClass_cons, inClass_cons,
    inClass_cons, inClass_cons]
  have hnil : inClass [] d = false := rfl
  simp only [hnil, Bool.or_false, ne_eq, Bool.not_eq_false, Bool.decide_eq_true]
  ac_rfl

theorem MaskReads.invert {m : Mask} {rs : List CharRange} (h : MaskReads m (.rxClass rs false)) :
    MaskReads (maskInvert m) (.rxClass rs true) := by
  intro d hd
  rw [maskInvert, maskHas_maskOf hd, h d hd, atomReads, atomReads]
  cases inClass rs d <;> rfl

theorem rxEscapeAst_isAtom (c : Char) : IsAtom (rxEscapeAst c) := by
  unfold rxEscapeAst
  split <;> trivial

theorem parseEscapeAtom_eq {pat : Str} {i stop : Nat} {m : MaskAt}
    (h : parseEscapeAtom pat i stop = some m) : i < stop ∧ m.after = i + 1 ∧
      MaskReads m.mask (rxEscapeAst (charAtOrZero pat i)) := by
  unfold parseEscapeAtom at h
  split at h
  · cases h
  · next hlt =>
      refine ⟨Nat.lt_of_not_le hlt, ?_⟩
      simp only at h
      generalize charAtOrZero pat i = c at h
      split at h
      case h_1 => cases h; exact ⟨rfl, maskReads_range '0' '9'⟩
      case h_2 => cases h; exact ⟨rfl, (maskReads_range '0' '9').invert⟩
      case h_3 => cases h; exact ⟨rfl, maskReads_word⟩
      case h_4 => cases h; exact ⟨rfl, maskReads_word.invert⟩
      case h_5 => cases h; exact ⟨rfl, maskReads_space⟩
      case h_6 => cases h; exact ⟨rfl, maskReads_space.invert⟩
      case h_7 => cases h; exact ⟨rfl, maskReads_char '\n'⟩
      case h_8 => cases h; exact ⟨rfl, maskReads_char '\t'⟩
      case h_9 => cases h; exact ⟨rfl, maskReads_char '\r'⟩
      case h_10 =>
          cases h
          refine ⟨rfl, ?_⟩
          have hesc : rxEscapeAst c = .rxChar c := by
            unfold rxEscapeAst
            split
            case h_7 =>
                unfold rxEscapeChar
                split
                case h_4 => rfl
                all_goals contradiction
            all_goals contradiction
          rw [hesc]
          exact maskReads_char c

/-- A class without class escapes, in a text that is ASCII. -/
def PlainClass (text : List Char) : Prop :=
  text.head? = some '[' → Ascii text ∧ classEscape text.tail = false

/-- What both readers have agreed on of an atom. -/
structure SameAtom (st : RxParseState) (post : List Char) (m : MaskAt) (r : PRx) (x : RxAst) :
    Prop where
  atom : IsAtom x
  behind : Behind st r.st m.after
  reads : PlainClass post → MaskReads m.mask x

theorem parseBracketClass_eq {st : RxParseState} {post : List Char} (hst : Sees st ('[' :: post))
    {stop : Nat} (hstop : stop + 1 = st.input.length) {m : MaskAt}
    (hm : parseBracketClass st.input (st.pos + 1) stop = some m) {r : PRx}
    (hr : rxParseClass (rxAdvance st) = some r) {x : RxAst} (hok : r.r = .ok x) :
    SameAtom st ('[' :: post) m r x := by
  have hpos := hst.advance_pos (by decide : ('[' : Char).toNat < 0x80)
  have hadv := hst.advance
  unfold parseBracketClass at hm
  unfold rxParseClass at hr
  simp only at hm hr
  have hlt : st.pos + 1 < stop := by
    by_contra hge
    rw [parseBracketBody_stop (by split <;> omega)] at hm
    cases hm
  cases post with
  | nil =>
      have := hadv.ge
      rw [hadv.n_eq] at this
      change st.input.length ≤ _ at this
      omega
  | cons c post =>
      -- both see the same `^` or none
      have hcaret : charAtOrZero st.input (st.pos + 1) = '^' ↔ rxPeek (rxAdvance st) = some '^' := by
        rw [hadv.peek, List.head?_cons, Option.some.injEq, ← hpos]
        refine ⟨fun h => sees_ascii hadv h (by decide), ?_⟩
        rintro rfl
        rcases sees_byte hadv with ⟨-, heq⟩ | ⟨hge, -⟩
        · exact heq
        · exact absurd hge (by decide)
      have hneg : (decide (st.pos + 1 < stop) && decide (charAtOrZero st.input (st.pos + 1) = '^')) =
          decide (rxPeek (rxAdvance st) = some '^') := by
        rw [decide_eq_true hlt, Bool.true_and]
        exact decide_eq_decide.2 hcaret
      rw [hneg] at hm
      have hbody : ∃ st' post', Sees st' post' ∧ st'.input = st.input ∧
          (Ascii ('[' :: c :: post) → classEscape (c :: post) = false →
            Ascii post' ∧ classEscape post' = false) ∧
          parseBracketBody (stop - st'.pos) st.input st'.pos stop maskEmpty
            (decide (rxPeek (rxAdvance st) = some '^')) = some m ∧
          rxParseClassLoop (st'.n - st'.pos + 1) st' []
            (decide (rxPeek (rxAdvance st) = some '^')) = some r := by
        by_cases hc : rxPeek (rxAdvance st) = some '^'
        · rw [decide_eq_true hc, if_pos rfl] at hm
          rw [if_pos hc] at hr
          have hcc : c = '^' := by
            rw [hadv.peek] at hc
            exact Option.some.inj hc
          subst hcc
          have hpos2 := hadv.advance_pos (by decide : ('^' : Char).toNat < 0x80)
          refine ⟨rxAdvance (rxAdvance st), post, hadv.advance, rfl, ?_, ?_, hr⟩
          · intro ha hesc
            rw [classEscape_cons (by decide) (by decide)] at hesc
            exact ⟨fun d hd => ha d (List.mem_cons_of_mem _ (List.mem_cons_of_mem _ hd)), hesc⟩
          · rw [hpos2, hpos, decide_eq_true hc]
            exact hm
        · rw [decide_eq_false hc, if_neg Bool.false_ne_true] at hm
          rw [if_neg hc] at hr
          refine ⟨rxAdvance st, c :: post, hadv, rfl, ?_, ?_, hr⟩
          · exact fun ha hesc => ⟨fun d hd => ha d (List.mem_cons_of_mem _ hd), hesc⟩
          · rw [hpos, decide_eq_false hc]
            exact hm
      obtain ⟨st', post', hsees, hinput, hplain, hm', hr'⟩ := hbody
      rw [← hinput] at hm' hstop
      obtain ⟨hafter, hin, hex, rs, hast⟩ :=
        class_after_eq hsees (by omega : stop ≤ st'.input.length) hm' hr' hok
      refine ⟨by rw [hast]; trivial, ⟨hex, hin.trans hinput, hafter⟩, fun hpc => ?_⟩
      obtain ⟨ha, hesc⟩ := hpc rfl
      obtain ⟨ha', hesc'⟩ := hplain ha hesc
      obtain ⟨rs', hast', hmask⟩ := parseBracketBody_eq _ hsees ha' hesc' hstop
        (fun d hd => by rw [maskEmpty, maskHas_maskOf hd]; rfl) hm' hr' hok
      rw [hast']
      exact hmask

theorem rxParsePrimary_plain {st : RxParseState} {c : Char} {post : List Char}
    (hst : Sees st (c :: post)) (h : isRegexMeta c = false) :
    rxParsePrimary st = some (rxOk (rxAdvance st) (.rxChar c)) := by
  have hmeta : rxIsMeta c = false := by
    unfold rxIsMeta
    split
    case h_7 => rfl
    all_goals exact absurd h (by decide)
  unfold rxParsePrimary
  rw [hst.peek]
  simp only [List.head?_cons]
  split
  case h_1 heq => cases heq
  case h_7 heq =>
    cases heq
    rw [if_neg (by simp [hmeta])]
  all_goals
    next heq =>
      cases heq
      exact absurd h (by decide)

theorem isRegexMeta_high {c : Char} (hc : 0x80 ≤ c.toNat) : isRegexMeta c = false := by
  by_contra hmeta
  simp only [isRegexMeta, Bool.not_eq_false, Bool.or_eq_true, decide_eq_true_eq] at hmeta
  rcases hmeta with ((((((((((((rfl | rfl) | rfl) | rfl) | rfl) | rfl) | rfl) | rfl) | rfl) | rfl) |
    rfl) | rfl) | rfl) | rfl
  all_goals exact absurd hc (by decide)

theorem parseClassAtom_high {pat : Str} {i stop : Nat} (hlt : i < stop)
    (hc : 0x80 ≤ (charAtOrZero pat i).toNat) :
    parseClassAtom pat i stop = some ⟨maskSingle (charAtOrZero pat i), i + 1⟩ := by
  unfold parseClassAtom
  rw [if_neg (Nat.not_le.2 hlt)]
  simp only
  generalize charAtOrZero pat i = c at hc
  have hmeta := isRegexMeta_high hc
  have hne : ∀ d, isRegexMeta d = true → c ≠ d := by
    rintro d hd rfl
    rw [hmeta] at hd
    cases hd
  rw [if_neg (hne _ rfl), if_neg (hne _ rfl), if_neg (hne _ rfl), if_neg (by simp [hmeta])]

theorem parseClassAtom_eq {st : RxParseState} {post : List Char} (hst : Sees st post) {stop : Nat}
    (hstop : stop + 1 = st.input.length) (hend : charAtOrZero st.input stop = '$') {m : MaskAt}
    (hm : parseClassAtom st.input st.pos stop = some m) {q : QShape}
    (hq : parseQuant st.input m.after stop = some q) (hafter : q.after = stop) {r : PRx}
    (hr : rxParsePrimary st = some r) {x : RxAst} (hok : r.r = .ok x) :
    SameAtom st post m r x := by
  have hprimary := hr
  have hatom := hm
  unfold parseClassAtom at hm
  unfold rxParsePrimary at hr
  rw [hst.peek] at hr
  split at hm
  · cases hm
  · next hlt =>
      cases post with
      | nil =>
          have := hst.ge
          rw [hst.n_eq] at this
          omega
      | cons c post =>
          simp only [List.head?_cons] at hm hr
          rcases sees_byte hst with ⟨hc, hbyte⟩ | ⟨hc, hbyte⟩
          · have hpos := hst.advance_pos hc
            have hsingle : ∀ {y : RxAst} {mask : Mask}, IsAtom y → MaskReads mask y → c ≠ '[' →
                SameAtom st (c :: post) ⟨mask, st.pos + 1⟩ (rxOk (rxAdvance st) y) y :=
              fun hy hmask _ => ⟨hy, ⟨⟨post, hst.advance⟩, rfl, hpos⟩, fun _ => hmask⟩
            rw [hbyte] at hm
            split at hm
            · next h =>
                subst h
                exact parseBracketClass_eq hst hstop hm hr hok
            · next hno =>
                split at hm
                · next h =>
                    subst h
                    simp only at hr
                    obtain ⟨hlt', hafter', hmask⟩ := parseEscapeAtom_eq hm
                    have hadv := hst.advance
                    unfold rxParseEscape at hr
                    rw [hadv.peek] at hr
                    cases post with
                    | nil =>
                        cases hr
                        cases hok
                    | cons e post =>
                        cases hr
                        cases hok
                        rcases sees_byte hadv with ⟨he, hebyte⟩ | ⟨he, -⟩
                        · rw [hpos] at hebyte
                          have hpos' := hadv.advance_pos he
                          change charAtOrZero st.input (st.pos + 1) = e at hebyte
                          rw [hebyte] at hmask
                          refine ⟨rxEscapeAst_isAtom e, ⟨⟨post, hadv.advance⟩, rfl, ?_⟩,
                            fun _ => hmask⟩
                          change (rxAdvance (rxAdvance st)).pos = m.after
                          rw [hpos', hpos, hafter']
                        · rw [hafter', ← hpos] at hq
                          exact absurd hafter
                            (parseQuant_inside hadv he hend (by rw [hpos]; exact hlt') hq)
                · next hno' =>
                    split at hm
                    · next h =>
                        subst h
                        cases hm
                        cases hr
                        cases hok
                        exact hsingle trivial maskReads_any hno
                    · next hno'' =>
                        split at hm
                        · cases hm
                        · next hmeta =>
                            cases hm
                            rw [rxParsePrimary_plain hst (by simpa using hmeta)] at hprimary
                            cases hprimary
                            cases hok
                            exact hsingle trivial (maskReads_char c) hno
          · -- the compiler takes the first byte alone, and then finds no quantifier
            rw [parseClassAtom_high (Nat.lt_of_not_le hlt) hbyte] at hatom
            cases hatom
            exact absurd hafter (parseQuant_inside hst hc hend (Nat.lt_of_not_le hlt) hq)

end Kaikai.RegexAnchored
