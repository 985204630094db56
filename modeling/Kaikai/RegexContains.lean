import Kaikai.RegexAnchored
import Kaikai.RegexpExact

namespace Kaikai.RegexContains

open Relation
open Kaikai.Fragment
open Kaikai.Regexp
open Kaikai.RegexAgree
open Kaikai.RegexAnchored
open Kaikai.RegexClass
open Kaikai.RegexEntail
open Kaikai.RegexpEngine
open Kaikai.RegexpExact
open Kaikai.RegexpLanguage
open Kaikai.RegexpSyntax
open Kaikai.RegexpText
open Kaikai.Str
open Kaikai.Utf8

theorem sees_init (text : List Char) : Sees (rxStateInit (utf8 text)) text :=
  ⟨rfl, rfl, Nat.zero_le _⟩

theorem rxParseAtom_parts {st : RxParseState} {r : PRx} {a : RxAst}
    (h : rxParseAtom st = some r) (hok : r.r = .ok a) : ∃ rp p, rxParsePrimary st = some rp ∧
      rp.r = .ok p ∧ rxApplyQuantifier rp.st p = some r := by
  unfold rxParseAtom at h
  rw [Option.bind_eq_bind, Option.bind_eq_some_iff] at h
  obtain ⟨rp, hrp, h⟩ := h
  split at h
  · next e he =>
      cases h
      rw [he] at hok
      cases hok
  · next p hp => exact ⟨rp, p, hrp, hp, h⟩

theorem rxParseLoop_atom {fuel : Nat} {st : RxParseState} {c : Char} {post : List Char}
    (hst : Sees st (c :: post)) (hbar : c ≠ '|') (hclose : c ≠ ')') (hopen : c ≠ '(')
    {items : List RxAst} {r : PRx} {a : RxAst} (h : rxParseLoop fuel st [] [] items = some r)
    (hok : r.r = .ok a) : ∃ fuel' r' at_, rxParseAtom st = some r' ∧ r'.r = .ok at_ ∧
      rxParseLoop fuel' r'.st [] [] (at_ :: items) = some r := by
  cases fuel with
  | zero => cases h
  | succ fuel =>
      rw [rxParseLoop.eq_def] at h
      simp only [hst.peek, List.head?_cons] at h
      rw [Option.bind_eq_bind, Option.bind_eq_some_iff] at h
      obtain ⟨r', hr', h⟩ := h
      split at h
      · next e he =>
          cases h
          rw [he] at hok
          cases hok
      · next at_ hat => exact ⟨fuel, r', at_, hr', hat, h⟩

theorem rxApplyQuantifier_plain {st : RxParseState} {post : List Char} (hst : Sees st post)
    (h : ∀ c ∈ post.head?, c ≠ '*' ∧ c ≠ '+' ∧ c ≠ '?' ∧ c ≠ '{') (p : RxAst) :
    rxApplyQuantifier st p = some (rxOk st p) := by
  unfold rxApplyQuantifier
  rw [hst.peek]
  split
  case h_5 => rfl
  all_goals
    next heq =>
      obtain ⟨h1, h2, h3, h4⟩ := h _ heq
      contradiction

theorem rxParseAtom_anchor {st : RxParseState} {c : Char} {post : List Char}
    (hst : Sees st (c :: post)) {an : Anchor}
    (hp : rxParsePrimary st = some (rxOk (rxAdvance st) (.rxAnchor an)))
    (h : ∀ d ∈ post.head?, d ≠ '*' ∧ d ≠ '+' ∧ d ≠ '?' ∧ d ≠ '{') :
    rxParseAtom st = some (rxOk (rxAdvance st) (.rxAnchor an)) := by
  unfold rxParseAtom
  rw [hp, Option.bind_eq_bind, Option.bind_some]
  exact rxApplyQuantifier_plain hst.advance h _

theorem rxParsePrimary_caret {st : RxParseState} {post : List Char} (hst : Sees st ('^' :: post)) :
    rxParsePrimary st = some (rxOk (rxAdvance st) (.rxAnchor .anchorStart)) := by
  unfold rxParsePrimary
  rw [hst.peek]
  rfl

theorem rxParsePrimary_dollar {st : RxParseState} {post : List Char}
    (hst : Sees st ('$' :: post)) :
    rxParsePrimary st = some (rxOk (rxAdvance st) (.rxAnchor .anchorEnd)) := by
  unfold rxParsePrimary
  rw [hst.peek]
  rfl

theorem parseClassAtom_head {st : RxParseState} {c : Char} {post : List Char}
    (hst : Sees st (c :: post)) {stop : Nat} {m : MaskAt}
    (h : parseClassAtom st.input st.pos stop = some m) :
    isRegexMeta c = true → c = '[' ∨ c = '\\' ∨ c = '.' := by
  intro hmeta
  have hc : c.toNat < 0x80 := by
    by_contra hge
    rw [isRegexMeta_high (Nat.le_of_not_lt hge)] at hmeta
    cases hmeta
  have hbyte : charAtOrZero st.input st.pos = c := by
    rcases sees_byte hst with ⟨-, heq⟩ | ⟨hge, -⟩
    · exact heq
    · omega
  by_contra hno
  rw [not_or, not_or] at hno
  unfold parseClassAtom at h
  split at h
  · cases h
  · simp only [hbyte] at h
    rw [if_neg hno.1, if_neg hno.2.1, if_neg hno.2.2, if_pos hmeta] at h
    cases h

/-- A pattern that the compiler recognises, as the engine parses it. -/
structure Recognised (text : List Char) (ac : AnchoredClass) (a x ast : RxAst) : Prop where
  shape : a = .rxConcat [.rxAnchor .anchorStart, ast, .rxAnchor .anchorEnd]
  atom : IsAtom x
  quantified : Quantified x ac.quant ast
  reads : PlainClass text.tail → MaskReads ac.mask x

theorem rxParseLoop_end {st : RxParseState} {post : List Char} (hst : Sees st post)
    (hlen : st.pos + 1 = st.input.length) (hend : charAtOrZero st.input st.pos = '$')
    {fuel : Nat} {items : List RxAst} {r : PRx} {a : RxAst}
    (h : rxParseLoop fuel st [] [] items = some r) (hok : r.r = .ok a) :
    a = rxAltOf [rxConcatOf (.rxAnchor .anchorEnd :: items)] := by
  cases post with
  | nil =>
      have := hst.ge
      rw [hst.n_eq] at this
      omega
  | cons c post =>
      have hc := sees_ascii hst hend (by decide)
      subst hc
      have hadv := hst.advance
      have hpost : post = [] := by
        cases post with
        | nil => rfl
        | cons d post =>
            have hlt := hadv.lt
            rw [hadv.n_eq, hst.advance_pos (by decide)] at hlt
            change st.pos + 1 < st.input.length at hlt
            omega
      subst hpost
      obtain ⟨fuel', r', at_, hatom, hat, hloop⟩ :=
        rxParseLoop_atom hst (by decide) (by decide) (by decide) h hok
      rw [rxParseAtom_anchor hst (rxParsePrimary_dollar hst) (by simp)] at hatom
      cases hatom
      cases hat
      cases fuel' with
      | zero => cases hloop
      | succ fuel' =>
          rw [rxParseLoop.eq_def] at hloop
          simp only [rxOk, hadv.peek, List.head?_nil] at hloop
          cases hloop
          cases hok
          rfl

theorem rxParseLoop_anchored {st : RxParseState} {text : List Char} (hst : Sees st text)
    (hpos : st.pos = 0) {stop : Nat} (hstop : stop + 1 = st.input.length) (hlt : 0 < stop)
    (hstart : charAtOrZero st.input 0 = '^') (hend : charAtOrZero st.input stop = '$')
    {m : MaskAt} (hm : parseClassAtom st.input 1 stop = some m) {q : QShape}
    (hq : parseQuant st.input m.after stop = some q) (hafter : q.after = stop) {fuel : Nat}
    {r : PRx} {a : RxAst} (h : rxParseLoop fuel st [] [] [] = some r) (hok : r.r = .ok a) :
    ∃ x ast, Recognised text ⟨m.mask, q.quant⟩ a x ast := by
  cases text with
  | nil =>
      have := hst.ge
      rw [hst.n_eq] at this
      omega
  | cons c text =>
      rw [← hpos] at hstart
      have hc := sees_ascii hst hstart (by decide)
      subst hc
      have hadv := hst.advance
      have hone : (rxAdvance st).pos = 1 := by
        rw [hst.advance_pos (by decide), hpos]
      cases text with
      | nil =>
          have := hadv.ge
          rw [hadv.n_eq, hone] at this
          change st.input.length ≤ 1 at this
          omega
      | cons d text =>
          -- the atom of the compiler starts with no quantifier, bar or parenthesis
          rw [← hone] at hm
          have hhead := @parseClassAtom_head (rxAdvance st) _ _ hadv _ _ hm
          have hne : ∀ e, isRegexMeta e = true → e ≠ '[' → e ≠ '\\' → e ≠ '.' → d ≠ e := by
            rintro e he h1 h2 h3 rfl
            rcases hhead he with h | h | h <;> contradiction
          obtain ⟨fuel1, r1, a1, hatom1, hok1, hloop1⟩ :=
            rxParseLoop_atom hst (by decide) (by decide) (by decide) h hok
          rw [rxParseAtom_anchor hst (rxParsePrimary_caret hst)] at hatom1
          cases hatom1
          cases hok1
          obtain ⟨fuel2, r2, ast, hatom2, hok2, hloop2⟩ := rxParseLoop_atom hadv
            (hne _ (by decide) (by decide) (by decide) (by decide))
            (hne _ (by decide) (by decide) (by decide) (by decide))
            (hne _ (by decide) (by decide) (by decide) (by decide)) hloop1 hok
          obtain ⟨rp, x, hprimary, hx, hquant⟩ := rxParseAtom_parts hatom2 hok2
          have hsame := @parseClassAtom_eq (rxAdvance st) _ hadv _ hstop hend _ hm _ hq hafter
            _ hprimary _ hx
          obtain ⟨⟨post, hsees⟩, hinput, hbehind⟩ := hsame.behind
          change rp.st.input = st.input at hinput
          rw [← hbehind, ← hinput] at hq
          rw [← hinput] at hend hstop
          obtain ⟨hquantified, ⟨post', hsees'⟩, hinput', hpos'⟩ := parseQuant_eq hsees hend
            (by omega) hq hafter hquant hok2
          rw [← hinput', ← hpos'] at hend
          have hshape := rxParseLoop_end hsees' (by rw [hpos', hinput', hstop]) hend hloop2 hok
          exact ⟨x, ast, hshape, hsame.atom, hquantified, hsame.reads⟩
          · intro e he
            cases he
            refine ⟨?_, ?_, ?_, ?_⟩
            all_goals exact hne _ (by decide) (by decide) (by decide) (by decide)

theorem recognised {text : List Char} {ac : AnchoredClass}
    (h : parseAnchoredClass (utf8 text) = some ac) {a : RxAst}
    (ha : parsePattern (utf8 text) = some (.ok a)) : ∃ x ast, Recognised text ac a x ast := by
  unfold parseAnchoredClass at h
  split at h
  · cases h
  · next hlen =>
      split at h
      · cases h
      · next hstart =>
          split at h
          · cases h
          · next hend =>
              rw [ne_eq, not_not] at hstart hend
              rw [Option.bind_eq_bind, Option.bind_eq_some_iff] at h
              obtain ⟨m, hm, h⟩ := h
              rw [Option.bind_eq_bind, Option.bind_eq_some_iff] at h
              obtain ⟨q, hq, h⟩ := h
              split at h
              · next hafter =>
                  cases h
                  have hst := sees_init text
                  unfold parsePattern rxParseAlt at ha
                  rw [Option.bind_eq_bind, Option.bind_eq_some_iff] at ha
                  obtain ⟨r, hloop, ha⟩ := ha
                  have hok : r.r = .ok a := by
                    split at ha
                    · cases ha
                    · next ast hast =>
                        split at ha
                        · cases ha
                        · rw [Option.bind_eq_bind, Option.bind_eq_some_iff] at ha
                          obtain ⟨cost, -, ha⟩ := ha
                          split at ha
                          · cases ha
                          · cases ha
                            exact hast
                  obtain ⟨x, ast, hshape, hatom, hquant, hreads⟩ :=
                    rxParseLoop_anchored hst rfl
                      (show (utf8 text).length - 1 + 1 = (utf8 text).length by omega) (by omega)
                      hstart hend hm hq hafter hloop hok
                  exact ⟨x, ast, hshape, hatom, hquant, hreads⟩
              · cases h

/-- The numbers of times that a quantifier's text stands for. -/
def allowedBy (q : String) (k : Nat) : Prop :=
  if q = "1" then k = 1
  else if q = "+" then 1 ≤ k
  else if q = "*" then True
  else if q = "?" then k ≤ 1
  else
    let lo := q.toList.takeWhile fun c => c ≠ ','
    let hi := (q.toList.dropWhile fun c => c ≠ ',').tail
    Nat.ofDigitChars 10 lo 0 ≤ k ∧ (hi ≠ [] → k ≤ Nat.ofDigitChars 10 hi 0)

theorem toList_toString {v : Int} (hv : 0 ≤ v) : (toString v).toList = Nat.toDigits 10 v.toNat := by
  obtain ⟨n, rfl⟩ := Int.eq_ofNat_of_zero_le hv
  exact Nat.toList_repr

theorem comma_notMem_toDigits (n : Nat) : ∀ c ∈ Nat.toDigits 10 n, c ≠ ',' := by
  rintro c hc rfl
  exact absurd (Nat.isDigit_of_mem_toDigits (by decide) (by decide) hc) (by decide)

theorem allowedBy_repeat {lo : Int} (hlo : 0 ≤ lo) (hi : String) (k : Nat) :
    allowedBy (toString lo ++ "," ++ hi) k ↔
      lo ≤ k ∧ (hi.toList ≠ [] → k ≤ Nat.ofDigitChars 10 hi.toList 0) := by
  have hlist : (toString lo ++ "," ++ hi).toList = Nat.toDigits 10 lo.toNat ++ ',' :: hi.toList := by
    rw [String.toList_append, String.toList_append, toList_toString hlo, List.append_assoc]
    rfl
  have hne : ∀ q : String, ',' ∉ q.toList → toString lo ++ "," ++ hi ≠ q := by
    rintro q hq rfl
    exact hq (by rw [hlist]; simp)
  unfold allowedBy
  rw [if_neg (hne _ (by decide)), if_neg (hne _ (by decide)), if_neg (hne _ (by decide)),
    if_neg (hne _ (by decide))]
  have hdigits : ∀ c ∈ Nat.toDigits 10 lo.toNat, decide (c ≠ ',') = true := fun c hc =>
    decide_eq_true (comma_notMem_toDigits _ c hc)
  simp only [hlist]
  rw [List.takeWhile_append_of_pos hdigits, List.dropWhile_append_of_pos hdigits,
    List.takeWhile_cons_of_neg (by simp), List.dropWhile_cons_of_neg (by simp), List.append_nil,
    List.tail_cons, Nat.ofDigitChars_toDigits (by decide) (by decide)]
  refine and_congr_left fun _ => ?_
  omega

theorem allowedBy_atLeast {lo : Int} (hlo : 0 ≤ lo) (k : Nat) :
    allowedBy (toString lo ++ ",") k ↔ repeatCounts lo none k := by
  have h := allowedBy_repeat hlo "" k
  rw [String.append_empty] at h
  rw [h, repeatCounts]
  simp

theorem allowedBy_between {lo hi : Int} (hlo : 0 ≤ lo) (hhi : 0 ≤ hi) (k : Nat) :
    allowedBy (toString lo ++ "," ++ toString hi) k ↔ repeatCounts lo (some hi) k := by
  rw [allowedBy_repeat hlo, toList_toString hhi, repeatCounts,
    Nat.ofDigitChars_toDigits (by decide) (by decide)]
  refine and_congr_right fun _ => ⟨?_, ?_⟩
  · rintro h _ ⟨⟩
    have := h Nat.toDigits_ne_nil
    omega
  · intro h _
    have := h hi rfl
    omega

theorem iter_one {X : Type} {R : X → X → Prop} : iter R 1 = R := by
  rw [iter, iter]
  exact Relation.comp_eq

theorem spans_quantified {X : Type} (M : Reading X) {x ast : RxAst} {q : String}
    (h : Quantified x q ast) (u v : X) : spans M repeatCounts ast u v ↔
      ∃ k, allowedBy q k ∧ iter (spans M repeatCounts x) k u v := by
  cases h with
  | one =>
      constructor
      · exact fun h => ⟨1, rfl, by rwa [iter_one]⟩
      · rintro ⟨k, hk, h⟩
        cases (show k = 1 from hk)
        rwa [iter_one] at h
  | plus =>
      constructor
      · rintro ⟨w, hw, hstar⟩
        obtain ⟨k, hk⟩ := reflTransGen_iff_iter.1 hstar
        exact ⟨k + 1, Nat.le_add_left 1 k, w, hw, hk⟩
      · rintro ⟨k, hk, h⟩
        have hpos : 1 ≤ k := hk
        obtain ⟨j, rfl⟩ : ∃ j, k = j + 1 := ⟨k - 1, by omega⟩
        obtain ⟨w, hw, hrest⟩ := h
        exact ⟨w, hw, reflTransGen_iff_iter.2 ⟨j, hrest⟩⟩
  | star =>
      rw [spans, reflTransGen_iff_iter]
      exact exists_congr fun k => ⟨fun h => ⟨trivial, h⟩, fun h => h.2⟩
  | opt =>
      constructor
      · rintro (rfl | h)
        · exact ⟨0, Nat.zero_le 1, rfl⟩
        · exact ⟨1, Nat.le_refl 1, by rwa [iter_one]⟩
      · rintro ⟨k, hk, h⟩
        have hle : k ≤ 1 := hk
        rcases Nat.le_one_iff_eq_zero_or_eq_one.1 hle with rfl | rfl
        · exact .inl h
        · exact .inr (by rwa [iter_one] at h)
  | atLeast hlo => exact exists_congr fun k => and_congr_left fun _ => (allowedBy_atLeast hlo k).symm
  | between hlo hle =>
      exact exists_congr fun k => and_congr_left fun _ =>
        (allowedBy_between hlo (hlo.trans hle) k).symm

theorem spans_atom {X : Type} (M : Reading X) (counts : Int → Option Int → Nat → Prop) {x : RxAst}
    (h : IsAtom x) : spans M counts x = M.take (atomReads x) := by
  cases x with
  | rxChar c => rfl
  | rxAny => rfl
  | rxClass rs neg => rfl
  | _ => exact h.elim

theorem iter_take (cs : List Char) (P : Char → Bool) (k : Nat) : ∀ i ≤ cs.length,
    iter ((textReading cs).take P) k i cs.length ↔
      k = (cs.drop i).length ∧ ∀ c ∈ cs.drop i, P c = true := by
  induction k with
  | zero =>
      intro i hi
      rw [iter, List.length_drop]
      constructor
      · rintro rfl
        exact ⟨(Nat.sub_self _).symm, by simp⟩
      · rintro ⟨h, -⟩
        omega
  | succ k ih =>
      intro i hi
      by_cases hlt : i < cs.length
      · rw [List.drop_eq_getElem_cons hlt, List.length_cons, List.forall_mem_cons]
        have hget := List.getElem?_eq_getElem hlt
        constructor
        · rintro ⟨_, ⟨⟨c, hc, hP⟩, rfl⟩, hrest⟩
          rw [hget] at hc
          cases hc
          obtain ⟨hk, hall⟩ := (ih (i + 1) hlt).1 hrest
          exact ⟨congrArg (· + 1) hk, hP, hall⟩
        · rintro ⟨hk, hP, hall⟩
          exact ⟨i + 1, ⟨⟨_, hget, hP⟩, rfl⟩, (ih (i + 1) hlt).2 ⟨Nat.succ.inj hk, hall⟩⟩
      · rw [List.drop_eq_nil_of_le (Nat.le_of_not_lt hlt)]
        constructor
        · rintro ⟨_, ⟨⟨c, hc, -⟩, rfl⟩, -⟩
          exact absurd (List.getElem?_eq_some_iff.1 hc).1 hlt
        · rintro ⟨h, -⟩
          cases h

theorem denote_recognised {text : List Char} {ac : AnchoredClass} {a x ast : RxAst}
    (h : Recognised text ac a x ast) (cs : List Char) : denote cs a 0 cs.length ↔
      allowedBy ac.quant cs.length ∧ ∀ c ∈ cs, atomReads x c = true := by
  have hspan : denote cs a 0 cs.length ↔ spans (textReading cs) repeatCounts ast 0 cs.length := by
    rw [h.shape]
    constructor
    · rintro ⟨_, ⟨-, rfl⟩, _, hast, _, ⟨rfl, rfl⟩, -⟩
      exact hast
    · exact fun hast => ⟨0, ⟨rfl, rfl⟩, _, hast, _, ⟨rfl, rfl⟩, rfl⟩
  rw [hspan, spans_quantified _ h.quantified, spans_atom _ _ h.atom]
  simp only [iter_take cs _ _ 0 (Nat.zero_le _), List.drop_zero]
  constructor
  · rintro ⟨k, hk, rfl, hall⟩
    exact ⟨hk, hall⟩
  · exact fun ⟨hk, hall⟩ => ⟨_, hk, rfl, hall⟩

/-- The atom of an anchored pattern, without its quantifier. -/
def atomOf : RxAst → RxAst
  | .rxConcat [_, .rxPlus x, _] => x
  | .rxConcat [_, .rxStar x, _] => x
  | .rxConcat [_, .rxOpt x, _] => x
  | .rxConcat [_, .rxRepeat x _ _, _] => x
  | .rxConcat [_, x, _] => x
  | a => a

/-- An anchored pattern that repeats its atom zero times at most. -/
def repeatsNone : RxAst → Prop
  | .rxConcat [_, .rxRepeat _ _ (some hi), _] => hi = 0
  | _ => False

theorem Recognised.atomOf_eq {text : List Char} {ac : AnchoredClass} {a x ast : RxAst}
    (h : Recognised text ac a x ast) : atomOf a = x := by
  obtain ⟨rfl, hatom, hquantified, -⟩ := h
  obtain ⟨mask, quant⟩ := ac
  simp only at hquantified ⊢
  cases hquantified with
  | one =>
      cases x with
      | rxChar _ | rxAny | rxClass _ _ => rfl
      | _ => exact hatom.elim
  | _ => rfl

theorem Recognised.repeats {text : List Char} {ac : AnchoredClass} {a x ast : RxAst}
    (h : Recognised text ac a x ast) : (repeatsNone a ∧ ∀ k, allowedBy ac.quant k → k = 0) ∨
      (¬ repeatsNone a ∧ ∃ k, allowedBy ac.quant (k + 1)) := by
  obtain ⟨rfl, hatom, hquantified, -⟩ := h
  obtain ⟨mask, quant⟩ := ac
  simp only at hquantified ⊢
  cases hquantified with
  | one =>
      refine .inr ⟨?_, 0, rfl⟩
      cases x with
      | rxRepeat _ _ _ => exact hatom.elim
      | _ => exact id
  | plus => exact .inr ⟨id, 0, Nat.le_refl 1⟩
  | star => exact .inr ⟨id, 0, trivial⟩
  | opt => exact .inr ⟨id, 0, Nat.le_refl 1⟩
  | @atLeast lo hlo =>
      refine .inr ⟨id, lo.toNat, (allowedBy_atLeast hlo _).2 ⟨by omega, ?_⟩⟩
      rintro _ ⟨⟩
  | @between lo hi hlo hle =>
      by_cases hzero : hi = 0
      · refine .inl ⟨hzero, fun k hk => ?_⟩
        have := ((allowedBy_between hlo (hlo.trans hle) k).1 hk).2 hi rfl
        omega
      · refine .inr ⟨hzero, hi.toNat - 1, (allowedBy_between hlo (hlo.trans hle) _).2 ⟨by omega, ?_⟩⟩
        rintro _ ⟨⟩
        omega

/-- The characters that the masks of two patterns do not decide: those outside ASCII,
and all of them when a class has a class escape or text outside ASCII. -/
def Unmasked (loose strict : List Char) (c : Char) : Prop :=
  0x80 ≤ c.toNat ∨ ¬ PlainClass loose.tail ∨ ¬ PlainClass strict.tail

theorem matches_recognised {text : List Char} {ac : AnchoredClass} {a x ast : RxAst}
    (h : Recognised text ac a x ast) (ha : parsePattern (utf8 text) = some (.ok a)) {re : Nfa}
    (hre : compile (utf8 text) = some (.ok re)) (s : Str) : Regexp.matches s re = some true ↔
      allowedBy ac.quant (codepoints s).length ∧
        ∀ c ∈ codepoints s, atomReads (atomOf a) c = true := by
  obtain ⟨a', ha', hparsed, rfl⟩ := compile_eq_ok hre
  rw [ha] at ha'
  cases ha'
  obtain ⟨b, hb, hiff⟩ := matches_compiled hparsed s
  rw [hb, Option.some.injEq, hiff, denote_recognised h, h.atomOf_eq]

theorem maskSubset_of {strict loose : Mask} (h : maskSubset strict loose = true) {k : Nat}
    (hk : k < 128) (hs : maskHas strict k = true) : maskHas loose k = true := by
  have hall := List.all_eq_true.1 h k (List.mem_range.2 hk)
  rw [hs, Bool.true_and, Bool.not_not] at hall
  exact hall

/-- Dropping a precondition is sound exactly when the atoms agree on the characters
that their masks do not decide, or no character is read at all. -/
theorem contains_sound_iff (loose strict : List Char) {a b : RxAst} {lre sre : Nfa}
    (ha : parsePattern (utf8 loose) = some (.ok a)) (hb : parsePattern (utf8 strict) = some (.ok b))
    (hl : compile (utf8 loose) = some (.ok lre)) (hs : compile (utf8 strict) = some (.ok sre))
    (h : regexPatternContains (utf8 loose) (utf8 strict) = true) :
    (∀ s, Regexp.matches s sre = some true → Regexp.matches s lre = some true) ↔
      repeatsNone b ∨ ∀ c, Unmasked loose strict c → atomReads (atomOf b) c = true →
        atomReads (atomOf a) c = true := by
  unfold regexPatternContains at h
  split at h
  · cases h
  · next la hla =>
      split at h
      · cases h
      · next sa hsa =>
          obtain ⟨x, ast, hx⟩ := recognised hla ha
          obtain ⟨y, ast', hy⟩ := recognised hsa hb
          unfold acContains at h
          split at h
          · cases h
          · next hquant =>
              rw [ne_eq, not_not] at hquant
              simp only [matches_recognised hx ha hl, matches_recognised hy hb hs, hquant]
              constructor
              · intro hsound
                rcases hy.repeats with ⟨hnone, -⟩ | ⟨-, k, hk⟩
                · exact .inl hnone
                · -- a text of one character alone tells the atoms apart
                  refine .inr fun c _ hc => ?_
                  have hcs := codepoints_utf8 (List.replicate (k + 1) c)
                  have hword := (hsound (utf8 (List.replicate (k + 1) c))
                    (by rw [hcs, List.length_replicate]
                        exact ⟨hk, fun d hd => by rwa [List.eq_of_mem_replicate hd]⟩)).2
                  rw [hcs] at hword
                  exact hword c (List.mem_replicate.2 ⟨Nat.succ_ne_zero k, rfl⟩)
              · rintro hcond s ⟨hk, hall⟩
                refine ⟨hk, fun c hc => ?_⟩
                rcases hcond with hnone | hunmasked
                · rcases hy.repeats with ⟨-, hzero⟩ | ⟨hsome, -⟩
                  · rw [List.length_eq_zero_iff.1 (hzero _ hk)] at hc
                    cases hc
                  · exact absurd hnone hsome
                · by_cases hc' : Unmasked loose strict c
                  · exact hunmasked c hc' (hall c hc)
                  · rw [Unmasked, not_or, not_or, not_not, not_not] at hc'
                    obtain ⟨hlt, hpl, hps⟩ := hc'
                    have hlt' := Nat.lt_of_not_le hlt
                    have hstrict := hall c hc
                    rw [hy.atomOf_eq, ← hy.reads hps c hlt'] at hstrict
                    rw [hx.atomOf_eq, ← hx.reads hpl c hlt']
                    exact maskSubset_of h hlt' hstrict

theorem regexPatternContains_of {loose strict : Str} (la sa : AnchoredClass)
    (hl : parseAnchoredClass loose = some la) (hs : parseAnchoredClass strict = some sa)
    (hquant : la.quant = sa.quant)
    (h : ∀ k < 128, maskHas sa.mask k = true → maskHas la.mask k = true) :
    regexPatternContains loose strict = true := by
  rw [regexPatternContains, hl, hs]
  dsimp only
  rw [acContains, if_neg (not_not.2 hquant), maskSubset, List.all_eq_true]
  intro k hk
  cases hk' : maskHas sa.mask k with
  | false => rfl
  | true =>
      rw [h k (List.mem_range.1 hk) hk']
      rfl

theorem contains_sound_range : ∃ a b lre sre,
    parsePattern (utf8 ['^', '[', 'a', '-', 'z', ']', '{', '2', '}', '$']) = some (.ok a) ∧
    parsePattern (utf8 ['^', '[', 'b', 'd', ']', '{', '2', ',', '2', '}', '$']) = some (.ok b) ∧
    ((∀ s, Regexp.matches s sre = some true → Regexp.matches s lre = some true) ↔
      repeatsNone b ∨ ∀ c, Unmasked ['^', '[', 'a', '-', 'z', ']', '{', '2', '}', '$']
          ['^', '[', 'b', 'd', ']', '{', '2', ',', '2', '}', '$'] c →
        atomReads (atomOf b) c = true → atomReads (atomOf a) c = true) := by
  obtain ⟨a, ha⟩ : ∃ a, parsePattern (utf8 ['^', '[', 'a', '-', 'z', ']', '{', '2', '}', '$']) =
    some (.ok a) := ⟨_, rfl⟩
  obtain ⟨b, hb⟩ : ∃ b, parsePattern (utf8 ['^', '[', 'b', 'd', ']', '{', '2', ',', '2', '}', '$']) =
    some (.ok b) := ⟨_, rfl⟩
  obtain ⟨lre, hl⟩ : ∃ lre, compile (utf8 ['^', '[', 'a', '-', 'z', ']', '{', '2', '}', '$']) =
    some (.ok lre) := ⟨_, rfl⟩
  obtain ⟨sre, hs⟩ : ∃ sre, compile (utf8 ['^', '[', 'b', 'd', ']', '{', '2', ',', '2', '}', '$']) =
    some (.ok sre) := ⟨_, rfl⟩
  refine ⟨a, b, lre, sre, ha, hb, contains_sound_iff _ _ ha hb hl hs ?_⟩
  refine regexPatternContains_of ⟨maskOr maskEmpty (maskRange 'a' 'z'), "2,2"⟩
    ⟨maskOr (maskOr maskEmpty (maskSingle 'b')) (maskSingle 'd'), "2,2"⟩ rfl rfl rfl fun k hk => ?_
  simp only [maskOr, maskRange, maskEmpty, maskHas_maskOf hk, maskHas_maskSingle _ hk]
  revert k
  decide

/-- The compiler takes `\d` inside a class for the digits, the engine for the letter. -/
theorem contains_class_escape : ∃ lre sre,
    compile (utf8 ['^', '[', '0', '-', '9', ']', '$']) = some (.ok lre) ∧
    compile (utf8 ['^', '[', '\\', 'd', ']', '$']) = some (.ok sre) ∧
    regexPatternContains (utf8 ['^', '[', '0', '-', '9', ']', '$'])
      (utf8 ['^', '[', '\\', 'd', ']', '$']) = true ∧
    ¬ ∀ s, Regexp.matches s sre = some true → Regexp.matches s lre = some true :=
  ⟨_, _, rfl, rfl, regexPatternContains_of ⟨maskOr maskEmpty (maskRange '0' '9'), "1"⟩
    ⟨maskOr maskEmpty maskDigit, "1"⟩ rfl rfl rfl fun _ _ hdigit => hdigit, fun h =>
    absurd (h (ascii "d") (by decide +kernel)) (by decide +kernel)⟩

end Kaikai.RegexContains
