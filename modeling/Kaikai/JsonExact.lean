import Kaikai.JsonDecode

namespace Kaikai.Json

open Kaikai.Decimal
open Kaikai.Str
open Kaikai.Stretch

variable {ρ : Type} {stringToReal : Str → Option ρ}

/-- Finished elements, each with its comma; newest first. -/
inductive Items (stringToReal : Str → Option ρ) : Str → List (JsonValue ρ) → Prop
  | nil : Items stringToReal [] []
  | snoc {t w u w' : Str} {acc : List (JsonValue ρ)} {v : JsonValue ρ}
      (ht : Items stringToReal t acc) (hw : Blank w) (hu : Denotes stringToReal u (.value v))
      (hw' : Blank w') : Items stringToReal (t ++ w ++ u ++ w' ++ [44]) (v :: acc)

/-- Finished members, each with its comma; newest first. -/
inductive Pairs (stringToReal : Str → Option ρ) : Str → List (Str × JsonValue ρ) → Prop
  | nil : Pairs stringToReal [] []
  | snoc {t w k d w' x u y : Str} {acc : List (Str × JsonValue ρ)} {v : JsonValue ρ}
      (ht : Pairs stringToReal t acc) (hw : Blank w) (hk : Chars k d) (hw' : Blank w')
      (hx : Blank x) (hu : Denotes stringToReal u (.value v)) (hy : Blank y) :
      Pairs stringToReal (t ++ w ++ (34 :: k ++ 34 :: w' ++ 58 :: x) ++ u ++ y ++ [44])
        ((d, v) :: acc)

/-- A text that leaves these frames open, with a value to come. -/
inductive Opened (stringToReal : Str → Option ρ) : Str → List (JFrame ρ) → Prop
  | nil {w : Str} (hw : Blank w) : Opened stringToReal w []
  | array {p t w : Str} {acc : List (JsonValue ρ)} {stack : List (JFrame ρ)}
      (hp : Opened stringToReal p stack) (ht : Items stringToReal t acc) (hw : Blank w) :
      Opened stringToReal (p ++ 91 :: t ++ w) (.arrFrame acc :: stack)
  | object {p t w k d w' x : Str} {acc : List (Str × JsonValue ρ)} {stack : List (JFrame ρ)}
      (hp : Opened stringToReal p stack) (ht : Pairs stringToReal t acc) (hw : Blank w)
      (hk : Chars k d) (hw' : Blank w') (hx : Blank x) :
      Opened stringToReal (p ++ 123 :: t ++ w ++ (34 :: k ++ 34 :: w' ++ 58 :: x))
        (.objFrame acc (some d) :: stack)

theorem Items.elements {t u : Str} {acc vs : List (JsonValue ρ)} (ht : Items stringToReal t acc)
    (hu : Denotes stringToReal u (.elements vs)) :
    Denotes stringToReal (t ++ u) (.elements (acc.reverse ++ vs)) := by
  induction ht generalizing u vs with
  | nil => exact hu
  | snoc ht hw hv hw' ih =>
      have hall := ih (Denotes.element hw hv hw' hu)
      simpa only [List.reverse_cons, List.append_assoc, List.singleton_append, List.cons_append,
        List.nil_append] using hall

theorem Pairs.members {t u : Str} {acc ps : List (Str × JsonValue ρ)}
    (ht : Pairs stringToReal t acc) (hu : Denotes stringToReal u (.members ps)) :
    Denotes stringToReal (t ++ u) (.members (acc.reverse ++ ps)) := by
  induction ht generalizing u ps with
  | nil => exact hu
  | snoc ht hw hk hw' hx hv hy ih =>
      have hall := ih (Denotes.member hw hk hw' hx hv hy hu)
      simpa only [List.reverse_cons, List.append_assoc, List.singleton_append, List.cons_append,
        List.nil_append] using hall

theorem Blank.append {w w' : Str} (hw : Blank w) (hw' : Blank w') : Blank (w ++ w') := by
  intro b hb
  rcases List.mem_append.1 hb with hb | hb
  · exact hw b hb
  · exact hw' b hb

theorem Blank.nil : Blank [] := by
  intro b hb
  exact absurd hb List.not_mem_nil

theorem Opened.append {p w : Str} {stack : List (JFrame ρ)} (hp : Opened stringToReal p stack)
    (hw : Blank w) : Opened stringToReal (p ++ w) stack := by
  cases hp with
  | nil hq => exact Opened.nil (hq.append hw)
  | array hp ht hq =>
      rw [List.append_assoc]
      exact Opened.array hp ht (hq.append hw)
  | object hp ht hq hk hw' hx =>
      have hall := Opened.object hp ht hq hk hw' (hx.append hw)
      simpa only [List.append_assoc, List.cons_append] using hall

/-- What the run has read when it is at `i`. -/
def Inv (stringToReal : Str → Option ρ) (s : Str) (i : Nat) (stack : List (JFrame ρ)) :
    JMode ρ → Prop
  | .modeValue => ∃ q, Spans s 0 q i ∧ Opened stringToReal q stack
  | .modeAfterValue v => ∃ q u w, Spans s 0 (q ++ u ++ w) i ∧ Opened stringToReal q stack ∧
      Denotes stringToReal u (.value v) ∧ Blank w
  | .modeObjKey => ∃ p t w acc rest, Spans s 0 (p ++ 123 :: t ++ w) i ∧
      stack = .objFrame acc none :: rest ∧ Opened stringToReal p rest ∧
      Pairs stringToReal t acc ∧ Blank w

theorem Inv.moves {s : Str} {i j : Nat} {stack stack' : List (JFrame ρ)} {mode mode' : JMode ρ}
    (h : Inv stringToReal s i stack mode) (hm : Moves stringToReal s i stack mode j stack' mode') :
    Inv stringToReal s j stack' mode' := by
  cases hm with
  | leaf hw ht hspan =>
      obtain ⟨q, hq, hopened⟩ := h
      refine ⟨_, _, [], ?_, hopened.append hw, ht, Blank.nil⟩
      simpa only [List.append_assoc, List.append_nil] using hq.append hspan
  | openArray hw hw' hspan =>
      obtain ⟨q, hq, hopened⟩ := h
      refine ⟨_, ?_, Opened.array (hopened.append hw) Items.nil hw'⟩
      simpa only [List.append_assoc, List.cons_append, List.nil_append] using hq.append hspan
  | openObject hw hw' hspan =>
      obtain ⟨q, hq, hopened⟩ := h
      refine ⟨_, [], _, [], _, ?_, rfl, hopened.append hw, Pairs.nil, hw'⟩
      simpa only [List.append_assoc, List.cons_append, List.nil_append] using hq.append hspan
  | nextElement hw hw' hspan =>
      obtain ⟨q, u, w, hq, hopened, hu, hblank⟩ := h
      cases hopened with
      | array hp ht hw'' =>
          refine ⟨_, ?_, Opened.array hp (Items.snoc ht hw'' hu (hblank.append hw)) hw'⟩
          simpa only [List.append_assoc, List.cons_append, List.nil_append] using hq.append hspan
  | closeArray hw hspan =>
      obtain ⟨q, u, w, hq, hopened, hu, hblank⟩ := h
      cases hopened with
      | array hp ht hw'' =>
          have helements := ht.elements (Denotes.lastElement hw'' hu (hblank.append hw))
          rw [← List.reverse_cons] at helements
          refine ⟨_, _, [], ?_, hp, Denotes.array helements, Blank.nil⟩
          simpa only [List.append_assoc, List.cons_append, List.nil_append, List.append_nil]
            using hq.append hspan
  | nextMember hw hw' hspan =>
      obtain ⟨q, u, w, hq, hopened, hu, hblank⟩ := h
      cases hopened with
      | object hp ht hw'' hk hx hy =>
          refine ⟨_, _, _, _, _, ?_, rfl, hp,
            Pairs.snoc ht hw'' hk hx hy hu (hblank.append hw), hw'⟩
          simpa only [List.append_assoc, List.cons_append, List.nil_append] using hq.append hspan
  | closeObject hw hspan =>
      obtain ⟨q, u, w, hq, hopened, hu, hblank⟩ := h
      cases hopened with
      | object hp ht hw'' hk hx hy =>
          have hmembers := ht.members
            (Denotes.lastMember hw'' hk hx hy hu (hblank.append hw))
          rw [← List.reverse_cons] at hmembers
          refine ⟨_, _, [], ?_, hp, Denotes.object hmembers, Blank.nil⟩
          simpa only [List.append_assoc, List.cons_append, List.nil_append, List.append_nil]
            using hq.append hspan
  | key hw hk hw' hw'' hspan =>
      obtain ⟨p, t, w, acc, rest, hp, hstack, hopened, ht, hblank⟩ := h
      cases hstack
      refine ⟨_, ?_, Opened.object hopened ht (hblank.append hw) hk hw' hw''⟩
      simpa only [List.append_assoc, List.cons_append, List.nil_append] using hp.append hspan

/-- The value a run returns, with the text it has read. -/
def Read (stringToReal : Str → Option ρ) (s : Str) (r : JParse ρ) : Prop :=
  ∃ w t w', Spans s 0 (w ++ t ++ w') r.i ∧ Blank w ∧ Denotes stringToReal t (.value r.v) ∧
    Blank w'

theorem jsonLoop_ends {s : Str} {i : Nat} {stack : List (JFrame ρ)} {mode : JMode ρ}
    (hi : i ≤ s.length) (h : Inv stringToReal s i stack mode) :
    Ends s (Read stringToReal s) (jsonLoop stringToReal s i stack mode) := by
  have hdoes := jsonStep_does stringToReal stack mode hi
  rw [jsonLoop]
  split
  · next j stack' mode' hstep =>
      have hnext := jsonStep_next hstep
      rw [hstep] at hdoes
      exact jsonLoop_ends hnext.2 (h.moves hdoes)
  · next r hstep =>
      rw [hstep] at hdoes
      obtain ⟨rfl, rfl, hr⟩ := hdoes
      obtain ⟨q, u, w, hspan, hopened, hu, hw⟩ := h
      cases hopened with
      | nil hq => exact ⟨q, u, w, hr ▸ hspan, hq, hu, hw⟩
  · next f hstep =>
      rw [hstep] at hdoes
      exact hdoes
termination_by s.length - i

theorem jsonScan_ends (stringToReal : Str → Option ρ) (s : Str) : Ends s (Read stringToReal s) (jsonScan stringToReal s) := by
  obtain ⟨w, hspan, hw, -⟩ := exists_blank s (Nat.zero_le s.length)
  exact jsonLoop_ends hspan.inside ⟨w, hspan, Opened.nil hw⟩

/-- A byte that can stand behind a value. -/
def Follows (s : Str) (j : Nat) : Prop :=
  ∀ b, s[j]? = some b → IsBlank b ∨ b = 44 ∨ b = 93 ∨ b = 125

theorem Follows.endsNumber {s : Str} {j : Nat} (h : Follows s j) :
    ∀ b, s[j]? = some b → EndsNumber b := by
  intro b hb
  rcases h b hb with (rfl | rfl | rfl | rfl) | rfl | rfl | rfl <;>
    exact ⟨by decide, by decide, by decide, by decide⟩

theorem follows_blank {s w : Str} {j k : Nat} (h : Spans s j w k) (hw : Blank w)
    (hk : Follows s k) : Follows s j := by
  intro b hb
  cases w with
  | nil =>
      obtain ⟨rfl, -⟩ := spans_nil_iff.1 h
      exact hk b hb
  | cons a w =>
      have hab := (spans_cons_iff.1 h).1.symm.trans hb
      exact Or.inl (hw b (Option.some.inj hab ▸ List.mem_cons_self))

theorem follows_of {s : Str} {k : Nat} {b : UInt8} (hb : s[k]? = some b)
    (h : b = 44 ∨ b = 93 ∨ b = 125) : Follows s k := by
  intro a ha
  obtain rfl := Option.some.inj (hb.symm.trans ha)
  exact Or.inr h

theorem token_of {s : Str} {k : Nat} {b : UInt8} (hb : s[k]? = some b) (h : ¬ IsBlank b) :
    Token s k := by
  intro a ha
  obtain rfl := Option.some.inj (hb.symm.trans ha)
  exact h

theorem not_blank_of_digit {b : UInt8} (h : IsDigit b) : ¬ IsBlank b := by
  rintro (rfl | rfl | rfl | rfl) <;> exact absurd h (by decide)

theorem intPart_head {t : Str} {n : Int} (h : IntPart t n) :
    ∃ b u, t = b :: u ∧ (b = 45 ∨ IsDigit b) := by
  cases h with
  | nonneg hc =>
      cases t with
      | nil => exact absurd rfl hc.nonempty
      | cons b u => exact ⟨b, u, rfl, Or.inr (hc.digits b List.mem_cons_self)⟩
  | neg hc => exact ⟨45, _, rfl, Or.inl rfl⟩

theorem number_head {t : Str} {v : JsonValue ρ} (h : Number stringToReal t v) :
    ∃ b u, t = b :: u ∧ (b = 45 ∨ IsDigit b) := by
  cases h with
  | int ht => exact intPart_head ht
  | real ht =>
      obtain ⟨b, u, rfl, hb⟩ := intPart_head ht
      exact ⟨b, _, rfl, hb⟩

theorem value_head {t : Str} {v : JsonValue ρ} (h : Denotes stringToReal t (.value v)) :
    ∃ b u, t = b :: u ∧ ¬ IsBlank b ∧ b ≠ 93 := by
  cases h with
  | null => exact ⟨110, ascii "ull", rfl, by unfold IsBlank; decide, by decide⟩
  | true => exact ⟨116, ascii "rue", rfl, by unfold IsBlank; decide, by decide⟩
  | false => exact ⟨102, ascii "alse", rfl, by unfold IsBlank; decide, by decide⟩
  | number h =>
      obtain ⟨b, u, rfl, rfl | hb⟩ := number_head h
      · exact ⟨45, u, rfl, by unfold IsBlank; decide, by decide⟩
      · refine ⟨b, u, rfl, not_blank_of_digit hb, ?_⟩
        rintro rfl
        exact absurd hb (by decide)
  | string h => exact ⟨34, _, rfl, by unfold IsBlank; decide, by decide⟩
  | emptyArray hw => exact ⟨91, _, rfl, by unfold IsBlank; decide, by decide⟩
  | array h => exact ⟨91, _, rfl, by unfold IsBlank; decide, by decide⟩
  | emptyObject hw => exact ⟨123, _, rfl, by unfold IsBlank; decide, by decide⟩
  | object h => exact ⟨123, _, rfl, by unfold IsBlank; decide, by decide⟩

theorem elements_head {t : Str} {vs : List (JsonValue ρ)}
    (h : Denotes stringToReal t (.elements vs)) :
    ∃ w b u, t = w ++ b :: u ∧ Blank w ∧ ¬ IsBlank b ∧ b ≠ 93 := by
  cases h with
  | @lastElement w t w' v hw ht hw' =>
      obtain ⟨b, u, rfl, hb⟩ := value_head ht
      exact ⟨w, b, u ++ w', by rw [List.append_assoc, List.cons_append], hw, hb⟩
  | @element w t w' u' v vs hw ht hw' hu =>
      obtain ⟨b, u, rfl, hb⟩ := value_head ht
      refine ⟨w, b, u ++ w' ++ 44 :: u', ?_, hw, hb⟩
      simp only [List.append_assoc, List.cons_append]

theorem members_head {t : Str} {ps : List (Str × JsonValue ρ)}
    (h : Denotes stringToReal t (.members ps)) : ∃ w u, t = w ++ 34 :: u ∧ Blank w := by
  cases h with
  | @lastMember w k d w' x t y v hw =>
      refine ⟨w, k ++ 34 :: w' ++ 58 :: x ++ t ++ y, ?_, hw⟩
      simp only [List.append_assoc, List.cons_append]
  | @member w k d w' x t y u v ps hw =>
      refine ⟨w, k ++ 34 :: w' ++ 58 :: x ++ t ++ y ++ 44 :: u, ?_, hw⟩
      simp only [List.append_assoc, List.cons_append]

theorem jsonLoop_eq (stringToReal : Str → Option ρ) (s : Str) (i : Nat)
    (stack : List (JFrame ρ)) (mode : JMode ρ) : jsonLoop stringToReal s i stack mode =
      match jsonStep stringToReal s i stack mode with
      | .stepGo j stack' mode' => jsonLoop stringToReal s j stack' mode'
      | .stepDone r => .ok r
      | .stepFail f => .error f := by
  rw [jsonLoop]
  split <;> next hstep => rw [hstep]

theorem jsonLoop_go {s : Str} {i j : Nat} {stack stack' : List (JFrame ρ)} {mode mode' : JMode ρ}
    (h : jsonStep stringToReal s i stack mode = .stepGo j stack' mode') :
    jsonLoop stringToReal s i stack mode = jsonLoop stringToReal s j stack' mode' := by
  rw [jsonLoop_eq, h]

theorem jsonLoop_congr {s : Str} {i j : Nat} {stack : List (JFrame ρ)} {mode : JMode ρ}
    (h : jsonStep stringToReal s i stack mode = jsonStep stringToReal s j stack mode) :
    jsonLoop stringToReal s i stack mode = jsonLoop stringToReal s j stack mode := by
  rw [jsonLoop_eq, h, ← jsonLoop_eq]

theorem jsonLoop_value_skip {s w : Str} {i j : Nat} {stack : List (JFrame ρ)}
    (h : Spans s i w j) (hw : Blank w) :
    jsonLoop stringToReal s i stack .modeValue = jsonLoop stringToReal s j stack .modeValue := by
  apply jsonLoop_congr
  simp only [jsonStep, jsonStepValue, jsonSkipWs_blank h hw]

theorem jsonLoop_key_skip {s w : Str} {i j : Nat} {stack : List (JFrame ρ)}
    (h : Spans s i w j) (hw : Blank w) :
    jsonLoop stringToReal s i stack .modeObjKey = jsonLoop stringToReal s j stack .modeObjKey := by
  apply jsonLoop_congr
  simp only [jsonStep, jsonStepKey, jsonSkipWs_blank h hw]

/-- How a text drives a run that stands before it. -/
def Drives (stringToReal : Str → Option ρ) (s t : Str) : Part ρ → Prop
  | .value v => ∀ i j stack, Spans s i t j → Follows s j →
      jsonLoop stringToReal s i stack .modeValue =
        jsonLoop stringToReal s j stack (.modeAfterValue v)
  | .elements vs => ∀ i j acc stack, Spans s i t j → s[j]? = some 93 →
      jsonLoop stringToReal s i (.arrFrame acc :: stack) .modeValue =
        jsonLoop stringToReal s (j + 1) stack (.modeAfterValue (.jArr (acc.reverse ++ vs)))
  | .members ps => ∀ i j acc stack, Spans s i t j → s[j]? = some 125 →
      jsonLoop stringToReal s i (.objFrame acc none :: stack) .modeObjKey =
        jsonLoop stringToReal s (j + 1) stack (.modeAfterValue (.jObj (acc.reverse ++ ps)))

theorem charAt_ne {s : Str} {i : Nat} {b : UInt8} {c : Char} (hb : s[i]? = some b)
    (h : b.toNat ≠ c.toNat) : charAt s i ≠ some c := by
  rw [charAt, hb, Option.map_some]
  intro hc
  exact h (ofByte_eq_iff.1 (Option.some.inj hc))

theorem jsonLoop_leaf {s : Str} {i j : Nat} {stack : List (JFrame ρ)} {v : JsonValue ρ}
    {r : Except JFail (JParse ρ)}
    (hstep : jsonStep stringToReal s i stack .modeValue = jsonLeaf r stack) (hr : r = .ok ⟨v, j⟩) :
    jsonLoop stringToReal s i stack .modeValue =
      jsonLoop stringToReal s j stack (.modeAfterValue v) := by
  apply jsonLoop_go
  rw [hstep, hr]
  rfl

theorem null_drives (s : Str) :
    Drives stringToReal s (ascii "null") (.value (.jNull : JsonValue ρ)) := by
  intro i j stack h _
  have hb : s[i]? = some 110 := (spans_cons_iff.1 h).1
  have htoken : Token s i := token_of hb (by unfold IsBlank; decide)
  have hc : charAt s i = some 'n' := (charAt_iff rfl).2 hb
  have hstep : jsonStep stringToReal s i stack .modeValue = jsonLeaf (jsonParseNull s i) stack := by
    simp [jsonStep, jsonStepValue, jsonSkipWs_token htoken, hc]
  apply jsonLoop_leaf hstep
  rw [jsonParseNull, jsonMatchLit_iff.2 h]
  rfl

theorem true_drives (s : Str) :
    Drives stringToReal s (ascii "true") (.value (.jBool true : JsonValue ρ)) := by
  intro i j stack h _
  have hb : s[i]? = some 116 := (spans_cons_iff.1 h).1
  have htoken : Token s i := token_of hb (by unfold IsBlank; decide)
  have hc : charAt s i = some 't' := (charAt_iff rfl).2 hb
  have hstep : jsonStep stringToReal s i stack .modeValue = jsonLeaf (jsonParseBool s i) stack := by
    simp [jsonStep, jsonStepValue, jsonSkipWs_token htoken, hc]
  apply jsonLoop_leaf hstep
  rw [jsonParseBool, jsonMatchLit_iff.2 h]
  rfl

theorem false_drives (s : Str) :
    Drives stringToReal s (ascii "false") (.value (.jBool false : JsonValue ρ)) := by
  intro i j stack h _
  have hb : s[i]? = some 102 := (spans_cons_iff.1 h).1
  have htoken : Token s i := token_of hb (by unfold IsBlank; decide)
  have hc : charAt s i = some 'f' := (charAt_iff rfl).2 hb
  have hstep : jsonStep stringToReal s i stack .modeValue = jsonLeaf (jsonParseBool s i) stack := by
    simp [jsonStep, jsonStepValue, jsonSkipWs_token htoken, hc]
  have hno : jsonMatchLit s i (ascii "true") = none := by
    rw [Option.eq_none_iff_forall_ne_some]
    intro k hk
    have hfirst : s[i]? = some 116 := (spans_cons_iff.1 (jsonMatchLit_iff.1 hk)).1
    exact absurd (hb.symm.trans hfirst) (by decide)
  apply jsonLoop_leaf hstep
  rw [jsonParseBool, hno, jsonMatchLit_iff.2 h]
  rfl

theorem string_drives {s t d : Str} (ht : Chars t d) :
    Drives stringToReal s (34 :: t ++ [34]) (.value (.jStr d : JsonValue ρ)) := by
  intro i j stack h _
  have hb : s[i]? = some 34 := (spans_cons_iff.1 h).1
  have htoken : Token s i := token_of hb (by unfold IsBlank; decide)
  have hc : charAt s i = some '"' := (charAt_iff rfl).2 hb
  have hstep : jsonStep stringToReal s i stack .modeValue =
      jsonLeaf (jsonParseString s i) stack := by
    simp [jsonStep, jsonStepValue, jsonSkipWs_token htoken, hc]
  exact jsonLoop_leaf hstep (jsonParseString_eq h ht)

theorem number_drives {s t : Str} {v : JsonValue ρ} (ht : Number stringToReal t v) :
    Drives stringToReal s t (.value v) := by
  intro i j stack h hfollows
  obtain ⟨b, u, rfl, hhead⟩ := number_head ht
  have hb : s[i]? = some b := (spans_cons_iff.1 h).1
  have hstep : jsonStep stringToReal s i stack .modeValue =
      jsonLeaf (jsonParseNumber stringToReal s i) stack := by
    rcases hhead with rfl | hdigit
    · have htoken : Token s i := token_of hb (by unfold IsBlank; decide)
      have hc : charAt s i = some '-' := (charAt_iff rfl).2 hb
      simp [jsonStep, jsonStepValue, jsonSkipWs_token htoken, hc]
    · have htoken : Token s i := token_of hb (not_blank_of_digit hdigit)
      have hc : charAt s i = some (Char.ofNat b.toNat) := by rw [charAt, hb, Option.map_some]
      have hne : ∀ {c : Char}, c.toNat < 48 ∨ 57 < c.toNat →
          ¬ some (Char.ofNat b.toNat) = some c := by
        intro c hout
        rw [← hc]
        apply charAt_ne hb
        unfold IsDigit at hdigit
        omega
      simp only [jsonStep, jsonStepValue, jsonSkipWs_token htoken, hc]
      rw [if_neg (hne (by decide)), if_neg (hne (by decide)), if_neg (hne (by decide)),
        if_neg (hne (by decide)), if_neg (hne (by decide)), if_neg (hne (by decide)),
        if_neg (hne (by decide)), if_pos (charIsDigit_iff.2 hdigit)]
  exact jsonLoop_leaf hstep (jsonParseNumber_eq h ht hfollows.endsNumber)

theorem empty_drives {s w : Str} (hw : Blank w) :
    Drives stringToReal s (91 :: w ++ [93]) (.value (.jArr [] : JsonValue ρ)) ∧
      Drives stringToReal s (123 :: w ++ [125]) (.value (.jObj [] : JsonValue ρ)) := by
  have hspans : ∀ {a b : UInt8} {i j : Nat}, Spans s i (a :: w ++ [b]) j → ¬ IsBlank b →
      s[i]? = some a ∧ ∃ k, jsonSkipWs s (i + 1) = k ∧ s[k]? = some b ∧ k + 1 = j := by
    intro a b i j h hb
    rw [List.cons_append, spans_cons_iff, spans_append_iff] at h
    obtain ⟨ha, k, hblank, hend⟩ := h
    obtain ⟨hk, hend⟩ := spans_cons_iff.1 hend
    exact ⟨ha, k, jsonSkipWs_eq hblank hw (token_of hk hb), hk, (spans_nil_iff.1 hend).1⟩
  constructor
  · intro i j stack h _
    obtain ⟨ha, k, hskip, hk, rfl⟩ := hspans h (by unfold IsBlank; decide)
    have htoken : Token s i := token_of ha (by unfold IsBlank; decide)
    have hc : charAt s i = some '[' := (charAt_iff rfl).2 ha
    have hclose : charAt s k = some ']' := (charAt_iff rfl).2 hk
    apply jsonLoop_go
    simp [jsonStep, jsonStepValue, jsonSkipWs_token htoken, hc, hskip, hclose]
  · intro i j stack h _
    obtain ⟨ha, k, hskip, hk, rfl⟩ := hspans h (by unfold IsBlank; decide)
    have htoken : Token s i := token_of ha (by unfold IsBlank; decide)
    have hc : charAt s i = some '\x7b' := (charAt_iff rfl).2 ha
    have hclose : charAt s k = some '\x7d' := (charAt_iff rfl).2 hk
    apply jsonLoop_go
    simp [jsonStep, jsonStepValue, jsonSkipWs_token htoken, hc, hskip, hclose]

theorem array_drives {s t : Str} {vs : List (JsonValue ρ)}
    (ht : Denotes stringToReal t (.elements vs)) (ih : Drives stringToReal s t (.elements vs)) :
    Drives stringToReal s (91 :: t ++ [93]) (.value (.jArr vs)) := by
  intro i j stack h _
  rw [List.cons_append, spans_cons_iff, spans_append_iff] at h
  obtain ⟨hb, k, hspan, hend⟩ := h
  obtain ⟨hk, hend⟩ := spans_cons_iff.1 hend
  obtain ⟨rfl, -⟩ := spans_nil_iff.1 hend
  obtain ⟨w, a, u, rfl, hw, hblank, hclose⟩ := elements_head ht
  obtain ⟨m, hwspan, hm⟩ := spans_append_iff.1 hspan
  have ha : s[m]? = some a := (spans_cons_iff.1 hm).1
  have htoken : Token s i := token_of hb (by unfold IsBlank; decide)
  have hc : charAt s i = some '[' := (charAt_iff rfl).2 hb
  have hskip := jsonSkipWs_eq hwspan hw (token_of ha hblank)
  have hne : charAt s m ≠ some ']' :=
    charAt_ne ha fun h => hclose (UInt8.toNat_inj.1 h)
  have hgo : jsonStep stringToReal s i stack .modeValue =
      .stepGo m (.arrFrame [] :: stack) .modeValue := by
    simp [jsonStep, jsonStepValue, jsonSkipWs_token htoken, hc, hskip, hne]
  rw [jsonLoop_go hgo, ← jsonLoop_value_skip hwspan hw, ih _ _ [] stack hspan hk]
  rfl

theorem object_drives {s t : Str} {ps : List (Str × JsonValue ρ)}
    (ht : Denotes stringToReal t (.members ps)) (ih : Drives stringToReal s t (.members ps)) :
    Drives stringToReal s (123 :: t ++ [125]) (.value (.jObj ps)) := by
  intro i j stack h _
  rw [List.cons_append, spans_cons_iff, spans_append_iff] at h
  obtain ⟨hb, k, hspan, hend⟩ := h
  obtain ⟨hk, hend⟩ := spans_cons_iff.1 hend
  obtain ⟨rfl, -⟩ := spans_nil_iff.1 hend
  obtain ⟨w, u, rfl, hw⟩ := members_head ht
  obtain ⟨m, hwspan, hm⟩ := spans_append_iff.1 hspan
  have ha : s[m]? = some 34 := (spans_cons_iff.1 hm).1
  have htoken : Token s i := token_of hb (by unfold IsBlank; decide)
  have hc : charAt s i = some '\x7b' := (charAt_iff rfl).2 hb
  have hskip := jsonSkipWs_eq hwspan hw (token_of ha (by unfold IsBlank; decide))
  have hne : charAt s m = some '"' := (charAt_iff rfl).2 ha
  have hgo : jsonStep stringToReal s i stack .modeValue =
      .stepGo m (.objFrame [] none :: stack) .modeObjKey := by
    simp [jsonStep, jsonStepValue, jsonSkipWs_token htoken, hc, hskip, hne]
  rw [jsonLoop_go hgo, ← jsonLoop_key_skip hwspan hw, ih _ _ [] stack hspan hk]
  rfl

theorem not_blank_of_punctuation {b : UInt8} (h : b = 44 ∨ b = 93 ∨ b = 125) : ¬ IsBlank b := by
  unfold IsBlank
  rcases h with rfl | rfl | rfl <;> decide

theorem jsonLoop_after_element {s y : Str} {j k : Nat} {acc : List (JsonValue ρ)}
    {v : JsonValue ρ} {stack : List (JFrame ρ)} (hy : Blank y) (h : Spans s j y k) :
    (s[k]? = some 93 → jsonLoop stringToReal s j (.arrFrame acc :: stack) (.modeAfterValue v) =
      jsonLoop stringToReal s (k + 1) stack (.modeAfterValue (.jArr (acc.reverse ++ [v])))) ∧
    (s[k]? = some 44 → jsonLoop stringToReal s j (.arrFrame acc :: stack) (.modeAfterValue v) =
      jsonLoop stringToReal s (k + 1) (.arrFrame (v :: acc) :: stack) .modeValue) := by
  constructor
  · intro hk
    have hskip := jsonSkipWs_eq h hy (token_of hk (not_blank_of_punctuation (by decide)))
    have hc : charAt s k = some ']' := (charAt_iff rfl).2 hk
    apply jsonLoop_go
    simp [jsonStep, jsonStepAfter, hskip, hc]
  · intro hk
    have hskip := jsonSkipWs_eq h hy (token_of hk (not_blank_of_punctuation (by decide)))
    have hc : charAt s k = some ',' := (charAt_iff rfl).2 hk
    obtain ⟨w, hw, hspan⟩ := exists_token hk
    have hgo : jsonStep stringToReal s j (.arrFrame acc :: stack) (.modeAfterValue v) =
        .stepGo (jsonSkipWs s (k + 1)) (.arrFrame (v :: acc) :: stack) .modeValue := by
      simp [jsonStep, jsonStepAfter, hskip, hc]
    rw [jsonLoop_go hgo, ← jsonLoop_value_skip (spans_cons_iff.1 hspan).2 hw]

theorem jsonLoop_after_member {s y : Str} {j k : Nat} {acc : List (Str × JsonValue ρ)} {d : Str}
    {v : JsonValue ρ} {stack : List (JFrame ρ)} (hy : Blank y) (h : Spans s j y k) :
    (s[k]? = some 125 →
      jsonLoop stringToReal s j (.objFrame acc (some d) :: stack) (.modeAfterValue v) =
      jsonLoop stringToReal s (k + 1) stack (.modeAfterValue (.jObj (acc.reverse ++ [(d, v)])))) ∧
    (s[k]? = some 44 →
      jsonLoop stringToReal s j (.objFrame acc (some d) :: stack) (.modeAfterValue v) =
      jsonLoop stringToReal s (k + 1) (.objFrame ((d, v) :: acc) none :: stack) .modeObjKey) := by
  constructor
  · intro hk
    have hskip := jsonSkipWs_eq h hy (token_of hk (not_blank_of_punctuation (by decide)))
    have hc : charAt s k = some '\x7d' := (charAt_iff rfl).2 hk
    apply jsonLoop_go
    simp [jsonStep, jsonStepAfter, hskip, hc]
  · intro hk
    have hskip := jsonSkipWs_eq h hy (token_of hk (not_blank_of_punctuation (by decide)))
    have hc : charAt s k = some ',' := (charAt_iff rfl).2 hk
    obtain ⟨w, hw, hspan⟩ := exists_token hk
    have hgo : jsonStep stringToReal s j (.objFrame acc (some d) :: stack) (.modeAfterValue v) =
        .stepGo (jsonSkipWs s (k + 1)) (.objFrame ((d, v) :: acc) none :: stack) .modeObjKey := by
      simp [jsonStep, jsonStepAfter, hskip, hc]
    rw [jsonLoop_go hgo, ← jsonLoop_key_skip (spans_cons_iff.1 hspan).2 hw]

theorem jsonLoop_element {s w t y : Str} {i k : Nat} {v : JsonValue ρ}
    (stack : List (JFrame ρ)) (hw : Blank w) (hy : Blank y)
    (hv : Drives stringToReal s t (.value v)) (h : Spans s i (w ++ t ++ y) k)
    (hk : Follows s k) : ∃ j, Spans s j y k ∧
      jsonLoop stringToReal s i stack .modeValue =
        jsonLoop stringToReal s j stack (.modeAfterValue v) := by
  obtain ⟨j, hwt, hyspan⟩ := spans_append_iff.1 h
  obtain ⟨m, hwspan, htspan⟩ := spans_append_iff.1 hwt
  refine ⟨j, hyspan, ?_⟩
  rw [jsonLoop_value_skip hwspan hw, hv m j stack htspan (follows_blank hyspan hy hk)]

theorem jsonLoop_key {s w k d w' x : Str} {i j : Nat} {acc : List (Str × JsonValue ρ)}
    (stack : List (JFrame ρ)) (hw : Blank w) (hk : Chars k d) (hw' : Blank w') (hx : Blank x)
    (h : Spans s i (w ++ (34 :: k ++ 34 :: w' ++ 58 :: x)) j) :
    jsonLoop stringToReal s i (.objFrame acc none :: stack) .modeObjKey =
      jsonLoop stringToReal s j (.objFrame acc (some d) :: stack) .modeValue := by
  obtain ⟨m, hwspan, h⟩ := spans_append_iff.1 h
  obtain ⟨c, hkey, hcolon⟩ := spans_append_iff.1 h
  have hsplit : 34 :: k ++ 34 :: w' = 34 :: k ++ [34] ++ w' := by
    simp only [List.append_assoc, List.singleton_append]
  rw [hsplit] at hkey
  obtain ⟨p, hkey, hblank⟩ := spans_append_iff.1 hkey
  obtain ⟨hc, hrest⟩ := spans_cons_iff.1 hcolon
  have hquote : s[m]? = some 34 := (spans_cons_iff.1 hkey).1
  have hskip := jsonSkipWs_eq hwspan hw (token_of hquote (by unfold IsBlank; decide))
  have hskip' := jsonSkipWs_eq hblank hw' (token_of hc (by unfold IsBlank; decide))
  have hq : charAt s m = some '"' := (charAt_iff rfl).2 hquote
  have hcolonChar : charAt s c = some ':' := (charAt_iff rfl).2 hc
  have hparse := jsonParseString_eq (ρ := ρ) hkey hk
  have hgo : jsonStep stringToReal s i (.objFrame acc none :: stack) .modeObjKey =
      .stepGo (jsonSkipWs s (c + 1)) (.objFrame acc (some d) :: stack) .modeValue := by
    simp [jsonStep, jsonStepKey, hskip, hq, hparse, jsonStepColon, hskip', hcolonChar, jsonKeyText]
  obtain ⟨w'', hw'', hspan⟩ := exists_token hc
  rw [jsonLoop_go hgo, ← jsonLoop_value_skip (spans_cons_iff.1 hspan).2 hw'',
    jsonLoop_value_skip hrest hx]

theorem drives {s t : Str} {part : Part ρ} (h : Denotes stringToReal t part) :
    Drives stringToReal s t part := by
  induction h with
  | null => exact null_drives s
  | true => exact true_drives s
  | false => exact false_drives s
  | number h => exact number_drives h
  | string h => exact string_drives h
  | emptyArray hw => exact (empty_drives hw).1
  | emptyObject hw => exact (empty_drives hw).2
  | array h ih => exact array_drives h ih
  | object h ih => exact object_drives h ih
  | lastElement hw ht hy ih =>
      intro i k acc stack h hk
      obtain ⟨j, hyspan, hloop⟩ := jsonLoop_element (.arrFrame acc :: stack) hw hy ih h
        (follows_of hk (by decide))
      rw [hloop, (jsonLoop_after_element hy hyspan).1 hk]
  | element hw ht hy hu ih ihu =>
      intro i k acc stack h hk
      obtain ⟨m, hfirst, hrest⟩ := spans_append_iff.1 h
      obtain ⟨hcomma, hrest⟩ := spans_cons_iff.1 hrest
      obtain ⟨j, hyspan, hloop⟩ := jsonLoop_element (.arrFrame acc :: stack) hw hy ih hfirst
        (follows_of hcomma (by decide))
      rw [hloop, (jsonLoop_after_element hy hyspan).2 hcomma, ihu _ k _ stack hrest hk,
        List.reverse_cons, List.append_assoc, List.singleton_append]
  | lastMember hw hkey hw' hx ht hy ih =>
      intro i k acc stack h hk
      rw [List.append_assoc] at h
      obtain ⟨m, hhead, hvalue⟩ := spans_append_iff.1 h
      obtain ⟨j, hyspan, hloop⟩ := jsonLoop_element (.objFrame acc (some _) :: stack) Blank.nil hy
        ih hvalue (follows_of hk (by decide))
      rw [jsonLoop_key stack hw hkey hw' hx hhead, hloop, (jsonLoop_after_member hy hyspan).1 hk]
  | member hw hkey hw' hx ht hy hu ih ihu =>
      intro i k acc stack h hk
      obtain ⟨n, hfirst, hrest⟩ := spans_append_iff.1 h
      obtain ⟨hcomma, hrest⟩ := spans_cons_iff.1 hrest
      rw [List.append_assoc] at hfirst
      obtain ⟨m, hhead, hvalue⟩ := spans_append_iff.1 hfirst
      obtain ⟨j, hyspan, hloop⟩ := jsonLoop_element (.objFrame acc (some _) :: stack) Blank.nil hy
        ih hvalue (follows_of hcomma (by decide))
      rw [jsonLoop_key stack hw hkey hw' hx hhead, hloop,
        (jsonLoop_after_member hy hyspan).2 hcomma, ihu _ k _ stack hrest hk, List.reverse_cons,
        List.append_assoc, List.singleton_append]

theorem jsonComplete_iff {s : Str} {r : JParse ρ} (hr : r.i ≤ s.length) :
    jsonComplete s r = true ↔ ∃ w, Spans s r.i w s.length ∧ Blank w := by
  rw [jsonComplete, decide_eq_true_eq]
  constructor
  · intro h
    obtain ⟨w, hspan, hw, -⟩ := exists_blank s hr
    exact ⟨w, h ▸ hspan, hw⟩
  · rintro ⟨w, hspan, hw⟩
    apply jsonSkipWs_eq hspan hw
    intro b hb
    exact absurd (List.getElem?_eq_some_iff.1 hb).1 (Nat.lt_irrefl _)

theorem jsonScan_iff (s : Str) (v : JsonValue ρ) :
    (∃ r, jsonScan stringToReal s = .ok r ∧ jsonComplete s r = true ∧ r.v = v) ↔
      Text stringToReal s v := by
  constructor
  · rintro ⟨r, hscan, hcomplete, rfl⟩
    have hends := jsonScan_ends stringToReal s
    rw [hscan] at hends
    obtain ⟨w, t, w', hspan, hw, ht, hw'⟩ := hends
    obtain ⟨y, hyspan, hy⟩ := (jsonComplete_iff hspan.inside).1 hcomplete
    have hwhole := spans_whole_iff.1 (hspan.append hyspan)
    refine ⟨w, t, w' ++ y, hw, ht, hw'.append hy, ?_⟩
    rw [← hwhole]
    simp only [List.append_assoc]
  · rintro ⟨w, t, w', hw, ht, hw', rfl⟩
    have hspan := spans_whole_iff.2 (rfl : w ++ t ++ w' = w ++ t ++ w')
    obtain ⟨j, hwt, hend⟩ := spans_append_iff.1 hspan
    obtain ⟨i, hwspan, htspan⟩ := spans_append_iff.1 hwt
    have hfollows : Follows (w ++ t ++ w') j := by
      apply follows_blank hend hw'
      intro b hb
      exact absurd (List.getElem?_eq_some_iff.1 hb).1 (Nat.lt_irrefl _)
    have hscan : jsonScan stringToReal (w ++ t ++ w') = .ok ⟨v, j⟩ := by
      obtain ⟨x, hx, hblank, -⟩ := exists_blank (w ++ t ++ w') (Nat.zero_le _)
      rw [jsonScan, ← jsonLoop_value_skip hx hblank, jsonLoop_value_skip hwspan hw,
        drives ht i j [] htspan hfollows, jsonLoop_eq]
      rfl
    exact ⟨⟨v, j⟩, hscan, (jsonComplete_iff hend.start_le).2 ⟨w', hend, hw'⟩, rfl⟩

theorem jsonDecode_iff (s : Str) (v : JsonValue ρ) :
    jsonDecode stringToReal s = some v ↔ Text stringToReal s v := by
  rw [← jsonScan_iff, jsonDecode]
  cases hscan : jsonScan stringToReal s with
  | error f => simp
  | ok r =>
      simp only [jsonFinish, Except.ok.injEq, exists_eq_left']
      split_ifs with hcomplete <;> simp [hcomplete]

def newlines (t : Str) : Nat := t.count 10

/-- What follows the last newline. -/
def lastLine (t : Str) : Str := (t.reverse.takeWhile fun b => b ≠ 10).reverse

/-- A byte that is no UTF-8 continuation byte. -/
def StartsChar (b : UInt8) : Prop := ¬ (0x80 ≤ b.toNat ∧ b.toNat < 0xC0)

instance (b : UInt8) : Decidable (StartsChar b) := inferInstanceAs (Decidable (¬ _))

def characters (t : Str) : Nat := t.countP fun b => StartsChar b

theorem lastLine_snoc (t : Str) (b : UInt8) :
    lastLine (t ++ [b]) = if b = 10 then [] else lastLine t ++ [b] := by
  rw [lastLine, List.reverse_append, List.reverse_singleton, List.singleton_append,
    List.takeWhile_cons]
  split_ifs with h10 <;> simp_all [lastLine]

/-- A location in a text: its line and its column are counted from the start. -/
def Located (s : Str) (e : JsonParseError) : Prop :=
  e.offset ≤ s.length ∧ e.line = 1 + newlines (s.take e.offset) ∧
    e.column = 1 + characters (lastLine (s.take e.offset))

theorem jsonLocate_located {s : Str} {f : JFail} {i line col : Nat} (hf : f.pos ≤ s.length)
    (hi : i ≤ f.pos) (hline : line = 1 + newlines (s.take i))
    (hcol : col = 1 + characters (lastLine (s.take i))) :
    Located s (jsonLocate s f i line col) := by
  rw [jsonLocate]
  split_ifs with hend
  · obtain rfl : i = f.pos := Nat.le_antisymm hi hend
    exact ⟨hf, hline, hcol⟩
  have hb : s[i]? = some s[i] := List.getElem?_eq_getElem (by omega)
  have htake : s.take (i + 1) = s.take i ++ [s[i]] := by
    rw [List.take_add_one, hb, Option.toList_some]
  have hcode : stringByteAtInt s i = s[i].toNat := (stringByteAtInt_iff rfl).2 hb
  have hnewline : (s[i].toNat : Int) = 10 ↔ s[i] = 10 := by
    have hten : stringByteAtInt s i = 10 ↔ s[i]? = some 10 := stringByteAtInt_iff rfl
    rw [← hcode, hten, hb, Option.some.injEq]
  have hcount : newlines (s.take (i + 1)) =
      newlines (s.take i) + if s[i] = 10 then 1 else 0 := by
    rw [newlines, newlines, htake, List.count_append, List.count_singleton]
    simp
  have hlast := lastLine_snoc (s.take i) s[i]
  rw [← htake] at hlast
  have hchars : ∀ t : Str, characters (t ++ [s[i]]) =
      characters t + if StartsChar s[i] then 1 else 0 := by
    intro t
    rw [characters, List.countP_append, List.countP_singleton, characters]
    simp
  simp only [hcode, hnewline]
  split_ifs with h10 hcont
  · apply jsonLocate_located hf (by omega)
    · rw [hline, hcount, if_pos h10, Nat.add_assoc]
    · rw [hlast, if_pos h10]
      rfl
  · apply jsonLocate_located hf (by omega)
    · rw [hline, hcount, if_neg h10, Nat.add_zero]
    · have hno : ¬ StartsChar s[i] := not_not_intro ⟨by omega, by omega⟩
      rw [hlast, if_neg h10, hchars, if_neg hno, hcol, Nat.add_zero]
  · apply jsonLocate_located hf (by omega)
    · rw [hline, hcount, if_neg h10, Nat.add_zero]
    · have hstart : StartsChar s[i] := fun h => hcont ⟨by omega, by omega⟩
      rw [hlast, if_neg h10, hchars, if_pos hstart, hcol, Nat.add_assoc]
termination_by f.pos - i

theorem jsonDecodeReport_iff (s : Str) (v : JsonValue ρ) :
    jsonDecodeReport stringToReal s = .ok v ↔ Text stringToReal s v := by
  rw [← jsonScan_iff, jsonDecodeReport]
  cases hscan : jsonScan stringToReal s with
  | error f => simp
  | ok r =>
      simp only [Except.ok.injEq, exists_eq_left']
      split_ifs with hcomplete <;> simp [hcomplete]

theorem jsonDecodeReport_located {s : Str} {e : JsonParseError}
    (h : jsonDecodeReport stringToReal s = .error e) : Located s e := by
  have hends := jsonScan_ends stringToReal s
  rw [jsonDecodeReport] at h
  cases hscan : jsonScan stringToReal s with
  | error f =>
      rw [hscan] at h hends
      obtain rfl := Except.error.inj h
      exact jsonLocate_located hends (Nat.zero_le _) rfl rfl
  | ok r =>
      rw [hscan] at h hends
      obtain ⟨w, t, w', hspan, -⟩ := hends
      obtain ⟨y, hy, -⟩ := exists_blank s hspan.inside
      simp only at h
      split_ifs at h
      obtain rfl := Except.error.inj h
      exact jsonLocate_located hy.inside (Nat.zero_le _) rfl rfl

/-- The decoder accepts the texts of the grammar, gives the tree that the text denotes, and
locates every other text's failure inside the text. -/
theorem decoder_exact (stringToReal : Str → Option ρ) (s : Str) :
    (∀ v, jsonDecode stringToReal s = some v ↔ Text stringToReal s v) ∧
    (∀ v, jsonDecodeReport stringToReal s = .ok v ↔ Text stringToReal s v) ∧
    (∀ e, jsonDecodeReport stringToReal s = .error e → e.offset ≤ s.length ∧
      e.line = 1 + newlines (s.take e.offset) ∧
      e.column = 1 + characters (lastLine (s.take e.offset))) :=
  ⟨jsonDecode_iff s, jsonDecodeReport_iff s, fun _ h => jsonDecodeReport_located h⟩

end Kaikai.Json
