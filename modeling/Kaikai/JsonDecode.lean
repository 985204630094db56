import Kaikai.JsonString

namespace Kaikai.Json

open Kaikai.Decimal
open Kaikai.Str
open Kaikai.Stretch

variable {ρ : Type}

/-- Skip ASCII whitespace. -/
def jsonSkipWs (s : Str) (i : Nat) : Nat :=
  if i ≥ s.length then i
  else match charAt s i with
    | none => i
    | some c =>
      if c = ' ' ∨ c = '\t' ∨ c = '\n' ∨ c = '\r' then jsonSkipWs s (i + 1) else i
termination_by s.length - i

def jsonMatchLit (s : Str) (i : Nat) (lit : Str) : Option Nat :=
  let ll := lit.length
  if i + ll > s.length then none
  else if stringSlice s i ll = lit then some (i + ll)
  else none

/-- A pending container: its items so far, newest first, and for an object the key whose
value is being parsed. -/
inductive JFrame (ρ : Type) where
  | arrFrame (acc : List (JsonValue ρ))
  | objFrame (acc : List (Str × JsonValue ρ)) (key : Option Str)

inductive JMode (ρ : Type) where
  | modeValue
  | modeAfterValue (v : JsonValue ρ)
  | modeObjKey

inductive JStep (ρ : Type) where
  | stepGo (i : Nat) (stack : List (JFrame ρ)) (mode : JMode ρ)
  | stepDone (r : JParse ρ)
  | stepFail (f : JFail)

def jsonParseNull (s : Str) (i : Nat) : Except JFail (JParse ρ) := do
  let j ← jsonNeed (jsonMatchLit s i (ascii "null")) i "invalid literal"
  jpOk .jNull j

def jsonParseBool (s : Str) (i : Nat) : Except JFail (JParse ρ) :=
  match jsonMatchLit s i (ascii "true") with
  | some j => jpOk (.jBool true) j
  | none => do
    let j ← jsonNeed (jsonMatchLit s i (ascii "false")) i "invalid literal"
    jpOk (.jBool false) j

def jsonLeaf (r : Except JFail (JParse ρ)) (stack : List (JFrame ρ)) : JStep ρ :=
  match r with
  | .error f => .stepFail f
  | .ok p => .stepGo p.i stack (.modeAfterValue p.v)

/-- A value at `i`: a leaf completes at once, a container opens a frame. -/
def jsonStepValue (stringToReal : Str → Option ρ) (s : Str) (i : Nat)
    (stack : List (JFrame ρ)) : JStep ρ :=
  let j := jsonSkipWs s i
  if charAt s j = some '\x7b' then
    if charAt s (jsonSkipWs s (j + 1)) = some '\x7d' then
      .stepGo (jsonSkipWs s (j + 1) + 1) stack (.modeAfterValue (.jObj []))
    else .stepGo (jsonSkipWs s (j + 1)) (.objFrame [] none :: stack) .modeObjKey
  else if charAt s j = some '[' then
    if charAt s (jsonSkipWs s (j + 1)) = some ']' then
      .stepGo (jsonSkipWs s (j + 1) + 1) stack (.modeAfterValue (.jArr []))
    else .stepGo (jsonSkipWs s (j + 1)) (.arrFrame [] :: stack) .modeValue
  else if charAt s j = some '"' then jsonLeaf (jsonParseString s j) stack
  else if charAt s j = some 't' then jsonLeaf (jsonParseBool s j) stack
  else if charAt s j = some 'f' then jsonLeaf (jsonParseBool s j) stack
  else if charAt s j = some 'n' then jsonLeaf (jsonParseNull s j) stack
  else if charAt s j = some '-' then jsonLeaf (jsonParseNumber stringToReal s j) stack
  else match charAt s j with
    | some c =>
      if charIsDigit c then jsonLeaf (jsonParseNumber stringToReal s j) stack
      else .stepFail (jsonStuck s j "unexpected character")
    | none => .stepFail (jsonStuck s j "unexpected character")

/-- The finished value `v` goes to the top frame. -/
def jsonStepAfter (s : Str) (i : Nat) (stack : List (JFrame ρ)) (v : JsonValue ρ) : JStep ρ :=
  let j := jsonSkipWs s i
  match stack with
  | [] => .stepDone ⟨v, i⟩
  | .arrFrame acc :: rest =>
    if charAt s j = some ',' then
      .stepGo (jsonSkipWs s (j + 1)) (.arrFrame (v :: acc) :: rest) .modeValue
    else if charAt s j = some ']' then
      .stepGo (j + 1) rest (.modeAfterValue (.jArr (v :: acc).reverse))
    else .stepFail (jsonStuck s j "expected ',' or ']'")
  | .objFrame acc (some k) :: rest =>
    if charAt s j = some ',' then
      .stepGo (jsonSkipWs s (j + 1)) (.objFrame ((k, v) :: acc) none :: rest) .modeObjKey
    else if charAt s j = some '\x7d' then
      .stepGo (j + 1) rest (.modeAfterValue (.jObj ((k, v) :: acc).reverse))
    else .stepFail (jsonStuck s j "expected ',' or '\x7d'")
  | _ => .stepFail (jsonStuck s j "unexpected value")

def jsonKeyText (v : JsonValue ρ) : Str :=
  match v with
  | .jStr k => k
  | _ => []

/-- `p` is the parsed key; the cursor must sit on `:`. -/
def jsonStepColon (s : Str) (p : JParse ρ) (stack : List (JFrame ρ)) : JStep ρ :=
  let c := jsonSkipWs s p.i
  if charAt s c = some ':' then
    match stack with
    | .objFrame acc _ :: rest =>
      .stepGo (jsonSkipWs s (c + 1)) (.objFrame acc (some (jsonKeyText p.v)) :: rest) .modeValue
    | _ => .stepFail (jsonStuck s c "unexpected key")
  else .stepFail (jsonStuck s c "expected ':'")

/-- `"key":`, with the key recorded on the top object frame. -/
def jsonStepKey (s : Str) (i : Nat) (stack : List (JFrame ρ)) : JStep ρ :=
  let j := jsonSkipWs s i
  if charAt s j = some '"' then
    match jsonParseString s j with
    | .error f => .stepFail f
    | .ok p => jsonStepColon s p stack
  else .stepFail (jsonStuck s j "expected object key")

def jsonStep (stringToReal : Str → Option ρ) (s : Str) (i : Nat) (stack : List (JFrame ρ))
    (mode : JMode ρ) : JStep ρ :=
  match mode with
  | .modeValue => jsonStepValue stringToReal s i stack
  | .modeAfterValue v => jsonStepAfter s i stack v
  | .modeObjKey => jsonStepKey s i stack

/-- The byte at the cursor is no whitespace. -/
def Token (s : Str) (j : Nat) : Prop := ∀ b, s[j]? = some b → ¬ IsBlank b

theorem blankChar_iff {b : UInt8} : (Char.ofNat b.toNat = ' ' ∨ Char.ofNat b.toNat = '\t' ∨
    Char.ofNat b.toNat = '\n' ∨ Char.ofNat b.toNat = '\r') ↔ IsBlank b := by
  have hcode : ∀ {c : Char} {a : UInt8}, a.toNat = c.toNat → (Char.ofNat b.toNat = c ↔ b = a) := by
    intro c a h
    rw [ofByte_eq_iff, ← h, UInt8.toNat_inj]
  rw [hcode (a := 32) rfl, hcode (a := 9) rfl, hcode (a := 10) rfl, hcode (a := 13) rfl, IsBlank]

theorem jsonSkipWs_token {s : Str} {i : Nat} (h : Token s i) : jsonSkipWs s i = i := by
  rw [jsonSkipWs]
  split_ifs with hi
  · rfl
  · have hb : s[i]? = some s[i] := List.getElem?_eq_getElem (by omega)
    have hc : charAt s i = some (Char.ofNat s[i].toNat) := by rw [charAt, hb, Option.map_some]
    rw [hc]
    simp only
    rw [if_neg (fun hw => h s[i] hb (blankChar_iff.1 hw))]

theorem jsonSkipWs_cons {s : Str} {i : Nat} {b : UInt8} (hb : s[i]? = some b)
    (hblank : IsBlank b) : jsonSkipWs s i = jsonSkipWs s (i + 1) := by
  obtain ⟨hi, -⟩ := List.getElem?_eq_some_iff.1 hb
  have hc : charAt s i = some (Char.ofNat b.toNat) := by rw [charAt, hb, Option.map_some]
  rw [jsonSkipWs, if_neg (by omega), hc]
  simp only
  rw [if_pos (blankChar_iff.2 hblank)]

theorem jsonSkipWs_blank {s w : Str} {i j : Nat} (h : Spans s i w j) (hw : Blank w) :
    jsonSkipWs s i = jsonSkipWs s j := by
  induction w generalizing i with
  | nil =>
      obtain ⟨rfl, -⟩ := spans_nil_iff.1 h
      rfl
  | cons b w ih =>
      obtain ⟨hb, h⟩ := spans_cons_iff.1 h
      obtain ⟨hblank, hw⟩ := List.forall_mem_cons.1 hw
      rw [jsonSkipWs_cons hb hblank, ih h hw]

theorem exists_blank (s : Str) {i : Nat} (hi : i ≤ s.length) :
    ∃ w, Spans s i w (jsonSkipWs s i) ∧ Blank w ∧ Token s (jsonSkipWs s i) := by
  by_cases htoken : Token s i
  · rw [jsonSkipWs_token htoken]
    exact ⟨[], Spans.nil hi, by simp [Blank], htoken⟩
  · simp only [Token, not_forall, not_not] at htoken
    obtain ⟨b, hb, hblank⟩ := htoken
    obtain ⟨hlt, -⟩ := List.getElem?_eq_some_iff.1 hb
    obtain ⟨w, hspan, hw, hend⟩ := exists_blank s hlt
    rw [jsonSkipWs_cons hb hblank]
    exact ⟨b :: w, hspan.cons hb, List.forall_mem_cons.2 ⟨hblank, hw⟩, hend⟩
termination_by s.length - i

theorem jsonSkipWs_eq {s w : Str} {i j : Nat} (h : Spans s i w j) (hw : Blank w)
    (hj : Token s j) : jsonSkipWs s i = j := by
  rw [jsonSkipWs_blank h hw, jsonSkipWs_token hj]

theorem jsonMatchLit_iff {s lit : Str} {i j : Nat} :
    jsonMatchLit s i lit = some j ↔ Spans s i lit j := by
  simp only [jsonMatchLit]
  split_ifs with hlong hslice
  · constructor
    · intro h
      exact absurd h (by simp)
    · intro h
      have hstop := h.stop
      have hinside := h.inside
      omega
  · have hspan := (stringSlice_eq_iff (by omega)).1 hslice
    rw [Option.some.injEq]
    constructor
    · rintro rfl
      exact hspan
    · intro h
      exact h.stop
  · constructor
    · intro h
      exact absurd h (by simp)
    · intro h
      rw [← h.stop] at h
      exact absurd ((stringSlice_eq_iff h.inside).2 h) hslice

theorem number_denotes {stringToReal : Str → Option ρ} {s : Str} {i : Nat} (hi : i ≤ s.length) :
    Ends s (fun p => ∃ t, Spans s i t p.i ∧ Denotes stringToReal t (.value p.v))
      (jsonParseNumber stringToReal s i) := by
  apply (jsonParseNumber_ends stringToReal hi).mono
  rintro p ⟨t, hspan, ht⟩
  exact ⟨t, hspan, Denotes.number ht⟩

theorem string_denotes (stringToReal : Str → Option ρ) {s : Str} {i : Nat}
    (hb : s[i]? = some 34) :
    Ends s (fun p => ∃ t, Spans s i t p.i ∧ Denotes stringToReal t (.value p.v))
      (jsonParseString s i) := by
  apply (jsonParseString_ends hb).mono
  rintro p ⟨t, d, hspan, ht, hv⟩
  exact ⟨34 :: t ++ [34], hspan, hv ▸ Denotes.string ht⟩

theorem null_denotes (stringToReal : Str → Option ρ) {s : Str} {i : Nat} (hi : i ≤ s.length) :
    Ends s (fun p => ∃ t, Spans s i t p.i ∧ Denotes stringToReal t (.value p.v))
      (jsonParseNull s i) := by
  apply Ends.bind (jsonNeed_ends _ hi fun _ => id)
  intro j hj
  exact ⟨_, jsonMatchLit_iff.1 hj, Denotes.null⟩

theorem bool_denotes (stringToReal : Str → Option ρ) {s : Str} {i : Nat} (hi : i ≤ s.length) :
    Ends s (fun p => ∃ t, Spans s i t p.i ∧ Denotes stringToReal t (.value p.v))
      (jsonParseBool s i) := by
  rw [jsonParseBool]
  split
  · next j hj => exact ⟨_, jsonMatchLit_iff.1 hj, Denotes.true⟩
  · apply Ends.bind (jsonNeed_ends _ hi fun _ => id)
    intro j hj
    exact ⟨_, jsonMatchLit_iff.1 hj, Denotes.false⟩

theorem denotes_ne_nil {stringToReal : Str → Option ρ} {t : Str} {v : JsonValue ρ}
    (h : Denotes stringToReal t (.value v)) : t ≠ [] := by
  cases h with
  | number h => exact number_ne_nil h
  | null => decide
  | true => decide
  | false => decide
  | string h => simp
  | emptyArray hw => simp
  | array h => simp
  | emptyObject hw => simp
  | object h => simp

/-- One step of the driver, by the text it reads. -/
inductive Moves (stringToReal : Str → Option ρ) (s : Str) :
    Nat → List (JFrame ρ) → JMode ρ → Nat → List (JFrame ρ) → JMode ρ → Prop
  | leaf {i j : Nat} {stack : List (JFrame ρ)} {w t : Str} {v : JsonValue ρ} (hw : Blank w)
      (ht : Denotes stringToReal t (.value v)) (hspan : Spans s i (w ++ t) j) :
      Moves stringToReal s i stack .modeValue j stack (.modeAfterValue v)
  | openArray {i j : Nat} {stack : List (JFrame ρ)} {w w' : Str} (hw : Blank w) (hw' : Blank w')
      (hspan : Spans s i (w ++ 91 :: w') j) :
      Moves stringToReal s i stack .modeValue j (.arrFrame [] :: stack) .modeValue
  | openObject {i j : Nat} {stack : List (JFrame ρ)} {w w' : Str} (hw : Blank w) (hw' : Blank w')
      (hspan : Spans s i (w ++ 123 :: w') j) :
      Moves stringToReal s i stack .modeValue j (.objFrame [] none :: stack) .modeObjKey
  | nextElement {i j : Nat} {acc : List (JsonValue ρ)} {stack : List (JFrame ρ)} {w w' : Str}
      {v : JsonValue ρ} (hw : Blank w) (hw' : Blank w') (hspan : Spans s i (w ++ 44 :: w') j) :
      Moves stringToReal s i (.arrFrame acc :: stack) (.modeAfterValue v) j
        (.arrFrame (v :: acc) :: stack) .modeValue
  | closeArray {i j : Nat} {acc : List (JsonValue ρ)} {stack : List (JFrame ρ)} {w : Str}
      {v : JsonValue ρ} (hw : Blank w) (hspan : Spans s i (w ++ [93]) j) :
      Moves stringToReal s i (.arrFrame acc :: stack) (.modeAfterValue v) j stack
        (.modeAfterValue (.jArr (v :: acc).reverse))
  | nextMember {i j : Nat} {acc : List (Str × JsonValue ρ)} {k : Str} {stack : List (JFrame ρ)}
      {w w' : Str} {v : JsonValue ρ} (hw : Blank w) (hw' : Blank w')
      (hspan : Spans s i (w ++ 44 :: w') j) :
      Moves stringToReal s i (.objFrame acc (some k) :: stack) (.modeAfterValue v) j
        (.objFrame ((k, v) :: acc) none :: stack) .modeObjKey
  | closeObject {i j : Nat} {acc : List (Str × JsonValue ρ)} {k : Str}
      {stack : List (JFrame ρ)} {w : Str} {v : JsonValue ρ} (hw : Blank w)
      (hspan : Spans s i (w ++ [125]) j) :
      Moves stringToReal s i (.objFrame acc (some k) :: stack) (.modeAfterValue v) j stack
        (.modeAfterValue (.jObj ((k, v) :: acc).reverse))
  | key {i j : Nat} {acc : List (Str × JsonValue ρ)} {old : Option Str}
      {stack : List (JFrame ρ)} {w k d w' w'' : Str} (hw : Blank w) (hk : Chars k d)
      (hw' : Blank w') (hw'' : Blank w'')
      (hspan : Spans s i (w ++ (34 :: k ++ 34 :: w' ++ 58 :: w'')) j) :
      Moves stringToReal s i (.objFrame acc old :: stack) .modeObjKey j
        (.objFrame acc (some d) :: stack) .modeValue

/-- What a step does: it moves on, it is done at the bottom of the stack, or it fails inside
the text. -/
def Does (stringToReal : Str → Option ρ) (s : Str) (i : Nat) (stack : List (JFrame ρ))
    (mode : JMode ρ) : JStep ρ → Prop
  | .stepGo j stack' mode' => Moves stringToReal s i stack mode j stack' mode'
  | .stepDone r => stack = [] ∧ mode = .modeAfterValue r.v ∧ r.i = i
  | .stepFail f => f.pos ≤ s.length

theorem Moves.spans {stringToReal : Str → Option ρ} {s : Str} {i j : Nat}
    {stack stack' : List (JFrame ρ)} {mode mode' : JMode ρ}
    (h : Moves stringToReal s i stack mode j stack' mode') : ∃ t, Spans s i t j ∧ t ≠ [] := by
  cases h with
  | leaf hw ht hspan =>
      exact ⟨_, hspan, List.append_ne_nil_of_right_ne_nil _ (denotes_ne_nil ht)⟩
  | openArray hw hw' hspan => exact ⟨_, hspan, by simp⟩
  | openObject hw hw' hspan => exact ⟨_, hspan, by simp⟩
  | nextElement hw hw' hspan => exact ⟨_, hspan, by simp⟩
  | closeArray hw hspan => exact ⟨_, hspan, by simp⟩
  | nextMember hw hw' hspan => exact ⟨_, hspan, by simp⟩
  | closeObject hw hspan => exact ⟨_, hspan, by simp⟩
  | key hw hk hw' hw'' hspan => exact ⟨_, hspan, by simp⟩

theorem does_stuck {stringToReal : Str → Option ρ} {s : Str} {i j : Nat}
    {stack : List (JFrame ρ)} {mode : JMode ρ} (what : String) (hj : j ≤ s.length) :
    Does stringToReal s i stack mode (.stepFail (jsonStuck s j what)) :=
  (jsonStuck_pos what).trans_le hj

theorem does_leaf {stringToReal : Str → Option ρ} {s w : Str} {i j : Nat}
    {r : Except JFail (JParse ρ)} (stack : List (JFrame ρ)) (hw : Blank w) (hspan : Spans s i w j)
    (hr : Ends s (fun p => ∃ t, Spans s j t p.i ∧ Denotes stringToReal t (.value p.v)) r) :
    Does stringToReal s i stack .modeValue (jsonLeaf r stack) := by
  cases r with
  | error f => exact hr
  | ok p =>
      obtain ⟨t, ht, hv⟩ := hr
      exact Moves.leaf hw hv (hspan.append ht)

theorem exists_token {s : Str} {j : Nat} {b : UInt8} (hb : s[j]? = some b) :
    ∃ w, Blank w ∧ Spans s j (b :: w) (jsonSkipWs s (j + 1)) := by
  obtain ⟨hlt, -⟩ := List.getElem?_eq_some_iff.1 hb
  obtain ⟨w, hspan, hw, -⟩ := exists_blank s hlt
  exact ⟨w, hw, hspan.cons hb⟩

theorem jsonStepValue_does (stringToReal : Str → Option ρ) {s : Str} {i : Nat}
    (stack : List (JFrame ρ)) (hi : i ≤ s.length) :
    Does stringToReal s i stack .modeValue (jsonStepValue stringToReal s i stack) := by
  obtain ⟨w, hspan, hw, -⟩ := exists_blank s hi
  simp only [jsonStepValue]
  generalize jsonSkipWs s i = j at hspan
  have hj := hspan.inside
  split_ifs with hbrace hclose hbracket hclose hquote ht hf hn hminus
  · obtain ⟨w', hw', htoken⟩ := exists_token ((charAt_iff (b := 123) rfl).1 hbrace)
    have hend := htoken.snoc ((charAt_iff (b := 125) rfl).1 hclose)
    exact Moves.leaf hw (Denotes.emptyObject hw') (hspan.append hend)
  · obtain ⟨w', hw', htoken⟩ := exists_token ((charAt_iff (b := 123) rfl).1 hbrace)
    exact Moves.openObject hw hw' (hspan.append htoken)
  · obtain ⟨w', hw', htoken⟩ := exists_token ((charAt_iff (b := 91) rfl).1 hbracket)
    have hend := htoken.snoc ((charAt_iff (b := 93) rfl).1 hclose)
    exact Moves.leaf hw (Denotes.emptyArray hw') (hspan.append hend)
  · obtain ⟨w', hw', htoken⟩ := exists_token ((charAt_iff (b := 91) rfl).1 hbracket)
    exact Moves.openArray hw hw' (hspan.append htoken)
  · exact does_leaf stack hw hspan (string_denotes stringToReal ((charAt_iff rfl).1 hquote))
  · exact does_leaf stack hw hspan (bool_denotes stringToReal hj)
  · exact does_leaf stack hw hspan (bool_denotes stringToReal hj)
  · exact does_leaf stack hw hspan (null_denotes stringToReal hj)
  · exact does_leaf stack hw hspan (number_denotes hj)
  · split
    · split_ifs with hdigit
      · exact does_leaf stack hw hspan (number_denotes hj)
      · exact does_stuck _ hj
    · exact does_stuck _ hj

theorem jsonStepAfter_does (stringToReal : Str → Option ρ) {s : Str} {i : Nat}
    (stack : List (JFrame ρ)) (v : JsonValue ρ) (hi : i ≤ s.length) :
    Does stringToReal s i stack (.modeAfterValue v) (jsonStepAfter s i stack v) := by
  obtain ⟨w, hspan, hw, -⟩ := exists_blank s hi
  simp only [jsonStepAfter]
  generalize jsonSkipWs s i = j at hspan
  have hj := hspan.inside
  split
  · exact ⟨rfl, rfl, rfl⟩
  · split_ifs with hcomma hclose
    · obtain ⟨w', hw', htoken⟩ := exists_token ((charAt_iff (b := 44) rfl).1 hcomma)
      exact Moves.nextElement hw hw' (hspan.append htoken)
    · exact Moves.closeArray hw (hspan.snoc ((charAt_iff rfl).1 hclose))
    · exact does_stuck _ hj
  · split_ifs with hcomma hclose
    · obtain ⟨w', hw', htoken⟩ := exists_token ((charAt_iff (b := 44) rfl).1 hcomma)
      exact Moves.nextMember hw hw' (hspan.append htoken)
    · exact Moves.closeObject hw (hspan.snoc ((charAt_iff rfl).1 hclose))
    · exact does_stuck _ hj
  · exact does_stuck _ hj

theorem jsonStepKey_does (stringToReal : Str → Option ρ) {s : Str} {i : Nat}
    (stack : List (JFrame ρ)) (hi : i ≤ s.length) :
    Does stringToReal s i stack .modeObjKey (jsonStepKey s i stack) := by
  obtain ⟨w, hspan, hw, -⟩ := exists_blank s hi
  simp only [jsonStepKey]
  generalize jsonSkipWs s i = j at hspan
  have hj := hspan.inside
  split_ifs with hquote
  · have hends := jsonParseString_ends (ρ := ρ) ((charAt_iff rfl).1 hquote)
    split
    · next f hf =>
        rw [hf] at hends
        exact hends
    · next p hp =>
        rw [hp] at hends
        obtain ⟨k, d, hkey, hk, hv⟩ := hends
        obtain ⟨w', hblank, hw', -⟩ := exists_blank s hkey.inside
        simp only [jsonStepColon]
        generalize jsonSkipWs s p.i = c at hblank
        split_ifs with hcolon
        · obtain ⟨w'', hw'', htoken⟩ := exists_token ((charAt_iff (b := 58) rfl).1 hcolon)
          split
          · rw [hv]
            have hall := hspan.append ((hkey.append hblank).append htoken)
            simp only [List.append_assoc, List.singleton_append] at hall
            simp only [jsonKeyText]
            apply Moves.key hw hk hw' hw''
            simpa only [List.append_assoc, List.cons_append] using hall
          · exact does_stuck _ hblank.inside
        · exact does_stuck _ hblank.inside
  · exact does_stuck _ hj

theorem jsonStep_does (stringToReal : Str → Option ρ) {s : Str} {i : Nat}
    (stack : List (JFrame ρ)) (mode : JMode ρ) (hi : i ≤ s.length) :
    Does stringToReal s i stack mode (jsonStep stringToReal s i stack mode) := by
  cases mode with
  | modeValue => exact jsonStepValue_does stringToReal stack hi
  | modeAfterValue v => exact jsonStepAfter_does stringToReal stack v hi
  | modeObjKey => exact jsonStepKey_does stringToReal stack hi

theorem charAt_outside {s : Str} {i : Nat} (hi : s.length ≤ i) : charAt s i = none := by
  rw [charAt, List.getElem?_eq_none hi, Option.map_none]

theorem jsonStep_next {stringToReal : Str → Option ρ} {s : Str} {i j : Nat}
    {stack stack' : List (JFrame ρ)} {mode mode' : JMode ρ}
    (h : jsonStep stringToReal s i stack mode = .stepGo j stack' mode') :
    i < j ∧ j ≤ s.length := by
  by_cases hi : i ≤ s.length
  · have hdoes := jsonStep_does stringToReal stack mode hi
    rw [h] at hdoes
    obtain ⟨t, hspan, hne⟩ := hdoes.spans
    exact ⟨hspan.lt hne, hspan.inside⟩
  · have hskip : jsonSkipWs s i = i := by rw [jsonSkipWs, if_pos (by omega)]
    have hchar : charAt s i = none := charAt_outside (by omega)
    cases mode with
    | modeValue => simp [jsonStep, jsonStepValue, hskip, hchar] at h
    | modeObjKey => simp [jsonStep, jsonStepKey, hskip, hchar] at h
    | modeAfterValue v =>
        simp only [jsonStep, jsonStepAfter, hskip, hchar] at h
        split at h <;> simp at h

def jsonLoop (stringToReal : Str → Option ρ) (s : Str) (i : Nat) (stack : List (JFrame ρ))
    (mode : JMode ρ) : Except JFail (JParse ρ) :=
  match _ : jsonStep stringToReal s i stack mode with
  | .stepGo i2 stack2 mode2 => jsonLoop stringToReal s i2 stack2 mode2
  | .stepDone r => .ok r
  | .stepFail f => .error f
termination_by s.length - i
decreasing_by
  have hnext := jsonStep_next ‹_›
  omega

/-- One value; the caller checks `jsonComplete`. -/
def jsonScan (stringToReal : Str → Option ρ) (s : Str) : Except JFail (JParse ρ) :=
  jsonLoop stringToReal s (jsonSkipWs s 0) [] .modeValue

def jsonComplete (s : Str) (r : JParse ρ) : Bool := jsonSkipWs s r.i = s.length

def jsonFinish (s : Str) (r : JParse ρ) : Option (JsonValue ρ) :=
  if jsonComplete s r then some r.v else none

def jsonDecode (stringToReal : Str → Option ρ) (s : Str) : Option (JsonValue ρ) :=
  match jsonScan stringToReal s with
  | .error _ => none
  | .ok r => jsonFinish s r

/-- Where a decode stopped. -/
structure JsonParseError where
  line : Nat
  column : Nat
  offset : Nat
  reason : String

/-- Walks the bytes before the failure: a newline opens a line, a continuation byte does not
start a character. -/
def jsonLocate (s : Str) (f : JFail) (i line col : Nat) : JsonParseError :=
  if i ≥ f.pos then ⟨line, col, f.pos, f.why⟩
  else
    let b := stringByteAtInt s i
    if b = 10 then jsonLocate s f (i + 1) (line + 1) 1
    else if b ≥ 0x80 ∧ b < 0xC0 then jsonLocate s f (i + 1) line col
    else jsonLocate s f (i + 1) line (col + 1)
termination_by f.pos - i

def jsonDecodeReport (stringToReal : Str → Option ρ) (s : Str) :
    Except JsonParseError (JsonValue ρ) :=
  match jsonScan stringToReal s with
  | .error f => .error (jsonLocate s f 0 1 1)
  | .ok r =>
    if jsonComplete s r then .ok r.v
    else .error (jsonLocate s ⟨jsonSkipWs s r.i, "trailing characters after value"⟩ 0 1 1)

end Kaikai.Json
