import Mathlib.Tactic.FinCases
import Kaikai.JsonExact

namespace Kaikai.Json

open Kaikai.Decimal
open Kaikai.Str
open Kaikai.Stretch

variable {ρ : Type}

def jsonHexByte (n : Int) : Str :=
  stringSlice (ascii "0123456789abcdef") (n / 16 % 16) 1 ++
    stringSlice (ascii "0123456789abcdef") (n % 16) 1

def jsonEscapeChar (b : Int) : Str :=
  if b = 34 then ascii "\\\""
  else if b = 92 then ascii "\\\\"
  else if b = 10 then ascii "\\n"
  else if b = 13 then ascii "\\r"
  else if b = 9 then ascii "\\t"
  else ascii "\\u00" ++ jsonHexByte b

def jsonEscapeLoop (s : Str) (i run : Nat) (parts : List Str) : List Str :=
  if i ≥ s.length then jsonFlush s run i parts
  else
    let b := stringByteAtInt s i
    if b < 32 ∨ b = 34 ∨ b = 92 then
      jsonEscapeLoop s (i + 1) (i + 1) (jsonEscapeChar b :: jsonFlush s run i parts)
    else jsonEscapeLoop s (i + 1) run parts
termination_by s.length - i

def jsonEscape (s : Str) : Str := (jsonEscapeLoop s 0 0 []).reverse.flatten

def stringContains (s sub : Str) : Bool := s.tails.any fun t => sub.isPrefixOf t

/-- A real whose text reads as an integer gets `.0`. -/
def jsonRealText (realToString : ρ → Str) (r : ρ) : Str :=
  let t := realToString r
  if stringContains t (ascii ".") || stringContains t (ascii "e") || stringContains t (ascii "n")
  then t
  else t ++ ascii ".0"

/-- Pending output: final text, or a container still to expand. -/
inductive JEnc (ρ : Type) where
  | encText (t : Str)
  | encArr (xs : List (JsonValue ρ))
  | encObj (ps : List (Str × JsonValue ρ))

def jsonEncItem (realToString : ρ → Str) (v : JsonValue ρ) : JEnc ρ :=
  match v with
  | .jNull => .encText (ascii "null")
  | .jBool b => .encText (if b then ascii "true" else ascii "false")
  | .jNum n => .encText (intToString n)
  | .jReal r => .encText (jsonRealText realToString r)
  | .jStr s => .encText (ascii "\"" ++ jsonEscape s ++ ascii "\"")
  | .jArr xs => .encArr xs
  | .jObj ps => .encObj ps

def jsonEncComma (acc : List (JEnc ρ)) (sep : Bool) : List (JEnc ρ) :=
  if sep then .encText (ascii ",") :: acc else acc

/-- `rev` is the elements last first. -/
def jsonEncElems (realToString : ρ → Str) (rev : List (JsonValue ρ)) (acc : List (JEnc ρ))
    (sep : Bool) : List (JEnc ρ) :=
  match rev with
  | [] => acc
  | x :: more =>
    jsonEncElems realToString more (jsonEncItem realToString x :: jsonEncComma acc sep) true

/-- The comma between members rides on the key text of every member but the first. -/
def jsonEncMembers (realToString : ρ → Str) (rev : List (Str × JsonValue ρ))
    (acc : List (JEnc ρ)) : List (JEnc ρ) :=
  match rev with
  | [] => acc
  | p :: more =>
    let opening := if more.isEmpty then ascii "\"" else ascii ",\""
    jsonEncMembers realToString more
      (.encText (opening ++ jsonEscape p.1 ++ ascii "\":") :: jsonEncItem realToString p.2 :: acc)

mutual

/-- The number of pieces that a value expands to, and one more for each container. -/
def weight : JsonValue ρ → Nat
  | .jArr xs => 2 + weightElems xs
  | .jObj ps => 2 + weightMembers ps
  | _ => 1

def weightElems : List (JsonValue ρ) → Nat
  | [] => 0
  | x :: xs => weight x + 1 + weightElems xs

def weightMembers : List (Str × JsonValue ρ) → Nat
  | [] => 0
  | (_, v) :: ps => weight v + 1 + weightMembers ps

end

def JEnc.weight : JEnc ρ → Nat
  | .encText _ => 1
  | .encArr xs => 2 + weightElems xs
  | .encObj ps => 2 + weightMembers ps

def workWeight (work : List (JEnc ρ)) : Nat := (work.map JEnc.weight).sum

theorem weight_item (realToString : ρ → Str) (v : JsonValue ρ) :
    (jsonEncItem realToString v).weight = weight v := by
  cases v <;> simp [jsonEncItem, JEnc.weight, weight]

theorem weightElems_eq (xs : List (JsonValue ρ)) :
    weightElems xs = (xs.map fun x => weight x + 1).sum := by
  induction xs with
  | nil => rfl
  | cons x xs ih => rw [weightElems, ih, List.map_cons, List.sum_cons]

theorem weightMembers_eq (ps : List (Str × JsonValue ρ)) :
    weightMembers ps = (ps.map fun p => weight p.2 + 1).sum := by
  induction ps with
  | nil => rfl
  | cons p ps ih => rw [weightMembers, ih, List.map_cons, List.sum_cons]

theorem workWeight_cons (item : JEnc ρ) (work : List (JEnc ρ)) :
    workWeight (item :: work) = item.weight + workWeight work := by
  rw [workWeight, List.map_cons, List.sum_cons, workWeight]

theorem workWeight_elems (realToString : ρ → Str) (rev : List (JsonValue ρ))
    (acc : List (JEnc ρ)) (sep : Bool) :
    workWeight (jsonEncElems realToString rev acc sep) ≤ weightElems rev + workWeight acc := by
  induction rev generalizing acc sep with
  | nil => simp [jsonEncElems, weightElems]
  | cons x more ih =>
      have hcomma : workWeight (jsonEncComma acc sep) ≤ 1 + workWeight acc := by
        cases sep with
        | false => simp [jsonEncComma]
        | true => simp [jsonEncComma, workWeight_cons, JEnc.weight]
      have hmore := ih (jsonEncItem realToString x :: jsonEncComma acc sep) true
      rw [workWeight_cons, weight_item] at hmore
      rw [jsonEncElems, weightElems]
      omega

theorem workWeight_members (realToString : ρ → Str) (rev : List (Str × JsonValue ρ))
    (acc : List (JEnc ρ)) :
    workWeight (jsonEncMembers realToString rev acc) = weightMembers rev + workWeight acc := by
  induction rev generalizing acc with
  | nil => simp [jsonEncMembers, weightMembers]
  | cons p more ih =>
      have htext : ∀ t : Str, (JEnc.encText t : JEnc ρ).weight = 1 := fun _ => rfl
      simp only [jsonEncMembers, ih, workWeight_cons, weight_item, htext, weightMembers]
      omega

/-- The work-stack driver: `work` is the output still to emit, `out` the emitted pieces newest
first. -/
def jsonEncodeLoop (realToString : ρ → Str) (work : List (JEnc ρ)) (out : List Str) : List Str :=
  match work with
  | [] => out
  | .encText t :: rest => jsonEncodeLoop realToString rest (t :: out)
  | .encArr xs :: rest =>
    jsonEncodeLoop realToString
      (jsonEncElems realToString xs.reverse (.encText (ascii "]") :: rest) false)
      (ascii "[" :: out)
  | .encObj ps :: rest =>
    jsonEncodeLoop realToString
      (jsonEncMembers realToString ps.reverse (.encText (ascii "\x7d") :: rest))
      (ascii "\x7b" :: out)
termination_by workWeight work
decreasing_by
  · rw [workWeight_cons, JEnc.weight]
    omega
  · simp only [List.unattach_reverse, List.unattach_attach]
    have hle := workWeight_elems realToString xs.reverse (.encText (ascii "]") :: rest) false
    rw [workWeight_cons, weightElems_eq, List.map_reverse, List.sum_reverse, ← weightElems_eq,
      JEnc.weight] at hle
    rw [workWeight_cons, JEnc.weight]
    omega
  · simp only [List.unattach_reverse, List.unattach_attach]
    rw [workWeight_members, workWeight_cons, weightMembers_eq, List.map_reverse, List.sum_reverse,
      ← weightMembers_eq, JEnc.weight, workWeight_cons, JEnc.weight]
    omega

/-- Nesting deeper than this switches to the work stack. -/
def jsonEncDepth : Nat := 32

def stringJoin (xs : List Str) (sep : Str) : Str := sep.intercalate xs

mutual

def jsonEncodeAt (realToString : ρ → Str) (v : JsonValue ρ) (depth : Nat) : Str :=
  if depth ≥ jsonEncDepth then
    (jsonEncodeLoop realToString [jsonEncItem realToString v] []).reverse.flatten
  else match v with
    | .jNull => ascii "null"
    | .jBool b => if b then ascii "true" else ascii "false"
    | .jNum n => intToString n
    | .jReal r => jsonRealText realToString r
    | .jStr s => ascii "\"" ++ jsonEscape s ++ ascii "\""
    | .jArr xs => ascii "[" ++ jsonJoinElems realToString xs (depth + 1) [] ++ ascii "]"
    | .jObj ps => ascii "\x7b" ++ jsonJoinMembers realToString ps (depth + 1) [] ++ ascii "\x7d"

/-- Elements rendered at `depth`, comma-joined. -/
def jsonJoinElems (realToString : ρ → Str) (xs : List (JsonValue ρ)) (depth : Nat)
    (acc : List Str) : Str :=
  match xs with
  | [] => stringJoin acc.reverse (ascii ",")
  | x :: rest => jsonJoinElems realToString rest depth (jsonEncodeAt realToString x depth :: acc)

def jsonJoinMembers (realToString : ρ → Str) (ps : List (Str × JsonValue ρ)) (depth : Nat)
    (acc : List Str) : Str :=
  match ps with
  | [] => stringJoin acc.reverse (ascii ",")
  | p :: rest =>
    jsonJoinMembers realToString rest depth (jsonEncodePair realToString p depth :: acc)

def jsonEncodePair (realToString : ρ → Str) (p : Str × JsonValue ρ) (depth : Nat) : Str :=
  match p with
  | (k, v) => ascii "\"" ++ jsonEscape k ++ ascii "\":" ++ jsonEncodeAt realToString v depth

end

def jsonEncode (realToString : ρ → Str) (v : JsonValue ρ) : Str := jsonEncodeAt realToString v 0

mutual

/-- The plain recursive rendering. -/
def render (realToString : ρ → Str) : JsonValue ρ → Str
  | .jNull => ascii "null"
  | .jBool b => if b then ascii "true" else ascii "false"
  | .jNum n => intToString n
  | .jReal r => jsonRealText realToString r
  | .jStr s => ascii "\"" ++ jsonEscape s ++ ascii "\""
  | .jArr xs => ascii "[" ++ (ascii ",").intercalate (renderElems realToString xs) ++ ascii "]"
  | .jObj ps =>
    ascii "\x7b" ++ (ascii ",").intercalate (renderMembers realToString ps) ++ ascii "\x7d"

def renderElems (realToString : ρ → Str) : List (JsonValue ρ) → List Str
  | [] => []
  | x :: xs => render realToString x :: renderElems realToString xs

def renderMembers (realToString : ρ → Str) : List (Str × JsonValue ρ) → List Str
  | [] => []
  | (k, v) :: ps =>
    (ascii "\"" ++ jsonEscape k ++ ascii "\":" ++ render realToString v) ::
      renderMembers realToString ps

end

/-- What a pending item prints. -/
def emit (realToString : ρ → Str) : JEnc ρ → Str
  | .encText t => t
  | .encArr xs => render realToString (.jArr xs)
  | .encObj ps => render realToString (.jObj ps)

def emitAll (realToString : ρ → Str) (work : List (JEnc ρ)) : Str :=
  (work.map (emit realToString)).flatten

def renderMember (realToString : ρ → Str) (p : Str × JsonValue ρ) : Str :=
  ascii "\"" ++ jsonEscape p.1 ++ ascii "\":" ++ render realToString p.2

theorem emitAll_cons (realToString : ρ → Str) (item : JEnc ρ) (work : List (JEnc ρ)) :
    emitAll realToString (item :: work) = emit realToString item ++ emitAll realToString work := by
  rw [emitAll, List.map_cons, List.flatten_cons, emitAll]

theorem emit_text (realToString : ρ → Str) (t : Str) : emit realToString (.encText t) = t := rfl

theorem emit_item (realToString : ρ → Str) (v : JsonValue ρ) :
    emit realToString (jsonEncItem realToString v) = render realToString v := by
  cases v <;> simp [jsonEncItem, emit, render]

theorem renderElems_eq (realToString : ρ → Str) (xs : List (JsonValue ρ)) :
    renderElems realToString xs = xs.map (render realToString) := by
  induction xs with
  | nil => rfl
  | cons x xs ih => rw [renderElems, ih, List.map_cons]

theorem renderMembers_eq (realToString : ρ → Str) (ps : List (Str × JsonValue ρ)) :
    renderMembers realToString ps = ps.map (renderMember realToString) := by
  induction ps with
  | nil => rfl
  | cons p ps ih =>
      rw [renderMembers, ih, List.map_cons]
      rfl

theorem intercalate_concat (sep x : Str) {xs : List Str} (h : xs ≠ []) :
    sep.intercalate (xs ++ [x]) = sep.intercalate xs ++ sep ++ x := by
  induction xs with
  | nil => exact absurd rfl h
  | cons y xs ih =>
      cases xs with
      | nil => simp [List.intercalate_cons_cons]
      | cons z xs =>
          have hz := ih (List.cons_ne_nil _ _)
          simp only [List.cons_append, List.intercalate_cons_cons] at hz ⊢
          simp only [hz, List.append_assoc]

theorem emitAll_elems (realToString : ρ → Str) (rev : List (JsonValue ρ)) (acc : List (JEnc ρ))
    (sep : Bool) (h : rev ≠ []) :
    emitAll realToString (jsonEncElems realToString rev acc sep) =
      (ascii ",").intercalate (rev.reverse.map (render realToString)) ++
        emitAll realToString (jsonEncComma acc sep) := by
  induction rev generalizing acc sep with
  | nil => exact absurd rfl h
  | cons x more ih =>
      rw [jsonEncElems]
      cases more with
      | nil => simp [jsonEncElems, emitAll_cons, emit_item]
      | cons y more =>
          have hne : (y :: more).reverse.map (render realToString) ≠ [] := by simp
          rw [ih _ true (List.cons_ne_nil _ _), List.reverse_cons (a := x), List.map_append,
            List.map_singleton, intercalate_concat _ _ hne]
          simp only [jsonEncComma, if_true, emitAll_cons, emit_item, emit_text, List.append_assoc]

theorem emitAll_members (realToString : ρ → Str) (rev : List (Str × JsonValue ρ))
    (acc : List (JEnc ρ)) :
    emitAll realToString (jsonEncMembers realToString rev acc) =
      (ascii ",").intercalate (rev.reverse.map (renderMember realToString)) ++
        emitAll realToString acc := by
  induction rev generalizing acc with
  | nil => simp [jsonEncMembers]
  | cons p more ih =>
      simp only [jsonEncMembers, ih, emitAll_cons, emit_item, emit_text]
      cases more with
      | nil => simp [renderMember]
      | cons q more =>
          have hne : (q :: more).reverse.map (renderMember realToString) ≠ [] := by simp
          have hopening : ascii ",\"" = ascii "," ++ ascii "\"" := by decide
          rw [List.reverse_cons (a := p), List.map_append, List.map_singleton,
            intercalate_concat _ _ hne, renderMember, List.isEmpty_cons, if_neg (by simp), hopening]
          simp only [List.append_assoc]

theorem jsonEncodeLoop_flatten (realToString : ρ → Str) (work : List (JEnc ρ)) (out : List Str) :
    (jsonEncodeLoop realToString work out).reverse.flatten =
      out.reverse.flatten ++ emitAll realToString work := by
  fun_induction jsonEncodeLoop realToString work out with
  | case1 out => simp [emitAll]
  | case2 out t rest ih =>
      rw [ih, emitAll_cons, List.reverse_cons, List.flatten_concat, emit_text, List.append_assoc]
  | case3 out xs rest ih =>
      simp only [List.unattach_reverse, List.unattach_attach] at ih
      rw [ih, emitAll_cons, List.reverse_cons, List.flatten_concat, emit, render, renderElems_eq]
      cases xs with
      | nil => simp [jsonEncElems, emitAll_cons, emit_text]
      | cons x xs =>
          rw [emitAll_elems _ _ _ _ (by simp), List.reverse_reverse]
          simp only [jsonEncComma, if_neg Bool.false_ne_true, emitAll_cons, emit_text,
            List.append_assoc]
  | case4 out ps rest ih =>
      simp only [List.unattach_reverse, List.unattach_attach] at ih
      rw [ih, emitAll_cons, List.reverse_cons, List.flatten_concat, emit, render,
        renderMembers_eq, emitAll_members, List.reverse_reverse, emitAll_cons, emit_text]
      simp only [List.append_assoc]

mutual

theorem jsonEncodeAt_eq (realToString : ρ → Str) (v : JsonValue ρ) (depth : Nat) :
    jsonEncodeAt realToString v depth = render realToString v := by
  rw [jsonEncodeAt.eq_def]
  split_ifs with hdeep
  · rw [jsonEncodeLoop_flatten, emitAll_cons, emit_item]
    simp [emitAll]
  · cases v with
    | jNull => rfl
    | jBool b => rfl
    | jNum n => rfl
    | jReal r => rfl
    | jStr s => rfl
    | jArr xs =>
        simp only [render, jsonJoinElems_eq realToString xs, stringJoin, List.reverse_nil,
          List.nil_append]
    | jObj ps =>
        simp only [render, jsonJoinMembers_eq realToString ps, stringJoin, List.reverse_nil,
          List.nil_append]

theorem jsonJoinElems_eq (realToString : ρ → Str) (xs : List (JsonValue ρ)) (depth : Nat)
    (acc : List Str) : jsonJoinElems realToString xs depth acc =
      stringJoin (acc.reverse ++ renderElems realToString xs) (ascii ",") := by
  cases xs with
  | nil => rw [jsonJoinElems, renderElems, List.append_nil]
  | cons x xs =>
      rw [jsonJoinElems, jsonJoinElems_eq realToString xs, jsonEncodeAt_eq realToString x,
        renderElems, List.reverse_cons, List.append_assoc, List.singleton_append]

theorem jsonJoinMembers_eq (realToString : ρ → Str) (ps : List (Str × JsonValue ρ)) (depth : Nat)
    (acc : List Str) : jsonJoinMembers realToString ps depth acc =
      stringJoin (acc.reverse ++ renderMembers realToString ps) (ascii ",") := by
  cases ps with
  | nil => rw [jsonJoinMembers, renderMembers, List.append_nil]
  | cons p ps =>
      cases p with
      | mk k v =>
          rw [jsonJoinMembers, jsonJoinMembers_eq realToString ps, jsonEncodePair,
            jsonEncodeAt_eq realToString v, renderMembers, List.reverse_cons, List.append_assoc,
            List.singleton_append]

end

/-- What one byte of a string becomes. -/
def escapeByte (b : UInt8) : Str :=
  if b.toNat < 32 ∨ b = 34 ∨ b = 92 then jsonEscapeChar b.toNat else [b]

theorem jsonEscapeLoop_flatten {s r : Str} {i run : Nat} (parts : List Str)
    (hrun : Spans s run r i) :
    (jsonEscapeLoop s i run parts).reverse.flatten =
      parts.reverse.flatten ++ r ++ (s.drop i).flatMap escapeByte := by
  rw [jsonEscapeLoop]
  split_ifs with hend
  · rw [jsonFlush_flatten parts hrun, List.drop_eq_nil_of_le hend, List.flatMap_nil,
      List.append_nil]
  have hlt : i < s.length := by omega
  have hb : s[i]? = some s[i] := List.getElem?_eq_getElem hlt
  have hcode : stringByteAtInt s i = s[i].toNat := (stringByteAtInt_iff rfl).2 hb
  have hbyte : ∀ {n : Int} {a : UInt8}, (a.toNat : Int) = n → ((s[i].toNat : Int) = n ↔ s[i] = a) := by
    rintro n a rfl
    rw [Int.ofNat_inj, UInt8.toNat_inj]
  have hguard : ((s[i].toNat : Int) < 32 ∨ (s[i].toNat : Int) = 34 ∨ (s[i].toNat : Int) = 92) ↔
      (s[i].toNat < 32 ∨ s[i] = 34 ∨ s[i] = 92) := by
    have h32 : (s[i].toNat : Int) < 32 ↔ s[i].toNat < 32 := by omega
    have h34 : (s[i].toNat : Int) = 34 ↔ s[i] = 34 := hbyte rfl
    have h92 : (s[i].toNat : Int) = 92 ↔ s[i] = 92 := hbyte rfl
    rw [h32, h34, h92]
  rw [List.drop_eq_getElem_cons hlt, List.flatMap_cons, escapeByte]
  simp only [hcode, hguard]
  split_ifs with hescape
  · rw [jsonEscapeLoop_flatten _ (Spans.nil hlt), List.reverse_cons, List.flatten_concat,
      jsonFlush_flatten parts hrun]
    simp only [List.append_assoc, List.nil_append]
  · rw [jsonEscapeLoop_flatten parts (hrun.snoc hb)]
    simp only [List.append_assoc]
termination_by s.length - i

theorem jsonEscape_eq (s : Str) : jsonEscape s = s.flatMap escapeByte := by
  rw [jsonEscape, jsonEscapeLoop_flatten [] (Spans.nil (Nat.zero_le _))]
  rfl

theorem hexTable : ∀ d : Nat, d < 16 → ∃ b,
    stringSlice (ascii "0123456789abcdef") d 1 = [b] ∧ HexDigit b d := by
  have htable : ∀ d < 16, stringSlice (ascii "0123456789abcdef") (d : Nat) 1 =
      [(ascii "0123456789abcdef").getD d 0] ∧
      jsonHexCharValue (Char.ofNat ((ascii "0123456789abcdef").getD d 0).toNat) = some d := by
    decide
  intro d hd
  exact ⟨_, (htable d hd).1, hexDigit_iff.1 (htable d hd).2⟩

theorem jsonHexByte_hex {n : Nat} (hn : n < 32) :
    Hex4 (48 :: 48 :: jsonHexByte n) n := by
  obtain ⟨a, ha, hahex⟩ := hexTable (n / 16 % 16) (by omega)
  obtain ⟨b, hb, hbhex⟩ := hexTable (n % 16) (by omega)
  have hzero : HexDigit 48 0 := HexDigit.digit (b := 48) (by decide)
  have hvalue : ((0 * 16 + 0) * 16 + 0) * 16 + n / 16 % 16 = n / 16 := by omega
  have hn' : n / 16 * 16 + n % 16 = n := by omega
  rw [jsonHexByte]
  push_cast at ha hb
  rw [ha, hb]
  refine ⟨rfl, Hex.cons hzero (Hex.cons hzero (Hex.cons hahex (Hex.cons hbhex ?_)))⟩
  rw [hvalue, hn']
  exact Hex.nil

theorem encode_control {b : UInt8} (hb : b.toNat < 32) :
    String.utf8EncodeChar (Char.ofNat b.toNat) = [b] := by
  have hcode := toNat_ofByte b
  rw [← jsonUtf8Encode_char, hcode, jsonUtf8Encode, stringEncodeCp, if_pos (by omega),
    intToByteString_natCast, UInt8.ofNat_toNat]

theorem escapeByte_chars (b : UInt8) {t d : Str} (ht : Chars t d) :
    Chars (escapeByte b ++ t) (b :: d) := by
  have hletter : ∀ {a c : UInt8} {w : Str}, SimpleEscape a c → w = [92, a] → b = c →
      Chars (w ++ t) (b :: d) := by
    rintro a c w h rfl rfl
    exact Chars.escape (Escape.simple h) ht
  have hne : ∀ {n : Int} {a : UInt8}, (a.toNat : Int) = n → ((b.toNat : Int) = n ↔ b = a) := by
    rintro n a rfl
    rw [Int.ofNat_inj, UInt8.toNat_inj]
  rw [escapeByte]
  split_ifs with hescape
  · rw [jsonEscapeChar]
    split_ifs with h34 h92 h10 h13 h9
    · exact hletter SimpleEscape.quote rfl ((hne rfl).1 h34)
    · exact hletter SimpleEscape.backslash rfl ((hne rfl).1 h92)
    · exact hletter SimpleEscape.newline rfl ((hne rfl).1 h10)
    · exact hletter SimpleEscape.carriageReturn rfl ((hne rfl).1 h13)
    · exact hletter SimpleEscape.tab rfl ((hne rfl).1 h9)
    · have hcontrol : b.toNat < 32 := by
        rcases hescape with hcontrol | rfl | rfl
        · exact hcontrol
        · exact absurd rfl h34
        · exact absurd rfl h92
      have hhex := jsonHexByte_hex hcontrol
      have hcode := toNat_ofByte b
      rw [← hcode] at hhex
      have hchars := Chars.escape (Escape.unicode hhex) ht
      rw [encode_control hcontrol, hcode] at hchars
      exact hchars
  · simp only [not_or, not_lt] at hescape
    exact Chars.plain hescape.1 hescape.2.1 hescape.2.2 ht

theorem jsonEscape_chars (s : Str) : Chars (jsonEscape s) s := by
  rw [jsonEscape_eq]
  induction s with
  | nil => exact Chars.nil
  | cons b s ih =>
      rw [List.flatMap_cons]
      exact escapeByte_chars b ih

/-- A value without reals whose integers are 64-bit ones. -/
inductive Exact : JsonValue ρ → Prop
  | null : Exact .jNull
  | bool (b : Bool) : Exact (.jBool b)
  | num {n : Int} (h : Word64.InRange n) : Exact (.jNum n)
  | str (s : Str) : Exact (.jStr s)
  | arr {xs : List (JsonValue ρ)} (h : ∀ x ∈ xs, Exact x) : Exact (.jArr xs)
  | obj {ps : List (Str × JsonValue ρ)} (h : ∀ p ∈ ps, Exact p.2) : Exact (.jObj ps)

theorem intToString_intPart (n : Int) : IntPart (intToString n) n := by
  have hc := canonical_numeral n.natAbs
  rw [intToString]
  split_ifs with hneg
  · have hn : n = -(n.natAbs : Int) := by omega
    have hpart := IntPart.neg hc
    rwa [← hn] at hpart
  · have hn : n = (n.natAbs : Int) := by omega
    have hpart := IntPart.nonneg hc
    rwa [← hn] at hpart

theorem elements_denote {realToString : ρ → Str} {stringToReal : Str → Option ρ}
    {xs : List (JsonValue ρ)} (hne : xs ≠ [])
    (h : ∀ x ∈ xs, Denotes stringToReal (render realToString x) (.value x)) :
    Denotes stringToReal ((ascii ",").intercalate (xs.map (render realToString)))
      (.elements xs) := by
  induction xs with
  | nil => exact absurd rfl hne
  | cons x xs ih =>
      obtain ⟨hx, hxs⟩ := List.forall_mem_cons.1 h
      cases xs with
      | nil =>
          have hlast := Denotes.lastElement Blank.nil hx Blank.nil
          simpa using hlast
      | cons y xs =>
          have hcons := Denotes.element Blank.nil hx Blank.nil (ih (List.cons_ne_nil _ _) hxs)
          have hcomma : ascii "," = [44] := by decide
          simpa [hcomma, List.intercalate_cons_cons] using hcons

theorem members_denote {realToString : ρ → Str} {stringToReal : Str → Option ρ}
    {ps : List (Str × JsonValue ρ)} (hne : ps ≠ [])
    (h : ∀ p ∈ ps, Denotes stringToReal (render realToString p.2) (.value p.2)) :
    Denotes stringToReal ((ascii ",").intercalate (ps.map (renderMember realToString)))
      (.members ps) := by
  have hcomma : ascii "," = [44] := by decide
  have hquote : ascii "\"" = [34] := by decide
  have hcolon : ascii "\":" = [34, 58] := by decide
  induction ps with
  | nil => exact absurd rfl hne
  | cons p ps ih =>
      obtain ⟨hp, hps⟩ := List.forall_mem_cons.1 h
      have hkey := jsonEscape_chars p.1
      cases ps with
      | nil =>
          have hlast := Denotes.lastMember Blank.nil hkey Blank.nil Blank.nil hp Blank.nil
          simpa [renderMember, hquote, hcolon] using hlast
      | cons q ps =>
          have hcons := Denotes.member Blank.nil hkey Blank.nil Blank.nil hp Blank.nil
            (ih (List.cons_ne_nil _ _) hps)
          simpa [renderMember, hcomma, hquote, hcolon, List.intercalate_cons_cons] using hcons

theorem render_denotes (realToString : ρ → Str) (stringToReal : Str → Option ρ)
    {v : JsonValue ρ} (h : Exact v) :
    Denotes stringToReal (render realToString v) (.value v) := by
  induction h with
  | null => exact Denotes.null
  | bool b =>
      cases b with
      | true => exact Denotes.true
      | false => exact Denotes.false
  | @num n hn => exact Denotes.number (Number.int (intToString_intPart n) hn)
  | str s => exact Denotes.string (jsonEscape_chars s)
  | @arr xs h ih =>
      rw [render, renderElems_eq]
      by_cases hxs : xs = []
      · subst hxs
        exact Denotes.emptyArray Blank.nil
      · exact Denotes.array (elements_denote hxs ih)
  | @obj ps h ih =>
      rw [render, renderMembers_eq]
      by_cases hps : ps = []
      · subst hps
        exact Denotes.emptyObject Blank.nil
      · exact Denotes.object (members_denote hps ih)

/-- Both encoders print the plain rendering, and the decoder reads it back as the value. -/
theorem json_roundtrip (realToString : ρ → Str) (stringToReal : Str → Option ρ)
    (v : JsonValue ρ) (h : Exact v) :
    jsonEncode realToString v = render realToString v ∧
      jsonDecode stringToReal (jsonEncode realToString v) = some v := by
  have hrender : jsonEncode realToString v = render realToString v :=
    jsonEncodeAt_eq realToString v 0
  refine ⟨hrender, ?_⟩
  rw [hrender, jsonDecode_iff]
  refine ⟨[], render realToString v, [], Blank.nil, ?_, Blank.nil, ?_⟩
  · exact render_denotes realToString stringToReal h
  · rw [List.append_nil, List.nil_append]

/-- A repeated key, a negative number and a control byte. -/
def repeatedKeys : JsonValue Nat :=
  .jObj [([34], .jArr [.jNum (-7), .jNull]), ([34], .jStr [0])]

theorem repeatedKeys_exact : Exact repeatedKeys := by
  apply Exact.obj
  intro p hp
  fin_cases hp
  · apply Exact.arr
    intro x hx
    fin_cases hx
    · exact Exact.num (by decide)
    · exact Exact.null
  · exact Exact.str _

theorem json_roundtrip_repeated :
    jsonEncode (fun _ => []) repeatedKeys = render (fun _ => []) repeatedKeys ∧
      jsonDecode (fun _ => none) (jsonEncode (fun _ => []) repeatedKeys) = some repeatedKeys :=
  json_roundtrip (fun _ => []) (fun _ => none) repeatedKeys repeatedKeys_exact

end Kaikai.Json
