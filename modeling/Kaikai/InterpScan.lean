import Kaikai.LexTiling

namespace Kaikai.Lex

open Str Escapes

/-- The bytes of `body` for a C literal, behind the pieces in `acc`. -/
def escBodyLoop (body : Str) (n i : Nat) (acc : List Str) : List Str :=
  if i < n then
    match charAt body i with
    | none => acc
    | some c =>
        if c = '\\' ∧ i + 1 < n then
          match charAt body (i + 1) with
          | none => escBodyLoop body n (i + 1) (intToByteString c.toNat :: acc)
          | some nx =>
              escBodyLoop body n (i + 2)
                (intToByteString nx.toNat :: intToByteString c.toNat :: acc)
        else if c.toNat = 10 then escBodyLoop body n (i + 1) (ascii "\\n" :: acc)
        else if c.toNat = 13 then escBodyLoop body n (i + 1) (ascii "\\r" :: acc)
        else if c.toNat = 9 then escBodyLoop body n (i + 1) (ascii "\\t" :: acc)
        else if c = '"' then escBodyLoop body n (i + 1) (ascii "\\\"" :: acc)
        else escBodyLoop body n (i + 1) (intToByteString c.toNat :: acc)
  else acc
termination_by n - i

def escapeStrBodyForC (body : Str) : Str := (escBodyLoop body body.length 0 []).reverse.flatten

def rawLitForC (piece : Str) : Str := ascii "\"" ++ escapeStrBodyForC piece ++ ascii "\""

/-- A part of a string span: a literal piece, as written and as the C literal that
holds it, or the source of a body. -/
inductive IPart where
  | lit (piece cLit : Str)
  | exp (src : Str)
deriving DecidableEq

/-- The parts so far, in reverse; where the current piece starts; the cursor. -/
structure IScan where
  parts : List IPart
  litStart : Nat
  i : Nat

/-- The width of the quote that opens a literal. -/
def interpLead (isTriple : Bool) : Nat := if isTriple then 3 else 1

def iscanOpens (span : Str) (i stop : Nat) : Bool :=
  decide (i + 1 < stop) && charAt span i == some '#' && charAt span (i + 1) == some '{'

/-- The literal piece that ends at the cursor, in front of the parts. -/
def iscanFlush (span : Str) (st : IScan) : List IPart :=
  if st.i > st.litStart then
    .lit (stringSlice span st.litStart (st.i - st.litStart))
      (rawLitForC (stringSlice span st.litStart (st.i - st.litStart))) :: st.parts
  else st.parts

/-- The closing brace of a body, or `stop`. -/
def iscanExprEnd (span : Str) (i stop depth : Nat) : Nat :=
  if depth = 0 ∨ stop ≤ i then i
  else
    match charAt span i with
    | none => i
    | some c =>
        if c = '{' then iscanExprEnd span (i + 1) stop (depth + 1)
        else if c = '}' then if depth = 1 then i else iscanExprEnd span (i + 1) stop (depth - 1)
        else iscanExprEnd span (i + 1) stop depth
termination_by stop - i

section ExprEnd

variable {span : Str} {i stop depth : Nat} {c : Char}

theorem iscanExprEnd_stop (h : depth = 0 ∨ stop ≤ i) : iscanExprEnd span i stop depth = i := by
  rw [iscanExprEnd, if_pos h]

theorem iscanExprEnd_open (h : ¬ (depth = 0 ∨ stop ≤ i)) (hc : charAt span i = some '{') :
    iscanExprEnd span i stop depth = iscanExprEnd span (i + 1) stop (depth + 1) := by
  rw [iscanExprEnd, if_neg h, hc]
  rfl

theorem iscanExprEnd_close (h : ¬ (depth = 0 ∨ stop ≤ i)) (hc : charAt span i = some '}') :
    iscanExprEnd span i stop depth =
      if depth = 1 then i else iscanExprEnd span (i + 1) stop (depth - 1) := by
  rw [iscanExprEnd, if_neg h, hc]
  rfl

theorem iscanExprEnd_other (h : ¬ (depth = 0 ∨ stop ≤ i)) (hc : charAt span i = some c)
    (hopen : c ≠ '{') (hclose : c ≠ '}') :
    iscanExprEnd span i stop depth = iscanExprEnd span (i + 1) stop depth := by
  rw [iscanExprEnd, if_neg h, hc]
  simp only [if_neg hopen, if_neg hclose]

end ExprEnd

theorem le_iscanExprEnd (span : Str) (i stop depth : Nat) : i ≤ iscanExprEnd span i stop depth := by
  induction hm : stop - i generalizing i depth with
  | zero => rw [iscanExprEnd_stop (Or.inr (by omega))]
  | succ m ih =>
      by_cases hstop : depth = 0 ∨ stop ≤ i
      · rw [iscanExprEnd_stop hstop]
      · have hnext := fun d => Nat.le_of_succ_le (ih (i + 1) d (by omega))
        cases hc : charAt span i with
        | none => rw [iscanExprEnd, if_neg hstop, hc]
        | some c =>
            by_cases hopen : c = '{'
            · rw [iscanExprEnd_open hstop (hopen ▸ hc)]
              exact hnext (depth + 1)
            · by_cases hclose : c = '}'
              · rw [iscanExprEnd_close hstop (hclose ▸ hc)]
                split
                · exact le_rfl
                · exact hnext (depth - 1)
              · rw [iscanExprEnd_other hstop hc hopen hclose]
                exact hnext depth

/-- The cursor behind the body that opens at `i`. -/
def iscanNext (span : Str) (i stop : Nat) : Nat :=
  if iscanExprEnd span (i + 2) stop 1 < stop then iscanExprEnd span (i + 2) stop 1 + 1
  else iscanExprEnd span (i + 2) stop 1

theorem lt_iscanNext (span : Str) (i stop : Nat) : i < iscanNext span i stop := by
  have hlow := le_iscanExprEnd span (i + 2) stop 1
  unfold iscanNext
  split <;> omega

/-- The source of the body that opens at `i`. -/
def iscanBody (span : Str) (i stop : Nat) : Str :=
  stringSlice span (i + 2 : Nat) (iscanExprEnd span (i + 2) stop 1 - (i + 2 : Nat) : Int)

def iscanCollectRev (span : Str) (stop : Nat) (st : IScan) : List IPart :=
  if stop ≤ st.i then iscanFlush span { st with i := stop }
  else if iscanOpens span st.i stop then
    iscanCollectRev span stop ⟨.exp (iscanBody span st.i stop) :: iscanFlush span st,
      iscanNext span st.i stop, iscanNext span st.i stop⟩
  else iscanCollectRev span stop { st with i := st.i + 1 }
termination_by stop - st.i
decreasing_by
  · have hnext := lt_iscanNext span st.i stop
    omega
  · omega

/-- The parts of `span` between its quotes, in source order. -/
def interpParts (span : Str) (isTriple : Bool) : List IPart :=
  (iscanCollectRev span (span.length - interpLead isTriple)
    ⟨[], interpLead isTriple, interpLead isTriple⟩).reverse

def hasInterp (span : Str) (i stop : Nat) : Bool :=
  if i + 1 < stop then
    if byteAt span i = 35 ∧ byteAt span (i + 1) = 123 then true else hasInterp span (i + 1) stop
  else false
termination_by stop - i

/-- The literal holds an interpolation. -/
def spanInterpolates (span : Str) (isTriple : Bool) : Bool :=
  hasInterp span (interpLead isTriple) (span.length - interpLead isTriple)

/-- The text of a token, and how the parser tells a triple-quoted one. -/
def tokSource (src : Str) (t : Token) : Str := stringSlice src t.start t.length

def isTripleSpan (span : Str) : Bool :=
  decide (span.length ≥ 6) && (ascii "\"\"\"").isPrefixOf span

/-- The text that parts stand for, with each body back between its delimiters. -/
def weave : List IPart → Str
  | [] => []
  | .lit piece _ :: rest => piece ++ weave rest
  | .exp src :: rest => ascii "#\x7b" ++ (src ++ (ascii "\x7d" ++ weave rest))

/-- The bodies among the parts. -/
def bodies : List IPart → List Str
  | [] => []
  | .lit _ _ :: rest => bodies rest
  | .exp src :: rest => src :: bodies rest

theorem weave_append (ps qs : List IPart) : weave (ps ++ qs) = weave ps ++ weave qs := by
  induction ps with
  | nil => rfl
  | cons p ps ih =>
      cases p with
      | lit piece cLit => rw [List.cons_append, weave, weave, ih, List.append_assoc]
      | exp src =>
          rw [List.cons_append, weave, weave, ih]
          simp only [List.append_assoc]

theorem bodies_append (ps qs : List IPart) : bodies (ps ++ qs) = bodies ps ++ bodies qs := by
  induction ps with
  | nil => rfl
  | cons p ps ih =>
      cases p with
      | lit piece cLit => exact ih
      | exp src => exact congrArg (src :: ·) ih

end Kaikai.Lex
