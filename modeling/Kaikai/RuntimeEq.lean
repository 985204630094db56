import Kaikai.LazyRange

namespace Kaikai.Runtime

open Kaikai.Word64 (Word)

/-- A heap, with the ranges that are normalised at each of the next steps. -/
structure EqState where
  heap : Heap
  pendingNorms : List (List Ref)

/-- The normalisations that happen before a step. -/
def EqState.interrupt (st : EqState) : EqState :=
  match st.pendingNorms with
  | [] => st
  | refs :: rest => ⟨refs.foldl seqNorm st.heap, rest⟩

/-- An answer of the comparison; `none` is a read that C leaves undefined, or a lack of
fuel. -/
abbrev EqResult := Option (EqState × Bool)

/-- How a slot of a variant is read. -/
inductive SlotKind where
  | ptr | int | real | enum
deriving DecidableEq

/-- `kai_var_slot_kind`: two bits of the mask for each slot. -/
def varSlotKind (mask i : Nat) : SlotKind :=
  match mask / 4 ^ i % 4 with
  | 0 => .ptr
  | 1 => .int
  | 2 => .real
  | _ => .enum

/-- What the program registers: the slot mask and the head of each variant tag, and the
`Eq` impl of each head; `realEq` is the comparison of doubles. -/
structure EqTables where
  slotMask : Nat → Nat
  variantHead : Nat → Nat
  eqImpl : Nat → Option (EqState → Ref → Ref → EqResult)
  realEq : Word → Word → Bool

/-- `kai_eq_impl_of`: head zero is anonymous. -/
def EqTables.eqImplOf (T : EqTables) (head : Nat) : Option (EqState → Ref → Ref → EqResult) :=
  if head = 0 then none else T.eqImpl head

def Ref.isValue : Ref → Bool
  | .imm _ => true
  | _ => false

/-- Both are integers, of one value. -/
def sameInt (h : Heap) (a b : Ref) : Bool :=
  match intf h a, intf h b with
  | some m, some n => m == n
  | _, _ => false

def Cell.isRange : Cell → Bool
  | .range _ _ _ => true
  | _ => false

def Cell.isSeq : Cell → Bool
  | .range _ _ _ => true
  | .cons _ _ => true
  | .nil => true
  | _ => false

/-- The tags that one reference does not settle: a value that may hold a NaN. -/
def Cell.mayHoldReal : Cell → Bool
  | .real _ => true
  | .cons _ _ => true
  | .variant _ _ => true
  | .record _ _ => true
  | .vec _ => true
  | .view _ _ _ => true
  | _ => false

/-- One reference on both sides answers at once. -/
def sameRef (h : Heap) (a b : Ref) : Bool :=
  a == b &&
    match a with
    | .ptr p =>
        match h.read p with
        | some c => !c.mayHoldReal
        | none => false
    | _ => true

def consAt (h : Heap) : Ref → Option (Ref × Ref)
  | .ptr a =>
      match h.read a with
      | some (.cons head tail) => some (head, tail)
      | _ => none
  | _ => none

/-- A comparison that goes on while the answers are yes. -/
def andThen (out : EqResult) (next : EqState → EqResult) : EqResult :=
  match out with
  | some (st, true) => next st
  | _ => out

/-- The comparison of the pairs of a loop. -/
def eqAll (f : EqState → Ref → Ref → EqResult) (st : EqState) : List (Ref × Ref) → EqResult
  | [] => some (st, true)
  | (x, y) :: rest => andThen (f st x y) fun st' => eqAll f st' rest

/-- The spine of two cells; `n` bounds the loop. -/
def eqSpine (f : EqState → Ref → Ref → EqResult) : Nat → EqState → Ref → Ref → EqResult
  | 0, _, _, _ => none
  | n + 1, st, a, b =>
      match consAt st.heap a, consAt st.heap b with
      | some (headA, _), some (headB, _) =>
          andThen (f st headA headB) fun st' =>
            match consAt st'.heap a, consAt st'.heap b with
            | some (_, tailA), some (_, tailB) =>
                if (consAt st'.heap tailA).isSome && (consAt st'.heap tailB).isSome then
                  eqSpine f n st' tailA tailB
                else f st' tailA tailB
            | _, _ => none
      | _, _ => none

/-- The walk of two cursors; `n` bounds the loop. -/
def eqCursors (f : EqState → Ref → Ref → EqResult) : Nat → EqState → SeqIt → SeqIt → EqResult
  | 0, _, _, _ => none
  | n + 1, st, ia, ib =>
      let st := st.interrupt
      let ra := seqItNext st.heap ia
      let rb := seqItNext ra.1 ib
      match ra.2.1, rb.2.1 with
      | some x, some y =>
          andThen (f { st with heap := rb.1 } x y) fun st' => eqCursors f n st' ra.2.2 rb.2.2
      | none, none => some ({ st with heap := rb.1 }, true)
      | _, _ => some ({ st with heap := rb.1 }, false)

/-- The slots of two variants of one tag, from slot `i` on. -/
def eqSlots (T : EqTables) (f : EqState → Ref → Ref → EqResult) (mask : Nat) :
    Nat → EqState → List (VarSlot × VarSlot) → EqResult
  | _, st, [] => some (st, true)
  | i, st, (x, y) :: rest =>
      match varSlotKind mask i, x, y with
      | .ptr, .ptr u, .ptr v =>
          andThen (f st u v) fun st' => eqSlots T f mask (i + 1) st' rest
      | .int, .i64 m, .i64 n => if m = n then eqSlots T f mask (i + 1) st rest else some (st, false)
      | .enum, .i64 m, .i64 n => if m = n then eqSlots T f mask (i + 1) st rest else some (st, false)
      | .real, .i64 m, .i64 n =>
          if T.realEq m n then eqSlots T f mask (i + 1) st rest else some (st, false)
      | _, _, _ => none

def VecData.slice (start len : Nat) : VecData → VecData
  | .pending => .pending
  | .boxed xs => .boxed ((xs.drop start).take len)
  | .raw tag bits => .raw tag ((bits.drop start).take len)
  | .inlined shape rows => .inlined shape ((rows.drop start).take len)

/-- The elements of a vec or of a view of one. -/
def vecData (h : Heap) : Cell → Option VecData
  | .vec v => some v.data
  | .view owner start len =>
      match h.read owner with
      | some (.vec v) => some (v.data.slice start len)
      | _ => none
  | _ => none

/-- A payload word of a column: doubles by value, any other by its bits. -/
def eqWord (T : EqTables) (tag : Scalar) (x y : Word) : Bool :=
  if tag = .real then T.realEq x y else x == y

def eqRow (T : EqTables) (tags : List Scalar) (xs ys : List Word) : Bool :=
  (tags.zip (xs.zip ys)).all fun c => eqWord T c.1 c.2.1 c.2.2

def vecEq (T : EqTables) (f : EqState → Ref → Ref → EqResult) (st : EqState) (x y : VecData) :
    EqResult :=
  if x.length ≠ y.length then some (st, false)
  else if x.length = 0 then some (st, true)
  else
    match x, y with
    | .boxed xs, .boxed ys => eqAll f st (xs.zip ys)
    | .raw tag xs, .raw _ ys => some (st, (xs.zip ys).all fun c => eqWord T tag c.1 c.2)
    | .inlined shape xs, .inlined _ ys =>
        some (st, (xs.zip ys).all fun c => eqRow T shape.fieldTags c.1 c.2)
    | _, _ => some (st, false)

/-- The arms of two cells, neither a range. -/
def eqCells (T : EqTables) (f : EqState → Ref → Ref → EqResult) (n : Nat) (st : EqState)
    (a b : Ref) : Cell → Cell → EqResult
  | .unit, .unit => some (st, true)
  | .bool x, .bool y => some (st, x == y)
  | .int x, .int y => some (st, x == y)
  | .real x, .real y => some (st, T.realEq x y)
  | .char x, .char y => some (st, x == y)
  | .str x, .str y => some (st, x == y)
  | .byte x, .byte y => some (st, x == y)
  | .fixed k x, .fixed l y => some (st, k == l && x == y)
  | .nil, .nil => some (st, true)
  | .cons _ _, .cons _ _ => eqSpine f n st a b
  | .variant s xs, .variant t ys =>
      match T.eqImplOf (T.variantHead s) with
      | some impl => impl st a b
      | none =>
          if s ≠ t then some (st, false)
          else if xs.length ≠ ys.length then some (st, false)
          else eqSlots T f (T.slotMask s) 0 st (xs.zip ys)
  | .record head xs, .record _ ys =>
      match T.eqImplOf head with
      | some impl => impl st a b
      | none =>
          if xs.length ≠ ys.length then some (st, false)
          else eqAll f st ((xs.map Prod.snd).zip (ys.map Prod.snd))
  | x, y =>
      match vecData st.heap x, vecData st.heap y with
      | some u, some v => vecEq T f st u v
      | _, _ => some (st, false)

def opEq (T : EqTables) : Nat → EqState → Ref → Ref → EqResult
  | 0, _, _, _ => none
  | fuel + 1, st, a, b =>
      let st := st.interrupt
      if sameRef st.heap a b then some (st, true)
      else if a.isValue || b.isValue then some (st, sameInt st.heap a b)
      else
        match a, b with
        | .ptr p, .ptr q =>
            match st.heap.read p, st.heap.read q with
            | some x, some y =>
                if x.isRange || y.isRange then
                  if x.isSeq && y.isSeq then
                    eqCursors (opEq T fuel) fuel st (seqItInit a) (seqItInit b)
                  else some (st, false)
                else eqCells T (opEq T fuel) fuel st a b x y
            | _, _ => none
        | _, _ => some (st, false)

end Kaikai.Runtime
