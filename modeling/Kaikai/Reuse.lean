import Mathlib.Data.Nat.Bitwise
import Kaikai.RefCount

namespace Kaikai.Reuse

open Function RefCount

/-- A word of a cell: null, an immediate, the address of a cell, or an unboxed payload. -/
abbrev Word := ℕ

def isValue (w : Word) : Bool := w % 2 = 1

def isPtr (w : Word) : Bool := w ≠ 0 && !isValue w

def slotPtr : ℕ := 0

def slotKind (mask i : ℕ) : ℕ := (mask >>> (2 * i)) % 4

/-- What a cell holds; `other` is a cell of another kind with the words it owns. -/
inductive Body where
  | cons (head tail : Word)
  | record (headTypeTag : ℕ) (names : List String) (fields : List Word)
  | variant (tag : ℕ) (slots : List Word)
  | other (owned : List Word)

def Body.words : Body → List Word
  | cons head tail => [head, tail]
  | record _ _ fields => fields
  | variant _ slots => slots
  | other owned => owned

def Body.setWord (i : ℕ) (w : Word) : Body → Body
  | cons head tail => if i = 0 then cons w tail else cons head w
  | record t names fields => record t names (fields.set i w)
  | variant tag slots => variant tag (slots.set i w)
  | other owned => other (owned.set i w)

/-- The mask recorded for each tag. -/
abbrev Masks := ℕ → Option ℕ

/-- `kai_slot_mask_of`: a tag never recorded reads as zero. -/
def maskOf (m : Masks) (tag : ℕ) : ℕ := (m tag).getD 0

/-- `kai_slotmask_register`: the first mask recorded for a tag wins. -/
def register (m : Masks) (tag mask : ℕ) : Masks :=
  if m tag = none then update m tag (some mask) else m

/-- The words in the pointer slots, from slot `i` on. -/
def ptrWords (mask : ℕ) : ℕ → List Word → List Word
  | _, [] => []
  | i, w :: ws =>
    if slotKind mask i = slotPtr then w :: ptrWords mask (i + 1) ws
    else ptrWords mask (i + 1) ws

/-- The words that `kai_free_one` drops. -/
def kids (m : Masks) : Body → List Word
  | .cons head tail => [head, tail]
  | .record _ _ fields => fields
  | .variant tag slots => ptrWords (maskOf m tag) 0 slots
  | .other owned => owned

structure State where
  heap : Heap Word Body
  masks : Masks

namespace State

def body (s : State) (a : Word) : Body := s.heap.body a

def rc (s : State) (a : Word) : Option ℕ := s.heap.rc a

def setBody (s : State) (a : Word) (b : Body) : State :=
  { s with heap := { s.heap with body := update s.heap.body a b } }

def checkUnique (s : State) (v : Word) : Bool :=
  isPtr v && decide (v ∈ s.heap.live) && decide (s.rc v = some 1)

def incref (s : State) (v : Word) : State :=
  if isPtr v ∧ v ∈ s.heap.live then
    match s.rc v with
    | none => s
    | some k => { s with heap := s.heap.setRc v (some (k + 1)) }
  else s

/-- `kai_decref`, with the cascade of `kai_decref_free`. -/
def decref (s : State) (v : Word) : State :=
  { s with heap := s.heap.release isPtr (kids s.masks) [v] }

/-- The plain `rc -= 1` of a count that is not saturated. -/
def decrement (s : State) (v : Word) : State :=
  match s.rc v with
  | none => s
  | some k => { s with heap := s.heap.setRc v (some (k - 1)) }

/-- A cell at the address `a` that the allocator gives. -/
def alloc (s : State) (a : Word) (b : Body) : State :=
  { s with heap := s.heap.put a (some 1) b }

/-- The path of `kai_variant_u` that allocates; the immortal cells that it answers for nullary and
interned variants count as immediates. -/
def variantU (s : State) (a : Word) (tag mask : ℕ) (slots : List Word) : State :=
  State.alloc { s with masks := register s.masks tag mask } a (.variant tag slots)

/-- The words of `ws` are written over the words of cell `d` from number `i` on; the word that
was there is released where `pays` says so of it and the new one. -/
def refill (pays : ℕ → Word → Word → Bool) (d : Word) : ℕ → List Word → State → State
  | _, [], s => s
  | i, w :: ws, s =>
    let old := (s.body d).words.getD i 0
    let s := s.setBody d ((s.body d).setWord i w)
    refill pays d (i + 1) ws (if pays i old w then s.decref old else s)

end State

open State

def reuseOrAllocCons (a scr head tail : Word) (s : State) : State × Word :=
  match s.body scr with
  | .cons oldHead oldTail =>
    if s.checkUnique scr then
      let s := s.setBody scr (.cons head tail)
      let s := if oldHead ≠ head then s.decref oldHead else s
      let s := if oldTail ≠ tail then s.decref oldTail else s
      (s.incref scr, scr)
    else (s.alloc a (.cons head tail), a)
  | _ => (s.alloc a (.cons head tail), a)

/-- The test of `kai_reuse_or_alloc_record` at field `i`. -/
def recordPays (kept : ℕ) (i : ℕ) (old new : Word) : Bool :=
  decide (old ≠ new) || (decide (i < 64) && kept.testBit i)

def reuseOrAllocRecord (a scr : Word) (names : List String) (fields : List Word) (kept : ℕ)
    (s : State) : State × Word :=
  match s.body scr with
  | .record _ _ old =>
    if old.length = fields.length ∧ s.checkUnique scr then
      let s := s.refill (recordPays kept) scr 0 fields
      let s := s.setBody scr (.record 0 names (s.body scr).words)
      (s.incref scr, scr)
    else (s.alloc a (.record 0 names fields), a)
  | _ => (s.alloc a (.record 0 names fields), a)

/-- The test of `kai_reuse_or_alloc_variant` at slot `i`: one bit of the mask. -/
def variantPays (mask : ℕ) (i : ℕ) (old new : Word) : Bool :=
  !mask.testBit i && decide (old ≠ new)

def reuseOrAllocVariant (a scr : Word) (tag mask : ℕ) (slots : List Word) (s : State) :
    State × Word :=
  match s.body scr with
  | .variant t old =>
    if old.length = slots.length ∧ maskOf s.masks t = mask ∧ s.checkUnique scr then
      let s := s.refill (variantPays mask) scr 0 slots
      let s := s.setBody scr (.variant tag (s.body scr).words)
      (s.incref scr, scr)
    else (s.variantU a tag mask slots, a)
  | _ => (s.variantU a tag mask slots, a)

/-- The test of `kai_variant_reuse_at` at slot `i`, by the mask of the donor. -/
def reuseAtPays (donorMask : ℕ) (i : ℕ) (old new : Word) : Bool :=
  (decide (donorMask = 0) || decide (slotKind donorMask i = slotPtr)) && isPtr old &&
    decide (old ≠ new)

def variantReuseAt (a scr : Word) (tag mask : ℕ) (slots : List Word) (s : State) :
    State × Word :=
  match s.body scr with
  | .variant t old =>
    if old.length = slots.length ∧ s.checkUnique scr then
      let s := s.refill (reuseAtPays (maskOf s.masks t)) scr 0 slots
      let s := s.setBody scr (.variant tag (s.body scr).words)
      let s := { s with masks := register s.masks tag mask }
      (s.incref scr, scr)
    else (s.variantU a tag mask slots, a)
  | _ => (s.variantU a tag mask slots, a)

def dropReuseToken (v : Word) (n : ℕ) (s : State) : Word × State :=
  if isPtr v then
    match s.body v with
    | .variant _ slots =>
      if slots.length ≠ n then (0, s.decrement v)
      else if s.checkUnique v then (v, s)
      else (0, s.decrement v)
    | _ => (0, s)
  else (0, s)

def reuseFree (token : Word) (s : State) : State :=
  if token = 0 ∨ isValue token then s
  else
    match s.body token with
    | .variant _ _ => { s with heap := s.heap.erase token }
    | _ => s

def variantAt (a token : Word) (tag mask : ℕ) (slots : List Word) (s : State) : State × Word :=
  match s.body token with
  | .variant _ old =>
    if token ≠ 0 ∧ old.length = slots.length then
      let s := s.setBody token (.variant tag slots)
      ({ s with heap := s.heap.setRc token (some 1) }, token)
    else ((reuseFree token s).variantU a tag mask slots, a)
  | _ => ((reuseFree token s).variantU a tag mask slots, a)

/-- A helper that rebuilds before the arm releases its scrutinee. -/
inductive Rebuild where
  | cons (head tail : Word)
  | record (names : List String) (fields : List Word) (kept : ℕ)
  | variant (tag : ℕ) (slots : List Word)
  | variantReuseAt (tag : ℕ) (slots : List Word)

/-- What the arm builds. -/
def Rebuild.body : Rebuild → Body
  | cons head tail => .cons head tail
  | record names fields _ => .record 0 names fields
  | variant tag slots | variantReuseAt tag slots => .variant tag slots

section Arms

variable (layout : ℕ → ℕ)

/-- The helper; `layout` is the mask of each constructor. -/
def Rebuild.run (a scr : Word) : Rebuild → State → State × Word
  | cons head tail, s => reuseOrAllocCons a scr head tail s
  | record names fields kept, s => reuseOrAllocRecord a scr names fields kept s
  | variant tag slots, s => reuseOrAllocVariant a scr tag (layout tag) slots s
  | variantReuseAt tag slots, s => Reuse.variantReuseAt a scr tag (layout tag) slots s

/-- A fresh cell for what the arm builds. -/
def fresh (a : Word) : Body → State → State
  | .variant tag slots, s => s.variantU a tag (layout tag) slots
  | b, s => s.alloc a b

/-- A reference for each of the words. -/
def State.dups (s : State) (ws : List Word) : State :=
  ws.foldl State.incref s

/-- The words are released, one after the other. -/
def State.decrefs (s : State) (ws : List Word) : State :=
  ws.foldl State.decref s

/-- The arm that takes its scrutinee's shell as a token of arity `n`: it owns the children of
the scrutinee, which it dups where there is no token, releases the words of `dropped`, and
rebuilds into the token, or frees it where it builds nothing. -/
def tokenArm (a scr : Word) (n : ℕ) (built : Option (ℕ × List Word)) (dropped : List Word)
    (s : State) : State × Word :=
  let r := dropReuseToken scr n s
  let s' := if r.1 = 0 then r.2.dups (kids s.masks (s.body scr)) else r.2
  let s' := s'.decrefs dropped
  match built with
  | some (tag, slots) => variantAt a r.1 tag (layout tag) slots s'
  | none => (reuseFree r.1 s', 0)

/-- The same arm without reuse. -/
def plainArm (a scr : Word) (built : Option (ℕ × List Word)) (dropped : List Word)
    (s : State) : State × Word :=
  let s' := (s.dups (kids s.masks (s.body scr))).decref scr
  let s' := s'.decrefs dropped
  match built with
  | some (tag, slots) => (s'.variantU a tag (layout tag) slots, a)
  | none => (s', 0)

end Arms

end Kaikai.Reuse
