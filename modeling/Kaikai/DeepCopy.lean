import Kaikai.Progression
import Kaikai.RuntimeEq

namespace Kaikai.DeepCopy

open Kaikai.Runtime (Ref Scalar Fixed RecMeta VecData VarSlot SlotKind varSlotKind fitsImmediate)
open Kaikai.Word64 (Word)
open Kaikai.Progression (Passed)

deriving instance DecidableEq for VarSlot

/-- A reference count: an ordinary one, an atomic one, or the mark of an immortal node. -/
inductive Rc where
  | plain (n : Nat)
  | atomic (n : Nat)
  | immortal
deriving DecidableEq

namespace Rc

def isPlain : Rc → Bool
  | plain _ => true
  | _ => false

def isAtomic : Rc → Bool
  | atomic _ => true
  | _ => false

/-- The count as `kai_incref` leaves it. -/
def incref : Rc → Rc
  | plain n => plain (n + 1)
  | atomic n => atomic (n + 1)
  | immortal => immortal

/-- The count as `kai_decref` leaves it. -/
def decref : Rc → Rc
  | plain n => plain (n - 1)
  | atomic n => atomic (n - 1)
  | immortal => immortal

end Rc

/-- The `variant_tag` of a `KAI_REF`: a cell of the program, the cell of a `var`, or what a
`var` is in another fiber. -/
inductive RefKind where
  | user | var | varForeign
deriving DecidableEq

inductive Cell where
  | unit
  | bool (b : Bool)
  | int (i : Word)
  | real (bits : Word)
  | char (c : Nat)
  | str (bytes : List UInt8)
  | byte (b : UInt8)
  | fixed (kind : Fixed) (n : Int)
  | foreign (p : Nat)
  | nil
  | cons (head tail : Ref)
  | range (start stop step : Word)
  | record (headTag : Nat) (names : List (List UInt8)) (fields : List Ref)
  | variant (tag : Nat) (slots : List VarSlot)
  | array (items : List Ref)
  | vec (cap : Nat) (data : VecData)
  | view (owner start len : Nat)
  | closure (fn arity : Nat) (captures : List Ref)
  | fiber (id : Nat)
  | pid (id : Nat)
  | ref (kind : RefKind) (cell : Ref)
  | cont
  | seq (slot pred : Ref)

structure Node where
  cell : Cell
  rc : Rc

/-- An entry of the tables of interned variants. -/
structure Interned where
  tag : Nat
  slots : List VarSlot
  addr : Nat

/-- Nodes by address, and the interned variants. -/
structure Heap where
  nodes : List Node
  interned : List Interned

/-- What the program and the process fix: the caches of bytes and of ASCII characters, the
unit and the empty list, the slot mask of each variant tag, the tags that are rewritten in place, and whether the tables
of interned variants have room for one more. -/
structure Tables where
  byteCell : UInt8 → Nat
  charCell : Nat → Nat
  unitCell : Nat
  nilCell : Nat
  slotMask : Nat → Nat
  reusable : Nat → Bool
  room : List Interned → Nat → List VarSlot → Bool

namespace Heap

def node (h : Heap) (a : Nat) : Option Node := h.nodes[a]?

def next (h : Heap) : Nat := h.nodes.length

def alloc (h : Heap) (nd : Node) : Heap := { h with nodes := h.nodes ++ [nd] }

/-- `kai_alloc` and the writes that fill the cell. -/
def new (h : Heap) (c : Cell) : Heap × Ref := (h.alloc ⟨c, .plain 1⟩, .ptr h.next)

def modifyRc (h : Heap) (f : Rc → Rc) : Ref → Heap
  | .ptr a => { h with nodes := h.nodes.modify a fun nd => { nd with rc := f nd.rc } }
  | _ => h

def incref (h : Heap) (r : Ref) : Heap := h.modifyRc Rc.incref r

/-- `kai_decref` of a reference that is not the last. -/
def decref (h : Heap) (r : Ref) : Heap := h.modifyRc Rc.decref r

/-- A cell is rewritten in place. -/
def setCell (h : Heap) (a : Nat) (c : Cell) : Heap :=
  { h with nodes := h.nodes.modify a fun nd => { nd with cell := c } }

/-- The tail of a list cell is patched. -/
def setTail (h : Heap) (a : Nat) (tail : Ref) : Heap :=
  { h with nodes := h.nodes.modify a fun nd =>
      match nd.cell with
      | .cons head _ => { nd with cell := .cons head tail }
      | _ => nd }

def internable (h : Heap) : VarSlot → Bool
  | .ptr (.ptr a) =>
      match h.node a with
      | some ⟨.unit, .immortal⟩ => true
      | some ⟨.bool _, .immortal⟩ => true
      | some ⟨.nil, .immortal⟩ => true
      | some ⟨.str _, .immortal⟩ => true
      | some ⟨.variant _ _, .immortal⟩ => true
      | _ => false
  | _ => false

/-- `kai_nullary_lookup` and `kai_immortal_slot_lookup`. -/
def lookup (h : Heap) (tag : Nat) (slots : List VarSlot) : Option Nat :=
  (h.interned.find? fun e => e.tag = tag ∧ e.slots = slots).map Interned.addr

def install (h : Heap) (tag : Nat) (slots : List VarSlot) (a : Nat) : Heap :=
  { h with interned := h.interned ++ [⟨tag, slots, a⟩] }

end Heap

def kaiInt (h : Heap) (n : Word) : Heap × Ref :=
  if fitsImmediate n then (h, .imm n) else h.new (.int n)

/-- `kai_seq_norm`: a range becomes the empty list or a first element and a range, in its own
cell and under its own count. -/
def seqNorm (T : Tables) (h : Heap) (r : Ref) : Heap :=
  match r with
  | .ptr a =>
      match (h.node a).map Node.cell with
      | some (.range start stop step) =>
          if Passed stop.1 step.1 start.1 then h.setCell a .nil
          else
            let next := Word.ofInt (start.1 + step.1)
            let (h, tail) :=
              if Passed stop.1 step.1 next.1 then (h, .ptr T.nilCell)
              else h.new (.range next stop step)
            let (h, head) := kaiInt h start
            h.setCell a (.cons head tail)
      | _ => h
  | _ => h

/-- `kai_char`: the first 128 characters are cached. -/
def kaiChar (T : Tables) (h : Heap) (c : Nat) : Heap × Ref :=
  if c ≤ 127 then (h, .ptr (T.charCell c)) else h.new (.char c)

def kaiByte (T : Tables) (h : Heap) (b : UInt8) : Heap × Ref := (h, .ptr (T.byteCell b))

def immortalVarMax : Nat := 4

/-- `kai_variant_u`: variants without slots, and those of interned slots, are interned. -/
def variantU (T : Tables) (h : Heap) (tag : Nat) (slots : List VarSlot) : Heap × Ref :=
  if slots = [] then
    match h.lookup tag [] with
    | some a => (h, .ptr a)
    | none =>
        let h' := h.alloc ⟨.variant tag [], .immortal⟩
        (if T.room h.interned tag [] then h'.install tag [] h.next else h', .ptr h.next)
  else if T.slotMask tag = 0 ∧ T.reusable tag = false ∧ slots.length ≤ immortalVarMax ∧
      slots.all h.internable = true then
    match h.lookup tag slots with
    | some a => (h, .ptr a)
    | none =>
        if T.room h.interned tag slots then
          ((h.alloc ⟨.variant tag slots, .immortal⟩).install tag slots h.next, .ptr h.next)
        else h.new (.variant tag slots)
  else h.new (.variant tag slots)

/-- `kai_closure`: the closure takes references of its own to what it captures. -/
def kaiClosure (h : Heap) (fn arity : Nat) (captures : List Ref) : Heap × Ref :=
  let (h, c) := h.new (.closure fn arity captures)
  (captures.foldl Heap.incref h, c)

/-- The children of a cell one after the other. -/
def copyEach (f : Heap → Ref → Option (Heap × Ref)) (h : Heap) : List Ref → Option (Heap × List Ref)
  | [] => some (h, [])
  | r :: rs => do
      let (h, x) ← f h r
      let (h, xs) ← copyEach f h rs
      some (h, x :: xs)

/-- The slots of a variant, from slot `i` on: pointers are copied, payloads taken over. -/
def copySlots (f : Heap → Ref → Option (Heap × Ref)) (mask : Nat) :
    Nat → Heap → List VarSlot → Option (Heap × List VarSlot)
  | _, h, [] => some (h, [])
  | i, h, slot :: slots =>
      match varSlotKind mask i, slot with
      | .ptr, .ptr r => do
          let (h, x) ← f h r
          let (h, xs) ← copySlots f mask (i + 1) h slots
          some (h, .ptr x :: xs)
      | .ptr, .i64 _ => none
      | _, slot => do
          let (h, xs) ← copySlots f mask (i + 1) h slots
          some (h, slot :: xs)

/-- The loop down the tail of a list; `last` is the cell whose tail is still to be patched. -/
def copyTail (f : Heap → Ref → Option (Heap × Ref)) : Nat → Heap → Nat → Ref → Option Heap
  | 0, _, _, _ => none
  | n + 1, h, last, src =>
      let finish := do
        let (h, x) ← f h src
        some (h.setTail last x)
      match src with
      | .ptr a =>
          match (h.node a).map Node.cell with
          | some (.cons head tail) => do
              let (h, x) ← f h head
              let node := h.next
              copyTail f n ((h.new (.cons x .null)).1.setTail last (.ptr node)) node tail
          | _ => finish
      | _ => finish

/-- The elements of a vec or of a view of one. -/
def vecData (h : Heap) : Cell → Option VecData
  | .vec _ data => some data
  | .view owner start len =>
      match (h.node owner).map Node.cell with
      | some (.vec _ data) => some (data.slice start len)
      | _ => none
  | _ => none

/-- The elements of a copied vec. -/
def copyVec (f : Heap → Ref → Option (Heap × Ref)) (h : Heap) : VecData → Option (Heap × VecData)
  | .boxed xs => (copyEach f h xs).map fun p => (p.1, .boxed p.2)
  | data => some (h, data)

/-- `kai_deep_copy_cross`: `kai_deep_copy` at the thread border. `none` is an abort, a read
that C leaves undefined, or a lack of fuel. -/
def deepCopy (T : Tables) : Nat → Heap → Ref → Option (Heap × Ref)
  | 0, _, _ => none
  | _ + 1, h, .null => some (h, .null)
  | _ + 1, h, .imm k => some (h, .imm k)
  | n + 1, h, .ptr a => do
      let nd ← h.node a
      match nd.cell with
      | .cons head tail =>
          let (h, x) ← deepCopy T n h head
          let out := h.next
          let h ← copyTail (deepCopy T n) n (h.new (.cons x .null)).1 out tail
          some (h, .ptr out)
      | .range start stop step => some (h.new (.range start stop step))
      | .record headTag names fields =>
          let (h, xs) ← copyEach (deepCopy T n) h fields
          some (h.new (.record headTag names xs))
      | .variant tag slots =>
          let (h, xs) ← copySlots (deepCopy T n) (T.slotMask tag) 0 h slots
          some (variantU T h tag xs)
      -- the cell of an array or a vec is taken behind its elements here, ahead of them in C
      | .array items =>
          let (h, xs) ← copyEach (deepCopy T n) h items
          some (h.new (.array xs))
      | .str bytes => some (h.new (.str bytes))
      | .vec _ _ | .view _ _ _ =>
          let data ← vecData h nd.cell
          let (h, data) ← copyVec (deepCopy T n) h data
          some (h.new (.vec data.length data))
      | .closure fn arity captures =>
          let (h, xs) ← copyEach (deepCopy T n) h captures
          let (h, c) := kaiClosure h fn arity xs
          some (xs.foldl Heap.decref h, c)
      -- taken for nodes without an ordinary count
      | .unit | .bool _ | .nil => some (h.incref (.ptr a), .ptr a)
      | .fiber _ | .pid _ => some (h.incref (.ptr a), .ptr a)
      | .int i => some (kaiInt h i)
      | .real bits => some (h.new (.real bits))
      | .char c => some (kaiChar T h c)
      | .byte b => some (kaiByte T h b)
      | .fixed kind k => some (h.new (.fixed kind k))
      | .foreign p => some (h.new (.foreign p))
      | .ref .user cell =>
          let (h, x) ← deepCopy T n h cell
          some (h.new (.ref .user x))
      | .ref _ _ => some (h.new (.ref .varForeign (.ptr T.unitCell)))
      | .cont => none
      | .seq _ _ => none

end Kaikai.DeepCopy
