import Kaikai.DeepCopy

namespace Kaikai.DeepCopy

open Kaikai.Runtime (Ref Scalar Fixed RecMeta VecData VarSlot SlotKind varSlotKind)
open Kaikai.Word64 (Word)
open Kaikai.Progression (terms count)

/-- The values of programs. -/
inductive Value where
  | null
  | unit
  | bool (b : Bool)
  | int (n : Int)
  | real (bits : Word)
  | char (c : Nat)
  | str (bytes : List UInt8)
  | byte (b : UInt8)
  | fixed (kind : Fixed) (n : Int)
  | foreign (p : Nat)
  | list (vs : List Value)
  | record (headTag : Nat) (names : List (List UInt8)) (fields : List Value)
  | variant (tag : Nat) (args : List Value)
  | word (kind : SlotKind) (w : Word)
  | array (items : List Value)
  | vec (elements : List Value)
  | scalar (tag : Scalar) (bits : Word)
  | row (shape : RecMeta) (columns : List Word)
  | closure (fn arity : Nat) (captures : List Value)
  | fiber (id : Nat)
  | pid (id : Nat)
  | ref (v : Value)
  /-- a variable of a fiber; nothing of it crosses -/
  | var

/-- The pointers among the slots of a variant, from slot `i` on. -/
def slotRefs (mask : Nat) : Nat → List VarSlot → List Ref
  | _, [] => []
  | i, slot :: slots =>
      match varSlotKind mask i, slot with
      | .ptr, .ptr r => r :: slotRefs mask (i + 1) slots
      | _, _ => slotRefs mask (i + 1) slots

/-- The values of slots, where `vs` are those of the pointers among them. -/
def slotValues (mask : Nat) : Nat → List VarSlot → List Value → Option (List Value)
  | _, [], [] => some []
  | _, [], _ :: _ => none
  | i, slot :: slots, vs =>
      match varSlotKind mask i, slot, vs with
      | .ptr, .ptr _, v :: vs => (slotValues mask (i + 1) slots vs).map (v :: ·)
      | .ptr, _, _ => none
      | kind, .i64 w, vs => (slotValues mask (i + 1) slots vs).map (.word kind w :: ·)
      | _, .ptr _, _ => none

def vecRefs : VecData → List Ref
  | .boxed xs => xs
  | _ => []

/-- The value of a vec, where `vs` are those of its boxed elements. -/
def vecValue : VecData → List Value → Value
  | .pending, _ => .vec []
  | .boxed _, vs => .vec vs
  | .raw tag bits, _ => .vec (bits.map (.scalar tag))
  | .inlined shape rows, _ => .vec (rows.map (.row shape))

/-- The value of a list cell, from those of its head and its tail. -/
def consValue : List Value → Option Value
  | [v, .list vs] => some (.list (v :: vs))
  | _ => none

namespace Cell

/-- The references that a copy follows. -/
def parts (T : Tables) (h : Heap) : Cell → List Ref
  | cons head tail => [head, tail]
  | record _ _ fields => fields
  | variant tag slots => slotRefs (T.slotMask tag) 0 slots
  | array items => items
  | vec _ data => vecRefs data
  | view owner start len => ((vecData h (view owner start len)).map vecRefs).getD []
  | closure _ _ captures => captures
  | ref .user cell => [cell]
  | _ => []

/-- The references that a cell holds. -/
def children (T : Tables) : Cell → List Ref
  | cons head tail => [head, tail]
  | record _ _ fields => fields
  | variant tag slots => slotRefs (T.slotMask tag) 0 slots
  | array items => items
  | vec _ data => vecRefs data
  | view owner _ _ => [.ptr owner]
  | closure _ _ captures => captures
  | ref _ cell => [cell]
  | seq slot pred => [slot, pred]
  | _ => []

/-- The value of a cell, from those of its parts; a continuation and a sequence have none
that could leave their fiber. -/
def value (T : Tables) (h : Heap) : Cell → List Value → Option Value
  | unit, _ => some .unit
  | bool b, _ => some (.bool b)
  | int i, _ => some (.int i.1)
  | real bits, _ => some (.real bits)
  | char c, _ => some (.char c)
  | str bytes, _ => some (.str bytes)
  | byte b, _ => some (.byte b)
  | fixed kind n, _ => some (.fixed kind n)
  | foreign p, _ => some (.foreign p)
  | nil, _ => some (.list [])
  | cons _ _, vs => consValue vs
  | range start stop step, _ =>
      some (.list ((terms start.1 step.1 (count start.1 stop.1 step.1)).map .int))
  | record headTag names _, vs => some (.record headTag names vs)
  | variant tag slots, vs => (slotValues (T.slotMask tag) 0 slots vs).map (.variant tag)
  | array _, vs => some (.array vs)
  | vec _ data, vs => some (vecValue data vs)
  | view owner start len, vs => (vecData h (view owner start len)).map fun data => vecValue data vs
  | closure fn arity _, vs => some (.closure fn arity vs)
  | fiber id, _ => some (.fiber id)
  | pid id, _ => some (.pid id)
  | ref .user _, vs => vs.head?.map .ref
  | ref _ _, _ => some .var
  | cont, _ => none
  | seq _ _, _ => none

/-- The cells that a copy shares as if they had no ordinary count. -/
def isAtom : Cell → Bool
  | unit => true
  | bool _ => true
  | nil => true
  | _ => false

/-- The cells that are handles, shared with their atomic counts. -/
def isHandle : Cell → Bool
  | fiber _ => true
  | pid _ => true
  | _ => false

end Cell

/-- The value of a reference, if its graph is acyclic and may cross; `n` bounds the depth. -/
def value (T : Tables) (h : Heap) : Nat → Ref → Option Value
  | 0, _ => none
  | _ + 1, .null => some .null
  | _ + 1, .imm k => some (.int k.1)
  | n + 1, .ptr a => do
      let nd ← h.node a
      let vs ← (nd.cell.parts T h).mapM (value T h n)
      nd.cell.value T h vs

/-- The copy of `r` visits the node. -/
inductive Visits (T : Tables) (h : Heap) : Ref → Nat → Prop
  | here {a : Nat} {nd : Node} : h.node a = some nd → Visits T h (.ptr a) a
  | part {a b : Nat} {nd : Node} {r : Ref} : h.node a = some nd → r ∈ nd.cell.parts T h →
      Visits T h r b → Visits T h (.ptr a) b

/-- The node is reachable from `r`. -/
inductive Reach (T : Tables) (h : Heap) : Ref → Nat → Prop
  | here {a : Nat} {nd : Node} : h.node a = some nd → Reach T h (.ptr a) a
  | child {a b : Nat} {nd : Node} {r : Ref} : h.node a = some nd → r ∈ nd.cell.children T →
      Reach T h r b → Reach T h (.ptr a) b

/-- The kind of a count is kept, and an ordinary one does not fall. -/
inductive Rc.Grows : Rc → Rc → Prop
  | plain {m n : Nat} : m ≤ n → Grows (.plain m) (.plain n)
  | atomic {m n : Nat} : Grows (.atomic m) (.atomic n)
  | immortal : Grows .immortal .immortal

/-- Every node keeps its cell and the kind of its count. -/
def Ext (h h' : Heap) : Prop :=
  ∀ a nd, h.node a = some nd → ∃ rc, h'.node a = some ⟨nd.cell, rc⟩ ∧ nd.rc.Grows rc

/-- A graph made of nodes from `b` on, of nodes without an ordinary count, and of shared
atoms in `A`. -/
inductive Copied (T : Tables) (A : Nat → Prop) (b : Nat) (h : Heap) : Ref → Prop
  | null : Copied T A b h .null
  | imm (k : Word) : Copied T A b h (.imm k)
  | ptr {a : Nat} {nd : Node} : h.node a = some nd →
      (b ≤ a ∨ nd.rc.isPlain = false ∨ (nd.cell.isAtom = true ∧ A a)) →
      (∀ r ∈ nd.cell.children T, Copied T A b h r) → Copied T A b h (.ptr a)

/-- What holds of every heap: the caches and the interned variants are immortal, and handles
are counted atomically. -/
structure Ok (T : Tables) (h : Heap) : Prop where
  bytes : ∀ b, h.node (T.byteCell b) = some ⟨.byte b, .immortal⟩
  chars : ∀ c ≤ 127, h.node (T.charCell c) = some ⟨.char c, .immortal⟩
  unit : h.node T.unitCell = some ⟨.unit, .immortal⟩
  nil : h.node T.nilCell = some ⟨.nil, .immortal⟩
  interned : ∀ e ∈ h.interned, h.node e.addr = some ⟨.variant e.tag e.slots, .immortal⟩
  handles : ∀ a nd, h.node a = some nd → nd.cell.isHandle = true → nd.rc.isAtomic = true

section

variable {h : Heap} {a b : Nat} {nd : Node}

theorem node_lt (hnode : h.node a = some nd) : a < h.next :=
  (List.getElem?_eq_some_iff.1 hnode).1

@[simp] theorem next_alloc : (h.alloc nd).next = h.next + 1 := by simp [Heap.next, Heap.alloc]

@[simp] theorem node_alloc : (h.alloc nd).node h.next = some nd := by
  simp [Heap.node, Heap.alloc, Heap.next]

theorem node_alloc_of_lt (ha : a < h.next) : (h.alloc nd).node a = h.node a :=
  List.getElem?_append_left ha

theorem node_alloc_cases {nd' : Node} (hnode : (h.alloc nd).node a = some nd') :
    h.node a = some nd' ∨ a = h.next ∧ nd' = nd := by
  have hlt := node_lt hnode
  rw [next_alloc] at hlt
  rcases Nat.lt_succ_iff_lt_or_eq.1 hlt with hlt | rfl
  · rw [node_alloc_of_lt hlt] at hnode
    exact .inl hnode
  · rw [node_alloc] at hnode
    exact .inr ⟨rfl, (Option.some.inj hnode).symm⟩

theorem node_modifyRc (f : Rc → Rc) : (h.modifyRc f (.ptr a)).node b =
    (h.node b).map fun nd => if b = a then { nd with rc := f nd.rc } else nd := by
  simp only [Heap.node, Heap.modifyRc]
  by_cases hb : b = a
  · rw [hb, List.getElem?_modify_eq]
    simp
  · rw [List.getElem?_modify_ne _ _ (Ne.symm hb)]
    simp [hb]

theorem node_setTail_of_ne (tail : Ref) (hb : b ≠ a) : (h.setTail a tail).node b = h.node b :=
  List.getElem?_modify_ne _ _ (Ne.symm hb)

theorem node_setTail {head tail : Ref} {rc : Rc} (y : Ref)
    (hnode : h.node a = some ⟨.cons head tail, rc⟩) :
    (h.setTail a y).node a = some ⟨.cons head y, rc⟩ := by
  simp only [Heap.node] at hnode
  simp only [Heap.node, Heap.setTail, List.getElem?_modify_eq, hnode]
  rfl

@[simp] theorem next_setTail (a : Nat) (y : Ref) : (h.setTail a y).next = h.next := by
  simp [Heap.next, Heap.setTail]

theorem setTail_alloc (y : Ref) (ha : a < h.next) :
    (h.alloc nd).setTail a y = (h.setTail a y).alloc nd := by
  simp only [Heap.setTail, Heap.alloc]
  congr 1
  apply List.ext_getElem?
  intro i
  by_cases hi : i < h.nodes.length
  · rw [List.getElem?_append_left (by rwa [List.length_modify]), List.getElem?_modify,
      List.getElem?_modify, List.getElem?_append_left hi]
  · have hai : a ≠ i := fun heq => hi (heq ▸ ha)
    rw [List.getElem?_modify_ne _ _ hai, List.getElem?_append_right (by omega),
      List.getElem?_append_right (by rw [List.length_modify]; omega), List.length_modify]

end

end Kaikai.DeepCopy
