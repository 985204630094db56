import Kaikai.Str
import Kaikai.Word64

namespace Kaikai.Runtime

open Kaikai.Word64 (Word)

/-- A `KaiValue *`: null, a tagged integer, or the address of a cell. -/
inductive Ref where
  | null
  | imm (n : Word)
  | ptr (a : Nat)
deriving DecidableEq

/-- The tags of values that a vec stores without a box. -/
inductive Scalar where
  | int | real | bool | char | byte
deriving DecidableEq

/-- The integers of a fixed width. -/
inductive Fixed where
  | int32 | uint32 | uint64 | int128
deriving DecidableEq

/-- The columns of a vec of inline records. -/
structure RecMeta where
  headTag : Nat
  names : List (List UInt8)
  fieldTags : List Scalar
deriving DecidableEq

/-- How a vec stores its elements; the first one decides. -/
inductive VecData where
  | pending
  | boxed (xs : List Ref)
  | raw (tag : Scalar) (bits : List Word)
  | inlined (shape : RecMeta) (rows : List (List Word))

structure Vec where
  cap : Int
  data : VecData

/-- The payload word of a variant; its tag's mask says how it is read. -/
inductive VarSlot where
  | ptr (v : Ref)
  | i64 (n : Word)

inductive Cell where
  | unit
  | bool (b : Bool)
  | int (i : Word)
  | real (bits : Word)
  | char (c : Nat)
  | str (bytes : List UInt8)
  | byte (b : UInt8)
  | fixed (kind : Fixed) (n : Int)
  | nil
  | cons (head tail : Ref)
  | record (headTag : Nat) (fields : List (List UInt8 × Ref))
  | variant (tag : Nat) (slots : List VarSlot)
  | vec (v : Vec)
  | view (owner : Nat) (start len : Nat)
  | range (start stop step : Word)

/-- Cells by address; the first is the shared empty list. -/
structure Heap where
  cells : List Cell
  nil_first : cells[0]? = some .nil

namespace Heap

def read (h : Heap) (a : Nat) : Option Cell := h.cells[a]?

/-- The address that the next allocation gives. -/
def next (h : Heap) : Nat := h.cells.length

theorem next_pos (h : Heap) : 0 < h.next := by
  by_contra hzero
  have hempty : h.cells = [] := List.length_eq_zero_iff.1 (by simpa [next] using hzero)
  have hnil := h.nil_first
  rw [hempty] at hnil
  cases hnil

def alloc (h : Heap) (c : Cell) : Heap where
  cells := h.cells ++ [c]
  nil_first := by
    rw [List.getElem?_append_left h.next_pos]
    exact h.nil_first

/-- A cell is rewritten in place; nothing writes to the shared empty list. -/
def write (h : Heap) (a : Nat) (c : Cell) : Heap where
  cells := if a = 0 then h.cells else h.cells.set a c
  nil_first := by
    by_cases ha : a = 0
    · rw [if_pos ha]
      exact h.nil_first
    · rw [if_neg ha, List.getElem?_set_ne ha]
      exact h.nil_first

variable {h : Heap} {a : Nat} {c : Cell}

theorem read_lt (hread : h.read a = some c) : a < h.next :=
  (List.getElem?_eq_some_iff.1 hread).1

@[simp] theorem next_alloc : (h.alloc c).next = h.next + 1 := by simp [next, alloc]

@[simp] theorem next_write : (h.write a c).next = h.next := by
  simp only [next, write]
  split <;> simp

@[simp] theorem read_alloc : (h.alloc c).read h.next = some c := by simp [read, alloc, next]

theorem read_alloc_of_lt (ha : a < h.next) : (h.alloc c).read a = h.read a :=
  List.getElem?_append_left ha

theorem read_write (ha : a ≠ 0) (hlt : a < h.next) : (h.write a c).read a = some c := by
  simp only [read, write, if_neg ha]
  exact List.getElem?_set_self hlt

theorem read_write_of_ne {b : Nat} (hb : b ≠ a) : (h.write a c).read b = h.read b := by
  simp only [read, write]
  split
  · rfl
  · exact List.getElem?_set_ne (Ne.symm hb)

end Heap

/-- The integers that a tagged word holds. -/
def fitsImmediate (n : Word) : Prop := -2 ^ 62 ≤ n.1 ∧ n.1 < 2 ^ 62

instance (n : Word) : Decidable (fitsImmediate n) := by
  unfold fitsImmediate
  infer_instance

/-- `kai_int`: an immediate where it fits, else a box. -/
def kaiInt (h : Heap) (n : Word) : Heap × Ref :=
  if fitsImmediate n then (h, .imm n) else (h.alloc (.int n), .ptr h.next)

/-- `kai_intf`: the number of an integer, immediate or boxed. -/
def intf (h : Heap) : Ref → Option Word
  | .null => none
  | .imm n => some n
  | .ptr a =>
      match h.read a with
      | some (.int n) => some n
      | _ => none

theorem intf_kaiInt (h : Heap) (n : Word) : intf (kaiInt h n).1 (kaiInt h n).2 = some n := by
  unfold kaiInt
  split
  · rfl
  · simp [intf]

theorem read_kaiInt {h : Heap} {a : Nat} (n : Word) (ha : a < h.next) :
    (kaiInt h n).1.read a = h.read a := by
  unfold kaiInt
  split
  · rfl
  · exact Heap.read_alloc_of_lt ha

theorem next_le_kaiInt (h : Heap) (n : Word) : h.next ≤ (kaiInt h n).1.next := by
  unfold kaiInt
  split
  · exact Nat.le_refl _
  · simp

/-- The tag of a value that lives unboxed in a vec. -/
def scalarTag (h : Heap) : Ref → Option Scalar
  | .null => none
  | .imm _ => some .int
  | .ptr a =>
      match h.read a with
      | some (.int _) => some .int
      | some (.real _) => some .real
      | some (.bool _) => some .bool
      | some (.char _) => some .char
      | some (.byte _) => some .byte
      | _ => none

/-- The payload of a value with a scalar tag. -/
def scalarBits (h : Heap) : Ref → Word
  | .null => .ofInt 0
  | .imm n => n
  | .ptr a =>
      match h.read a with
      | some (.int n) => n
      | some (.real bits) => bits
      | some (.bool b) => .ofInt b.toNat
      | some (.char c) => .ofInt c
      | some (.byte b) => .ofInt b.toNat
      | _ => .ofInt 0

def recMax : Nat := 8

/-- `kai_vec_classify`: the storage that the first element asks for. -/
def classify (h : Heap) (x : Ref) : VecData :=
  match scalarTag h x with
  | some tag => .raw tag []
  | none =>
      match x with
      | .ptr a =>
          match h.read a with
          | some (.record headTag fields) =>
              if 0 < fields.length ∧ fields.length ≤ recMax then
                match fields.mapM fun f => scalarTag h f.2 with
                | some tags => .inlined ⟨headTag, fields.map Prod.fst, tags⟩ []
                | none => .boxed []
              else .boxed []
          | _ => .boxed []
      | _ => .boxed []

/-- The payloads of a record, resolved by name into the columns of a vec. -/
def columns (h : Heap) (shape : RecMeta) (fields : List (List UInt8 × Ref)) :
    Option (List Word) :=
  if fields.length = shape.names.length then
    (shape.names.zip shape.fieldTags).mapM fun c => do
      let f ← fields.find? fun f => f.1 = c.1
      if scalarTag h f.2 = some c.2 then some (scalarBits h f.2) else none
  else none

/-- `kai_vec_write_elem` behind the last element; `none` is a trap on the shape. -/
def writeElem (h : Heap) (x : Ref) : VecData → Option VecData
  | .pending => none
  | .boxed xs => some (.boxed (xs ++ [x]))
  | .raw tag bits =>
      if scalarTag h x = some tag then some (.raw tag (bits ++ [scalarBits h x])) else none
  | .inlined shape rows =>
      match x with
      | .ptr a =>
          match h.read a with
          | some (.record _ fields) =>
              (columns h shape fields).map fun row => .inlined shape (rows ++ [row])
          | _ => none
      | _ => none

def VecData.length : VecData → Nat
  | .pending => 0
  | .boxed xs => xs.length
  | .raw _ bits => bits.length
  | .inlined _ rows => rows.length

/-- `kai_vec_push_impl` on a vec without another owner. -/
def push (h : Heap) (v : Vec) (x : Ref) : Option Vec :=
  match v.data with
  | .pending => (writeElem h x (classify h x)).map fun data => ⟨max v.cap 4, data⟩
  | data =>
      let cap := if data.length = v.cap then max (v.cap * 2) 4 else v.cap
      (writeElem h x data).map fun data => ⟨cap, data⟩

end Kaikai.Runtime
