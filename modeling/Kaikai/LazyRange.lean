import Kaikai.RuntimeHeap
import Mathlib.Data.Int.Order.Lemmas

namespace Kaikai.Runtime

open Kaikai.Word64 (Word InRange wrap)

/-- The generator of a list; `kai_range_step` traps on a step of zero. -/
structure Range where
  start : Word
  stop : Word
  step : Word
  step_ne : step.1 ≠ 0

namespace Range

def cell (r : Range) : Cell := .range r.start r.stop r.step

end Range

def rangeIsEmpty (start stop step : Word) : Bool :=
  if step.1 > 0 then start.1 > stop.1 else start.1 < stop.1

def rangeNext (i step : Word) : Word := .ofInt (i.1 + step.1)

/-- A word read without its sign. -/
def unsigned (n : Int) : Int := n % 2 ^ 64

/-- The element count of a range that is not empty. -/
def rangeLen (start stop step : Word) : Word :=
  let span := if step.1 > 0 then unsigned (stop.1 - start.1) else unsigned (start.1 - stop.1)
  let ustep := if step.1 > 0 then unsigned step.1 else unsigned (0 - unsigned step.1)
  .ofInt ((Word.ofInt (span / ustep)).1 + 1)

/-- The last element of a range that is not empty. -/
def rangeLast (start stop step : Word) : Word :=
  .ofInt (unsigned start.1 + unsigned step.1 * unsigned ((rangeLen start stop step).1 - 1))

/-- `kai_seq_norm`: a range becomes one cell and the range of the rest. -/
def seqNorm (h : Heap) (v : Ref) : Heap :=
  match v with
  | .ptr a =>
      match h.read a with
      | some (.range start stop step) =>
          if rangeIsEmpty start stop step then h.write a .nil
          else
            let rest := rangeNext start step
            let ended := if step.1 > 0 then rest.1 > stop.1 else rest.1 < stop.1
            let tail : Heap × Ref :=
              if ended then (h, .ptr 0) else (h.alloc (.range rest stop step), .ptr h.next)
            let head := kaiInt tail.1 start
            head.1.write a (.cons head.2 tail.2)
      | _ => h
  | _ => h

/-- A list unfolded cell by cell: the heads, and the heap that is left. -/
def unfoldCells : Nat → Heap → Ref → Option (Heap × List Ref)
  | 0, _, _ => none
  | fuel + 1, h, .ptr a =>
      let h := seqNorm h (.ptr a)
      match h.read a with
      | some (.cons head tail) =>
          (unfoldCells fuel h tail).map fun out => (out.1, head :: out.2)
      | some .nil => some (h, [])
      | _ => none
  | _, _, _ => none

structure SeqIt where
  node : Ref
  start : Word
  stop : Word
  step : Word
  inRange : Bool

def seqItInit (v : Ref) : SeqIt := ⟨v, .ofInt 0, .ofInt 0, .ofInt 0, false⟩

/-- The phase of a cursor that generates. -/
def seqItGenerate (h : Heap) (it : SeqIt) : Heap × Option Ref × SeqIt :=
  if rangeIsEmpty it.start it.stop it.step then (h, none, it)
  else
    let r := kaiInt h it.start
    (r.1, some r.2, { it with start := rangeNext it.start it.step })

/-- `kai_seq_it_next`: the next element, and the cursor behind it. -/
def seqItNext (h : Heap) (it : SeqIt) : Heap × Option Ref × SeqIt :=
  if it.inRange then seqItGenerate h it
  else
    match it.node with
    | .ptr a =>
        match h.read a with
        | some (.cons head tail) => (h, some head, { it with node := tail })
        | some (.range start stop step) => seqItGenerate h ⟨it.node, start, stop, step, true⟩
        | _ => (h, none, it)
    | _ => (h, none, it)

/-- The elements that a cursor yields. -/
def cursorWalk : Nat → Heap → SeqIt → Option (Heap × List Ref)
  | 0, _, _ => none
  | fuel + 1, h, it =>
      match seqItNext h it with
      | (h', none, _) => some (h', [])
      | (h', some x, it') => (cursorWalk fuel h' it').map fun out => (out.1, x :: out.2)

/-- The cells of a list ahead of a range, and the length of the range. -/
def listCount : Nat → Heap → Ref → Option Int
  | 0, _, _ => none
  | fuel + 1, h, .ptr a =>
      match h.read a with
      | some (.cons _ tail) => (listCount fuel h tail).map (· + 1)
      | some (.range start stop step) =>
          some (if rangeIsEmpty start stop step then 0 else (rangeLen start stop step).1)
      | _ => some 0
  | _, _, _ => some 0

/-- The pushes of a cursor's elements. -/
def pushAll : Nat → Heap → SeqIt → Vec → Option (Heap × Vec)
  | 0, _, _, _ => none
  | fuel + 1, h, it, v =>
      match seqItNext h it with
      | (h', none, _) => some (h', v)
      | (h', some x, it') => do
          let v' ← push h' v x
          pushAll fuel h' it' v'

def vecFromList (fuel : Nat) (h : Heap) (xs : Ref) : Option (Heap × Vec) := do
  let n ← listCount fuel h xs
  pushAll fuel h (seqItInit xs) ⟨n, .pending⟩

end Kaikai.Runtime
