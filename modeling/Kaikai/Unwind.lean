import Kaikai.EvidenceRuns

namespace Kaikai.Unwind

open Kaikai.Str
open Evidence Evidence.Ev

/-- `KaiUnwEntry`: the slots a frame owns, a handle that is draining its resume frames, or the lazy
cell or constant being evaluated. -/
inductive Entry where
  | slots (base : List (Option ℕ))
  | handle (n : Ev)
  | cell (value : ℕ)

structure ResumeFrame where
  node : Ev
  clo : ℕ

/-- `kai_resume_frame_take`; the innermost frame is the first. -/
def frameTake (n : Ev) : List ResumeFrame → Option (ℕ × List ResumeFrame)
  | [] => none
  | r :: rest =>
      if r.node = n then some (r.clo, rest)
      else (frameTake n rest).map fun taken => (taken.1, r :: taken.2)

def framesPending (n : Ev) (rframes : List ResumeFrame) : Bool :=
  rframes.any fun r => r.node = n

theorem length_of_frameTake {n : Ev} {rframes rest : List ResumeFrame} {clo : ℕ}
    (h : frameTake n rframes = some (clo, rest)) : rest.length < rframes.length := by
  induction rframes generalizing rest with
  | nil => cases h
  | cons r rframes ih =>
      rw [frameTake] at h
      split at h
      · injection h with h
        injection h with _ h
        rw [← h]
        exact Nat.lt_succ_self _
      · rw [Option.map_eq_some_iff] at h
        obtain ⟨⟨c, rs⟩, htake, heq⟩ := h
        injection heq with hclo hrest
        subst hclo
        rw [← hrest]
        exact Nat.succ_lt_succ (ih htake)

def framesDrop (n : Ev) (rframes : List ResumeFrame) : List ResumeFrame :=
  match _ : frameTake n rframes with
  | none => rframes
  | some (_, rest) => framesDrop n rest
termination_by rframes.length
decreasing_by exact length_of_frameTake ‹_›

/-- What the release of an entry does to the resume frames. -/
def entryRelease (rframes : List ResumeFrame) : Entry → List ResumeFrame
  | .slots _ => rframes
  | .handle n => framesDrop n rframes
  | .cell _ => rframes

/-- `kai_unw_release_to`; the top of the unwind stack is the first. -/
def releaseTo (mark : ℕ) : List Entry → List ResumeFrame → List Entry × List ResumeFrame
  | [], rframes => ([], rframes)
  | e :: unw, rframes =>
      if mark < unw.length + 1 then releaseTo mark unw (entryRelease rframes e)
      else (e :: unw, rframes)

/-- An exit, with the fiber it began in, the `finally` blocks it ran, the last one first, and the
entries it released. `visited` says that the `finally` of the node it stands at has run. -/
structure Exit where
  top : Ev
  unw : List Entry
  rframes : List ResumeFrame
  next : ℕ
  ran : List Ev
  released : List Entry
  visited : Bool

/-- `kai_resume_frames_run`: the value so far and the closure under application, next to the frames
that were pending, the first value, and what each frame took and gave, the last one first. -/
structure Drain where
  value : ℕ
  applying : Option ℕ
  given : List ℕ
  start : ℕ
  fed : List (ℕ × ℕ × ℕ)

/-- What the running code returns to, with the unwind stack it found. -/
inductive Task where
  | body (n : Ev) (start : List Entry)
  | clause (start : List Entry)
  | cleanup (n : Ev) (start : List Entry)
  /-- A handle whose `finally` has run, before its pop. -/
  | closed (n : Ev) (start : List Entry)
  | exit (x : Exit)
  /-- A handle past its pop, in its return clause. -/
  | tail (n : Ev) (start : List Entry)
  | drain (n : Ev) (d : Drain) (start : List Entry)

/-- A push: the node, and the evidence and the unwind stack just before it. -/
structure Birth where
  node : Ev
  ctx : Context
  unw : List Entry

/-- A fiber; `marks` is the `unw_mark` of the node at an address. -/
structure Fiber where
  ev : State
  unw : List Entry
  rframes : List ResumeFrame
  marks : ℕ → ℕ
  tasks : List Task
  born : List Birth

def Fiber.init : Fiber :=
  { ev := State.init, unw := [], rframes := [], marks := fun _ => 0, tasks := [], born := [] }

/-- Code runs on top of a task. -/
def Task.runs : Task → Bool
  | .closed _ _ => false
  | .exit _ => false
  | .drain _ d _ => d.applying.isSome
  | _ => true

def Fiber.Running (s : Fiber) : Prop :=
  s.ev.Running ∧ ∀ t ∈ s.tasks.head?, t.runs = true

instance (s : Fiber) : Decidable s.Running := by
  unfold Fiber.Running
  infer_instance

/-- The height under which the running code pops nothing. -/
def Task.floor : Task → ℕ
  | .body _ start => start.length
  | .clause start => start.length
  | .cleanup _ start => start.length
  | .closed _ start => start.length
  | .exit _ => 0
  | .tail _ start => start.length
  | .drain _ _ start => start.length + 2

def Fiber.floor (s : Fiber) : ℕ :=
  match s.tasks with
  | [] => 0
  | t :: _ => t.floor

/-- The entry is one that compiled code registers. -/
def Entry.registers : Entry → Bool
  | .handle _ => false
  | _ => true

inductive Act where
  | register (e : Entry)
  | unregister
  | defer (clo : ℕ)
  | drain (v : ℕ)
  | apply
  | applied (v : ℕ)
  | ev (a : Evidence.Act)

/-- Where the jump to a handle lands. -/
def taskOf (target : Ev) : List Task → List Task
  | [] => []
  | .body n start :: ts => if n = target then .tail n start :: ts else taskOf target ts
  | _ :: ts => taskOf target ts

/-- One round of the loop of an exit, next to the one of the evidence. -/
def Fiber.unwind (s : Fiber) (ev : State) (target cur : Ev) (x : Exit) (ts : List Task) : Fiber :=
  if cur = null ∨ cur = target.parent then
    if target = null then
      { s with
        ev := ev
        unw := (releaseTo 0 s.unw s.rframes).1
        rframes := (releaseTo 0 s.unw s.rframes).2
        tasks := [] }
    else { s with ev := ev, tasks := taskOf target ts }
  else
    let (unw, rframes) := releaseTo (s.marks cur.address) s.unw s.rframes
    let released := x.released ++ s.unw.take (s.unw.length - unw.length)
    if s.ev.pending cur then
      { s with
        ev := ev
        unw := unw
        rframes := rframes
        tasks :=
          .cleanup cur unw ::
            .exit { x with released := released, ran := cur :: x.ran, visited := true } :: ts }
    else
      { s with
        ev := ev
        unw := unw
        rframes := if cur = target then rframes else framesDrop cur rframes
        tasks := .exit { x with released := released, visited := false } :: ts }

/-- A step of the evidence, and what it does to the rest of the fiber. -/
def Fiber.stepEv (s : Fiber) (ev : State) : Evidence.Act → Option Fiber
  | .push _ _ =>
      if s.Running then
        some
          { s with
            ev := ev
            marks := Function.update s.marks s.ev.next s.unw.length
            tasks := .body ev.ctx.top s.unw :: s.tasks
            born := { node := ev.ctx.top, ctx := s.ev.ctx, unw := s.unw } :: s.born }
      else none
  | .runCleanup =>
      match s.tasks with
      | .body n start :: ts =>
          if s.unw.length = start.length then
            some { s with ev := ev, tasks := .cleanup n start :: .body n start :: ts }
          else none
      | _ => none
  | .pop =>
      match s.tasks with
      | .body n start :: ts =>
          if s.unw.length = start.length ∧ n.cleanup = false then
            some { s with ev := ev, tasks := .tail n start :: ts }
          else none
      | .closed n start :: ts => some { s with ev := ev, tasks := .tail n start :: ts }
      | _ => none
  | .enter _ =>
      if s.Running then some { s with ev := ev, tasks := .clause s.unw :: s.tasks } else none
  | .enterDefault _ _ =>
      if s.Running then some { s with ev := ev, tasks := .clause s.unw :: s.tasks } else none
  | .leave =>
      match s.tasks with
      | .clause start :: ts =>
          if s.unw.length = start.length then some { s with ev := ev, tasks := ts } else none
      | _ => none
  | .finish =>
      match s.tasks with
      | .cleanup _ start :: .body n start' :: ts =>
          if s.unw.length = start.length then
            some { s with ev := ev, tasks := .closed n start' :: ts }
          else none
      | .cleanup _ start :: .exit x :: ts =>
          if s.unw.length = start.length then some { s with ev := ev, tasks := .exit x :: ts }
          else none
      | _ => none
  | .exit _ =>
      if s.Running then
        some
          { s with
            ev := ev
            tasks :=
              .exit
                { top := s.ev.ctx.top, unw := s.unw, rframes := s.rframes, next := s.ev.next
                  ran := [], released := [], visited := false } :: s.tasks }
      else none
  | .unwind =>
      match s.tasks, s.ev.frames with
      | .exit x :: ts, .unwind target cur :: _ => some (s.unwind ev target cur x ts)
      | _, _ => none

def step (s : Fiber) : Act → Option Fiber
  | .register e =>
      if s.Running ∧ e.registers = true then some { s with unw := e :: s.unw } else none
  | .unregister =>
      if s.Running ∧ s.floor < s.unw.length then some { s with unw := s.unw.tail } else none
  | .defer clo =>
      if s.Running ∧ s.ev.ctx.top.onChain s.ev.ctx.disp then
        some { s with rframes := { node := s.ev.ctx.disp, clo } :: s.rframes }
      else none
  | .drain v =>
      match s.tasks with
      | .tail n start :: ts =>
          if s.Running ∧ s.unw.length = start.length then
            if framesPending n s.rframes then
              let given := (s.rframes.filter fun r => r.node = n).map ResumeFrame.clo
              let d : Drain := { value := v, applying := none, given, start := v, fed := [] }
              some { s with unw := .handle n :: s.unw, tasks := .drain n d start :: ts }
            else some { s with tasks := ts }
          else none
      | _ => none
  | .apply =>
      match s.tasks with
      | .drain n d start :: ts =>
          if d.applying = none then
            match frameTake n s.rframes with
            | none => some { s with unw := s.unw.tail, tasks := ts }
            | some (clo, rframes) =>
                some
                  { s with
                    unw := .slots [some clo] :: s.unw
                    rframes := rframes
                    tasks := .drain n { d with applying := some clo } start :: ts }
          else none
      | _ => none
  | .applied v =>
      match s.tasks with
      | .drain n d start :: ts =>
          match d.applying with
          | none => none
          | some clo =>
              if s.Running ∧ s.unw.length = start.length + 2 then
                let fed := (clo, d.value, v) :: d.fed
                some
                  { s with
                    unw := s.unw.tail
                    tasks := .drain n { d with value := v, applying := none, fed } start :: ts }
              else none
      | _ => none
  | .ev a => (Evidence.step s.ev a).bind fun ev => s.stepEv ev a

end Kaikai.Unwind
