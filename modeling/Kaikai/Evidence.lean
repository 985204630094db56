import Kaikai.Str
import Mathlib.Algebra.Group.Nat.Defs
import Mathlib.Logic.Function.Basic

/-!
The evidence of a fiber that is on no segment: the chain of handler nodes, the per-effect chains of
the fiber-local builtins, the dispatch mask, and the two searches for a handler.
-/

namespace Kaikai.Evidence

open Kaikai.Str

/-- An interned label, `Eff` or `Eff[args]`; the arguments carry their brackets. -/
structure Label where
  base : Str
  args : Str
deriving DecidableEq

def flNames : List Str :=
  [ascii "Cancel", ascii "Link", ascii "Monitor", ascii "Spawn", ascii "Actor"]

/-- `kai_eff_fl`: the slot of a fiber-local builtin. -/
def effFl (label : Label) : Option ℕ :=
  flNames.findIdx? (· = label.base)

def effMatch (a b : Label) : Bool :=
  a = b || (a.base = b.base && (a.args = [] || b.args = []))

/-- What a push writes into a node, its links apart. The address of the node is `id`. -/
structure Header where
  id : ℕ
  label : Label
  fl : Option ℕ
  dispHops : ℕ
  depth : ℕ
  cleanup : Bool
deriving DecidableEq

/-- A pointer to a node, with the nodes it links to; a push is the last write to a node. -/
inductive Ev where
  | null
  | node (header : Header) (parent flPrev : Ev)
deriving DecidableEq

namespace Ev

def parent : Ev → Ev
  | null => null
  | node _ p _ => p

def depth : Ev → ℕ
  | null => 0
  | node h _ _ => h.depth

def fl : Ev → Option ℕ
  | null => none
  | node h _ _ => h.fl

def address : Ev → ℕ
  | null => 0
  | node h _ _ => h.id

def cleanup : Ev → Bool
  | null => false
  | node h _ _ => h.cleanup

/-- The node handles an effect. -/
def handles (label : Label) : Ev → Bool
  | null => false
  | node h _ _ => effMatch h.label label

/-- `kai_ev_on_chain`, down to the end of the chain. -/
def onChain : Ev → Ev → Bool
  | null, _ => false
  | node h p f, n => node h p f = n || p.onChain n

/-- The node so many links up. -/
def hopUp : ℕ → Ev → Ev
  | 0, n => n
  | k + 1, n => hopUp k n.parent

def dispAtPush : Ev → Ev
  | null => null
  | node h p _ => if h.dispHops = 0 then null else hopUp (h.dispHops - 1) p

theorem sizeOf_parent_le (n : Ev) : sizeOf n.parent ≤ sizeOf n := by
  cases n with
  | null => exact Nat.le_refl _
  | node h p f =>
      simp only [parent, node.sizeOf_spec]
      omega

theorem sizeOf_hopUp_le (k : ℕ) (n : Ev) : sizeOf (hopUp k n) ≤ sizeOf n := by
  induction k generalizing n with
  | zero => exact Nat.le_refl _
  | succ k ih => exact Nat.le_trans (ih n.parent) (sizeOf_parent_le n)

theorem sizeOf_pos (n : Ev) : 0 < sizeOf n := by
  cases n with
  | null => exact Nat.zero_lt_one
  | node h p f =>
      rw [node.sizeOf_spec]
      omega

theorem sizeOf_dispAtPush_lt (h : Header) (p f : Ev) :
    sizeOf (dispAtPush (node h p f)) < sizeOf (node h p f) := by
  rw [dispAtPush, node.sizeOf_spec]
  split
  · have hpos := sizeOf_pos p
    rw [null.sizeOf_spec]
    omega
  · have hle := sizeOf_hopUp_le (h.dispHops - 1) p
    omega

/-- `while (cur != NULL && cur->depth > depth) cur = kai_disp_at_push(cur);` -/
def descend (depth : ℕ) : Ev → Ev
  | null => null
  | node h p f =>
      if depth < h.depth then descend depth (dispAtPush (node h p f)) else node h p f
termination_by n => sizeOf n
decreasing_by exact sizeOf_dispAtPush_lt h p f

/-- The loop of `kai_ev_find`, from a node and the mask it has there. -/
def findFrom (label : Label) : Ev → Ev → Ev
  | null, _ => null
  | node h p f, cur =>
      if node h p f = cur then
        let up := dispAtPush (node h p f)
        findFrom label p (if up ≠ null ∧ p.onChain up = false then null else up)
      else if cur ≠ null ∧ dispAtPush (node h p f) ≠ cur then findFrom label p cur
      else if effMatch h.label label then node h p f
      else findFrom label p cur

/-- The loop of `kai_ev_find_fiber`, along a chain of same-effect nodes. -/
def findFl (label : Label) : Ev → Ev → Ev
  | null, _ => null
  | node h p f, cur =>
      let cur := descend h.depth cur
      if cur ≠ null ∧ (node h p f = cur ∨ dispAtPush (node h p f) ≠ cur) then findFl label f cur
      else if effMatch h.label label then node h p f
      else findFl label f cur

end Ev

open Ev

/-- `f->evidence_top`, `f->fl_top` and `f->in_dispatch_node`. -/
structure Context where
  top : Ev
  flTop : ℕ → Ev
  disp : Ev

/-- `kai_ev_find` from the top of the chain. -/
def evFind (top : Ev) (label : Label) (skip : Ev) : Ev :=
  findFrom label top (if skip ≠ null ∧ top.onChain skip then skip else null)

def evFindFiber (c : Context) (label : Label) : Ev :=
  match effFl label with
  | none => evFind c.top label c.disp
  | some i => findFl label (c.flTop i) c.disp

/-- The loop of `kai_disp_hops`: an 8-bit count. -/
def hopsFrom (disp : Ev) : Ev → ℕ → ℕ
  | null, _ => 0
  | node h p f, hops =>
      if node h p f = disp then (if hops < 255 then hops else 0) else hopsFrom disp p (hops + 1)

def dispHops (c : Context) : ℕ :=
  if c.disp = null then 0 else hopsFrom c.disp c.top 1

/-- The `depth` of a node pushed on a chain. -/
def depthOn : Ev → ℕ
  | null => 1
  | node h _ _ => (h.depth + 1) % 2 ^ 32

/-- The node `kai_evidence_push_l` fills. -/
def pushed (c : Context) (id : ℕ) (label : Label) (cleanup : Bool) : Ev :=
  node
    { id, label, cleanup, fl := effFl label, dispHops := dispHops c, depth := depthOn c.top }
    c.top
    (match effFl label with
      | none => null
      | some i => c.flTop i)

def flPop (flTop : ℕ → Ev) : Ev → ℕ → Ev
  | null => flTop
  | node h _ f =>
      match h.fl with
      | none => flTop
      | some i => Function.update flTop i f

/-- `kai_evidence_push_l` and `kai_fl_push`. -/
def Context.push (c : Context) (n : Ev) : Context :=
  { c with
    top := n
    flTop :=
      match n.fl with
      | none => c.flTop
      | some i => Function.update c.flTop i n }

/-- `kai_evidence_pop`; below it a handler's `finally` runs. -/
def Context.pop (c : Context) (n : Ev) : Context :=
  { c with top := n.parent, flTop := flPop c.flTop n }

/-- The end of `kai_evidence_run_cleanup`. -/
def Context.restore (c : Context) (n saved savedFl : Ev) : Context :=
  { c with
    top := saved
    flTop :=
      match n.fl with
      | none => c.flTop
      | some i => Function.update c.flTop i savedFl }

/-- The node of a default handler, as `kai_evidence_init_default_l` fills it in storage that
starts as zeros. -/
def defaultNode (id : ℕ) (label : Label) : Ev :=
  node { id, label, fl := none, dispHops := 0, depth := 0, cleanup := false } null null

/-- What the running code returns to. -/
inductive Frame where
  /-- The body of a `handle`. -/
  | handle (n : Ev)
  /-- A clause, with the mask it restores. -/
  | clause (prev : Ev) (scope : List Ev)
  /-- A `finally`, with what `kai_evidence_run_cleanup` restores. -/
  | cleanup (n saved savedFl : Ev) (scope : List Ev)
  /-- `kai_evidence_unwind_to` a node, or `kai_evidence_unwind_all` where it is `null`. -/
  | unwind (target cur : Ev)
  /-- The pad of a fiber that ended. -/
  | ended

/-- A fiber: its evidence, its frames, the nodes whose `finally` ran, and next to what it computes
the handlers in scope of the running code and of the code outside each handler. -/
structure State where
  ctx : Context
  frames : List Frame
  next : ℕ
  done : List ℕ
  scope : List Ev
  outer : ℕ → List Ev

def State.init : State :=
  { ctx := { top := null, flTop := fun _ => null, disp := null }
    frames := []
    next := 0
    done := []
    scope := []
    outer := fun _ => [] }

/-- Some code of the fiber is running. -/
def State.Running (s : State) : Prop :=
  match s.frames with
  | .unwind _ _ :: _ => False
  | .ended :: _ => False
  | _ => True

instance (s : State) : Decidable s.Running := by
  unfold State.Running
  split <;> infer_instance

inductive Act where
  | push (label : Label) (cleanup : Bool)
  | runCleanup
  | pop
  | enter (n : Ev)
  | enterDefault (id : ℕ) (label : Label)
  | leave
  | finish
  | exit (target : Ev)
  | unwind

/-- A `finally` is to run. -/
def State.pending (s : State) (n : Ev) : Bool :=
  n.cleanup && decide (n.address ∉ s.done)

/-- `kai_evidence_run_cleanup` up to the call. -/
def State.startCleanup (s : State) (n : Ev) : State :=
  { s with
    ctx := s.ctx.pop n
    frames := .cleanup n s.ctx.top ((n.fl.map s.ctx.flTop).getD null) s.scope :: s.frames
    done := n.address :: s.done
    scope := s.outer n.address }

/-- The frames outside the body of a `handle`. -/
def frameOf (target : Ev) : List Frame → List Frame
  | [] => []
  | .handle n :: fs => if n = target then fs else frameOf target fs
  | _ :: fs => frameOf target fs

/-- Where an unwind lands. -/
def State.land (s : State) (target : Ev) (fs : List Frame) : State :=
  if target = null then
    { s with ctx := { s.ctx with top := null }, frames := [.ended], scope := [] }
  else
    { s with
      ctx := { s.ctx with top := target.parent, disp := dispAtPush target }
      frames := frameOf target fs
      scope := s.outer target.address }

/-- One round of the loop of an unwind. -/
def State.unwind (s : State) (target cur : Ev) (fs : List Frame) : State :=
  if cur = null ∨ cur = target.parent then s.land target fs
  else if s.pending cur then s.startCleanup cur
  else
    { s with
      ctx := { s.ctx with flTop := flPop s.ctx.flTop cur }
      frames := .unwind target cur.parent :: fs }

def step (s : State) : Act → Option State
  | .push label cleanup =>
      if s.Running then
        let n := pushed s.ctx s.next label cleanup
        some
          { s with
            ctx := s.ctx.push n
            frames := .handle n :: s.frames
            next := s.next + 1
            scope := n :: s.scope
            outer := Function.update s.outer s.next s.scope }
      else none
  | .runCleanup =>
      match s.frames with
      | .handle n :: _ => if s.pending n then some (s.startCleanup n) else none
      | _ => none
  | .pop =>
      match s.frames with
      | .handle n :: fs =>
          some { s with ctx := s.ctx.pop n, frames := fs, scope := s.outer n.address }
      | _ => none
  | .enter n =>
      if s.Running ∧ s.ctx.top.onChain n then
        some
          { s with
            ctx := { s.ctx with disp := n }
            frames := .clause s.ctx.disp s.scope :: s.frames
            scope := s.outer n.address }
      else none
  | .enterDefault id label =>
      if s.Running then
        some
          { s with
            ctx := { s.ctx with disp := defaultNode id label }
            frames := .clause s.ctx.disp s.scope :: s.frames
            scope := [] }
      else none
  | .leave =>
      match s.frames with
      | .clause prev scope :: fs =>
          some { s with ctx := { s.ctx with disp := prev }, frames := fs, scope := scope }
      | _ => none
  | .finish =>
      match s.frames with
      | .cleanup n saved savedFl scope :: fs =>
          some { s with ctx := s.ctx.restore n saved savedFl, frames := fs, scope := scope }
      | _ => none
  | .exit target =>
      if s.Running ∧ (target = null ∨ s.ctx.top.onChain target) then
        some { s with frames := .unwind target s.ctx.top :: s.frames }
      else none
  | .unwind =>
      match s.frames with
      | .unwind target cur :: fs => some (s.unwind target cur fs)
      | _ => none

end Kaikai.Evidence
