import Mathlib.Data.List.Basic

namespace Kaikai.Sched

/-- `KaiFiberState`; a fiber is `unborn` until its spawn. -/
inductive FiberState where
  | unborn | ready | running | parked | done | cancelled
deriving DecidableEq

def FiberState.live : FiberState → Bool
  | ready | running | parked => true
  | unborn | done | cancelled => false

def FiberState.terminal : FiberState → Bool
  | done | cancelled => true
  | unborn | ready | running | parked => false

inductive ParkReason where
  | none | timer | pid | socketRead | socketWrite | stdin | signal | filepool | slot
deriving DecidableEq

/-- `KaiFiber`, in a runtime of `n + 1` workers. `cancelDue` is the answer of `kai_cancel_due`.
Nothing reads the last five fields: whether the fiber has announced a park since it last
resumed, whether an unpark has come since, the worker on which its outermost pin was taken,
and the permits it was granted and those its commits consumed. -/
structure Fiber (n : ℕ) where
  state : FiberState
  homeThread : Fin (n + 1) := 0
  pinnedMain : Bool := false
  segPin : ℕ := 0
  pendingPark : ParkReason := .none
  wakePending : ℕ := 0
  cancelDue : Bool := false
  announced : Bool := false
  woken : Bool := false
  pinnedAt : Fin (n + 1) := 0
  granted : ℕ := 0
  consumed : ℕ := 0
deriving DecidableEq

/-- `KaiWorker` with the deque of its slot. `active` is `none` on the worker's root fiber, and
`next` is the fiber a worker has taken and not yet switched to. -/
structure Worker (F : Type) where
  steal : List F := []
  active : Option F := none
  next : Option F := none
  commitStack : List F := []
  requeueStack : List F := []

structure State (n : ℕ) (F : Type) where
  fib : F → Fiber n
  wkr : Fin (n + 1) → Worker F

def Fiber.pinnedTo {n : ℕ} (r : Fiber n) : Option (Fin (n + 1)) :=
  if r.pinnedMain then some 0
  else if r.segPin = 0 then none
  else some r.homeThread

namespace State

variable {n : ℕ} {F : Type} [DecidableEq F]

def setFib (s : State n F) (f : F) (r : Fiber n) : State n F :=
  { s with fib := Function.update s.fib f r }

def setWkr (s : State n F) (w : Fin (n + 1)) (k : Worker F) : State n F :=
  { s with wkr := Function.update s.wkr w k }

/-- The fiber goes to the tail of a slot's deque. -/
def push (s : State n F) (w : Fin (n + 1)) (f : F) : State n F :=
  s.setWkr w { s.wkr w with steal := (s.wkr w).steal ++ [f] }

/-- `kai_sched_enqueue`, called on thread `w`. -/
def enqueue (s : State n F) (w : Fin (n + 1)) (f : F) : State n F :=
  let owner := (s.fib f).pinnedTo.getD w
  (s.setFib f { s.fib f with homeThread := owner }).push owner f

def remoteUnpark (s : State n F) (f : F) : State n F :=
  let r := { s.fib f with woken := (s.fib f).woken || (s.fib f).announced }
  match r.state with
  | .parked => (s.setFib f { r with state := .ready }).push r.homeThread f
  | .ready | .running =>
      s.setFib f { r with wakePending := r.wakePending + 1, granted := r.granted + 1 }
  | .unborn | .done | .cancelled => s

def unpark (s : State n F) (f : F) : State n F :=
  if 0 < n then s.remoteUnpark f
  else
    let r := { s.fib f with woken := (s.fib f).woken || (s.fib f).announced }
    if r.state = .parked then (s.setFib f { r with state := .ready }).enqueue 0 f
    else s.setFib f r

/-- `kai_sched_commit_park`; the reactor lists a parked fiber joins are not modelled. -/
def commitPark (s : State n F) (f : F) : State n F :=
  let r := { s.fib f with pendingPark := .none }
  let ready := { r with
    state := .ready
    wakePending := r.wakePending - 1
    consumed := r.consumed + min 1 r.wakePending }
  if (s.fib f).pendingPark = .slot then
    if 0 < r.wakePending then (s.setFib f ready).push r.homeThread f
    else s.setFib f { r with state := .parked }
  else if 0 < r.wakePending ∨ r.cancelDue then (s.setFib f ready).push r.homeThread f
  else s.setFib f { r with state := .parked }

/-- The worker is on its root fiber with nothing in hand: it drains its stacks only there. -/
def AtRoot (s : State n F) (w : Fin (n + 1)) : Prop :=
  (s.wkr w).active = none ∧ (s.wkr w).next = none

/-- The worker is on its root or in the tail of the trampoline of a fiber that has finished. -/
def Between (s : State n F) (w : Fin (n + 1)) : Prop :=
  ∀ g ∈ (s.wkr w).active, (s.fib g).state.terminal

/-- The worker has drained its stacks and looks for the fiber to switch to. -/
def Seeks (s : State n F) (w : Fin (n + 1)) : Prop :=
  s.Between w ∧ (s.wkr w).next = none ∧
    (s.wkr w).commitStack = [] ∧ (s.wkr w).requeueStack = []

/-- The fiber runs on the worker. -/
def Runs (s : State n F) (w : Fin (n + 1)) (f : F) : Prop :=
  (s.wkr w).active = some f ∧ (s.fib f).state = .running

/-- One thread: the fiber that enters `main` is running. More: it is queued for thread 0. -/
def boot (n : ℕ) (main : F) : State n F :=
  if 0 < n then
    { fib := Function.update (fun _ => { state := .unborn }) main
        { state := .ready, pinnedMain := true }
      wkr := Function.update (fun _ => {}) 0 { steal := [main] } }
  else
    { fib := Function.update (fun _ => { state := .unborn }) main { state := .running }
      wkr := Function.update (fun _ => {}) 0 { active := some main } }

end State

open State

/-- The lock sections of the scheduler, with what their thread does alone before the next one.
Any thread may unpark any fiber that exists, and any may spawn. Only one thread: a fiber links
itself as a waiter and parks without a step of anyone else in between. -/
inductive Step {n : ℕ} {F : Type} [DecidableEq F] : State n F → State n F → Prop
  | spawn {s w f} : (s.fib f).state = .unborn →
      Step s ((s.setFib f { state := .ready }).enqueue w f)
  | announce {s w f} : 0 < n → s.Runs w f →
      Step s (s.setFib f { s.fib f with announced := true })
  | withdraw {s w f} : s.Runs w f → Step s (s.setFib f { s.fib f with announced := false })
  | stamp {s w f} (reason : ParkReason) : s.Runs w f →
      Step s (s.setFib f { s.fib f with pendingPark := reason })
  | park {s w f} : 0 < n → s.Runs w f →
      Step s ((s.setFib f { s.fib f with
          pendingPark :=
            if (s.fib f).pendingPark = .none then .slot else (s.fib f).pendingPark }).setWkr w
        { s.wkr w with active := none, commitStack := f :: (s.wkr w).commitStack })
  | commit {s w f rest} : s.AtRoot w → (s.wkr w).commitStack = f :: rest →
      Step s ((s.setWkr w { s.wkr w with commitStack := rest }).commitPark f)
  | yield {s w f} : 0 < n → s.Runs w f →
      Step s ((s.setFib f { s.fib f with state := .ready }).setWkr w
        { s.wkr w with active := none, requeueStack := f :: (s.wkr w).requeueStack })
  | requeue {s w f rest} : s.AtRoot w → (s.wkr w).commitStack = [] →
      (s.wkr w).requeueStack = f :: rest →
      Step s ((s.setWkr w { s.wkr w with requeueStack := rest }).enqueue w f)
  | finish {s w f} (state : FiberState) : s.Runs w f → state.terminal →
      Step s (s.setFib f { s.fib f with state := state, announced := false })
  | leave {s w f} : (s.wkr w).active = some f → (s.fib f).state.terminal →
      Step s (s.setWkr w { s.wkr w with active := none })
  | dequeue {s w f rest} : s.Seeks w → (s.wkr w).steal = f :: rest →
      Step s (s.setWkr w { s.wkr w with steal := rest, next := some f })
  | stealFrom {s w v f rest} : w ≠ v → s.AtRoot w → s.Seeks w → (s.wkr v).steal = f :: rest →
      (s.fib f).pinnedTo = none →
      Step s (((s.setFib f { s.fib f with homeThread := w }).setWkr v
        { s.wkr v with steal := rest }).setWkr w { s.wkr w with next := some f })
  | run {s w f} : s.Between w → (s.wkr w).next = some f →
      Step s ((s.setFib f { s.fib f with state := .running, announced := false, woken := false }).setWkr
        w { s.wkr w with active := some f, next := none })
  | unpark {s f} : (s.fib f).state ≠ .unborn → Step s (s.unpark f)
  | cancel {s f} (due : Bool) : Step s (s.setFib f { s.fib f with cancelDue := due })
  | pin {s w f} : s.Runs w f →
      Step s (s.setFib f { s.fib f with
        segPin := (s.fib f).segPin + 1
        pinnedAt := if (s.fib f).segPin = 0 then w else (s.fib f).pinnedAt })
  | unpin {s w f} : s.Runs w f → Step s (s.setFib f { s.fib f with segPin := (s.fib f).segPin - 1 })
  | soloPark {s w f} : n = 0 → s.Runs w f →
      Step s ((s.setFib f { s.fib f with state := .parked, announced := true }).setWkr w
        { s.wkr w with active := none })
  | soloYield {s w f} : n = 0 → s.Runs w f → (s.wkr w).steal ≠ [] →
      Step s ((s.setFib f { s.fib f with state := .ready }).setWkr w
        { s.wkr w with active := none, steal := (s.wkr w).steal ++ [f] })

/-- What the scheduler of `n + 1` workers can come to. -/
inductive Reachable {n : ℕ} {F : Type} [DecidableEq F] : State n F → Prop
  | boot (main : F) : Reachable (State.boot n main)
  | step {s t : State n F} : Reachable s → Step s t → Reachable t

end Kaikai.Sched
