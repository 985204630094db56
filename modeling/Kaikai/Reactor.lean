import Mathlib.Algebra.GroupWithZero.Nat
import Kaikai.IntrusiveList

namespace Kaikai.Reactor

open Function Intrusive Intrusive.Links

/-- The heads, in the order of `kai_reactor_detach_fiber`. -/
inductive Waiters where
  | socketRead | socketWrite | pid | filepool | timer | stdin | signal
deriving DecidableEq

/-- `KaiPendingExit`: a child that has ended and its `waitpid` status. -/
structure Exit where
  pid : ℤ
  status : ℤ
deriving DecidableEq

/-- The park a fiber is in. -/
inductive Wait where
  | timer (deadlineNs : ℕ)
  | pid (pid : ℤ)
  | socketRead (fd : ℤ)
  | socketReadTimeout (fd : ℤ) (deadlineNs : ℕ)
  | socketWrite (fd : ℤ)
  | stdin
  | signal
  | filepool
deriving DecidableEq

def Wait.waiters : Wait → Waiters
  | timer _ => .timer
  | pid _ => .pid
  | socketRead _ | socketReadTimeout _ _ => .socketRead
  | socketWrite _ => .socketWrite
  | stdin => .stdin
  | signal => .signal
  | filepool => .filepool

/-- The deadline the park was given. -/
def Wait.deadline : Wait → Option ℕ
  | timer d | socketReadTimeout _ d => some d
  | pid _ | socketRead _ | socketWrite _ | stdin | signal | filepool => none

/-- An exit handed to a fiber, and what the fiber waited for. -/
structure Delivery where
  fiber : ℕ
  wait : Option Wait
  exit : Exit
deriving DecidableEq

/-- The fields of the fibers and the globals of the reactor, less the links. `result` says that
the file-pool item of the fiber has its result. Nothing reads the last five fields: the park
a fiber is in, when it joined the timer wheel, the fibers the drains woke, the exits handed
over, and the exits there were. -/
structure Book where
  born : ℕ := 0
  deadlineNs : ℕ → ℕ := fun _ => 0
  waitPid : ℕ → ℤ := fun _ => 0
  waitStatus : ℕ → ℤ := fun _ => 0
  fired : ℕ → Bool := fun _ => false
  parked : ℕ → Bool := fun _ => false
  result : ℕ → Bool := fun _ => false
  pendingPark : ℕ → Option Waiters := fun _ => none
  parkedCount : ℤ := 0
  pendingExits : List Exit := []
  signalPending : ℤ := 0
  readyBatch : List ℕ := []
  zombies : List Exit := []
  tick : ℕ := 0
  wait : ℕ → Option Wait := fun _ => none
  arrived : ℕ → ℕ := fun _ => 0
  woken : List ℕ := []
  delivered : List Delivery := []
  exited : List Exit := []

structure State where
  links : Links Waiters ℕ := ⟨fun _ => none, fun _ => none⟩
  book : Book := {}

def Book.unpark (b : Book) (f : ℕ) : Book :=
  { b with parked := update b.parked f false }

/-- `kai_reactor_mark_ready`, with `n` threads. -/
def Book.markReady (n : ℕ) (f : ℕ) (b : Book) : Book :=
  let b := { b with fired := update b.fired f true, woken := b.woken ++ [f] }
  if n ≤ 1 then b.unpark f else { b with readyBatch := b.readyBatch ++ [f] }

def Book.flushReady (b : Book) : Book :=
  { b.readyBatch.foldl Book.unpark b with readyBatch := [] }

section Drains

variable (n : ℕ)

/-- What the timer drain does with the fiber it took off the wheel. -/
def Book.timerFired (f : ℕ) (b : Book) : Book :=
  Book.markReady n f
    { b with deadlineNs := update b.deadlineNs f 0, parkedCount := b.parkedCount - 1 }

def timerDrain (now : ℕ) (s : State) : State :=
  let r := popWhile (fun b f => decide (b.deadlineNs f ≤ now)) (Book.timerFired n) .timer
    s.book.born s.links s.book
  ⟨r.1, r.2⟩

def timerRemove (f : ℕ) (s : State) : State :=
  match cut (fun g => g = f) s.book.born (.head .timer) s.links with
  | (none, _) => s
  | (some f, L) =>
    ⟨L, { s.book with
      deadlineNs := update s.book.deadlineNs f 0
      parkedCount := s.book.parkedCount - 1 }⟩

/-- One entry of the set `poll` was given, with the events it reported. -/
structure PollFd where
  fd : ℤ
  revents : ℕ

def pollIn : ℕ := 1
def pollOut : ℕ := 4
def pollErr : ℕ := 8
def pollHup : ℕ := 16
def pollNval : ℕ := 32

/-- The events of every entry for `fd`. -/
def revents (pfds : List PollFd) (fd : ℤ) : ℕ :=
  pfds.foldl (fun r p => if p.fd = fd then r ||| p.revents else r) 0

def Book.socketReady (f : ℕ) (b : Book) : Book :=
  Book.markReady n f
    { b with waitPid := update b.waitPid f 0, parkedCount := b.parkedCount - 1 }

def socketDrain (k : Waiters) (pfds : List PollFd) (readyMask : ℕ) (s : State) : State :=
  let r := drain
    (fun b f => decide
      (revents pfds (b.waitPid f) &&& (readyMask ||| pollHup ||| pollErr ||| pollNval) ≠ 0))
    (Book.socketReady n) s.book.born (.head k) s.links s.book
  ⟨r.1, r.2⟩

def Book.socketExpired (f : ℕ) (b : Book) : Book :=
  Book.markReady n f
    { b with
      waitPid := update b.waitPid f 0
      waitStatus := update b.waitStatus f 1
      parkedCount := b.parkedCount - 1 }

def socketReadDeadlineDrain (now : ℕ) (s : State) : State :=
  let r := drain (fun b f => decide (b.deadlineNs f ≠ 0 ∧ b.deadlineNs f ≤ now))
    (Book.socketExpired n) s.book.born (.head .socketRead) s.links s.book
  ⟨r.1, r.2⟩

def Book.poolDone (f : ℕ) (b : Book) : Book :=
  Book.markReady n f { b with parkedCount := b.parkedCount - 1 }

def filepoolDrain (s : State) : State :=
  let r := drain (fun b f => b.result f) (Book.poolDone n) s.book.born (.head .filepool)
    s.links s.book
  ⟨r.1, r.2⟩

/-- The readiness of standard input in `kai_reactor_wait`. -/
def stdinReady (s : State) : State :=
  match s.links.head .stdin with
  | none => s
  | some f =>
    ⟨s.links.store (.head .stdin) none,
      Book.markReady n f { s.book with parkedCount := s.book.parkedCount - 1 }⟩

def signalTryWake (s : State) : State :=
  if s.book.signalPending = 0 then s
  else
    match s.links.head .signal with
    | none => s
    | some f =>
      ⟨s.links.store (.head .signal) none,
        Book.markReady n f
          { s.book with
            waitStatus := update s.book.waitStatus f s.book.signalPending
            signalPending := 0
            parkedCount := s.book.parkedCount - 1 }⟩

/-- `kai_reactor_signal_drain`; `signo` is the last byte of the pipe, or `0`. -/
def signalDrain (signo : ℤ) (s : State) : State :=
  signalTryWake n
    (if signo ≠ 0 then { s with book := { s.book with signalPending := signo } } else s)

/-- What the fiber whose child ended is left with. -/
def Book.exitDelivered (e : Exit) (f : ℕ) (b : Book) : Book :=
  Book.markReady n f
    { b with
      waitStatus := update b.waitStatus f e.status
      parkedCount := b.parkedCount - 1
      delivered := b.delivered ++ [⟨f, b.wait f, e⟩] }

def wakePidWaiter (e : Exit) (s : State) : Bool × State :=
  match cut (fun f => decide (s.book.waitPid f = e.pid)) s.book.born (.head .pid) s.links with
  | (none, _) => (false, s)
  | (some f, L) => (true, ⟨L, s.book.exitDelivered n e f⟩)

/-- The exit no fiber waits for is put in the buffer. -/
def State.buffer (s : State) (e : Exit) : State :=
  { s with book := { s.book with pendingExits := e :: s.book.pendingExits } }

/-- The loop over `waitpid(-1)`. -/
def harvest : List Exit → State → State
  | [], s => s
  | e :: reaped, s =>
    match wakePidWaiter n e s with
    | (true, s) => harvest reaped s
    | (false, s) => harvest reaped (s.buffer e)

/-- The pass over the buffer: what it keeps, and the state. -/
def reconcile : List Exit → State → List Exit × State
  | [], s => ([], s)
  | e :: pending, s =>
    match wakePidWaiter n e s with
    | (true, s) => reconcile pending s
    | (false, s) =>
      let r := reconcile pending s
      (e :: r.1, r.2)

/-- `kai_reactor_sigchld_drain`, where `waitpid(-1)` gives `reaped` and leaves `left`. -/
def sigchldDrain (reaped left : List Exit) (s : State) : State :=
  let s := harvest n reaped { s with book := { s.book with zombies := left } }
  let r := reconcile n s.book.pendingExits s
  { r.2 with book := { r.2.book with pendingExits := r.1 } }

end Drains

/-- The lists that `kai_reactor_detach_fiber` walks. -/
def heads : List Waiters :=
  [.socketRead, .socketWrite, .pid, .filepool, .timer, .stdin, .signal]

/-- `kai_reactor_detach_fiber` over the heads it has left. -/
def detachFrom (f : ℕ) : List Waiters → State → Bool × State
  | [], s => (false, s)
  | k :: ks, s =>
    match cut (fun g => g = f) s.book.born (.head k) s.links with
    | (none, _) => detachFrom f ks s
    | (some f, L) =>
      (true, ⟨L, { s.book with
        waitPid := update s.book.waitPid f 0
        fired := update s.book.fired f true
        parkedCount := s.book.parkedCount - 1 }⟩)

def detachFiber (f : ℕ) (s : State) : Bool × State :=
  detachFrom f heads s

/-- `kai_fiber_request_cancel`, less the flag it sets. -/
def requestCancel (f : ℕ) (s : State) : State :=
  match detachFiber f s with
  | (false, s) => s
  | (true, s) => { s with book := s.book.unpark f }

def timerInsert (f : ℕ) (s : State) : State :=
  let b := s.book
  let L := s.links.store (.next f) none
  { links :=
      match L.head .timer with
      | none => L.push .timer f
      | some h =>
        if b.deadlineNs f < b.deadlineNs h then L.push .timer f
        else linkPast (fun d => decide (b.deadlineNs d ≤ b.deadlineNs f)) f b.born h L
    book := { b with arrived := update b.arrived f b.tick, tick := b.tick + 1 } }

/-- The fiber joins the structure of its park, which is counted. -/
def State.link (k : Waiters) (f : ℕ) (s : State) : State :=
  let s :=
    match k with
    | .timer => timerInsert f s
    | .stdin | .signal => { s with links := s.links.store (.head k) (some f) }
    | .socketRead | .socketWrite | .pid | .filepool => { s with links := s.links.push k f }
  { s with book := { s.book with parkedCount := s.book.parkedCount + 1 } }

section Parks

variable (n : ℕ)

/-- The end of every park: on one thread the fiber is linked at once, on several it leaves the
reason to `kai_sched_commit_park`; then `kai_sched_park_linked`. -/
def State.park (k : Waiters) (f : ℕ) (s : State) : State :=
  if 1 < n then
    { s with book := { s.book with
      pendingPark := update s.book.pendingPark f (some k)
      fired := update s.book.fired f false } }
  else
    let s := s.link k f
    { s with book := { s.book with
      fired := update s.book.fired f false
      parked := update s.book.parked f true } }

def Book.waitFor (b : Book) (f : ℕ) (w : Wait) : Book :=
  { b with wait := update b.wait f (some w) }

def parkTimer (f d : ℕ) (s : State) : State :=
  State.park n .timer f
    { s with book := { s.book.waitFor f (.timer d) with
      deadlineNs := update s.book.deadlineNs f d } }

def parkPid (f : ℕ) (pid : ℤ) (s : State) : State :=
  State.park n .pid f
    { s with book := { s.book.waitFor f (.pid pid) with
      waitPid := update s.book.waitPid f pid
      waitStatus := update s.book.waitStatus f 0 } }

def parkSocketRead (f : ℕ) (fd : ℤ) (s : State) : State :=
  State.park n .socketRead f
    { s with book := { s.book.waitFor f (.socketRead fd) with
      waitPid := update s.book.waitPid f fd
      waitStatus := update s.book.waitStatus f 0 } }

def parkSocketWrite (f : ℕ) (fd : ℤ) (s : State) : State :=
  State.park n .socketWrite f
    { s with book := { s.book.waitFor f (.socketWrite fd) with
      waitPid := update s.book.waitPid f fd
      waitStatus := update s.book.waitStatus f 0 } }

def parkSocketReadTimeout (f : ℕ) (fd : ℤ) (d : ℕ) (s : State) : State :=
  State.park n .socketRead f
    { s with book := { s.book.waitFor f (.socketReadTimeout fd d) with
      waitPid := update s.book.waitPid f fd
      waitStatus := update s.book.waitStatus f 0
      deadlineNs := update s.book.deadlineNs f d } }

/-- `kai_reactor_park_stdin`; its caller panics where the slot is taken. -/
def parkStdin (f : ℕ) (s : State) : State :=
  if s.links.head .stdin ≠ none then s
  else State.park n .stdin f { s with book := s.book.waitFor f .stdin }

/-- `kai_reactor_park_signal`; its caller panics where the slot is taken. -/
def parkSignal (f : ℕ) (s : State) : State :=
  let s := { s with book := { s.book with waitStatus := update s.book.waitStatus f 0 } }
  if s.links.head .signal ≠ none then s
  else if s.book.signalPending ≠ 0 then
    { s with book := { s.book with
      waitStatus := update s.book.waitStatus f s.book.signalPending
      signalPending := 0 } }
  else State.park n .signal f { s with book := s.book.waitFor f .signal }

/-- `kai_reactor_run_in_pool`, up to the park. -/
def runInPool (f : ℕ) (s : State) : State :=
  State.park n .filepool f
    { s with book := { s.book.waitFor f .filepool with
      result := update s.book.result f false } }

/-- `kai_sched_commit_park`. `abort` says that a wake or a cancel that is due came first. -/
def commitPark (f : ℕ) (abort : Bool) (s : State) : State :=
  match s.book.pendingPark f with
  | none => s
  | some k =>
    let s := { s with book := { s.book with
      pendingPark := update s.book.pendingPark f none } }
    if abort then s
    else
      let s := State.link k f
        { s with book := { s.book with parked := update s.book.parked f true } }
      if k = .signal then signalTryWake n s else s

end Parks

/-- The code after the park, run by a fiber that resumes. -/
def resume (f : ℕ) (s : State) : State :=
  let b := { s.book with wait := update s.book.wait f none }
  { s with book :=
      match s.book.wait f with
      | some (.socketReadTimeout _ _) =>
        { b with
          waitStatus := update b.waitStatus f 0
          deadlineNs := update b.deadlineNs f 0 }
      | some (.pid _) =>
        if b.fired f then
          { b with
            waitPid := update b.waitPid f 0
            waitStatus := update b.waitStatus f 0 }
        else b
      | some .signal => { b with waitStatus := update b.waitStatus f 0 }
      | some .filepool => { b with result := update b.result f false }
      | some (.timer _) | some (.socketRead _) | some (.socketWrite _) | some .stdin
      | none => b }

/-- A due cancel is delivered as the fiber resumes: the code after the park is jumped over. -/
def unwind (f : ℕ) (s : State) : State :=
  { s with book := { s.book with wait := update s.book.wait f none } }

/-- `kai_reactor_take_child_exit`, called by fiber `f` to wait for `pid`. -/
def takeChildExit (f : ℕ) (pid : ℤ) (s : State) : State :=
  match s.book.pendingExits.find? (fun e => e.pid = pid) with
  | none => s
  | some e =>
    { s with book := { s.book with
      pendingExits := s.book.pendingExits.eraseP (fun e => e.pid = pid)
      delivered := s.book.delivered ++ [⟨f, some (.pid pid), e⟩] } }

/-- `waitpid(pid, WNOHANG)` in `kai_default_process_wait`. -/
def waitpid (f : ℕ) (pid : ℤ) (s : State) : State :=
  match s.book.zombies.find? (fun e => e.pid = pid) with
  | none => s
  | some e =>
    { s with book := { s.book with
      zombies := s.book.zombies.eraseP (fun e => e.pid = pid)
      delivered := s.book.delivered ++ [⟨f, some (.pid pid), e⟩] } }

/-- What fibers, the reactor and the kernel do, in any order. -/
inductive Event where
  | spawn
  | parkTimer (f d : ℕ)
  | parkPid (f : ℕ) (pid : ℤ)
  | parkSocketRead (f : ℕ) (fd : ℤ)
  | parkSocketWrite (f : ℕ) (fd : ℤ)
  | parkSocketReadTimeout (f : ℕ) (fd : ℤ) (d : ℕ)
  | parkStdin (f : ℕ)
  | parkSignal (f : ℕ)
  | runInPool (f : ℕ)
  | commitPark (f : ℕ) (abort : Bool)
  | unpark (f : ℕ)
  | timerRemove (f : ℕ)
  | detach (f : ℕ)
  | requestCancel (f : ℕ)
  | resume (f : ℕ)
  | unwind (f : ℕ)
  | timerDrain (now : ℕ)
  | socketReadDrain (pfds : List PollFd)
  | socketWriteDrain (pfds : List PollFd)
  | socketReadDeadlineDrain (now : ℕ)
  | filepoolDrain
  | stdinReady
  | signalDrain (signo : ℤ)
  | sigchldDrain (reaped left : List Exit)
  | flushReady
  | poolResult (f : ℕ)
  | childExit (e : Exit)
  | takeChildExit (f : ℕ) (pid : ℤ)
  | waitpid (f : ℕ) (pid : ℤ)

def step (n : ℕ) : Event → State → State
  | .spawn, s => { s with book := { s.book with born := s.book.born + 1 } }
  | .parkTimer f d, s => parkTimer n f d s
  | .parkPid f pid, s => parkPid n f pid s
  | .parkSocketRead f fd, s => parkSocketRead n f fd s
  | .parkSocketWrite f fd, s => parkSocketWrite n f fd s
  | .parkSocketReadTimeout f fd d, s => parkSocketReadTimeout n f fd d s
  | .parkStdin f, s => parkStdin n f s
  | .parkSignal f, s => parkSignal n f s
  | .runInPool f, s => runInPool n f s
  | .commitPark f abort, s => commitPark n f abort s
  | .unpark f, s => { s with book := s.book.unpark f }
  | .timerRemove f, s => timerRemove f s
  | .detach f, s => (detachFiber f s).2
  | .requestCancel f, s => requestCancel f s
  | .resume f, s => resume f s
  | .unwind f, s => unwind f s
  | .timerDrain now, s => timerDrain n now s
  | .socketReadDrain pfds, s => socketDrain n .socketRead pfds pollIn s
  | .socketWriteDrain pfds, s => socketDrain n .socketWrite pfds pollOut s
  | .socketReadDeadlineDrain now, s => socketReadDeadlineDrain n now s
  | .filepoolDrain, s => filepoolDrain n s
  | .stdinReady, s => stdinReady n s
  | .signalDrain signo, s => signalDrain n signo s
  | .sigchldDrain reaped left, s => sigchldDrain n reaped left s
  | .flushReady, s => { s with book := s.book.flushReady }
  | .poolResult f, s => { s with book := { s.book with result := update s.book.result f true } }
  | .childExit e, s =>
    { s with book := { s.book with
      zombies := s.book.zombies ++ [e]
      exited := s.book.exited ++ [e] } }
  | .takeChildExit f pid, s => takeChildExit f pid s
  | .waitpid f pid, s => waitpid f pid s

/-- The fiber is on no waiter list. -/
def State.Off (s : State) (f : ℕ) : Prop :=
  ∀ k l, Chain s.links.next (s.links.head k) l → f ∉ l

/-- A fiber that runs and is in no park: it may park. -/
def State.Idle (s : State) (f : ℕ) : Prop :=
  f < s.book.born ∧ s.book.parked f = false ∧ s.book.pendingPark f = none ∧
    s.book.wait f = none ∧ s.Off f

/-- A fiber that has been woken and taken off its list: it may leave its park. -/
def State.Awake (s : State) (f : ℕ) : Prop :=
  s.book.parked f = false ∧ s.book.pendingPark f = none ∧ s.Off f

/-- When an event can come. Fibers park and leave their parks by themselves; the events of the
reactor, of other fibers and of children come at any time. -/
def Enabled (s : State) : Event → Prop
  | .parkTimer f _ | .parkPid f _ | .parkSocketRead f _ | .parkSocketWrite f _
  | .parkSocketReadTimeout f _ _ | .parkStdin f | .parkSignal f | .runInPool f => s.Idle f
  | .resume f | .unwind f => s.Awake f
  | .sigchldDrain reaped left => (reaped ++ left).Perm s.book.zombies
  | .spawn | .commitPark _ _ | .unpark _ | .timerRemove _ | .detach _ | .requestCancel _
  | .timerDrain _ | .socketReadDrain _ | .socketWriteDrain _ | .socketReadDeadlineDrain _
  | .filepoolDrain | .stdinReady | .signalDrain _ | .flushReady | .poolResult _
  | .childExit _ | .takeChildExit _ _ | .waitpid _ _ => True

/-- The runs of a program on `n` threads whose steps all meet `ok`. -/
inductive Run (n : ℕ) (ok : State → Event → Prop) : State → Prop
  | boot : Run n ok {}
  | step {s : State} {e : Event} (h : Run n ok s) (he : Enabled s e) (hok : ok s e) :
      Run n ok (step n e s)

end Kaikai.Reactor
