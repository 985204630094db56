import Mathlib.Data.List.Basic

namespace Kaikai.Mailbox

/-- What a full bounded mailbox does. -/
inductive Overflow where
  | unbounded | dropOldest | dropNewest | blockSender
deriving DecidableEq

/-- The two waiter chains. -/
inductive Side where
  | recv | send
deriving DecidableEq

/-- Where a message that has left the queue went. -/
inductive Fate where
  | received (op : Nat)
  | evicted
  | discarded
deriving DecidableEq

/-- `KaiMailbox`; messages are the numbers of the sends that brought them. Nothing reads
`sent` and `gone`, the messages ever queued and those that have left. -/
structure Mbox (F : Type) where
  queue : List Nat
  len : Int
  cap : Int
  overflow : Overflow
  recvWaiters : List F
  sendWaiters : List F
  ended : Bool
  closed : Bool
  sent : List Nat
  gone : List (Nat × Fate)

/-- An operation of a fiber, with its number. -/
inductive Op where
  | send (op : Nat)
  | recv (op : Nat)
  | recvTimeout (op : Nat)
deriving DecidableEq

namespace Op

def side : Op → Side
  | send _ => .send
  | recv _ => .recv
  | recvTimeout _ => .recv

def number : Op → Nat
  | send op => op
  | recv op => op
  | recvTimeout op => op

def timed : Op → Bool
  | recvTimeout _ => true
  | _ => false

end Op

/-- Where a fiber stands in an operation, between two lock sections. -/
inductive Stage (F : Type) where
  /-- ahead of the lock section of the loop -/
  | attempt
  /-- linked into the chain, the lock released -/
  | linked
  /-- the park is announced, the switch not finished -/
  | parking
  | parked
  | resumed
  /-- a due cancel was seen: off the chain next -/
  | leaving
  /-- the message of the send is released next -/
  | abandon
  /-- the operation is done but for a waiter to wake -/
  | wake (w : Option F)
deriving DecidableEq

inductive Pc (F B : Type) where
  | idle
  | finished
  /-- undefined behaviour of C -/
  | crashed
  | busy (op : Op) (b : B) (stage : Stage F)
  /-- the handle is ended, the close ahead -/
  | ending (b : B)
  /-- the queue is gone, senders are woken one by one -/
  | closing (b : B) (w : Option F)
deriving DecidableEq

/-- A fiber: its place, its unconsumed wakes, whether a cancel is due, and whether its
deadline has fired. -/
structure Fiber (F B : Type) where
  pc : Pc F B
  permits : Nat
  due : Bool
  fired : Bool

/-- A message that its send gave up, and what held then: the mailbox was closed, its policy
discards, or a cancel of the sender was due. -/
structure Release where
  op : Nat
  closed : Bool
  discards : Bool
  due : Bool
deriving DecidableEq

/-- The mailboxes, the fibers, the number of the next operation, and what was sent, given up
and answered so far. -/
structure State (F B : Type) where
  box : B → Mbox F
  fib : F → Fiber F B
  nextOp : Nat
  sends : List (Nat × F × B)
  released : List (B × Release)
  answers : List (Nat × Option Nat)

namespace Mbox

variable {F : Type}

def waiters (mb : Mbox F) : Side → List F
  | .recv => mb.recvWaiters
  | .send => mb.sendWaiters

def setWaiters (mb : Mbox F) (fs : List F) : Side → Mbox F
  | .recv => { mb with recvWaiters := fs }
  | .send => { mb with sendWaiters := fs }

def waiterEnqueue (mb : Mbox F) (side : Side) (f : F) : Mbox F :=
  mb.setWaiters (mb.waiters side ++ [f]) side

def waiterDequeue (mb : Mbox F) (side : Side) : Option F × Mbox F :=
  match mb.waiters side with
  | [] => (none, mb)
  | f :: fs => (some f, mb.setWaiters fs side)

def waiterRemove [DecidableEq F] (mb : Mbox F) (side : Side) (f : F) : Mbox F :=
  mb.setWaiters ((mb.waiters side).erase f) side

/-- A send waits for a slot here. -/
def blocks (mb : Mbox F) : Bool := decide (0 < mb.cap) && mb.overflow == .blockSender

/-- The policy turns the newest message away. -/
def discards (mb : Mbox F) : Bool :=
  mb.overflow == .dropNewest && !(mb.cap == 0 || decide (mb.len < mb.cap))

/-- `kai_mailbox_make_room`; `none` reads the head of an empty queue. -/
def makeRoom (mb : Mbox F) : Option (Bool × Mbox F) :=
  if mb.cap = 0 ∨ mb.len < mb.cap then some (true, mb)
  else
    match mb.overflow with
    | .dropNewest => some (false, mb)
    | .dropOldest =>
        match mb.queue with
        | [] => none
        | old :: rest =>
            some (true, { mb with
              queue := rest
              len := mb.len - 1
              gone := mb.gone ++ [(old, .evicted)] })
    | _ => some (true, mb)

/-- The append of a push: the message, and the receiver to wake. -/
def append (mb : Mbox F) (m : Nat) : Option F × Mbox F :=
  waiterDequeue { mb with
    queue := mb.queue ++ [m]
    len := mb.len + 1
    sent := mb.sent ++ [m] } .recv

/-- What a lock section of a send comes to. -/
inductive Reserved (F : Type) where
  | crashed
  | dropped (mb : Mbox F)
  | linked (mb : Mbox F)
  | pushed (w : Option F) (mb : Mbox F)

/-- The lock section of `kai_mailbox_push`: a turn of `kai_mailbox_await_slot`, or the
policy, and the append. -/
def reserve [DecidableEq F] (mb : Mbox F) (f : F) (m : Nat) : Reserved F :=
  if mb.blocks then
    let mb := mb.waiterRemove .send f
    if mb.closed then .dropped mb
    else if mb.len < mb.cap then .pushed (mb.append m).1 (mb.append m).2
    else .linked (mb.waiterEnqueue .send f)
  else if mb.closed then .dropped mb
  else
    match mb.makeRoom with
    | none => .crashed
    | some (false, mb) => .dropped mb
    | some (true, mb) => .pushed (mb.append m).1 (mb.append m).2

/-- `kai_mailbox_take`: the message, and the sender that the free slot admits. -/
def take (mb : Mbox F) (op : Nat) : Option (Nat × Option F × Mbox F) :=
  match mb.queue with
  | [] => none
  | m :: rest =>
      let mb := { mb with queue := rest, len := mb.len - 1, gone := mb.gone ++ [(m, Fate.received op)] }
      some (m, mb.waiterDequeue .send)

/-- The first lock section of `kai_mailbox_close`. -/
def close (mb : Mbox F) : Mbox F :=
  { mb with
    closed := true
    queue := []
    len := 0
    gone := mb.gone ++ mb.queue.map fun m => (m, .discarded) }

@[simp] theorem setWaiters_self (mb : Mbox F) (fs : List F) (side : Side) :
    (mb.setWaiters fs side).waiters side = fs := by cases side <;> rfl

@[simp] theorem setWaiters_blocks (mb : Mbox F) (fs : List F) (side : Side) :
    (mb.setWaiters fs side).blocks = mb.blocks := by cases side <;> rfl

@[simp] theorem setWaiters_closed (mb : Mbox F) (fs : List F) (side : Side) :
    (mb.setWaiters fs side).closed = mb.closed := by cases side <;> rfl

/-- The oldest message makes room. -/
def evict (mb : Mbox F) (old : Nat) (rest : List Nat) : Mbox F :=
  { mb with queue := rest, len := mb.len - 1, gone := mb.gone ++ [(old, .evicted)] }

section

variable [DecidableEq F]

/-- The cases of a send's lock section. -/
inductive Reserves (mb : Mbox F) (f : F) (m : Nat) : Reserved F → Prop
  | closed : mb.blocks = true → mb.closed = true →
      Reserves mb f m (.dropped (mb.waiterRemove .send f))
  | full : mb.blocks = true → mb.closed = false → mb.cap ≤ mb.len →
      Reserves mb f m (.linked ((mb.waiterRemove .send f).waiterEnqueue .send f))
  | slot : mb.blocks = true → mb.closed = false → mb.len < mb.cap →
      Reserves mb f m (.pushed ((mb.waiterRemove .send f).append m).1
        ((mb.waiterRemove .send f).append m).2)
  | shut : mb.blocks = false → mb.closed = true → Reserves mb f m (.dropped mb)
  | discarded : mb.blocks = false → mb.closed = false → mb.discards = true →
      Reserves mb f m (.dropped mb)
  | room : mb.blocks = false → mb.closed = false →
      mb.cap = 0 ∨ mb.len < mb.cap ∨ mb.overflow = .unbounded ∨ mb.cap < 0 →
      Reserves mb f m (.pushed (mb.append m).1 (mb.append m).2)
  | evicted {old : Nat} {rest : List Nat} : mb.blocks = false → mb.closed = false →
      mb.overflow = .dropOldest → mb.queue = old :: rest →
      Reserves mb f m (.pushed ((mb.evict old rest).append m).1 ((mb.evict old rest).append m).2)
  | crashed : mb.blocks = false → mb.closed = false → mb.overflow = .dropOldest →
      mb.cap ≠ 0 → mb.cap ≤ mb.len → mb.queue = [] → Reserves mb f m .crashed

theorem reserves (mb : Mbox F) (f : F) (m : Nat) : Reserves mb f m (mb.reserve f m) := by
  unfold reserve
  cases hblocks : mb.blocks with
  | true =>
      simp only [if_true]
      cases hclosed : mb.closed with
      | true =>
          rw [if_pos (by simp [waiterRemove, hclosed])]
          exact .closed hblocks hclosed
      | false =>
          rw [if_neg (by simp [waiterRemove, hclosed])]
          split
          · next hroom => exact .slot hblocks hclosed hroom
          · next hfull => exact .full hblocks hclosed (Int.not_lt.1 hfull)
  | false =>
      simp only [Bool.false_eq_true, if_false]
      cases hclosed : mb.closed with
      | true => exact .shut hblocks hclosed
      | false =>
          simp only [Bool.false_eq_true, if_false]
          unfold makeRoom
          by_cases hroom : mb.cap = 0 ∨ mb.len < mb.cap
          · rw [if_pos hroom]
            exact .room hblocks hclosed (by tauto)
          · rw [if_neg hroom]
            rw [not_or, Int.not_lt] at hroom
            cases hoverflow : mb.overflow with
            | unbounded => exact .room hblocks hclosed (by tauto)
            | dropNewest =>
                refine .discarded hblocks hclosed ?_
                simp [discards, hoverflow, hroom.1, hroom.2]
            | dropOldest =>
                cases hqueue : mb.queue with
                | nil => exact .crashed hblocks hclosed hoverflow hroom.1 hroom.2 hqueue
                | cons old rest =>
                    have hcase := Reserves.evicted (f := f) (m := m) hblocks hclosed hoverflow hqueue
                    rw [evict, hoverflow] at hcase
                    exact hcase
            | blockSender =>
                refine .room hblocks hclosed ?_
                simp [blocks, hoverflow] at hblocks
                omega

end

end Mbox

namespace State

variable {F B : Type} [DecidableEq F] [DecidableEq B]

def setFib (s : State F B) (f : F) (fiber : Fiber F B) : State F B :=
  { s with fib := Function.update s.fib f fiber }

def setPc (s : State F B) (f : F) (pc : Pc F B) : State F B := s.setFib f { s.fib f with pc := pc }

def setBox (s : State F B) (b : B) (mb : Mbox F) : State F B :=
  { s with box := Function.update s.box b mb }

/-- `kai_sched_unpark`: a parked fiber runs again, any other keeps a permit. -/
def unpark (s : State F B) (f : F) : State F B :=
  match (s.fib f).pc with
  | .busy op b .parked => s.setPc f (.busy op b .resumed)
  | .finished => s
  | _ => s.setFib f { s.fib f with permits := (s.fib f).permits + 1 }

def wake (s : State F B) : Option F → State F B
  | none => s
  | some f => s.unpark f

/-- The message of a send is released. -/
def release (s : State F B) (f : F) (b : B) (op : Nat) : State F B :=
  { s with released := s.released ++
      [(b, ⟨op, (s.box b).closed || (s.box b).ended, (s.box b).discards, (s.fib f).due⟩)] }

def answer (s : State F B) (op : Nat) (msg : Option Nat) : State F B :=
  { s with answers := s.answers ++ [(op, msg)] }

/-- A send is issued. -/
def issue (s : State F B) (f : F) (b : B) : State F B :=
  { s with sends := s.sends ++ [(s.nextOp, f, b)] }

/-- A fiber begins an operation. -/
def start (s : State F B) (f : F) (b : B) (op : Op) : State F B :=
  { (s.setPc f (.busy op b .attempt)) with nextOp := s.nextOp + 1 }

def sendSection (s : State F B) (f : F) (b : B) (op : Nat) : State F B :=
  match (s.box b).reserve f op with
  | .crashed => s.setPc f .crashed
  | .dropped mb => ((s.release f b op).setBox b mb).setPc f .idle
  | .linked mb => (s.setBox b mb).setPc f (.busy (.send op) b .linked)
  | .pushed w mb => (s.setBox b mb).setPc f (.busy (.send op) b (.wake w))

/-- A receive has its message. -/
def received (s : State F B) (f : F) (b : B) (op : Op) (got : Nat × Option F × Mbox F) :
    State F B :=
  ((s.answer op.number (some got.1)).setBox b got.2.2).setPc f (.busy op b (.wake got.2.1))

/-- A receive goes without. -/
def giveUp (s : State F B) (f : F) (op : Op) : State F B :=
  (s.answer op.number none).setPc f .idle

/-- The lock section of `kai_mailbox_pop`. -/
def recvSection (s : State F B) (f : F) (b : B) (op : Nat) : State F B :=
  let mb := (s.box b).waiterRemove .recv f
  match mb.take op with
  | some got => s.received f b (.recv op) got
  | none => (s.setBox b (mb.waiterEnqueue .recv f)).setPc f (.busy (.recv op) b .linked)

/-- The lock section at the top of the loop of `kai_mailbox_pop_timeout`; the clock was read
before. -/
def timedSection (s : State F B) (f : F) (b : B) (op : Nat) (expired : Bool) : State F B :=
  match (s.box b).take op with
  | some got => s.received f b (.recvTimeout op) got
  | none =>
      if expired then s.giveUp f (.recvTimeout op)
      else (s.setBox b ((s.box b).waiterEnqueue .recv f)).setPc f (.busy (.recvTimeout op) b .linked)

/-- The lock section behind the park of `kai_mailbox_pop_timeout`, and the test of its
outcome: a fiber still linked gives up when its deadline has fired or a cancel is due. -/
def timedResume (s : State F B) (f : F) (b : B) (op : Nat) : State F B :=
  if f ∈ (s.box b).recvWaiters then
    let s := s.setBox b ((s.box b).waiterRemove .recv f)
    if (s.fib f).fired || (s.fib f).due then s.giveUp f (.recvTimeout op)
    else s.setPc f (.busy (.recvTimeout op) b .attempt)
  else
    match (s.box b).take op with
    | some got => s.received f b (.recvTimeout op) got
    | none => s.setPc f (.busy (.recvTimeout op) b .attempt)

/-- The commit of a park: a permit is consumed, or a park on the reactor sees a due cancel,
or the fiber sleeps. -/
def commit (s : State F B) (f : F) (op : Op) (b : B) : State F B :=
  if 0 < (s.fib f).permits then
    s.setFib f { s.fib f with pc := .busy op b .resumed, permits := (s.fib f).permits - 1 }
  else if op.timed && (s.fib f).due then s.setPc f (.busy op b .resumed)
  else s.setPc f (.busy op b .parked)

/-- The exit of `kai_mailbox_park` with a cancel due. -/
def leave (s : State F B) (f : F) (op : Op) (b : B) : State F B :=
  let s := s.setBox b ((s.box b).waiterRemove op.side f)
  match op with
  | .send _ => s.setPc f (.busy op b .abandon)
  | _ => s.giveUp f op

/-- A turn of the loop of `kai_mailbox_close`. -/
def closeNext (s : State F B) (f : F) (b : B) : State F B :=
  match (s.box b).waiterDequeue .send with
  | (none, _) => s.setPc f .idle
  | (some g, mb) => (s.setBox b mb).setPc f (.closing b (some g))

end State

variable {F B : Type}

section

variable [DecidableEq F]

theorem setFib_self (s : State F B) (f : F) (φ : Fiber F B) : (s.setFib f φ).fib f = φ :=
  Function.update_self ..

theorem setFib_of_ne (s : State F B) {f g : F} (φ : Fiber F B) (h : g ≠ f) :
    (s.setFib f φ).fib g = s.fib g := Function.update_of_ne h ..

@[simp] theorem setPc_box (s : State F B) (f : F) (pc : Pc F B) : (s.setPc f pc).box = s.box := rfl

theorem setPc_self (s : State F B) (f : F) (pc : Pc F B) :
    (s.setPc f pc).fib f = { s.fib f with pc := pc } := Function.update_self ..

theorem setPc_of_ne (s : State F B) {f g : F} (pc : Pc F B) (h : g ≠ f) :
    (s.setPc f pc).fib g = s.fib g := Function.update_of_ne h ..

theorem pc_setPc {s : State F B} {f g : F} {pc : Pc F B} :
    ((s.setPc f pc).fib g).pc = if g = f then pc else (s.fib g).pc := by
  by_cases h : g = f
  · rw [if_pos h, h, setPc_self]
  · rw [if_neg h, setPc_of_ne s pc h]

theorem permits_setPc {s : State F B} {f g : F} {pc : Pc F B} :
    ((s.setPc f pc).fib g).permits = (s.fib g).permits := by
  by_cases h : g = f
  · rw [h, setPc_self]
  · rw [setPc_of_ne s pc h]

@[simp] theorem unpark_box (s : State F B) (f : F) : (s.unpark f).box = s.box := by
  unfold State.unpark
  split <;> rfl

theorem pc_unpark (s : State F B) {f : F} (g : F)
    (hpc : ∀ op b, (s.fib f).pc ≠ .busy op b .parked) : ((s.unpark g).fib f).pc = (s.fib f).pc := by
  unfold State.unpark
  by_cases hfg : f = g
  · subst hfg
    split
    · next op b hparked => exact absurd hparked (hpc op b)
    · rfl
    · rw [setFib_self]
  · split
    · rw [setPc_of_ne s _ hfg]
    · rfl
    · rw [setFib_of_ne s _ hfg]

end

section

variable [DecidableEq B]

@[simp] theorem setBox_fib (s : State F B) (b : B) (mb : Mbox F) : (s.setBox b mb).fib = s.fib := rfl

theorem setBox_self (s : State F B) (b : B) (mb : Mbox F) : (s.setBox b mb).box b = mb :=
  Function.update_self ..

theorem setBox_of_ne (s : State F B) {b c : B} (mb : Mbox F) (h : c ≠ b) :
    (s.setBox b mb).box c = s.box c := Function.update_of_ne h ..

end

/-- The steps, each of a fiber. The last ones are the environment's: a cancel is requested, a
deadline fires, a wake comes from elsewhere, a cancel is delivered, a fiber ends. -/
inductive Step [DecidableEq F] [DecidableEq B] (s : State F B) :
    F → State F B → Prop
  | send {f : F} {b : B} : (s.fib f).pc = .idle → (s.box b).ended = false →
      Step s f ((s.issue f b).start f b (.send s.nextOp))
  | sendEnded {f : F} {b : B} : (s.fib f).pc = .idle → (s.box b).ended = true →
      Step s f { ((s.issue f b).release f b s.nextOp) with nextOp := s.nextOp + 1 }
  | recv {f : F} {b : B} : (s.fib f).pc = .idle → (s.box b).ended = false →
      Step s f (s.start f b (.recv s.nextOp))
  | recvTimeout {f : F} {b : B} : (s.fib f).pc = .idle → (s.box b).ended = false →
      Step s f (s.start f b (.recvTimeout s.nextOp))
  | sendSection {f : F} {b : B} {op : Nat} : (s.fib f).pc = .busy (.send op) b .attempt →
      Step s f (s.sendSection f b op)
  | recvSection {f : F} {b : B} {op : Nat} : (s.fib f).pc = .busy (.recv op) b .attempt →
      Step s f (s.recvSection f b op)
  | timedSection {f : F} {b : B} {op : Nat} (expired : Bool) :
      (s.fib f).pc = .busy (.recvTimeout op) b .attempt → Step s f (s.timedSection f b op expired)
  | announce {f : F} {b : B} {op : Op} : (s.fib f).pc = .busy op b .linked →
      (s.fib f).due = false →
      Step s f (s.setFib f { s.fib f with pc := .busy op b .parking, fired := false })
  | skip {f : F} {b : B} {op : Op} : (s.fib f).pc = .busy op b .linked → (s.fib f).due = true →
      Step s f (s.setPc f (.busy op b .resumed))
  | commit {f : F} {b : B} {op : Op} : (s.fib f).pc = .busy op b .parking →
      Step s f (s.commit f op b)
  | retry {f : F} {b : B} {op : Op} : (s.fib f).pc = .busy op b .resumed → op.timed = false →
      (s.fib f).due = false → Step s f (s.setPc f (.busy op b .attempt))
  | cancelSeen {f : F} {b : B} {op : Op} : (s.fib f).pc = .busy op b .resumed → op.timed = false →
      (s.fib f).due = true → Step s f (s.setPc f (.busy op b .leaving))
  | leave {f : F} {b : B} {op : Op} : (s.fib f).pc = .busy op b .leaving →
      Step s f (s.leave f op b)
  | abandon {f : F} {b : B} {op : Nat} : (s.fib f).pc = .busy (.send op) b .abandon →
      Step s f ((s.release f b op).setPc f .idle)
  | timedResume {f : F} {b : B} {op : Nat} : (s.fib f).pc = .busy (.recvTimeout op) b .resumed →
      Step s f (s.timedResume f b op)
  | wake {f : F} {b : B} {op : Op} {w : Option F} : (s.fib f).pc = .busy op b (.wake w) →
      Step s f ((s.wake w).setPc f .idle)
  | close {f : F} {b : B} : (s.fib f).pc = .idle → (s.box b).ended = false →
      Step s f ((s.setBox b { s.box b with ended := true }).setPc f (.ending b))
  | closeSection {f : F} {b : B} : (s.fib f).pc = .ending b →
      Step s f ((s.setBox b (s.box b).close).setPc f (.closing b none))
  | closeNext {f : F} {b : B} : (s.fib f).pc = .closing b none → Step s f (s.closeNext f b)
  | closeWake {f : F} {b : B} {g : F} : (s.fib f).pc = .closing b (some g) →
      Step s f ((s.unpark g).setPc f (.closing b none))
  | cancel {f : F} :
      Step s f (s.setFib f { s.fib f with due := true })
  | fire {f : F} :
      Step s f ((s.setFib f { s.fib f with fired := true }).unpark f)
  | stray {f : F} : Step s f (s.unpark f)
  | deliver {f : F} : (s.fib f).pc = .idle →
      Step s f (s.setFib f { s.fib f with due := false })
  | finish {f : F} : (s.fib f).pc = .idle → Step s f (s.setPc f .finished)

/-- The start: empty mailboxes of any capacities and policies, and idle fibers. -/
structure Start (s : State F B) : Prop where
  boxes : ∀ b, (s.box b).queue = [] ∧ (s.box b).len = 0 ∧ (s.box b).recvWaiters = [] ∧
    (s.box b).sendWaiters = [] ∧ (s.box b).ended = false ∧ (s.box b).closed = false ∧
    (s.box b).sent = [] ∧ (s.box b).gone = []
  fibers : ∀ f, (s.fib f).pc = .idle
  sends : s.sends = []
  released : s.released = []
  answers : s.answers = []

/-- The states of runs whose steps all meet `ok`. -/
inductive Reached [DecidableEq F] [DecidableEq B] (ok : State F B → F → State F B → Prop) :
    State F B → Prop
  | start {s : State F B} : Start s → Reached ok s
  | step {s s' : State F B} {f : F} : Reached ok s → ok s f s' → Step s f s' → Reached ok s'

end Kaikai.Mailbox
