import Kaikai.RegexpEngine

/-!
Pike VM simulation of a compiled pattern, leftmost-first. The outer `Option`
models vector accesses outside a vector and recursions cut off by their fuel.
-/

namespace Kaikai.Regexp

open Kaikai.RegexpEngine
open Kaikai.RegexpSyntax
open Kaikai.Str

/-- Byte offset following the codepoint at `i`; past the end it moves one byte. -/
def rxNextPos (s : Str) (i : Nat) : Nat :=
  if i ≥ s.length then i + 1 else i + stringCpLen s i

/-- Captured span; `-1` stands for a start or an end that is not known yet. -/
structure Capture where
  groupId : Int
  start : Int
  stop : Int
deriving DecidableEq, Repr

structure Match where
  start : Int
  stop : Int
  groups : List Capture
deriving DecidableEq, Repr

structure Thread where
  stateId : Nat
  captures : List Capture
deriving DecidableEq

/-- Puts `before` (newest first) back in front of `tail`, oldest first. -/
def rxCapsRebuild : List Capture → List Capture → List Capture
  | [], tail => tail
  | c :: more, tail => rxCapsRebuild more (c :: tail)

def rxCaptureSetLoop : List Capture → Int → Int → Int → Bool → List Capture → List Capture
  | [], gid, startV, endV, isOpen, before =>
      rxCapsRebuild before (if isOpen then [⟨gid, startV, endV⟩] else [⟨gid, -1, endV⟩])
  | c :: rest, gid, startV, endV, isOpen, before =>
      if c.groupId = gid then
        rxCapsRebuild before
          ((if isOpen then ⟨gid, startV, c.stop⟩ else ⟨gid, c.start, endV⟩) :: rest)
      else rxCaptureSetLoop rest gid startV endV isOpen (c :: before)

def rxCaptureSet (caps : List Capture) (gid startV endV : Int) (isOpen : Bool) :
    List Capture :=
  rxCaptureSetLoop caps gid startV endV isOpen []

def rxCaptureClose (caps : List Capture) (gid pos : Int) : List Capture :=
  rxCaptureSet caps gid (-1) pos false

/-- The input, the NFA and its states indexed by id. -/
structure RxSim where
  nfa : Nfa
  tbl : List NfaState
  input : Str
  n : Nat

def rxMaxId : List NfaState → Int → Int
  | [], best => best
  | s :: rest, best => rxMaxId rest (if s.id > best then s.id else best)

def rxFillTable : List NfaState → List NfaState → Option (List NfaState)
  | [], tbl => some tbl
  | s :: rest, tbl =>
      if s.id < 0 then none
      else do
        let tbl1 ← vecSet tbl s.id.toNat s
        rxFillTable rest tbl1

def rxSim (nfa : Nfa) (input : Str) : Option RxSim := do
  let tbl ← rxFillTable nfa.states
    (vecMake (rxMaxId nfa.states 0 + 1).toNat ⟨-1, [], false⟩)
  some ⟨nfa, tbl, input, input.length⟩

inductive RxWork where
  | wVisit (s : Nat) (caps : List Capture)
  | wEmit (s : Nat) (caps : List Capture)

structure RxClosed where
  threads : List Thread
  seen : List Int

def rxConsumes : List NfaTransition → Bool
  | [] => false
  | t :: rest =>
      match t with
      | .tChar _ _ => true
      | .tClass _ _ _ => true
      | .tAny _ => true
      | _ => rxConsumes rest

/-- A state a thread can rest in: it accepts or consumes a character. -/
def rxIsLive (st : NfaState) : Bool := st.accept || rxConsumes st.transitions

def rxZeroWidthStep (t : NfaTransition) (caps : List Capture) (n pos : Nat) : Option RxWork :=
  match t with
  | .tEpsilon dst => some (.wVisit dst caps)
  | .tGroupOpen gid dst => some (.wVisit dst (rxCaptureSet caps gid pos (-1) true))
  | .tGroupClose gid dst => some (.wVisit dst (rxCaptureClose caps gid pos))
  | .tAnchor .anchorStart dst => if pos = 0 then some (.wVisit dst caps) else none
  | .tAnchor .anchorEnd dst => if pos ≥ n then some (.wVisit dst caps) else none
  | _ => none

/-- Every zero-width transition's target as work, newest first. -/
def rxZeroWidthTargets : List NfaTransition → List Capture → Nat → Nat → List RxWork →
    List RxWork
  | [], _, _, _, acc => acc
  | t :: rest, caps, n, pos, acc =>
      match rxZeroWidthStep t caps n pos with
      | some w => rxZeroWidthTargets rest caps n pos (w :: acc)
      | none => rxZeroWidthTargets rest caps n pos acc

/-- `rx_add` with at most `fuel` work items. `out` is newest first, and a state
emits its thread after everything it leads to. -/
def rxAddFuel : Nat → RxSim → List RxWork → Nat → List Int → List Thread → Option RxClosed
  | _, _, [], _, seen, out => some ⟨out, seen⟩
  | 0, _, _ :: _, _, _, _ => none
  | fuel + 1, sim, .wVisit s caps :: rest, pos, seen, out => do
      let stamp ← vecGet seen s
      if stamp = pos then rxAddFuel fuel sim rest pos seen out
      else do
        let st ← vecGet sim.tbl s
        let kids := rxZeroWidthTargets st.transitions caps sim.n pos []
        let seen1 ← vecSet seen s pos
        rxAddFuel fuel sim (kids.reverse ++ .wEmit s caps :: rest) pos seen1 out
  | fuel + 1, sim, .wEmit s caps :: rest, pos, seen, out => do
      let st ← vecGet sim.tbl s
      rxAddFuel fuel sim rest pos seen (if rxIsLive st then ⟨s, caps⟩ :: out else out)

/-- At a position every state is expanded at most once. -/
def closureFuel (sim : RxSim) : Nat :=
  (sim.tbl.map fun st => st.transitions.length + 1).sum + 1

/-- The ε-closure of one state. -/
def rxAdd (sim : RxSim) (s : Nat) (caps : List Capture) (pos : Nat) (seen : List Int)
    (out : List Thread) : Option RxClosed :=
  rxAddFuel (closureFuel sim) sim [.wVisit s caps] pos seen out

def rxClassMatches : List CharRange → Char → Bool
  | [], _ => false
  | r :: rest, c =>
      if c.toNat ≥ r.lo.toNat ∧ c.toNat ≤ r.hi.toNat then true else rxClassMatches rest c

def rxConsumeTarget (t : NfaTransition) (c : Char) : Option Nat :=
  match t with
  | .tChar ch dst => if ch = c then some dst else none
  | .tClass ranges neg dst => if rxClassMatches ranges c ≠ neg then some dst else none
  | .tAny dst => if c = '\n' then none else some dst
  | _ => none

/-- Takes every consuming transition that accepts `c`, in order, and closes the
target at `npos`. -/
def rxStepThread (sim : RxSim) : List NfaTransition → List Capture → Char → Nat →
    List Int → List Thread → Option RxClosed
  | [], _, _, _, seen, out => some ⟨out, seen⟩
  | t :: rest, caps, c, npos, seen, out =>
      match rxConsumeTarget t c with
      | some dst => do
          let added ← rxAdd sim dst caps npos seen out
          rxStepThread sim rest caps c npos added.seen added.threads
      | none => rxStepThread sim rest caps c npos seen out

/-- The threads advanced to the next position (newest first), the states they
reached, the best match. -/
structure RxRun where
  next : List Thread
  seen : List Int
  best : Option Match

def rxMatchStart : List Capture → Int
  | [] => 0
  | c :: rest => if c.groupId = 0 then c.start else rxMatchStart rest

/-- Runs `threads` in priority order; the first accepting one ends the run. -/
def rxRun (sim : RxSim) : List Thread → Nat → Option Char → Bool → List Thread →
    List Int → Option Match → Option RxRun
  | [], _, _, _, out, seen, best => some ⟨out, seen, best⟩
  | t :: rest, pos, ch, full, out, seen, best => do
      let st ← vecGet sim.tbl t.stateId
      if st.accept && (pos ≥ sim.n || !full) then
        let caps := rxCaptureClose t.captures 0 pos
        some ⟨out, seen, some ⟨rxMatchStart caps, pos, caps⟩⟩
      else
        match ch with
        | none => rxRun sim rest pos ch full out seen best
        | some c => do
            let moved ← rxStepThread sim st.transitions t.captures c
              (rxNextPos sim.input pos) seen out
            rxRun sim rest pos ch full moved.threads moved.seen best

/-- The threads at a position, before they run: a new one enters at the lowest
priority until some thread has accepted. -/
def rxSeed (sim : RxSim) (fromPos pos : Nat) (full : Bool) (live : List Thread)
    (best : Option Match) (seen : List Int) : Option RxClosed :=
  match best with
  | none =>
      if full && pos > fromPos then some ⟨live.reverse, seen⟩
      else rxAdd sim sim.nfa.start [⟨0, pos, -1⟩] pos seen live.reverse
  | some _ => some ⟨live.reverse, seen⟩

/-- `rx_search_loop` over at most `fuel` positions. -/
def rxSearchLoop : Nat → RxSim → Nat → Nat → Bool → List Thread → Option Match → List Int →
    Option (Option Match)
  | 0, _, _, _, _, _, _, _ => none
  | fuel + 1, sim, fromPos, pos, full, live, best, seen => do
      let seeded ← rxSeed sim fromPos pos full live best seen
      let ch := if pos ≥ sim.n then none else some (rxCpAt sim.input pos)
      let run ← rxRun sim seeded.threads.reverse pos ch full [] seeded.seen best
      if pos ≥ sim.n || (run.next.isEmpty && run.best.isSome) then some run.best
      else
        rxSearchLoop fuel sim fromPos (rxNextPos sim.input pos) full run.next.reverse
          run.best run.seen

/-- Leftmost-first match starting at or after `from_pos`. With `full`, only a
match that spans from `from_pos` to the end is accepted. -/
def rxSearch (sim : RxSim) (fromPos : Nat) (full : Bool) : Option (Option Match) :=
  if fromPos > sim.n then some none
  else rxSearchLoop (sim.n - fromPos + 1) sim fromPos fromPos full [] none
    (vecMake sim.tbl.length (-1))

def simulate (nfa : Nfa) (input : Str) : Option (Option Match) := do
  let sim ← rxSim nfa input
  rxSearch sim 0 false

/-- Compiles a pattern; the outer `none` would be a panic. -/
def compile (pattern : Str) : Option (Except String Nfa) := do
  let parsed ← parsePattern pattern
  match parsed with
  | .error e =>
      some (.error (String.join ["regex parse error at ", toString e.pos, ": ", e.msg]))
  | .ok ast => do
      let nfa ← compileNfa ast
      some (.ok nfa)

/-- Whether the entire string matches. -/
def «matches» (s : Str) (re : Nfa) : Option Bool := do
  let sim ← rxSim re s
  let found ← rxSearch sim 0 true
  some found.isSome

end Kaikai.Regexp
