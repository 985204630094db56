import Mathlib.Data.List.GetD
import Kaikai.RegexpSyntax
import Kaikai.Word64

/-!
Thompson construction of an NFA from a pattern AST. Compilation is a work-stack
machine; `none` models its panics and vector accesses outside a vector.
-/

namespace Kaikai.RegexpEngine

open Kaikai.RegexpSyntax

inductive NfaTransition where
  | tChar (c : Char) (dst : Nat)
  | tClass (ranges : List CharRange) (negated : Bool) (dst : Nat)
  | tAny (dst : Nat)
  | tEpsilon (dst : Nat)
  | tGroupOpen (gid : Int) (dst : Nat)
  | tGroupClose (gid : Int) (dst : Nat)
  | tAnchor (an : Anchor) (dst : Nat)
deriving DecidableEq, Repr

structure NfaState where
  id : Int
  transitions : List NfaTransition
  accept : Bool
deriving DecidableEq, Repr

structure Nfa where
  states : List NfaState
  start : Nat
  numGroups : Int
deriving DecidableEq, Repr

/-- Transitions added so far (newest first), the next state id, the highest group
id seen and the accept state. -/
structure NfaBuilder where
  edges : List (Nat × NfaTransition)
  nextId : Nat
  numGroups : Int
  accept : Int

structure NfaFrag where
  start : Nat
  accept : Nat

def vecMake {α : Type} (n : Nat) (x : α) : List α := List.replicate n x

def vecGet {α : Type} (v : List α) (i : Nat) : Option α := v[i]?

def vecSet {α : Type} (v : List α) (i : Nat) (x : α) : Option (List α) :=
  if i < v.length then some (v.set i x) else none

def nbFresh (b : NfaBuilder) : NfaBuilder := { b with nextId := b.nextId + 1 }

def nbAddTransition (b : NfaBuilder) (id : Nat) (t : NfaTransition) : NfaBuilder :=
  { b with edges := (id, t) :: b.edges }

/-- `edges` is newest first, so consing leaves each bucket oldest first. -/
def nbFill : List (Nat × NfaTransition) → List (List NfaTransition) →
    Option (List (List NfaTransition))
  | [], buckets => some buckets
  | e :: rest, buckets => do
      let bucket ← vecGet buckets e.1
      let buckets1 ← vecSet buckets e.1 (e.2 :: bucket)
      nbFill rest buckets1

/-- The states below `n`, from the highest down. -/
def nbCollect : Nat → List (List NfaTransition) → Int → List NfaState →
    Option (List NfaState)
  | 0, _, _, acc => some acc
  | id + 1, buckets, accept, acc => do
      let transitions ← vecGet buckets id
      nbCollect id buckets accept (⟨id, transitions, (id : Int) = accept⟩ :: acc)

def nbStates (b : NfaBuilder) : Option (List NfaState) := do
  let buckets ← nbFill b.edges (vecMake b.nextId [])
  nbCollect b.nextId buckets b.accept []

inductive CTask where
  | cVisit (a : RxAst)
  | cCatNext (xs : List RxAst)
  | cAltNext (xs : List RxAst) (os oe : Nat)
  | cAltWire (os oe : Nat)
  | cStarBegin (x : RxAst)
  | cStarEnd (os oe : Nat)
  | cOptBegin (x : RxAst)
  | cOptEnd (os oe : Nat)
  | cPlusEnd
  | cGroupEnd (gid : Int) (os oe : Nat)
  | cCopies (x : RxAst) (n : Int) (optional : Bool)
  | cCopiesAfter (x : RxAst) (n : Int) (optional : Bool)
  | cRepeatTail (x : RxAst) (hi : Option Int) (lo : Int)
  | cRepeatEnd (s1 e1 : Nat)
  | cWire (s e : Nat)

def nbEps (b : NfaBuilder) (src dst : Nat) : NfaBuilder := nbAddTransition b src (.tEpsilon dst)

def nbFresh2 (b : NfaBuilder) : NfaBuilder := nbFresh (nbFresh b)

/-- The machine state after one task. -/
structure CSt where
  b : NfaBuilder
  tasks : List CTask
  res : List NfaFrag

/-- A node that is one transition between two fresh states. -/
def csLeaf (b : NfaBuilder) (t : NfaTransition) (rest : List CTask) (res : List NfaFrag) : CSt :=
  ⟨nbAddTransition (nbFresh2 b) b.nextId t, rest, ⟨b.nextId, b.nextId + 1⟩ :: res⟩

/-- The empty sequence: a single state that is both entry and accept. -/
def csLeafEmpty (b : NfaBuilder) (rest : List CTask) (res : List NfaFrag) : CSt :=
  ⟨nbFresh b, rest, ⟨b.nextId, b.nextId⟩ :: res⟩

def csConcat (b : NfaBuilder) (xs : List RxAst) (rest : List CTask) (res : List NfaFrag) : CSt :=
  match xs with
  | [] => csLeafEmpty b rest res
  | first :: more => ⟨b, .cVisit first :: .cCatNext more :: rest, res⟩

def csVisit (b : NfaBuilder) (a : RxAst) (rest : List CTask) (res : List NfaFrag) : CSt :=
  match a with
  | .rxChar c => csLeaf b (.tChar c (b.nextId + 1)) rest res
  | .rxAny => csLeaf b (.tAny (b.nextId + 1)) rest res
  | .rxClass rs neg => csLeaf b (.tClass rs neg (b.nextId + 1)) rest res
  | .rxAnchor an => csLeaf b (.tAnchor an (b.nextId + 1)) rest res
  | .rxConcat xs => csConcat b xs rest res
  | .rxAlt xs => ⟨nbFresh2 b, .cAltNext xs b.nextId (b.nextId + 1) :: rest, res⟩
  | .rxStar x => ⟨b, .cStarBegin x :: rest, res⟩
  | .rxPlus x => ⟨b, .cVisit x :: .cPlusEnd :: rest, res⟩
  | .rxOpt x => ⟨b, .cOptBegin x :: rest, res⟩
  | .rxRepeat x lo hi => ⟨b, .cCopies x lo false :: .cRepeatTail x hi lo :: rest, res⟩
  | .rxGroup id inner =>
      let top := if id > b.numGroups then id else b.numGroups
      ⟨nbFresh2 { b with numGroups := top },
        .cVisit inner :: .cGroupEnd id b.nextId (b.nextId + 1) :: rest, res⟩

def csCatNext (b : NfaBuilder) (xs : List RxAst) (rest : List CTask) (res : List NfaFrag) :
    Option CSt :=
  match xs with
  | [] => some ⟨b, rest, res⟩
  | next :: more =>
      match res with
      | f :: below =>
          some ⟨b, .cVisit next :: .cWire f.start f.accept :: .cCatNext more :: rest, below⟩
      | [] => none

def csAltNext (b : NfaBuilder) (xs : List RxAst) (os oe : Nat) (rest : List CTask)
    (res : List NfaFrag) : CSt :=
  match xs with
  | [] => ⟨b, rest, ⟨os, oe⟩ :: res⟩
  | first :: more => ⟨b, .cVisit first :: .cAltWire os oe :: .cAltNext more os oe :: rest, res⟩

def csAltWire (b : NfaBuilder) (os oe : Nat) (rest : List CTask) (res : List NfaFrag) :
    Option CSt :=
  match res with
  | f :: more => some ⟨nbEps (nbEps b os f.start) f.accept oe, rest, more⟩
  | [] => none

def csOpenStar (b : NfaBuilder) (x : RxAst) (rest : List CTask) (res : List NfaFrag) : CSt :=
  ⟨nbFresh2 b, .cVisit x :: .cStarEnd b.nextId (b.nextId + 1) :: rest, res⟩

def csOpenOpt (b : NfaBuilder) (x : RxAst) (rest : List CTask) (res : List NfaFrag) : CSt :=
  ⟨nbFresh2 b, .cVisit x :: .cOptEnd b.nextId (b.nextId + 1) :: rest, res⟩

def csStarEnd (b : NfaBuilder) (os oe : Nat) (rest : List CTask) (res : List NfaFrag) :
    Option CSt :=
  match res with
  | f :: more =>
      some ⟨nbEps (nbEps (nbEps (nbEps b os f.start) os oe) f.accept f.start) f.accept oe, rest,
        ⟨os, oe⟩ :: more⟩
  | [] => none

def csOptEnd (b : NfaBuilder) (os oe : Nat) (rest : List CTask) (res : List NfaFrag) :
    Option CSt :=
  match res with
  | f :: more =>
      some ⟨nbEps (nbEps (nbEps b os f.start) os oe) f.accept oe, rest, ⟨os, oe⟩ :: more⟩
  | [] => none

def csPlusEnd (b : NfaBuilder) (rest : List CTask) (res : List NfaFrag) : Option CSt :=
  match res with
  | f :: more => some ⟨nbEps b f.accept f.start, rest, f :: more⟩
  | [] => none

def csGroupEnd (b : NfaBuilder) (gid : Int) (os oe : Nat) (rest : List CTask)
    (res : List NfaFrag) : Option CSt :=
  match res with
  | f :: more =>
      some ⟨nbAddTransition (nbAddTransition b os (.tGroupOpen gid f.start)) f.accept
        (.tGroupClose gid oe), rest, ⟨os, oe⟩ :: more⟩
  | [] => none

def csCopies (b : NfaBuilder) (x : RxAst) (n : Int) (optional : Bool) (rest : List CTask)
    (res : List NfaFrag) : CSt :=
  if n ≤ 0 then csLeafEmpty b rest res
  else
    let one := if optional then .cOptBegin x else .cVisit x
    ⟨b, one :: .cCopiesAfter x n optional :: rest, res⟩

def csCopiesAfter (b : NfaBuilder) (x : RxAst) (n : Int) (optional : Bool) (rest : List CTask)
    (res : List NfaFrag) : Option CSt :=
  match res with
  | f :: more =>
      if n = 1 then some ⟨b, rest, f :: more⟩
      else some ⟨b, .cCopies x (n - 1) optional :: .cWire f.start f.accept :: rest, more⟩
  | [] => none

def csRepeatTail (b : NfaBuilder) (x : RxAst) (hiOpt : Option Int) (lo : Int)
    (rest : List CTask) (res : List NfaFrag) : Option CSt :=
  match res with
  | f :: more =>
      let tail := match hiOpt with
        | none => .cStarBegin x
        | some hi => .cCopies x (Word64.sub hi lo) true
      some ⟨b, tail :: .cRepeatEnd f.start f.accept :: rest, more⟩
  | [] => none

def csRepeatEnd (b : NfaBuilder) (s1 e1 : Nat) (rest : List CTask) (res : List NfaFrag) :
    Option CSt :=
  match res with
  | f :: more => some ⟨nbEps b e1 f.start, rest, ⟨s1, f.accept⟩ :: more⟩
  | [] => none

def csWire (b : NfaBuilder) (s e : Nat) (rest : List CTask) (res : List NfaFrag) : Option CSt :=
  match res with
  | f :: more => some ⟨nbEps b e f.start, rest, ⟨s, f.accept⟩ :: more⟩
  | [] => none

def csStep (b : NfaBuilder) (t : CTask) (rest : List CTask) (res : List NfaFrag) : Option CSt :=
  match t with
  | .cVisit a => some (csVisit b a rest res)
  | .cCatNext xs => csCatNext b xs rest res
  | .cAltNext xs os oe => some (csAltNext b xs os oe rest res)
  | .cAltWire os oe => csAltWire b os oe rest res
  | .cStarBegin x => some (csOpenStar b x rest res)
  | .cStarEnd os oe => csStarEnd b os oe rest res
  | .cOptBegin x => some (csOpenOpt b x rest res)
  | .cOptEnd os oe => csOptEnd b os oe rest res
  | .cPlusEnd => csPlusEnd b rest res
  | .cGroupEnd gid os oe => csGroupEnd b gid os oe rest res
  | .cCopies x n optional => some (csCopies b x n optional rest res)
  | .cCopiesAfter x n optional => csCopiesAfter b x n optional rest res
  | .cRepeatTail x hi lo => csRepeatTail b x hi lo rest res
  | .cRepeatEnd s1 e1 => csRepeatEnd b s1 e1 rest res
  | .cWire s e => csWire b s e rest res

/-- `compile_run` with at most `fuel` tasks. -/
def compileRun : Nat → NfaBuilder → List CTask → List NfaFrag → Option (NfaBuilder × NfaFrag)
  | _, b, [], res =>
      match res with
      | f :: _ => some (b, f)
      | [] => none
  | 0, _, _ :: _, _ => none
  | fuel + 1, b, t :: rest, res => do
      let st ← csStep b t rest res
      compileRun fuel st.b st.tasks st.res

/-- The number of tasks that `n` copies take, for one copy taking `one`. -/
def copiesTasks (one : Nat) : Nat → Nat
  | 0 => 1
  | 1 => one + 2
  | n + 2 => one + copiesTasks one (n + 1) + 3

mutual

/-- The number of tasks that compiling a node takes. -/
def visitTasks : RxAst → Nat
  | .rxConcat xs => concatTasks xs
  | .rxAlt xs => altTasks xs + 1
  | .rxStar x => visitTasks x + 3
  | .rxPlus x => visitTasks x + 2
  | .rxOpt x => visitTasks x + 3
  | .rxRepeat x lo hi =>
      copiesTasks (visitTasks x) lo.toNat +
        (match hi with
          | none => visitTasks x + 2
          | some h => copiesTasks (visitTasks x + 2) (Word64.sub h lo).toNat) + 3
  | .rxGroup _ x => visitTasks x + 2
  | _ => 1

def concatTasks : List RxAst → Nat
  | [] => 1
  | x :: xs => visitTasks x + catTasks xs + 1

def catTasks : List RxAst → Nat
  | [] => 1
  | x :: xs => visitTasks x + catTasks xs + 2

def altTasks : List RxAst → Nat
  | [] => 1
  | x :: xs => visitTasks x + altTasks xs + 2

end

def compileFrag (b : NfaBuilder) (a : RxAst) : Option (NfaBuilder × NfaFrag) :=
  compileRun (visitTasks a) b [.cVisit a] []

/-- Builds an NFA from an AST; the accept state of the root fragment becomes its
accept state. -/
def compileNfa (ast : RxAst) : Option Nfa := do
  let r ← compileFrag ⟨[], 0, 0, -1⟩ ast
  let states ← nbStates { r.1 with accept := r.2.accept }
  some ⟨states, r.2.start, r.1.numGroups + 1⟩

abbrev Built := NfaBuilder × NfaFrag

def lowerLeaf (t : Nat → NfaTransition) (b : NfaBuilder) : Built :=
  (nbAddTransition (nbFresh2 b) b.nextId (t (b.nextId + 1)), ⟨b.nextId, b.nextId + 1⟩)

def lowerEmpty (b : NfaBuilder) : Built := (nbFresh b, ⟨b.nextId, b.nextId⟩)

/-- The first fragment, already built, followed by the second. -/
def lowerWire (f : NfaFrag) (second : NfaBuilder → Built) (b : NfaBuilder) : Built :=
  let r := second b
  (nbEps r.1 f.accept r.2.start, ⟨f.start, r.2.accept⟩)

def lowerStar (body : NfaBuilder → Built) (b : NfaBuilder) : Built :=
  let os := b.nextId
  let oe := b.nextId + 1
  let r := body (nbFresh2 b)
  (nbEps (nbEps (nbEps (nbEps r.1 os r.2.start) os oe) r.2.accept r.2.start) r.2.accept oe,
    ⟨os, oe⟩)

def lowerOpt (body : NfaBuilder → Built) (b : NfaBuilder) : Built :=
  let os := b.nextId
  let oe := b.nextId + 1
  let r := body (nbFresh2 b)
  (nbEps (nbEps (nbEps r.1 os r.2.start) os oe) r.2.accept oe, ⟨os, oe⟩)

def lowerPlus (body : NfaBuilder → Built) (b : NfaBuilder) : Built :=
  let r := body b
  (nbEps r.1 r.2.accept r.2.start, r.2)

def lowerGroup (gid : Int) (body : NfaBuilder → Built) (b : NfaBuilder) : Built :=
  let os := b.nextId
  let oe := b.nextId + 1
  let top := if gid > b.numGroups then gid else b.numGroups
  let r := body (nbFresh2 { b with numGroups := top })
  (nbAddTransition (nbAddTransition r.1 os (.tGroupOpen gid r.2.start)) r.2.accept
    (.tGroupClose gid oe), ⟨os, oe⟩)

/-- `n` copies of one fragment in a row. -/
def lowerCopies (one : NfaBuilder → Built) : Nat → NfaBuilder → Built
  | 0, b => lowerEmpty b
  | 1, b => one b
  | n + 2, b => lowerWire (one b).2 (lowerCopies one (n + 1)) (one b).1

mutual

/-- The recursive descent whose state numbering the machine reproduces. -/
def lower : RxAst → NfaBuilder → Built
  | .rxChar c, b => lowerLeaf (.tChar c) b
  | .rxAny, b => lowerLeaf .tAny b
  | .rxClass rs neg, b => lowerLeaf (.tClass rs neg) b
  | .rxAnchor an, b => lowerLeaf (.tAnchor an) b
  | .rxConcat xs, b => lowerConcat xs b
  | .rxAlt xs, b =>
      (lowerAlts xs b.nextId (b.nextId + 1) (nbFresh2 b), ⟨b.nextId, b.nextId + 1⟩)
  | .rxStar x, b => lowerStar (lower x) b
  | .rxPlus x, b => lowerPlus (lower x) b
  | .rxOpt x, b => lowerOpt (lower x) b
  | .rxRepeat x lo hi, b =>
      let r := lowerCopies (lower x) lo.toNat b
      lowerWire r.2
        (match hi with
          | none => lowerStar (lower x)
          | some h => lowerCopies (lowerOpt (lower x)) (Word64.sub h lo).toNat) r.1
  | .rxGroup id x, b => lowerGroup id (lower x) b

def lowerConcat : List RxAst → NfaBuilder → Built
  | [], b => lowerEmpty b
  | x :: xs, b => lowerCat xs (lower x b).2 (lower x b).1

/-- The rest of a sequence behind the fragment built so far. -/
def lowerCat : List RxAst → NfaFrag → NfaBuilder → Built
  | [], f, b => (b, f)
  | x :: xs, f, b => lowerCat xs (lowerWire f (lower x) b).2 (lowerWire f (lower x) b).1

/-- The alternatives, each wired between the two outer states. -/
def lowerAlts : List RxAst → Nat → Nat → NfaBuilder → NfaBuilder
  | [], _, _, b => b
  | x :: xs, os, oe, b =>
      let r := lower x b
      lowerAlts xs os oe (nbEps (nbEps r.1 os r.2.start) r.2.accept oe)

end

theorem compileRun_step {fuel : Nat} {b : NfaBuilder} {t : CTask} {rest : List CTask}
    {res : List NfaFrag} {st : CSt} (h : csStep b t rest res = some st) :
    compileRun (fuel + 1) b (t :: rest) res = compileRun fuel st.b st.tasks st.res := by
  rw [compileRun, h]
  rfl

/-- The tasks of a node leave its fragment on the result stack. -/
def Compiles (tasks : Nat) (t : CTask) (body : NfaBuilder → Built) : Prop :=
  ∀ fuel b rest res, compileRun (tasks + fuel) b (t :: rest) res =
    compileRun fuel (body b).1 rest ((body b).2 :: res)

theorem compiles_starBegin {x : RxAst} {k : Nat} {body : NfaBuilder → Built}
    (h : Compiles k (.cVisit x) body) : Compiles (k + 2) (.cStarBegin x) (lowerStar body) := by
  intro fuel b rest res
  rw [show k + 2 + fuel = k + (fuel + 1) + 1 by omega, compileRun_step rfl]
  change compileRun (k + (fuel + 1)) (nbFresh2 b) (_ :: _) _ = _
  rw [h, compileRun_step rfl]
  rfl

theorem compiles_optBegin {x : RxAst} {k : Nat} {body : NfaBuilder → Built}
    (h : Compiles k (.cVisit x) body) : Compiles (k + 2) (.cOptBegin x) (lowerOpt body) := by
  intro fuel b rest res
  rw [show k + 2 + fuel = k + (fuel + 1) + 1 by omega, compileRun_step rfl]
  change compileRun (k + (fuel + 1)) (nbFresh2 b) (_ :: _) _ = _
  rw [h, compileRun_step rfl]
  rfl

theorem compiles_copies {x : RxAst} {optional : Bool} {k : Nat} {body : NfaBuilder → Built}
    (h : Compiles k (if optional then .cOptBegin x else .cVisit x) body) (n : Nat) :
    ∀ m : Int, m.toNat = n → Compiles (copiesTasks k n) (.cCopies x m optional)
      (lowerCopies body n) := by
  induction n using copiesTasks.induct with
  | case1 =>
      intro m hm fuel b rest res
      have hstep : csStep b (.cCopies x m optional) rest res = some (csLeafEmpty b rest res) := by
        rw [csStep, csCopies, if_pos (by omega)]
      rw [copiesTasks, show 1 + fuel = fuel + 1 by omega, compileRun_step hstep]
      rfl
  | case2 =>
      intro m hm fuel b rest res
      have hstep : csStep b (.cCopies x m optional) rest res =
          some ⟨b, (if optional then .cOptBegin x else .cVisit x) ::
            .cCopiesAfter x m optional :: rest, res⟩ := by
        rw [csStep, csCopies, if_neg (by omega)]
      have hafter : ∀ b' f, csStep b' (.cCopiesAfter x m optional) rest (f :: res) =
          some ⟨b', rest, f :: res⟩ := by
        intro b' f
        rw [csStep, csCopiesAfter, if_pos (by omega)]
      rw [copiesTasks, show k + 2 + fuel = k + (fuel + 1) + 1 by omega, compileRun_step hstep]
      simp only
      rw [h, compileRun_step (hafter _ _)]
      rfl
  | case3 n ih =>
      intro m hm fuel b rest res
      have hstep : csStep b (.cCopies x m optional) rest res =
          some ⟨b, (if optional then .cOptBegin x else .cVisit x) ::
            .cCopiesAfter x m optional :: rest, res⟩ := by
        rw [csStep, csCopies, if_neg (by omega)]
      have hafter : ∀ b' f, csStep b' (.cCopiesAfter x m optional) rest (f :: res) =
          some ⟨b', .cCopies x (m - 1) optional :: .cWire f.start f.accept :: rest, res⟩ := by
        intro b' f
        rw [csStep, csCopiesAfter, if_neg (by omega)]
      rw [copiesTasks, show k + copiesTasks k (n + 1) + 3 + fuel =
        k + (copiesTasks k (n + 1) + (fuel + 1) + 1) + 1 by omega, compileRun_step hstep]
      simp only
      rw [h, compileRun_step (hafter _ _)]
      simp only
      rw [ih (m - 1) (by omega), compileRun_step rfl]
      rfl

theorem compiles_leaf {a : RxAst} {t : Nat → NfaTransition}
    (h : ∀ b rest res, csVisit b a rest res = csLeaf b (t (b.nextId + 1)) rest res) :
    Compiles 1 (.cVisit a) (lowerLeaf t) := by
  intro fuel b rest res
  have hstep : csStep b (.cVisit a) rest res = some (csLeaf b (t (b.nextId + 1)) rest res) :=
    congrArg some (h b rest res)
  rw [Nat.add_comm, compileRun_step hstep]
  rfl

theorem compiles_repeat {x : RxAst} {k : Nat} {body : NfaBuilder → Built}
    (h : Compiles k (.cVisit x) body) (lo : Int) (hi : Option Int) :
    Compiles (copiesTasks k lo.toNat + (match hi with
        | none => k + 2
        | some h => copiesTasks (k + 2) (Word64.sub h lo).toNat) + 3)
      (.cVisit (.rxRepeat x lo hi))
      (fun b => lowerWire (lowerCopies body lo.toNat b).2 (match hi with
        | none => lowerStar body
        | some h => lowerCopies (lowerOpt body) (Word64.sub h lo).toNat)
        (lowerCopies body lo.toNat b).1) := by
  intro fuel b rest res
  have hcopies := @compiles_copies x false k _ h lo.toNat lo rfl
  have htail : Compiles (match hi with
        | none => k + 2
        | some h => copiesTasks (k + 2) (Word64.sub h lo).toNat)
      (match hi with
        | none => .cStarBegin x
        | some h => .cCopies x (Word64.sub h lo) true)
      (match hi with
        | none => lowerStar body
        | some h => lowerCopies (lowerOpt body) (Word64.sub h lo).toNat) := by
    cases hi with
    | none => exact compiles_starBegin h
    | some hi =>
        exact @compiles_copies _ true _ _ (compiles_optBegin h) _ _ rfl
  generalize copiesTasks k lo.toNat = k1 at hcopies ⊢
  generalize (match hi with
    | none => k + 2
    | some h => copiesTasks (k + 2) (Word64.sub h lo).toNat) = k2 at htail ⊢
  rw [show k1 + k2 + 3 + fuel = k1 + (k2 + (fuel + 1) + 1) + 1 by omega, compileRun_step rfl]
  change compileRun (k1 + (k2 + (fuel + 1) + 1)) b
    (.cCopies x lo false :: .cRepeatTail x hi lo :: rest) res = _
  rw [hcopies, compileRun_step rfl]
  simp only
  rw [htail, compileRun_step rfl]
  rfl

theorem compiles_group {x : RxAst} {k : Nat} {body : NfaBuilder → Built}
    (h : Compiles k (.cVisit x) body) (gid : Int) :
    Compiles (k + 2) (.cVisit (.rxGroup gid x)) (lowerGroup gid body) := by
  intro fuel b rest res
  rw [show k + 2 + fuel = k + (fuel + 1) + 1 by omega, compileRun_step rfl]
  change compileRun (k + (fuel + 1)) (nbFresh2 _) (_ :: _) _ = _
  rw [h, compileRun_step rfl]
  rfl

theorem compiles_plus {x : RxAst} {k : Nat} {body : NfaBuilder → Built}
    (h : Compiles k (.cVisit x) body) :
    Compiles (k + 2) (.cVisit (.rxPlus x)) (lowerPlus body) := by
  intro fuel b rest res
  rw [show k + 2 + fuel = k + (fuel + 1) + 1 by omega, compileRun_step rfl]
  change compileRun (k + (fuel + 1)) b (_ :: _) _ = _
  rw [h, compileRun_step rfl]
  rfl

mutual

theorem compiles_visit : ∀ a : RxAst, Compiles (visitTasks a) (.cVisit a) (lower a)
  | .rxChar c => compiles_leaf fun _ _ _ => rfl
  | .rxAny => compiles_leaf fun _ _ _ => rfl
  | .rxClass rs neg => compiles_leaf fun _ _ _ => rfl
  | .rxAnchor an => compiles_leaf fun _ _ _ => rfl
  | .rxConcat [] => by
      intro fuel b rest res
      rw [visitTasks, concatTasks, Nat.add_comm, compileRun_step rfl]
      rfl
  | .rxConcat (x :: xs) => by
      intro fuel b rest res
      rw [visitTasks, concatTasks,
        show visitTasks x + catTasks xs + 1 + fuel = visitTasks x + (catTasks xs + fuel) + 1 by omega,
        compileRun_step rfl]
      change compileRun (visitTasks x + (catTasks xs + fuel)) b (_ :: _) res = _
      rw [compiles_visit x, compiles_cat xs]
      rfl
  | .rxAlt xs => by
      intro fuel b rest res
      rw [visitTasks, show altTasks xs + 1 + fuel = altTasks xs + fuel + 1 by omega,
        compileRun_step rfl]
      exact compiles_alts xs _ _ fuel _ rest res
  | .rxStar x => by
      intro fuel b rest res
      rw [visitTasks, show visitTasks x + 3 + fuel = visitTasks x + 2 + fuel + 1 by omega,
        compileRun_step rfl]
      exact compiles_starBegin (compiles_visit x) fuel b rest res
  | .rxPlus x => compiles_plus (compiles_visit x)
  | .rxOpt x => by
      intro fuel b rest res
      rw [visitTasks, show visitTasks x + 3 + fuel = visitTasks x + 2 + fuel + 1 by omega,
        compileRun_step rfl]
      exact compiles_optBegin (compiles_visit x) fuel b rest res
  | .rxRepeat x lo hi => compiles_repeat (compiles_visit x) lo hi
  | .rxGroup id x => compiles_group (compiles_visit x) id

theorem compiles_cat : ∀ (xs : List RxAst) (fuel : Nat) (b : NfaBuilder) (f : NfaFrag)
    (rest : List CTask) (res : List NfaFrag),
    compileRun (catTasks xs + fuel) b (.cCatNext xs :: rest) (f :: res) =
      compileRun fuel (lowerCat xs f b).1 rest ((lowerCat xs f b).2 :: res)
  | [], fuel, b, f, rest, res => by
      rw [catTasks, Nat.add_comm, compileRun_step rfl]
      rfl
  | x :: xs, fuel, b, f, rest, res => by
      rw [catTasks, show visitTasks x + catTasks xs + 2 + fuel =
        visitTasks x + (catTasks xs + fuel + 1) + 1 by omega, compileRun_step rfl]
      change compileRun (visitTasks x + (catTasks xs + fuel + 1)) b (_ :: _) res = _
      rw [compiles_visit x, compileRun_step rfl]
      change compileRun (catTasks xs + fuel) _ (_ :: _) (_ :: _) = _
      rw [compiles_cat xs]
      rfl

theorem compiles_alts : ∀ (xs : List RxAst) (os oe fuel : Nat) (b : NfaBuilder)
    (rest : List CTask) (res : List NfaFrag),
    compileRun (altTasks xs + fuel) b (.cAltNext xs os oe :: rest) res =
      compileRun fuel (lowerAlts xs os oe b) rest (⟨os, oe⟩ :: res)
  | [], os, oe, fuel, b, rest, res => by
      rw [altTasks, Nat.add_comm, compileRun_step rfl]
      rfl
  | x :: xs, os, oe, fuel, b, rest, res => by
      rw [altTasks, show visitTasks x + altTasks xs + 2 + fuel =
        visitTasks x + (altTasks xs + fuel + 1) + 1 by omega, compileRun_step rfl]
      change compileRun (visitTasks x + (altTasks xs + fuel + 1)) b (_ :: _) res = _
      rw [compiles_visit x, compileRun_step rfl]
      change compileRun (altTasks xs + fuel) _ (_ :: _) res = _
      rw [compiles_alts xs]
      rfl

end

theorem compileFrag_eq (b : NfaBuilder) (a : RxAst) : compileFrag b a = some (lower a b) := by
  have h := compiles_visit a 0 b [] []
  rw [Nat.add_zero] at h
  rw [compileFrag, h, compileRun]

/-- The transitions of a state, oldest first. -/
def outEdges (edges : List (Nat × NfaTransition)) (p : Nat) : List NfaTransition :=
  ((edges.filter (·.1 = p)).map (·.2)).reverse

theorem nbFill_spec (edges : List (Nat × NfaTransition)) :
    ∀ buckets : List (List NfaTransition), (∀ e ∈ edges, e.1 < buckets.length) →
      ∃ out, nbFill edges buckets = some out ∧ out.length = buckets.length ∧
        ∀ p, out[p]? = buckets[p]?.map (outEdges edges p ++ ·) := by
  induction edges with
  | nil =>
      intro buckets _
      refine ⟨buckets, rfl, rfl, fun p => ?_⟩
      cases buckets[p]? <;> rfl
  | cons e rest ih =>
      intro buckets hlt
      have he := hlt e List.mem_cons_self
      obtain ⟨out, hrun, hlen, hout⟩ := ih (buckets.set e.1 (e.2 :: buckets[e.1]))
        (fun e' he' => by rw [List.length_set]; exact hlt e' (List.mem_cons_of_mem e he'))
      rw [List.length_set] at hlen
      refine ⟨out, ?_, hlen, fun p => ?_⟩
      · rw [nbFill, vecGet, List.getElem?_eq_getElem he, Option.bind_eq_bind, Option.bind_some,
          vecSet, if_pos he]
        exact hrun
      · rw [hout p]
        by_cases hp : e.1 = p
        · subst hp
          rw [List.getElem?_set_self he, List.getElem?_eq_getElem he]
          simp [outEdges]
        · rw [List.getElem?_set_ne hp]
          simp [outEdges, hp]

theorem nbCollect_spec (buckets : List (List NfaTransition)) (accept : Int) (n : Nat) :
    n ≤ buckets.length → ∀ acc, nbCollect n buckets accept acc =
      some ((List.range n).map (fun p => ⟨p, buckets.getD p [], (p : Int) = accept⟩) ++ acc) := by
  induction n with
  | zero => exact fun _ acc => rfl
  | succ n ih =>
      intro hn acc
      rw [nbCollect, vecGet, List.getElem?_eq_getElem (by omega), Option.bind_eq_bind,
        Option.bind_some, ih (by omega), List.range_succ, List.map_append, List.append_assoc,
        List.map_singleton, List.singleton_append, List.getD_eq_getElem _ _ (show n < buckets.length from hn)]

theorem nbStates_spec (b : NfaBuilder) (h : ∀ e ∈ b.edges, e.1 < b.nextId) :
    nbStates b = some ((List.range b.nextId).map fun p =>
      ⟨p, outEdges b.edges p, (p : Int) = b.accept⟩) := by
  obtain ⟨out, hrun, hlen, hout⟩ := nbFill_spec b.edges (vecMake b.nextId [])
    (by simpa [vecMake] using h)
  rw [vecMake, List.length_replicate] at hlen
  rw [nbStates, hrun, Option.bind_eq_bind, Option.bind_some, nbCollect_spec _ _ _ hlen.ge,
    List.append_nil]
  congr 1
  apply List.map_congr_left
  intro p hp
  have hp' := List.mem_range.1 hp
  rw [List.getD_eq_getElem?_getD, hout p, vecMake, List.getElem?_replicate, if_pos hp']
  simp

end Kaikai.RegexpEngine
