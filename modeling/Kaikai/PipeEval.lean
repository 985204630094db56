import Kaikai.PipeFusion
import Mathlib.Control.Monad.Basic

namespace Kaikai.PipeFusion

open Kaikai.Word64 (Word)

/-- An element or an accumulator. -/
inductive Datum (A : Type) where
  | int (n : Word)
  | other (a : A)

variable {σ A : Type}

/-- A run over a state; `none` does not return. -/
abbrev Comp (σ : Type) := StateT σ Option

inductive Val (σ A : Type) where
  | datum (d : Datum A)
  | list (xs : List (Datum A))
  | container (xs : List (Datum A))
  | vec (xs : List (Datum A))
  | fn1 (f : Datum A → Comp σ (Datum A))
  | fn2 (f : Datum A → Datum A → Comp σ (Datum A))
  | core (cf : CoreFn)
  | bool (b : Bool)

/-- The values of a role; a closure whose row has no label is a function. -/
abbrev Role.Value (σ A : Type) : Role → Type
  | .int => Word
  | .datum => Datum A
  | .list => List (Datum A)
  | .container => List (Datum A)
  | .stage => Datum A → Datum A
  | .mutStage => Datum A → Comp σ (Datum A)
  | .pureCombine => Datum A → Datum A → Datum A
  | .combine => Datum A → Datum A → Comp σ (Datum A)

def Role.val : (r : Role) → r.Value σ A → Val σ A
  | .int, n => .datum (.int n)
  | .datum, d => .datum d
  | .list, xs => .list xs
  | .container, xs => .container xs
  | .stage, f => .fn1 fun d => pure (f d)
  | .mutStage, f => .fn1 f
  | .pureCombine, f => .fn2 fun a b => pure (f a b)
  | .combine, f => .fn2 f

/-- What the expressions of a program do: a name or a lambda is a value, any other one is
a run; a container is what its own `foldl` walks. -/
structure Meaning (σ A : Type) where
  constant : (r : Role) → Kind → Nat → r.Value σ A
  run : (r : Role) → Nat → Comp σ (r.Value σ A)
  add : Datum A → Datum A → Datum A
  mul : Datum A → Datum A → Datum A
  zero : Datum A
  one : Datum A

abbrev Env (σ A : Type) := Local → Option (Val σ A)

/-- Whether a walk along a range is past its end. -/
def rangeEnded (start stop step : Word) : Bool :=
  if step.1 > 0 then start.1 > stop.1 else start.1 < stop.1

/-- The elements of a range, in order; `none` is a walk longer than `fuel`. -/
def rangeList (stop step : Word) : Nat → Word → Option (List Word)
  | 0, _ => none
  | fuel + 1, start =>
      if rangeEnded start stop step then some []
      else (rangeList stop step fuel (.ofInt (start.1 + step.1))).map (start :: ·)

/-- `map_foldl`: one pass over a list. -/
def mapFoldl (f : Datum A → Comp σ (Datum A)) (c : Datum A → Datum A → Comp σ (Datum A)) :
    List (Datum A) → Datum A → Comp σ (Datum A)
  | [], acc => pure acc
  | h :: t, acc => do
      let y ← f h
      let acc' ← c acc y
      mapFoldl f c t acc'

/-- The counting loops over `start, start + step, .. stop` with a positive step. -/
def rangeMapFoldl (f : Datum A → Comp σ (Datum A)) {β : Type} (c : β → Datum A → Comp σ β)
    (stop step : Word) : Nat → Word → β → Comp σ β
  | 0, _, _ => failure
  | fuel + 1, start, acc =>
      if start.1 > stop.1 then pure acc
      else do
        let y ← f (.int start)
        let acc' ← c acc y
        rangeMapFoldl f c stop step fuel (.ofInt (start.1 + step.1)) acc'

def rangeLength (start stop : Word) : Word :=
  if start.1 > stop.1 then .ofInt 0 else .ofInt (stop.1 - start.1 + 1)

def rangeStepLength (stop step : Word) : Nat → Word → Word → Option Word
  | 0, _, _ => none
  | fuel + 1, start, n =>
      if start.1 > stop.1 then some n
      else rangeStepLength stop step fuel (.ofInt (start.1 + step.1)) (.ofInt (n.1 + 1))

def oneStep : Word := .ofInt 1

def pureOp (f : Datum A → Datum A → Datum A) (a b : Datum A) : Comp σ (Datum A) := pure (f a b)

/-- A call of a library function. -/
def callCore (M : Meaning σ A) (fuel : Nat) : CoreFn → List (Val σ A) → Comp σ (Val σ A)
  | .pipeMap, [.list xs, .fn1 f] => .list <$> xs.mapM f
  | .foldl, [.list xs, .datum i, .fn2 c] => .datum <$> xs.foldlM c i
  | .protoFoldl, [.container xs, .datum i, .fn2 c] => .datum <$> xs.foldlM c i
  | .sum, [.list xs] => pure (.datum (xs.foldl M.add M.zero))
  | .product, [.list xs] => pure (.datum (xs.foldl M.mul M.one))
  | .length, [.list xs] => pure (.datum (.int (.ofInt xs.length)))
  | .vecFromList, [.list xs] => pure (.vec xs)
  | .mapFoldl, [.list xs, .fn1 f, .datum i, .fn2 c] => .datum <$> mapFoldl f c xs i
  | .mapSum, [.list xs, .fn1 f] => .datum <$> mapFoldl f (pureOp M.add) xs M.zero
  | .mapProduct, [.list xs, .fn1 f] => .datum <$> mapFoldl f (pureOp M.mul) xs M.one
  | .rangeMapFoldl, [.datum (.int a), .datum (.int b), .fn1 f, .datum i, .fn2 c] =>
      .datum <$> rangeMapFoldl f c b oneStep fuel a i
  | .rangeMapSum, [.datum (.int a), .datum (.int b), .fn1 f] =>
      .datum <$> rangeMapFoldl f (pureOp M.add) b oneStep fuel a M.zero
  | .rangeMapProduct, [.datum (.int a), .datum (.int b), .fn1 f] =>
      .datum <$> rangeMapFoldl f (pureOp M.mul) b oneStep fuel a M.one
  | .rangeLength, [.datum (.int a), .datum (.int b)] => pure (.datum (.int (rangeLength a b)))
  | .rangeMapCollectVec, [.datum (.int a), .datum (.int b), .fn1 f] =>
      .vec <$> rangeMapFoldl f (fun acc y => pure (acc ++ [y])) b oneStep fuel a []
  | .rangeStepMapFoldl,
      [.datum (.int a), .datum (.int b), .datum (.int s), .fn1 f, .datum i, .fn2 c] =>
      .datum <$> rangeMapFoldl f c b s fuel a i
  | .rangeStepMapSum, [.datum (.int a), .datum (.int b), .datum (.int s), .fn1 f] =>
      .datum <$> rangeMapFoldl f (pureOp M.add) b s fuel a M.zero
  | .rangeStepMapProduct, [.datum (.int a), .datum (.int b), .datum (.int s), .fn1 f] =>
      .datum <$> rangeMapFoldl f (pureOp M.mul) b s fuel a M.one
  | .rangeStepLength, [.datum (.int a), .datum (.int b), .datum (.int s)] => do
      let n ← StateT.lift (rangeStepLength b s fuel a (.ofInt 0))
      pure (.datum (.int n))
  | .rangeStepMapCollectVec, [.datum (.int a), .datum (.int b), .datum (.int s), .fn1 f] =>
      .vec <$> rangeMapFoldl f (fun acc y => pure (acc ++ [y])) b s fuel a []
  | _, _ => failure

section Calls

variable (M : Meaning σ A) (fuel : Nat) (xs : List (Datum A)) (f : Datum A → Comp σ (Datum A))
  (a b s : Word)

theorem callCore_pipeMap :
    callCore M fuel .pipeMap [.list xs, .fn1 f] = .list <$> xs.mapM f := rfl

theorem callCore_protoFoldl (i : Datum A) (c : Datum A → Datum A → Comp σ (Datum A)) :
    callCore M fuel .protoFoldl [.container xs, .datum i, .fn2 c] =
      .datum <$> xs.foldlM c i := rfl

theorem callCore_length :
    callCore M fuel .length [.list xs] = pure (.datum (.int (.ofInt xs.length))) := rfl

theorem callCore_vecFromList : callCore M fuel .vecFromList [.list xs] = pure (.vec xs) := rfl

theorem callCore_rangeLength :
    callCore M fuel .rangeLength [.datum (.int a), .datum (.int b)] =
      pure (.datum (.int (rangeLength a b))) := rfl

theorem callCore_rangeStepLength :
    callCore M fuel .rangeStepLength [.datum (.int a), .datum (.int b), .datum (.int s)] =
      (do
        let n ← StateT.lift (rangeStepLength b s fuel a (.ofInt 0))
        pure (.datum (.int n))) := rfl

theorem callCore_rangeMapCollectVec :
    callCore M fuel .rangeMapCollectVec [.datum (.int a), .datum (.int b), .fn1 f] =
      .vec <$> rangeMapFoldl f (fun acc y => pure (acc ++ [y])) b oneStep fuel a [] := rfl

theorem callCore_rangeStepMapCollectVec :
    callCore M fuel .rangeStepMapCollectVec
        [.datum (.int a), .datum (.int b), .datum (.int s), .fn1 f] =
      .vec <$> rangeMapFoldl f (fun acc y => pure (acc ++ [y])) b s fuel a [] := rfl

end Calls

def applyVal (M : Meaning σ A) (fuel : Nat) : Val σ A → List (Val σ A) → Comp σ (Val σ A)
  | .fn1 f, [.datum d] => .datum <$> f d
  | .fn2 f, [.datum a, .datum b] => .datum <$> f a b
  | .core cf, vs => callCore M fuel cf vs
  | _, _ => failure

/-- The pipe `|` goes to the `map` of the source. -/
def mapVal : Val σ A → Val σ A → Comp σ (Val σ A)
  | .list xs, .fn1 f => .list <$> xs.mapM f
  | .container xs, .fn1 f => .container <$> xs.mapM f
  | _, _ => failure

/-- The elements of a range of two ends and a step; a zero step traps. -/
def rangeElems (fuel : Nat) : Val σ A → Val σ A → Val σ A → Comp σ (List (Datum A))
  | .datum (.int a), .datum (.int b), .datum (.int s) =>
      if s.1 = 0 then failure
      else do
        let ns ← StateT.lift (rangeList b s fuel a)
        pure (ns.map .int)
  | _, _, _ => failure

def asDatum : Val σ A → Comp σ (Datum A)
  | .datum d => pure d
  | _ => failure

def isPositive : Val σ A → Comp σ Bool
  | .datum (.int n) => pure (n.1 > 0)
  | _ => failure

mutual

def eval (M : Meaning σ A) (fuel : Nat) (env : Env σ A) : Expr → Comp σ (Val σ A)
  | .int n => pure (.datum (.int n))
  | .written r .other k => r.val <$> M.run r k
  | .written r kind k => pure (r.val (M.constant r kind k))
  | .loc l => StateT.lift (env l)
  | .core cf => pure (.core cf)
  | .lambda [x] body =>
      pure (.fn1 fun d => do
        asDatum (← eval M fuel (Function.update env x (some (.datum d))) body))
  | .lambda [a, x] body =>
      pure (.fn2 fun d e => do
        asDatum (← eval M fuel
          (Function.update (Function.update env a (some (.datum d))) x (some (.datum e))) body))
  | .lambda _ _ => failure
  | .call f args => do
      let g ← eval M fuel env f
      let vs ← evalList M fuel env args
      applyVal M fuel g vs
  | .gtZero e => do
      let v ← eval M fuel env e
      .bool <$> isPositive v
  | .ite c t e => do
      match ← eval M fuel env c with
      | .bool true => eval M fuel env t
      | .bool false => eval M fuel env e
      | _ => failure
  | .letIn l e body => do
      let v ← eval M fuel env e
      eval M fuel (Function.update env l (some v)) body
  | .range a b => do
      let va ← eval M fuel env a
      let vb ← eval M fuel env b
      .list <$> rangeElems fuel va vb (.datum (.int oneStep))
  | .rangeStep a b s => do
      let va ← eval M fuel env a
      let vb ← eval M fuel env b
      let vs ← eval M fuel env s
      .list <$> rangeElems fuel va vb vs
  | .mapPipe _ a s => do
      let v ← eval M fuel env a
      let f ← eval M fuel env s
      mapVal v f
  | .pipe a (.call f args) => do
      let v ← eval M fuel env a
      let g ← eval M fuel env f
      let vs ← evalList M fuel env args
      applyVal M fuel g (v :: vs)
  | .pipe a f => do
      let v ← eval M fuel env a
      let g ← eval M fuel env f
      applyVal M fuel g [v]
  | .missing => failure

def evalList (M : Meaning σ A) (fuel : Nat) (env : Env σ A) :
    List Expr → Comp σ (List (Val σ A))
  | [] => pure []
  | e :: es => do
      let v ← eval M fuel env e
      let vs ← evalList M fuel env es
      pure (v :: vs)

end

end Kaikai.PipeFusion
