import Kaikai.Word64

/-!
Pipes of `map` stages into a terminal, and their rewriting into single traversals. An
expression that the program wrote is a name, a lambda or any other one, told apart by a
number; the rewriting builds the rest.
-/

namespace Kaikai.PipeFusion

open Kaikai.Word64 (Word)

/-- A line and a column. -/
abbrev Pos := Nat × Nat

/-- What an expression of the program is used as; the row of a stage has no label or keeps
`Mutable`, and that of a combiner has none or any. -/
inductive Role where
  | int | datum | list | container | stage | mutStage | pureCombine | combine
deriving DecidableEq

inductive Kind where
  | name | lambda | other
deriving DecidableEq

/-- The names that the rewriting mints, each with a position and an index. -/
inductive Stem where
  | fuse | fusev | fusef | fuseAcc | fuseX | fuser
deriving DecidableEq

inductive Local where
  | user (k : Nat)
  | minted (stem : Stem) (pos : Pos) (i : Nat)
deriving DecidableEq

inductive CoreFn where
  | pipeMap | foldl | protoFoldl | sum | product | length | vecFromList
  | mapFoldl | mapSum | mapProduct
  | rangeMapFoldl | rangeMapSum | rangeMapProduct | rangeLength | rangeMapCollectVec
  | rangeStepMapFoldl | rangeStepMapSum | rangeStepMapProduct | rangeStepLength
  | rangeStepMapCollectVec
deriving DecidableEq

inductive Expr where
  | int (n : Word)
  | written (role : Role) (kind : Kind) (k : Nat)
  | loc (l : Local)
  | core (cf : CoreFn)
  | lambda (params : List Local) (body : Expr)
  | call (f : Expr) (args : List Expr)
  | gtZero (e : Expr)
  | ite (c t e : Expr)
  | letIn (l : Local) (e body : Expr)
  | range (start stop : Expr)
  | rangeStep (start stop step : Expr)
  | mapPipe (pos : Pos) (a s : Expr)
  | pipe (a r : Expr)
  | missing

/-- A block of bindings ahead of its value. -/
def block (binds : List (Local × Expr)) (tail : Expr) : Expr :=
  binds.foldr (fun b body => .letIn b.1 b.2 body) tail

structure FusedMapCall where
  source : Expr
  stage : Expr

def asMapCall : Expr → Option FusedMapCall
  | .call (.core .pipeMap) [source, stage] => some ⟨source, stage⟩
  | _ => none

def apply (f : Expr) (args : List Expr) : Expr := .call f args

/-- The closure `x => outer(inner(x))`. -/
def compose (inner outer : Expr) (pos : Pos) : Expr :=
  .lambda [.minted .fuse pos 0] (apply outer [apply inner [.loc (.minted .fuse pos 0)]])

/-- A lowered pipe; both stages passed the purity gate. -/
def tryFuseMapPipe (lhs stage : Expr) (pos : Pos) : Expr :=
  match asMapCall lhs with
  | some inner => .call (.core .pipeMap) [inner.source, compose inner.stage stage pos]
  | none => .call (.core .pipeMap) [lhs, stage]

/-- Pipes into the `map` of lists, lowered from the source on. -/
def lowerMapPipes : Expr → Expr
  | .mapPipe pos a s => tryFuseMapPipe (lowerMapPipes a) s pos
  | e => e

inductive FoldTerminal where
  | foldl (init combine : Expr)
  | sum
  | product
  | length

structure FusedFold where
  source : Expr
  stages : List Expr
  term : FoldTerminal

def refTerminal : Expr → Option FoldTerminal
  | .core .sum => some .sum
  | .core .product => some .product
  | .core .length => some .length
  | _ => none

def asTerminal : Expr → Option FoldTerminal
  | .call (.core .foldl) [init, combine] => some (.foldl init combine)
  | .call (.core .protoFoldl) [init, combine] => some (.foldl init combine)
  | .call _ [_, _] => none
  | .call callee [] => refTerminal callee
  | rhs => refTerminal rhs

structure FlatMapChain where
  source : Expr
  stages : List Expr

/-- The source of a chain and its stages in the order of application. -/
def flattenMapChain : Expr → FlatMapChain
  | .mapPipe _ (.mapPipe pos a s) stage =>
      let flat := flattenMapChain (.mapPipe pos a s)
      ⟨flat.source, flat.stages ++ [stage]⟩
  | .mapPipe _ inner stage => ⟨inner, [stage]⟩
  | e => ⟨e, []⟩

def tryIntLiteral : Expr → Option Word
  | .int n => some n
  | _ => none

/-- Whether a block ends in a range. -/
def endsInRange : Expr → Bool
  | .letIn _ _ body => endsInRange body
  | .range _ _ => true
  | .rangeStep _ _ _ => true
  | _ => false

/-- A chain of maps, or a range that the counting loops may walk. -/
def head : Expr → Bool
  | .mapPipe _ _ _ => true
  | .range _ _ => true
  | .rangeStep _ _ step =>
      match tryIntLiteral step with
      | some k => k.1 > 0
      | none => true
  | .letIn _ _ body => endsInRange body && head body
  | _ => false

def asTerminalFold (lhs rhs : Expr) : Option FusedFold :=
  match lhs with
  | .mapPipe _ _ _ =>
      (asTerminal rhs).map fun term =>
        let flat := flattenMapChain lhs
        ⟨flat.source, flat.stages, term⟩
  | _ =>
      if !head lhs then none
      else (asTerminal rhs).map fun term => ⟨lhs, [], term⟩

/-- The bindings ahead of a range stay ahead of the rewritten call. -/
def underBinds (source : Expr) (rewrite : Expr → Expr) : Expr :=
  match source with
  | .letIn l e body =>
      if endsInRange body then .letIn l e (underBinds body rewrite) else rewrite source
  | _ => rewrite source

structure Hoisted where
  binds : List (Local × Expr)
  refs : List Expr

def isLambda : Expr → Bool
  | .lambda _ _ => true
  | .written _ .lambda _ => true
  | _ => false

def hoistLambdas : List Expr → Nat → Pos → Hoisted
  | [], _, _ => ⟨[], []⟩
  | s :: rest, i, pos =>
      let more := hoistLambdas rest (i + 1) pos
      if isLambda s then
        ⟨(.minted .fusev pos i, s) :: more.binds, .loc (.minted .fusev pos i) :: more.refs⟩
      else ⟨more.binds, s :: more.refs⟩

def applyStages : List Expr → Expr → Expr
  | [], acc => acc
  | f :: rest, acc => applyStages rest (apply f [acc])

def composeStages (stages : List Expr) (pos : Pos) : Expr :=
  .lambda [.minted .fusef pos 0] (applyStages stages (.loc (.minted .fusef pos 0)))

structure BoundStages where
  binds : List (Local × Expr)
  stage : Expr

/-- The stage of the rewritten call behind the bindings of inline lambdas; a single stage is
passed on as it is. -/
def bindStages (stages : List Expr) (pos : Pos) : BoundStages :=
  match stages with
  | [only] => ⟨[], only⟩
  | _ =>
      let hoisted := hoistLambdas stages 0 pos
      ⟨hoisted.binds, composeStages hoisted.refs pos⟩

def foldCall (cf : CoreFn) (args : List Expr) : Expr := .call (.core cf) args

def readsFree : Expr → Bool
  | .int _ => true
  | .written _ .name _ => true
  | .loc _ => true
  | .core _ => true
  | _ => false

/-- Binds each expression in order; a literal or a name is its own reference. -/
def bindAll : List Expr → Nat → Pos → Hoisted
  | [], _, _ => ⟨[], []⟩
  | e :: more, i, pos =>
      let rest := bindAll more (i + 1) pos
      if readsFree e then ⟨rest.binds, e :: rest.refs⟩
      else ⟨(.minted .fuser pos i, e) :: rest.binds, .loc (.minted .fuser pos i) :: rest.refs⟩

def stepLiteral : List Expr → Option Word
  | [_, _, step] => tryIntLiteral step
  | _ => none

/-- The loop `up` for a positive step, `plain` over the range otherwise; a step that is no
literal is bound with every operand and tested. -/
def stepped (up : CoreFn) (hd rest : List Expr) (plain : List Expr → Expr) (source : Expr)
    (pos : Pos) : Expr :=
  match stepLiteral hd with
  | some k => if k.1 > 0 then foldCall up (hd ++ rest) else plain (source :: rest)
  | none =>
      let h := bindAll (hd ++ rest) 0 pos
      match h.refs with
      | start :: stop :: step :: args =>
          block h.binds (.ite (.gtZero step) (foldCall up h.refs)
            (plain (.rangeStep start stop step :: args)))
      | _ => .missing

def rangeFold (cf : CoreFn) (hasStep : Bool) : CoreFn :=
  match cf with
  | .mapFoldl => if hasStep then .rangeStepMapFoldl else .rangeMapFoldl
  | .mapSum => if hasStep then .rangeStepMapSum else .rangeMapSum
  | .mapProduct => if hasStep then .rangeStepMapProduct else .rangeMapProduct
  | cf => cf

def stageFold (ff : FusedFold) (cf : CoreFn) (extra : List Expr) (pos : Pos) : Expr :=
  let bound := bindStages ff.stages pos
  let call :=
    match ff.source with
    | .range a b => foldCall (rangeFold cf false) (a :: b :: bound.stage :: extra)
    | .rangeStep a b step =>
        stepped (rangeFold cf true) [a, b, step] (bound.stage :: extra) (foldCall cf) ff.source pos
    | source => foldCall cf (source :: bound.stage :: extra)
  block bound.binds call

/-- The length of a mapped range or list is its own: the stages are dropped. -/
def lengthCall (source : Expr) (pos : Pos) : Expr :=
  match source with
  | .range a b => foldCall .rangeLength [a, b]
  | .rangeStep a b step =>
      stepped .rangeStepLength [a, b, step] [] (foldCall .length) source pos
  | source => foldCall .length [source]

def foldRewriteOver (ff : FusedFold) (pos : Pos) : Expr :=
  match ff.term with
  | .length => lengthCall ff.source pos
  | .foldl init combine => stageFold ff .mapFoldl [init, combine] pos
  | .sum => stageFold ff .mapSum [] pos
  | .product => stageFold ff .mapProduct [] pos

def foldRewrite (ff : FusedFold) (pos : Pos) : Expr :=
  underBinds ff.source fun src => foldRewriteOver { ff with source := src } pos

/-- The combiner `(acc, x) => combine(acc, stage(x))`. -/
def composeCombiner (stage combine : Expr) (pos : Pos) : Expr :=
  .lambda [.minted .fuseAcc pos 0, .minted .fuseX pos 0]
    (apply combine [.loc (.minted .fuseAcc pos 0), apply stage [.loc (.minted .fuseX pos 0)]])

def refsHead : List Expr → Expr
  | h :: _ => h
  | [] => .missing

def refsSecond : List Expr → Expr
  | _ :: s :: _ => s
  | _ => .missing

/-- The rewriting over a container that has a `foldl` of its own. -/
def genericFoldRewrite (ff : FusedFold) (pos : Pos) : Expr :=
  match ff.term with
  | .foldl init combine =>
      let staged := bindStages ff.stages pos
      let hoisted := hoistLambdas [staged.stage, combine] 0 pos
      let comb := composeCombiner (refsHead hoisted.refs) (refsSecond hoisted.refs) pos
      block (staged.binds ++ hoisted.binds) (foldCall .protoFoldl [ff.source, init, comb])
  | _ => stageFold ff .mapFoldl [] pos

def collectViaList (pos : Pos) : List Expr → Expr
  | [range, stage] => foldCall .vecFromList [.mapPipe pos range stage]
  | _ => .missing

def collectCall (cf : CoreFn) (hd stages : List Expr) (pos : Pos) : Expr :=
  let bound := bindStages stages pos
  let call :=
    match hd with
    | [_, _, _] => stepped cf hd [bound.stage] (collectViaList pos) .missing pos
    | _ => foldCall cf (hd ++ [bound.stage])
  block bound.binds call

def collectOver (source : Expr) (stages : List Expr) (pos : Pos) : Option Expr :=
  match source with
  | .range a b => some (collectCall .rangeMapCollectVec [a, b] stages pos)
  | .rangeStep a b step =>
      if !head source then none
      else some (collectCall .rangeStepMapCollectVec [a, b, step] stages pos)
  | _ => none

/-- A chain over a range that is collected into a `Vec`. -/
def collectRewrite (source : Expr) (stages : List Expr) (pos : Pos) : Option Expr :=
  match source with
  | .letIn l e body => (collectRewrite body stages pos).map fun call => .letIn l e call
  | source => collectOver source stages pos

end Kaikai.PipeFusion
