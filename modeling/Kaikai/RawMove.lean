import Kaikai.RefinePred

namespace Kaikai.RawMove

open Kaikai.RefinePred (localEq)

/-- The marks, by what the linearity check asks of them. -/
inductive Mark where
  | dup
  | reuse
  | prim
  | other
  deriving DecidableEq

/-- When a child position runs relative to its parent: always, on some branch, behind a short
circuit, in a lambda, in a handler clause, or in the message of a failed assertion. -/
inductive XRole where
  | all
  | br
  | sc
  | lam
  | cl
  | msg
  deriving DecidableEq

/-- The kinds that the analyses see through their positions; the linearity check tells three of them
from the others. -/
inductive Kind where
  | field
  | index
  | intrinsic
  | other

mutual

/-- Expressions; `node` is every kind that is not named, with the positions `xp_positions` lists. -/
inductive Expr where
  | loc (l : ℤ)
  | sym (s inst : ℤ)
  | op
  | mark (m : Mark)
  | call (f : Expr) (xs : List Expr)
  | cond (c t : Expr) (e : Option Expr)
  | matching (s : Expr) (arms : List Arm)
  | node (kind : Kind) (ps : List XPos)

inductive Arm where
  | arm (guard : Option Expr) (body : Expr)

inductive XPos where
  | xp (r : XRole) (e : Expr)

end

structure FnId where
  sym : ℤ
  inst : ℤ
  deriving DecidableEq

/-- The borrowed slots of every function. -/
inductive BorrowMap where
  | empty
  | table (slots : FnId → List ℤ)

def fnidNone : FnId := ⟨-1, -1⟩

def pcsCalleeKey : Expr → FnId
  | .sym s inst => ⟨s, inst⟩
  | _ => fnidNone

def bmLookup (bm : BorrowMap) (key : FnId) : List ℤ :=
  match bm with
  | .empty => []
  | .table slots => slots key

def pcsBorrowSlots (bmap : BorrowMap) (f : Expr) : List ℤ :=
  match bmap with
  | .empty => []
  | _ => bmLookup bmap (pcsCalleeKey f)

def xroleInline : XRole → Bool
  | .all | .br | .sc | .msg => true
  | .lam | .cl => false

def pcsIsLeafRef : Expr → Bool
  | .loc _ => true
  | .sym _ _ => true
  | _ => false

def pcsCalleeIsRef : Expr → Bool
  | .sym _ _ => true
  | .loc _ => true
  | .op => true
  | _ => false

def pcsIsRcPrimitive : Mark → Bool
  | .dup => true
  | .reuse => true
  | _ => false

def prcIsUnitCoercion (coercion : ℤ → Bool) : Expr → Bool
  | .sym s _ => coercion s
  | _ => false

def prcPeelUnit (coercion : ℤ → Bool) : Expr → Expr
  | .call f [x] => if prcIsUnitCoercion coercion f then prcPeelUnit coercion x else .call f [x]
  | e => e

section Binder

variable (coercion : ℤ → Bool) (b : ℤ) (bmap : BorrowMap)

def pcsIsBare : Expr → Bool
  | .loc u => localEq u b
  | _ => false

def pcsAnyArgIsVar (xs : List Expr) : Bool := xs.any (pcsIsBare b)

def pcsAnyArgBare (xs : List Expr) : Bool := xs.any fun h => pcsIsBare b (prcPeelUnit coercion h)

def pcsLentSlots (f : Expr) (xs : List Expr) : List ℤ :=
  if pcsAnyArgIsVar b xs then pcsBorrowSlots bmap f else []

mutual

def pcsReadOutsideLambda : Expr → Bool
  | .loc u => localEq u b
  | .sym _ _ => false
  | .op => false
  | .mark _ => false
  | .call f xs => pcsReadOutsideLambda f || pcsAnyArgMentions xs
  | .cond c t none => pcsReadOutsideLambda c || pcsReadOutsideLambda t
  | .cond c t (some e) =>
      pcsReadOutsideLambda c || (pcsReadOutsideLambda t || pcsReadOutsideLambda e)
  | .matching s arms => pcsReadOutsideLambda s || readOutsideLambdaArms arms
  | .node _ ps => pcsReadOutsideLambdaPs ps

def pcsAnyArgMentions : List Expr → Bool
  | [] => false
  | h :: rest => pcsReadOutsideLambda h || pcsAnyArgMentions rest

def readOutsideLambdaArms : List Arm → Bool
  | [] => false
  | .arm none body :: rest => pcsReadOutsideLambda body || readOutsideLambdaArms rest
  | .arm (some g) body :: rest =>
      pcsReadOutsideLambda g || (pcsReadOutsideLambda body || readOutsideLambdaArms rest)

def pcsReadOutsideLambdaPs : List XPos → Bool
  | [] => false
  | .xp .lam _ :: rest => pcsReadOutsideLambdaPs rest
  | .xp _ c :: rest => pcsReadOutsideLambda c || pcsReadOutsideLambdaPs rest

end

mutual

/-- The greatest count of reads that are not lent on a path, by the maximum over alternatives. -/
def pcsMaxPathsBExpr : Expr → ℕ
  | .loc u => if localEq u b then 1 else 0
  | .sym _ _ => 0
  | .op => 0
  | .mark _ => 0
  | .call f xs =>
      let positions := if pcsAnyArgBare coercion b xs then pcsBorrowSlots bmap f else []
      pcsMaxPathsBExpr f + pcsMaxPathsBArgs positions 0 xs
  | .cond c t none => pcsMaxPathsBExpr c + max (pcsMaxPathsBExpr t) 0
  | .cond c t (some e) => pcsMaxPathsBExpr c + max (pcsMaxPathsBExpr t) (pcsMaxPathsBExpr e)
  | .matching s arms => pcsMaxPathsBExpr s + pcsMaxPathsBArms arms 0
  | .node _ ps => pcsMaxPathsBPs ps

def pcsMaxPathsBArgs (positions : List ℤ) (i : ℤ) : List Expr → ℕ
  | [] => 0
  | h :: rest =>
      (if positions.contains i && pcsIsLeafRef (prcPeelUnit coercion h) then 0
        else pcsMaxPathsBExpr h) + pcsMaxPathsBArgs positions (i + 1) rest

def pcsMaxPathsBArms : List Arm → ℕ → ℕ
  | [], best => best
  | .arm none body :: rest, best => pcsMaxPathsBArms rest (max best (0 + pcsMaxPathsBExpr body))
  | .arm (some g) body :: rest, best =>
      pcsMaxPathsBArms rest (max best (pcsMaxPathsBExpr g + pcsMaxPathsBExpr body))

def pcsMaxPathsBPs : List XPos → ℕ
  | [] => 0
  | .xp .lam _ :: rest => 0 + pcsMaxPathsBPs rest
  | .xp _ c :: rest => pcsMaxPathsBExpr c + pcsMaxPathsBPs rest

end

def pcsMaxPathsInExpr (e : Expr) : ℕ := pcsMaxPathsBExpr coercion b .empty e

mutual

/-- Every path consumes the binder. -/
def pcsConsumedBExpr : Expr → Bool
  | .loc u => localEq u b
  | .sym _ _ => false
  | .op => false
  | .mark _ => false
  | .cond c _ none => pcsConsumedBExpr c
  | .cond c t (some e) => pcsConsumedBExpr c || (pcsConsumedBExpr t && pcsConsumedBExpr e)
  | .matching s arms => pcsConsumedBExpr s || pcsConsumedBArms arms
  | .call f xs => pcsConsumedBExpr f || pcsConsumedBArgs (pcsLentSlots b bmap f xs) 0 xs
  | .node _ ps => pcsConsumedBPs ps

/-- A bare name in a borrowed slot is a borrow. -/
def pcsConsumedBArgs (positions : List ℤ) (i : ℤ) : List Expr → Bool
  | [] => false
  | a :: rest =>
      (if positions.contains i then (if pcsIsLeafRef a then false else pcsConsumedBExpr a)
        else pcsConsumedBExpr a) || pcsConsumedBArgs positions (i + 1) rest

def pcsConsumedBPs : List XPos → Bool
  | [] => false
  | .xp .all c :: rest => pcsConsumedBExpr c || pcsConsumedBPs rest
  | .xp _ _ :: rest => pcsConsumedBPs rest

/-- No arms are no paths. -/
def pcsConsumedBArms : List Arm → Bool
  | [] => true
  | .arm _ body :: rest => pcsConsumedBExpr body && pcsConsumedBArms rest

end

mutual

def pcsAllConsumersLinear : Expr → Bool
  | .loc _ => true
  | .sym _ _ => true
  | .op => true
  | .mark _ => true
  | .call (.mark m) xs =>
      if pcsIsRcPrimitive m then !pcsAnyArgMentions b xs
      else if m = .prim then pcsAllArgsConsumersLinear xs
      else if !(pcsAnyArgIsVar b xs || pcsAnyArgMentions b xs) then true
      else false
  | .call (.call (.mark .dup) [inner]) xs =>
      -- the callee may stand under a dup
      if !(pcsAnyArgIsVar b xs || pcsAnyArgMentions b xs) then !pcsAnyArgMentions b [inner]
      else if pcsCalleeIsRef inner then
        pcsAllConsumersLinear inner && pcsAllArgsConsumersLinear xs
      else false
  | .call f xs =>
      if pcsCalleeIsRef f then pcsAllArgsConsumersLinear xs
      else if !(pcsAnyArgIsVar b xs || pcsAnyArgMentions b xs) then pcsAllConsumersLinear f
      else false
  | .cond c t none => pcsAllConsumersLinear c && pcsAllConsumersLinear t
  | .cond c t (some e) =>
      pcsAllConsumersLinear c && (pcsAllConsumersLinear t && pcsAllConsumersLinear e)
  | .matching s arms =>
      (pcsIsLeafRef s || pcsAllConsumersLinear s) && pcsConsumersLinearArms arms
  | .node .field [.xp _ (.loc _)] => true
  | .node .index [.xp _ (.loc u), .xp _ y] => !localEq u b && pcsAllConsumersLinear y
  | .node .intrinsic ps =>
      if ps.any (fun | .xp _ x => pcsIsBare b x) then false else pcsConsumersLinearPs ps
  | .node _ ps => pcsConsumersLinearPs ps

def pcsAllArgsConsumersLinear : List Expr → Bool
  | [] => true
  | h :: rest => pcsAllConsumersLinear h && pcsAllArgsConsumersLinear rest

def pcsConsumersLinearArms : List Arm → Bool
  | [] => true
  | .arm none body :: rest => pcsAllConsumersLinear body && pcsConsumersLinearArms rest
  | .arm (some g) body :: rest =>
      pcsAllConsumersLinear g && (pcsAllConsumersLinear body && pcsConsumersLinearArms rest)

def pcsConsumersLinearPs : List XPos → Bool
  | [] => true
  | .xp r c :: rest =>
      (!xroleInline r || pcsAllConsumersLinear c) && pcsConsumersLinearPs rest

end

def pcsParamConsumedLinear (body : Expr) : Bool :=
  pcsConsumedBExpr b bmap body && pcsAllConsumersLinear b body

def pcsParamMovesRaw (body : Expr) : Bool :=
  decide (pcsMaxPathsInExpr coercion b body ≤ 1) && pcsParamConsumedLinear b bmap body

end Binder

/-- A read on a path: whether it is the bare argument of a borrowed slot, and whether it happens in
a guard that turns its arm down. -/
structure Read where
  local' : ℤ
  lent : Bool
  rejected : Bool
  deriving DecidableEq

def reject (r : Read) : Read := { r with rejected := true }

/-- The roles of positions that a path runs, and of those it may leave out. -/
def XRole.runs : XRole → Prop
  | .all | .br | .sc => True
  | .lam | .cl | .msg => False

def XRole.skips : XRole → Prop
  | .all => False
  | _ => True

section Paths

variable (bmap : BorrowMap)

mutual

/-- The reads, outside lambdas and handler clauses, of a path that ends with the value of the
expression; a path that `!`, a panic or an effect leaves early has no value. -/
inductive Path : Expr → List Read → Prop
  | loc (l : ℤ) : Path (.loc l) [⟨l, false, false⟩]
  | sym (s inst : ℤ) : Path (.sym s inst) []
  | op : Path .op []
  | mark (m : Mark) : Path (.mark m) []
  | call {f : Expr} {xs : List Expr} {tf ts : List Read} (hf : Path f tf)
      (hxs : PathArgs (pcsBorrowSlots bmap f) 0 xs ts) : Path (.call f xs) (tf ++ ts)
  | condThen {c t : Expr} {e : Option Expr} {tc tt : List Read} (hc : Path c tc) (ht : Path t tt) :
      Path (.cond c t e) (tc ++ tt)
  | condElse {c t e : Expr} {tc te : List Read} (hc : Path c tc) (he : Path e te) :
      Path (.cond c t (some e)) (tc ++ te)
  | condUnit {c t : Expr} {tc : List Read} (hc : Path c tc) : Path (.cond c t none) tc
  | matching {s : Expr} {arms : List Arm} {ts ta : List Read} (hs : Path s ts)
      (harms : PathArms arms ta) : Path (.matching s arms) (ts ++ ta)
  | node {kind : Kind} {ps : List XPos} {t : List Read} (hps : PathPs ps t) : Path (.node kind ps) t

inductive PathArgs : List ℤ → ℤ → List Expr → List Read → Prop
  | nil (positions : List ℤ) (i : ℤ) : PathArgs positions i [] []
  | lent {positions : List ℤ} {i : ℤ} {rest : List Expr} {ts : List Read} (l : ℤ)
      (hi : positions.contains i = true) (hrest : PathArgs positions (i + 1) rest ts) :
      PathArgs positions i (.loc l :: rest) (⟨l, true, false⟩ :: ts)
  | own {positions : List ℤ} {i : ℤ} {a : Expr} {rest : List Expr} {ta ts : List Read}
      (hi : positions.contains i = true → ∀ l, a ≠ .loc l) (ha : Path a ta)
      (hrest : PathArgs positions (i + 1) rest ts) : PathArgs positions i (a :: rest) (ta ++ ts)

/-- A pattern that does not match skips its arm; a guard that fails goes on with the next. -/
inductive PathArms : List Arm → List Read → Prop
  | skip {arm : Arm} {rest : List Arm} {t : List Read} (hrest : PathArms rest t) :
      PathArms (arm :: rest) t
  | take {body : Expr} {rest : List Arm} {t : List Read} (hbody : Path body t) :
      PathArms (.arm none body :: rest) t
  | pass {g body : Expr} {rest : List Arm} {tg tb : List Read} (hg : Path g tg)
      (hbody : Path body tb) : PathArms (.arm (some g) body :: rest) (tg ++ tb)
  | fail {g body : Expr} {rest : List Arm} {tg t : List Read} (hg : Path g tg)
      (hrest : PathArms rest t) : PathArms (.arm (some g) body :: rest) (tg.map reject ++ t)

inductive PathPs : List XPos → List Read → Prop
  | nil : PathPs [] []
  | run {r : XRole} {e : Expr} {ps : List XPos} {t ts : List Read} (hr : r.runs) (he : Path e t)
      (hps : PathPs ps ts) : PathPs (.xp r e :: ps) (t ++ ts)
  | skip {r : XRole} {ps : List XPos} {ts : List Read} (hr : r.skips) (e : Expr)
      (hps : PathPs ps ts) : PathPs (.xp r e :: ps) ts

end

end Paths

/-- The reads of the binder. -/
def readsOf (b : ℤ) (t : List Read) : List Read := t.filter fun r => localEq r.local' b

/-- Exactly one read of the binder, and that one is not lent. -/
def OneOwnRead (b : ℤ) (t : List Read) : Prop := ∃ r, readsOf b t = [r] ∧ r.lent = false

/-- Every path through the body reads the binder once and hands it over there. -/
def HandsOver (b : ℤ) (bmap : BorrowMap) (body : Expr) : Prop :=
  ∀ t, Path bmap body t → OneOwnRead b t

/-- No path reads the binder in a guard that turns its arm down. -/
def NoRejectedRead (b : ℤ) (bmap : BorrowMap) (body : Expr) : Prop :=
  ∀ t, Path bmap body t → ∀ r ∈ readsOf b t, r.rejected = false

end Kaikai.RawMove
