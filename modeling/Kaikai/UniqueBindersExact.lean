import Kaikai.UniqueBinders

namespace Kaikai.UniqueBinders

/-- A binder in scope. A function's parameter, a clause's continuation and a handle's alias have no
position: they keep their ids. -/
structure Bind where
  id : ℤ
  site : Option Pos
deriving DecidableEq

/-- The id the binder is due, with the repeated ids. -/
def Bind.due (dups : List ℤ) (b : Bind) : ℤ :=
  match b.site with
  | some pos => if ubHasId dups b.id then ubSiteId b.id pos.line pos.col else b.id
  | none => b.id

/-- What a walk through an expression meets: binders, and reads with the binders in scope, the
innermost first. -/
inductive Mark where
  | bind (b : Bind)
  | read (scope : List Bind) (l : ℤ)
deriving DecidableEq

section Marks

variable {A : Type}

def Param.bind (p : Param A ℤ) : Bind :=
  ⟨p.binder.id, some p.pos⟩

/-- The last parameter of a clause is its continuation. -/
def clauseBinds : List (Param A ℤ) → List Bind
  | [] => []
  | [p] => [⟨p.binder.id, none⟩]
  | p :: rest => p.bind :: clauseBinds rest

mutual

def Pattern.binds : Pattern A ℤ → List Bind
  | .pBind b pos => [⟨b.id, some pos⟩]
  | .pAs b inner pos => ⟨b.id, some pos⟩ :: inner.binds
  | .pNarrow b _ pos => [⟨b.id, some pos⟩]
  | .pList ps (some b) pos => bindsAll ps ++ [⟨b.id, some pos⟩]
  | .pList ps none _ => bindsAll ps
  | .other _ ps _ => bindsAll ps

def bindsAll : List (Pattern A ℤ) → List Bind
  | [] => []
  | p :: rest => p.binds ++ bindsAll rest

end

def Stmt.binds : Stmt A ℤ → List Bind
  | .sLet p _ _ => p.binds
  | .sVar b _ _ pos => [⟨b.id, some pos⟩]
  | .other _ _ => []

def OpVia.marks (scope : List Bind) : OpVia ℤ → List Mark
  | .viaAmbient | .viaNamed => []
  | .viaAlias l | .viaRecv l => [.read scope l]

/-- A binder is in scope in what follows it in its pattern or block, in the body of its lambda, arm
or clause, and an alias in the body of its handle. -/
def enter (binds scope : List Bind) : List Bind :=
  binds.reverse ++ scope

mutual

def Expr.marks : Expr A ℤ → List Bind → List Mark
  | .eLocal l _, scope => [.read scope l]
  | .eOp via _, scope => via.marks scope
  | .eLambda ps body _, scope =>
      (ps.map Param.bind).map .bind ++ body.marks (enter (ps.map Param.bind) scope)
  | .eBlock ss tail _, scope =>
      marksStmts ss scope ++ marksOpt tail (enter (ss.flatMap Stmt.binds) scope)
  | .eMatch scrutinee arms _, scope => scrutinee.marks scope ++ marksArms arms scope
  | .eHandle body init (some a) cls oret _, scope =>
      .bind ⟨a.id, none⟩ :: (body.marks (enter [⟨a.id, none⟩] scope) ++ marksOpt init scope ++
        marksClauses cls scope ++ marksRet oret scope)
  | .eHandle body init none cls oret _, scope =>
      body.marks scope ++ marksOpt init scope ++ marksClauses cls scope ++ marksRet oret scope
  | .other _ xs, scope => marksAll xs scope

def marksAll : List (Expr A ℤ) → List Bind → List Mark
  | [], _ => []
  | x :: rest, scope => x.marks scope ++ marksAll rest scope

def marksOpt : Option (Expr A ℤ) → List Bind → List Mark
  | none, _ => []
  | some x, scope => x.marks scope

def marksStmts : List (Stmt A ℤ) → List Bind → List Mark
  | [], _ => []
  | .sLet p _ rhs :: rest, scope =>
      p.binds.map .bind ++ rhs.marks scope ++ marksStmts rest (enter p.binds scope)
  | .sVar b _ rhs pos :: rest, scope =>
      .bind ⟨b.id, some pos⟩ :: (rhs.marks scope ++
        marksStmts rest (enter [⟨b.id, some pos⟩] scope))
  | .other _ xs :: rest, scope => marksAll xs scope ++ marksStmts rest scope

def marksArms : List (Arm A ℤ) → List Bind → List Mark
  | [], _ => []
  | .arm p guard body :: rest, scope =>
      p.binds.map .bind ++ marksOpt guard (enter p.binds scope) ++
        body.marks (enter p.binds scope) ++ marksArms rest scope

def marksClauses : List (HClause A ℤ) → List Bind → List Mark
  | [], _ => []
  | .hc _ ps body _ :: rest, scope =>
      (clauseBinds ps).map .bind ++ body.marks (enter (clauseBinds ps) scope) ++
        marksClauses rest scope

def marksRet : Option (HReturn A ℤ) → List Bind → List Mark
  | none, _ => []
  | some (.hr b body pos), scope =>
      .bind ⟨b.id, some pos⟩ :: body.marks (enter [⟨b.id, some pos⟩] scope)

end

end Marks

section Shape

variable {A : Type}

def Binder.erase (b : Binder ℤ) : Binder Unit :=
  { id := (), name := b.name }

def Param.erase (p : Param A ℤ) : Param A Unit :=
  { binder := p.binder.erase, pos := p.pos, rest := p.rest }

def OpVia.erase : OpVia ℤ → OpVia Unit
  | .viaAmbient => .viaAmbient
  | .viaNamed => .viaNamed
  | .viaAlias _ => .viaAlias ()
  | .viaRecv _ => .viaRecv ()

mutual

def Pattern.erase : Pattern A ℤ → Pattern A Unit
  | .pBind b pos => .pBind b.erase pos
  | .pAs b inner pos => .pAs b.erase inner.erase pos
  | .pNarrow b type pos => .pNarrow b.erase type pos
  | .pList ps rest pos => .pList (erasePats ps) (rest.map Binder.erase) pos
  | .other head ps pos => .other head (erasePats ps) pos

def erasePats : List (Pattern A ℤ) → List (Pattern A Unit)
  | [] => []
  | p :: rest => p.erase :: erasePats rest

end

mutual

/-- The expression without its ids: its shape, names and positions. -/
def Expr.erase : Expr A ℤ → Expr A Unit
  | .eLocal _ info => .eLocal () info
  | .eOp via info => .eOp via.erase info
  | .eLambda ps body info => .eLambda (ps.map Param.erase) body.erase info
  | .eBlock ss tail info => .eBlock (eraseStmts ss) (eraseOpt tail) info
  | .eMatch scrutinee arms info => .eMatch scrutinee.erase (eraseArms arms) info
  | .eHandle body init as cls oret info =>
      .eHandle body.erase (eraseOpt init) (as.map Binder.erase) (eraseClauses cls) (eraseRet oret) info
  | .other head xs => .other head (eraseAll xs)

def eraseAll : List (Expr A ℤ) → List (Expr A Unit)
  | [] => []
  | x :: rest => x.erase :: eraseAll rest

def eraseOpt : Option (Expr A ℤ) → Option (Expr A Unit)
  | none => none
  | some x => some x.erase

def eraseStmts : List (Stmt A ℤ) → List (Stmt A Unit)
  | [] => []
  | .sLet p ann rhs :: rest => .sLet p.erase ann rhs.erase :: eraseStmts rest
  | .sVar b ann rhs pos :: rest => .sVar b.erase ann rhs.erase pos :: eraseStmts rest
  | .other head xs :: rest => .other head (eraseAll xs) :: eraseStmts rest

def eraseArms : List (Arm A ℤ) → List (Arm A Unit)
  | [] => []
  | .arm p guard body :: rest => .arm p.erase (eraseOpt guard) body.erase :: eraseArms rest

def eraseClauses : List (HClause A ℤ) → List (HClause A Unit)
  | [] => []
  | .hc op ps body pos :: rest => .hc op (ps.map Param.erase) body.erase pos :: eraseClauses rest

def eraseRet : Option (HReturn A ℤ) → Option (HReturn A Unit)
  | none => none
  | some (.hr b body pos) => some (.hr b.erase body.erase pos)

end

end Shape

/-- The binder as the pass leaves it. -/
def Bind.image (dups : List ℤ) (b : Bind) : Bind :=
  { b with id := b.due dups }

/-- The id due to the binder a read refers to, the read's own when there is none. -/
def target (dups : List ℤ) (scope : List Bind) (l : ℤ) : ℤ :=
  ((scope.find? (localEq ·.id l)).map (Bind.due dups)).getD l

/-- Where in its scope a read finds the binder it refers to: the innermost with its id. -/
def refers (scope : List Bind) (l : ℤ) : Option ℕ :=
  scope.findIdx? (localEq ·.id l)

/-- Nothing between a read and the binder it refers to is due the id of that binder. -/
def Clear (dups : List ℤ) (scope : List Bind) (l : ℤ) : Prop :=
  ∀ b ∈ scope.takeWhile (!localEq ·.id l), localEq (b.due dups) (target dups scope l) = false

def Mark.image (dups : List ℤ) : Mark → Mark
  | .bind b => .bind (b.image dups)
  | .read scope l => .read (scope.map (Bind.image dups)) (target dups scope l)

/-- The binding site of a mark; an alias and a continuation are none. -/
def Mark.site? : Mark → Option Bind
  | .bind b => if b.site.isSome then some b else none
  | .read _ _ => none

def Mark.refers? : Mark → Option (Option ℕ)
  | .bind _ => none
  | .read scope l => some (refers scope l)

end Kaikai.UniqueBinders
