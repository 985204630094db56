import Kaikai.Decimal

/-!
The pass that gives each binding site of a body an id of its own. Of an expression only the
binders, the scopes and the reads are told apart; what the pass carries along unread is `A`.
-/

namespace Kaikai.UniqueBinders

open Kaikai.Str
open Kaikai.Decimal (intToString)

/-- A line and a column. -/
structure Pos where
  line : ℤ
  col : ℤ
deriving DecidableEq

/-- `Binder`; the id is the integer behind a `LocalId`, zero for a binder not numbered yet. -/
structure Binder (ι : Type) where
  id : ι
  name : Str
deriving DecidableEq

inductive OpVia (ι : Type) where
  | viaAmbient
  | viaNamed
  | viaAlias (l : ι)
  | viaRecv (l : ι)
deriving DecidableEq

structure Param (A ι : Type) where
  binder : Binder ι
  pos : Pos
  rest : A
deriving DecidableEq

/-- `other` has the kinds that bind nothing themselves: constructor and record patterns with their
sub-patterns, and the wildcard, literals, ranges and holes without. -/
inductive Pattern (A ι : Type) where
  | pBind (b : Binder ι) (pos : Pos)
  | pAs (b : Binder ι) (inner : Pattern A ι) (pos : Pos)
  | pNarrow (b : Binder ι) (type : A) (pos : Pos)
  | pList (ps : List (Pattern A ι)) (rest : Option (Binder ι)) (pos : Pos)
  | other (head : A) (ps : List (Pattern A ι)) (pos : Pos)

mutual

/-- `other` has the kinds that `ub_kind` leaves to `prc_map_expr_kind`, with their sub-expressions
in the order of `xp_positions`. -/
inductive Expr (A ι : Type) where
  | eLocal (l : ι) (info : A)
  | eOp (via : OpVia ι) (info : A)
  | eLambda (ps : List (Param A ι)) (body : Expr A ι) (info : A)
  | eBlock (ss : List (Stmt A ι)) (tail : Option (Expr A ι)) (info : A)
  | eMatch (scrutinee : Expr A ι) (arms : List (Arm A ι)) (info : A)
  | eHandle (body : Expr A ι) (init : Option (Expr A ι)) (as : Option (Binder ι))
      (clauses : List (HClause A ι)) (ret : Option (HReturn A ι)) (info : A)
  | other (head : A) (xs : List (Expr A ι))

inductive Stmt (A ι : Type) where
  | sLet (p : Pattern A ι) (ann : A) (rhs : Expr A ι)
  | sVar (b : Binder ι) (ann : A) (rhs : Expr A ι) (pos : Pos)
  | other (head : A) (xs : List (Expr A ι))

inductive Arm (A ι : Type) where
  | arm (p : Pattern A ι) (guard : Option (Expr A ι)) (body : Expr A ι)

inductive HClause (A ι : Type) where
  | hc (op : A) (ps : List (Param A ι)) (body : Expr A ι) (pos : Pos)

inductive HReturn (A ι : Type) where
  | hr (b : Binder ι) (body : Expr A ι) (pos : Pos)

end

/-- A binder in scope: the id it was declared with, and the binder it is now. -/
structure UbBind where
  was : ℤ
  now : Binder ℤ
deriving DecidableEq

/-- `dups` holds the ids bound at more than one site. -/
structure UbCx where
  env : List UbBind
  dups : List ℤ

def localEq (a b : ℤ) : Bool :=
  a ≠ 0 && a = b

def fnv1a64 (s : Str) : BitVec 64 :=
  s.foldl (fun h b => (h ^^^ b.toBitVec.setWidth 64) * 1099511628211#64) 1469598103934665603#64

def stringHash (s : Str) : ℤ :=
  (fnv1a64 s).toInt

def localMinted (key : Str) : ℤ :=
  let h := stringHash key
  if 0 ≤ h then 0 - 1 - h else h

def ubHasId (ids : List ℤ) (l : ℤ) : Bool :=
  ids.any (localEq · l)

def ubRepeatedIds : List ℤ → List ℤ → List ℤ → List ℤ
  | [], _, acc => acc
  | l :: rest, seen, acc =>
      if ubHasId seen l && !ubHasId acc l then ubRepeatedIds rest seen (l :: acc)
      else ubRepeatedIds rest (l :: seen) acc

section Scans

variable {A : Type}

mutual

def ubPatBinders : Pattern A ℤ → List (Binder ℤ) → List (Binder ℤ)
  | .pBind b _, acc => b :: acc
  | .pAs b inner _, acc => ubPatBinders inner (b :: acc)
  | .pNarrow b _ _, acc => b :: acc
  | .pList ps (some b) _, acc => ubPatsBinders ps (b :: acc)
  | .pList ps none _, acc => ubPatsBinders ps acc
  | .other _ ps _, acc => ubPatsBinders ps acc

def ubPatsBinders : List (Pattern A ℤ) → List (Binder ℤ) → List (Binder ℤ)
  | [], acc => acc
  | p :: rest, acc => ubPatsBinders rest (ubPatBinders p acc)

end

def ubStmtBinders : List (Stmt A ℤ) → List (Binder ℤ) → List (Binder ℤ)
  | [], acc => acc
  | .sLet p _ _ :: rest, acc => ubStmtBinders rest (ubPatBinders p acc)
  | .sVar b _ _ _ :: rest, acc => ubStmtBinders rest (b :: acc)
  | .other _ _ :: rest, acc => ubStmtBinders rest acc

def ubArmBinders : List (Arm A ℤ) → List (Binder ℤ) → List (Binder ℤ)
  | [], acc => acc
  | .arm p _ _ :: rest, acc => ubArmBinders rest (ubPatBinders p acc)

def ubClauseBinders : List (HClause A ℤ) → List (Binder ℤ) → List (Binder ℤ)
  | [], acc => acc
  | .hc _ ps _ _ :: rest, acc => ubClauseBinders rest (ps.map (·.binder) ++ acc)

def ubHandleBinders (cls : List (HClause A ℤ)) (oret : Option (HReturn A ℤ))
    (acc : List (Binder ℤ)) : List (Binder ℤ) :=
  match oret with
  | some (.hr b _ _) => ubClauseBinders cls (b :: acc)
  | none => ubClauseBinders cls acc

mutual

/-- `ub_binders`: every binding site's binder, repeats kept. -/
def ubBinders : Expr A ℤ → List (Binder ℤ) → List (Binder ℤ)
  | .eLocal _ _, acc => acc
  | .eOp _ _, acc => acc
  | .eLambda ps body _, acc => ubBinders body (ps.map (·.binder) ++ acc)
  | .eBlock ss tail _, acc => ubBindersOpt tail (ubBindersStmts ss (ubStmtBinders ss acc))
  | .eMatch scrutinee arms _, acc => ubBindersArms arms (ubBinders scrutinee (ubArmBinders arms acc))
  | .eHandle body init _ cls oret _, acc =>
      ubBindersRet oret (ubBindersClauses cls (ubBinders body
        (ubBindersOpt init (ubHandleBinders cls oret acc))))
  | .other _ xs, acc => ubBindersAll xs acc

def ubBindersAll : List (Expr A ℤ) → List (Binder ℤ) → List (Binder ℤ)
  | [], acc => acc
  | x :: rest, acc => ubBindersAll rest (ubBinders x acc)

def ubBindersOpt : Option (Expr A ℤ) → List (Binder ℤ) → List (Binder ℤ)
  | none, acc => acc
  | some x, acc => ubBinders x acc

def ubBindersStmts : List (Stmt A ℤ) → List (Binder ℤ) → List (Binder ℤ)
  | [], acc => acc
  | .sLet _ _ rhs :: rest, acc => ubBindersStmts rest (ubBinders rhs acc)
  | .sVar _ _ rhs _ :: rest, acc => ubBindersStmts rest (ubBinders rhs acc)
  | .other _ xs :: rest, acc => ubBindersStmts rest (ubBindersAll xs acc)

def ubBindersArms : List (Arm A ℤ) → List (Binder ℤ) → List (Binder ℤ)
  | [], acc => acc
  | .arm _ guard body :: rest, acc => ubBindersArms rest (ubBinders body (ubBindersOpt guard acc))

def ubBindersClauses : List (HClause A ℤ) → List (Binder ℤ) → List (Binder ℤ)
  | [], acc => acc
  | .hc _ _ body _ :: rest, acc => ubBindersClauses rest (ubBinders body acc)

def ubBindersRet : Option (HReturn A ℤ) → List (Binder ℤ) → List (Binder ℤ)
  | none, acc => acc
  | some (.hr _ body _), acc => ubBinders body acc

end

end Scans

def ubLookupId : List UbBind → ℤ → ℤ
  | [], l => l
  | bind :: rest, l => if localEq bind.was l then bind.now.id else ubLookupId rest l

def ubVia (via : OpVia ℤ) (env : List UbBind) : OpVia ℤ :=
  match via with
  | .viaAmbient => .viaAmbient
  | .viaNamed => .viaNamed
  | .viaAlias l => .viaAlias (ubLookupId env l)
  | .viaRecv l => .viaRecv (ubLookupId env l)

/-- `ub_site_id`: the id a binder takes at one of the sites its id is bound at. -/
def ubSiteId (l line col : ℤ) : ℤ :=
  localMinted (ascii "#" ++ intToString l ++ ascii "@" ++ intToString line ++ ascii ":" ++
    intToString col)

def ubRebound (b : Binder ℤ) (pos : Pos) (cx : UbCx) : Binder ℤ :=
  if ubHasId cx.dups b.id then { id := ubSiteId b.id pos.line pos.col, name := b.name } else b

def ubBind (cx : UbCx) (b now : Binder ℤ) : UbCx :=
  { cx with env := ⟨b.id, now⟩ :: cx.env }

section Walk

variable {A : Type}

def ubParam (p : Param A ℤ) (cx : UbCx) : Param A ℤ :=
  { p with binder := ubRebound p.binder p.pos cx }

/-- `ub_clause_params`: a clause's continuation, its last parameter, stays. -/
def ubClauseParams (cx : UbCx) : List (Param A ℤ) → List (Param A ℤ)
  | [] => []
  | [p] => [p]
  | p :: rest => ubParam p cx :: ubClauseParams cx rest

def ubBindParams : List (Param A ℤ) → List (Param A ℤ) → UbCx → UbCx
  | p :: rest, q :: rest1, cx => ubBindParams rest rest1 (ubBind cx p.binder q.binder)
  | _, _, cx => cx

mutual

/-- `ub_pat` and `ub_pat_kind`, with what the pattern brings into scope. -/
def ubPat : Pattern A ℤ → UbCx → Pattern A ℤ × UbCx
  | .pBind b pos, cx =>
      let now := ubRebound b pos cx
      (.pBind now pos, ubBind cx b now)
  | .pAs b inner pos, cx =>
      let now := ubRebound b pos cx
      let r := ubPat inner (ubBind cx b now)
      (.pAs now r.1 pos, r.2)
  | .pNarrow b type pos, cx =>
      let now := ubRebound b pos cx
      (.pNarrow now type pos, ubBind cx b now)
  | .pList ps (some b) pos, cx =>
      let r := ubPats ps cx
      let now := ubRebound b pos r.2
      (.pList r.1 (some now) pos, ubBind r.2 b now)
  | .pList ps none pos, cx =>
      let r := ubPats ps cx
      (.pList r.1 none pos, r.2)
  | .other head ps pos, cx =>
      let r := ubPats ps cx
      (.other head r.1 pos, r.2)

def ubPats : List (Pattern A ℤ) → UbCx → List (Pattern A ℤ) × UbCx
  | [], cx => ([], cx)
  | p :: rest, cx =>
      let r := ubPat p cx
      let rs := ubPats rest r.2
      (r.1 :: rs.1, rs.2)

end

mutual

def ubExpr : Expr A ℤ → UbCx → Expr A ℤ
  | .eLocal l info, cx => .eLocal (ubLookupId cx.env l) info
  | .eOp via info, cx => .eOp (ubVia via cx.env) info
  | .eLambda ps body info, cx =>
      let ps1 := ps.map (ubParam · cx)
      .eLambda ps1 (ubExpr body (ubBindParams ps ps1 cx)) info
  | .eBlock ss tail info, cx =>
      let r := ubBlock ss cx
      .eBlock r.1 (ubOpt tail r.2) info
  | .eMatch scrutinee arms info, cx => .eMatch (ubExpr scrutinee cx) (ubArms arms cx) info
  | .eHandle body init (some a) cls oret info, cx =>
      .eHandle (ubExpr body (ubBind cx a a)) (ubOpt init cx) (some a) (ubClauses cls cx)
        (ubReturn oret cx) info
  | .eHandle body init none cls oret info, cx =>
      .eHandle (ubExpr body cx) (ubOpt init cx) none (ubClauses cls cx) (ubReturn oret cx) info
  | .other head xs, cx => .other head (ubAll xs cx)

def ubAll : List (Expr A ℤ) → UbCx → List (Expr A ℤ)
  | [], _ => []
  | x :: rest, cx => ubExpr x cx :: ubAll rest cx

def ubOpt : Option (Expr A ℤ) → UbCx → Option (Expr A ℤ)
  | none, _ => none
  | some x, cx => some (ubExpr x cx)

/-- `ub_block`: the statements, and the scope they leave for the tail. -/
def ubBlock : List (Stmt A ℤ) → UbCx → List (Stmt A ℤ) × UbCx
  | [], cx => ([], cx)
  | .sLet p ann rhs :: rest, cx =>
      let pr := ubPat p cx
      let r := ubBlock rest pr.2
      (.sLet pr.1 ann (ubExpr rhs cx) :: r.1, r.2)
  | .sVar b ann rhs pos :: rest, cx =>
      let now := ubRebound b pos cx
      let r := ubBlock rest (ubBind cx b now)
      (.sVar now ann (ubExpr rhs cx) pos :: r.1, r.2)
  | .other head xs :: rest, cx =>
      let r := ubBlock rest cx
      (.other head (ubAll xs cx) :: r.1, r.2)

def ubArms : List (Arm A ℤ) → UbCx → List (Arm A ℤ)
  | [], _ => []
  | .arm p guard body :: rest, cx =>
      let pr := ubPat p cx
      .arm pr.1 (ubOpt guard pr.2) (ubExpr body pr.2) :: ubArms rest cx

/-- `ub_clause`, over the clauses of a handle. -/
def ubClauses : List (HClause A ℤ) → UbCx → List (HClause A ℤ)
  | [], _ => []
  | .hc op ps body pos :: rest, cx =>
      let ps1 := ubClauseParams cx ps
      .hc op ps1 (ubExpr body (ubBindParams ps ps1 cx)) pos :: ubClauses rest cx

def ubReturn : Option (HReturn A ℤ) → UbCx → Option (HReturn A ℤ)
  | none, _ => none
  | some (.hr b body pos), cx =>
      let now := ubRebound b pos cx
      some (.hr now (ubExpr body (ubBind cx b now)) pos)

end

def ubBody (body : Expr A ℤ) (params : List (Binder ℤ)) : Expr A ℤ :=
  let binders := params ++ ubBinders body []
  let dups := ubRepeatedIds (binders.map (·.id)) [] []
  if dups.isEmpty then body
  else ubExpr body { env := params.map fun b => ⟨b.id, b⟩, dups := dups }

end Walk

end Kaikai.UniqueBinders
