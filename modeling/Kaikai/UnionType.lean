import Kaikai.Decimal
import Kaikai.StrOrder

namespace Kaikai.UnionType

open Kaikai.Str
open Kaikai.Decimal (intToString)

/-- `Ty`, over units, effect rows and refinement predicates with their names; a nominal type has
the number of its symbol. -/
inductive Ty (U R P : Type) where
  | tyInt
  | tyReal
  | tyBool
  | tyString
  | tyChar
  | tyUnit
  | tyByte
  | tyInt32
  | tyUInt32
  | tyUInt64
  | tyInt128
  | tyHandle
  | tyListT (inner : Ty U R P)
  | tyFnT (ps : List (Ty U R P)) (ret : Ty U R P) (row : R)
  | tyCon (sym : ℤ) (args : List (Ty U R P))
  | tyVarT (v : ℤ)
  | tyAny
  | tyDimT (base : Ty U R P) (unit : U)
  | tyRefineT (base : Ty U R P) (pred : P)
  | tyUnion (parts : List (Ty U R P))
  | tyShapeApp (v : ℤ) (arg : Ty U R P)
  | tyNothing

variable {U R P : Type}

def stringJoin (parts : List Str) (sep : Str) : Str :=
  sep.intercalate parts

mutual

def unionOrderKey : Ty U R P → Str
  | .tyInt => ascii "Int"
  | .tyReal => ascii "Real"
  | .tyBool => ascii "Bool"
  | .tyString => ascii "String"
  | .tyChar => ascii "Char"
  | .tyUnit => ascii "Unit"
  | .tyByte => ascii "Byte"
  | .tyInt32 => ascii "Int32"
  | .tyUInt32 => ascii "UInt32"
  | .tyUInt64 => ascii "UInt64"
  | .tyInt128 => ascii "Int128"
  | .tyHandle => ascii "Handle"
  | .tyListT inner => ascii "L_" ++ unionOrderKey inner ++ ascii "_E"
  | .tyFnT ps ret _ =>
      ascii "F_" ++ stringJoin (unionOrderKeys ps) (ascii "_") ++ ascii "_R_" ++
        unionOrderKey ret ++ ascii "_E"
  | .tyCon s [] => ascii "c" ++ intToString s
  | .tyCon s (a :: rest) =>
      ascii "c" ++ intToString s ++ ascii "_O_" ++
        stringJoin (unionOrderKey a :: unionOrderKeys rest) (ascii "_") ++ ascii "_C"
  | .tyVarT _ => ascii "TVAR"
  | .tyShapeApp _ arg => ascii "SVAR_" ++ unionOrderKey arg
  | .tyAny => ascii "Any"
  | .tyNothing => ascii "Nothing"
  | .tyDimT base _ => unionOrderKey base
  | .tyRefineT base _ => unionOrderKey base
  | .tyUnion parts => ascii "U_" ++ stringJoin (unionOrderKeys parts) (ascii "_") ++ ascii "_E"

def unionOrderKeys : List (Ty U R P) → List Str
  | [] => []
  | t :: rest => unionOrderKey t :: unionOrderKeys rest

end

def scalarRank : Ty U R P → ℤ
  | .tyInt => 0
  | .tyReal => 1
  | .tyBool => 2
  | .tyString => 3
  | .tyChar => 4
  | .tyUnit => 5
  | .tyByte => 6
  | .tyInt32 => 7
  | .tyUInt32 => 8
  | .tyUInt64 => 9
  | .tyInt128 => 10
  | .tyHandle => 11
  | _ => -1

mutual

def infTyEq : Ty U R P → Ty U R P → Bool
  | .tyVarT x, .tyVarT y => x = y
  | .tyListT x, .tyListT y => infTyEq x y
  | .tyFnT aps ar _, .tyFnT bps br _ => infTyListEq aps bps && infTyEq ar br
  | .tyCon sa aa, .tyCon sb ba => sa = sb && infTyListEq aa ba
  | .tyDimT x _, .tyDimT y _ => infTyEq x y
  | .tyRefineT x _, .tyRefineT y _ => infTyEq x y
  | .tyShapeApp asv x, .tyShapeApp bsv y => asv = bsv && infTyEq x y
  | .tyUnion x, .tyUnion y => infTyListEq x y
  | .tyNothing, .tyNothing => true
  | a, b => 0 ≤ scalarRank a && scalarRank a = scalarRank b

def infTyListEq : List (Ty U R P) → List (Ty U R P) → Bool
  | [], [] => true
  | a :: as, b :: bs => infTyEq a b && infTyListEq as bs
  | _, _ => false

end

mutual

def unionFlatten : List (Ty U R P) → List (Ty U R P)
  | [] => []
  | t :: rest => unionFlattenOne t ++ unionFlatten rest

def unionFlattenOne : Ty U R P → List (Ty U R P)
  | .tyUnion inner => unionFlatten inner
  | t => [t]

end

def unionSortInsert (t : Ty U R P) : List (Ty U R P) → List (Ty U R P)
  | [] => [t]
  | h :: rest =>
      if stringLt (unionOrderKey t) (unionOrderKey h) then t :: h :: rest
      else h :: unionSortInsert t rest

def unionSortByMangle (ts : List (Ty U R P)) : List (Ty U R P) :=
  ts.foldr unionSortInsert []

def unionDedupSorted : List (Ty U R P) → List (Ty U R P)
  | [] => []
  | [h] => [h]
  | h :: n :: trail =>
      if infTyEq h n then unionDedupSorted (n :: trail) else h :: unionDedupSorted (n :: trail)

def normalizeUnion (components : List (Ty U R P)) : Ty U R P :=
  match unionDedupSorted (unionSortByMangle (unionFlatten components)) with
  | [] => .tyAny
  | [only] => only
  | deduped => .tyUnion deduped

end Kaikai.UnionType
