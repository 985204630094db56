import Mathlib.Data.List.Basic
import Mathlib.Data.Set.Function

namespace Kaikai.TypeScheme

abbrev SymId := Int

abbrev LocalId := Int

abbrev TLocalId := Int

inductive UnitExprT where
  | uOne
  | uSym (name : String)
  | uMul (a b : UnitExprT)
  | uInv (a : UnitExprT)
  | uPow (a : UnitExprT) (n : Int)
  | uJoin (a b : UnitExprT)
  | uVar (id : Int)
  | uDims (us : List UnitExprT)
  | uParam (id : TLocalId)

/-! The predicate of a refinement is an expression of the surface syntax, which
holds no variable of a scheme; its type is the parameter `ε`. -/

mutual

inductive Ty (ε : Type) where
  | tyInt
  | tyReal
  | tyBool
  | tyString
  | tyChar
  | tyUnit
  | tyByte
  | tyInt32
  | tyUInt32
  | tyUInt64
  | tyInt128
  | tyHandle
  | tyListT (inner : Ty ε)
  | tyFnT (args : List (Ty ε)) (ret : Ty ε) (row : Row ε)
  | tyCon (s : SymId) (targs : List (Ty ε))
  | tyVarT (id : Int)
  | tyAny
  | tyDimT (inner : Ty ε) (u : UnitExprT)
  | tyRefineT (base : Ty ε) (pred : ε) (al : Option SymId)
  | tyUnion (cs : List (Ty ε))
  | tyShapeApp (id : Int) (arg : Ty ε)
  | tyNothing

inductive Label (ε : Type) where
  | mk (sym : SymId) (tyArgs : List (Ty ε)) (cell : LocalId)

inductive Row (ε : Type) where
  | mk (labels : List (Label ε)) (tail : Option Int) (displayAlias : Option String)

end

/-- `Scheme(tvs, rvs, dvs, sps, body)`. -/
structure TyScheme (ε : Type) where
  tvs : List Int
  rvs : List Int
  dvs : List Int
  sps : List String
  body : Ty ε

/-- Where an id stands: as a type or shape variable, as a row variable, as a
quantified unit variable, or as a unit variable in a dimension. -/
inductive Place where
  | type
  | row
  | quantified
  | unit
  deriving DecidableEq

mutual

def UnitExprT.units : UnitExprT → List Int
  | .uOne => []
  | .uSym _ => []
  | .uMul a b => a.units ++ b.units
  | .uInv a => a.units
  | .uPow a _ => a.units
  | .uJoin a b => a.units ++ b.units
  | .uVar id => [id]
  | .uDims us => unitsList us
  | .uParam _ => []

def unitsList : List UnitExprT → List Int
  | [] => []
  | u :: us => u.units ++ unitsList us

end

variable {ε : Type}

mutual

/-- The ids of a type, in the order of the walk. -/
def Ty.occ : Ty ε → List (Place × Int)
  | .tyListT inner => inner.occ
  | .tyFnT args ret row => occList args ++ (ret.occ ++ row.occ)
  | .tyCon _ targs => occList targs
  | .tyVarT id => [(.type, id)]
  | .tyDimT inner u => inner.occ ++ u.units.map (Place.unit, ·)
  | .tyRefineT base _ _ => base.occ
  | .tyUnion cs => occList cs
  | .tyShapeApp id arg => (.type, id) :: arg.occ
  | _ => []

def occList : List (Ty ε) → List (Place × Int)
  | [] => []
  | t :: ts => t.occ ++ occList ts

def Row.occ : Row ε → List (Place × Int)
  | .mk labels tail _ => occLabels labels ++ tail.toList.map (Place.row, ·)

def occLabels : List (Label ε) → List (Place × Int)
  | [] => []
  | .mk _ tyArgs _ :: rest => occList tyArgs ++ occLabels rest

end

/-- The quantified lists come before the body. -/
def TyScheme.occ (s : TyScheme ε) : List (Place × Int) :=
  s.tvs.map (Place.type, ·) ++ (s.rvs.map (Place.row, ·) ++
    (s.dvs.map (Place.quantified, ·) ++ s.body.occ))

mutual

def UnitExprT.rename (f : Int → Int) : UnitExprT → UnitExprT
  | .uOne => .uOne
  | .uSym name => .uSym name
  | .uMul a b => .uMul (a.rename f) (b.rename f)
  | .uInv a => .uInv (a.rename f)
  | .uPow a n => .uPow (a.rename f) n
  | .uJoin a b => .uJoin (a.rename f) (b.rename f)
  | .uVar id => .uVar (f id)
  | .uDims us => .uDims (renameUnits f us)
  | .uParam id => .uParam id

def renameUnits (f : Int → Int) : List UnitExprT → List UnitExprT
  | [] => []
  | u :: us => u.rename f :: renameUnits f us

end

mutual

/-- Rename the ids of every place by a function for it and drop the display
aliases of rows. -/
def Ty.rename (f : Place → Int → Int) : Ty ε → Ty ε
  | .tyListT inner => .tyListT (inner.rename f)
  | .tyFnT args ret row => .tyFnT (renameList f args) (ret.rename f) (row.rename f)
  | .tyCon s targs => .tyCon s (renameList f targs)
  | .tyVarT id => .tyVarT (f .type id)
  | .tyDimT inner u => .tyDimT (inner.rename f) (u.rename (f .unit))
  | .tyRefineT base pred al => .tyRefineT (base.rename f) pred al
  | .tyUnion cs => .tyUnion (renameList f cs)
  | .tyShapeApp id arg => .tyShapeApp (f .type id) (arg.rename f)
  | t => t

def renameList (f : Place → Int → Int) : List (Ty ε) → List (Ty ε)
  | [] => []
  | t :: ts => t.rename f :: renameList f ts

def Row.rename (f : Place → Int → Int) : Row ε → Row ε
  | .mk labels tail _ => .mk (renameLabels f labels) (tail.map (f .row)) none

def renameLabels (f : Place → Int → Int) : List (Label ε) → List (Label ε)
  | [] => []
  | .mk sym tyArgs cell :: rest => .mk sym (renameList f tyArgs) cell :: renameLabels f rest

end

def TyScheme.rename (f : Place → Int → Int) (s : TyScheme ε) : TyScheme ε where
  tvs := s.tvs.map (f .type)
  rvs := s.rvs.map (f .row)
  dvs := s.dvs.map (f .quantified)
  sps := s.sps
  body := s.body.rename f

mutual

theorem UnitExprT.units_rename (f : Int → Int) (u : UnitExprT) :
    (u.rename f).units = u.units.map f := by
  cases u with
  | uOne | uSym _ | uVar _ | uParam _ => rfl
  | uMul a b | uJoin a b =>
      simp only [UnitExprT.rename, UnitExprT.units, List.map_append, a.units_rename f,
        b.units_rename f]
  | uInv a | uPow a _ => exact a.units_rename f
  | uDims us => exact units_renameUnits f us

theorem units_renameUnits (f : Int → Int) (us : List UnitExprT) :
    unitsList (renameUnits f us) = (unitsList us).map f := by
  cases us with
  | nil => rfl
  | cons u us =>
      simp only [renameUnits, unitsList, List.map_append, u.units_rename f, units_renameUnits f us]

end

mutual

theorem UnitExprT.rename_rename (f g : Int → Int) (u : UnitExprT) :
    (u.rename f).rename g = u.rename (g ∘ f) := by
  cases u with
  | uOne | uSym _ | uVar _ | uParam _ => rfl
  | uMul a b | uJoin a b =>
      simp only [UnitExprT.rename, a.rename_rename f g, b.rename_rename f g]
  | uInv a | uPow a _ => simp only [UnitExprT.rename, a.rename_rename f g]
  | uDims us => simp only [UnitExprT.rename, renameUnits_renameUnits f g us]

theorem renameUnits_renameUnits (f g : Int → Int) (us : List UnitExprT) :
    renameUnits g (renameUnits f us) = renameUnits (g ∘ f) us := by
  cases us with
  | nil => rfl
  | cons u us =>
      simp only [renameUnits, u.rename_rename f g, renameUnits_renameUnits f g us]

end

mutual

theorem UnitExprT.rename_eq_iff (f g : Int → Int) (u : UnitExprT) :
    u.rename f = u.rename g ↔ ∀ x ∈ u.units, f x = g x := by
  cases u with
  | uOne | uSym _ | uVar _ | uParam _ => simp [UnitExprT.rename, UnitExprT.units]
  | uMul a b | uJoin a b =>
      simp only [UnitExprT.rename, UnitExprT.units, UnitExprT.uMul.injEq, UnitExprT.uJoin.injEq,
        List.forall_mem_append, a.rename_eq_iff f g, b.rename_eq_iff f g]
  | uInv a | uPow a _ =>
      simp only [UnitExprT.rename, UnitExprT.units, UnitExprT.uInv.injEq, UnitExprT.uPow.injEq,
        and_true, a.rename_eq_iff f g]
  | uDims us =>
      simp only [UnitExprT.rename, UnitExprT.units, UnitExprT.uDims.injEq,
        renameUnits_eq_iff f g us]

theorem renameUnits_eq_iff (f g : Int → Int) (us : List UnitExprT) :
    renameUnits f us = renameUnits g us ↔ ∀ x ∈ unitsList us, f x = g x := by
  cases us with
  | nil => simp [renameUnits, unitsList]
  | cons u us =>
      simp only [renameUnits, unitsList, List.cons.injEq, List.forall_mem_append,
        u.rename_eq_iff f g, renameUnits_eq_iff f g us]

end

mutual

theorem UnitExprT.rename_id (u : UnitExprT) : u.rename id = u := by
  cases u with
  | uOne | uSym _ | uVar _ | uParam _ => rfl
  | uMul a b | uJoin a b => simp only [UnitExprT.rename, a.rename_id, b.rename_id]
  | uInv a | uPow a _ => simp only [UnitExprT.rename, a.rename_id]
  | uDims us => simp only [UnitExprT.rename, renameUnits_id us]

theorem renameUnits_id (us : List UnitExprT) : renameUnits id us = us := by
  cases us with
  | nil => rfl
  | cons u us => simp only [renameUnits, u.rename_id, renameUnits_id us]

end

/-- What a renaming does to an occurrence. -/
def onId (f : Place → Int → Int) (x : Place × Int) : Place × Int := (x.1, f x.1 x.2)

theorem map_onId (f : Place → Int → Int) (p : Place) (ids : List Int) :
    (ids.map (p, ·)).map (onId f) = (ids.map (f p)).map (p, ·) := by
  simp [onId]

mutual

theorem Ty.occ_rename (f : Place → Int → Int) (t : Ty ε) :
    (t.rename f).occ = t.occ.map (onId f) := by
  cases t with
  | tyListT inner => exact inner.occ_rename f
  | tyFnT args ret row =>
      simp only [Ty.rename, Ty.occ, List.map_append, occList_renameList f args, ret.occ_rename f,
        row.occ_rename f]
  | tyCon _ targs => exact occList_renameList f targs
  | tyDimT inner u =>
      simp only [Ty.rename, Ty.occ, List.map_append, inner.occ_rename f, u.units_rename, map_onId]
  | tyRefineT base _ _ => exact base.occ_rename f
  | tyUnion cs => exact occList_renameList f cs
  | tyShapeApp id arg => simp only [Ty.rename, Ty.occ, List.map_cons, arg.occ_rename f, onId]
  | _ => rfl

theorem occList_renameList (f : Place → Int → Int) (ts : List (Ty ε)) :
    occList (renameList f ts) = (occList ts).map (onId f) := by
  cases ts with
  | nil => rfl
  | cons t ts =>
      simp only [renameList, occList, List.map_append, t.occ_rename f, occList_renameList f ts]

theorem Row.occ_rename (f : Place → Int → Int) (r : Row ε) :
    (r.rename f).occ = r.occ.map (onId f) := by
  cases r with
  | mk labels tail _ =>
      simp only [Row.rename, Row.occ, List.map_append, occLabels_renameLabels f labels, map_onId]
      cases tail <;> rfl

theorem occLabels_renameLabels (f : Place → Int → Int) (ls : List (Label ε)) :
    occLabels (renameLabels f ls) = (occLabels ls).map (onId f) := by
  cases ls with
  | nil => rfl
  | cons l ls =>
      cases l with
      | mk _ tyArgs _ =>
          simp only [renameLabels, occLabels, List.map_append, occList_renameList f tyArgs,
            occLabels_renameLabels f ls]

end

mutual

theorem Ty.rename_rename (f g : Place → Int → Int) (t : Ty ε) :
    (t.rename f).rename g = t.rename fun p => g p ∘ f p := by
  cases t with
  | tyListT inner => simp only [Ty.rename, inner.rename_rename f g]
  | tyFnT args ret row =>
      simp only [Ty.rename, renameList_renameList f g args, ret.rename_rename f g,
        row.rename_rename f g]
  | tyCon _ targs => simp only [Ty.rename, renameList_renameList f g targs]
  | tyDimT inner u => simp only [Ty.rename, inner.rename_rename f g, u.rename_rename]
  | tyRefineT base _ _ => simp only [Ty.rename, base.rename_rename f g]
  | tyUnion cs => simp only [Ty.rename, renameList_renameList f g cs]
  | tyShapeApp id arg => simp only [Ty.rename, arg.rename_rename f g, Function.comp_apply]
  | _ => rfl

theorem renameList_renameList (f g : Place → Int → Int) (ts : List (Ty ε)) :
    renameList g (renameList f ts) = renameList (fun p => g p ∘ f p) ts := by
  cases ts with
  | nil => rfl
  | cons t ts => simp only [renameList, t.rename_rename f g, renameList_renameList f g ts]

theorem Row.rename_rename (f g : Place → Int → Int) (r : Row ε) :
    (r.rename f).rename g = r.rename fun p => g p ∘ f p := by
  cases r with
  | mk labels tail _ =>
      simp only [Row.rename, renameLabels_renameLabels f g labels, Option.map_map]

theorem renameLabels_renameLabels (f g : Place → Int → Int) (ls : List (Label ε)) :
    renameLabels g (renameLabels f ls) = renameLabels (fun p => g p ∘ f p) ls := by
  cases ls with
  | nil => rfl
  | cons l ls =>
      cases l with
      | mk _ tyArgs _ =>
          simp only [renameLabels, renameList_renameList f g tyArgs,
            renameLabels_renameLabels f g ls]

end

mutual

theorem Ty.rename_eq_iff (f g : Place → Int → Int) (t : Ty ε) :
    t.rename f = t.rename g ↔ ∀ x ∈ t.occ, f x.1 x.2 = g x.1 x.2 := by
  cases t with
  | tyListT inner => simp only [Ty.rename, Ty.occ, Ty.tyListT.injEq, inner.rename_eq_iff f g]
  | tyFnT args ret row =>
      simp only [Ty.rename, Ty.occ, Ty.tyFnT.injEq, List.forall_mem_append,
        renameList_eq_iff f g args, ret.rename_eq_iff f g, row.rename_eq_iff f g]
  | tyCon _ targs =>
      simp only [Ty.rename, Ty.occ, Ty.tyCon.injEq, true_and, renameList_eq_iff f g targs]
  | tyDimT inner u =>
      simp only [Ty.rename, Ty.occ, Ty.tyDimT.injEq, List.forall_mem_append,
        inner.rename_eq_iff f g, u.rename_eq_iff, List.forall_mem_map]
  | tyRefineT base _ _ =>
      simp only [Ty.rename, Ty.occ, Ty.tyRefineT.injEq, and_true, base.rename_eq_iff f g]
  | tyUnion cs => simp only [Ty.rename, Ty.occ, Ty.tyUnion.injEq, renameList_eq_iff f g cs]
  | tyShapeApp id arg =>
      simp only [Ty.rename, Ty.occ, Ty.tyShapeApp.injEq, List.forall_mem_cons,
        arg.rename_eq_iff f g]
  | _ => simp [Ty.rename, Ty.occ]

theorem renameList_eq_iff (f g : Place → Int → Int) (ts : List (Ty ε)) :
    renameList f ts = renameList g ts ↔ ∀ x ∈ occList ts, f x.1 x.2 = g x.1 x.2 := by
  cases ts with
  | nil => simp [renameList, occList]
  | cons t ts =>
      simp only [renameList, occList, List.cons.injEq, List.forall_mem_append,
        t.rename_eq_iff f g, renameList_eq_iff f g ts]

theorem Row.rename_eq_iff (f g : Place → Int → Int) (r : Row ε) :
    r.rename f = r.rename g ↔ ∀ x ∈ r.occ, f x.1 x.2 = g x.1 x.2 := by
  cases r with
  | mk labels tail _ =>
      simp only [Row.rename, Row.occ, Row.mk.injEq, List.forall_mem_append,
        renameLabels_eq_iff f g labels, and_true]
      cases tail <;> simp

theorem renameLabels_eq_iff (f g : Place → Int → Int) (ls : List (Label ε)) :
    renameLabels f ls = renameLabels g ls ↔ ∀ x ∈ occLabels ls, f x.1 x.2 = g x.1 x.2 := by
  cases ls with
  | nil => simp [renameLabels, occLabels]
  | cons l ls =>
      cases l with
      | mk _ tyArgs _ =>
          simp only [renameLabels, occLabels, List.cons.injEq, Label.mk.injEq, true_and, and_true,
            List.forall_mem_append, renameList_eq_iff f g tyArgs, renameLabels_eq_iff f g ls]

end

namespace TyScheme

theorem occ_rename (f : Place → Int → Int) (s : TyScheme ε) :
    (s.rename f).occ = s.occ.map (onId f) := by
  simp only [occ, rename, List.map_append, map_onId, Ty.occ_rename]

theorem rename_rename (f g : Place → Int → Int) (s : TyScheme ε) :
    (s.rename f).rename g = s.rename fun p => g p ∘ f p := by
  simp only [rename, List.map_map, Ty.rename_rename]

theorem rename_eq_iff (f g : Place → Int → Int) (s : TyScheme ε) :
    s.rename f = s.rename g ↔ ∀ x ∈ s.occ, f x.1 x.2 = g x.1 x.2 := by
  simp only [occ, rename, TyScheme.mk.injEq, List.forall_mem_append, List.forall_mem_map,
    Ty.rename_eq_iff, List.map_inj_left, true_and]

end TyScheme

end Kaikai.TypeScheme
