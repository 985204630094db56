import Kaikai.Decimal
import Kaikai.StrOrder
import Kaikai.Word64

namespace Kaikai.Units

open Kaikai.Str Kaikai.Word64
open Kaikai.Decimal (intToString)

/-- `UnitExprT`; a variable has the number of its slot, a parameter its own. -/
inductive UnitExprT where
  | uOne
  | uSym (k : Str)
  | uMul (a b : UnitExprT)
  | uInv (a : UnitExprT)
  | uPow (a : UnitExprT) (n : ℤ)
  | uJoin (a b : UnitExprT)
  | uVar (v : ℕ)
  | uDims (us : List UnitExprT)
  | uParam (p : ℤ)

/-- The named atoms and the variables of a unit, each sorted, with exponents. -/
structure UTable where
  syms : List (Str × ℤ)
  vars : List (ℕ × ℤ)
deriving DecidableEq

/-- The part of `Subst` that units read. -/
structure Subst where
  unitSlots : List (Option UnitExprT)
  kindTheories : List (Str × Str)
  unitVarKinds : List (ℕ × Str)

def substUnitLookup (s : Subst) (v : ℕ) : Option UnitExprT :=
  s.unitSlots[v]?.join

def substUnitExtend (s : Subst) (v : ℕ) (u : UnitExprT) : Subst :=
  let len := s.unitSlots.length
  let grown := if len * 2 < v + 1 then v + 1 else len * 2
  let slots :=
    if len ≤ v then s.unitSlots ++ List.replicate (grown - len) none else s.unitSlots
  { s with unitSlots := slots.set v (some u) }

def uvkLookup : List (ℕ × Str) → ℕ → Option Str
  | [], _ => none
  | (id, k) :: rest, v => if id = v then some k else uvkLookup rest v

def substUnitKindLookup (s : Subst) (v : ℕ) : Option Str :=
  uvkLookup s.unitVarKinds v

def substAddUnitKind (s : Subst) (v : ℕ) (k : Str) : Subst :=
  if k = [] then s else { s with unitVarKinds := (v, k) :: s.unitVarKinds }

/-- `usym_insert` and `uvar_insert`: a contribution of `n`, in the order of the keys. -/
def entryInsert {κ : Type} [DecidableEq κ] (lt : κ → κ → Bool) :
    List (κ × ℤ) → κ → ℤ → List (κ × ℤ)
  | [], k, n => if n = 0 then [] else [(k, n)]
  | (hk, hn) :: rest, k, n =>
      if hk = k then (if add hn n = 0 then rest else (hk, add hn n) :: rest)
      else if lt k hk then (if n = 0 then (hk, hn) :: rest else (k, n) :: (hk, hn) :: rest)
      else (hk, hn) :: entryInsert lt rest k n

def usymInsert : List (Str × ℤ) → Str → ℤ → List (Str × ℤ) :=
  entryInsert stringLt

def uvarInsert : List (ℕ × ℤ) → ℕ → ℤ → List (ℕ × ℤ) :=
  entryInsert fun a b => a < b

def UTable.insertSym (t : UTable) (k : Str) (n : ℤ) : UTable :=
  { t with syms := usymInsert t.syms k n }

def UTable.insertVar (t : UTable) (v : ℕ) (n : ℤ) : UTable :=
  { t with vars := uvarInsert t.vars v n }

def utableEmpty : UTable :=
  { syms := [], vars := [] }

def utableIsOne (t : UTable) : Bool :=
  t.syms.isEmpty && t.vars.isEmpty

def unitParamAtom (p : ℤ) : Str :=
  ascii "'" ++ intToString p

mutual

def unitToTableAt : UnitExprT → ℤ → UTable → UTable
  | .uOne, _, t => t
  | .uSym k, scale, t => t.insertSym k scale
  | .uParam p, scale, t => t.insertSym (unitParamAtom p) scale
  | .uVar v, scale, t => t.insertVar v scale
  | .uMul a b, scale, t => unitToTableAt b scale (unitToTableAt a scale t)
  | .uInv a, scale, t => unitToTableAt a (sub 0 scale) t
  | .uPow a n, scale, t => unitToTableAt a (mul scale n) t
  | .uJoin a b, scale, t => unitToTableAt b scale (unitToTableAt a scale t)
  | .uDims us, scale, t => unitsToTableAt us scale t

def unitsToTableAt : List UnitExprT → ℤ → UTable → UTable
  | [], _, t => t
  | u :: rest, scale, t => unitsToTableAt rest scale (unitToTableAt u scale t)

end

def unitToTable (u : UnitExprT) : UTable :=
  unitToTableAt u 1 utableEmpty

/-- `sym_factor` and `var_factor`. -/
def factor (atom : UnitExprT) (n : ℤ) : UnitExprT :=
  if n = 1 then atom
  else if n = -1 then .uInv atom
  else if 0 < n then .uPow atom n
  else .uInv (.uPow atom (sub 0 n))

def treeChain (acc : UnitExprT) : List UnitExprT → UnitExprT
  | [] => acc
  | h :: tl => treeChain (.uMul acc h) tl

def utableToTree (t : UTable) : UnitExprT :=
  match t.syms.map (fun e => factor (.uSym e.1) e.2) ++
      t.vars.map (fun e => factor (.uVar e.1) e.2) with
  | [] => .uOne
  | h :: rest => treeChain h rest

/-- `utable_diff_syms` and `utable_diff_vars`. -/
def entriesDiff {κ : Type} (insert : List (κ × ℤ) → κ → ℤ → List (κ × ℤ)) :
    List (κ × ℤ) → List (κ × ℤ) → List (κ × ℤ)
  | a, [] => a
  | a, (k, n) :: rest => entriesDiff insert (insert a k (sub 0 n)) rest

def utableDiff (a b : UTable) : UTable :=
  { syms := entriesDiff usymInsert a.syms b.syms, vars := entriesDiff uvarInsert a.vars b.vars }

def absInt (n : ℤ) : ℤ :=
  if n < 0 then sub 0 n else n

def utablePickMinVarPick : List (ℕ × ℤ) → ℕ × ℤ → ℕ × ℤ
  | [], best => best
  | (id, e) :: tl, best =>
      if absInt e < absInt best.2 then utablePickMinVarPick tl (id, e)
      else utablePickMinVarPick tl best

def utablePickMinVar (t : UTable) : Option (ℕ × ℤ) :=
  match t.vars with
  | [] => none
  | h :: rest => some (utablePickMinVarPick rest h)

def utableDropVarLoop : List (ℕ × ℤ) → ℕ → List (ℕ × ℤ)
  | [], _ => []
  | (k, n) :: rest, target => if k = target then rest else (k, n) :: utableDropVarLoop rest target

def utableDropVar (t : UTable) (target : ℕ) : UTable :=
  { t with vars := utableDropVarLoop t.vars target }

/-- `syms_divisible` and `vars_divisible`; `none` is the trap of a quotient that does not fit. -/
def entriesDivisible {κ : Type} : List (κ × ℤ) → ℤ → Option Bool
  | [], _ => some true
  | (_, n) :: rest, k => do
      let q ← div n k
      if sub n (mul q k) = 0 then entriesDivisible rest k else some false

def utableAllDivisible (t : UTable) (k : ℤ) : Option Bool := do
  if ← entriesDivisible t.syms k then entriesDivisible t.vars k else some false

/-- `usym_negdiv` and `uvar_negdiv`. -/
def entriesNegdiv {κ : Type} : List (κ × ℤ) → ℤ → Option (List (κ × ℤ))
  | [], _ => some []
  | (a, n) :: rest, k => do
      let q ← div (sub 0 n) k
      let rest' ← entriesNegdiv rest k
      some ((a, q) :: rest')

def utableNegdiv (t : UTable) (k : ℤ) : Option UTable := do
  let syms ← entriesNegdiv t.syms k
  let vars ← entriesNegdiv t.vars k
  some { syms, vars }

/-- The variables with a slot that a walk has not been through. -/
def unseen (s : Subst) (seen : List ℕ) : ℕ :=
  ((Finset.range s.unitSlots.length).filter fun v => v ∉ seen).card

theorem lt_of_substUnitLookup {s : Subst} {v : ℕ} {u : UnitExprT}
    (h : substUnitLookup s v = some u) : v < s.unitSlots.length := by
  by_contra hlen
  rw [substUnitLookup, List.getElem?_eq_none (not_lt.1 hlen)] at h
  exact nomatch h

theorem unseen_cons_lt {s : Subst} {v : ℕ} {seen : List ℕ} (hlt : v < s.unitSlots.length)
    (hseen : v ∉ seen) : unseen s (v :: seen) < unseen s seen := by
  refine Finset.card_lt_card (Finset.ssubset_iff_of_subset ?_ |>.2 ⟨v, ?_, ?_⟩)
  · intro w hw
    simp only [Finset.mem_filter, List.mem_cons, not_or] at hw ⊢
    exact ⟨hw.1, hw.2.2⟩
  · exact Finset.mem_filter.2 ⟨Finset.mem_range.2 hlt, hseen⟩
  · simp

mutual

def unitResolveToAt (s : Subst) : UnitExprT → ℤ → UTable → List ℕ → UTable
  | .uOne, _, t, _ => t
  | .uSym k, scale, t, _ => t.insertSym k scale
  | .uParam p, scale, t, _ => t.insertSym (unitParamAtom p) scale
  | .uVar v, scale, t, seen =>
      if _ : v ∈ seen then t.insertVar v scale
      else
        match _ : substUnitLookup s v with
        | some u => unitResolveToAt s u scale t (v :: seen)
        | none => t.insertVar v scale
  | .uMul a b, scale, t, seen =>
      unitResolveToAt s b scale (unitResolveToAt s a scale t seen) seen
  | .uInv a, scale, t, seen => unitResolveToAt s a (sub 0 scale) t seen
  | .uPow a n, scale, t, seen => unitResolveToAt s a (mul scale n) t seen
  | .uJoin a b, scale, t, seen =>
      unitResolveToAt s b scale (unitResolveToAt s a scale t seen) seen
  | .uDims us, scale, t, seen => unitsResolveToAt s us scale t seen
termination_by u _ _ seen => (unseen s seen, sizeOf u)
decreasing_by
  · exact Prod.Lex.left _ _ (unseen_cons_lt (lt_of_substUnitLookup ‹_›) ‹_›)
  all_goals exact Prod.Lex.right _ (by simp <;> omega)

def unitsResolveToAt (s : Subst) : List UnitExprT → ℤ → UTable → List ℕ → UTable
  | [], _, t, _ => t
  | u :: rest, scale, t, seen =>
      unitsResolveToAt s rest scale (unitResolveToAt s u scale t seen) seen
termination_by us _ _ seen => (unseen s seen, sizeOf us)
decreasing_by
  all_goals exact Prod.Lex.right _ (by simp <;> omega)

end

def unitToTableResolved (u : UnitExprT) (s : Subst) : UTable :=
  unitResolveToAt s u 1 utableEmpty []

def unitResolveHabHead (s : Subst) (u : UnitExprT) (seen : List ℕ) : UnitExprT :=
  match u with
  | .uVar v =>
      if _ : v ∈ seen then .uVar v
      else
        match _ : substUnitLookup s v with
        | some b => unitResolveHabHead s b (v :: seen)
        | none => .uVar v
  | u => u
termination_by unseen s seen
decreasing_by exact unseen_cons_lt (lt_of_substUnitLookup ‹_›) ‹_›

def occursUnitInVars (v : ℕ) (xs : List (ℕ × ℤ)) : Bool :=
  xs.any fun e => e.1 = v

def occursUnit (v : ℕ) (u : UnitExprT) (s : Subst) : Bool :=
  occursUnitInVars v (unitToTableResolved u s).vars

def measureKindName : Str :=
  ascii "Measure"

/-- `kind_qual_index`: where the separator `$` stands. -/
def kindQualIndex (k : Str) : Option ℕ :=
  k.findIdx? (· = 36)

def kindSymKind (k : Str) : Str :=
  match kindQualIndex k with
  | none => []
  | some i => stringSlice k 0 i

def unitSymKindName (sym : Str) : Str :=
  if (kindQualIndex sym).isSome then kindSymKind sym else measureKindName

def theoryOfKind : List (Str × Str) → Str → Str
  | [], _ => []
  | (name, theory) :: rest, kind => if name = kind then theory else theoryOfKind rest kind

def kindIsSemilattice (kts : List (Str × Str)) (kind : Str) : Bool :=
  theoryOfKind kts kind = ascii "Semilattice"

def kindIsFirstOrder (kts : List (Str × Str)) (kind : Str) : Bool :=
  theoryOfKind kts kind = ascii "Module" || theoryOfKind kts kind = ascii "Composition" ||
    theoryOfKind kts kind = ascii "HindleyMilner"

/-- `utable_semilattice_theory` and `utable_first_order`: the kind of a symbol or the constraint of
a variable passes a test. -/
def utableAnyKind (test : List (Str × Str) → Str → Bool) (t : UTable) (s : Subst) : Bool :=
  (t.syms.any fun e => test s.kindTheories (kindSymKind e.1)) ||
    t.vars.any fun e =>
      match substUnitKindLookup s e.1 with
      | some k => test s.kindTheories k
      | none => false

def utableSemilatticeTheory : UTable → Subst → Bool :=
  utableAnyKind kindIsSemilattice

def utableFirstOrder : UTable → Subst → Bool :=
  utableAnyKind kindIsFirstOrder

def ukSymsOk (xs : List (Str × ℤ)) (k : Str) : Bool :=
  xs.all fun e => unitSymKindName e.1 = k

def ukConstrainVars : List (ℕ × ℤ) → Str → Subst → Option Subst
  | [], _, s => some s
  | (v, _) :: rest, k, s =>
      match substUnitKindLookup s v with
      | none => ukConstrainVars rest k (substAddUnitKind s v k)
      | some k2 => if k2 = k then ukConstrainVars rest k s else none

def unitKindGate (s : Subst) (v : ℕ) (bound : UnitExprT) : Option Subst :=
  match substUnitKindLookup s v with
  | none => some s
  | some k =>
      let t := unitToTable bound
      if ukSymsOk t.syms k then ukConstrainVars t.vars k s else none

mutual

/-- `apply_unit`, as deep as positional lists nest. -/
def applyUnit (s : Subst) : ℕ → UnitExprT → UnitExprT
  | 0, u => u
  | depth + 1, u =>
      match unitResolveHabHead s u [] with
      | .uDims us => .uDims (applyUnits s depth us)
      | r => utableToTree (unitToTableResolved r s)

def applyUnits (s : Subst) : ℕ → List UnitExprT → List UnitExprT
  | _, [] => []
  | depth, u :: rest => applyUnit s depth u :: applyUnits s depth rest

end

/-- The engines of the kinds that are not abelian, and of positional lists. -/
structure Engines where
  unifyDims : List UnitExprT → List UnitExprT → Subst → Option Subst
  unifySemilattice : UTable → UTable → Subst → Option Subst
  unifyNominal : UTable → UTable → Subst → Option Subst

def bindUnitDims (v : ℕ) (us : List UnitExprT) (s : Subst) : Option Subst :=
  if occursUnit v (.uDims us) s then none
  else (unitKindGate s v (.uDims us)).map fun s1 => substUnitExtend s1 v (.uDims us)

/-- `unify_abelian_pick`; the outer `none` is a trap. -/
def unifyAbelianPick (t : UTable) (s : Subst) (pick : ℕ × ℤ) : Option (Option Subst) := do
  let rest := utableDropVar t pick.1
  if ← utableAllDivisible rest pick.2 then
    let bound := utableToTree (← utableNegdiv rest pick.2)
    if occursUnit pick.1 bound s then some none
    else some ((unitKindGate s pick.1 bound).map fun s1 => substUnitExtend s1 pick.1 bound)
  else some none

def unifyAbelianDiff (t : UTable) (s : Subst) : Option (Option Subst) :=
  if utableIsOne t then some (some s)
  else
    match utablePickMinVar t with
    | none => some none
    | some pick => unifyAbelianPick t s pick

def unifyDim (engines : Engines) (u1 u2 : UnitExprT) (s : Subst) : Option (Option Subst) :=
  match unitResolveHabHead s u1 [], unitResolveHabHead s u2 [] with
  | .uDims xs, .uDims ys => some (engines.unifyDims xs ys s)
  | .uDims xs, .uVar v => some (bindUnitDims v xs s)
  | .uDims _, _ => some none
  | .uVar v, .uDims ys => some (bindUnitDims v ys s)
  | _, .uDims _ => some none
  | h1, h2 =>
      let t1 := unitToTableResolved h1 s
      let t2 := unitToTableResolved h2 s
      if utableSemilatticeTheory t1 s || utableSemilatticeTheory t2 s then
        some (engines.unifySemilattice t1 t2 s)
      else if utableFirstOrder t1 s || utableFirstOrder t2 s then
        some (engines.unifyNominal t1 t2 s)
      else unifyAbelianDiff (utableDiff t1 t2) s

end Kaikai.Units
