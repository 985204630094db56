import Kaikai.Ranks
import Kaikai.TypeScheme

namespace Kaikai.CanonScheme

open Kaikai.Ranks
open Kaikai.TypeScheme

/-- The ids seen so far, in order of first appearance, and their number. -/
structure VarRemap where
  seen : List Int
  next : Int

def vrEmpty : VarRemap := ⟨[], 0⟩

def vrLookup : List Int → Int → Int → Int
  | [], _, _ => -1
  | h :: t, id, idx => if h = id then idx else vrLookup t id (idx + 1)

def vrIndex (vr : VarRemap) (id : Int) : Int × VarRemap :=
  let found := vrLookup vr.seen id 0
  if found ≥ 0 then (found, vr) else (vr.next, ⟨vr.seen ++ [id], vr.next + 1⟩)

variable {ε : Type}

mutual

def canonTy : Ty ε → VarRemap → Ty ε × VarRemap
  | .tyVarT id, vr =>
      let (ci, vr2) := vrIndex vr id
      (.tyVarT ci, vr2)
  | .tyListT inner, vr =>
      let (ci, vr2) := canonTy inner vr
      (.tyListT ci, vr2)
  | .tyFnT args ret row, vr =>
      let (cas, vr2) := canonTyList args vr []
      let (cret, vr3) := canonTy ret vr2
      let (crow, vr4) := canonRow row vr3
      (.tyFnT cas cret crow, vr4)
  | .tyCon s targs, vr =>
      let (cargs, vr2) := canonTyList targs vr []
      (.tyCon s cargs, vr2)
  | .tyDimT inner u, vr =>
      let (ci, vr2) := canonTy inner vr
      (.tyDimT ci u, vr2)
  | .tyRefineT base pred al, vr =>
      let (cb, vr2) := canonTy base vr
      (.tyRefineT cb pred al, vr2)
  | .tyUnion cs, vr =>
      let (ccs, vr2) := canonTyList cs vr []
      (.tyUnion ccs, vr2)
  | .tyShapeApp id arg, vr =>
      let (ci, vr2) := vrIndex vr id
      let (carg, vr3) := canonTy arg vr2
      (.tyShapeApp ci carg, vr3)
  | t, vr => (t, vr)

def canonTyList : List (Ty ε) → VarRemap → List (Ty ε) → List (Ty ε) × VarRemap
  | [], vr, acc => (acc.reverse, vr)
  | h :: t, vr, acc =>
      let (ch, vr2) := canonTy h vr
      canonTyList t vr2 (ch :: acc)

def canonRow : Row ε → VarRemap → Row ε × VarRemap
  | .mk labels tail _, vr =>
      let (clabels, vr2) := canonLabelList labels vr []
      match tail with
      | none => (.mk clabels none none, vr2)
      | some id =>
          let (ci, vr3) := vrIndex vr2 id
          (.mk clabels (some ci) none, vr3)

def canonLabelList : List (Label ε) → VarRemap → List (Label ε) → List (Label ε) × VarRemap
  | [], vr, acc => (acc.reverse, vr)
  | .mk sym tyArgs cell :: rest, vr, acc =>
      let (cargs, vr2) := canonTyList tyArgs vr []
      canonLabelList rest vr2 (.mk sym cargs cell :: acc)

end

def canonIntListAcc : List Int → VarRemap → List Int → List Int × VarRemap
  | [], vr, acc => (acc.reverse, vr)
  | h :: t, vr, acc =>
      let (ci, vr2) := vrIndex vr h
      canonIntListAcc t vr2 (ci :: acc)

def canonIntList (xs : List Int) (vr : VarRemap) : List Int × VarRemap := canonIntListAcc xs vr []

def canonScheme (s : TyScheme ε) : TyScheme ε :=
  let (ctvs, vr1) := canonIntList s.tvs vrEmpty
  let (crvs, vr2) := canonIntList s.rvs vr1
  let (cdvs, vr3) := canonIntList s.dvs vr2
  let (cbody, _) := canonTy s.body vr3
  ⟨ctvs, crvs, cdvs, s.sps, cbody⟩

/-- The remap that has seen the ids of a list. -/
def remapOf (seen : List Int) : VarRemap := ⟨seen, seen.length⟩

theorem vrLookup_eq (seen : List Int) (id idx : Int) :
    vrLookup seen id idx = if id ∈ seen then idx + seen.idxOf id else -1 := by
  induction seen generalizing idx with
  | nil => rfl
  | cons h t ih =>
      rw [vrLookup, ih]
      by_cases heq : h = id
      · simp [heq]
      · simp only [if_neg heq, List.mem_cons, Ne.symm heq, false_or, List.idxOf_cons_ne t heq]
        split
        · push_cast
          omega
        · rfl

theorem vrIndex_eq (seen : List Int) (id : Int) :
    vrIndex (remapOf seen) id = (((grow seen id).idxOf id : Int), remapOf (grow seen id)) := by
  have hlookup : vrLookup seen id 0 = if id ∈ seen then (seen.idxOf id : Int) else -1 := by
    rw [vrLookup_eq, Int.zero_add]
  simp only [vrIndex, remapOf, hlookup]
  unfold grow
  by_cases h : id ∈ seen
  · simp [h]
  · simp [h, List.idxOf_append_of_notMem]

/-- The ids that the walk visits: those of a dimension it passes over. -/
def visited (occ : List (Place × Int)) : List Int :=
  (occ.filter fun x => x.1 ≠ .unit).map Prod.snd

/-- The renaming to ranks. -/
def toRank (full : List Int) (p : Place) (id : Int) : Int :=
  if p = .unit then id else full.idxOf id

theorem visited_append (xs ys : List (Place × Int)) :
    visited (xs ++ ys) = visited xs ++ visited ys := by
  simp [visited]

theorem visited_units (ids : List Int) : visited (ids.map (Place.unit, ·)) = [] := by
  simp [visited]

theorem visited_map {p : Place} (h : p ≠ .unit) (ids : List Int) :
    visited (ids.map (p, ·)) = ids := by
  have hall : ∀ x ∈ ids.map (p, ·), decide (x.1 ≠ Place.unit) = true := by
    intro x hx
    obtain ⟨id, -, rfl⟩ := List.mem_map.1 hx
    exact decide_eq_true h
  rw [visited, List.filter_eq_self.2 hall]
  simp

section Walk

variable {full : List Int}

theorem prefix_left {seen xs ys : List Int} (h : growAll seen (xs ++ ys) <+: full) :
    growAll seen xs <+: full := by
  rw [growAll_append] at h
  exact (prefix_growAll _ ys).trans h

theorem vrIndex_rank {seen : List Int} {id : Int} {p : Place} (hp : p ≠ .unit)
    (h : growAll seen [id] <+: full) :
    vrIndex (remapOf seen) id = (toRank full p id, remapOf (growAll seen [id])) := by
  rw [vrIndex_eq, toRank, if_neg hp, idxOf_of_prefix h (mem_grow.2 (.inr rfl))]
  rfl

theorem canonIntListAcc_eq {p : Place} (hp : p ≠ .unit) (ids seen acc : List Int)
    (h : growAll seen ids <+: full) :
    canonIntListAcc ids (remapOf seen) acc =
      (acc.reverse ++ ids.map (toRank full p), remapOf (growAll seen ids)) := by
  induction ids generalizing seen acc with
  | nil => simp [canonIntListAcc, growAll]
  | cons id ids ih =>
      have hhead : growAll seen [id] <+: full := (prefix_growAll _ ids).trans h
      rw [canonIntListAcc, vrIndex_rank hp hhead]
      have hnext := ih (growAll seen [id]) (toRank full p id :: acc) h
      dsimp only
      rw [hnext, List.reverse_cons, List.append_assoc]
      rfl

mutual

theorem canonTy_eq (t : Ty ε) (seen : List Int) (h : growAll seen (visited t.occ) <+: full) :
    canonTy t (remapOf seen) =
      (t.rename (toRank full), remapOf (growAll seen (visited t.occ))) := by
  cases t with
  | tyVarT id =>
      rw [canonTy, vrIndex_rank (p := .type) (by decide) h]
      rfl
  | tyListT inner =>
      rw [canonTy, canonTy_eq inner seen h]
      rfl
  | tyFnT args ret row =>
      rw [Ty.occ, visited_append, visited_append] at h ⊢
      have hargs := prefix_left h
      rw [growAll_append] at h ⊢
      have hret := prefix_left h
      rw [growAll_append] at h ⊢
      rw [canonTy, canonTyList_eq args seen [] hargs]
      dsimp only
      rw [canonTy_eq ret _ hret]
      dsimp only
      rw [canonRow_eq row _ h]
      rfl
  | tyCon s targs =>
      rw [canonTy, canonTyList_eq targs seen [] h]
      rfl
  | tyDimT inner u =>
      rw [Ty.occ, visited_append, visited_units, List.append_nil] at h ⊢
      have hunit : u.rename (toRank full .unit) = u := u.rename_id
      rw [canonTy, canonTy_eq inner seen h]
      simp only [Ty.rename, hunit]
  | tyRefineT base pred al =>
      rw [canonTy, canonTy_eq base seen h]
      rfl
  | tyUnion cs =>
      rw [canonTy, canonTyList_eq cs seen [] h]
      rfl
  | tyShapeApp id arg =>
      have hcons : visited (Ty.tyShapeApp id arg).occ = [id] ++ visited arg.occ := by
        simp [Ty.occ, visited]
      rw [hcons] at h ⊢
      have hhead := prefix_left h
      rw [growAll_append] at h ⊢
      rw [canonTy, vrIndex_rank (p := .type) (by decide) hhead]
      dsimp only
      rw [canonTy_eq arg _ h]
      rfl
  | _ => rfl

theorem canonTyList_eq (ts : List (Ty ε)) (seen : List Int) (acc : List (Ty ε))
    (h : growAll seen (visited (occList ts)) <+: full) :
    canonTyList ts (remapOf seen) acc =
      (acc.reverse ++ renameList (toRank full) ts,
        remapOf (growAll seen (visited (occList ts)))) := by
  cases ts with
  | nil => simp [canonTyList, renameList, occList, visited, growAll]
  | cons t ts =>
      rw [occList, visited_append] at h ⊢
      have hhead := prefix_left h
      rw [growAll_append] at h ⊢
      rw [canonTyList, canonTy_eq t seen hhead]
      dsimp only
      rw [canonTyList_eq ts _ _ h, List.reverse_cons, List.append_assoc]
      rfl

theorem canonRow_eq (r : Row ε) (seen : List Int) (h : growAll seen (visited r.occ) <+: full) :
    canonRow r (remapOf seen) =
      (r.rename (toRank full), remapOf (growAll seen (visited r.occ))) := by
  cases r with
  | mk labels tail _ =>
      rw [Row.occ, visited_append, visited_map (by decide)] at h ⊢
      have hlabels := prefix_left h
      rw [growAll_append] at h ⊢
      rw [canonRow, canonLabelList_eq labels seen [] hlabels]
      cases tail with
      | none => rfl
      | some id =>
          dsimp only
          rw [vrIndex_rank (p := .row) (by decide) h]
          rfl

theorem canonLabelList_eq (ls : List (Label ε)) (seen : List Int) (acc : List (Label ε))
    (h : growAll seen (visited (occLabels ls)) <+: full) :
    canonLabelList ls (remapOf seen) acc =
      (acc.reverse ++ renameLabels (toRank full) ls,
        remapOf (growAll seen (visited (occLabels ls)))) := by
  cases ls with
  | nil => simp [canonLabelList, renameLabels, occLabels, visited, growAll]
  | cons l ls =>
      cases l with
      | mk sym tyArgs cell =>
          rw [occLabels, visited_append] at h ⊢
          have hhead := prefix_left h
          rw [growAll_append] at h ⊢
          rw [canonLabelList, canonTyList_eq tyArgs seen [] hhead]
          dsimp only
          rw [canonLabelList_eq ls _ _ h, List.reverse_cons, List.append_assoc]
          rfl

end

end Walk

/-- The ids that `canonScheme` ranks, in order. -/
def rankedIds (s : TyScheme ε) : List Int := growAll [] (visited s.occ)

theorem canonScheme_eq (s : TyScheme ε) : canonScheme s = s.rename (toRank (rankedIds s)) := by
  have hvisited : visited s.occ = s.tvs ++ (s.rvs ++ (s.dvs ++ visited s.body.occ)) := by
    simp only [TyScheme.occ, visited_append]
    rw [visited_map (by decide), visited_map (by decide), visited_map (by decide)]
  have hfull : growAll [] (s.tvs ++ (s.rvs ++ (s.dvs ++ visited s.body.occ))) <+: rankedIds s :=
    ⟨[], by rw [List.append_nil, rankedIds, hvisited]⟩
  have htvs := prefix_left hfull
  rw [growAll_append] at hfull
  have hrvs := prefix_left hfull
  rw [growAll_append] at hfull
  have hdvs := prefix_left hfull
  rw [growAll_append] at hfull
  have hempty : vrEmpty = remapOf [] := rfl
  simp only [canonScheme, canonIntList, hempty, canonIntListAcc_eq (p := .type) (by decide) _ _ _ htvs,
    canonIntListAcc_eq (p := .row) (by decide) _ _ _ hrvs,
    canonIntListAcc_eq (p := .quantified) (by decide) _ _ _ hdvs, canonTy_eq _ _ hfull]
  rfl

end Kaikai.CanonScheme
