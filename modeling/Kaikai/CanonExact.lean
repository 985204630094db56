import Kaikai.CanonScheme
import Mathlib.Data.List.GetD

namespace Kaikai.CanonScheme

open Kaikai.Ranks
open Kaikai.TypeScheme

variable {ε : Type}

/-- Type, row and unit variables are numbered independently of one another. -/
inductive Kind where
  | type
  | row
  | unit
  deriving DecidableEq

def kindOf : Place → Kind
  | .type => .type
  | .row => .row
  | .quantified => .unit
  | .unit => .unit

/-- Different variables of one kind get different names. -/
def InjectiveOn (σ : Kind → Int → Int) (occ : List (Place × Int)) : Prop :=
  ∀ x ∈ occ, ∀ y ∈ occ, kindOf x.1 = kindOf y.1 →
    σ (kindOf x.1) x.2 = σ (kindOf y.1) y.2 → x.2 = y.2

/-- Some bijective renaming of the variables of each kind turns `s` into `s'`,
display aliases apart. -/
def AlphaEq (s s' : TyScheme ε) : Prop :=
  ∃ σ : Kind → Int → Int, InjectiveOn σ s.occ ∧
    s.rename (fun p => σ (kindOf p)) = s'.rename fun _ id => id

/-- Ids of one kind only, none of them in a dimension. -/
def OneKind (s : TyScheme ε) : Prop :=
  (∀ x ∈ s.occ, x.1 ≠ .unit) ∧ ∀ x ∈ s.occ, ∀ y ∈ s.occ, kindOf x.1 = kindOf y.1

/-- No id of two kinds and none in a dimension. -/
def Separate (s : TyScheme ε) : Prop :=
  (∀ x ∈ s.occ, x.1 ≠ .unit) ∧ ∀ x ∈ s.occ, ∀ y ∈ s.occ, x.2 = y.2 → kindOf x.1 = kindOf y.1

theorem OneKind.separate {s : TyScheme ε} (h : OneKind s) : Separate s :=
  ⟨h.1, fun x hx y hy _ => h.2 x hx y hy⟩

theorem mem_visited {occ : List (Place × Int)} {id : Int} :
    id ∈ visited occ ↔ ∃ x ∈ occ, x.1 ≠ .unit ∧ x.2 = id := by
  simp [visited]

theorem mem_rankedIds {s : TyScheme ε} {x : Place × Int} (hx : x ∈ s.occ) (hp : x.1 ≠ .unit) :
    x.2 ∈ rankedIds s :=
  mem_growAll.2 (.inr (mem_visited.2 ⟨x, hx, hp, rfl⟩))

theorem toRank_inj {s : TyScheme ε} {x y : Place × Int} (hx : x ∈ s.occ)
    (hpx : x.1 ≠ .unit) (hpy : y.1 ≠ .unit)
    (h : toRank (rankedIds s) x.1 x.2 = toRank (rankedIds s) y.1 y.2) : x.2 = y.2 := by
  rw [toRank, toRank, if_neg hpx, if_neg hpy, Int.ofNat_inj] at h
  exact (List.idxOf_inj (mem_rankedIds hx hpx)).1 h

theorem exists_occ {s s' : TyScheme ε} {f g : Place → Int → Int} (h : s.rename f = s'.rename g)
    {x : Place × Int} (hx : x ∈ s.occ) : ∃ y ∈ s'.occ, y.1 = x.1 ∧ g y.1 y.2 = f x.1 x.2 := by
  have hocc := congrArg TyScheme.occ h
  rw [TyScheme.occ_rename, TyScheme.occ_rename] at hocc
  have hmem : onId f x ∈ s'.occ.map (onId g) := hocc ▸ List.mem_map_of_mem hx
  obtain ⟨y, hy, heq⟩ := List.mem_map.1 hmem
  exact ⟨y, hy, (Prod.ext_iff.1 heq).1, (Prod.ext_iff.1 heq).2⟩

def ofRank (full : List Int) (n : Int) : Int := full.getD n.toNat 0

theorem ofRank_toRank {s : TyScheme ε} {x : Place × Int} (hx : x ∈ s.occ) (hp : x.1 ≠ .unit) :
    ofRank (rankedIds s) (toRank (rankedIds s) x.1 x.2) = x.2 := by
  have hlt := List.idxOf_lt_length_of_mem (mem_rankedIds hx hp)
  rw [toRank, if_neg hp, ofRank, Int.toNat_natCast, List.getD_eq_getElem _ _ hlt]
  exact List.getElem_idxOf hlt

theorem alphaEq_of_canonScheme_eq {s s' : TyScheme ε} (hunit : ∀ x ∈ s.occ, x.1 ≠ .unit)
    (h : canonScheme s = canonScheme s') : AlphaEq s s' := by
  rw [canonScheme_eq, canonScheme_eq] at h
  have hmatch (x : Place × Int) (hx : x ∈ s.occ) : ∃ y ∈ s'.occ, y.1 ≠ .unit ∧
      toRank (rankedIds s') y.1 y.2 = toRank (rankedIds s) x.1 x.2 := by
    obtain ⟨y, hy, hp, hrank⟩ := exists_occ h hx
    exact ⟨y, hy, hp ▸ hunit x hx, hrank⟩
  have hunit' (y : Place × Int) (hy : y ∈ s'.occ) : y.1 ≠ .unit := by
    obtain ⟨x, hx, hp, -⟩ := exists_occ h.symm hy
    exact hp ▸ hunit x hx
  refine ⟨fun _ id => ofRank (rankedIds s') ((rankedIds s).idxOf id), ?_, ?_⟩
  · intro x hx y hy _ heq
    obtain ⟨x', hx', hpx, hrx⟩ := hmatch x hx
    obtain ⟨y', hy', hpy, hry⟩ := hmatch y hy
    have hx2 := ofRank_toRank hx' hpx
    have hy2 := ofRank_toRank hy' hpy
    rw [hrx, toRank, if_neg (hunit x hx)] at hx2
    rw [hry, toRank, if_neg (hunit y hy)] at hy2
    have hsame : x'.2 = y'.2 := hx2.symm.trans (heq.trans hy2)
    refine toRank_inj hx (hunit x hx) (hunit y hy) ?_
    rw [← hrx, ← hry, toRank, toRank, if_neg hpx, if_neg hpy, hsame]
  · calc s.rename (fun _ id => ofRank (rankedIds s') ((rankedIds s).idxOf id))
        = (s.rename (toRank (rankedIds s))).rename (fun _ => ofRank (rankedIds s')) := by
          rw [TyScheme.rename_rename, TyScheme.rename_eq_iff]
          intro x hx
          rw [Function.comp_apply, toRank, if_neg (hunit x hx)]
      _ = (s'.rename (toRank (rankedIds s'))).rename (fun _ => ofRank (rankedIds s')) := by rw [h]
      _ = s'.rename fun _ id => id := by
          rw [TyScheme.rename_rename, TyScheme.rename_eq_iff]
          intro y hy
          exact ofRank_toRank hy (hunit' y hy)

theorem visited_onId {occ : List (Place × Int)} {f : Place → Int → Int} {r : Int → Int}
    (hf : ∀ x ∈ occ, x.1 ≠ .unit → f x.1 x.2 = r x.2) :
    visited (occ.map (onId f)) = (visited occ).map r := by
  induction occ with
  | nil => rfl
  | cons x occ ih =>
      have hrest := ih fun y hy => hf y (List.mem_cons_of_mem _ hy)
      have hcons (y : Place × Int) (ys : List (Place × Int)) :
          visited (y :: ys) = if y.1 = .unit then visited ys else y.2 :: visited ys := by
        by_cases hy : y.1 = .unit <;> simp [visited, hy]
      rw [List.map_cons, hcons, hcons, hrest]
      by_cases hp : x.1 = .unit
      · rw [if_pos hp, if_pos (show (onId f x).1 = .unit from hp)]
      · rw [if_neg hp, if_neg (show (onId f x).1 ≠ .unit from hp), List.map_cons,
          ← hf x List.mem_cons_self hp]
        rfl

theorem canonScheme_rename {s : TyScheme ε} {f : Place → Int → Int} {r : Int → Int}
    (hf : ∀ x ∈ s.occ, x.1 ≠ .unit → f x.1 x.2 = r x.2)
    (hunit : ∀ x ∈ s.occ, x.1 = .unit → f x.1 x.2 = x.2)
    (hinj : ∀ x ∈ s.occ, ∀ y ∈ s.occ, x.1 ≠ .unit → y.1 ≠ .unit → r x.2 = r y.2 → x.2 = y.2) :
    canonScheme (s.rename f) = canonScheme s := by
  have hinjOn : Set.InjOn r {id | id ∈ visited s.occ} := by
    intro a ha b hb heq
    obtain ⟨x, hx, hpx, rfl⟩ := mem_visited.1 ha
    obtain ⟨y, hy, hpy, rfl⟩ := mem_visited.1 hb
    exact hinj x hx y hy hpx hpy heq
  have hvisited : visited (s.rename f).occ = (visited s.occ).map r := by
    rw [TyScheme.occ_rename, visited_onId hf]
  have hranked : rankedIds (s.rename f) = (rankedIds s).map r := by
    have hsub : Set.InjOn r {id | id ∈ ([] : List Int) ∨ id ∈ visited s.occ} := by
      simpa using hinjOn
    exact (congrArg _ hvisited).trans (growAll_map hsub)
  rw [canonScheme_eq, canonScheme_eq, TyScheme.rename_rename, TyScheme.rename_eq_iff]
  intro x hx
  rw [Function.comp_apply, hranked]
  by_cases hp : x.1 = .unit
  · rw [toRank, toRank, if_pos hp, if_pos hp, hunit x hx hp]
  · have hsub : Set.InjOn r {id | id ∈ rankedIds s} :=
      hinjOn.mono fun id hid => (mem_growAll.1 hid).resolve_left List.not_mem_nil
    rw [toRank, toRank, if_neg hp, if_neg hp, hf x hx hp, idxOf_map hsub (mem_rankedIds hx hp)]

theorem canonScheme_erase (s : TyScheme ε) :
    canonScheme (s.rename fun _ id => id) = canonScheme s :=
  canonScheme_rename (r := fun id => id) (fun _ _ _ => rfl) (fun _ _ _ => rfl) fun _ _ _ _ _ _ h => h

/-- The name an id of the scheme gets, whatever its kind. -/
def nameOf (occ : List (Place × Int)) (σ : Kind → Int → Int) (id : Int) : Int :=
  match occ.find? fun x => x.2 = id with
  | some x => σ (kindOf x.1) id
  | none => id

theorem nameOf_eq {s : TyScheme ε} (hs : Separate s) (σ : Kind → Int → Int) {x : Place × Int}
    (hx : x ∈ s.occ) : nameOf s.occ σ x.2 = σ (kindOf x.1) x.2 := by
  rw [nameOf]
  cases hfind : s.occ.find? fun y => y.2 = x.2 with
  | none =>
      have hnone := List.find?_eq_none.1 hfind x hx
      simp at hnone
  | some y =>
      have hsame : y.2 = x.2 := by simpa using List.find?_some hfind
      dsimp only
      rw [hs.2 y (List.mem_of_find?_eq_some hfind) x hx hsame]

/-- Alpha-equivalent schemes have one canonical form when no id of either serves
two kinds and no dimension holds a unit variable. -/
theorem canonScheme_eq_of_alphaEq {s s' : TyScheme ε} (hs : Separate s) (hs' : Separate s')
    (h : AlphaEq s s') : canonScheme s = canonScheme s' := by
  obtain ⟨σ, hinj, heq⟩ := h
  have hmatch (x : Place × Int) (hx : x ∈ s.occ) : (x.1, σ (kindOf x.1) x.2) ∈ s'.occ := by
    obtain ⟨y, hy, hp, hid⟩ := exists_occ heq hx
    rw [← hp, ← hid] at *
    exact hy
  rw [← canonScheme_erase s', ← heq]
  refine (canonScheme_rename (fun x hx _ => (nameOf_eq hs σ hx).symm) ?_ ?_).symm
  · intro x hx hp
    exact absurd hp (hs.1 x hx)
  · intro x hx y hy _ _ hname
    rw [nameOf_eq hs σ hx, nameOf_eq hs σ hy] at hname
    have hkind : kindOf x.1 = kindOf y.1 :=
      hs'.2 (x.1, σ (kindOf x.1) x.2) (hmatch x hx) (y.1, σ (kindOf y.1) y.2) (hmatch y hy) hname
    exact hinj x hx y hy hkind hname

theorem OneKind.of_alphaEq {s s' : TyScheme ε} (hs : OneKind s) (h : AlphaEq s s') :
    OneKind s' := by
  obtain ⟨σ, -, heq⟩ := h
  have hmatch (y : Place × Int) (hy : y ∈ s'.occ) : ∃ x ∈ s.occ, x.1 = y.1 := by
    obtain ⟨x, hx, hp, -⟩ := exists_occ heq.symm hy
    exact ⟨x, hx, hp⟩
  constructor
  · intro y hy
    obtain ⟨x, hx, hp⟩ := hmatch y hy
    rw [← hp]
    exact hs.1 x hx
  · intro y hy z hz
    obtain ⟨x, hx, hp⟩ := hmatch y hy
    obtain ⟨u, hu, hq⟩ := hmatch z hz
    rw [← hp, ← hq]
    exact hs.2 x hx u hu

/-- Shift the ids of one kind. -/
def shift (k : Kind) (c : Int) (l : Kind) (id : Int) : Int := if l = k then id + c else id

theorem alphaEq_shift (k : Kind) (c : Int) (s : TyScheme ε) :
    AlphaEq s (s.rename fun p => shift k c (kindOf p)) := by
  refine ⟨shift k c, ?_, ?_⟩
  · intro x _ y _ hkind h
    rw [← hkind] at h
    unfold shift at h
    split at h
    · omega
    · exact h
  · rw [TyScheme.rename_rename]
    rfl

theorem oneKind_of_shift {s : TyScheme ε}
    (h : ∀ k c, canonScheme s = canonScheme (s.rename fun p => shift k c (kindOf p))) :
    OneKind s := by
  have hpoint (k : Kind) (c : Int) (x : Place × Int) (hx : x ∈ s.occ) :
      toRank (rankedIds s) x.1 x.2 =
        toRank (rankedIds (s.rename fun p => shift k c (kindOf p))) x.1
          (shift k c (kindOf x.1) x.2) := by
    have heq := h k c
    rw [canonScheme_eq, canonScheme_eq, TyScheme.rename_rename, TyScheme.rename_eq_iff] at heq
    exact heq x hx
  have hunit (x : Place × Int) (hx : x ∈ s.occ) : x.1 ≠ .unit := by
    intro hp
    have hx1 := hpoint .unit 1 x hx
    have hshift : shift .unit 1 (kindOf .unit) x.2 = x.2 + 1 := rfl
    rw [hp, toRank, toRank, if_pos rfl, if_pos rfl, hshift] at hx1
    omega
  refine ⟨hunit, ?_⟩
  intro x hx y hy
  by_contra hkind
  -- shifting the kind of `y` makes or breaks a clash with `x`
  obtain ⟨c, hc⟩ : ∃ c : Int, x.2 = y.2 + c ↔ x.2 ≠ y.2 := by
    by_cases heq : x.2 = y.2
    · exact ⟨1, by omega⟩
    · exact ⟨x.2 - y.2, by omega⟩
  have hx1 := hpoint (kindOf y.1) c x hx
  have hy1 := hpoint (kindOf y.1) c y hy
  have hoccx : (x.1, x.2) ∈ (s.rename fun p => shift (kindOf y.1) c (kindOf p)).occ := by
    rw [TyScheme.occ_rename]
    refine List.mem_map.2 ⟨x, hx, ?_⟩
    rw [onId, shift, if_neg hkind]
  rw [shift, if_neg hkind, toRank, toRank, if_neg (hunit x hx), if_neg (hunit x hx),
    Int.ofNat_inj] at hx1
  rw [shift, if_pos rfl, toRank, toRank, if_neg (hunit y hy), if_neg (hunit y hy),
    Int.ofNat_inj] at hy1
  by_cases heq : x.2 = y.2
  · rw [heq, hy1] at hx1
    have hin := mem_rankedIds hoccx (hunit x hx)
    rw [heq] at hin
    exact absurd (heq.trans ((List.idxOf_inj hin).1 hx1.symm)) fun h' => hc.1 h' heq
  · rw [hc.2 heq, ← hy1, ← hc.2 heq] at hx1
    exact heq ((List.idxOf_inj (mem_rankedIds hx (hunit x hx))).1 hx1)

/-- The canonical form decides alpha-equivalence against every other scheme
exactly for schemes with ids of one kind, and between two schemes whenever no id
of either serves two kinds and no dimension holds a unit variable. -/
theorem canonScheme_decides :
    (∀ s : TyScheme ε, (∀ s', canonScheme s = canonScheme s' ↔ AlphaEq s s') ↔ OneKind s) ∧
      ∀ s s' : TyScheme ε, Separate s → Separate s' →
        (canonScheme s = canonScheme s' ↔ AlphaEq s s') := by
  constructor
  · intro s
    constructor
    · intro h
      exact oneKind_of_shift fun k c => (h _).2 (alphaEq_shift k c s)
    · intro hs s'
      refine ⟨alphaEq_of_canonScheme_eq hs.1, ?_⟩
      intro h
      exact canonScheme_eq_of_alphaEq hs.separate (hs.of_alphaEq h).separate h
  · intro s s' hs hs'
    exact ⟨alphaEq_of_canonScheme_eq hs.1, canonScheme_eq_of_alphaEq hs hs'⟩

/-- `(a) -> a / e` with the row variable `e` numbered `row`. -/
def rowScheme (row : Int) : TyScheme Empty :=
  ⟨[0], [row], [], [], .tyFnT [.tyVarT 0] (.tyVarT 0) (.mk [] (some row) none)⟩

theorem separate_rowScheme {row : Int} (h : row ≠ 0) : Separate (rowScheme row) := by
  have hocc : (rowScheme row).occ =
      [(.type, 0), (.row, row), (.type, 0), (.type, 0), (.row, row)] := rfl
  unfold Separate
  rw [hocc]
  simp [kindOf, h, h.symm]

theorem canonScheme_decides_rowScheme :
    canonScheme (rowScheme 1) = canonScheme (rowScheme 2) ↔
      AlphaEq (rowScheme 1) (rowScheme 2) :=
  canonScheme_decides.2 (rowScheme 1) (rowScheme 2) (separate_rowScheme (by decide))
    (separate_rowScheme (by decide))

/-- `Real<u>` with the unit variable `u` numbered `u`. -/
def unitScheme (u : Int) : TyScheme Empty :=
  ⟨[], [], [u], ["Measure"], .tyDimT .tyReal (.uVar u)⟩

/-- Renaming a unit variable, or a row variable away from the number of a type
variable, changes the canonical form. -/
theorem alphaEq_canonScheme_ne :
    (AlphaEq (unitScheme 7) (unitScheme 8) ∧
      canonScheme (unitScheme 7) ≠ canonScheme (unitScheme 8)) ∧
    AlphaEq (rowScheme 0) (rowScheme 1) ∧
      canonScheme (rowScheme 0) ≠ canonScheme (rowScheme 1) := by
  refine ⟨⟨alphaEq_shift .unit 1 (unitScheme 7), ?_⟩, alphaEq_shift .row 1 (rowScheme 0), ?_⟩
  · intro h
    have hbody := congrArg TyScheme.body h
    exact absurd (congrArg Ty.occ hbody) (by decide)
  · intro h
    exact absurd (congrArg TyScheme.rvs h) (by decide)

end Kaikai.CanonScheme
