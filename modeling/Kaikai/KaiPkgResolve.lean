import Kaikai.KaiPkg

namespace Kaikai.KaiPkg

open Kaikai.Str
open Kaikai.VersionSelection

/-- A git dependency on `s` at `r` is required at the root or by a package. -/
def RequiredBy (remote : Remote) (direct : List Dep) (pkgs : List Pkg) (s r : Str) : Prop :=
  (∃ d ∈ direct, d.kind = .depGit s r) ∨
    ∃ p ∈ pkgs, ∃ d ∈ transitiveDeps remote p, d.kind = .depGit s r

/-- The packages are a minimum-version selection. -/
structure Selected (remote : Remote) (direct : List Dep) (pkgs : List Pkg) : Prop where
  /-- One package for each source. -/
  nodup : (pkgs.map Pkg.source).Nodup
  complete : ∀ s r, RequiredBy remote direct pkgs s r → ∃ p ∈ pkgs, p.source = s
  greatest : ∀ p ∈ pkgs, ∀ r, RequiredBy remote direct pkgs p.source r → refLt p.ref r = false
  required : ∀ p ∈ pkgs, RequiredBy remote direct pkgs p.source p.ref

/-- The same packages with their dependencies listed in another order. -/
structure Reordered (remote remote' : Remote) (direct direct' : List Dep) : Prop where
  direct : direct'.Perm direct
  dependencies : ∀ s r, (remote'.dependencies s r).Perm (remote.dependencies s r)

/-- Every order of the dependencies gives a minimum-version selection, and all
give the same sources with the same refs. -/
def ResolvesMinimal (remote : Remote) (direct : List Dep) : Prop :=
  ∃ selection : Str → Str → Prop, ∀ remote' direct', Reordered remote remote' direct direct' →
    ∃ fuel pkgs, resolveAll remote' fuel direct' = some (.ok pkgs) ∧
      Selected remote' direct' pkgs ∧
        ∀ s r, selection s r ↔ ∃ p ∈ pkgs, p.source = s ∧ p.ref = r

/-- Where the next turn replaces a package, the new one requires whatever the old
one did, at the same ref or a greater one. -/
def CoversReplaced (remote : Remote) (w : Walk) : Prop :=
  ∀ d rest source ref existing, w.pending = d :: rest → d.kind = .depGit source ref →
    findPkg w.acc source = some existing → refLt existing.ref ref = true →
      ∀ s r, (∃ e ∈ transitiveDeps remote existing, e.kind = .depGit s r) →
        ∃ r', refLt r' r = false ∧ ∃ e ∈ remote.dependencies source ref, e.kind = .depGit s r'

/-- Finitely many refs of sources are within reach of the direct dependencies. -/
def Closed (remote : Remote) (direct : List Dep) (known : Finset (Str × Ref)) : Prop :=
  (∀ x ∈ requirements direct, x ∈ known) ∧ ∀ x ∈ known, ∀ y ∈ requires remote x, y ∈ known

theorem findPkg_source {acc : List Pkg} {s : Str} {p : Pkg} (h : findPkg acc s = some p) :
    p ∈ acc ∧ p.source = s := by
  induction acc with
  | nil => cases h
  | cons q acc ih =>
      rw [findPkg] at h
      split at h
      · next hq =>
          cases h
          exact ⟨List.mem_cons_self, hq⟩
      · obtain ⟨hmem, hsource⟩ := ih h
        exact ⟨List.mem_cons_of_mem _ hmem, hsource⟩

theorem findPkg_of_mem {acc : List Pkg} (hnodup : (acc.map Pkg.source).Nodup) {p : Pkg}
    (hp : p ∈ acc) : findPkg acc p.source = some p := by
  induction acc with
  | nil => cases hp
  | cons q acc ih =>
      rw [List.map_cons, List.nodup_cons] at hnodup
      rw [findPkg]
      rcases List.mem_cons.1 hp with rfl | hp
      · rw [if_pos rfl]
      · have hne : q.source ≠ p.source := by
          intro heq
          exact hnodup.1 (heq ▸ List.mem_map_of_mem hp)
        rw [if_neg hne, ih hnodup.2 hp]

theorem source_replacePkg {acc : List Pkg} {p : Pkg} (h : p.source ∈ acc.map Pkg.source) :
    (replacePkg acc p).map Pkg.source = acc.map Pkg.source := by
  induction acc with
  | nil => cases h
  | cons q acc ih =>
      rw [replacePkg]
      split
      · next hq => rw [List.map_cons, List.map_cons, hq]
      · next hq =>
          rw [List.map_cons, List.map_cons, ih]
          exact (List.mem_cons.1 h).resolve_left fun heq => hq heq.symm

theorem findPkg_none {acc : List Pkg} {s : Str} (h : findPkg acc s = none) :
    s ∉ acc.map Pkg.source := by
  induction acc with
  | nil => exact List.not_mem_nil
  | cons q acc ih =>
      rw [findPkg] at h
      split at h
      · cases h
      · next hq =>
          rw [List.map_cons, List.mem_cons]
          rintro (heq | hmem)
          · exact hq heq.symm
          · exact ih h hmem

theorem nodup_reaches {remote : Remote} {direct : List Dep} {w : Walk}
    (h : Reaches remote ⟨direct, []⟩ w) : (w.acc.map Pkg.source).Nodup := by
  induction h with
  | refl => exact List.nodup_nil
  | @turn d rest acc next _ hturn ih =>
      cases hk : d.kind with
      | depUnknown why =>
          simp only [resolveTurn, hk] at hturn
          cases hturn
      | depLocal path =>
          rw [resolveTurn_local hk hturn]
          exact ih
      | depGit s r =>
          rcases resolveTurn_git hk hturn with ⟨-, rfl⟩ | ⟨-, -, hacc⟩
          · exact ih
          rcases hacc with ⟨old, hold, hacc⟩ | ⟨hnone, hacc⟩
          · obtain ⟨hmem, hsource⟩ := findPkg_source hold
            have hin : (fetchPkg remote d.name s r).source ∈ acc.map Pkg.source :=
              List.mem_map.2 ⟨old, hmem, hsource⟩
            rw [hacc, source_replacePkg hin]
            exact ih
          · rw [hacc, List.map_append, List.nodup_append]
            refine ⟨ih, List.nodup_singleton _, ?_⟩
            intro t ht u hu
            rw [List.map_singleton, List.mem_singleton] at hu
            subst hu
            exact fun heq => findPkg_none hnone (heq ▸ ht)

section Acc

variable {remote : Remote} {direct : List Dep} {acc : List Pkg}

theorem chosenOf_iff (hnodup : (acc.map Pkg.source).Nodup) (s r : Str) :
    chosenOf acc s = ↑(Ref.mk r) ↔ ∃ p ∈ acc, p.source = s ∧ p.ref = r := by
  constructor
  · intro h
    rw [chosenOf] at h
    cases hfind : findPkg acc s with
    | none =>
        rw [hfind] at h
        exact absurd h.symm WithBot.coe_ne_bot
    | some p =>
        rw [hfind] at h
        obtain ⟨hmem, hsource⟩ := findPkg_source hfind
        exact ⟨p, hmem, hsource, congrArg Ref.text (WithBot.coe_inj.1 h)⟩
  · rintro ⟨p, hp, rfl, rfl⟩
    rw [chosenOf, findPkg_of_mem hnodup hp]

theorem required_iff (hnodup : (acc.map Pkg.source).Nodup) (s r : Str) :
    Required (requires remote) (requirements direct) (chosenOf acc) (s, Ref.mk r) ↔
      RequiredBy remote direct acc s r := by
  refine or_congr mem_requirements ?_
  constructor
  · rintro ⟨t, ⟨u⟩, hchosen, hmem⟩
    obtain ⟨p, hp, rfl, rfl⟩ := (chosenOf_iff hnodup t u).1 hchosen
    exact ⟨p, hp, mem_requirements.1 hmem⟩
  · rintro ⟨p, hp, hmem⟩
    exact ⟨p.source, ⟨p.ref⟩, (chosenOf_iff hnodup p.source p.ref).2 ⟨p, hp, rfl, rfl⟩,
      mem_requirements.2 hmem⟩

theorem selected_of_isSelection (hnodup : (acc.map Pkg.source).Nodup)
    (h : IsSelection (requires remote) (requirements direct) (chosenOf acc)) :
    Selected remote direct acc := by
  have hle (s r : Str) (hreq : RequiredBy remote direct acc s r) :
      ↑(Ref.mk r) ≤ chosenOf acc s :=
    h.1 s ⟨r⟩ ((required_iff hnodup s r).2 hreq)
  constructor
  · exact hnodup
  · intro s r hreq
    obtain ⟨⟨v⟩, hv⟩ := WithBot.ne_bot_iff_exists.1
      (ne_bot_of_le_ne_bot WithBot.coe_ne_bot (hle s r hreq))
    obtain ⟨p, hp, hsource, -⟩ := (chosenOf_iff hnodup s v).1 hv.symm
    exact ⟨p, hp, hsource⟩
  · intro p hp r hreq
    have hchosen := (chosenOf_iff hnodup p.source p.ref).2 ⟨p, hp, rfl, rfl⟩
    have hle' := hle p.source r hreq
    rw [hchosen, WithBot.coe_le_coe] at hle'
    rw [← Bool.not_eq_true, refLt_iff]
    exact not_lt.2 hle'
  · intro p hp
    exact (required_iff hnodup p.source p.ref).1
      (h.2 p.source ⟨p.ref⟩ ((chosenOf_iff hnodup p.source p.ref).2 ⟨p, hp, rfl, rfl⟩))

end Acc

section Covered

variable {remote : Remote} {direct : List Dep}

theorem coveredTurn_iterate (hdirect : Recognised direct)
    (hremote : ∀ s r, Recognised (remote.dependencies s r))
    (hcov : ∀ w, Reaches remote ⟨direct, []⟩ w → CoversReplaced remote w) (n : Nat) :
    CoveredTurn (requires remote) ((step (requires remote))^[n] (start (requirements direct))) := by
  obtain ⟨⟨pending, acc⟩, hreach, hrec, hstate⟩ := exists_walk hremote ⟨direct, []⟩ hdirect n
  have hstart : stateOf ⟨direct, []⟩ = start (requirements direct) := rfl
  rw [← hstart, ← hstate]
  intro s old v rest hpending hchosen hlt
  dsimp only [stateOf] at hpending hchosen
  rcases reaches_git remote acc pending hrec with
    ⟨hnil, -⟩ | ⟨d, tail, s', r, hk, -, hcons, hreach'⟩
  · rw [hnil] at hpending
    cases hpending
  · rw [hcons] at hpending
    cases hpending
    have hnodup := nodup_reaches hreach
    obtain ⟨existing, hmem, rfl, hold⟩ := (chosenOf_iff hnodup s old.text).1 hchosen
    have hreplaced : refLt existing.ref r = true := by
      rw [refLt_iff, hold]
      exact hlt
    intro t u htu
    have hdep : ∃ e ∈ transitiveDeps remote existing, e.kind = .depGit t u.text := by
      rw [transitiveDeps, hold]
      exact mem_requirements.1 htu
    obtain ⟨u', hle, hmem'⟩ := hcov _ (hreach.trans hreach') d tail existing.source r existing rfl hk
      (findPkg_of_mem hnodup hmem) hreplaced t u.text hdep
    refine ⟨⟨u'⟩, ?_, mem_requirements.2 hmem'⟩
    rw [← Bool.not_eq_true, refLt_iff] at hle
    exact not_lt.1 hle

theorem exists_resolved (hdirect : Recognised direct)
    (hremote : ∀ s r, Recognised (remote.dependencies s r)) {known : Finset (Str × Ref)}
    (hclosed : Closed remote direct known) :
    ∃ n fuel pkgs, resolveAll remote fuel direct = some (.ok pkgs) ∧ (pkgs.map Pkg.source).Nodup ∧
      (step (requires remote))^[n] (start (requirements direct)) = ⟨[], chosenOf pkgs⟩ := by
  have hstart : stateOf ⟨direct, []⟩ = start (requirements direct) := rfl
  obtain ⟨n, hn⟩ := exists_done hclosed.2 (start (requirements direct)) hclosed.1
  obtain ⟨⟨pending, acc⟩, hreach, hrec, hstate⟩ := exists_walk hremote ⟨direct, []⟩ hdirect n
  rw [hstart] at hstate
  rw [← hstate] at hn
  rcases reaches_git remote acc pending hrec with
    ⟨-, hreach'⟩ | ⟨d, tail, s, r, -, -, hcons, -⟩
  · obtain ⟨fuel, hfuel⟩ := exists_fuel (hreach.trans hreach') rfl
    refine ⟨n, fuel, acc, hfuel, nodup_reaches hreach, ?_⟩
    rw [← hstate, stateOf]
    exact congrArg (State.mk · _) hn
  · rw [stateOf, hcons] at hn
    cases hn

end Covered

section Reorder

variable {remote remote' : Remote} {direct direct' : List Dep}

theorem Reordered.refl (remote : Remote) (direct : List Dep) :
    Reordered remote remote direct direct where
  direct := .refl _
  dependencies _ _ := .refl _

theorem Reordered.mem_requires (h : Reordered remote remote' direct direct') (x y : Str × Ref) :
    y ∈ requires remote x ↔ y ∈ requires remote' x :=
  ((h.dependencies x.1 x.2.text).filterMap requirement).mem_iff.symm

theorem Reordered.mem_direct (h : Reordered remote remote' direct direct') (x : Str × Ref) :
    x ∈ requirements direct ↔ x ∈ requirements direct' :=
  (h.direct.filterMap requirement).mem_iff.symm

theorem Reordered.closed (h : Reordered remote remote' direct direct')
    {known : Finset (Str × Ref)} (hclosed : Closed remote direct known) :
    Closed remote' direct' known :=
  ⟨fun x hx => hclosed.1 x ((h.mem_direct x).2 hx),
    fun x hx y hy => hclosed.2 x hx y ((h.mem_requires x y).2 hy)⟩

end Reorder

/-- The resolver is minimum-version selection for every order of the
dependencies when no turn drops or lowers a requirement of a package. -/
theorem resolvesMinimal_of_covered {remote : Remote} {direct : List Dep}
    {known : Finset (Str × Ref)} (hdirect : Recognised direct)
    (hremote : ∀ s r, Recognised (remote.dependencies s r)) (hclosed : Closed remote direct known)
    (hcov : ∀ remote' direct', Reordered remote remote' direct direct' →
      ∀ w, Reaches remote' ⟨direct', []⟩ w → CoversReplaced remote' w) :
    ResolvesMinimal remote direct := by
  obtain ⟨n, -, first, -, hnodup, hrun⟩ := exists_resolved hdirect hremote hclosed
  have hfirst := coveredTurn_iterate hdirect hremote (hcov remote direct (.refl remote direct))
  refine ⟨fun s r => ∃ p ∈ first, p.source = s ∧ p.ref = r, ?_⟩
  intro remote' direct' hreorder
  have hdirect' : Recognised direct' := fun d hd => hdirect d (hreorder.direct.mem_iff.1 hd)
  have hremote' : ∀ s r, Recognised (remote'.dependencies s r) := fun s r d hd =>
    hremote s r d ((hreorder.dependencies s r).mem_iff.1 hd)
  have hturns := coveredTurn_iterate hdirect' hremote' (hcov remote' direct' hreorder)
  obtain ⟨n', fuel, pkgs, hfuel, hnodup', hrun'⟩ :=
    exists_resolved hdirect' hremote' (hreorder.closed hclosed)
  refine ⟨fuel, pkgs, hfuel, ?_, ?_⟩
  · have hselection := (inv_iterate hturns n').isSelection (by rw [hrun'])
    rw [hrun'] at hselection
    exact selected_of_isSelection hnodup' hselection
  · have hdone : ((step (requires remote))^[n] (start (requirements direct))).pending = [] := by
      rw [hrun]
    have hdone' : ((step (requires remote'))^[n'] (start (requirements direct'))).pending = [] := by
      rw [hrun']
    have hsame := chosen_eq hreorder.mem_requires hreorder.mem_direct hfirst hturns hdone hdone'
    rw [hrun, hrun'] at hsame
    dsimp only at hsame
    intro s r
    have hfind := chosenOf_iff hnodup s r
    rw [hsame] at hfind
    exact hfind.symm.trans (chosenOf_iff hnodup' s r)

/-- No later ref of a source drops or lowers a requirement of an earlier one. -/
def Monotone (remote : Remote) : Prop :=
  ∀ source ref ref', refLt ref ref' = true →
    ∀ s r, (∃ e ∈ remote.dependencies source ref, e.kind = .depGit s r) →
      ∃ r', refLt r' r = false ∧ ∃ e ∈ remote.dependencies source ref', e.kind = .depGit s r'

theorem Monotone.reordered {remote remote' : Remote} {direct direct' : List Dep}
    (h : Monotone remote) (hreorder : Reordered remote remote' direct direct') :
    Monotone remote' := by
  intro source ref ref' hlt s r hdep
  obtain ⟨e, he, hk⟩ := hdep
  obtain ⟨r', hle, e', he', hk'⟩ := h source ref ref' hlt s r
    ⟨e, (hreorder.dependencies source ref).mem_iff.1 he, hk⟩
  exact ⟨r', hle, e', (hreorder.dependencies source ref').mem_iff.2 he', hk'⟩

theorem Monotone.coversReplaced {remote : Remote} (h : Monotone remote) (w : Walk) :
    CoversReplaced remote w := by
  intro d rest source ref existing _ _ hfind hlt s r hdep
  obtain ⟨-, hsource⟩ := findPkg_source hfind
  rw [transitiveDeps, hsource] at hdep
  exact h source existing.ref ref hlt s r hdep

/-- Every ref of `a` requires `c`, and `x` and `y` require `a` at two refs. -/
def ladder : Remote where
  sha _ _ := []
  cache _ _ := []
  dependencies source _ :=
    if source = ascii "x" then [⟨ascii "a", .depGit (ascii "a") (ascii "1")⟩]
    else if source = ascii "y" then [⟨ascii "a", .depGit (ascii "a") (ascii "2")⟩]
    else if source = ascii "a" then [⟨ascii "c", .depGit (ascii "c") (ascii "1")⟩]
    else []

theorem resolveLoop_add {remote : Remote} {fuel : Nat} {pending : List Dep} {acc : List Pkg}
    {result : Except Int (List Pkg)} (h : resolveLoop remote fuel pending acc = some result)
    (more : Nat) : resolveLoop remote (fuel + more) pending acc = some result := by
  fun_induction resolveLoop remote fuel pending acc with
  | case1 => cases h
  | case2 fuel acc =>
      rw [Nat.succ_add, resolveLoop]
      exact h
  | case3 fuel d rest acc code hturn =>
      rw [Nat.succ_add, resolveLoop, hturn]
      exact h
  | case4 fuel d rest acc next hturn ih =>
      rw [Nat.succ_add, resolveLoop, hturn]
      exact ih h

/-- `x` and `y` require `a` at two refs, of which only the lower requires `c`. -/
def diamond : Remote where
  sha _ _ := []
  cache _ _ := []
  dependencies source ref :=
    if source = ascii "x" then [⟨ascii "a", .depGit (ascii "a") (ascii "1")⟩]
    else if source = ascii "y" then [⟨ascii "a", .depGit (ascii "a") (ascii "2")⟩]
    else if source = ascii "a" ∧ ref = ascii "1" then
      [⟨ascii "c", .depGit (ascii "c") (ascii "1")⟩]
    else []

def diamondDirect : List Dep :=
  [⟨ascii "x", .depGit (ascii "x") (ascii "1")⟩, ⟨ascii "y", .depGit (ascii "y") (ascii "1")⟩]

def diamondPkgs : List Pkg :=
  [⟨ascii "x", ascii "x", ascii "1", [], []⟩, ⟨ascii "y", ascii "y", ascii "1", [], []⟩,
    ⟨ascii "a", ascii "a", ascii "2", [], []⟩, ⟨ascii "c", ascii "c", ascii "1", [], []⟩]

theorem monotone_ladder : Monotone ladder := by
  intro source ref ref' _ s r hdep
  have hrefl : ∀ a : Str, refLt a a = false := by
    intro a
    rw [← Bool.not_eq_true, refLt_iff]
    exact lt_irrefl _
  exact ⟨r, hrefl r, hdep⟩

theorem recognised_ladder (s r : Str) : Recognised (ladder.dependencies s r) := by
  intro d hd why
  simp only [ladder] at hd
  split at hd
  · rw [List.mem_singleton.1 hd]
    exact DepKind.noConfusion
  split at hd
  · rw [List.mem_singleton.1 hd]
    exact DepKind.noConfusion
  split at hd
  · rw [List.mem_singleton.1 hd]
    exact DepKind.noConfusion
  · cases hd

theorem recognised_diamondDirect : Recognised diamondDirect := by
  intro d hd why
  rcases List.mem_pair.1 hd with rfl | rfl <;> exact DepKind.noConfusion

theorem resolvesMinimal_ladder : ResolvesMinimal ladder diamondDirect := by
  have hclosed : Closed ladder diamondDirect
      {(ascii "x", ⟨ascii "1"⟩), (ascii "y", ⟨ascii "1"⟩), (ascii "a", ⟨ascii "1"⟩),
        (ascii "a", ⟨ascii "2"⟩), (ascii "c", ⟨ascii "1"⟩)} := by
    constructor <;> decide
  exact resolvesMinimal_of_covered recognised_diamondDirect recognised_ladder hclosed
    fun _ _ hreorder w _ => (monotone_ladder.reordered hreorder).coversReplaced w

theorem resolveAll_diamond : resolveAll diamond 6 diamondDirect = some (.ok diamondPkgs) := by
  decide

/-- In the order given, `c` stays although only the replaced `a` required it. -/
theorem not_resolvesMinimal_diamond :
    Closed diamond diamondDirect
      {(ascii "x", ⟨ascii "1"⟩), (ascii "y", ⟨ascii "1"⟩), (ascii "a", ⟨ascii "1"⟩),
        (ascii "a", ⟨ascii "2"⟩), (ascii "c", ⟨ascii "1"⟩)} ∧
      ¬ResolvesMinimal diamond diamondDirect := by
  refine ⟨by constructor <;> decide, ?_⟩
  rintro ⟨selection, h⟩
  obtain ⟨fuel, pkgs, hrun, hselected, -⟩ := h diamond diamondDirect (.refl _ _)
  have hpkgs : pkgs = diamondPkgs := by
    have h6 := resolveLoop_add resolveAll_diamond fuel
    rw [Nat.add_comm] at h6
    have hrun' := resolveLoop_add hrun 6
    rw [h6] at hrun'
    exact (Except.ok.inj (Option.some.inj hrun')).symm
  subst hpkgs
  have hc : (⟨ascii "c", ascii "c", ascii "1", [], []⟩ : Pkg) ∈ diamondPkgs := by decide
  have hnone : ¬((∃ d ∈ diamondDirect, d.kind = .depGit (ascii "c") (ascii "1")) ∨
      ∃ p ∈ diamondPkgs, ∃ d ∈ transitiveDeps diamond p,
        d.kind = .depGit (ascii "c") (ascii "1")) := by
    decide
  exact hnone (hselected.required _ hc)

end Kaikai.KaiPkg
