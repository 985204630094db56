import Kaikai.Str
import Kaikai.VersionSelection
import Mathlib.Data.List.Lex

namespace Kaikai.KaiPkg

open Kaikai.Str
open Kaikai.VersionSelection

inductive DepKind where
  | depGit (source ref : Str)
  | depLocal (path : Str)
  | depUnknown (why : Str)
  deriving DecidableEq

structure Dep where
  name : Str
  kind : DepKind
  deriving DecidableEq

structure Pkg where
  name : Str
  source : Str
  ref : Str
  sha : Str
  cache : Str
  deriving DecidableEq

/-- What fetching a source at a ref gives: the commit, the place in the cache and
the dependencies of the manifest found there. -/
structure Remote where
  sha : Str → Str → Str
  cache : Str → Str → Str
  dependencies : Str → Str → List Dep

def refLt : Str → Str → Bool
  | [], [] => false
  | [], _ :: _ => true
  | _ :: _, [] => false
  | ca :: a, cb :: b => if ca = cb then refLt a b else ca < cb

def findPkg : List Pkg → Str → Option Pkg
  | [], _ => none
  | p :: rest, source => if p.source = source then some p else findPkg rest source

def replacePkg : List Pkg → Pkg → List Pkg
  | [], newP => [newP]
  | p :: rest, newP => if p.source = newP.source then newP :: rest else p :: replacePkg rest newP

def fetchPkg (remote : Remote) (name source ref : Str) : Pkg :=
  { name, source, ref, sha := remote.sha source ref, cache := remote.cache source ref }

def transitiveDeps (remote : Remote) (p : Pkg) : List Dep := remote.dependencies p.source p.ref

/-- The arguments of `resolve_loop`. -/
structure Walk where
  pending : List Dep
  acc : List Pkg

/-- The tail call that `resolve_loop` makes for the dependency `d`, or the code
it exits with. -/
def resolveTurn (remote : Remote) (d : Dep) (rest : List Dep) (acc : List Pkg) : Except Int Walk :=
  match d.kind with
  | .depLocal _ => .ok ⟨rest, acc⟩
  | .depUnknown _ => .error 2
  | .depGit source ref =>
      match findPkg acc source with
      | some existing =>
          if refLt existing.ref ref then
            let p := fetchPkg remote d.name source ref
            .ok ⟨rest ++ transitiveDeps remote p, replacePkg acc p⟩
          else .ok ⟨rest, acc⟩
      | none =>
          let p := fetchPkg remote d.name source ref
          .ok ⟨rest ++ transitiveDeps remote p, acc ++ [p]⟩

/-- `none` when the fuel does not reach the end of the list. -/
def resolveLoop (remote : Remote) : Nat → List Dep → List Pkg → Option (Except Int (List Pkg))
  | 0, _, _ => none
  | _ + 1, [], acc => some (.ok acc)
  | fuel + 1, d :: rest, acc =>
      match resolveTurn remote d rest acc with
      | .error code => some (.error code)
      | .ok next => resolveLoop remote fuel next.pending next.acc

def resolveAll (remote : Remote) (fuel : Nat) (deps : List Dep) : Option (Except Int (List Pkg)) :=
  resolveLoop remote fuel deps []

/-- A ref, ordered as `ref_lt` does. -/
@[ext]
structure Ref where
  text : Str
  deriving DecidableEq

/-- The order of the byte codes, one after another. -/
def Ref.codes (r : Ref) : List Nat := r.text.map UInt8.toNat

theorem Ref.codes_injective : Function.Injective Ref.codes := by
  intro a b h
  have hcode : Function.Injective UInt8.toNat := fun _ _ => UInt8.toNat_inj.1
  exact Ref.ext (hcode.list_map h)

instance : LinearOrder Ref := LinearOrder.lift' Ref.codes Ref.codes_injective

theorem refLt_iff (a b : Str) : refLt a b = true ↔ Ref.mk a < Ref.mk b := by
  have hcodes : ∀ a b : Str, refLt a b = true ↔ a.map UInt8.toNat < b.map UInt8.toNat := by
    intro a
    induction a with
    | nil => intro b; cases b <;> simp [refLt]
    | cons ca a ih =>
        intro b
        cases b with
        | nil => simp [refLt]
        | cons cb b =>
            rw [refLt, List.map_cons, List.map_cons, List.cons_lt_cons_iff]
            split
            · next h =>
                subst h
                simp [ih]
            · next h =>
                have hne : ca.toNat ≠ cb.toNat := fun heq => h (UInt8.toNat_inj.1 heq)
                simp [hne, UInt8.lt_iff_toNat_lt]
  exact hcodes a b

def requirement (d : Dep) : Option (Str × Ref) :=
  match d.kind with
  | .depGit source ref => some (source, ⟨ref⟩)
  | _ => none

def requirements (ds : List Dep) : List (Str × Ref) := ds.filterMap requirement

/-- What a source at a ref requires. -/
def requires (remote : Remote) (x : Str × Ref) : List (Str × Ref) :=
  requirements (remote.dependencies x.1 x.2.text)

def chosenOf (acc : List Pkg) (source : Str) : WithBot Ref :=
  match findPkg acc source with
  | some p => (Ref.mk p.ref : WithBot Ref)
  | none => ⊥

def stateOf (w : Walk) : State Str Ref := ⟨requirements w.pending, chosenOf w.acc⟩

theorem mem_requirements {ds : List Dep} {s r : Str} :
    (s, Ref.mk r) ∈ requirements ds ↔ ∃ d ∈ ds, d.kind = .depGit s r := by
  rw [requirements, List.mem_filterMap]
  refine exists_congr fun d => and_congr_right fun _ => ?_
  unfold requirement
  cases d.kind <;> simp

theorem requirements_append (ds ds' : List Dep) :
    requirements (ds ++ ds') = requirements ds ++ requirements ds' :=
  List.filterMap_append

theorem requirements_cons_git {d : Dep} {s r : Str} (rest : List Dep) (hd : d.kind = .depGit s r) :
    requirements (d :: rest) = (s, Ref.mk r) :: requirements rest := by
  have h : requirement d = some (s, Ref.mk r) := by simp only [requirement, hd]
  exact List.filterMap_cons_some h

theorem requirements_cons_local {d : Dep} {path : Str} (rest : List Dep)
    (hd : d.kind = .depLocal path) : requirements (d :: rest) = requirements rest := by
  have h : requirement d = none := by simp only [requirement, hd]
  exact List.filterMap_cons_none h

theorem findPkg_append_self {acc : List Pkg} {p : Pkg} (h : findPkg acc p.source = none) :
    findPkg (acc ++ [p]) p.source = some p := by
  induction acc with
  | nil => simp [findPkg]
  | cons q acc ih =>
      rw [List.cons_append, findPkg]
      rw [findPkg] at h
      split
      · next hq => simp [hq] at h
      · next hq =>
          rw [if_neg hq] at h
          exact ih h

theorem findPkg_append_of_ne {acc : List Pkg} {p : Pkg} {s : Str} (h : p.source ≠ s) :
    findPkg (acc ++ [p]) s = findPkg acc s := by
  induction acc with
  | nil => simp [findPkg, h]
  | cons q acc ih => rw [List.cons_append, findPkg, findPkg, ih]

theorem findPkg_replacePkg_self (acc : List Pkg) (p : Pkg) :
    findPkg (replacePkg acc p) p.source = some p := by
  induction acc with
  | nil => simp [replacePkg, findPkg]
  | cons q acc ih =>
      rw [replacePkg]
      split
      · simp [findPkg]
      · next hq => rw [findPkg, if_neg hq, ih]

theorem findPkg_replacePkg_of_ne {acc : List Pkg} {p : Pkg} {s : Str} (h : p.source ≠ s) :
    findPkg (replacePkg acc p) s = findPkg acc s := by
  induction acc with
  | nil => simp [replacePkg, findPkg, h]
  | cons q acc ih =>
      rw [replacePkg]
      split
      · next hq => rw [findPkg, findPkg, if_neg h, if_neg (hq ▸ h)]
      · rw [findPkg, findPkg, ih]

theorem chosenOf_update {acc acc' : List Pkg} {p : Pkg}
    (hself : findPkg acc' p.source = some p)
    (hother : ∀ s, p.source ≠ s → findPkg acc' s = findPkg acc s) :
    chosenOf acc' = Function.update (chosenOf acc) p.source ↑(Ref.mk p.ref) := by
  funext s
  by_cases hs : s = p.source
  · rw [hs, Function.update_self, chosenOf, hself]
  · rw [Function.update_of_ne hs, chosenOf, chosenOf, hother s (Ne.symm hs)]

theorem resolveTurn_local {remote : Remote} {d : Dep} {rest : List Dep} {acc : List Pkg}
    {next : Walk} {path : Str} (hd : d.kind = .depLocal path)
    (h : resolveTurn remote d rest acc = .ok next) : next = ⟨rest, acc⟩ := by
  simp only [resolveTurn, hd] at h
  exact (Except.ok.inj h).symm

theorem resolveTurn_git {remote : Remote} {d : Dep} {rest : List Dep} {acc : List Pkg}
    {next : Walk} {s r : Str} (hd : d.kind = .depGit s r)
    (h : resolveTurn remote d rest acc = .ok next) :
    (¬chosenOf acc s < ↑(Ref.mk r) ∧ next = ⟨rest, acc⟩) ∨
      (chosenOf acc s < ↑(Ref.mk r) ∧ next.pending = rest ++ remote.dependencies s r ∧
        ((∃ old, findPkg acc s = some old ∧
            next.acc = replacePkg acc (fetchPkg remote d.name s r)) ∨
          findPkg acc s = none ∧ next.acc = acc ++ [fetchPkg remote d.name s r])) := by
  simp only [resolveTurn, hd] at h
  cases hfind : findPkg acc s with
  | none =>
      rw [hfind] at h
      have hnext := Except.ok.inj h
      refine .inr ⟨?_, by rw [← hnext]; rfl, .inr ⟨rfl, by rw [← hnext]⟩⟩
      rw [chosenOf, hfind]
      exact WithBot.bot_lt_coe _
  | some existing =>
      simp only [hfind] at h
      have hlt : chosenOf acc s < ↑(Ref.mk r) ↔ refLt existing.ref r = true := by
        rw [refLt_iff, chosenOf, hfind]
        exact WithBot.coe_lt_coe
      rw [hlt]
      split at h
      · next hr =>
          have hnext := Except.ok.inj h
          exact .inr ⟨hr, by rw [← hnext]; rfl, .inl ⟨existing, rfl, by rw [← hnext]⟩⟩
      · next hr => exact .inl ⟨hr, (Except.ok.inj h).symm⟩

theorem stateOf_turn_git {remote : Remote} {d : Dep} {rest : List Dep} {acc : List Pkg}
    {next : Walk} {s r : Str} (hd : d.kind = .depGit s r)
    (h : resolveTurn remote d rest acc = .ok next) :
    stateOf next = step (requires remote) (stateOf ⟨d :: rest, acc⟩) := by
  have hstate : stateOf ⟨d :: rest, acc⟩ =
      ⟨(s, Ref.mk r) :: requirements rest, chosenOf acc⟩ := by
    rw [stateOf, requirements_cons_git rest hd]
  rw [hstate]
  rcases resolveTurn_git hd h with ⟨hlt, rfl⟩ | ⟨hlt, hpending, hacc⟩
  · rw [step_skip hlt]
    rfl
  · rw [step_fetch hlt, stateOf, hpending, requirements_append]
    congr 1
    rcases hacc with ⟨old, -, hacc⟩ | ⟨hnone, hacc⟩
    · rw [hacc]
      exact chosenOf_update (findPkg_replacePkg_self ..) fun t ht => findPkg_replacePkg_of_ne ht
    · rw [hacc]
      exact chosenOf_update (findPkg_append_self hnone) fun t ht => findPkg_append_of_ne ht

/-- The walks that the loop passes through. -/
inductive Reaches (remote : Remote) (first : Walk) : Walk → Prop where
  | refl : Reaches remote first first
  | turn {d : Dep} {rest : List Dep} {acc : List Pkg} {next : Walk} :
      Reaches remote first ⟨d :: rest, acc⟩ → resolveTurn remote d rest acc = .ok next →
      Reaches remote first next

theorem Reaches.trans {remote : Remote} {u v w : Walk} (huv : Reaches remote u v)
    (hvw : Reaches remote v w) : Reaches remote u w := by
  induction hvw with
  | refl => exact huv
  | turn _ hturn ih => exact .turn ih hturn

theorem exists_fuel {remote : Remote} {first last : Walk} (h : Reaches remote first last)
    (hlast : last.pending = []) :
    ∃ fuel, resolveLoop remote fuel first.pending first.acc = some (.ok last.acc) := by
  have hall : ∀ fuel, ∃ fuel', resolveLoop remote fuel' first.pending first.acc =
      resolveLoop remote fuel last.pending last.acc := by
    clear hlast
    induction h with
    | refl => exact fun fuel => ⟨fuel, rfl⟩
    | turn _ hturn ih =>
        intro fuel
        obtain ⟨fuel', heq⟩ := ih (fuel + 1)
        refine ⟨fuel', heq.trans ?_⟩
        rw [resolveLoop, hturn]
  obtain ⟨fuel, heq⟩ := hall 1
  refine ⟨fuel, heq.trans ?_⟩
  rw [hlast]
  rfl

/-- No dependency has a form that the manifest reader rejects. -/
def Recognised (ds : List Dep) : Prop := ∀ d ∈ ds, ∀ why, d.kind ≠ .depUnknown why

section Run

variable {remote : Remote}

theorem recognised_turn (hremote : ∀ s r, Recognised (remote.dependencies s r)) {d : Dep}
    {rest : List Dep} {acc : List Pkg} {next : Walk} (h : Recognised (d :: rest))
    (hturn : resolveTurn remote d rest acc = .ok next) : Recognised next.pending := by
  have hrest : Recognised rest := fun e he => h e (List.mem_cons_of_mem _ he)
  cases hk : d.kind with
  | depGit s r =>
      rcases resolveTurn_git hk hturn with ⟨-, rfl⟩ | ⟨-, hpending, -⟩
      · exact hrest
      · rw [hpending]
        intro e he
        rcases List.mem_append.1 he with he | he
        · exact hrest e he
        · exact hremote s r e he
  | depLocal path =>
      rw [resolveTurn_local hk hturn]
      exact hrest
  | depUnknown why => exact absurd hk (h d List.mem_cons_self why)

theorem exists_turn (acc : List Pkg) {d : Dep} (rest : List Dep)
    (h : ∀ why, d.kind ≠ .depUnknown why) : ∃ next, resolveTurn remote d rest acc = .ok next := by
  unfold resolveTurn
  cases hk : d.kind with
  | depGit s r =>
      dsimp only
      cases findPkg acc s with
      | none => exact ⟨_, rfl⟩
      | some existing =>
          dsimp only
          split <;> exact ⟨_, rfl⟩
  | depLocal path => exact ⟨_, rfl⟩
  | depUnknown why => exact absurd hk (h why)

theorem reaches_git (remote : Remote) (acc : List Pkg) (pending : List Dep) (h : Recognised pending) :
    (requirements pending = [] ∧ Reaches remote ⟨pending, acc⟩ ⟨[], acc⟩) ∨
      ∃ d rest s r, d.kind = .depGit s r ∧ Recognised (d :: rest) ∧
        requirements pending = (s, Ref.mk r) :: requirements rest ∧
        Reaches remote ⟨pending, acc⟩ ⟨d :: rest, acc⟩ := by
  induction pending with
  | nil => exact .inl ⟨rfl, .refl⟩
  | cons d rest ih =>
      have hrest : Recognised rest := fun e he => h e (List.mem_cons_of_mem _ he)
      cases hk : d.kind with
      | depGit s r =>
          exact .inr ⟨d, rest, s, r, hk, h, requirements_cons_git rest hk, .refl⟩
      | depLocal path =>
          have hturn : Reaches remote ⟨d :: rest, acc⟩ ⟨rest, acc⟩ :=
            .turn .refl (by simp only [resolveTurn, hk])
          rw [requirements_cons_local rest hk]
          rcases ih hrest with ⟨hnil, hreach⟩ | ⟨e, tail, s, r, hkind, hrec, hcons, hreach⟩
          · exact .inl ⟨hnil, hturn.trans hreach⟩
          · exact .inr ⟨e, tail, s, r, hkind, hrec, hcons, hturn.trans hreach⟩
      | depUnknown why => exact absurd hk (h d List.mem_cons_self why)

theorem exists_walk (hremote : ∀ s r, Recognised (remote.dependencies s r)) (first : Walk)
    (hfirst : Recognised first.pending) (n : Nat) :
    ∃ w, Reaches remote first w ∧ Recognised w.pending ∧
      stateOf w = (step (requires remote))^[n] (stateOf first) := by
  induction n with
  | zero => exact ⟨first, .refl, hfirst, rfl⟩
  | succ n ih =>
      obtain ⟨⟨pending, acc⟩, hreach, hrec, hstate⟩ := ih
      rw [Function.iterate_succ_apply', ← hstate]
      rcases reaches_git remote acc pending hrec with ⟨hnil, -⟩ | ⟨d, rest, s, r, hk, hrec', hcons, hreach'⟩
      · refine ⟨⟨pending, acc⟩, hreach, hrec, ?_⟩
        simp only [stateOf, hnil]
        rfl
      · obtain ⟨next, hturn⟩ := exists_turn acc rest (hrec' d List.mem_cons_self)
        refine ⟨next, hreach.trans (hreach'.turn hturn), recognised_turn hremote hrec' hturn, ?_⟩
        rw [stateOf_turn_git hk hturn]
        simp only [stateOf, hcons, requirements_cons_git rest hk]

end Run

end Kaikai.KaiPkg
