import Mathlib.Data.Finset.Card
import Mathlib.Order.WithBot

/-!
Selecting one version of each source with a work list of requirements. A
requirement is a source with a version; `deps` gives what a version of a source
requires in turn. A requirement above the version chosen so far replaces it and
adds its own requirements to the end of the list.
-/

namespace Kaikai.VersionSelection

variable {S V : Type} [LinearOrder V]

structure State (S V : Type) where
  pending : List (S × V)
  /-- `⊥` where the source was not met. -/
  chosen : S → WithBot V

/-- Nothing is chosen at the start. -/
def start (roots : List (S × V)) : State S V := ⟨roots, fun _ => ⊥⟩

/-- `x` is required at the root or by a chosen version. -/
def Required (deps : S × V → List (S × V)) (roots : List (S × V)) (chosen : S → WithBot V)
    (x : S × V) : Prop :=
  x ∈ roots ∨ ∃ s : S, ∃ v : V, chosen s = v ∧ x ∈ deps (s, v)

/-- Every requirement of `x` is one of `y`, of the same version or a later one. -/
def Covers (deps : S × V → List (S × V)) (x y : S × V) : Prop :=
  ∀ s v, (s, v) ∈ deps x → ∃ v', v ≤ v' ∧ (s, v') ∈ deps y

theorem Covers.refl (deps : S × V → List (S × V)) (x : S × V) : Covers deps x x :=
  fun _ v h => ⟨v, le_rfl, h⟩

theorem Covers.trans {deps : S × V → List (S × V)} {x y z : S × V} (hxy : Covers deps x y)
    (hyz : Covers deps y z) : Covers deps x z := by
  intro s v h
  obtain ⟨v', hle, h'⟩ := hxy s v h
  obtain ⟨v'', hle', h''⟩ := hyz s v' h'
  exact ⟨v'', hle.trans hle', h''⟩

/-- If the next turn replaces a version, then by one that covers it. -/
def CoveredTurn (deps : S × V → List (S × V)) (st : State S V) : Prop :=
  ∀ s old v rest, st.pending = (s, v) :: rest → st.chosen s = (old : V) → old < v →
    Covers deps (s, old) (s, v)

/-- What every state of a run satisfies whose turns are covered. -/
structure Inv (deps : S × V → List (S × V)) (roots : List (S × V)) (st : State S V) : Prop where
  /-- No requirement is lost. -/
  met : ∀ s v, Required deps roots st.chosen (s, v) → ↑v ≤ st.chosen s ∨ (s, v) ∈ st.pending
  /-- What is listed or chosen is still required. -/
  supported : ∀ s v, (s, v) ∈ st.pending ∨ st.chosen s = v →
    ∃ v', v ≤ v' ∧ Required deps roots st.chosen (s, v')

theorem inv_start (deps : S × V → List (S × V)) (roots : List (S × V)) :
    Inv deps roots (start roots) where
  met s v h := by
    rcases h with h | ⟨t, u, hu, -⟩
    · exact .inr h
    · cases hu
  supported s v h := by
    rcases h with h | h
    · exact ⟨v, le_rfl, .inl h⟩
    · cases h

variable [DecidableEq S]

/-- Take the first requirement off the list. -/
def step (deps : S × V → List (S × V)) (st : State S V) : State S V :=
  match st.pending with
  | [] => st
  | (s, v) :: rest =>
      if st.chosen s < v then ⟨rest ++ deps (s, v), Function.update st.chosen s v⟩
      else ⟨rest, st.chosen⟩

section Step

variable {deps : S × V → List (S × V)} {rest : List (S × V)} {chosen : S → WithBot V} {s : S} {v : V}

theorem step_fetch (h : chosen s < v) :
    step deps ⟨(s, v) :: rest, chosen⟩ = ⟨rest ++ deps (s, v), Function.update chosen s v⟩ := by
  simp only [step, if_pos h]

theorem step_skip (h : ¬chosen s < v) : step deps ⟨(s, v) :: rest, chosen⟩ = ⟨rest, chosen⟩ := by
  simp only [step, if_neg h]

theorem step_done : step deps ⟨[], chosen⟩ = ⟨[], chosen⟩ := rfl

end Step

/-- The requirements of a finite universe that are above the chosen version. -/
def openIn (known : Finset (S × V)) (chosen : S → WithBot V) : Finset (S × V) :=
  known.filter fun x => chosen x.1 < x.2

theorem openIn_update_ssubset {known : Finset (S × V)} {chosen : S → WithBot V} {s : S} {v : V}
    (hmem : (s, v) ∈ known) (h : chosen s < v) :
    openIn known (Function.update chosen s v) ⊂ openIn known chosen := by
  refine Finset.ssubset_iff_of_subset ?_ |>.2 ⟨(s, v), ?_, ?_⟩
  · intro x hx
    rw [openIn, Finset.mem_filter] at hx ⊢
    refine ⟨hx.1, ?_⟩
    by_cases hs : x.1 = s
    · rw [hs, Function.update_self] at hx
      rw [hs]
      exact h.trans hx.2
    · rw [Function.update_of_ne hs] at hx
      exact hx.2
  · simp [openIn, hmem, h]
  · simp [openIn]

theorem exists_done {deps : S × V → List (S × V)} {known : Finset (S × V)}
    (hclosed : ∀ x ∈ known, ∀ y ∈ deps x, y ∈ known) (st : State S V)
    (hpending : ∀ x ∈ st.pending, x ∈ known) :
    ∃ n, ((step deps)^[n] st).pending = [] := by
  obtain ⟨pending, chosen⟩ := st
  generalize hm : (openIn known chosen).card = m
  induction m using Nat.strong_induction_on generalizing pending chosen with
  | _ m ih =>
      subst hm
      induction pending with
      | nil => exact ⟨0, rfl⟩
      | cons x rest ihrest =>
          obtain ⟨s, v⟩ := x
          have hx : (s, v) ∈ known := hpending (s, v) List.mem_cons_self
          have hrest : ∀ y ∈ rest, y ∈ known := fun y hy => hpending y (List.mem_cons_of_mem _ hy)
          by_cases h : chosen s < v
          · have hnext : ∀ y ∈ rest ++ deps (s, v), y ∈ known := by
              intro y hy
              rcases List.mem_append.1 hy with hy | hy
              · exact hrest y hy
              · exact hclosed (s, v) hx y hy
            obtain ⟨n, hn⟩ := ih _ (Finset.card_lt_card (openIn_update_ssubset hx h))
              (rest ++ deps (s, v)) (Function.update chosen s v) hnext rfl
            exact ⟨n + 1, by rwa [Function.iterate_succ_apply, step_fetch h]⟩
          · obtain ⟨n, hn⟩ := ihrest hrest
            exact ⟨n + 1, by rwa [Function.iterate_succ_apply, step_skip h]⟩

theorem le_update {chosen : S → WithBot V} {s : S} {v : V} (h : chosen s ≤ v) (t : S) :
    chosen t ≤ Function.update chosen s (v : WithBot V) t := by
  by_cases ht : t = s
  · rw [ht, Function.update_self]
    exact h
  · rw [Function.update_of_ne ht]

theorem required_update {deps : S × V → List (S × V)} {roots : List (S × V)} {chosen : S → WithBot V}
    {s t : S} {v u : V} (hcov : ∀ old : V, chosen s = old → Covers deps (s, old) (s, v))
    (h : Required deps roots chosen (t, u)) :
    ∃ u', u ≤ u' ∧ Required deps roots (Function.update chosen s v) (t, u') := by
  rcases h with h | ⟨p, q, hq, h⟩
  · exact ⟨u, le_rfl, .inl h⟩
  by_cases hp : p = s
  · subst hp
    obtain ⟨u', hle, h'⟩ := hcov q hq t u h
    exact ⟨u', hle, .inr ⟨p, v, Function.update_self .., h'⟩⟩
  · exact ⟨u, le_rfl, .inr ⟨p, q, by rw [Function.update_of_ne hp, hq], h⟩⟩

theorem inv_step {deps : S × V → List (S × V)} {roots : List (S × V)} {st : State S V}
    (hcov : CoveredTurn deps st) (h : Inv deps roots st) : Inv deps roots (step deps st) := by
  obtain ⟨pending, chosen⟩ := st
  cases pending with
  | nil => exact h
  | cons x rest =>
      obtain ⟨s, v⟩ := x
      by_cases hlt : chosen s < v
      · rw [step_fetch hlt]
        have hcov' : ∀ old : V, chosen s = old → Covers deps (s, old) (s, v) := by
          intro old hold
          refine hcov s old v rest rfl hold ?_
          rw [hold] at hlt
          exact WithBot.coe_lt_coe.1 hlt
        have hmet : ∀ t u, Required deps roots chosen (t, u) →
            ↑u ≤ Function.update chosen s ↑v t ∨ (t, u) ∈ rest ++ deps (s, v) := by
          intro t u hreq
          rcases h.met t u hreq with hle | hmem
          · exact .inl (hle.trans (le_update hlt.le t))
          · rcases List.mem_cons.1 hmem with heq | hmem
            · cases heq
              exact .inl (by rw [Function.update_self])
            · exact .inr (List.mem_append_left _ hmem)
        have hold : ∀ t u, (t, u) ∈ (s, v) :: rest ∨ chosen t = u →
            ∃ u', u ≤ u' ∧ Required deps roots (Function.update chosen s v) (t, u') := by
          intro t u hu
          obtain ⟨u', hle, hreq⟩ := h.supported t u hu
          obtain ⟨u'', hle', hreq'⟩ := required_update hcov' hreq
          exact ⟨u'', hle.trans hle', hreq'⟩
        constructor
        · intro t u hreq
          rcases hreq with hroot | ⟨p, q, hq, hmem⟩
          · exact hmet t u (.inl hroot)
          dsimp only at hq
          by_cases hp : p = s
          · subst hp
            rw [Function.update_self, WithBot.coe_inj] at hq
            subst hq
            exact .inr (List.mem_append_right _ hmem)
          · rw [Function.update_of_ne hp] at hq
            exact hmet t u (.inr ⟨p, q, hq, hmem⟩)
        · intro t u hu
          rcases hu with hmem | hchosen
          · rcases List.mem_append.1 hmem with hmem | hmem
            · exact hold t u (.inl (List.mem_cons_of_mem _ hmem))
            · exact ⟨u, le_rfl, .inr ⟨s, v, Function.update_self .., hmem⟩⟩
          dsimp only at hchosen
          by_cases ht : t = s
          · subst ht
            rw [Function.update_self, WithBot.coe_inj] at hchosen
            subst hchosen
            exact hold t v (.inl List.mem_cons_self)
          · rw [Function.update_of_ne ht] at hchosen
            exact hold t u (.inr hchosen)
      · rw [step_skip hlt]
        constructor
        · intro t u hreq
          rcases h.met t u hreq with hle | hmem
          · exact .inl hle
          · rcases List.mem_cons.1 hmem with heq | hmem
            · cases heq
              exact .inl (not_lt.1 hlt)
            · exact .inr hmem
        · intro t u hu
          exact h.supported t u (hu.imp_left (List.mem_cons_of_mem _))

/-- The chosen versions are the greatest ones required of their sources, and
nothing is chosen that is not required. -/
def IsSelection (deps : S × V → List (S × V)) (roots : List (S × V)) (chosen : S → WithBot V) :
    Prop :=
  (∀ s v, Required deps roots chosen (s, v) → ↑v ≤ chosen s) ∧
    ∀ s v, chosen s = (v : V) → Required deps roots chosen (s, v)

omit [DecidableEq S] in
theorem Inv.isSelection {deps : S × V → List (S × V)} {roots : List (S × V)} {st : State S V}
    (h : Inv deps roots st) (hdone : st.pending = []) : IsSelection deps roots st.chosen := by
  have hmet : ∀ s v, Required deps roots st.chosen (s, v) → ↑v ≤ st.chosen s := by
    intro s v hreq
    rcases h.met s v hreq with hle | hmem
    · exact hle
    · rw [hdone] at hmem
      cases hmem
  refine ⟨hmet, ?_⟩
  intro s v hv
  obtain ⟨v', hle, hreq⟩ := h.supported s v (.inr hv)
  have hge := hmet s v' hreq
  rw [hv, WithBot.coe_le_coe] at hge
  rwa [le_antisymm hle hge]

theorem inv_iterate {deps : S × V → List (S × V)} {roots : List (S × V)}
    (hcov : ∀ n, CoveredTurn deps ((step deps)^[n] (start roots))) (n : Nat) :
    Inv deps roots ((step deps)^[n] (start roots)) := by
  induction n with
  | zero => exact inv_start deps roots
  | succ n ih =>
      rw [Function.iterate_succ_apply']
      exact inv_step (hcov n) ih

/-! The list is taken in rounds: what the requirements of one round add is the list
of the next. A round depends on its list through the greatest versions only. -/

/-- The versions a list of requirements fetches, in order. -/
def fetched : (S → WithBot V) → List (S × V) → List (S × V)
  | _, [] => []
  | chosen, (s, v) :: rest =>
      if chosen s < v then (s, v) :: fetched (Function.update chosen s v) rest
      else fetched chosen rest

/-- What is chosen after a list of requirements. -/
def after : (S → WithBot V) → List (S × V) → S → WithBot V
  | chosen, [] => chosen
  | chosen, (s, v) :: rest =>
      if chosen s < v then after (Function.update chosen s v) rest else after chosen rest

theorem iterate_round (deps : S × V → List (S × V)) (chosen : S → WithBot V)
    (xs ys : List (S × V)) :
    (step deps)^[xs.length] ⟨xs ++ ys, chosen⟩ =
      ⟨ys ++ (fetched chosen xs).flatMap deps, after chosen xs⟩ := by
  induction xs generalizing ys chosen with
  | nil => simp [fetched, after]
  | cons x xs ih =>
      obtain ⟨s, v⟩ := x
      rw [List.length_cons, Function.iterate_succ_apply, List.cons_append]
      by_cases h : chosen s < v
      · rw [step_fetch h, List.append_assoc, ih, fetched, after, if_pos h, if_pos h,
          List.flatMap_cons, List.append_assoc]
      · rw [step_skip h, ih, fetched, after, if_neg h, if_neg h]

theorem le_after (chosen : S → WithBot V) (xs : List (S × V)) (s : S) :
    chosen s ≤ after chosen xs s := by
  induction xs generalizing chosen with
  | nil => exact le_rfl
  | cons x xs ih =>
      obtain ⟨t, u⟩ := x
      by_cases h : chosen t < u
      · rw [after, if_pos h]
        exact (le_update h.le s).trans (ih _)
      · rw [after, if_neg h]
        exact ih chosen

theorem le_after_of_mem {chosen : S → WithBot V} {xs : List (S × V)} {s : S} {v : V}
    (hmem : (s, v) ∈ xs) : ↑v ≤ after chosen xs s := by
  induction xs generalizing chosen with
  | nil => cases hmem
  | cons x xs ih =>
      obtain ⟨t, u⟩ := x
      by_cases h : chosen t < u
      · rw [after, if_pos h]
        rcases List.mem_cons.1 hmem with heq | hmem
        · cases heq
          have := le_after (Function.update chosen s ↑v) xs s
          rwa [Function.update_self] at this
        · exact ih hmem
      · rw [after, if_neg h]
        rcases List.mem_cons.1 hmem with heq | hmem
        · cases heq
          exact (not_lt.1 h).trans (le_after chosen xs s)
        · exact ih hmem

theorem mem_fetched_after {chosen : S → WithBot V} {xs : List (S × V)} {s : S} {v : V}
    (hafter : after chosen xs s = v) (hnew : chosen s ≠ v) : (s, v) ∈ fetched chosen xs := by
  induction xs generalizing chosen with
  | nil => exact absurd hafter hnew
  | cons x xs ih =>
      obtain ⟨t, u⟩ := x
      by_cases h : chosen t < u
      · rw [after, if_pos h] at hafter
        rw [fetched, if_pos h]
        by_cases hhead : Function.update chosen t (↑u) s = ↑v
        · by_cases hst : s = t
          · rw [hst, Function.update_self, WithBot.coe_inj] at hhead
            rw [hst, hhead]
            exact List.mem_cons_self
          · rw [Function.update_of_ne hst] at hhead
            exact absurd hhead hnew
        · exact List.mem_cons_of_mem _ (ih hafter hhead)
      · rw [after, if_neg h] at hafter
        rw [fetched, if_neg h]
        exact ih hafter hnew

theorem mem_of_mem_fetched {chosen : S → WithBot V} {xs : List (S × V)} {s : S} {v : V}
    (hmem : (s, v) ∈ fetched chosen xs) : (s, v) ∈ xs ∧ chosen s < v := by
  induction xs generalizing chosen with
  | nil => cases hmem
  | cons x xs ih =>
      obtain ⟨t, u⟩ := x
      by_cases h : chosen t < u
      · rw [fetched, if_pos h] at hmem
        rcases List.mem_cons.1 hmem with heq | hmem
        · cases heq
          exact ⟨List.mem_cons_self, h⟩
        · obtain ⟨hin, hlt⟩ := ih hmem
          exact ⟨List.mem_cons_of_mem _ hin, (le_update h.le s).trans_lt hlt⟩
      · rw [fetched, if_neg h] at hmem
        obtain ⟨hin, hlt⟩ := ih hmem
        exact ⟨List.mem_cons_of_mem _ hin, hlt⟩

/-- Every requirement of one list is one of the other, of the same version or a
later one. -/
def Dominated (xs ys : List (S × V)) : Prop :=
  ∀ s v, (s, v) ∈ xs → ∃ v', v ≤ v' ∧ (s, v') ∈ ys

theorem after_le_of_dominated {xs ys : List (S × V)} (h : Dominated xs ys)
    (chosen : S → WithBot V) (s : S) : after chosen xs s ≤ after chosen ys s := by
  by_cases hsame : after chosen xs s = chosen s
  · rw [hsame]
    exact le_after chosen ys s
  · obtain ⟨v, hv⟩ := WithBot.ne_bot_iff_exists.1 fun hbot : after chosen xs s = ⊥ =>
      hsame (hbot.trans (le_bot_iff.1 (hbot ▸ le_after chosen xs s)).symm)
    have hfetched := mem_fetched_after hv.symm fun h' => hsame (hv.symm.trans h'.symm)
    obtain ⟨v', hle, hmem⟩ := h s v (mem_of_mem_fetched hfetched).1
    rw [← hv]
    exact (WithBot.coe_le_coe.2 hle).trans (le_after_of_mem hmem)

theorem after_congr {xs ys : List (S × V)} (h : Dominated xs ys) (h' : Dominated ys xs)
    (chosen : S → WithBot V) : after chosen xs = after chosen ys := by
  funext s
  exact le_antisymm (after_le_of_dominated h chosen s) (after_le_of_dominated h' chosen s)

theorem covers_after {deps : S × V → List (S × V)} {chosen : S → WithBot V} {xs ys : List (S × V)}
    (hcov : ∀ n, CoveredTurn deps ((step deps)^[n] ⟨xs ++ ys, chosen⟩)) {s : S} {v v' : V}
    (hv : chosen s = v ∨ (s, v) ∈ fetched chosen xs) (hv' : after chosen xs s = v') :
    Covers deps (s, v) (s, v') := by
  induction xs generalizing chosen ys v with
  | nil =>
      rcases hv with hv | hv
      · rw [after, hv, WithBot.coe_inj] at hv'
        rw [hv']
        exact Covers.refl deps _
      · cases hv
  | cons x xs ih =>
      obtain ⟨t, u⟩ := x
      by_cases h : chosen t < u
      · rw [after, if_pos h] at hv'
        have hnext : ∀ n, CoveredTurn deps
            ((step deps)^[n] ⟨xs ++ (ys ++ deps (t, u)), Function.update chosen t ↑u⟩) := by
          intro n
          have := hcov (n + 1)
          rwa [Function.iterate_succ_apply, List.cons_append, step_fetch h, List.append_assoc] at this
        rcases hv with hv | hv
        · by_cases hst : s = t
          · subst hst
            have hlt : v < u := by
              rw [hv] at h
              exact WithBot.coe_lt_coe.1 h
            exact (hcov 0 s v u (xs ++ ys) rfl hv hlt).trans
              (ih hnext (.inl (Function.update_self ..)) hv')
          · exact ih hnext (.inl (by rw [Function.update_of_ne hst, hv])) hv'
        · rw [fetched, if_pos h] at hv
          rcases List.mem_cons.1 hv with heq | hv
          · cases heq
            exact ih hnext (.inl (Function.update_self ..)) hv'
          · exact ih hnext (.inr hv) hv'
      · rw [after, if_neg h] at hv'
        have hnext : ∀ n, CoveredTurn deps ((step deps)^[n] ⟨xs ++ ys, chosen⟩) := by
          intro n
          have := hcov (n + 1)
          rwa [Function.iterate_succ_apply, List.cons_append, step_skip h] at this
        rw [fetched, if_neg h] at hv
        exact ih hnext hv hv'

def round (deps : S × V → List (S × V)) (st : State S V) : State S V :=
  (step deps)^[st.pending.length] st

theorem round_eq (deps : S × V → List (S × V)) (pending : List (S × V)) (chosen : S → WithBot V) :
    round deps ⟨pending, chosen⟩ =
      ⟨(fetched chosen pending).flatMap deps, after chosen pending⟩ := by
  have := iterate_round deps chosen pending []
  rwa [List.append_nil, List.nil_append] at this

theorem exists_round_eq (deps : S × V → List (S × V)) (st : State S V) (k : Nat) :
    ∃ n, (round deps)^[k] st = (step deps)^[n] st ∧
      (k ≤ n ∨ ((round deps)^[k] st).pending = []) := by
  induction k with
  | zero => exact ⟨0, rfl, .inl le_rfl⟩
  | succ k ih =>
      obtain ⟨n, heq, hn⟩ := ih
      refine ⟨((step deps)^[n] st).pending.length + n, ?_, ?_⟩
      · rw [Function.iterate_succ_apply', heq, round, ← Function.iterate_add_apply]
      · rw [Function.iterate_succ_apply', heq]
        rw [heq] at hn
        generalize (step deps)^[n] st = mid at hn
        obtain ⟨pending, chosen⟩ := mid
        rcases List.eq_nil_or_concat pending with rfl | ⟨front, last, rfl⟩
        · exact .inr (by rw [round_eq]; rfl)
        · refine .inl ?_
          rcases hn with hn | hn
          · simp only [List.concat_eq_append, List.length_append, List.length_cons,
              List.length_nil]
            omega
          · simp at hn

theorem iterate_step_done {deps : S × V → List (S × V)} {st : State S V} (h : st.pending = [])
    (n : Nat) : (step deps)^[n] st = st := by
  obtain ⟨pending, chosen⟩ := st
  cases h
  induction n with
  | zero => rfl
  | succ n ih => rw [Function.iterate_succ_apply, step_done, ih]

theorem round_of_done {deps : S × V → List (S × V)} {st : State S V} {n m : Nat}
    (hn : ((step deps)^[n] st).pending = []) (hm : n ≤ m) :
    (round deps)^[m] st = (step deps)^[n] st := by
  obtain ⟨k, heq, hk⟩ := exists_round_eq deps st m
  have hsame (i j : Nat) (hi : ((step deps)^[i] st).pending = []) (hij : i ≤ j) :
      (step deps)^[j] st = (step deps)^[i] st := by
    obtain ⟨d, rfl⟩ := Nat.exists_eq_add_of_le' hij
    rw [Function.iterate_add_apply, iterate_step_done hi]
  rw [heq]
  rcases hk with hk | hk
  · exact hsame n k hn (hm.trans hk)
  · rw [heq] at hk
    rcases Nat.le_total n k with h | h
    · exact hsame n k hn h
    · exact (hsame k n hk h).symm

omit [DecidableEq S] in
theorem dominated_of_same {xs ys : List (S × V)} (h : ∀ x ∈ xs, x ∈ ys) : Dominated xs ys :=
  fun s v hmem => ⟨v, le_rfl, h (s, v) hmem⟩

/-- The requirements a round adds are dominated by those of a round over another
list with the same greatest versions. -/
theorem dominated_round {deps deps' : S × V → List (S × V)}
    (hdeps : ∀ x, ∀ y ∈ deps x, y ∈ deps' x) {chosen : S → WithBot V} {xs ys : List (S × V)}
    (hcov : ∀ n, CoveredTurn deps ((step deps)^[n] ⟨xs, chosen⟩))
    (hafter : after chosen xs = after chosen ys) :
    Dominated ((fetched chosen xs).flatMap deps) ((fetched chosen ys).flatMap deps') := by
  intro t u hmem
  obtain ⟨⟨s, v⟩, hsv, htu⟩ := List.mem_flatMap.1 hmem
  obtain ⟨hin, hlt⟩ := mem_of_mem_fetched hsv
  have hge : ↑v ≤ after chosen xs s := le_after_of_mem hin
  obtain ⟨v', hv'⟩ := WithBot.ne_bot_iff_exists.1 (ne_bot_of_le_ne_bot WithBot.coe_ne_bot hge)
  have hround : ∀ n, CoveredTurn deps ((step deps)^[n] ⟨xs ++ [], chosen⟩) := by
    rwa [List.append_nil]
  have hcovers : Covers deps (s, v) (s, v') := covers_after hround (.inr hsv) hv'.symm
  obtain ⟨u', hle, htu'⟩ := hcovers t u htu
  refine ⟨u', hle, List.mem_flatMap.2 ⟨(s, v'), ?_, hdeps (s, v') _ htu'⟩⟩
  refine mem_fetched_after (by rw [← hafter, hv']) ?_
  rw [← hv'] at hge
  exact (hlt.trans_le hge).ne

section Order

variable {deps deps' : S × V → List (S × V)} {roots roots' : List (S × V)}

theorem rounds_agree (hdeps : ∀ x y, y ∈ deps x ↔ y ∈ deps' x) (hroots : ∀ x, x ∈ roots ↔ x ∈ roots')
    (hcov : ∀ n, CoveredTurn deps ((step deps)^[n] (start roots)))
    (hcov' : ∀ n, CoveredTurn deps' ((step deps')^[n] (start roots'))) (k : Nat) :
    ((round deps)^[k] (start roots)).chosen = ((round deps')^[k] (start roots')).chosen ∧
      Dominated ((round deps)^[k] (start roots)).pending
        ((round deps')^[k] (start roots')).pending ∧
      Dominated ((round deps')^[k] (start roots')).pending
        ((round deps)^[k] (start roots)).pending := by
  induction k with
  | zero =>
      exact ⟨rfl, dominated_of_same fun x => (hroots x).1, dominated_of_same fun x => (hroots x).2⟩
  | succ k ih =>
      obtain ⟨n, heq, -⟩ := exists_round_eq deps (start roots) k
      obtain ⟨n', heq', -⟩ := exists_round_eq deps' (start roots') k
      have hrest (m : Nat) : CoveredTurn deps ((step deps)^[m] ((step deps)^[n] (start roots))) := by
        rw [← Function.iterate_add_apply]
        exact hcov (m + n)
      have hrest' (m : Nat) :
          CoveredTurn deps' ((step deps')^[m] ((step deps')^[n'] (start roots'))) := by
        rw [← Function.iterate_add_apply]
        exact hcov' (m + n')
      rw [Function.iterate_succ_apply', Function.iterate_succ_apply']
      rw [← heq] at hrest
      rw [← heq'] at hrest'
      generalize (round deps)^[k] (start roots) = st at ih hrest
      generalize (round deps')^[k] (start roots') = st' at ih hrest'
      obtain ⟨pending, chosen⟩ := st
      obtain ⟨pending', chosen'⟩ := st'
      obtain ⟨hchosen, hdom, hdom'⟩ := ih
      dsimp only at hchosen hdom hdom'
      subst hchosen
      have hafter : after chosen pending = after chosen pending' := after_congr hdom hdom' chosen
      rw [round_eq, round_eq]
      exact ⟨hafter, dominated_round (fun x y => (hdeps x y).1) hrest hafter,
        dominated_round (fun x y => (hdeps x y).2) hrest' hafter.symm⟩

/-- The order of the requirements does not matter when no turn of either run
replaces a version by one that does not cover it. -/
theorem chosen_eq (hdeps : ∀ x y, y ∈ deps x ↔ y ∈ deps' x) (hroots : ∀ x, x ∈ roots ↔ x ∈ roots')
    (hcov : ∀ n, CoveredTurn deps ((step deps)^[n] (start roots)))
    (hcov' : ∀ n, CoveredTurn deps' ((step deps')^[n] (start roots')))
    {n n' : Nat} (hn : ((step deps)^[n] (start roots)).pending = [])
    (hn' : ((step deps')^[n'] (start roots')).pending = []) :
    ((step deps)^[n] (start roots)).chosen = ((step deps')^[n'] (start roots')).chosen := by
  have h := (rounds_agree hdeps hroots hcov hcov' (max n n')).1
  rwa [round_of_done hn (le_max_left n n'), round_of_done hn' (le_max_right n n')] at h

end Order

end Kaikai.VersionSelection
