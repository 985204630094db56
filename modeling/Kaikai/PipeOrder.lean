import Kaikai.PipeFused

namespace Kaikai.PipeFusion

open Kaikai.Word64 (Word)

variable {α β : Type}

/-- A closure of a stage at some depth of the chain, or an effect of the terminal. -/
abbrev Event := Option Nat

/-- A run that returns `a` and adds to the log. -/
def Logs (x : Comp (List Event) α) (a : α) (l : List Event) : Prop :=
  ∀ st, x st = some (a, st ++ l)

theorem Logs.pure (a : α) : Logs (Pure.pure a) a [] := fun st => by rw [List.append_nil]; rfl

theorem Logs.bind {x : Comp (List Event) α} {f : α → Comp (List Event) β} {a : α} {b : β}
    {l l' : List Event} (hx : Logs x a l) (hf : Logs (f a) b l') : Logs (x >>= f) b (l ++ l') := by
  intro st
  rw [← List.append_assoc]
  exact Option.bind_eq_some_iff.2 ⟨(a, st ++ l), hx st, hf _⟩

theorem Logs.map {x : Comp (List Event) α} {a : α} {l : List Event} (hx : Logs x a l) (f : α → β) :
    Logs (f <$> x) (f a) l := by
  have h := hx.bind (f := fun a => Pure.pure (f a)) (Logs.pure (f a))
  rw [List.append_nil] at h
  rwa [map_eq_pure_bind]

theorem Logs.pair {f : Datum Nat → Comp (List Event) (Datum Nat)} {d e d' e' : Datum Nat}
    {l l' : List Event} (hd : Logs (f d) d' l) (he : Logs (f e) e' l') :
    Logs ([d, e].mapM f) [d', e'] (l ++ l') := by
  have hrest := (he.map fun y => [y]).map fun ys => d' :: ys
  have hboth := hd.bind (f := fun y => (fun ys => y :: ys) <$> (fun z => [z]) <$> f e) hrest
  simpa only [List.mapM_cons, List.mapM_nil, map_eq_pure_bind, bind_assoc, pure_bind] using hboth

def Returns (x : Comp (List Event) α) : Prop := ∃ a l, Logs x a l

theorem Returns.bind {x : Comp (List Event) α} {f : α → Comp (List Event) β} (hx : Returns x)
    (hf : ∀ a, Returns (f a)) : Returns (x >>= f) := by
  obtain ⟨a, l, ha⟩ := hx
  obtain ⟨b, l', hb⟩ := hf a
  exact ⟨b, l ++ l', ha.bind hb⟩

theorem Returns.mapM {f : Datum Nat → Comp (List Event) (Datum Nat)} (hf : ∀ d, Returns (f d))
    (xs : List (Datum Nat)) : Returns (xs.mapM f) := by
  induction xs with
  | nil => exact ⟨[], [], Logs.pure []⟩
  | cons x xs ih =>
      rw [List.mapM_cons]
      exact (hf x).bind fun y => ih.bind fun ys => ⟨y :: ys, [], Logs.pure _⟩

theorem Returns.foldlM {c : Datum Nat → Datum Nat → Comp (List Event) (Datum Nat)}
    (hc : ∀ acc d, Returns (c acc d)) (ys : List (Datum Nat)) : ∀ i, Returns (ys.foldlM c i) := by
  induction ys with
  | nil => exact fun i => ⟨i, [], Logs.pure i⟩
  | cons y ys ih =>
      intro i
      rw [List.foldlM_cons]
      exact (hc i y).bind ih

def zeroInt : Word := .ofInt 0

def depth : Datum Nat → Nat
  | .int _ => 0
  | .other n => n

/-- Two elements that no closure has met. -/
def pair : List (Datum Nat) := [.int zeroInt, .int oneStep]

/-- Writes down the depth at which it meets an element. -/
def meet (d : Datum Nat) : Comp (List Event) (Datum Nat) :=
  fun st => some (.other (depth d + 1), st ++ [some (depth d)])

def mark (a : α) : Comp (List Event) α := fun st => some (a, st ++ [none])

def Role.logged : (r : Role) → r.Value (List Event) Nat
  | .int => oneStep
  | .datum => .int oneStep
  | .list => pair
  | .container => pair
  | .stage => id
  | .mutStage => meet
  | .pureCombine => fun acc _ => acc
  | .combine => fun acc _ => mark acc

def logging : Meaning (List Event) Nat where
  constant r _ _ := r.logged
  run r _ := if r = .stage ∨ r = .mutStage then pure r.logged else mark r.logged
  add a _ := a
  mul a _ := a
  zero := .int zeroInt
  one := .int oneStep

def Stage.closure (w : Stage) : Datum Nat → Comp (List Event) (Datum Nat) :=
  if w.mutable then meet else pure

theorem Stage.logs (w : Stage) : Logs (w.run logging) w.closure [] := by
  obtain ⟨kind, k, mutable⟩ := w
  have hrun : ∀ r, r = .stage ∨ r = .mutStage →
      Logs ((Written.mk kind k).run logging r) r.logged [] := by
    intro r hr
    cases kind with
    | name => exact Logs.pure _
    | lambda => exact Logs.pure _
    | other =>
        rw [Written.run, logging]
        simp only [hr, if_true]
        exact Logs.pure _
  cases mutable with
  | true => exact hrun .mutStage (.inr rfl)
  | false => exact (hrun .stage (.inl rfl)).map _

/-- The mark of an evaluation, unless it is of a name or a lambda. -/
def marks (kind : Kind) : List Event := if kind = .other then [none] else []

theorem logs_written (w : Written) {r : Role} (hr : ¬(r = .stage ∨ r = .mutStage)) :
    Logs (w.run logging r) r.logged (marks w.kind) := by
  obtain ⟨kind, k⟩ := w
  cases kind with
  | name => exact Logs.pure _
  | lambda => exact Logs.pure _
  | other =>
      rw [Written.run, logging]
      simp only [if_neg hr]
      exact fun st => rfl

def Combiner.closure (c : Combiner) (acc _d : Datum Nat) : Comp (List Event) (Datum Nat) :=
  if c.effects then mark acc else pure acc

def Combiner.marks (c : Combiner) : List Event := if c.effects then [none] else []

theorem Combiner.logs (c : Combiner) : Logs (c.run logging) c.closure (PipeFusion.marks c.kind) := by
  obtain ⟨kind, k, effects⟩ := c
  cases effects with
  | true => exact logs_written ⟨kind, k⟩ (r := .combine) (by simp)
  | false =>
      exact (logs_written ⟨kind, k⟩ (r := .pureCombine) (by simp)).map _

theorem Combiner.logs_closure (c : Combiner) (acc d : Datum Nat) :
    Logs (c.closure acc d) acc c.marks := by
  obtain ⟨kind, k, effects⟩ := c
  cases effects with
  | true => exact fun st => rfl
  | false => exact Logs.pure acc

/-- What a fold evaluates ahead of its pass. -/
def FoldOp.before : FoldOp → List Event
  | .foldl init combine => marks init.kind ++ marks combine.kind
  | _ => []

/-- What its combiner writes down on an element. -/
def FoldOp.after : FoldOp → List Event
  | .foldl _ combine => combine.marks
  | _ => []

theorem FoldOp.logs_spec (op : FoldOp) : ∃ i c, Logs (op.spec logging) (i, c) op.before ∧
    ∀ acc d, ∃ acc', Logs (c acc d) acc' op.after := by
  cases op with
  | foldl init combine =>
      have hspec : Logs ((FoldOp.foldl init combine).spec logging)
          (Role.datum.logged, combine.closure) (marks init.kind ++ marks combine.kind) := by
        have hpair := combine.logs.map fun c => (Role.datum.logged, c)
        rw [map_eq_pure_bind] at hpair
        exact (logs_written init (r := .datum) (by simp)).bind hpair
      exact ⟨_, _, hspec, fun acc d => ⟨acc, combine.logs_closure acc d⟩⟩
  | sum => exact ⟨_, _, Logs.pure _, fun acc d => ⟨acc, Logs.pure acc⟩⟩
  | product => exact ⟨_, _, Logs.pure _, fun acc d => ⟨acc, Logs.pure acc⟩⟩

theorem FoldOp.returns_run (op : FoldOp) (ys : List (Datum Nat)) : Returns (op.run logging ys) := by
  obtain ⟨i, c, hspec, hc⟩ := op.logs_spec
  obtain ⟨a, l, hfold⟩ := Returns.foldlM (fun acc d => (hc acc d).imp fun _ h => ⟨_, h⟩) ys i
  exact ⟨_, _, hspec.bind (hfold.map Val.datum)⟩

/-- The depths at which the closures of a chain meet an element. -/
def depths : List Stage → Nat → List Event
  | [], _ => []
  | w :: ws, n => if w.mutable then some n :: depths ws (n + 1) else depths ws n

def closures : List Stage → Datum Nat → Comp (List Event) (Datum Nat)
  | [] => pure
  | w :: ws => fun d => w.closure d >>= closures ws

theorem logs_stagesRun (ws : List Stage) : Logs (stagesRun logging ws) (closures ws) [] := by
  induction ws with
  | nil => exact Logs.pure _
  | cons w ws ih => exact w.logs.bind (ih.bind (Logs.pure _))

theorem logs_closures (ws : List Stage) : ∀ d, ∃ d', Logs (closures ws d) d' (depths ws (depth d)) := by
  induction ws with
  | nil => exact fun d => ⟨d, Logs.pure d⟩
  | cons w ws ih =>
      intro d
      rw [closures, depths, Stage.closure]
      cases w.mutable with
      | true =>
          obtain ⟨d', hd'⟩ := ih (.other (depth d + 1))
          exact ⟨d', Logs.bind (a := Datum.other (depth d + 1)) (l := [some (depth d)]) (fun st => rfl) hd'⟩
      | false =>
          obtain ⟨d', hd'⟩ := ih d
          exact ⟨d', (Logs.pure d).bind hd'⟩

theorem depths_of_pos {ws : List Stage} (h : 0 < mutables ws) : ∀ n, ∃ l, depths ws n = some n :: l ∧
    (mutables ws ≤ 1 → l = []) ∧ (1 < mutables ws → ∃ l', l = some (n + 1) :: l') := by
  have hnone : ∀ ws : List Stage, mutables ws = 0 → ∀ n, depths ws n = [] := by
    intro ws
    induction ws with
    | nil => exact fun _ _ => rfl
    | cons w ws ih =>
        intro hzero n
        rw [mutables, List.countP_eq_zero, List.forall_mem_cons] at hzero
        rw [depths, if_neg hzero.1]
        exact ih (List.countP_eq_zero.2 hzero.2) n
  induction ws with
  | nil => cases h
  | cons w ws ih =>
      intro n
      rw [depths]
      by_cases hw : w.mutable = true
      · have hcount : mutables (w :: ws) = mutables ws + 1 := by
          rw [mutables, List.countP_cons_of_pos hw, mutables]
        rw [if_pos hw, hcount]
        refine ⟨_, rfl, fun hone => hnone ws (by omega) _, fun htwo => ?_⟩
        obtain ⟨l, hl, -, -⟩ := ih (by omega) (n + 1)
        exact ⟨l, hl⟩
      · have hcount : mutables (w :: ws) = mutables ws := by
          rw [mutables, List.countP_cons_of_neg hw, mutables]
        rw [hcount] at h ⊢
        rw [if_neg hw]
        exact ih h n

theorem returns_closure (w : Stage) (d : Datum Nat) : Returns (w.closure d) := by
  rw [Stage.closure]
  cases w.mutable with
  | true => exact ⟨_, _, fun st => rfl⟩
  | false => exact ⟨d, [], Logs.pure d⟩

theorem returns_mapStages (ws : List Stage) : ∀ xs, Returns (mapStages logging ws xs) := by
  induction ws with
  | nil => exact fun xs => ⟨xs, [], Logs.pure xs⟩
  | cons w ws ih =>
      intro xs
      obtain ⟨ys, l, hys⟩ := Returns.mapM (returns_closure w) xs
      obtain ⟨zs, l', hzs⟩ := ih ys
      exact ⟨zs, _, w.logs.bind (hys.bind hzs)⟩

theorem logs_mapStages {ws : List Stage} (h : 0 < mutables ws) : ∀ {d e : Datum Nat} {n : Nat},
    depth d = n → depth e = n → ∃ ys l, Logs (mapStages logging ws [d, e]) ys (some n :: some n :: l) := by
  induction ws with
  | nil => cases h
  | cons w ws ih =>
      intro d e n hd he
      rw [mapStages]
      by_cases hw : w.mutable = true
      · have hclosure : w.closure = meet := by rw [Stage.closure, if_pos hw]
        obtain ⟨ys, l, hys⟩ := returns_mapStages ws [.other (depth d + 1), .other (depth e + 1)]
        have hboth : Logs ([d, e].mapM w.closure) [.other (depth d + 1), .other (depth e + 1)]
            [some n, some n] := by
          rw [hclosure]
          exact Logs.pair (l := [some n]) (fun st => by rw [← hd]; rfl) (fun st => by rw [← he]; rfl)
        exact ⟨ys, l, w.logs.bind (hboth.bind hys)⟩
      · have hcount : mutables (w :: ws) = mutables ws := by
          rw [mutables, List.countP_cons_of_neg hw, mutables]
        have hclosure : w.closure = pure := by rw [Stage.closure, if_neg hw]
        obtain ⟨ys, l, hys⟩ := ih (by rwa [hcount] at h) hd he
        have hboth : Logs ([d, e].mapM w.closure) [d, e] [] := by
          rw [hclosure]
          exact Logs.pair (Logs.pure d) (Logs.pure e)
        exact ⟨ys, l, w.logs.bind (hboth.bind hys)⟩

theorem logs_runWith (op : FoldOp) {f : Datum Nat → Comp (List Event) (Datum Nat)} {l : List Event}
    (hf : ∀ d, depth d = 0 → ∃ d', Logs (f d) d' l) :
    ∃ v, Logs (op.runWith logging f pair) v (op.before ++ ((l ++ op.after) ++ (l ++ op.after))) := by
  obtain ⟨i, c, hspec, hc⟩ := op.logs_spec
  obtain ⟨d, hd⟩ := hf (.int zeroInt) rfl
  obtain ⟨e, he⟩ := hf (.int oneStep) rfl
  obtain ⟨acc, hacc⟩ := hc i d
  obtain ⟨acc', hacc'⟩ := hc acc e
  have hfold : Logs (pair.foldlM (fun acc d => f d >>= c acc) i) acc'
      ((l ++ op.after) ++ (l ++ op.after)) := by
    have hboth := (hd.bind hacc).bind (f := fun acc => f (.int oneStep) >>= c acc) (he.bind hacc')
    simpa only [pair, List.foldlM_cons, List.foldlM_nil, bind_pure] using hboth
  exact ⟨_, hspec.bind (hfold.map Val.datum)⟩

def Terminal.before : Terminal → List Event
  | .fold op => op.before
  | _ => []

def Terminal.after : Terminal → List Event
  | .fold op => op.after
  | _ => []

theorem marks_eq_nil_iff (kind : Kind) : marks kind = [] ↔ kind ≠ .other := by
  cases kind <;> simp [marks]

theorem Terminal.marks_of_mem (t : Terminal) :
    (∀ x ∈ t.before, x = none) ∧ ∀ x ∈ t.after, x = none := by
  have hmarks : ∀ kind, ∀ x ∈ marks kind, x = none := by
    intro kind x hx
    cases kind <;> simp_all [marks]
  cases t with
  | fold op =>
      cases op with
      | foldl init combine =>
          refine ⟨fun x hx => ?_, fun x hx => ?_⟩
          · rcases List.mem_append.1 hx with hx | hx
            · exact hmarks _ x hx
            · exact hmarks _ x hx
          · obtain ⟨kind, k, effects⟩ := combine
            cases effects with
            | true => exact List.mem_singleton.1 hx
            | false => cases hx
      | _ => exact ⟨fun x hx => (by cases hx), fun x hx => (by cases hx)⟩
  | _ => exact ⟨fun x hx => (by cases hx), fun x hx => (by cases hx)⟩

theorem logs_fused (ws : List Stage) {t : Terminal} (ht : t ≠ .length) :
    ∃ v, Logs (t.fused logging ws pair) v
      (t.before ++ ((depths ws 0 ++ t.after) ++ (depths ws 0 ++ t.after))) := by
  have hf : ∀ d, depth d = 0 → ∃ d', Logs (closures ws d) d' (depths ws 0) := by
    intro d hd
    have h := logs_closures ws d
    rwa [hd] at h
  have hmap : ∃ ys, Logs (pair.mapM (closures ws)) ys (depths ws 0 ++ depths ws 0) := by
    obtain ⟨d, hd⟩ := hf (.int zeroInt) rfl
    obtain ⟨e, he⟩ := hf (.int oneStep) rfl
    exact ⟨_, hd.pair he⟩
  cases t with
  | length => exact absurd rfl ht
  | fold op =>
      obtain ⟨v, hv⟩ := logs_runWith op hf
      exact ⟨v, (logs_stagesRun ws).bind hv⟩
  | map =>
      obtain ⟨ys, hys⟩ := hmap
      have hafter : Terminal.map.after = [] := rfl
      refine ⟨.list ys, ?_⟩
      rw [hafter, List.append_nil]
      exact (logs_stagesRun ws).bind (hys.map Val.list)
  | collect =>
      obtain ⟨ys, hys⟩ := hmap
      have hafter : Terminal.collect.after = [] := rfl
      refine ⟨.vec ys, ?_⟩
      rw [hafter, List.append_nil]
      exact (logs_stagesRun ws).bind (hys.map Val.vec)

theorem apart_of_log_eq {ws : List Stage} (hpos : 0 < mutables ws) {t : Terminal} {l : List Event}
    (h : some 0 :: some 0 :: l =
      t.before ++ ((depths ws 0 ++ t.after) ++ (depths ws 0 ++ t.after))) :
    mutables ws ≤ 1 ∧ t.before = [] ∧ t.after = [] := by
  obtain ⟨hbefore, hafter⟩ := t.marks_of_mem
  obtain ⟨l', hdepths, hone, htwo⟩ := depths_of_pos hpos 0
  cases hb : t.before with
  | cons x xs =>
      rw [hb] at h hbefore
      have hx := (List.cons.inj h).1
      rw [hbefore x List.mem_cons_self] at hx
      cases hx
  | nil =>
      rw [hb, hdepths] at h
      have htail := (List.cons.inj h).2
      by_cases hcount : mutables ws ≤ 1
      · rw [hone hcount] at htail
        refine ⟨hcount, rfl, ?_⟩
        cases ha : t.after with
        | nil => rfl
        | cons x xs =>
            rw [ha] at htail hafter
            have hx := (List.cons.inj htail).1
            rw [hafter x List.mem_cons_self] at hx
            cases hx
      · obtain ⟨l'', hl''⟩ := htwo (by omega)
        rw [hl''] at htail
        exact absurd (List.cons.inj htail).1 (by simp)

/-- A source of two elements. -/
def pairSource : Head → Source
  | .list => .list ⟨.name, 0⟩
  | .container => .container ⟨.name, 0⟩
  | .range => .range [] (.int zeroInt) (.int oneStep)
  | .stepped => .stepped [] (.int zeroInt) (.int oneStep) (.int oneStep)

theorem pairSource_head (h : Head) : (pairSource h).head = h := by cases h <;> rfl

theorem rangeElems_pair : rangeElems 3 (.datum (.int zeroInt)) (.datum (.int oneStep))
    (.datum (.int oneStep)) = (pure pair : Comp (List Event) (List (Datum Nat))) := by
  have hlist : rangeList oneStep oneStep 3 zeroInt = some [zeroInt, oneStep] := by decide
  rw [rangeElems_int _ _ _ _ oneStep_pos, hlist]
  rfl

theorem pairSource_elems (env : Env (List Event) Nat) (h : Head) :
    (pairSource h).elems logging 3 env = pure pair := by
  cases h with
  | list => rfl
  | container => rfl
  | range =>
      simp only [pairSource, Source.elems, underBlock, rangeRun, Operand.expr, eval, pure_bind]
      exact rangeElems_pair
  | stepped =>
      simp only [pairSource, Source.elems, underBlock, rangeRun, Operand.expr, eval, pure_bind]
      exact rangeElems_pair

theorem apart_of_refines {h : Head} {p : Pos × Stage} {ps : List (Pos × Stage)} {t : Terminal}
    {pos : Pos} {new : Expr} {env : Env (List Event) Nat}
    (hnew : rewritten (pairSource h) (p :: ps) pos t = some new)
    (hfusable : Fusable h ((p :: ps).map Prod.snd) t)
    (hreturns : ∀ ys, Returns (t.run logging (pairSource h).carrier ys))
    (hrefines : Refines (eval logging 3 env (program (pairSource h) (p :: ps) t))
      (eval logging 3 env new)) (hpos : 0 < mutables ((p :: ps).map Prod.snd)) :
    t ≠ .length ∧ mutables ((p :: ps).map Prod.snd) ≤ 1 ∧ t.before = [] ∧ t.after = [] := by
  have hfused := refines_fused logging 3 env (pairSource h) p ps t pos hnew
    (by rwa [pairSource_head])
  rw [pairSource_elems, pure_bind] at hfused
  obtain ⟨ys, l, hys⟩ := logs_mapStages hpos (d := .int zeroInt) (e := .int oneStep) (n := 0) rfl rfl
  obtain ⟨v, l', hv⟩ := hreturns ys
  have hprogram : Logs (eval logging 3 env (program (pairSource h) (p :: ps) t)) v
      (some 0 :: some 0 :: l ++ l') := by
    rw [eval_program, pairSource_elems, pure_bind]
    exact hys.bind hv
  have hnewRun := hrefines [] _ (hprogram [])
  by_cases ht : t = .length
  · subst ht
    have hlength : Logs (Terminal.length.fused logging ((p :: ps).map Prod.snd) pair)
        (.datum (.int (.ofInt pair.length))) [] := Logs.pure _
    have heq := hfused [] _ (hlength [])
    rw [hnewRun] at heq
    cases heq
  · obtain ⟨v', hv'⟩ := logs_fused ((p :: ps).map Prod.snd) ht
    have heq := hfused [] _ (hv' [])
    rw [hnewRun, Option.some.injEq, Prod.mk.injEq] at heq
    exact ⟨ht, apart_of_log_eq hpos heq.2⟩

end Kaikai.PipeFusion
