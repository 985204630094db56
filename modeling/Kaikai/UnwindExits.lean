import Kaikai.UnwindRuns

namespace Kaikai.Unwind

open Kaikai.Str
open Evidence Evidence.Ev Relation

/-- An exit has landed: it ran the `finally` blocks it left, the innermost first and each once,
released what was registered since its target was pushed, dropped the frames of the handles it
skipped and kept those of its target, and put back the evidence from before the push. -/
structure Landed (x : Exit) (target : Ev) (s : Fiber) : Prop where
  ran : x.ran.reverse = (segment target.parent x.top).filter fun n => n.cleanup
  once : s.ev.done.Nodup
  released : ∃ last, x.released ++ (last ++ s.unw) = x.unw ∧ (target ≠ null → last = [])
  skipped : ∀ n ∈ segment target.parent x.top, n ≠ target → framesOf n s.rframes = []
  kept : target ≠ null → framesOf target x.rframes <:+ framesOf target s.rframes
  noneLeft : ∀ n, framesOf n s.rframes ≠ [] →
    target ≠ null ∧ (n = target ∨ n.address < target.address)
  pad : target = null → s.unw = [] ∧ s.ev.ctx.top = null ∧ ∀ i, s.ev.ctx.flTop i = null
  before : target ≠ null → ∃ b ∈ s.born, b.node = target ∧ s.unw = b.unw ∧
    s.ev.ctx.top = b.ctx.top ∧ s.ev.ctx.flTop = b.ctx.flTop ∧
    s.ev.ctx.disp = maskOn b.ctx.top b.ctx.disp

def Fiber.ExitsLand (s : Fiber) : Prop :=
  ∀ x ts target cur fs s', s.tasks = .exit x :: ts → s.ev.frames = .unwind target cur :: fs →
    cur = null ∨ cur = target.parent → step s (.ev .unwind) = some s' → Landed x target s'

/-- The frames that were pending when a handle ended have all run, the innermost first, each on what
the one before it gave. -/
def Fiber.DrainsEnd (s : Fiber) : Prop :=
  ∀ n d start ts s', s.tasks = .drain n d start :: ts → d.applying = none →
    frameTake n s.rframes = none → step s .apply = some s' →
    d.given = (d.fed.map fun f => f.1).reverse ∧ Feeds d.start d.fed d.value

/-- A `finally` reaches the handlers that were in scope when its own handler was pushed. -/
def Fiber.FinallyReaches (s : Fiber) : Prop :=
  ∀ n saved savedFl scope fs, s.ev.frames = .cleanup n saved savedFl scope :: fs →
    ∀ label, evFindFiber s.ev.ctx label = first label (s.ev.outer n.address) ∧
      evFind s.ev.ctx.top label s.ev.ctx.disp = first label (s.ev.outer n.address)

section Exits

variable {s s' : Fiber} {here : Ev}

theorem Walk.landed {x : Exit} {target : Ev} {ts : List Task} {fs : List Frame} (h : s.Inv here)
    (hwalk : Walk s.born x target here s.unw s.rframes) (hruns : Runs ts)
    (hlive : Live s.born s.ev.done ts fs x.unw x.rframes x.top x.next) (hne : target ≠ null)
    (hhere : here = target.parent) :
    Landed x target { s with ev := s.ev.land target fs, tasks := taskOf target ts } := by
  have htop := (hwalk.toTarget hne).1
  obtain ⟨b, rest, rf', hfound⟩ := hlive.find (fun m u heq => by cases hruns _ heq) htop
  have hfound' := hwalk.found hfound hlive.descending htop (.inr ⟨rfl, hhere⟩) (fun _ ht => ht) rfl
    (Eq.refl (frameOf target fs))
  have hunw := hwalk.unw_eq hfound' htop hhere
  have hgood := h.births b hfound.birth
  have hparent : target.parent = b.ctx.top := by
    rw [← hfound.node]
    exact hgood.parent
  have hvisited : x.visited = false :=
    Bool.eq_false_iff.2 fun hv => (hwalk.visited hv).2 hhere
  have hran := hwalk.ran
  rw [hvisited, if_neg Bool.false_ne_true, hhere] at hran
  rw [State.land, if_neg hne]
  constructor
  case ran => exact hran
  case once => exact h.once
  case released => exact ⟨[], hwalk.released, fun _ => rfl⟩
  case skipped =>
    rw [← hhere]
    exact hwalk.skipped
  case kept => exact hwalk.keptTarget
  case noneLeft =>
    intro n hn
    refine ⟨hne, ?_⟩
    obtain ⟨_, hn⟩ | hon | hmem := hwalk.held n hn
    · exact hn
    · rw [hhere] at hon
      exact .inr (hfound.live.young hon)
    · rw [hunw] at hmem
      have hlt := hgood.handles n hmem
      rw [hfound.node] at hlt
      exact .inr hlt
  case pad => exact fun hnull => absurd hnull hne
  case before =>
    refine fun _ => ⟨b, hfound.birth, hfound.node, hunw, hparent, ?_, ?_⟩
    · funext i
      dsimp only
      rw [h.slots i, hgood.slots i, hhere, hparent]
    · rw [← hfound.node]
      exact hgood.mask

theorem Walk.landedPad {x : Exit} {fs : List Frame} (h : s.Inv here)
    (hwalk : Walk s.born x null here s.unw s.rframes) (hnull : here = null) :
    Landed x null
      { s with
        ev := s.ev.land null fs
        unw := (releaseTo 0 s.unw s.rframes).1
        rframes := (releaseTo 0 s.unw s.rframes).2
        tasks := [] } := by
  have hinv := @inv_landPad s here x fs h hwalk hnull
  obtain ⟨hunw, _⟩ := releaseTo_spec 0 s.unw s.rframes
  rw [Nat.sub_zero, List.drop_length] at hunw
  have hnone : ∀ n, framesOf n (releaseTo 0 s.unw s.rframes).2 = [] := by
    intro n
    by_contra hn
    obtain ⟨_, ht, _⟩ := hinv.live.owned n hn
    cases ht
  have hvisited : x.visited = false :=
    Bool.eq_false_iff.2 fun hv => (hwalk.visited hv).1 hnull
  have hran := hwalk.ran
  rw [hvisited, if_neg Bool.false_ne_true, hnull] at hran
  constructor
  case ran => exact hran
  case once => exact h.once
  case released =>
    refine ⟨s.unw, ?_, fun hne => absurd rfl hne⟩
    dsimp only
    rw [hunw, List.append_nil]
    exact hwalk.released
  case skipped => exact fun n _ _ => hnone n
  case kept => exact fun hne => absurd rfl hne
  case noneLeft => exact fun n hn => absurd (hnone n) hn
  case pad => exact fun _ => ⟨hunw, rfl, hinv.slots⟩
  case before => exact fun hne => absurd rfl hne

theorem Fiber.Inv.exitsLand (h : s.Inv here) : s.ExitsLand := by
  intro x ts target cur fs s' htasks hframes hcond hstep
  obtain ⟨ev, hev, hstep⟩ := Option.bind_eq_some_iff.1 hstep
  rw [Evidence.step, hframes] at hev
  obtain rfl := Option.some.inj hev
  rw [Fiber.stepEv, htasks, hframes] at hstep
  obtain rfl := Option.some.inj hstep
  have hlive := h.live
  rw [htasks] at hlive
  obtain ⟨target', fs', hframes', hage, hdone, hwalk, hown, hruns, hrest⟩ := hlive.exit_inv
  rw [hframes] at hframes'
  injection hframes' with hframe hfs
  injection hframe with htarget hcur
  subst htarget hcur hfs
  rw [Fiber.unwind, if_pos hcond, State.unwind, if_pos hcond]
  split
  · next htarget =>
      subst htarget
      exact hwalk.landedPad h (hcond.elim id id)
  · next hne =>
      have hhere : cur = target.parent := by
        refine hcond.elim (fun hnull => ?_) id
        refine (hwalk.toTarget hne).2.resolve_left fun hon => ?_
        rw [hnull] at hon
        cases hon
      exact hwalk.landed h hruns hrest hne hhere

theorem Fiber.Inv.drainsEnd (h : s.Inv here) : s.DrainsEnd := by
  intro n d start ts s' htasks hd hnone _
  have hlive := h.live
  rw [htasks] at hlive
  exact (hlive.endDrain hd (framesOf_of_frameTake_none hnone)).2.1

end Exits

/-- The step also starts where the mask serves, or in a default clause over a chain in which nothing
ends that has a `finally`. -/
def Serving (s : Fiber) (aside : Option ℕ) : Act → Prop
  | .ev a => AsideServes s.ev aside a
  | _ => True

/-- The default clause over a chain that the fiber is in after the step. -/
def asideAfter (s : Fiber) (aside : Option ℕ) : Act → Option ℕ
  | .ev a => watch s.ev aside a
  | _ => aside

def ServingStep (p p' : Fiber × Option ℕ) : Prop :=
  ∃ a, Serving p.1 p.2 a ∧ step p.1 a = some p'.1 ∧ p'.2 = asideAfter p.1 p.2 a

section Finallys

variable {s s' : Fiber}

theorem ev_of_stepEv {ev : State} {a : Evidence.Act} (hstep : s.stepEv ev a = some s') :
    s'.ev = ev := by
  unfold Fiber.stepEv at hstep
  repeat' split at hstep
  all_goals first
    | obtain rfl := Option.some.inj hstep
      first
        | rfl
        | unfold Fiber.unwind
          repeat' split
          all_goals rfl
    | cases hstep

theorem ordered_stepOf {aside : Option ℕ} {a : Act} (h : s.ev.Ordered aside)
    (hserves : Serving s aside a) (hstep : step s a = some s') :
    s'.ev.Ordered (asideAfter s aside a) := by
  unfold step at hstep
  cases a with
  | ev a =>
      obtain ⟨ev, hev, hstep⟩ := Option.bind_eq_some_iff.1 hstep
      rw [ev_of_stepEv hstep]
      exact ordered_step h hserves hev
  | _ =>
      have heq : s'.ev = s.ev := by
        dsimp only at hstep
        repeat' split at hstep
        all_goals first
          | obtain rfl := Option.some.inj hstep
            rfl
          | cases hstep
      rw [heq]
      exact h

theorem ordered_run {p : Fiber × Option ℕ} (h : ReflTransGen ServingStep (Fiber.init, none) p) :
    p.1.ev.Ordered p.2 := by
  induction h with
  | refl => exact inOrder_init
  | tail _ hstep ih =>
      obtain ⟨a, hserves, hstep, haside⟩ := hstep
      rw [haside]
      exact ordered_stepOf ih hserves hstep

theorem visible_parent {outer : ℕ → List Ev} {n : Ev} (h : Chained outer n) (hne : n ≠ null) :
    visible n.parent (dispAtPush n) = outer n.address := by
  cases n with
  | null => exact absurd rfl hne
  | node hd p f => exact h.2.2.2.1

theorem finallyReaches_inOrder (hin : s.ev.InOrder) : s.FinallyReaches := by
  intro n saved savedFl scope fs hframes label
  have hscope : s.ev.scope = s.ev.outer n.address := by
    rw [State.InOrder, hframes] at hin
    cases hin with
    | finish hne htop hs hrest =>
        cases hrest with
        | handle _ htop' hs' _ =>
            have hchain := hs'.chained
            rw [htop'] at hchain
            rw [← hs.inSight, htop, visible_parent hchain hne]
    | resume hne htop hs hrest =>
        cases hrest with
        | unwind hu _ _ =>
            have hchain := hu.chained.of_onChain (hu.onChain.resolve_left hne)
            rw [← hs.inSight, htop, visible_parent hchain hne]
  have hrunning : s.ev.Running := by
    rw [State.Running, hframes]
    trivial
  obtain ⟨hfast, hfull, _⟩ := hin.agrees hrunning
  rw [← hscope]
  exact ⟨hfast label, hfull label⟩

theorem finallyReaches_run {aside : Option ℕ}
    (h : ReflTransGen ServingStep (Fiber.init, none) (s, aside)) : s.FinallyReaches := by
  have hordered := ordered_run h
  cases aside with
  | none => exact finallyReaches_inOrder hordered
  | some depth =>
      -- no `finally` runs in such a default clause
      intro n saved savedFl scope fs hframes
      rw [State.Ordered, hframes] at hordered
      cases hordered

/-- In a run that meets its conditions exits land where and as they should and handles feed their
frames; where the masks serve too, each `finally` reaches the handlers of its own handler's push. -/
theorem unwinds_run (h : ReflTransGen AptStep Fiber.init s) :
    s.ExitsLand ∧ s.DrainsEnd ∧
      ∀ aside, ReflTransGen ServingStep (Fiber.init, none) (s, aside) → s.FinallyReaches := by
  obtain ⟨here, hinv⟩ := inv_run h
  exact ⟨hinv.exitsLand, hinv.drainsEnd, fun _ => finallyReaches_run⟩

end Finallys

section Runs

/-- The fiber after some steps. -/
def after (s : Fiber) (acts : List Act) : Fiber :=
  acts.foldl (fun s a => (step s a).getD s) s

theorem held_nil (target cur : Ev) (unw : List Entry) : Held target cur unw [] :=
  fun _ hn => absurd rfl hn

def fileLabel : Label :=
  { base := ascii "File", args := [] }

def clockLabel : Label :=
  { base := ascii "Clock", args := [] }

/-- A fiber in the body of a handle with a `finally`, with a slot registered. -/
def armed : Fiber :=
  after .init [.ev (.push consoleLabel true), .register (.slots [some 7])]

/-- The same fiber about to land outside the handle. -/
def landing : Fiber :=
  after armed [.ev (.exit armed.ev.ctx.top), .ev .unwind, .ev .finish, .ev .unwind]

theorem landing_run : ReflTransGen AptStep Fiber.init landing := by
  have hpush : AptStep Fiber.init (after .init [.ev (.push consoleLabel true)]) :=
    ⟨.ev (.push consoleLabel true), (fun hon => by cases hon), rfl⟩
  have hregister : AptStep (after .init [.ev (.push consoleLabel true)]) armed :=
    ⟨.register (.slots [some 7]), trivial, rfl⟩
  have hexit : AptStep armed (after armed [.ev (.exit armed.ev.ctx.top)]) :=
    ⟨.ev (.exit armed.ev.ctx.top), held_nil _ _ _, rfl⟩
  have hvisit : AptStep (after armed [.ev (.exit armed.ev.ctx.top)])
      (after armed [.ev (.exit armed.ev.ctx.top), .ev .unwind]) :=
    ⟨.ev .unwind, trivial, rfl⟩
  have hfinish : AptStep (after armed [.ev (.exit armed.ev.ctx.top), .ev .unwind])
      (after armed [.ev (.exit armed.ev.ctx.top), .ev .unwind, .ev .finish]) :=
    ⟨.ev .finish, trivial, rfl⟩
  have hmove : AptStep (after armed [.ev (.exit armed.ev.ctx.top), .ev .unwind, .ev .finish])
      landing :=
    ⟨.ev .unwind, trivial, rfl⟩
  exact ((((ReflTransGen.single hpush).tail hregister).tail hexit).tail hvisit).tail hfinish |>.tail
    hmove

/-- What the exit did. -/
def leaving : Exit :=
  { top := armed.ev.ctx.top, unw := armed.unw, rframes := [], next := 1, ran := [armed.ev.ctx.top]
    released := [.slots [some 7]], visited := false }

theorem unwinds_run_landing :
    ∃ s, step landing (.ev .unwind) = some s ∧ Landed leaving armed.ev.ctx.top s ∧ s.unw = [] := by
  refine ⟨_, rfl, ?_, rfl⟩
  exact (unwinds_run landing_run).1 leaving [.body armed.ev.ctx.top []] armed.ev.ctx.top null _ _ rfl
    rfl (.inl rfl) rfl

/-- A fiber in a clause of the middle one of its three handles, the innermost with a `finally`. -/
def dispatching : Fiber :=
  after .init
    [.ev (.push consoleLabel false), .ev (.push fileLabel false), .ev (.push clockLabel true)]

/-- The same fiber in the `finally` that an exit from the clause to the outermost handle runs. -/
def cleaning : Fiber :=
  after dispatching
    [.ev (.enter dispatching.ev.ctx.top.parent),
      .ev (.exit dispatching.ev.ctx.top.parent.parent), .ev .unwind]

/-- The `finally` does not reach the middle handle, though that is in scope. -/
theorem cleaning_not_finallyReaches :
    ReflTransGen AptStep Fiber.init cleaning ∧ ¬ cleaning.FinallyReaches := by
  have h₁ : AptStep Fiber.init (after .init [.ev (.push consoleLabel false)]) :=
    ⟨.ev (.push consoleLabel false), (fun hon => by cases hon), rfl⟩
  have h₂ : AptStep (after .init [.ev (.push consoleLabel false)])
      (after .init [.ev (.push consoleLabel false), .ev (.push fileLabel false)]) :=
    ⟨.ev (.push fileLabel false), (fun hon => by cases hon), rfl⟩
  have h₃ : AptStep (after .init [.ev (.push consoleLabel false), .ev (.push fileLabel false)])
      dispatching :=
    ⟨.ev (.push clockLabel true), (fun hon => by cases hon), rfl⟩
  have h₄ : AptStep dispatching (after dispatching [.ev (.enter dispatching.ev.ctx.top.parent)]) :=
    ⟨.ev (.enter dispatching.ev.ctx.top.parent), trivial, rfl⟩
  have h₅ : AptStep (after dispatching [.ev (.enter dispatching.ev.ctx.top.parent)])
      (after dispatching
        [.ev (.enter dispatching.ev.ctx.top.parent),
          .ev (.exit dispatching.ev.ctx.top.parent.parent)]) :=
    ⟨.ev (.exit dispatching.ev.ctx.top.parent.parent), held_nil _ _ _, rfl⟩
  have h₆ : AptStep
      (after dispatching
        [.ev (.enter dispatching.ev.ctx.top.parent),
          .ev (.exit dispatching.ev.ctx.top.parent.parent)]) cleaning :=
    ⟨.ev .unwind, trivial, rfl⟩
  refine ⟨((((ReflTransGen.single h₁).tail h₂).tail h₃).tail h₄).tail h₅ |>.tail h₆, fun h => ?_⟩
  have hreach := (h dispatching.ev.ctx.top _ _ _ _ rfl fileLabel).2
  have hnone : evFind cleaning.ev.ctx.top fileLabel cleaning.ev.ctx.disp = null := rfl
  have hscope : first fileLabel (cleaning.ev.outer dispatching.ev.ctx.top.address) =
      dispatching.ev.ctx.top.parent := rfl
  rw [hnone, hscope] at hreach
  cases hreach

end Runs

end Kaikai.Unwind
