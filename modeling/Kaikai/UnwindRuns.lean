import Kaikai.UnwindWalk

namespace Kaikai.Unwind

open Kaikai.Str
open Evidence Evidence.Ev Relation

/-- The part of a chain no `finally` of which has run. -/
def clean : List Task → Ev → Ev
  | .closed _ _ :: _, here => here.parent
  | .exit x :: _, here => if x.visited then here.parent else here
  | _, here => here

theorem clean_of_runs {tasks : List Task} (h : Runs tasks) (here : Ev) :
    clean tasks here = here := by
  cases tasks with
  | nil => rfl
  | cons t ts =>
      cases t with
      | closed => exact absurd (h _ rfl) Bool.false_ne_true
      | exit => exact absurd (h _ rfl) Bool.false_ne_true
      | _ => rfl

theorem onChain_of_clean {tasks : List Task} {here m : Ev}
    (h : (clean tasks here).onChain m = true) : here.onChain m = true := by
  unfold clean at h
  split at h
  · exact onChain_parent h
  · split at h
    · exact onChain_parent h
    · exact h
  · exact h

/-- The fiber is in order when it stands at a node: its top, or where its exit is. -/
structure Fiber.Inv (s : Fiber) (here : Ev) : Prop where
  live : Live s.born s.ev.done s.tasks s.ev.frames s.unw s.rframes here s.ev.next
  top : (∀ x ts, s.tasks ≠ .exit x :: ts) → s.ev.ctx.top = here
  births : ∀ b ∈ s.born, b.Good s.marks s.ev.next
  slots : ∀ i, s.ev.ctx.flTop i = nearest i here
  clear : ∀ m, (clean s.tasks here).onChain m = true → m.address ∉ s.ev.done
  young : ∀ a ∈ s.ev.done, a < s.ev.next
  once : s.ev.done.Nodup
  handles : ∀ n, .handle n ∈ s.unw → n.address < s.ev.next

/-- The step starts where it can be undone: a push whose dispatching node is no more than 254 nodes
below, and an exit that leaves no handle with frames pending off its chain, undrained. -/
def Apt (s : Fiber) : Act → Prop
  | .ev (.push _ _) =>
      s.ev.ctx.top.onChain s.ev.ctx.disp = true → ∃ k < 254, hopUp k s.ev.ctx.top = s.ev.ctx.disp
  | .ev (.exit target) => Held target s.ev.ctx.top s.unw s.rframes
  | _ => True

section Steps

variable {s s' : Fiber} {here : Ev} {ev : State}

theorem Fiber.Inv.topOf (h : s.Inv here) (hruns : Runs s.tasks) : s.ev.ctx.top = here :=
  h.top fun x ts heq => by cases hruns (.exit x) (by rw [heq]; rfl)

theorem inv_init : Fiber.init.Inv null where
  live := .base fun _ hn => absurd rfl hn
  top _ := rfl
  births _ hb := by cases hb
  slots _ := rfl
  clear _ hm := by cases hm
  young _ ha := by cases ha
  once := List.nodup_nil
  handles _ hn := by cases hn

theorem inv_push {label : Label} {cleanup : Bool} (h : s.Inv here)
    (hapt : Apt s (.ev (.push label cleanup)))
    (hev : Evidence.step s.ev (.push label cleanup) = some ev)
    (hstep : s.stepEv ev (.push label cleanup) = some s') : ∃ here', s'.Inv here' := by
  rw [Evidence.step] at hev
  split at hev
  · obtain rfl := Option.some.inj hev
    rw [Fiber.stepEv] at hstep
    split at hstep
    · next hrun =>
        obtain rfl := Option.some.inj hstep
        have htop := h.topOf hrun.2
        have hslots : ∀ i, s.ev.ctx.flTop i = nearest i s.ev.ctx.top := by
          rw [htop]
          exact h.slots
        refine ⟨pushed s.ev.ctx s.ev.next label cleanup, ?_⟩
        constructor
        case live =>
          exact h.live.push hrun.2
            { node := pushed s.ev.ctx s.ev.next label cleanup, ctx := s.ev.ctx, unw := s.unw }
            (by simp [pushed]) htop rfl rfl
        case top => exact fun _ => rfl
        case births =>
          intro b hb
          obtain rfl | hb := List.mem_cons.1 hb
          · exact
              { made := ⟨label, cleanup, rfl⟩
                slots := hslots
                mask := dispAtPush_pushed s.ev.ctx s.ev.next label cleanup hapt
                mark := Function.update_self ..
                young := Nat.lt_succ_self _
                handles := h.handles }
          · have hgood := h.births b hb
            exact
              { hgood with
                mark := (Function.update_of_ne (Nat.ne_of_lt hgood.young) ..).trans hgood.mark
                young := Nat.lt_succ_of_lt hgood.young }
        case slots => exact nearest_pushed hslots s.ev.next label cleanup
        case clear =>
          intro m hm hmem
          obtain rfl | hm := onChain_pushed.1 hm
          · exact Nat.lt_irrefl _ (h.young _ hmem)
          · refine h.clear m ?_ hmem
            rw [clean_of_runs hrun.2, ← htop]
            exact hm
        case young => exact fun a ha => Nat.lt_succ_of_lt (h.young a ha)
        case once => exact h.once
        case handles => exact fun n hn => Nat.lt_succ_of_lt (h.handles n hn)
    · cases hstep
  · cases hev

theorem inv_runCleanup (h : s.Inv here) (hev : Evidence.step s.ev .runCleanup = some ev)
    (hstep : s.stepEv ev .runCleanup = some s') : ∃ here', s'.Inv here' := by
  rw [Fiber.stepEv] at hstep
  split at hstep
  · next n start ts htasks =>
      split at hstep
      · next hlength =>
          obtain rfl := Option.some.inj hstep
          have hlive := h.live
          rw [htasks] at hlive
          obtain ⟨fs, hframes, hhere, ⟨b, hb, hnode⟩, hclean⟩ := hlive.runCleanup hlength
          have hlink := (h.births b hb).linked
          rw [hnode] at hlink
          subst hhere
          have hruns : Runs s.tasks := by
            rw [htasks]
            intro t ht
            obtain rfl := Option.some.inj ht
            rfl
          have htop := h.topOf hruns
          have hclear := h.clear
          rw [clean_of_runs hruns] at hclear
          rw [Evidence.step, hframes] at hev
          dsimp only at hev
          split at hev
          · next hpending =>
              obtain rfl := Option.some.inj hev
              rw [State.pending, Bool.and_eq_true, decide_eq_true_eq] at hpending
              refine ⟨here.parent, ?_⟩
              constructor
              case live =>
                rw [State.startCleanup, htop]
                refine hclean _ _ fun i hi => ?_
                rw [hi]
                exact h.slots i
              case top => exact fun _ => rfl
              case births => exact h.births
              case slots => exact flPop_eq hlink h.slots
              case clear =>
                intro m hm hmem
                obtain heq | hmem := List.mem_cons.1 hmem
                · exact Nat.ne_of_lt (hlive.descending.lt hm) heq
                · exact hclear m (onChain_parent hm) hmem
              case young =>
                intro a ha
                obtain rfl | ha := List.mem_cons.1 ha
                · rw [← hnode]
                  exact (h.births b hb).young
                · exact h.young a ha
              case once => exact List.nodup_cons.2 ⟨hpending.2, h.once⟩
              case handles => exact h.handles
          · cases hev
      · cases hstep
  · cases hstep

theorem inv_pop (h : s.Inv here) (hev : Evidence.step s.ev .pop = some ev)
    (hstep : s.stepEv ev .pop = some s') : ∃ here', s'.Inv here' := by
  have hpop : ∀ {n start ts}, (∃ fs, s.ev.frames = .handle n :: fs ∧ here = n ∧
        (∃ b ∈ s.born, b.node = n) ∧
        Live s.born s.ev.done (.tail n start :: ts) fs s.unw s.rframes n.parent s.ev.next) →
      (∀ m, n.parent.onChain m = true → (clean s.tasks here).onChain m = true) →
      Fiber.Inv { s with ev := ev, tasks := .tail n start :: ts } n.parent := by
    rintro n start ts ⟨fs, hframes, rfl, ⟨b, hb, hnode⟩, hlive⟩ hclean
    have hlink := (h.births b hb).linked
    rw [hnode] at hlink
    rw [Evidence.step, hframes] at hev
    obtain rfl := Option.some.inj hev
    exact
      { live := hlive
        top := fun _ => rfl
        births := h.births
        slots := flPop_eq hlink h.slots
        clear := fun m hm => h.clear m (hclean m hm)
        young := h.young
        once := h.once
        handles := h.handles }
  have hlive := h.live
  rw [Fiber.stepEv] at hstep
  split at hstep
  · next n start ts htasks =>
      split at hstep
      · obtain rfl := Option.some.inj hstep
        rw [htasks] at hlive
        obtain ⟨fs, hframes, rfl, hbirth, htail⟩ := hlive.pop
        refine ⟨_, hpop ⟨fs, hframes, rfl, hbirth, htail⟩ fun m hm => ?_⟩
        rw [htasks]
        exact onChain_parent hm
      · cases hstep
  · next n start ts htasks =>
      obtain rfl := Option.some.inj hstep
      rw [htasks] at hlive
      obtain ⟨fs, hframes, rfl, hbirth, htail⟩ := hlive.popClosed
      refine ⟨_, hpop ⟨fs, hframes, rfl, hbirth, htail⟩ fun m hm => ?_⟩
      rw [htasks]
      exact hm
  · cases hstep

theorem inv_clause {prev : Ev} {scope scope' : List Ev} {disp : Ev} (h : s.Inv here)
    (hruns : Runs s.tasks) :
    Fiber.Inv
      { s with
        ev :=
          { s.ev with
            ctx := { s.ev.ctx with disp := disp }
            frames := .clause prev scope :: s.ev.frames
            scope := scope' }
        tasks := .clause s.unw :: s.tasks } here where
  live := h.live.enter hruns prev scope
  top _ := h.topOf hruns
  births := h.births
  slots := h.slots
  clear m hm := by
    refine h.clear m ?_
    rw [clean_of_runs hruns]
    exact hm
  young := h.young
  once := h.once
  handles := h.handles

theorem inv_enter {n : Ev} (h : s.Inv here) (hev : Evidence.step s.ev (.enter n) = some ev)
    (hstep : s.stepEv ev (.enter n) = some s') : ∃ here', s'.Inv here' := by
  rw [Evidence.step] at hev
  rw [Fiber.stepEv] at hstep
  split at hev
  · split at hstep
    · next hrun =>
        obtain rfl := Option.some.inj hev
        obtain rfl := Option.some.inj hstep
        exact ⟨here, inv_clause h hrun.2⟩
    · cases hstep
  · cases hev

theorem inv_enterDefault {id : ℕ} {label : Label} (h : s.Inv here)
    (hev : Evidence.step s.ev (.enterDefault id label) = some ev)
    (hstep : s.stepEv ev (.enterDefault id label) = some s') : ∃ here', s'.Inv here' := by
  rw [Evidence.step] at hev
  rw [Fiber.stepEv] at hstep
  split at hev
  · split at hstep
    · next hrun =>
        obtain rfl := Option.some.inj hev
        obtain rfl := Option.some.inj hstep
        exact ⟨here, inv_clause h hrun.2⟩
    · cases hstep
  · cases hev

theorem inv_leave (h : s.Inv here) (hev : Evidence.step s.ev .leave = some ev)
    (hstep : s.stepEv ev .leave = some s') : ∃ here', s'.Inv here' := by
  rw [Fiber.stepEv] at hstep
  split at hstep
  · next start ts htasks =>
      split at hstep
      · next hlength =>
          obtain rfl := Option.some.inj hstep
          have hlive := h.live
          have hclear := h.clear
          rw [htasks] at hlive hclear
          obtain ⟨prev, scope, fs, hframes, hruns, hlive⟩ := hlive.leave hlength
          rw [Evidence.step, hframes] at hev
          obtain rfl := Option.some.inj hev
          refine ⟨here, ?_⟩
          exact
            { live := hlive
              top := fun _ => h.top fun x ts heq => by cases htasks.symm.trans heq
              births := h.births
              slots := h.slots
              clear := fun m hm => hclear m (onChain_of_clean hm)
              young := h.young
              once := h.once
              handles := h.handles }
      · cases hstep
  · cases hstep

theorem restore_slots {c : Context} {n saved savedFl : Ev}
    (hslots : ∀ i, c.flTop i = nearest i n.parent)
    (hfl : ∀ i, n.fl = some i → savedFl = nearest i n) (i : ℕ) :
    (c.restore n saved savedFl).flTop i = nearest i n := by
  cases n with
  | null => exact hslots i
  | node hd p f =>
      have hi := hslots i
      have hnearest : nearest i (node hd p f) =
          if hd.fl = some i then node hd p f else nearest i p := rfl
      rw [Context.restore]
      dsimp only
      cases hslot : (node hd p f).fl with
      | none =>
          have hslot' : hd.fl = none := hslot
          rw [hnearest, hslot', if_neg (fun heq => by cases heq)]
          exact hi
      | some j =>
          have hslot' : hd.fl = some j := hslot
          dsimp only
          by_cases hj : j = i
          · subst hj
            rw [Function.update_self]
            exact hfl j hslot
          · rw [Function.update_of_ne (Ne.symm hj), hnearest, hslot',
              if_neg fun heq => hj (Option.some.inj heq)]
            exact hi

theorem inv_finish (h : s.Inv here) (hev : Evidence.step s.ev .finish = some ev)
    (hstep : s.stepEv ev .finish = some s') : ∃ here', s'.Inv here' := by
  have hlive := h.live
  have hclear := h.clear
  have hslots := h.slots
  rw [Fiber.stepEv] at hstep
  split at hstep
  · next n start target start' ts htasks =>
      split at hstep
      · next hlength =>
          obtain rfl := Option.some.inj hstep
          rw [htasks] at hlive hclear
          obtain ⟨savedFl, scope, fs, hframes, rfl, _, hfl, hlive⟩ := hlive.finishBody hlength
          rw [Evidence.step, hframes] at hev
          obtain rfl := Option.some.inj hev
          refine ⟨target, ?_⟩
          exact
            { live := hlive
              top := fun _ => rfl
              births := h.births
              slots := restore_slots hslots hfl
              clear := hclear
              young := h.young
              once := h.once
              handles := h.handles }
      · cases hstep
  · next n start x ts htasks =>
      split at hstep
      · next hlength =>
          obtain rfl := Option.some.inj hstep
          rw [htasks] at hlive hclear
          obtain ⟨target, cur, saved, savedFl, scope, fs, hframes, rfl, _, hvisited, hfl, hlive⟩ :=
            hlive.finishExit hlength
          rw [Evidence.step, hframes] at hev
          obtain rfl := Option.some.inj hev
          refine ⟨cur, ?_⟩
          exact
            { live := hlive
              top := fun hexit => absurd rfl (hexit x ts)
              births := h.births
              slots := restore_slots hslots hfl
              clear := fun m hm => hclear m (by rwa [clean, if_pos hvisited] at hm)
              young := h.young
              once := h.once
              handles := h.handles }
      · cases hstep
  · cases hstep

theorem inv_exit {target : Ev} (h : s.Inv here) (hapt : Apt s (.ev (.exit target)))
    (hev : Evidence.step s.ev (.exit target) = some ev)
    (hstep : s.stepEv ev (.exit target) = some s') : ∃ here', s'.Inv here' := by
  rw [Evidence.step] at hev
  rw [Fiber.stepEv] at hstep
  split at hev
  · next hcond =>
      split at hstep
      · next hrun =>
          obtain rfl := Option.some.inj hev
          obtain rfl := Option.some.inj hstep
          have htop := h.topOf hrun.2
          have hheld : Held target s.ev.ctx.top s.unw s.rframes := hapt
          subst htop
          refine ⟨s.ev.ctx.top, ?_⟩
          exact
            { live := h.live.beginExit hrun.2 h.births (fun hne => hcond.2.resolve_left hne) hheld
              top := fun hexit => absurd rfl (hexit _ _)
              births := h.births
              slots := h.slots
              clear := fun m hm => h.clear m (by
                rw [clean, if_neg Bool.false_ne_true] at hm
                rwa [clean_of_runs hrun.2])
              young := h.young
              once := h.once
              handles := h.handles }
      · cases hstep
  · cases hev

theorem pending_eq {n : Ev} (s : State) (h : n.address ∉ s.done) : s.pending n = n.cleanup := by
  rw [State.pending, decide_eq_true h, Bool.and_true]

theorem inv_landPad {x : Exit} {fs : List Frame} (h : s.Inv here)
    (hwalk : Walk s.born x null here s.unw s.rframes) (hnull : here = null) :
    Fiber.Inv
      { s with
        ev := s.ev.land null fs
        unw := (releaseTo 0 s.unw s.rframes).1
        rframes := (releaseTo 0 s.unw s.rframes).2
        tasks := [] } null := by
  subst hnull
  obtain ⟨hunw, hframes⟩ := releaseTo_spec 0 s.unw s.rframes
  rw [Nat.sub_zero, List.drop_length] at hunw
  rw [Nat.sub_zero, List.take_length] at hframes
  rw [State.land, if_pos rfl, hunw]
  constructor
  case live =>
    refine .ended fun n hn => absurd ((hframes n).1 ?_) hn
    by_cases hrf : framesOf n s.rframes = []
    · exact .inl hrf
    · obtain ⟨hne, _⟩ | hon | hmem := hwalk.held n hrf
      · exact absurd rfl hne
      · cases hon
      · exact .inr hmem
  case top => exact fun _ => rfl
  case births => exact h.births
  case slots => exact h.slots
  case clear => exact fun _ hm => by cases hm
  case young => exact h.young
  case once => exact h.once
  case handles => exact fun _ hn => by cases hn

theorem inv_land {x : Exit} {target : Ev} {ts : List Task} {fs : List Frame} (h : s.Inv here)
    (htasks : s.tasks = .exit x :: ts) (hwalk : Walk s.born x target here s.unw s.rframes)
    (hruns : Runs ts) (hlive : Live s.born s.ev.done ts fs x.unw x.rframes x.top x.next)
    (hne : target ≠ null) (hhere : here = target.parent) :
    Fiber.Inv { s with ev := s.ev.land target fs, tasks := taskOf target ts } here := by
  have htop := (hwalk.toTarget hne).1
  obtain ⟨b, rest, rf', hfound⟩ := hlive.find (fun m u heq => by cases hruns _ heq) htop
  have hfound' := hwalk.found hfound hlive.descending htop (.inr ⟨rfl, hhere⟩) (fun _ ht => ht) rfl
    (Eq.refl (frameOf target fs))
  have hland := hwalk.land hfound' h.births htop hhere
  rw [← hfound'.task, ← hwalk.unw_eq hfound' htop hhere, ← hhere] at hland
  have hvisited : x.visited = false :=
    Bool.eq_false_iff.2 fun hv => (hwalk.visited hv).2 hhere
  rw [State.land, if_neg hne]
  exact
    { live := hland
      top := fun _ => hhere.symm
      births := h.births
      slots := h.slots
      clear := fun m hm => h.clear m (by
        rw [htasks, clean, hvisited, if_neg Bool.false_ne_true]
        exact onChain_of_clean hm)
      young := h.young
      once := h.once
      handles := h.handles }

theorem inv_round {x : Exit} {target : Ev} {ts : List Task} {fs : List Frame} (h : s.Inv here)
    (htasks : s.tasks = .exit x :: ts) (hframes : s.ev.frames = .unwind target here :: fs)
    (hage : x.next ≤ s.ev.next) (hdone : x.visited = true → here.address ∈ s.ev.done)
    (hwalk : Walk s.born x target here s.unw s.rframes) (hown : Owned (.exit x :: ts) s.rframes)
    (hruns : Runs ts) (hlive : Live s.born s.ev.done ts fs x.unw x.rframes x.top x.next)
    (hcond : ¬ (here = null ∨ here = target.parent)) :
    ∃ here', (s.unwind (s.ev.unwind target here fs) target here x ts).Inv here' := by
  have hon := hwalk.onTop.resolve_left fun hnull => hcond (.inl hnull)
  obtain ⟨b, rest, rf', hfound⟩ := hlive.find (fun m u heq => by cases hruns _ heq) hon
  obtain ⟨hunw, hwalk'⟩ := hwalk.release hfound h.births hlive.descending hcond
  have hgood := h.births b hfound.birth
  have hlink := hgood.linked
  rw [hfound.node] at hlink
  have hrf : ∀ n, framesOf n (releaseTo (s.marks here.address) s.unw s.rframes).2 ≠ [] →
      framesOf n s.rframes ≠ [] := fun n hn hnil =>
    hn (((releaseTo_spec _ s.unw s.rframes).2 n).1 (.inl hnil))
  have hown' : ∀ y, Owned (.exit y :: ts) (releaseTo (s.marks here.address) s.unw s.rframes).2 :=
    fun y n hn => hown.exit y n (hrf n hn)
  have hhandles : ∀ n, .handle n ∈ b.unw → n.address < s.ev.next := fun n hn =>
    Nat.lt_trans (hgood.handles n hn) hgood.young
  have hclear := h.clear
  rw [htasks, clean] at hclear
  have hclearParent : ∀ m, here.parent.onChain m = true → m.address ∉ s.ev.done := by
    intro m hm
    refine hclear m ?_
    split
    · exact hm
    · exact onChain_parent hm
  rw [Fiber.unwind, if_neg hcond, State.unwind, if_neg hcond]
  dsimp only
  rw [hunw] at hwalk' ⊢
  split
  · next hpending =>
      have hpending' := hpending
      rw [State.pending, Bool.and_eq_true, decide_eq_true_eq] at hpending'
      have hvisited : x.visited = false :=
        Bool.eq_false_iff.2 fun hv => hpending'.2 (hdone hv)
      have hvisit := hwalk'.visit hcond hvisited hpending'.1
      refine ⟨here.parent, ?_⟩
      constructor
      case live =>
        rw [State.startCleanup, hframes]
        refine .resume (Nat.le_refl _) rfl (fun i hi => ?_) (.refl _ _) (.refl _ _ _)
          ((hown' _).cons _)
          (.exit hage (fun _ => List.mem_cons_self) hvisit (hown' _) hruns (hlive.ran _))
        rw [hi]
        exact h.slots i
      case top => exact fun _ => rfl
      case births => exact h.births
      case slots => exact flPop_eq hlink h.slots
      case clear =>
        intro m hm hmem
        obtain heq | hmem := List.mem_cons.1 hmem
        · exact Nat.ne_of_lt ((hlive.descending.of_onChain hon).lt hm) heq
        · exact hclearParent m hm hmem
      case young =>
        intro a ha
        obtain rfl | ha := List.mem_cons.1 ha
        · exact Nat.lt_of_lt_of_le (hlive.young hon) hage
        · exact h.young a ha
      case once => exact List.nodup_cons.2 ⟨hpending'.2, h.once⟩
      case handles => exact hhandles
  · next hpending =>
      have hran : x.visited = false → here.cleanup = false := by
        intro hvisited
        rw [hvisited, if_neg Bool.false_ne_true] at hclear
        have hfresh := hclear here (onChain_self_of_ne_null fun hnull => hcond (.inl hnull))
        rw [pending_eq s.ev hfresh] at hpending
        exact Bool.eq_false_iff.2 hpending
      have hmove := hwalk'.move hfound.birth hfound.node h.births hlive.descending hcond hran
      refine ⟨here.parent, ?_⟩
      constructor
      case live =>
        refine .exit hage (fun hv => by cases hv) hmove ((hown' _).frames fun n hn hnil => hn ?_)
          hruns hlive
        split
        · exact hnil
        · rw [framesOf_framesDrop, hnil, ite_self]
      case top => exact fun hexit => absurd rfl (hexit _ _)
      case births => exact h.births
      case slots => exact flPop_eq hlink h.slots
      case clear =>
        intro m hm
        rw [clean, if_neg Bool.false_ne_true] at hm
        exact hclearParent m hm
      case young => exact h.young
      case once => exact h.once
      case handles => exact hhandles

theorem inv_unwind (h : s.Inv here) (hev : Evidence.step s.ev .unwind = some ev)
    (hstep : s.stepEv ev .unwind = some s') : ∃ here', s'.Inv here' := by
  rw [Fiber.stepEv] at hstep
  split at hstep
  · next x ts target cur fs htasks hframes =>
      obtain rfl := Option.some.inj hstep
      rw [Evidence.step, hframes] at hev
      obtain rfl := Option.some.inj hev
      have hlive := h.live
      rw [htasks] at hlive
      obtain ⟨target', fs', hframes', hage, hdone, hwalk, hown, hruns, hrest⟩ := hlive.exit_inv
      rw [hframes] at hframes'
      injection hframes' with hframe hfs
      injection hframe with htarget hcur
      subst htarget hcur hfs
      by_cases hcond : cur = null ∨ cur = target.parent
      · rw [Fiber.unwind, if_pos hcond, State.unwind, if_pos hcond]
        split
        · next htarget =>
            subst htarget
            exact ⟨_, inv_landPad h hwalk (hcond.elim id id)⟩
        · next hne =>
            have hhere : cur = target.parent := by
              refine hcond.elim (fun hnull => ?_) id
              refine (hwalk.toTarget hne).2.resolve_left fun hon => ?_
              rw [hnull] at hon
              cases hon
            exact ⟨_, inv_land h htasks hwalk hruns hrest hne hhere⟩
      · exact inv_round h htasks hframes hage hdone hwalk hown hruns hrest hcond
  · cases hstep

theorem inv_register {e : Entry} (h : s.Inv here) (hstep : step s (.register e) = some s') :
    ∃ here', s'.Inv here' := by
  rw [step] at hstep
  split at hstep
  · next hcond =>
      obtain rfl := Option.some.inj hstep
      have hne : ∀ n, e ≠ .handle n := by
        rintro n rfl
        cases hcond.2
      refine ⟨here, { h with live := ?live, handles := ?handles }⟩
      case live =>
        exact h.live.withUnw hcond.1.2 fun hover _ => hover.cons fun n heq => absurd heq (hne n)
      case handles =>
        intro n hn
        exact h.handles n ((List.mem_cons.1 hn).resolve_left (Ne.symm (hne n)))
  · cases hstep

theorem inv_unregister (h : s.Inv here) (hstep : step s .unregister = some s') :
    ∃ here', s'.Inv here' := by
  rw [step] at hstep
  split at hstep
  · next hcond =>
      obtain rfl := Option.some.inj hstep
      have hfloor : s.floor = floorOf s.tasks := by
        rw [Fiber.floor]
        cases s.tasks <;> rfl
      refine ⟨here, { h with live := ?live, handles := ?handles }⟩
      case live =>
        refine h.live.withUnw hcond.1.2 fun hover hle => hover.of_tail ?_
        rw [← hfloor] at hle
        exact Nat.lt_of_le_of_lt hle hcond.2
      case handles => exact fun n hn => h.handles n (List.mem_of_mem_tail hn)
  · cases hstep

theorem inv_defer {clo : ℕ} (h : s.Inv here) (hstep : step s (.defer clo) = some s') :
    ∃ here', s'.Inv here' := by
  rw [step] at hstep
  split at hstep
  · next hcond =>
      obtain rfl := Option.some.inj hstep
      refine ⟨here, { h with live := h.live.defer hcond.1.2 ?_ clo }⟩
      rw [← h.topOf hcond.1.2]
      exact hcond.2
  · cases hstep

theorem Fiber.Inv.tasks {unw : List Entry} {rframes : List ResumeFrame} {ts ts' : List Task}
    {t : Task} (h : s.Inv here) (htasks : s.tasks = t :: ts)
    (ht : ∀ x, t ≠ .exit x) (hclean : clean (t :: ts) here = here)
    (hlive : Live s.born s.ev.done ts' s.ev.frames unw rframes here s.ev.next)
    (hunw : ∀ n, .handle n ∈ unw → n.address < s.ev.next) :
    Fiber.Inv { s with unw := unw, rframes := rframes, tasks := ts' } here := by
  have hclear := h.clear
  rw [htasks, hclean] at hclear
  exact
    { live := hlive
      top := fun _ => h.top fun x us heq => ht x (List.cons.inj (htasks.symm.trans heq)).1
      births := h.births
      slots := h.slots
      clear := fun m hm => hclear m (onChain_of_clean hm)
      young := h.young
      once := h.once
      handles := hunw }

theorem inv_drain {v : ℕ} (h : s.Inv here) (hstep : step s (.drain v) = some s') :
    ∃ here', s'.Inv here' := by
  have hlive := h.live
  rw [step] at hstep
  split at hstep
  · next n start ts htasks =>
      rw [htasks] at hlive
      split at hstep
      · next hcond =>
          split at hstep
          · obtain rfl := Option.some.inj hstep
            obtain ⟨hage, hlive⟩ := hlive.drain hcond.2 v
            refine ⟨here, h.tasks htasks (fun x heq => by cases heq) rfl hlive ?_⟩
            intro m hm
            obtain heq | hm := List.mem_cons.1 hm
            · injection heq with heq
              rwa [heq]
            · exact h.handles m hm
          · next hnone =>
              obtain rfl := Option.some.inj hstep
              rw [framesPending_iff, not_not] at hnone
              obtain ⟨_, hlive⟩ := hlive.skipDrain hcond.2 hnone
              exact ⟨here, h.tasks htasks (fun x heq => by cases heq) rfl hlive
                h.handles⟩
      · cases hstep
  · cases hstep

theorem inv_apply (h : s.Inv here) (hstep : step s .apply = some s') : ∃ here', s'.Inv here' := by
  have hlive := h.live
  rw [step] at hstep
  split at hstep
  · next n d start ts htasks =>
      rw [htasks] at hlive
      split at hstep
      · next hd =>
          split at hstep
          · next hnone =>
              obtain rfl := Option.some.inj hstep
              obtain ⟨_, _, hlive⟩ := hlive.endDrain hd (framesOf_of_frameTake_none hnone)
              exact ⟨here, h.tasks htasks (fun x heq => by cases heq) rfl hlive
                fun m hm => h.handles m (List.mem_of_mem_tail hm)⟩
          · next clo rframes htake =>
              obtain rfl := Option.some.inj hstep
              refine ⟨here, h.tasks htasks (fun x heq => by cases heq) rfl
                (hlive.apply hd htake) fun m hm => h.handles m ?_⟩
              exact (List.mem_cons.1 hm).resolve_left fun heq => by cases heq
      · cases hstep
  · cases hstep

theorem inv_applied {v : ℕ} (h : s.Inv here) (hstep : step s (.applied v) = some s') :
    ∃ here', s'.Inv here' := by
  have hlive := h.live
  rw [step] at hstep
  split at hstep
  · next n d start ts htasks =>
      rw [htasks] at hlive
      split at hstep
      · cases hstep
      · next clo hd =>
          split at hstep
          · next hcond =>
              obtain rfl := Option.some.inj hstep
              exact ⟨here, h.tasks htasks (fun x heq => by cases heq) rfl
                (hlive.applied hd hcond.2 v) fun m hm => h.handles m (List.mem_of_mem_tail hm)⟩
          · cases hstep
  · cases hstep

theorem inv_step {a : Act} (h : s.Inv here) (hapt : Apt s a) (hstep : step s a = some s') :
    ∃ here', s'.Inv here' := by
  cases a with
  | register => exact inv_register h hstep
  | unregister => exact inv_unregister h hstep
  | defer => exact inv_defer h hstep
  | drain => exact inv_drain h hstep
  | apply => exact inv_apply h hstep
  | applied => exact inv_applied h hstep
  | ev a =>
      obtain ⟨ev, hev, hstep⟩ := Option.bind_eq_some_iff.1 hstep
      cases a with
      | push => exact inv_push h hapt hev hstep
      | runCleanup => exact inv_runCleanup h hev hstep
      | pop => exact inv_pop h hev hstep
      | enter => exact inv_enter h hev hstep
      | enterDefault => exact inv_enterDefault h hev hstep
      | leave => exact inv_leave h hev hstep
      | finish => exact inv_finish h hev hstep
      | exit => exact inv_exit h hapt hev hstep
      | unwind => exact inv_unwind h hev hstep

/-- A step that meets its condition. -/
def AptStep (s s' : Fiber) : Prop :=
  ∃ a, Apt s a ∧ step s a = some s'

theorem inv_run (h : ReflTransGen AptStep Fiber.init s) : ∃ here, s.Inv here := by
  induction h with
  | refl => exact ⟨null, inv_init⟩
  | tail _ hstep ih =>
      obtain ⟨a, hapt, hstep⟩ := hstep
      obtain ⟨here, hinv⟩ := ih
      exact inv_step hinv hapt hstep

end Steps

end Kaikai.Unwind
