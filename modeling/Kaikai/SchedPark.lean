import Kaikai.Sched
import Mathlib.Data.List.Nodup
import Mathlib.Data.List.Perm.Basic

namespace Kaikai.Sched

variable {n : ℕ} {F : Type}

/-- Where a live fiber is. A worker runs a fiber from taking it off a deque to the switch away
from it. -/
inductive Place (n : ℕ) where
  | running (w : Fin (n + 1))
  | queued (w : Fin (n + 1))
  | parked
  | committing (w : Fin (n + 1))
  | requeueing (w : Fin (n + 1))
deriving DecidableEq

def State.At (s : State n F) (f : F) : Place n → Prop
  | .running w => (s.wkr w).active = some f ∨ (s.wkr w).next = some f
  | .queued w => f ∈ (s.wkr w).steal
  | .parked => (s.fib f).state = .parked
  | .committing w => f ∈ (s.wkr w).commitStack
  | .requeueing w => f ∈ (s.wkr w).requeueStack

/-- The fiber is ready and some worker has it in its deque or its hand. -/
def State.Runnable (s : State n F) (f : F) : Prop :=
  (s.fib f).state = .ready ∧
    ∃ w, s.At f (.queued w) ∨ s.At f (.running w) ∨ s.At f (.requeueing w)

/-- How a worker holds a fiber. -/
inductive Hold where
  | active | taken | queued | committing | requeueing
deriving DecidableEq

def Worker.holds (k : Worker F) : List (F × Hold) :=
  k.active.toList.map (·, .active) ++ (k.next.toList.map (·, .taken) ++
    (k.steal.map (·, .queued) ++ (k.commitStack.map (·, .committing) ++
      k.requeueStack.map (·, .requeueing))))

def Hold.place (w : Fin (n + 1)) : Hold → Place n
  | .active | .taken => .running w
  | .queued => .queued w
  | .committing => .committing w
  | .requeueing => .requeueing w

/-- What the record of a fiber says when worker `w` holds it so. -/
def Fiber.Fits (r : Fiber n) (w : Fin (n + 1)) : Hold → Prop
  | .active => r.homeThread = w ∧ (r.state = .running ∨ r.state.terminal)
  | .taken | .queued | .requeueing => r.homeThread = w ∧ r.state = .ready
  | .committing => r.homeThread = w ∧ r.state = .running ∧ r.pendingPark ≠ .none

/-- A fiber that must be with a worker. -/
def Fiber.Awake (r : Fiber n) : Prop :=
  r.state = .ready ∨ r.state = .running

/-- What a fiber's record keeps on its own. -/
structure Fiber.Kept (r : Fiber n) : Prop where
  main : r.pinnedMain → r.homeThread = 0
  pin : 0 < r.segPin → r.homeThread = r.pinnedAt
  woken : r.woken → r.state ≠ .parked
  permit : r.woken → r.state = .running → 0 < r.wakePending
  live : r.announced → r.state.live
  solo : n = 0 → (r.announced → r.state ≠ .running) ∧ r.wakePending = 0
  permits : r.granted = r.consumed + r.wakePending

structure Inv (s : State n F) : Prop where
  nodup : ∀ w, ((s.wkr w).holds.map Prod.fst).Nodup
  fits : ∀ w f hold, (f, hold) ∈ (s.wkr w).holds → (s.fib f).Fits w hold
  held : ∀ f, (s.fib f).Awake → ∃ w hold, (f, hold) ∈ (s.wkr w).holds
  kept : ∀ f, (s.fib f).Kept

section Records

variable {r : Fiber n} {w v : Fin (n + 1)} {hold : Hold}

theorem Fiber.Fits.home (h : r.Fits w hold) : r.homeThread = w := by
  cases hold
  all_goals exact h.1

theorem Fiber.Fits.state (h : r.Fits w hold) : r.state ≠ .unborn ∧ r.state ≠ .parked := by
  cases hold with
  | active =>
      rcases h.2 with hrun | hend
      · simp [hrun]
      · constructor <;> (intro heq; simp [heq, FiberState.terminal] at hend)
  | taken => simp [h.2]
  | queued => simp [h.2]
  | committing => simp [h.2.1]
  | requeueing => simp [h.2]

end Records

section Workers

variable {s : State n F} {f : F} {w : Fin (n + 1)} {k : Worker F}

theorem mem_holds {hold : Hold} : (f, hold) ∈ k.holds ↔
    k.active = some f ∧ hold = .active ∨ k.next = some f ∧ hold = .taken ∨
      f ∈ k.steal ∧ hold = .queued ∨ f ∈ k.commitStack ∧ hold = .committing ∨
        f ∈ k.requeueStack ∧ hold = .requeueing := by
  simp [Worker.holds, eq_comm]

theorem at_place {hold : Hold} (hin : (f, hold) ∈ (s.wkr w).holds) : s.At f (hold.place w) := by
  rcases mem_holds.1 hin with ⟨hat, rfl⟩ | ⟨hat, rfl⟩ | ⟨hat, rfl⟩ | ⟨hat, rfl⟩ | ⟨hat, rfl⟩
  · exact .inl hat
  · exact .inr hat
  all_goals exact hat

theorem exists_hold {p : Place n} (hat : s.At f p) :
    p = .parked ∧ (s.fib f).state = .parked ∨
      ∃ w hold, (f, hold) ∈ (s.wkr w).holds ∧ hold.place w = p := by
  cases p with
  | running w =>
      rcases hat with hat | hat
      · exact .inr ⟨w, .active, mem_holds.2 (.inl ⟨hat, rfl⟩), rfl⟩
      · exact .inr ⟨w, .taken, mem_holds.2 (.inr (.inl ⟨hat, rfl⟩)), rfl⟩
  | queued w => exact .inr ⟨w, .queued, mem_holds.2 (.inr (.inr (.inl ⟨hat, rfl⟩))), rfl⟩
  | parked => exact .inl ⟨rfl, hat⟩
  | committing w =>
      exact .inr ⟨w, .committing, mem_holds.2 (.inr (.inr (.inr (.inl ⟨hat, rfl⟩)))), rfl⟩
  | requeueing w =>
      exact .inr ⟨w, .requeueing, mem_holds.2 (.inr (.inr (.inr (.inr ⟨hat, rfl⟩)))), rfl⟩

theorem setWkr_self : (s.setWkr w k).wkr w = k :=
  Function.update_self ..

theorem setWkr_of_ne {v : Fin (n + 1)} (hne : v ≠ w) : (s.setWkr w k).wkr v = s.wkr v :=
  Function.update_of_ne hne ..

theorem Inv.only (h : Inv s) {v : Fin (n + 1)} {a b : Hold} (ha : (f, a) ∈ (s.wkr w).holds)
    (hb : (f, b) ∈ (s.wkr v).holds) : v = w ∧ b = a := by
  obtain rfl : v = w := (h.fits v f b hb).home.symm.trans (h.fits w f a ha).home
  have hpair := List.inj_on_of_nodup_map (h.nodup v) hb ha rfl
  exact ⟨rfl, congrArg Prod.snd hpair⟩

theorem Inv.nowhere (h : Inv s) (hstate : (s.fib f).state = .unborn ∨ (s.fib f).state = .parked)
    (v : Fin (n + 1)) (hold : Hold) : (f, hold) ∉ (s.wkr v).holds := by
  intro hin
  obtain ⟨hborn, hparked⟩ := (h.fits v f hold hin).state
  exact hstate.elim hborn hparked

theorem Inv.runnable (h : Inv s) (hready : (s.fib f).state = .ready) : s.Runnable f := by
  obtain ⟨w, hold, hin⟩ := h.held f (.inl hready)
  refine ⟨hready, w, ?_⟩
  cases hold with
  | active =>
      rcases (h.fits w f _ hin).2 with hrun | hend
      · rw [hready] at hrun
        cases hrun
      · rw [hready] at hend
        cases hend
  | taken => exact .inr (.inl (at_place hin))
  | queued => exact .inl (at_place hin)
  | committing =>
      have hrun := (h.fits w f _ hin).2.1
      rw [hready] at hrun
      cases hrun
  | requeueing => exact .inr (.inr (at_place hin))

theorem Inv.placed (h : Inv s) (hlive : (s.fib f).state.live) : ∃! p, s.At f p := by
  have hcases : (s.fib f).state = .parked ∨ (s.fib f).Awake := by
    cases hstate : (s.fib f).state with
    | parked => exact .inl rfl
    | ready => exact .inr (.inl hstate)
    | running => exact .inr (.inr hstate)
    | unborn | done | cancelled =>
        rw [hstate] at hlive
        cases hlive
  rcases hcases with hparked | hawake
  · refine ⟨.parked, hparked, fun q hq => ?_⟩
    rcases exists_hold hq with ⟨rfl, -⟩ | ⟨w, hold, hin, -⟩
    · rfl
    · exact absurd hparked (h.fits w f hold hin).state.2
  · obtain ⟨w, hold, hin⟩ := h.held f hawake
    refine ⟨hold.place w, at_place hin, fun q hq => ?_⟩
    rcases exists_hold hq with ⟨-, hparked⟩ | ⟨v, hold', hin', rfl⟩
    · exact absurd hparked (h.fits w f hold hin).state.2
    · obtain ⟨rfl, rfl⟩ := h.only hin hin'
      rfl

end Workers

section Moves

variable [DecidableEq F] {s : State n F} {f : F} {w : Fin (n + 1)} {r : Fiber n} {k : Worker F}

theorem setFib_self : (s.setFib f r).fib f = r :=
  Function.update_self ..

theorem setFib_of_ne {g : F} (hne : g ≠ f) : (s.setFib f r).fib g = s.fib g :=
  Function.update_of_ne hne ..

theorem setWkr_setFib_setWkr {k' : Worker F} :
    ((s.setWkr w k).setFib f r).setWkr w k' = (s.setFib f r).setWkr w k' := by
  simp [State.setWkr, State.setFib]

theorem setFib_setFib {r' : Fiber n} : (s.setFib f r).setFib f r' = s.setFib f r' := by
  simp [State.setFib]

theorem Inv.record (h : Inv s) (hkept : r.Kept)
    (hfits : ∀ w hold, (f, hold) ∈ (s.wkr w).holds → (s.fib f).Fits w hold → r.Fits w hold)
    (hawake : r.Awake → (s.fib f).Awake) : Inv (s.setFib f r) where
  nodup := h.nodup
  fits w g hold hin := by
    rcases eq_or_ne g f with rfl | hne
    · rw [setFib_self]
      exact hfits w hold hin (h.fits w g hold hin)
    · rw [setFib_of_ne hne]
      exact h.fits w g hold hin
  held g hg := by
    rcases eq_or_ne g f with rfl | hne
    · rw [setFib_self] at hg
      exact h.held g (hawake hg)
    · rw [setFib_of_ne hne] at hg
      exact h.held g hg
  kept g := by
    rcases eq_or_ne g f with rfl | hne
    · rwa [setFib_self]
    · rw [setFib_of_ne hne]
      exact h.kept g

/-- One fiber comes to a worker, leaves it or is held by it in another way; the worker's other
fibers stay as they were. -/
theorem Inv.turn (h : Inv s) (old new : Option Hold) {rest : List (F × Hold)}
    (hold : (s.wkr w).holds.Perm (old.toList.map (f, ·) ++ rest))
    (hnew : k.holds.Perm (new.toList.map (f, ·) ++ rest))
    (hout : old = none → ∀ v hold, (f, hold) ∉ (s.wkr v).holds)
    (hfits : ∀ hold ∈ new, r.Fits w hold) (hlost : new = none → ¬r.Awake) (hkept : r.Kept) :
    Inv ((s.setFib f r).setWkr w k) := by
  have hrest : ∀ x ∈ rest, x.1 ≠ f := by
    intro x hx heq
    rcases old with _ | o
    · refine hout rfl w x.2 (hold.mem_iff.2 ?_)
      rw [← heq]
      exact List.mem_append_right _ hx
    · have hnodup := (hold.map Prod.fst).nodup_iff.1 (h.nodup w)
      have hnin : f ∉ rest.map Prod.fst := (List.nodup_cons.1 hnodup).1
      exact hnin (heq ▸ List.mem_map_of_mem hx)
  have helse : ∀ v ≠ w, ∀ hold, (f, hold) ∉ (s.wkr v).holds := by
    intro v hne hold' hin
    rcases old with _ | o
    · exact hout rfl v hold' hin
    · have ho : (f, o) ∈ (s.wkr w).holds := hold.mem_iff.2 (List.mem_cons_self ..)
      exact hne ((h.fits v f _ hin).home.symm.trans (h.fits w f o ho).home)
  have hother : ∀ v g hold', g ≠ f →
      ((g, hold') ∈ (((s.setFib f r).setWkr w k).wkr v).holds ↔ (g, hold') ∈ (s.wkr v).holds) := by
    intro v g hold' hne
    have hgone : ∀ o : Option Hold, (g, hold') ∉ o.toList.map (f, ·) := by
      intro o hin
      obtain ⟨_, -, heq⟩ := List.mem_map.1 hin
      exact hne (congrArg Prod.fst heq).symm
    rcases eq_or_ne v w with rfl | hv
    · rw [setWkr_self, hnew.mem_iff, hold.mem_iff, List.mem_append, List.mem_append]
      simp only [hgone, false_or]
    · rw [setWkr_of_ne hv]
      rfl
  have hmine : ∀ v hold', (f, hold') ∈ (((s.setFib f r).setWkr w k).wkr v).holds →
      v = w ∧ hold' ∈ new := by
    intro v hold' hin
    rcases eq_or_ne v w with rfl | hv
    · rw [setWkr_self, hnew.mem_iff, List.mem_append] at hin
      rcases hin with hin | hin
      · obtain ⟨_, hin, heq⟩ := List.mem_map.1 hin
        cases heq
        exact ⟨rfl, Option.mem_toList.1 hin⟩
      · exact absurd rfl (hrest _ hin)
    · rw [setWkr_of_ne hv] at hin
      exact absurd hin (helse v hv hold')
  refine ⟨fun v => ?_, fun v g hold' hin => ?_, fun g hg => ?_, fun g => ?_⟩
  · rcases eq_or_ne v w with rfl | hv
    · rw [setWkr_self]
      refine (hnew.map Prod.fst).nodup_iff.2 ?_
      have hnodup := (hold.map Prod.fst).nodup_iff.1 (h.nodup v)
      rw [List.map_append] at hnodup ⊢
      have hleft := hnodup.of_append_right
      rcases new with _ | o
      · simpa using hleft
      · refine List.nodup_cons.2 ⟨fun hin => ?_, hleft⟩
        obtain ⟨x, hx, heq⟩ := List.mem_map.1 hin
        exact hrest x hx heq
    · rw [setWkr_of_ne hv]
      exact h.nodup v
  · rcases eq_or_ne g f with rfl | hne
    · obtain ⟨rfl, hnew'⟩ := hmine v hold' hin
      have hself : ((s.setFib g r).setWkr v k).fib g = r := setFib_self
      rw [hself]
      exact hfits hold' hnew'
    · have hself : ((s.setFib f r).setWkr w k).fib g = s.fib g := setFib_of_ne hne
      rw [hself]
      exact h.fits v g hold' ((hother v g hold' hne).1 hin)
  · rcases eq_or_ne g f with rfl | hne
    · have hself : ((s.setFib g r).setWkr w k).fib g = r := setFib_self
      rw [hself] at hg
      rcases new with _ | o
      · exact absurd hg (hlost rfl)
      · refine ⟨w, o, ?_⟩
        rw [setWkr_self]
        exact hnew.mem_iff.2 (List.mem_cons_self ..)
    · have hself : ((s.setFib f r).setWkr w k).fib g = s.fib g := setFib_of_ne hne
      rw [hself] at hg
      obtain ⟨v, hold', hin⟩ := h.held g hg
      exact ⟨v, hold', (hother v g hold' hne).2 hin⟩
  · rcases eq_or_ne g f with rfl | hne
    · have hself : ((s.setFib g r).setWkr w k).fib g = r := setFib_self
      rwa [hself]
    · have hself : ((s.setFib f r).setWkr w k).fib g = s.fib g := setFib_of_ne hne
      rw [hself]
      exact h.kept g

end Moves

section Holds

variable {k : Worker F} {f g : F} {rest : List F} [DecidableEq F]

theorem holds_push : { k with steal := k.steal ++ [f] }.holds.Perm ((f, .queued) :: k.holds) := by
  refine List.perm_iff_count.2 fun x => ?_
  simp only [Worker.holds, List.map_append, List.map_cons, List.map_nil, List.count_append,
    List.count_cons, List.count_nil]
  omega

theorem holds_steal (hsteal : k.steal = f :: rest) :
    k.holds.Perm ((f, .queued) :: { k with steal := rest }.holds) := by
  refine List.perm_iff_count.2 fun x => ?_
  simp only [Worker.holds, hsteal, List.map_cons, List.count_append, List.count_cons]
  omega

theorem holds_commit (hstack : k.commitStack = f :: rest) :
    k.holds.Perm ((f, .committing) :: { k with commitStack := rest }.holds) := by
  refine List.perm_iff_count.2 fun x => ?_
  simp only [Worker.holds, hstack, List.map_cons, List.count_append, List.count_cons]
  omega

theorem holds_requeue (hstack : k.requeueStack = f :: rest) :
    k.holds.Perm ((f, .requeueing) :: { k with requeueStack := rest }.holds) := by
  refine List.perm_iff_count.2 fun x => ?_
  simp only [Worker.holds, hstack, List.map_cons, List.count_append, List.count_cons]
  omega

theorem holds_active (hactive : k.active = some f) :
    k.holds.Perm ((f, .active) :: { k with active := none }.holds) := by
  refine List.perm_iff_count.2 fun x => ?_
  simp only [Worker.holds, hactive, Option.toList_some, Option.toList_none, List.map_cons,
    List.map_nil, List.count_append, List.count_cons, List.count_nil]
  omega

theorem holds_next (hnext : k.next = some f) :
    k.holds.Perm ((f, .taken) :: { k with next := none }.holds) := by
  refine List.perm_iff_count.2 fun x => ?_
  simp only [Worker.holds, hnext, Option.toList_some, Option.toList_none, List.map_cons,
    List.map_nil, List.count_append, List.count_cons, List.count_nil]
  omega

end Holds

section Steps

variable [DecidableEq F] {s : State n F} {f : F} {w : Fin (n + 1)} {r : Fiber n}

theorem pinnedTo_getD (hmain : r.pinnedMain → r.homeThread = 0) (hhome : r.homeThread = w) :
    r.pinnedTo.getD w = w := by
  unfold Fiber.pinnedTo
  split
  · rename_i hpinned
    rw [Option.getD_some, ← hhome, hmain hpinned]
  · split
    · rfl
    · rw [Option.getD_some, hhome]

theorem Inv.arrive (h : Inv s) (hstate : (s.fib f).state = .unborn ∨ (s.fib f).state = .parked)
    (hready : r.state = .ready) (hkept : r.Kept) : Inv ((s.setFib f r).push r.homeThread f) :=
  h.turn none (some .queued) (.refl _) holds_push (fun _ => h.nowhere hstate)
    (fun _ hin => Option.mem_some.1 hin ▸ ⟨rfl, hready⟩) nofun hkept

theorem enqueue_setFib : (s.setFib f r).enqueue w f =
    (s.setFib f { r with homeThread := r.pinnedTo.getD w }).push (r.pinnedTo.getD w) f := by
  simp only [State.enqueue, setFib_self, setFib_setFib]

theorem Fiber.Kept.moved (h : r.Kept) : { r with homeThread := r.pinnedTo.getD w }.Kept where
  main hmain := by simp [Fiber.pinnedTo, show r.pinnedMain = true from hmain]
  pin hpin := by
    rcases hmain : r.pinnedMain with _ | _
    · have hne : r.segPin ≠ 0 := Nat.ne_of_gt hpin
      simpa [Fiber.pinnedTo, hmain, hne] using h.pin hpin
    · simpa [Fiber.pinnedTo, hmain, h.main hmain] using h.pin hpin
  woken := h.woken
  permit := h.permit
  live := h.live
  solo := h.solo
  permits := h.permits

theorem Inv.enqueue_new (h : Inv s)
    (hstate : (s.fib f).state = .unborn ∨ (s.fib f).state = .parked) (hready : r.state = .ready)
    (hkept : r.Kept) : Inv ((s.setFib f r).enqueue w f) := by
  rw [enqueue_setFib]
  exact h.arrive hstate hready hkept.moved

theorem Runs.mem (hruns : s.Runs w f) : (f, Hold.active) ∈ (s.wkr w).holds :=
  (holds_active hruns.1).mem_iff.2 (List.mem_cons_self ..)

theorem Inv.note (h : Inv s) (hruns : s.Runs w f) (hkept : r.Kept) (hstate : r.state = .running)
    (hhome : r.homeThread = (s.fib f).homeThread) : Inv (s.setFib f r) := by
  refine h.record hkept (fun v hold hin hfits => ?_) fun _ => .inr hruns.2
  obtain ⟨-, rfl⟩ := h.only (Runs.mem hruns) hin
  exact ⟨hhome.trans hfits.home, .inl hstate⟩

theorem Inv.remoteUnpark (h : Inv s) (hn : 0 < n) (f : F) : Inv (s.remoteUnpark f) := by
  have k := h.kept f
  have hpermit (hstate : (s.fib f).state = .ready ∨ (s.fib f).state = .running) :
      Inv (s.setFib f { s.fib f with
        woken := (s.fib f).woken || (s.fib f).announced
        wakePending := (s.fib f).wakePending + 1
        granted := (s.fib f).granted + 1 }) := by
    refine h.record ⟨k.main, k.pin, fun _ hparked => ?_, fun _ _ => Nat.succ_pos _, k.live,
      fun hzero => absurd hzero (Nat.ne_of_gt hn), ?_⟩ (fun _ hold _ hfits => ?_) fun _ => hstate
    · rcases hstate with hstate | hstate
      all_goals exact FiberState.noConfusion (hstate.symm.trans hparked)
    · have hpermits := k.permits
      show (s.fib f).granted + 1 = (s.fib f).consumed + ((s.fib f).wakePending + 1)
      omega
    · cases hold
      all_goals exact hfits
  dsimp only [State.remoteUnpark]
  split
  · rename_i hparked
    exact h.arrive (.inr hparked) rfl ⟨k.main, k.pin, nofun, nofun, fun _ => rfl,
      fun hzero => absurd hzero (Nat.ne_of_gt hn), k.permits⟩
  · rename_i hready
    exact hpermit (.inl hready)
  · rename_i hrun
    exact hpermit (.inr hrun)
  all_goals exact h

theorem Inv.unpark (h : Inv s) (f : F) : Inv (s.unpark f) := by
  have k := h.kept f
  dsimp only [State.unpark]
  split
  · rename_i hn
    exact h.remoteUnpark hn f
  · rename_i hn
    have hzero : n = 0 := by omega
    split
    · rename_i hparked
      exact h.enqueue_new (.inr hparked) rfl ⟨k.main, k.pin, nofun, nofun, fun _ => rfl,
        fun _ => ⟨nofun, (k.solo hzero).2⟩, k.permits⟩
    · rename_i hparked
      refine h.record ⟨k.main, k.pin, fun _ => hparked, fun hwoken hrun => ?_, k.live, k.solo,
        k.permits⟩ (fun _ hold _ hfits => ?_) id
      · rcases Bool.or_eq_true_iff.1 hwoken with hwoken | hannounced
        · exact k.permit hwoken hrun
        · exact absurd hrun ((k.solo hzero).1 hannounced)
      · cases hold
        all_goals exact hfits

theorem Inv.commit (h : Inv s) {rest : List F} (hstack : (s.wkr w).commitStack = f :: rest) :
    Inv ((s.setWkr w { s.wkr w with commitStack := rest }).commitPark f) := by
  have k := h.kept f
  have hin : (f, Hold.committing) ∈ (s.wkr w).holds :=
    (holds_commit hstack).mem_iff.2 (List.mem_cons_self ..)
  obtain ⟨hhome, hrun, -⟩ := h.fits w f _ hin
  have hready : Inv (((s.setWkr w { s.wkr w with commitStack := rest }).setFib f { s.fib f with
      pendingPark := .none
      state := .ready
      wakePending := (s.fib f).wakePending - 1
      consumed := (s.fib f).consumed + min 1 (s.fib f).wakePending }).push
        (s.fib f).homeThread f) := by
    rw [hhome, State.push, setWkr_setFib_setWkr, show ((s.setWkr w { s.wkr w with
      commitStack := rest }).setFib f _).wkr w = { s.wkr w with commitStack := rest } from
        setWkr_self]
    refine h.turn (some .committing) (some .queued) (holds_commit hstack) holds_push nofun
      (fun _ hin => Option.mem_some.1 hin ▸ ⟨hhome, rfl⟩) nofun
      ⟨k.main, k.pin, nofun, nofun, fun _ => rfl, fun hzero => ⟨nofun, ?_⟩, ?_⟩
    · show (s.fib f).wakePending - 1 = 0
      rw [(k.solo hzero).2]
    · have hpermits := k.permits
      show (s.fib f).granted = (s.fib f).consumed + min 1 (s.fib f).wakePending +
        ((s.fib f).wakePending - 1)
      omega
  have hparked (hnone : ¬0 < (s.fib f).wakePending) :
      Inv ((s.setWkr w { s.wkr w with commitStack := rest }).setFib f { s.fib f with
        pendingPark := .none
        state := .parked }) := by
    refine h.turn (some .committing) none (holds_commit hstack) (.refl _) nofun nofun
      (fun _ => by rintro (hcase | hcase) <;> cases hcase)
      ⟨k.main, k.pin, fun hwoken => absurd (k.permit hwoken hrun) hnone, nofun, fun _ => rfl,
        fun hzero => ⟨nofun, (k.solo hzero).2⟩, k.permits⟩
  dsimp only [State.commitPark]
  split
  · split
    · exact hready
    · rename_i hnone
      exact hparked hnone
  · split
    · exact hready
    · rename_i hnone
      exact hparked fun hpos => hnone (.inl hpos)

theorem Inv.leave (h : Inv s) (hbetween : s.Between w) :
    Inv (s.setWkr w { s.wkr w with active := none }) := by
  cases hactive : (s.wkr w).active with
  | none =>
      have hself : s.setWkr w { s.wkr w with active := none } = s := by
        have hwkr : { s.wkr w with active := none } = s.wkr w := by rw [← hactive]
        rw [hwkr, State.setWkr, Function.update_eq_self]
      rwa [hself]
  | some g =>
      have hend := hbetween g hactive
      have hsame : s.setFib g (s.fib g) = s := by rw [State.setFib, Function.update_eq_self]
      have hturn := h.turn (some .active) none (r := s.fib g) (holds_active hactive) (.refl _) nofun
        nofun (fun _ hawake => ?_) (h.kept g)
      · rwa [hsame] at hturn
      · rcases hawake with hcase | hcase
        all_goals
          rw [hcase] at hend
          cases hend

theorem Inv.run (h : Inv s) (hbetween : s.Between w) (hnext : (s.wkr w).next = some f) :
    Inv ((s.setFib f { s.fib f with state := .running, announced := false, woken := false }).setWkr
      w { s.wkr w with active := some f, next := none }) := by
  have hleft := h.leave hbetween
  have k := h.kept f
  have hwkr : (s.setWkr w { s.wkr w with active := none }).wkr w = { s.wkr w with active := none } :=
    setWkr_self
  have hin : (f, Hold.taken) ∈ (s.wkr w).holds :=
    (holds_next hnext).mem_iff.2 (List.mem_cons_self ..)
  have hhome := (h.fits w f _ hin).home
  have hturn := hleft.turn (f := f) (w := w) (some .taken) (some .active)
    (r := { s.fib f with state := .running, announced := false, woken := false })
    (k := { s.wkr w with active := some f, next := none })
    (by rw [hwkr]; exact holds_next hnext) (holds_active rfl) nofun
    (fun _ hin => Option.mem_some.1 hin ▸ ⟨hhome, .inl rfl⟩) nofun
    ⟨k.main, k.pin, nofun, nofun, nofun, fun hzero => ⟨nofun, (k.solo hzero).2⟩, k.permits⟩
  rwa [setWkr_setFib_setWkr] at hturn

theorem Inv.stealFrom (h : Inv s) {v : Fin (n + 1)} {rest : List F} (hne : w ≠ v)
    (hsteal : (s.wkr v).steal = f :: rest) (hnext : (s.wkr w).next = none)
    (hpinned : (s.fib f).pinnedTo = none) :
    Inv (((s.setFib f { s.fib f with homeThread := w }).setWkr v
      { s.wkr v with steal := rest }).setWkr w { s.wkr w with next := some f }) := by
  have k := h.kept f
  have hin : (f, Hold.queued) ∈ (s.wkr v).holds :=
    (holds_steal hsteal).mem_iff.2 (List.mem_cons_self ..)
  have hready := (h.fits v f _ hin).2
  have hfree : (s.fib f).pinnedMain = false ∧ (s.fib f).segPin = 0 := by
    unfold Fiber.pinnedTo at hpinned
    split at hpinned
    · cases hpinned
    · rename_i hmain
      split at hpinned
      · rename_i hpin
        exact ⟨Bool.eq_false_iff.2 hmain, hpin⟩
      · cases hpinned
  -- between the two slots the fiber counts as parked: with no worker
  have haway : Inv ((s.setFib f { s.fib f with state := .parked, woken := false }).setWkr v
      { s.wkr v with steal := rest }) :=
    h.turn (some .queued) none (holds_steal hsteal) (.refl _) nofun nofun
      (fun _ => by rintro (hcase | hcase) <;> cases hcase)
      ⟨k.main, k.pin, nofun, nofun, fun _ => rfl, fun hzero => ⟨nofun, (k.solo hzero).2⟩, k.permits⟩
  have hwkr : ((s.setFib f { s.fib f with state := .parked, woken := false }).setWkr v
      { s.wkr v with steal := rest }).wkr w = s.wkr w := setWkr_of_ne hne
  have hempty : { s.wkr w with next := none } = s.wkr w := by rw [← hnext]
  have hput : { s.wkr w with next := some f }.holds.Perm ((f, .taken) :: (s.wkr w).holds) := by
    simpa only [hempty] using holds_next (k := { s.wkr w with next := some f }) rfl
  have hturn := haway.turn (f := f) (w := w) none (some .taken)
    (r := { s.fib f with homeThread := w }) (by rw [hwkr]; exact .refl _) hput
    (fun _ => haway.nowhere (.inr ?_)) (fun _ hin => Option.mem_some.1 hin ▸ ⟨rfl, hready⟩) nofun
    ⟨fun hmain => ?_, fun hpin => ?_, fun _ hparked => ?_, fun _ hrun => ?_, k.live,
      fun hzero => ⟨fun _ hrun => ?_, (k.solo hzero).2⟩, k.permits⟩
  · have hfib : (((s.setFib f { s.fib f with state := .parked, woken := false }).setWkr v
        { s.wkr v with steal := rest }).setFib f { s.fib f with homeThread := w }) =
        (s.setFib f { s.fib f with homeThread := w }).setWkr v { s.wkr v with steal := rest } := by
      simp [State.setFib, State.setWkr]
    rwa [hfib] at hturn
  · show ((s.setFib f { s.fib f with state := .parked, woken := false }).fib f).state = .parked
    rw [setFib_self]
  · rw [hfree.1] at hmain
    cases hmain
  · exact absurd hpin (hfree.2 ▸ Nat.lt_irrefl 0)
  all_goals
    rw [hready] at *
    contradiction

theorem Inv.step (h : Inv s) {t : State n F} (hstep : Step s t) : Inv t := by
  cases hstep with
  | @spawn w f hborn =>
      exact h.enqueue_new (.inl hborn) rfl ⟨nofun, nofun, nofun, nofun, nofun, fun _ => ⟨nofun, rfl⟩,
        rfl⟩
  | @announce w f hn hruns =>
      have k := h.kept f
      exact h.note hruns ⟨k.main, k.pin, k.woken, k.permit, fun _ => by rw [hruns.2]; rfl,
        fun hzero => absurd hzero (Nat.ne_of_gt hn), k.permits⟩ hruns.2 rfl
  | @withdraw w f hruns =>
      have k := h.kept f
      exact h.note hruns ⟨k.main, k.pin, k.woken, k.permit, nofun,
        fun hzero => ⟨nofun, (k.solo hzero).2⟩, k.permits⟩ hruns.2 rfl
  | @stamp w f reason hruns =>
      have k := h.kept f
      exact h.note hruns ⟨k.main, k.pin, k.woken, k.permit, k.live, k.solo, k.permits⟩ hruns.2 rfl
  | @park w f hn hruns =>
      have k := h.kept f
      refine h.turn (some .active) (some .committing) (holds_active hruns.1) (holds_commit rfl) nofun
        (fun _ hin => Option.mem_some.1 hin ▸
          ⟨(h.fits w f _ (Runs.mem hruns)).home, hruns.2, ?_⟩) nofun
        ⟨k.main, k.pin, k.woken, k.permit, k.live, k.solo, k.permits⟩
      show (if (s.fib f).pendingPark = .none then ParkReason.slot else (s.fib f).pendingPark) ≠ .none
      split
      · exact ParkReason.noConfusion
      · assumption
  | commit hroot hstack => exact h.commit hstack
  | @yield w f hn hruns =>
      have k := h.kept f
      exact h.turn (some .active) (some .requeueing) (holds_active hruns.1) (holds_requeue rfl) nofun
        (fun _ hin => Option.mem_some.1 hin ▸ ⟨(h.fits w f _ (Runs.mem hruns)).home, rfl⟩) nofun
        ⟨k.main, k.pin, nofun, nofun, fun _ => rfl, fun hzero => ⟨nofun, (k.solo hzero).2⟩, k.permits⟩
  | @requeue w f rest hroot hempty hstack =>
      have k := h.kept f
      have hin : (f, Hold.requeueing) ∈ (s.wkr w).holds :=
        (holds_requeue hstack).mem_iff.2 (List.mem_cons_self ..)
      have hfits := h.fits w f _ hin
      have howner : (s.fib f).pinnedTo.getD w = w := pinnedTo_getD k.main hfits.1
      have hturn := h.turn (w := w) (f := f) (some .requeueing) (some .queued)
        (r := { s.fib f with homeThread := w }) (holds_requeue hstack) holds_push nofun
        (fun _ hin => Option.mem_some.1 hin ▸ ⟨rfl, hfits.2⟩) nofun (howner ▸ k.moved)
      simp only [State.enqueue, State.push]
      rw [show ((s.setWkr w { s.wkr w with requeueStack := rest }).fib f).pinnedTo.getD w = w from
        howner, setWkr_setFib_setWkr]
      have hself : ((s.setWkr w { s.wkr w with requeueStack := rest }).setFib f
          { s.fib f with homeThread := w }).wkr w = { s.wkr w with requeueStack := rest } := setWkr_self
      rwa [← hself] at hturn
  | @finish w f state hruns hend =>
      have k := h.kept f
      have hstate : state ≠ .parked ∧ state ≠ .running ∧ state ≠ .ready := by
        refine ⟨?_, ?_, ?_⟩
        all_goals
          rintro rfl
          cases hend
      refine h.record ⟨k.main, k.pin, fun _ => hstate.1, fun _ hrun => absurd hrun hstate.2.1, nofun,
        fun hzero => ⟨nofun, (k.solo hzero).2⟩, k.permits⟩ (fun v hold hin hfits => ?_)
        fun hawake => absurd hawake (not_or.2 ⟨hstate.2.2, hstate.2.1⟩)
      obtain ⟨-, rfl⟩ := h.only (Runs.mem hruns) hin
      exact ⟨hfits.home, .inr hend⟩
  | leave hactive hend =>
      refine h.leave fun g hg => ?_
      rw [hactive] at hg
      exact Option.mem_some.1 hg ▸ hend
  | @dequeue w f rest hseeks hsteal =>
      have hin : (f, Hold.queued) ∈ (s.wkr w).holds :=
        (holds_steal hsteal).mem_iff.2 (List.mem_cons_self ..)
      have hfits : (s.fib f).Fits w .queued := h.fits w f _ hin
      have hempty : { s.wkr w with steal := rest, next := none } = { s.wkr w with steal := rest } := by
        rw [← hseeks.2.1]
      have hput : { s.wkr w with steal := rest, next := some f }.holds.Perm
          ((f, .taken) :: { s.wkr w with steal := rest }.holds) := by
        simpa only [hempty] using
          holds_next (k := { s.wkr w with steal := rest, next := some f }) rfl
      have hsame : s.setFib f (s.fib f) = s := by rw [State.setFib, Function.update_eq_self]
      have hturn := h.turn (some .queued) (some .taken) (holds_steal hsteal) hput nofun
        (fun _ hin' => Option.mem_some.1 hin' ▸ hfits) nofun (h.kept f)
      rwa [hsame] at hturn
  | stealFrom hne hroot hseeks hsteal hpinned => exact h.stealFrom hne hsteal hroot.2 hpinned
  | run hbetween hnext => exact h.run hbetween hnext
  | @unpark f hborn => exact h.unpark f
  | @cancel f due =>
      have k := h.kept f
      refine h.record ⟨k.main, k.pin, k.woken, k.permit, k.live, k.solo, k.permits⟩
        (fun _ hold _ hfits => ?_) id
      cases hold
      all_goals exact hfits
  | @pin w f hruns =>
      have k := h.kept f
      refine h.note hruns ⟨k.main, fun _ => ?_, k.woken, k.permit, k.live, k.solo, k.permits⟩ hruns.2
        rfl
      show (s.fib f).homeThread = if (s.fib f).segPin = 0 then w else (s.fib f).pinnedAt
      split
      · exact (h.fits w f _ (Runs.mem hruns)).home
      · exact k.pin (Nat.pos_of_ne_zero ‹_›)
  | @unpin w f hruns =>
      have k := h.kept f
      exact h.note hruns ⟨k.main, fun hpin => k.pin (Nat.lt_of_lt_of_le hpin (Nat.sub_le ..)), k.woken, k.permit,
        k.live, k.solo, k.permits⟩ hruns.2 rfl
  | @soloPark w f hzero hruns =>
      have k := h.kept f
      have hasleep : (s.fib f).woken ≠ true := by
        intro hwoken
        have hpos := k.permit hwoken hruns.2
        rw [(k.solo hzero).2] at hpos
        exact Nat.lt_irrefl 0 hpos
      exact h.turn (some .active) none (holds_active hruns.1) (.refl _) nofun nofun
        (fun _ => by rintro (hcase | hcase) <;> cases hcase)
        ⟨k.main, k.pin, fun hwoken => absurd hwoken hasleep, nofun, fun _ => rfl,
          fun _ => ⟨nofun, (k.solo hzero).2⟩, k.permits⟩
  | @soloYield w f hzero hruns hsteal =>
      have k := h.kept f
      exact h.turn (some .active) (some .queued) (holds_active hruns.1)
        (holds_push (k := { s.wkr w with active := none })) nofun
        (fun _ hin => Option.mem_some.1 hin ▸ ⟨(h.fits w f _ (Runs.mem hruns)).home, rfl⟩) nofun
        ⟨k.main, k.pin, nofun, nofun, fun _ => rfl, fun _ => ⟨nofun, (k.solo hzero).2⟩, k.permits⟩

theorem Inv.boot (main : F) : Inv (State.boot n main) := by
  have hzero : Inv ({ fib := fun _ => { state := .unborn }, wkr := fun _ => {} } : State n F) :=
    ⟨fun _ => List.nodup_nil, fun _ _ _ hin => absurd hin List.not_mem_nil,
      fun _ => (by rintro (hcase | hcase) <;> cases hcase),
      fun _ => ⟨nofun, nofun, nofun, nofun, nofun, fun _ => ⟨nofun, rfl⟩, rfl⟩⟩
  unfold State.boot
  split
  · rename_i hn
    exact hzero.turn (f := main) (w := 0) none (some .queued) (r := { state := .ready, pinnedMain := true })
      (.refl _) (.refl _) (fun _ _ _ => List.not_mem_nil) (fun _ hin => Option.mem_some.1 hin ▸ ⟨rfl, rfl⟩)
      nofun ⟨fun _ => rfl, nofun, nofun, nofun, nofun, fun _ => ⟨nofun, rfl⟩, rfl⟩
  · exact hzero.turn (f := main) (w := 0) none (some .active) (r := { state := .running }) (.refl _)
      (.refl _) (fun _ _ _ => List.not_mem_nil)
      (fun _ hin => Option.mem_some.1 hin ▸ ⟨rfl, .inl rfl⟩) nofun
      ⟨nofun, nofun, nofun, nofun, nofun, fun _ => ⟨nofun, rfl⟩, rfl⟩

theorem Reachable.inv (h : Reachable s) : Inv s := by
  induction h with
  | boot main => exact Inv.boot main
  | step _ hstep ih => exact ih.step hstep

end Steps

/-- What parking promises in a state: where the live fibers are, and what wakes do. -/
structure Parks [DecidableEq F] (s : State n F) : Prop where
  placed f : (s.fib f).state.live → ∃! p, s.At f p
  once w : (s.wkr w).steal.Nodup ∧ (s.wkr w).commitStack.Nodup ∧ (s.wkr w).requeueStack.Nodup
  wakes f : (s.fib f).announced → (s.unpark f).Runnable f ∨
    (s.fib f).state = .running ∧ (s.unpark f).fib f = { s.fib f with
      woken := true
      wakePending := (s.fib f).wakePending + 1
      granted := (s.fib f).granted + 1 }
  awake f : (s.fib f).woken → (s.fib f).state ≠ .parked ∧
    ((s.fib f).state = .running → 0 < (s.fib f).wakePending)
  consumes w f rest : (s.wkr w).commitStack = f :: rest → 0 < (s.fib f).wakePending →
    let t := (s.setWkr w { s.wkr w with commitStack := rest }).commitPark f
    t.At f (.queued w) ∧ t.Runnable f ∧ (t.fib f).wakePending + 1 = (s.fib f).wakePending
  permits f : (s.fib f).granted = (s.fib f).consumed + (s.fib f).wakePending
  pinned w f : s.At f (.running w) → ((s.fib f).pinnedMain → w = 0) ∧
    (0 < (s.fib f).segPin → w = (s.fib f).pinnedAt)

section Main

variable [DecidableEq F] {s : State n F} {f : F} {w : Fin (n + 1)}

theorem Inv.wakes (h : Inv s) (hannounced : (s.fib f).announced) :
    (s.unpark f).Runnable f ∨ (s.fib f).state = .running ∧ (s.unpark f).fib f = { s.fib f with
      woken := true
      wakePending := (s.fib f).wakePending + 1
      granted := (s.fib f).granted + 1 } := by
  have k := h.kept f
  have hlive := k.live hannounced
  have hnext := h.unpark f
  cases hstate : (s.fib f).state with
  | parked =>
      refine .inl (hnext.runnable ?_)
      simp only [State.unpark, State.remoteUnpark, hstate, if_true]
      split
      · exact congrArg Fiber.state setFib_self
      · rw [enqueue_setFib]
        exact congrArg Fiber.state setFib_self
  | ready =>
      refine .inl (hnext.runnable ?_)
      simp only [State.unpark, State.remoteUnpark, hstate, reduceCtorEq, if_false]
      split
      all_goals exact congrArg Fiber.state setFib_self
  | running =>
      have hn : 0 < n := Nat.pos_of_ne_zero fun hzero => (k.solo hzero).1 hannounced hstate
      refine .inr ⟨rfl, ?_⟩
      simp only [State.unpark, State.remoteUnpark, hstate, if_pos hn, hannounced, Bool.or_true]
      exact setFib_self
  | unborn | done | cancelled =>
      rw [hstate] at hlive
      cases hlive

theorem commitPark_of_pos (hpos : 0 < (s.fib f).wakePending) : s.commitPark f =
    (s.setFib f { s.fib f with
      pendingPark := .none
      state := .ready
      wakePending := (s.fib f).wakePending - 1
      consumed := (s.fib f).consumed + min 1 (s.fib f).wakePending }).push (s.fib f).homeThread f := by
  dsimp only [State.commitPark]
  split
  · rfl
  · rw [if_pos (.inl hpos)]

theorem Inv.consumes (h : Inv s) {rest : List F} (hstack : (s.wkr w).commitStack = f :: rest)
    (hpos : 0 < (s.fib f).wakePending) :
    let t := (s.setWkr w { s.wkr w with commitStack := rest }).commitPark f
    t.At f (.queued w) ∧ t.Runnable f ∧ (t.fib f).wakePending + 1 = (s.fib f).wakePending := by
  have hin : (f, Hold.committing) ∈ (s.wkr w).holds :=
    (holds_commit hstack).mem_iff.2 (List.mem_cons_self ..)
  have hhome := (h.fits w f _ hin).home
  have hnext := h.commit hstack
  intro t
  have ht : t = _ := commitPark_of_pos (s := s.setWkr w { s.wkr w with commitStack := rest }) hpos
  have hfib : t.fib f = { s.fib f with
      pendingPark := .none
      state := .ready
      wakePending := (s.fib f).wakePending - 1
      consumed := (s.fib f).consumed + min 1 (s.fib f).wakePending } := by
    rw [ht]
    exact setFib_self
  refine ⟨?_, hnext.runnable (congrArg Fiber.state hfib), ?_⟩
  · rw [ht]
    show f ∈ (State.wkr (State.push _ (s.fib f).homeThread f) w).steal
    rw [hhome, State.push, setWkr_self]
    exact List.mem_append_right _ (List.mem_singleton_self f)
  · rw [hfib]
    exact Nat.sub_add_cancel hpos

/-- Parking loses no wake, and no fiber is in two places. -/
theorem parking_sound (h : Reachable s) : Parks s where
  placed _ hlive := h.inv.placed hlive
  once w := by
    have hnodup := h.inv.nodup w
    have hmap (hold : Hold) (fs : List F) : (fs.map (·, hold)).map Prod.fst = fs := by
      rw [List.map_map]
      exact List.map_id fs
    simp only [Worker.holds, List.map_append, hmap] at hnodup
    have hrest := hnodup.of_append_right.of_append_right
    exact ⟨hrest.of_append_left, hrest.of_append_right.of_append_left,
      hrest.of_append_right.of_append_right⟩
  wakes _ hannounced := h.inv.wakes hannounced
  awake f hwoken := ⟨(h.inv.kept f).woken hwoken, (h.inv.kept f).permit hwoken⟩
  consumes w f rest hstack hpos := h.inv.consumes hstack hpos
  permits f := (h.inv.kept f).permits
  pinned w f hat := by
    rcases exists_hold hat with ⟨hparked, -⟩ | ⟨v, hold, hin, hplace⟩
    · cases hparked
    · obtain rfl : v = w := by
        cases hold <;> cases hplace <;> rfl
      have hhome := (h.inv.fits v f hold hin).home
      exact ⟨fun hmain => hhome.symm.trans ((h.inv.kept f).main hmain),
        fun hpin => hhome.symm.trans ((h.inv.kept f).pin hpin)⟩

/-- Two workers; the only fiber is woken after its announcement and before its commit. -/
theorem parking_sound_handoff : ∃ s : State 1 Unit, Reachable s ∧
    s.At () (.committing 0) ∧ (s.fib ()).woken ∧ (s.fib ()).wakePending = 1 ∧ Parks s := by
  have h : Reachable (State.boot 1 ()) := .boot ()
  have h := h.step (.dequeue (w := 0) ⟨nofun, rfl, rfl, rfl⟩ rfl)
  have h := h.step (.run (w := 0) nofun rfl)
  have h := h.step (.announce (w := 0) (f := ()) Nat.one_pos ⟨rfl, rfl⟩)
  have h := h.step (.unpark (f := ()) nofun)
  have h := h.step (.park (w := 0) (f := ()) Nat.one_pos ⟨rfl, rfl⟩)
  exact ⟨_, h, List.mem_singleton_self _, rfl, rfl, parking_sound h⟩

end Main

end Kaikai.Sched
