import Kaikai.Mailbox
import Mathlib.Data.Finset.Card

namespace Kaikai.Mailbox

variable {F B : Type}

def Side.other : Side → Side
  | .recv => .send
  | .send => .recv

theorem Side.eq_other_of_ne {side own : Side} (h : side ≠ own) : side = own.other := by
  cases side <;> cases own <;> first | rfl | exact absurd rfl h

/-- The stages of a fiber that still wants its slot or its message. -/
def Stage.waiting : Stage F → Bool
  | .abandon => false
  | .wake _ => false
  | _ => true

/-- The fiber that a fiber is about to wake. -/
def Pc.hand : Pc F B → Option F
  | .busy _ _ (.wake w) => w
  | .closing _ w => w
  | _ => none

/-- What is there to take: messages for receivers, free slots for senders. -/
def Mbox.available (mb : Mbox F) : Side → Nat
  | .recv => mb.queue.length
  | .send => if mb.blocks && !mb.closed then (mb.cap - mb.len).toNat else 0

@[simp] theorem setWaiters_available (mb : Mbox F) (fs : List F) (own side : Side) :
    (mb.setWaiters fs own).available side = mb.available side := by
  cases own <;> cases side <;> rfl

@[simp] theorem setWaiters_other (mb : Mbox F) (fs : List F) (side : Side) :
    (mb.setWaiters fs side).waiters side.other = mb.waiters side.other := by cases side <;> rfl

def Waits (s : State F B) (f : F) (b : B) (side : Side) : Prop :=
  ∃ op stage, (s.fib f).pc = .busy op b stage ∧ op.side = side ∧ stage.waiting = true

/-- A fiber that will look for its slot or message without another wake. -/
def Taker (s : State F B) (f : F) (b : B) (side : Side) : Prop :=
  Waits s f b side ∧ f ∉ (s.box b).waiters side

/-- A fiber in a chain, or in the hand of the one that took it off. -/
def Awaited (s : State F B) (f : F) (b : B) (side : Side) : Prop :=
  f ∈ (s.box b).waiters side ∨ ∃ g, (s.fib g).pc.hand = some f

/-- Enough takers for what is there, as long as anybody waits. -/
def Enough (s : State F B) (b : B) (side : Side) : Prop :=
  (s.box b).waiters side ≠ [] →
    ∃ T : Finset F, (∀ f ∈ T, Taker s f b side) ∧ (s.box b).available side ≤ T.card

structure Inv (s : State F B) : Prop where
  links : ∀ b side f, f ∈ (s.box b).waiters side → ∃ op stage, (s.fib f).pc = .busy op b stage ∧
    op.side = side ∧ stage.waiting = true ∧ (op.timed = true → stage ≠ .attempt)
  nodup : ∀ b side, ((s.box b).waiters side).Nodup
  parked : ∀ f op b, (s.fib f).pc = .busy op b .parked → Awaited s f b op.side
  falling : ∀ f op b stage, (s.fib f).pc = .busy op b stage → stage = .linked ∨ stage = .parking →
    Awaited s f b op.side ∨ 0 < (s.fib f).permits
  enough : ∀ b side, Enough s b side
  blocking : ∀ b, (s.box b).sendWaiters ≠ [] → (s.box b).blocks = true
  closed : ∀ b, (s.box b).closed = true →
    (s.box b).sendWaiters = [] ∨ ∃ g w, (s.fib g).pc = .closing b w

/-- Two mailboxes with the same chains and the same to take. -/
structure Alike (mb mb' : Mbox F) : Prop where
  waiters : ∀ side, mb'.waiters side = mb.waiters side
  available : ∀ side, mb'.available side = mb.available side
  blocks : mb'.blocks = mb.blocks
  closed : mb'.closed = mb.closed

theorem alike_self (mb : Mbox F) : Alike mb mb := ⟨fun _ => rfl, fun _ => rfl, rfl, rfl⟩

/-- The places of a fiber outside of operations. -/
def Pc.plain : Pc F B → Bool
  | .busy _ _ _ => false
  | .closing _ _ => false
  | _ => true

/-- A step of a fiber that touches no chain and nothing to take. -/
inductive Calm (φ φ' : Fiber F B) : Prop
  | kept : φ'.pc = φ.pc → φ.permits ≤ φ'.permits → Calm φ φ'
  | aside : φ.pc.plain = true → φ'.pc.plain = true → Calm φ φ'
  | awake {op : Op} {b : B} {stage stage' : Stage F} : φ.pc = .busy op b stage →
      φ'.pc = .busy op b stage' → stage.waiting = true →
      stage' = .resumed ∨ stage' = .leaving ∨ (stage' = .attempt ∧ op.timed = false) → Calm φ φ'
  | announced {op : Op} {b : B} : φ.pc = .busy op b .linked → φ'.pc = .busy op b .parking →
      φ'.permits = φ.permits → Calm φ φ'
  | slept {op : Op} {b : B} : φ.pc = .busy op b .parking → φ'.pc = .busy op b .parked →
      φ.permits = 0 → Calm φ φ'

theorem Calm.busy {φ φ' : Fiber F B} (h : Calm φ φ') {op : Op} {b : B} {stage : Stage F}
    (hpc : φ.pc = .busy op b stage) (hwait : stage.waiting = true)
    (hlink : op.timed = true → stage ≠ .attempt) :
    ∃ stage', φ'.pc = .busy op b stage' ∧ stage'.waiting = true ∧
      (op.timed = true → stage' ≠ .attempt) := by
  cases h with
  | kept hpc' => exact ⟨stage, hpc'.trans hpc, hwait, hlink⟩
  | aside hplain => rw [hpc] at hplain; cases hplain
  | @awake _ _ _ stage' hold hnew _ hcases =>
      rw [hpc] at hold
      cases hold
      refine ⟨stage', hnew, ?_, ?_⟩
      · rcases hcases with rfl | rfl | ⟨rfl, -⟩ <;> rfl
      · rcases hcases with rfl | rfl | ⟨rfl, htimed⟩
        · exact fun _ hfalse => by cases hfalse
        · exact fun _ hfalse => by cases hfalse
        · exact fun h => by rw [htimed] at h; cases h
  | announced hold hnew =>
      rw [hpc] at hold
      cases hold
      exact ⟨.parking, hnew, rfl, fun _ hfalse => by cases hfalse⟩
  | slept hold hnew =>
      rw [hpc] at hold
      cases hold
      exact ⟨.parked, hnew, rfl, fun _ hfalse => by cases hfalse⟩

theorem Calm.waits {φ φ' : Fiber F B} (h : Calm φ φ') {op : Op} {b : B} {stage : Stage F}
    (hpc : φ.pc = .busy op b stage) (hwait : stage.waiting = true) :
    ∃ stage', φ'.pc = .busy op b stage' ∧ stage'.waiting = true := by
  cases h with
  | kept hpc' => exact ⟨stage, hpc'.trans hpc, hwait⟩
  | aside hplain => rw [hpc] at hplain; cases hplain
  | @awake _ _ _ stage' hold hnew _ hcases =>
      rw [hpc] at hold
      cases hold
      exact ⟨stage', hnew, by rcases hcases with rfl | rfl | ⟨rfl, -⟩ <;> rfl⟩
  | announced hold hnew =>
      rw [hpc] at hold
      cases hold
      exact ⟨.parking, hnew, rfl⟩
  | slept hold hnew =>
      rw [hpc] at hold
      cases hold
      exact ⟨.parked, hnew, rfl⟩

theorem Calm.hand {φ φ' : Fiber F B} (h : Calm φ φ') : φ'.pc.hand = φ.pc.hand := by
  have hplain {pc : Pc F B} (hp : pc.plain = true) : pc.hand = none := by
    cases pc <;> first | rfl | cases hp
  have hwaiting {op : Op} {b : B} {stage : Stage F} (hw : stage.waiting = true) :
      (Pc.busy op b stage).hand = none := by
    cases stage <;> first | rfl | cases hw
  cases h with
  | kept hpc => rw [hpc]
  | aside hold hnew => rw [hplain hold, hplain hnew]
  | awake hold hnew hwait hcases =>
      rw [hold, hnew, hwaiting hwait]
      rcases hcases with rfl | rfl | ⟨rfl, -⟩ <;> rfl
  | announced hold hnew => rw [hold, hnew]; rfl
  | slept hold hnew => rw [hold, hnew]; rfl

theorem Calm.closing {φ φ' : Fiber F B} (h : Calm φ φ') {b : B} {w : Option F}
    (hpc : φ.pc = .closing b w) : φ'.pc = .closing b w := by
  cases h with
  | kept hpc' => exact hpc'.trans hpc
  | aside hplain => rw [hpc] at hplain; cases hplain
  | awake hold => rw [hpc] at hold; cases hold
  | announced hold => rw [hpc] at hold; cases hold
  | slept hold => rw [hpc] at hold; cases hold

theorem Enough.alike {s s' : State F B} {b : B} {side : Side} (h : Enough s b side)
    (hbox : Alike (s.box b) (s'.box b)) (hwaits : ∀ f, Waits s f b side → Waits s' f b side) :
    Enough s' b side := by
  intro hne
  rw [hbox.waiters side] at hne
  obtain ⟨T, hT, hcard⟩ := h hne
  refine ⟨T, fun f hf => ?_, ?_⟩
  · refine ⟨hwaits f (hT f hf).1, ?_⟩
    rw [hbox.waiters side]
    exact (hT f hf).2
  · rw [hbox.available side]
    exact hcard

theorem calm_self (φ : Fiber F B) : Calm φ φ := .kept rfl le_rfl

theorem Inv.calm {s s' : State F B} (h : Inv s) (hbox : ∀ b, Alike (s.box b) (s'.box b))
    (hfib : ∀ f, Calm (s.fib f) (s'.fib f)) : Inv s' := by
  have hwaits (f : F) (b : B) (side : Side) (hw : Waits s f b side) : Waits s' f b side := by
    obtain ⟨op, stage, hpc, hside, hwait⟩ := hw
    obtain ⟨stage', hpc', hwait'⟩ := (hfib f).waits hpc hwait
    exact ⟨op, stage', hpc', hside, hwait'⟩
  have hawaited (f : F) (b : B) (side : Side) (ha : Awaited s f b side) : Awaited s' f b side := by
    rcases ha with hin | ⟨g, hg⟩
    · exact .inl (by rwa [(hbox b).waiters side])
    · exact .inr ⟨g, (hfib g).hand.trans hg⟩
  refine
    { links := fun b side f hin => ?_
      nodup := fun b side => by
        rw [(hbox b).waiters side]
        exact h.nodup b side
      parked := fun f op b hpc => ?_
      falling := fun f op b stage hpc hstage => ?_
      enough := fun b side => (h.enough b side).alike (hbox b) fun f => hwaits f b side
      blocking := fun b hne => ?_
      closed := fun b hclosed => ?_ }
  · rw [(hbox b).waiters side] at hin
    obtain ⟨op, stage, hpc, hside, hwait, hlink⟩ := h.links b side f hin
    obtain ⟨stage', hpc', hwait', hlink'⟩ := (hfib f).busy hpc hwait hlink
    exact ⟨op, stage', hpc', hside, hwait', hlink'⟩
  · cases hfib f with
    | kept hsame => exact hawaited f b _ (h.parked f op b (hsame.symm.trans hpc))
    | aside _ hplain => rw [hpc] at hplain; cases hplain
    | awake _ hnew _ hcases =>
        rw [hpc] at hnew
        cases hnew
        rcases hcases with hfalse | hfalse | ⟨hfalse, -⟩ <;> cases hfalse
    | announced _ hnew => rw [hpc] at hnew; cases hnew
    | slept hold hnew hzero =>
        rw [hpc] at hnew
        cases hnew
        rcases h.falling f op b .parking hold (.inr rfl) with ha | hpos
        · exact hawaited f b _ ha
        · exact absurd hpos (by omega)
  · cases hfib f with
    | kept hsame hpermits =>
        rcases h.falling f op b stage (hsame.symm.trans hpc) hstage with ha | hpos
        · exact .inl (hawaited f b _ ha)
        · exact .inr (hpos.trans_le hpermits)
    | aside _ hplain => rw [hpc] at hplain; cases hplain
    | awake _ hnew _ hcases =>
        rw [hpc] at hnew
        cases hnew
        rcases hcases with rfl | rfl | ⟨rfl, -⟩ <;> rcases hstage with hfalse | hfalse <;> cases hfalse
    | announced hold hnew hpermits =>
        rw [hpc] at hnew
        cases hnew
        rcases h.falling f op b .linked hold (.inl rfl) with ha | hpos
        · exact .inl (hawaited f b _ ha)
        · exact .inr (by rwa [hpermits])
    | slept _ hnew =>
        rw [hpc] at hnew
        cases hnew
        rcases hstage with hfalse | hfalse <;> cases hfalse
  · have hsend := (hbox b).waiters .send
    rw [(hbox b).blocks]
    exact h.blocking b fun hempty => hne (hsend.trans hempty)
  · rw [(hbox b).closed] at hclosed
    rcases h.closed b hclosed with hempty | ⟨g, w, hg⟩
    · exact .inl (((hbox b).waiters .send).trans hempty)
    · exact .inr ⟨g, w, (hfib g).closing hg⟩

section

variable [DecidableEq F]

theorem Inv.setFib {s : State F B} (h : Inv s) {f : F} {φ : Fiber F B} (hcalm : Calm (s.fib f) φ) :
    Inv (s.setFib f φ) := by
  refine h.calm (fun b => alike_self _) fun g => ?_
  by_cases hg : g = f
  · subst hg
    rw [setFib_self]
    exact hcalm
  · rw [setFib_of_ne s φ hg]
    exact calm_self _

theorem Inv.unpark {s : State F B} (h : Inv s) (f : F) : Inv (s.unpark f) := by
  unfold State.unpark
  split
  · next op b hpc => exact h.setFib (.awake hpc rfl rfl (.inl rfl))
  · exact h
  · exact h.setFib (.kept rfl (Nat.le_succ _))

/-- A fiber that needs no further wake. -/
def Roused (s : State F B) (f : F) : Prop :=
  ∀ op b stage, (s.fib f).pc = .busy op b stage → stage ≠ .parked ∧
    (stage = .linked ∨ stage = .parking → 0 < (s.fib f).permits)

theorem roused_unpark (s : State F B) (f : F) : Roused (s.unpark f) f := by
  intro op b stage hpc
  unfold State.unpark at hpc ⊢
  split at hpc
  · rw [setPc_self] at hpc
    cases hpc
    exact ⟨nofun, by rintro (hfalse | hfalse) <;> cases hfalse⟩
  · next hfin => rw [hfin] at hpc; cases hpc
  · next hparked _ =>
      rw [setFib_self] at hpc ⊢
      refine ⟨fun hstage => ?_, fun _ => Nat.succ_pos _⟩
      subst hstage
      exact hparked op b hpc

/-- A place that asks for no wake. -/
def Pc.Unasking (pc : Pc F B) : Prop :=
  ∀ op b stage, pc = .busy op b stage → stage ≠ .parked ∧ stage ≠ .linked ∧ stage ≠ .parking

/-- A fiber outside of the chains moves on: what it held is awake, and a slot it wanted it
still wants, or there is none. -/
theorem Inv.setPc {s : State F B} (h : Inv s) {f : F} {pc : Pc F B}
    (hout : ∀ b side, f ∉ (s.box b).waiters side)
    (hwaits : ∀ b side, Waits s f b side →
      Waits (s.setPc f pc) f b side ∨ (s.box b).available side = 0)
    (hhand : ∀ g, (s.fib f).pc.hand = some g → pc.hand = some g ∨ Roused s g)
    (hasks : pc.Unasking)
    (hclosing : ∀ b w, (s.fib f).pc = .closing b w →
      (s.box b).sendWaiters = [] ∨ ∃ w', pc = .closing b w') : Inv (s.setPc f pc) := by
  have hne (g : F) (b : B) (side : Side) (hg : g ∈ (s.box b).waiters side) : g ≠ f := fun heq =>
    hout b side (heq ▸ hg)
  have hwaits' (g : F) (b : B) (side : Side) (hw : Waits s g b side) :
      Waits (s.setPc f pc) g b side ∨ (s.box b).available side = 0 := by
    by_cases hg : g = f
    · rw [hg] at hw ⊢
      exact hwaits b side hw
    · obtain ⟨op, stage, hpc, hrest⟩ := hw
      exact .inl ⟨op, stage, by rw [setPc_of_ne s pc hg]; exact hpc, hrest⟩
  have hawaited (g : F) (b : B) (side : Side) (ha : Awaited s g b side) :
      Awaited (s.setPc f pc) g b side ∨ Roused s g := by
    rcases ha with hin | ⟨k, hk⟩
    · exact .inl (.inl hin)
    · by_cases hkf : k = f
      · rw [hkf] at hk
        rcases hhand g hk with hnew | hroused
        · exact .inl (.inr ⟨f, by rw [setPc_self]; exact hnew⟩)
        · exact .inr hroused
      · exact .inl (.inr ⟨k, by rw [setPc_of_ne s pc hkf]; exact hk⟩)
  refine
    { links := fun b side g hg => ?_
      nodup := h.nodup
      parked := fun g op b hpc => ?_
      falling := fun g op b stage hpc hstage => ?_
      enough := fun b side hne' => ?_
      blocking := h.blocking
      closed := fun b hclosed => ?_ }
  · rw [setPc_of_ne s pc (hne g b side hg)]
    exact h.links b side g hg
  · rw [pc_setPc] at hpc
    split at hpc
    · exact absurd rfl (hasks op b .parked hpc).1
    · rcases hawaited g b op.side (h.parked g op b hpc) with ha | hroused
      · exact ha
      · exact absurd rfl (hroused op b .parked hpc).1
  · rw [pc_setPc] at hpc
    rw [permits_setPc]
    split at hpc
    · obtain ⟨-, hlinked, hparking⟩ := hasks op b stage hpc
      rcases hstage with hfalse | hfalse
      · exact absurd hfalse hlinked
      · exact absurd hfalse hparking
    · rcases h.falling g op b stage hpc hstage with ha | hpos
      · rcases hawaited g b op.side ha with ha | hroused
        · exact .inl ha
        · exact .inr ((hroused op b stage hpc).2 hstage)
      · exact .inr hpos
  · obtain ⟨T, hT, hcard⟩ := h.enough b side hne'
    by_cases hzero : (s.box b).available side = 0
    · exact ⟨∅, fun g hg => absurd hg (Finset.notMem_empty g), by rw [setPc_box, hzero]; exact Nat.zero_le _⟩
    · exact ⟨T, fun g hg => ⟨(hwaits' g b side (hT g hg).1).resolve_right hzero, (hT g hg).2⟩, hcard⟩
  · rcases h.closed b hclosed with hempty | ⟨g, w, hg⟩
    · exact .inl hempty
    · by_cases hgf : g = f
      · rw [hgf] at hg
        rcases hclosing b w hg with hempty | ⟨w', hw'⟩
        · exact .inl hempty
        · exact .inr ⟨f, w', by rw [setPc_self]; exact hw'⟩
      · exact .inr ⟨g, w, by rw [setPc_of_ne s pc hgf]; exact hg⟩

/-- A lock section of a fiber in an operation: its own chain loses it or takes it back, and
the other chain loses at most the waiter it is about to wake. -/
structure Turn (mb mb' : Mbox F) (f : F) (op : Op) (b : B) (pc : Pc F B) : Prop where
  own : (mb'.waiters op.side = (mb.waiters op.side).erase f ∧ pc.Unasking ∧
      (mb'.available op.side + 1 ≤ mb.available op.side ∨ mb'.available op.side = 0 ∨
        mb'.available op.side ≤ mb.available op.side ∧ f ∈ mb.waiters op.side)) ∨
    (mb'.waiters op.side = (mb.waiters op.side).erase f ++ [f] ∧ pc = .busy op b .linked ∧
      mb'.available op.side = 0 ∧ (op.side = .send → mb.blocks = true ∧ mb.closed = false))
  other : (mb'.waiters op.side.other = mb.waiters op.side.other ∧
      (mb.waiters op.side.other = [] ∨
        mb'.available op.side.other ≤ mb.available op.side.other)) ∨
    ∃ w, mb.waiters op.side.other = w :: mb'.waiters op.side.other ∧ pc.hand = some w ∧
      mb'.available op.side.other ≤ mb.available op.side.other + 1
  blocks : mb'.blocks = mb.blocks
  closed : mb'.closed = mb.closed

theorem Turn.own_waiters {mb mb' : Mbox F} {f : F} {op : Op} {b : B} {pc : Pc F B}
    (ht : Turn mb mb' f op b pc) : mb'.waiters op.side = (mb.waiters op.side).erase f ∨
      mb'.waiters op.side = (mb.waiters op.side).erase f ++ [f] ∧ pc = .busy op b .linked := by
  rcases ht.own with ⟨hown, -⟩ | ⟨hown, hpc, -⟩
  · exact .inl hown
  · exact .inr ⟨hown, hpc⟩

theorem Turn.mem {mb mb' : Mbox F} {f g : F} {op : Op} {b : B} {pc : Pc F B} {side : Side}
    (ht : Turn mb mb' f op b pc) (hg : g ∈ mb'.waiters side) (hgf : g ≠ f) :
    g ∈ mb.waiters side := by
  by_cases hside : side = op.side
  · subst hside
    rcases ht.own_waiters with hown | ⟨hown, -⟩
    · rw [hown] at hg
      exact List.mem_of_mem_erase hg
    · rw [hown, List.mem_append, List.mem_singleton] at hg
      exact List.mem_of_mem_erase (hg.resolve_right hgf)
  · rw [Side.eq_other_of_ne hside] at hg ⊢
    rcases ht.other with ⟨hother, -⟩ | ⟨w, hother, -⟩
    · rwa [← hother]
    · rw [hother]
      exact List.mem_cons_of_mem w hg

theorem Turn.awaited {mb mb' : Mbox F} {f g : F} {op : Op} {b : B} {pc : Pc F B} {side : Side}
    (ht : Turn mb mb' f op b pc) (hg : g ∈ mb.waiters side) (hgf : g ≠ f) :
    g ∈ mb'.waiters side ∨ pc.hand = some g := by
  by_cases hside : side = op.side
  · subst hside
    have herase : g ∈ (mb.waiters op.side).erase f := (List.mem_erase_of_ne hgf).2 hg
    rcases ht.own_waiters with hown | ⟨hown, -⟩
    · exact .inl (hown ▸ herase)
    · exact .inl (hown ▸ List.mem_append_left [f] herase)
  · rw [Side.eq_other_of_ne hside] at hg ⊢
    rcases ht.other with ⟨hother, -⟩ | ⟨w, hother, hhand, -⟩
    · exact .inl (by rwa [hother])
    · rw [hother, List.mem_cons] at hg
      rcases hg with rfl | hg
      · exact .inr hhand
      · exact .inl hg

theorem Turn.nodup {mb mb' : Mbox F} {f : F} {op : Op} {b : B} {pc : Pc F B}
    (ht : Turn mb mb' f op b pc) (h : ∀ side, (mb.waiters side).Nodup) (side : Side) :
    (mb'.waiters side).Nodup := by
  by_cases hside : side = op.side
  · subst hside
    have herase := (h op.side).erase f
    rcases ht.own_waiters with hown | ⟨hown, -⟩
    · rwa [hown]
    · rw [hown]
      refine herase.append (List.nodup_singleton f) fun g hg hgf => ?_
      rw [List.mem_singleton] at hgf
      exact (h op.side).not_mem_erase (hgf ▸ hg)
  · rw [Side.eq_other_of_ne hside]
    rcases ht.other with ⟨hother, -⟩ | ⟨w, hother, -⟩
    · rw [hother]
      exact h op.side.other
    · have hnodup := h op.side.other
      rw [hother] at hnodup
      exact (List.nodup_cons.1 hnodup).2

theorem Turn.self {mb mb' : Mbox F} {f : F} {op : Op} {b : B} {pc : Pc F B} {side : Side}
    (ht : Turn mb mb' f op b pc) (h : ∀ side, (mb.waiters side).Nodup)
    (hout : ∀ side, f ∈ mb.waiters side → side = op.side) (hf : f ∈ mb'.waiters side) :
    side = op.side ∧ pc = .busy op b .linked := by
  by_cases hside : side = op.side
  · subst hside
    rcases ht.own_waiters with hown | ⟨hown, hpc⟩
    · rw [hown] at hf
      exact absurd hf (h op.side).not_mem_erase
    · exact ⟨rfl, hpc⟩
  · have hother := Side.eq_other_of_ne hside
    rw [hother] at hf
    have hin : f ∈ mb.waiters op.side.other := by
      rcases ht.other with ⟨heq, -⟩ | ⟨w, heq, -⟩
      · rwa [← heq]
      · rw [heq]
        exact List.mem_cons_of_mem w hf
    exact absurd (hother.trans (hout _ hin)) hside

theorem Turn.sendWaiters {mb mb' : Mbox F} {f : F} {op : Op} {b : B} {pc : Pc F B}
    (ht : Turn mb mb' f op b pc) (hne : mb'.sendWaiters ≠ []) :
    mb.sendWaiters ≠ [] ∨ (mb.blocks = true ∧ mb.closed = false) := by
  cases hop : op.side with
  | send =>
      have hown := ht.own
      rw [hop] at hown
      rcases hown with ⟨hown, -⟩ | ⟨-, -, -, hopen⟩
      · refine .inl fun hempty => hne ?_
        rw [Mbox.waiters, Mbox.waiters, hempty] at hown
        exact hown
      · exact .inr (hopen rfl)
  | recv =>
      have hother := ht.other
      rw [hop] at hother
      rcases hother with ⟨hsame, -⟩ | ⟨w, hcons, -⟩
      · have hsame : mb'.sendWaiters = mb.sendWaiters := hsame
        exact .inl (by rwa [← hsame])
      · have hcons : mb.sendWaiters = w :: mb'.sendWaiters := hcons
        exact .inl (by simp [hcons])

end

section

variable [DecidableEq F] [DecidableEq B]

/-- The takers behind a section: the fiber itself is gone with what it used, and the waiter in
its hand has come. -/
theorem Inv.enough_turn {s : State F B} (h : Inv s) {f : F} {op : Op} {b : B} {stage : Stage F}
    {mb' : Mbox F} {pc : Pc F B} (hpc : (s.fib f).pc = .busy op b stage)
    (ht : Turn (s.box b) mb' f op b pc) (side : Side) :
    Enough ((s.setBox b mb').setPc f pc) b side := by
  intro hne
  rw [setPc_box, setBox_self] at hne ⊢
  have hkeep (g : F) (hg : g ≠ f) (hw : Waits s g b side) (hnot : g ∉ mb'.waiters side) :
      Taker ((s.setBox b mb').setPc f pc) g b side := by
    refine ⟨?_, by rwa [setPc_box, setBox_self]⟩
    obtain ⟨op', stage', hpc', hrest⟩ := hw
    exact ⟨op', stage', by rw [setPc_of_ne _ pc hg]; exact hpc', hrest⟩
  by_cases hzero : mb'.available side = 0
  · exact ⟨∅, fun g hg => absurd hg (Finset.notMem_empty g), by rw [hzero]; exact Nat.zero_le _⟩
  · by_cases hside : side = op.side
    · subst hside
      rcases ht.own with ⟨hown, -, hslots⟩ | ⟨-, -, hfull, -⟩
      · have hne' : (s.box b).waiters op.side ≠ [] := by
          intro hempty
          rw [hown, hempty] at hne
          exact hne rfl
        obtain ⟨T, hT, hcard⟩ := h.enough b op.side hne'
        refine ⟨T.erase f, fun g hg => ?_, ?_⟩
        · obtain ⟨hgf, hgT⟩ := Finset.mem_erase.1 hg
          refine hkeep g hgf (hT g hgT).1 fun hin => (hT g hgT).2 ?_
          exact ht.mem hin hgf
        · rcases hslots with hused | hnone | ⟨hless, hlinked⟩
          · have := Finset.pred_card_le_card_erase (s := T) (a := f)
            omega
          · exact absurd hnone hzero
          · rw [Finset.erase_eq_of_notMem fun hfT => (hT f hfT).2 hlinked]
            exact hless.trans hcard
      · exact absurd hfull hzero
    · rw [Side.eq_other_of_ne hside] at hne hzero hkeep ⊢
      have hself (g : F) (hw : Waits s g b op.side.other) : g ≠ f := by
        rintro rfl
        obtain ⟨op', stage', hpc', hop, -⟩ := hw
        rw [hpc] at hpc'
        cases hpc'
        cases hopside : op.side <;> rw [hopside] at hop <;> cases hop
      rcases ht.other with ⟨hsame, hless⟩ | ⟨w, hcons, -, hless⟩
      · rw [hsame] at hne
        obtain ⟨T, hT, hcard⟩ := h.enough b op.side.other hne
        refine ⟨T, fun g hg => ?_, (hless.resolve_left hne).trans hcard⟩
        have hw := (hT g hg).1
        exact hkeep g (hself g hw) hw (by rw [hsame]; exact (hT g hg).2)
      · obtain ⟨T, hT, hcard⟩ := h.enough b op.side.other (by simp [hcons])
        have hwin : w ∈ (s.box b).waiters op.side.other := by
          rw [hcons]
          exact List.mem_cons_self
        have hwT : w ∉ T := fun hin => (hT w hin).2 hwin
        have hnodup := h.nodup b op.side.other
        rw [hcons, List.nodup_cons] at hnodup
        refine ⟨insert w T, fun g hg => ?_, ?_⟩
        · rcases Finset.mem_insert.1 hg with rfl | hgT
          · obtain ⟨op', stage', hpc', hop', hwait, -⟩ := h.links b _ g hwin
            have hw : Waits s g b op.side.other := ⟨op', stage', hpc', hop', hwait⟩
            exact hkeep g (hself g hw) hw hnodup.1
          · have hw := (hT g hgT).1
            refine hkeep g (hself g hw) hw fun hin => (hT g hgT).2 ?_
            rw [hcons]
            exact List.mem_cons_of_mem w hin
        · rw [Finset.card_insert_of_notMem hwT]
          omega

theorem Inv.turn {s : State F B} (h : Inv s) {f : F} {op : Op} {b : B} {stage : Stage F}
    {mb' : Mbox F} {pc : Pc F B} (hpc : (s.fib f).pc = .busy op b stage)
    (hwait : stage.waiting = true) (ht : Turn (s.box b) mb' f op b pc) :
    Inv ((s.setBox b mb').setPc f pc) := by
  have hhand : (s.fib f).pc.hand = none := by
    rw [hpc]
    cases stage <;> first | rfl | cases hwait
  have hout (c : B) (side : Side) (hf : f ∈ (s.box c).waiters side) : c = b ∧ side = op.side := by
    obtain ⟨op', stage', hpc', hside, -⟩ := h.links c side f hf
    rw [hpc] at hpc'
    cases hpc'
    exact ⟨rfl, hside.symm⟩
  have hbox (c : B) (hc : c ≠ b) : ((s.setBox b mb').setPc f pc).box c = s.box c :=
    setBox_of_ne s mb' hc
  have hboxb : ((s.setBox b mb').setPc f pc).box b = mb' := setBox_self s b mb'
  have hfib (g : F) (hg : g ≠ f) : ((s.setBox b mb').setPc f pc).fib g = s.fib g :=
    setPc_of_ne _ pc hg
  have hpcf : (((s.setBox b mb').setPc f pc).fib f).pc = pc := by rw [setPc_self]
  -- a waiter stays in its chain or comes into the hand of the fiber
  have hawaited (g : F) (c : B) (side : Side) (hg : g ≠ f) (ha : Awaited s g c side) :
      Awaited ((s.setBox b mb').setPc f pc) g c side := by
    rcases ha with hin | ⟨k, hk⟩
    · by_cases hc : c = b
      · subst hc
        rcases ht.awaited hin hg with hin' | hhand'
        · exact .inl (by rw [hboxb]; exact hin')
        · exact .inr ⟨f, by rw [hpcf]; exact hhand'⟩
      · exact .inl ((hbox c hc).symm ▸ hin)
    · refine .inr ⟨k, ?_⟩
      have hkf : k ≠ f := by
        rintro rfl
        rw [hhand] at hk
        cases hk
      rw [hfib k hkf]
      exact hk
  have hasking (op' : Op) (c : B) (stage' : Stage F) (hpc' : pc = .busy op' c stage')
      (hask : stage' = .parked ∨ stage' = .linked ∨ stage' = .parking) :
      pc = .busy op b .linked ∧ f ∈ mb'.waiters op.side := by
    rcases ht.own with ⟨-, hun, -⟩ | ⟨hown, hlinked, -⟩
    · obtain ⟨h1, h2, h3⟩ := hun op' c stage' hpc'
      rcases hask with rfl | rfl | rfl
      · exact absurd rfl h1
      · exact absurd rfl h2
      · exact absurd rfl h3
    · exact ⟨hlinked, by rw [hown]; simp⟩
  refine
    { links := fun c side g hg => ?_
      nodup := fun c side => ?_
      parked := fun g op' c hpc' => ?_
      falling := fun g op' c stage' hpc' hstage' => ?_
      enough := fun c side => ?_
      blocking := fun c hne => ?_
      closed := fun c hclosed => ?_ }
  · by_cases hgf : g = f
    · subst hgf
      have hcb : c = b := by
        by_contra hc
        rw [hbox c hc] at hg
        exact hc (hout c side hg).1
      subst hcb
      rw [hboxb] at hg
      obtain ⟨rfl, hlinked⟩ := ht.self (h.nodup c) (fun side hin => (hout c side hin).2) hg
      exact ⟨op, .linked, hpcf.trans hlinked, rfl, rfl, fun _ => nofun⟩
    · rw [hfib g hgf]
      by_cases hc : c = b
      · subst hc
        rw [hboxb] at hg
        exact h.links c side g (ht.mem hg hgf)
      · rw [hbox c hc] at hg
        exact h.links c side g hg
  · by_cases hc : c = b
    · subst hc
      rw [hboxb]
      exact ht.nodup (h.nodup c) side
    · rw [hbox c hc]
      exact h.nodup c side
  · by_cases hgf : g = f
    · subst hgf
      obtain ⟨hlinked, -⟩ := hasking op' c .parked (hpcf.symm.trans hpc') (.inl rfl)
      rw [hpcf, hlinked] at hpc'
      cases hpc'
    · rw [hfib g hgf] at hpc'
      exact hawaited g c _ hgf (h.parked g op' c hpc')
  · by_cases hgf : g = f
    · subst hgf
      obtain ⟨hlinked, hin⟩ := hasking op' c stage' (hpcf.symm.trans hpc') (.inr hstage')
      rw [hpcf, hlinked] at hpc'
      cases hpc'
      exact .inl (.inl (by rw [hboxb]; exact hin))
    · rw [hfib g hgf] at hpc' ⊢
      rcases h.falling g op' c stage' hpc' hstage' with ha | hpos
      · exact .inl (hawaited g c _ hgf ha)
      · exact .inr hpos
  · by_cases hc : c = b
    · subst hc
      exact h.enough_turn hpc ht side
    · intro hne
      rw [hbox c hc] at hne ⊢
      obtain ⟨T, hT, hcard⟩ := h.enough c side hne
      refine ⟨T, fun g hg => ?_, hcard⟩
      obtain ⟨⟨op', stage', hpc', hrest⟩, hnot⟩ := hT g hg
      have hgf : g ≠ f := by
        rintro rfl
        rw [hpc] at hpc'
        cases hpc'
        exact hc rfl
      refine ⟨⟨op', stage', ?_, hrest⟩, by rwa [hbox c hc]⟩
      rw [hfib g hgf]
      exact hpc'
  · by_cases hc : c = b
    · subst hc
      rw [hboxb] at hne ⊢
      rw [ht.blocks]
      exact (ht.sendWaiters hne).elim (h.blocking c) fun hopen => hopen.1
    · rw [hbox c hc] at hne ⊢
      exact h.blocking c hne
  · have hclosing (hc : ∃ g w, (s.fib g).pc = .closing c w) :
        ∃ g w, (((s.setBox b mb').setPc f pc).fib g).pc = .closing c w := by
      obtain ⟨g, w, hg⟩ := hc
      have hgf : g ≠ f := by
        rintro rfl
        rw [hpc] at hg
        cases hg
      exact ⟨g, w, by rw [hfib g hgf]; exact hg⟩
    by_cases hc : c = b
    · subst hc
      rw [hboxb] at hclosed ⊢
      rw [ht.closed] at hclosed
      refine (h.closed c hclosed).imp (fun hempty => ?_) hclosing
      by_contra hne
      rcases ht.sendWaiters hne with hwaiters | ⟨-, hopen⟩
      · exact hwaiters hempty
      · rw [hclosed] at hopen
        cases hopen
    · rw [hbox c hc] at hclosed ⊢
      exact (h.closed c hclosed).imp id hclosing

end

end Kaikai.Mailbox
