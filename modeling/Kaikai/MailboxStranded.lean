import Kaikai.MailboxWake

namespace Kaikai.Mailbox

variable {F B : Type}

theorem append_recv (mb : Mbox F) (m : Nat) :
    ((mb.append m).2.recvWaiters = mb.recvWaiters ∧ mb.recvWaiters = []) ∨
      ∃ w, mb.recvWaiters = w :: (mb.append m).2.recvWaiters ∧ (mb.append m).1 = some w := by
  obtain ⟨queue, len, cap, overflow, recvWaiters, sendWaiters, ended, closed, sent, gone⟩ := mb
  cases recvWaiters with
  | nil => exact .inl ⟨rfl, rfl⟩
  | cons w rest => exact .inr ⟨w, rfl, rfl⟩

theorem append_fields (mb : Mbox F) (m : Nat) : (mb.append m).2.queue = mb.queue ++ [m] ∧
    (mb.append m).2.len = mb.len + 1 ∧ (mb.append m).2.sendWaiters = mb.sendWaiters ∧
    (mb.append m).2.blocks = mb.blocks ∧ (mb.append m).2.closed = mb.closed ∧
    (mb.append m).2.cap = mb.cap := by
  obtain ⟨queue, len, cap, overflow, recvWaiters, sendWaiters, ended, closed, sent, gone⟩ := mb
  cases recvWaiters with
  | nil => exact ⟨rfl, rfl, rfl, rfl, rfl, rfl⟩
  | cons w rest => exact ⟨rfl, rfl, rfl, rfl, rfl, rfl⟩

theorem take_eq_some {mb mb' : Mbox F} {op m : Nat} {w : Option F}
    (h : mb.take op = some (m, w, mb')) : mb.queue = m :: mb'.queue ∧ mb'.len = mb.len - 1 ∧
      mb'.recvWaiters = mb.recvWaiters ∧ mb'.blocks = mb.blocks ∧ mb'.closed = mb.closed ∧
      mb'.cap = mb.cap ∧ ((mb'.sendWaiters = mb.sendWaiters ∧ mb.sendWaiters = []) ∨
        ∃ g, mb.sendWaiters = g :: mb'.sendWaiters ∧ w = some g) := by
  obtain ⟨queue, len, cap, overflow, recvWaiters, sendWaiters, ended, closed, sent, gone⟩ := mb
  cases queue with
  | nil => cases h
  | cons m' rest =>
      cases sendWaiters with
      | nil =>
          cases h
          exact ⟨rfl, rfl, rfl, rfl, rfl, rfl, .inl ⟨rfl, rfl⟩⟩
      | cons g gs =>
          cases h
          exact ⟨rfl, rfl, rfl, rfl, rfl, rfl, .inr ⟨g, rfl, rfl⟩⟩

theorem take_eq_none {mb : Mbox F} {op : Nat} (h : mb.take op = none) : mb.queue = [] := by
  obtain ⟨queue, len, cap, overflow, recvWaiters, sendWaiters, ended, closed, sent, gone⟩ := mb
  cases queue with
  | nil => rfl
  | cons m rest => cases h

section

variable [DecidableEq F]

theorem turn_append {mb mb₀ : Mbox F} {f : F} {op m : Nat} {b : B}
    (hsend : mb₀.sendWaiters = mb.sendWaiters.erase f) (hrecv : mb₀.recvWaiters = mb.recvWaiters)
    (hqueue : mb₀.queue.length ≤ mb.queue.length) (hblocks : mb₀.blocks = mb.blocks)
    (hclosed : mb₀.closed = mb.closed) (hcap : mb₀.cap = mb.cap)
    (hroom : mb.blocks = true → mb₀.len = mb.len ∧ mb.len < mb.cap) :
    Turn mb (mb₀.append m).2 f (.send op) b (.busy (.send op) b (.wake (mb₀.append m).1)) := by
  obtain ⟨hq, hl, hs, hb, hc, hcp⟩ := append_fields mb₀ m
  refine
    { own := .inl ⟨hs.trans hsend, ?_, ?_⟩
      other := ?_
      blocks := hb.trans hblocks
      closed := hc.trans hclosed }
  · rintro op' c stage hstage
    cases hstage
    exact ⟨nofun, nofun, nofun⟩
  · show (mb₀.append m).2.available .send + 1 ≤ mb.available .send ∨ _ = 0 ∨ _
    simp only [Mbox.available, hb, hc, hl, hcp, hblocks, hclosed, hcap, Op.side]
    cases hblock : mb.blocks with
    | false => exact .inr (.inl rfl)
    | true =>
        obtain ⟨hlen, hless⟩ := hroom hblock
        cases mb.closed with
        | true => exact .inr (.inl rfl)
        | false =>
            refine .inl ?_
            simp only [Bool.not_false, Bool.and_self, if_true, hlen]
            omega
  · have havailable : (mb₀.append m).2.available .recv ≤ mb.available .recv + 1 := by
      simp only [Mbox.available, hq, List.length_append, List.length_singleton]
      omega
    rcases append_recv mb₀ m with ⟨hsame, hempty⟩ | ⟨w, hcons, hw⟩
    · exact .inl ⟨hsame.trans hrecv, .inl (hrecv.symm.trans hempty)⟩
    · exact .inr ⟨w, hrecv.symm.trans hcons, hw, havailable⟩

theorem turn_take {mb mb₀ mb' : Mbox F} {f : F} {op : Op} {number m : Nat} {b : B} {w : Option F}
    (hside : op.side = .recv) (hrecv : mb₀.recvWaiters = mb.recvWaiters.erase f)
    (hsend : mb₀.sendWaiters = mb.sendWaiters) (hqueue : mb₀.queue = mb.queue)
    (hlen : mb₀.len = mb.len) (hblocks : mb₀.blocks = mb.blocks)
    (hclosed : mb₀.closed = mb.closed) (hcap : mb₀.cap = mb.cap)
    (htake : mb₀.take number = some (m, w, mb')) :
    Turn mb mb' f op b (.busy op b (.wake w)) := by
  obtain ⟨hq, hl, hr, hb, hc, hcp, hs⟩ := take_eq_some htake
  have hown : mb'.waiters op.side = (mb.waiters op.side).erase f ∧
      mb'.available op.side + 1 ≤ mb.available op.side := by
    rw [hside]
    refine ⟨hr.trans hrecv, ?_⟩
    rw [Mbox.available, Mbox.available, ← hqueue, hq, List.length_cons]
  have havailable : mb'.available .send ≤ mb.available .send + 1 := by
    simp only [Mbox.available, hb, hc, hl, hcp, hblocks, hclosed, hcap, hlen]
    split <;> omega
  refine
    { own := .inl ⟨hown.1, ?_, .inl hown.2⟩
      other := ?_
      blocks := hb.trans hblocks
      closed := hc.trans hclosed }
  · rintro op' c stage hstage
    cases hstage
    exact ⟨nofun, nofun, nofun⟩
  · rw [hside]
    rcases hs with ⟨hsame, hempty⟩ | ⟨g, hcons, rfl⟩
    · exact .inl ⟨hsame.trans hsend, .inl (hsend.symm.trans hempty)⟩
    · exact .inr ⟨g, hsend.symm.trans hcons, rfl, havailable⟩

theorem turn_remove {mb mb' : Mbox F} {f : F} {op : Op} {b : B} {pc : Pc F B}
    (hpc : pc.Unasking) (hown : mb'.waiters op.side = (mb.waiters op.side).erase f)
    (hother : mb'.waiters op.side.other = mb.waiters op.side.other)
    (havailable : ∀ side, mb'.available side = mb.available side)
    (hblocks : mb'.blocks = mb.blocks) (hclosed : mb'.closed = mb.closed)
    (hslot : mb.available op.side = 0 ∨ f ∈ mb.waiters op.side) : Turn mb mb' f op b pc where
  own := by
    refine .inl ⟨hown, hpc, .inr ?_⟩
    rw [havailable]
    exact hslot.imp id fun hin => ⟨le_rfl, hin⟩
  other := .inl ⟨hother, .inr (havailable _).le⟩
  blocks := hblocks
  closed := hclosed

theorem turn_link {mb mb' : Mbox F} {f : F} {op : Op} {b : B}
    (hown : mb'.waiters op.side = (mb.waiters op.side).erase f ++ [f])
    (hother : mb'.waiters op.side.other = mb.waiters op.side.other)
    (havailable : ∀ side, mb'.available side = mb.available side)
    (hblocks : mb'.blocks = mb.blocks) (hclosed : mb'.closed = mb.closed)
    (hnone : mb.available op.side = 0)
    (hopen : op.side = .send → mb.blocks = true ∧ mb.closed = false) :
    Turn mb mb' f op b (.busy op b .linked) where
  own := .inr ⟨hown, rfl, by rwa [havailable], hopen⟩
  other := .inl ⟨hother, .inr (havailable _).le⟩
  blocks := hblocks
  closed := hclosed

end

section

variable {s : State F B} {f : F} {b : B}

theorem Inv.congr {s' : State F B} (h : Inv s) (hbox : s'.box = s.box) (hfib : s'.fib = s.fib) :
    Inv s' :=
  h.calm (fun _ => hbox ▸ alike_self _) fun _ => hfib ▸ calm_self _

theorem Inv.side_of_mem (h : Inv s) {op : Op} {stage : Stage F} {c : B} {side : Side}
    (hpc : (s.fib f).pc = .busy op b stage) (hin : f ∈ (s.box c).waiters side) :
    c = b ∧ side = op.side ∧ (op.timed = true → stage ≠ .attempt) := by
  obtain ⟨op', stage', hpc', hside, -, hlink⟩ := h.links c side f hin
  rw [hpc] at hpc'
  cases hpc'
  exact ⟨rfl, hside.symm, hlink⟩

theorem Inv.exit [DecidableEq F] (h : Inv s) {op : Op} {stage : Stage F} {pc : Pc F B}
    (hpc : (s.fib f).pc = .busy op b stage) (hwait : stage.waiting = true)
    (hout : f ∉ (s.box b).waiters op.side) (hnone : (s.box b).available op.side = 0)
    (hasks : pc.Unasking) : Inv (s.setPc f pc) := by
  refine h.setPc (fun c side hin => ?_) (fun c side hw => .inr ?_) (fun g hg => ?_) hasks
    fun c w hclosing => ?_
  · obtain ⟨rfl, rfl, -⟩ := h.side_of_mem hpc hin
    exact hout hin
  · obtain ⟨op', stage', hpc', rfl, -⟩ := hw
    rw [hpc] at hpc'
    cases hpc'
    exact hnone
  · rw [hpc] at hg
    cases stage <;> simp_all [Pc.hand, Stage.waiting]
  · rw [hpc] at hclosing
    cases hclosing

theorem Start.inv (h : Start s) : Inv s := by
  have hempty (b : B) (side : Side) : (s.box b).waiters side = [] := by
    obtain ⟨-, -, hrecv, hsend, -⟩ := h.boxes b
    cases side
    · exact hrecv
    · exact hsend
  have hidle (f : F) (op : Op) (b : B) (stage : Stage F) : (s.fib f).pc ≠ .busy op b stage := by
    rw [h.fibers f]
    exact nofun
  exact
    { links := fun b side f hin => by rw [hempty b side] at hin; cases hin
      nodup := fun b side => by rw [hempty b side]; exact List.nodup_nil
      parked := fun f op b hpc => absurd hpc (hidle f op b _)
      falling := fun f op b stage hpc => absurd hpc (hidle f op b stage)
      enough := fun b side hne => absurd (hempty b side) hne
      blocking := fun b hne => absurd (hempty b .send) hne
      closed := fun b _ => .inl (hempty b .send) }

/-- Every fiber is parked or finished. -/
def Quiescent (s : State F B) : Prop :=
  ∀ f, (s.fib f).pc = .finished ∨ ∃ op b, (s.fib f).pc = .busy op b .parked

def ParkedOn (s : State F B) (b : B) (side : Side) : Prop :=
  ∃ f op, (s.fib f).pc = .busy op b .parked ∧ op.side = side

/-- Somebody waits for what is there. -/
def Stranded (s : State F B) (b : B) : Prop :=
  ((s.box b).queue ≠ [] ∧ ParkedOn s b .recv) ∨
    (((s.box b).len < (s.box b).cap ∨ (s.box b).closed = true) ∧ ParkedOn s b .send)

theorem Quiescent.hand (hq : Quiescent s) (f : F) : (s.fib f).pc.hand = none := by
  rcases hq f with hpc | ⟨op, b, hpc⟩ <;> rw [hpc] <;> rfl

theorem Inv.available_of_parked (h : Inv s) (hq : Quiescent s) {side : Side}
    (hparked : ParkedOn s b side) :
    (s.box b).waiters side ≠ [] ∧ (s.box b).available side = 0 := by
  have hin (f : F) (op : Op) (hpc : (s.fib f).pc = .busy op b .parked) :
      f ∈ (s.box b).waiters op.side := by
    rcases h.parked f op b hpc with hin | ⟨g, hg⟩
    · exact hin
    · rw [hq.hand g] at hg
      cases hg
  obtain ⟨f, op, hpc, rfl⟩ := hparked
  have hne := List.ne_nil_of_mem (hin f op hpc)
  obtain ⟨T, hT, hcard⟩ := h.enough b op.side hne
  have hnone : T = ∅ := by
    refine Finset.eq_empty_of_forall_notMem fun g hg => ?_
    obtain ⟨⟨op', stage, hpc', hside, -⟩, hout⟩ := hT g hg
    rcases hq g with hfin | ⟨op₂, b₂, hpark⟩
    · rw [hfin] at hpc'
      cases hpc'
    · rw [hpark] at hpc'
      cases hpc'
      exact hout (hside ▸ hin g op' hpark)
  rw [hnone, Finset.card_empty] at hcard
  exact ⟨hne, Nat.le_zero.1 hcard⟩

theorem unasking_idle : (Pc.idle : Pc F B).Unasking := nofun

theorem unasking_crashed : (Pc.crashed : Pc F B).Unasking := nofun

theorem unasking_attempt (op : Op) (b : B) : (Pc.busy op b .attempt : Pc F B).Unasking := by
  rintro op' c stage hstage
  cases hstage
  exact ⟨nofun, nofun, nofun⟩

theorem Inv.move [DecidableEq F] (h : Inv s) {pc : Pc F B}
    (hquiet : ∀ op b stage, (s.fib f).pc = .busy op b stage → stage.waiting = false)
    (hhand : ∀ g, (s.fib f).pc.hand = some g → pc.hand = some g ∨ Roused s g)
    (hasks : pc.Unasking)
    (hclosing : ∀ b w, (s.fib f).pc = .closing b w →
      (s.box b).sendWaiters = [] ∨ ∃ w', pc = .closing b w') : Inv (s.setPc f pc) := by
  refine h.setPc (fun c side hin => ?_) (fun c side hw => ?_) hhand hasks hclosing
  · obtain ⟨op, stage, hpc, -, hwait, -⟩ := h.links c side f hin
    rw [hquiet op c stage hpc] at hwait
    cases hwait
  · obtain ⟨op, stage, hpc, -, hwait⟩ := hw
    rw [hquiet op c stage hpc] at hwait
    cases hwait

theorem Inv.setBox [DecidableEq B] (h : Inv s) {mb : Mbox F}
    (hsub : ∀ side, (mb.waiters side).Sublist ((s.box b).waiters side))
    (hleft : ∀ side g, g ∈ (s.box b).waiters side →
      g ∈ mb.waiters side ∨ ∃ k, (s.fib k).pc.hand = some g)
    (havailable : ∀ side, mb.available side ≤ (s.box b).available side)
    (hblocks : mb.blocks = (s.box b).blocks)
    (hclosed : mb.closed = true → (s.box b).closed = true ∨ ∃ g w, (s.fib g).pc = .closing b w) :
    Inv (s.setBox b mb) := by
  have hawaited (g : F) (c : B) (side : Side) (ha : Awaited s g c side) :
      Awaited (s.setBox b mb) g c side := by
    rcases ha with hin | hhand
    · by_cases hc : c = b
      · subst hc
        rcases hleft side g hin with hin' | hhand
        · exact .inl (by rwa [setBox_self])
        · exact .inr hhand
      · exact .inl (by rwa [setBox_of_ne s mb hc])
    · exact .inr hhand
  refine
    { links := fun c side g hg => ?_
      nodup := fun c side => ?_
      parked := fun g op c hpc => hawaited g c _ (h.parked g op c hpc)
      falling := fun g op c stage hpc hstage =>
        (h.falling g op c stage hpc hstage).imp (hawaited g c _) id
      enough := fun c side => ?_
      blocking := fun c hne => ?_
      closed := fun c hc => ?_ }
  · by_cases hc : c = b
    · subst hc
      rw [setBox_self] at hg
      exact h.links c side g ((hsub side).subset hg)
    · rw [setBox_of_ne s mb hc] at hg
      exact h.links c side g hg
  · by_cases hc : c = b
    · subst hc
      rw [setBox_self]
      exact (h.nodup c side).sublist (hsub side)
    · rw [setBox_of_ne s mb hc]
      exact h.nodup c side
  · intro hne
    by_cases hc : c = b
    · subst hc
      rw [setBox_self] at hne ⊢
      have hne' : (s.box c).waiters side ≠ [] := fun hempty =>
        hne (List.sublist_nil.1 (hempty ▸ hsub side))
      obtain ⟨T, hT, hcard⟩ := h.enough c side hne'
      refine ⟨T, fun g hg => ⟨(hT g hg).1, fun hin => (hT g hg).2 ?_⟩, (havailable side).trans hcard⟩
      rw [setBox_self] at hin
      exact (hsub side).subset hin
    · rw [setBox_of_ne s mb hc] at hne ⊢
      obtain ⟨T, hT, hcard⟩ := h.enough c side hne
      exact ⟨T, fun g hg => ⟨(hT g hg).1, by rw [setBox_of_ne s mb hc]; exact (hT g hg).2⟩, hcard⟩
  · by_cases hc : c = b
    · subst hc
      rw [setBox_self] at hne ⊢
      rw [hblocks]
      exact h.blocking c fun hempty => hne (List.sublist_nil.1 (hempty ▸ hsub .send))
    · rw [setBox_of_ne s mb hc] at hne ⊢
      exact h.blocking c hne
  · by_cases hcb : c = b
    · subst hcb
      rw [setBox_self] at hc ⊢
      rcases hclosed hc with hold | hclosing
      · refine (h.closed c hold).imp (fun hempty => ?_) id
        have hsend : mb.sendWaiters.Sublist (s.box c).sendWaiters := hsub .send
        rw [hempty] at hsend
        exact List.sublist_nil.1 hsend
      · exact .inr hclosing
    · rw [setBox_of_ne s mb hcb] at hc ⊢
      exact h.closed c hc

theorem Inv.wake [DecidableEq F] (h : Inv s) {op : Op} {w : Option F}
    (hpc : (s.fib f).pc = .busy op b (.wake w)) : Inv ((s.wake w).setPc f .idle) := by
  have hpc' : ((s.wake w).fib f).pc = .busy op b (.wake w) := by
    cases w with
    | none => exact hpc
    | some g => exact (pc_unpark s g (by rw [hpc]; exact nofun)).trans hpc
  have hwoken : Inv (s.wake w) := by
    cases w with
    | none => exact h
    | some g => exact h.unpark g
  refine hwoken.move (fun op' c stage hbusy => ?_) (fun g hg => .inr ?_) unasking_idle
    fun c w' hc => ?_
  · rw [hpc'] at hbusy
    cases hbusy
    rfl
  · rw [hpc'] at hg
    have hw : w = some g := hg
    rw [hw]
    exact roused_unpark s g
  · rw [hpc'] at hc
    cases hc

theorem Inv.closeWake [DecidableEq F] (h : Inv s) {g : F} (hpc : (s.fib f).pc = .closing b (some g)) :
    Inv ((s.unpark g).setPc f (.closing b none)) := by
  have hpc' : ((s.unpark g).fib f).pc = .closing b (some g) :=
    (pc_unpark s g (by rw [hpc]; exact nofun)).trans hpc
  refine (h.unpark g).move (fun op c stage hbusy => ?_) (fun k hk => .inr ?_) nofun
    fun c w hc => ?_
  · rw [hpc'] at hbusy
    cases hbusy
  · rw [hpc'] at hk
    cases hk
    exact roused_unpark s g
  · rw [hpc'] at hc
    cases hc
    exact .inr ⟨none, rfl⟩

theorem Inv.abandon [DecidableEq F] (h : Inv s) {op : Nat} (hpc : (s.fib f).pc = .busy (.send op) b .abandon) :
    Inv ((s.release f b op).setPc f .idle) := by
  have hreleased : Inv (s.release f b op) := h.congr rfl rfl
  have hpc' : ((s.release f b op).fib f).pc = .busy (.send op) b .abandon := hpc
  refine hreleased.move (fun op' c stage hbusy => ?_) (fun g hg => ?_) unasking_idle
    fun c w hc => ?_
  · rw [hpc'] at hbusy
    cases hbusy
    rfl
  · rw [hpc'] at hg
    cases hg
  · rw [hpc'] at hc
    cases hc

end

section

variable [DecidableEq F] [DecidableEq B] {s : State F B} {f : F} {b : B}

theorem Inv.sendSection (h : Inv s) {op : Nat} (hpc : (s.fib f).pc = .busy (.send op) b .attempt) :
    Inv (s.sendSection f b op) := by
  have hnone (hblocks : (s.box b).blocks = false) : (s.box b).sendWaiters = [] := by
    by_contra hne
    rw [h.blocking b hne] at hblocks
    cases hblocks
  have herase (hblocks : (s.box b).blocks = false) :
      (s.box b).sendWaiters = (s.box b).sendWaiters.erase f := by
    rw [hnone hblocks]
    rfl
  have hrelease : Inv (s.release f b op) := h.congr rfl rfl
  have hfull {mb : Mbox F} (hshut : mb.blocks = false ∨ mb.closed = true) : mb.available .send = 0 := by
    rcases hshut with hshut | hshut <;> simp [Mbox.available, hshut]
  have hcases := (s.box b).reserves f op
  rw [State.sendSection]
  generalize (s.box b).reserve f op = out at hcases ⊢
  cases hcases with
  | closed hblocks hclosed =>
      exact hrelease.turn hpc rfl (turn_remove unasking_idle (Mbox.setWaiters_self ..)
        (setWaiters_other ..) (setWaiters_available _ _ _) (Mbox.setWaiters_blocks ..)
        (Mbox.setWaiters_closed ..) (.inl (hfull (.inr hclosed))))
  | full hblocks hclosed hlen =>
      refine h.turn hpc rfl (turn_link ?_ ?_ ?_ ?_ ?_ ?_ fun _ => ⟨hblocks, hclosed⟩)
      · simp [Mbox.waiterEnqueue, Mbox.waiterRemove, Op.side]
      · simp [Mbox.waiterEnqueue, Mbox.waiterRemove, Op.side]
      · simp [Mbox.waiterEnqueue, Mbox.waiterRemove]
      · simp [Mbox.waiterEnqueue, Mbox.waiterRemove]
      · simp [Mbox.waiterEnqueue, Mbox.waiterRemove]
      · show (s.box b).available .send = 0
        simp only [Mbox.available, hblocks, hclosed, Bool.not_false, Bool.and_self, if_true]
        omega
  | slot hblocks hclosed hlen =>
      exact h.turn hpc rfl (turn_append rfl rfl le_rfl (Mbox.setWaiters_blocks ..)
        (Mbox.setWaiters_closed ..) rfl fun _ => ⟨rfl, hlen⟩)
  | shut hblocks hclosed =>
      exact hrelease.turn hpc rfl (turn_remove unasking_idle (herase hblocks) rfl (fun _ => rfl) rfl
        rfl (.inl (hfull (.inl hblocks))))
  | discarded hblocks hclosed =>
      exact hrelease.turn hpc rfl (turn_remove unasking_idle (herase hblocks) rfl (fun _ => rfl) rfl
        rfl (.inl (hfull (.inl hblocks))))
  | room hblocks hclosed =>
      refine h.turn hpc rfl (turn_append (herase hblocks) rfl le_rfl rfl rfl rfl fun hother => ?_)
      rw [hblocks] at hother
      cases hother
  | @evicted old rest hblocks hclosed hoverflow hqueue =>
      have hlen : rest.length ≤ (s.box b).queue.length := by simp [hqueue]
      refine h.turn hpc rfl (turn_append (herase hblocks) rfl hlen rfl rfl rfl fun hother => ?_)
      rw [hblocks] at hother
      cases hother
  | crashed hblocks =>
      refine h.exit hpc rfl ?_ (hfull (.inl hblocks)) unasking_crashed
      show f ∉ (s.box b).sendWaiters
      rw [hnone hblocks]
      exact List.not_mem_nil

theorem Inv.received (h : Inv s) {op : Op} {stage : Stage F} {got : Nat × Option F × Mbox F}
    (hpc : (s.fib f).pc = .busy op b stage) (hwait : stage.waiting = true)
    (ht : Turn (s.box b) got.2.2 f op b (.busy op b (.wake got.2.1))) :
    Inv (s.received f b op got) :=
  (h.congr rfl rfl : Inv (s.answer op.number (some got.1))).turn hpc hwait ht

theorem Inv.recvSection (h : Inv s) {op : Nat} (hpc : (s.fib f).pc = .busy (.recv op) b .attempt) :
    Inv (s.recvSection f b op) := by
  rw [State.recvSection]
  generalize hmb : (s.box b).waiterRemove .recv f = mb
  have hown : mb.recvWaiters = (s.box b).recvWaiters.erase f := by rw [← hmb]; rfl
  have hsend : mb.sendWaiters = (s.box b).sendWaiters := by rw [← hmb]; rfl
  have hqueue : mb.queue = (s.box b).queue := by rw [← hmb]; rfl
  cases htake : mb.take op with
  | some got =>
      refine h.received hpc rfl (turn_take rfl hown hsend hqueue ?_ ?_ ?_ ?_ htake) <;>
        rw [← hmb] <;> rfl
  | none =>
      have hempty : (s.box b).available .recv = 0 := by
        rw [Mbox.available, ← hqueue, take_eq_none htake]
        rfl
      refine h.turn hpc rfl (turn_link ?_ hsend (fun side => ?_) ?_ ?_ hempty nofun)
      · show mb.recvWaiters ++ [f] = (s.box b).recvWaiters.erase f ++ [f]
        rw [hown]
      · simp [Mbox.waiterEnqueue, Mbox.waiterRemove, ← hmb]
      · rw [← hmb]
        rfl
      · rw [← hmb]
        rfl

theorem Inv.timedSection (h : Inv s) {op : Nat} (expired : Bool)
    (hpc : (s.fib f).pc = .busy (.recvTimeout op) b .attempt) :
    Inv (s.timedSection f b op expired) := by
  have hout : f ∉ (s.box b).waiters .recv := fun hin =>
    (h.side_of_mem hpc hin).2.2 rfl rfl
  have herase : (s.box b).recvWaiters = (s.box b).recvWaiters.erase f :=
    (List.erase_of_not_mem hout).symm
  rw [State.timedSection]
  cases htake : (s.box b).take op with
  | some got => exact h.received hpc rfl (turn_take rfl herase rfl rfl rfl rfl rfl rfl htake)
  | none =>
      have hempty : (s.box b).available .recv = 0 := by
        rw [Mbox.available, take_eq_none htake]
        rfl
      dsimp only
      cases expired with
      | true =>
          exact (h.congr rfl rfl : Inv (s.answer op none)).exit hpc rfl hout hempty unasking_idle
      | false =>
          refine h.turn hpc rfl (turn_link ?_ rfl ?_ rfl rfl hempty nofun)
          · show (s.box b).recvWaiters ++ [f] = (s.box b).recvWaiters.erase f ++ [f]
            rw [← herase]
          · simp [Mbox.waiterEnqueue]

theorem Inv.timedResume (h : Inv s) {op : Nat}
    (hpc : (s.fib f).pc = .busy (.recvTimeout op) b .resumed) : Inv (s.timedResume f b op) := by
  have hremove {pc : Pc F B} (hin : f ∈ (s.box b).recvWaiters) (hasks : pc.Unasking) :
      Turn (s.box b) ((s.box b).waiterRemove .recv f) f (.recvTimeout op) b pc :=
    turn_remove hasks rfl rfl (setWaiters_available _ _ _) rfl rfl (.inr hin)
  unfold State.timedResume
  split
  · next hin =>
      dsimp only
      split
      · exact (h.congr rfl rfl : Inv (s.answer op none)).turn hpc rfl (hremove hin unasking_idle)
      · exact h.turn hpc rfl (hremove hin (unasking_attempt _ _))
  · next hout =>
      have herase : (s.box b).recvWaiters = (s.box b).recvWaiters.erase f :=
        (List.erase_of_not_mem hout).symm
      split
      · next got htake => exact h.received hpc rfl (turn_take rfl herase rfl rfl rfl rfl rfl rfl htake)
      · refine h.setPc (fun c side hin => ?_) (fun c side hw => .inl ?_) (fun g hg => ?_)
          (unasking_attempt _ _) fun c w hclosing => ?_
        · obtain ⟨rfl, rfl, -⟩ := h.side_of_mem hpc hin
          exact hout hin
        · obtain ⟨op', stage', hpc', hside, -⟩ := hw
          rw [hpc] at hpc'
          cases hpc'
          exact ⟨_, .attempt, by rw [setPc_self], hside, rfl⟩
        · rw [hpc] at hg
          cases hg
        · rw [hpc] at hclosing
          cases hclosing

theorem Inv.leave (h : Inv s) {op : Op} (hpc : (s.fib f).pc = .busy op b .leaving)
    (hin : f ∈ (s.box b).waiters op.side) : Inv (s.leave f op b) := by
  have hremove {pc : Pc F B} (hasks : pc.Unasking) :
      Turn (s.box b) ((s.box b).waiterRemove op.side f) f op b pc :=
    turn_remove hasks (Mbox.setWaiters_self ..) (setWaiters_other ..) (setWaiters_available _ _ _)
      (Mbox.setWaiters_blocks ..) (Mbox.setWaiters_closed ..) (.inr hin)
  unfold State.leave
  cases op with
  | send op =>
      refine h.turn hpc rfl (hremove ?_)
      rintro op' c stage hstage
      cases hstage
      exact ⟨nofun, nofun, nofun⟩
  | recv op =>
      exact (h.congr rfl rfl : Inv (s.answer op none)).turn hpc rfl (hremove unasking_idle)
  | recvTimeout op =>
      exact (h.congr rfl rfl : Inv (s.answer op none)).turn hpc rfl (hremove unasking_idle)

theorem Inv.closeNext (h : Inv s) (hpc : (s.fib f).pc = .closing b none) :
    Inv (s.closeNext f b) := by
  unfold State.closeNext Mbox.waiterDequeue
  have hmove {pc : Pc F B} (hasks : pc.Unasking)
      (hclosing : (s.box b).sendWaiters = [] ∨ ∃ w', pc = .closing b w') : Inv (s.setPc f pc) := by
    refine h.move (fun op c stage hbusy => ?_) (fun g hg => ?_) hasks fun c w hc => ?_
    · rw [hpc] at hbusy
      cases hbusy
    · rw [hpc] at hg
      cases hg
    · rw [hpc] at hc
      cases hc
      exact hclosing
  cases hwaiters : (s.box b).waiters .send with
  | nil => exact hmove unasking_idle (.inl hwaiters)
  | cons g rest =>
      have hheld : Inv (s.setPc f (.closing b (some g))) := hmove nofun (.inr ⟨_, rfl⟩)
      have hsend : (s.box b).sendWaiters = g :: rest := hwaiters
      refine hheld.setBox (fun side => ?_) (fun side k hk => ?_) (fun side => ?_) rfl .inl
      · cases side with
        | recv => exact List.Sublist.refl _
        | send =>
            show rest.Sublist (s.box b).sendWaiters
            rw [hsend]
            exact List.sublist_cons_self g rest
      · cases side with
        | recv => exact .inl hk
        | send =>
            have hk : k ∈ (s.box b).sendWaiters := hk
            rw [hsend, List.mem_cons] at hk
            rcases hk with rfl | hk
            · exact .inr ⟨f, by rw [setPc_self]; rfl⟩
            · exact .inl hk
      · exact (setWaiters_available _ _ _ _).le

theorem Inv.closeSection (h : Inv s) (hpc : (s.fib f).pc = .ending b) :
    Inv ((s.setBox b (s.box b).close).setPc f (.closing b none)) := by
  have hmoved : Inv (s.setPc f (.closing b none)) := by
    refine h.move (fun op c stage hbusy => ?_) (fun g hg => ?_) nofun fun c w hc => ?_
    · rw [hpc] at hbusy
      cases hbusy
    · rw [hpc] at hg
      cases hg
    · rw [hpc] at hc
      cases hc
  refine hmoved.setBox (fun side => ?_) (fun side k hk => ?_) (fun side => ?_) rfl fun _ =>
    .inr ⟨f, none, by rw [setPc_self]⟩
  · cases side <;> exact List.Sublist.refl _
  · cases side <;> exact .inl hk
  · cases side <;> simp [Mbox.available, Mbox.close]

/-- The condition on a step: a fiber at its cancel exit is still in its chain. -/
def Keeps (s : State F B) (f : F) (s' : State F B) : Prop :=
  ∀ op b, (s.fib f).pc = .busy op b .leaving → (s'.fib f).pc ≠ .busy op b .leaving →
    f ∈ (s.box b).waiters op.side

theorem Inv.step {s' : State F B} (h : Inv s) (hstep : Step s f s') (hkeeps : Keeps s f s') :
    Inv s' := by
  have hstart {op : Op} {c : B} (hpc : (s.fib f).pc = .idle) : Inv (s.start f c op) := by
    have hmoved : Inv (s.setPc f (.busy op c .attempt)) := by
      refine h.move (fun op' c' stage hbusy => ?_) (fun g hg => ?_) (unasking_attempt _ _)
        fun c' w hc => ?_
      · rw [hpc] at hbusy
        cases hbusy
      · rw [hpc] at hg
        cases hg
      · rw [hpc] at hc
        cases hc
    exact hmoved.congr rfl rfl
  cases hstep with
  | send hpc _ => exact (hstart hpc).congr rfl rfl
  | sendEnded _ _ => exact h.congr rfl rfl
  | recv hpc _ => exact hstart hpc
  | recvTimeout hpc _ => exact hstart hpc
  | sendSection hpc => exact h.sendSection hpc
  | recvSection hpc => exact h.recvSection hpc
  | timedSection expired hpc => exact h.timedSection expired hpc
  | announce hpc _ => exact h.setFib (.announced hpc rfl rfl)
  | skip hpc _ => exact h.setFib (.awake hpc rfl rfl (.inl rfl))
  | commit hpc =>
      unfold State.commit
      split
      · exact h.setFib (.awake hpc rfl rfl (.inl rfl))
      · next hpermits =>
          split
          · exact h.setFib (.awake hpc rfl rfl (.inl rfl))
          · exact h.setFib (.slept hpc rfl (Nat.eq_zero_of_not_pos hpermits))
  | retry hpc htimed _ => exact h.setFib (.awake hpc rfl rfl (.inr (.inr ⟨rfl, htimed⟩)))
  | cancelSeen hpc _ _ => exact h.setFib (.awake hpc rfl rfl (.inr (.inl rfl)))
  | @leave b op hpc =>
      refine h.leave hpc (hkeeps op b hpc ?_)
      unfold State.leave
      cases op <;> simp only [State.giveUp, setPc_self] <;> exact nofun
  | abandon hpc => exact h.abandon hpc
  | timedResume hpc => exact h.timedResume hpc
  | wake hpc => exact h.wake hpc
  | @close b hpc _ =>
      have hcalm : Inv (s.setPc f (.ending b)) := h.setFib (.aside (by rw [hpc]; rfl) rfl)
      exact hcalm.setBox (fun side => by cases side <;> exact List.Sublist.refl _)
        (fun side g hg => .inl (by cases side <;> exact hg))
        (fun side => by cases side <;> exact le_rfl) rfl .inl
  | closeSection hpc => exact h.closeSection hpc
  | closeNext hpc => exact h.closeNext hpc
  | closeWake hpc => exact h.closeWake hpc
  | cancel => exact h.setFib (.kept rfl le_rfl)
  | fire =>
      have hfired : Inv (s.setFib f { s.fib f with fired := true }) := h.setFib (.kept rfl le_rfl)
      exact hfired.unpark f
  | stray => exact h.unpark _
  | deliver _ => exact h.setFib (.kept rfl le_rfl)
  | finish hpc => exact h.setFib (.aside (by rw [hpc]; rfl) rfl)

theorem Reached.inv (h : Reached Keeps s) : Inv s := by
  induction h with
  | start hstart => exact hstart.inv
  | step _ hkeeps hstep ih => exact ih.step hstep hkeeps

/-- In a run where nobody leaves at a cancel exit with a wake-up of its own, nobody is left
waiting for a message or a slot that is there. -/
theorem not_stranded (h : Reached Keeps s) (hq : Quiescent s) (b : B) : ¬Stranded s b := by
  have hinv := h.inv
  rintro (⟨hqueue, hparked⟩ | ⟨hslot, hparked⟩)
  · exact hqueue (List.length_eq_zero_iff.1 (hinv.available_of_parked hq hparked).2)
  · obtain ⟨hne, hnone⟩ := hinv.available_of_parked hq hparked
    have hopen : (s.box b).closed = false := by
      by_contra hclosed
      rcases hinv.closed b (Bool.eq_true_of_not_eq_false hclosed) with hempty | ⟨g, w, hg⟩
      · exact hne hempty
      · rcases hq g with hpc | ⟨op, c, hpc⟩ <;> rw [hpc] at hg <;> cases hg
    rw [Mbox.available, hinv.blocking b hne, hopen] at hnone
    rcases hslot with hless | hclosed
    · simp only [Bool.not_false, Bool.and_self, if_true] at hnone
      omega
    · rw [hopen] at hclosed
      cases hclosed

end

/-- One mailbox of one slot whose senders block, and four idle fibers. -/
def oneSlot : State (Fin 4) Unit where
  box _ := ⟨[], 0, 1, .blockSender, [], [], false, false, [], []⟩
  fib _ := ⟨.idle, 0, false, false⟩
  nextOp := 0
  sends := []
  released := []
  answers := []

theorem start_oneSlot : Start oneSlot :=
  ⟨fun _ => ⟨rfl, rfl, rfl, rfl, rfl, rfl, rfl, rfl⟩, fun _ => rfl, rfl, rfl, rfl⟩

/-- One sender fills the slot, the next parks. -/
theorem not_stranded_oneSlot : ∃ s : State (Fin 4) Unit,
    Reached Keeps s ∧ Quiescent s ∧ ¬Stranded s () := by
  have next {s s' : State (Fin 4) Unit} {f : Fin 4} (h : Reached Keeps s) (hstep : Step s f s')
      (hpc : ∀ op b, (s.fib f).pc ≠ .busy op b .leaving) : Reached Keeps s' :=
    h.step (fun op b hleaving => absurd hleaving (hpc op b)) hstep
  have h : Reached Keeps oneSlot := .start start_oneSlot
  have h := next h (.send (f := 1) (b := ()) rfl rfl) nofun
  have h := next h (.sendSection (f := 1) (b := ()) rfl) nofun
  have h := next h (.wake (f := 1) (b := ()) rfl) nofun
  have h := next h (.finish (f := 1) rfl) nofun
  have h := next h (.send (f := 2) (b := ()) rfl rfl) nofun
  have h := next h (.sendSection (f := 2) (b := ()) rfl) nofun
  have h := next h (.announce (f := 2) (b := ()) rfl rfl) nofun
  have h := next h (.commit (f := 2) (b := ()) rfl) nofun
  have h := next h (.finish (f := 0) rfl) nofun
  have h := next h (.finish (f := 3) rfl) nofun
  refine ⟨_, h, ?_, not_stranded h ?_ ()⟩
  all_goals
    intro f
    match f with
    | 0 => exact .inl rfl
    | 1 => exact .inl rfl
    | 2 => exact .inr ⟨.send 1, (), rfl⟩
    | 3 => exact .inl rfl

/-- A slot is filled, two senders wait for it, the first of them is woken by a receive and
cancelled before it runs: the second waits for a free slot for ever. -/
theorem stranded_oneSlot : ∃ s : State (Fin 4) Unit,
    Reached (fun _ _ _ => True) s ∧ Quiescent s ∧ Stranded s () := by
  have h : Reached (fun _ _ _ => True) oneSlot := .start start_oneSlot
  -- the slot is filled
  have h := h.step trivial (.send (f := 1) (b := ()) rfl rfl)
  have h := h.step trivial (.sendSection (f := 1) (b := ()) rfl)
  have h := h.step trivial (.wake (f := 1) (b := ()) rfl)
  have h := h.step trivial (.finish (f := 1) rfl)
  -- two senders park
  have h := h.step trivial (.send (f := 2) (b := ()) rfl rfl)
  have h := h.step trivial (.sendSection (f := 2) (b := ()) rfl)
  have h := h.step trivial (.announce (f := 2) (b := ()) rfl rfl)
  have h := h.step trivial (.commit (f := 2) (b := ()) rfl)
  have h := h.step trivial (.send (f := 3) (b := ()) rfl rfl)
  have h := h.step trivial (.sendSection (f := 3) (b := ()) rfl)
  have h := h.step trivial (.announce (f := 3) (b := ()) rfl rfl)
  have h := h.step trivial (.commit (f := 3) (b := ()) rfl)
  -- the receive wakes the first
  have h := h.step trivial (.recv (f := 0) (b := ()) rfl rfl)
  have h := h.step trivial (.recvSection (f := 0) (b := ()) rfl)
  have h := h.step trivial (.wake (f := 0) (b := ()) rfl)
  -- which is cancelled
  have h := h.step trivial (.cancel (f := 2))
  have h := h.step trivial (.cancelSeen (f := 2) (b := ()) rfl rfl rfl)
  have h := h.step trivial (.leave (f := 2) (b := ()) rfl)
  have h := h.step trivial (.abandon (f := 2) (b := ()) rfl)
  have h := h.step trivial (.finish (f := 2) rfl)
  -- the receiver parks on the empty mailbox
  have h := h.step trivial (.recv (f := 0) (b := ()) rfl rfl)
  have h := h.step trivial (.recvSection (f := 0) (b := ()) rfl)
  have h := h.step trivial (.announce (f := 0) (b := ()) rfl rfl)
  have h := h.step trivial (.commit (f := 0) (b := ()) rfl)
  refine ⟨_, h, fun f => ?_, .inr ⟨.inl ?_, 3, .send 2, rfl, rfl⟩⟩
  · match f with
    | 0 => exact .inr ⟨.recv 4, (), rfl⟩
    | 1 => exact .inl rfl
    | 2 => exact .inl rfl
    | 3 => exact .inr ⟨.send 2, (), rfl⟩
  · decide

end Kaikai.Mailbox
