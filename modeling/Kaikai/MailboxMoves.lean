import Kaikai.MailboxLedger
import Kaikai.MailboxStranded

namespace Kaikai.Mailbox

variable {F B : Type}

theorem sameBooks_setWaiters (mb : Mbox F) (fs : List F) (side : Side) :
    SameBooks mb (mb.setWaiters fs side) := by
  cases side <;> exact ⟨rfl, rfl, rfl, rfl, rfl, rfl, rfl⟩

theorem SameBooks.setWaiters {mb mb' : Mbox F} (h : SameBooks mb mb') (fs : List F) (side : Side) :
    SameBooks mb (mb'.setWaiters fs side) := by
  cases side <;> exact ⟨h.queue, h.len, h.cap, h.overflow, h.sent, h.gone, h.closed⟩

theorem sameBooks_append (mb : Mbox F) (m : Nat) :
    SameBooks { mb with queue := mb.queue ++ [m], len := mb.len + 1, sent := mb.sent ++ [m] }
      (mb.append m).2 := by
  obtain ⟨queue, len, cap, overflow, recvWaiters, sendWaiters, ended, closed, sent, gone⟩ := mb
  cases recvWaiters with
  | nil => exact sameBooks_self _
  | cons w rest => exact sameBooks_setWaiters _ rest .recv

theorem enqueues_append {mb mb₀ : Mbox F} (m : Nat) (h : SameBooks mb mb₀)
    (hroom : 0 < mb.cap → mb.overflow ≠ .unbounded → mb.len < mb.cap) :
    Enqueues mb (mb₀.append m).2 m := by
  have happend := sameBooks_append mb₀ m
  refine
    { sent := happend.sent.trans (by rw [h.sent])
      moved := ?_
      kept := fun m' op => by rw [happend.gone, h.gone]
      fates := fun p hp => ?_
      closed := happend.closed.trans h.closed
      len := fun hlen => ?_
      cap := happend.cap.trans h.cap
      overflow := happend.overflow.trans h.overflow
      bounded := fun hcap hoverflow _ => ?_ }
  · rw [happend.gone, happend.queue, h.gone, h.queue, List.append_assoc]
  · rw [happend.gone, h.gone] at hp
    exact .inl hp
  · rw [happend.len, happend.queue, h.len, h.queue, hlen, List.length_append,
      List.length_singleton]
    rfl
  · have hless := hroom hcap hoverflow
    rw [happend.len]
    show mb₀.len + 1 ≤ mb.cap
    rw [h.len]
    omega

theorem enqueues_evict {mb : Mbox F} {old m : Nat} {rest : List Nat}
    (hoverflow : mb.overflow = .dropOldest) (hqueue : mb.queue = old :: rest) :
    Enqueues mb ((mb.evict old rest).append m).2 m := by
  have happend := sameBooks_append (mb.evict old rest) m
  refine
    { sent := happend.sent
      moved := ?_
      kept := fun m' op => ?_
      fates := fun p hp => ?_
      closed := happend.closed
      len := fun hlen => ?_
      cap := happend.cap
      overflow := happend.overflow
      bounded := fun _ _ hbound => ?_ }
  · rw [happend.gone, happend.queue, hqueue]
    simp [Mbox.evict]
  · rw [happend.gone]
    simp [Mbox.evict]
  · rw [happend.gone] at hp
    rcases List.mem_append.1 hp with hold | hnew
    · exact .inl hold
    · rw [List.mem_singleton.1 hnew]
      exact .inr ⟨rfl, hoverflow⟩
  · rw [happend.len, happend.queue]
    rw [hqueue, List.length_cons] at hlen
    simp only [Mbox.evict, List.length_append, List.length_singleton]
    omega
  · rw [happend.len]
    simp only [Mbox.evict]
    omega

theorem takes_take {mb mb₀ mb' : Mbox F} {op m : Nat} {w : Option F} (h : SameBooks mb mb₀)
    (htake : mb₀.take op = some (m, w, mb')) : Takes mb mb' op m := by
  obtain ⟨queue, len, cap, overflow, recvWaiters, sendWaiters, ended, closed, sent, gone⟩ := mb₀
  have hgone : mb.gone ++ [(m, Fate.received op)] = gone ++ [(m, Fate.received op)] := by rw [← h.gone]
  have hlen : len - 1 = mb.len - 1 := by rw [← h.len]
  cases queue with
  | nil => cases htake
  | cons m' rest =>
      cases sendWaiters with
      | nil =>
          cases htake
          exact ⟨h.sent, h.queue.symm, hgone.symm, hlen, h.cap, h.overflow, h.closed⟩
      | cons g gs =>
          cases htake
          exact ⟨h.sent, h.queue.symm, hgone.symm, hlen, h.cap, h.overflow, h.closed⟩

theorem ends_close (mb : Mbox F) : Ends mb mb.close := ⟨rfl, rfl, rfl, rfl, rfl, rfl, rfl⟩

section

variable [DecidableEq F] {s s₀ : State F B} {f : F} {pc : Pc F B}

theorem pending_setPc (s₀ : State F B) (f : F) (pc : Pc F B) :
    ((s₀.setPc f pc).fib f).pc.pending = pc.pending := by rw [setPc_self]

theorem elsewhere_setPc (hfib : s₀.fib = s.fib) : Elsewhere s (s₀.setPc f pc) f := by
  intro g hg
  rw [setPc_of_ne s₀ pc hg, hfib]

theorem pending_setFib {φ : Fiber F B} (hpending : φ.pc.pending = (s.fib f).pc.pending) (g : F) :
    ((s.setFib f φ).fib g).pc.pending = (s.fib g).pc.pending := by
  by_cases hg : g = f
  · rw [hg, setFib_self, hpending]
  · rw [setFib_of_ne s φ hg]

theorem pending_unpark (s : State F B) (f g : F) :
    ((s.unpark f).fib g).pc.pending = (s.fib g).pc.pending := by
  unfold State.unpark
  split
  · next op b hparked => exact pending_setFib (by rw [hparked]; rfl) g
  · rfl
  · exact pending_setFib (by rfl) g

theorem pending_wake (s : State F B) (w : Option F) (g : F) :
    ((s.wake w).fib g).pc.pending = (s.fib g).pc.pending := by
  cases w with
  | none => rfl
  | some f => exact pending_unpark s f g

theorem unpark_cases (s : State F B) (f : F) : s.unpark f = s ∨ ∃ φ, s.unpark f = s.setFib f φ := by
  unfold State.unpark
  split
  · exact .inr ⟨_, rfl⟩
  · exact .inl rfl
  · exact .inr ⟨_, rfl⟩

theorem wake_rest (s : State F B) (w : Option F) : (s.wake w).box = s.box ∧
    (s.wake w).nextOp = s.nextOp ∧ (s.wake w).sends = s.sends ∧
    (s.wake w).released = s.released ∧ (s.wake w).answers = s.answers := by
  cases w with
  | none => exact ⟨rfl, rfl, rfl, rfl, rfl⟩
  | some f =>
      unfold State.wake
      rcases unpark_cases s f with h | ⟨φ, h⟩
      · simp only [h, and_self]
      · simp only [h]
        exact ⟨rfl, rfl, rfl, rfl, rfl⟩

theorem move_setFib {φ : Fiber F B} (hpending : φ.pc.pending = (s.fib f).pc.pending) :
    Move s (s.setFib f φ) :=
  .still (fun _ => sameBooks_self _) rfl rfl rfl rfl (pending_setFib hpending)

theorem move_wake (w : Option F) (hpending : pc.pending = (s.fib f).pc.pending) :
    Move s ((s.wake w).setPc f pc) := by
  obtain ⟨hbox, hnext, hsends, hreleased, hanswers⟩ := wake_rest s w
  refine .still (fun b => ?_) hnext hsends hreleased hanswers fun g => ?_
  · rw [setPc_box, hbox]
    exact sameBooks_self _
  · rw [State.setPc, pending_setFib (by rw [pending_wake]; exact hpending), pending_wake]

theorem move_without {op : Op} {b : B} (hpending : (s.fib f).pc.pending = some (op, b))
    (hside : op.side = .recv) : Move s (s.giveUp f op) :=
  .without (fun _ => sameBooks_self _) hside rfl rfl rfl rfl hpending (pending_setPc _ _ _)
    (elsewhere_setPc rfl)

theorem move_commit {op : Op} {b : B} (hpc : (s.fib f).pc = .busy op b .parking) : Move s (s.commit f op b) := by
  have hpending : (s.fib f).pc.pending = some (op, b) := by rw [hpc]; rfl
  unfold State.commit
  split
  · exact move_setFib hpending.symm
  · split <;> exact move_setFib hpending.symm

theorem move_unpark (s : State F B) (f : F) : Move s (s.unpark f) := by
  obtain ⟨hbox, hnext, hsends, hreleased, hanswers⟩ := wake_rest s (some f)
  refine .still (fun b => ?_) hnext hsends hreleased hanswers (pending_unpark s f)
  rw [unpark_box]
  exact sameBooks_self _

end

theorem sameBooks_setBox [DecidableEq B] {s : State F B} {b : B} {mb : Mbox F}
    (h : SameBooks (s.box b) mb) (c : B) : SameBooks (s.box c) ((s.setBox b mb).box c) := by
  by_cases hc : c = b
  · rw [hc, setBox_self]
    exact h
  · rw [setBox_of_ne s mb hc]
    exact sameBooks_self _

section

variable [DecidableEq F] [DecidableEq B] {s : State F B} {f : F} {b : B}

theorem move_setBox {mb : Mbox F} {pc : Pc F B} (h : SameBooks (s.box b) mb)
    (hpending : pc.pending = (s.fib f).pc.pending) : Move s ((s.setBox b mb).setPc f pc) :=
  .still (sameBooks_setBox h) rfl rfl rfl rfl (pending_setFib (s := s.setBox b mb) hpending)

theorem move_pushed {mb : Mbox F} {m : Nat} {w : Option F}
    (hpending : (s.fib f).pc.pending = some (.send m, b)) (h : Enqueues (s.box b) mb m) :
    Move s ((s.setBox b mb).setPc f (.busy (.send m) b (.wake w))) := by
  refine .enqueued (b := b) ?_ (fun c hc => setBox_of_ne s mb hc) rfl rfl rfl rfl hpending
    (pending_setPc _ _ _) (elsewhere_setPc rfl)
  rw [setPc_box, setBox_self]
  exact h

theorem move_dropped {mb : Mbox F} {m : Nat}
    (hpending : (s.fib f).pc.pending = some (.send m, b)) (h : SameBooks (s.box b) mb)
    (hfair : (s.box b).closed = true ∨ (s.box b).discards = true ∨ (s.fib f).due = true) :
    Move s (((s.release f b m).setBox b mb).setPc f .idle) := by
  refine .released (sameBooks_setBox h) rfl rfl rfl rfl ?_ hpending
    (pending_setPc _ _ _) (elsewhere_setPc rfl)
  rcases hfair with hclosed | hdiscards | hdue
  · exact .inl (by simp only [hclosed, Bool.true_or])
  · exact .inr (.inl hdiscards)
  · exact .inr (.inr hdue)

theorem move_received {op : Op} {got : Nat × Option F × Mbox F}
    (hpending : (s.fib f).pc.pending = some (op, b)) (hside : op.side = .recv)
    (h : Takes (s.box b) got.2.2 op.number got.1) : Move s (s.received f b op got) := by
  refine .taken (b := b) ?_ (fun c hc => setBox_of_ne _ _ hc) hside rfl rfl rfl rfl hpending
    (pending_setPc _ _ _) (elsewhere_setPc rfl)
  rw [State.received, setPc_box, setBox_self]
  exact h

theorem move_giveUp {mb : Mbox F} {op : Op} (hpending : (s.fib f).pc.pending = some (op, b))
    (hside : op.side = .recv) (h : SameBooks (s.box b) mb) :
    Move s ((s.setBox b mb).giveUp f op) :=
  .without (sameBooks_setBox h) hside rfl rfl rfl rfl hpending (pending_setPc _ _ _)
    (elsewhere_setPc rfl)

/-- The condition on a step: no send tries an open mailbox of a negative capacity that drops
its oldest. -/
def Sized (s : State F B) (f : F) (_ : State F B) : Prop :=
  ∀ b m, (s.fib f).pc = .busy (.send m) b .attempt → (s.box b).closed = false →
    (s.box b).overflow = .dropOldest → 0 ≤ (s.box b).cap

theorem move_sendSection {m : Nat} (hbooks : Books (s.box b))
    (hsized : (s.box b).closed = false → (s.box b).overflow = .dropOldest → 0 ≤ (s.box b).cap)
    (hpc : (s.fib f).pc = .busy (.send m) b .attempt) : Move s (s.sendSection f b m) := by
  have hpending : (s.fib f).pc.pending = some (.send m, b) := by rw [hpc]; rfl
  have hremove : SameBooks (s.box b) ((s.box b).waiterRemove .send f) := sameBooks_setWaiters _ _ _
  unfold State.sendSection
  have hcase := Mbox.reserves (s.box b) f m
  cases hsection : (s.box b).reserve f m with
  | crashed =>
      rw [hsection] at hcase
      cases hcase with
      | crashed _ hopen hoverflow hcap hfull hqueue =>
          -- a full mailbox of a positive capacity has an oldest message
          have hpos := hsized hopen hoverflow
          have hlen := hbooks.len
          rw [hqueue, List.length_nil] at hlen
          omega
  | dropped mb =>
      rw [hsection] at hcase
      cases hcase with
      | closed _ hclosed => exact move_dropped hpending hremove (.inl hclosed)
      | shut _ hclosed => exact move_dropped hpending (sameBooks_self _) (.inl hclosed)
      | discarded _ _ hdiscards =>
          exact move_dropped hpending (sameBooks_self _) (.inr (.inl hdiscards))
  | linked mb =>
      rw [hsection] at hcase
      cases hcase
      exact move_setBox (hremove.setWaiters _ _) hpending.symm
  | pushed w mb =>
      rw [hsection] at hcase
      cases hcase with
      | slot _ _ hless => exact move_pushed hpending (enqueues_append m hremove fun _ _ => hless)
      | room _ _ hroom =>
          refine move_pushed hpending (enqueues_append m (sameBooks_self _) fun hcap hoverflow => ?_)
          rcases hroom with hzero | hless | hunbounded | hneg
          · omega
          · exact hless
          · exact absurd hunbounded hoverflow
          · omega
      | evicted _ _ hoverflow hqueue => exact move_pushed hpending (enqueues_evict hoverflow hqueue)

theorem move_recvSection {op : Nat} (hpc : (s.fib f).pc = .busy (.recv op) b .attempt) :
    Move s (s.recvSection f b op) := by
  have hpending : (s.fib f).pc.pending = some (.recv op, b) := by rw [hpc]; rfl
  have hremove : SameBooks (s.box b) ((s.box b).waiterRemove .recv f) := sameBooks_setWaiters _ _ _
  unfold State.recvSection
  dsimp only
  split
  · next got htake => exact move_received hpending rfl (takes_take hremove htake)
  · exact move_setBox (hremove.setWaiters _ _) hpending.symm

theorem move_timedSection {op : Nat} (expired : Bool)
    (hpc : (s.fib f).pc = .busy (.recvTimeout op) b .attempt) :
    Move s (s.timedSection f b op expired) := by
  have hpending : (s.fib f).pc.pending = some (.recvTimeout op, b) := by rw [hpc]; rfl
  unfold State.timedSection
  split
  · next got htake => exact move_received hpending rfl (takes_take (sameBooks_self _) htake)
  · split
    · exact move_without hpending rfl
    · exact move_setBox (sameBooks_setWaiters _ _ _) hpending.symm

theorem move_timedResume {op : Nat} (hpc : (s.fib f).pc = .busy (.recvTimeout op) b .resumed) :
    Move s (s.timedResume f b op) := by
  have hpending : (s.fib f).pc.pending = some (.recvTimeout op, b) := by rw [hpc]; rfl
  have hremove : SameBooks (s.box b) ((s.box b).waiterRemove .recv f) := sameBooks_setWaiters _ _ _
  unfold State.timedResume
  dsimp only
  split
  · split
    · exact move_giveUp hpending rfl hremove
    · exact move_setBox hremove hpending.symm
  · split
    · next got htake => exact move_received hpending rfl (takes_take (sameBooks_self _) htake)
    · exact move_setFib hpending.symm

theorem move_leave {op : Op} (hpc : (s.fib f).pc = .busy op b .leaving) : Move s (s.leave f op b) := by
  have hpending : (s.fib f).pc.pending = some (op, b) := by rw [hpc]; rfl
  unfold State.leave
  cases op with
  | send m => exact move_setBox (sameBooks_setWaiters _ _ _) hpending.symm
  | recv _ => exact move_giveUp hpending rfl (sameBooks_setWaiters _ _ _)
  | recvTimeout _ => exact move_giveUp hpending rfl (sameBooks_setWaiters _ _ _)

theorem move_closeNext (hpc : (s.fib f).pc = .closing b none) : Move s (s.closeNext f b) := by
  have hpending : (s.fib f).pc.pending = none := by rw [hpc]; rfl
  unfold State.closeNext Mbox.waiterDequeue
  cases (s.box b).waiters .send with
  | nil => exact move_setFib hpending.symm
  | cons g gs => exact move_setBox (sameBooks_setWaiters _ _ _) hpending.symm

/-- A fiber that gives a send up has seen a cancel, which stays due until it is delivered. -/
def DueExits (s : State F B) : Prop :=
  ∀ f op b, (s.fib f).pc = .busy op b .leaving ∨ (s.fib f).pc = .busy op b .abandon →
    (s.fib f).due = true

theorem move_step {s' : State F B} (hbooks : ∀ b, Books (s.box b)) (hdue : DueExits s)
    (hsized : Sized s f s') (hstep : Step s f s') : Move s s' := by
  cases hstep with
  | @send b hpc _ =>
      exact .begins rfl rfl rfl rfl rfl rfl (by rw [hpc]; rfl) (pending_setPc s f _) (elsewhere_setPc rfl)
  | @sendEnded b hpc hended =>
      exact .refused rfl rfl rfl rfl rfl rfl (.inl (by simp [State.issue, hended]))
        (fun _ => rfl) (by rw [hpc]; rfl)
  | recv hpc _ =>
      exact .begins rfl rfl (List.append_nil _).symm rfl rfl rfl (by rw [hpc]; rfl)
        (pending_setPc s f _) (elsewhere_setPc rfl)
  | recvTimeout hpc _ =>
      exact .begins rfl rfl (List.append_nil _).symm rfl rfl rfl (by rw [hpc]; rfl)
        (pending_setPc s f _) (elsewhere_setPc rfl)
  | @sendSection b m hpc => exact move_sendSection (hbooks b) (hsized b m hpc) hpc
  | recvSection hpc => exact move_recvSection hpc
  | timedSection expired hpc => exact move_timedSection expired hpc
  | announce hpc _ => exact move_setFib (by rw [hpc]; rfl)
  | skip hpc _ => exact move_setFib (by rw [hpc]; rfl)
  | commit hpc => exact move_commit hpc
  | retry hpc _ _ => exact move_setFib (by rw [hpc]; rfl)
  | cancelSeen hpc _ _ => exact move_setFib (by rw [hpc]; rfl)
  | leave hpc => exact move_leave hpc
  | @abandon b m hpc =>
      exact .released (fun _ => sameBooks_self _) rfl rfl rfl rfl
        (.inr (.inr (hdue f _ b (.inr hpc)))) (by rw [hpc]; rfl) (pending_setPc _ _ _)
        (elsewhere_setPc rfl)
  | timedResume hpc => exact move_timedResume hpc
  | wake hpc => exact move_wake _ (by rw [hpc]; rfl)
  | @close b hpc _ =>
      exact move_setBox ⟨rfl, rfl, rfl, rfl, rfl, rfl, rfl⟩ (by rw [hpc]; rfl)
  | @closeSection b hpc =>
      refine .ended (b := b) ?_ (fun c hc => setBox_of_ne s _ hc) rfl rfl rfl rfl
        (pending_setFib (s := s.setBox b _) (by rw [setBox_fib, hpc]; rfl))
      rw [setPc_box, setBox_self]
      exact ends_close _
  | closeNext hpc => exact move_closeNext hpc
  | @closeWake b g hpc => exact move_wake (some g) (by rw [hpc]; rfl)
  | cancel => exact move_setFib rfl
  | fire =>
      obtain ⟨hbox, hnext, hsends, hreleased, hanswers⟩ :=
        wake_rest (s.setFib f { s.fib f with fired := true }) (some f)
      refine .still (fun b => ?_) hnext hsends hreleased hanswers fun g => ?_
      · rw [unpark_box]
        exact sameBooks_self _
      · exact (pending_unpark _ f g).trans (pending_setFib (by rfl) g)
  | stray => exact move_unpark s f
  | deliver _ => exact move_setFib rfl
  | finish hpc => exact move_setFib (by rw [hpc]; rfl)

end

end Kaikai.Mailbox
