import Kaikai.Mailbox
import Mathlib.Data.List.Nodup

namespace Kaikai.Mailbox

variable {F B : Type}

/-- The operation whose outcome is open. -/
def Pc.pending : Pc F B → Option (Op × B)
  | .busy _ _ (.wake _) => none
  | .busy op b _ => some (op, b)
  | _ => none

/-- One queue with one history. -/
structure SameBooks (mb mb' : Mbox F) : Prop where
  queue : mb'.queue = mb.queue
  len : mb'.len = mb.len
  cap : mb'.cap = mb.cap
  overflow : mb'.overflow = mb.overflow
  sent : mb'.sent = mb.sent
  gone : mb'.gone = mb.gone
  closed : mb'.closed = mb.closed

theorem sameBooks_self (mb : Mbox F) : SameBooks mb mb := ⟨rfl, rfl, rfl, rfl, rfl, rfl, rfl⟩

/-- A message comes in, perhaps in place of the oldest. -/
structure Enqueues (mb mb' : Mbox F) (m : Nat) : Prop where
  sent : mb'.sent = mb.sent ++ [m]
  moved : mb'.gone.map Prod.fst ++ mb'.queue = mb.gone.map Prod.fst ++ mb.queue ++ [m]
  kept : ∀ m' op, (m', Fate.received op) ∈ mb'.gone ↔ (m', Fate.received op) ∈ mb.gone
  fates : ∀ p ∈ mb'.gone, p ∈ mb.gone ∨ p.2 = .evicted ∧ mb.overflow = .dropOldest
  closed : mb'.closed = mb.closed
  len : mb.len = mb.queue.length → mb'.len = mb'.queue.length
  cap : mb'.cap = mb.cap
  overflow : mb'.overflow = mb.overflow
  bounded : 0 < mb.cap → mb.overflow ≠ .unbounded → mb.len ≤ mb.cap → mb'.len ≤ mb.cap

/-- The oldest message goes to an operation. -/
structure Takes (mb mb' : Mbox F) (op m : Nat) : Prop where
  sent : mb'.sent = mb.sent
  queue : mb.queue = m :: mb'.queue
  gone : mb'.gone = mb.gone ++ [(m, .received op)]
  len : mb'.len = mb.len - 1
  cap : mb'.cap = mb.cap
  overflow : mb'.overflow = mb.overflow
  closed : mb'.closed = mb.closed

/-- The rest of the queue is discarded. -/
structure Ends (mb mb' : Mbox F) : Prop where
  sent : mb'.sent = mb.sent
  queue : mb'.queue = []
  gone : mb'.gone = mb.gone ++ mb.queue.map fun m => (m, .discarded)
  len : mb'.len = 0
  cap : mb'.cap = mb.cap
  overflow : mb'.overflow = mb.overflow
  closed : mb'.closed = true

def Release.Fair (r : Release) : Prop := r.closed = true ∨ r.discards = true ∨ r.due = true

/-- The open operations, but for that of `f`. -/
def Elsewhere (s s' : State F B) (f : F) : Prop :=
  ∀ g, g ≠ f → (s'.fib g).pc.pending = (s.fib g).pc.pending

/-- What a step does to the books. -/
inductive Move (s s' : State F B) : Prop
  | still : (∀ b, SameBooks (s.box b) (s'.box b)) → s'.nextOp = s.nextOp → s'.sends = s.sends →
      s'.released = s.released → s'.answers = s.answers →
      (∀ g, (s'.fib g).pc.pending = (s.fib g).pc.pending) → Move s s'
  | begins {f : F} {op : Op} {b : B} : s'.box = s.box → s'.nextOp = s.nextOp + 1 →
      s'.sends = s.sends ++ (if op.side = .send then [(s.nextOp, f, b)] else []) →
      s'.released = s.released → s'.answers = s.answers → op.number = s.nextOp →
      (s.fib f).pc.pending = none → (s'.fib f).pc.pending = some (op, b) → Elsewhere s s' f →
      Move s s'
  | refused {f : F} {b : B} {r : Release} : s'.box = s.box → s'.nextOp = s.nextOp + 1 →
      s'.sends = s.sends ++ [(s.nextOp, f, b)] → s'.released = s.released ++ [(b, r)] →
      s'.answers = s.answers → r.op = s.nextOp → r.Fair →
      (∀ g, (s'.fib g).pc.pending = (s.fib g).pc.pending) → (s.fib f).pc.pending = none →
      Move s s'
  | enqueued {f : F} {b : B} {m : Nat} : Enqueues (s.box b) (s'.box b) m →
      (∀ c, c ≠ b → s'.box c = s.box c) → s'.nextOp = s.nextOp → s'.sends = s.sends →
      s'.released = s.released → s'.answers = s.answers →
      (s.fib f).pc.pending = some (.send m, b) → (s'.fib f).pc.pending = none →
      Elsewhere s s' f → Move s s'
  | released {f : F} {b : B} {r : Release} : (∀ c, SameBooks (s.box c) (s'.box c)) →
      s'.nextOp = s.nextOp → s'.sends = s.sends → s'.released = s.released ++ [(b, r)] →
      s'.answers = s.answers → r.Fair → (s.fib f).pc.pending = some (.send r.op, b) →
      (s'.fib f).pc.pending = none → Elsewhere s s' f → Move s s'
  | taken {f : F} {op : Op} {b : B} {m : Nat} : Takes (s.box b) (s'.box b) op.number m →
      (∀ c, c ≠ b → s'.box c = s.box c) → op.side = .recv → s'.nextOp = s.nextOp →
      s'.sends = s.sends → s'.released = s.released →
      s'.answers = s.answers ++ [(op.number, some m)] → (s.fib f).pc.pending = some (op, b) →
      (s'.fib f).pc.pending = none → Elsewhere s s' f → Move s s'
  | without {f : F} {op : Op} {b : B} : (∀ c, SameBooks (s.box c) (s'.box c)) →
      op.side = .recv → s'.nextOp = s.nextOp → s'.sends = s.sends → s'.released = s.released →
      s'.answers = s.answers ++ [(op.number, none)] → (s.fib f).pc.pending = some (op, b) →
      (s'.fib f).pc.pending = none → Elsewhere s s' f → Move s s'
  | ended {b : B} : Ends (s.box b) (s'.box b) → (∀ c, c ≠ b → s'.box c = s.box c) →
      s'.nextOp = s.nextOp → s'.sends = s.sends → s'.released = s.released →
      s'.answers = s.answers → (∀ g, (s'.fib g).pc.pending = (s.fib g).pc.pending) → Move s s'

/-- The books of a mailbox: messages leave in the order they came, each at the head of the
queue, and one that nobody received was evicted by the policy or discarded at the end. -/
structure Books (mb : Mbox F) : Prop where
  order : mb.sent = mb.gone.map Prod.fst ++ mb.queue
  fates : ∀ p ∈ mb.gone, (p.2 = .evicted → mb.overflow = .dropOldest) ∧
    (p.2 = .discarded → mb.closed = true)
  len : mb.len = mb.queue.length
  bounded : 0 < mb.cap → mb.overflow ≠ .unbounded → mb.len ≤ mb.cap

theorem Books.same {mb mb' : Mbox F} (h : Books mb) (hsame : SameBooks mb mb') : Books mb' where
  order := by rw [hsame.sent, hsame.gone, hsame.queue, h.order]
  fates := by
    rw [hsame.gone, hsame.overflow, hsame.closed]
    exact h.fates
  len := by rw [hsame.len, hsame.queue, h.len]
  bounded := by
    rw [hsame.cap, hsame.overflow, hsame.len]
    exact h.bounded

theorem Books.enqueues {mb mb' : Mbox F} {m : Nat} (h : Books mb) (hin : Enqueues mb mb' m) :
    Books mb' where
  order := by rw [hin.sent, hin.moved, h.order]
  fates p hp := by
    rw [hin.overflow, hin.closed]
    rcases hin.fates p hp with hold | ⟨hevicted, hpolicy⟩
    · exact h.fates p hold
    · exact ⟨fun _ => hpolicy, fun hdiscarded => by rw [hevicted] at hdiscarded; cases hdiscarded⟩
  len := hin.len h.len
  bounded hcap hoverflow := by
    rw [hin.cap] at hcap ⊢
    rw [hin.overflow] at hoverflow
    exact hin.bounded hcap hoverflow (h.bounded hcap hoverflow)

theorem Books.takes {mb mb' : Mbox F} {op m : Nat} (h : Books mb) (hout : Takes mb mb' op m) :
    Books mb' where
  order := by
    rw [hout.sent, h.order, hout.gone, hout.queue, List.map_append, List.append_assoc]
    rfl
  fates p hp := by
    rw [hout.overflow, hout.closed]
    rw [hout.gone] at hp
    rcases List.mem_append.1 hp with hold | hnew
    · exact h.fates p hold
    · rw [List.mem_singleton.1 hnew]
      exact ⟨nofun, nofun⟩
  len := by
    rw [hout.len, h.len, hout.queue, List.length_cons]
    omega
  bounded hcap hoverflow := by
    rw [hout.cap] at hcap ⊢
    rw [hout.overflow] at hoverflow
    have hold := h.bounded hcap hoverflow
    rw [hout.len]
    omega

theorem Books.ends {mb mb' : Mbox F} (h : Books mb) (hend : Ends mb mb') : Books mb' where
  order := by
    rw [hend.sent, h.order, hend.gone, hend.queue, List.map_append, List.map_map, List.append_nil]
    congr 1
    exact (List.map_id _).symm
  fates p hp := by
    rw [hend.overflow]
    rw [hend.gone] at hp
    rcases List.mem_append.1 hp with hold | hnew
    · exact ⟨(h.fates p hold).1, fun _ => hend.closed⟩
    · obtain ⟨m, -, rfl⟩ := List.mem_map.1 hnew
      exact ⟨nofun, fun _ => hend.closed⟩
  len := by rw [hend.len, hend.queue]; rfl
  bounded hcap _ := by
    rw [hend.cap] at hcap ⊢
    rw [hend.len]
    omega

theorem Move.books {s s' : State F B} (hmove : Move s s') (h : ∀ b, Books (s.box b)) (b : B) :
    Books (s'.box b) := by
  cases hmove with
  | still hbox => exact (h b).same (hbox b)
  | begins hbox => rw [hbox]; exact h b
  | refused hbox => rw [hbox]; exact h b
  | @enqueued _ c _ hin hbox =>
      by_cases hb : b = c
      · rw [hb]
        exact (h c).enqueues hin
      · rw [hbox b hb]
        exact h b
  | released hbox => exact (h b).same (hbox b)
  | @taken _ _ c _ hout hbox =>
      by_cases hb : b = c
      · rw [hb]
        exact (h c).takes hout
      · rw [hbox b hb]
        exact h b
  | without hbox => exact (h b).same (hbox b)
  | @ended c hend hbox =>
      by_cases hb : b = c
      · rw [hb]
        exact (h c).ends hend
      · rw [hbox b hb]
        exact h b

end Kaikai.Mailbox
