import Kaikai.MailboxMoves

namespace Kaikai.Mailbox

variable {F B : Type}

/-- The send is still at work. -/
def Opened (s : State F B) (m : Nat) (f : F) (b : B) : Prop :=
  (s.fib f).pc.pending = some (.send m, b)

def Queued (s : State F B) (m : Nat) (b : B) : Prop := m ∈ (s.box b).sent

def GivenUp (s : State F B) (m : Nat) (b : B) : Prop := ∃ p ∈ s.released, p.1 = b ∧ p.2.op = m

/-- The sends of a state. -/
structure Sends (s : State F B) : Prop where
  below : ∀ p ∈ s.sends, p.1 < s.nextOp
  once : (s.sends.map Prod.fst).Nodup
  opened : ∀ m f b, Opened s m f b →
    (m, f, b) ∈ s.sends ∧ (∀ c, ¬Queued s m c) ∧ ∀ c, ¬GivenUp s m c
  latest : ∀ m f b, Opened s m f b → ∀ p ∈ s.sends, p.2.1 = f → p.1 ≤ m
  settled : ∀ m f b, (m, f, b) ∈ s.sends → Opened s m f b ∨ Queued s m b ∨ GivenUp s m b
  queued : ∀ m b, Queued s m b → (∃ f, (m, f, b) ∈ s.sends) ∧ ∀ c, ¬GivenUp s m c
  given : ∀ m b, GivenUp s m b → ∃ f, (m, f, b) ∈ s.sends
  fair : ∀ p ∈ s.released, p.2.Fair
  queuedOnce : ∀ b, (s.box b).sent.Nodup
  givenOnce : (s.released.map fun p => p.2.op).Nodup
  order : ∀ b, (s.box b).sent.Pairwise fun m m' =>
    ∀ f, (m, f, b) ∈ s.sends → (m', f, b) ∈ s.sends → m < m'

section

variable {s s' : State F B} {f : F} {b : B} {m : Nat}

theorem Sends.unique (h : Sends s) {g : F} {c : B} (hf : (m, f, b) ∈ s.sends)
    (hg : (m, g, c) ∈ s.sends) : f = g ∧ b = c := by
  have heq := List.inj_on_of_nodup_map h.once hf hg rfl
  cases heq
  exact ⟨rfl, rfl⟩

theorem Sends.queued_below (h : Sends s) (hq : Queued s m b) : m < s.nextOp := by
  obtain ⟨⟨f, hf⟩, -⟩ := h.queued m b hq
  exact h.below _ hf

theorem Sends.given_below (h : Sends s) (hg : GivenUp s m b) : m < s.nextOp := by
  obtain ⟨f, hf⟩ := h.given m b hg
  exact h.below _ hf

theorem queued_congr (hsent : (s'.box b).sent = (s.box b).sent) : Queued s' m b ↔ Queued s m b := by
  rw [Queued, Queued, hsent]

theorem given_congr (hreleased : s'.released = s.released) : GivenUp s' m b ↔ GivenUp s m b := by
  rw [GivenUp, GivenUp, hreleased]

theorem given_append {r : Release} {c : B} (hreleased : s'.released = s.released ++ [(c, r)]) :
    GivenUp s' m b ↔ GivenUp s m b ∨ c = b ∧ r.op = m := by
  rw [GivenUp, GivenUp, hreleased]
  constructor
  · rintro ⟨p, hp, hb, hm⟩
    rcases List.mem_append.1 hp with hold | hnew
    · exact .inl ⟨p, hold, hb, hm⟩
    · rw [List.mem_singleton.1 hnew] at hb hm
      exact .inr ⟨hb, hm⟩
  · rintro (⟨p, hp, hb, hm⟩ | ⟨hb, hm⟩)
    · exact ⟨p, List.mem_append_left _ hp, hb, hm⟩
    · exact ⟨(c, r), List.mem_append_right _ (List.mem_singleton_self _), hb, hm⟩

theorem Sends.same (h : Sends s) (hnext : s.nextOp ≤ s'.nextOp) (hsends : s'.sends = s.sends)
    (hreleased : s'.released = s.released) (hsent : ∀ b, (s'.box b).sent = (s.box b).sent)
    (hopened : ∀ m f b, Opened s' m f b ↔ Opened s m f b) : Sends s' := by
  constructor
  · rw [hsends]
    exact fun p hp => (h.below p hp).trans_le hnext
  · rw [hsends]
    exact h.once
  · intro m f b hopen
    rw [hsends]
    simp only [queued_congr (hsent _), given_congr hreleased]
    exact h.opened m f b ((hopened m f b).1 hopen)
  · intro m f b hopen
    rw [hsends]
    exact h.latest m f b ((hopened m f b).1 hopen)
  · intro m f b hin
    rw [hsends] at hin
    rw [hopened, queued_congr (hsent b), given_congr hreleased]
    exact h.settled m f b hin
  · intro m b hq
    rw [hsends]
    simp only [given_congr hreleased]
    exact h.queued m b ((queued_congr (hsent b)).1 hq)
  · intro m b hg
    rw [hsends]
    exact h.given m b ((given_congr hreleased).1 hg)
  · rw [hreleased]
    exact h.fair
  · intro b
    rw [hsent]
    exact h.queuedOnce b
  · rw [hreleased]
    exact h.givenOnce
  · intro b
    rw [hsent, hsends]
    exact h.order b

theorem Sends.fresh (h : Sends s) : s.nextOp ∉ s.sends.map Prod.fst := by
  intro hin
  obtain ⟨p, hp, heq⟩ := List.mem_map.1 hin
  exact absurd (h.below p hp) (by omega)

theorem Sends.once_snoc (h : Sends s) : ((s.sends ++ [(s.nextOp, f, b)]).map Prod.fst).Nodup := by
  rw [List.map_append, List.map_singleton, ← List.concat_eq_append]
  exact List.Nodup.concat h.fresh h.once

theorem Sends.below_snoc (h : Sends s) :
    ∀ p ∈ s.sends ++ [(s.nextOp, f, b)], p.1 < s.nextOp + 1 := by
  intro p hp
  rw [List.mem_append, List.mem_singleton] at hp
  rcases hp with hold | rfl
  · exact (h.below p hold).trans (Nat.lt_succ_self _)
  · exact Nat.lt_succ_self _

theorem Sends.order_snoc (h : Sends s) (c : B) : (s.box c).sent.Pairwise fun m m' =>
    ∀ g, (m, g, c) ∈ s.sends ++ [(s.nextOp, f, b)] →
      (m', g, c) ∈ s.sends ++ [(s.nextOp, f, b)] → m < m' := by
  have hold {m : Nat} {g : F} (hq : Queued s m c) (hin : (m, g, c) ∈ s.sends ++ [(s.nextOp, f, b)]) :
      (m, g, c) ∈ s.sends := by
    rw [List.mem_append, List.mem_singleton] at hin
    rcases hin with hin | heq
    · exact hin
    · cases heq
      exact absurd (h.queued_below hq) (Nat.lt_irrefl _)
  refine (h.order c).imp_of_mem fun hm hm' hord g hin hin' => ?_
  exact hord g (hold hm hin) (hold hm' hin')

theorem opened_elsewhere {g : F} (helse : Elsewhere s s' f) (hg : g ≠ f) :
    Opened s' m g b ↔ Opened s m g b := by rw [Opened, Opened, helse g hg]

theorem Sends.begins (h : Sends s) (hbox : s'.box = s.box) (hnext : s'.nextOp = s.nextOp + 1)
    (hsends : s'.sends = s.sends ++ [(s.nextOp, f, b)]) (hreleased : s'.released = s.released)
    (hidle : (s.fib f).pc.pending = none)
    (hpending : (s'.fib f).pc.pending = some (.send s.nextOp, b)) (helse : Elsewhere s s' f) :
    Sends s' := by
  have hqueued (m : Nat) (c : B) : Queued s' m c ↔ Queued s m c := queued_congr (by rw [hbox])
  have hgiven (m : Nat) (c : B) : GivenUp s' m c ↔ GivenUp s m c := given_congr hreleased
  have hopened {m : Nat} {g : F} {c : B} (hopen : Opened s' m g c) :
      (g = f ∧ m = s.nextOp ∧ c = b) ∨ (g ≠ f ∧ Opened s m g c) := by
    by_cases hg : g = f
    · subst hg
      rw [Opened, hpending] at hopen
      cases hopen
      exact .inl ⟨rfl, rfl, rfl⟩
    · exact .inr ⟨hg, (opened_elsewhere helse hg).1 hopen⟩
  constructor
  · rw [hsends, hnext]
    exact h.below_snoc
  · rw [hsends]
    exact h.once_snoc
  · intro m g c hopen
    simp only [hqueued, hgiven, hsends]
    rcases hopened hopen with ⟨rfl, rfl, rfl⟩ | ⟨-, hold⟩
    · exact ⟨List.mem_concat_self, fun d hq => Nat.lt_irrefl _ (h.queued_below hq),
        fun d hg => Nat.lt_irrefl _ (h.given_below hg)⟩
    · obtain ⟨hin, hrest⟩ := h.opened m g c hold
      exact ⟨List.mem_append_left _ hin, hrest⟩
  · intro m g c hopen p hp hsender
    rw [hsends] at hp
    rcases hopened hopen with ⟨rfl, rfl, rfl⟩ | ⟨hg, hold⟩
    · rw [List.mem_append, List.mem_singleton] at hp
      rcases hp with hp | rfl
      · exact (h.below p hp).le
      · exact le_rfl
    · rw [List.mem_append, List.mem_singleton] at hp
      rcases hp with hp | rfl
      · exact h.latest m g c hold p hp hsender
      · exact absurd hsender.symm hg
  · intro m g c hin
    rw [hsends] at hin
    rw [hqueued, hgiven]
    rw [List.mem_append, List.mem_singleton] at hin
    rcases hin with hin | heq
    · rcases h.settled m g c hin with hopen | hrest
      · by_cases hg : g = f
        · rw [Opened, hg, hidle] at hopen
          cases hopen
        · exact .inl ((opened_elsewhere helse hg).2 hopen)
      · exact .inr hrest
    · cases heq
      exact .inl hpending
  · intro m c hq
    simp only [hgiven, hsends]
    obtain ⟨⟨g, hin⟩, hrest⟩ := h.queued m c ((hqueued m c).1 hq)
    exact ⟨⟨g, List.mem_append_left _ hin⟩, hrest⟩
  · intro m c hg
    rw [hsends]
    obtain ⟨g, hin⟩ := h.given m c ((hgiven m c).1 hg)
    exact ⟨g, List.mem_append_left _ hin⟩
  · rw [hreleased]
    exact h.fair
  · rw [hbox]
    exact h.queuedOnce
  · rw [hreleased]
    exact h.givenOnce
  · rw [hbox, hsends]
    exact h.order_snoc

theorem Sends.refused (h : Sends s) {r : Release} (hbox : s'.box = s.box)
    (hnext : s'.nextOp = s.nextOp + 1) (hsends : s'.sends = s.sends ++ [(s.nextOp, f, b)])
    (hreleased : s'.released = s.released ++ [(b, r)]) (hop : r.op = s.nextOp) (hfair : r.Fair)
    (hpending : ∀ g, (s'.fib g).pc.pending = (s.fib g).pc.pending)
    (hidle : (s.fib f).pc.pending = none) : Sends s' := by
  have hqueued (m : Nat) (c : B) : Queued s' m c ↔ Queued s m c := queued_congr (by rw [hbox])
  have hgiven (m : Nat) (c : B) : GivenUp s' m c ↔ GivenUp s m c ∨ b = c ∧ r.op = m :=
    given_append hreleased
  have hopened (m : Nat) (g : F) (c : B) : Opened s' m g c ↔ Opened s m g c := by
    rw [Opened, Opened, hpending]
  constructor
  · rw [hsends, hnext]
    exact h.below_snoc
  · rw [hsends]
    exact h.once_snoc
  · intro m g c hopen
    obtain ⟨hin, hq, hg⟩ := h.opened m g c ((hopened m g c).1 hopen)
    rw [hsends]
    refine ⟨List.mem_append_left _ hin, fun d hd => hq d ((hqueued m d).1 hd), fun d hd => ?_⟩
    rcases (hgiven m d).1 hd with hd | ⟨-, heq⟩
    · exact hg d hd
    · have hless := h.below _ hin
      rw [← heq, hop] at hless
      exact Nat.lt_irrefl _ hless
  · intro m g c hopen p hp hsender
    have hold := (hopened m g c).1 hopen
    rw [hsends] at hp
    rw [List.mem_append, List.mem_singleton] at hp
    rcases hp with hp | rfl
    · exact h.latest m g c hold p hp hsender
    · rw [Opened, ← hsender, hidle] at hold
      cases hold
  · intro m g c hin
    rw [hsends] at hin
    rw [hqueued, hgiven, hopened]
    rw [List.mem_append, List.mem_singleton] at hin
    rcases hin with hin | heq
    · exact (h.settled m g c hin).imp_right fun hrest => hrest.imp_right .inl
    · cases heq
      exact .inr (.inr (.inr ⟨rfl, hop⟩))
  · intro m c hq
    have hold := (hqueued m c).1 hq
    obtain ⟨⟨g, hin⟩, hrest⟩ := h.queued m c hold
    rw [hsends]
    refine ⟨⟨g, List.mem_append_left _ hin⟩, fun d hd => ?_⟩
    rcases (hgiven m d).1 hd with hd | ⟨-, heq⟩
    · exact hrest d hd
    · have hless := h.queued_below hold
      rw [← heq, hop] at hless
      exact Nat.lt_irrefl _ hless
  · intro m c hg
    rw [hsends]
    rcases (hgiven m c).1 hg with hg | ⟨rfl, heq⟩
    · obtain ⟨g, hin⟩ := h.given m c hg
      exact ⟨g, List.mem_append_left _ hin⟩
    · rw [hop] at heq
      exact ⟨f, List.mem_append_right _ (List.mem_singleton.2 (by rw [heq]))⟩
  · intro p hp
    rw [hreleased] at hp
    rw [List.mem_append, List.mem_singleton] at hp
    rcases hp with hp | rfl
    · exact h.fair p hp
    · exact hfair
  · rw [hbox]
    exact h.queuedOnce
  · rw [hreleased, List.map_append, List.map_singleton, ← List.concat_eq_append]
    refine List.Nodup.concat (fun hin => ?_) h.givenOnce
    obtain ⟨p, hp, heq⟩ := List.mem_map.1 hin
    have hless : p.2.op < s.nextOp := h.given_below ⟨p, hp, rfl, rfl⟩
    exact absurd (heq.trans hop) (Nat.ne_of_lt hless)
  · rw [hbox, hsends]
    exact h.order_snoc

theorem opened_of_closed {g : F} {c : B} (helse : Elsewhere s s' f)
    (hclosed : (s'.fib f).pc.pending = none) (hopen : Opened s' m g c) : g ≠ f ∧ Opened s m g c := by
  have hg : g ≠ f := by
    rintro rfl
    rw [Opened, hclosed] at hopen
    cases hopen
  exact ⟨hg, (opened_elsewhere helse hg).1 hopen⟩

theorem Sends.apart (h : Sends s) {g : F} {c : B} (hf : Opened s m f b) (hg : Opened s m g c) :
    f = g := (h.unique (h.opened m f b hf).1 (h.opened m g c hg).1).1

theorem Sends.enqueued (h : Sends s) (hin : Enqueues (s.box b) (s'.box b) m)
    (hbox : ∀ c, c ≠ b → s'.box c = s.box c) (hnext : s'.nextOp = s.nextOp)
    (hsends : s'.sends = s.sends) (hreleased : s'.released = s.released)
    (hpending : Opened s m f b) (hclosed : (s'.fib f).pc.pending = none)
    (helse : Elsewhere s s' f) : Sends s' := by
  have hgiven (m' : Nat) (c : B) : GivenUp s' m' c ↔ GivenUp s m' c := given_congr hreleased
  have hqueued (m' : Nat) (c : B) : Queued s' m' c ↔ Queued s m' c ∨ c = b ∧ m' = m := by
    by_cases hc : c = b
    · rw [Queued, Queued, hc, hin.sent, List.mem_append, List.mem_singleton]
      simp only [true_and]
    · rw [Queued, Queued, hbox c hc]
      simp only [hc, false_and, or_false]
  obtain ⟨hsent, hnew, hkept⟩ := h.opened m f b hpending
  constructor
  · rw [hsends, hnext]
    exact h.below
  · rw [hsends]
    exact h.once
  · intro m' g c hopen
    obtain ⟨hg, hold⟩ := opened_of_closed helse hclosed hopen
    obtain ⟨hin', hq, hrest⟩ := h.opened m' g c hold
    rw [hsends]
    simp only [hgiven]
    refine ⟨hin', fun d hd => ?_, hrest⟩
    rcases (hqueued m' d).1 hd with hd | ⟨-, rfl⟩
    · exact hq d hd
    · exact hg (h.apart hold hpending)
  · intro m' g c hopen
    rw [hsends]
    exact h.latest m' g c (opened_of_closed helse hclosed hopen).2
  · intro m' g c hin'
    rw [hsends] at hin'
    rw [hqueued, hgiven]
    rcases h.settled m' g c hin' with hopen | hq | hg
    · by_cases hg : g = f
      · rw [Opened, hg, hpending] at hopen
        cases hopen
        exact .inr (.inl (.inr ⟨rfl, rfl⟩))
      · exact .inl ((opened_elsewhere helse hg).2 hopen)
    · exact .inr (.inl (.inl hq))
    · exact .inr (.inr hg)
  · intro m' c hq
    rw [hsends]
    simp only [hgiven]
    rcases (hqueued m' c).1 hq with hq | ⟨rfl, rfl⟩
    · exact h.queued m' c hq
    · exact ⟨⟨f, hsent⟩, hkept⟩
  · intro m' c hg
    rw [hsends]
    exact h.given m' c ((hgiven m' c).1 hg)
  · rw [hreleased]
    exact h.fair
  · intro c
    by_cases hc : c = b
    · rw [hc, hin.sent]
      rw [← List.concat_eq_append]
      exact List.Nodup.concat (hnew b) (h.queuedOnce b)
    · rw [hbox c hc]
      exact h.queuedOnce c
  · rw [hreleased]
    exact h.givenOnce
  · intro c
    rw [hsends]
    by_cases hc : c = b
    · rw [hc, hin.sent, List.pairwise_append]
      refine ⟨h.order b, List.pairwise_singleton _ _, fun m' hm' x hx g hg hg' => ?_⟩
      -- the newest message of its sender has the greatest number
      rw [List.mem_singleton.1 hx] at hg' ⊢
      obtain ⟨rfl, -⟩ := h.unique hsent hg'
      refine (h.latest m f b hpending _ hg rfl).lt_of_ne ?_
      rintro rfl
      exact hnew b hm'
    · rw [hbox c hc]
      exact h.order c

theorem Sends.released (h : Sends s) {r : Release} (hbox : ∀ c, SameBooks (s.box c) (s'.box c))
    (hnext : s'.nextOp = s.nextOp) (hsends : s'.sends = s.sends)
    (hreleased : s'.released = s.released ++ [(b, r)]) (hfair : r.Fair)
    (hpending : Opened s r.op f b) (hclosed : (s'.fib f).pc.pending = none)
    (helse : Elsewhere s s' f) : Sends s' := by
  have hqueued (m : Nat) (c : B) : Queued s' m c ↔ Queued s m c := queued_congr (hbox c).sent
  have hgiven (m : Nat) (c : B) : GivenUp s' m c ↔ GivenUp s m c ∨ b = c ∧ r.op = m :=
    given_append hreleased
  obtain ⟨hsent, hnew, hkept⟩ := h.opened r.op f b hpending
  constructor
  · rw [hsends, hnext]
    exact h.below
  · rw [hsends]
    exact h.once
  · intro m g c hopen
    obtain ⟨hg, hold⟩ := opened_of_closed helse hclosed hopen
    obtain ⟨hin, hq, hrest⟩ := h.opened m g c hold
    rw [hsends]
    simp only [hqueued]
    refine ⟨hin, hq, fun d hd => ?_⟩
    rcases (hgiven m d).1 hd with hd | ⟨-, rfl⟩
    · exact hrest d hd
    · exact hg (h.apart hold hpending)
  · intro m g c hopen
    rw [hsends]
    exact h.latest m g c (opened_of_closed helse hclosed hopen).2
  · intro m g c hin
    rw [hsends] at hin
    rw [hqueued, hgiven]
    rcases h.settled m g c hin with hopen | hq | hg
    · by_cases hg : g = f
      · rw [Opened, hg, hpending] at hopen
        cases hopen
        exact .inr (.inr (.inr ⟨rfl, rfl⟩))
      · exact .inl ((opened_elsewhere helse hg).2 hopen)
    · exact .inr (.inl hq)
    · exact .inr (.inr (.inl hg))
  · intro m c hq
    have hold := (hqueued m c).1 hq
    obtain ⟨hin, hrest⟩ := h.queued m c hold
    rw [hsends]
    refine ⟨hin, fun d hd => ?_⟩
    rcases (hgiven m d).1 hd with hd | ⟨-, rfl⟩
    · exact hrest d hd
    · exact hnew c hold
  · intro m c hg
    rw [hsends]
    rcases (hgiven m c).1 hg with hg | ⟨rfl, rfl⟩
    · exact h.given m c hg
    · exact ⟨f, hsent⟩
  · intro p hp
    rw [hreleased] at hp
    rw [List.mem_append, List.mem_singleton] at hp
    rcases hp with hp | rfl
    · exact h.fair p hp
    · exact hfair
  · intro c
    rw [(hbox c).sent]
    exact h.queuedOnce c
  · rw [hreleased, List.map_append, List.map_singleton, ← List.concat_eq_append]
    refine List.Nodup.concat (fun hin => ?_) h.givenOnce
    obtain ⟨p, hp, heq⟩ := List.mem_map.1 hin
    exact hkept p.1 ⟨p, hp, rfl, heq⟩
  · intro c
    rw [(hbox c).sent, hsends]
    exact h.order c

end

section

variable {s s' : State F B}

theorem opened_iff {f : F} (helse : Elsewhere s s' f)
    (hold : ∀ m b, (s.fib f).pc.pending ≠ some (.send m, b))
    (hnew : ∀ m b, (s'.fib f).pc.pending ≠ some (.send m, b)) (m : Nat) (g : F) (b : B) :
    Opened s' m g b ↔ Opened s m g b := by
  by_cases hg : g = f
  · rw [hg]
    exact ⟨fun h => absurd h (hnew m b), fun h => absurd h (hold m b)⟩
  · exact opened_elsewhere helse hg

theorem ne_send_of_recv {op : Op} {b : B} {pending : Option (Op × B)} (h : pending = some (op, b))
    (hside : op.side = .recv) (m : Nat) (c : B) : pending ≠ some (.send m, c) := by
  rw [h]
  rintro heq
  cases heq
  cases hside

theorem ne_send_of_none {pending : Option (Op × B)} (h : pending = none) (m : Nat) (c : B) :
    pending ≠ some (.send m, c) := by
  rw [h]
  exact nofun

theorem Move.sends (hmove : Move s s') (h : Sends s) : Sends s' := by
  cases hmove with
  | still hbox hnext hsends hreleased _ hpending =>
      exact h.same hnext.ge hsends hreleased (fun b => (hbox b).sent) fun m f b => by
        rw [Opened, Opened, hpending]
  | @begins f op b hbox hnext hsends hreleased _ hop hidle hpending helse =>
      cases op with
      | send m =>
          cases (show m = s.nextOp from hop)
          exact h.begins hbox hnext hsends hreleased hidle hpending helse
      | recv op =>
          exact h.same (hnext ▸ Nat.le_succ _) (hsends.trans (List.append_nil _)) hreleased
            (fun b => by rw [hbox]) (opened_iff helse (ne_send_of_none hidle)
              (ne_send_of_recv hpending rfl))
      | recvTimeout op =>
          exact h.same (hnext ▸ Nat.le_succ _) (hsends.trans (List.append_nil _)) hreleased
            (fun b => by rw [hbox]) (opened_iff helse (ne_send_of_none hidle)
              (ne_send_of_recv hpending rfl))
  | refused hbox hnext hsends hreleased _ hop hfair hpending hidle =>
      exact h.refused hbox hnext hsends hreleased hop hfair hpending hidle
  | enqueued hin hbox hnext hsends hreleased _ hpending hclosed helse =>
      exact h.enqueued hin hbox hnext hsends hreleased hpending hclosed helse
  | released hbox hnext hsends hreleased _ hfair hpending hclosed helse =>
      exact h.released hbox hnext hsends hreleased hfair hpending hclosed helse
  | @taken f op c m hout hbox hside hnext hsends hreleased _ hpending hclosed helse =>
      refine h.same hnext.ge hsends hreleased (fun b => ?_) (opened_iff helse
        (ne_send_of_recv hpending hside) (ne_send_of_none hclosed))
      by_cases hb : b = c
      · rw [hb, hout.sent]
      · rw [hbox b hb]
  | without hbox hside hnext hsends hreleased _ hpending hclosed helse =>
      exact h.same hnext.ge hsends hreleased (fun b => (hbox b).sent) (opened_iff helse
        (ne_send_of_recv hpending hside) (ne_send_of_none hclosed))
  | @ended c hend hbox hnext hsends hreleased _ hpending =>
      refine h.same hnext.ge hsends hreleased (fun b => ?_) fun m f b => by
        rw [Opened, Opened, hpending]
      by_cases hb : b = c
      · rw [hb, hend.sent]
      · rw [hbox b hb]

/-- The message went to the receive. -/
def Got (s : State F B) (op m : Nat) : Prop := ∃ b, (m, Fate.received op) ∈ (s.box b).gone

/-- The receives of a state. -/
structure Receives (s : State F B) : Prop where
  below : ∀ p ∈ s.answers, p.1 < s.nextOp
  once : (s.answers.map Prod.fst).Nodup
  asking : ∀ f op b, (s.fib f).pc.pending = some (op, b) →
    op.number < s.nextOp ∧ op.number ∉ s.answers.map Prod.fst
  apart : ∀ f g op op' b c, (s.fib f).pc.pending = some (op, b) →
    (s.fib g).pc.pending = some (op', c) → op.number = op'.number → f = g
  got : ∀ op m, (op, some m) ∈ s.answers ↔ Got s op m

theorem Receives.without (h : Receives s) {op m : Nat} (hnone : (op, none) ∈ s.answers) :
    ¬Got s op m := by
  intro hgot
  have heq := List.inj_on_of_nodup_map h.once hnone ((h.got op m).2 hgot) rfl
  cases heq

theorem Receives.same (h : Receives s) (hnext : s'.nextOp = s.nextOp) (hanswers : s'.answers = s.answers)
    (hgot : ∀ op m, Got s' op m ↔ Got s op m)
    (hpending : ∀ f p, (s'.fib f).pc.pending = some p → (s.fib f).pc.pending = some p) :
    Receives s' := by
  constructor
  · rw [hanswers, hnext]
    exact h.below
  · rw [hanswers]
    exact h.once
  · intro f op b hask
    rw [hanswers, hnext]
    exact h.asking f op b (hpending f _ hask)
  · intro f g op op' b c hask hask'
    exact h.apart f g op op' b c (hpending f _ hask) (hpending g _ hask')
  · intro op m
    rw [hanswers, hgot]
    exact h.got op m

theorem Receives.next (h : Receives s) (hbox : s'.box = s.box) (hnext : s'.nextOp = s.nextOp + 1)
    (hanswers : s'.answers = s.answers) {f : F}
    (hpending : ∀ op b, (s'.fib f).pc.pending = some (op, b) → op.number = s.nextOp)
    (helse : Elsewhere s s' f) : Receives s' := by
  have hold {g : F} (hg : g ≠ f) {p : Op × B} (hask : (s'.fib g).pc.pending = some p) :
      (s.fib g).pc.pending = some p := by rwa [← helse g hg]
  constructor
  · intro p hp
    rw [hanswers] at hp
    rw [hnext]
    exact (h.below p hp).trans (Nat.lt_succ_self _)
  · rw [hanswers]
    exact h.once
  · intro g op b hask
    rw [hanswers, hnext]
    by_cases hg : g = f
    · rw [hpending op b (hg ▸ hask)]
      refine ⟨Nat.lt_succ_self _, fun hin => ?_⟩
      obtain ⟨p, hp, heq⟩ := List.mem_map.1 hin
      exact absurd heq (Nat.ne_of_lt (h.below p hp))
    · obtain ⟨hless, hrest⟩ := h.asking g op b (hold hg hask)
      exact ⟨hless.trans (Nat.lt_succ_self _), hrest⟩
  · intro g k op op' b c hask hask' heq
    by_cases hg : g = f
    · by_cases hk : k = f
      · rw [hg, hk]
      · have hless := (h.asking k op' c (hold hk hask')).1
        rw [← heq, hpending op b (hg ▸ hask)] at hless
        exact absurd hless (Nat.lt_irrefl _)
    · by_cases hk : k = f
      · have hless := (h.asking g op b (hold hg hask)).1
        rw [heq, hpending op' c (hk ▸ hask')] at hless
        exact absurd hless (Nat.lt_irrefl _)
      · exact h.apart g k op op' b c (hold hg hask) (hold hk hask') heq
  · intro op m
    rw [hanswers, Got, hbox]
    exact h.got op m

theorem Receives.answer (h : Receives s) {f : F} {op : Op} {b : B} {msg : Option Nat}
    (hnext : s'.nextOp = s.nextOp) (hanswers : s'.answers = s.answers ++ [(op.number, msg)])
    (hgot : ∀ op' m, Got s' op' m ↔ Got s op' m ∨ op' = op.number ∧ some m = msg)
    (hpending : (s.fib f).pc.pending = some (op, b)) (hclosed : (s'.fib f).pc.pending = none)
    (helse : Elsewhere s s' f) : Receives s' := by
  have hold {g : F} {p : Op × B} (hask : (s'.fib g).pc.pending = some p) :
      g ≠ f ∧ (s.fib g).pc.pending = some p := by
    have hg : g ≠ f := by
      rintro rfl
      rw [hclosed] at hask
      cases hask
    exact ⟨hg, by rwa [← helse g hg]⟩
  obtain ⟨hless, hnew⟩ := h.asking f op b hpending
  constructor
  · intro p hp
    rw [hanswers] at hp
    rw [hnext]
    rw [List.mem_append, List.mem_singleton] at hp
    rcases hp with hp | rfl
    · exact h.below p hp
    · exact hless
  · rw [hanswers, List.map_append, List.map_singleton, ← List.concat_eq_append]
    exact List.Nodup.concat hnew h.once
  · intro g op' c hask
    obtain ⟨hg, hask⟩ := hold hask
    obtain ⟨hless', hrest⟩ := h.asking g op' c hask
    rw [hanswers, hnext, List.map_append]
    refine ⟨hless', fun hin => ?_⟩
    rw [List.map_singleton, List.mem_append, List.mem_singleton] at hin
    rcases hin with hin | heq
    · exact hrest hin
    · exact hg (h.apart g f op' op c b hask hpending heq)
  · intro g k op' op'' c c' hask hask'
    exact h.apart g k op' op'' c c' (hold hask).2 (hold hask').2
  · intro op' m
    rw [hanswers, hgot, List.mem_append, List.mem_singleton, h.got, Prod.mk.injEq]

theorem Enqueues.got {b : B} {m' : Nat} (hin : Enqueues (s.box b) (s'.box b) m')
    (hbox : ∀ c, c ≠ b → s'.box c = s.box c) (op m : Nat) : Got s' op m ↔ Got s op m := by
  refine exists_congr fun c => ?_
  by_cases hc : c = b
  · rw [hc]
    exact hin.kept m op
  · rw [hbox c hc]

theorem Ends.got {b : B} (hend : Ends (s.box b) (s'.box b)) (hbox : ∀ c, c ≠ b → s'.box c = s.box c)
    (op m : Nat) : Got s' op m ↔ Got s op m := by
  refine exists_congr fun c => ?_
  by_cases hc : c = b
  · rw [hc, hend.gone, List.mem_append]
    refine or_iff_left fun hin => ?_
    obtain ⟨m', -, heq⟩ := List.mem_map.1 hin
    cases heq
  · rw [hbox c hc]

theorem Takes.got {b : B} {op' m' : Nat} (hout : Takes (s.box b) (s'.box b) op' m')
    (hbox : ∀ c, c ≠ b → s'.box c = s.box c) (op m : Nat) :
    Got s' op m ↔ Got s op m ∨ op = op' ∧ some m = some m' := by
  constructor
  · rintro ⟨c, hin⟩
    by_cases hc : c = b
    · rw [hc, hout.gone] at hin
      rw [List.mem_append, List.mem_singleton] at hin
      rcases hin with hin | heq
      · exact .inl ⟨b, hin⟩
      · cases heq
        exact .inr ⟨rfl, rfl⟩
    · rw [hbox c hc] at hin
      exact .inl ⟨c, hin⟩
  · rintro (⟨c, hin⟩ | ⟨rfl, heq⟩)
    · refine ⟨c, ?_⟩
      by_cases hc : c = b
      · rw [hc] at hin ⊢
        rw [hout.gone]
        exact List.mem_append_left _ hin
      · rwa [hbox c hc]
    · cases heq
      refine ⟨b, ?_⟩
      rw [hout.gone]
      exact List.mem_concat_self

theorem got_congr (hgone : ∀ b, (s'.box b).gone = (s.box b).gone) (op m : Nat) :
    Got s' op m ↔ Got s op m := exists_congr fun b => by rw [hgone]

theorem Move.receives (hmove : Move s s') (h : Receives s) : Receives s' := by
  have elsewhere {f : F} (hclosed : (s'.fib f).pc.pending = none) (helse : Elsewhere s s' f) (g : F)
      (p : Op × B) (hask : (s'.fib g).pc.pending = some p) : (s.fib g).pc.pending = some p := by
    by_cases hg : g = f
    · rw [hg, hclosed] at hask
      cases hask
    · rwa [← helse g hg]
  cases hmove with
  | still hbox hnext _ _ hanswers hpending =>
      exact h.same hnext hanswers (got_congr fun b => (hbox b).gone) fun f p hask => by
        rwa [← hpending]
  | begins hbox hnext _ _ hanswers hop _ hpending helse =>
      refine h.next hbox hnext hanswers (fun op b hask => ?_) helse
      rw [hpending] at hask
      cases hask
      exact hop
  | @refused f _ _ hbox hnext _ _ hanswers _ _ hpending hidle =>
      refine h.next (f := f) hbox hnext hanswers (fun op b hask => ?_) fun g _ => hpending g
      rw [hpending, hidle] at hask
      cases hask
  | enqueued hin hbox hnext _ _ hanswers _ hclosed helse =>
      exact h.same hnext hanswers (hin.got hbox) (elsewhere hclosed helse)
  | released hbox hnext _ _ hanswers _ _ hclosed helse =>
      exact h.same hnext hanswers (got_congr fun b => (hbox b).gone) (elsewhere hclosed helse)
  | taken hout hbox _ hnext _ _ hanswers hpending hclosed helse =>
      exact h.answer hnext hanswers (hout.got hbox) hpending hclosed helse
  | without hbox _ hnext _ _ hanswers hpending hclosed helse =>
      refine h.answer hnext hanswers (fun op m => ?_) hpending hclosed helse
      rw [got_congr (fun b => (hbox b).gone) op m]
      exact (or_iff_left fun hsome => nomatch hsome.2).symm
  | ended hend hbox hnext _ _ hanswers hpending =>
      exact h.same hnext hanswers (hend.got hbox) fun f p hask => by rwa [← hpending]

end

/-- The cancel exits. -/
def Pc.exits : Pc F B → Bool
  | .busy _ _ .leaving => true
  | .busy _ _ .abandon => true
  | _ => false

section

variable {s : State F B}

theorem dueExits_iff : DueExits s ↔ ∀ f, (s.fib f).pc.exits = true → (s.fib f).due = true := by
  constructor
  · intro h f hexits
    unfold Pc.exits at hexits
    split at hexits
    · next op b hpc => exact h f op b (.inl hpc)
    · next op b hpc => exact h f op b (.inr hpc)
    · cases hexits
  · rintro h f op b (hpc | hpc)
    · exact h f (by rw [hpc]; rfl)
    · exact h f (by rw [hpc]; rfl)

section

variable [DecidableEq F]

theorem DueExits.setFib (h : DueExits s) {f : F} {φ : Fiber F B}
    (hdue : φ.pc.exits = true → φ.due = true) : DueExits (s.setFib f φ) := by
  rw [dueExits_iff] at h ⊢
  intro g
  by_cases hg : g = f
  · rw [hg, setFib_self]
    exact hdue
  · rw [setFib_of_ne s φ hg]
    exact h g

theorem DueExits.unpark (h : DueExits s) (f : F) : DueExits (s.unpark f) := by
  unfold State.unpark
  split
  · exact h.setFib nofun
  · exact h
  · exact h.setFib (dueExits_iff.1 h f)

theorem DueExits.wake (h : DueExits s) (w : Option F) : DueExits (s.wake w) := by
  cases w with
  | none => exact h
  | some f => exact h.unpark f

theorem DueExits.setPc (h : DueExits s) {f : F} {pc : Pc F B} (hexits : pc.exits = false) :
    DueExits (s.setPc f pc) := h.setFib fun hout => absurd (hout.symm.trans hexits) nofun

theorem DueExits.giveUp (h : DueExits s) (f : F) (op : Op) : DueExits (s.giveUp f op) :=
  DueExits.setPc (s := s.answer op.number none) h rfl

end

theorem DueExits.setBox [DecidableEq B] (h : DueExits s) (b : B) (mb : Mbox F) :
    DueExits (s.setBox b mb) := h

variable [DecidableEq F] [DecidableEq B] {s' : State F B} {f : F}

theorem DueExits.sendSection (h : DueExits s) (b : B) (m : Nat) : DueExits (s.sendSection f b m) := by
  unfold State.sendSection
  split
  · exact h.setPc rfl
  · exact DueExits.setPc (s := (s.release f b m).setBox b _) h rfl
  · exact (h.setBox b _).setPc rfl
  · exact (h.setBox b _).setPc rfl

theorem DueExits.received (h : DueExits s) (b : B) (op : Op) (got : Nat × Option F × Mbox F) :
    DueExits (s.received f b op got) :=
  DueExits.setPc (s := (s.answer op.number (some got.1)).setBox b got.2.2) h rfl

theorem DueExits.step (h : DueExits s) (hstep : Step s f s') : DueExits s' := by
  cases hstep with
  | send _ _ => exact h.setPc rfl
  | sendEnded _ _ => exact h
  | recv _ _ => exact h.setPc rfl
  | recvTimeout _ _ => exact h.setPc rfl
  | sendSection _ => exact h.sendSection _ _
  | recvSection _ =>
      unfold State.recvSection
      dsimp only
      split
      · exact h.received _ _ _
      · exact (h.setBox _ _).setPc rfl
  | timedSection _ _ =>
      unfold State.timedSection
      split
      · exact h.received _ _ _
      · split
        · exact h.giveUp f _
        · exact (h.setBox _ _).setPc rfl
  | announce _ _ => exact h.setFib nofun
  | skip _ _ => exact h.setPc rfl
  | commit _ =>
      unfold State.commit
      split
      · exact h.setFib nofun
      · split <;> exact h.setPc rfl
  | retry _ _ _ => exact h.setPc rfl
  | cancelSeen _ _ hdue => exact h.setFib fun _ => hdue
  | @leave b op hpc =>
      have hdue := h f op b (.inl hpc)
      unfold State.leave
      cases op with
      | send m => exact (h.setBox b _).setFib fun _ => hdue
      | recv _ => exact (h.setBox b _).giveUp f _
      | recvTimeout _ => exact (h.setBox b _).giveUp f _
  | @abandon b m _ => exact DueExits.setPc (s := s.release f b m) h rfl
  | timedResume _ =>
      unfold State.timedResume
      dsimp only
      split
      · split
        · exact (h.setBox _ _).giveUp f _
        · exact (h.setBox _ _).setPc rfl
      · split
        · exact h.received _ _ _
        · exact h.setPc rfl
  | wake _ => exact (h.wake _).setPc rfl
  | close _ _ => exact (h.setBox _ _).setPc rfl
  | closeSection _ => exact (h.setBox _ _).setPc rfl
  | closeNext _ =>
      unfold State.closeNext
      split
      · exact h.setPc rfl
      · exact (h.setBox _ _).setPc rfl
  | closeWake _ => exact (h.unpark _).setPc rfl
  | cancel => exact h.setFib fun _ => rfl
  | fire =>
      have hfired : DueExits (s.setFib f { s.fib f with fired := true }) :=
        h.setFib (dueExits_iff.1 h f)
      exact hfired.unpark f
  | stray => exact h.unpark _
  | deliver hpc =>
      refine h.setFib fun hexits => ?_
      rw [hpc] at hexits
      cases hexits
  | finish _ => exact h.setPc rfl

end

/-- What mailboxes owe to their senders and receivers. -/
structure Delivers (s : State F B) : Prop where
  /-- a send is at work, or has queued its message, or has given it up -/
  settled : ∀ m f b, (m, f, b) ∈ s.sends →
    (Opened s m f b ∧ ¬Queued s m b ∧ ¬GivenUp s m b) ∨
    (¬Opened s m f b ∧ Queued s m b ∧ ¬GivenUp s m b) ∨
    (¬Opened s m f b ∧ ¬Queued s m b ∧ GivenUp s m b)
  /-- only messages of sends are queued, in their mailbox and once -/
  queued : ∀ m b, Queued s m b → ∃ f, (m, f, b) ∈ s.sends
  queuedOnce : ∀ b, (s.box b).sent.Nodup
  /-- a message is given up once, with the mailbox closed or its policy or a cancel against it -/
  fair : ∀ p ∈ s.released, p.2.Fair
  givenOnce : (s.released.map fun p => p.2.op).Nodup
  /-- messages leave in the order they came, and the length and the capacity are kept -/
  books : ∀ b, Books (s.box b)
  leaveOnce : ∀ b, ((s.box b).gone.map Prod.fst).Nodup
  /-- the messages of a sender are queued in the order of its sends -/
  order : ∀ b, (s.box b).sent.Pairwise fun m m' =>
    ∀ f, (m, f, b) ∈ s.sends → (m', f, b) ∈ s.sends → m < m'
  /-- a receive answers once, with the message it has taken or with none taken -/
  answeredOnce : (s.answers.map Prod.fst).Nodup
  got : ∀ op m, (op, some m) ∈ s.answers ↔ Got s op m
  without : ∀ op m, (op, none) ∈ s.answers → ¬Got s op m

section

variable {s : State F B}

theorem sends_of_start (h : Start s) : Sends s := by
  have hqueued (m : Nat) (b : B) : ¬Queued s m b := by
    rw [Queued, (h.boxes b).2.2.2.2.2.2.1]
    exact List.not_mem_nil
  have hgiven (m : Nat) (b : B) : ¬GivenUp s m b := by
    rintro ⟨p, hp, -⟩
    rw [h.released] at hp
    cases hp
  have hopened (m : Nat) (f : F) (b : B) : ¬Opened s m f b := by
    rw [Opened, h.fibers]
    exact nofun
  constructor
  · rw [h.sends]
    exact nofun
  · rw [h.sends]
    exact List.nodup_nil
  · exact fun m f b hopen => absurd hopen (hopened m f b)
  · exact fun m f b hopen => absurd hopen (hopened m f b)
  · rw [h.sends]
    exact nofun
  · exact fun m b hq => absurd hq (hqueued m b)
  · exact fun m b hg => absurd hg (hgiven m b)
  · rw [h.released]
    exact nofun
  · intro b
    rw [(h.boxes b).2.2.2.2.2.2.1]
    exact List.nodup_nil
  · rw [h.released]
    exact List.nodup_nil
  · intro b
    rw [(h.boxes b).2.2.2.2.2.2.1]
    exact List.Pairwise.nil

theorem receives_of_start (h : Start s) : Receives s := by
  have hpending (f : F) : (s.fib f).pc.pending = none := by rw [h.fibers]; rfl
  constructor
  · rw [h.answers]
    exact nofun
  · rw [h.answers]
    exact List.nodup_nil
  · intro f op b hask
    rw [hpending] at hask
    cases hask
  · intro f g op op' b c hask
    rw [hpending] at hask
    cases hask
  · intro op m
    rw [h.answers]
    refine ⟨nofun, ?_⟩
    rintro ⟨b, hin⟩
    rw [(h.boxes b).2.2.2.2.2.2.2] at hin
    cases hin

theorem books_of_start (h : Start s) (b : B) : Books (s.box b) := by
  obtain ⟨hqueue, hlen, -, -, -, -, hsent, hgone⟩ := h.boxes b
  constructor
  · rw [hsent, hgone, hqueue]
    rfl
  · rw [hgone]
    exact nofun
  · rw [hlen, hqueue]
    rfl
  · rw [hlen]
    exact fun hcap _ => hcap.le

theorem dueExits_of_start (h : Start s) : DueExits s := by
  rintro f op b (hpc | hpc)
  all_goals
    rw [h.fibers] at hpc
    cases hpc

theorem Sends.exact (hsends : Sends s) (hreceives : Receives s) (hbooks : ∀ b, Books (s.box b)) :
    Delivers s where
  settled m f b hin := by
    rcases hsends.settled m f b hin with hopen | hq | hg
    · obtain ⟨-, hq, hg⟩ := hsends.opened m f b hopen
      exact .inl ⟨hopen, hq b, hg b⟩
    · exact .inr (.inl ⟨fun hopen => (hsends.opened m f b hopen).2.1 b hq, hq,
        (hsends.queued m b hq).2 b⟩)
    · exact .inr (.inr ⟨fun hopen => (hsends.opened m f b hopen).2.2 b hg,
        fun hq => (hsends.queued m b hq).2 b hg, hg⟩)
  queued m b hq := (hsends.queued m b hq).1
  queuedOnce := hsends.queuedOnce
  fair := hsends.fair
  givenOnce := hsends.givenOnce
  books := hbooks
  leaveOnce b := by
    have honce := hsends.queuedOnce b
    rw [(hbooks b).order] at honce
    exact honce.of_append_left
  order := hsends.order
  answeredOnce := hreceives.once
  got := hreceives.got
  without _ _ := hreceives.without

end

variable [DecidableEq F] [DecidableEq B] {s : State F B}

theorem Reached.kept (h : Reached Sized s) :
    (∀ b, Books (s.box b)) ∧ DueExits s ∧ Sends s ∧ Receives s := by
  induction h with
  | start hstart => exact ⟨books_of_start hstart, dueExits_of_start hstart, sends_of_start hstart,
      receives_of_start hstart⟩
  | step _ hsized hstep ih =>
      obtain ⟨hbooks, hdue, hsends, hreceives⟩ := ih
      have hmove := move_step hbooks hdue hsized hstep
      exact ⟨hmove.books hbooks, hdue.step hstep, hmove.sends hsends, hmove.receives hreceives⟩

/-- A mailbox of capacity minus one that drops its oldest. -/
def minusOne : State Unit Unit where
  box _ := ⟨[], 0, -1, .dropOldest, [], [], false, false, [], []⟩
  fib _ := ⟨.idle, 0, false, false⟩
  nextOp := 0
  sends := []
  released := []
  answers := []

theorem start_minusOne : Start minusOne :=
  ⟨fun _ => ⟨rfl, rfl, rfl, rfl, rfl, rfl, rfl, rfl⟩, fun _ => rfl, rfl, rfl, rfl⟩

end Kaikai.Mailbox
