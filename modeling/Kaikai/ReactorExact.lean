import Mathlib.Algebra.BigOperators.Group.List.Basic
import Mathlib.Data.Int.Basic
import Mathlib.Data.List.Perm.Subperm
import Mathlib.Data.List.TakeWhile
import Kaikai.Reactor

namespace Kaikai.Reactor

open Function Intrusive Intrusive.Links

/-- The order of the timer wheel. -/
def Book.Earlier (b : Book) (f g : ℕ) : Prop :=
  b.deadlineNs f < b.deadlineNs g ∨
    b.deadlineNs f = b.deadlineNs g ∧ b.arrived f < b.arrived g

/-- The fiber is in a park whose own deadline has passed. -/
def Book.due (b : Book) (now f : ℕ) : Bool :=
  ((b.wait f).bind Wait.deadline).any fun d => d ≤ now

def total (l : Waiters → List ℕ) : ℕ :=
  (heads.map fun k => (l k).length).sum

/-- No fiber waits for a child whose exit is in the buffer. -/
def Settled (s : State) : Prop :=
  ∀ l, Chain s.links.next (s.links.head .pid) l →
    ∀ f ∈ l, ∀ e ∈ s.book.pendingExits, s.book.waitPid f ≠ e.pid

/-- Each exit is in one place: with the kernel, in `x`, or delivered to a fiber that waited for
that child. -/
structure Accounted (x : List Exit) (b : Book) : Prop where
  places : b.exited.Perm (x ++ b.zombies ++ b.delivered.map Delivery.exit)
  waited : ∀ d ∈ b.delivered, d.wait = some (.pid d.exit.pid)

/-- The bookkeeping is exact; `l` gives the lists the heads start. -/
structure Exact (n : ℕ) (s : State) (l : Waiters → List ℕ) : Prop where
  lists : ∀ k, Chain s.links.next (s.links.head k) (l k)
  once : ∀ k, (l k).Nodup
  one : ∀ j k f, f ∈ l j → f ∈ l k → j = k
  sorted : (l .timer).Pairwise s.book.Earlier
  count : s.book.parkedCount = total l
  timers : ∀ now, (timerDrain n now s).book.woken =
    s.book.woken ++ (l .timer).filter (s.book.due now)
  reads : ∀ now, (socketReadDeadlineDrain n now s).book.woken =
    s.book.woken ++ (l .socketRead).filter (s.book.due now)
  exits : Accounted s.book.pendingExits s.book
  settled : ∀ reaped left, (reaped ++ left).Perm s.book.zombies →
    Settled (sigchldDrain n reaped left s)

/-- A read without a deadline finds none in the fiber, a read with one has one that the drain
can tell from none, and a slot is free when a park is committed to it. -/
def Clean (s : State) : Event → Prop
  | .parkSocketRead f _ => s.book.deadlineNs f = 0
  | .parkSocketReadTimeout _ _ d => d ≠ 0
  | .commitPark f false =>
    ∀ k, s.book.pendingPark f = some k → k = .stdin ∨ k = .signal → s.links.head k = none
  | _ => True

/-- What the fields of a fiber are while it is in the park. -/
def Book.Carries (b : Book) (f : ℕ) : Wait → Prop
  | .timer d => b.deadlineNs f = d
  | .pid p => b.waitPid f = p
  | .socketRead _ => b.deadlineNs f = 0
  | .socketReadTimeout _ d => b.deadlineNs f = d ∧ d ≠ 0
  | .socketWrite _ | .stdin | .signal | .filepool => True

def Book.Fits (b : Book) (f : ℕ) (k : Waiters) : Prop :=
  ∃ w, b.wait f = some w ∧ w.waiters = k ∧ b.Carries f w

/-- The fibers outside `G` have the fields they had. -/
structure Agree (G : List ℕ) (b b' : Book) : Prop where
  born : b'.born = b.born
  tick : b.tick ≤ b'.tick
  wait : ∀ f ∉ G, b'.wait f = b.wait f
  deadlineNs : ∀ f ∉ G, b'.deadlineNs f = b.deadlineNs f
  waitPid : ∀ f ∉ G, b'.waitPid f = b.waitPid f
  arrived : ∀ f ∉ G, b'.arrived f = b.arrived f
  pendingPark : ∀ f ∉ G, b'.pendingPark f = b.pendingPark f

/-- What holds of the lists between two steps. -/
structure Listed (s : State) (l : Waiters → List ℕ) : Prop where
  holds : Holds s.links l
  born : ∀ k, ∀ f ∈ l k, f < s.book.born
  fits : ∀ k f, f ∈ l k ∨ s.book.pendingPark f = some k → s.book.Fits f k
  pending : ∀ f k, s.book.pendingPark f = some k → f < s.book.born ∧ ∀ j, f ∉ l j
  slot : ∀ k, k = .stdin ∨ k = .signal → (l k).length ≤ 1
  sorted : (l .timer).Pairwise s.book.Earlier
  stamped : ∀ f ∈ l .timer, s.book.arrived f < s.book.tick
  count : s.book.parkedCount = total l

theorem total_update (l : Waiters → List ℕ) (k : Waiters) (l' : List ℕ) :
    total (update l k l') + (l k).length = total l + l'.length := by
  cases k <;> simp [total, heads, update] <;> omega

theorem Book.Fits.congr {b b' : Book} {f : ℕ} {k : Waiters} (h : b.Fits f k)
    (hw : b'.wait f = b.wait f) (hd : b'.deadlineNs f = b.deadlineNs f)
    (hp : b'.waitPid f = b.waitPid f) : b'.Fits f k := by
  obtain ⟨w, hbw, hk, hc⟩ := h
  refine ⟨w, hw.trans hbw, hk, ?_⟩
  cases w <;> simp only [Book.Carries, hd, hp] at hc ⊢ <;> exact hc

theorem Listed.keep {L L' : Links Waiters ℕ} {b b' : Book} {l l' : Waiters → List ℕ}
    {G : List ℕ} (h : Listed ⟨L, b⟩ l) (ha : Agree G b b') (hL : Holds L' l')
    (hsub : ∀ k, (l' k).Sublist (l k)) (hG : ∀ k, ∀ f ∈ l' k, f ∉ G)
    (hcount : b'.parkedCount = total l')
    (hpend : ∀ f ∈ G, ∀ k, b'.pendingPark f = some k →
      f < b.born ∧ (∀ j, f ∉ l' j) ∧ b'.Fits f k) :
    Listed ⟨L', b'⟩ l' where
  holds := hL
  born k f hf := ha.born ▸ h.born k f ((hsub k).subset hf)
  fits k f hf := by
    have hkept : f ∉ G → b.Fits f k → b'.Fits f k := fun hfG hfit =>
      hfit.congr (ha.wait f hfG) (ha.deadlineNs f hfG) (ha.waitPid f hfG)
    rcases hf with hf | hf
    · exact hkept (hG k f hf) (h.fits k f (.inl ((hsub k).subset hf)))
    · by_cases hfG : f ∈ G
      · exact (hpend f hfG k hf).2.2
      · exact hkept hfG (h.fits k f (.inr ((ha.pendingPark f hfG).symm.trans hf)))
  pending f k hf := by
    by_cases hfG : f ∈ G
    · obtain ⟨hb, hoff, -⟩ := hpend f hfG k hf
      exact ⟨ha.born ▸ hb, hoff⟩
    · obtain ⟨hb, hoff⟩ := h.pending f k ((ha.pendingPark f hfG).symm.trans hf)
      exact ⟨ha.born ▸ hb, fun j hj => hoff j ((hsub j).subset hj)⟩
  slot k hk := (hsub k).length_le.trans (h.slot k hk)
  sorted := by
    refine (h.sorted.sublist (hsub .timer)).imp_of_mem fun {f g} hf hg hfg => ?_
    have hfG := hG _ f hf
    have hgG := hG _ g hg
    simp only [Book.Earlier, ha.deadlineNs f hfG, ha.deadlineNs g hgG, ha.arrived f hfG,
      ha.arrived g hgG]
    exact hfg
  stamped f hf := by
    change b'.arrived f < b'.tick
    rw [ha.arrived f (hG _ f hf)]
    exact (h.stamped f ((hsub .timer).subset hf)).trans_le ha.tick
  count := hcount

theorem Agree.refl (G : List ℕ) (b : Book) : Agree G b b :=
  ⟨rfl, le_rfl, fun _ _ => rfl, fun _ _ => rfl, fun _ _ => rfl, fun _ _ => rfl, fun _ _ => rfl⟩

theorem Agree.trans {G H : List ℕ} {b c d : Book} (h : Agree G b c) (h' : Agree H c d) :
    Agree (G ++ H) b d := by
  have hsplit : ∀ f, f ∉ G ++ H → f ∉ G ∧ f ∉ H := fun f hf =>
    not_or.mp (mt List.mem_append.mpr hf)
  exact ⟨h'.born.trans h.born, h.tick.trans h'.tick,
    fun f hf => (h'.wait f (hsplit f hf).2).trans (h.wait f (hsplit f hf).1),
    fun f hf => (h'.deadlineNs f (hsplit f hf).2).trans (h.deadlineNs f (hsplit f hf).1),
    fun f hf => (h'.waitPid f (hsplit f hf).2).trans (h.waitPid f (hsplit f hf).1),
    fun f hf => (h'.arrived f (hsplit f hf).2).trans (h.arrived f (hsplit f hf).1),
    fun f hf => (h'.pendingPark f (hsplit f hf).2).trans (h.pendingPark f (hsplit f hf).1)⟩

/-- The fibers of `G` were taken off their list: the rest is as it was, but for the counter. -/
structure Took (G : List ℕ) (b b' : Book) : Prop where
  agree : Agree G b b'
  pendingPark : b'.pendingPark = b.pendingPark
  count : b'.parkedCount = b.parkedCount - G.length

theorem Listed.took {L L' : Links Waiters ℕ} {b b' : Book} {l : Waiters → List ℕ}
    {k : Waiters} {l' G : List ℕ} (h : Listed ⟨L, b⟩ l)
    (hr : Rewrites L L' (.head k) (l k) l') (ht : Took G b b') (hp : (G ++ l').Perm (l k))
    (hsub : l'.Sublist (l k)) : Listed ⟨L', b'⟩ (update l k l') := by
  have hmem : ∀ f ∈ G, f ∈ l k := fun f hf =>
    hp.mem_iff.mp (List.mem_append_left _ hf)
  have hdisj := List.disjoint_of_nodup_append (hp.nodup_iff.mpr (h.holds.nodup k))
  have hsub' : ∀ j, (update l k l' j).Sublist (l j) := by
    intro j
    by_cases hj : j = k
    · subst hj
      rwa [update_self]
    · rw [update_of_ne hj]
  refine h.keep ht.agree (h.holds.rewrite hr hsub) hsub' ?_ ?_ ?_
  · intro j f hf hfG
    by_cases hj : j = k
    · subst hj
      rw [update_self] at hf
      exact hdisj hfG hf
    · rw [update_of_ne hj] at hf
      exact hj (h.holds.disjoint j k f hf (hmem f hfG))
  · have hlen : G.length + l'.length = (l k).length := by
      rw [← List.length_append, hp.length_eq]
    have htotal := total_update l k l'
    have hc : b.parkedCount = total l := h.count
    rw [ht.count, hc]
    omega
  · intro f hf j hj
    rw [ht.pendingPark] at hj
    exact absurd (hmem f hf) ((h.pending f j hj).2 k)

theorem Listed.touch {L : Links Waiters ℕ} {b b' : Book} {l : Waiters → List ℕ} {f : ℕ}
    (h : Listed ⟨L, b⟩ l) (hoff : ∀ k, f ∉ l k) (ha : Agree [f] b b')
    (hcount : b'.parkedCount = b.parkedCount)
    (hpend : ∀ k, b'.pendingPark f = some k → f < b.born ∧ b'.Fits f k) :
    Listed ⟨L, b'⟩ l := by
  refine h.keep ha h.holds (fun _ => List.Sublist.refl _) ?_ (hcount.trans h.count) ?_
  · intro k g hg hgf
    exact hoff k (List.mem_singleton.mp hgf ▸ hg)
  · intro g hg k hk
    obtain rfl := List.mem_singleton.mp hg
    exact ⟨(hpend k hk).1, hoff, (hpend k hk).2⟩

theorem Listed.same {L : Links Waiters ℕ} {b b' : Book} {l : Waiters → List ℕ}
    (h : Listed ⟨L, b⟩ l) (ha : Agree [] b b') (hcount : b'.parkedCount = b.parkedCount) :
    Listed ⟨L, b'⟩ l :=
  h.keep ha h.holds (fun _ => List.Sublist.refl _) (fun _ _ _ => List.not_mem_nil)
    (hcount.trans h.count) fun _ hf => absurd hf List.not_mem_nil

theorem Listed.length_le {s : State} {l : Waiters → List ℕ} (h : Listed s l) (k : Waiters) :
    (l k).length ≤ s.book.born := by
  have hsub : l k ⊆ List.range s.book.born := fun f hf => List.mem_range.mpr (h.born k f hf)
  simpa using (List.subperm_of_subset (h.holds.nodup k) hsub).length_le

/-- The fibers of `G` were taken off and made ready in this order, and no exit moved. -/
structure Woke (G : List ℕ) (b b' : Book) : Prop extends Took G b b' where
  woken : b'.woken = b.woken ++ G
  exited : b'.exited = b.exited
  zombies : b'.zombies = b.zombies
  pendingExits : b'.pendingExits = b.pendingExits
  delivered : b'.delivered = b.delivered

theorem Accounted.congr {x : List Exit} {b b' : Book} (h : Accounted x b)
    (he : b'.exited = b.exited) (hz : b'.zombies = b.zombies)
    (hd : b'.delivered = b.delivered) : Accounted x b' := by
  refine ⟨?_, ?_⟩
  · rw [he, hz, hd]
    exact h.places
  · rw [hd]
    exact h.waited

theorem Woke.trans {G H : List ℕ} {b c d : Book} (h : Woke G b c) (h' : Woke H c d) :
    Woke (G ++ H) b d where
  agree := h.agree.trans h'.agree
  pendingPark := h'.pendingPark.trans h.pendingPark
  count := by
    rw [h'.count, h.count, List.length_append]
    omega
  woken := by rw [h'.woken, h.woken, List.append_assoc]
  exited := h'.exited.trans h.exited
  zombies := h'.zombies.trans h.zombies
  pendingExits := h'.pendingExits.trans h.pendingExits
  delivered := h'.delivered.trans h.delivered

theorem Woke.foldl {act : ℕ → Book → Book} (h : ∀ f b, Woke [f] b (act f b)) (G : List ℕ)
    (b : Book) : Woke G b (G.foldl (fun b f => act f b) b) := by
  induction G generalizing b with
  | nil => exact ⟨⟨Agree.refl [] b, rfl, by simp⟩, by simp, rfl, rfl, rfl, rfl⟩
  | cons f G ih => exact (h f b).trans (ih (act f b))

section Wakes

variable (n : ℕ)

theorem markReady_eq (f : ℕ) (b : Book) : ∃ fired parked batch,
    Book.markReady n f b =
      { b with
        fired := fired, parked := parked, readyBatch := batch, woken := b.woken ++ [f] } := by
  unfold Book.markReady
  by_cases hn : n ≤ 1
  · exact ⟨_, _, _, if_pos hn⟩
  · exact ⟨_, _, _, if_neg hn⟩

theorem woke_markReady {f : ℕ} {b c : Book} (ht : Took [f] b c) (hw : c.woken = b.woken)
    (he : c.exited = b.exited) (hz : c.zombies = b.zombies)
    (hp : c.pendingExits = b.pendingExits) (hd : c.delivered = b.delivered) :
    Woke [f] b (Book.markReady n f c) := by
  obtain ⟨fired, parked, batch, hm⟩ := markReady_eq n f c
  rw [hm]
  refine ⟨⟨⟨ht.agree.born, ht.agree.tick, ht.agree.wait, ht.agree.deadlineNs,
    ht.agree.waitPid, ht.agree.arrived, ht.agree.pendingPark⟩, ht.pendingPark, ht.count⟩,
    ?_, he, hz, hp, hd⟩
  change c.woken ++ [f] = b.woken ++ [f]
  rw [hw]

theorem agree_update {f : ℕ} {b c : Book} (hb : c.born = b.born) (ht : b.tick ≤ c.tick)
    (hw : c.wait = b.wait) (hd : ∃ v, c.deadlineNs = update b.deadlineNs f v)
    (hp : ∃ v, c.waitPid = update b.waitPid f v) (ha : c.arrived = b.arrived)
    (hk : c.pendingPark = b.pendingPark) : Agree [f] b c := by
  have hne : ∀ g, g ∉ [f] → g ≠ f := fun g hg => fun h => hg (List.mem_singleton.mpr h)
  obtain ⟨d, hd⟩ := hd
  obtain ⟨p, hp⟩ := hp
  refine ⟨hb, ht, fun g _ => by rw [hw], fun g hg => ?_, fun g hg => ?_,
    fun g _ => by rw [ha], fun g _ => by rw [hk]⟩
  · rw [hd, update_of_ne (hne g hg)]
  · rw [hp, update_of_ne (hne g hg)]

theorem woke_timerFired (f : ℕ) (b : Book) : Woke [f] b (Book.timerFired n f b) :=
  woke_markReady n ⟨agree_update rfl le_rfl rfl ⟨0, rfl⟩ ⟨_, (update_eq_self f _).symm⟩ rfl rfl,
    rfl, rfl⟩ rfl rfl rfl rfl rfl

theorem woke_socketReady (f : ℕ) (b : Book) : Woke [f] b (Book.socketReady n f b) :=
  woke_markReady n ⟨agree_update rfl le_rfl rfl ⟨_, (update_eq_self f _).symm⟩ ⟨0, rfl⟩ rfl rfl,
    rfl, rfl⟩ rfl rfl rfl rfl rfl

theorem woke_socketExpired (f : ℕ) (b : Book) : Woke [f] b (Book.socketExpired n f b) :=
  woke_markReady n ⟨agree_update rfl le_rfl rfl ⟨_, (update_eq_self f _).symm⟩ ⟨0, rfl⟩ rfl rfl,
    rfl, rfl⟩ rfl rfl rfl rfl rfl

theorem woke_poolDone (f : ℕ) (b : Book) : Woke [f] b (Book.poolDone n f b) :=
  woke_markReady n ⟨agree_update rfl le_rfl rfl ⟨_, (update_eq_self f _).symm⟩
    ⟨_, (update_eq_self f _).symm⟩ rfl rfl, rfl, rfl⟩ rfl rfl rfl rfl rfl

/-- What a drain of list `k` does: the fibers of which `p` holds are woken, in list order. -/
structure Drained (k : Waiters) (p : ℕ → Bool) (s s' : State) (l : Waiters → List ℕ) : Prop where
  listed : Listed s' (update l k ((l k).filter fun f => !p f))
  woke : Woke ((l k).filter p) s.book s'.book

theorem drained {act : ℕ → Book → Book} {p : Book → ℕ → Bool}
    (hact : ∀ f b, Woke [f] b (act f b)) (hs : Stable p act) {s : State}
    {l : Waiters → List ℕ} (h : Listed s l) (k : Waiters) :
    Drained k (p s.book) s
      ⟨(drain p act s.book.born (.head k) s.links s.book).1,
        (drain p act s.book.born (.head k) s.links s.book).2⟩ l := by
  obtain ⟨hr, hb⟩ := drain_spec hs (a := s.book) (h.length_le k) (before_head k _)
    (h.holds.nodup k) (h.holds.chain k)
  have hw := Woke.foldl hact ((l k).filter (p s.book)) s.book
  rw [← hb] at hw
  exact ⟨h.took hr hw.toTook (List.filter_append_perm _ _) List.filter_sublist, hw⟩

theorem stable_timerFired (now : ℕ) :
    Stable (fun (b : Book) f => decide (b.deadlineNs f ≤ now)) (Book.timerFired n) := by
  intro b f g hgf
  have hd := (woke_timerFired n f b).agree.deadlineNs g (by simpa using hgf)
  simp only [hd]

theorem stable_socketExpired (now : ℕ) :
    Stable (fun (b : Book) f => decide (b.deadlineNs f ≠ 0 ∧ b.deadlineNs f ≤ now))
      (Book.socketExpired n) := by
  intro b f g hgf
  have hd := (woke_socketExpired n f b).agree.deadlineNs g (by simpa using hgf)
  simp only [hd]

theorem stable_socketReady (pfds : List PollFd) (mask : ℕ) :
    Stable (fun (b : Book) f => decide
      (revents pfds (b.waitPid f) &&& (mask ||| pollHup ||| pollErr ||| pollNval) ≠ 0))
      (Book.socketReady n) := by
  intro b f g hgf
  have hp := (woke_socketReady n f b).agree.waitPid g (by simpa using hgf)
  simp only [hp]

theorem stable_poolDone : Stable (fun (b : Book) f => b.result f) (Book.poolDone n) := by
  intro b f g _
  obtain ⟨_, _, _, hm⟩ := markReady_eq n f { b with parkedCount := b.parkedCount - 1 }
  simp only [Book.poolDone, hm]

theorem Listed.due_timer {s : State} {l : Waiters → List ℕ} (h : Listed s l) (now : ℕ) :
    ∀ f ∈ l .timer, decide (s.book.deadlineNs f ≤ now) = s.book.due now f := by
  intro f hf
  obtain ⟨w, hw, hk, hc⟩ := h.fits .timer f (.inl hf)
  cases w <;> simp only [Wait.waiters, reduceCtorEq] at hk
  simp only [Book.due, hw, Option.bind_some, Wait.deadline, Option.any_some]
  rw [show s.book.deadlineNs f = _ from hc]

theorem Listed.due_read {s : State} {l : Waiters → List ℕ} (h : Listed s l) (now : ℕ) :
    ∀ f ∈ l .socketRead,
      decide (s.book.deadlineNs f ≠ 0 ∧ s.book.deadlineNs f ≤ now) = s.book.due now f := by
  intro f hf
  obtain ⟨w, hw, hk, hc⟩ := h.fits .socketRead f (.inl hf)
  cases w <;> simp only [Wait.waiters, reduceCtorEq] at hk
  case socketRead fd =>
    have h0 : s.book.deadlineNs f = 0 := hc
    simp [Book.due, hw, Wait.deadline, h0]
  case socketReadTimeout fd d =>
    obtain ⟨hd, h0⟩ : s.book.deadlineNs f = d ∧ d ≠ 0 := hc
    simp [Book.due, hw, Wait.deadline, hd, h0]

theorem takeWhile_sorted {b : Book} {l : List ℕ} (now : ℕ) (h : l.Pairwise b.Earlier) :
    l.takeWhile (fun f => decide (b.deadlineNs f ≤ now)) =
        l.filter (fun f => decide (b.deadlineNs f ≤ now)) ∧
      l.dropWhile (fun f => decide (b.deadlineNs f ≤ now)) =
        l.filter (fun f => !decide (b.deadlineNs f ≤ now)) := by
  induction l with
  | nil => exact ⟨rfl, rfl⟩
  | cons f l ih =>
      obtain ⟨hf, hl⟩ := List.pairwise_cons.mp h
      obtain ⟨ht, hd⟩ := ih hl
      by_cases hnow : b.deadlineNs f ≤ now
      · simp only [List.takeWhile_cons, List.dropWhile_cons, List.filter_cons, hnow,
          decide_true, if_true, Bool.not_true, Bool.false_eq_true, if_false, ht, hd, and_self]
      · -- the rest of the list is no earlier
        have hlate : ∀ g ∈ l, ¬ b.deadlineNs g ≤ now := fun g hg => by
          rcases hf g hg with hlt | ⟨heq, -⟩ <;> omega
        have hnone : l.filter (fun g => decide (b.deadlineNs g ≤ now)) = [] :=
          List.filter_eq_nil_iff.mpr fun g hg => by simpa using hlate g hg
        have hall : l.filter (fun g => !decide (b.deadlineNs g ≤ now)) = l :=
          List.filter_eq_self.mpr fun g hg => by simpa using hlate g hg
        simp only [List.takeWhile_cons, List.dropWhile_cons, List.filter_cons, hnow,
          decide_false, Bool.false_eq_true, if_false, Bool.not_false, if_true, hnone, hall,
          and_self]

theorem timerDrain_drained {s : State} {l : Waiters → List ℕ} (h : Listed s l) (now : ℕ) :
    Drained .timer (fun f => decide (s.book.deadlineNs f ≤ now)) s (timerDrain n now s) l := by
  obtain ⟨hr, hb⟩ := popWhile_spec (stable_timerFired n now) (a := s.book)
    (h.length_le .timer) (h.holds.nodup .timer) (h.holds.chain .timer)
  obtain ⟨htake, hdrop⟩ := takeWhile_sorted now h.sorted
  have hw := Woke.foldl (woke_timerFired n)
    ((l .timer).takeWhile fun f => decide (s.book.deadlineNs f ≤ now)) s.book
  rw [← hb, htake] at hw
  rw [hdrop] at hr
  exact ⟨h.took hr hw.toTook (List.filter_append_perm _ _) List.filter_sublist, hw⟩

end Wakes

theorem Listed.rewrites_slot {s : State} {l : Waiters → List ℕ} (h : Listed s l) {k : Waiters}
    (hk : k = .stdin ∨ k = .signal) {f : ℕ} (hf : s.links.head k = some f) :
    Rewrites s.links (s.links.store (.head k) none) (.head k) (l k) [] ∧ l k = [f] := by
  have hc := h.holds.chain k
  have hlen := h.slot k hk
  rcases hl : l k with _ | ⟨g, t⟩
  · rw [hl, hf] at hc
    exact absurd hc (by simp [Chain])
  · obtain rfl : t = [] := List.length_eq_zero_iff.mp (by simpa [hl] using hlen)
    rw [hl] at hc
    obtain rfl : f = g := Option.some.inj (hf.symm.trans hc.1)
    refine ⟨⟨update_self k _ _, ?_, fun _ _ _ => rfl, ?_⟩, rfl⟩
    · intro j hj
      exact update_of_ne (fun he => hj (by rw [he])) _ _
    · intro x hx _
      obtain rfl := List.mem_singleton.mp hx
      exact hc.2

theorem Listed.slot_took {s : State} {l : Waiters → List ℕ} (h : Listed s l) {k : Waiters}
    (hk : k = .stdin ∨ k = .signal) {f : ℕ} (hf : s.links.head k = some f) {b' : Book}
    (ht : Took [f] s.book b') :
    Listed ⟨s.links.store (.head k) none, b'⟩ (update l k []) := by
  obtain ⟨hr, hl⟩ := h.rewrites_slot hk hf
  exact h.took hr ht (by rw [hl]; exact List.Perm.refl _) (List.nil_sublist _)

theorem perm_of_find? {α : Type} {p : α → Bool} {l : List α} {a : α} (h : l.find? p = some a) :
    (a :: l.eraseP p).Perm l := by
  induction l with
  | nil => exact absurd h (by simp)
  | cons b l ih =>
      by_cases hp : p b
      · obtain rfl : b = a := by simpa [hp] using h
        rw [List.eraseP_cons_of_pos hp]
      · rw [List.eraseP_cons_of_neg hp]
        rw [List.find?_cons_of_neg hp] at h
        exact (List.Perm.swap b a _).trans ((ih h).cons b)

theorem Listed.cut_took {s : State} {l : Waiters → List ℕ} (h : Listed s l) {k : Waiters}
    {p : ℕ → Bool} {f : ℕ} {L : Links Waiters ℕ}
    (hcut : cut p s.book.born (.head k) s.links = (some f, L)) {b' : Book}
    (ht : Took [f] s.book b') :
    Listed ⟨L, b'⟩ (update l k ((l k).eraseP p)) ∧ f ∈ l k ∧ p f = true := by
  obtain ⟨hr, hfind⟩ := cut_spec (p := p) (h.length_le k) (before_head k _) (h.holds.nodup k)
    (h.holds.chain k)
  rw [hcut] at hr hfind
  have hfl := List.mem_of_find?_eq_some hfind.symm
  have hpf := List.find?_some hfind.symm
  exact ⟨h.took hr ht (perm_of_find? hfind.symm) List.eraseP_sublist, hfl, hpf⟩

theorem Listed.cut_none {s : State} {l : Waiters → List ℕ} (h : Listed s l) {k : Waiters}
    {p : ℕ → Bool} {L : Links Waiters ℕ}
    (hcut : cut p s.book.born (.head k) s.links = (none, L)) : ∀ f ∈ l k, p f = false := by
  obtain ⟨-, hfind⟩ := cut_spec (p := p) (h.length_le k) (before_head k _) (h.holds.nodup k)
    (h.holds.chain k)
  rw [hcut] at hfind
  exact fun f hf => by simpa using List.find?_eq_none.mp hfind.symm f hf

/-- What holds of every state. -/
structure Inv (s : State) : Prop where
  listed : ∃ l, Listed s l
  accounted : Accounted s.book.pendingExits s.book

/-- The fields that the exits are kept in. -/
structure SameExits (b b' : Book) : Prop where
  exited : b'.exited = b.exited
  zombies : b'.zombies = b.zombies
  pendingExits : b'.pendingExits = b.pendingExits
  delivered : b'.delivered = b.delivered

theorem Inv.of {s s' : State} {m : Waiters → List ℕ} (h : Inv s) (hl : Listed s' m)
    (he : SameExits s.book s'.book) : Inv s' := by
  refine ⟨⟨m, hl⟩, ?_⟩
  rw [he.pendingExits]
  exact h.accounted.congr he.exited he.zombies he.delivered

theorem Woke.sameExits {G : List ℕ} {b b' : Book} (h : Woke G b b') : SameExits b b' :=
  ⟨h.exited, h.zombies, h.pendingExits, h.delivered⟩

section Removals

variable (n : ℕ)

theorem stdinReady_inv {s : State} (h : Inv s) : Inv (stdinReady n s) := by
  obtain ⟨l, hl⟩ := h.listed
  unfold stdinReady
  split
  · exact h
  · rename_i f hf
    have hw : Woke [f] s.book
        (Book.markReady n f { s.book with parkedCount := s.book.parkedCount - 1 }) :=
      woke_poolDone n f s.book
    exact h.of (hl.slot_took (.inl rfl) hf hw.toTook) hw.sameExits

theorem signalTryWake_inv {s : State} (h : Inv s) : Inv (signalTryWake n s) := by
  obtain ⟨l, hl⟩ := h.listed
  unfold signalTryWake
  split
  · exact h
  split
  · exact h
  · rename_i f hf
    have hw : Woke [f] s.book (Book.markReady n f
        { s.book with
          waitStatus := update s.book.waitStatus f s.book.signalPending
          signalPending := 0
          parkedCount := s.book.parkedCount - 1 }) :=
      woke_markReady n ⟨⟨rfl, le_rfl, fun _ _ => rfl, fun _ _ => rfl, fun _ _ => rfl,
        fun _ _ => rfl, fun _ _ => rfl⟩, rfl, rfl⟩ rfl rfl rfl rfl rfl
    exact h.of (hl.slot_took (.inr rfl) hf hw.toTook) hw.sameExits

theorem signalDrain_inv {s : State} (h : Inv s) (signo : ℤ) : Inv (signalDrain n signo s) := by
  obtain ⟨l, hl⟩ := h.listed
  refine signalTryWake_inv n ?_
  split
  · exact h.of (hl.same ⟨rfl, le_rfl, fun _ _ => rfl, fun _ _ => rfl, fun _ _ => rfl,
      fun _ _ => rfl, fun _ _ => rfl⟩ rfl) ⟨rfl, rfl, rfl, rfl⟩
  · exact h

theorem timerRemove_inv {s : State} (h : Inv s) (f : ℕ) : Inv (timerRemove f s) := by
  obtain ⟨l, hl⟩ := h.listed
  unfold timerRemove
  split
  · exact h
  · rename_i g L hcut
    have ht : Took [g] s.book { s.book with
        deadlineNs := update s.book.deadlineNs g 0
        parkedCount := s.book.parkedCount - 1 } :=
      ⟨agree_update rfl le_rfl rfl ⟨0, rfl⟩ ⟨_, (update_eq_self g _).symm⟩ rfl rfl, rfl, rfl⟩
    exact h.of (hl.cut_took hcut ht).1 ⟨rfl, rfl, rfl, rfl⟩

theorem detachFrom_inv {s : State} (h : Inv s) (f : ℕ) (ks : List Waiters) :
    Inv (detachFrom f ks s).2 := by
  obtain ⟨l, hl⟩ := h.listed
  induction ks with
  | nil => exact h
  | cons k ks ih =>
      unfold detachFrom
      split
      · exact ih
      · rename_i g L hcut
        have ht : Took [g] s.book { s.book with
            waitPid := update s.book.waitPid g 0
            fired := update s.book.fired g true
            parkedCount := s.book.parkedCount - 1 } :=
          ⟨agree_update rfl le_rfl rfl ⟨_, (update_eq_self g _).symm⟩ ⟨0, rfl⟩ rfl rfl, rfl, rfl⟩
        exact h.of (hl.cut_took hcut ht).1 ⟨rfl, rfl, rfl, rfl⟩

theorem unpark_inv {s : State} (h : Inv s) (f : ℕ) : Inv { s with book := s.book.unpark f } := by
  obtain ⟨l, hl⟩ := h.listed
  exact h.of (hl.same ⟨rfl, le_rfl, fun _ _ => rfl, fun _ _ => rfl, fun _ _ => rfl,
    fun _ _ => rfl, fun _ _ => rfl⟩ rfl) ⟨rfl, rfl, rfl, rfl⟩

theorem requestCancel_inv {s : State} (h : Inv s) (f : ℕ) : Inv (requestCancel f s) := by
  have hd : Inv (detachFiber f s).2 := detachFrom_inv h f heads
  unfold requestCancel
  split
  · rename_i heq
    rw [heq] at hd
    exact hd
  · rename_i heq
    rw [heq] at hd
    exact unpark_inv hd f

end Removals

section Exits

variable (n : ℕ)

theorem agree_exitDelivered (e : Exit) (f : ℕ) (b : Book) :
    Took [f] b (b.exitDelivered n e f) := by
  obtain ⟨_, _, _, hm⟩ := markReady_eq n f
    { b with
      waitStatus := update b.waitStatus f e.status
      parkedCount := b.parkedCount - 1
      delivered := b.delivered ++ [⟨f, b.wait f, e⟩] }
  rw [Book.exitDelivered, hm]
  exact ⟨⟨rfl, le_rfl, fun _ _ => rfl, fun _ _ => rfl, fun _ _ => rfl, fun _ _ => rfl,
    fun _ _ => rfl⟩, rfl, rfl⟩

theorem Accounted.deliver {b : Book} {x : List Exit} {e : Exit} {f : ℕ}
    (h : Accounted (e :: x) b) (hw : b.wait f = some (.pid e.pid)) :
    Accounted x (b.exitDelivered n e f) := by
  obtain ⟨_, _, _, hm⟩ := markReady_eq n f
    { b with
      waitStatus := update b.waitStatus f e.status
      parkedCount := b.parkedCount - 1
      delivered := b.delivered ++ [⟨f, b.wait f, e⟩] }
  rw [Book.exitDelivered, hm]
  refine ⟨?_, ?_⟩
  · change b.exited.Perm
      (x ++ b.zombies ++ (b.delivered ++ [(⟨f, b.wait f, e⟩ : Delivery)]).map Delivery.exit)
    refine h.places.trans ?_
    rw [List.map_append, ← List.append_assoc]
    exact (List.perm_append_singleton e _).symm
  · intro d hd
    rcases List.mem_append.mp hd with hd | hd
    · exact h.waited d hd
    · obtain rfl := List.mem_singleton.mp hd
      exact hw

/-- What looking for a waiter does: it is woken with the status, or there is none. -/
structure Sought (e : Exit) (s : State) (l : Waiters → List ℕ) (r : Bool × State) : Prop where
  listed : ∃ l', Listed r.2 l' ∧ ∀ f ∈ l' .pid, f ∈ l .pid ∧ r.2.book.waitPid f = s.book.waitPid f
  found : r.1 = true → ∀ x, Accounted (e :: x) s.book → Accounted x r.2.book
  none : r.1 = false → r.2 = s ∧ ∀ f ∈ l .pid, s.book.waitPid f ≠ e.pid
  pendingExits : r.2.book.pendingExits = s.book.pendingExits
  zombies : r.2.book.zombies = s.book.zombies

theorem wakePidWaiter_sought {s : State} {l : Waiters → List ℕ} (h : Listed s l) (e : Exit) :
    Sought e s l (wakePidWaiter n e s) := by
  unfold wakePidWaiter
  split
  · rename_i L hcut
    have hnone := h.cut_none hcut
    exact ⟨⟨l, h, fun f hf => ⟨hf, rfl⟩⟩, by simp,
      fun _ => ⟨rfl, fun f hf => by simpa using hnone f hf⟩, rfl, rfl⟩
  · rename_i f L hcut
    have ht := agree_exitDelivered n e f s.book
    obtain ⟨hlist, hfl, hpf⟩ := h.cut_took hcut ht
    -- the field by which the waiter was found is the child it waits for
    have hwait : s.book.wait f = some (.pid e.pid) := by
      obtain ⟨w, hw, hk, hc⟩ := h.fits .pid f (.inl hfl)
      cases w <;> simp only [Wait.waiters, reduceCtorEq] at hk
      rw [hw, ← show s.book.waitPid f = _ from hc, of_decide_eq_true hpf]
    obtain ⟨_, _, _, hm⟩ := markReady_eq n f
      { s.book with
        waitStatus := update s.book.waitStatus f e.status
        parkedCount := s.book.parkedCount - 1
        delivered := s.book.delivered ++ [⟨f, s.book.wait f, e⟩] }
    refine ⟨⟨_, hlist, fun g hg => ?_⟩, fun _ x hx => hx.deliver n hwait, by simp, ?_, ?_⟩
    · rw [update_self] at hg
      refine ⟨List.eraseP_subset hg, ?_⟩
      change (s.book.exitDelivered n e f).waitPid g = s.book.waitPid g
      rw [Book.exitDelivered, hm]
    · change (s.book.exitDelivered n e f).pendingExits = s.book.pendingExits
      rw [Book.exitDelivered, hm]
    · change (s.book.exitDelivered n e f).zombies = s.book.zombies
      rw [Book.exitDelivered, hm]

theorem Accounted.perm {b : Book} {x y : List Exit} (h : Accounted x b) (hxy : x.Perm y) :
    Accounted y b :=
  ⟨h.places.trans ((hxy.append_right _).append_right _), h.waited⟩

theorem harvest_inv {reaped : List Exit} {s : State} {l : Waiters → List ℕ} (h : Listed s l)
    (ha : Accounted (reaped ++ s.book.pendingExits) s.book) : Inv (harvest n reaped s) := by
  induction reaped generalizing s l with
  | nil => exact ⟨⟨l, h⟩, ha⟩
  | cons e reaped ih =>
      have hs := wakePidWaiter_sought n h e
      rw [harvest]
      split
      · rename_i t heq
        rw [heq] at hs
        obtain ⟨l', hl', -⟩ := hs.listed
        refine ih hl' ?_
        rw [hs.pendingExits]
        exact hs.found rfl _ ha
      · rename_i t heq
        rw [heq] at hs
        obtain ⟨ht, -⟩ := hs.none rfl
        obtain rfl : t = s := ht
        refine ih (l := l) (h.same ⟨rfl, le_rfl, fun _ _ => rfl, fun _ _ => rfl, fun _ _ => rfl,
          fun _ _ => rfl, fun _ _ => rfl⟩ rfl) ?_
        have hmove := ha.perm (show (e :: (reaped ++ t.book.pendingExits)).Perm
          (reaped ++ e :: t.book.pendingExits) from List.perm_middle.symm)
        exact hmove.congr rfl rfl rfl

/-- What the pass over the buffer does: the exits it keeps have no waiter afterwards. -/
structure Reconciled (pending : List Exit) (s : State) (l : Waiters → List ℕ)
    (r : List Exit × State) : Prop where
  listed : ∃ l', Listed r.2 l' ∧ ∀ f ∈ l' .pid,
    f ∈ l .pid ∧ r.2.book.waitPid f = s.book.waitPid f ∧ ∀ e ∈ r.1, r.2.book.waitPid f ≠ e.pid
  accounted : ∀ x, Accounted (x ++ pending) s.book → Accounted (x ++ r.1) r.2.book

theorem reconcile_spec {pending : List Exit} {s : State} {l : Waiters → List ℕ}
    (h : Listed s l) : Reconciled pending s l (reconcile n pending s) := by
  induction pending generalizing s l with
  | nil => exact ⟨⟨l, h, fun f hf => ⟨hf, rfl, by simp [reconcile]⟩⟩, fun _ => id⟩
  | cons e pending ih =>
      have hs := wakePidWaiter_sought n h e
      rw [reconcile]
      split
      · rename_i t heq
        rw [heq] at hs
        obtain ⟨l', hl', hsub⟩ := hs.listed
        obtain ⟨⟨l'', hl'', hsub'⟩, hacc⟩ := ih hl'
        refine ⟨⟨l'', hl'', fun f hf => ?_⟩, fun x hx => hacc x ?_⟩
        · obtain ⟨hf', hw, hne⟩ := hsub' f hf
          exact ⟨(hsub f hf').1, hw.trans (hsub f hf').2, hne⟩
        · exact hs.found rfl _ (hx.perm List.perm_middle)
      · rename_i t heq
        rw [heq] at hs
        obtain ⟨ht, hnone⟩ := hs.none rfl
        obtain rfl : t = s := ht
        obtain ⟨⟨l', hl', hsub⟩, hacc⟩ := ih h
        refine ⟨⟨l', hl', fun f hf => ?_⟩, fun x hx => ?_⟩
        · obtain ⟨hf', hw, hne⟩ := hsub f hf
          refine ⟨hf', hw, fun d hd => ?_⟩
          rcases List.mem_cons.mp hd with rfl | hd
          · exact hw ▸ hnone f hf'
          · exact hne d hd
        · have hkept := hacc (x ++ [e]) (by simpa using hx)
          simpa using hkept

theorem sigchldDrain_spec {s : State} (h : Inv s) {reaped left : List Exit}
    (hz : (reaped ++ left).Perm s.book.zombies) :
    Inv (sigchldDrain n reaped left s) ∧ Settled (sigchldDrain n reaped left s) := by
  obtain ⟨l, hl⟩ := h.listed
  have hl₀ : Listed { s with book := { s.book with zombies := left } } l :=
    hl.same ⟨rfl, le_rfl, fun _ _ => rfl, fun _ _ => rfl, fun _ _ => rfl, fun _ _ => rfl,
      fun _ _ => rfl⟩ rfl
  have ha₀ : Accounted (reaped ++ s.book.pendingExits) { s.book with zombies := left } := by
    refine ⟨h.accounted.places.trans (List.Perm.append_right _ ?_), h.accounted.waited⟩
    refine (hz.symm.append_left _).trans ?_
    rw [← List.append_assoc]
    exact List.perm_append_comm.append_right _
  obtain ⟨⟨l₁, hl₁⟩, ha₁⟩ := harvest_inv n hl₀ ha₀
  obtain ⟨⟨l₂, hl₂, hsub⟩, hacc⟩ := reconcile_spec n hl₁
  have hl₃ : Listed (sigchldDrain n reaped left s) l₂ :=
    hl₂.same ⟨rfl, le_rfl, fun _ _ => rfl, fun _ _ => rfl, fun _ _ => rfl, fun _ _ => rfl,
      fun _ _ => rfl⟩ rfl
  refine ⟨⟨⟨l₂, hl₃⟩, (hacc [] ha₁).congr rfl rfl rfl⟩, fun l' hc f hf => ?_⟩
  obtain rfl : l' = l₂ .pid := hc.unique (hl₃.holds.chain .pid)
  exact (hsub f hf).2.2

end Exits

/-- The fibers due no later than `f` come before it, the others after it. -/
def Book.noLater (b : Book) (f g : ℕ) : Bool :=
  decide (b.deadlineNs g ≤ b.deadlineNs f)

theorem sorted_insert {b : Book} {f : ℕ} {l : List ℕ} (hl : l.Pairwise b.Earlier)
    (hf : ∀ g ∈ l, b.arrived g < b.arrived f) :
    (l.takeWhile (b.noLater f) ++ f :: l.dropWhile (b.noLater f)).Pairwise b.Earlier := by
  have hbefore : ∀ g ∈ l.takeWhile (b.noLater f), b.Earlier g f := by
    intro g hg
    have hno : b.noLater f g = true := List.mem_takeWhile_imp hg
    have hle : b.deadlineNs g ≤ b.deadlineNs f := of_decide_eq_true hno
    rcases hle.lt_or_eq with hlt | heq
    · exact .inl hlt
    · exact .inr ⟨heq, hf g (List.takeWhile_subset _ hg)⟩
  have hafter : ∀ g ∈ l.dropWhile (b.noLater f), b.Earlier f g := by
    have hdrop : (l.dropWhile (b.noLater f)).Pairwise b.Earlier :=
      hl.sublist (List.dropWhile_sublist _)
    rcases hd : l.dropWhile (b.noLater f) with _ | ⟨h, t⟩
    · simp
    · have hh : ¬ b.deadlineNs h ≤ b.deadlineNs f := by
        have hnot := List.head_dropWhile_not (b.noLater f) (l := l) (by simp [hd])
        simpa [hd, Book.noLater] using hnot
      rw [hd] at hdrop
      intro g hg
      rcases List.mem_cons.mp hg with rfl | hg
      · exact .inl (by omega)
      · rcases (List.pairwise_cons.mp hdrop).1 g hg with hlt | ⟨heq, -⟩
        · exact .inl (by omega)
        · exact .inl (by omega)
  rw [List.pairwise_append]
  refine ⟨hl.sublist (List.takeWhile_sublist _), ?_, ?_⟩
  · exact List.pairwise_cons.mpr ⟨hafter, hl.sublist (List.dropWhile_sublist _)⟩
  · intro g hg j hj
    rcases List.mem_cons.mp hj with rfl | hj
    · exact hbefore g hg
    · have hboth : (l.takeWhile (b.noLater f) ++ l.dropWhile (b.noLater f)).Pairwise
          b.Earlier := by rwa [List.takeWhile_append_dropWhile]
      exact (List.pairwise_append.mp hboth).2.2 g hg j hj

theorem Listed.insert {L L' : Links Waiters ℕ} {b : Book} {l : Waiters → List ℕ} {k : Waiters}
    {f : ℕ} {u v : List ℕ} (h : Listed ⟨L, b⟩ l) (hborn : f < b.born) (hfit : b.Fits f k)
    (hpend : b.pendingPark f = none) (hk : l k = u ++ v)
    (hL : Holds L' (update l k (u ++ f :: v))) (hslot : k = .stdin ∨ k = .signal → l k = [])
    (hsort : k = .timer → (u ++ f :: v).Pairwise b.Earlier ∧ b.arrived f < b.tick) :
    Listed ⟨L', { b with parkedCount := b.parkedCount + 1 }⟩
      (update l k (u ++ f :: v)) := by
  have hmem : ∀ j g, g ∈ update l k (u ++ f :: v) j → g ∈ l j ∨ (j = k ∧ g = f) := by
    intro j g hg
    by_cases hj : j = k
    · subst hj
      rw [update_self] at hg
      rw [hk]
      rcases List.mem_append.mp hg with hg | hg
      · exact .inl (List.mem_append_left _ hg)
      · rcases List.mem_cons.mp hg with rfl | hg
        · exact .inr ⟨rfl, rfl⟩
        · exact .inl (List.mem_append_right _ hg)
    · rw [update_of_ne hj] at hg
      exact .inl hg
  refine ⟨hL, ?_, ?_, ?_, ?_, ?_, ?_, ?_⟩
  · intro j g hg
    rcases hmem j g hg with hg | ⟨-, rfl⟩
    · exact h.born j g hg
    · exact hborn
  · intro j g hg
    rcases hg with hg | hg
    · rcases hmem j g hg with hg | ⟨rfl, rfl⟩
      · exact h.fits j g (.inl hg)
      · exact hfit
    · exact h.fits j g (.inr hg)
  · intro g j hg
    obtain ⟨hgb, hgoff⟩ := h.pending g j hg
    refine ⟨hgb, fun i hi => ?_⟩
    rcases hmem i g hi with hi | ⟨-, rfl⟩
    · exact hgoff i hi
    · exact absurd (hpend.symm.trans hg) (by simp)
  · intro j hj
    by_cases hjk : j = k
    · subst hjk
      have hnil := hslot hj
      rw [hk, List.append_eq_nil_iff] at hnil
      rw [update_self, hnil.1, hnil.2]
      exact le_rfl
    · rw [update_of_ne hjk]
      exact h.slot j hj
  · by_cases hkt : Waiters.timer = k
    · subst hkt
      rw [update_self]
      exact (hsort rfl).1
    · rw [update_of_ne hkt]
      exact h.sorted
  · intro g hg
    rcases hmem .timer g hg with hg | ⟨hkt, rfl⟩
    · exact h.stamped g hg
    · exact (hsort hkt.symm).2
  · have hlen : (u ++ f :: v).length = (l k).length + 1 := by
      rw [hk, List.length_append, List.length_append, List.length_cons, Nat.add_assoc]
    have htotal := total_update l k (u ++ f :: v)
    have hc : b.parkedCount = total l := h.count
    change b.parkedCount + 1 = _
    omega

theorem timerInsert_holds {s : State} {l : Waiters → List ℕ} (h : Listed s l) {f : ℕ}
    (hoff : ∀ j, f ∉ l j) :
    Holds (timerInsert f s).links (update l .timer
      ((l .timer).takeWhile (s.book.noLater f) ++
        f :: (l .timer).dropWhile (s.book.noLater f))) := by
  have hL : s.links.store (.next f) none = s.links := by
    have hnone := h.holds.off f hoff
    change (⟨s.links.head, update s.links.next f none⟩ : Links Waiters ℕ) = s.links
    rw [← hnone, update_eq_self]
  have hc := h.holds.chain .timer
  have hd := h.holds.nodup .timer
  have hlen := h.length_le .timer
  simp only [timerInsert, hL]
  rcases hl : l .timer with _ | ⟨c, t⟩
  · rw [hl] at hc
    have hhead : s.links.head .timer = none := hc
    simpa only [hhead, hl, List.takeWhile_nil, List.dropWhile_nil, List.nil_append]
      using h.holds.push (k := .timer) hoff
  · rw [hl] at hc hd hlen
    have hhead : s.links.head .timer = some c := hc.1
    by_cases hlt : s.book.deadlineNs f < s.book.deadlineNs c
    · have hno : s.book.noLater f c = false := by simpa [Book.noLater] using hlt
      simpa only [hhead, hlt, if_true, hl, List.takeWhile_cons, List.dropWhile_cons, hno,
        Bool.false_eq_true, if_false, List.nil_append]
        using h.holds.push (k := .timer) hoff
    · have hyes : s.book.noLater f c = true := by simpa [Book.noLater] using hlt
      have hfc : f ∉ c :: t := hl ▸ hoff .timer
      have hins := linkPast_spec (L := s.links) (p := s.book.noLater f)
        (Nat.le_of_succ_le hlen) hd hfc hc.2
      simp only [hhead, hlt, if_false, List.takeWhile_cons, List.dropWhile_cons, hyes, if_true]
      refine h.holds.insert hoff (u := c :: t.takeWhile (s.book.noLater f)) ?_ ?_ ?_ ?_
      · rw [hl, List.cons_append, List.takeWhile_append_dropWhile]
      · exact ⟨(congrFun hins.head .timer).trans hhead, hins.chain⟩
      · exact fun j _ => congrFun hins.head j
      · intro y hy hyf
        rw [hl] at hy
        obtain ⟨hyc, hyt⟩ := not_or.mp (mt List.mem_cons.mpr hy)
        exact hins.next y hyt hyc hyf

theorem Listed.link {s : State} {l : Waiters → List ℕ} (h : Listed s l) {k : Waiters} {f : ℕ}
    (hoff : ∀ j, f ∉ l j) (hborn : f < s.book.born) (hfit : s.book.Fits f k)
    (hpend : s.book.pendingPark f = none)
    (hslot : k = .stdin ∨ k = .signal → s.links.head k = none) :
    ∃ l', Listed (s.link k f) l' := by
  have hempty : k = .stdin ∨ k = .signal → l k = [] := by
    intro hk
    have hc := h.holds.chain k
    rw [hslot hk] at hc
    exact (show Chain s.links.next none [] from rfl).unique hc |>.symm
  have hfit' : ∀ b' : Book, b'.wait = s.book.wait → b'.deadlineNs = s.book.deadlineNs →
      b'.waitPid = s.book.waitPid → b'.Fits f k := fun b' hw hd hp =>
    hfit.congr (congrFun hw f) (congrFun hd f) (congrFun hp f)
  have hpush : ∀ L', Holds L' (update l k (f :: l k)) → k ≠ .timer →
      ∃ l', Listed ⟨L', { s.book with parkedCount := s.book.parkedCount + 1 }⟩ l' :=
    fun L' hL hk => ⟨_, h.insert (u := []) hborn hfit hpend rfl hL hempty
      fun hkt => absurd hkt hk⟩
  have hstore : k = .stdin ∨ k = .signal →
      Holds (s.links.store (.head k) (some f)) (update l k (f :: l k)) := by
    intro hk
    refine h.holds.insert (u := []) hoff rfl ?_ (fun j hj => update_of_ne hj _ _)
      fun _ _ _ => rfl
    refine ⟨update_self k _ _, ?_⟩
    rw [hempty hk]
    exact h.holds.off f hoff
  cases k with
  | timer =>
      have harr : ∀ g, g ≠ f →
          update s.book.arrived f s.book.tick g = s.book.arrived g :=
        fun g hg => update_of_ne hg _ _
      have hself : update s.book.arrived f s.book.tick f = s.book.tick := update_self f _ _
      have hstamp : Listed ⟨s.links, { s.book with
          arrived := update s.book.arrived f s.book.tick
          tick := s.book.tick + 1 }⟩ l := by
        refine h.touch hoff ⟨rfl, Nat.le_succ _, fun _ _ => rfl, fun _ _ => rfl,
          fun _ _ => rfl, fun g hg => ?_, fun _ _ => rfl⟩ rfl fun k hk => ?_
        · exact harr g fun he => hg (List.mem_singleton.mpr he)
        · exact absurd (hpend.symm.trans hk) (by simp)
      refine ⟨_, hstamp.insert hborn (hfit' _ rfl rfl rfl) hpend
        List.takeWhile_append_dropWhile.symm (timerInsert_holds h hoff) (by simp) fun _ => ?_⟩
      refine ⟨?_, ?_⟩
      · refine sorted_insert hstamp.sorted fun g hg => ?_
        have hgf : g ≠ f := fun he => hoff .timer (he ▸ hg)
        change update s.book.arrived f s.book.tick g < update s.book.arrived f s.book.tick f
        rw [harr g hgf, hself]
        exact h.stamped g hg
      · change update s.book.arrived f s.book.tick f < s.book.tick + 1
        rw [hself]
        exact Nat.lt_succ_self _
  | stdin => exact hpush _ (hstore (.inl rfl)) (by simp)
  | signal => exact hpush _ (hstore (.inr rfl)) (by simp)
  | socketRead => exact hpush _ (h.holds.push hoff) (by simp)
  | socketWrite => exact hpush _ (h.holds.push hoff) (by simp)
  | pid => exact hpush _ (h.holds.push hoff) (by simp)
  | filepool => exact hpush _ (h.holds.push hoff) (by simp)

theorem link_sameExits (s : State) (k : Waiters) (f : ℕ) :
    SameExits s.book (s.link k f).book := by
  cases k <;> exact ⟨rfl, rfl, rfl, rfl⟩

section Parks

variable (n : ℕ)

theorem park_inv {s : State} {b : Book} {f : ℕ} {k : Waiters} (h : Inv s) (hi : s.Idle f)
    (ha : Agree [f] s.book b) (he : SameExits s.book b)
    (hcount : b.parkedCount = s.book.parkedCount)
    (hpend : b.pendingPark f = s.book.pendingPark f) (hfit : b.Fits f k)
    (hslot : k = .stdin ∨ k = .signal → s.links.head k = none) :
    Inv (State.park n k f { s with book := b }) := by
  obtain ⟨l, hl⟩ := h.listed
  obtain ⟨hborn, -, hnone, -, hoffs⟩ := hi
  have hoff : ∀ j, f ∉ l j := fun j => hoffs j _ (hl.holds.chain j)
  have hset : Listed ⟨s.links, b⟩ l := hl.touch hoff ha hcount fun j hj => by
    rw [hpend, hnone] at hj
    exact absurd hj (by simp)
  have hset' : Inv ⟨s.links, b⟩ := h.of hset he
  unfold State.park
  split
  · refine hset'.of (hset.touch (f := f) hoff ?_ rfl fun j hj => ?_) ⟨rfl, rfl, rfl, rfl⟩
    · refine ⟨rfl, le_rfl, fun _ _ => rfl, fun _ _ => rfl, fun _ _ => rfl, fun _ _ => rfl,
        fun g hg => ?_⟩
      exact update_of_ne (fun he => hg (List.mem_singleton.mpr he)) _ _
    · obtain rfl : k = j := Option.some.inj ((update_self f _ _).symm.trans hj)
      exact ⟨ha.born ▸ hborn, hfit.congr rfl rfl rfl⟩
  · obtain ⟨l', hl'⟩ := hset.link hoff (ha.born ▸ hborn) hfit (hpend.trans hnone) hslot
    have hs := link_sameExits ⟨s.links, b⟩ k f
    refine hset'.of (m := l') (hl'.same ⟨rfl, le_rfl, fun _ _ => rfl, fun _ _ => rfl,
      fun _ _ => rfl, fun _ _ => rfl, fun _ _ => rfl⟩ rfl) ⟨?_, ?_, ?_, ?_⟩
    · exact hs.exited
    · exact hs.zombies
    · exact hs.pendingExits
    · exact hs.delivered

theorem agree_set {b c : Book} {f : ℕ} (hb : c.born = b.born) (ht : c.tick = b.tick)
    (hw : ∃ v, c.wait = update b.wait f v) (hd : ∃ v, c.deadlineNs = update b.deadlineNs f v)
    (hp : ∃ v, c.waitPid = update b.waitPid f v) (ha : c.arrived = b.arrived)
    (hk : ∃ v, c.pendingPark = update b.pendingPark f v) : Agree [f] b c := by
  have hne : ∀ g, g ∉ [f] → g ≠ f := fun g hg => fun h => hg (List.mem_singleton.mpr h)
  obtain ⟨w, hw⟩ := hw
  obtain ⟨d, hd⟩ := hd
  obtain ⟨p, hp⟩ := hp
  obtain ⟨k, hk⟩ := hk
  refine ⟨hb, ht.ge, fun g hg => ?_, fun g hg => ?_, fun g hg => ?_, fun g _ => by rw [ha],
    fun g hg => ?_⟩
  · rw [hw, update_of_ne (hne g hg)]
  · rw [hd, update_of_ne (hne g hg)]
  · rw [hp, update_of_ne (hne g hg)]
  · rw [hk, update_of_ne (hne g hg)]

theorem commitPark_inv {s : State} {f : ℕ} {abort : Bool} (h : Inv s)
    (hc : Clean s (.commitPark f abort)) : Inv (commitPark n f abort s) := by
  obtain ⟨l, hl⟩ := h.listed
  unfold commitPark
  split
  · exact h
  · rename_i k hk
    obtain ⟨hborn, hoff⟩ := hl.pending f k hk
    have hfit := hl.fits k f (.inr hk)
    have hclear : Listed ⟨s.links, { s.book with
        pendingPark := update s.book.pendingPark f none }⟩ l := by
      refine hl.touch (f := f) hoff ?_ rfl fun j hj => ?_
      · exact agree_set rfl rfl ⟨_, (update_eq_self f _).symm⟩ ⟨_, (update_eq_self f _).symm⟩
          ⟨_, (update_eq_self f _).symm⟩ rfl ⟨none, rfl⟩
      · exact absurd ((update_self f _ _).symm.trans hj) (by simp)
    cases abort with
    | true => exact h.of hclear ⟨rfl, rfl, rfl, rfl⟩
    | false =>
        have hslot : k = .stdin ∨ k = .signal → s.links.head k = none := hc k hk
        have hparked : Listed ⟨s.links, { s.book with
            pendingPark := update s.book.pendingPark f none
            parked := update s.book.parked f true }⟩ l :=
          hclear.same ⟨rfl, le_rfl, fun _ _ => rfl, fun _ _ => rfl, fun _ _ => rfl,
            fun _ _ => rfl, fun _ _ => rfl⟩ rfl
        obtain ⟨l', hl'⟩ := hparked.link hoff hborn (hfit.congr rfl rfl rfl)
          (update_self f _ _) hslot
        have hs := link_sameExits ⟨s.links, { s.book with
          pendingPark := update s.book.pendingPark f none
          parked := update s.book.parked f true }⟩ k f
        have hlinked := h.of hl' ⟨hs.exited, hs.zombies, hs.pendingExits, hs.delivered⟩
        simp only [Bool.false_eq_true, if_false]
        split
        · exact signalTryWake_inv n hlinked
        · exact hlinked

end Parks

section Steps

variable (n : ℕ)

theorem leave_inv {s : State} {b : Book} {f : ℕ} (h : Inv s) (ha : s.Awake f)
    (hb : Agree [f] s.book b) (he : SameExits s.book b)
    (hcount : b.parkedCount = s.book.parkedCount)
    (hpend : b.pendingPark f = s.book.pendingPark f) : Inv { s with book := b } := by
  obtain ⟨l, hl⟩ := h.listed
  obtain ⟨-, hnone, hoff⟩ := ha
  refine h.of (hl.touch (fun j => hoff j _ (hl.holds.chain j)) hb hcount fun k hk => ?_) he
  rw [hpend, hnone] at hk
  exact absurd hk (by simp)

theorem resume_inv {s : State} {f : ℕ} (h : Inv s) (ha : s.Awake f) : Inv (resume f s) := by
  have hsame : ∀ g : ℕ → ℕ, ∃ v, g = update g f v := fun g => ⟨_, (update_eq_self f _).symm⟩
  have hsame' : ∀ g : ℕ → ℤ, ∃ v, g = update g f v := fun g => ⟨_, (update_eq_self f _).symm⟩
  have hsame'' : ∀ g : ℕ → Option Waiters, ∃ v, g = update g f v :=
    fun g => ⟨_, (update_eq_self f _).symm⟩
  unfold resume
  split
  · exact leave_inv h ha (agree_set rfl rfl ⟨none, rfl⟩ ⟨0, rfl⟩ (hsame' _) rfl (hsame'' _))
      ⟨rfl, rfl, rfl, rfl⟩ rfl rfl
  · dsimp only
    split
    · exact leave_inv h ha
        (agree_set rfl rfl ⟨none, rfl⟩ (hsame _) ⟨0, rfl⟩ rfl (hsame'' _))
        ⟨rfl, rfl, rfl, rfl⟩ rfl rfl
    · exact leave_inv h ha
        (agree_set rfl rfl ⟨none, rfl⟩ (hsame _) (hsame' _) rfl (hsame'' _))
        ⟨rfl, rfl, rfl, rfl⟩ rfl rfl
  all_goals
    exact leave_inv h ha
      (agree_set rfl rfl ⟨none, rfl⟩ (hsame _) (hsame' _) rfl (hsame'' _))
      ⟨rfl, rfl, rfl, rfl⟩ rfl rfl

theorem flushReady_inv {s : State} (h : Inv s) : Inv { s with book := s.book.flushReady } := by
  have hfold : ∀ (G : List ℕ) (b : Book), ∃ parked,
      G.foldl Book.unpark b = { b with parked := parked } := by
    intro G
    induction G with
    | nil => exact fun b => ⟨b.parked, rfl⟩
    | cons f G ih =>
        intro b
        obtain ⟨parked, hp⟩ := ih (b.unpark f)
        exact ⟨parked, hp⟩
  obtain ⟨l, hl⟩ := h.listed
  obtain ⟨parked, hp⟩ := hfold s.book.readyBatch s.book
  rw [Book.flushReady, hp]
  exact h.of (hl.same ⟨rfl, le_rfl, fun _ _ => rfl, fun _ _ => rfl, fun _ _ => rfl,
    fun _ _ => rfl, fun _ _ => rfl⟩ rfl) ⟨rfl, rfl, rfl, rfl⟩

theorem Accounted.hand {b c : Book} {x y : List Exit} {e : Exit} {f : ℕ} (h : Accounted x b)
    (hp : (e :: (y ++ c.zombies)).Perm (x ++ b.zombies)) (he : c.exited = b.exited)
    (hd : c.delivered = b.delivered ++ [⟨f, some (.pid e.pid), e⟩]) : Accounted y c := by
  refine ⟨?_, ?_⟩
  · rw [he, hd, List.map_append, ← List.append_assoc]
    refine (h.places.trans (hp.symm.append_right _)).trans ?_
    exact (List.perm_append_singleton e _).symm
  · intro d hd'
    rw [hd] at hd'
    rcases List.mem_append.mp hd' with hd' | hd'
    · exact h.waited d hd'
    · obtain rfl := List.mem_singleton.mp hd'
      rfl

theorem takeChildExit_inv {s : State} (h : Inv s) (f : ℕ) (pid : ℤ) :
    Inv (takeChildExit f pid s) := by
  obtain ⟨l, hl⟩ := h.listed
  unfold takeChildExit
  split
  · exact h
  · rename_i e hfind
    obtain rfl : e.pid = pid := by simpa using List.find?_some hfind
    refine ⟨⟨l, hl.same ⟨rfl, le_rfl, fun _ _ => rfl, fun _ _ => rfl, fun _ _ => rfl,
      fun _ _ => rfl, fun _ _ => rfl⟩ rfl⟩, h.accounted.hand ?_ rfl rfl⟩
    exact (perm_of_find? hfind).append_right _

theorem waitpid_inv {s : State} (h : Inv s) (f : ℕ) (pid : ℤ) : Inv (waitpid f pid s) := by
  obtain ⟨l, hl⟩ := h.listed
  unfold waitpid
  split
  · exact h
  · rename_i e hfind
    obtain rfl : e.pid = pid := by simpa using List.find?_some hfind
    refine ⟨⟨l, hl.same ⟨rfl, le_rfl, fun _ _ => rfl, fun _ _ => rfl, fun _ _ => rfl,
      fun _ _ => rfl, fun _ _ => rfl⟩ rfl⟩, h.accounted.hand ?_ rfl rfl⟩
    refine List.perm_middle.symm.trans ?_
    exact (perm_of_find? hfind).append_left _

theorem childExit_inv {s : State} (h : Inv s) (e : Exit) :
    Inv (step n (.childExit e) s) := by
  obtain ⟨l, hl⟩ := h.listed
  refine ⟨⟨l, hl.same ⟨rfl, le_rfl, fun _ _ => rfl, fun _ _ => rfl, fun _ _ => rfl,
    fun _ _ => rfl, fun _ _ => rfl⟩ rfl⟩, ?_, h.accounted.waited⟩
  change (s.book.exited ++ [e]).Perm (s.book.pendingExits ++ (s.book.zombies ++ [e]) ++ _)
  have hp := (List.perm_append_singleton e s.book.exited).trans (h.accounted.places.cons e)
  refine hp.trans ?_
  rw [← List.append_assoc, ← List.cons_append]
  exact (List.perm_append_singleton e _).symm.append_right _

theorem spawn_inv {s : State} (h : Inv s) : Inv (step n .spawn s) := by
  obtain ⟨l, hl⟩ := h.listed
  refine h.of (m := l) ?_ ⟨rfl, rfl, rfl, rfl⟩
  exact ⟨hl.holds, fun k f hf => (hl.born k f hf).trans (Nat.lt_succ_self _), hl.fits,
    fun f k hf => ⟨(hl.pending f k hf).1.trans (Nat.lt_succ_self _), (hl.pending f k hf).2⟩,
    hl.slot, hl.sorted, hl.stamped, hl.count⟩

theorem parkTimer_inv {s : State} {f : ℕ} (h : Inv s) (hi : s.Idle f) (d : ℕ) :
    Inv (parkTimer n f d s) :=
  park_inv n h hi
    (agree_set rfl rfl ⟨_, rfl⟩ ⟨d, rfl⟩ ⟨_, (update_eq_self f _).symm⟩ rfl
      ⟨_, (update_eq_self f _).symm⟩)
    ⟨rfl, rfl, rfl, rfl⟩ rfl rfl
    ⟨.timer d, update_self f _ _, rfl, update_self f _ _⟩ (by simp)

theorem parkPid_inv {s : State} {f : ℕ} (h : Inv s) (hi : s.Idle f) (pid : ℤ) :
    Inv (parkPid n f pid s) :=
  park_inv n h hi
    (agree_set rfl rfl ⟨_, rfl⟩ ⟨_, (update_eq_self f _).symm⟩ ⟨pid, rfl⟩ rfl
      ⟨_, (update_eq_self f _).symm⟩)
    ⟨rfl, rfl, rfl, rfl⟩ rfl rfl
    ⟨.pid pid, update_self f _ _, rfl, update_self f _ _⟩ (by simp)

theorem parkSocketRead_inv {s : State} {f : ℕ} (h : Inv s) (hi : s.Idle f) (fd : ℤ)
    (hd : s.book.deadlineNs f = 0) : Inv (parkSocketRead n f fd s) :=
  park_inv n h hi
    (agree_set rfl rfl ⟨_, rfl⟩ ⟨_, (update_eq_self f _).symm⟩ ⟨fd, rfl⟩ rfl
      ⟨_, (update_eq_self f _).symm⟩)
    ⟨rfl, rfl, rfl, rfl⟩ rfl rfl
    ⟨.socketRead fd, update_self f _ _, rfl, hd⟩ (by simp)

theorem parkSocketWrite_inv {s : State} {f : ℕ} (h : Inv s) (hi : s.Idle f) (fd : ℤ) :
    Inv (parkSocketWrite n f fd s) :=
  park_inv n h hi
    (agree_set rfl rfl ⟨_, rfl⟩ ⟨_, (update_eq_self f _).symm⟩ ⟨fd, rfl⟩ rfl
      ⟨_, (update_eq_self f _).symm⟩)
    ⟨rfl, rfl, rfl, rfl⟩ rfl rfl
    ⟨.socketWrite fd, update_self f _ _, rfl, trivial⟩ (by simp)

theorem parkSocketReadTimeout_inv {s : State} {f : ℕ} (h : Inv s) (hi : s.Idle f) (fd : ℤ)
    {d : ℕ} (hd : d ≠ 0) : Inv (parkSocketReadTimeout n f fd d s) :=
  park_inv n h hi
    (agree_set rfl rfl ⟨_, rfl⟩ ⟨d, rfl⟩ ⟨fd, rfl⟩ rfl ⟨_, (update_eq_self f _).symm⟩)
    ⟨rfl, rfl, rfl, rfl⟩ rfl rfl
    ⟨.socketReadTimeout fd d, update_self f _ _, rfl, update_self f _ _, hd⟩ (by simp)

theorem runInPool_inv {s : State} {f : ℕ} (h : Inv s) (hi : s.Idle f) :
    Inv (runInPool n f s) :=
  park_inv n h hi
    (agree_set rfl rfl ⟨_, rfl⟩ ⟨_, (update_eq_self f _).symm⟩ ⟨_, (update_eq_self f _).symm⟩
      rfl ⟨_, (update_eq_self f _).symm⟩)
    ⟨rfl, rfl, rfl, rfl⟩ rfl rfl ⟨.filepool, update_self f _ _, rfl, trivial⟩ (by simp)

theorem parkStdin_inv {s : State} {f : ℕ} (h : Inv s) (hi : s.Idle f) :
    Inv (parkStdin n f s) := by
  unfold parkStdin
  split
  · exact h
  · rename_i hfree
    refine park_inv n h hi
      (agree_set rfl rfl ⟨_, rfl⟩ ⟨_, (update_eq_self f _).symm⟩ ⟨_, (update_eq_self f _).symm⟩
        rfl ⟨_, (update_eq_self f _).symm⟩)
      ⟨rfl, rfl, rfl, rfl⟩ rfl rfl ⟨.stdin, update_self f _ _, rfl, trivial⟩ fun _ => ?_
    exact not_not.mp hfree

theorem parkSignal_inv {s : State} {f : ℕ} (h : Inv s) (hi : s.Idle f) :
    Inv (parkSignal n f s) := by
  obtain ⟨l, hl⟩ := h.listed
  have hsame : ∀ (status : ℕ → ℤ) (pending : ℤ), Inv { s with book := { s.book with
      waitStatus := status, signalPending := pending } } := fun _ _ =>
    h.of (hl.same ⟨rfl, le_rfl, fun _ _ => rfl, fun _ _ => rfl, fun _ _ => rfl,
      fun _ _ => rfl, fun _ _ => rfl⟩ rfl) ⟨rfl, rfl, rfl, rfl⟩
  unfold parkSignal
  dsimp only
  split
  · exact hsame _ _
  split
  · exact hsame _ _
  · rename_i hfree _
    refine park_inv n (hsame _ _) (f := f) hi
      (agree_set rfl rfl ⟨_, rfl⟩ ⟨_, (update_eq_self f _).symm⟩ ⟨_, (update_eq_self f _).symm⟩
        rfl ⟨_, (update_eq_self f _).symm⟩)
      ⟨rfl, rfl, rfl, rfl⟩ rfl rfl ⟨.signal, update_self f _ _, rfl, trivial⟩ fun _ => ?_
    exact not_not.mp hfree

theorem step_inv {s : State} {e : Event} (h : Inv s) (he : Enabled s e) (hc : Clean s e) :
    Inv (step n e s) := by
  obtain ⟨l, hl⟩ := h.listed
  cases e with
  | spawn => exact spawn_inv n h
  | parkTimer f d => exact parkTimer_inv n h he d
  | parkPid f pid => exact parkPid_inv n h he pid
  | parkSocketRead f fd => exact parkSocketRead_inv n h he fd hc
  | parkSocketWrite f fd => exact parkSocketWrite_inv n h he fd
  | parkSocketReadTimeout f fd d => exact parkSocketReadTimeout_inv n h he fd hc
  | parkStdin f => exact parkStdin_inv n h he
  | parkSignal f => exact parkSignal_inv n h he
  | runInPool f => exact runInPool_inv n h he
  | commitPark f abort => exact commitPark_inv n h hc
  | unpark f => exact unpark_inv h f
  | timerRemove f => exact timerRemove_inv h f
  | detach f => exact detachFrom_inv h f heads
  | requestCancel f => exact requestCancel_inv h f
  | resume f => exact resume_inv h he
  | unwind f =>
      exact leave_inv h he
        (agree_set rfl rfl ⟨none, rfl⟩ ⟨_, (update_eq_self f _).symm⟩
          ⟨_, (update_eq_self f _).symm⟩ rfl ⟨_, (update_eq_self f _).symm⟩)
        ⟨rfl, rfl, rfl, rfl⟩ rfl rfl
  | timerDrain now =>
      have hd := timerDrain_drained n hl now
      exact h.of hd.listed hd.woke.sameExits
  | socketReadDrain pfds =>
      have hd := drained (woke_socketReady n) (stable_socketReady n pfds pollIn) hl .socketRead
      exact h.of hd.listed hd.woke.sameExits
  | socketWriteDrain pfds =>
      have hd :=
        drained (woke_socketReady n) (stable_socketReady n pfds pollOut) hl .socketWrite
      exact h.of hd.listed hd.woke.sameExits
  | socketReadDeadlineDrain now =>
      have hd := drained (woke_socketExpired n) (stable_socketExpired n now) hl .socketRead
      exact h.of hd.listed hd.woke.sameExits
  | filepoolDrain =>
      have hd := drained (woke_poolDone n) (stable_poolDone n) hl .filepool
      exact h.of hd.listed hd.woke.sameExits
  | stdinReady => exact stdinReady_inv n h
  | signalDrain signo => exact signalDrain_inv n h signo
  | sigchldDrain reaped left => exact (sigchldDrain_spec n h he).1
  | flushReady => exact flushReady_inv h
  | poolResult f =>
      exact h.of (hl.same ⟨rfl, le_rfl, fun _ _ => rfl, fun _ _ => rfl, fun _ _ => rfl,
        fun _ _ => rfl, fun _ _ => rfl⟩ rfl) ⟨rfl, rfl, rfl, rfl⟩
  | childExit x => exact childExit_inv n h x
  | takeChildExit f pid => exact takeChildExit_inv h f pid
  | waitpid f pid => exact waitpid_inv h f pid

theorem boot_inv : Inv {} :=
  ⟨⟨fun _ => [], ⟨Holds.empty, by simp, fun k f h => by simp at h, by simp, by simp, by simp,
    by simp, rfl⟩⟩, ⟨List.Perm.refl _, by simp⟩⟩

theorem Run.inv {s : State} (h : Run n Clean s) : Inv s := by
  induction h with
  | boot => exact boot_inv
  | step _ he hc ih => exact step_inv n ih he hc

theorem Inv.exact {s : State} (h : Inv s) : ∃ l, Exact n s l := by
  obtain ⟨l, hl⟩ := h.listed
  refine ⟨l, hl.holds.chain, hl.holds.nodup, hl.holds.disjoint, hl.sorted, hl.count, ?_, ?_,
    h.accounted, fun reaped left hz => (sigchldDrain_spec n h hz).2⟩
  · intro now
    rw [(timerDrain_drained n hl now).woke.woken, List.filter_congr (hl.due_timer now)]
  · intro now
    have hd := drained (woke_socketExpired n) (stable_socketExpired n now) hl .socketRead
    rw [← List.filter_congr (hl.due_read now)]
    exact hd.woke.woken

end Steps

theorem State.off_of_empty {s : State} (h : ∀ k, s.links.head k = none) (f : ℕ) : s.Off f := by
  intro k l hc
  rw [h k] at hc
  rw [(show Chain s.links.next none [] from rfl).unique hc |>.symm]
  exact List.not_mem_nil

/-- A sleep until `10` is cancelled, and the fiber then receives from a socket. -/
def staleRead : State :=
  step 1 (.parkSocketRead 0 3) (step 1 (.unwind 0) (step 1 (.requestCancel 0)
    (step 1 (.parkTimer 0 10) (step 1 .spawn {}))))

theorem run_staleRead : Run 1 (fun _ _ => True) staleRead := by
  have h₁ : Run 1 (fun _ _ => True) (step 1 .spawn {}) := Run.boot.step (e := .spawn) trivial trivial
  have h₂ := h₁.step (e := .parkTimer 0 10)
    ⟨by decide, rfl, rfl, rfl, State.off_of_empty (fun _ => rfl) 0⟩ trivial
  have h₃ := h₂.step (e := .requestCancel 0) trivial trivial
  have hempty : ∀ k, (step 1 (.requestCancel 0)
      (step 1 (.parkTimer 0 10) (step 1 .spawn {}))).links.head k = none := by
    intro k
    cases k <;> rfl
  have h₄ := h₃.step (e := .unwind 0) ⟨rfl, rfl, State.off_of_empty hempty 0⟩ trivial
  exact h₄.step (e := .parkSocketRead 0 3)
    ⟨by decide, rfl, rfl, rfl, State.off_of_empty hempty 0⟩ trivial

end Kaikai.Reactor
