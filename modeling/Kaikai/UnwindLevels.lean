import Kaikai.Unwind

namespace Kaikai.Unwind

open Evidence Evidence.Ev

/-- The closures a handle has pending, the innermost first. -/
def framesOf (n : Ev) (rframes : List ResumeFrame) : List ℕ :=
  (rframes.filter fun r => r.node = n).map ResumeFrame.clo

theorem framesOf_cons_self (n : Ev) (clo : ℕ) (rframes : List ResumeFrame) :
    framesOf n (⟨n, clo⟩ :: rframes) = clo :: framesOf n rframes := by
  simp [framesOf]

theorem framesOf_cons_of_ne {n m : Ev} (h : m ≠ n) (clo : ℕ) (rframes : List ResumeFrame) :
    framesOf n (⟨m, clo⟩ :: rframes) = framesOf n rframes := by
  simp [framesOf, h]

theorem framesOf_eq_nil {n : Ev} {rframes : List ResumeFrame} :
    framesOf n rframes = [] ↔ ∀ r ∈ rframes, r.node ≠ n := by
  simp [framesOf, List.filter_eq_nil_iff]

theorem framesPending_iff {n : Ev} {rframes : List ResumeFrame} :
    framesPending n rframes = true ↔ framesOf n rframes ≠ [] := by
  rw [Ne, framesOf_eq_nil, framesPending, List.any_eq_true]
  push Not
  simp only [decide_eq_true_eq]

theorem framesOf_of_frameTake_none {n : Ev} {rframes : List ResumeFrame}
    (h : frameTake n rframes = none) : framesOf n rframes = [] := by
  induction rframes with
  | nil => rfl
  | cons r rest ih =>
      rw [frameTake] at h
      split at h
      · cases h
      · next hne =>
          rw [Option.map_eq_none_iff] at h
          rw [framesOf, List.filter_cons_of_neg (by simpa using hne)]
          exact ih h

theorem framesOf_of_frameTake {n : Ev} {rframes rest : List ResumeFrame} {clo : ℕ}
    (h : frameTake n rframes = some (clo, rest)) :
    framesOf n rframes = clo :: framesOf n rest ∧
      ∀ k, k ≠ n → framesOf k rest = framesOf k rframes := by
  induction rframes generalizing rest with
  | nil => cases h
  | cons r rframes ih =>
      obtain ⟨m, c⟩ := r
      rw [frameTake] at h
      split at h
      · next heq =>
          injection h with h
          injection h with hclo hrest
          have hm : m = n := heq
          have hc : c = clo := hclo
          subst hm hc hrest
          exact ⟨framesOf_cons_self .., fun k hk => (framesOf_cons_of_ne (Ne.symm hk) ..).symm⟩
      · next hne =>
          have hm : m ≠ n := hne
          rw [Option.map_eq_some_iff] at h
          obtain ⟨⟨c', rs⟩, htake, heq⟩ := h
          injection heq with hclo hrest
          have hc : c' = clo := hclo
          subst hc hrest
          obtain ⟨hself, hother⟩ := ih htake
          refine ⟨?_, fun k hk => ?_⟩
          · rw [framesOf_cons_of_ne hm, framesOf_cons_of_ne hm, hself]
          · by_cases hkm : m = k
            · subst hkm
              rw [framesOf_cons_self, framesOf_cons_self, hother m hk]
            · rw [framesOf_cons_of_ne hkm, framesOf_cons_of_ne hkm, hother k hk]

theorem framesOf_framesDrop (n k : Ev) (rframes : List ResumeFrame) :
    framesOf k (framesDrop n rframes) = if k = n then [] else framesOf k rframes := by
  fun_induction framesDrop n rframes with
  | case1 rframes htake =>
      split
      · next heq =>
          rw [heq]
          exact framesOf_of_frameTake_none htake
      · rfl
  | case2 rframes clo rest htake ih =>
      rw [ih]
      split
      · rfl
      · next hne => exact (framesOf_of_frameTake htake).2 k hne

/-- What was registered since, with the handles that began to drain since; these are no older than
`age`. -/
def Over (age : ℕ) (start unw : List Entry) : Prop :=
  ∃ new, unw = new ++ start ∧ ∀ n, .handle n ∈ new → age ≤ n.address

theorem Over.refl (age : ℕ) (unw : List Entry) : Over age unw unw :=
  ⟨[], rfl, fun _ h => by cases h⟩

theorem Over.length_le {age : ℕ} {start unw : List Entry} (h : Over age start unw) :
    start.length ≤ unw.length := by
  obtain ⟨new, rfl, _⟩ := h
  rw [List.length_append]
  exact Nat.le_add_left _ _

theorem Over.eq {age : ℕ} {start unw : List Entry} (h : Over age start unw)
    (hlength : unw.length = start.length) : unw = start := by
  obtain ⟨new, rfl, _⟩ := h
  rw [List.length_append, Nat.add_eq_right, List.length_eq_zero_iff] at hlength
  rw [hlength, List.nil_append]

theorem Over.trans {age age' : ℕ} {start unw unw' : List Entry} (h : Over age start unw)
    (h' : Over age' unw unw') (hage : age ≤ age') : Over age start unw' := by
  obtain ⟨new, rfl, hnew⟩ := h
  obtain ⟨new', rfl, hnew'⟩ := h'
  refine ⟨new' ++ new, (List.append_assoc ..).symm, fun n hn => ?_⟩
  obtain hn | hn := List.mem_append.1 hn
  · exact Nat.le_trans hage (hnew' n hn)
  · exact hnew n hn

theorem Over.cons {age : ℕ} {start unw : List Entry} (h : Over age start unw) {e : Entry}
    (he : ∀ n, e = .handle n → age ≤ n.address) : Over age start (e :: unw) := by
  refine h.trans ⟨[e], rfl, fun n hn => ?_⟩ (Nat.le_refl _)
  exact he n (List.mem_singleton.1 hn).symm

theorem Over.handle {n : Ev} {unw : List Entry} : Over n.address unw (.handle n :: unw) := by
  refine (Over.refl _ _).cons fun m hm => ?_
  injection hm with hm
  exact Nat.le_of_eq (congrArg Ev.address hm)

theorem Over.slots {age : ℕ} {start unw : List Entry} (h : Over age start unw)
    (base : List (Option ℕ)) : Over age start (.slots base :: unw) :=
  h.cons fun _ hn => by cases hn

theorem Over.of_append {age : ℕ} {start gone left : List Entry} (h : Over age start (gone ++ left))
    (hlength : start.length ≤ left.length) : Over age start left := by
  obtain ⟨new, heq, hnew⟩ := h
  obtain ⟨mid, hnewEq, hleft⟩ | ⟨mid, hgone, hstart⟩ := List.append_eq_append_iff.1 heq
  · exact ⟨mid, hleft, fun n hn => hnew n (hnewEq ▸ List.mem_append_right _ hn)⟩
  · have hmid : mid = [] := by
      have hlen := congrArg List.length hstart
      rw [List.length_append] at hlen
      exact List.length_eq_zero_iff.1 (by omega)
    rw [hmid, List.nil_append] at hstart
    exact hstart ▸ Over.refl age start

theorem Over.of_tail {age : ℕ} {start unw : List Entry} (h : Over age start unw)
    (hlength : start.length < unw.length) : Over age start unw.tail := by
  cases unw with
  | nil => exact absurd hlength (Nat.not_lt_zero _)
  | cons e unw =>
      have hover : Over age start ([e] ++ unw) := h
      exact hover.of_append (Nat.le_of_lt_succ hlength)

theorem framesOf_entryRelease (k : Ev) (rframes : List ResumeFrame) (e : Entry) :
    (e = .handle k → framesOf k (entryRelease rframes e) = []) ∧
      (e ≠ .handle k → framesOf k (entryRelease rframes e) = framesOf k rframes) := by
  cases e with
  | slots base => exact ⟨(fun h => by cases h), fun _ => rfl⟩
  | cell v => exact ⟨(fun h => by cases h), fun _ => rfl⟩
  | handle n =>
      rw [entryRelease, framesOf_framesDrop]
      refine ⟨fun h => if_pos ?_, fun h => if_neg fun heq => h (by rw [heq])⟩
      injection h with h
      exact h.symm

theorem releaseTo_spec (mark : ℕ) (unw : List Entry) (rframes : List ResumeFrame) :
    (releaseTo mark unw rframes).1 = unw.drop (unw.length - mark) ∧
      ∀ k, (framesOf k rframes = [] ∨ .handle k ∈ unw.take (unw.length - mark) →
          framesOf k (releaseTo mark unw rframes).2 = []) ∧
        (.handle k ∉ unw.take (unw.length - mark) →
          framesOf k (releaseTo mark unw rframes).2 = framesOf k rframes) := by
  induction unw generalizing rframes with
  | nil =>
      rw [List.take_nil]
      exact ⟨List.drop_nil.symm, fun k => ⟨fun h => h.resolve_right List.not_mem_nil, fun _ => rfl⟩⟩
  | cons e unw ih =>
      rw [releaseTo, List.length_cons]
      split
      · next hlt =>
          obtain ⟨hunw, hframes⟩ := ih (entryRelease rframes e)
          have hsub : unw.length + 1 - mark = (unw.length - mark) + 1 := by omega
          rw [hsub, List.drop_succ_cons, List.take_succ_cons]
          refine ⟨hunw, fun k => ?_⟩
          obtain ⟨hself, hother⟩ := framesOf_entryRelease k rframes e
          obtain ⟨hnil, hsame⟩ := hframes k
          refine ⟨fun h => hnil ?_, fun h => ?_⟩
          · by_cases he : e = .handle k
            · exact .inl (hself he)
            · rw [hother he]
              exact h.imp_right fun hmem => (List.mem_cons.1 hmem).resolve_left (Ne.symm he)
          · rw [List.mem_cons, not_or] at h
            rw [hsame h.2, hother (Ne.symm h.1)]
      · next hle =>
          have hsub : unw.length + 1 - mark = 0 := by omega
          rw [hsub]
          exact ⟨rfl, fun k => ⟨fun h => h.resolve_right List.not_mem_nil, fun _ => rfl⟩⟩

/-- The nodes of a chain down to one. -/
def segment (stop : Ev) : Ev → List Ev
  | null => []
  | node h p f => if node h p f = stop then [] else node h p f :: segment stop p

/-- A node is younger than those below it. -/
def Descending : Ev → Prop
  | null => True
  | node h p _ => (∀ m, p.onChain m = true → m.address < h.id) ∧ Descending p

theorem Descending.of_onChain {n m : Ev} (h : Descending n) (hm : n.onChain m = true) :
    Descending m := by
  induction n with
  | null => cases hm
  | node hd p f ih _ =>
      obtain rfl | hp := onChain_node.1 hm
      · exact h
      · exact ih h.2 hp

theorem Descending.lt {n k : Ev} (h : Descending n) (hk : n.parent.onChain k = true) :
    k.address < n.address := by
  cases n with
  | null => cases hk
  | node hd p f => exact h.1 k hk

theorem Descending.onChain_parent {n m k : Ev} (h : Descending n) (hm : n.onChain m = true)
    (hk : n.onChain k = true) (hlt : k.address < m.address) : m.parent.onChain k = true := by
  induction n with
  | null => cases hm
  | node hd p f ih _ =>
      obtain rfl | hpm := onChain_node.1 hm
      · obtain rfl | hpk := onChain_node.1 hk
        · exact absurd hlt (Nat.lt_irrefl _)
        · exact hpk
      · obtain rfl | hpk := onChain_node.1 hk
        · exact absurd (Nat.lt_trans hlt (h.1 m hpm)) (Nat.lt_irrefl _)
        · exact ih h.2 hpm hpk

theorem parent_onChain {n : Ev} : n.parent = null ∨ n.onChain n.parent = true :=
  onChain_hopUp 1 n

theorem segment_parent {top cur : Ev} (h : top.onChain cur = true) :
    segment cur.parent top = segment cur top ++ [cur] := by
  induction top with
  | null => cases h
  | node hd p f ih _ =>
      obtain rfl | hp := onChain_node.1 h
      · have hne : node hd p f ≠ (node hd p f).parent := by
          intro heq
          have hsize := congrArg sizeOf heq
          rw [Ev.parent, node.sizeOf_spec] at hsize
          omega
        have hself : segment p p = [] := by
          cases p with
          | null => rfl
          | node hd' p' f' => exact if_pos rfl
        rw [segment, if_neg hne, segment, if_pos rfl, List.nil_append, Ev.parent, hself]
      · have hne : node hd p f ≠ cur := by
          rintro rfl
          exact absurd ((not_onChain_parent hd p f).symm.trans hp) Bool.false_ne_true
        have hne' : node hd p f ≠ cur.parent := by
          intro heq
          have hle := sizeOf_le_of_onChain hp
          have hle' := sizeOf_parent_le cur
          rw [← heq, node.sizeOf_spec] at hle'
          omega
        rw [segment, segment, if_neg hne, if_neg hne', ih hp, List.cons_append]

theorem not_onChain_of_mem_segment {top cur m : Ev} (h : top.onChain cur = true)
    (hm : m ∈ segment cur top) : ¬ cur.onChain m = true := by
  induction top with
  | null => cases h
  | node hd p f ih _ =>
      rw [segment] at hm
      split at hm
      · cases hm
      · next hne =>
          have hp := (onChain_node.1 h).resolve_left hne
          obtain rfl | hm := List.mem_cons.1 hm
          · exact fun hon =>
              absurd ((not_onChain_parent hd p f).symm.trans (onChain_trans hp hon)) Bool.false_ne_true
          · exact ih hp hm

/-- Below `age` the frames only grew, and those of handles off the chain are the same. -/
def Grown (top : Ev) (age : ℕ) (before after : List ResumeFrame) : Prop :=
  ∀ k, k.address < age →
    framesOf k before <:+ framesOf k after ∧
      (top.onChain k = false → framesOf k after = framesOf k before)

theorem Grown.refl (top : Ev) (age : ℕ) (rframes : List ResumeFrame) :
    Grown top age rframes rframes :=
  fun _ _ => ⟨List.suffix_refl _, fun _ => rfl⟩

theorem Grown.trans {top top' : Ev} {age age' : ℕ} {rf rf' rf'' : List ResumeFrame}
    (h : Grown top age rf rf') (h' : Grown top' age' rf' rf'') (hage : age ≤ age')
    (hoff : ∀ k, k.address < age → top.onChain k = false → top'.onChain k = false) :
    Grown top age rf rf'' := by
  intro k hk
  obtain ⟨hgrown, hsame⟩ := h k hk
  obtain ⟨hgrown', hsame'⟩ := h' k (Nat.lt_of_lt_of_le hk hage)
  exact ⟨hgrown.trans hgrown', fun htop => (hsame' (hoff k hk htop)).trans (hsame htop)⟩

theorem Grown.cons {top : Ev} {age : ℕ} {rf rf' : List ResumeFrame} (h : Grown top age rf rf')
    {n : Ev} (hn : top.onChain n = true ∨ age ≤ n.address) (clo : ℕ) :
    Grown top age rf (⟨n, clo⟩ :: rf') := by
  intro k hk
  obtain ⟨hgrown, hsame⟩ := h k hk
  by_cases hkn : n = k
  · subst hkn
    have hon := hn.resolve_right (Nat.not_le.2 hk)
    rw [framesOf_cons_self]
    exact ⟨hgrown.trans (List.suffix_cons ..), fun hoff => absurd (hoff.symm.trans hon) Bool.false_ne_true⟩
  · rw [framesOf_cons_of_ne hkn]
    exact ⟨hgrown, hsame⟩

theorem Grown.congr {top : Ev} {age : ℕ} {rf rf' rf'' : List ResumeFrame} (h : Grown top age rf rf')
    (hsame : ∀ k, k.address < age → framesOf k rf'' = framesOf k rf') : Grown top age rf rf'' := by
  intro k hk
  rw [hsame k hk]
  exact h k hk

/-- The handle that a task belongs to. -/
def Task.node : Task → Option Ev
  | .body n _ => some n
  | .clause _ => none
  | .cleanup _ _ => none
  | .closed n _ => some n
  | .exit _ => none
  | .tail n _ => some n
  | .drain n _ _ => some n

/-- Each resume frame waits for a handle that is open. -/
def Owned (tasks : List Task) (rframes : List ResumeFrame) : Prop :=
  ∀ n, framesOf n rframes ≠ [] → ∃ t ∈ tasks, t.node = some n

/-- Code runs on top of these tasks. -/
def Runs (tasks : List Task) : Prop :=
  ∀ t ∈ tasks.head?, t.runs = true

/-- The value went through the frames applied so far, each taking what the one before it gave. -/
def Feeds (start : ℕ) : List (ℕ × ℕ × ℕ) → ℕ → Prop
  | [], v => v = start
  | (_, taken, gave) :: rest, v => v = gave ∧ Feeds start rest taken

/-- A drain has applied the first of the frames that were pending, and the others wait. -/
structure Drain.InOrder (d : Drain) (left : List ℕ) : Prop where
  given : d.given = (d.fed.map fun f => f.1).reverse ++ (d.applying.toList ++ left)
  feeds : Feeds d.start d.fed d.value

/-- The handles whose frames an exit is to release, when it stands at `cur` on the way to `target`,
are on the chain or draining. -/
def Held (target cur : Ev) (unw : List Entry) (rframes : List ResumeFrame) : Prop :=
  ∀ n, framesOf n rframes ≠ [] →
    target ≠ null ∧ (n = target ∨ n.address < target.address) ∨
      cur.onChain n = true ∨ .handle n ∈ unw

/-- What an exit has done when it stands at `cur` on the way to `target`. -/
structure Walk (born : List Birth) (x : Exit) (target cur : Ev) (unw : List Entry)
    (rframes : List ResumeFrame) : Prop where
  onTop : cur = null ∨ x.top.onChain cur = true
  toTarget : target ≠ null →
    x.top.onChain target = true ∧ (cur.onChain target = true ∨ cur = target.parent)
  ran : x.ran.reverse =
    (segment (if x.visited then cur.parent else cur) x.top).filter fun n => n.cleanup
  visited : x.visited = true → cur ≠ null ∧ cur ≠ target.parent
  released : x.released ++ unw = x.unw
  left : ∀ b ∈ born, cur.onChain b.node = true ∨ b.node = target ∧ target ≠ null →
    b.unw.length ≤ unw.length
  gone : ∀ b ∈ born, b.node ∈ segment cur x.top → unw.length ≤ b.unw.length
  skipped : ∀ m ∈ segment cur x.top, m ≠ target → framesOf m rframes = []
  kept : ∀ k, cur ≠ null ∧ k.address ≤ cur.address ∨
      target ≠ null ∧ cur = target.parent ∧ k.address < target.address →
    framesOf k x.rframes <:+ framesOf k rframes ∧
      (cur.onChain k = false → framesOf k rframes = framesOf k x.rframes)
  keptTarget : target ≠ null → framesOf target x.rframes <:+ framesOf target rframes
  held : Held target cur unw rframes

/-- Each task finds its unwind stack and the frames of older handles again when the tasks on top of
it are gone. -/
inductive Live (born : List Birth) (done : List ℕ) :
    List Task → List Frame → List Entry → List ResumeFrame → Ev → ℕ → Prop
  | base {unw rf next} : Owned [] rf → Live born done [] [] unw rf null next
  | ended {unw rf next} : Owned [] rf → Live born done [] [.ended] unw rf null next
  | body {b ts fs unw rf rf' next} : b ∈ born → b.node ≠ null → b.node.address < next →
      Over (b.node.address + 1) b.unw unw → Grown b.node.parent b.node.address rf' rf →
      Owned (.body b.node b.unw :: ts) rf → Runs ts →
      Live born done ts fs b.unw rf' b.node.parent b.node.address →
      Live born done (.body b.node b.unw :: ts) (.handle b.node :: fs) unw rf b.node next
  | closed {b ts fs rf rf' next} : b ∈ born → b.node ≠ null → b.node.address < next →
      Grown b.node.parent b.node.address rf' rf → Owned (.closed b.node b.unw :: ts) rf →
      Runs ts → Live born done ts fs b.unw rf' b.node.parent b.node.address →
      Live born done (.closed b.node b.unw :: ts) (.handle b.node :: fs) b.unw rf b.node next
  | clause {start ts prev scope fs unw rf rf' top age next} : age ≤ next →
      Over age start unw → Grown top age rf' rf → Owned (.clause start :: ts) rf → Runs ts →
      Live born done ts fs start rf' top age →
      Live born done (.clause start :: ts) (.clause prev scope :: fs) unw rf top next
  | finish {n start ts fs savedFl scope unw rf rf' age next} : age ≤ next → n.address ∈ done →
      (∀ i, n.fl = some i → savedFl = nearest i n) → Over age start unw →
      Grown n.parent age rf' rf → Owned (.cleanup n start :: .body n start :: ts) rf →
      Live born done (.body n start :: ts) (.handle n :: fs) start rf' n age →
      Live born done (.cleanup n start :: .body n start :: ts)
        (.cleanup n n savedFl scope :: .handle n :: fs) unw rf n.parent next
  | resume {x ts fs target cur saved savedFl scope start unw rf rf' age next} : age ≤ next →
      x.visited = true → (∀ i, cur.fl = some i → savedFl = nearest i cur) →
      Over age start unw → Grown cur.parent age rf' rf →
      Owned (.cleanup cur start :: .exit x :: ts) rf →
      Live born done (.exit x :: ts) (.unwind target cur :: fs) start rf' cur age →
      Live born done (.cleanup cur start :: .exit x :: ts)
        (.cleanup cur saved savedFl scope :: .unwind target cur :: fs) unw rf cur.parent next
  | exit {x ts fs target cur unw rf next} : x.next ≤ next →
      (x.visited = true → cur.address ∈ done) → Walk born x target cur unw rf →
      Owned (.exit x :: ts) rf → Runs ts → Live born done ts fs x.unw x.rframes x.top x.next →
      Live born done (.exit x :: ts) (.unwind target cur :: fs) unw rf cur next
  | tail {b ts fs unw rf rf' next} : b ∈ born → b.node ≠ null → b.node.address < next →
      Over (b.node.address + 1) b.unw unw → Grown b.node.parent b.node.address rf' rf →
      Owned (.tail b.node b.unw :: ts) rf → Runs ts →
      Live born done ts fs b.unw rf' b.node.parent b.node.address →
      Live born done (.tail b.node b.unw :: ts) fs unw rf b.node.parent next
  | take {b d ts fs rf rf' next} : b ∈ born → b.node ≠ null → b.node.address < next →
      d.applying = none → d.InOrder (framesOf b.node rf) →
      Grown b.node.parent b.node.address rf' rf → Owned (.drain b.node d b.unw :: ts) rf →
      Runs ts → Live born done ts fs b.unw rf' b.node.parent b.node.address →
      Live born done (.drain b.node d b.unw :: ts) fs (.handle b.node :: b.unw) rf b.node.parent
        next
  | give {b d clo ts fs unw rf rf' next} : b ∈ born → b.node ≠ null → b.node.address < next →
      d.applying = some clo → d.InOrder (framesOf b.node rf) →
      Over (b.node.address + 1) (.slots [some clo] :: .handle b.node :: b.unw) unw →
      Grown b.node.parent b.node.address rf' rf → Owned (.drain b.node d b.unw :: ts) rf →
      Runs ts → Live born done ts fs b.unw rf' b.node.parent b.node.address →
      Live born done (.drain b.node d b.unw :: ts) fs unw rf b.node.parent next

theorem onChain_self_of_ne_null {n : Ev} (h : n ≠ null) : n.onChain n = true := by
  cases n with
  | null => exact absurd rfl h
  | node hd p f => exact onChain_self hd p f

theorem eq_or_parent_onChain {n m : Ev} (h : n.onChain m = true) :
    m = n ∨ n.parent.onChain m = true := by
  cases n with
  | null => cases h
  | node hd p f => exact (onChain_node.1 h).imp_left Eq.symm

theorem parent_not_onChain {n : Ev} (h : n ≠ null) : n.parent.onChain n = false := by
  cases n with
  | null => exact absurd rfl h
  | node hd p f => exact not_onChain_parent hd p f

section Live

variable {born : List Birth} {done : List ℕ} {ts : List Task} {fs : List Frame} {unw : List Entry}
  {rf : List ResumeFrame} {top : Ev} {next : ℕ}

theorem Live.owned (h : Live born done ts fs unw rf top next) : Owned ts rf := by
  cases h <;> assumption

theorem Live.young (h : Live born done ts fs unw rf top next) {m : Ev}
    (hm : top.onChain m = true) : m.address < next := by
  induction h with
  | base _ => cases hm
  | ended _ => cases hm
  | body _ _ hage _ _ _ _ _ ih =>
      obtain rfl | hp := eq_or_parent_onChain hm
      · exact hage
      · exact Nat.lt_trans (ih hp) hage
  | closed _ _ hage _ _ _ _ ih =>
      obtain rfl | hp := eq_or_parent_onChain hm
      · exact hage
      · exact Nat.lt_trans (ih hp) hage
  | clause hage _ _ _ _ _ ih => exact Nat.lt_of_lt_of_le (ih hm) hage
  | finish hage _ _ _ _ _ _ ih => exact Nat.lt_of_lt_of_le (ih (onChain_parent hm)) hage
  | resume hage _ _ _ _ _ _ ih => exact Nat.lt_of_lt_of_le (ih (onChain_parent hm)) hage
  | exit hage _ hwalk _ _ _ ih =>
      obtain rfl | htop := hwalk.onTop
      · cases hm
      · exact Nat.lt_of_lt_of_le (ih (onChain_trans htop hm)) hage
  | tail _ _ hage _ _ _ _ _ ih => exact Nat.lt_trans (ih hm) hage
  | take _ _ hage _ _ _ _ _ _ ih => exact Nat.lt_trans (ih hm) hage
  | give _ _ hage _ _ _ _ _ _ _ ih => exact Nat.lt_trans (ih hm) hage

theorem Descending.parent {n : Ev} (h : Descending n) : Descending n.parent := by
  cases n with
  | null => exact h
  | node hd p f => exact h.2

theorem Descending.of_parent {n : Ev} (h : Descending n.parent)
    (hlt : ∀ m, n.parent.onChain m = true → m.address < n.address) : Descending n := by
  cases n with
  | null => exact h
  | node hd p f => exact ⟨hlt, h⟩

theorem Live.descending (h : Live born done ts fs unw rf top next) : Descending top := by
  induction h with
  | base _ => trivial
  | ended _ => trivial
  | body _ _ _ _ _ _ _ hrest ih => exact ih.of_parent fun m hm => hrest.young hm
  | closed _ _ _ _ _ _ hrest ih => exact ih.of_parent fun m hm => hrest.young hm
  | clause _ _ _ _ _ _ ih => exact ih
  | finish _ _ _ _ _ _ _ ih => exact ih.parent
  | resume _ _ _ _ _ _ _ ih => exact ih.parent
  | exit _ _ hwalk _ _ _ ih =>
      obtain rfl | htop := hwalk.onTop
      · trivial
      · exact ih.of_onChain htop
  | tail _ _ _ _ _ _ _ _ ih => exact ih
  | take _ _ _ _ _ _ _ _ _ ih => exact ih
  | give _ _ _ _ _ _ _ _ _ _ ih => exact ih

theorem Live.taskYoung (h : Live born done ts fs unw rf top next) {t : Task} (ht : t ∈ ts) {n : Ev}
    (hn : t.node = some n) : n.address < next := by
  induction h with
  | base _ => cases ht
  | ended _ => cases ht
  | body _ _ hage _ _ _ _ _ ih =>
      obtain rfl | ht := List.mem_cons.1 ht
      · obtain rfl := Option.some.inj hn
        exact hage
      · exact Nat.lt_trans (ih ht) hage
  | closed _ _ hage _ _ _ _ ih =>
      obtain rfl | ht := List.mem_cons.1 ht
      · obtain rfl := Option.some.inj hn
        exact hage
      · exact Nat.lt_trans (ih ht) hage
  | clause hage _ _ _ _ _ ih =>
      obtain rfl | ht := List.mem_cons.1 ht
      · cases hn
      · exact Nat.lt_of_lt_of_le (ih ht) hage
  | finish hage _ _ _ _ _ _ ih =>
      obtain rfl | ht := List.mem_cons.1 ht
      · cases hn
      · exact Nat.lt_of_lt_of_le (ih ht) hage
  | resume hage _ _ _ _ _ _ ih =>
      obtain rfl | ht := List.mem_cons.1 ht
      · cases hn
      · exact Nat.lt_of_lt_of_le (ih ht) hage
  | exit hage _ _ _ _ _ ih =>
      obtain rfl | ht := List.mem_cons.1 ht
      · cases hn
      · exact Nat.lt_of_lt_of_le (ih ht) hage
  | tail _ _ hage _ _ _ _ _ ih =>
      obtain rfl | ht := List.mem_cons.1 ht
      · obtain rfl := Option.some.inj hn
        exact hage
      · exact Nat.lt_trans (ih ht) hage
  | take _ _ hage _ _ _ _ _ _ ih =>
      obtain rfl | ht := List.mem_cons.1 ht
      · obtain rfl := Option.some.inj hn
        exact hage
      · exact Nat.lt_trans (ih ht) hage
  | give _ _ hage _ _ _ _ _ _ _ ih =>
      obtain rfl | ht := List.mem_cons.1 ht
      · obtain rfl := Option.some.inj hn
        exact hage
      · exact Nat.lt_trans (ih ht) hage

end Live

end Kaikai.Unwind
