import Kaikai.UnwindSteps

namespace Kaikai.Unwind

open Evidence Evidence.Ev

/-- What a push writes, and that its node is younger than what it stands over. -/
structure Birth.Good (marks : ℕ → ℕ) (next : ℕ) (b : Birth) : Prop where
  made : ∃ label cleanup, b.node = pushed b.ctx b.node.address label cleanup
  slots : ∀ i, b.ctx.flTop i = nearest i b.ctx.top
  mask : dispAtPush b.node = maskOn b.ctx.top b.ctx.disp
  mark : marks b.node.address = b.unw.length
  young : b.node.address < next
  handles : ∀ n, .handle n ∈ b.unw → n.address < b.node.address

theorem Birth.Good.linked {marks : ℕ → ℕ} {next : ℕ} {b : Birth} (h : b.Good marks next) :
    Linked b.node := by
  obtain ⟨label, cleanup, hmade⟩ := h.made
  rw [hmade]
  intro i hi
  have hl : effFl label = some i := hi
  simp only [hl]
  exact h.slots i

theorem Birth.Good.parent {marks : ℕ → ℕ} {next : ℕ} {b : Birth} (h : b.Good marks next) :
    b.node.parent = b.ctx.top := by
  obtain ⟨label, cleanup, hmade⟩ := h.made
  rw [hmade]
  rfl

section Walks

variable {born : List Birth} {done : List ℕ} {marks : ℕ → ℕ} {ts rest : List Task}
  {fs : List Frame} {start unw : List Entry} {rf rf₀ rf' : List ResumeFrame} {top target cur : Ev}
  {age next : ℕ} {b : Birth} {x : Exit}

theorem Over.releaseTo (h : Over age start unw) (rf : List ResumeFrame) :
    ∃ new, unw = new ++ start ∧ (Unwind.releaseTo start.length unw rf).1 = start ∧
      unw.take (unw.length - start.length) = new ∧ ∀ k,
        (framesOf k rf = [] ∨ .handle k ∈ new →
          framesOf k (Unwind.releaseTo start.length unw rf).2 = []) ∧
        (k.address < age →
          framesOf k (Unwind.releaseTo start.length unw rf).2 = framesOf k rf) := by
  obtain ⟨new, rfl, hnew⟩ := h
  obtain ⟨hunw, hframes⟩ := releaseTo_spec start.length (new ++ start) rf
  have hsub : (new ++ start).length - start.length = new.length := by
    rw [List.length_append, Nat.add_sub_cancel]
  rw [hsub] at hunw hframes ⊢
  rw [List.drop_left] at hunw
  rw [List.take_left] at hframes ⊢
  refine ⟨new, rfl, hunw, rfl, fun k => ⟨(hframes k).1, fun hk => (hframes k).2 fun hmem => ?_⟩⟩
  exact Nat.lt_irrefl _ (Nat.lt_of_lt_of_le hk (hnew k hmem))

theorem Walk.begin (hlive : Live born done ts fs unw rf top next) (hruns : Runs ts)
    (hborn : ∀ b ∈ born, b.Good marks next) (htarget : target ≠ null → top.onChain target = true)
    (hheld : Held target top unw rf) :
    Walk born
      { top, unw, rframes := rf, next, ran := [], released := [], visited := false } target top unw
      rf := by
  have hnil : segment top top = [] := by
    cases top with
    | null => rfl
    | node h p f => exact if_pos rfl
  constructor
  case onTop =>
    by_cases hnull : top = null
    · exact .inl hnull
    · exact .inr (onChain_self_of_ne_null hnull)
  case toTarget => exact fun hne => ⟨htarget hne, .inl (htarget hne)⟩
  case ran =>
    dsimp only
    rw [if_neg Bool.false_ne_true, hnil]
    rfl
  case visited => exact fun hv => by cases hv
  case released => rfl
  case left =>
    intro b hb hleft
    have hon : top.onChain b.node = true := by
      obtain hon | ⟨heq, hne⟩ := hleft
      · exact hon
      · rw [heq]
        exact htarget hne
    obtain ⟨b', _, _, hfound⟩ := hlive.find (fun m u heq => by cases hruns _ heq) hon
    rw [← (hborn b hb).mark, ← hfound.node, (hborn b' hfound.birth).mark]
    exact hfound.above.length_le
  case gone =>
    intro b _ hmem
    rw [hnil] at hmem
    cases hmem
  case skipped =>
    intro m hmem
    rw [hnil] at hmem
    cases hmem
  case kept => exact fun k _ => ⟨List.suffix_refl _, fun _ => rfl⟩
  case keptTarget => exact fun _ => List.suffix_refl _
  case held => exact hheld

theorem Walk.release (h : Walk born x target cur unw rf)
    (hfound : Found born done ts fs x.unw x.rframes cur b rest rf')
    (hborn : ∀ b ∈ born, b.Good marks next) (hdesc : Descending x.top)
    (hcur : ¬ (cur = null ∨ cur = target.parent)) :
    (releaseTo (marks cur.address) unw rf).1 = b.unw ∧
      Walk born
        { x with
          released :=
            x.released ++
              unw.take (unw.length - (releaseTo (marks cur.address) unw rf).1.length) }
        target cur b.unw (releaseTo (marks cur.address) unw rf).2 := by
  rw [not_or] at hcur
  have hon := h.onTop.resolve_left hcur.1
  have hself := onChain_self_of_ne_null hcur.1
  have hmark : marks cur.address = b.unw.length := by
    rw [← hfound.node]
    exact (hborn b hfound.birth).mark
  have hover : Over (cur.address + 1) b.unw unw := by
    have hover := hfound.above
    rw [← h.released] at hover
    refine hover.of_append (h.left b hfound.birth (.inl ?_))
    rw [hfound.node]
    exact hself
  have htarget : target ≠ null → cur.onChain target = true := fun hne =>
    (h.toTarget hne).2.resolve_right hcur.2
  have hle : ∀ {k}, cur.onChain k = true → k.address < cur.address + 1 := by
    intro k hk
    obtain rfl | hp := eq_or_parent_onChain hk
    · exact Nat.lt_succ_self _
    · exact Nat.lt_succ_of_lt ((hdesc.of_onChain hon).lt hp)
  have hlower : ∀ b' ∈ born, cur.onChain b'.node = true → b'.unw.length ≤ b.unw.length := by
    intro b' hb' hon'
    rw [← (hborn b' hb').mark]
    obtain heq | hp := eq_or_parent_onChain hon'
    · exact Nat.le_of_eq ((congrArg (marks ·.address) heq).trans hmark)
    · obtain ⟨b'', _, _, hfound'⟩ :=
        hfound.live.find (fun m u heq => absurd (hfound.runs _ heq) Bool.false_ne_true) hp
      rw [← hfound'.node, (hborn b'' hfound'.birth).mark]
      exact hfound'.above.length_le
  obtain ⟨new, hunw, hleft, htake, hframes⟩ := hover.releaseTo rf
  rw [hmark, hleft, htake]
  refine ⟨rfl, ?_⟩
  constructor
  case onTop => exact h.onTop
  case toTarget => exact h.toTarget
  case ran => exact h.ran
  case visited => exact h.visited
  case released =>
    rw [List.append_assoc, ← hunw]
    exact h.released
  case left =>
    intro b' hb' hleft'
    obtain hon' | ⟨heq, hne⟩ := hleft'
    · exact hlower b' hb' hon'
    · exact hlower b' hb' (heq ▸ htarget hne)
  case gone => exact fun b' hb' hmem => Nat.le_trans hover.length_le (h.gone b' hb' hmem)
  case skipped => exact fun m hm hne => (hframes m).1 (.inl (h.skipped m hm hne))
  case kept =>
    intro k hk
    have hage : k.address < cur.address + 1 := by
      obtain ⟨_, hk⟩ | ⟨_, hland, _⟩ := hk
      · exact Nat.lt_succ_of_le hk
      · exact absurd hland hcur.2
    rw [(hframes k).2 hage]
    exact h.kept k hk
  case keptTarget =>
    intro hne
    rw [(hframes target).2 (hle (htarget hne))]
    exact h.keptTarget hne
  case held =>
    intro n hn
    have hrf : framesOf n rf ≠ [] := fun hnil => hn ((hframes n).1 (.inl hnil))
    refine (h.held n hrf).imp_right fun hopen => hopen.imp_right fun hmem => ?_
    rw [hunw] at hmem
    exact (List.mem_append.1 hmem).resolve_left fun hmem => hn ((hframes n).1 (.inr hmem))

theorem Walk.visit (h : Walk born x target cur unw rf) (hcur : ¬ (cur = null ∨ cur = target.parent))
    (hvisited : x.visited = false) (hcleanup : cur.cleanup = true) :
    Walk born { x with ran := cur :: x.ran, visited := true } target cur unw rf := by
  rw [not_or] at hcur
  refine { h with ran := ?_, visited := fun _ => hcur }
  have hran := h.ran
  rw [hvisited, if_neg Bool.false_ne_true] at hran
  dsimp only
  rw [if_pos rfl, List.reverse_cons, hran, segment_parent (h.onTop.resolve_left hcur.1),
    List.filter_append]
  simp [hcleanup]

theorem Walk.resume (h : Walk born x target cur unw rf₀) (hlive : Live born done ts fs x.unw x.rframes
      x.top x.next) (hage : x.next ≤ age) (hvisited : x.visited = true)
    (hgrown : Grown cur.parent age rf₀ rf) (hown : Owned ts rf) : Walk born x target cur unw rf := by
  have hdesc := hlive.descending
  have hon := h.onTop.resolve_left (h.visited hvisited).1
  have hoff : ∀ {k}, cur.onChain k = false → cur.parent.onChain k = false := fun hoff =>
    Bool.eq_false_iff.2 fun hp => absurd (hoff.symm.trans (onChain_parent hp)) Bool.false_ne_true
  have hyoung : ∀ {k}, x.top.onChain k = true → k.address < age := fun hk =>
    Nat.lt_of_lt_of_le (hlive.young hk) hage
  refine { h with skipped := ?skipped, kept := ?kept, keptTarget := ?keptTarget, held := ?held }
  case skipped =>
    intro m hm hne
    have htop := mem_of_mem_segment hm
    rw [(hgrown m (hyoung htop)).2 ?_]
    · exact h.skipped m hm hne
    · refine hoff (Bool.eq_false_iff.2 fun hcur => ?_)
      exact not_onChain_of_mem_segment hon hm hcur
  case kept =>
    intro k hk
    have hkage : k.address < age := by
      obtain ⟨_, hk⟩ | ⟨hne, _, hk⟩ := hk
      · exact Nat.lt_of_le_of_lt hk (hyoung hon)
      · exact Nat.lt_trans hk (hyoung (h.toTarget hne).1)
    obtain ⟨hkept, hsame⟩ := h.kept k hk
    obtain ⟨hgrew, hsame'⟩ := hgrown k hkage
    exact ⟨hkept.trans hgrew, fun hk => (hsame' (hoff hk)).trans (hsame hk)⟩
  case keptTarget =>
    exact fun hne => (h.keptTarget hne).trans (hgrown target (hyoung (h.toTarget hne).1)).1
  case held =>
    intro n hn
    obtain ⟨t, ht, hnode⟩ := hown n hn
    have hnage := Nat.lt_of_lt_of_le (hlive.taskYoung ht hnode) hage
    cases hp : cur.parent.onChain n with
    | true => exact .inr (.inl (onChain_parent hp))
    | false =>
        rw [(hgrown n hnage).2 hp] at hn
        exact h.held n hn

theorem Walk.move (h : Walk born x target cur b.unw rf) (hb : b ∈ born) (hnode : b.node = cur)
    (hborn : ∀ b ∈ born, b.Good marks next) (hdesc : Descending x.top)
    (hcur : ¬ (cur = null ∨ cur = target.parent)) (hran : x.visited = false → cur.cleanup = false) :
    Walk born { x with visited := false } target cur.parent b.unw
      (if cur = target then rf else framesDrop cur rf) := by
  rw [not_or] at hcur
  have hon := h.onTop.resolve_left hcur.1
  have htarget : target ≠ null → cur.onChain target = true := fun hne =>
    (h.toTarget hne).2.resolve_right hcur.2
  have hframes : ∀ {k}, k ≠ cur ∨ cur = target →
      framesOf k (if cur = target then rf else framesDrop cur rf) = framesOf k rf := by
    intro k hk
    split
    · rfl
    · next hne => rw [framesOf_framesDrop, if_neg (hk.resolve_right hne)]
  have hbelow : ∀ {k}, k.address < cur.address → k ≠ cur := by
    rintro k hk rfl
    exact Nat.lt_irrefl _ hk
  have hland : target ≠ null → cur.parent = target.parent → cur = target := by
    intro hne heq
    obtain heq' | hp := eq_or_parent_onChain (htarget hne)
    · exact heq'.symm
    · rw [heq, parent_not_onChain hne] at hp
      cases hp
  constructor
  case onTop => exact parent_onChain.imp_right (onChain_trans hon)
  case toTarget =>
    intro hne
    refine ⟨(h.toTarget hne).1, ?_⟩
    obtain rfl | hp := eq_or_parent_onChain (htarget hne)
    · exact .inr rfl
    · exact .inl hp
  case ran =>
    dsimp only
    rw [if_neg Bool.false_ne_true, h.ran]
    cases hvisited : x.visited with
    | true => rw [if_pos rfl]
    | false =>
        rw [if_neg Bool.false_ne_true, segment_parent hon, List.filter_append]
        simp [hran hvisited]
  case visited => exact fun hv => by cases hv
  case released => exact h.released
  case left =>
    intro b' hb' hleft
    exact h.left b' hb' (hleft.imp_left onChain_parent)
  case gone =>
    intro b' hb' hmem
    rw [segment_parent hon] at hmem
    obtain hmem | hmem := List.mem_append.1 hmem
    · exact h.gone b' hb' hmem
    · have heq := List.mem_singleton.1 hmem
      refine Nat.le_of_eq ?_
      rw [← (hborn b hb).mark, ← (hborn b' hb').mark, heq, hnode]
  case skipped =>
    intro m hm hne
    rw [segment_parent hon] at hm
    obtain hm | hm := List.mem_append.1 hm
    · have hoff : m ≠ cur := by
        rintro rfl
        exact not_onChain_of_mem_segment hon hm (onChain_self_of_ne_null hcur.1)
      rw [hframes (.inl hoff)]
      exact h.skipped m hm hne
    · obtain rfl := List.mem_singleton.1 hm
      rw [if_neg hne, framesOf_framesDrop, if_pos rfl]
  case kept =>
    intro k hk
    have hlt : k.address < cur.address := by
      obtain ⟨hne, hk⟩ | ⟨hne, heq, hk⟩ := hk
      · exact Nat.lt_of_le_of_lt hk ((hdesc.of_onChain hon).lt (onChain_self_of_ne_null hne))
      · rwa [hland hne heq]
    obtain ⟨hkept, hsame⟩ := h.kept k (.inl ⟨hcur.1, Nat.le_of_lt hlt⟩)
    rw [hframes (.inl (hbelow hlt))]
    refine ⟨hkept, fun hoff => hsame (Bool.eq_false_iff.2 fun hk => ?_)⟩
    exact absurd (hoff.symm.trans ((eq_or_parent_onChain hk).resolve_left (hbelow hlt))) Bool.false_ne_true
  case keptTarget =>
    intro hne
    rw [hframes ?_]
    · exact h.keptTarget hne
    · by_cases heq : cur = target
      · exact .inr heq
      · exact .inl (Ne.symm heq)
  case held =>
    intro n hn
    by_cases heq : n = cur
    · subst heq
      by_cases htarget : n = target
      · refine .inl ⟨?_, .inl htarget⟩
        rw [← htarget]
        exact hcur.1
      · rw [if_neg htarget, framesOf_framesDrop, if_pos rfl] at hn
        exact absurd rfl hn
    · rw [hframes (.inl heq)] at hn
      refine (h.held n hn).imp_right fun hopen => hopen.imp_left fun hon => ?_
      exact (eq_or_parent_onChain hon).resolve_left heq

theorem Walk.unw_eq (h : Walk born x target cur unw rf)
    (hfound : Found born done ts fs unw rf target b rest rf') (htop : x.top.onChain target = true)
    (hcur : cur = target.parent) : unw = b.unw := by
  refine hfound.above.eq (Nat.le_antisymm (h.gone b hfound.birth ?_) hfound.above.length_le)
  rw [hcur, segment_parent htop, hfound.node]
  exact List.mem_append_right _ List.mem_cons_self

theorem Walk.land (h : Walk born x target cur unw rf)
    (hfound : Found born done ts fs unw rf target b rest rf') (hborn : ∀ b ∈ born, b.Good marks next)
    (htop : x.top.onChain target = true) (hcur : cur = target.parent) :
    Live born done (.tail target b.unw :: rest) (frameOf target fs) b.unw rf target.parent next := by
  have hunw := h.unw_eq hfound htop hcur
  have hgood := hborn b hfound.birth
  have hnode := hfound.node
  have holder : ∀ n, framesOf n rf ≠ [] → n.address < target.address →
      ∃ t ∈ rest, t.node = some n := by
    intro n hn hlt
    cases hp : target.parent.onChain n with
    | true =>
        obtain ⟨b', _, _, hfound'⟩ :=
          hfound.live.find (fun m u heq => absurd (hfound.runs _ heq) Bool.false_ne_true) hp
        exact ⟨_, hfound'.mem, rfl⟩
    | false =>
        rw [(hfound.grown n hlt).2 hp] at hn
        exact hfound.live.owned n hn
  have hown : Owned (.tail target b.unw :: rest) rf := by
    intro n hn
    have hlower : n.address < target.address →
        ∃ t ∈ .tail target b.unw :: rest, t.node = some n := by
      intro hlt
      obtain ⟨t, ht, hnode⟩ := holder n hn hlt
      exact ⟨t, List.mem_cons_of_mem _ ht, hnode⟩
    obtain ⟨_, rfl | hlt⟩ | hon | hmem := h.held n hn
    · exact ⟨_, List.mem_cons_self, rfl⟩
    · exact hlower hlt
    · rw [hcur] at hon
      exact hlower (hfound.live.young hon)
    · rw [hunw] at hmem
      have hlt := hgood.handles n hmem
      rw [hnode] at hlt
      exact hlower hlt
  have hlive := hfound.live
  have hgrown := hfound.grown
  have hne := hfound.ne
  rw [← hnode] at hown hlive hgrown hne ⊢
  refine .tail hfound.birth hne hgood.young (.refl _ _) hgrown hown hfound.runs ?_
  exact hlive

end Walks

section Changes

variable {born : List Birth} {done : List ℕ} {marks : ℕ → ℕ} {ts : List Task} {fs : List Frame}
  {start start' unw : List Entry} {rf rf' : List ResumeFrame} {top n target : Ev} {next : ℕ}
  {x : Exit} {d : Drain}

theorem Owned.mono {tasks tasks' : List Task} (h : Owned tasks rf)
    (hsub : ∀ t ∈ tasks, ∀ n, t.node = some n → ∃ t' ∈ tasks', t'.node = some n) :
    Owned tasks' rf := by
  intro n hn
  obtain ⟨t, ht, hnode⟩ := h n hn
  exact hsub t ht n hnode

theorem Owned.frames {tasks : List Task} (h : Owned tasks rf)
    (hrf : ∀ n, framesOf n rf' ≠ [] → framesOf n rf ≠ []) : Owned tasks rf' :=
  fun n hn => h n (hrf n hn)

theorem Owned.cons {tasks : List Task} (h : Owned tasks rf) (t : Task) : Owned (t :: tasks) rf :=
  h.mono fun t' ht _ hn => ⟨t', List.mem_cons_of_mem t ht, hn⟩

theorem Owned.of_cons {tasks : List Task} {t : Task} (h : Owned (t :: tasks) rf)
    (ht : ∀ n, t.node = some n → framesOf n rf = []) : Owned tasks rf := by
  intro n hn
  obtain ⟨t', ht', hnode⟩ := h n hn
  obtain rfl | ht' := List.mem_cons.1 ht'
  · exact absurd (ht n hnode) hn
  · exact ⟨t', ht', hnode⟩

theorem Owned.replace {tasks : List Task} {t t' : Task} (h : Owned (t :: tasks) rf)
    (heq : t'.node = t.node) : Owned (t' :: tasks) rf := by
  refine h.mono fun u hu _ hn => ?_
  obtain rfl | hu := List.mem_cons.1 hu
  · exact ⟨t', List.mem_cons_self, heq.trans hn⟩
  · exact ⟨u, List.mem_cons_of_mem _ hu, hn⟩

theorem Owned.exit {tasks : List Task} (h : Owned (.exit x :: tasks) rf) (y : Exit) :
    Owned (.exit y :: tasks) rf :=
  Owned.cons (h.of_cons fun _ hn => by cases hn) _

theorem Live.push (h : Live born done ts fs unw rf top next) (hruns : Runs ts) (b : Birth)
    (hne : b.node ≠ null) (hparent : b.node.parent = top) (haddress : b.node.address = next)
    (hunw : b.unw = unw) :
    Live (b :: born) done (.body b.node b.unw :: ts) (.handle b.node :: fs) unw rf b.node
      (next + 1) := by
  subst hunw hparent haddress
  exact .body List.mem_cons_self hne (Nat.lt_succ_self _) (.refl _ _) (.refl _ _ _)
    (h.owned.cons _) hruns (h.birth (Nat.le_refl _))

theorem Live.runCleanup (h : Live born done (.body n start :: ts) fs unw rf top next)
    (hlength : unw.length = start.length) :
    ∃ fs', fs = .handle n :: fs' ∧ top = n ∧ (∃ b ∈ born, b.node = n) ∧ ∀ savedFl scope,
      (∀ i, n.fl = some i → savedFl = nearest i n) →
      Live born (n.address :: done) (.cleanup n start :: .body n start :: ts)
        (.cleanup n n savedFl scope :: fs) unw rf n.parent next := by
  cases h with
  | body hb hne hage hover hgrown hown hts hrest =>
      have hunw := hover.eq hlength
      subst hunw
      refine ⟨_, rfl, rfl, ⟨_, hb, rfl⟩, fun savedFl scope hfl => ?_⟩
      exact .finish (Nat.le_refl _) List.mem_cons_self hfl (.refl _ _) (.refl _ _ _) (hown.cons _)
        ((Live.body hb hne hage hover hgrown hown hts hrest).ran _)

theorem Live.pop (h : Live born done (.body n start :: ts) fs unw rf top next) :
    ∃ fs', fs = .handle n :: fs' ∧ top = n ∧ (∃ b ∈ born, b.node = n) ∧
      Live born done (.tail n start :: ts) fs' unw rf n.parent next := by
  cases h with
  | body hb hne hage hover hgrown hown hts hrest =>
      exact ⟨_, rfl, rfl, ⟨_, hb, rfl⟩, .tail hb hne hage hover hgrown (hown.replace rfl) hts hrest⟩

theorem Live.popClosed (h : Live born done (.closed n start :: ts) fs unw rf top next) :
    ∃ fs', fs = .handle n :: fs' ∧ top = n ∧ (∃ b ∈ born, b.node = n) ∧
      Live born done (.tail n start :: ts) fs' unw rf n.parent next := by
  cases h with
  | closed hb hne hage hgrown hown hts hrest =>
      exact ⟨_, rfl, rfl, ⟨_, hb, rfl⟩, .tail hb hne hage (.refl _ _) hgrown (hown.replace rfl) hts
        hrest⟩

theorem Live.enter (h : Live born done ts fs unw rf top next) (hruns : Runs ts) (prev : Ev)
    (scope : List Ev) :
    Live born done (.clause unw :: ts) (.clause prev scope :: fs) unw rf top next :=
  .clause (Nat.le_refl _) (.refl _ _) (.refl _ _ _) (h.owned.cons _) hruns h

theorem Live.leave (h : Live born done (.clause start :: ts) fs unw rf top next)
    (hlength : unw.length = start.length) :
    ∃ prev scope fs', fs = .clause prev scope :: fs' ∧ Runs ts ∧
      Live born done ts fs' unw rf top next := by
  cases h with
  | clause hage hover hgrown hown hts hrest =>
      have hunw := hover.eq hlength
      subst hunw
      exact ⟨_, _, _, rfl, hts, hrest.raise hts hage hgrown (hown.of_cons fun n hn => by cases hn)⟩

theorem Live.finishBody (h : Live born done (.cleanup n start :: .body target start' :: ts) fs unw rf
      top next) (hlength : unw.length = start.length) :
    ∃ savedFl scope fs', fs = .cleanup target target savedFl scope :: .handle target :: fs' ∧
      top = target.parent ∧ target ≠ null ∧ (∀ i, target.fl = some i → savedFl = nearest i target) ∧
      Live born done (.closed target start' :: ts) (.handle target :: fs') unw rf target next := by
  cases h with
  | finish hage hdone hfl hover hgrown hown hbody =>
      have hunw := hover.eq hlength
      subst hunw
      cases hbody with
      | body hb hne hage' hover' hgrown' hown' hts hrest =>
          refine ⟨_, _, _, rfl, rfl, hne, hfl, ?_⟩
          refine .closed hb hne (Nat.lt_of_lt_of_le hage' hage)
            (hgrown'.trans hgrown (Nat.le_of_lt hage') fun _ _ hoff => hoff) ?_ hts hrest
          exact (hown.of_cons fun n hn => by cases hn).replace rfl

theorem Live.finishExit (h : Live born done (.cleanup n start :: .exit x :: ts) fs unw rf top next)
    (hlength : unw.length = start.length) :
    ∃ target cur saved savedFl scope fs',
      fs = .cleanup cur saved savedFl scope :: .unwind target cur :: fs' ∧ top = cur.parent ∧
      cur ≠ null ∧ x.visited = true ∧ (∀ i, cur.fl = some i → savedFl = nearest i cur) ∧
      Live born done (.exit x :: ts) (.unwind target cur :: fs') unw rf cur next := by
  cases h with
  | resume hage hvisited hfl hover hgrown hown hexit =>
      have hunw := hover.eq hlength
      subst hunw
      cases hexit with
      | exit hage' hdone hwalk hown' hts hrest =>
          have hown'' := hown.of_cons fun n hn => by cases hn
          refine ⟨_, _, _, _, _, _, rfl, rfl, (hwalk.visited hvisited).1, hvisited, hfl, ?_⟩
          refine .exit (Nat.le_trans hage' hage) hdone ?_ hown'' hts hrest
          exact hwalk.resume hrest hage' hvisited hgrown (hown''.of_cons fun n hn => by cases hn)

theorem Live.beginExit (h : Live born done ts fs unw rf top next) (hruns : Runs ts)
    (hborn : ∀ b ∈ born, b.Good marks next) (htarget : target ≠ null → top.onChain target = true)
    (hheld : Held target top unw rf) :
    Live born done
      (.exit { top, unw, rframes := rf, next, ran := [], released := [], visited := false } :: ts)
      (.unwind target top :: fs) unw rf top next :=
  .exit (Nat.le_refl _) (fun hv => by cases hv) (Walk.begin h hruns hborn htarget hheld)
    (h.owned.cons _) hruns h

theorem Live.exit_inv (h : Live born done (.exit x :: ts) fs unw rf top next) :
    ∃ target fs', fs = .unwind target top :: fs' ∧ x.next ≤ next ∧
      (x.visited = true → top.address ∈ done) ∧ Walk born x target top unw rf ∧
      Owned (.exit x :: ts) rf ∧ Runs ts ∧ Live born done ts fs' x.unw x.rframes x.top x.next := by
  cases h with
  | exit hage hdone hwalk hown hts hrest =>
      exact ⟨_, _, rfl, hage, hdone, hwalk, hown, hts, hrest⟩

theorem Live.skipDrain (h : Live born done (.tail n start :: ts) fs unw rf top next)
    (hlength : unw.length = start.length) (hnone : framesOf n rf = []) :
    Runs ts ∧ Live born done ts fs unw rf top next := by
  cases h with
  | tail hb hne hage hover hgrown hown hts hrest =>
      have hunw := hover.eq hlength
      subst hunw
      refine ⟨hts, hrest.raise hts (Nat.le_of_lt hage) hgrown (hown.of_cons fun n hn => ?_)⟩
      injection hn with hn
      rw [← hn]
      exact hnone

theorem Live.drain (h : Live born done (.tail n start :: ts) fs unw rf top next)
    (hlength : unw.length = start.length) (v : ℕ) :
    n.address < next ∧ Live born done
      (.drain n { value := v, applying := none, given := framesOf n rf, start := v, fed := [] }
        start :: ts) fs (.handle n :: unw) rf top next := by
  cases h with
  | tail hb hne hage hover hgrown hown hts hrest =>
      have hunw := hover.eq hlength
      subst hunw
      exact ⟨hage, .take hb hne hage rfl ⟨rfl, rfl⟩ hgrown (hown.replace rfl) hts hrest⟩

theorem Live.endDrain (h : Live born done (.drain n d start :: ts) fs unw rf top next)
    (hd : d.applying = none) (hnone : framesOf n rf = []) :
    Runs ts ∧ (d.given = (d.fed.map fun f => f.1).reverse ∧ Feeds d.start d.fed d.value) ∧
      Live born done ts fs unw.tail rf top next := by
  cases h with
  | take hb hne hage _ hin hgrown hown hts hrest =>
      refine ⟨hts, ⟨?_, hin.feeds⟩, hrest.raise hts (Nat.le_of_lt hage) hgrown ?_⟩
      · have hgiven := hin.given
        rwa [hd, hnone, Option.toList_none, List.append_nil, List.append_nil] at hgiven
      · refine hown.of_cons fun n hn => ?_
        injection hn with hn
        rw [← hn]
        exact hnone
  | give _ _ _ hsome => cases hd.symm.trans hsome

theorem Live.apply {clo : ℕ} (h : Live born done (.drain n d start :: ts) fs unw rf top next)
    (hd : d.applying = none) (htake : frameTake n rf = some (clo, rf')) :
    Live born done (.drain n { d with applying := some clo } start :: ts) fs
      (.slots [some clo] :: unw) rf' top next := by
  obtain ⟨hself, hother⟩ := framesOf_of_frameTake htake
  cases h with
  | @take b _ _ _ _ _ _ hb hne hage _ hin hgrown hown hts hrest =>
      refine .give hb hne hage rfl ⟨?_, hin.feeds⟩ (.refl _ _) (hgrown.congr fun k hk => ?_) ?_ hts
        hrest
      · have hgiven := hin.given
        rw [hd, hself] at hgiven
        exact hgiven
      · refine hother k fun heq => ?_
        rw [heq] at hk
        exact Nat.lt_irrefl _ hk
      · refine Owned.replace (t := .drain b.node d b.unw) (fun k hk => hown k fun hnil => hk ?_) rfl
        by_cases hkn : k = b.node
        · rw [hkn, hself] at hnil
          cases hnil
        · rw [hother k hkn, hnil]
  | give _ _ _ hsome => cases hd.symm.trans hsome

theorem Live.applied {clo : ℕ} (h : Live born done (.drain n d start :: ts) fs unw rf top next)
    (hd : d.applying = some clo) (hlength : unw.length = start.length + 2) (v : ℕ) :
    Live born done
      (.drain n { d with value := v, applying := none, fed := (clo, d.value, v) :: d.fed } start ::
        ts) fs unw.tail rf top next := by
  cases h with
  | take _ _ _ hnone => cases hd.symm.trans hnone
  | give hb hne hage hsome hin hover hgrown hown hts hrest =>
      obtain rfl := Option.some.inj (hd.symm.trans hsome)
      have hunw := hover.eq hlength
      subst hunw
      refine .take hb hne hage rfl ⟨?_, rfl, hin.feeds⟩ hgrown (hown.replace rfl) hts hrest
      have hgiven := hin.given
      rw [hd] at hgiven
      simpa using hgiven

end Changes

end Kaikai.Unwind
