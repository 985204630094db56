import Kaikai.UnwindLevels

namespace Kaikai.Unwind

open Evidence Evidence.Ev

section Found

variable {born : List Birth} {done : List ℕ} {ts ts' rest : List Task} {fs fs' : List Frame}
  {start unw : List Entry} {rf₀ rf rf' : List ResumeFrame} {top m : Ev} {age next : ℕ} {b : Birth}

/-- The level outside the body of an open handle, and what was registered and deferred since. -/
structure Found (born : List Birth) (done : List ℕ) (ts : List Task) (fs : List Frame)
    (unw : List Entry) (rf : List ResumeFrame) (m : Ev) (b : Birth) (rest : List Task)
    (rf' : List ResumeFrame) : Prop where
  birth : b ∈ born
  node : b.node = m
  ne : m ≠ null
  mem : .body m b.unw ∈ ts
  task : taskOf m ts = .tail m b.unw :: rest
  runs : Runs rest
  live : Live born done rest (frameOf m fs) b.unw rf' m.parent m.address
  above : Over (m.address + 1) b.unw unw
  grown : Grown m.parent m.address rf' rf

theorem Found.lift (h : Found born done ts fs start rf₀ m b rest rf') (hdesc : Descending top)
    (hm : top.onChain m = true) {age' : ℕ} (hover : Over age start unw) (hage : m.address < age)
    (hgrown : Grown top age' rf₀ rf) (hage' : m.address ≤ age')
    (htask : taskOf m ts' = taskOf m ts) (hframe : frameOf m fs' = frameOf m fs)
    (hmem : ∀ t ∈ ts, t ∈ ts') : Found born done ts' fs' unw rf m b rest rf' where
  birth := h.birth
  node := h.node
  ne := h.ne
  mem := hmem _ h.mem
  task := htask.trans h.task
  runs := h.runs
  live := hframe ▸ h.live
  above := h.above.trans hover hage
  grown := by
    refine h.grown.trans hgrown hage' fun k hk hoff => Bool.eq_false_iff.2 fun hon => ?_
    exact absurd (hoff.symm.trans (hdesc.onChain_parent hm hon hk)) Bool.false_ne_true

theorem Walk.found {x : Exit} {target cur : Ev} (h : Walk born x target cur unw rf)
    (hfound : Found born done ts fs x.unw x.rframes m b rest rf') (hdesc : Descending x.top)
    (hm : x.top.onChain m = true) (hleft : cur.onChain m = true ∨ m = target ∧ cur = m.parent)
    (hmem : ∀ t ∈ ts, t ∈ ts') (htask : taskOf m ts' = taskOf m ts)
    (hframe : frameOf m fs' = frameOf m fs) : Found born done ts' fs' unw rf m b rest rf' where
  birth := hfound.birth
  node := hfound.node
  ne := hfound.ne
  mem := hmem _ hfound.mem
  task := htask.trans hfound.task
  runs := hfound.runs
  live := hframe ▸ hfound.live
  above := by
    have hover := hfound.above
    rw [← h.released] at hover
    refine hover.of_append (h.left b hfound.birth ?_)
    rw [hfound.node]
    exact hleft.imp_right fun hland : m = target ∧ cur = m.parent => ⟨hland.1, hland.1 ▸ hfound.ne⟩
  grown := by
    intro k hk
    obtain ⟨hgrown, hsame⟩ := hfound.grown k hk
    have hcur : cur.onChain m = true → cur ≠ null ∧ m.address ≤ cur.address := by
      intro hon
      obtain rfl | hp := eq_or_parent_onChain hon
      · exact ⟨hfound.ne, Nat.le_refl _⟩
      · obtain rfl | htop := h.onTop
        · cases hon
        · exact ⟨ne_null_of_onChain htop, Nat.le_of_lt ((hdesc.of_onChain htop).lt hp)⟩
    have hkept := h.kept k <| by
      obtain hon | ⟨rfl, hland⟩ := hleft
      · exact .inl ⟨(hcur hon).1, Nat.le_of_lt (Nat.lt_of_lt_of_le hk (hcur hon).2)⟩
      · exact .inr ⟨hfound.ne, hland, hk⟩
    refine ⟨hgrown.trans hkept.1, fun hoff => (hkept.2 ?_).trans (hsame hoff)⟩
    refine Bool.eq_false_iff.2 fun hon => ?_
    obtain hnull | htop := h.onTop
    · rw [hnull] at hon
      cases hon
    · exact absurd (hoff.symm.trans (hdesc.onChain_parent hm (onChain_trans htop hon) hk)) Bool.false_ne_true

theorem Live.find (h : Live born done ts fs unw rf top next)
    (hopen : ∀ n u, ts.head? ≠ some (.closed n u)) (hm : top.onChain m = true) :
    ∃ b rest rf', Found born done ts fs unw rf m b rest rf' := by
  have hruns : ∀ {ts : List Task}, Runs ts → ∀ n u, ts.head? ≠ some (.closed n u) :=
    fun hruns n u heq => by cases hruns _ heq
  have hcons : ∀ {t : Task} {ts : List Task}, ∀ t' ∈ ts, t' ∈ t :: ts :=
    fun _ ht => List.mem_cons_of_mem _ ht
  induction h with
  | base _ => cases hm
  | ended _ => cases hm
  | @body b ts fs unw rf rf' next hb hne hage hover hgrown hown hts hrest ih =>
      by_cases heq : b.node = m
      · subst heq
        refine ⟨b, ts, rf', hb, rfl, hne, List.mem_cons_self, if_pos rfl, hts, ?_, hover, hgrown⟩
        rw [frameOf, if_pos rfl]
        exact hrest
      · have hp := (eq_or_parent_onChain hm).resolve_left (Ne.symm heq)
        obtain ⟨b', rest, rf'', hfound⟩ := ih (hruns hts) hp
        have hlt := hrest.young hp
        refine ⟨b', rest, rf'', hfound.lift hrest.descending hp hover (Nat.lt_succ_of_lt hlt) hgrown
          (Nat.le_of_lt hlt) (if_neg heq) ?_ hcons⟩
        rw [frameOf, if_neg heq]
  | closed _ _ _ _ _ _ _ _ => exact absurd rfl (hopen _ _)
  | clause hage hover hgrown _ hts hrest ih =>
      obtain ⟨b, rest, rf', hfound⟩ := ih (hruns hts) hm
      have hlt := hrest.young hm
      exact ⟨b, rest, rf', hfound.lift hrest.descending hm hover hlt hgrown (Nat.le_of_lt hlt) rfl rfl
        hcons⟩
  | finish hage _ _ hover hgrown _ hrest ih =>
      obtain ⟨b, rest, rf', hfound⟩ := ih (fun _ _ heq => by cases heq) (onChain_parent hm)
      have hlt := hrest.young (onChain_parent hm)
      exact ⟨b, rest, rf', hfound.lift hrest.descending.parent hm hover hlt hgrown (Nat.le_of_lt hlt)
        rfl rfl hcons⟩
  | resume hage _ _ hover hgrown _ hrest ih =>
      obtain ⟨b, rest, rf', hfound⟩ := ih (fun _ _ heq => by cases heq) (onChain_parent hm)
      have hlt := hrest.young (onChain_parent hm)
      exact ⟨b, rest, rf', hfound.lift hrest.descending.parent hm hover hlt hgrown (Nat.le_of_lt hlt)
        rfl rfl hcons⟩
  | exit hage _ hwalk _ hts hrest ih =>
      have htop : _ := hwalk.onTop.resolve_left fun hnull => by
        rw [hnull] at hm
        cases hm
      have hon := onChain_trans htop hm
      obtain ⟨b, rest, rf', hfound⟩ := ih (hruns hts) hon
      exact ⟨b, rest, rf', hwalk.found hfound hrest.descending hon (.inl hm) hcons rfl rfl⟩
  | tail _ _ hage hover hgrown _ hts hrest ih =>
      obtain ⟨b, rest, rf', hfound⟩ := ih (hruns hts) hm
      have hlt := hrest.young hm
      exact ⟨b, rest, rf', hfound.lift hrest.descending hm hover (Nat.lt_succ_of_lt hlt) hgrown
        (Nat.le_of_lt hlt) rfl rfl hcons⟩
  | @take b _ _ _ _ _ _ _ _ hage _ _ hgrown _ hts hrest ih =>
      obtain ⟨b', rest, rf', hfound⟩ := ih (hruns hts) hm
      have hlt := hrest.young hm
      exact ⟨b', rest, rf', hfound.lift hrest.descending hm .handle hlt hgrown (Nat.le_of_lt hlt) rfl
        rfl hcons⟩
  | @give b _ _ _ _ unw _ _ _ _ _ hage _ _ hover hgrown _ hts hrest ih =>
      obtain ⟨b', rest, rf', hfound⟩ := ih (hruns hts) hm
      have hlt := hrest.young hm
      have hstart : Over b.node.address b.unw unw :=
        (Over.handle.slots _).trans hover (Nat.le_succ _)
      exact ⟨b', rest, rf', hfound.lift hrest.descending hm hstart hlt hgrown (Nat.le_of_lt hlt) rfl
        rfl hcons⟩

end Found

section Levels

variable {born : List Birth} {done : List ℕ} {ts : List Task} {fs : List Frame}
  {unw : List Entry} {rf rf' : List ResumeFrame} {top : Ev} {age next : ℕ}

theorem Live.ran (h : Live born done ts fs unw rf top next) (a : ℕ) :
    Live born (a :: done) ts fs unw rf top next := by
  induction h with
  | base hown => exact .base hown
  | ended hown => exact .ended hown
  | body hb hne hage hover hgrown hown hts _ ih =>
      exact .body hb hne hage hover hgrown hown hts ih
  | closed hb hne hage hgrown hown hts _ ih => exact .closed hb hne hage hgrown hown hts ih
  | clause hage hover hgrown hown hts _ ih => exact .clause hage hover hgrown hown hts ih
  | finish hage hdone hfl hover hgrown hown _ ih =>
      exact .finish hage (List.mem_cons_of_mem a hdone) hfl hover hgrown hown ih
  | resume hage hvisited hfl hover hgrown hown _ ih =>
      exact .resume hage hvisited hfl hover hgrown hown ih
  | exit hage hdone hwalk hown hts _ ih =>
      exact .exit hage (fun hv => List.mem_cons_of_mem a (hdone hv)) hwalk hown hts ih
  | tail hb hne hage hover hgrown hown hts _ ih =>
      exact .tail hb hne hage hover hgrown hown hts ih
  | take hb hne hage hd hin hgrown hown hts _ ih =>
      exact .take hb hne hage hd hin hgrown hown hts ih
  | give hb hne hage hd hin hover hgrown hown hts _ ih =>
      exact .give hb hne hage hd hin hover hgrown hown hts ih

theorem mem_of_mem_segment {stop top m : Ev} (h : m ∈ segment stop top) :
    top.onChain m = true := by
  induction top with
  | null => cases h
  | node hd p f ih _ =>
      rw [segment] at h
      split at h
      · cases h
      · obtain rfl | hp := List.mem_cons.1 h
        · exact onChain_self hd p f
        · exact onChain_node.2 (.inr (ih hp))

theorem Live.birth (h : Live born done ts fs unw rf top next) {b : Birth}
    (hb : next ≤ b.node.address) : Live (b :: born) done ts fs unw rf top next := by
  induction h with
  | base hown => exact .base hown
  | ended hown => exact .ended hown
  | body hb' hne hage hover hgrown hown hts _ ih =>
      exact .body (List.mem_cons_of_mem b hb') hne hage hover hgrown hown hts
        (ih (Nat.le_of_lt (Nat.lt_of_lt_of_le hage hb)))
  | closed hb' hne hage hgrown hown hts _ ih =>
      exact .closed (List.mem_cons_of_mem b hb') hne hage hgrown hown hts
        (ih (Nat.le_of_lt (Nat.lt_of_lt_of_le hage hb)))
  | clause hage hover hgrown hown hts _ ih =>
      exact .clause hage hover hgrown hown hts (ih (Nat.le_trans hage hb))
  | finish hage hdone hfl hover hgrown hown _ ih =>
      exact .finish hage hdone hfl hover hgrown hown (ih (Nat.le_trans hage hb))
  | resume hage hvisited hfl hover hgrown hown _ ih =>
      exact .resume hage hvisited hfl hover hgrown hown (ih (Nat.le_trans hage hb))
  | @exit x ts fs target cur unw rf next hage hdone hwalk hown hts hrest ih =>
      have hoff : ∀ m, x.top.onChain m = true → b.node ≠ m := by
        rintro m hm rfl
        exact Nat.lt_irrefl _ (Nat.lt_of_lt_of_le (hrest.young hm) (Nat.le_trans hage hb))
      refine .exit hage hdone { hwalk with left := ?_, gone := ?_ } hown hts
        (ih (Nat.le_trans hage hb))
      · intro b' hb' hleft
        obtain rfl | hb' := List.mem_cons.1 hb'
        · obtain hon | ⟨heq, hne⟩ := hleft
          · obtain hnull | htop := hwalk.onTop
            · rw [hnull] at hon
              cases hon
            · exact absurd rfl (hoff _ (onChain_trans htop hon))
          · exact absurd heq (hoff _ (hwalk.toTarget hne).1)
        · exact hwalk.left b' hb' hleft
      · intro b' hb' hgone
        obtain rfl | hb' := List.mem_cons.1 hb'
        · exact absurd rfl (hoff _ (mem_of_mem_segment hgone))
        · exact hwalk.gone b' hb' hgone
  | tail hb' hne hage hover hgrown hown hts _ ih =>
      exact .tail (List.mem_cons_of_mem b hb') hne hage hover hgrown hown hts
        (ih (Nat.le_of_lt (Nat.lt_of_lt_of_le hage hb)))
  | take hb' hne hage hd hin hgrown hown hts _ ih =>
      exact .take (List.mem_cons_of_mem b hb') hne hage hd hin hgrown hown hts
        (ih (Nat.le_of_lt (Nat.lt_of_lt_of_le hage hb)))
  | give hb' hne hage hd hin hover hgrown hown hts _ ih =>
      exact .give (List.mem_cons_of_mem b hb') hne hage hd hin hover hgrown hown hts
        (ih (Nat.le_of_lt (Nat.lt_of_lt_of_le hage hb)))

/-- The height under which the code on top of these tasks pops nothing. -/
def floorOf : List Task → ℕ
  | [] => 0
  | t :: _ => t.floor

theorem Live.withUnw {unw' : List Entry} (h : Live born done ts fs unw rf top next)
    (hruns : Runs ts)
    (hover : ∀ {age start}, Over age start unw → start.length ≤ floorOf ts → Over age start unw') :
    Live born done ts fs unw' rf top next := by
  cases h with
  | base hown => exact .base hown
  | ended hown => exact .ended hown
  | body hb hne hage hover' hgrown hown hts hrest =>
      exact .body hb hne hage (hover hover' (Nat.le_refl _)) hgrown hown hts hrest
  | closed => exact absurd (hruns _ rfl) Bool.false_ne_true
  | clause hage hover' hgrown hown hts hrest =>
      exact .clause hage (hover hover' (Nat.le_refl _)) hgrown hown hts hrest
  | finish hage hdone hfl hover' hgrown hown hrest =>
      exact .finish hage hdone hfl (hover hover' (Nat.le_refl _)) hgrown hown hrest
  | resume hage hvisited hfl hover' hgrown hown hrest =>
      exact .resume hage hvisited hfl (hover hover' (Nat.le_refl _)) hgrown hown hrest
  | exit => exact absurd (hruns _ rfl) Bool.false_ne_true
  | tail hb hne hage hover' hgrown hown hts hrest =>
      exact .tail hb hne hage (hover hover' (Nat.le_refl _)) hgrown hown hts hrest
  | take _ _ _ hd =>
      have hsome := hruns _ rfl
      rw [Task.runs, hd] at hsome
      cases hsome
  | give hb hne hage hd hin hover' hgrown hown hts hrest =>
      exact .give hb hne hage hd hin (hover hover' (Nat.le_refl _)) hgrown hown hts hrest

theorem Live.raise (h : Live born done ts fs unw rf top age) (hruns : Runs ts) (hle : age ≤ next)
    (hgrown : Grown top age rf rf') (hown : Owned ts rf') :
    Live born done ts fs unw rf' top next := by
  cases h with
  | base _ => exact .base hown
  | ended _ => exact .ended hown
  | body hb hne hage hover hgrown' _ hts hrest =>
      refine .body hb hne (Nat.lt_of_lt_of_le hage hle) hover ?_ hown hts hrest
      refine hgrown'.trans hgrown (Nat.le_of_lt hage) fun k hk hoff => Bool.eq_false_iff.2 fun hon => ?_
      obtain rfl | hp := eq_or_parent_onChain hon
      · exact Nat.lt_irrefl _ hk
      · exact absurd (hoff.symm.trans hp) Bool.false_ne_true
  | closed => exact absurd (hruns _ rfl) Bool.false_ne_true
  | clause hage hover hgrown' _ hts hrest =>
      exact .clause (Nat.le_trans hage hle) hover (hgrown'.trans hgrown hage fun _ _ hoff => hoff) hown
        hts hrest
  | finish hage hdone hfl hover hgrown' _ hrest =>
      exact .finish (Nat.le_trans hage hle) hdone hfl hover
        (hgrown'.trans hgrown hage fun _ _ hoff => hoff) hown hrest
  | resume hage hvisited hfl hover hgrown' _ hrest =>
      exact .resume (Nat.le_trans hage hle) hvisited hfl hover
        (hgrown'.trans hgrown hage fun _ _ hoff => hoff) hown hrest
  | exit => exact absurd (hruns _ rfl) Bool.false_ne_true
  | tail hb hne hage hover hgrown' _ hts hrest =>
      exact .tail hb hne (Nat.lt_of_lt_of_le hage hle) hover
        (hgrown'.trans hgrown (Nat.le_of_lt hage) fun _ _ hoff => hoff) hown hts hrest
  | take _ _ _ hd =>
      have hsome := hruns _ rfl
      rw [Task.runs, hd] at hsome
      cases hsome
  | give hb hne hage hd hin hover hgrown' _ hts hrest =>
      rw [← (hgrown _ hage).2 (parent_not_onChain hne)] at hin
      exact .give hb hne (Nat.lt_of_lt_of_le hage hle) hd hin hover
        (hgrown'.trans hgrown (Nat.le_of_lt hage) fun _ _ hoff => hoff) hown hts hrest

theorem Live.defer {n : Ev} (h : Live born done ts fs unw rf top next) (hruns : Runs ts)
    (hon : top.onChain n = true) (clo : ℕ) :
    Live born done ts fs unw (⟨n, clo⟩ :: rf) top next := by
  have hopen : ∀ m u, ts.head? ≠ some (.closed m u) := fun m u heq => by cases hruns _ heq
  refine h.raise hruns (Nat.le_refl _) ((Grown.refl _ _ _).cons (.inl hon) clo) fun k hk => ?_
  obtain ⟨b, rest, rf', hfound⟩ := h.find hopen hon
  by_cases hkn : n = k
  · exact ⟨_, hfound.mem, congrArg some hkn⟩
  · rw [framesOf_cons_of_ne hkn] at hk
    exact h.owned k hk

end Levels

end Kaikai.Unwind
