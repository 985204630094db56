import Kaikai.InterpScan

namespace Kaikai.Lex

open Str Escapes SourceText

/-- The text from one offset up to another. -/
def between (s : Str) (r : Nat × Nat) : Str := stringSlice s r.1 ((r.2 : Int) - r.1)

theorem between_eq (s : Str) (i j : Nat) : between s (i, j) = (s.drop i).take (j - i) := by
  have hlen : ((j : Int) - (i : Int)).toNat = j - i := by omega
  rw [between, stringSlice, hlen]
  rfl

theorem between_self (s : Str) (i : Nat) : between s (i, i) = [] := by
  rw [between_eq, Nat.sub_self, List.take_zero]

theorem between_append {s : Str} {i j k : Nat} (hij : i ≤ j) (hjk : j ≤ k) :
    between s (i, j) ++ between s (j, k) = between s (i, k) := by
  rw [between_eq, between_eq, between_eq]
  have hdrop : s.drop j = (s.drop i).drop (j - i) := by
    rw [List.drop_drop, Nat.add_sub_cancel' hij]
  have hlen : k - i = (j - i) + (k - j) := by omega
  rw [hdrop, hlen, List.take_add]

theorem between_succ {s : Str} {i : Nat} {b : UInt8} (h : s[i]? = some b) :
    between s (i, i + 1) = [b] := by
  obtain ⟨hlt, hb⟩ := List.getElem?_eq_some_iff.mp h
  rw [between_eq, Nat.add_sub_cancel_left, List.drop_eq_getElem_cons hlt, hb]
  rfl

theorem length_between {s : Str} {i j : Nat} (hij : i ≤ j) (hj : j ≤ s.length) :
    (between s (i, j)).length = j - i := by
  rw [between_eq, List.length_take, List.length_drop]
  omega

theorem charAt_eq_some_iff {s : Str} {i : Nat} {c : Char} :
    charAt s i = some c ↔ ∃ b, s[i]? = some b ∧ b.toNat = c.toNat := by
  unfold charAt
  rw [Option.map_eq_some_iff]
  exact exists_congr fun b => and_congr_right fun _ => ofByte_eq_iff

theorem byteAt_eq_iff {s : Str} {i : Nat} {c : Char} :
    byteAt s i = charToInt c ↔ charAt s i = some c := by
  rw [charAt_eq_some_iff]
  unfold byteAt charToInt
  constructor
  · intro h
    split at h
    · next b hb => exact ⟨b, hb, Int.ofNat_inj.mp h⟩
    · exact absurd h (by omega)
  · rintro ⟨b, hb, hc⟩
    rw [hb]
    exact congrArg Nat.cast hc

/-- The bodies of a span by their offsets. -/
def splitRegions (span : Str) (stop i : Nat) : List (Nat × Nat) :=
  if stop ≤ i then []
  else if iscanOpens span i stop then
    (i + 2, iscanExprEnd span (i + 2) stop 1) :: splitRegions span stop (iscanNext span i stop)
  else splitRegions span stop (i + 1)
termination_by stop - i
decreasing_by
  · have hnext := lt_iscanNext span i stop
    omega
  · omega

theorem splitRegions_stop {span : Str} {stop i : Nat} (h : stop ≤ i) :
    splitRegions span stop i = [] := by
  rw [splitRegions, if_pos h]

theorem splitRegions_open {span : Str} {stop i : Nat} (hopen : iscanOpens span i stop = true) :
    splitRegions span stop i =
      (i + 2, iscanExprEnd span (i + 2) stop 1) ::
        splitRegions span stop (iscanNext span i stop) := by
  have hlt : i + 1 < stop := by
    rw [iscanOpens, Bool.and_eq_true, Bool.and_eq_true] at hopen
    exact of_decide_eq_true hopen.1.1
  rw [splitRegions, if_neg (by omega), if_pos hopen]

theorem splitRegions_step {span : Str} {stop i : Nat} (hopen : ¬ iscanOpens span i stop = true) :
    splitRegions span stop i = splitRegions span stop (i + 1) := by
  rcases Nat.lt_or_ge i stop with hlt | hge
  · conv_lhs => rw [splitRegions, if_neg (Nat.not_le.mpr hlt), if_neg hopen]
  · rw [splitRegions_stop hge, splitRegions_stop (Nat.le_succ_of_le hge)]

theorem bodies_flush (span : Str) (st : IScan) :
    bodies (iscanFlush span st).reverse = bodies st.parts.reverse := by
  unfold iscanFlush
  split
  · rw [List.reverse_cons, bodies_append]
    exact List.append_nil _
  · rfl

theorem weave_flush (span : Str) (st : IScan) (h : st.litStart ≤ st.i) :
    weave (iscanFlush span st).reverse =
      weave st.parts.reverse ++ between span (st.litStart, st.i) := by
  unfold iscanFlush
  split
  · rw [List.reverse_cons, weave_append]
    congr 1
    exact List.append_nil _
  · next hle =>
      have heq : st.litStart = st.i := by omega
      rw [heq, between_self, List.append_nil]

theorem bodies_collect (span : Str) (stop : Nat) (st : IScan) :
    bodies (iscanCollectRev span stop st).reverse =
      bodies st.parts.reverse ++ (splitRegions span stop st.i).map (between span) := by
  induction st using iscanCollectRev.induct span stop with
  | case1 st hstop =>
      rw [iscanCollectRev, if_pos hstop, bodies_flush, splitRegions_stop hstop]
      exact (List.append_nil _).symm
  | case2 st hstop hopen ih =>
      rw [iscanCollectRev, if_neg hstop, if_pos hopen, ih, splitRegions_open hopen,
        List.reverse_cons, bodies_append, bodies_flush, List.append_assoc]
      rfl
  | case3 st hstop hopen ih =>
      rw [iscanCollectRev, if_neg hstop, if_neg hopen, ih, splitRegions_step hopen]

theorem charAt_iscanExprEnd {span : Str} {i stop depth : Nat} (hdepth : 1 ≤ depth)
    (hstop : stop ≤ span.length) (h : iscanExprEnd span i stop depth < stop) :
    charAt span (iscanExprEnd span i stop depth) = some '}' := by
  induction hm : stop - i generalizing i depth with
  | zero =>
      rw [iscanExprEnd_stop (Or.inr (by omega))] at h
      omega
  | succ m ih =>
      have hgo : ¬ (depth = 0 ∨ stop ≤ i) := by omega
      have hlt : i < span.length := by omega
      have hc : charAt span i = some (Char.ofNat span[i].toNat) := by
        rw [charAt, List.getElem?_eq_getElem hlt]
        rfl
      generalize Char.ofNat span[i].toNat = c at hc
      by_cases hopen : c = '{'
      · subst hopen
        rw [iscanExprEnd_open hgo hc] at h ⊢
        exact ih (Nat.le_succ_of_le hdepth) h (by omega)
      · by_cases hclose : c = '}'
        · subst hclose
          rw [iscanExprEnd_close hgo hc] at h ⊢
          split at h
          · next hone => rwa [if_pos hone]
          · next hone =>
              rw [if_neg hone]
              exact ih (by omega) h (by omega)
        · rw [iscanExprEnd_other hgo hc hopen hclose] at h ⊢
          exact ih hdepth h (by omega)

theorem between_brace {span : Str} {i : Nat} (h : charAt span i = some '}') :
    between span (i, i + 1) = ascii "\x7d" := by
  obtain ⟨b, hb, hv⟩ := charAt_eq_some_iff.mp h
  have hbyte : b = 125 := UInt8.toNat_inj.mp hv
  rw [between_succ hb, hbyte]
  rfl

theorem iscanOpens_iff {span : Str} {i stop : Nat} :
    iscanOpens span i stop = true ↔
      i + 1 < stop ∧ charAt span i = some '#' ∧ charAt span (i + 1) = some '{' := by
  rw [iscanOpens, Bool.and_eq_true, Bool.and_eq_true, decide_eq_true_iff, beq_iff_eq, beq_iff_eq,
    and_assoc]

theorem between_opening {span : Str} {i stop : Nat} (h : iscanOpens span i stop = true) :
    between span (i, i + 2) = ascii "#\x7b" := by
  obtain ⟨-, h0, h1⟩ := iscanOpens_iff.mp h
  obtain ⟨b0, hb0, hv0⟩ := charAt_eq_some_iff.mp h0
  obtain ⟨b1, hb1, hv1⟩ := charAt_eq_some_iff.mp h1
  have hhash : b0 = 35 := UInt8.toNat_inj.mp hv0
  have hbrace : b1 = 123 := UInt8.toNat_inj.mp hv1
  rw [← between_append (Nat.le_succ i) (Nat.le_succ (i + 1)), between_succ hb0, between_succ hb1,
    hhash, hbrace]
  rfl

theorem weave_collect {span : Str} {stop : Nat} (hstop : stop ≤ span.length) (st : IScan)
    (hlit : st.litStart ≤ st.i) (hi : st.i ≤ stop)
    (h : ∀ r ∈ splitRegions span stop st.i, r.2 < stop) :
    weave (iscanCollectRev span stop st).reverse =
      weave st.parts.reverse ++ between span (st.litStart, stop) := by
  induction st using iscanCollectRev.induct span stop with
  | case1 st hend =>
      rw [iscanCollectRev, if_pos hend]
      exact weave_flush span { st with i := stop } (hlit.trans hi)
  | case2 st hend hopen ih =>
      rw [splitRegions_open hopen] at h
      have hbody := h _ List.mem_cons_self
      have hnext : iscanNext span st.i stop = iscanExprEnd span (st.i + 2) stop 1 + 1 := if_pos hbody
      have hlow := le_iscanExprEnd span (st.i + 2) stop 1
      have hclosing := between_brace (charAt_iscanExprEnd le_rfl hstop hbody)
      have hrest := ih le_rfl (hnext ▸ hbody) fun r hr => h r (List.mem_cons_of_mem _ hr)
      rw [iscanCollectRev, if_neg hend, if_pos hopen, hrest, List.reverse_cons, weave_append,
        weave_flush span st hlit, hnext, List.append_assoc, List.append_assoc]
      change _ ++ (_ ++ ((ascii "#\x7b" ++ (between span (st.i + 2, _) ++ (ascii "\x7d" ++ []))) ++ _))
        = _
      rw [List.append_nil, ← hclosing, ← between_opening hopen]
      simp only [List.append_assoc]
      rw [between_append (Nat.le_succ _) hbody, between_append hlow hbody.le,
        between_append (Nat.le_add_right st.i 2) (hlow.trans hbody.le), between_append hlit hi]
  | case3 st hend hopen ih =>
      rw [iscanCollectRev, if_neg hend, if_neg hopen]
      rw [splitRegions_step hopen] at h
      exact ih (Nat.le_succ_of_le hlit) (Nat.lt_of_not_le hend) h

theorem hasInterp_iff (span : Str) (i stop : Nat) :
    hasInterp span i stop = true ↔ splitRegions span stop i ≠ [] := by
  induction i using hasInterp.induct span stop with
  | case1 i hlt hopen =>
      have hopens : iscanOpens span i stop = true :=
        iscanOpens_iff.mpr ⟨hlt, byteAt_eq_iff.mp hopen.1, byteAt_eq_iff.mp hopen.2⟩
      rw [hasInterp, if_pos hlt, if_pos hopen, splitRegions_open hopens]
      simp
  | case2 i hlt hopen ih =>
      have hopens : ¬ iscanOpens span i stop = true := fun h =>
        hopen ⟨byteAt_eq_iff.mpr (iscanOpens_iff.mp h).2.1, byteAt_eq_iff.mpr (iscanOpens_iff.mp h).2.2⟩
      rw [hasInterp, if_pos hlt, if_neg hopen, ih, splitRegions_step hopens]
  | case3 i hlt =>
      have hopens : ¬ iscanOpens span i stop = true := fun h => hlt (iscanOpens_iff.mp h).1
      rw [hasInterp, if_neg hlt, splitRegions_step hopens, splitRegions_stop (Nat.not_lt.mp hlt)]
      simp

/-- The splitter's scan passes a text at the depth that its braces lead to, and
stops inside one that closes the body. -/
theorem iscanExprEnd_text {span : Str} {stop : Nat} (text : Str) {i d : Nat} (hd : 1 ≤ d)
    (htext : text <+: span.drop i) (hstop : i + text.length < stop) :
    (∀ m, depthAfter 123 125 d text = some m →
      iscanExprEnd span i stop d = iscanExprEnd span (i + text.length) stop m) ∧
    (depthAfter 123 125 d text = none → iscanExprEnd span i stop d < i + text.length) := by
  induction text generalizing i d with
  | nil =>
      refine ⟨fun m hm => ?_, fun hnone => ?_⟩
      · cases hm
        rfl
      · cases hnone
  | cons b text ih =>
      obtain ⟨rest, hrest⟩ := htext
      have hb : span[i]? = some b := by
        have hhead := congrArg (fun s : Str => s[0]?) hrest
        rw [List.cons_append] at hhead
        simpa using hhead.symm
      have htail : text <+: span.drop (i + 1) := by
        refine ⟨rest, ?_⟩
        have hdrop := congrArg List.tail hrest
        rwa [List.tail_drop] at hdrop
      have hc : charAt span i = some (Char.ofNat b.toNat) := by
        rw [charAt, hb]
        rfl
      have hgo : ¬ (d = 0 ∨ stop ≤ i) := by omega
      have hshift : i + (b :: text).length = i + 1 + text.length := by
        rw [List.length_cons]
        omega
      rw [hshift] at hstop ⊢
      have hnext := fun d (hd : 1 ≤ d) => ih hd htail hstop
      rw [depthAfter]
      by_cases hopen : b = 123
      · rw [if_pos hopen, iscanExprEnd_open hgo (by rw [hc, hopen]; rfl)]
        exact hnext (d + 1) (Nat.le_succ_of_le hd)
      · rw [if_neg hopen]
        by_cases hclose : b = 125
        · rw [if_pos hclose, iscanExprEnd_close hgo (by rw [hc, hclose]; rfl)]
          by_cases hone : d = 1
          · rw [if_pos hone, if_pos hone]
            refine ⟨fun m hm => ?_, fun _ => by omega⟩
            cases hm
          · rw [if_neg hone, if_neg hone]
            exact hnext (d - 1) (by omega)
        · have hopenc : Char.ofNat b.toNat ≠ '{' := fun heq =>
            hopen (UInt8.toNat_inj.mp (ofByte_eq_iff.mp heq))
          have hclosec : Char.ofNat b.toNat ≠ '}' := fun heq =>
            hclose (UInt8.toNat_inj.mp (ofByte_eq_iff.mp heq))
          rw [if_neg hclose, iscanExprEnd_other hgo hc hopenc hclosec]
          exact hnext d hd

theorem iscanExprEnd_eq_iff {span : Str} {i j stop : Nat} (hij : i ≤ j) (hj : j < stop)
    (hstop : stop ≤ span.length) (hbrace : charAt span j = some '}') :
    iscanExprEnd span i stop 1 = j ↔ Nested 123 125 (between span (i, j)) := by
  have hlen : (between span (i, j)).length = j - i := length_between hij (hj.le.trans hstop)
  have hpre : between span (i, j) <+: span.drop i := by
    rw [between_eq]
    exact List.take_prefix _ _
  have hend : i + (between span (i, j)).length = j := by omega
  have hroom : i + (between span (i, j)).length < stop := by omega
  obtain ⟨hsome, hnone⟩ := iscanExprEnd_text _ le_rfl hpre hroom
  rw [nested_iff (by decide)]
  cases hdepth : depthAfter 123 125 1 (between span (i, j)) with
  | none =>
      have hlt := hnone hdepth
      constructor
      · intro heq
        omega
      · intro heq
        cases heq
  | some m =>
      have hm := depthAfter_pos le_rfl hdepth
      have hgo : ¬ (m = 0 ∨ stop ≤ j) := by omega
      have hrun := hsome m hdepth
      rw [hend, iscanExprEnd_close hgo hbrace] at hrun
      rw [hrun]
      constructor
      · intro heq
        split at heq
        · next hone => rw [hone]
        · have hlow := le_iscanExprEnd span (j + 1) stop (m - 1)
          omega
      · intro heq
        rw [if_pos (Option.some.inj heq)]

theorem iscanExprEnd_le (span : Str) (i stop depth : Nat) (h : i ≤ stop) :
    iscanExprEnd span i stop depth ≤ stop := by
  induction hm : stop - i generalizing i depth with
  | zero => rwa [iscanExprEnd_stop (Or.inr (by omega))]
  | succ m ih =>
      by_cases hgo : depth = 0 ∨ stop ≤ i
      · rwa [iscanExprEnd_stop hgo]
      · have hnext := fun d => ih (i + 1) d (by omega) (by omega)
        cases hc : charAt span i with
        | none => rwa [iscanExprEnd, if_neg hgo, hc]
        | some c =>
            by_cases hopen : c = '{'
            · rw [iscanExprEnd_open hgo (hopen ▸ hc)]
              exact hnext (depth + 1)
            · by_cases hclose : c = '}'
              · rw [iscanExprEnd_close hgo (hclose ▸ hc)]
                split
                · exact h
                · exact hnext (depth - 1)
              · rw [iscanExprEnd_other hgo hc hopen hclose]
                exact hnext depth

/-- The regions that `lexStringBody` passes with `lexSkipInterp`, in order. -/
def skippedRegions (src : Str) (i : Nat) (triple : Bool) : List (Nat × Nat) :=
  if byteAt src i < 0 then []
  else if byteAt src i = bBackslash then
    match _hesc : escDecodeAt src i (i + 1) src.length with
    | .bad _ _ => []
    | .ok _ next => skippedRegions src next triple
  else if byteAt src i = bHash ∧ byteAt src (i + 1) = bLbrace then
    match _hinterp : lexSkipInterp src (i + 2) 1 with
    | .ok j => (i + 2, j - 1) :: skippedRegions src j triple
    | .err _ _ => []
  else if triple then
    if tripleQuoteAt src i then [] else skippedRegions src (i + 1) triple
  else if byteAt src i = bNl then []
  else if byteAt src i = bDquote then []
  else skippedRegions src (i + 1) triple
termination_by src.length - i
decreasing_by
  all_goals have hlt := lt_of_not_neg ‹¬ byteAt src i < 0›
  · have hforward := (escDecodeAt_ok _hesc).lt
    omega
  · have hbound := bounded_lexSkipInterp_of_open ‹_ ∧ byteAt src (i + 1) = bLbrace›
    rw [_hinterp] at hbound
    have hforward : i + 2 ≤ _ := hbound.low
    simp only [StrResult.stop] at hforward
    omega
  · omega
  · omega

theorem skippedRegions_escape {src : Str} {i next : Nat} {bytes : Str} {triple : Bool}
    (hback : byteAt src i = bBackslash)
    (hesc : escDecodeAt src i (i + 1) src.length = .ok bytes next) :
    skippedRegions src i triple = skippedRegions src next triple := by
  have hneg : ¬ byteAt src i < 0 := by
    rw [hback]
    decide
  rw [skippedRegions, if_neg hneg, if_pos hback]
  split
  · next hbad =>
      rw [hesc] at hbad
      cases hbad
  · next hok =>
      rw [hesc] at hok
      cases hok
      rfl

theorem skippedRegions_interp {src : Str} {i j : Nat} {triple : Bool}
    (hopen : byteAt src i = bHash ∧ byteAt src (i + 1) = bLbrace)
    (hinterp : lexSkipInterp src (i + 2) 1 = .ok j) :
    skippedRegions src i triple = (i + 2, j - 1) :: skippedRegions src j triple := by
  have hneg : ¬ byteAt src i < 0 := by
    rw [hopen.1]
    decide
  have hback : byteAt src i ≠ bBackslash := by
    rw [hopen.1]
    decide
  rw [skippedRegions, if_neg hneg, if_neg hback, if_pos hopen]
  split
  · next hok =>
      rw [hinterp] at hok
      cases hok
      rfl
  · next herr =>
      rw [hinterp] at herr
      cases herr

theorem lexSkipInterp_close {src : Str} {i depth j : Nat} (hdepth : 1 ≤ depth)
    (h : lexSkipInterp src i depth = .ok j) : i < j ∧ byteAt src (j - 1) = bRbrace := by
  induction i, depth using lexSkipInterp.induct src with
  | case1 i => exact absurd hdepth (by decide)
  | case2 i depth hzero hneg =>
      rw [lexSkipInterp, if_neg hzero, if_pos hneg] at h
      cases h
  | case3 i depth hzero hneg hopen ih =>
      rw [lexSkipInterp, if_neg hzero, if_neg hneg, if_pos hopen] at h
      have hrest := ih (Nat.le_succ_of_le hdepth) h
      exact ⟨Nat.lt_of_succ_lt hrest.1, hrest.2⟩
  | case4 i depth hzero hneg hopen hclose ih =>
      rw [lexSkipInterp, if_neg hzero, if_neg hneg, if_neg hopen, if_pos hclose] at h
      by_cases hone : depth = 1
      · rw [hone, lexSkipInterp, if_pos rfl] at h
        cases h
        exact ⟨Nat.lt_succ_self i, hclose⟩
      · have hrest := ih (by omega) h
        exact ⟨Nat.lt_of_succ_lt hrest.1, hrest.2⟩
  | case5 i depth hzero hneg hopen hclose hquote k hinner ih =>
      rw [lexSkipInterp_inner hzero hquote hinner] at h
      have hrest := ih hdepth h
      exact ⟨(Nat.lt_of_succ_lt (lexSkipInnerString_lt hinner)).trans hrest.1, hrest.2⟩
  | case6 i depth hzero hneg hopen hclose hquote k msg hinner =>
      rw [lexSkipInterp_inner_err hzero hquote hinner] at h
      cases h
  | case7 i depth hzero hneg hopen hclose hquote ih =>
      rw [lexSkipInterp, if_neg hzero, if_neg hneg, if_neg hopen, if_neg hclose, if_neg hquote] at h
      have hrest := ih hdepth h
      exact ⟨Nat.lt_of_succ_lt hrest.1, hrest.2⟩

theorem lexStringBody_low {src : Str} {i stop : Nat} {triple : Bool}
    (h : lexStringBody src i triple = .ok stop) : i + interpLead triple ≤ stop := by
  induction i using lexStringBody.induct src triple with
  | case1 i hneg =>
      rw [lexStringBody, if_pos hneg] at h
      cases h
  | case2 i hneg hback hend =>
      rw [lexStringBody, if_neg hneg, if_pos hback, if_pos hend] at h
      cases h
  | case3 i hneg hback hend msg backslash hesc =>
      rw [lexStringBody_bad hback hend hesc, lexStringErrAt] at h
      split at h <;> cases h
  | case4 i hneg hback hend bytes next hesc ih =>
      rw [lexStringBody_escape hback hesc] at h
      have hlow := ih h
      have hforward := (escDecodeAt_ok hesc).lt
      omega
  | case5 i hneg hback hopen j hinterp ih =>
      rw [lexStringBody_interp hopen hinterp] at h
      have hlow := ih h
      have hforward := (lexSkipInterp_close le_rfl hinterp).1
      omega
  | case6 i hneg hback hopen j msg hinterp =>
      rw [lexStringBody_interp_err hopen hinterp] at h
      cases h
  | case7 i hneg hback hopen htriple hquote =>
      rw [lexStringBody, if_neg hneg, if_neg hback, if_neg hopen, if_pos htriple, if_pos hquote] at h
      cases h
      rw [interpLead, if_pos htriple]
  | case8 i hneg hback hopen htriple hquote ih =>
      rw [lexStringBody, if_neg hneg, if_neg hback, if_neg hopen, if_pos htriple, if_neg hquote] at h
      have hlow := ih h
      omega
  | case9 i hneg hback hopen htriple hnl =>
      rw [lexStringBody, if_neg hneg, if_neg hback, if_neg hopen, if_neg htriple, if_pos hnl] at h
      cases h
  | case10 i hneg hback hopen htriple hnl hquote =>
      rw [lexStringBody, if_neg hneg, if_neg hback, if_neg hopen, if_neg htriple, if_neg hnl,
        if_pos hquote] at h
      cases h
      rw [interpLead, if_neg htriple]
  | case11 i hneg hback hopen htriple hnl hquote ih =>
      rw [lexStringBody, if_neg hneg, if_neg hback, if_neg hopen, if_neg htriple, if_neg hnl,
        if_neg hquote] at h
      have hlow := ih h
      omega

/-- `span` is the text of `src` from `pos` on, up to the end of a literal whose text
ends at `stop`. -/
structure SpanAt (src span : Str) (pos stop : Nat) : Prop where
  stop_lt : stop < span.length
  read : ∀ k, k < span.length → span[k]? = src[pos + k]?

theorem SpanAt.charAt {src span : Str} {pos stop k : Nat} (h : SpanAt src span pos stop)
    (hk : k < span.length) : charAt span k = charAt src (pos + k) := by
  rw [Str.charAt, Str.charAt, h.read k hk]

theorem SpanAt.between {src span : Str} {pos stop i j : Nat} (h : SpanAt src span pos stop)
    (hj : j ≤ span.length) : between span (i, j) = between src (pos + i, pos + j) := by
  rw [between_eq, between_eq]
  have hlen : pos + j - (pos + i) = j - i := by omega
  rw [hlen]
  refine List.ext_getElem? fun k => ?_
  rw [List.getElem?_take, List.getElem?_take, List.getElem?_drop, List.getElem?_drop]
  split
  · next hk => rw [h.read (i + k) (by omega), Nat.add_assoc]
  · rfl

/-- The two scans from one place of the text on: their regions agree iff every
skipped region balances, and then every body of the splitter is closed. -/
structure ScansAgree (src span : Str) (pos stop k : Nat) (triple : Bool) : Prop where
  iff : (splitRegions span stop k).map (between span) =
      (skippedRegions src (pos + k) triple).map (between src) ↔
    ∀ r ∈ skippedRegions src (pos + k) triple, Nested 123 125 (between src r)
  closed : (∀ r ∈ skippedRegions src (pos + k) triple, Nested 123 125 (between src r)) →
    ∀ r ∈ splitRegions span stop k, r.2 < stop

theorem scansAgree_end {src span : Str} {pos stop k : Nat} {triple : Bool} (hk : stop ≤ k)
    (hskip : skippedRegions src (pos + k) triple = []) :
    ScansAgree src span pos stop k triple := by
  constructor
  · rw [splitRegions_stop hk, hskip]
    simp
  · intro _ r hr
    rw [splitRegions_stop hk] at hr
    exact absurd hr List.not_mem_nil

theorem ScansAgree.skip {src span : Str} {pos stop k m : Nat} {triple : Bool}
    (h : ScansAgree src span pos stop m triple)
    (hsplit : splitRegions span stop k = splitRegions span stop m)
    (hskip : skippedRegions src (pos + k) triple = skippedRegions src (pos + m) triple) :
    ScansAgree src span pos stop k triple := by
  constructor
  · rw [hsplit, hskip]
    exact h.iff
  · rw [hsplit, hskip]
    exact h.closed

theorem ScansAgree.open {src span : Str} {pos stop k m : Nat} {triple : Bool}
    (h : ScansAgree src span pos stop m triple) (hspan : SpanAt src span pos stop)
    (hopen : iscanOpens span k stop = true) (hk : k + 2 < m) (hm : m ≤ stop)
    (hbrace : Str.charAt span (m - 1) = some '}')
    (hskip : skippedRegions src (pos + k) triple =
      (pos + (k + 2), pos + (m - 1)) :: skippedRegions src (pos + m) triple) :
    ScansAgree src span pos stop k triple := by
  have hstop := hspan.stop_lt.le
  have hexact := iscanExprEnd_eq_iff (i := k + 2) (j := m - 1) (by omega) (by omega) hstop hbrace
  have hbody : Kaikai.Lex.between span (k + 2, m - 1) =
      Kaikai.Lex.between src (pos + (k + 2), pos + (m - 1)) := hspan.between (by omega)
  rw [hbody] at hexact
  have hnext : iscanExprEnd span (k + 2) stop 1 = m - 1 → iscanNext span k stop = m := by
    intro heq
    rw [iscanNext, heq, if_pos (by omega)]
    omega
  constructor
  · rw [splitRegions_open hopen, hskip, List.map_cons, List.map_cons, List.forall_mem_cons]
    constructor
    · intro heq
      obtain ⟨hhead, htail⟩ := List.cons.inj heq
      have hlen := congrArg List.length (hhead.trans hbody.symm)
      have hlow := le_iscanExprEnd span (k + 2) stop 1
      have hhigh := iscanExprEnd_le span (k + 2) stop 1 (by omega)
      rw [length_between hlow (hhigh.trans hstop), length_between (by omega) (by omega)] at hlen
      have hend : iscanExprEnd span (k + 2) stop 1 = m - 1 := by omega
      rw [hnext hend] at htail
      exact ⟨hexact.mp hend, h.iff.mp htail⟩
    · rintro ⟨hhead, htail⟩
      have hend := hexact.mpr hhead
      rw [hnext hend, hend, h.iff.mpr htail, hbody]
  · intro hall r hr
    rw [hskip, List.forall_mem_cons] at hall
    have hend := hexact.mpr hall.1
    rw [splitRegions_open hopen, hnext hend, hend] at hr
    rcases List.mem_cons.mp hr with rfl | hmem
    · simp only
      omega
    · exact h.closed hall.2 r hmem

theorem SpanAt.iscanOpens_iff {src span : Str} {pos stop k : Nat} (h : SpanAt src span pos stop) :
    iscanOpens span k stop = true ↔
      k + 1 < stop ∧ byteAt src (pos + k) = bHash ∧ byteAt src (pos + k + 1) = bLbrace := by
  have hstop := h.stop_lt
  rw [Lex.iscanOpens_iff]
  refine and_congr_right fun hlt => and_congr ?_ ?_
  · rw [h.charAt (by omega)]
    exact (byteAt_eq_iff (c := '#')).symm
  · rw [h.charAt (by omega)]
    exact (byteAt_eq_iff (c := '{')).symm

theorem ScansAgree.pass {src span : Str} {pos stop i j : Nat} {triple : Bool}
    (h : ScansAgree src span pos stop (j - pos) triple) (hspan : SpanAt src span pos stop)
    (hi : pos ≤ i) (hij : i ≤ j)
    (hfree : ∀ k, i ≤ k → k < j → ¬ (byteAt src k = bHash ∧ byteAt src (k + 1) = bLbrace))
    (hskip : skippedRegions src i triple = skippedRegions src j triple) :
    ScansAgree src span pos stop (i - pos) triple := by
  have hsplit : ∀ m, i ≤ m → m ≤ j →
      splitRegions span stop (i - pos) = splitRegions span stop (m - pos) := by
    intro m hm
    induction m, hm using Nat.le_induction with
    | base =>
        intro _
        rfl
    | succ m hm ih =>
        intro hle
        have hstep : splitRegions span stop (m - pos) = splitRegions span stop (m - pos + 1) := by
          refine splitRegions_step fun hopen => hfree m hm hle ?_
          have hbytes := (hspan.iscanOpens_iff.mp hopen).2
          rwa [Nat.add_sub_cancel' (hi.trans hm)] at hbytes
        rw [ih (Nat.le_of_succ_le hle), hstep, Nat.sub_add_comm (hi.trans hm)]
  refine h.skip (hsplit j hij le_rfl) ?_
  rwa [Nat.add_sub_cancel' hi, Nat.add_sub_cancel' (hi.trans hij)]

theorem byteAt_ne_hash_of_hashFree {src : Str} {i j : Nat} (h : HashFree src i j) {k : Nat}
    (hlow : i ≤ k) (hhigh : k < j) : byteAt src k ≠ bHash :=
  fun heq => h k hlow hhigh ((byteAt_eq_iff (c := '#')).mp heq)

/-- The run lemma: from every place that the lexer reaches in the text of an
accepted literal, the two scans agree. -/
theorem scansAgree {src span : Str} {pos stop i : Nat} {triple : Bool}
    (hspan : SpanAt src span pos stop) (hi : pos ≤ i)
    (h : lexStringBody src i triple = .ok (pos + stop + interpLead triple)) :
    ScansAgree src span pos stop (i - pos) triple := by
  have hroom := lexStringBody_low h
  have hpos : pos + (i - pos) = i := Nat.add_sub_cancel' hi
  induction i using lexStringBody.induct src triple with
  | case1 i hneg =>
      rw [lexStringBody, if_pos hneg] at h
      cases h
  | case2 i hneg hback hend =>
      rw [lexStringBody, if_neg hneg, if_pos hback, if_pos hend] at h
      cases h
  | case3 i hneg hback hend msg backslash hesc =>
      rw [lexStringBody_bad hback hend hesc, lexStringErrAt] at h
      split at h <;> cases h
  | case4 i hneg hback hend bytes next hesc ih =>
      rw [lexStringBody_escape hback hesc] at h
      have hext := escDecodeAt_ok hesc
      have hforward := hext.lt
      have hlow := lexStringBody_low h
      refine (ih (by omega) h hlow (by omega)).pass hspan hi (by omega) ?_
        (skippedRegions_escape hback hesc)
      intro k hk hlt hopen
      rcases Nat.eq_or_lt_of_le hk with rfl | hgt
      · rw [hback] at hopen
        exact absurd hopen.1 (by decide)
      · exact byteAt_ne_hash_of_hashFree hext.hashFree hgt hlt hopen.1
  | case5 i hneg hback hopen j hinterp ih =>
      rw [lexStringBody_interp hopen hinterp] at h
      have hclose := lexSkipInterp_close le_rfl hinterp
      have hforward := hclose.1
      have hlow := lexStringBody_low h
      have hstop := hspan.stop_lt
      have hrest := ih (by omega) h hlow (by omega)
      refine hrest.open hspan ?_ (by omega) (by omega) ?_ ?_
      · rw [hspan.iscanOpens_iff, hpos]
        exact ⟨by omega, hopen⟩
      · rw [hspan.charAt (by omega)]
        have hplace : pos + (j - pos - 1) = j - 1 := by omega
        rw [hplace]
        exact (byteAt_eq_iff (c := '}')).mp hclose.2
      · have hbody : pos + (i - pos + 2) = i + 2 := by omega
        have hbrace : pos + (j - pos - 1) = j - 1 := by omega
        have hnext : pos + (j - pos) = j := by omega
        rw [hpos, hbody, hbrace, hnext]
        exact skippedRegions_interp hopen hinterp
  | case6 i hneg hback hopen j msg hinterp =>
      rw [lexStringBody_interp_err hopen hinterp] at h
      cases h
  | case7 i hneg hback hopen htriple hquote =>
      rw [lexStringBody, if_neg hneg, if_neg hback, if_neg hopen, if_pos htriple, if_pos hquote] at h
      have hend := StrResult.ok.inj h
      rw [interpLead, if_pos htriple] at hend
      refine scansAgree_end (by omega) ?_
      rw [hpos, skippedRegions, if_neg hneg, if_neg hback, if_neg hopen, if_pos htriple,
        if_pos hquote]
  | case8 i hneg hback hopen htriple hquote ih =>
      rw [lexStringBody, if_neg hneg, if_neg hback, if_neg hopen, if_pos htriple, if_neg hquote] at h
      have hlow := lexStringBody_low h
      refine (ih (by omega) h hlow (by omega)).pass hspan hi (Nat.le_succ i) ?_ ?_
      · intro k hk hlt
        rwa [Nat.le_antisymm (Nat.le_of_lt_succ hlt) hk]
      · conv_lhs => rw [skippedRegions, if_neg hneg, if_neg hback, if_neg hopen, if_pos htriple,
          if_neg hquote]
  | case9 i hneg hback hopen htriple hnl =>
      rw [lexStringBody, if_neg hneg, if_neg hback, if_neg hopen, if_neg htriple, if_pos hnl] at h
      cases h
  | case10 i hneg hback hopen htriple hnl hquote =>
      rw [lexStringBody, if_neg hneg, if_neg hback, if_neg hopen, if_neg htriple, if_neg hnl,
        if_pos hquote] at h
      have hend := StrResult.ok.inj h
      rw [interpLead, if_neg htriple] at hend
      refine scansAgree_end (by omega) ?_
      rw [hpos, skippedRegions, if_neg hneg, if_neg hback, if_neg hopen, if_neg htriple, if_neg hnl,
        if_pos hquote]
  | case11 i hneg hback hopen htriple hnl hquote ih =>
      rw [lexStringBody, if_neg hneg, if_neg hback, if_neg hopen, if_neg htriple, if_neg hnl,
        if_neg hquote] at h
      have hlow := lexStringBody_low h
      refine (ih (by omega) h hlow (by omega)).pass hspan hi (Nat.le_succ i) ?_ ?_
      · intro k hk hlt
        rwa [Nat.le_antisymm (Nat.le_of_lt_succ hlt) hk]
      · conv_lhs => rw [skippedRegions, if_neg hneg, if_neg hback, if_neg hopen, if_neg htriple,
          if_neg hnl, if_neg hquote]

end Kaikai.Lex
