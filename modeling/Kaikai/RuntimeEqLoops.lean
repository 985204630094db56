import Kaikai.RuntimeValue

namespace Kaikai.Runtime

open Kaikai.Word64 (Word InRange)
open Kaikai.Progression

mutual

/-- The steps that a comparison may take. -/
def Val.size : Val → Nat
  | .list vs => 1 + Val.sizes vs
  | .vec vs => 1 + Val.sizes vs
  | .record vs => 1 + Val.sizes vs
  | .variant _ vs => 1 + Val.sizes vs
  | _ => 1

def Val.sizes : List Val → Nat
  | [] => 1
  | v :: vs => 1 + v.size + Val.sizes vs

end

/-- A heap that reads as another and has kept its cells, ranges apart. -/
structure Carries (D : Decls) (mask : Nat → Nat) (h h' : Heap) : Prop where
  reads : ReadsAs D mask h h'
  kept : ∀ a c, h.read a = some c → c.isRange = false → h'.read a = some c

theorem carries_self (D : Decls) (mask : Nat → Nat) (h : Heap) : Carries D mask h h :=
  ⟨readsAs_self D mask h, fun _ _ hread _ => hread⟩

theorem Carries.trans {D : Decls} {mask : Nat → Nat} {h h' h'' : Heap}
    (hfirst : Carries D mask h h') (hsecond : Carries D mask h' h'') : Carries D mask h h'' where
  reads := hfirst.reads.trans hsecond.reads
  kept a c hread hc := hsecond.kept a c (hfirst.kept a c hread hc) hc

theorem Rewrites.carries {h h' : Heap} (hrw : Rewrites h h') (D : Decls) (mask : Nat → Nat) :
    Carries D mask h h' :=
  ⟨hrw.readsAs D mask, fun _ _ hread hc => hrw.read hread hc⟩

theorem carries_interrupt (D : Decls) (mask : Nat → Nat) (st : EqState) :
    Carries D mask st.heap st.interrupt.heap := by
  have hfold (refs : List Ref) (h : Heap) : Carries D mask h (refs.foldl seqNorm h) := by
    induction refs generalizing h with
    | nil => exact carries_self D mask h
    | cons r refs ih => exact ((rewrites_seqNorm h r).carries D mask).trans (ih (seqNorm h r))
  unfold EqState.interrupt
  split
  · exact carries_self D mask st.heap
  · exact hfold _ _

/-- The comparison ends with an answer that says whether `P`, and every value has kept its
meaning. -/
def Answers (D : Decls) (mask : Nat → Nat) (st : EqState) (out : EqResult) (P : Prop) : Prop :=
  ∃ st' e, out = some (st', e) ∧ (e = true ↔ P) ∧ Carries D mask st.heap st'.heap

theorem answers_of_iff {D : Decls} {mask : Nat → Nat} {st : EqState} {e : Bool} {P : Prop}
    (h : e = true ↔ P) : Answers D mask st (some (st, e)) P :=
  ⟨st, e, rfl, h, carries_self D mask st.heap⟩

theorem Answers.congr {D : Decls} {mask : Nat → Nat} {st : EqState} {out : EqResult} {P Q : Prop}
    (h : Answers D mask st out P) (hiff : P ↔ Q) : Answers D mask st out Q := by
  obtain ⟨st', e, hout, he, hheap⟩ := h
  exact ⟨st', e, hout, he.trans hiff, hheap⟩

theorem Answers.before {D : Decls} {mask : Nat → Nat} {st st₁ : EqState} {out : EqResult} {P : Prop}
    (h : Answers D mask st₁ out P) (hheap : Carries D mask st.heap st₁.heap) :
    Answers D mask st out P := by
  obtain ⟨st', e, hout, he, hlater⟩ := h
  exact ⟨st', e, hout, he, hheap.trans hlater⟩

theorem Answers.andThen {D : Decls} {mask : Nat → Nat} {st : EqState} {out : EqResult} {P Q : Prop}
    {next : EqState → EqResult} (h : Answers D mask st out P)
    (hnext : ∀ st', Carries D mask st.heap st'.heap → P → Answers D mask st' (next st') Q) :
    Answers D mask st (andThen out next) (P ∧ Q) := by
  obtain ⟨st', e, hout, he, hheap⟩ := h
  subst hout
  cases e with
  | false =>
      refine ⟨st', false, rfl, ⟨fun hfalse => ?_, fun hboth => he.2 hboth.1⟩, hheap⟩
      cases hfalse
  | true =>
      have hp := he.1 rfl
      exact ((hnext st' hheap hp).before hheap).congr ⟨fun hq => ⟨hp, hq⟩, fun hboth => hboth.2⟩

section

variable (D : Decls) (T : EqTables)

/-- The readings of a heap under the tables of the program. -/
abbrev Means (h : Heap) (j : Reading) : Prop := Reads D T.slotMask EndsInRange h j

/-- A comparison that is right on values of bounded size. -/
def Decides (f : EqState → Ref → Ref → EqResult) (n : Nat) : Prop :=
  ∀ (st : EqState) (t : Ty) (a b : Ref) (v w : Val), v.size ≤ n →
    Means D T st.heap (.value t a v) → Means D T st.heap (.value t b w) →
    Answers D T.slotMask st (f st a b) (v = w)

variable {D T} {f : EqState → Ref → Ref → EqResult} {n : Nat}

theorem Decides.eqAll (hf : Decides D T f n) (ts : List Ty) : ∀ (st : EqState) (xs ys : List Ref)
    (vs ws : List Val), Val.sizes vs ≤ n → Means D T st.heap (.refs ts xs vs) →
    Means D T st.heap (.refs ts ys ws) →
    Answers D T.slotMask st (eqAll f st (xs.zip ys)) (vs = ws) := by
  induction ts with
  | nil =>
      intro st xs ys vs ws _ hx hy
      cases hx
      cases hy
      exact answers_of_iff (by simp)
  | cons t ts ih =>
      intro st xs ys vs ws hsize hx hy
      cases hx with
      | @refsCons _ x v _ xs vs hxv hxs =>
          cases hy with
          | @refsCons _ y w _ ys ws hyw hys =>
              rw [Val.sizes] at hsize
              have hhead := hf st t x y v w (by omega) hxv hyw
              rw [List.zip_cons_cons, Runtime.eqAll, List.cons.injEq]
              refine hhead.andThen fun st' hheap _ => ?_
              exact ih st' xs ys vs ws (by omega) (hheap.reads _ hxs) (hheap.reads _ hys)

theorem eqSlots_ptr {mask i : Nat} {st : EqState} {u v : Ref} {rest : List (VarSlot × VarSlot)}
    (h : varSlotKind mask i = .ptr) :
    eqSlots T f mask i st ((.ptr u, .ptr v) :: rest) =
      Runtime.andThen (f st u v) fun st' => eqSlots T f mask (i + 1) st' rest := by
  simp only [eqSlots, h]

theorem eqSlots_int {mask i : Nat} {st : EqState} {x y : Word} {rest : List (VarSlot × VarSlot)}
    (h : varSlotKind mask i = .int) :
    eqSlots T f mask i st ((.i64 x, .i64 y) :: rest) =
      if x = y then eqSlots T f mask (i + 1) st rest else some (st, false) := by
  simp only [eqSlots, h]

theorem eqSlots_enum {mask i : Nat} {st : EqState} {x y : Word} {rest : List (VarSlot × VarSlot)}
    (h : varSlotKind mask i = .enum) :
    eqSlots T f mask i st ((.i64 x, .i64 y) :: rest) =
      if x = y then eqSlots T f mask (i + 1) st rest else some (st, false) := by
  simp only [eqSlots, h]

theorem Decides.eqSlots (hf : Decides D T f n) (tag : Nat) (ts : List Ty) :
    ∀ (i : Nat) (st : EqState) (xs ys : List VarSlot) (vs ws : List Val), Val.sizes vs ≤ n →
    Means D T st.heap (.slots tag i ts xs vs) → Means D T st.heap (.slots tag i ts ys ws) →
    Answers D T.slotMask st (eqSlots T f (T.slotMask tag) i st (xs.zip ys)) (vs = ws) := by
  induction ts with
  | nil =>
      intro i st xs ys vs ws _ hx hy
      cases hx
      cases hy
      exact answers_of_iff (by simp)
  | cons t ts ih =>
      intro i st xs ys vs ws hsize hx hy
      cases hx with
      | @slotPtr _ _ _ x v _ xs vs hkind hxv hxs =>
          rw [Val.sizes] at hsize
          cases hy with
          | @slotPtr _ _ _ y w _ ys ws _ hyw hys =>
              have hhead := hf st t x y v w (by omega) hxv hyw
              rw [List.zip_cons_cons, eqSlots_ptr hkind, List.cons.injEq]
              refine hhead.andThen fun st' hheap _ => ?_
              exact ih (i + 1) st' xs ys vs ws (by omega) (hheap.reads _ hxs) (hheap.reads _ hys)
          | slotInt hother => rw [hkind] at hother; cases hother
          | slotEnum hother => rw [hkind] at hother; cases hother
      | @slotInt _ _ m _ xs vs hkind hxs =>
          rw [Val.sizes] at hsize
          cases hy with
          | slotPtr hother => rw [hkind] at hother; cases hother
          | @slotInt _ _ k _ ys ws _ hys =>
              rw [List.zip_cons_cons, eqSlots_int hkind]
              by_cases heq : m = k
              · rw [if_pos heq]
                exact (ih (i + 1) st xs ys vs ws (by omega) hxs hys).congr (by simp [heq])
              · rw [if_neg heq]
                exact answers_of_iff (by simp [Subtype.ext_iff.not.1 heq])
      | @slotEnum _ _ name c m _ xs vs hkind hc hargs htag hxs =>
          rw [Val.sizes] at hsize
          cases hy with
          | slotPtr hother => rw [hkind] at hother; cases hother
          | @slotEnum _ _ _ d k _ ys ws _ hd hargs' htag' hys =>
              rw [List.zip_cons_cons, eqSlots_enum hkind]
              by_cases heq : m = k
              · have htags : c.tag = d.tag := by
                  rw [heq, htag'] at htag
                  exact Int.ofNat_inj.1 htag.symm
                rw [if_pos heq]
                exact (ih (i + 1) st xs ys vs ws (by omega) hxs hys).congr (by simp [htags])
              · have htags : c.tag ≠ d.tag := fun htags =>
                  heq (Subtype.ext (by rw [htag, htag', htags]))
                rw [if_neg heq]
                exact answers_of_iff (by simp [htags])

theorem WordVal.eqWord {s : Scalar} {x y : Word} {v w : Val} (hx : WordVal s x v)
    (hy : WordVal s y w) : eqWord T s x y = true ↔ v = w := by
  cases hx with
  | int =>
      cases hy
      simp [Runtime.eqWord]
  | @bool _ b hb =>
      cases hy with
      | @bool _ c hc => cases b <;> cases c <;> simp [Runtime.eqWord, hb, hc]
  | char hb =>
      cases hy with
      | char hc => simp [Runtime.eqWord, hb, hc]
  | byte hb =>
      cases hy with
      | byte hc => simp [Runtime.eqWord, hb, hc, UInt8.toNat_inj]

theorem RowVal.eqRow {ss : List Scalar} : ∀ {xs ys : List Word} {vs ws : List Val},
    RowVal ss xs vs → RowVal ss ys ws → (eqRow T ss xs ys = true ↔ vs = ws) := by
  induction ss with
  | nil =>
      intro xs ys vs ws hx hy
      cases hx
      cases hy
      simp [Runtime.eqRow]
  | cons s ss ih =>
      intro xs ys vs ws hx hy
      cases hx with
      | cons hxv hxs =>
          cases hy with
          | cons hyw hys =>
              have hhead := hxv.eqWord (T := T) hyw
              have htail := ih hxs hys
              rw [Runtime.eqRow] at htail ⊢
              rw [List.zip_cons_cons, List.zip_cons_cons, List.all_cons, Bool.and_eq_true, hhead,
                htail, List.cons.injEq]

theorem RowVal.length {ss : List Scalar} {xs : List Word} {vs : List Val} (h : RowVal ss xs vs) :
    xs.length = vs.length ∧ ss.length = vs.length := by
  induction h with
  | nil => exact ⟨rfl, rfl⟩
  | cons _ _ ih => simp [ih.1, ih.2]

/-- What a cursor has yet to yield. -/
def Yields (D : Decls) (T : EqTables) (h : Heap) (t : Ty) (it : SeqIt) (vs : List Val) : Prop :=
  if it.inRange then
    t = .int ∧ it.step.1 ≠ 0 ∧ EndsInRange it.start it.stop it.step ∧
      vs = (terms it.start.1 it.step.1 (count it.start.1 it.stop.1 it.step.1)).map .int
  else Means D T h (.elems t it.node vs)

theorem Yields.carries {h h' : Heap} {t : Ty} {it : SeqIt} {vs : List Val}
    (hy : Yields D T h t it vs) (hheap : Carries D T.slotMask h h') : Yields D T h' t it vs := by
  unfold Yields at hy ⊢
  split
  · next hin => rwa [if_pos hin] at hy
  · next hin =>
      rw [if_neg hin] at hy
      exact hheap.reads _ hy

/-- The step of a cursor: nothing at the end, else the next element. -/
def Steps (D : Decls) (T : EqTables) (h : Heap) (t : Ty) (it : SeqIt) : List Val → Prop
  | [] => ∃ it', seqItNext h it = (h, none, it')
  | v :: vs => ∃ x h' it', seqItNext h it = (h', some x, it') ∧ Means D T h' (.value t x v) ∧
      Yields D T h' t it' vs ∧ Carries D T.slotMask h h'

theorem steps_generate {h : Heap} {it g : SeqIt} (hin : g.inRange = true)
    (hstep : g.step.1 ≠ 0) (hok : EndsInRange g.start g.stop g.step)
    (hnext : seqItNext h it = seqItGenerate h g) :
    Steps D T h .int it
      ((terms g.start.1 g.step.1 (count g.start.1 g.stop.1 g.step.1)).map .int) := by
  by_cases hpassed : Passed g.stop.1 g.step.1 g.start.1
  · rw [elements_nil hpassed]
    exact ⟨g, hnext.trans (seqItGenerate_empty h hpassed)⟩
  · rw [seqItGenerate_next h hpassed] at hnext
    rw [elements_cons hok hstep hpassed]
    refine ⟨_, _, _, hnext, .int (intf_kaiInt h g.start), ?_,
      (rewrites_kaiInt h g.start).carries _ _⟩
    rw [Yields, if_pos hin]
    exact ⟨rfl, hstep, (hok.next hstep hpassed).2, rfl⟩

theorem Yields.steps {h : Heap} {t : Ty} {it : SeqIt} {vs : List Val} (hy : Yields D T h t it vs) :
    Steps D T h t it vs := by
  unfold Yields at hy
  split at hy
  · next hin =>
      obtain ⟨rfl, hstep, hok, rfl⟩ := hy
      exact steps_generate hin hstep hok (by rw [seqItNext, if_pos hin])
  · next hin =>
      obtain ⟨node, start, stop, step, inRange⟩ := it
      cases hy with
      | @nil _ a hread =>
          refine ⟨⟨.ptr a, start, stop, step, inRange⟩, ?_⟩
          rw [seqItNext, if_neg hin]
          simp only [hread]
      | @cons _ a head tail _ _ hread hhead htail =>
          refine ⟨head, h, ⟨tail, start, stop, step, inRange⟩, ?_, hhead, ?_, carries_self _ _ h⟩
          · rw [seqItNext, if_neg hin]
            simp only [hread]
          · rw [Yields, if_neg hin]
            exact htail
      | @range a lo hi stride hread hstep hok =>
          refine steps_generate (g := ⟨.ptr a, lo, hi, stride, true⟩) rfl hstep hok ?_
          rw [seqItNext, if_neg hin]
          simp only [hread]

theorem Decides.eqCursors (hf : Decides D T f n) (t : Ty) (m : Nat) :
    ∀ (st : EqState) (ia ib : SeqIt) (vs ws : List Val), Val.sizes vs ≤ m → Val.sizes vs ≤ n →
    Yields D T st.heap t ia vs → Yields D T st.heap t ib ws →
    Answers D T.slotMask st (eqCursors f m st ia ib) (vs = ws) := by
  induction m with
  | zero =>
      intro st ia ib vs ws hm
      cases vs with
      | nil => exact absurd hm (by decide)
      | cons v vs =>
          rw [Val.sizes] at hm
          omega
  | succ m ih =>
      intro st ia ib vs ws hm hn hya hyb
      have hint := carries_interrupt D T.slotMask st
      have hsa := (hya.carries hint).steps
      refine Answers.before ?_ hint
      rw [Runtime.eqCursors]
      cases vs with
      | nil =>
          obtain ⟨ia', hna⟩ := hsa
          have hsb := (hyb.carries hint).steps
          rw [hna]
          cases ws with
          | nil =>
              obtain ⟨ib', hnb⟩ := hsb
              rw [hnb]
              exact answers_of_iff (by simp)
          | cons w ws =>
              obtain ⟨y, hb, ib', hnb, -, -, hcb⟩ := hsb
              rw [hnb]
              exact ⟨_, false, rfl, by simp, hcb⟩
      | cons v vs =>
          obtain ⟨x, ha, ia', hna, hxv, hya', hca⟩ := hsa
          have hsb := ((hyb.carries hint).carries hca).steps
          rw [hna]
          rw [Val.sizes] at hm hn
          cases ws with
          | nil =>
              obtain ⟨ib', hnb⟩ := hsb
              rw [hnb]
              exact ⟨_, false, rfl, by simp, hca⟩
          | cons w ws =>
              obtain ⟨y, hb, ib', hnb, hyw, hyb', hcb⟩ := hsb
              rw [hnb, List.cons.injEq]
              have hhead := hf { st.interrupt with heap := hb } t x y v w (by omega)
                (hcb.reads _ hxv) hyw
              refine Answers.before (hhead.andThen fun st' hheap _ => ?_) (hca.trans hcb)
              exact ih st' ia' ib' vs ws (by omega) (by omega)
                ((hya'.carries hcb).carries hheap) (hyb'.carries hheap)

theorem Decides.eqSpine (hf : Decides D T f n) (t : Ty) (m : Nat) :
    ∀ (st : EqState) (a b : Ref) (vs ws : List Val), Val.sizes vs ≤ m → Val.sizes vs ≤ n →
    Means D T st.heap (.elems t a vs) → Means D T st.heap (.elems t b ws) →
    (consAt st.heap a).isSome → (consAt st.heap b).isSome →
    Answers D T.slotMask st (eqSpine f m st a b) (vs = ws) := by
  induction m with
  | zero =>
      intro st a b vs ws hm
      cases vs with
      | nil => exact absurd hm (by decide)
      | cons v vs =>
          rw [Val.sizes] at hm
          omega
  | succ m ih =>
      intro st a b vs ws hm hn ha hb hca hcb
      cases ha with
      | nil hread => simp [consAt, hread] at hca
      | range hread => simp [consAt, hread] at hca
      | @cons _ p headA tailA v vs hreadA hheadA htailA =>
          cases hb with
          | nil hread => simp [consAt, hread] at hcb
          | range hread => simp [consAt, hread] at hcb
          | @cons _ q headB tailB w ws hreadB hheadB htailB =>
              rw [Val.sizes] at hm hn
              have hhead := hf st t headA headB v w (by omega) hheadA hheadB
              have hcellA : consAt st.heap (.ptr p) = some (headA, tailA) := by simp [consAt, hreadA]
              have hcellB : consAt st.heap (.ptr q) = some (headB, tailB) := by simp [consAt, hreadB]
              simp only [Runtime.eqSpine, hcellA, hcellB, List.cons.injEq]
              refine hhead.andThen fun st' hheap _ => ?_
              -- the head's comparison has left both cells as they were
              have hlaterA : consAt st'.heap (.ptr p) = some (headA, tailA) := by
                simp [consAt, hheap.kept p _ hreadA rfl]
              have hlaterB : consAt st'.heap (.ptr q) = some (headB, tailB) := by
                simp [consAt, hheap.kept q _ hreadB rfl]
              have hrestA := hheap.reads _ htailA
              have hrestB := hheap.reads _ htailB
              simp only [hlaterA, hlaterB]
              by_cases hboth : (consAt st'.heap tailA).isSome && (consAt st'.heap tailB).isSome
              · rw [if_pos hboth]
                rw [Bool.and_eq_true] at hboth
                exact ih st' tailA tailB vs ws (by omega) (by omega) hrestA hrestB hboth.1 hboth.2
              · rw [if_neg hboth]
                have hsize : (Val.list vs).size ≤ n := by
                  rw [Val.size]
                  omega
                exact (hf st' (.list t) tailA tailB (.list vs) (.list ws) hsize (.list hrestA)
                  (.list hrestB)).congr (by rw [Val.list.injEq])

/-- The values of a vec's elements. -/
inductive Elements (D : Decls) (T : EqTables) (h : Heap) (t : Ty) : VecData → List Val → Prop
  | empty {data : VecData} : data.length = 0 → Elements D T h t data []
  | boxed {xs : List Ref} {vs : List Val} : t.scalar = none → D.columns t = none →
      Means D T h (.refs (List.replicate xs.length t) xs vs) → Elements D T h t (.boxed xs) vs
  | raw {s : Scalar} {ws : List Word} {vs : List Val} : t.scalar = some s →
      RowVal (List.replicate ws.length s) ws vs → Elements D T h t (.raw s ws) vs
  | inlined {shape : RecMeta} {rows : List (List Word)} {vss : List (List Val)} :
      t.scalar = none → D.columns t = some shape.fieldTags →
      List.Forall₂ (RowVal shape.fieldTags) rows vss →
      Elements D T h t (.inlined shape rows) (vss.map Val.record)

theorem elements_of_means {h : Heap} {t : Ty} {r : Ref} {v : Val}
    (hv : Means D T h (.value (.vec t) r v)) :
    ∃ a data vs, r = .ptr a ∧ v = .vec vs ∧ vecAt h a = some data ∧ Elements D T h t data vs := by
  cases hv with
  | vecEmpty hdata hlen => exact ⟨_, _, _, rfl, rfl, hdata, .empty hlen⟩
  | vecBoxed hdata hscalar hcols hrefs => exact ⟨_, _, _, rfl, rfl, hdata, .boxed hscalar hcols hrefs⟩
  | vecRaw hdata hscalar hrow => exact ⟨_, _, _, rfl, rfl, hdata, .raw hscalar hrow⟩
  | vecInlined hdata hscalar hcols hrows =>
      exact ⟨_, _, _, rfl, rfl, hdata, .inlined hscalar hcols hrows⟩

theorem length_refs {h : Heap} {ts : List Ty} : ∀ {xs : List Ref} {vs : List Val},
    Means D T h (.refs ts xs vs) → xs.length = vs.length := by
  induction ts with
  | nil =>
      intro xs vs hx
      cases hx
      rfl
  | cons t ts ih =>
      intro xs vs hx
      cases hx with
      | refsCons _ hxs => rw [List.length_cons, List.length_cons, ih hxs]

theorem Elements.length {h : Heap} {t : Ty} {data : VecData} {vs : List Val}
    (hd : Elements D T h t data vs) : data.length = vs.length := by
  cases hd with
  | empty hlen => exact hlen
  | boxed _ _ hrefs => exact length_refs hrefs
  | raw _ hrow => exact hrow.length.1
  | inlined _ _ hrows => rw [VecData.length, List.length_map, hrows.length_eq]

theorem eqWords_eq_eqRow (s : Scalar) : ∀ {xs ys : List Word}, xs.length = ys.length →
    ((xs.zip ys).all fun c => eqWord T s c.1 c.2) = eqRow T (List.replicate xs.length s) xs ys
  | [], _, _ => rfl
  | x :: xs, y :: ys, hlen => by
      have htail := eqWords_eq_eqRow s (Nat.succ.inj hlen)
      rw [Runtime.eqRow] at htail ⊢
      rw [List.zip_cons_cons, List.all_cons, htail, List.length_cons, List.replicate_succ,
        List.zip_cons_cons, List.all_cons]

theorem eqRows_iff {ss : List Scalar} {xs ys : List (List Word)} {vss wss : List (List Val)}
    (hx : List.Forall₂ (RowVal ss) xs vss) (hy : List.Forall₂ (RowVal ss) ys wss)
    (hlen : xs.length = ys.length) :
    ((xs.zip ys).all fun c => eqRow T ss c.1 c.2) = true ↔ vss = wss := by
  induction hx generalizing ys wss with
  | nil =>
      cases hy with
      | nil => simp
      | cons => cases hlen
  | cons hxv _ ih =>
      cases hy with
      | nil => cases hlen
      | cons hyw hys =>
          rw [List.zip_cons_cons, List.all_cons, Bool.and_eq_true, hxv.eqRow hyw,
            ih hys (Nat.succ.inj hlen), List.cons.injEq]

theorem Decides.vecEq (hf : Decides D T f n) (t : Ty) (st : EqState) {x y : VecData}
    {vs ws : List Val} (hsize : Val.sizes vs ≤ n) (hx : Elements D T st.heap t x vs)
    (hy : Elements D T st.heap t y ws) : Answers D T.slotMask st (vecEq T f st x y) (vs = ws) := by
  have hlenx := hx.length
  have hleny := hy.length
  unfold Runtime.vecEq
  by_cases hlen : x.length = y.length
  · rw [if_neg (not_not.2 hlen)]
    by_cases hzero : x.length = 0
    · rw [if_pos hzero]
      have hvs : vs = [] := List.length_eq_zero_iff.1 (by omega)
      have hws : ws = [] := List.length_eq_zero_iff.1 (by omega)
      exact answers_of_iff (by simp [hvs, hws])
    · rw [if_neg hzero]
      cases hx with
      | empty hempty => exact absurd hempty hzero
      | @boxed xs _ hscalar hcols hxs =>
          cases hy with
          | empty hempty => exact absurd (hlen.trans hempty) hzero
          | @boxed ys _ _ _ hys =>
              rw [← (show xs.length = ys.length from hlen)] at hys
              exact hf.eqAll _ st xs ys vs ws hsize hxs hys
          | raw hother => rw [hscalar] at hother; cases hother
          | inlined _ hother => rw [hcols] at hother; cases hother
      | @raw s xs _ hscalar hxs =>
          cases hy with
          | empty hempty => exact absurd (hlen.trans hempty) hzero
          | boxed hother => rw [hscalar] at hother; cases hother
          | @raw s' ys _ hscalar' hys =>
              obtain rfl : s = s' := Option.some.inj (hscalar.symm.trans hscalar')
              have hlens : xs.length = ys.length := hlen
              rw [← hlens] at hys
              dsimp only
              rw [eqWords_eq_eqRow s hlens]
              exact answers_of_iff (hxs.eqRow hys)
          | inlined hother => rw [hscalar] at hother; cases hother
      | @inlined shape xs _ hscalar hcols hxs =>
          cases hy with
          | empty hempty => exact absurd (hlen.trans hempty) hzero
          | boxed _ hother => rw [hcols] at hother; cases hother
          | raw hother => rw [hscalar] at hother; cases hother
          | @inlined shape' ys _ _ hcols' hys =>
              rw [← Option.some.inj (hcols.symm.trans hcols')] at hys
              have hrecord : Function.Injective Val.record := fun _ _ h => Val.record.inj h
              refine answers_of_iff ((eqRows_iff hxs hys hlen).trans ?_)
              exact (List.map_injective_iff.2 hrecord).eq_iff.symm
  · rw [if_pos hlen]
    refine answers_of_iff ⟨fun hfalse => absurd hfalse (by decide), ?_⟩
    rintro rfl
    exact absurd (hlenx.trans hleny.symm) hlen

end

end Kaikai.Runtime
