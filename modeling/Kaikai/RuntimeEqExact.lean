import Kaikai.RuntimeEqLoops

namespace Kaikai.Runtime

open Kaikai.Word64 (Word InRange)
open Kaikai.Progression

section

variable {D : Decls} {T : EqTables}

theorem intf_ptr {h : Heap} {p : Nat} {n : Word} (hint : intf h (.ptr p) = some n) :
    h.read p = some (.int n) := by
  rw [intf] at hint
  split at hint
  · next m hread =>
      cases hint
      exact hread
  · cases hint

theorem opEq_int (fuel : Nat) {st : EqState} {a b : Ref} {m n : Word}
    (ha : intf st.heap a = some m) (hb : intf st.heap b = some n) :
    Answers D T.slotMask st (opEq T (fuel + 1) st a b) (m = n) := by
  have hint := carries_interrupt D T.slotMask st
  have hkept {r : Ref} {k : Word} (hr : intf st.heap r = some k) :
      intf st.interrupt.heap r = some k := by
    cases r with
    | null => cases hr
    | imm _ => exact hr
    | ptr p => rw [intf, hint.kept p _ (intf_ptr hr) rfl]
  have ha' := hkept ha
  have hb' := hkept hb
  refine Answers.before ?_ hint
  unfold opEq
  by_cases hsame : sameRef st.interrupt.heap a b
  · rw [if_pos hsame]
    unfold sameRef at hsame
    rw [Bool.and_eq_true, beq_iff_eq] at hsame
    rw [hsame.1, hb'] at ha'
    exact answers_of_iff (by simpa using ha'.symm)
  · rw [if_neg hsame]
    by_cases hvalue : a.isValue || b.isValue
    · rw [if_pos hvalue]
      exact answers_of_iff (by simp [sameInt, ha', hb', Subtype.ext_iff])
    · rw [if_neg hvalue]
      cases a with
      | null => cases ha
      | imm _ => exact absurd rfl hvalue
      | ptr p =>
          cases b with
          | null => cases hb
          | imm _ => simp [Ref.isValue] at hvalue
          | ptr q =>
              simp only [intf_ptr ha', intf_ptr hb']
              exact answers_of_iff (by simp [Subtype.ext_iff])

theorem opEq_cells {fuel : Nat} {st : EqState} {p q : Nat} {x y : Cell} {P : Prop}
    (hx : st.heap.read p = some x) (hy : st.heap.read q = some y) (hxr : x.isRange = false)
    (hyr : y.isRange = false) (hsame : p = q → x.mayHoldReal = false → P)
    (hcells : Answers D T.slotMask st.interrupt
      (eqCells T (opEq T fuel) fuel st.interrupt (.ptr p) (.ptr q) x y) P) :
    Answers D T.slotMask st (opEq T (fuel + 1) st (.ptr p) (.ptr q)) P := by
  have hint := carries_interrupt D T.slotMask st
  have hx' := hint.kept p x hx hxr
  have hy' := hint.kept q y hy hyr
  refine Answers.before ?_ hint
  unfold opEq
  by_cases hone : sameRef st.interrupt.heap (.ptr p) (.ptr q)
  · rw [if_pos hone]
    simp only [sameRef, hx', Bool.and_eq_true, beq_iff_eq, Ref.ptr.injEq,
      Bool.not_eq_true'] at hone
    exact answers_of_iff ⟨fun _ => hsame hone.1 hone.2, fun _ => rfl⟩
  · rw [if_neg hone, if_neg (by simp [Ref.isValue])]
    simp only [hx', hy', hxr, hyr, Bool.or_self, Bool.false_eq_true, if_false]
    exact hcells

theorem opEq_leaf {fuel : Nat} {st : EqState} {p q : Nat} {x y : Cell} {P : Prop}
    (hx : st.heap.read p = some x) (hy : st.heap.read q = some y) (hxr : x.isRange = false)
    (hyr : y.isRange = false)
    (hcells : Answers D T.slotMask st.interrupt
      (eqCells T (opEq T fuel) fuel st.interrupt (.ptr p) (.ptr q) x y) P)
    (hone : x = y → P) :
    Answers D T.slotMask st (opEq T (fuel + 1) st (.ptr p) (.ptr q)) P := by
  refine opEq_cells hx hy hxr hyr ?_ hcells
  rintro rfl _
  rw [hx] at hy
  exact hone (Option.some.inj hy)

theorem elems_cell {h : Heap} {t : Ty} {r : Ref} {vs : List Val}
    (hr : Means D T h (.elems t r vs)) :
    ∃ p c, r = .ptr p ∧ h.read p = some c ∧ c.isSeq = true := by
  cases hr with
  | nil hread => exact ⟨_, _, rfl, hread, rfl⟩
  | cons hread => exact ⟨_, _, rfl, hread, rfl⟩
  | range hread => exact ⟨_, _, rfl, hread, rfl⟩

theorem elems_same {h : Heap} {t : Ty} {p : Nat} {c : Cell} {vs ws : List Val}
    (hread : h.read p = some c) (hc : c.mayHoldReal = false)
    (hv : Means D T h (.elems t (.ptr p) vs)) (hw : Means D T h (.elems t (.ptr p) ws)) :
    vs = ws := by
  cases hv with
  | nil hv =>
      cases hw with
      | nil => rfl
      | cons hw => rw [hv] at hw; cases hw
      | range hw => rw [hv] at hw; cases hw
  | cons hv =>
      rw [hread] at hv
      cases hv
      cases hc
  | range hv =>
      cases hw with
      | nil hw => rw [hv] at hw; cases hw
      | cons hw => rw [hv] at hw; cases hw
      | range hw =>
          rw [hv] at hw
          cases hw
          rfl

theorem eqCells_elems {fuel : Nat} (hf : Decides D T (opEq T fuel) fuel) {st : EqState} {t : Ty}
    {p q : Nat} {c d : Cell} {vs ws : List Val} (hsize : Val.sizes vs ≤ fuel)
    (hc : st.heap.read p = some c) (hd : st.heap.read q = some d)
    (hrange : (c.isRange || d.isRange) = false)
    (ha : Means D T st.heap (.elems t (.ptr p) vs))
    (hb : Means D T st.heap (.elems t (.ptr q) ws)) :
    Answers D T.slotMask st (eqCells T (opEq T fuel) fuel st (.ptr p) (.ptr q) c d) (vs = ws) := by
  rw [Bool.or_eq_false_iff] at hrange
  cases ha with
  | nil hread =>
      rw [hread] at hc
      cases hc
      cases hb with
      | nil hread' =>
          rw [hread'] at hd
          cases hd
          exact answers_of_iff (by simp)
      | cons hread' =>
          rw [hread'] at hd
          cases hd
          exact answers_of_iff (by simp)
      | range hread' =>
          rw [hread'] at hd
          cases hd
          cases hrange.2
  | cons hread hhead htail =>
      have ha : Means D T st.heap (.elems t (.ptr p) _) := .cons hread hhead htail
      have hca : (consAt st.heap (.ptr p)).isSome := by simp [consAt, hread]
      rw [hread] at hc
      cases hc
      cases hb with
      | nil hread' =>
          rw [hread'] at hd
          cases hd
          exact answers_of_iff (by simp)
      | cons hread' hhead' htail' =>
          have hb : Means D T st.heap (.elems t (.ptr q) _) := .cons hread' hhead' htail'
          have hcb : (consAt st.heap (.ptr q)).isSome := by simp [consAt, hread']
          rw [hread'] at hd
          cases hd
          exact hf.eqSpine t fuel st (.ptr p) (.ptr q) _ _ hsize hsize ha hb hca hcb
      | range hread' =>
          rw [hread'] at hd
          cases hd
          cases hrange.2
  | range hread =>
      rw [hread] at hc
      cases hc
      cases hrange.1

theorem opEq_elems {fuel : Nat} (hf : Decides D T (opEq T fuel) fuel) {st : EqState} {t : Ty}
    {a b : Ref} {vs ws : List Val} (hsize : Val.sizes vs ≤ fuel)
    (ha : Means D T st.heap (.elems t a vs)) (hb : Means D T st.heap (.elems t b ws)) :
    Answers D T.slotMask st (opEq T (fuel + 1) st a b) (vs = ws) := by
  have hint := carries_interrupt D T.slotMask st
  have ha := hint.reads _ ha
  have hb := hint.reads _ hb
  obtain ⟨p, c, rfl, hc, hcseq⟩ := elems_cell ha
  obtain ⟨q, d, rfl, hd, hdseq⟩ := elems_cell hb
  refine Answers.before ?_ hint
  unfold opEq
  by_cases hone : sameRef st.interrupt.heap (.ptr p) (.ptr q)
  · rw [if_pos hone]
    simp only [sameRef, hc, Bool.and_eq_true, beq_iff_eq, Ref.ptr.injEq, Bool.not_eq_true'] at hone
    rw [← hone.1] at hb
    exact answers_of_iff ⟨fun _ => elems_same hc hone.2 ha hb, fun _ => rfl⟩
  · rw [if_neg hone, if_neg (by simp [Ref.isValue])]
    simp only [hc, hd]
    by_cases hrange : c.isRange || d.isRange
    · rw [if_pos hrange, if_pos (by simp [hcseq, hdseq])]
      have hinit {r : Ref} {us : List Val} (hr : Means D T st.interrupt.heap (.elems t r us)) :
          Yields D T st.interrupt.heap t (seqItInit r) us := by
        rw [Yields, if_neg (by simp [seqItInit])]
        exact hr
      exact hf.eqCursors t fuel st.interrupt _ _ vs ws hsize hsize (hinit ha) (hinit hb)
    · rw [if_neg hrange]
      exact eqCells_elems hf hsize hc hd (Bool.eq_false_iff.2 hrange) ha hb

/-- A program without `Eq` impls of its own. -/
structure Plain (D : Decls) (T : EqTables) : Prop where
  records : ∀ name, T.eqImplOf (D.head name) = none
  variants : ∀ name c, c ∈ D.ctors name → T.eqImplOf (T.variantHead c.tag) = none

theorem opEq_record {fuel name : Nat} (hplain : Plain D T) (hf : Decides D T (opEq T fuel) fuel)
    {st : EqState} {a b : Ref} {v w : Val} (hsize : v.size ≤ fuel + 1)
    (ha : Means D T st.heap (.value (.record name) a v))
    (hb : Means D T st.heap (.value (.record name) b w)) :
    Answers D T.slotMask st (opEq T (fuel + 1) st a b) (v = w) := by
  cases ha with
  | @record _ p xs vs hread hnames hrefs =>
      cases hb with
      | @record _ q ys ws hread' hnames' hrefs' =>
          rw [Val.size] at hsize
          refine opEq_cells hread hread' rfl rfl (fun _ hfalse => by cases hfalse) ?_
          have hlen : xs.length = ys.length := by
            have hlens := congrArg List.length (hnames.trans hnames'.symm)
            rwa [List.length_map, List.length_map] at hlens
          have hint := (carries_interrupt D T.slotMask st).reads
          have hfields := hf.eqAll (D.fieldTypes name) st.interrupt (xs.map Prod.snd)
            (ys.map Prod.snd) vs ws (by omega) (hint _ hrefs) (hint _ hrefs')
          simp only [eqCells, hplain.records name, ne_eq, hlen, not_true_eq_false, if_false]
          exact hfields.congr (by rw [Val.record.injEq])

theorem length_slots {h : Heap} {tag : Nat} {ts : List Ty} : ∀ {i : Nat} {ss : List VarSlot}
    {vs : List Val}, Means D T h (.slots tag i ts ss vs) → ss.length = ts.length := by
  induction ts with
  | nil =>
      intro i ss vs hs
      cases hs
      rfl
  | cons t ts ih =>
      intro i ss vs hs
      cases hs with
      | slotPtr _ _ hrest => rw [List.length_cons, List.length_cons, ih hrest]
      | slotInt _ hrest => rw [List.length_cons, List.length_cons, ih hrest]
      | slotEnum _ _ _ _ hrest => rw [List.length_cons, List.length_cons, ih hrest]

theorem opEq_variant {fuel name : Nat} (hplain : Plain D T) (hf : Decides D T (opEq T fuel) fuel)
    {st : EqState} {a b : Ref} {v w : Val} (hsize : v.size ≤ fuel + 1)
    (ha : Means D T st.heap (.value (.sum name) a v))
    (hb : Means D T st.heap (.value (.sum name) b w)) :
    Answers D T.slotMask st (opEq T (fuel + 1) st a b) (v = w) := by
  cases ha with
  | @variant _ p c xs vs hc hread hslots =>
      cases hb with
      | @variant _ q d ys ws hd hread' hslots' =>
          rw [Val.size] at hsize
          refine opEq_cells hread hread' rfl rfl (fun _ hfalse => by cases hfalse) ?_
          have hint := (carries_interrupt D T.slotMask st).reads
          simp only [eqCells, hplain.variants name c hc]
          by_cases htags : c.tag = d.tag
          · obtain rfl := D.tag_inj name c d hc hd htags
            have hlen : xs.length = ys.length := (length_slots hslots).trans (length_slots hslots').symm
            have hall := hf.eqSlots c.tag c.args 0 st.interrupt xs ys vs ws (by omega)
              (hint _ hslots) (hint _ hslots')
            simp only [ne_eq, not_true_eq_false, if_false, hlen]
            exact hall.congr (by simp)
          · rw [if_pos htags]
            exact answers_of_iff (by simp [htags])

theorem vecAt_cell {h : Heap} {p : Nat} {data : VecData} (hp : vecAt h p = some data) :
    ∃ c, h.read p = some c ∧ vecData h c = some data ∧
      ((∃ v, c = .vec v) ∨ ∃ owner start len, c = .view owner start len) := by
  rw [vecAt, Option.bind_eq_some_iff] at hp
  obtain ⟨c, hread, hdata⟩ := hp
  cases c with
  | vec v => exact ⟨_, hread, hdata, .inl ⟨v, rfl⟩⟩
  | view owner start len => exact ⟨_, hread, hdata, .inr ⟨owner, start, len, rfl⟩⟩
  | _ => cases hdata

theorem opEq_vec {fuel : Nat} (hf : Decides D T (opEq T fuel) fuel) {st : EqState} {t : Ty}
    {a b : Ref} {v w : Val} (hsize : v.size ≤ fuel + 1)
    (ha : Means D T st.heap (.value (.vec t) a v)) (hb : Means D T st.heap (.value (.vec t) b w)) :
    Answers D T.slotMask st (opEq T (fuel + 1) st a b) (v = w) := by
  have hint := carries_interrupt D T.slotMask st
  obtain ⟨p, _, vs, rfl, rfl, hx, _⟩ := elements_of_means ha
  obtain ⟨q, _, ws, rfl, rfl, hy, _⟩ := elements_of_means hb
  obtain ⟨c, hc, -, hcvec⟩ := vecAt_cell hx
  obtain ⟨d, hd, -, hdvec⟩ := vecAt_cell hy
  have hcr : c.isRange = false ∧ c.mayHoldReal = true := by
    rcases hcvec with ⟨v, rfl⟩ | ⟨owner, start, len, rfl⟩ <;> exact ⟨rfl, rfl⟩
  have hdr : d.isRange = false := by
    rcases hdvec with ⟨v, rfl⟩ | ⟨owner, start, len, rfl⟩ <;> rfl
  -- the elements are read behind the normalisations, where the cells are the same
  obtain ⟨_, x, _, hp', hvs', hx', hxs⟩ := elements_of_means (hint.reads _ ha)
  obtain ⟨_, y, _, hq', hws', hy', hys⟩ := elements_of_means (hint.reads _ hb)
  cases hp'
  cases hq'
  cases hvs'
  cases hws'
  rw [vecAt, hint.kept p c hc hcr.1, Option.bind_some] at hx'
  rw [vecAt, hint.kept q d hd hdr, Option.bind_some] at hy'
  have hcells : eqCells T (opEq T fuel) fuel st.interrupt (.ptr p) (.ptr q) c d =
      vecEq T (opEq T fuel) st.interrupt x y := by
    rcases hcvec with ⟨v, rfl⟩ | ⟨owner, start, len, rfl⟩ <;>
      rcases hdvec with ⟨w, rfl⟩ | ⟨owner', start', len', rfl⟩ <;>
      simp only [eqCells, hx', hy']
  rw [Val.size] at hsize
  refine opEq_cells hc hd hcr.1 hdr (fun _ hfalse => ?_) ?_
  · rw [hcr.2] at hfalse
    cases hfalse
  · rw [hcells]
    exact (hf.vecEq t st.interrupt (by omega) hxs hys).congr (by rw [Val.vec.injEq])

theorem decides_opEq (hplain : Plain D T) (fuel : Nat) : Decides D T (opEq T fuel) fuel := by
  induction fuel with
  | zero =>
      intro st t a b v w hsize
      cases v <;> simp [Val.size] at hsize
  | succ fuel ih =>
      intro st t a b v w hsize ha hb
      cases t with
      | unit =>
          cases ha with
          | unit hread =>
              cases hb with
              | unit hread' =>
                  exact opEq_leaf hread hread' rfl rfl (answers_of_iff (by simp)) fun _ => rfl
      | bool =>
          cases ha with
          | bool hread =>
              cases hb with
              | bool hread' =>
                  exact opEq_leaf hread hread' rfl rfl (answers_of_iff (by simp)) fun h => by
                    cases h
                    rfl
      | int =>
          cases ha with
          | int hint =>
              cases hb with
              | int hint' =>
                  exact (opEq_int fuel hint hint').congr (by simp [Subtype.ext_iff])
      | char =>
          cases ha with
          | char hread =>
              cases hb with
              | char hread' =>
                  exact opEq_leaf hread hread' rfl rfl (answers_of_iff (by simp)) fun h => by
                    cases h
                    rfl
      | str =>
          cases ha with
          | str hread =>
              cases hb with
              | str hread' =>
                  exact opEq_leaf hread hread' rfl rfl (answers_of_iff (by simp)) fun h => by
                    cases h
                    rfl
      | byte =>
          cases ha with
          | byte hread =>
              cases hb with
              | byte hread' =>
                  exact opEq_leaf hread hread' rfl rfl (answers_of_iff (by simp)) fun h => by
                    cases h
                    rfl
      | fixed k =>
          cases ha with
          | fixed hread =>
              cases hb with
              | fixed hread' =>
                  exact opEq_leaf hread hread' rfl rfl (answers_of_iff (by simp)) fun h => by
                    cases h
                    rfl
      | list t =>
          cases ha with
          | list ha =>
              cases hb with
              | list hb =>
                  rw [Val.size] at hsize
                  exact (opEq_elems ih (by omega) ha hb).congr (by rw [Val.list.injEq])
      | vec t => exact opEq_vec ih hsize ha hb
      | record name => exact opEq_record hplain ih hsize ha hb
      | sum name => exact opEq_variant hplain ih hsize ha hb

/-- Equality at all types, where `ok` holds of every range: with enough steps it answers,
whatever is normalised before them, and the answer is the equality of the values. -/
def SeesThrough (ok : Word → Word → Word → Prop) (D : Decls) (T : EqTables) : Prop :=
  ∀ (st : EqState) (t : Ty) (a b : Ref) (v w : Val),
    Reads D T.slotMask ok st.heap (.value t a v) → Reads D T.slotMask ok st.heap (.value t b w) →
    ∃ steps, ∀ fuel, steps ≤ fuel →
      ∃ st' e, opEq T fuel st a b = some (st', e) ∧ (e = true ↔ v = w)

/-- Equality does not see representations. -/
theorem opEq_seesThrough (hplain : Plain D T) : SeesThrough EndsInRange D T := by
  intro st t a b v w ha hb
  refine ⟨v.size, fun fuel hfuel => ?_⟩
  obtain ⟨st', e, hout, he, -⟩ := decides_opEq hplain fuel st t a b v w hfuel ha hb
  exact ⟨st', e, hout, he⟩

end

/-- A record type of one field, and a sum of two constructors. -/
def boxes : Decls where
  head name := name + 1
  fieldNames _ := [[120]]
  fieldTypes _ := [.int]
  ctors _ := [⟨1, []⟩, ⟨2, [.int]⟩]
  tag_inj _ c d hc hd htag := by
    simp only [List.mem_cons, List.not_mem_nil, or_false] at hc hd
    rcases hc with rfl | rfl <;> rcases hd with rfl | rfl <;> first | rfl | cases htag

def noImpls : EqTables where
  slotMask _ := 0
  variantHead _ := 0
  eqImpl _ := none
  realEq _ _ := false

theorem opEq_seesThrough_boxes : SeesThrough EndsInRange boxes noImpls :=
  opEq_seesThrough
    { records := by simp [EqTables.eqImplOf, noImpls]
      variants := by simp [EqTables.eqImplOf, noImpls] }

/-- An impl that finds any two boxes equal. -/
def allBoxesEqual : EqTables := { noImpls with eqImpl := fun _ => some fun st _ _ => some (st, true) }

/-- The records 1 and 2. -/
def twoBoxes : Heap where
  cells := [.nil, .record 1 [([120], .imm oneWord)], .record 1 [([120], .imm oneToThree.stop)]]
  nil_first := rfl

/-- `[m..m]` at the greatest integer `m`, and the list of `m` in cells. -/
def greatestTwice : Heap where
  cells := [.nil, greatest.cell, .int greatest.start, .cons (.ptr 2) (.ptr 0)]
  nil_first := rfl

/-- Records of two heads with the same fields. -/
def twoHeads : Heap where
  cells := [.nil, .record 1 [([120], .imm oneWord)], .record 2 [([120], .imm oneWord)]]
  nil_first := rfl

/-- An `Eq` impl decides by itself, a range whose walk overruns is longer than it should be,
and heads are not compared. -/
theorem not_seesThrough : ¬SeesThrough (fun _ _ _ => True) boxes allBoxesEqual ∧
    ¬SeesThrough (fun _ _ _ => True) boxes noImpls ∧
    (opEq noImpls 3 ⟨twoHeads, []⟩ (.ptr 1) (.ptr 2)).map Prod.snd = some true := by
  refine ⟨fun hsees => ?_, fun hsees => ?_, rfl⟩
  · have hbox (a : Nat) (n : Word)
        (hread : twoBoxes.read a = some (.record 1 [([120], .imm n)])) :
        Reads boxes allBoxesEqual.slotMask (fun _ _ _ => True) twoBoxes
          (.value (.record 0) (.ptr a) (.record [.int n.1])) :=
      .record hread rfl (.refsCons (.int rfl) .refsNil)
    obtain ⟨steps, hsteps⟩ := hsees ⟨twoBoxes, []⟩ (.record 0) (.ptr 1) (.ptr 2) _ _
      (hbox 1 _ rfl) (hbox 2 _ rfl)
    obtain ⟨st', e, hout, he⟩ := hsteps (steps + 1) (Nat.le_succ steps)
    have hyes : (opEq allBoxesEqual (steps + 1) ⟨twoBoxes, []⟩ (.ptr 1) (.ptr 2)).map Prod.snd =
        some true := rfl
    rw [hout] at hyes
    have hvalues := he.1 (Option.some.inj hyes)
    simp [oneWord, oneToThree] at hvalues
  · have hrange : Reads boxes noImpls.slotMask (fun _ _ _ => True) greatestTwice
        (.elems .int (.ptr 1) [.int greatest.start.1]) := by
      have helems : (terms greatest.start.1 greatest.step.1
          (count greatest.start.1 greatest.stop.1 greatest.step.1)).map Val.int =
            [.int greatest.start.1] := by
        rw [count_greatest]
        simp [terms]
      rw [← helems]
      exact .range rfl greatest.step_ne trivial
    have hcells : Reads boxes noImpls.slotMask (fun _ _ _ => True) greatestTwice
        (.elems .int (.ptr 3) [.int greatest.start.1]) := .cons rfl (.int rfl) (.nil rfl)
    obtain ⟨steps, hsteps⟩ := hsees ⟨greatestTwice, []⟩ (.list .int) (.ptr 1) (.ptr 3) _ _
      (.list hrange) (.list hcells)
    obtain ⟨st', e, hout, he⟩ := hsteps (steps + 3) (Nat.le_add_right steps 3)
    have hno : (opEq noImpls (steps + 3) ⟨greatestTwice, []⟩ (.ptr 1) (.ptr 3)).map Prod.snd =
        some false := rfl
    rw [hout] at hno
    rw [he.2 rfl] at hno
    cases hno

end Kaikai.Runtime
