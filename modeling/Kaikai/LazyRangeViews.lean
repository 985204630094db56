import Kaikai.LazyRange
import Kaikai.Progression

namespace Kaikai.Runtime

open Kaikai.Word64 (Word InRange wrap wrap_eq_self)
open Kaikai.Progression

namespace Range

variable (r : Range)

/-- The sequence that a range stands for. -/
def elements : List Int := terms r.start.1 r.step.1 (count r.start.1 r.stop.1 r.step.1)

def IsEmpty : Prop := Passed r.stop.1 r.step.1 r.start.1

end Range

/-- The numbers that references hold. -/
def ints (h : Heap) (xs : List Ref) : Option (List Int) := xs.mapM fun x => (intf h x).map Subtype.val

/-- Every view of a range is its sequence: unfolded in place, walked by the cursor and
converted to a vec; a range that is not empty also tells its length and its last element. -/
structure Views (r : Range) : Prop where
  unfolded : ∀ (h : Heap) (a : Nat), h.read a = some r.cell →
    ∃ fuel h' xs, unfoldCells fuel h (.ptr a) = some (h', xs) ∧ ints h' xs = some r.elements
  walked : ∀ (h : Heap) (a : Nat), h.read a = some r.cell →
    ∃ fuel h' xs, cursorWalk fuel h (seqItInit (.ptr a)) = some (h', xs) ∧
      ints h' xs = some r.elements
  converted : ∀ (h : Heap) (a : Nat), h.read a = some r.cell →
    ∃ fuel h' v, vecFromList fuel h (.ptr a) = some (h', v) ∧
      (v.data = .pending ∧ r.elements = [] ∨
        ∃ bits, v.data = .raw .int bits ∧ bits.map Subtype.val = r.elements)
  measured : ¬r.IsEmpty → (rangeLen r.start r.stop r.step).1 = r.elements.length ∧
    some (rangeLast r.start r.stop r.step).1 = r.elements.getLast?

theorem rangeIsEmpty_iff (start stop step : Word) :
    rangeIsEmpty start stop step = true ↔ Passed stop.1 step.1 start.1 := by
  unfold rangeIsEmpty Passed
  split <;> simp

theorem ended_iff (stop step x : Word) :
    (if step.1 > 0 then x.1 > stop.1 else x.1 < stop.1) ↔ Passed stop.1 step.1 x.1 := Iff.rfl

theorem rangeNext_eq {start stop step : Word} (hstep : step.1 ≠ 0)
    (h : ¬Passed stop.1 step.1 start.1) (hbound : InRange (bound start.1 stop.1 step.1)) :
    (rangeNext start step).1 = start.1 + step.1 := by
  have hstart := start.2
  unfold InRange at hstart hbound
  apply wrap_eq_self
  · rcases next_between hstep h with ⟨hlow, -⟩ | ⟨hlow, -⟩
    · exact hstart.1.trans hlow
    · exact hbound.1.trans hlow
  · rcases next_between hstep h with ⟨-, hhigh⟩ | ⟨-, hhigh⟩
    · exact hhigh.trans_lt hbound.2
    · exact hhigh.trans_lt hstart.2

theorem intf_congr {h h' : Heap} {x : Ref} (hread : ∀ a, x = .ptr a → h'.read a = h.read a) :
    intf h' x = intf h x := by
  cases x with
  | null => rfl
  | imm n => rfl
  | ptr a => rw [intf, intf, hread a rfl]

theorem ints_cons (h : Heap) (x : Ref) (xs : List Ref) (n : Word) (ns : List Int)
    (hx : intf h x = some n) (hxs : ints h xs = some ns) : ints h (x :: xs) = some (n.1 :: ns) := by
  rw [ints] at hxs
  rw [ints, List.mapM_cons, hx, hxs]
  rfl

theorem kaiInt_fresh {h : Heap} {n : Word} {a : Nat} (ha : (kaiInt h n).2 = .ptr a) :
    a = h.next := by
  unfold kaiInt at ha
  split at ha
  · cases ha
  · exact (Ref.ptr.inj ha).symm

theorem kaiInt_lt {h : Heap} {n : Word} {a : Nat} (ha : (kaiInt h n).2 = .ptr a) :
    a < (kaiInt h n).1.next := by
  unfold kaiInt at ha ⊢
  split at ha
  · cases ha
  · rename_i hbig
    rw [if_neg hbig, ← Ref.ptr.inj ha]
    simp

/-- What a walk does to the cells that it does not own: nothing. -/
structure Kept (h h' : Heap) (except : Nat → Prop) : Prop where
  grown : h.next ≤ h'.next
  same : ∀ b, b < h.next → ¬except b → h'.read b = h.read b

theorem Kept.trans {h h' h'' : Heap} {p q : Nat → Prop} (h₁ : Kept h h' p) (h₂ : Kept h' h'' q)
    (hq : ∀ b, b < h.next → ¬p b → ¬q b) : Kept h h'' p where
  grown := h₁.grown.trans h₂.grown
  same b hb hp := (h₂.same b (hb.trans_le h₁.grown) (hq b hb hp)).trans (h₁.same b hb hp)

theorem kept_kaiInt (h : Heap) (n : Word) : Kept h (kaiInt h n).1 fun _ => False where
  grown := next_le_kaiInt h n
  same _ hb _ := read_kaiInt n hb

theorem kept_alloc (h : Heap) (c : Cell) : Kept h (h.alloc c) fun _ => False where
  grown := by simp
  same _ hb _ := Heap.read_alloc_of_lt hb

theorem kept_write (h : Heap) (a : Nat) (c : Cell) : Kept h (h.write a c) fun b => b = a where
  grown := by simp
  same _ _ hb := Heap.read_write_of_ne hb

theorem Kept.weaken {h h' : Heap} {p q : Nat → Prop} (hkept : Kept h h' p)
    (hq : ∀ b, b < h.next → ¬q b → ¬p b) : Kept h h' q where
  grown := hkept.grown
  same b hb hqb := hkept.same b hb (hq b hb hqb)

theorem intf_kept {h h' : Heap} {n : Word} (hkept : Kept (kaiInt h n).1 h' fun b => b < h.next) :
    intf h' (kaiInt h n).2 = some n := by
  rw [← intf_kaiInt h n]
  apply intf_congr
  intro a ha
  refine hkept.same a (kaiInt_lt ha) ?_
  rw [kaiInt_fresh ha]
  exact Nat.lt_irrefl _

variable {start stop step : Word}

theorem seqItGenerate_empty {it : SeqIt} (h : Heap)
    (hpassed : Passed it.stop.1 it.step.1 it.start.1) : seqItGenerate h it = (h, none, it) := by
  rw [seqItGenerate, if_pos ((rangeIsEmpty_iff _ _ _).2 hpassed)]

theorem seqItGenerate_next {it : SeqIt} (h : Heap)
    (hpassed : ¬Passed it.stop.1 it.step.1 it.start.1) :
    seqItGenerate h it = ((kaiInt h it.start).1, some (kaiInt h it.start).2,
      { it with start := rangeNext it.start it.step }) := by
  rw [seqItGenerate, if_neg fun hempty => hpassed ((rangeIsEmpty_iff _ _ _).1 hempty)]

theorem cursorWalk_generate (hstep : step.1 ≠ 0) (n : Nat) :
    ∀ {start : Word} (h : Heap) (node : Ref), count start.1 stop.1 step.1 = n →
      (n ≠ 0 → InRange (bound start.1 stop.1 step.1)) →
      ∃ h' xs, cursorWalk (n + 1) h ⟨node, start, stop, step, true⟩ = some (h', xs) ∧
        ints h' xs = some (terms start.1 step.1 n) ∧ Kept h h' fun _ => False := by
  induction n with
  | zero =>
      intro start h node hcount _
      have hpassed := count_eq_zero_iff.1 hcount
      refine ⟨h, [], ?_, rfl, ⟨Nat.le_refl _, fun _ _ _ => rfl⟩⟩
      rw [cursorWalk, seqItNext, if_pos rfl, seqItGenerate_empty h hpassed]
  | succ n ih =>
      intro start h node hcount hbound
      have hpassed : ¬Passed stop.1 step.1 start.1 := by
        rw [← count_eq_zero_iff, hcount]
        exact Nat.succ_ne_zero n
      have hrange := hbound (Nat.succ_ne_zero n)
      have hnext := rangeNext_eq hstep hpassed hrange
      rw [count_next hstep hpassed] at hcount
      rw [bound_next hstep hpassed, ← hnext] at hrange
      rw [← hnext] at hcount
      obtain ⟨h', xs, hwalk, hints, hkept⟩ := ih (kaiInt h start).1 node
        (Nat.succ.inj hcount) fun _ => hrange
      refine ⟨h', (kaiInt h start).2 :: xs, ?_, ?_, (kept_kaiInt h start).trans hkept
        fun _ _ hb => hb⟩
      · rw [cursorWalk, seqItNext, if_pos rfl, seqItGenerate_next h hpassed]
        simp only [hwalk, Option.map_some]
      · rw [terms_succ, ← hnext]
        exact ints_cons h' _ xs start _
          (intf_kept ⟨hkept.grown, fun b hb _ => hkept.same b hb fun hfalse => hfalse⟩) hints

theorem seqItNext_init {h : Heap} {a : Nat} (hread : h.read a = some (.range start stop step)) :
    seqItNext h (seqItInit (.ptr a)) = seqItNext h ⟨.ptr a, start, stop, step, true⟩ := by
  simp [seqItNext, seqItInit, hread]

theorem cursorWalk_init {h : Heap} {a : Nat} (hread : h.read a = some (.range start stop step))
    (fuel : Nat) : cursorWalk fuel h (seqItInit (.ptr a)) =
      cursorWalk fuel h ⟨.ptr a, start, stop, step, true⟩ := by
  cases fuel with
  | zero => rfl
  | succ fuel => rw [cursorWalk, cursorWalk, seqItNext_init hread]

theorem scalar_kaiInt (h : Heap) (n : Word) :
    scalarTag (kaiInt h n).1 (kaiInt h n).2 = some .int ∧
      scalarBits (kaiInt h n).1 (kaiInt h n).2 = n := by
  unfold kaiInt
  split
  · exact ⟨rfl, rfl⟩
  · simp [scalarTag, scalarBits]

/-- The payloads of a vec of integers. -/
def Holds (v : Vec) (ns : List Int) : Prop :=
  v.data = .pending ∧ ns = [] ∨ ∃ bits, v.data = .raw .int bits ∧ bits.map Subtype.val = ns

theorem push_int {v : Vec} {ns : List Int} (hv : Holds v ns) (h : Heap) (n : Word) :
    ∃ v', push (kaiInt h n).1 v (kaiInt h n).2 = some v' ∧ Holds v' (ns ++ [n.1]) := by
  obtain ⟨htag, hbits⟩ := scalar_kaiInt h n
  rcases hv with ⟨hdata, rfl⟩ | ⟨bits, hdata, rfl⟩
  · refine ⟨⟨max v.cap 4, .raw .int [n]⟩, ?_, .inr ⟨[n], rfl, rfl⟩⟩
    simp [push, hdata, classify, writeElem, htag, hbits]
  · refine ⟨⟨if (bits.length : Int) = v.cap then max (v.cap * 2) 4 else v.cap,
      .raw .int (bits ++ [n])⟩, ?_, .inr ⟨bits ++ [n], rfl, by simp⟩⟩
    simp [push, hdata, writeElem, htag, hbits, VecData.length]
    congr

theorem pushAll_generate (hstep : step.1 ≠ 0) (n : Nat) :
    ∀ {start : Word} (h : Heap) (node : Ref) {v : Vec} {ns : List Int},
      count start.1 stop.1 step.1 = n → (n ≠ 0 → InRange (bound start.1 stop.1 step.1)) →
      Holds v ns →
      ∃ h' v', pushAll (n + 1) h ⟨node, start, stop, step, true⟩ v = some (h', v') ∧
        Holds v' (ns ++ terms start.1 step.1 n) := by
  induction n with
  | zero =>
      intro start h node v ns hcount _ hv
      have hpassed := count_eq_zero_iff.1 hcount
      refine ⟨h, v, ?_, ?_⟩
      · rw [pushAll, seqItNext, if_pos rfl, seqItGenerate_empty h hpassed]
      · have hnone : terms start.1 step.1 0 = [] := rfl
        rw [hnone, List.append_nil]
        exact hv
  | succ n ih =>
      intro start h node v ns hcount hbound hv
      have hpassed : ¬Passed stop.1 step.1 start.1 := by
        rw [← count_eq_zero_iff, hcount]
        exact Nat.succ_ne_zero n
      have hrange := hbound (Nat.succ_ne_zero n)
      have hnext := rangeNext_eq hstep hpassed hrange
      rw [count_next hstep hpassed] at hcount
      rw [bound_next hstep hpassed, ← hnext] at hrange
      rw [← hnext] at hcount
      obtain ⟨v₁, hpush, hv₁⟩ := push_int hv h start
      obtain ⟨h', v', hwalk, hv'⟩ := ih (kaiInt h start).1 node (Nat.succ.inj hcount)
        (fun _ => hrange) hv₁
      refine ⟨h', v', ?_, ?_⟩
      · rw [pushAll, seqItNext, if_pos rfl, seqItGenerate_next h hpassed]
        simp only [hpush, Option.bind_eq_bind, Option.bind_some, hwalk]
      · rw [terms_succ, ← hnext]
        rw [List.append_assoc] at hv'
        exact hv'

theorem vecFromList_range (hstep : step.1 ≠ 0) {h : Heap} {a : Nat}
    (hread : h.read a = some (.range start stop step))
    (hbound : count start.1 stop.1 step.1 ≠ 0 → InRange (bound start.1 stop.1 step.1)) :
    ∃ fuel h' v, vecFromList fuel h (.ptr a) = some (h', v) ∧
      Holds v (terms start.1 step.1 (count start.1 stop.1 step.1)) := by
  obtain ⟨h', v, hwalk, hv⟩ := pushAll_generate hstep _ h (.ptr a)
    (v := ⟨if rangeIsEmpty start stop step then 0 else (rangeLen start stop step).1, .pending⟩)
    rfl hbound (.inl ⟨rfl, rfl⟩)
  refine ⟨count start.1 stop.1 step.1 + 1, h', v, ?_, hv⟩
  have hinit : pushAll (count start.1 stop.1 step.1 + 1) h (seqItInit (.ptr a))
      ⟨if rangeIsEmpty start stop step then 0 else (rangeLen start stop step).1, .pending⟩ =
        some (h', v) := by
    rw [pushAll, seqItNext_init hread, ← hwalk, pushAll]
  rw [vecFromList, listCount, hread]
  exact hinit

theorem Heap.ne_zero_of_range (h : Heap) {a : Nat}
    (hread : h.read a = some (.range start stop step)) : a ≠ 0 := by
  rintro rfl
  rw [Heap.read, h.nil_first] at hread
  cases hread

theorem unfoldCells_nil (h : Heap) (fuel : Nat) :
    unfoldCells (fuel + 1) h (.ptr 0) = some (h, []) := by
  have hnil : h.read 0 = some .nil := h.nil_first
  have hnorm : seqNorm h (.ptr 0) = h := by simp only [seqNorm, hnil]
  rw [unfoldCells]
  simp only [hnorm, hnil]

theorem unfoldCells_range (hstep : step.1 ≠ 0) (n : Nat) :
    ∀ {start : Word} (h : Heap) (a : Nat), h.read a = some (.range start stop step) →
      count start.1 stop.1 step.1 = n → (n ≠ 0 → InRange (bound start.1 stop.1 step.1)) →
      ∃ fuel h' xs, unfoldCells fuel h (.ptr a) = some (h', xs) ∧
        ints h' xs = some (terms start.1 step.1 n) ∧ Kept h h' fun b => b = a := by
  induction n with
  | zero =>
      intro start h a hread hcount _
      have hpassed := count_eq_zero_iff.1 hcount
      have hzero := h.ne_zero_of_range hread
      have hnorm : seqNorm h (.ptr a) = h.write a .nil := by
        simp only [seqNorm, hread, (rangeIsEmpty_iff _ _ _).2 hpassed, if_true]
      refine ⟨1, h.write a .nil, [], ?_, rfl, ⟨by simp, fun b _ hb => Heap.read_write_of_ne hb⟩⟩
      simp only [unfoldCells, hnorm, Heap.read_write hzero (Heap.read_lt hread)]
  | succ n ih =>
      intro start h a hread hcount hbound
      have hpassed : ¬Passed stop.1 step.1 start.1 := by
        rw [← count_eq_zero_iff, hcount]
        exact Nat.succ_ne_zero n
      have hzero := h.ne_zero_of_range hread
      have hlt := Heap.read_lt hread
      have hrange := hbound (Nat.succ_ne_zero n)
      have hnext := rangeNext_eq hstep hpassed hrange
      rw [count_next hstep hpassed, ← hnext] at hcount
      rw [bound_next hstep hpassed, ← hnext] at hrange
      have hempty : rangeIsEmpty start stop step = false := by
        rw [Bool.eq_false_iff]
        exact fun hempty => hpassed ((rangeIsEmpty_iff _ _ _).1 hempty)
      by_cases hended : Passed stop.1 step.1 (rangeNext start step).1
      · have hn : n = 0 := by
          rw [count_eq_zero_iff.2 hended] at hcount
          omega
        subst hn
        have hnorm : seqNorm h (.ptr a) =
            (kaiInt h start).1.write a (.cons (kaiInt h start).2 (.ptr 0)) := by
          simp only [seqNorm, hread, hempty, ended_iff, if_pos hended]
          rfl
        have hkept := kept_write (kaiInt h start).1 a (.cons (kaiInt h start).2 (.ptr 0))
        have hhead : intf ((kaiInt h start).1.write a (.cons (kaiInt h start).2 (.ptr 0)))
            (kaiInt h start).2 = some start :=
          intf_kept (hkept.weaken fun b _ hb heq => hb (heq ▸ hlt))
        refine ⟨2, (kaiInt h start).1.write a (.cons (kaiInt h start).2 (.ptr 0)),
          [(kaiInt h start).2], ?_, ?_,
          ((kept_kaiInt h start).weaken fun _ _ _ hfalse => hfalse).trans hkept fun _ _ hb => hb⟩
        · have hcons := Heap.read_write (c := .cons (kaiInt h start).2 (.ptr 0)) hzero
            (hlt.trans_le (next_le_kaiInt h start))
          rw [unfoldCells]
          simp only [hnorm, hcons]
          rw [unfoldCells_nil]
          rfl
        · rw [terms_succ]
          exact ints_cons _ _ [] start [] hhead rfl
      · have hnorm : seqNorm h (.ptr a) =
            (kaiInt (h.alloc (.range (rangeNext start step) stop step)) start).1.write a
              (.cons (kaiInt (h.alloc (.range (rangeNext start step) stop step)) start).2
                (.ptr h.next)) := by
          simp only [seqNorm, hread, hempty, ended_iff, if_neg hended]
          rfl
        generalize hk : kaiInt (h.alloc (.range (rangeNext start step) stop step)) start = k at hnorm
        have hlt₁ : a < k.1.next := by
          rw [← hk]
          exact hlt.trans_le ((kept_alloc h _).grown.trans (next_le_kaiInt _ start))
        have hkept := kept_write k.1 a (.cons k.2 (.ptr h.next))
        have htail : (k.1.write a (.cons k.2 (.ptr h.next))).read h.next =
            some (.range (rangeNext start step) stop step) := by
          rw [Heap.read_write_of_ne (Nat.ne_of_gt hlt), ← hk, read_kaiInt start (by simp)]
          exact Heap.read_alloc
        obtain ⟨fuel, h', xs, hwalk, hints, hkept'⟩ := ih _ h.next htail (Nat.succ.inj hcount)
          fun _ => hrange
        have hhead : intf h' k.2 = some start := by
          subst hk
          refine intf_kept (Kept.trans (hkept.weaken ?_) hkept' ?_)
          · exact fun b _ hb heq => hb (heq ▸ hlt.trans (by simp))
          · exact fun b _ hb heq => hb (heq ▸ by simp)
        refine ⟨fuel + 1, h', k.2 :: xs, ?_, ?_, ?_⟩
        · have hcons := Heap.read_write (c := .cons k.2 (.ptr h.next)) hzero hlt₁
          rw [unfoldCells]
          simp only [hnorm, hcons, hwalk, Option.map_some]
        · rw [terms_succ, ← hnext]
          exact ints_cons h' _ xs start _ hhead hints
        · have halloc : Kept h k.1 fun b => b = a := by
            rw [← hk]
            exact ((kept_alloc h _).weaken fun _ _ _ hfalse => hfalse).trans (kept_kaiInt _ start)
              fun _ _ _ hfalse => hfalse
          exact (halloc.trans hkept fun _ _ hb => hb).trans hkept' fun b hb _ heq =>
            Nat.lt_irrefl _ (heq ▸ hb)

theorem cursorWalk_cons (fuel : Nat) (h : Heap) (node : Ref)
    (hpassed : ¬Passed stop.1 step.1 start.1) {h' : Heap} {xs : List Ref}
    (hwalk : cursorWalk (fuel + 1) h ⟨node, start, stop, step, true⟩ = some (h', xs)) :
    ∃ x rest, xs = x :: rest ∧ cursorWalk fuel (kaiInt h start).1
      ⟨node, rangeNext start step, stop, step, true⟩ = some (h', rest) := by
  rw [cursorWalk, seqItNext, if_pos rfl, seqItGenerate_next h hpassed] at hwalk
  simp only [Option.map_eq_some_iff, Prod.mk.injEq] at hwalk
  obtain ⟨⟨h₁, rest⟩, hrest, rfl, rfl⟩ := hwalk
  exact ⟨_, rest, rfl, hrest⟩

theorem rangeNext_wrapped (hpassed : ¬Passed stop.1 step.1 start.1)
    (hout : ¬InRange (start.1 + step.1)) : ¬Passed stop.1 step.1 (rangeNext start step).1 := by
  have hstart := start.2
  have hstop := stop.2
  have hstep := step.2
  have hnext : (rangeNext start step).1 = wrap (start.1 + step.1) := rfl
  rw [hnext]
  unfold InRange at hstart hstop hstep hout
  unfold Passed at hpassed ⊢
  unfold wrap
  split at hpassed
  · rename_i hup
    rw [if_pos hup]
    omega
  · rename_i hdown
    rw [if_neg hdown]
    omega

theorem rangeNext_inside (hstep : step.1 ≠ 0)
    (hnext : ¬Passed stop.1 step.1 (start.1 + step.1)) :
    (rangeNext start step).1 = start.1 + step.1 := by
  have hstart := start.2
  have hstop := stop.2
  unfold InRange at hstart hstop
  rcases lt_or_gt_of_ne hstep with hneg | hup
  · rw [passed_down hneg] at hnext
    exact wrap_eq_self (by omega) (by omega)
  · rw [passed_up hup] at hnext
    exact wrap_eq_self (by omega) (by omega)

theorem cursorWalk_overrun (hstep : step.1 ≠ 0) (fuel : Nat) :
    ∀ {start : Word} (h : Heap) (node : Ref), ¬Passed stop.1 step.1 start.1 →
      ¬InRange (bound start.1 stop.1 step.1) → ∀ {h' : Heap} {xs : List Ref},
      cursorWalk fuel h ⟨node, start, stop, step, true⟩ = some (h', xs) →
        count start.1 stop.1 step.1 < xs.length := by
  induction fuel with
  | zero => exact fun h node _ _ h' xs hwalk => by cases hwalk
  | succ fuel ih =>
      intro start h node hpassed hbound h' xs hwalk
      obtain ⟨x, rest, rfl, hrest⟩ := cursorWalk_cons fuel h node hpassed hwalk
      have hcount := count_next hstep hpassed
      rw [bound_next hstep hpassed] at hbound
      rw [List.length_cons]
      by_cases hlast : Passed stop.1 step.1 (start.1 + step.1)
      · rw [count_eq_zero_iff.2 hlast] at hcount
        have hout : ¬InRange (start.1 + step.1) := by
          rw [bound, count_eq_zero_iff.2 hlast] at hbound
          simpa using hbound
        have hwrapped := rangeNext_wrapped hpassed hout
        cases fuel with
        | zero => cases hrest
        | succ fuel =>
            obtain ⟨y, rest', rfl, -⟩ := cursorWalk_cons fuel _ node hwrapped hrest
            rw [List.length_cons]
            omega
      · have hnext := rangeNext_inside hstep hlast
        rw [← hnext] at hlast hbound hcount
        have := ih _ node hlast hbound hrest
        omega

theorem length_ints {h : Heap} {xs : List Ref} : ∀ {ns : List Int}, ints h xs = some ns →
    xs.length = ns.length := by
  induction xs with
  | nil => exact fun hints => by cases hints; rfl
  | cons x xs ih =>
      intro ns hints
      rw [ints, List.mapM_cons] at hints
      obtain ⟨n, -, hrest⟩ := Option.bind_eq_some_iff.1 hints
      obtain ⟨ms, hms, heq⟩ := Option.bind_eq_some_iff.1 hrest
      cases heq
      rw [List.length_cons, List.length_cons, ih hms]

theorem exists_unsigned_eq (x : Int) : ∃ k : Int, unsigned x = x + k * 2 ^ 64 := by
  refine ⟨-(x / 2 ^ 64), ?_⟩
  unfold unsigned
  omega

theorem wrap_add_mul (x k : Int) : wrap (x + k * 2 ^ 64) = wrap x := by
  unfold wrap
  omega

theorem span_div {r : Range} (hempty : ¬r.IsEmpty) :
    (if r.step.1 > 0 then unsigned (r.stop.1 - r.start.1) else unsigned (r.start.1 - r.stop.1)) /
        (if r.step.1 > 0 then unsigned r.step.1 else unsigned (0 - unsigned r.step.1)) =
      (count r.start.1 r.stop.1 r.step.1 : Int) - 1 := by
  have hstart := r.start.2
  have hstop := r.stop.2
  have hstep := r.step.2
  unfold InRange at hstart hstop hstep
  have hne := r.step_ne
  rw [Range.IsEmpty] at hempty
  rw [count, if_neg hempty]
  rcases lt_or_gt_of_ne hne with hneg | hup
  · rw [passed_down hneg] at hempty
    rw [if_neg (by omega), if_neg (by omega)]
    have hspan : unsigned (r.start.1 - r.stop.1) = (r.stop.1 - r.start.1).natAbs := by
      unfold unsigned
      omega
    have hustep : unsigned (0 - unsigned r.step.1) = r.step.1.natAbs := by
      unfold unsigned
      omega
    rw [hspan, hustep]
    push_cast
    ring
  · rw [passed_up hup] at hempty
    rw [if_pos hup, if_pos hup]
    have hspan : unsigned (r.stop.1 - r.start.1) = (r.stop.1 - r.start.1).natAbs := by
      unfold unsigned
      omega
    have hustep : unsigned r.step.1 = r.step.1.natAbs := by
      unfold unsigned
      omega
    rw [hspan, hustep]
    push_cast
    ring

theorem rangeLen_eq {r : Range} (hfits : count r.start.1 r.stop.1 r.step.1 < 2 ^ 63)
    (hempty : ¬r.IsEmpty) :
    (rangeLen r.start r.stop r.step).1 = count r.start.1 r.stop.1 r.step.1 := by
  have hpos : count r.start.1 r.stop.1 r.step.1 ≠ 0 := fun hzero =>
    hempty (count_eq_zero_iff.1 hzero)
  have hword : (Word.ofInt ((count r.start.1 r.stop.1 r.step.1 : Int) - 1)).1 =
      (count r.start.1 r.stop.1 r.step.1 : Int) - 1 := wrap_eq_self (by omega) (by omega)
  have hlen : rangeLen r.start r.stop r.step =
      .ofInt ((Word.ofInt ((count r.start.1 r.stop.1 r.step.1 : Int) - 1)).1 + 1) := by
    rw [rangeLen, span_div hempty]
  rw [hlen, hword]
  exact (wrap_eq_self (by omega) (by omega)).trans (by ring)

theorem getLast?_terms (start step : Int) (n : Nat) :
    (terms start step (n + 1)).getLast? = some (start + n * step) := by
  rw [terms, List.range_succ, List.map_append, List.map_singleton, List.getLast?_concat]

theorem last_inRange (r : Range) {n : Nat} (hn : n < count r.start.1 r.stop.1 r.step.1) :
    InRange (r.start.1 + n * r.step.1) := by
  have hlast := (lt_count_iff r.step_ne n).1 hn
  have hstart := r.start.2
  have hstop := r.stop.2
  unfold InRange at hstart hstop ⊢
  rcases lt_or_gt_of_ne r.step_ne with hneg | hup
  · rw [passed_down hneg] at hlast
    have := Int.mul_nonpos_of_nonneg_of_nonpos (Int.natCast_nonneg n) hneg.le
    omega
  · rw [passed_up hup] at hlast
    have := Int.mul_nonneg (Int.natCast_nonneg n) hup.le
    omega

theorem measured_range (r : Range) (hfits : count r.start.1 r.stop.1 r.step.1 < 2 ^ 63)
    (hempty : ¬r.IsEmpty) : (rangeLen r.start r.stop r.step).1 = r.elements.length ∧
      some (rangeLast r.start r.stop r.step).1 = r.elements.getLast? := by
  have hlen := rangeLen_eq hfits hempty
  refine ⟨by rw [hlen, Range.elements, length_terms], ?_⟩
  obtain ⟨n, hn⟩ := Nat.exists_eq_succ_of_ne_zero fun hzero => hempty (count_eq_zero_iff.1 hzero)
  have hlast := last_inRange r (n := n) (by omega)
  have hsub : unsigned ((rangeLen r.start r.stop r.step).1 - 1) = n := by
    rw [hlen, hn]
    unfold unsigned
    omega
  have hvalue : (rangeLast r.start r.stop r.step).1 = r.start.1 + n * r.step.1 := by
    have hcongr : (rangeLast r.start r.stop r.step).1 = wrap (r.start.1 + n * r.step.1) := by
      obtain ⟨i, hi⟩ := exists_unsigned_eq r.start.1
      obtain ⟨j, hj⟩ := exists_unsigned_eq r.step.1
      have hsum : unsigned r.start.1 + unsigned r.step.1 * n =
          r.start.1 + n * r.step.1 + (i + j * n) * 2 ^ 64 := by
        rw [hi, hj]
        ring
      rw [rangeLast, hsub, hsum]
      exact wrap_add_mul _ _
    rw [hcongr]
    exact wrap_eq_self hlast.1 hlast.2
  rw [hvalue, Range.elements, hn, getLast?_terms]

theorem not_views {r : Range} (hempty : ¬r.IsEmpty)
    (hbound : ¬InRange (bound r.start.1 r.stop.1 r.step.1)) : ¬Views r := by
  intro hviews
  have hread : (Heap.mk [.nil, r.cell] rfl).read 1 = some r.cell := rfl
  obtain ⟨fuel, h', xs, hwalk, hints⟩ := hviews.walked _ 1 hread
  rw [cursorWalk_init hread] at hwalk
  have hlong := cursorWalk_overrun r.step_ne fuel _ _ hempty hbound hwalk
  rw [length_ints hints, Range.elements, length_terms] at hlong
  exact Nat.lt_irrefl _ hlong

/-- The views of a range agree exactly when it is empty or the step behind its last element
stays within a word. -/
theorem views_iff (r : Range) (hfits : count r.start.1 r.stop.1 r.step.1 < 2 ^ 63) :
    Views r ↔ r.IsEmpty ∨ InRange (bound r.start.1 r.stop.1 r.step.1) := by
  constructor
  · intro hviews
    by_contra hnot
    rw [not_or] at hnot
    obtain ⟨hempty, hbound⟩ := hnot
    exact not_views hempty hbound hviews
  · intro hcond
    have hbound : count r.start.1 r.stop.1 r.step.1 ≠ 0 →
        InRange (bound r.start.1 r.stop.1 r.step.1) := by
      intro hcount
      exact hcond.resolve_left fun hempty => hcount (count_eq_zero_iff.2 hempty)
    constructor
    · intro h a hread
      obtain ⟨fuel, h', xs, hunfold, hints, -⟩ :=
        unfoldCells_range r.step_ne _ h a hread rfl hbound
      exact ⟨fuel, h', xs, hunfold, hints⟩
    · intro h a hread
      obtain ⟨h', xs, hwalk, hints, -⟩ := cursorWalk_generate r.step_ne _ h (.ptr a) rfl hbound
      exact ⟨_, h', xs, (cursorWalk_init hread _).trans hwalk, hints⟩
    · intro h a hread
      exact vecFromList_range r.step_ne hread hbound
    · exact measured_range r hfits

def oneWord : Word := ⟨1, by unfold InRange; omega⟩

/-- `[1..3]`. -/
def oneToThree : Range where
  start := oneWord
  stop := ⟨3, by unfold InRange; omega⟩
  step := oneWord
  step_ne := by decide

theorem views_iff_oneToThree : Views oneToThree := by
  have hcount : count oneToThree.start.1 oneToThree.stop.1 oneToThree.step.1 = 3 := by decide
  have hbound : bound oneToThree.start.1 oneToThree.stop.1 oneToThree.step.1 = 4 := by
    rw [bound, hcount]
    rfl
  refine (views_iff oneToThree (by rw [hcount]; omega)).2 (.inr ?_)
  rw [hbound]
  unfold InRange
  omega

/-- `[m..m]` at the greatest integer. -/
def greatest : Range where
  start := ⟨2 ^ 63 - 1, by unfold InRange; omega⟩
  stop := ⟨2 ^ 63 - 1, by unfold InRange; omega⟩
  step := oneWord
  step_ne := by decide

theorem count_greatest : count greatest.start.1 greatest.stop.1 greatest.step.1 = 1 := by
  have hpassed : ¬Passed greatest.stop.1 greatest.step.1 greatest.start.1 := by
    rw [show greatest.step.1 = 1 from rfl, passed_up Int.one_pos]
    exact Int.lt_irrefl _
  rw [count, if_neg hpassed]
  simp [greatest]

/-- One element, and a walk that goes on from the least integer. -/
theorem views_iff_greatest : count greatest.start.1 greatest.stop.1 greatest.step.1 = 1 ∧
    ¬Views greatest := by
  refine ⟨count_greatest, fun hviews => ?_⟩
  have hpassed : ¬Passed greatest.stop.1 greatest.step.1 greatest.start.1 := fun hpassed =>
    absurd (count_greatest.symm.trans (count_eq_zero_iff.2 hpassed)) (by decide)
  have hbound : ¬InRange (bound greatest.start.1 greatest.stop.1 greatest.step.1) := by
    rw [bound, count_greatest, show greatest.start.1 = 2 ^ 63 - 1 from rfl,
      show greatest.step.1 = 1 from rfl]
    unfold InRange
    omega
  exact not_views hpassed hbound hviews

end Kaikai.Runtime
