import Kaikai.LazyRangeViews
import Kaikai.RuntimeEq

namespace Kaikai.Runtime

open Kaikai.Word64 (Word InRange)
open Kaikai.Progression

/-- The values of programs, without the doubles. -/
inductive Val where
  | unit
  | bool (b : Bool)
  | int (n : Int)
  | char (c : Nat)
  | str (bytes : List UInt8)
  | byte (b : UInt8)
  | fixed (n : Int)
  | list (vs : List Val)
  | vec (vs : List Val)
  | record (vs : List Val)
  | variant (tag : Nat) (vs : List Val)

/-- Types; records and sums by name. -/
inductive Ty where
  | unit | bool | int | char | str | byte
  | fixed (k : Fixed)
  | list (t : Ty)
  | vec (t : Ty)
  | record (name : Nat)
  | sum (name : Nat)
deriving DecidableEq

structure Ctor where
  tag : Nat
  args : List Ty

/-- The declarations of a program. The constructors of a sum, or of a union of sums, have
distinct tags. -/
structure Decls where
  head : Nat → Nat
  fieldNames : Nat → List (List UInt8)
  fieldTypes : Nat → List Ty
  ctors : Nat → List Ctor
  tag_inj : ∀ name c d, c ∈ ctors name → d ∈ ctors name → c.tag = d.tag → c = d

/-- The tag that a vec stores elements of a type under, if without a box. -/
def Ty.scalar : Ty → Option Scalar
  | .int => some .int
  | .bool => some .bool
  | .char => some .char
  | .byte => some .byte
  | _ => none

/-- The columns of the records that a vec stores inline. -/
def Decls.columns (D : Decls) : Ty → Option (List Scalar)
  | .record name =>
      if 0 < (D.fieldTypes name).length ∧ (D.fieldTypes name).length ≤ recMax then
        (D.fieldTypes name).mapM Ty.scalar
      else none
  | _ => none

/-- The value of a payload word. -/
inductive WordVal : Scalar → Word → Val → Prop
  | int (n : Word) : WordVal .int n (.int n.1)
  | bool {n : Word} {b : Bool} : n.1 = b.toNat → WordVal .bool n (.bool b)
  | char {n : Word} {c : Nat} : n.1 = c → WordVal .char n (.char c)
  | byte {n : Word} {b : UInt8} : n.1 = b.toNat → WordVal .byte n (.byte b)

/-- The values of a row of payload words. -/
inductive RowVal : List Scalar → List Word → List Val → Prop
  | nil : RowVal [] [] []
  | cons {s : Scalar} {w : Word} {v : Val} {ss : List Scalar} {ws : List Word} {vs : List Val} :
      WordVal s w v → RowVal ss ws vs → RowVal (s :: ss) (w :: ws) (v :: vs)

/-- What is said of a heap: the value of a reference, the elements of a list, and the values
of the references of a record or a vec and of the slots of a variant, from slot `i` on. -/
inductive Reading where
  | value (t : Ty) (r : Ref) (v : Val)
  | elems (t : Ty) (r : Ref) (vs : List Val)
  | refs (ts : List Ty) (rs : List Ref) (vs : List Val)
  | slots (tag i : Nat) (ts : List Ty) (ss : List VarSlot) (vs : List Val)

/-- The data of a vec behind an address. -/
def vecAt (h : Heap) (a : Nat) : Option VecData := (h.read a).bind (vecData h)

/-- A heap read at types; `ok` is asked of every range node. -/
inductive Reads (D : Decls) (mask : Nat → Nat) (ok : Word → Word → Word → Prop) (h : Heap) :
    Reading → Prop
  | unit {a : Nat} : h.read a = some .unit → Reads D mask ok h (.value .unit (.ptr a) .unit)
  | bool {a : Nat} {b : Bool} :
      h.read a = some (.bool b) → Reads D mask ok h (.value .bool (.ptr a) (.bool b))
  | int {r : Ref} {n : Word} : intf h r = some n → Reads D mask ok h (.value .int r (.int n.1))
  | char {a c : Nat} :
      h.read a = some (.char c) → Reads D mask ok h (.value .char (.ptr a) (.char c))
  | str {a : Nat} {bytes : List UInt8} :
      h.read a = some (.str bytes) → Reads D mask ok h (.value .str (.ptr a) (.str bytes))
  | byte {a : Nat} {b : UInt8} :
      h.read a = some (.byte b) → Reads D mask ok h (.value .byte (.ptr a) (.byte b))
  | fixed {a : Nat} {k : Fixed} {n : Int} :
      h.read a = some (.fixed k n) → Reads D mask ok h (.value (.fixed k) (.ptr a) (.fixed n))
  | list {t : Ty} {r : Ref} {vs : List Val} :
      Reads D mask ok h (.elems t r vs) → Reads D mask ok h (.value (.list t) r (.list vs))
  | record {name a : Nat} {fields : List (List UInt8 × Ref)} {vs : List Val} :
      h.read a = some (.record (D.head name) fields) →
      fields.map Prod.fst = D.fieldNames name →
      Reads D mask ok h (.refs (D.fieldTypes name) (fields.map Prod.snd) vs) →
      Reads D mask ok h (.value (.record name) (.ptr a) (.record vs))
  | variant {name a : Nat} {c : Ctor} {ss : List VarSlot} {vs : List Val} :
      c ∈ D.ctors name → h.read a = some (.variant c.tag ss) →
      Reads D mask ok h (.slots c.tag 0 c.args ss vs) →
      Reads D mask ok h (.value (.sum name) (.ptr a) (.variant c.tag vs))
  | vecEmpty {t : Ty} {a : Nat} {data : VecData} :
      vecAt h a = some data → data.length = 0 → Reads D mask ok h (.value (.vec t) (.ptr a) (.vec []))
  | vecBoxed {t : Ty} {a : Nat} {xs : List Ref} {vs : List Val} :
      vecAt h a = some (.boxed xs) → t.scalar = none → D.columns t = none →
      Reads D mask ok h (.refs (List.replicate xs.length t) xs vs) →
      Reads D mask ok h (.value (.vec t) (.ptr a) (.vec vs))
  | vecRaw {t : Ty} {a : Nat} {s : Scalar} {ws : List Word} {vs : List Val} :
      vecAt h a = some (.raw s ws) → t.scalar = some s →
      RowVal (List.replicate ws.length s) ws vs →
      Reads D mask ok h (.value (.vec t) (.ptr a) (.vec vs))
  | vecInlined {t : Ty} {a : Nat} {shape : RecMeta} {rows : List (List Word)}
      {vss : List (List Val)} :
      vecAt h a = some (.inlined shape rows) → t.scalar = none →
      D.columns t = some shape.fieldTags → List.Forall₂ (RowVal shape.fieldTags) rows vss →
      Reads D mask ok h (.value (.vec t) (.ptr a) (.vec (vss.map Val.record)))
  | nil {t : Ty} {a : Nat} : h.read a = some .nil → Reads D mask ok h (.elems t (.ptr a) [])
  | cons {t : Ty} {a : Nat} {head tail : Ref} {v : Val} {vs : List Val} :
      h.read a = some (.cons head tail) → Reads D mask ok h (.value t head v) →
      Reads D mask ok h (.elems t tail vs) → Reads D mask ok h (.elems t (.ptr a) (v :: vs))
  | range {a : Nat} {start stop step : Word} :
      h.read a = some (.range start stop step) → step.1 ≠ 0 → ok start stop step →
      Reads D mask ok h
        (.elems .int (.ptr a) ((terms start.1 step.1 (count start.1 stop.1 step.1)).map .int))
  | refsNil : Reads D mask ok h (.refs [] [] [])
  | refsCons {t : Ty} {r : Ref} {v : Val} {ts : List Ty} {rs : List Ref} {vs : List Val} :
      Reads D mask ok h (.value t r v) → Reads D mask ok h (.refs ts rs vs) →
      Reads D mask ok h (.refs (t :: ts) (r :: rs) (v :: vs))
  | slotsNil {tag i : Nat} : Reads D mask ok h (.slots tag i [] [] [])
  | slotPtr {tag i : Nat} {t : Ty} {r : Ref} {v : Val} {ts : List Ty} {ss : List VarSlot}
      {vs : List Val} :
      varSlotKind (mask tag) i = .ptr → Reads D mask ok h (.value t r v) →
      Reads D mask ok h (.slots tag (i + 1) ts ss vs) →
      Reads D mask ok h (.slots tag i (t :: ts) (.ptr r :: ss) (v :: vs))
  | slotInt {tag i : Nat} {n : Word} {ts : List Ty} {ss : List VarSlot} {vs : List Val} :
      varSlotKind (mask tag) i = .int → Reads D mask ok h (.slots tag (i + 1) ts ss vs) →
      Reads D mask ok h (.slots tag i (.int :: ts) (.i64 n :: ss) (.int n.1 :: vs))
  | slotEnum {tag i name : Nat} {c : Ctor} {n : Word} {ts : List Ty} {ss : List VarSlot}
      {vs : List Val} :
      varSlotKind (mask tag) i = .enum → c ∈ D.ctors name → c.args = [] → n.1 = c.tag →
      Reads D mask ok h (.slots tag (i + 1) ts ss vs) →
      Reads D mask ok h (.slots tag i (.sum name :: ts) (.i64 n :: ss) (.variant c.tag [] :: vs))

/-- A range whose walks end: the step behind its last element fits a word. -/
def EndsInRange (start stop step : Word) : Prop :=
  count start.1 stop.1 step.1 ≠ 0 → InRange (bound start.1 stop.1 step.1)

/-- One heap reads as another does: every value has kept its meaning. -/
def ReadsAs (D : Decls) (mask : Nat → Nat) (h h' : Heap) : Prop :=
  ∀ j, Reads D mask EndsInRange h j → Reads D mask EndsInRange h' j

theorem readsAs_self (D : Decls) (mask : Nat → Nat) (h : Heap) : ReadsAs D mask h h :=
  fun _ hj => hj

theorem ReadsAs.trans {D : Decls} {mask : Nat → Nat} {h h' h'' : Heap}
    (hfirst : ReadsAs D mask h h') (hsecond : ReadsAs D mask h' h'') : ReadsAs D mask h h'' :=
  fun j hj => hsecond j (hfirst j hj)

/-- The cell that a range becomes: the empty list, or its first element in front of the
rest. -/
inductive Normal (h : Heap) (start stop step : Word) : Cell → Prop
  | nil : Passed stop.1 step.1 start.1 → Normal h start stop step .nil
  | last {head : Ref} {a : Nat} : ¬Passed stop.1 step.1 start.1 → intf h head = some start →
      Passed stop.1 step.1 (rangeNext start step).1 → h.read a = some .nil →
      Normal h start stop step (.cons head (.ptr a))
  | more {head : Ref} {a : Nat} : ¬Passed stop.1 step.1 start.1 → intf h head = some start →
      h.read a = some (.range (rangeNext start step) stop step) →
      Normal h start stop step (.cons head (.ptr a))

/-- A heap that has grown, where ranges may have been normalised. -/
def Rewrites (h h' : Heap) : Prop :=
  ∀ a c, h.read a = some c → h'.read a = some c ∨
    ∃ start stop step, c = .range start stop step ∧ ∃ d, h'.read a = some d ∧
      Normal h' start stop step d

theorem Rewrites.read {h h' : Heap} (hrw : Rewrites h h') {a : Nat} {c : Cell}
    (hread : h.read a = some c) (hc : c.isRange = false) : h'.read a = some c := by
  rcases hrw a c hread with hkept | ⟨start, stop, step, rfl, -⟩
  · exact hkept
  · cases hc

theorem Rewrites.intf {h h' : Heap} (hrw : Rewrites h h') {r : Ref} {n : Word}
    (hint : intf h r = some n) : intf h' r = some n := by
  cases r with
  | null => cases hint
  | imm m => exact hint
  | ptr a =>
      rw [Runtime.intf] at hint ⊢
      cases hread : h.read a with
      | none =>
          rw [hread] at hint
          cases hint
      | some c =>
          rw [hread] at hint
          cases c with
          | int m =>
              rw [hrw.read hread rfl]
              exact hint
          | _ => cases hint

theorem Rewrites.vecAt {h h' : Heap} (hrw : Rewrites h h') {a : Nat} {data : VecData}
    (hvec : vecAt h a = some data) : vecAt h' a = some data := by
  rw [Runtime.vecAt, Option.bind_eq_some_iff] at hvec ⊢
  obtain ⟨c, hread, hdata⟩ := hvec
  cases c with
  | vec v => exact ⟨_, hrw.read hread rfl, hdata⟩
  | view owner start len =>
      refine ⟨_, hrw.read hread rfl, ?_⟩
      rw [vecData] at hdata ⊢
      cases howner : h.read owner with
      | none =>
          rw [howner] at hdata
          cases hdata
      | some d =>
          rw [howner] at hdata
          cases d with
          | vec v =>
              rw [hrw.read howner rfl]
              exact hdata
          | _ => cases hdata
  | _ => cases hdata

theorem EndsInRange.next {start stop step : Word} (h : EndsInRange start stop step)
    (hstep : step.1 ≠ 0) (hpassed : ¬Passed stop.1 step.1 start.1) :
    (rangeNext start step).1 = start.1 + step.1 ∧ EndsInRange (rangeNext start step) stop step := by
  have hbound : InRange (bound start.1 stop.1 step.1) :=
    h fun hzero => hpassed (count_eq_zero_iff.1 hzero)
  have hnext := rangeNext_eq hstep hpassed hbound
  refine ⟨hnext, fun _ => ?_⟩
  rw [hnext, ← bound_next hstep hpassed]
  exact hbound

theorem elements_cons {start stop step : Word} (h : EndsInRange start stop step)
    (hstep : step.1 ≠ 0) (hpassed : ¬Passed stop.1 step.1 start.1) :
    terms start.1 step.1 (count start.1 stop.1 step.1) =
      start.1 :: terms (rangeNext start step).1 step.1
        (count (rangeNext start step).1 stop.1 step.1) := by
  rw [count_next hstep hpassed, terms_succ, (h.next hstep hpassed).1]

theorem elements_nil {start stop step : Word} (hpassed : Passed stop.1 step.1 start.1) :
    terms start.1 step.1 (count start.1 stop.1 step.1) = [] := by
  rw [count_eq_zero_iff.2 hpassed]
  rfl

theorem Normal.reads {D : Decls} {mask : Nat → Nat} {h : Heap} {a : Nat} {start stop step : Word}
    {d : Cell} (hnormal : Normal h start stop step d) (hread : h.read a = some d)
    (hstep : step.1 ≠ 0) (hok : EndsInRange start stop step) :
    Reads D mask EndsInRange h
      (.elems .int (.ptr a) ((terms start.1 step.1 (count start.1 stop.1 step.1)).map .int)) := by
  cases hnormal with
  | nil hpassed =>
      rw [elements_nil hpassed]
      exact .nil hread
  | last hpassed hhead hended htail =>
      rw [elements_cons hok hstep hpassed, elements_nil hended]
      exact .cons hread (.int hhead) (.nil htail)
  | more hpassed hhead htail =>
      rw [elements_cons hok hstep hpassed]
      exact .cons hread (.int hhead) (.range htail hstep (hok.next hstep hpassed).2)

theorem Rewrites.readsAs {h h' : Heap} (hrw : Rewrites h h') (D : Decls) (mask : Nat → Nat) :
    ReadsAs D mask h h' := by
  intro j hj
  induction hj with
  | unit hread => exact .unit (hrw.read hread rfl)
  | bool hread => exact .bool (hrw.read hread rfl)
  | int hint => exact .int (hrw.intf hint)
  | char hread => exact .char (hrw.read hread rfl)
  | str hread => exact .str (hrw.read hread rfl)
  | byte hread => exact .byte (hrw.read hread rfl)
  | fixed hread => exact .fixed (hrw.read hread rfl)
  | list _ ih => exact .list ih
  | record hread hnames _ ih => exact .record (hrw.read hread rfl) hnames ih
  | variant hc hread _ ih => exact .variant hc (hrw.read hread rfl) ih
  | vecEmpty hvec hlen => exact .vecEmpty (hrw.vecAt hvec) hlen
  | vecBoxed hvec hscalar hcols _ ih => exact .vecBoxed (hrw.vecAt hvec) hscalar hcols ih
  | vecRaw hvec hscalar hrow => exact .vecRaw (hrw.vecAt hvec) hscalar hrow
  | vecInlined hvec hscalar hcols hrows => exact .vecInlined (hrw.vecAt hvec) hscalar hcols hrows
  | nil hread => exact .nil (hrw.read hread rfl)
  | cons hread _ _ ihhead ihtail => exact .cons (hrw.read hread rfl) ihhead ihtail
  | range hread hstep hok =>
      rcases hrw _ _ hread with hkept | ⟨start, stop, step, hcell, d, hd, hnormal⟩
      · exact .range hkept hstep hok
      · cases hcell
        exact hnormal.reads hd hstep hok
  | refsNil => exact .refsNil
  | refsCons _ _ ihhead ihtail => exact .refsCons ihhead ihtail
  | slotsNil => exact .slotsNil
  | slotPtr hkind _ _ ihhead ihtail => exact .slotPtr hkind ihhead ihtail
  | slotInt hkind _ ih => exact .slotInt hkind ih
  | slotEnum hkind hc hargs htag _ ih => exact .slotEnum hkind hc hargs htag ih

theorem rewrites_of_reads {h h' : Heap} (hreads : ∀ a, a < h.next → h'.read a = h.read a) :
    Rewrites h h' := fun a _ hread => .inl ((hreads a (Heap.read_lt hread)).trans hread)

theorem rewrites_kaiInt (h : Heap) (n : Word) : Rewrites h (kaiInt h n).1 :=
  rewrites_of_reads fun _ ha => read_kaiInt n ha

theorem rewrites_write {h k : Heap} {a : Nat} {start stop step : Word} {d : Cell}
    (hread : h.read a = some (.range start stop step)) (hgrown : h.next ≤ k.next)
    (hsame : ∀ b, b < h.next → k.read b = h.read b)
    (hnormal : Normal (k.write a d) start stop step d) : Rewrites h (k.write a d) := by
  have hlt := Heap.read_lt hread
  have hzero : a ≠ 0 := by
    rintro rfl
    rw [Heap.read, h.nil_first] at hread
    cases hread
  intro b c hb
  by_cases hba : b = a
  · subst hba
    rw [hread] at hb
    cases hb
    exact .inr ⟨start, stop, step, rfl, d, Heap.read_write hzero (hlt.trans_le hgrown), hnormal⟩
  · refine .inl ?_
    rw [Heap.read_write_of_ne hba, hsame b (Heap.read_lt hb), hb]

theorem intf_kaiInt_write {k : Heap} {a : Nat} {n : Word} {d : Cell} (ha : a < k.next) :
    intf ((kaiInt k n).1.write a d) (kaiInt k n).2 = some n := by
  rw [← intf_kaiInt k n]
  refine intf_congr fun b hb => Heap.read_write_of_ne ?_
  rw [kaiInt_fresh hb]
  exact Nat.ne_of_gt ha

theorem rewrites_seqNorm (h : Heap) (r : Ref) : Rewrites h (seqNorm h r) := by
  have hself : Rewrites h h := rewrites_of_reads fun _ _ => rfl
  cases r with
  | null => exact hself
  | imm n => exact hself
  | ptr a =>
      rw [seqNorm]
      cases hread : h.read a with
      | none => exact hself
      | some c =>
          cases c with
          | range start stop step =>
              have hlt := Heap.read_lt hread
              dsimp only
              split
              · next hempty =>
                  exact rewrites_write hread le_rfl (fun _ _ => rfl)
                    (.nil ((rangeIsEmpty_iff _ _ _).1 hempty))
              · next hempty =>
                  have hpassed : ¬Passed stop.1 step.1 start.1 := fun hp =>
                    hempty ((rangeIsEmpty_iff _ _ _).2 hp)
                  by_cases hended : Passed stop.1 step.1 (rangeNext start step).1
                  · rw [if_pos ((ended_iff _ _ _).2 hended)]
                    refine rewrites_write hread (next_le_kaiInt h start)
                      (fun b hb => read_kaiInt start hb) ?_
                    refine .last hpassed (intf_kaiInt_write hlt) hended ?_
                    have hzero : 0 ≠ a := by
                      rintro rfl
                      rw [Heap.read, h.nil_first] at hread
                      cases hread
                    rw [Heap.read_write_of_ne hzero, read_kaiInt start h.next_pos]
                    exact h.nil_first
                  · rw [if_neg fun hp => hended ((ended_iff _ _ _).1 hp)]
                    have hnext : h.next < (h.alloc (.range (rangeNext start step) stop step)).next := by
                      simp
                    refine rewrites_write hread ?_ ?_ ?_
                    · exact (Nat.le_of_lt hnext).trans (next_le_kaiInt _ start)
                    · intro b hb
                      rw [read_kaiInt start (hb.trans hnext), Heap.read_alloc_of_lt hb]
                    · refine .more hpassed (intf_kaiInt_write (hlt.trans hnext)) ?_
                      rw [Heap.read_write_of_ne (Nat.ne_of_gt hlt), read_kaiInt start hnext]
                      exact Heap.read_alloc
          | _ => exact hself

end Kaikai.Runtime
