import Kaikai.BigIntArith

namespace Kaikai.BigIntArith

open Kaikai.BigIntLimbs
open Kaikai.Str

/-- A call of the public interface with its arguments. -/
inductive Op where
  | fromInt (n : Int)
  | fromLiteral (digits : Str)
  | fromString (s : Str)
  | make (sign : Int) (mag : Mag)
  | zero
  | one
  | neg (a : BigInt)
  | abs (a : BigInt)
  | add (a b : BigInt)
  | sub (a b : BigInt)
  | mul (a b : BigInt)
  | divmod (a b : BigInt)

namespace Op

def operands : Op → List BigInt
  | .neg a | .abs a => [a]
  | .add a b | .sub a b | .mul a b | .divmod a b => [a, b]
  | _ => []

/-- The values in the answer; `none` is a trap. -/
def results : Op → Option (List BigInt)
  | .fromInt n => some [BigIntArith.fromInt n]
  | .fromLiteral digits => (BigIntArith.fromLiteral digits).map fun x => [x]
  | .fromString s => (BigIntArith.fromString s).map Option.toList
  | .make sign mag => (BigIntArith.make sign mag).map fun x => [x]
  | .zero => some [BigIntArith.zero]
  | .one => some [BigIntArith.one]
  | .neg a => some [BigIntArith.neg a]
  | .abs a => some [BigIntArith.abs a]
  | .add a b => (BigIntArith.add a b).map fun x => [x]
  | .sub a b => (BigIntArith.sub a b).map fun x => [x]
  | .mul a b => (BigIntArith.mul a b).map fun x => [x]
  | .divmod a b => (BigIntArith.divmod a b).map fun r => (r.map fun p => [p.1, p.2]).getD []

/-- Integers are machine words, and a magnitude consists of limbs. -/
def Typed : Op → Prop
  | .fromInt n => Word64.InRange n
  | .make _ mag => LimbsOk mag
  | _ => True

end Op

/-- The values that calls with `C` produce from one another. -/
inductive Reached (C : Op → Prop) : BigInt → Prop
  | step {op : Op} {xs : List BigInt} {x : BigInt} : C op →
      (∀ a ∈ op.operands, Reached C a) → op.results = some xs → x ∈ xs → Reached C x

theorem Yields.results_wf {m : Option BigInt} {v : Int} {xs : List BigInt} {x : BigInt}
    (h : Yields m v) (hxs : m.map (fun x => [x]) = some xs) (hx : x ∈ xs) : Wf x := by
  obtain ⟨y, hy, rfl⟩ := Option.map_eq_some_iff.1 hxs
  rw [List.mem_singleton.1 hx]
  exact h.wf hy

theorem Op.results_wf {op : Op} {xs : List BigInt} {x : BigInt} (htyped : op.Typed)
    (hargs : ∀ a ∈ op.operands, Wf a) (hxs : op.results = some xs) (hx : x ∈ xs) : Wf x := by
  cases op with
  | fromInt n =>
      cases hxs
      rw [List.mem_singleton.1 hx]
      exact (fromInt_spec htyped).1
  | fromLiteral digits =>
      obtain ⟨y, hy, rfl⟩ := Option.map_eq_some_iff.1 hxs
      rw [List.mem_singleton.1 hx]
      exact fromLiteral_wf hy
  | fromString s =>
      obtain ⟨y, hy, rfl⟩ := Option.map_eq_some_iff.1 hxs
      rw [Option.mem_toList] at hx
      exact fromString_wf (hx ▸ hy)
  | make sign mag => exact Yields.results_wf (make_spec htyped sign) hxs hx
  | zero =>
      cases hxs
      rw [List.mem_singleton.1 hx]
      exact ⟨by norm_num, by norm_num⟩
  | one =>
      cases hxs
      rw [List.mem_singleton.1 hx]
      exact ⟨by norm_num, by norm_num⟩
  | neg a =>
      cases hxs
      rw [List.mem_singleton.1 hx]
      exact (neg_spec (hargs a (by simp [operands]))).1
  | abs a =>
      cases hxs
      rw [List.mem_singleton.1 hx]
      exact (abs_spec (hargs a (by simp [operands]))).1
  | add a b =>
      exact (add_spec (hargs a (by simp [operands])) (hargs b (by simp [operands]))).results_wf hxs hx
  | sub a b =>
      exact (sub_spec (hargs a (by simp [operands])) (hargs b (by simp [operands]))).results_wf hxs hx
  | mul a b =>
      exact (mul_spec (hargs a (by simp [operands])) (hargs b (by simp [operands]))).results_wf hxs hx
  | divmod a b =>
      obtain ⟨r, hr, rfl⟩ := Option.map_eq_some_iff.1 hxs
      cases r with
      | none => cases hx
      | some p =>
          obtain ⟨hq, hr⟩ := divmod_wf (hargs a (by simp [operands])) (hargs b (by simp [operands])) hr
          rcases List.mem_cons.1 hx with rfl | hx
          · exact hq
          · rw [List.mem_singleton.1 hx]
            exact hr

theorem Reached.wf {C : Op → Prop} (hC : ∀ op, C op → op.Typed) {x : BigInt} (h : Reached C x) :
    Wf x := by
  induction h with
  | step hop _ hxs hx ih => exact Op.results_wf (hC _ hop) ih hxs hx

/-- Ring arithmetic and comparison never trap on values that the module produces,
and they are exact. -/
theorem ring_exact {a b : BigInt} (ha : Reached Op.Typed a) (hb : Reached Op.Typed b) :
    (∃ x, add a b = some x ∧ value x = value a + value b) ∧
      (∃ x, sub a b = some x ∧ value x = value a - value b) ∧
      (∃ x, mul a b = some x ∧ value x = value a * value b) ∧
      value (neg a) = -value a ∧
      compare a b =
        some (if value a < value b then -1 else if value a > value b then 1 else 0) := by
  have ha := ha.wf fun _ h => h
  have hb := hb.wf fun _ h => h
  obtain ⟨x, hadd, -, hx⟩ := add_spec ha hb
  obtain ⟨y, hsub, -, hy⟩ := sub_spec ha hb
  obtain ⟨z, hmul, -, hz⟩ := mul_spec ha hb
  exact ⟨⟨x, hadd, hx⟩, ⟨y, hsub, hy⟩, ⟨z, hmul, hz⟩, (neg_spec ha).2, compare_spec ha hb⟩

theorem ring_exact_minInt :
    (∃ x, mul (fromInt (-2 ^ 63)) (fromInt (-2 ^ 63)) = some x ∧ value x = 2 ^ 126) := by
  have hmin : Reached Op.Typed (fromInt (-2 ^ 63)) :=
    @Reached.step _ (.fromInt (-2 ^ 63)) _ _ (by unfold Op.Typed; decide) (by simp [Op.operands])
      rfl List.mem_cons_self
  have h := (ring_exact hmin hmin).2.2.1
  rwa [show value (fromInt (-2 ^ 63)) * value (fromInt (-2 ^ 63)) = 2 ^ 126 by decide] at h

/-- Division of any two values of the module, by one that is not zero, goes through and
is exact, with a remainder of the sign of the dividend. -/
theorem divmod_exact {a b : BigInt} (ha : Reached Op.Typed a) (hb : Reached Op.Typed b)
    (hb0 : value b ≠ 0) : ∃ q r, divmod a b = some (some (q, r)) ∧
      value a = value q * value b + value r ∧ |value r| < |value b| ∧
      (value r = 0 ∨ (value r).sign = (value a).sign) := by
  obtain ⟨q, r, hrun, -, -, hq, hr⟩ := divmod_spec (ha.wf fun _ h => h) (hb.wf fun _ h => h) hb0
  refine ⟨q, r, hrun, ?_, ?_, ?_⟩
  · rw [hq, hr, mul_comm]
    exact (Int.mul_tdiv_add_tmod _ _).symm
  · rw [hr, Int.abs_eq_natAbs, Int.abs_eq_natAbs, Int.natAbs_tmod, Int.ofNat_lt]
    exact Nat.mod_lt _ (Int.natAbs_pos.2 hb0)
  · rw [hr, Int.sign_tmod]
    split_ifs with hdvd
    · exact .inl (Int.tmod_eq_zero_of_dvd hdvd)
    · exact .inr rfl

/-- The least machine integer, built from limbs with a zero on top, by a negative one. -/
theorem divmod_exact_make : ∃ q r, divmod (.big 1 [0, 2 ^ 31, 0]) (fromInt (-7)) = some (some (q, r)) ∧
    value (.big 1 [0, 2 ^ 31, 0]) = value q * value (fromInt (-7)) + value r ∧
    |value r| < |value (fromInt (-7))| ∧
    (value r = 0 ∨ (value r).sign = (value (.big 1 [0, 2 ^ 31, 0])).sign) := by
  have ha : Reached Op.Typed (.big 1 [0, 2 ^ 31, 0]) :=
    @Reached.step _ (.make 1 [0, 2 ^ 31, 0]) _ _ (by unfold Op.Typed LimbsOk Positional.Digits; decide)
      (by simp [Op.operands]) rfl List.mem_cons_self
  have hb : Reached Op.Typed (fromInt (-7)) :=
    @Reached.step _ (.fromInt (-7)) _ _ (by unfold Op.Typed; decide) (by simp [Op.operands]) rfl
      List.mem_cons_self
  exact divmod_exact ha hb (by decide)

end Kaikai.BigIntArith
