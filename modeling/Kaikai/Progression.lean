import Mathlib.Data.List.Range
import Mathlib.Tactic.Linarith
import Mathlib.Tactic.Ring

namespace Kaikai.Progression

/-- Whether `x` is past `stop` for a walk by `step`. -/
def Passed (stop step x : Int) : Prop := if step > 0 then x > stop else x < stop

instance (stop step x : Int) : Decidable (Passed stop step x) := by
  unfold Passed
  infer_instance

/-- How many of `start`, `start + step`, .. are not past `stop`. -/
def count (start stop step : Int) : Nat :=
  if Passed stop step start then 0 else (stop - start).natAbs / step.natAbs + 1

/-- The first `n` terms. -/
def terms (start step : Int) (n : Nat) : List Int := (List.range n).map fun i : Nat => start + i * step

theorem terms_succ (start step : Int) (n : Nat) :
    terms start step (n + 1) = start :: terms (start + step) step n := by
  rw [terms, List.range_succ_eq_map, List.map_cons, List.map_map]
  congr 1
  · simp
  · apply List.map_congr_left
    intro i _
    simp only [Function.comp_apply, Nat.cast_succ]
    ring

theorem length_terms (start step : Int) (n : Nat) : (terms start step n).length = n := by
  simp [terms]

variable {start stop step : Int}

theorem passed_up (h : 0 < step) (x : Int) : Passed stop step x ↔ stop < x := by
  rw [Passed, if_pos h]

theorem passed_down (h : step < 0) (x : Int) : Passed stop step x ↔ x < stop := by
  rw [Passed, if_neg (by omega)]

theorem count_eq_zero_iff : count start stop step = 0 ↔ Passed stop step start := by
  unfold count
  split <;> simp_all

theorem count_next (hstep : step ≠ 0) (h : ¬Passed stop step start) :
    count start stop step = count (start + step) stop step + 1 := by
  have hpos : 0 < step.natAbs := Int.natAbs_pos.2 hstep
  have hspan : (¬Passed stop step (start + step) → (stop - start).natAbs =
      (stop - (start + step)).natAbs + step.natAbs) ∧
      (Passed stop step (start + step) → (stop - start).natAbs < step.natAbs) := by
    rcases lt_or_gt_of_ne hstep with hneg | hup
    · rw [passed_down hneg] at h ⊢
      omega
    · rw [passed_up hup] at h ⊢
      omega
  rw [count, if_neg h]
  by_cases hnext : Passed stop step (start + step)
  · rw [count, if_pos hnext, Nat.div_eq_of_lt (hspan.2 hnext)]
  · rw [count, if_neg hnext, hspan.1 hnext, Nat.add_div_right _ hpos]

theorem lt_count_iff (hstep : step ≠ 0) (i : Nat) :
    i < count start stop step ↔ ¬Passed stop step (start + i * step) := by
  induction i generalizing start with
  | zero =>
      rw [Nat.pos_iff_ne_zero, ne_eq, count_eq_zero_iff]
      simp
  | succ i ih =>
      by_cases h : Passed stop step start
      · rw [count, if_pos h]
        refine iff_of_false (by omega) (not_not.2 ?_)
        have hi : (0 : Int) ≤ (i + 1 : Nat) := Int.natCast_nonneg _
        rcases lt_or_gt_of_ne hstep with hneg | hup
        · rw [passed_down hneg] at h ⊢
          have := Int.mul_nonpos_of_nonneg_of_nonpos hi hneg.le
          omega
        · rw [passed_up hup] at h ⊢
          have := Int.mul_nonneg hi hup.le
          omega
      · rw [count_next hstep h, Nat.add_lt_add_iff_right, ih]
        have hterm : start + step + i * step = start + (i + 1 : Nat) * step := by
          push_cast
          ring
        rw [hterm]

/-- The first term past the bound. -/
def bound (start stop step : Int) : Int := start + count start stop step * step

theorem bound_next (hstep : step ≠ 0) (h : ¬Passed stop step start) :
    bound start stop step = bound (start + step) stop step := by
  rw [bound, bound, count_next hstep h]
  push_cast
  ring

theorem next_between (hstep : step ≠ 0) (h : ¬Passed stop step start) :
    start ≤ start + step ∧ start + step ≤ bound start stop step ∨
      bound start stop step ≤ start + step ∧ start + step ≤ start := by
  have hcount : 0 ≤ (count (start + step) stop step : Int) := Int.natCast_nonneg _
  rw [bound_next hstep h, bound]
  rcases lt_or_gt_of_ne hstep with hneg | hpos
  · right
    constructor
    · have := Int.mul_nonpos_of_nonneg_of_nonpos hcount hneg.le
      omega
    · omega
  · left
    constructor
    · omega
    · have := Int.mul_nonneg hcount hpos.le
      omega

end Kaikai.Progression
