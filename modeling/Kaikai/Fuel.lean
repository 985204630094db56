import Mathlib.Data.Nat.Basic

/-!
Computations cut off by fuel. Such a computation returns when, from some amount of fuel on, more
fuel does not change its result.
-/

namespace Kaikai.Fuel

variable {α β : Type}

/-- With enough fuel the computation ends with `v`. -/
def Yields (f : Nat → Option α) (v : α) : Prop := ∃ fuel, ∀ more ≥ fuel, f more = some v

/-- With enough fuel the computation ends. -/
def Returns (f : Nat → Option α) : Prop := ∃ v, Yields f v

theorem Yields.pure (v : α) : Yields (fun _ => some v) v := ⟨0, fun _ _ => rfl⟩

theorem Yields.succ {f g : Nat → Option α} {v : α} (hstep : ∀ n, f (n + 1) = g n)
    (h : Yields g v) : Yields f v := by
  obtain ⟨fuel, hfuel⟩ := h
  refine ⟨fuel + 1, fun more hmore => ?_⟩
  obtain ⟨n, rfl⟩ : ∃ n, more = n + 1 := ⟨more - 1, by omega⟩
  rw [hstep]
  exact hfuel n (Nat.le_of_succ_le_succ hmore)

theorem Yields.after {f : Nat → Option α} {g r : Nat → Option β} {v : α} {w : β}
    (hf : Yields f v) (hg : Yields g w) (hr : ∀ n, f n = some v → r n = g n) : Yields r w := by
  obtain ⟨a, ha⟩ := hf
  obtain ⟨b, hb⟩ := hg
  refine ⟨max a b, fun more hmore => ?_⟩
  rw [hr more (ha more (Nat.le_trans (Nat.le_max_left a b) hmore))]
  exact hb more (Nat.le_trans (Nat.le_max_right a b) hmore)

theorem Yields.map {f : Nat → Option α} {v : α} (g : α → β) (h : Yields f v) :
    Yields (fun n => (f n).map g) (g v) :=
  h.after (Yields.pure (g v)) fun n hn => by rw [hn, Option.map_some]

end Kaikai.Fuel
