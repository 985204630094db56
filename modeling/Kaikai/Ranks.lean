import Mathlib.Data.List.Basic
import Mathlib.Data.Set.Function

namespace Kaikai.Ranks

variable {α β : Type} [DecidableEq α] [DecidableEq β]

/-- Add an element unless it is there. -/
def grow (seen : List α) (x : α) : List α := if x ∈ seen then seen else seen ++ [x]

/-- Add the elements of a list, in order. -/
def growAll (seen xs : List α) : List α := xs.foldl grow seen

theorem growAll_append (seen xs ys : List α) :
    growAll seen (xs ++ ys) = growAll (growAll seen xs) ys :=
  List.foldl_append

theorem mem_grow {seen : List α} {x y : α} : y ∈ grow seen x ↔ y ∈ seen ∨ y = x := by
  unfold grow
  split
  · next h =>
      refine ⟨.inl, ?_⟩
      rintro (hy | rfl)
      · exact hy
      · exact h
  · simp

theorem prefix_grow (seen : List α) (x : α) : seen <+: grow seen x := by
  unfold grow
  split
  · exact List.prefix_rfl
  · exact List.prefix_append seen [x]

theorem prefix_growAll (seen xs : List α) : seen <+: growAll seen xs := by
  induction xs generalizing seen with
  | nil => exact List.prefix_rfl
  | cons x xs ih => exact (prefix_grow seen x).trans (ih _)

theorem mem_growAll {seen xs : List α} {y : α} : y ∈ growAll seen xs ↔ y ∈ seen ∨ y ∈ xs := by
  induction xs generalizing seen with
  | nil => simp [growAll]
  | cons x xs ih =>
      rw [growAll, List.foldl_cons, ← growAll, ih, mem_grow, List.mem_cons, or_assoc]

theorem idxOf_of_prefix {seen full : List α} (h : seen <+: full) {x : α} (hx : x ∈ seen) :
    full.idxOf x = seen.idxOf x := by
  obtain ⟨rest, rfl⟩ := h
  exact List.idxOf_append_of_mem hx

theorem growAll_map {f : α → β} {seen xs : List α}
    (h : Set.InjOn f {x | x ∈ seen ∨ x ∈ xs}) :
    growAll (seen.map f) (xs.map f) = (growAll seen xs).map f := by
  induction xs generalizing seen with
  | nil => rfl
  | cons x xs ih =>
      have hgrow : grow (seen.map f) (f x) = (grow seen x).map f := by
        have hmem : f x ∈ seen.map f ↔ x ∈ seen := by
          refine ⟨?_, List.mem_map_of_mem⟩
          intro hfx
          obtain ⟨y, hy, heq⟩ := List.mem_map.1 hfx
          rw [← h (.inl hy) (.inr List.mem_cons_self) heq]
          exact hy
        unfold grow
        rw [if_congr hmem rfl rfl]
        split
        · rfl
        · rw [List.map_append, List.map_singleton]
      rw [List.map_cons, growAll, List.foldl_cons, hgrow]
      have hsub : ∀ y, y ∈ grow seen x ∨ y ∈ xs → y ∈ seen ∨ y ∈ x :: xs := by
        rintro y (hy | hy)
        · rcases mem_grow.1 hy with hy | rfl
          · exact .inl hy
          · exact .inr List.mem_cons_self
        · exact .inr (List.mem_cons_of_mem _ hy)
      refine ih ?_
      intro y hy z hz heq
      refine h ?_ ?_ heq
      · exact hsub y hy
      · exact hsub z hz

theorem idxOf_map {f : α → β} {xs : List α} (h : Set.InjOn f {x | x ∈ xs}) {x : α} (hx : x ∈ xs) :
    (xs.map f).idxOf (f x) = xs.idxOf x := by
  induction xs with
  | nil => cases hx
  | cons y xs ih =>
      by_cases hyx : y = x
      · rw [List.map_cons, hyx, List.idxOf_cons_self, List.idxOf_cons_self]
      · have hmem : x ∈ xs := (List.mem_cons.1 hx).resolve_left fun heq => hyx heq.symm
        have hne : f y ≠ f x := fun heq => hyx (h List.mem_cons_self hx heq)
        rw [List.map_cons, List.idxOf_cons_ne _ hne, List.idxOf_cons_ne _ hyx,
          ih (h.mono fun z hz => List.mem_cons_of_mem _ hz) hmem]

end Kaikai.Ranks
