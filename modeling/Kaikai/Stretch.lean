import Mathlib.Data.List.TakeDrop

/-!
Stretches of a list between two positions, for scanners that carry a cursor: what lies
between the cursor before and the cursor after.
-/

namespace Kaikai.Stretch

variable {α : Type} {s t u : List α} {b : α} {i j k : Nat}

/-- The elements of `s` from position `i` up to position `j` are `t`. -/
structure Spans (s : List α) (i : Nat) (t : List α) (j : Nat) : Prop where
  stop : i + t.length = j
  inside : j ≤ s.length
  text : s.drop i = t ++ s.drop j

theorem Spans.start_le (h : Spans s i t j) : i ≤ s.length := by
  have hstop := h.stop
  have hinside := h.inside
  omega

theorem spans_nil_iff : Spans s i [] j ↔ i = j ∧ i ≤ s.length := by
  constructor
  · intro h
    exact ⟨h.stop, h.start_le⟩
  · rintro ⟨rfl, hi⟩
    exact ⟨rfl, hi, rfl⟩

theorem spans_cons_iff : Spans s i (b :: t) j ↔ s[i]? = some b ∧ Spans s (i + 1) t j := by
  constructor
  · intro h
    have htext := h.text
    have hstop := h.stop
    have hhead : s[i]? = some b := by
      rw [← List.head?_drop, htext, List.cons_append, List.head?_cons]
    refine ⟨hhead, ⟨?_, h.inside, ?_⟩⟩
    · rw [List.length_cons] at hstop
      omega
    · rw [← List.tail_drop, htext, List.cons_append, List.tail_cons]
  · rintro ⟨hhead, h⟩
    obtain ⟨hi, rfl⟩ := List.getElem?_eq_some_iff.1 hhead
    refine ⟨?_, h.inside, ?_⟩
    · have hstop := h.stop
      rw [List.length_cons]
      omega
    · rw [List.drop_eq_getElem_cons hi, h.text, List.cons_append]

theorem spans_append_iff : Spans s i (t ++ u) k ↔ ∃ j, Spans s i t j ∧ Spans s j u k := by
  induction t generalizing i with
  | nil =>
      simp only [List.nil_append, spans_nil_iff]
      constructor
      · intro h
        exact ⟨i, ⟨rfl, h.start_le⟩, h⟩
      · rintro ⟨j, ⟨rfl, -⟩, h⟩
        exact h
  | cons b t ih =>
      simp only [List.cons_append, spans_cons_iff, ih, and_assoc, exists_and_left]

theorem Spans.append (ht : Spans s i t j) (hu : Spans s j u k) : Spans s i (t ++ u) k :=
  spans_append_iff.2 ⟨j, ht, hu⟩

theorem Spans.nil (h : i ≤ s.length) : Spans s i [] i := spans_nil_iff.2 ⟨rfl, h⟩

theorem Spans.cons (hb : s[i]? = some b) (h : Spans s (i + 1) t j) : Spans s i (b :: t) j :=
  spans_cons_iff.2 ⟨hb, h⟩

theorem Spans.single (hb : s[i]? = some b) : Spans s i [b] (i + 1) :=
  Spans.cons hb (Spans.nil (List.getElem?_eq_some_iff.1 hb).1)

theorem Spans.snoc (h : Spans s i t j) (hb : s[j]? = some b) : Spans s i (t ++ [b]) (j + 1) :=
  h.append (Spans.single hb)

theorem Spans.unique (ht : Spans s i t j) (hu : Spans s i u j) : t = u :=
  List.append_cancel_right (ht.text.symm.trans hu.text)

theorem Spans.le (h : Spans s i t j) : i ≤ j := by
  have hstop := h.stop
  omega

theorem Spans.lt (h : Spans s i t j) (ht : t ≠ []) : i < j := by
  have hstop := h.stop
  have hpos := List.length_pos_iff.2 ht
  omega

theorem Spans.slice (h : Spans s i t j) : (s.drop i).take (j - i) = t := by
  have hlen : j - i = t.length := by
    have hstop := h.stop
    omega
  rw [h.text, hlen, List.take_left]

theorem spans_slice (hij : i ≤ j) (hj : j ≤ s.length) : Spans s i ((s.drop i).take (j - i)) j where
  stop := by
    rw [List.length_take, List.length_drop]
    omega
  inside := hj
  text := by
    have hsum : i + (j - i) = j := by omega
    have hdrop : (s.drop i).drop (j - i) = s.drop j := by rw [List.drop_drop, hsum]
    rw [← hdrop, List.take_append_drop]

theorem spans_whole_iff : Spans s 0 t s.length ↔ t = s := by
  constructor
  · intro h
    simpa using h.text.symm
  · rintro rfl
    exact ⟨Nat.zero_add _, Nat.le_refl _, by simp⟩

end Kaikai.Stretch
