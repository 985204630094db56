import Mathlib.Data.List.Basic
import Kaikai.Str

namespace Kaikai.Stream

open Str

/-- What a read of the file answers before its end: some bytes, or a fault that consumes none. -/
inductive Read where
  | chunk (bytes : {c : Str // c ≠ []})
  | failed (msg : Str)

/-- A run of a producer: the effects it performs, in order. -/
inductive Run where
  | done
  | emit (line : Str) (next : Run)
  | badChunk (msg : Str) (next : Run)

/-- `string.index_of(s, "\n")`. -/
def indexOfNewline (s : Str) : Option Nat := s.findIdx? (· == 10)

theorem lt_of_indexOfNewline {s : Str} {i : Nat} (h : indexOfNewline s = some i) : i < s.length :=
  (List.findIdx?_eq_some_iff_getElem.1 h).1

/-- Emits each line that `buf` completes and goes on with the unterminated remainder. -/
def drainLines (buf : Str) (k : Str → Run) : Run :=
  match _h : indexOfNewline buf with
  | none => k buf
  | some i => .emit (buf.take i) (drainLines (buf.drop (i + 1)) k)
termination_by buf.length
decreasing_by
  have hlt := lt_of_indexOfNewline _h
  rw [List.length_drop]
  omega

/-- The read loop; the end of `reads` is the end of the file. -/
def pumpLines : List Read → Str → Run
  | [], carry => if carry.length > 0 then .emit carry .done else .done
  | .chunk c :: reads, carry => drainLines (carry ++ c.1) (pumpLines reads)
  | .failed msg :: reads, carry => .badChunk msg (pumpLines reads carry)

/-- The lines a consumer receives that resumes from every fault. -/
def Run.lines : Run → List Str
  | .done => []
  | .emit line next => line :: next.lines
  | .badChunk _ next => next.lines

/-- The lines a consumer receives that stops after `k` of them. -/
def Run.linesUpTo : Nat → Run → List Str
  | 0, _ => []
  | _ + 1, .done => []
  | k + 1, .emit line next => line :: next.linesUpTo k
  | k + 1, .badChunk _ next => next.linesUpTo (k + 1)

theorem Run.linesUpTo_eq_take (r : Run) (k : Nat) : r.linesUpTo k = r.lines.take k := by
  induction r generalizing k with
  | done => cases k <;> rfl
  | emit line next ih =>
      cases k with
      | zero => rfl
      | succ k => rw [linesUpTo, lines, List.take_succ_cons, ih]
  | badChunk msg next ih =>
      cases k with
      | zero => rfl
      | succ k => rw [linesUpTo, lines, ih]

/-- The bytes of the file. -/
def bytes : List Read → Str
  | [] => []
  | .chunk c :: reads => c.1 ++ bytes reads
  | .failed _ :: reads => bytes reads

/-- The pieces between the newlines, without an empty last one. -/
def linesOf (b : Str) : List Str :=
  if (b.splitOn 10).getLast? = some [] then (b.splitOn 10).dropLast else b.splitOn 10

theorem linesOf_unterminated {s : Str} (h : 10 ∉ s) : linesOf s = if s = [] then [] else [s] := by
  rw [linesOf, List.splitOn_eq_singleton h, List.getLast?_singleton]
  by_cases hs : s = []
  · rw [if_pos (congrArg some hs), if_pos hs]
    rfl
  · rw [if_neg fun h => hs (Option.some.inj h), if_neg hs]

theorem linesOf_terminated {s : Str} (h : 10 ∉ s) (t : Str) :
    linesOf (s ++ 10 :: t) = s :: linesOf t := by
  have hsplit : (s ++ 10 :: t).splitOn 10 = s :: t.splitOn 10 := by
    rw [List.splitOn_append_cons_self, List.splitOn_eq_singleton h, List.singleton_append]
  obtain ⟨p, ps, hps⟩ := List.exists_cons_of_ne_nil (List.splitOn_ne_nil 10 t)
  rw [linesOf, linesOf, hsplit, hps, List.getLast?_cons_cons, List.dropLast_cons_cons]
  split_ifs <;> rfl

theorem indexOfNewline_none {s : Str} (h : indexOfNewline s = none) : 10 ∉ s := by
  intro hmem
  exact absurd (List.findIdx?_eq_none_iff.1 h 10 hmem) (by decide)

theorem indexOfNewline_some {s : Str} {i : Nat} (h : indexOfNewline s = some i) :
    10 ∉ s.take i ∧ s = s.take i ++ 10 :: s.drop (i + 1) := by
  obtain ⟨hi, hbyte, hfirst⟩ := List.findIdx?_eq_some_iff_getElem.1 h
  constructor
  · intro hmem
    obtain ⟨j, hj, heq⟩ := List.mem_iff_getElem.1 hmem
    rw [List.length_take] at hj
    rw [List.getElem_take] at heq
    exact hfirst j (by omega) (beq_iff_eq.2 heq)
  · conv_lhs => rw [← List.take_append_drop i s, List.drop_eq_getElem_cons hi, beq_iff_eq.1 hbyte]

theorem drainLines_lines {k : Str → Run} {rest : Str}
    (hk : ∀ carry, 10 ∉ carry → (k carry).lines = linesOf (carry ++ rest)) (buf : Str) :
    (drainLines buf k).lines = linesOf (buf ++ rest) := by
  induction buf using drainLines.induct with
  | case1 buf h =>
      rw [drainLines]
      split
      · exact hk buf (indexOfNewline_none h)
      · next i hi => rw [h] at hi; cases hi
  | case2 buf i h ih =>
      obtain ⟨hline, hbuf⟩ := indexOfNewline_some h
      rw [drainLines]
      split
      · next hnone => rw [h] at hnone; cases hnone
      · next j hj =>
          obtain rfl : i = j := Option.some.inj (h.symm.trans hj)
          rw [Run.lines, ih]
          conv_rhs => rw [hbuf, List.append_assoc, List.cons_append]
          rw [linesOf_terminated hline]

theorem pumpLines_lines (reads : List Read) {carry : Str} (h : 10 ∉ carry) :
    (pumpLines reads carry).lines = linesOf (carry ++ bytes reads) := by
  induction reads generalizing carry with
  | nil =>
      rw [pumpLines, bytes, List.append_nil, linesOf_unterminated h]
      cases carry <;> rfl
  | cons r reads ih =>
      cases r with
      | chunk c =>
          rw [pumpLines, drainLines_lines fun _ hcarry => ih hcarry, bytes, List.append_assoc]
      | failed msg => exact ih h

/-- However the file is cut into chunks and wherever a read fails, a consumer receives the lines of
the text, and one that stops early the first of them. -/
theorem pumpLines_exact (reads : List Read) :
    (pumpLines reads []).lines = linesOf (bytes reads) ∧
      ∀ k, (pumpLines reads []).linesUpTo k = (linesOf (bytes reads)).take k := by
  have hlines : (pumpLines reads []).lines = linesOf (bytes reads) :=
    pumpLines_lines reads List.not_mem_nil
  exact ⟨hlines, fun k => by rw [Run.linesUpTo_eq_take, hlines]⟩

end Kaikai.Stream
