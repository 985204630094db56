import Kaikai.PipeTerminals

namespace Kaikai.PipeFusion

open Kaikai.Word64 (Word InRange wrap)

/-- The number of terms of a progression that are at most `stop`. -/
def termCount (start stop step : Int) : Nat :=
  if start > stop then 0 else ((stop - start) / step + 1).toNat

/-- `start, start + step, start + 2 * step, ..`, the terms that are at most `stop`. -/
def progression (start stop step : Int) : List Int :=
  (List.range (termCount start stop step)).map fun k : Nat => start + step * k

/-- The first term that is not. -/
def firstPast (start stop step : Int) : Int := start + step * termCount start stop step

/-- A progression in registers. -/
def terms (start stop step : Word) : List Word :=
  (progression start.1 stop.1 step.1).map .ofInt

/-- A lazy range that is not read yet: what the closure of its cell holds. -/
structure SeqRange where
  a : Word
  hi : Word
  step : Word
  step_ne : step.1 ≠ 0

/-- What the first read of a cell gives. -/
inductive SeqStep where
  | seqEnd
  | seqCons (x : Word) (rest : SeqRange)

def SeqRange.force (s : SeqRange) : SeqStep :=
  if (s.step.1 > 0 ∧ s.a.1 > s.hi.1) ∨ (s.step.1 < 0 ∧ s.a.1 < s.hi.1) then .seqEnd
  else .seqCons s.a { s with a := .ofInt (s.a.1 + s.step.1) }

/-- The elements of a lazy range that is read to its end. -/
def SeqRange.read : Nat → SeqRange → Option (List Word)
  | 0, _ => none
  | fuel + 1, s =>
      match s.force with
      | .seqEnd => some []
      | .seqCons x rest => (rest.read fuel).map (x :: ·)

/-- `seq.range`, which panics on a step of zero. -/
def seqRange (a hi step : Word) : Option SeqRange :=
  if h : step.1 = 0 then none else some ⟨a, hi, step, h⟩

/-- The library functions over a range, with `fuel`, against the progression. A vec is
reserved for the length of its range before the loop. -/
structure Walks (start stop step : Word) (fuel : Nat) : Prop where
  mapFoldl : ∀ {σ A : Type} (M : Meaning σ A) (f : Datum A → Comp σ (Datum A)) (i : Datum A)
    (c : Datum A → Datum A → Comp σ (Datum A)),
    callCore M fuel .rangeMapFoldl
        [.datum (.int start), .datum (.int stop), .fn1 f, .datum i, .fn2 c] =
      .datum <$> ((terms start stop oneStep).map .int).foldlM (fun acc d => f d >>= c acc) i
  stepMapFoldl : ∀ {σ A : Type} (M : Meaning σ A) (f : Datum A → Comp σ (Datum A))
    (i : Datum A) (c : Datum A → Datum A → Comp σ (Datum A)),
    callCore M fuel .rangeStepMapFoldl
        [.datum (.int start), .datum (.int stop), .datum (.int step), .fn1 f, .datum i, .fn2 c] =
      .datum <$> ((terms start stop step).map .int).foldlM (fun acc d => f d >>= c acc) i
  mapSum : ∀ {σ A : Type} (M : Meaning σ A) (f : Datum A → Comp σ (Datum A)),
    callCore M fuel .rangeMapSum [.datum (.int start), .datum (.int stop), .fn1 f] =
      .datum <$> ((terms start stop oneStep).map .int).foldlM
        (fun acc d => f d >>= pureOp M.add acc) M.zero
  stepMapSum : ∀ {σ A : Type} (M : Meaning σ A) (f : Datum A → Comp σ (Datum A)),
    callCore M fuel .rangeStepMapSum
        [.datum (.int start), .datum (.int stop), .datum (.int step), .fn1 f] =
      .datum <$> ((terms start stop step).map .int).foldlM
        (fun acc d => f d >>= pureOp M.add acc) M.zero
  mapProduct : ∀ {σ A : Type} (M : Meaning σ A) (f : Datum A → Comp σ (Datum A)),
    callCore M fuel .rangeMapProduct [.datum (.int start), .datum (.int stop), .fn1 f] =
      .datum <$> ((terms start stop oneStep).map .int).foldlM
        (fun acc d => f d >>= pureOp M.mul acc) M.one
  stepMapProduct : ∀ {σ A : Type} (M : Meaning σ A) (f : Datum A → Comp σ (Datum A)),
    callCore M fuel .rangeStepMapProduct
        [.datum (.int start), .datum (.int stop), .datum (.int step), .fn1 f] =
      .datum <$> ((terms start stop step).map .int).foldlM
        (fun acc d => f d >>= pureOp M.mul acc) M.one
  collectVec : ∀ {σ A : Type} (M : Meaning σ A) (f : Datum A → Comp σ (Datum A)),
    callCore M fuel .rangeMapCollectVec [.datum (.int start), .datum (.int stop), .fn1 f] =
      .vec <$> ((terms start stop oneStep).map .int).mapM f
  stepCollectVec : ∀ {σ A : Type} (M : Meaning σ A) (f : Datum A → Comp σ (Datum A)),
    callCore M fuel .rangeStepMapCollectVec
        [.datum (.int start), .datum (.int stop), .datum (.int step), .fn1 f] =
      .vec <$> ((terms start stop step).map .int).mapM f
  length : (progression start.1 stop.1 1).length ≤ 2 ^ 63 - 1 →
    (rangeLength start stop).1 = (progression start.1 stop.1 1).length
  stepLength : ∃ n, rangeStepLength stop step fuel start (.ofInt 0) = some n ∧
    ((progression start.1 stop.1 step.1).length ≤ 2 ^ 63 - 1 →
      n.1 = (progression start.1 stop.1 step.1).length)
  seqRead : (seqRange start stop step).bind (SeqRange.read fuel) = some (terms start stop step)

/-- Every function ends, and walks the terms of the progression in order. -/
def WalksExactly (start stop step : Word) : Prop :=
  ∃ enough, ∀ fuel ≥ enough, Walks start stop step fuel

section Progression

variable {start stop step : Int}

theorem termCount_past (h : start > stop) : termCount start stop step = 0 := if_pos h

theorem termCount_succ (hstep : step > 0) (h : ¬start > stop) :
    termCount start stop step = termCount (start + step) stop step + 1 := by
  have hquot : (stop - start) / step = (stop - (start + step)) / step + 1 := by
    rw [show stop - start = stop - (start + step) + step by ring,
      Int.add_ediv_of_dvd_right (dvd_refl step), Int.ediv_self hstep.ne']
  rw [termCount, if_neg h, termCount, hquot]
  split
  · rename_i hnext
    have hneg : (stop - (start + step)) / step < 0 := Int.ediv_neg_of_neg_of_pos (by omega) hstep
    have hlow : 0 ≤ (stop - start) / step := Int.ediv_nonneg (by omega) hstep.le
    omega
  · rename_i hnext
    have hlow : 0 ≤ (stop - (start + step)) / step := Int.ediv_nonneg (by omega) hstep.le
    omega

theorem progression_length : (progression start stop step).length = termCount start stop step := by
  rw [progression, List.length_map, List.length_range]

theorem progression_past (h : start > stop) : progression start stop step = [] := by
  rw [progression, termCount_past h]
  rfl

theorem progression_cons (hstep : step > 0) (h : ¬start > stop) :
    progression start stop step = start :: progression (start + step) stop step := by
  rw [progression, termCount_succ hstep h, List.range_succ_eq_map, List.map_cons, List.map_map,
    progression]
  congr 1
  · simp
  · apply List.map_congr_left
    intro k _
    simp only [Function.comp_apply, Nat.succ_eq_add_one, Nat.cast_add, Nat.cast_one]
    ring

theorem firstPast_past (h : start > stop) : firstPast start stop step = start := by
  rw [firstPast, termCount_past h]
  simp

theorem firstPast_succ (hstep : step > 0) (h : ¬start > stop) :
    firstPast start stop step = firstPast (start + step) stop step := by
  rw [firstPast, termCount_succ hstep h, firstPast]
  push_cast
  ring

theorem start_le_firstPast (hstep : step > 0) : start ≤ firstPast start stop step := by
  have : 0 ≤ step * termCount start stop step := by positivity
  rw [firstPast]
  omega

end Progression

section Registers

variable {stop step : Word}

theorem terms_past {start : Word} (h : start.1 > stop.1) : terms start stop step = [] := by
  rw [terms, progression_past h]
  rfl

theorem terms_cons (hstep : step.1 > 0) {start next : Word} (h : ¬start.1 > stop.1)
    (hnext : next.1 = start.1 + step.1) :
    terms start stop step = start :: terms next stop step := by
  rw [terms, progression_cons hstep h, List.map_cons, terms, hnext]
  congr 1
  exact Subtype.ext (Word64.wrap_eq_self start.2.1 start.2.2)

theorem ofInt_val {x : Int} (hlow : -2 ^ 63 ≤ x) (hhigh : x < 2 ^ 63) : (Word.ofInt x).1 = x :=
  Word64.wrap_eq_self hlow hhigh

theorem rangeList_terms (hstep : step.1 > 0) {fuel : Nat} : ∀ {start : Word},
    start.1 > stop.1 ∨ firstPast start.1 stop.1 step.1 < 2 ^ 63 →
    termCount start.1 stop.1 step.1 < fuel →
      rangeList stop step fuel start = some (terms start stop step) := by
  induction fuel with
  | zero => exact fun _ hfuel => by cases hfuel
  | succ fuel ih =>
      intro start hpast hfuel
      simp only [rangeList, rangeEnded, if_pos hstep, decide_eq_true_eq]
      by_cases hend : start.1 > stop.1
      · rw [if_pos hend, terms_past hend]
      · have hbound := hpast.resolve_left hend
        rw [firstPast_succ hstep hend] at hbound
        rw [termCount_succ hstep hend] at hfuel
        have hle : start.1 + step.1 ≤ firstPast (start.1 + step.1) stop.1 step.1 :=
          start_le_firstPast hstep
        have hlow := start.2.1
        have hnext : (Word.ofInt (start.1 + step.1)).1 = start.1 + step.1 :=
          ofInt_val (by omega) (by omega)
        rw [if_neg hend, ih (by rw [hnext]; exact .inr hbound) (by rw [hnext]; omega),
          terms_cons hstep hend hnext]
        rfl

theorem rangeList_ne_nil (hstep : step.1 > 0) {start : Word} (h : ¬start.1 > stop.1) :
    ∀ {fuel : Nat} {ns : List Word}, rangeList stop step fuel start = some ns → 0 < ns.length
  | 0, _, hns => by cases hns
  | fuel + 1, ns, hns => by
      simp only [rangeList, rangeEnded, if_pos hstep, decide_eq_true_eq, if_neg h,
        Option.map_eq_some_iff] at hns
      obtain ⟨rest, -, rfl⟩ := hns
      exact Nat.succ_pos _

/-- Where the first number past the end leaves the range, the counter starts again from below
it: no walk ends after the terms. -/
theorem rangeList_wraps (hstep : step.1 > 0) {fuel : Nat} : ∀ {start : Word} {ns : List Word},
    ¬start.1 > stop.1 → firstPast start.1 stop.1 step.1 ≥ 2 ^ 63 →
    rangeList stop step fuel start = some ns → termCount start.1 stop.1 step.1 < ns.length := by
  induction fuel with
  | zero => exact fun _ _ h => by cases h
  | succ fuel ih =>
      intro start ns hend hpast h
      simp only [rangeList, rangeEnded, if_pos hstep, decide_eq_true_eq, if_neg hend,
        Option.map_eq_some_iff] at h
      obtain ⟨rest, hrest, rfl⟩ := h
      rw [firstPast_succ hstep hend] at hpast
      rw [termCount_succ hstep hend, List.length_cons]
      have hlow := start.2.1
      have hstop := stop.2.2
      have hstep' := step.2.2
      by_cases hlast : start.1 + step.1 > stop.1
      · rw [firstPast_past hlast] at hpast
        have hwrap : (Word.ofInt (start.1 + step.1)).1 = start.1 + step.1 - 2 ^ 64 := by
          change wrap (start.1 + step.1) = _
          unfold wrap
          omega
        have := rangeList_ne_nil hstep (by rw [hwrap]; omega) hrest
        rw [termCount_past hlast]
        omega
      · have hnext : (Word.ofInt (start.1 + step.1)).1 = start.1 + step.1 :=
          ofInt_val (by omega) (by omega)
        have := ih (by rw [hnext]; exact hlast) (by rw [hnext]; exact hpast) hrest
        rw [hnext] at this
        omega

end Registers

theorem read_eq {hi step : Word} (hstep : step.1 > 0) (hne : step.1 ≠ 0) (fuel : Nat) :
    ∀ a : Word, SeqRange.read fuel ⟨a, hi, step, hne⟩ = rangeList hi step fuel a := by
  induction fuel with
  | zero => exact fun _ => rfl
  | succ fuel ih =>
      intro a
      have hguard : ((step.1 > 0 ∧ a.1 > hi.1) ∨ (step.1 < 0 ∧ a.1 < hi.1)) ↔ a.1 > hi.1 := by
        omega
      simp only [SeqRange.read, SeqRange.force, hguard, rangeList, rangeEnded, if_pos hstep,
        decide_eq_true_eq]
      by_cases hend : a.1 > hi.1
      · rw [if_pos hend, if_pos hend]
      · rw [if_neg hend, if_neg hend]
        exact congrArg (Option.map (a :: ·)) (ih _)

theorem seqRead_eq {a hi step : Word} (hstep : step.1 > 0) (fuel : Nat) :
    (seqRange a hi step).bind (SeqRange.read fuel) = rangeList hi step fuel a := by
  rw [seqRange, dif_neg hstep.ne']
  exact read_eq hstep hstep.ne' fuel a

section Loops

variable {start stop step : Word} {fuel : Nat}

theorem rangeLength_exact (h : (progression start.1 stop.1 1).length ≤ 2 ^ 63 - 1) :
    (rangeLength start stop).1 = (progression start.1 stop.1 1).length := by
  rw [progression_length, termCount] at h ⊢
  rw [rangeLength]
  split
  · rfl
  · rename_i hend
    rw [if_neg hend, Int.ediv_one] at h
    rw [Int.ediv_one, Int.toNat_of_nonneg (by omega)]
    exact ofInt_val (by omega) (by omega)

theorem rangeStepLength_terms (hstep : step.1 > 0)
    (h : rangeList stop step fuel start = some (terms start stop step)) :
    ∃ n, rangeStepLength stop step fuel start (.ofInt 0) = some n ∧
      ((progression start.1 stop.1 step.1).length ≤ 2 ^ 63 - 1 →
        n.1 = (progression start.1 stop.1 step.1).length) := by
  refine ⟨_, rangeStepLength_eq hstep h 0, ?_⟩
  intro hlen
  rw [terms, List.length_map, zero_add]
  exact ofInt_val (by omega) (by omega)

theorem walks_of_rangeList (hstep : step.1 > 0)
    (hunit : rangeList stop oneStep fuel start = some (terms start stop oneStep))
    (h : rangeList stop step fuel start = some (terms start stop step)) :
    Walks start stop step fuel where
  mapFoldl _ f i c := by
    rw [← rangeMapFoldl_eq f c oneStep_pos hunit]
    rfl
  stepMapFoldl _ f i c := by
    rw [← rangeMapFoldl_eq f c hstep h]
    rfl
  mapSum M f := by
    rw [← rangeMapFoldl_eq f (pureOp M.add) oneStep_pos hunit]
    rfl
  stepMapSum M f := by
    rw [← rangeMapFoldl_eq f (pureOp M.add) hstep h]
    rfl
  mapProduct M f := by
    rw [← rangeMapFoldl_eq f (pureOp M.mul) oneStep_pos hunit]
    rfl
  stepMapProduct M f := by
    rw [← rangeMapFoldl_eq f (pureOp M.mul) hstep h]
    rfl
  collectVec _ f := by rw [callCore_rangeMapCollectVec, rangeCollect_eq f oneStep_pos hunit]
  stepCollectVec _ f := by rw [callCore_rangeStepMapCollectVec, rangeCollect_eq f hstep h]
  length := rangeLength_exact
  stepLength := rangeStepLength_terms hstep h
  seqRead := (seqRead_eq hstep fuel).trans h

theorem firstPast_one_lt (hstep : step.1 > 0) (hend : ¬start.1 > stop.1)
    (hpast : firstPast start.1 stop.1 step.1 < 2 ^ 63) :
    firstPast start.1 stop.1 oneStep.1 < 2 ^ 63 := by
  have hone : oneStep.1 = 1 := by decide
  have hbelow : stop.1 < firstPast start.1 stop.1 step.1 := by
    rw [firstPast, termCount, if_neg hend, Int.toNat_of_nonneg
      (by have := Int.ediv_nonneg (a := stop.1 - start.1) (by omega) hstep.le; omega)]
    have := Int.lt_mul_ediv_self_add (x := stop.1 - start.1) hstep
    linarith
  rw [firstPast, termCount, if_neg hend, hone, Int.ediv_one]
  omega

theorem walksExactly_of_firstPast (hstep : step.1 > 0)
    (h : start.1 > stop.1 ∨ firstPast start.1 stop.1 step.1 < 2 ^ 63) :
    WalksExactly start stop step := by
  have hunit : start.1 > stop.1 ∨ firstPast start.1 stop.1 oneStep.1 < 2 ^ 63 := by
    by_cases hend : start.1 > stop.1
    · exact .inl hend
    · exact .inr (firstPast_one_lt hstep hend (h.resolve_left hend))
  refine ⟨termCount start.1 stop.1 oneStep.1 + termCount start.1 stop.1 step.1 + 1, ?_⟩
  intro fuel hfuel
  exact walks_of_rangeList hstep (rangeList_terms oneStep_pos hunit (by omega))
    (rangeList_terms hstep h (by omega))

theorem not_walksExactly (hstep : step.1 > 0) (hend : ¬start.1 > stop.1)
    (hpast : firstPast start.1 stop.1 step.1 ≥ 2 ^ 63) : ¬WalksExactly start stop step := by
  rintro ⟨enough, h⟩
  have hread := (h enough le_rfl).seqRead
  rw [seqRead_eq hstep] at hread
  have := rangeList_wraps hstep hend hpast hread
  rw [terms, List.length_map, progression_length] at this
  exact lt_irrefl _ this

end Loops

/-- The loops over a range end, having walked its terms in order, exactly when the range is
empty or the first number past its end still fits a register. -/
theorem walksExactly_iff (start stop step : Word) (hstep : step.1 > 0) :
    WalksExactly start stop step ↔
      start.1 > stop.1 ∨ firstPast start.1 stop.1 step.1 < 2 ^ 63 := by
  constructor
  · intro h
    by_contra hnot
    exact not_walksExactly hstep (fun hend => hnot (.inl hend))
      (not_lt.mp fun hpast => hnot (.inr hpast)) h
  · exact walksExactly_of_firstPast hstep

theorem walksExactly_tens :
    oneStep.1 > 0 ∧ (WalksExactly oneStep (.ofInt 10) oneStep ↔
      oneStep.1 > (Word.ofInt 10).1 ∨ firstPast oneStep.1 (Word.ofInt 10).1 oneStep.1 < 2 ^ 63) :=
  ⟨oneStep_pos, walksExactly_iff _ _ _ oneStep_pos⟩

/-- A range of one number, the largest. -/
theorem largest_not_walksExactly :
    ¬WalksExactly (.ofInt (2 ^ 63 - 1)) (.ofInt (2 ^ 63 - 1)) oneStep :=
  not_walksExactly oneStep_pos (by decide) (by decide)

end Kaikai.PipeFusion
