import Kaikai.Word64

namespace Kaikai.Time

open Word64

structure Duration where
  secs : Int
  nanos : Int
deriving DecidableEq

structure Instant where
  secs : Int
  nanos : Int
deriving DecidableEq

structure WallTime where
  secs : Int
  nanos : Int
deriving DecidableEq

/-- The count of nanoseconds of the fields, in 64-bit arithmetic. -/
def toNanos (secs nanos : Int) : Int := add (mul secs 1000000000) nanos

/-- The fields of a count of nanoseconds; the division by a constant never traps. -/
def splitNanos {α : Type} (mk : Int → Int → α) (n : Int) : α :=
  let s := n.tdiv 1000000000
  let r := sub n (mul s 1000000000)
  if r < 0 then mk (sub s 1) (add r 1000000000) else mk s r

def durationToNanos (d : Duration) : Int := toNanos d.secs d.nanos

def nanosToDuration (n : Int) : Duration := splitNanos Duration.mk n

def durationAdd (a b : Duration) : Duration :=
  nanosToDuration (add (durationToNanos a) (durationToNanos b))

def durationSub (a b : Duration) : Duration :=
  nanosToDuration (sub (durationToNanos a) (durationToNanos b))

def durationLt (a b : Duration) : Bool := durationToNanos a < durationToNanos b

/-- The derived order compares field by field. -/
def durationCmp (a b : Duration) : Ordering :=
  (compare a.secs b.secs).then (compare a.nanos b.nanos)

def instantAddDuration (t : Instant) (d : Duration) : Instant :=
  splitNanos Instant.mk (add (toNanos t.secs t.nanos) (durationToNanos d))

def elapsedSince (start stop : Instant) : Duration :=
  nanosToDuration
    (add (mul (sub stop.secs start.secs) 1000000000) (sub stop.nanos start.nanos))

def walltimeAddDuration (t : WallTime) (d : Duration) : WallTime :=
  splitNanos WallTime.mk (add (toNanos t.secs t.nanos) (durationToNanos d))

/-- Fields as the constructors leave them: `Int` seconds and nanoseconds below one second. -/
structure Normal (secs nanos : Int) : Prop where
  secs : InRange secs
  low : 0 ≤ nanos
  high : nanos < 1000000000

/-- The exact count of nanoseconds. -/
def count (secs nanos : Int) : Int := secs * 1000000000 + nanos

/-- The normalised fields of an exact count. -/
def ofCount {α : Type} (mk : Int → Int → α) (n : Int) : α := mk (n / 1000000000) (n % 1000000000)

/-- The seconds of an exact count fit `Int`. -/
def SecsFit (n : Int) : Prop := InRange (n / 1000000000)

/-- The nearest `Int`. -/
def clamp (n : Int) : Int := if n < -2 ^ 63 then -2 ^ 63 else if n < 2 ^ 63 then n else 2 ^ 63 - 1

theorem Normal.ofCount_count {secs nanos : Int} (h : Normal secs nanos) {α : Type}
    (mk : Int → Int → α) : ofCount mk (count secs nanos) = mk secs nanos := by
  obtain ⟨-, hlow, hhigh⟩ := h
  have hsecs : count secs nanos / 1000000000 = secs := by
    unfold count
    omega
  have hnanos : count secs nanos % 1000000000 = nanos := by
    unfold count
    omega
  rw [ofCount, hsecs, hnanos]

theorem toNanos_eq (secs nanos : Int) : toNanos secs nanos = wrap (count secs nanos) :=
  wrap_wrap_add _ _

theorem tdiv_cases (n : Int) : (0 ≤ n ∧ n.tdiv 1000000000 = n / 1000000000) ∨
    (n < 0 ∧ n.tdiv 1000000000 = -(-n / 1000000000)) := by
  obtain hneg | hpos := Int.lt_or_le n 0
  · refine .inr ⟨hneg, ?_⟩
    rw [← Int.neg_neg n, Int.neg_tdiv, Int.neg_neg, Int.tdiv_eq_ediv_of_nonneg (by omega)]
  · exact .inl ⟨hpos, Int.tdiv_eq_ediv_of_nonneg hpos⟩

theorem splitNanos_eq {α : Type} (mk : Int → Int → α) {n : Int} (h : InRange n) :
    splitNanos mk n = ofCount mk n := by
  obtain ⟨hlow, hhigh⟩ := h
  have hquot := tdiv_cases n
  unfold splitNanos ofCount
  generalize n.tdiv 1000000000 = q at hquot ⊢
  have hmul : mul q 1000000000 = q * 1000000000 := mul_eq (by omega) (by omega)
  have hrem : sub n (q * 1000000000) = n - q * 1000000000 := sub_eq (by omega) (by omega)
  dsimp only
  rw [hmul, hrem]
  split_ifs with hneg
  · rw [sub_eq (by omega) (by omega), add_eq (by omega) (by omega)]
    congr 1 <;> omega
  · congr 1 <;> omega

theorem splitNanos_wrap {α : Type} (mk : Int → Int → α) (n : Int) :
    splitNanos mk (wrap n) = ofCount mk (wrap n) :=
  splitNanos_eq mk (wrap_inRange n)

theorem ofCount_inj {α : Type} {mk : Int → Int → α}
    (hmk : ∀ {s n s' n'}, mk s n = mk s' n' → s = s' ∧ n = n') {m n : Int} :
    ofCount mk m = ofCount mk n ↔ m = n := by
  constructor
  · intro h
    obtain ⟨hsecs, hnanos⟩ := hmk h
    omega
  · rintro rfl
    rfl

theorem wrap_eq_iff {n : Int} : wrap n = n ↔ InRange n :=
  ⟨fun h => h ▸ wrap_inRange n, fun h => wrap_eq_self h.1 h.2⟩

theorem add_wrap (m n : Int) : add (wrap m) (wrap n) = wrap (m + n) := by
  unfold add wrap
  omega

theorem sub_wrap (m n : Int) : sub (wrap m) (wrap n) = wrap (m - n) := by
  unfold sub wrap
  omega

theorem elapsed_wrap (s n s' n' : Int) :
    add (mul (sub s s') 1000000000) (sub n n') = wrap (count s n - count s' n') := by
  unfold add mul sub wrap count
  omega

/-- The count fits `Int`, or not even its seconds do. -/
def Splits (n : Int) : Prop := InRange n ∨ ¬ SecsFit n

/-- A result is exact wherever the seconds of the exact count fit. -/
def ExactAt {α : Type} (mk : Int → Int → α) (n : Int) (result : α) : Prop :=
  SecsFit n → result = ofCount mk n

theorem exactAt_iff {α : Type} {mk : Int → Int → α}
    (hmk : ∀ {s n s' n'}, mk s n = mk s' n' → s = s' ∧ n = n') (n : Int) :
    ExactAt mk n (splitNanos mk (wrap n)) ↔ Splits n := by
  rw [splitNanos_wrap, ExactAt, ofCount_inj hmk, wrap_eq_iff, Splits, or_comm]
  exact imp_iff_not_or

/-- The aligned stretch of `2 ^ 64` counts that a count lies in. -/
def era (n : Int) : Int := (n + 2 ^ 63) / 2 ^ 64

/-- The place of a count in its stretch. -/
def place (n : Int) : Int := (n + 2 ^ 63) % 2 ^ 64

/-- Two counts lie in one stretch, or their places are ordered as their stretches are. -/
def Ordered (m n : Int) : Prop := era m = era n ∨ (place m < place n ↔ era m < era n)

theorem wrap_lt_wrap_iff (m n : Int) : (wrap m < wrap n ↔ m < n) ↔ Ordered m n := by
  have hm : m = era m * 2 ^ 64 + place m - 2 ^ 63 := by
    unfold era place
    omega
  have hn : n = era n * 2 ^ 64 + place n - 2 ^ 63 := by
    unfold era place
    omega
  have hwrap : wrap m < wrap n ↔ place m < place n := Int.sub_lt_sub_right_iff
  have hlow : 0 ≤ place m ∧ place m < 2 ^ 64 := by
    unfold place
    omega
  have hhigh : 0 ≤ place n ∧ place n < 2 ^ 64 := by
    unfold place
    omega
  rw [hwrap, Ordered]
  have horder : era m ≠ era n → (m < n ↔ era m < era n) := by omega
  have hsame : era m = era n → (m < n ↔ place m < place n) := by omega
  by_cases heq : era m = era n
  · exact iff_of_true (hsame heq).symm (.inl heq)
  · rw [horder heq, or_iff_right heq]

/-- The count fits, or lies in another stretch at the place of the end it is beyond. -/
def Saturates (n : Int) : Prop :=
  InRange n ∨ (0 < era n ∧ place n = 2 ^ 64 - 1) ∨ (era n < 0 ∧ place n = 0)

theorem wrap_eq_clamp_iff (n : Int) : wrap n = clamp n ↔ Saturates n := by
  unfold wrap clamp Saturates era place InRange
  split_ifs <;> omega

abbrev NormalDuration := {d : Duration // Normal d.secs d.nanos}

abbrev NormalInstant := {t : Instant // Normal t.secs t.nanos}

abbrev NormalWallTime := {w : WallTime // Normal w.secs w.nanos}

def Duration.count (d : Duration) : Int := Time.count d.secs d.nanos

def Instant.count (t : Instant) : Int := Time.count t.secs t.nanos

def WallTime.count (w : WallTime) : Int := Time.count w.secs w.nanos

/-- The seconds decide, then the nanoseconds. -/
def LexLt (a b : Duration) : Prop := a.secs < b.secs ∨ (a.secs = b.secs ∧ a.nanos < b.nanos)

/-- What the operations owe to two durations, two instants and a wall time. -/
structure Exact (a b : NormalDuration) (t u : NormalInstant) (w : NormalWallTime) : Prop where
  sum : ExactAt Duration.mk (a.1.count + b.1.count) (durationAdd a b)
  difference : ExactAt Duration.mk (a.1.count - b.1.count) (durationSub a b)
  order : durationLt a b = true ↔ LexLt a b
  derived : durationCmp a b = .lt ↔ LexLt a b
  left : durationToNanos a = clamp a.1.count
  right : durationToNanos b = clamp b.1.count
  roundTrip : InRange a.1.count → nanosToDuration (durationToNanos a) = a
  instant : ExactAt Instant.mk (t.1.count + a.1.count) (instantAddDuration t a)
  walltime : ExactAt WallTime.mk (w.1.count + a.1.count) (walltimeAddDuration w a)
  elapsed : ExactAt Duration.mk (u.1.count - t.1.count) (elapsedSince t u)

/-- The exact counts lie where the 64-bit ones agree with them. -/
structure Fits (a b : NormalDuration) (t u : NormalInstant) (w : NormalWallTime) : Prop where
  sum : Splits (a.1.count + b.1.count)
  difference : Splits (a.1.count - b.1.count)
  order : Ordered a.1.count b.1.count
  left : Saturates a.1.count
  right : Saturates b.1.count
  instant : Splits (t.1.count + a.1.count)
  walltime : Splits (w.1.count + a.1.count)
  elapsed : Splits (u.1.count - t.1.count)

theorem duration_mk_inj {s n s' n' : Int} (h : Duration.mk s n = Duration.mk s' n') :
    s = s' ∧ n = n' :=
  ⟨congrArg Duration.secs h, congrArg Duration.nanos h⟩

theorem instant_mk_inj {s n s' n' : Int} (h : Instant.mk s n = Instant.mk s' n') :
    s = s' ∧ n = n' :=
  ⟨congrArg Instant.secs h, congrArg Instant.nanos h⟩

theorem wallTime_mk_inj {s n s' n' : Int} (h : WallTime.mk s n = WallTime.mk s' n') :
    s = s' ∧ n = n' :=
  ⟨congrArg WallTime.secs h, congrArg WallTime.nanos h⟩

theorem lexLt_iff_count (a b : NormalDuration) : LexLt a b ↔ a.1.count < b.1.count := by
  obtain ⟨a, -, halow, hahigh⟩ := a
  obtain ⟨b, -, hblow, hbhigh⟩ := b
  unfold LexLt Duration.count count
  dsimp only
  omega

theorem durationCmp_lt_iff (a b : Duration) : durationCmp a b = .lt ↔ LexLt a b := by
  rw [durationCmp, Ordering.then_eq_lt, LexLt, compare_lt_iff_lt, compare_lt_iff_lt,
    compare_eq_iff_eq]

theorem durationAdd_eq (a b : Duration) :
    durationAdd a b = splitNanos Duration.mk (wrap (a.count + b.count)) := by
  rw [durationAdd, durationToNanos, durationToNanos, toNanos_eq, toNanos_eq, add_wrap]
  rfl

theorem durationSub_eq (a b : Duration) :
    durationSub a b = splitNanos Duration.mk (wrap (a.count - b.count)) := by
  rw [durationSub, durationToNanos, durationToNanos, toNanos_eq, toNanos_eq, sub_wrap]
  rfl

theorem instantAddDuration_eq (t : Instant) (d : Duration) :
    instantAddDuration t d = splitNanos Instant.mk (wrap (t.count + d.count)) := by
  rw [instantAddDuration, durationToNanos, toNanos_eq, toNanos_eq, add_wrap]
  rfl

theorem walltimeAddDuration_eq (w : WallTime) (d : Duration) :
    walltimeAddDuration w d = splitNanos WallTime.mk (wrap (w.count + d.count)) := by
  rw [walltimeAddDuration, durationToNanos, toNanos_eq, toNanos_eq, add_wrap]
  rfl

theorem elapsedSince_eq (start stop : Instant) :
    elapsedSince start stop = splitNanos Duration.mk (wrap (stop.count - start.count)) := by
  rw [elapsedSince, elapsed_wrap]
  rfl

theorem durationLt_iff (a b : Duration) :
    durationLt a b = true ↔ wrap a.count < wrap b.count := by
  rw [durationLt, decide_eq_true_iff, durationToNanos, durationToNanos, toNanos_eq, toNanos_eq]
  rfl

theorem nanosToDuration_durationToNanos (a : NormalDuration) (h : InRange a.1.count) :
    nanosToDuration (durationToNanos a) = a := by
  have hcount : durationToNanos a = a.1.count := by
    rw [durationToNanos, toNanos_eq]
    exact wrap_eq_iff.2 h
  rw [hcount, nanosToDuration, splitNanos_eq Duration.mk h]
  exact a.2.ofCount_count Duration.mk

/-- The arithmetic is exact exactly where the counts fit. -/
theorem counted_iff (a b : NormalDuration) (t u : NormalInstant) (w : NormalWallTime) :
    Exact a b t u w ↔ Fits a b t u w := by
  have hsum := exactAt_iff duration_mk_inj (a.1.count + b.1.count)
  have hdifference := exactAt_iff duration_mk_inj (a.1.count - b.1.count)
  have hinstant := exactAt_iff instant_mk_inj (t.1.count + a.1.count)
  have hwalltime := exactAt_iff wallTime_mk_inj (w.1.count + a.1.count)
  have helapsed := exactAt_iff duration_mk_inj (u.1.count - t.1.count)
  have horder : (durationLt a b = true ↔ LexLt a b) ↔ Ordered a.1.count b.1.count := by
    rw [durationLt_iff, lexLt_iff_count]
    exact wrap_lt_wrap_iff _ _
  have hclamp : ∀ d : NormalDuration, durationToNanos d = clamp d.1.count ↔
      Saturates d.1.count := fun d => by
    rw [durationToNanos, toNanos_eq]
    exact wrap_eq_clamp_iff _
  rw [← durationAdd_eq] at hsum
  rw [← durationSub_eq] at hdifference
  rw [← instantAddDuration_eq] at hinstant
  rw [← walltimeAddDuration_eq] at hwalltime
  rw [← elapsedSince_eq] at helapsed
  constructor
  · intro h
    exact
      { sum := hsum.1 h.sum
        difference := hdifference.1 h.difference
        order := horder.1 h.order
        left := (hclamp a).1 h.left
        right := (hclamp b).1 h.right
        instant := hinstant.1 h.instant
        walltime := hwalltime.1 h.walltime
        elapsed := helapsed.1 h.elapsed }
  · intro h
    exact
      { sum := hsum.2 h.sum
        difference := hdifference.2 h.difference
        order := horder.2 h.order
        derived := durationCmp_lt_iff a b
        left := (hclamp a).2 h.left
        right := (hclamp b).2 h.right
        roundTrip := nanosToDuration_durationToNanos a
        instant := hinstant.2 h.instant
        walltime := hwalltime.2 h.walltime
        elapsed := helapsed.2 h.elapsed }

/-- A duration of 9223372037 seconds, some 292 years. -/
def farDuration : NormalDuration := ⟨⟨9223372037, 0⟩, by decide, by decide, by decide⟩

def origin : NormalInstant := ⟨⟨0, 0⟩, by decide, by decide, by decide⟩

def epoch : NormalWallTime := ⟨⟨0, 0⟩, by decide, by decide, by decide⟩

/-- Its count wraps to a negative one, where saturation would give the largest `Int`. -/
theorem not_exact_far : ¬ Exact farDuration farDuration origin origin epoch :=
  fun h => absurd h.left (by decide)

end Kaikai.Time
