import Kaikai.BigIntReach

namespace Kaikai.BigIntRender

open Kaikai.BigIntArith
open Kaikai.BigIntDivision
open Kaikai.BigIntLimbs
open Kaikai.BigIntParse
open Kaikai.Decimal
open Kaikai.Positional
open Kaikai.Str

def renderSplitLimbs : Nat := 7000

/-- The columns below `i`, from the top, with the remainder `r` of those above. -/
def magDivmodLimbLoop (a : Mag) (d : Int) : Nat → Int → Mag → Option (Mag × Int)
  | 0, r, q => some (q, r)
  | i + 1, r, q => do
      let x ← arrayGet a i
      let cur := Word64.add (Word64.mul r limbRadix) x
      let digit ← Word64.div cur d
      let q' ← arraySet q i digit
      magDivmodLimbLoop a d i (Word64.sub cur (Word64.mul digit d)) q'

/-- Quotient and remainder by a single small divisor. -/
def magDivmodLimb (a : Mag) (d : Int) : Option (Mag × Int) :=
  let n := sigLen a
  magDivmodLimbLoop a d n 0 (arrayMake (if n ≤ 0 then 1 else n) 0)

def leafLoopFuel : Nat → Mag → List Str → Option Str
  | 0, _, _ => none
  | fuel + 1, mag, parts => do
      let qr ← magDivmodLimb mag chunkBase
      let digits := intToString qr.2
      let zeros := stringSlice (ascii "000000000") 0 (9 - digits.length)
      if sigLen qr.1 = 0 then some (digits :: parts).flatten
      else leafLoopFuel fuel qr.1 (zeros :: digits :: parts)

/-- Digits of a nonzero magnitude, nine at a time; every division takes bits. -/
def leafLoop (mag : Mag) (parts : List Str) : Option Str :=
  leafLoopFuel (32 * sigLen mag) mag parts

def leafText (x : Mag) (width : Nat) (pad : Bool) : Option Str := do
  let body ← (if sigLen x = 0 then some [] else leafLoop x [])
  some (if pad then (List.replicate (width - body.length) (ascii "0")).flatten ++ body else body)

/-- Limbs that hold any value below `10 ^ leaf_digits`. -/
def leafLimbs : Nat := leafDigits * 10381 / 100000 + 1

/-- Text of `x` below `10 ^ (leaf_digits * 2 ^ j)`, to that width when `pad`. A zero
high half leaves the low half unpadded. -/
def render (powers : List Mag) : Nat → Mag → Bool → Option Str
  | 0, x, pad => leafText x (leafDigits * 2 ^ 0) pad
  | j + 1, x, pad =>
      if sigLen x ≤ leafLimbs then leafText x (leafDigits * 2 ^ (j + 1)) pad
      else do
        let qr ← magDivmod x (pow10At powers j)
        let high ← render powers j qr.1 pad
        let low ← render powers j qr.2 (pad || decide (sigLen qr.1 > 0))
        some (high ++ low)

def renderLevelFrom (digits j : Nat) : Nat :=
  if leafDigits * 2 ^ j ≥ digits then j else renderLevelFrom digits (j + 1)
termination_by digits - leafDigits * 2 ^ j
decreasing_by
  have hpow : leafDigits * 2 ^ (j + 1) = 2 * (leafDigits * 2 ^ j) := by
    rw [pow_succ]
    ring
  have hpos : 0 < leafDigits * 2 ^ j := by unfold leafDigits; positivity
  omega

/-- The smallest `j` with `leaf_digits * 2 ^ j` at least the digit count of `n` limbs. -/
def renderLevel (n : Nat) : Nat := renderLevelFrom (n * 32 * 30103 / 100000 + 1) 0

def magToDecimal (mag : Mag) : Option Str :=
  let n := sigLen mag
  if n ≤ renderSplitLimbs then leafText mag 0 false
  else do
    let j := renderLevel n
    let powers ← pow10Chain j
    render powers j mag false

def isNegative (x : BigInt) : Bool := sign x < 0

def toString (x : BigInt) : Option Str :=
  if isZero x then some (ascii "0")
  else do
    let body ← magToDecimal (magnitude x)
    some (if isNegative x then ascii "-" ++ body else body)

theorem magDivmodLimbLoop_spec {a : Mag} {d : Int} (ha : LimbsOk a) (hd : 0 < d) (hd' : d < 2 ^ 31)
    (n : Nat) : ∀ {r : Int} {q : Mag}, n ≤ a.length → n ≤ q.length → LimbsOk q →
      (∀ j < n, q.getD j 0 = 0) → 0 ≤ r → r < d →
      ∃ q' r', magDivmodLimbLoop a d n r q = some (q', r') ∧ LimbsOk q' ∧ 0 ≤ r' ∧ r' < d ∧
        val q' * d + r' = val q * d + r * (2 ^ 32) ^ n + window (2 ^ 32) a 0 n := by
  induction n with
  | zero =>
      intro r q _ _ hq _ hr hrd
      refine ⟨q, r, rfl, hq, hr, hrd, ?_⟩
      rw [window_of_le _ _ le_rfl]
      ring
  | succ i ih =>
      intro r q hna hnq hq hzero hr hrd
      obtain ⟨hxlow, hxhigh⟩ := Digits.getD (r := 2 ^ 32) (by norm_num) ha i
      have hcur : Word64.add (Word64.mul r limbRadix) (a.getD i 0) = r * 2 ^ 32 + a.getD i 0 := by
        rw [limbRadix_eq, Word64.mul_eq (by omega) (by omega), Word64.add_eq (by omega) (by omega)]
      have hdivmod := Int.mul_ediv_add_emod (r * 2 ^ 32 + a.getD i 0) d
      have hmodlow := Int.emod_nonneg (r * 2 ^ 32 + a.getD i 0) hd.ne'
      have hmodhigh := Int.emod_lt_of_pos (r * 2 ^ 32 + a.getD i 0) hd
      have hdiglow : 0 ≤ (r * 2 ^ 32 + a.getD i 0) / d := Int.ediv_nonneg (by omega) hd.le
      have hdighigh : (r * 2 ^ 32 + a.getD i 0) / d < 2 ^ 32 := by
        rw [Int.ediv_lt_iff_lt_mul hd]
        have hle : r * 2 ^ 32 + 2 ^ 32 ≤ d * 2 ^ 32 := by omega
        linarith
      have hrem : Word64.sub (r * 2 ^ 32 + a.getD i 0)
          (Word64.mul ((r * 2 ^ 32 + a.getD i 0) / d) d) = (r * 2 ^ 32 + a.getD i 0) % d := by
        rw [Word64.mul_eq (by linarith) (by linarith), Word64.sub_eq (by linarith) (by linarith)]
        linarith
      have hset : arraySet q i ((r * 2 ^ 32 + a.getD i 0) / d) =
          some (q.set i ((r * 2 ^ 32 + a.getD i 0) / d)) := if_pos (by omega)
      have hzero' : ∀ j < i, (q.set i ((r * 2 ^ 32 + a.getD i 0) / d)).getD j 0 = 0 := by
        intro j hj
        rw [List.getD_eq_getElem?_getD, List.getElem?_set_ne (by omega),
          ← List.getD_eq_getElem?_getD]
        exact hzero j (by omega)
      obtain ⟨q', r', hloop, hq', hr', hrd', heq⟩ := ih (r := (r * 2 ^ 32 + a.getD i 0) % d)
        (by omega) (by rw [List.length_set]; omega) (hq.set i hdiglow hdighigh) hzero' hmodlow hmodhigh
      refine ⟨q', r', ?_, hq', hr', hrd', ?_⟩
      · rw [magDivmodLimbLoop, arrayGet_eq (by omega)]
        simp only [Option.bind_eq_bind, Option.bind_some, hcur]
        rw [Word64.div_eq (by omega) hd, Option.bind_some, hset, Option.bind_some, hrem]
        exact hloop
      · have hval : val (q.set i ((r * 2 ^ 32 + a.getD i 0) / d)) =
            val q + (2 ^ 32) ^ i * ((r * 2 ^ 32 + a.getD i 0) / d - 0) := by
          rw [← hzero i (Nat.lt_succ_self i)]
          exact value_set _ (by omega) _
        rw [heq, hval, window_succ _ (by omega), pow_succ ((2 : Int) ^ 32) i]
        generalize (r * 2 ^ 32 + a.getD i 0) / d = digit at hdivmod ⊢
        generalize (r * 2 ^ 32 + a.getD i 0) % d = rest at hdivmod ⊢
        linear_combination (2 ^ 32) ^ i * hdivmod

theorem magDivmodLimb_spec {a : Mag} {d : Int} (ha : LimbsOk a) (hd : 0 < d) (hd' : d < 2 ^ 31) :
    ∃ q r, magDivmodLimb a d = some (q, r) ∧ LimbsOk q ∧ val q = val a / d ∧ r = val a % d := by
  have hzero : ∀ n, val (arrayMake n 0) = 0 := value_replicate_zero _
  have hlen : sigLen a ≤ (arrayMake (if sigLen a ≤ 0 then 1 else sigLen a) 0).length := by
    rw [arrayMake, List.length_replicate]
    split_ifs <;> omega
  obtain ⟨q, r, hloop, hq, hr, hrd, heq⟩ := magDivmodLimbLoop_spec ha hd hd' (sigLen a)
    (sigLen_le_length a) hlen (Digits.replicate_zero (by norm_num) _)
    (fun j _ => by simp [arrayMake, List.getD_eq_getElem?_getD]) le_rfl hd
  rw [hzero, zero_mul, zero_mul, zero_add, zero_add, ← val_eq_window] at heq
  have hdivmod := (Int.ediv_emod_unique (a := val a) (q := val q) hd).2
    ⟨by rw [← heq, mul_comm, add_comm], hr, hrd⟩
  exact ⟨q, r, hloop, hq, hdivmod.1.symm, hdivmod.2.symm⟩

theorem stringSlice_zeros {n : Nat} (hn : n ≤ 9) :
    stringSlice (ascii "000000000") 0 (9 - n) = List.replicate (9 - n) 48 := by
  have hwidth : ((9 : Int) - n).toNat = 9 - n := by omega
  have hascii : ascii "000000000" = List.replicate 9 48 := by decide
  rw [stringSlice, hwidth, hascii, Int.toNat_zero, List.drop_zero, List.take_replicate,
    Nat.min_eq_left (Nat.sub_le 9 n)]

theorem chunk_text {r : Nat} (hr : r < 10 ^ 9) :
    stringSlice (ascii "000000000") 0 (9 - (intToString r).length) ++ intToString r =
      padded 9 r := by
  have hint : intToString r = numeral r := by
    rw [intToString, if_neg (by omega), Int.natAbs_natCast]
  rw [hint, numeral]
  split_ifs with hzero
  · subst hzero
    rw [padded, text_zero]
    decide
  · rw [stringSlice_zeros (length_text_le_iff.2 hr), padded]

theorem leafLoopFuel_spec (fuel : Nat) : ∀ {mag : Mag} {n : Nat} (parts : List Str), LimbsOk mag →
    val mag = n → 0 < n → n < 2 ^ fuel →
      leafLoopFuel fuel mag parts = some (text n ++ parts.flatten) := by
  induction fuel with
  | zero =>
      intro mag n parts _ _ hpos hlt
      rw [pow_zero] at hlt
      omega
  | succ fuel ih =>
      intro mag n parts hmag hval hpos hlt
      obtain ⟨q, r, hdiv, hq, hqval, rfl⟩ := magDivmodLimb_spec (d := chunkBase) hmag (by decide)
        (by decide)
      have hbase : chunkBase = (10 ^ 9 : Nat) := by decide
      have hr : val mag % chunkBase = (n % 10 ^ 9 : Nat) := by
        rw [hval, hbase, Int.natCast_emod]
      have hqn : val q = (n / 10 ^ 9 : Nat) := by
        rw [hqval, hval, hbase, Int.natCast_ediv]
      have hrlt : n % 10 ^ 9 < 10 ^ 9 := Nat.mod_lt _ (by decide)
      have hsplit : n = n / 10 ^ 9 * 10 ^ 9 + n % 10 ^ 9 := by
        rw [Nat.mul_comm]
        exact (Nat.div_add_mod n _).symm
      rw [leafLoopFuel, hdiv]
      simp only [Option.bind_eq_bind, Option.bind_some, hr]
      rcases Nat.eq_zero_or_pos (n / 10 ^ 9) with hzero | hqpos
      · have hsig : sigLen q = 0 := by
          rw [sigLen_eq_zero_iff hq, hqn, hzero]
          rfl
        have hrn : n % 10 ^ 9 = n := by omega
        rw [if_pos hsig, hrn, intToString, if_neg (by omega), Int.natAbs_natCast, numeral,
          if_neg hpos.ne', List.flatten_cons]
      · have hsig : ¬ sigLen q = 0 := by
          rw [sigLen_eq_zero_iff hq, hqn]
          omega
        rw [if_neg hsig, ih _ hq hqn hqpos ?_, List.flatten_cons, List.flatten_cons,
          ← List.append_assoc (stringSlice _ _ _), chunk_text hrlt, ← List.append_assoc,
          ← text_split hrlt hqpos, ← hsplit]
        rw [pow_succ] at hlt
        omega

theorem val_lt_sigLen {a : Mag} (ha : LimbsOk a) : val a < 2 ^ (32 * sigLen a) := by
  have h := (sigLen_le_iff ha (sigLen a)).1 le_rfl
  rwa [← pow_mul] at h

theorem leafText_spec {x : Mag} {n : Nat} (hx : LimbsOk x) (hval : val x = n) (width : Nat)
    (pad : Bool) : leafText x width pad = some (if pad then padded width n else text n) := by
  have hbody : (if sigLen x = 0 then some [] else leafLoop x []) = some (text n) := by
    split_ifs with hzero
    · rw [sigLen_eq_zero_iff hx, hval] at hzero
      rw [Int.natCast_eq_zero.1 hzero, text_zero]
    · rw [sigLen_eq_zero_iff hx, hval] at hzero
      have hlt := val_lt_sigLen hx
      rw [hval] at hlt
      rw [leafLoop, leafLoopFuel_spec _ [] hx hval (by omega) (by exact_mod_cast hlt)]
      simp
  rw [leafText, hbody]
  have hzeros : ascii "0" = [48] := by decide
  have hflat : ∀ k, (List.replicate k (ascii "0")).flatten = List.replicate k 48 := by
    intro k
    rw [hzeros, List.flatten_replicate_singleton]
  simp only [Option.bind_eq_bind, Option.bind_some, hflat, padded]

theorem render_spec {powers : List Mag} {levels : Nat} (hpowers : Powers powers leafDigits levels)
    (j : Nat) : ∀ {x : Mag} {n : Nat} (pad : Bool), LimbsOk x → val x = n →
      n < 10 ^ (leafDigits * 2 ^ j) → j ≤ levels →
      render powers j x pad =
        some (if pad then padded (leafDigits * 2 ^ j) n else text n) := by
  induction j with
  | zero => exact fun {x n} pad hx hval _ _ => leafText_spec hx hval _ pad
  | succ j ih =>
      intro x n pad hx hval hlt hj
      rw [render]
      by_cases hleaf : sigLen x ≤ leafLimbs
      · rw [if_pos hleaf]
        exact leafText_spec hx hval _ pad
      · rw [if_neg hleaf]
        obtain ⟨hpok, hpval⟩ := hpowers j
        have hpval := hpval hj
        have hdouble : leafDigits * 2 ^ (j + 1) = leafDigits * 2 ^ j + leafDigits * 2 ^ j := by
          rw [pow_succ]
          ring
        rw [hdouble] at hlt ⊢
        generalize leafDigits * 2 ^ j = width at hpval hlt ih ⊢
        have hpos : 0 < 10 ^ width := by positivity
        obtain ⟨q, r, hdiv, hq, hr, hqval, hrval⟩ := magDivmod_spec hx hpok (by rw [hpval]; positivity)
        have hqn : val q = (n / 10 ^ width : Nat) := by
          rw [hqval, hval, hpval]
          norm_cast
        have hrn : val r = (n % 10 ^ width : Nat) := by
          rw [hrval, hval, hpval]
          norm_cast
        have hqlt : n / 10 ^ width < 10 ^ width := by
          rw [Nat.div_lt_iff_lt_mul hpos, ← pow_add]
          exact hlt
        have hrlt : n % 10 ^ width < 10 ^ width := Nat.mod_lt _ hpos
        have hsplit : n = n / 10 ^ width * 10 ^ width + n % 10 ^ width := by
          rw [Nat.mul_comm]
          exact (Nat.div_add_mod n _).symm
        have hsig : sigLen q > 0 ↔ 0 < n / 10 ^ width := by
          rw [gt_iff_lt, Nat.pos_iff_ne_zero, Nat.pos_iff_ne_zero, Ne, Ne, sigLen_eq_zero_iff hq, hqn,
            Int.natCast_eq_zero]
        simp only [hdiv, Option.bind_eq_bind, Option.bind_some, ih pad hq hqn hqlt (by omega),
          ih _ hr hrn hrlt (by omega)]
        congr 1
        cases pad with
        | true =>
            simp only [Bool.true_or, if_true]
            conv_rhs => rw [hsplit]
            exact (padded_split hrlt).symm
        | false =>
            simp only [Bool.false_or, decide_eq_true_eq, hsig, Bool.false_eq_true, if_false]
            split_ifs with hqpos
            · conv_rhs => rw [hsplit]
              exact (text_split hrlt hqpos).symm
            · have hzero := Nat.eq_zero_of_not_pos hqpos
              rw [hzero, Nat.zero_mul, Nat.zero_add] at hsplit
              rw [hzero, text_zero, List.nil_append, ← hsplit]

theorem renderLevelFrom_spec {digits : Nat} (d : Nat) : ∀ j, digits - leafDigits * 2 ^ j = d →
    digits ≤ leafDigits * 2 ^ renderLevelFrom digits j := by
  induction d using Nat.strong_induction_on with
  | _ d ih =>
      intro j hd
      rw [renderLevelFrom]
      by_cases hdone : leafDigits * 2 ^ j ≥ digits
      · rw [if_pos hdone]
        exact hdone
      · rw [if_neg hdone]
        have hpow : leafDigits * 2 ^ (j + 1) = 2 * (leafDigits * 2 ^ j) := by
          rw [pow_succ]
          ring
        have hpos : 0 < leafDigits * 2 ^ j := by unfold leafDigits; positivity
        exact ih _ (by omega) (j + 1) rfl

theorem renderLevel_spec (n : Nat) :
    n * 32 * 30103 / 100000 + 1 ≤ leafDigits * 2 ^ renderLevel n := by
  rw [renderLevel]
  generalize n * 32 * 30103 / 100000 + 1 = digits
  exact renderLevelFrom_spec _ 0 rfl

theorem two_pow_le_ten_pow : (2 : Nat) ^ 13301 ≤ 10 ^ 4004 := by
  have htwo : (2 : Nat) ^ 13301 = 2 * (2 ^ 133) ^ 100 := by
    have hexp : 13301 = 133 * 100 + 1 := by norm_num
    rw [hexp, pow_succ', pow_mul]
  have hten : (10 : Nat) ^ 4004 = (10 ^ 44) ^ 91 := by
    have hexp : 4004 = 44 * 91 := by norm_num
    rw [hexp, pow_mul]
  rw [htwo, hten]
  norm_num

theorem two_pow_lt_ten_pow (n : Nat) : 2 ^ n ≤ 10 ^ (n * 30103 / 100000 + 1) := by
  have hexp : 4004 * n ≤ 13301 * (n * 30103 / 100000 + 1) := by omega
  apply le_of_pow_le_pow_left₀ (n := 13301) (by decide) (Nat.zero_le _)
  calc (2 ^ n) ^ 13301 = (2 ^ 13301) ^ n := by rw [← pow_mul, ← pow_mul, Nat.mul_comm]
    _ ≤ (10 ^ 4004) ^ n := Nat.pow_le_pow_left two_pow_le_ten_pow n
    _ = 10 ^ (4004 * n) := by rw [← pow_mul]
    _ ≤ 10 ^ (13301 * (n * 30103 / 100000 + 1)) := Nat.pow_le_pow_right (by decide) hexp
    _ = (10 ^ (n * 30103 / 100000 + 1)) ^ 13301 := by rw [← pow_mul, Nat.mul_comm]

theorem magToDecimal_spec {mag : Mag} {n : Nat} (hmag : LimbsOk mag) (hval : val mag = n) :
    magToDecimal mag = some (text n) := by
  simp only [magToDecimal]
  by_cases hshort : sigLen mag ≤ renderSplitLimbs
  · rw [if_pos hshort, leafText_spec hmag hval 0 false]
    rfl
  · rw [if_neg hshort]
    obtain ⟨powers, hchain, hpowers⟩ := pow10Chain_spec (renderLevel (sigLen mag))
    have hlt := val_lt_sigLen hmag
    have hbound : n < 10 ^ (leafDigits * 2 ^ renderLevel (sigLen mag)) := by
      calc n < 2 ^ (sigLen mag * 32) := by
            rw [hval, Nat.mul_comm] at hlt
            exact_mod_cast hlt
        _ ≤ 10 ^ (sigLen mag * 32 * 30103 / 100000 + 1) := two_pow_lt_ten_pow _
        _ ≤ _ := Nat.pow_le_pow_right (by decide) (renderLevel_spec (sigLen mag))
    rw [hchain, Option.bind_eq_bind, Option.bind_some]
    exact render_spec hpowers _ false hmag hval hbound le_rfl

/-- The base-10 numeral of an integer: a minus sign for a negative one. -/
def CanonicalInt (s : Str) (v : Int) : Prop :=
  if v < 0 then ∃ ds, s = 45 :: ds ∧ Canonical ds v.natAbs else Canonical s v.natAbs

/-- A text of an optional sign and one or more ASCII digits, and what it spells. -/
def Spells (s : Str) (v : Int) : Prop :=
  ∃ ds, ds ≠ [] ∧ AllDigits ds ∧
    ((s = ds ∧ v = digitsOf ds) ∨ (s = 43 :: ds ∧ v = digitsOf ds) ∨
      (s = 45 :: ds ∧ v = -(digitsOf ds : Int)))

theorem CanonicalInt.spells {s : Str} {v : Int} (h : CanonicalInt s v) : Spells s v := by
  rw [CanonicalInt] at h
  split_ifs at h with hneg
  · obtain ⟨ds, rfl, hds⟩ := h
    refine ⟨ds, hds.nonempty, hds.digits, .inr (.inr ⟨rfl, ?_⟩)⟩
    rw [hds.value]
    omega
  · refine ⟨s, h.nonempty, h.digits, .inl ⟨rfl, ?_⟩⟩
    rw [h.value]
    omega

theorem toString_spec {x : BigInt} (h : Wf x) :
    ∃ s, toString x = some s ∧ CanonicalInt s (value x) := by
  rw [toString]
  by_cases hzero : isZero x = true
  · rw [if_pos hzero]
    refine ⟨ascii "0", rfl, ?_⟩
    rw [(isZero_iff h).1 hzero]
    exact canonical_numeral 0
  · rw [if_neg hzero]
    have hx0 : value x ≠ 0 := fun hv => hzero ((isZero_iff h).2 hv)
    obtain ⟨hmag, hval⟩ := magnitude_spec h
    rw [Int.abs_eq_natAbs] at hval
    have hcanonical := canonical_text (Int.natAbs_ne_zero.2 hx0)
    have hneg : isNegative x = decide (value x < 0) := by
      rw [isNegative, sign_eq h]
      split_ifs <;> simp_all
    rw [magToDecimal_spec hmag hval, Option.bind_eq_bind, Option.bind_some, hneg]
    refine ⟨_, rfl, ?_⟩
    rw [CanonicalInt]
    by_cases hv : value x < 0
    · rw [if_pos hv, if_pos (decide_eq_true hv)]
      exact ⟨_, rfl, hcanonical⟩
    · rw [if_neg hv, if_neg (by simpa using hv)]
      exact hcanonical

theorem fromString_cons (b : UInt8) (t : Str) : fromString (b :: t) =
    if b = 45 then parseBody (b :: t) 1 (b :: t).length (Word64.sub 0 1)
    else if b = 43 then parseBody (b :: t) 1 (b :: t).length 1
    else parseBody (b :: t) 0 (b :: t).length 1 := by
  have hbyte : ∀ n : UInt8, b = n ↔ b.toNat = n.toNat := fun n => UInt8.toNat_inj.symm
  have hchar : charAt (b :: t) 0 = some (Char.ofNat b.toNat) := rfl
  have hminus : Char.ofNat b.toNat = '-' ↔ b = 45 := by
    rw [ofByte_eq_iff, hbyte]
    rfl
  have hplus : Char.ofNat b.toNat = '+' ↔ b = 43 := by
    rw [ofByte_eq_iff, hbyte]
    rfl
  rw [fromString]
  simp only [hchar, List.length_cons, Nat.succ_ne_zero, if_false]
  split_ifs with h1 h2
  · rw [hminus.2 h1]
    rfl
  · rw [hplus.2 h2]
    rfl
  · split
    · next heq => exact absurd (hminus.1 (Option.some.inj heq)) h1
    · next heq => exact absurd (hplus.1 (Option.some.inj heq)) h2
    · rfl

theorem not_sign_of_allDigits {b : UInt8} {t : Str} (h : AllDigits (b :: t)) : b ≠ 45 ∧ b ≠ 43 := by
  obtain ⟨hlow, -⟩ := (List.forall_mem_cons.1 h).1
  constructor
  · rintro rfl
    exact absurd hlow (by decide)
  · rintro rfl
    exact absurd hlow (by decide)

theorem spells_cons {b : UInt8} {t : Str} {v : Int} : Spells (b :: t) v ↔
    if b = 45 then t ≠ [] ∧ AllDigits t ∧ v = -(digitsOf t : Int)
    else if b = 43 then t ≠ [] ∧ AllDigits t ∧ v = digitsOf t
    else AllDigits (b :: t) ∧ v = digitsOf (b :: t) := by
  constructor
  · rintro ⟨ds, hne, hds, ⟨rfl, rfl⟩ | ⟨heq, rfl⟩ | ⟨heq, rfl⟩⟩
    · obtain ⟨h45, h43⟩ := not_sign_of_allDigits hds
      rw [if_neg h45, if_neg h43]
      exact ⟨hds, rfl⟩
    · obtain ⟨rfl, rfl⟩ := List.cons.inj heq
      rw [if_neg (by decide), if_pos rfl]
      exact ⟨hne, hds, rfl⟩
    · obtain ⟨rfl, rfl⟩ := List.cons.inj heq
      rw [if_pos rfl]
      exact ⟨hne, hds, rfl⟩
  · split_ifs with h45 h43
    · rintro ⟨hne, hds, rfl⟩
      exact ⟨t, hne, hds, .inr (.inr ⟨by rw [h45], rfl⟩)⟩
    · rintro ⟨hne, hds, rfl⟩
      exact ⟨t, hne, hds, .inr (.inl ⟨by rw [h43], rfl⟩)⟩
    · rintro ⟨hds, rfl⟩
      exact ⟨b :: t, List.cons_ne_nil b t, hds, .inl ⟨rfl, rfl⟩⟩

theorem fromString_spec (s : Str) : (fromString s = some none ∧ ∀ v, ¬ Spells s v) ∨
    ∃ y, fromString s = some (some y) ∧ Wf y ∧ ∀ v, Spells s v ↔ v = value y := by
  rcases s with _ | ⟨b, t⟩
  · refine .inl ⟨rfl, ?_⟩
    rintro v ⟨ds, hne, -, ⟨rfl, -⟩ | ⟨heq, -⟩ | ⟨heq, -⟩⟩
    · exact hne rfl
    · cases heq
    · cases heq
  · rw [fromString_cons]
    simp only [spells_cons]
    have hlen : 1 ≤ (b :: t).length := Nat.succ_le_succ (Nat.zero_le _)
    split_ifs with h45 h43
    · rcases parseBody_spec hlen (Word64.sub 0 1) with ⟨hrun, hnot⟩ | ⟨y, hrun, hy, hne, hds, hval⟩
      · exact .inl ⟨hrun, fun v hv => hnot ⟨hv.1, hv.2.1⟩⟩
      · rw [if_pos (by decide)] at hval
        refine .inr ⟨y, hrun, hy, fun v => ?_⟩
        rw [hval]
        exact ⟨fun h => h.2.2, fun h => ⟨hne, hds, h⟩⟩
    · rcases parseBody_spec hlen 1 with ⟨hrun, hnot⟩ | ⟨y, hrun, hy, hne, hds, hval⟩
      · exact .inl ⟨hrun, fun v hv => hnot ⟨hv.1, hv.2.1⟩⟩
      · rw [if_neg (by decide)] at hval
        refine .inr ⟨y, hrun, hy, fun v => ?_⟩
        rw [hval]
        exact ⟨fun h => h.2.2, fun h => ⟨hne, hds, h⟩⟩
    · rcases parseBody_spec (Nat.zero_le (b :: t).length) 1 with
        ⟨hrun, hnot⟩ | ⟨y, hrun, hy, -, hds, hval⟩
      · exact .inl ⟨hrun, fun v hv => hnot ⟨List.cons_ne_nil b t, hv.1⟩⟩
      · rw [if_neg (by decide)] at hval
        refine .inr ⟨y, hrun, hy, fun v => ?_⟩
        rw [hval]
        exact ⟨fun h => h.2, fun h => ⟨hds, h⟩⟩

/-- Texts of values are their numerals and read back as them, and a text is read
exactly when it spells an integer. -/
theorem decimal_roundtrip :
    (∀ x, Reached Op.Typed x → ∃ s, toString x = some s ∧ CanonicalInt s (value x) ∧
      ∃ y, fromString s = some (some y) ∧ value y = value x) ∧
    ∀ s, (∃ r, fromString s = some r) ∧
      ∀ v, (∃ y, fromString s = some (some y) ∧ value y = v) ↔ Spells s v := by
  constructor
  · intro x hx
    obtain ⟨s, hs, hcanonical⟩ := toString_spec (hx.wf fun _ h => h)
    have hspells := hcanonical.spells
    rcases fromString_spec s with ⟨-, hnot⟩ | ⟨y, hrun, -, hval⟩
    · exact absurd hspells (hnot _)
    · exact ⟨s, hs, hcanonical, y, hrun, ((hval _).1 hspells).symm⟩
  · intro s
    rcases fromString_spec s with ⟨hrun, hnot⟩ | ⟨y, hrun, -, hval⟩
    · refine ⟨⟨none, hrun⟩, fun v => ⟨?_, fun h => absurd h (hnot v)⟩⟩
      rintro ⟨y, hy, -⟩
      rw [hrun] at hy
      cases hy
    · refine ⟨⟨some y, hrun⟩, fun v => ⟨?_, fun h => ⟨y, hrun, ((hval v).1 h).symm⟩⟩⟩
      rintro ⟨z, hz, rfl⟩
      rw [hrun] at hz
      cases hz
      exact (hval _).2 rfl

theorem decimal_roundtrip_minInt : ∃ s, toString (fromInt (-2 ^ 63)) = some s ∧
    CanonicalInt s (value (fromInt (-2 ^ 63))) ∧
      ∃ y, fromString s = some (some y) ∧ value y = value (fromInt (-2 ^ 63)) :=
  decimal_roundtrip.1 _ (@Reached.step _ (.fromInt (-2 ^ 63)) _ _ (by unfold Op.Typed; decide)
    (by simp [Op.operands]) rfl List.mem_cons_self)

end Kaikai.BigIntRender
