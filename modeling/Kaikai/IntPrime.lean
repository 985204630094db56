import Mathlib.NumberTheory.LucasPrimality
import Mathlib.Tactic.NormNum.Prime
import Mathlib.Tactic.ReduceModChar
import Kaikai.Word64

namespace Kaikai.IntPrime

open Word64 (InRange)

/-- A test that ended: its answer, and the divisors it tried in order. -/
structure Tried where
  answer : Bool
  divisors : List Int
deriving DecidableEq

/-- Trial division from `i` in steps of six, for at most `fuel` rounds; `none` also where a remainder
traps. -/
def intIsPrimeLoop (n : Int) : Nat → Int → Option Tried
  | 0, _ => none
  | fuel + 1, i =>
      if Word64.mul i i > n then some ⟨true, []⟩
      else
        match Word64.mod n i with
        | none => none
        | some r =>
            if r = 0 then some ⟨false, [i]⟩
            else
              match Word64.mod n (Word64.add i 2) with
              | none => none
              | some r' =>
                  if r' = 0 then some ⟨false, [i, Word64.add i 2]⟩
                  else
                    (intIsPrimeLoop n fuel (Word64.add i 6)).map fun t =>
                      ⟨t.answer, i :: Word64.add i 2 :: t.divisors⟩

def isPrime (n : Int) (fuel : Nat) : Option Tried :=
  if n < 2 then some ⟨false, []⟩
  else if n < 4 then some ⟨true, []⟩
  else if n.tmod 2 = 0 then some ⟨false, [2]⟩
  else if n.tmod 3 = 0 then some ⟨false, [2, 3]⟩
  else (intIsPrimeLoop n fuel 5).map fun t => ⟨t.answer, 2 :: 3 :: t.divisors⟩

/-- The test ends with the right answer, and tries no divisor above the square root plus six. -/
def Decides (n : Int) : Prop :=
  ∃ fuel t, isPrime n fuel = some t ∧ (∀ d ∈ t.divisors, d ≤ Nat.sqrt n.toNat + 6) ∧
    (t.answer = true ↔ n.toNat.Prime)

/-- The last divisor whose square fits. -/
def lastDivisor : Nat := 3037000499

section Round

variable {n i : Nat}

theorem mod_natCast (hi : i ≠ 0) : Word64.mod n i = some ((n % i : Nat) : Int) := by
  have hneg : (n : Int) ≠ -2 ^ 63 := by
    have hn := Int.natCast_nonneg n
    omega
  rw [Word64.mod, if_neg (by exact_mod_cast hi), if_neg fun h => hneg h.1, ← Int.ofNat_tmod]

theorem add_natCast (k : Nat) (h : i + k < 2 ^ 63) : Word64.add i k = ((i + k : Nat) : Int) := by
  rw [Word64.add_eq (by omega) (by omega)]
  push_cast
  rfl

theorem mul_natCast (h : i ≤ lastDivisor) : Word64.mul i i = ((i * i : Nat) : Int) := by
  have hsquare : i * i ≤ lastDivisor * lastDivisor := Nat.mul_le_mul h h
  have hlast : ((lastDivisor * lastDivisor : Nat) : Int) < 2 ^ 63 := by decide
  have hnonneg : (0 : Int) ≤ ((i * i : Nat) : Int) := Int.natCast_nonneg _
  have hcast : ((i * i : Nat) : Int) ≤ ((lastDivisor * lastDivisor : Nat) : Int) := by
    exact_mod_cast hsquare
  rw [Word64.mul_eq]
  · push_cast
    rfl
  · push_cast at hnonneg
    omega
  · push_cast at hcast hlast
    omega

theorem loop_round (hi : 0 < i) (hlt : i + 6 < 2 ^ 63) (hsquare : ¬ Word64.mul i i > n) (fuel : Nat) :
    intIsPrimeLoop n (fuel + 1) i =
      if n % i = 0 then some ⟨false, [(i : Int)]⟩
      else if n % (i + 2) = 0 then some ⟨false, [(i : Int), ((i + 2 : Nat) : Int)]⟩
      else (intIsPrimeLoop n fuel ((i + 6 : Nat) : Int)).map fun t =>
        ⟨t.answer, (i : Int) :: ((i + 2 : Nat) : Int) :: t.divisors⟩ := by
  have htwo : Word64.add i 2 = ((i + 2 : Nat) : Int) := add_natCast 2 (by omega)
  have hsix : Word64.add i 6 = ((i + 6 : Nat) : Int) := add_natCast 6 (by omega)
  rw [intIsPrimeLoop, if_neg hsquare, htwo, hsix, mod_natCast (by omega), mod_natCast (by omega)]
  simp only [Int.natCast_eq_zero]

end Round

/-- No divisor below `i`. -/
def Clean (n i : Nat) : Prop := ∀ d, 2 ≤ d → d < i → ¬ d ∣ n

section Loop

variable {n i : Nat}

theorem Clean.next (h : Clean n i) (h2 : ¬ 2 ∣ n) (h3 : ¬ 3 ∣ n) (hmod : i % 6 = 5)
    (hi : ¬ i ∣ n) (hi2 : ¬ i + 2 ∣ n) : Clean n (i + 6) := by
  intro d hd hlt hdvd
  by_cases hdi : d < i
  · exact h d hd hdi hdvd
  · obtain ⟨k, rfl⟩ := Nat.exists_eq_add_of_le (not_lt.1 hdi)
    have heven : ∀ m, m % 2 = 0 → ¬ m ∣ n := fun m hm hmn =>
      h2 ((Nat.dvd_of_mod_eq_zero hm).trans hmn)
    have hthird : ∀ m, m % 3 = 0 → ¬ m ∣ n := fun m hm hmn =>
      h3 ((Nat.dvd_of_mod_eq_zero hm).trans hmn)
    obtain rfl | rfl | rfl | rfl | rfl | rfl : k = 0 ∨ k = 1 ∨ k = 2 ∨ k = 3 ∨ k = 4 ∨ k = 5 := by omega
    · exact hi hdvd
    · exact heven _ (by omega) hdvd
    · exact hi2 hdvd
    · exact heven _ (by omega) hdvd
    · exact hthird _ (by omega) hdvd
    · exact heven _ (by omega) hdvd

theorem Clean.prime (h : Clean n i) (hn : 2 ≤ n) (hsquare : n < i * i) : n.Prime := by
  rw [Nat.prime_def_le_sqrt]
  refine ⟨hn, fun d hd hle => h d hd ?_⟩
  exact lt_of_le_of_lt hle (Nat.sqrt_lt.2 hsquare)

theorem Clean.le_last (h : Clean n i) (hn : 2 ≤ n) (hlt : n < 2 ^ 63) (hprime : ¬ n.Prime) :
    i ≤ lastDivisor := by
  by_contra hgt
  have hmin : (n.minFac) ^ 2 ≤ n := Nat.minFac_sq_le_self (by omega) hprime
  have hlast : n.minFac ≤ lastDivisor := by
    by_contra hbig
    have hpow : (lastDivisor + 1) ^ 2 ≤ n.minFac ^ 2 := Nat.pow_le_pow_left (not_le.1 hbig) 2
    have hover : 2 ^ 63 < (lastDivisor + 1) ^ 2 := by decide
    omega
  exact h n.minFac (Nat.minFac_prime (by omega)).two_le (by omega) n.minFac_dvd

theorem not_prime_of_dvd {d : Nat} (hd : 2 ≤ d) (hlt : d < n) (h : d ∣ n) : ¬ n.Prime :=
  fun hp => ((Nat.dvd_prime hp).1 h).elim (by omega) (by omega)

theorem loop_decides (h2 : ¬ 2 ∣ n) (h3 : ¬ 3 ∣ n) (hn : 2 ≤ n) (hlt : n < 2 ^ 63)
    (hgood : n.Prime → n < lastDivisor * lastDivisor) (hi : 5 ≤ i) (hmod : i % 6 = 5)
    (hclean : Clean n i) (hle : i ≤ lastDivisor) :
    ∃ fuel t, intIsPrimeLoop n fuel i = some t ∧ (∀ d ∈ t.divisors, d ≤ Nat.sqrt n + 6) ∧
      (t.answer = true ↔ n.Prime) := by
  induction hk : lastDivisor - i using Nat.strong_induction_on generalizing i with
  | _ k ih =>
      have hbig : i + 6 < 2 ^ 63 := lt_of_le_of_lt (Nat.add_le_add_right hle 6) (by decide)
      by_cases hsquare : n < i * i
      · refine ⟨1, ⟨true, []⟩, ?_, fun d hd => absurd hd List.not_mem_nil,
          iff_of_true rfl (hclean.prime hn hsquare)⟩
        rw [intIsPrimeLoop, if_pos]
        rw [mul_natCast hle]
        exact_mod_cast hsquare
      · have hroot : i ≤ Nat.sqrt n := Nat.le_sqrt.2 (not_lt.1 hsquare)
        have hround := loop_round (n := n) (by omega) hbig (by
          rw [mul_natCast hle]
          exact_mod_cast hsquare)
        have hfive : 5 * i ≤ i * i := Nat.mul_le_mul_right i hi
        by_cases hdvd : i ∣ n
        · refine ⟨1, ⟨false, [(i : Int)]⟩, ?_, ?_, ?_⟩
          · rw [hround, if_pos (Nat.mod_eq_zero_of_dvd hdvd)]
          · intro d hd
            rw [List.mem_singleton.1 hd]
            omega
          · exact iff_of_false Bool.false_ne_true (not_prime_of_dvd (by omega) (by omega) hdvd)
        · have hmodi : n % i ≠ 0 := fun h => hdvd (Nat.dvd_of_mod_eq_zero h)
          by_cases hdvd2 : i + 2 ∣ n
          · refine ⟨1, ⟨false, [(i : Int), ((i + 2 : Nat) : Int)]⟩, ?_, ?_, ?_⟩
            · rw [hround, if_neg hmodi, if_pos (Nat.mod_eq_zero_of_dvd hdvd2)]
            · intro d hd
              obtain rfl | hd := List.mem_cons.1 hd
              · omega
              · rw [List.mem_singleton.1 hd]
                omega
            · exact iff_of_false Bool.false_ne_true (not_prime_of_dvd (by omega) (by omega) hdvd2)
          · have hmodi2 : n % (i + 2) ≠ 0 := fun h => hdvd2 (Nat.dvd_of_mod_eq_zero h)
            have hnext := hclean.next h2 h3 hmod hdvd hdvd2
            -- the next square fits: the prime is too small to get here, any other has a divisor
            have hfits : i + 6 ≤ lastDivisor := by
              by_cases hp : n.Prime
              · by_contra hgt
                have hsix : lastDivisor % 6 = 5 := by decide
                have heq : i = lastDivisor := by omega
                have hlast := hgood hp
                rw [heq] at hsquare
                exact hsquare hlast
              · exact hnext.le_last hn hlt hp
            obtain ⟨fuel, t, ht, hbound, hans⟩ := ih (lastDivisor - (i + 6)) (by omega) (by omega)
              (by omega) hnext hfits rfl
            refine ⟨fuel + 1, ⟨t.answer, (i : Int) :: ((i + 2 : Nat) : Int) :: t.divisors⟩, ?_, ?_,
              hans⟩
            · rw [hround, if_neg hmodi, if_neg hmodi2, ht, Option.map_some]
            · intro d hd
              obtain rfl | hd := List.mem_cons.1 hd
              · omega
              · obtain rfl | hd := List.mem_cons.1 hd
                · omega
                · exact hbound d hd

theorem loop_overruns (hp : n.Prime) (hlast : lastDivisor * lastDivisor < n)
    (hi : 5 ≤ i) (hmod : i % 6 = 5) (hle : i ≤ lastDivisor + 6) {fuel : Nat} {t : Tried}
    (h : intIsPrimeLoop n fuel i = some t) : ((lastDivisor + 8 : Nat) : Int) ∈ t.divisors := by
  have hsix : lastDivisor % 6 = 5 := by decide
  induction fuel generalizing i t with
  | zero => cases h
  | succ fuel ih =>
      have hbig : i + 6 < 2 ^ 63 :=
        lt_of_le_of_lt (Nat.add_le_add_right hle 6) (by decide)
      have hsquare : ¬ Word64.mul i i > n := by
        by_cases hfit : i ≤ lastDivisor
        · rw [mul_natCast hfit]
          have hii : i * i ≤ lastDivisor * lastDivisor := Nat.mul_le_mul hfit hfit
          have hcast : ((i * i : Nat) : Int) ≤ n := by exact_mod_cast hii.trans hlast.le
          exact not_lt.2 hcast
        · -- the first square that does not fit wraps below zero
          have heq : i = lastDivisor + 6 := by omega
          have hnonneg := Int.natCast_nonneg n
          have hwrap : Word64.mul ((lastDivisor + 6 : Nat) : Int) ((lastDivisor + 6 : Nat) : Int) < 0 := by
            decide
          rw [heq]
          omega
      have hsmall : lastDivisor + 8 < n := lt_trans (by decide) hlast
      have hprime : ∀ d, 2 ≤ d → d < n → n % d ≠ 0 := fun d hd hdn h =>
        not_prime_of_dvd hd hdn (Nat.dvd_of_mod_eq_zero h) hp
      rw [loop_round (by omega) hbig hsquare, if_neg (hprime i (by omega) (by omega)),
        if_neg (hprime (i + 2) (by omega) (by omega)), Option.map_eq_some_iff] at h
      obtain ⟨t', ht', rfl⟩ := h
      by_cases hend : i = lastDivisor + 6
      · subst hend
        exact List.mem_cons_of_mem _ List.mem_cons_self
      · exact List.mem_cons_of_mem _ (List.mem_cons_of_mem _ (ih (by omega) (by omega) (by omega) ht'))

end Loop

theorem isPrime_big {n : Nat} (hn : 4 ≤ n) (fuel : Nat) : isPrime n fuel =
    if n % 2 = 0 then some ⟨false, [2]⟩
    else if n % 3 = 0 then some ⟨false, [2, 3]⟩
    else (intIsPrimeLoop n fuel (5 : Nat)).map fun t => ⟨t.answer, 2 :: 3 :: t.divisors⟩ := by
  have htwo : (n : Int).tmod 2 = ((n % 2 : Nat) : Int) := (Int.ofNat_tmod n 2).symm
  have hthree : (n : Int).tmod 3 = ((n % 3 : Nat) : Int) := (Int.ofNat_tmod n 3).symm
  rw [isPrime, if_neg (by omega), if_neg (by omega), htwo, hthree]
  simp only [Int.natCast_eq_zero, Nat.cast_ofNat]

theorem decides_small {n : Int} {t : Tried} (h : ∀ fuel, isPrime n fuel = some t)
    (hd : ∀ d ∈ t.divisors, d ≤ Nat.sqrt n.toNat + 6) (ha : t.answer = true ↔ n.toNat.Prime) :
    Decides n :=
  ⟨0, t, h 0, hd, ha⟩

theorem decides_of_fits {n : Nat} (hlt : n < 2 ^ 63)
    (hgood : n.Prime → n < lastDivisor * lastDivisor) : Decides n := by
  by_cases hsmall : n < 4
  · have hshort : ∀ d ∈ ([] : List Int), d ≤ Nat.sqrt (n : Int).toNat + 6 :=
      fun d hd => absurd hd List.not_mem_nil
    by_cases htwo : n < 2
    · refine decides_small (fun fuel => by rw [isPrime, if_pos (by omega)]) hshort ?_
      exact iff_of_false Bool.false_ne_true fun hp => absurd hp.two_le (by omega)
    · refine decides_small (fun fuel => by rw [isPrime, if_neg (by omega), if_pos (by omega)]) hshort ?_
      obtain rfl | rfl : n = 2 ∨ n = 3 := by omega
      · exact iff_of_true rfl Nat.prime_two
      · exact iff_of_true rfl Nat.prime_three
  · have hbig := isPrime_big (not_lt.1 hsmall)
    by_cases h2 : 2 ∣ n
    · refine decides_small (fun fuel => by rw [hbig, if_pos (Nat.mod_eq_zero_of_dvd h2)]) ?_ ?_
      · intro d hd
        rw [List.mem_singleton.1 hd]
        omega
      · exact iff_of_false Bool.false_ne_true (not_prime_of_dvd le_rfl (by omega) h2)
    · have hmod2 : n % 2 ≠ 0 := fun h => h2 (Nat.dvd_of_mod_eq_zero h)
      by_cases h3 : 3 ∣ n
      · refine decides_small
          (fun fuel => by rw [hbig, if_neg hmod2, if_pos (Nat.mod_eq_zero_of_dvd h3)]) ?_ ?_
        · intro d hd
          obtain rfl | hd := List.mem_cons.1 hd
          · omega
          · rw [List.mem_singleton.1 hd]
            omega
        · exact iff_of_false Bool.false_ne_true (not_prime_of_dvd (by omega) (by omega) h3)
      · have hmod3 : n % 3 ≠ 0 := fun h => h3 (Nat.dvd_of_mod_eq_zero h)
        have hclean : Clean n 5 := by
          intro d hd hlt5 hdvd
          obtain rfl | rfl | rfl : d = 2 ∨ d = 3 ∨ d = 4 := by omega
          · exact h2 hdvd
          · exact h3 hdvd
          · exact h2 ((Nat.dvd_of_mod_eq_zero rfl).trans hdvd)
        obtain ⟨fuel, t, ht, hbound, hans⟩ :=
          loop_decides h2 h3 (by omega) hlt hgood le_rfl rfl hclean (by decide)
        refine ⟨fuel, ⟨t.answer, 2 :: 3 :: t.divisors⟩, ?_, ?_, hans⟩
        · rw [hbig, if_neg hmod2, if_neg hmod3, ht, Option.map_some]
        · intro d hd
          obtain rfl | hd := List.mem_cons.1 hd
          · omega
          · obtain rfl | hd := List.mem_cons.1 hd
            · omega
            · exact hbound d hd

theorem not_decides_of_overruns {n : Nat} (hlt : n < 2 ^ 63) (hp : n.Prime)
    (hlast : lastDivisor * lastDivisor < n) : ¬ Decides n := by
  rintro ⟨fuel, t, ht, hbound, -⟩
  have hfour : 4 ≤ n := (by decide : 4 ≤ lastDivisor * lastDivisor).trans hlast.le
  have hprime : ∀ d, 2 ≤ d → d < 4 → n % d ≠ 0 := fun d hd hd4 h =>
    not_prime_of_dvd hd (by
      have hmany : 4 < lastDivisor * lastDivisor := by decide
      omega) (Nat.dvd_of_mod_eq_zero h) hp
  rw [isPrime_big hfour, if_neg (hprime 2 le_rfl (by omega)),
    if_neg (hprime 3 (by omega) (by omega)), Option.map_eq_some_iff] at ht
  obtain ⟨t', ht', rfl⟩ := ht
  have hmem := loop_overruns hp hlast le_rfl rfl (by decide) ht'
  have hover := hbound _ (List.mem_cons_of_mem _ (List.mem_cons_of_mem _ hmem))
  have hroot : Nat.sqrt n < lastDivisor + 1 := Nat.sqrt_lt.2 (lt_trans hlt (by decide))
  rw [Int.toNat_natCast] at hover
  omega

/-- The test decides every number but the primes above the last square that fits. -/
theorem isPrime_decides_iff (n : Int) (hn : InRange n) :
    Decides n ↔ ¬ (n.toNat.Prime ∧ (lastDivisor * lastDivisor : Nat) < n) := by
  obtain ⟨-, hhigh⟩ := hn
  by_cases hneg : n < 0
  · have hzero : n.toNat = 0 := Int.toNat_of_nonpos hneg.le
    refine iff_of_true ?_ fun h => absurd h.1 (by rw [hzero]; exact Nat.not_prime_zero)
    refine decides_small (t := ⟨false, []⟩) (fun fuel => by rw [isPrime, if_pos (by omega)])
      (fun d hd => absurd hd List.not_mem_nil) ?_
    rw [hzero]
    exact iff_of_false Bool.false_ne_true Nat.not_prime_zero
  · obtain ⟨m, rfl⟩ := Int.eq_ofNat_of_zero_le (not_lt.1 hneg)
    rw [Int.toNat_natCast, Nat.cast_lt]
    have hlt : m < 2 ^ 63 := by exact_mod_cast hhigh
    constructor
    · exact fun h hbad => not_decides_of_overruns hlt hbad.1 hbad.2 h
    · intro h
      refine decides_of_fits hlt fun hp => lt_of_le_of_ne (not_lt.1 fun hlast => h ⟨hp, hlast⟩) ?_
      rintro rfl
      exact Nat.not_prime_mul (by decide) (by decide) hp

theorem isPrime_decides_97 : Decides 97 ↔ ¬ ((97 : Int).toNat.Prime ∧
    (lastDivisor * lastDivisor : Nat) < (97 : Int)) :=
  isPrime_decides_iff 97 (by decide)

theorem eq_of_dvd_overrun_pred {q : Nat} (hq : q.Prime) (h : q ∣ 9223372034598240257 - 1) :
    q = 2 ∨ q = 43 ∨ q = 151 ∨ q = 1193 ∨ q = 3301 := by
  have hprod : q ∣ 2 ^ 23 * 43 ^ 2 * 151 * 1193 * 3301 := h
  have hpow : ∀ {p : Nat} (k : Nat), p.Prime → q ∣ p ^ k → q = p := fun k hp hdvd =>
    (Nat.prime_dvd_prime_iff_eq hq hp).1 (hq.dvd_of_dvd_pow hdvd)
  rw [hq.dvd_mul, hq.dvd_mul, hq.dvd_mul, hq.dvd_mul] at hprod
  obtain (((h2 | h43) | h151) | h1193) | h3301 := hprod
  · exact .inl (hpow 23 Nat.prime_two h2)
  · exact .inr (.inl (hpow 2 (by norm_num) h43))
  · exact .inr (.inr (.inl (hpow 1 (by norm_num) (by rwa [pow_one]))))
  · exact .inr (.inr (.inr (.inl (hpow 1 (by norm_num) (by rwa [pow_one])))))
  · exact .inr (.inr (.inr (.inr (hpow 1 (by norm_num) (by rwa [pow_one])))))

theorem prime_overrun : Nat.Prime 9223372034598240257 := by
  refine lucas_primality _ 3 ?_ ?_
  · norm_num
    reduce_mod_char
  · intro q hq hdvd
    obtain rfl | rfl | rfl | rfl | rfl := eq_of_dvd_overrun_pred hq hdvd
    all_goals
      norm_num
      reduce_mod_char
      decide

theorem not_decides_overrun : ¬ Decides 9223372034598240257 :=
  not_decides_of_overruns (by decide) prime_overrun (by decide)

end Kaikai.IntPrime
