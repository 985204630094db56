import Mathlib.Tactic.Linarith
import Mathlib.Tactic.Ring

/-!
Sixty-four bit two's complement arithmetic on mathematical integers. A machine
word is the integer it denotes; every operation is the exact one followed by
`wrap`, so a bound on the exact result removes the machine from a goal.
-/

namespace Kaikai.Word64

/-- The integer a 64-bit register holds after it is given `x`. -/
def wrap (x : Int) : Int := (x + 2 ^ 63) % 2 ^ 64 - 2 ^ 63

/-- The integers a register can hold. -/
def InRange (x : Int) : Prop := -2 ^ 63 ≤ x ∧ x < 2 ^ 63

instance (x : Int) : Decidable (InRange x) := by
  unfold InRange
  infer_instance

theorem wrap_eq_self {x : Int} (hlow : -2 ^ 63 ≤ x) (hhigh : x < 2 ^ 63) :
    wrap x = x := by
  unfold wrap
  omega

theorem wrap_inRange (x : Int) : InRange (wrap x) := by
  unfold InRange wrap
  omega

theorem exists_wrap_eq (x : Int) : ∃ k : Int, wrap x = x + k * 2 ^ 64 := by
  refine ⟨-((x + 2 ^ 63) / 2 ^ 64), ?_⟩
  unfold wrap
  omega

theorem wrap_wrap_add (x y : Int) : wrap (wrap x + y) = wrap (x + y) := by
  unfold wrap
  omega

def add (x y : Int) : Int := wrap (x + y)

def sub (x y : Int) : Int := wrap (x - y)

def mul (x y : Int) : Int := wrap (x * y)

/-- Division truncates toward zero and traps on a zero divisor and on the one
quotient that does not fit. -/
def div (x y : Int) : Option Int :=
  if y = 0 then none
  else if x = -2 ^ 63 ∧ y = -1 then none
  else some (x.tdiv y)

/-- The remainder has the sign of `x`, and traps where the quotient does. -/
def mod (x y : Int) : Option Int :=
  if y = 0 then none
  else if x = -2 ^ 63 ∧ y = -1 then none
  else some (x.tmod y)

/-- A value of the type `Int`. -/
abbrev Word := {n : Int // InRange n}

namespace Word

def ofInt (n : Int) : Word := ⟨wrap n, wrap_inRange n⟩

/-- A quotient or a remainder; `none` is a trap. -/
def ofDiv (f : Int → Int → Option Int) (a b : Word) : Option Word := (f a b).map ofInt

end Word

def bitAnd (x y : Int) : Int := (BitVec.ofInt 64 x &&& BitVec.ofInt 64 y).toInt

def bitOr (x y : Int) : Int := (BitVec.ofInt 64 x ||| BitVec.ofInt 64 y).toInt

/-- Shift counts are read modulo 64. -/
def bitShl (x n : Int) : Int := (BitVec.ofInt 64 x <<< (n % 64).toNat).toInt

/-- The logical right shift, filling with zeros. -/
def bitUshr (x n : Int) : Int := (BitVec.ofInt 64 x >>> (n % 64).toNat).toInt

theorem add_eq {x y : Int} (hlow : -2 ^ 63 ≤ x + y) (hhigh : x + y < 2 ^ 63) :
    add x y = x + y :=
  wrap_eq_self hlow hhigh

theorem sub_eq {x y : Int} (hlow : -2 ^ 63 ≤ x - y) (hhigh : x - y < 2 ^ 63) :
    sub x y = x - y :=
  wrap_eq_self hlow hhigh

theorem mul_eq {x y : Int} (hlow : -2 ^ 63 ≤ x * y) (hhigh : x * y < 2 ^ 63) :
    mul x y = x * y :=
  wrap_eq_self hlow hhigh

theorem div_eq {x y : Int} (hx : 0 ≤ x) (hy : 0 < y) : div x y = some (x / y) := by
  unfold div
  rw [if_neg (by omega), if_neg (by omega), Int.tdiv_eq_ediv_of_nonneg hx]

theorem toNat_ofInt {x : Int} (hlow : 0 ≤ x) (hhigh : x < 2 ^ 63) :
    (BitVec.ofInt 64 x).toNat = x.toNat := by
  rw [BitVec.toNat_ofInt]
  congr 1
  omega

theorem toInt_of_toNat_lt {v : BitVec 64} (h : v.toNat < 2 ^ 63) :
    v.toInt = v.toNat := by
  rw [BitVec.toInt_eq_toNat_cond, if_pos (by omega)]

theorem bitAnd_mask {x : Int} (k : Nat) (hlow : 0 ≤ x) (hhigh : x < 2 ^ 63)
    (hk : k < 63) : bitAnd x (2 ^ k - 1) = x % 2 ^ k := by
  have hpow : (2 : Int) ^ k < 2 ^ 63 := pow_lt_pow_right₀ (by norm_num) hk
  have hpos : (0 : Int) < 2 ^ k := by positivity
  have hmask : (BitVec.ofInt 64 (2 ^ k - 1)).toNat = 2 ^ k - 1 := by
    rw [toNat_ofInt (by omega) (by omega)]
    apply Int.ofNat.inj
    have hone : 1 ≤ 2 ^ k := Nat.one_le_two_pow
    change ((2 ^ k - 1 : Int).toNat : Int) = ((2 ^ k - 1 : Nat) : Int)
    rw [Int.toNat_of_nonneg (by omega), Nat.cast_sub hone]
    norm_num
  have hand : (BitVec.ofInt 64 x &&& BitVec.ofInt 64 (2 ^ k - 1)).toNat =
      x.toNat % 2 ^ k := by
    rw [BitVec.toNat_and, hmask, toNat_ofInt hlow hhigh, Nat.and_two_pow_sub_one_eq_mod]
  have hlt : x.toNat % 2 ^ k < 2 ^ 63 := (Nat.mod_le _ _).trans_lt (by omega)
  rw [bitAnd, toInt_of_toNat_lt (by rw [hand]; exact hlt), hand]
  push_cast
  rw [Int.toNat_of_nonneg hlow]

theorem bitUshr_eq {x : Int} (k : Nat) (hlow : 0 ≤ x) (hhigh : x < 2 ^ 63)
    (hk : k < 64) : bitUshr x k = x / 2 ^ k := by
  have hcount : ((k : Int) % 64).toNat = k := by omega
  have hshift : (BitVec.ofInt 64 x >>> k).toNat = x.toNat / 2 ^ k := by
    rw [BitVec.toNat_ushiftRight, toNat_ofInt hlow hhigh, Nat.shiftRight_eq_div_pow]
  have hlt : x.toNat / 2 ^ k < 2 ^ 63 := (Nat.div_le_self _ _).trans_lt (by omega)
  rw [bitUshr, hcount, toInt_of_toNat_lt (by rw [hshift]; exact hlt), hshift]
  push_cast
  rw [Int.toNat_of_nonneg hlow]

theorem bitShl_eq {x : Int} (k : Nat) (hlow : 0 ≤ x) (hhigh : x * 2 ^ k < 2 ^ 63)
    (hk : k < 64) : bitShl x k = x * 2 ^ k := by
  have hcount : ((k : Int) % 64).toNat = k := by omega
  have hpos : (1 : Int) ≤ 2 ^ k := one_le_pow₀ (by norm_num)
  have hx : x < 2 ^ 63 := lt_of_le_of_lt (le_mul_of_one_le_right hlow hpos) hhigh
  have hnat : x.toNat * 2 ^ k < 2 ^ 63 := by
    zify
    rw [Int.toNat_of_nonneg hlow]
    exact hhigh
  have hshift : (BitVec.ofInt 64 x <<< k).toNat = x.toNat * 2 ^ k := by
    rw [BitVec.toNat_shiftLeft, toNat_ofInt hlow hx, Nat.shiftLeft_eq,
      Nat.mod_eq_of_lt (by omega)]
  rw [bitShl, hcount, toInt_of_toNat_lt (by rw [hshift]; exact hnat), hshift]
  push_cast
  rw [Int.toNat_of_nonneg hlow]

theorem bitOr_eq_add {x y : Int} (k : Nat) (hx : 0 ≤ x) (hy : 0 ≤ y)
    (hylt : y < 2 ^ k) (hsum : x * 2 ^ k + y < 2 ^ 63) :
    bitOr (x * 2 ^ k) y = x * 2 ^ k + y := by
  have hxk : 0 ≤ x * 2 ^ k := by positivity
  have hor : (BitVec.ofInt 64 (x * 2 ^ k) ||| BitVec.ofInt 64 y).toNat =
      2 ^ k * x.toNat + y.toNat := by
    rw [BitVec.toNat_or, toNat_ofInt hxk (by omega), toNat_ofInt hy (by omega),
      show (x * 2 ^ k).toNat = 2 ^ k * x.toNat by
        zify
        rw [Int.toNat_of_nonneg hxk, Int.toNat_of_nonneg hx]
        ring,
      Nat.two_pow_add_eq_or_of_lt (by zify; rw [Int.toNat_of_nonneg hy]; exact hylt)]
  have hvalue : ((2 ^ k * x.toNat + y.toNat : Nat) : Int) = x * 2 ^ k + y := by
    push_cast
    rw [Int.toNat_of_nonneg hx, Int.toNat_of_nonneg hy]
    ring
  rw [bitOr, toInt_of_toNat_lt (by rw [hor]; zify; push_cast at hvalue; omega), hor, hvalue]

end Kaikai.Word64
