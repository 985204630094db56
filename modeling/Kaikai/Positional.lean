import Mathlib.Data.List.GetD
import Mathlib.Tactic.Linarith
import Mathlib.Tactic.LinearCombination
import Mathlib.Tactic.Positivity
import Mathlib.Tactic.Ring

/-!
Positional notation in an arbitrary base, least significant digit first. A
loop over digits is described by the value of the window it has not read and
by the change that one write makes to the value of its output.
-/

namespace Kaikai.Positional

/-- The number a digit list denotes in base `r`. -/
def value (r : Int) : List Int → Int
  | [] => 0
  | d :: ds => d + r * value r ds

/-- Every digit is one of the base. -/
def Digits (r : Int) (ds : List Int) : Prop := ∀ d ∈ ds, 0 ≤ d ∧ d < r

theorem Digits.head {r d : Int} {ds : List Int} (h : Digits r (d :: ds)) :
    0 ≤ d ∧ d < r :=
  h d (by simp)

theorem Digits.tail {r d : Int} {ds : List Int} (h : Digits r (d :: ds)) :
    Digits r ds := fun x hx => h x (by simp [hx])

theorem Digits.take {r : Int} {ds : List Int} (h : Digits r ds) (n : Nat) :
    Digits r (ds.take n) := fun x hx => h x (List.mem_of_mem_take hx)

theorem Digits.drop {r : Int} {ds : List Int} (h : Digits r ds) (n : Nat) :
    Digits r (ds.drop n) := fun x hx => h x (List.mem_of_mem_drop hx)

theorem Digits.set {r v : Int} {ds : List Int} (h : Digits r ds) (i : Nat)
    (hlow : 0 ≤ v) (hhigh : v < r) : Digits r (ds.set i v) := by
  intro x hx
  rcases List.mem_or_eq_of_mem_set hx with hx | rfl
  · exact h x hx
  · exact ⟨hlow, hhigh⟩

theorem Digits.replicate_zero {r : Int} (hr : 0 < r) (n : Nat) :
    Digits r (List.replicate n 0) := by
  intro x hx
  rw [(List.mem_replicate.mp hx).2]
  exact ⟨le_refl 0, hr⟩

theorem Digits.getD {r : Int} {ds : List Int} (hr : 0 < r) (h : Digits r ds) (i : Nat) :
    0 ≤ ds.getD i 0 ∧ ds.getD i 0 < r := by
  by_cases hi : i < ds.length
  · rw [List.getD_eq_getElem _ _ hi]
    exact h _ (List.getElem_mem hi)
  · rw [List.getD_eq_default _ _ (by omega)]
    exact ⟨le_refl 0, hr⟩

@[simp] theorem value_nil (r : Int) : value r [] = 0 := rfl

@[simp] theorem value_cons (r d : Int) (ds : List Int) :
    value r (d :: ds) = d + r * value r ds := rfl

theorem value_append (r : Int) (xs ys : List Int) :
    value r (xs ++ ys) = value r xs + r ^ xs.length * value r ys := by
  induction xs with
  | nil => simp
  | cons x xs ih =>
      rw [List.cons_append, value_cons, ih, value_cons, List.length_cons]
      ring

@[simp] theorem value_replicate_zero (r : Int) (n : Nat) :
    value r (List.replicate n 0) = 0 := by
  induction n with
  | zero => rfl
  | succ n ih => simp [List.replicate_succ, ih]

theorem value_nonneg {r : Int} (hr : 0 < r) {ds : List Int} (h : Digits r ds) :
    0 ≤ value r ds := by
  induction ds with
  | nil => rfl
  | cons d ds ih =>
      have hd := h.head
      have hrest := mul_nonneg hr.le (ih h.tail)
      rw [value_cons]
      omega

theorem value_lt {r : Int} (hr : 0 < r) {ds : List Int} (h : Digits r ds) :
    value r ds < r ^ ds.length := by
  induction ds with
  | nil => simp
  | cons d ds ih =>
      have hd := h.head
      have hrest : value r ds + 1 ≤ r ^ ds.length := ih h.tail
      calc
        value r (d :: ds) < r + r * value r ds := by rw [value_cons]; omega
        _ = r * (value r ds + 1) := by ring
        _ ≤ r * r ^ ds.length := mul_le_mul_of_nonneg_left hrest hr.le
        _ = r ^ (d :: ds).length := by rw [List.length_cons, pow_succ, mul_comm]

theorem value_set (r : Int) {ds : List Int} {i : Nat} (hi : i < ds.length) (v : Int) :
    value r (ds.set i v) = value r ds + r ^ i * (v - ds.getD i 0) := by
  induction ds generalizing i with
  | nil => simp at hi
  | cons d ds ih =>
      cases i with
      | zero =>
          rw [List.set_cons_zero, value_cons, value_cons, List.getD_cons_zero]
          ring
      | succ i =>
          have hi' : i < ds.length := by simpa using hi
          rw [List.set_cons_succ, value_cons, ih hi', value_cons, List.getD_cons_succ]
          ring

/-- The value of the digits from index `i` up to index `n`. -/
def window (r : Int) (ds : List Int) (i n : Nat) : Int := value r ((ds.take n).drop i)

/-- The digit at index `i`, zero from index `n` on. -/
def digitAt (ds : List Int) (n i : Nat) : Int := if i < n then ds.getD i 0 else 0

theorem window_of_le (r : Int) (ds : List Int) {i n : Nat} (h : n ≤ i) :
    window r ds i n = 0 := by
  rw [window, List.drop_eq_nil_of_le (by simp; omega), value_nil]

theorem window_step (r : Int) {ds : List Int} {n : Nat} (hn : n ≤ ds.length) (i : Nat) :
    window r ds i n = digitAt ds n i + r * window r ds (i + 1) n := by
  by_cases hi : i < n
  · have hlen : i < (ds.take n).length := by simp; omega
    rw [window, List.drop_eq_getElem_cons hlen, value_cons, digitAt, if_pos hi, window,
      List.getElem_take, List.getD_eq_getElem]
  · rw [window_of_le r ds (by omega), window_of_le r ds (by omega), digitAt, if_neg hi]
    ring

@[simp] theorem window_full (r : Int) (ds : List Int) :
    window r ds 0 ds.length = value r ds := by simp [window]

theorem digitAt_bounds {r : Int} (hr : 0 < r) {ds : List Int} (h : Digits r ds)
    (n i : Nat) : 0 ≤ digitAt ds n i ∧ digitAt ds n i < r := by
  unfold digitAt
  split
  · exact h.getD hr i
  · exact ⟨le_refl 0, hr⟩

theorem window_nonneg {r : Int} (hr : 0 < r) {ds : List Int} (h : Digits r ds)
    (i n : Nat) : 0 ≤ window r ds i n :=
  value_nonneg hr ((h.take n).drop i)

theorem window_lt {r : Int} (hr : 0 < r) {ds : List Int} (h : Digits r ds) (i n : Nat) :
    window r ds i n < r ^ (n - i) := by
  have hlt := value_lt hr ((h.take n).drop i)
  have hlen : ((ds.take n).drop i).length ≤ n - i := by simp; omega
  exact hlt.trans_le (pow_le_pow_right₀ (by omega) hlen)

theorem window_split (r : Int) {ds : List Int} {i j n : Nat} (hij : i ≤ j) (hjn : j ≤ n)
    (hn : n ≤ ds.length) :
    window r ds i n = window r ds i j + r ^ (j - i) * window r ds j n := by
  have hsplit : (ds.take n).drop i = (ds.take j).drop i ++ (ds.take n).drop j := by
    have htake : ds.take n = ds.take j ++ (ds.take n).drop j := by
      conv_lhs => rw [← List.take_append_drop j (ds.take n)]
      rw [List.take_take, min_eq_left hjn]
    conv_lhs => rw [htake]
    rw [List.drop_append_of_le_length (by simp; omega)]
  have hlen : ((ds.take j).drop i).length = j - i := by simp; omega
  rw [window, hsplit, value_append, hlen]
  rfl

theorem window_succ {r : Int} (a : List Int) {n : Nat} (hn : n < a.length) :
    window r a 0 (n + 1) = window r a 0 n + r ^ n * a.getD n 0 := by
  rw [window_split (j := n) _ (Nat.zero_le n) (Nat.le_succ n) hn, Nat.sub_zero]
  congr 2
  rw [window_step _ hn, digitAt, if_pos (Nat.lt_succ_self n), window_of_le _ _ le_rfl]
  ring

theorem value_eq_window (r : Int) {ds : List Int} {n : Nat} (hn : n ≤ ds.length)
    (hzero : ∀ j, n ≤ j → ds.getD j 0 = 0) : value r ds = window r ds 0 n := by
  have htail : window r ds n ds.length = 0 := by
    have hall : ds.drop n = List.replicate (ds.drop n).length 0 := by
      apply List.eq_replicate_of_mem
      intro x hx
      obtain ⟨k, hk, rfl⟩ := List.mem_iff_getElem.mp hx
      have hk' : n + k < ds.length := by simp at hk; omega
      have h0 := hzero (n + k) (by omega)
      rwa [List.getD_eq_getElem _ _ hk', ← List.getElem_drop] at h0
    rw [window, List.take_length, hall, value_replicate_zero]
  rw [← window_full, window_split r (Nat.zero_le n) hn le_rfl, htail]
  ring

theorem window_eq_div_mod {r : Int} (hr : 1 < r) {ds : List Int} (h : Digits r ds)
    {i n : Nat} (hin : i ≤ n) (hn : n ≤ ds.length) :
    window r ds i n = value r ds / r ^ i % r ^ (n - i) := by
  have hlow := window_nonneg (r := r) (by omega) h 0 i
  have hlow' := window_lt (r := r) (by omega) h 0 i
  have hmid := window_nonneg (r := r) (by omega) h i n
  have hmid' := window_lt (r := r) (by omega) h i n
  have hsplit : value r ds =
      window r ds 0 i + r ^ i * (window r ds i n + r ^ (n - i) * window r ds n ds.length) := by
    rw [← window_full, window_split r (Nat.zero_le i) (hin.trans hn) le_rfl,
      window_split r hin hn le_rfl, Nat.sub_zero]
  rw [Nat.sub_zero] at hlow'
  rw [hsplit, Int.add_mul_ediv_left _ _ (by positivity), Int.ediv_eq_zero_of_lt hlow hlow',
    zero_add, Int.add_mul_emod_self_left, Int.emod_eq_of_lt hmid hmid']

theorem value_inj {r : Int} (hr : 0 < r) {ds es : List Int} (hds : Digits r ds)
    (hes : Digits r es) (hlen : ds.length = es.length) (h : value r ds = value r es) : ds = es := by
  induction ds generalizing es with
  | nil => exact (List.length_eq_zero_iff.1 hlen.symm).symm
  | cons d ds ih =>
      cases es with
      | nil => simp at hlen
      | cons e es =>
          rw [value_cons, value_cons] at h
          have hlow : ∀ {c : Int} (v : Int), 0 ≤ c ∧ c < r → (c + r * v) % r = c := by
            intro c v hc
            rw [Int.add_mul_emod_self_left, Int.emod_eq_of_lt hc.1 hc.2]
          have hhead : d = e := by
            rw [← hlow (value r ds) hds.head, h, hlow (value r es) hes.head]
          have htail : value r ds = value r es := by
            rw [hhead] at h
            exact mul_left_cancel₀ hr.ne' (add_left_cancel h)
          rw [hhead, ih hds.tail hes.tail (by simpa using hlen) htail]

end Kaikai.Positional
