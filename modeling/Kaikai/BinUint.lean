import Kaikai.BinBuf
import Mathlib.Data.Int.DivMod
import Mathlib.Data.List.Basic

namespace Kaikai.BinUint

open BinSer
open Str
open Word64

def binShiftDown (n : Int) : Nat → Int
  | 0 => n
  | bytes + 1 => binShiftDown (n.tdiv 256) bytes

/-- The byte `shiftBytes` positions up; `%` truncates as `/` does. -/
def binByteOf (n : Int) (shiftBytes : Nat) : Int :=
  let r := (binShiftDown n shiftBytes).tmod 256
  if r < 0 then r + 256 else r

def arrayGet (a : Str) (i : Int) : Run UInt8 :=
  if h : 0 ≤ i ∧ i.toNat < a.length then .ok (a.get ⟨i.toNat, h.2⟩) else .error .outOfRange

def arraySet (a : Str) (i : Nat) (b : UInt8) : Run Str :=
  if i < a.length then .ok (a.set i b) else .error .outOfRange

def binFillLoop (dst : Str) (off i n : Nat) (get : Nat → Run UInt8) : Run Str :=
  if i ≥ n then .ok dst
  else do
    let b ← get i
    let d ← arraySet dst (off + i) b
    binFillLoop d off (i + 1) n get
termination_by n - i

def binFill (dst : Str) (off n : Nat) (get : Nat → Run UInt8) : Run Str := binFillLoop dst off 0 n get

def binPutUint (buf : Str) (n : Int) (width : Nat) (be : Bool) : Run Str := do
  let la := buf.length
  let dst ← binFill (List.replicate (la + width) 0) 0 la fun i => arrayGet buf i
  binFill dst la width fun i => binByte (binByteOf n (if be then width - 1 - i else i))

def binGetUintLoop (buf : Str) (pos : Int) (i width : Nat) (be : Bool) (acc : Int) : Run Int :=
  if i ≥ width then .ok acc
  else do
    let idx := if be then add pos i else add pos (width - 1 - i : Nat)
    let b ← arrayGet buf idx
    binGetUintLoop buf pos (i + 1) width be (add (mul acc 256) b.toNat)
termination_by width - i

def binGetUint (buf : Str) (pos : Int) (width : Nat) (be : Bool) : Run (Option Int) :=
  if binHave buf pos width then do
    let n ← binGetUintLoop buf pos 0 width be 0
    return some n
  else .ok none

/-- Bytes that stand least significant first, in the order asked for; the same reversal leads
back. -/
def ordered (bs : Str) (be : Bool) : Str := if be then bs.reverse else bs

theorem ordered_ordered (bs : Str) (be : Bool) : ordered (ordered bs be) be = bs := by
  cases be with
  | false => rfl
  | true => exact List.reverse_reverse bs

@[simp] theorem length_ordered (bs : Str) (be : Bool) : (ordered bs be).length = bs.length := by
  cases be with
  | false => rfl
  | true => exact List.length_reverse

theorem ordered_eq_iff {a b : Str} (be : Bool) : ordered a be = ordered b be ↔ a = b := by
  constructor
  · intro h
    rw [← ordered_ordered a be, h, ordered_ordered]
  · rintro rfl
    rfl

/-- The `width` bytes of the two's complement of a number. -/
def uintBytes (n : Int) (width : Nat) (be : Bool) : Str := ordered (leBytes width n) be

/-- The bytes that truncating division gives. -/
def putBytes (n : Int) (width : Nat) : Str :=
  (List.range width).map fun i => UInt8.ofNat (binByteOf n i).toNat

/-- No byte of a number is lost to the truncation of a negative one. -/
def Shiftable (n : Int) (width : Nat) : Prop := 0 ≤ n ∨ 256 ^ (width - 1) ∣ n

theorem tdiv_tdiv (n : Int) (a b : Nat) : (n.tdiv a).tdiv b = n.tdiv (a * b : Nat) := by
  obtain ⟨m, rfl | rfl⟩ := n.eq_nat_or_neg
  · rw [← Int.ofNat_tdiv, ← Int.ofNat_tdiv, ← Int.ofNat_tdiv, Nat.div_div_eq_div_mul]
  · rw [Int.neg_tdiv, Int.neg_tdiv, Int.neg_tdiv, ← Int.ofNat_tdiv, ← Int.ofNat_tdiv,
      ← Int.ofNat_tdiv, Nat.div_div_eq_div_mul]

theorem binShiftDown_eq (n : Int) (k : Nat) : binShiftDown n k = n.tdiv (256 ^ k) := by
  induction k generalizing n with
  | zero => rw [binShiftDown, pow_zero, Int.tdiv_one]
  | succ k ih =>
      have hsplit := tdiv_tdiv n 256 (256 ^ k)
      push_cast at hsplit
      rw [binShiftDown, ih, hsplit, pow_succ']

theorem binByteOf_eq (n : Int) (k : Nat) : binByteOf n k = n.tdiv (256 ^ k) % 256 := by
  rw [binByteOf, binShiftDown_eq, Int.tmod_eq_emod]
  split_ifs <;> omega

theorem binByteOf_range (n : Int) (k : Nat) : 0 ≤ binByteOf n k ∧ binByteOf n k < 256 := by
  rw [binByteOf_eq]
  omega

theorem binByteOf_iff (n : Int) (k : Nat) :
    binByteOf n k = n / 256 ^ k % 256 ↔ 0 ≤ n ∨ 256 ^ k ∣ n := by
  rw [binByteOf_eq, Int.tdiv_eq_ediv, Int.sign_eq_one_of_pos (by positivity)]
  split_ifs with h
  · rw [Int.add_zero]
    exact iff_of_true rfl h
  · refine iff_of_false ?_ h
    omega

theorem leBytes_eq (w : Nat) (n : Int) :
    leBytes w n = (List.range w).map fun i => UInt8.ofNat (n / 256 ^ i % 256).toNat := by
  induction w generalizing n with
  | zero => rfl
  | succ w ih =>
      rw [leBytes, ih, List.range_succ_eq_map, List.map_cons, List.map_map, pow_zero, Int.ediv_one]
      congr 1
      apply List.map_congr_left
      intro i _
      rw [Function.comp_apply, Int.ediv_ediv_of_nonneg (by decide), pow_succ']

theorem ofNat_inj_of_lt {m n : Int} (hm : 0 ≤ m ∧ m < 256) (hn : 0 ≤ n ∧ n < 256) :
    UInt8.ofNat m.toNat = UInt8.ofNat n.toNat ↔ m = n := by
  constructor
  · intro h
    have hval := congrArg UInt8.toNat h
    rw [UInt8.toNat_ofNat', UInt8.toNat_ofNat'] at hval
    omega
  · rintro rfl
    rfl

theorem putBytes_iff {n : Int} {width : Nat} (hwidth : 0 < width) :
    putBytes n width = leBytes width n ↔ Shiftable n width := by
  have hbytes : putBytes n width = leBytes width n ↔ ∀ k < width, 0 ≤ n ∨ 256 ^ k ∣ n := by
    rw [putBytes, leBytes_eq, List.map_inj_left]
    refine forall_congr' fun k => ?_
    rw [List.mem_range, ofNat_inj_of_lt (binByteOf_range n k) (by omega), binByteOf_iff]
  rw [hbytes]
  constructor
  · exact fun h => h _ (by omega)
  · rintro (hpos | hdvd) k hk
    · exact .inl hpos
    · exact .inr ((pow_dvd_pow 256 (by omega)).trans hdvd)

@[simp] theorem length_putBytes (n : Int) (width : Nat) : (putBytes n width).length = width := by
  rw [putBytes, List.length_map, List.length_range]

theorem binByte_binByteOf (n : Int) (k : Nat) :
    binByte (binByteOf n k) = .ok (UInt8.ofNat (binByteOf n k).toNat) := by
  have hrange := binByteOf_range n k
  rw [binByte, if_neg (by omega)]

theorem arrayGet_nat {a : Str} {i : Nat} (h : i < a.length) : arrayGet a i = .ok a[i] := by
  rw [arrayGet, dif_pos ⟨Int.natCast_nonneg i, h⟩]
  rfl

theorem binFillLoop_eq {n : Nat} {get : Nat → Run UInt8} {g : Nat → UInt8}
    (hget : ∀ i < n, get i = .ok (g i)) (front : Str) (i : Nat) (old back : Str)
    (hold : i + old.length = n) :
    binFillLoop (front ++ ((List.range i).map g ++ (old ++ back))) front.length i n get =
      .ok (front ++ ((List.range n).map g ++ back)) := by
  induction old generalizing i with
  | nil =>
      have hi : i = n := hold
      rw [binFillLoop, if_pos (le_of_eq hi.symm), hi, List.nil_append]
  | cons o old ih =>
      rw [List.length_cons] at hold
      have hlt : i < n := by omega
      have hset : arraySet (front ++ ((List.range i).map g ++ (o :: old ++ back))) (front.length + i)
          (g i) = .ok (front ++ ((List.range (i + 1)).map g ++ (old ++ back))) := by
        rw [arraySet, if_pos (by simp), List.set_append_right _ _ (Nat.le_add_right _ _),
          Nat.add_sub_cancel_left, List.set_append_right _ _ (by simp)]
        simp [List.range_succ]
      rw [binFillLoop, if_neg (by omega), hget i hlt]
      refine (congrArg (fun m => m >>= fun d => binFillLoop d front.length (i + 1) n get) hset).trans ?_
      exact ih (i + 1) (by omega)

theorem binFill_eq {n : Nat} {get : Nat → Run UInt8} {g : Nat → UInt8}
    (hget : ∀ i < n, get i = .ok (g i)) (front old back : Str) (hold : old.length = n) :
    binFill (front ++ (old ++ back)) front.length n get =
      .ok (front ++ ((List.range n).map g ++ back)) :=
  binFillLoop_eq hget front 0 old back (by omega)

theorem map_range_getElem (a : Str) : ((List.range a.length).map fun i => a[i]?.getD 0) = a := by
  apply List.ext_getElem (by simp)
  intro i h1 h2
  simp [h2]

theorem binPutUint_eq (buf : Str) (n : Int) (width : Nat) (be : Bool) :
    binPutUint buf n width be =
      .ok (buf ++ ordered (putBytes n width) be) := by
  have hcopy : binFill (List.replicate (buf.length + width) 0) 0 buf.length
      (fun i => arrayGet buf i) = .ok (buf ++ List.replicate width 0) := by
    have hget : ∀ i < buf.length, arrayGet buf i = .ok (buf[i]?.getD 0) := fun i hi => by
      rw [arrayGet_nat hi, List.getElem?_eq_getElem hi, Option.getD_some]
    have h := binFill_eq hget [] (List.replicate buf.length 0) (List.replicate width 0)
      List.length_replicate
    rw [map_range_getElem, List.nil_append, List.nil_append, List.replicate_append_replicate] at h
    exact h
  have hbytes : ∀ i < width, binByte (binByteOf n (if be then width - 1 - i else i)) =
      .ok (UInt8.ofNat (binByteOf n (if be then width - 1 - i else i)).toNat) :=
    fun i _ => binByte_binByteOf n _
  have hput := binFill_eq hbytes buf (List.replicate width 0) [] List.length_replicate
  rw [List.append_nil, List.append_nil] at hput
  rw [binPutUint]
  refine (congrArg (fun m => m >>= fun d => binFill d buf.length width fun i =>
    binByte (binByteOf n (if be then width - 1 - i else i))) hcopy).trans ?_
  refine hput.trans ?_
  cases be with
  | false => rfl
  | true =>
      congr 2
      apply List.ext_getElem (by simp [ordered])
      intro i h1 h2
      simp [ordered, putBytes]

/-- The fold of the reader over the bytes, most significant first. -/
def fold (acc : Int) (ms : Str) : Int := ms.foldl (fun acc b => acc * 256 + b.toNat) acc

theorem fold_reverse (ls : Str) : fold 0 ls.reverse = leNat ls := by
  induction ls with
  | nil => rfl
  | cons b ls ih =>
      rw [List.reverse_cons, fold, List.foldl_append]
      change fold 0 ls.reverse * 256 + b.toNat = _
      rw [ih, leNat]
      push_cast
      ring

theorem add_mul_wrap (acc : Int) (b : Nat) : add (mul (wrap acc) 256) b = wrap (acc * 256 + b) := by
  unfold add mul wrap
  omega

theorem arrayGet_place {pre bs rest : Str} {i : Nat} (hi : i < bs.length) :
    arrayGet (pre ++ (bs ++ rest)) ((pre.length + i : Nat) : Int) = .ok bs[i] := by
  rw [arrayGet_nat (by rw [List.length_append, List.length_append]; omega)]
  congr 1
  rw [List.getElem_append_right (by omega), List.getElem_append_left (by omega)]
  congr 1
  omega

theorem binGetUintLoop_eq {pre bs : Str} (rest : Str) (hfits : pre.length + bs.length < 2 ^ 63) (be : Bool)
    (left : Nat) : ∀ (i : Nat) (acc : Int), i + left = bs.length →
      binGetUintLoop (pre ++ (bs ++ rest)) pre.length i bs.length be (wrap acc) =
        .ok (wrap (fold acc ((ordered bs be).reverse.drop i))) := by
  induction left with
  | zero =>
      intro i acc hi
      rw [binGetUintLoop, if_pos (by omega), List.drop_eq_nil_of_le (by simp; omega)]
      rfl
  | succ left ih =>
      intro i acc hi
      have hlt : i < (ordered bs be).reverse.length := by
        rw [List.length_reverse, length_ordered]
        omega
      have hread : arrayGet (pre ++ (bs ++ rest))
          (if be then add pre.length i else add pre.length (bs.length - 1 - i : Nat)) =
            .ok ((ordered bs be).reverse[i]) := by
        have hadd : ∀ j : Nat, j < bs.length → add pre.length j = ((pre.length + j : Nat) : Int) := by
          intro j hj
          rw [add_eq (by omega) (by omega)]
          push_cast
          rfl
        cases be with
        | true =>
            rw [if_pos rfl, hadd i (by omega), arrayGet_place (by omega)]
            simp [ordered]
        | false =>
            rw [if_neg (by simp), hadd _ (by omega), arrayGet_place (by omega)]
            simp [ordered]
      rw [binGetUintLoop, if_neg (by omega)]
      refine (congrArg (fun m => m >>= fun b : UInt8 => binGetUintLoop (pre ++ (bs ++ rest)) pre.length
        (i + 1) bs.length be (add (mul (wrap acc) 256) b.toNat)) hread).trans ?_
      change binGetUintLoop _ _ _ _ _ (add (mul (wrap acc) 256) ((ordered bs be).reverse[i]).toNat) = _
      rw [add_mul_wrap, ih (i + 1) _ (by omega), List.drop_eq_getElem_cons hlt]
      rfl

theorem binGetUint_eq (pre bs rest : Str) (hfits : pre.length + bs.length < 2 ^ 63) (be : Bool) :
    binGetUint (pre ++ (bs ++ rest)) pre.length bs.length be =
      .ok (some (wrap (leNat (ordered bs be)))) := by
  have hhave : binHave (pre ++ (bs ++ rest)) pre.length bs.length = true := by
    rw [binHave, add_eq (by omega) (by omega)]
    simp
  have hloop := binGetUintLoop_eq rest hfits be bs.length 0 0 (by omega)
  rw [List.drop_zero, fold_reverse] at hloop
  rw [binGetUint, if_pos hhave]
  exact congrArg (fun m => m >>= fun n => pure (some n)) hloop

theorem wrap_emod {w : Nat} (hw : w ≤ 8) (n : Int) : wrap n % 256 ^ w = n % 256 ^ w := by
  obtain ⟨k, hk⟩ := exists_wrap_eq n
  have hdvd : (256 : Int) ^ w ∣ k * 2 ^ 64 := by
    have hpow : (2 : Int) ^ 64 = 256 ^ 8 := by norm_num
    rw [hpow]
    exact (pow_dvd_pow 256 hw).mul_left k
  rw [hk, Int.add_emod, Int.emod_eq_zero_of_dvd hdvd, Int.add_zero, Int.emod_emod_of_dvd _ dvd_rfl]

theorem wrap_leNat_emod (bs : Str) (hw : bs.length ≤ 8) :
    wrap (leNat bs) % 256 ^ bs.length = leNat bs := by
  have hlt := leNat_lt bs
  rw [wrap_emod hw, Int.emod_eq_of_lt (Int.natCast_nonneg _)]
  exact_mod_cast hlt

theorem binGetUint_value {buf : Str} {pos : Int} {width : Nat} {be : Bool} {m : Int}
    (h : binGetUint buf pos width be = .ok (some m)) : ∃ x : Int, 0 ≤ x ∧ x < 256 ^ width ∧ m = wrap x := by
  have hloop : ∀ (left i : Nat) (acc m : Int), i + left = width → 0 ≤ acc → acc < 256 ^ i →
      binGetUintLoop buf pos i width be (wrap acc) = .ok m →
        ∃ x : Int, 0 ≤ x ∧ x < 256 ^ width ∧ m = wrap x := by
    intro left
    induction left with
    | zero =>
        intro i acc m hi hlow hhigh h
        rw [binGetUintLoop, if_pos (by omega)] at h
        rw [show width = i by omega]
        exact ⟨acc, hlow, hhigh, (Except.ok.inj h).symm⟩
    | succ left ih =>
        intro i acc m hi hlow hhigh h
        rw [binGetUintLoop, if_neg (by omega)] at h
        cases hget : arrayGet buf (if be then add pos i else add pos (width - 1 - i : Nat)) with
        | error e =>
            simp only [hget] at h
            cases h
        | ok b =>
            simp only [hget] at h
            change binGetUintLoop buf pos (i + 1) width be (add (mul (wrap acc) 256) b.toNat) = .ok m at h
            rw [add_mul_wrap] at h
            have hb := b.toNat_lt
            refine ih (i + 1) _ m (by omega) (by omega) ?_ h
            rw [pow_succ]
            omega
  rw [binGetUint] at h
  split_ifs at h with hhave
  · cases hrun : binGetUintLoop buf pos 0 width be 0 with
    | error e =>
        rw [hrun] at h
        cases h
    | ok n =>
        rw [hrun] at h
        cases h
        exact hloop width 0 0 _ (by omega) le_rfl (by norm_num) hrun
  · cases h

/-- A number is written and read back, modulo its width. -/
def Survives (buf : Str) (n : Int) (width : Nat) (be : Bool) : Prop :=
  ∃ data m, binPutUint buf n width be = .ok data ∧
    binGetUint data buf.length width be = .ok (some m) ∧ m % 256 ^ width = n % 256 ^ width

theorem survives_iff {buf : Str} {n : Int} {width : Nat} (hpos : 0 < width) (hwidth : width ≤ 8)
    (hfits : buf.length + width < 2 ^ 63) (be : Bool) :
    Survives buf n width be ↔ Shiftable n width := by
  have hget := binGetUint_eq buf (ordered (putBytes n width) be) []
    (by simpa using hfits) be
  rw [List.append_nil, length_ordered, length_putBytes, ordered_ordered] at hget
  have hvalue := wrap_leNat_emod (putBytes n width) (by simpa using hwidth)
  rw [length_putBytes] at hvalue
  have hread : wrap (leNat (putBytes n width)) % 256 ^ width = n % 256 ^ width ↔ Shiftable n width := by
    rw [hvalue, ← leNat_leBytes, Int.natCast_inj, leNat_inj (by simp), putBytes_iff hpos]
  rw [← hread]
  constructor
  · rintro ⟨data, m, hput, hm, heq⟩
    rw [binPutUint_eq] at hput
    cases hput
    have hvalue := Option.some.inj (Except.ok.inj (hget.symm.trans hm))
    rw [hvalue]
    exact heq
  · exact fun heq => ⟨_, _, binPutUint_eq buf n width be, hget, heq⟩

end Kaikai.BinUint
