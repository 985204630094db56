import Mathlib.Data.List.TakeWhile
import Kaikai.JsonLex

namespace Kaikai.Text

open Kaikai.Str

/-- `string_find`: the offset of the first occurrence, `none` where the runtime answers `-1`. -/
def stringFind (s sub : Str) : Option Nat :=
  match s with
  | [] => if sub = [] then some 0 else none
  | b :: rest => if sub <+: b :: rest then some 0 else (stringFind rest sub).map (· + 1)

/-- The pieces between successive occurrences of `sep`; every occurrence uses up a byte. -/
def splitLoop (sep : Str) : Nat → Str → List Str
  | 0, s => [s]
  | fuel + 1, s =>
      match stringFind s sep with
      | none => [s]
      | some i => s.take i :: splitLoop sep fuel (s.drop (i + sep.length))

/-- `string_split`; an empty separator splits nothing. -/
def stringSplit (s sep : Str) : List Str := if sep = [] then [s] else splitLoop sep s.length s

def startsWith (s start : Str) : Bool := start.isPrefixOf s

/-- The blanks that `string.trim` removes: space, tab, newline, carriage return. -/
def isTrimmed (b : UInt8) : Bool := b == 32 || b == 9 || b == 10 || b == 13

def trim (s : Str) : Str := ((s.dropWhile isTrimmed).reverse.dropWhile isTrimmed).reverse

def lowerByte (b : UInt8) : UInt8 := if 65 ≤ b ∧ b ≤ 90 then b + 32 else b

/-- `string.to_lower` folds the ASCII letters. -/
def toLower (s : Str) : Str := s.map lowerByte

/-- The blanks that `strtoll` skips. -/
def isSpace (b : UInt8) : Bool := b == 32 || (9 ≤ b && b ≤ 13)

/-- `string_to_int`: it copies the text into a buffer of 64 bytes, which ends for `strtoll`
at the first zero byte. -/
def stringToInt (s : Str) : Option Int :=
  if s.length < 64 then Json.strtoll ((s.takeWhile (· != 0)).dropWhile isSpace) else none

theorem stringToInt_digits {t : Str} (hd : Decimal.AllDigits t) (hne : t ≠ [])
    (hlen : t.length < 64) (hrange : Word64.InRange (Decimal.digitsOf t)) :
    stringToInt t = some (Decimal.digitsOf t : Int) := by
  have hzero : t.takeWhile (· != 0) = t := by
    apply List.takeWhile_eq_self_iff.2
    intro b hb
    have hdigit := hd b hb
    rw [bne_iff_ne]
    rintro rfl
    exact absurd hdigit (by decide)
  obtain ⟨b, rest, rfl⟩ := List.exists_cons_of_ne_nil hne
  have hb := hd b List.mem_cons_self
  have hspace : isSpace b = false := by
    unfold Decimal.IsDigit at hb
    rw [isSpace, Bool.or_eq_false_iff, beq_eq_false_iff_ne, Bool.and_eq_false_iff,
      decide_eq_false_iff_not, decide_eq_false_iff_not, UInt8.le_iff_toNat_le, UInt8.le_iff_toNat_le,
      ne_eq, ← UInt8.toNat_inj]
    change ¬ b.toNat = 32 ∧ (¬ 9 ≤ b.toNat ∨ ¬ b.toNat ≤ 13)
    omega
  have hsign : ¬ (some b = some (45 : UInt8) ∨ some b = some 43) := by
    rw [Option.some.injEq, Option.some.injEq]
    rintro (rfl | rfl) <;> exact absurd hb (by decide)
  have hminus : ¬ some b = some (45 : UInt8) := fun h => hsign (Or.inl h)
  rw [stringToInt, if_pos hlen, hzero, List.dropWhile_cons_of_neg (by simp [hspace]), Json.strtoll]
  rw [List.head?_cons, if_neg hsign, if_neg hminus]
  exact if_pos ⟨List.cons_ne_nil _ _, hd, hrange⟩

theorem stringFind_eq_some_iff {s sub : Str} {i : Nat} :
    stringFind s sub = some i ↔
      i ≤ s.length ∧ sub <+: s.drop i ∧ ∀ j < i, ¬ sub <+: s.drop j := by
  induction s generalizing i with
  | nil =>
      rw [stringFind]
      split_ifs with hsub
      · subst hsub
        simp only [Option.some.injEq, List.length_nil, Nat.le_zero_eq, List.drop_nil,
          List.nil_prefix, not_true_eq_false, true_and]
        constructor
        · rintro rfl
          exact ⟨rfl, fun j hj => absurd hj (Nat.not_lt_zero j)⟩
        · exact fun h => h.1.symm
      · simp [hsub]
  | cons b rest ih =>
      rw [stringFind]
      split_ifs with hhere
      · constructor
        · intro h
          cases h
          exact ⟨Nat.zero_le _, hhere, fun j hj => absurd hj (Nat.not_lt_zero j)⟩
        · rintro ⟨-, -, hfirst⟩
          cases i with
          | zero => rfl
          | succ i => exact absurd hhere (hfirst 0 (Nat.succ_pos i))
      · cases i with
        | zero => simp [hhere]
        | succ i =>
            simp only [Option.map_eq_some_iff, Nat.add_right_cancel_iff, exists_eq_right, ih,
              List.length_cons, Nat.add_le_add_iff_right, List.drop_succ_cons]
            constructor
            · rintro ⟨hle, hpre, hfirst⟩
              refine ⟨hle, hpre, ?_⟩
              rintro (_ | j) hj
              · exact hhere
              · exact hfirst j (Nat.lt_of_succ_lt_succ hj)
            · rintro ⟨hle, hpre, hfirst⟩
              exact ⟨hle, hpre, fun j hj => hfirst (j + 1) (Nat.succ_lt_succ hj)⟩

theorem stringFind_end_le {s sub : Str} {i : Nat} (h : stringFind s sub = some i) :
    i + sub.length ≤ s.length := by
  obtain ⟨hle, hpre, -⟩ := stringFind_eq_some_iff.1 h
  have hlen := hpre.length_le
  rw [List.length_drop] at hlen
  omega

theorem stringFind_append {s sub : Str} {i : Nat} (t : Str) (h : stringFind s sub = some i) :
    stringFind (s ++ t) sub = some i := by
  have hend := stringFind_end_le h
  obtain ⟨hle, hpre, hfirst⟩ := stringFind_eq_some_iff.1 h
  refine stringFind_eq_some_iff.2 ⟨?_, ?_, ?_⟩
  · rw [List.length_append]
    omega
  · rw [List.drop_append_of_le_length hle]
    exact hpre.trans (List.prefix_append _ _)
  · intro j hj hpre'
    apply hfirst j hj
    rw [List.drop_append_of_le_length (by omega)] at hpre'
    apply List.prefix_of_prefix_length_le hpre' (List.prefix_append _ _)
    rw [List.length_drop]
    omega

theorem stringFind_of_isPrefix {s p sub : Str} {i : Nat} (h : stringFind s sub = some i)
    (hp : p <+: s) (hend : i + sub.length ≤ p.length) : stringFind p sub = some i := by
  obtain ⟨-, hpre, hfirst⟩ := stringFind_eq_some_iff.1 h
  refine stringFind_eq_some_iff.2 ⟨by omega, ?_, ?_⟩
  · apply List.prefix_of_prefix_length_le hpre (hp.drop i)
    rw [List.length_drop]
    omega
  · intro j hj hpre'
    exact hfirst j hj (hpre'.trans (hp.drop j))

end Kaikai.Text
