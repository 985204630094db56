import Kaikai.Str
import Mathlib.Data.List.Lex

namespace Kaikai.Str

def stringLt : Str → Str → Bool
  | [], [] => false
  | [], _ :: _ => true
  | _ :: _, [] => false
  | ca :: a, cb :: b => if ca = cb then stringLt a b else ca < cb

/-- The order of `string_lt` is the one of the byte codes. -/
def codes (s : Str) : List ℕ :=
  s.map UInt8.toNat

theorem codes_injective : Function.Injective codes :=
  List.map_injective_iff.2 fun _ _ => UInt8.toNat_inj.1

theorem stringLt_iff : ∀ a b : Str, stringLt a b = true ↔ codes a < codes b
  | [], [] => by simp [stringLt, codes]
  | [], _ :: _ => by simp [stringLt, codes]
  | _ :: _, [] => by simp [stringLt, codes]
  | ca :: a, cb :: b => by
      rw [stringLt, codes, codes, List.map_cons, List.map_cons, List.cons_lt_cons_iff]
      split
      case isTrue heq =>
        rw [stringLt_iff a b, heq]
        simp [codes]
      case isFalse hne =>
        have hcode : ca.toNat ≠ cb.toNat := fun h => hne (UInt8.toNat_inj.1 h)
        simp [hcode, UInt8.lt_iff_toNat_lt]

end Kaikai.Str
