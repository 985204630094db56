import Kaikai.Fuel
import Kaikai.Str
import Kaikai.Word64
import Mathlib.Data.List.Nodup

namespace Kaikai.Exhaust

open Fuel Str Word64

/-- A reference to a declaration: resolved to the integer of its id, or as written. -/
inductive DeclRef where
  | drSym (id : Int)
  | drWritten (home : Option Str) (name : Str)
deriving DecidableEq

def refSym : DeclRef → Int
  | .drSym s => s
  | .drWritten _ _ => -1

def refResolved (r : DeclRef) : Bool := refSym r ≥ 0

/-- The literals of a pattern; `other` are those of an unbounded type. -/
inductive Lit where
  | eBool (b : Bool)
  | eUnit
  | other
deriving DecidableEq

/-- Positions, types and bounds, which the check does not read, are left out. -/
inductive Pattern where
  | pWild
  | pLit (lit : Lit)
  | pRange
  | pBind (name : Str)
  | pList (ps : List Pattern) (rest : Option Str)
  | pVariant (r : DeclRef) (ps : List Pattern)
  | pVariantRecord (r : DeclRef) (fs : List (Str × Pattern))
  | pRecord (fs : List (Str × Pattern))
  | pHole
  | pAs (name : Str) (inner : Pattern)
  | pSurface
  | pNarrow (name : Str)

abbrev Row := List Pattern

inductive XKey where
  | xkRecord
  | xkUnit
  | xkNil
  | xkCons
  | xkTrue
  | xkFalse
  | xkVariant (c : Int)
deriving DecidableEq

inductive XSubs where
  | xPos (ps : List Pattern)
  | xNamed (fs : List (Str × Pattern))

inductive XHead where
  | xAny
  | xCon (k : XKey) (subs : XSubs)
  | xLit
  | xOdd

/-- A constructor: its id and its spelling with wildcard payload. -/
abbrev XSib := Int × Str

/-- The constructors of the type that a constructor belongs to. -/
abbrev XCtors := Int → Option (List XSib)

inductive XVerdict where
  | xCovered
  | xMissing (ws : List Str)
  | xUnknown
deriving DecidableEq

inductive XSig where
  | xSigComplete
  | xSigOpen (absent : Str)
  | xSigUnknown
deriving DecidableEq

def xhNamedHead (r : DeclRef) (subs : XSubs) : XHead :=
  if refResolved r then .xCon (.xkVariant (refSym r)) subs else .xOdd

def xhListHead : List Pattern → Option Str → XHead
  | [], some _ => .xAny
  | [], none => .xCon .xkNil (.xPos [])
  | h :: t, rest => .xCon .xkCons (.xPos [h, .pList t rest])

def xhLitHead : Lit → XHead
  | .eBool true => .xCon .xkTrue (.xPos [])
  | .eBool false => .xCon .xkFalse (.xPos [])
  | .eUnit => .xCon .xkUnit (.xPos [])
  | .other => .xLit

def xhHead : Pattern → XHead
  | .pWild => .xAny
  | .pBind _ => .xAny
  | .pHole => .xAny
  | .pAs _ inner => xhHead inner
  | .pVariant r subs => xhNamedHead r (.xPos subs)
  | .pVariantRecord r fs => xhNamedHead r (.xNamed fs)
  | .pRecord fs => .xCon .xkRecord (.xNamed fs)
  | .pList ps rest => xhListHead ps rest
  | .pLit lit => xhLitHead lit
  | .pRange => .xOdd
  | .pSurface => .xOdd
  | .pNarrow _ => .xOdd

/-- An empty row is a wildcard. -/
def xhRowHead : Row → XHead
  | p :: _ => xhHead p
  | [] => .xAny

def xhRowTail : Row → Row
  | _ :: t => t
  | [] => []

def xhIsOdd : XHead → Bool
  | .xOdd => true
  | _ => false

def xhIsLit : XHead → Bool
  | .xLit => true
  | _ => false

def xAnyHead (rows : List Row) (pred : XHead → Bool) : Bool := rows.any fun r => pred (xhRowHead r)

/-- The constructor keys heading the rows, in first-seen order. -/
def xColumnKeys : List Row → List XKey → List XKey
  | [], acc => acc.reverse
  | r :: rest, acc =>
      match xhRowHead r with
      | .xCon k _ => if k ∈ acc then xColumnKeys rest acc else xColumnKeys rest (k :: acc)
      | _ => xColumnKeys rest acc

def xSibHas (sibs : List XSib) (c : Int) : Bool := sibs.any fun s => s.1 = c

def xKeysAmong (keys : List XKey) (sibs : List XSib) : Bool :=
  match keys with
  | [] => true
  | .xkVariant c :: rest => xSibHas sibs c && xKeysAmong rest sibs
  | _ => false

def xAbsentSibling (sibs : List XSib) (keys : List XKey) : XSig :=
  match sibs with
  | [] => .xSigComplete
  | (c, spelled) :: rest =>
      if XKey.xkVariant c ∈ keys then xAbsentSibling rest keys else .xSigOpen spelled

def xVariantSignature (c : Int) (keys : List XKey) (tab : XCtors) : XSig :=
  match tab c with
  | none => .xSigUnknown
  | some sibs => if xKeysAmong keys sibs then xAbsentSibling sibs keys else .xSigUnknown

def xFirstAbsent (need : List XKey) (spell : List Str) (keys : List XKey) : XSig :=
  match need, spell with
  | k :: ks, s :: ss => if k ∈ keys then xFirstAbsent ks ss keys else .xSigOpen s
  | _, _ => .xSigComplete

def xListSignature (keys : List XKey) : XSig :=
  xFirstAbsent [.xkNil, .xkCons] [ascii "[]", ascii "[_, ..._]"] keys

def xBoolSignature (keys : List XKey) : XSig :=
  xFirstAbsent [.xkTrue, .xkFalse] [ascii "true", ascii "false"] keys

/-- The column's type is the one that its first key belongs to. -/
def xKeysSignature (keys : List XKey) (tab : XCtors) : XSig :=
  match keys with
  | [] => .xSigOpen (ascii "_")
  | .xkRecord :: _ => .xSigComplete
  | .xkUnit :: _ => .xSigComplete
  | .xkNil :: _ => xListSignature keys
  | .xkCons :: _ => xListSignature keys
  | .xkTrue :: _ => xBoolSignature keys
  | .xkFalse :: _ => xBoolSignature keys
  | .xkVariant c :: _ => xVariantSignature c keys tab

def xSignature (keys : List XKey) (rows : List Row) (tab : XCtors) : XSig :=
  if xAnyHead rows xhIsOdd then .xSigUnknown
  else if xAnyHead rows xhIsLit then .xSigOpen (ascii "_")
  else xKeysSignature keys tab

def xhAddFields : List (Str × Pattern) → List Str → List Str
  | [], acc => acc
  | (f, _) :: rest, acc => xhAddFields rest (if acc.contains f then acc else f :: acc)

def xhFieldsAcc (k : XKey) : List Row → List Str → List Str
  | [], acc => acc
  | r :: rest, acc =>
      match xhRowHead r with
      | .xCon k2 (.xNamed fs) => xhFieldsAcc k rest (if k2 = k then xhAddFields fs acc else acc)
      | _ => xhFieldsAcc k rest acc

/-- Every field name that the rows headed by `k` name, in first-seen order. -/
def xhColumnFields (k : XKey) (rows : List Row) : List Str := (xhFieldsAcc k rows []).reverse

/-- How many sub-columns `k` opens; -1 when its rows disagree. -/
def xhArity (k : XKey) (rows : List Row) (names : List Str) : Int :=
  match rows with
  | [] => names.length
  | r :: rest =>
      match xhRowHead r with
      | .xCon k2 (.xPos ps) =>
          if k2 ≠ k then xhArity k rest names else if names = [] then ps.length else -1
      | _ => xhArity k rest names

def xhFieldOrWild (f : Str) : List (Str × Pattern) → Pattern
  | [] => .pWild
  | (g, sub) :: rest => if g = f then sub else xhFieldOrWild f rest

def xhSubs (subs : XSubs) (names : List Str) : List Pattern :=
  match subs with
  | .xPos ps => ps
  | .xNamed fs => names.map fun f => xhFieldOrWild f fs

def xhWilds (n : Int) : List Pattern := List.replicate n.toNat .pWild

/-- The rows headed by `k` or a wildcard, the head replaced by its `arity` sub-patterns. -/
def xhSpecialize (k : XKey) (arity : Int) (names : List Str) : List Row → List Row
  | [] => []
  | r :: rest =>
      match xhRowHead r with
      | .xAny => (xhWilds arity ++ xhRowTail r) :: xhSpecialize k arity names rest
      | .xCon k2 subs =>
          if k2 = k then (xhSubs subs names ++ xhRowTail r) :: xhSpecialize k arity names rest
          else xhSpecialize k arity names rest
      | _ => xhSpecialize k arity names rest

/-- The rows headed by a wildcard, the head dropped. -/
def xDefault : List Row → List Row → List Row
  | [], acc => acc.reverse
  | r :: rest, acc =>
      match xhRowHead r with
      | .xAny => xDefault rest (xhRowTail r :: acc)
      | _ => xDefault rest acc

def joinWith (xs : List Str) (sep : Str) : Str := sep.intercalate xs

def xhTake (xs : List Str) (n : Int) : List Str := xs.take n.toNat

def xhDrop (xs : List Str) (n : Int) : List Str := xs.drop n.toNat

/-- The text in front of the first `(`. -/
def xSibName (sibs : List XSib) (c : Int) : Str :=
  match sibs with
  | [] => ascii "_"
  | (s, spelled) :: rest => if s ≠ c then xSibName rest c else spelled.takeWhile (· ≠ 40)

def xKeyName (k : XKey) (tab : XCtors) : Str :=
  match k with
  | .xkVariant c =>
      match tab c with
      | some sibs => xSibName sibs c
      | none => ascii "_"
  | _ => []

def xhFieldPairs : List Str → List Str → List Str
  | f :: fs, w :: rest => (f ++ ascii ": " ++ w) :: xhFieldPairs fs rest
  | _, _ => []

def xhSpellFields (lead : Str) (names ws : List Str) : Str :=
  lead ++ ascii "\x7b " ++ joinWith (xhFieldPairs names ws) (ascii ", ") ++ ascii " \x7d"

/-- A tail witness that is itself a list is folded into one list. -/
def xhSpellCons : List Str → Str
  | [h, t] =>
      if t = ascii "[]" then ascii "[" ++ h ++ ascii "]"
      else if stringSlice t 0 1 = ascii "[" then
        ascii "[" ++ h ++ ascii ", " ++ stringSlice t 1 t.length
      else ascii "[" ++ h ++ ascii ", ..." ++ t ++ ascii "]"
  | _ => ascii "[..]"

section Search

-- The id of the core tuple type with that many fields.
variable (tupleType : Nat → Option Int)

def xhIsTuple (c : Int) (ws : List Str) : Bool := tupleType ws.length = some c

def xhSpellVariant (c : Int) (cn : Str) (names ws : List Str) : Str :=
  if xhIsTuple tupleType c ws ∧ names ≠ [] then
    ascii "(" ++ joinWith ws (ascii ", ") ++ ascii ")"
  else if names ≠ [] then xhSpellFields (cn ++ ascii " ") names ws
  else if ws = [] then cn
  else cn ++ ascii "(" ++ joinWith ws (ascii ", ") ++ ascii ")"

def xhSpell (k : XKey) (cn : Str) (names ws : List Str) : Str :=
  match k with
  | .xkCons => xhSpellCons ws
  | .xkRecord => xhSpellFields [] names ws
  | .xkVariant c => xhSpellVariant tupleType c cn names ws
  | .xkUnit => ascii "()"
  | .xkNil => ascii "[]"
  | .xkTrue => ascii "true"
  | .xkFalse => ascii "false"

/-- The witness of the specialised rows, folded back under the key. -/
def refold (k : XKey) (tab : XCtors) (names : List Str) (arity : Int) : XVerdict → XVerdict
  | .xMissing ws =>
      .xMissing (xhSpell tupleType k (xKeyName k tab) names (xhTake ws arity) :: xhDrop ws arity)
  | v => v

def xPrepend (w : Str) : XVerdict → XVerdict
  | .xMissing ws => .xMissing (w :: ws)
  | v => v

/-- `x_under`, given the search that it calls. -/
def xUnder (useful : List Row → Int → Option XVerdict) (k : XKey) (rows : List Row) (n : Int)
    (tab : XCtors) : Option XVerdict :=
  let names := xhColumnFields k rows
  let arity := xhArity k rows names
  if arity < 0 then some .xUnknown
  else
    (useful (xhSpecialize k arity names rows) (sub (add arity n) 1)).map
      (refold tupleType k tab names arity)

def xSplit (useful : List Row → Int → Option XVerdict) (keys : List XKey) (rows : List Row)
    (n : Int) (tab : XCtors) (seen : XVerdict) : Option XVerdict :=
  match keys with
  | [] => some seen
  | k :: rest =>
      match xUnder tupleType useful k rows n tab with
      | none => none
      | some (.xMissing ws) => some (.xMissing ws)
      | some .xUnknown => xSplit useful rest rows n tab .xUnknown
      | some .xCovered => xSplit useful rest rows n tab seen

/-- `none` is a search cut off before its end. -/
def xUseful (tab : XCtors) : Nat → List Row → Int → Option XVerdict
  | 0, _, _ => none
  | fuel + 1, rows, n =>
      if n = 0 then some (if rows = [] then .xMissing [] else .xCovered)
      else
        let keys := xColumnKeys rows []
        match xSignature keys rows tab with
        | .xSigComplete => xSplit tupleType (xUseful tab fuel) keys rows n tab .xCovered
        | .xSigOpen absent => (xUseful tab fuel (xDefault rows []) (sub n 1)).map (xPrepend absent)
        | .xSigUnknown => some .xUnknown

end Search

mutual

/-- The constructor tests that a pattern asks for. -/
def weight : Pattern → Nat
  | .pLit _ => 1
  | .pList ps rest => weights ps + ps.length + if rest = none then 1 else 0
  | .pVariant _ ps => 1 + weights ps
  | .pVariantRecord _ fs => 1 + fieldWeights fs
  | .pRecord fs => 1 + fieldWeights fs
  | .pAs _ inner => weight inner
  | .pWild => 0
  | .pRange => 0
  | .pBind _ => 0
  | .pHole => 0
  | .pSurface => 0
  | .pNarrow _ => 0

def weights : List Pattern → Nat
  | [] => 0
  | p :: ps => weight p + weights ps

def fieldWeights : List (Str × Pattern) → Nat
  | [] => 0
  | (_, p) :: fs => weight p + fieldWeights fs

end

def subsWeight : XSubs → Nat
  | .xPos ps => weights ps
  | .xNamed fs => fieldWeights fs

def matrixWeight (rows : List Row) : Nat := (rows.map weights).sum

theorem weights_append (ps qs : List Pattern) : weights (ps ++ qs) = weights ps + weights qs := by
  induction ps with
  | nil => simp [weights]
  | cons p ps ih => rw [List.cons_append, weights, weights, ih, Nat.add_assoc]

theorem weights_xhWilds (n : Int) : weights (xhWilds n) = 0 := by
  unfold xhWilds
  induction n.toNat with
  | zero => rfl
  | succ m ih => rw [List.replicate_succ, weights, weight, ih]

theorem subsWeight_lt : ∀ {p : Pattern} {k : XKey} {subs : XSubs}, xhHead p = .xCon k subs →
    subsWeight subs < weight p
  | .pAs _ inner, k, subs, h => by
      rw [weight]
      exact subsWeight_lt (p := inner) h
  | .pVariant r ps, k, subs, h => by
      rw [xhHead, xhNamedHead] at h
      split_ifs at h
      cases h
      rw [weight, subsWeight]
      omega
  | .pVariantRecord r fs, k, subs, h => by
      rw [xhHead, xhNamedHead] at h
      split_ifs at h
      cases h
      rw [weight, subsWeight]
      omega
  | .pRecord fs, k, subs, h => by
      cases h
      rw [weight, subsWeight]
      omega
  | .pList [] none, k, subs, h => by
      cases h
      decide
  | .pList (q :: qs) rest, k, subs, h => by
      cases h
      rw [weight, subsWeight, weights, weights, weights, weight, weights, List.length_cons]
      omega
  | .pLit (.eBool true), k, subs, h => by
      cases h
      decide
  | .pLit (.eBool false), k, subs, h => by
      cases h
      decide
  | .pLit .eUnit, k, subs, h => by
      cases h
      decide
  | .pList [] (some _), _, _, h => nomatch h
  | .pLit .other, _, _, h => nomatch h
  | .pWild, _, _, h => nomatch h
  | .pRange, _, _, h => nomatch h
  | .pBind _, _, _, h => nomatch h
  | .pHole, _, _, h => nomatch h
  | .pSurface, _, _, h => nomatch h
  | .pNarrow _, _, _, h => nomatch h

theorem weights_field_le (g : Str) (p : Pattern) (fs : List (Str × Pattern)) (names : List Str) :
    weights (names.map fun f => xhFieldOrWild f ((g, p) :: fs)) ≤
      names.count g * weight p + weights (names.map fun f => xhFieldOrWild f fs) := by
  induction names with
  | nil => simp [weights]
  | cons f names ih =>
      rw [List.map_cons, List.map_cons, weights, weights, xhFieldOrWild, List.count_cons, Nat.add_mul]
      by_cases hgf : g = f
      · rw [if_pos hgf, if_pos (by simpa using hgf.symm)]
        omega
      · rw [if_neg hgf]
        omega

theorem weights_xhSubs_le {names : List Str} (hnames : names.Nodup) (subs : XSubs) :
    weights (xhSubs subs names) ≤ subsWeight subs := by
  cases subs with
  | xPos ps => exact le_rfl
  | xNamed fs =>
      rw [xhSubs, subsWeight]
      induction fs with
      | nil =>
          have hwild : ∀ names : List Str,
              weights (names.map fun f => xhFieldOrWild f []) = 0 := by
            intro names
            induction names with
            | nil => rfl
            | cons f names ih => rw [List.map_cons, weights, ih, xhFieldOrWild, weight]
          exact (hwild names).le
      | cons field fs ih =>
          obtain ⟨g, p⟩ := field
          have hcount : names.count g * weight p ≤ 1 * weight p :=
            Nat.mul_le_mul_right _ (List.nodup_iff_count_le_one.1 hnames g)
          have hfield := weights_field_le g p fs names
          rw [fieldWeights]
          omega

theorem nodup_xhAddFields : ∀ (fs : List (Str × Pattern)) {acc : List Str}, acc.Nodup →
    (xhAddFields fs acc).Nodup
  | [], _, h => h
  | (f, _) :: fs, acc, h => by
      rw [xhAddFields]
      apply nodup_xhAddFields fs
      split_ifs with hf
      · exact h
      · exact List.nodup_cons.2 ⟨fun hmem => hf (List.contains_iff_mem.2 hmem), h⟩

theorem nodup_xhFieldsAcc (k : XKey) : ∀ (rows : List Row) {acc : List Str}, acc.Nodup →
    (xhFieldsAcc k rows acc).Nodup
  | [], _, h => h
  | r :: rows, acc, h => by
      rw [xhFieldsAcc]
      split
      · apply nodup_xhFieldsAcc k rows
        split_ifs
        · exact nodup_xhAddFields _ h
        · exact h
      · exact nodup_xhFieldsAcc k rows h

theorem nodup_xhColumnFields (k : XKey) (rows : List Row) : (xhColumnFields k rows).Nodup :=
  List.nodup_reverse.2 (nodup_xhFieldsAcc k rows List.nodup_nil)

theorem weights_tail_le (r : Row) : weights (xhRowTail r) ≤ weights r := by
  cases r with
  | nil => exact le_rfl
  | cons p ps => exact Nat.le_add_left _ _

theorem weights_specialized_lt {r : Row} {k : XKey} {subs : XSubs} {names : List Str}
    (hnames : names.Nodup) (h : xhRowHead r = .xCon k subs) :
    weights (xhSubs subs names ++ xhRowTail r) < weights r := by
  cases r with
  | nil => nomatch h
  | cons p ps =>
      have hhead := subsWeight_lt (p := p) h
      have hsubs := weights_xhSubs_le hnames subs
      rw [weights_append, xhRowTail, weights]
      omega

theorem matrixWeight_cons (r : Row) (rows : List Row) :
    matrixWeight (r :: rows) = weights r + matrixWeight rows := by
  rw [matrixWeight, List.map_cons, List.sum_cons, matrixWeight]

theorem matrixWeight_specialize_le (k : XKey) (arity : Int) {names : List Str}
    (hnames : names.Nodup) : ∀ rows : List Row,
    matrixWeight (xhSpecialize k arity names rows) ≤ matrixWeight rows
  | [] => le_rfl
  | r :: rows => by
      have ih := matrixWeight_specialize_le k arity hnames rows
      have htail := weights_tail_le r
      rw [xhSpecialize, matrixWeight_cons]
      split
      · rw [matrixWeight_cons, weights_append, weights_xhWilds]
        omega
      · next k2 subs hhead =>
          have hlt := weights_specialized_lt hnames hhead
          split_ifs
          · rw [matrixWeight_cons]
            omega
          · omega
      · omega

theorem mem_xColumnKeys {k : XKey} : ∀ {rows : List Row} {acc : List XKey},
    k ∈ xColumnKeys rows acc → k ∈ acc ∨ ∃ r ∈ rows, ∃ subs, xhRowHead r = .xCon k subs
  | [], acc, h => .inl (List.mem_reverse.1 h)
  | r :: rows, acc, h => by
      have hlater : ∀ {acc' : List XKey}, k ∈ xColumnKeys rows acc' → k ∉ acc' ∨ k ∈ acc →
          k ∈ acc ∨ ∃ q ∈ r :: rows, ∃ subs, xhRowHead q = .xCon k subs := by
        intro acc' hk hacc
        rcases hacc with hacc | hacc
        · obtain ⟨q, hq, hhead⟩ := (mem_xColumnKeys hk).resolve_left hacc
          exact .inr ⟨q, List.mem_cons_of_mem _ hq, hhead⟩
        · exact .inl hacc
      rw [xColumnKeys] at h
      split at h
      · next k2 subs hhead =>
          split_ifs at h
          · exact hlater h (Decidable.em _).symm
          · by_cases hk : k = k2
            · subst hk
              exact .inr ⟨r, List.mem_cons_self, subs, hhead⟩
            · refine hlater h ?_
              rw [List.mem_cons, or_iff_right hk]
              exact (Decidable.em _).symm
      · exact hlater h (Decidable.em _).symm

/-- Specialising by a key that heads a row makes the matrix lighter, whatever it does to the number
of columns. -/
theorem matrixWeight_specialize_lt {k : XKey} (arity : Int) {names : List Str}
    (hnames : names.Nodup) : ∀ {rows : List Row},
    (∃ r ∈ rows, ∃ subs, xhRowHead r = .xCon k subs) →
    matrixWeight (xhSpecialize k arity names rows) < matrixWeight rows
  | [], h => by
      obtain ⟨r, hr, -⟩ := h
      exact absurd hr List.not_mem_nil
  | r :: rows, h => by
      have hle := matrixWeight_specialize_le k arity hnames rows
      obtain ⟨q, hq, subs, hhead⟩ := h
      rcases List.mem_cons.1 hq with rfl | hq
      · have hlt := weights_specialized_lt hnames hhead
        rw [xhSpecialize, hhead]
        simp only [if_true, matrixWeight_cons]
        omega
      · have ih := matrixWeight_specialize_lt arity hnames ⟨q, hq, subs, hhead⟩
        have htail := weights_tail_le r
        rw [xhSpecialize, matrixWeight_cons]
        split
        · rw [matrixWeight_cons, weights_append, weights_xhWilds]
          omega
        · next k2 subs' hhead' =>
            have hlt := weights_specialized_lt hnames hhead'
            split_ifs
            · rw [matrixWeight_cons]
              omega
            · omega
        · omega

theorem matrixWeight_default_le : ∀ (rows acc : List Row),
    matrixWeight (xDefault rows acc) ≤ matrixWeight rows + matrixWeight acc
  | [], acc => by
      rw [xDefault, matrixWeight, List.map_reverse, List.sum_reverse]
      exact Nat.le_add_left _ _
  | r :: rows, acc => by
      have htail := weights_tail_le r
      rw [xDefault, matrixWeight_cons]
      split
      · have ih := matrixWeight_default_le rows (xhRowTail r :: acc)
        rw [matrixWeight_cons] at ih
        omega
      · have ih := matrixWeight_default_le rows acc
        omega

/-- What the number of columns loses as the head column is dropped: it is counted down to 0, from
below 0 over the wrapping of a machine word. -/
def columns (n : Int) : Nat := if n = 0 then 0 else ((n - 1) % 2 ^ 64).toNat + 1

theorem columns_sub {n : Int} (hn : n ≠ 0) : columns (sub n 1) < columns n := by
  unfold columns sub wrap
  split_ifs <;> omega

/-- One call made by another: the rows and the number of columns that it is made on. -/
inductive Calls : List Row × Int → List Row × Int → Prop
  | specialize {rows : List Row} {n : Int} {k : XKey} (hn : n ≠ 0) (hk : k ∈ xColumnKeys rows [])
      (harity : 0 ≤ xhArity k rows (xhColumnFields k rows)) :
      Calls (rows, n)
        (xhSpecialize k (xhArity k rows (xhColumnFields k rows)) (xhColumnFields k rows) rows,
          sub (add (xhArity k rows (xhColumnFields k rows)) n) 1)
  | default {rows : List Row} {n : Int} (hn : n ≠ 0) :
      Calls (rows, n) (xDefault rows [], sub n 1)

theorem Calls.decreases {a b : List Row × Int} (h : Calls a b) :
    matrixWeight b.1 < matrixWeight a.1 ∨
      matrixWeight b.1 ≤ matrixWeight a.1 ∧ columns b.2 < columns a.2 := by
  cases h with
  | @specialize rows n k hn hk harity =>
      have hhead := (mem_xColumnKeys hk).resolve_left List.not_mem_nil
      exact .inl (matrixWeight_specialize_lt _ (nodup_xhColumnFields k rows) hhead)
  | @default rows n hn => exact .inr ⟨matrixWeight_default_le rows [], columns_sub hn⟩

theorem wellFounded_calls : WellFounded fun b a => Calls a b := by
  have hlex : WellFounded (Prod.Lex (· < ·) (· < ·) : Nat × Nat → Nat × Nat → Prop) :=
    WellFounded.prod_lex Nat.lt_wfRel.wf Nat.lt_wfRel.wf
  refine Subrelation.wf ?_ (InvImage.wf (fun a => (matrixWeight a.1, columns a.2)) hlex)
  intro b a h
  rw [InvImage, Prod.lex_def]
  rcases h.decreases with hlt | ⟨hle, hcols⟩
  · exact .inl hlt
  · exact hle.lt_or_eq.imp_right fun heq => ⟨heq, hcols⟩

section Search

variable (tupleType : Nat → Option Int)

theorem returns_xUnder {f : Nat → List Row → Int → Option XVerdict} {k : XKey} {rows : List Row}
    {n : Int} (tab : XCtors)
    (h : 0 ≤ xhArity k rows (xhColumnFields k rows) → Returns fun fuel =>
      f fuel (xhSpecialize k (xhArity k rows (xhColumnFields k rows)) (xhColumnFields k rows) rows)
        (sub (add (xhArity k rows (xhColumnFields k rows)) n) 1)) :
    Returns fun fuel => xUnder tupleType (f fuel) k rows n tab := by
  unfold xUnder
  by_cases harity : xhArity k rows (xhColumnFields k rows) < 0
  · simp only [if_pos harity]
    exact ⟨.xUnknown, Yields.pure _⟩
  · simp only [if_neg harity]
    obtain ⟨v, hv⟩ := h (Int.not_lt.1 harity)
    exact ⟨_, hv.map _⟩

theorem returns_xSplit {f : Nat → List Row → Int → Option XVerdict} {rows : List Row} {n : Int}
    (tab : XCtors) (keys : List XKey)
    (h : ∀ k ∈ keys, Returns fun fuel => xUnder tupleType (f fuel) k rows n tab) :
    ∀ seen, Returns fun fuel => xSplit tupleType (f fuel) keys rows n tab seen := by
  induction keys with
  | nil => exact fun seen => ⟨seen, Yields.pure seen⟩
  | cons k keys ih =>
      intro seen
      obtain ⟨⟨v, hv⟩, hkeys⟩ := List.forall_mem_cons.1 h
      -- the verdict under the first key decides whether the others are looked at
      cases v with
      | xMissing ws =>
          exact ⟨.xMissing ws, hv.after (Yields.pure _) fun fuel hfuel => by simp only [xSplit, hfuel]⟩
      | xUnknown =>
          obtain ⟨w, hw⟩ := ih hkeys .xUnknown
          exact ⟨w, hv.after hw fun fuel hfuel => by simp only [xSplit, hfuel]⟩
      | xCovered =>
          obtain ⟨w, hw⟩ := ih hkeys seen
          exact ⟨w, hv.after hw fun fuel hfuel => by simp only [xSplit, hfuel]⟩

theorem returns_xUseful (tab : XCtors) (a : List Row × Int) :
    Returns fun fuel => xUseful tupleType tab fuel a.1 a.2 := by
  induction a using wellFounded_calls.induction with
  | _ a ih =>
      obtain ⟨rows, n⟩ := a
      by_cases hn : n = 0
      · exact ⟨_, Yields.succ (fun fuel => by rw [xUseful, if_pos hn]) (Yields.pure _)⟩
      cases hsig : xSignature (xColumnKeys rows []) rows tab with
      | xSigComplete =>
          obtain ⟨v, hv⟩ := returns_xSplit tupleType tab (xColumnKeys rows [])
            (fun k hk => returns_xUnder tupleType tab fun harity => ih _ (.specialize hn hk harity))
            .xCovered
          exact ⟨v, hv.succ fun fuel => by simp only [xUseful, if_neg hn, hsig]⟩
      | xSigOpen absent =>
          obtain ⟨v, hv⟩ := ih _ (.default hn)
          exact ⟨_, (hv.map (xPrepend absent)).succ fun fuel => by
            simp only [xUseful, if_neg hn, hsig]⟩
      | xSigUnknown =>
          exact ⟨.xUnknown, (Yields.pure _).succ fun fuel => by
            simp only [xUseful, if_neg hn, hsig]⟩

/-- No chain of calls is infinite, and the search ends. -/
theorem xUseful_terminates :
    (¬ ∃ run : Nat → List Row × Int, ∀ i, Calls (run i) (run (i + 1))) ∧
      ∀ (tab : XCtors) (rows : List Row) (n : Int),
        Returns fun fuel => xUseful tupleType tab fuel rows n := by
  constructor
  · rintro ⟨run, hrun⟩
    exact (wellFounded_iff_isEmpty_descending_chain.1 wellFounded_calls).false ⟨run, hrun⟩
  · exact fun tab rows n => returns_xUseful tupleType tab (rows, n)

end Search

end Kaikai.Exhaust
