import Kaikai.KeyedRuns
import Kaikai.UnionType

/-!
Which unions have one normal form in all their spellings: the key erases what tells some types
apart, so the components of one key keep the order they were written in.
-/

namespace Kaikai.UnionType

open Kaikai.Str Kaikai.KeyedRuns
open Kaikai.Decimal (intToString)

variable {U R P : Type}

/-- The place of a component. -/
def orderKey (t : Ty U R P) : List ℕ :=
  codes (unionOrderKey t)

theorem unionSortInsert_eq (t : Ty U R P) (l : List (Ty U R P)) :
    unionSortInsert t l = insertAfter orderKey t l := by
  induction l with
  | nil => rfl
  | cons h rest ih =>
      rw [unionSortInsert, insertAfter, ih]
      by_cases hlt : orderKey t < orderKey h
      · rw [if_pos hlt, if_pos ((stringLt_iff _ _).2 hlt)]
      · rw [if_neg hlt, if_neg fun h => hlt ((stringLt_iff _ _).1 h)]

theorem unionSortByMangle_eq (l : List (Ty U R P)) : unionSortByMangle l = sortBy orderKey l :=
  congrArg (List.foldr · [] l) (funext fun t => funext (unionSortInsert_eq t))

theorem unionDedupSorted_eq : ∀ l : List (Ty U R P), unionDedupSorted l = collapse infTyEq l
  | [] => rfl
  | [_] => rfl
  | h :: n :: trail => by
      rw [unionDedupSorted, collapse, unionDedupSorted_eq (n :: trail)]

def scalarKey (rank : ℤ) : Str :=
  match rank with
  | 0 => ascii "Int"
  | 1 => ascii "Real"
  | 2 => ascii "Bool"
  | 3 => ascii "String"
  | 4 => ascii "Char"
  | 5 => ascii "Unit"
  | 6 => ascii "Byte"
  | 7 => ascii "Int32"
  | 8 => ascii "UInt32"
  | 9 => ascii "UInt64"
  | 10 => ascii "Int128"
  | _ => ascii "Handle"

theorem unionOrderKey_scalar {t : Ty U R P} (h : 0 ≤ scalarRank t) :
    unionOrderKey t = scalarKey (scalarRank t) := by
  cases t <;> first | rfl | simp [scalarRank] at h

theorem unionOrderKey_eq_of_infTyEq :
    ∀ a b : Ty U R P, infTyEq a b = true → unionOrderKey a = unionOrderKey b := by
  refine (infTyEq.mutual_induct (fun a b : Ty U R P => infTyEq a b = true →
      unionOrderKey a = unionOrderKey b) (fun as bs : List (Ty U R P) =>
      infTyListEq as bs = true → unionOrderKeys as = unionOrderKeys bs) ?_ ?_ ?_ ?_ ?_ ?_ ?_ ?_ ?_
      ?_ ?_ ?_ ?_).1
  · intro x y h
    rfl
  · intro x y ih h
    rw [infTyEq] at h
    rw [unionOrderKey, unionOrderKey, ih h]
  · intro aps ar _ bps br _ ihs ih h
    rw [infTyEq, Bool.and_eq_true] at h
    rw [unionOrderKey, unionOrderKey, ihs h.1, ih h.2]
  · intro sa aa sb ba ihs h
    rw [infTyEq, Bool.and_eq_true, decide_eq_true_eq] at h
    have hargs := ihs h.2
    cases aa <;> cases ba <;> simp_all [unionOrderKey, unionOrderKeys]
  · intro x _ y _ ih h
    rw [infTyEq] at h
    rw [unionOrderKey, unionOrderKey, ih h]
  · intro x _ y _ ih h
    rw [infTyEq] at h
    rw [unionOrderKey, unionOrderKey, ih h]
  · intro asv x bsv y ih h
    rw [infTyEq, Bool.and_eq_true] at h
    rw [unionOrderKey, unionOrderKey, ih h.2]
  · intro xs ys ihs h
    rw [infTyEq] at h
    rw [unionOrderKey, unionOrderKey, ihs h]
  · intro h
    rfl
  · intro a b hvar hlist hfn hcon hdim hrefine hshape hunion hnothing h
    rw [infTyEq.eq_10 _ _ hvar hlist hfn hcon hdim hrefine hshape hunion hnothing, Bool.and_eq_true,
      decide_eq_true_eq, decide_eq_true_eq] at h
    rw [unionOrderKey_scalar h.1, unionOrderKey_scalar (h.2 ▸ h.1), h.2]
  · intro h
    rfl
  · intro a as b bs ih ihs h
    rw [infTyListEq, Bool.and_eq_true] at h
    rw [unionOrderKeys, unionOrderKeys, ih h.1, ihs h.2]
  · intro as bs hnil hcons h
    rw [infTyListEq.eq_3 _ _ hnil hcons] at h
    exact absurd h Bool.false_ne_true

theorem orderKey_eq_of_infTyEq (a b : Ty U R P) (h : infTyEq a b = true) :
    orderKey a = orderKey b :=
  congrArg codes (unionOrderKey_eq_of_infTyEq a b h)

/-- A type is the same as itself, `TyAny` too, which the checker's equality sets apart. -/
def SameTy (a b : Ty U R P) : Prop :=
  a = b ∨ infTyEq a b = true

/-- Two lists have the same components once nested unions are flattened, by the equality of the
checker. -/
def SameTypes (xs ys : List (Ty U R P)) : Prop :=
  (∀ x ∈ unionFlatten xs, ∃ y ∈ unionFlatten ys, SameTy x y) ∧
    ∀ y ∈ unionFlatten ys, ∃ x ∈ unionFlatten xs, SameTy x y

/-- Two lists have the very same components: one is the other permuted, with components repeated,
nested or grouped otherwise. -/
def SameMembers (xs ys : List (Ty U R P)) : Prop :=
  ∀ t, t ∈ unionFlatten xs ↔ t ∈ unionFlatten ys

/-- No two components have one key, and each is equal to itself. -/
def KeyTells (xs : List (Ty U R P)) : Prop :=
  ∀ a ∈ unionFlatten xs, ∀ b ∈ unionFlatten xs, unionOrderKey a = unionOrderKey b →
    a = b ∧ infTyEq a b = true

/-- No other type is equal to a component. -/
def Rigid (xs : List (Ty U R P)) : Prop :=
  ∀ a ∈ unionFlatten xs, ∀ b, infTyEq a b = true → a = b

/-- The components of one key, the last first, without those that the next one repeats. -/
def spelling (key : Str) (l : List (Ty U R P)) : List (Ty U R P) :=
  collapse infTyEq (l.filter fun t => unionOrderKey t = key).reverse

/-- The components of a type: those of a union, else itself. -/
def parts : Ty U R P → List (Ty U R P)
  | .tyUnion ps => ps
  | t => [t]

/-- A component that no flattening takes apart. -/
def Flat (t : Ty U R P) : Prop :=
  unionFlattenOne t = [t] ∧ parts t = [t]

theorem infTyEq_flat {a b : Ty U R P} (ha : Flat a) (h : infTyEq a b = true) : Flat b := by
  cases b with
  | tyUnion inner =>
      cases a with
      | tyUnion outer =>
          have hself : outer = [.tyUnion outer] := ha.2
          have hsize := congrArg sizeOf hself
          simp at hsize
          omega
      | _ => simp [infTyEq, scalarRank] at h
  | _ => exact ⟨rfl, rfl⟩

mutual

theorem flat_of_mem_unionFlatten : ∀ (xs : List (Ty U R P)), ∀ t ∈ unionFlatten xs, Flat t
  | [], t, h => by cases h
  | x :: rest, t, h => by
      rw [unionFlatten, List.mem_append] at h
      obtain h | h := h
      · exact flat_of_mem_unionFlattenOne x t h
      · exact flat_of_mem_unionFlatten rest t h

theorem flat_of_mem_unionFlattenOne : ∀ x : Ty U R P, ∀ t ∈ unionFlattenOne x, Flat t := by
  intro x t h
  cases x with
  | tyUnion inner => exact flat_of_mem_unionFlatten inner t h
  | _ =>
      obtain rfl := List.mem_singleton.1 h
      exact ⟨rfl, rfl⟩

end

theorem unionFlatten_of_flat {l : List (Ty U R P)} (h : ∀ t ∈ l, Flat t) : unionFlatten l = l := by
  induction l with
  | nil => rfl
  | cons t rest ih =>
      obtain ⟨ht, hrest⟩ := List.forall_mem_cons.1 h
      rw [unionFlatten, ht.1, ih hrest, List.singleton_append]

/-- What `normalize_union` keeps of the components. -/
def kept (l : List (Ty U R P)) : List (Ty U R P) :=
  collapse infTyEq (sortBy orderKey l)

theorem normalizeUnion_eq (xs : List (Ty U R P)) :
    normalizeUnion xs = match kept (unionFlatten xs) with
      | [] => .tyAny
      | [only] => only
      | deduped => .tyUnion deduped := by
  rw [normalizeUnion, unionSortByMangle_eq, unionDedupSorted_eq]
  rfl

theorem parts_normalizeUnion {xs : List (Ty U R P)} (h : unionFlatten xs ≠ []) :
    parts (normalizeUnion xs) = kept (unionFlatten xs) := by
  have hmem : ∀ t ∈ kept (unionFlatten xs), parts t = [t] := fun t ht =>
    (flat_of_mem_unionFlatten xs t (mem_sortBy.1 (mem_of_mem_collapse ht))).2
  have hne : kept (unionFlatten xs) ≠ [] := by
    refine collapse_ne_nil fun hnil => h (List.eq_nil_iff_forall_not_mem.2 fun t ht => ?_)
    exact absurd (mem_sortBy.2 ht) (hnil ▸ List.not_mem_nil)
  rw [normalizeUnion_eq]
  split
  · exact absurd ‹_› hne
  · next only honly => exact (hmem only (honly ▸ List.mem_singleton_self _)).trans honly.symm
  · rfl

theorem kept_eq_iff (l m : List (Ty U R P)) :
    kept l = kept m ↔ ∀ key, spelling key l = spelling key m := by
  have hrun : ∀ (key : Str) (zs : List (Ty U R P)),
      run orderKey (codes key) zs = zs.filter fun t => unionOrderKey t = key := fun key zs =>
    List.filter_congr fun t _ => decide_eq_decide.2 codes_injective.eq_iff
  have hruns := forall₂_collapse_sortBy_iff (R := Eq) (κ := List ℕ)
    (orderKey_eq_of_infTyEq (U := U) (R := R) (P := P)) (fun _ _ h => congrArg orderKey h) l m
  simp only [List.forall₂_eq_eq_eq] at hruns
  rw [kept, kept, hruns]
  constructor
  · intro h key
    have hk := h (codes key)
    rw [hrun, hrun] at hk
    exact hk
  · intro h k
    by_cases hk : ∃ key, codes key = k
    · obtain ⟨key, rfl⟩ := hk
      rw [hrun, hrun]
      exact h key
    · have hnone : ∀ zs : List (Ty U R P), run orderKey k zs = [] := fun zs =>
        run_eq_nil fun t _ ht => hk ⟨_, ht⟩
      rw [hnone, hnone]

theorem group_cons (t : Ty U R P) (l : List (Ty U R P)) :
    (t :: l).filter (fun a => unionOrderKey a = unionOrderKey t) =
      t :: l.filter fun a => unionOrderKey a = unionOrderKey t :=
  List.filter_cons_of_pos (decide_eq_true rfl)

theorem getLast?_spelling (t : Ty U R P) (l : List (Ty U R P)) :
    (spelling (unionOrderKey t) (t :: l)).getLast? = some t := by
  rw [spelling, getLast?_collapse, group_cons, List.reverse_cons, List.getLast?_concat]

theorem mem_group {key : Str} {t : Ty U R P} {l : List (Ty U R P)} :
    t ∈ (l.filter fun t => unionOrderKey t = key).reverse ↔ t ∈ l ∧ unionOrderKey t = key := by
  simp

theorem KeyTells.spelling_eq {xs : List (Ty U R P)} (h : KeyTells xs) {t : Ty U R P}
    {l : List (Ty U R P)} (hl : ∀ a ∈ l, a ∈ unionFlatten xs) (ht : t ∈ l) :
    spelling (unionOrderKey t) l = [t] := by
  have hsame : ∀ a ∈ (l.filter fun a => unionOrderKey a = unionOrderKey t).reverse,
      t = a ∧ ∀ b ∈ (l.filter fun b => unionOrderKey b = unionOrderKey t).reverse,
        infTyEq a b = true := by
    intro a ha
    obtain ⟨ha, hakey⟩ := mem_group.1 ha
    refine ⟨(h t (hl t ht) a (hl a ha) hakey.symm).1, fun b hb => ?_⟩
    obtain ⟨hb, hbkey⟩ := mem_group.1 hb
    exact (h a (hl a ha) b (hl b hb) (hakey.trans hbkey.symm)).2
  obtain ⟨a, ha, hlast⟩ := collapse_of_same (fun a ha => (hsame a ha).2)
    (List.ne_nil_of_mem (mem_group.2 ⟨ht, rfl⟩))
  rw [(hsame a ha).1]
  exact (hsame a ha).1 ▸ hlast

theorem spelling_eq_nil {key : Str} {l : List (Ty U R P)}
    (h : ∀ t ∈ l, unionOrderKey t ≠ key) : spelling key l = [] := by
  have hnone : l.filter (fun t => unionOrderKey t = key) = [] := by simpa using h
  rw [spelling, hnone]
  rfl

theorem KeyTells.normalizeUnion_eq {xs ys : List (Ty U R P)} (h : KeyTells xs)
    (hsame : SameMembers xs ys) : normalizeUnion xs = normalizeUnion ys := by
  have hkept : kept (unionFlatten xs) = kept (unionFlatten ys) := by
    refine (kept_eq_iff _ _).2 fun key => ?_
    by_cases hkey : ∃ t ∈ unionFlatten xs, unionOrderKey t = key
    · obtain ⟨t, ht, rfl⟩ := hkey
      rw [h.spelling_eq (fun _ ha => ha) ht,
        h.spelling_eq (fun a ha => (hsame a).2 ha) ((hsame t).1 ht)]
    · rw [spelling_eq_nil fun t ht heq => hkey ⟨t, ht, heq⟩,
        spelling_eq_nil fun t ht heq => hkey ⟨t, (hsame t).2 ht, heq⟩]
  rw [UnionType.normalizeUnion_eq, UnionType.normalizeUnion_eq, hkept]

theorem eq_of_respelt {xs : List (Ty U R P)} {a b : Ty U R P} (ha : a ∈ unionFlatten xs)
    (hb : Flat b) (hkey : unionOrderKey a = unionOrderKey b)
    (h : normalizeUnion (a :: unionFlatten xs) = normalizeUnion (b :: unionFlatten xs)) :
    a = b := by
  have hflat := flat_of_mem_unionFlatten xs
  have hacons : unionFlatten (a :: unionFlatten xs) = a :: unionFlatten xs :=
    unionFlatten_of_flat (List.forall_mem_cons.2 ⟨hflat a ha, hflat⟩)
  have hbcons : unionFlatten (b :: unionFlatten xs) = b :: unionFlatten xs :=
    unionFlatten_of_flat (List.forall_mem_cons.2 ⟨hb, hflat⟩)
  have hkept : kept (a :: unionFlatten xs) = kept (b :: unionFlatten xs) := by
    have hparts := congrArg parts h
    have hane : unionFlatten (a :: unionFlatten xs) ≠ [] := by
      rw [hacons]
      exact List.cons_ne_nil _ _
    have hbne : unionFlatten (b :: unionFlatten xs) ≠ [] := by
      rw [hbcons]
      exact List.cons_ne_nil _ _
    rwa [parts_normalizeUnion hane, parts_normalizeUnion hbne, hacons, hbcons] at hparts
  have hspelt := (kept_eq_iff _ _).1 hkept (unionOrderKey a)
  have hlast := congrArg List.getLast? hspelt
  rw [getLast?_spelling, hkey, getLast?_spelling] at hlast
  exact Option.some.inj hlast

theorem infTyEq_of_repeated {xs : List (Ty U R P)} {a : Ty U R P} (ha : a ∈ unionFlatten xs)
    (honly : ∀ b ∈ unionFlatten xs, unionOrderKey a = unionOrderKey b → a = b)
    (h : kept (unionFlatten xs) = kept (a :: unionFlatten xs)) : infTyEq a a = true := by
  by_contra hself
  have hall : ∀ l : List (Ty U R P), (∀ b ∈ l, b ∈ unionFlatten xs) →
      spelling (unionOrderKey a) l =
        (l.filter fun b => unionOrderKey b = unionOrderKey a).reverse := by
    intro l hl
    have hcopy : ∀ b ∈ (l.filter fun b => unionOrderKey b = unionOrderKey a).reverse, a = b := by
      intro b hb
      obtain ⟨hb, hbkey⟩ := mem_group.1 hb
      exact honly b (hl b hb) hbkey.symm
    refine collapse_eq_self fun b hb c hc => ?_
    rw [← hcopy b hb, ← hcopy c hc]
    exact Bool.eq_false_iff.2 hself
  have hspelt := (kept_eq_iff _ _).1 h (unionOrderKey a)
  rw [hall _ fun _ hb => hb, hall _ (List.forall_mem_cons.2 ⟨ha, fun _ hb => hb⟩)] at hspelt
  have hlength := congrArg List.length hspelt
  rw [List.length_reverse, List.length_reverse, group_cons, List.length_cons] at hlength
  omega

theorem keyTells_of_canonical {xs : List (Ty U R P)}
    (h : ∀ ys, SameMembers xs ys → normalizeUnion xs = normalizeUnion ys) : KeyTells xs := by
  have hflat := flat_of_mem_unionFlatten xs
  have hcons : ∀ a ∈ unionFlatten xs,
      unionFlatten (a :: unionFlatten xs) = a :: unionFlatten xs := fun a ha =>
    unionFlatten_of_flat (List.forall_mem_cons.2 ⟨hflat a ha, hflat⟩)
  have hrespelt : ∀ a ∈ unionFlatten xs,
      normalizeUnion xs = normalizeUnion (a :: unionFlatten xs) := by
    intro a ha
    refine h _ fun t => ?_
    rw [hcons a ha, List.mem_cons]
    exact ⟨.inr, fun ht => ht.elim (fun heq => heq ▸ ha) id⟩
  have honly : ∀ a ∈ unionFlatten xs, ∀ b ∈ unionFlatten xs,
      unionOrderKey a = unionOrderKey b → a = b := fun a ha b hb hkey =>
    eq_of_respelt ha (hflat b hb) hkey ((hrespelt a ha).symm.trans (hrespelt b hb))
  intro a ha b hb hkey
  obtain rfl := honly a ha b hb hkey
  refine ⟨rfl, infTyEq_of_repeated ha (honly a ha) ?_⟩
  have hparts := congrArg parts (hrespelt a ha)
  rwa [parts_normalizeUnion (List.ne_nil_of_mem ha), parts_normalizeUnion ?_, hcons a ha] at hparts
  rw [hcons a ha]
  exact List.cons_ne_nil _ _

theorem SameTypes.members {xs ys : List (Ty U R P)} (h : SameTypes xs ys) (hrigid : Rigid xs) :
    SameMembers xs ys := by
  have hsame : ∀ x ∈ unionFlatten xs, ∀ y, SameTy x y → x = y := by
    rintro x hx y (rfl | hxy)
    · rfl
    · exact hrigid x hx y hxy
  intro t
  constructor
  · intro ht
    obtain ⟨y, hy, hty⟩ := h.1 t ht
    rwa [hsame t ht y hty]
  · intro ht
    obtain ⟨x, hx, hxt⟩ := h.2 t ht
    rwa [← hsame x hx t hxt]

theorem SameMembers.sameTypes {xs ys : List (Ty U R P)} (h : SameMembers xs ys) :
    SameTypes xs ys :=
  ⟨fun x hx => ⟨x, (h x).1 hx, .inl rfl⟩, fun y hy => ⟨y, (h y).2 hy, .inl rfl⟩⟩

theorem rigid_of_canonical {xs : List (Ty U R P)}
    (h : ∀ ys, SameTypes xs ys → normalizeUnion xs = normalizeUnion ys) : Rigid xs := by
  intro a ha b hab
  have hflat := flat_of_mem_unionFlatten xs
  have hb := infTyEq_flat (hflat a ha) hab
  have hrespelt : ∀ c, SameTy a c → Flat c →
      normalizeUnion xs = normalizeUnion (c :: unionFlatten xs) := by
    intro c hac hc
    have hcons : unionFlatten (c :: unionFlatten xs) = c :: unionFlatten xs :=
      unionFlatten_of_flat (List.forall_mem_cons.2 ⟨hc, hflat⟩)
    refine h _ ⟨fun x hx => ⟨x, ?_, .inl rfl⟩, fun y hy => ?_⟩
    · rw [hcons]
      exact List.mem_cons_of_mem _ hx
    · rw [hcons] at hy
      rcases List.mem_cons.1 hy with rfl | hy
      · exact ⟨a, ha, hac⟩
      · exact ⟨y, hy, .inl rfl⟩
  exact eq_of_respelt ha hb (unionOrderKey_eq_of_infTyEq a b hab)
    ((hrespelt a (.inl rfl) (hflat a ha)).symm.trans (hrespelt b (.inr hab) hb))

/-- The unions that have one normal form in every spelling: in those that permute, repeat, nest or
normalise its components, and in those that keep its types up to the equality of the checker. -/
theorem normalizeUnion_canonical_iff (xs : List (Ty U R P)) :
    ((∀ ys, SameTypes xs ys → normalizeUnion xs = normalizeUnion ys) ↔ KeyTells xs ∧ Rigid xs) ∧
      ((∀ ys, SameMembers xs ys → normalizeUnion xs = normalizeUnion ys) ↔ KeyTells xs) :=
  ⟨⟨fun h => ⟨keyTells_of_canonical fun ys hys => h ys hys.sameTypes, rigid_of_canonical h⟩,
      fun h _ hys => h.1.normalizeUnion_eq (hys.members h.2)⟩,
    ⟨keyTells_of_canonical, fun h _ hys => h.normalizeUnion_eq hys⟩⟩

/-- Two type variables have one key: swapped, or with one repeated, they are another type. -/
theorem variables_not_canonical :
    (SameTypes [.tyVarT 0, .tyVarT 1] ([.tyVarT 1, .tyVarT 0] : List (Ty Unit Unit Unit)) ∧
        normalizeUnion [.tyVarT 0, .tyVarT 1] ≠
          (normalizeUnion [.tyVarT 1, .tyVarT 0] : Ty Unit Unit Unit)) ∧
      SameTypes [.tyVarT 0, .tyVarT 1, .tyVarT 0]
          ([.tyVarT 0, .tyVarT 1] : List (Ty Unit Unit Unit)) ∧
        normalizeUnion [.tyVarT 0, .tyVarT 1, .tyVarT 0] ≠
          (normalizeUnion [.tyVarT 0, .tyVarT 1] : Ty Unit Unit Unit) := by
  refine ⟨⟨?_, fun h => ?_⟩, ?_, fun h => ?_⟩
  · simp [SameTypes, unionFlatten, unionFlattenOne, SameTy]
  · change Ty.tyUnion [.tyVarT 1, .tyVarT 0] = .tyUnion [.tyVarT 0, .tyVarT 1] at h
    simp at h
  · simp [SameTypes, unionFlatten, unionFlattenOne, SameTy]
  · change Ty.tyUnion [.tyVarT 0, .tyVarT 1, .tyVarT 0] = .tyUnion [.tyVarT 1, .tyVarT 0] at h
    simp at h

end Kaikai.UnionType
