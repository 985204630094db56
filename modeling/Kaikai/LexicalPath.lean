import Mathlib.Data.List.Infix
import Kaikai.Str

namespace Kaikai.LexicalPath

open Str

def dot : Str := [46]

def dotdot : Str := [46, 46]

/-- A resolved path: the names below the root, or below the `..` segments it starts with. -/
structure Resolved where
  rooted : Bool
  segments : List Str
deriving DecidableEq

/-- One level up: the root is its own parent, and a path of no names climbs out of its start. -/
def pop (rooted : Bool) (stack : List Str) : List Str :=
  match stack.getLast? with
  | none => if rooted then [] else [dotdot]
  | some last => if last = dotdot then stack ++ [dotdot] else stack.dropLast

def step (rooted : Bool) (stack : List Str) (seg : Str) : List Str :=
  if seg = [] ∨ seg = dot then stack
  else if seg = dotdot then pop rooted stack
  else stack ++ [seg]

def resolve (path : Str) : Resolved :=
  ⟨path.head? == some 47, (path.splitOn 47).foldl (step (path.head? == some 47)) []⟩

/-- `p` is `root` or a place below it. -/
def AtOrBelow (p root : Resolved) : Prop :=
  p.rooted = root.rooted ∧ ∃ rest, p.segments = root.segments ++ rest ∧ dotdot ∉ rest

/-- What a run of segments does to a path: it climbs, then it descends. -/
structure Climb where
  ups : Nat
  names : List Str
deriving DecidableEq

def Climb.step (c : Climb) (seg : Str) : Climb :=
  if seg = [] ∨ seg = dot then c
  else if seg = dotdot then
    if c.names = [] then ⟨c.ups + 1, []⟩ else ⟨c.ups, c.names.dropLast⟩
  else ⟨c.ups, c.names ++ [seg]⟩

def climbOf (segs : List Str) : Climb := segs.foldl Climb.step ⟨0, []⟩

theorem Climb.step_names {c : Climb} (h : dotdot ∉ c.names) (seg : Str) :
    dotdot ∉ (c.step seg).names := by
  unfold Climb.step
  split_ifs with hskip hup hnone
  · exact h
  · exact List.not_mem_nil
  · exact fun hmem => h (List.dropLast_subset _ hmem)
  · rw [List.mem_append, List.mem_singleton]
    rintro (hmem | heq)
    · exact h hmem
    · exact hup heq.symm

theorem pop_append {rooted : Bool} {stack names : List Str} (hne : names ≠ [])
    (h : dotdot ∉ names) : pop rooted (stack ++ names) = stack ++ names.dropLast := by
  obtain ⟨front, last, rfl⟩ := List.eq_nil_or_concat' names |>.resolve_left hne
  have hlast : last ≠ dotdot := by
    rintro rfl
    exact h (List.mem_append_right _ List.mem_cons_self)
  rw [pop, ← List.append_assoc, List.getLast?_append, List.getLast?_singleton, Option.some_or]
  dsimp only
  rw [if_neg hlast, List.dropLast_concat, List.dropLast_concat]

theorem step_climb {rooted : Bool} (stack : List Str) {c : Climb} (h : dotdot ∉ c.names)
    (seg : Str) : step rooted ((pop rooted)^[c.ups] stack ++ c.names) seg =
      (pop rooted)^[(c.step seg).ups] stack ++ (c.step seg).names := by
  unfold step Climb.step
  split_ifs with hskip hup hnone
  · rfl
  · rw [hnone, List.append_nil, List.append_nil, Function.iterate_succ_apply']
  · exact pop_append hnone h
  · exact List.append_assoc _ _ _

theorem foldl_climb (rooted : Bool) (stack : List Str) (segs : List Str) (c : Climb)
    (h : dotdot ∉ c.names) :
    segs.foldl (step rooted) ((pop rooted)^[c.ups] stack ++ c.names) =
        (pop rooted)^[(segs.foldl Climb.step c).ups] stack ++ (segs.foldl Climb.step c).names ∧
      dotdot ∉ (segs.foldl Climb.step c).names := by
  induction segs generalizing c with
  | nil => exact ⟨rfl, h⟩
  | cons seg segs ih =>
      rw [List.foldl_cons, List.foldl_cons, step_climb stack h]
      exact ih _ (Climb.step_names h seg)

theorem foldl_step {rooted : Bool} (stack : List Str) (segs : List Str) :
    segs.foldl (step rooted) stack =
      (pop rooted)^[(climbOf segs).ups] stack ++ (climbOf segs).names := by
  have hfold := (foldl_climb rooted stack segs ⟨0, []⟩ List.not_mem_nil).1
  rwa [List.append_nil] at hfold

theorem climbOf_names (segs : List Str) : dotdot ∉ (climbOf segs).names :=
  (foldl_climb false [] segs ⟨0, []⟩ List.not_mem_nil).2

/-- A resolved path: `..` segments at the front only, and none below a root. -/
structure Normal (rooted : Bool) (ups : Nat) (names stack : List Str) : Prop where
  eq : stack = List.replicate ups dotdot ++ names
  names : dotdot ∉ names
  root : rooted = true → ups = 0

theorem pop_replicate (rooted : Bool) (ups : Nat) (h : rooted = true → ups = 0) :
    pop rooted (List.replicate ups dotdot) = List.replicate (if rooted then 0 else ups + 1) dotdot := by
  cases rooted with
  | true =>
      rw [h rfl]
      rfl
  | false =>
      cases ups with
      | zero => rfl
      | succ n =>
          rw [pop, List.replicate_succ', List.getLast?_concat]
          dsimp only
          rw [if_pos rfl, ← List.replicate_succ', ← List.replicate_succ']
          rfl

theorem pop_iterate_names {rooted : Bool} {ups : Nat} {names : List Str} (h : dotdot ∉ names) :
    ∀ n, n ≤ names.length → (pop rooted)^[n] (List.replicate ups dotdot ++ names) =
      List.replicate ups dotdot ++ names.take (names.length - n)
  | 0, _ => by rw [Nat.sub_zero, List.take_length]; rfl
  | n + 1, hn => by
      have hne : names.take (names.length - n) ≠ [] := by
        intro hnil
        have hlen := congrArg List.length hnil
        rw [List.length_take, List.length_nil] at hlen
        omega
      rw [Function.iterate_succ_apply', pop_iterate_names h n (by omega),
        pop_append hne fun hmem => h (List.take_subset _ _ hmem), List.dropLast_eq_take,
        List.take_take, List.length_take]
      congr 2
      omega

theorem pop_iterate_over {rooted : Bool} {ups : Nat} {names : List Str} (h : dotdot ∉ names)
    (hroot : rooted = true → ups = 0) (k : Nat) :
    (pop rooted)^[names.length + k] (List.replicate ups dotdot ++ names) =
      List.replicate (if rooted then 0 else ups + k) dotdot := by
  induction k with
  | zero =>
      rw [Nat.add_zero, pop_iterate_names h _ le_rfl, Nat.sub_self, List.take_zero, List.append_nil]
      cases rooted with
      | true => rw [hroot rfl]; rfl
      | false => rfl
  | succ k ih =>
      rw [← Nat.add_assoc, Function.iterate_succ_apply', ih, pop_replicate]
      · cases rooted <;> rfl
      · rintro rfl
        rfl

theorem normal_resolve (path : Str) : ∃ ups names,
    Normal (resolve path).rooted ups names (resolve path).segments := by
  refine ⟨if (resolve path).rooted then 0 else (climbOf (path.splitOn 47)).ups,
    (climbOf (path.splitOn 47)).names, ?_, climbOf_names _, fun h => if_pos h⟩
  have hover : (pop (resolve path).rooted)^[([] : List Str).length +
      (climbOf (path.splitOn 47)).ups] (List.replicate 0 dotdot ++ []) = _ :=
    pop_iterate_over List.not_mem_nil (fun _ => rfl) (climbOf (path.splitOn 47)).ups
  simp only [List.replicate_zero, List.append_nil, List.length_nil, Nat.zero_add] at hover
  rw [← hover]
  exact foldl_step _ _

/-- The names of a resolved path. -/
def namesOf (stack : List Str) : List Str := stack.filter (· ≠ dotdot)

theorem Normal.namesOf_eq {rooted : Bool} {ups : Nat} {names stack : List Str}
    (h : Normal rooted ups names stack) : namesOf stack = names := by
  have hups : (List.replicate ups dotdot).filter (· ≠ dotdot) = [] := by
    rw [List.filter_replicate, if_neg (by simp)]
  have hnames : names.filter (· ≠ dotdot) = names :=
    List.filter_eq_self.2 fun seg hseg => decide_eq_true fun heq => h.names (heq ▸ hseg)
  rw [namesOf, h.eq, List.filter_append, hups, hnames, List.nil_append]

/-- The climb stays inside a path, or leaves it over names that it then descends to again. -/
def StaysIn (root : Resolved) (c : Climb) : Prop :=
  c.ups = 0 ∨ ((root.rooted = true ∨ c.ups ≤ (namesOf root.segments).length) ∧
    (namesOf root.segments).drop ((namesOf root.segments).length - c.ups) <+: c.names)

theorem extends_iff_staysIn {root : Resolved} {ups : Nat} {names : List Str}
    (h : Normal root.rooted ups names root.segments) {c : Climb} (hc : dotdot ∉ c.names) :
    (∃ rest, (pop root.rooted)^[c.ups] root.segments ++ c.names = root.segments ++ rest ∧
      dotdot ∉ rest) ↔ StaysIn root c := by
  rw [StaysIn, h.namesOf_eq]
  obtain hle | hgt := Nat.lt_or_ge names.length c.ups |>.symm
  · have hsplit := List.take_append_drop (names.length - c.ups) names
    rw [h.eq, pop_iterate_names h.names _ hle]
    conv_lhs =>
      enter [1, rest, 1, 2, 1, 2]
      rw [← hsplit]
    simp only [List.append_assoc, List.append_cancel_left_eq]
    constructor
    · rintro ⟨rest, heq, -⟩
      exact .inr ⟨.inr hle, ⟨rest, heq.symm⟩⟩
    · rintro (hzero | ⟨-, rest, heq⟩)
      · refine ⟨c.names, ?_, hc⟩
        rw [hzero, Nat.sub_zero, List.drop_length, List.nil_append]
      · refine ⟨rest, heq.symm, fun hmem => hc ?_⟩
        rw [← heq]
        exact List.mem_append_right _ hmem
  · obtain ⟨k, hk⟩ := Nat.exists_eq_add_of_lt hgt
    rw [Nat.add_assoc] at hk
    rw [h.eq, hk, pop_iterate_over h.names h.root]
    cases hroot : root.rooted with
    | true =>
        have hdrop : names.length - (names.length + (k + 1)) = 0 := by omega
        rw [h.root hroot, if_pos rfl, List.replicate_zero, List.nil_append, List.nil_append, hdrop,
          List.drop_zero]
        constructor
        · rintro ⟨rest, heq, -⟩
          exact .inr ⟨.inl rfl, ⟨rest, heq.symm⟩⟩
        · rintro (hzero | ⟨-, rest, heq⟩)
          · omega
          · refine ⟨rest, heq.symm, fun hmem => hc ?_⟩
            rw [← heq]
            exact List.mem_append_right _ hmem
    | false =>
        refine iff_of_false ?_ ?_
        · rintro ⟨rest, heq, hrest⟩
          rw [if_neg Bool.false_ne_true, List.replicate_add, List.append_assoc, List.append_assoc,
            List.append_cancel_left_eq, List.replicate_succ, List.cons_append] at heq
          cases names with
          | nil =>
              rw [List.nil_append] at heq
              exact hrest (heq ▸ List.mem_cons_self)
          | cons a names =>
              exact h.names ((List.cons.inj heq).1 ▸ List.mem_cons_self)
        · rintro (hzero | ⟨hroot' | hle, -⟩)
          · omega
          · cases hroot'
          · omega

end Kaikai.LexicalPath
