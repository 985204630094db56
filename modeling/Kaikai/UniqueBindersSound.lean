import Kaikai.UniqueBindersWalk

namespace Kaikai.UniqueBinders

open Kaikai.Str

section Body

variable {A : Type}

/-- A function's parameters, in scope in all of its body. -/
def paramScope (params : List (Binder ℤ)) : List Bind :=
  params.map fun b => ⟨b.id, none⟩

/-- The binding sites of a function: its parameters, and every binder of its body but a clause's
continuation and a handle's alias. -/
def sites (params : List (Binder ℤ)) (body : Expr A ℤ) : List Bind :=
  paramScope params ++ (body.marks (paramScope params)).filterMap Mark.site?

/-- What each read of the body refers to, in the order of the body. -/
def references (params : List (Binder ℤ)) (body : Expr A ℤ) : List (Option ℕ) :=
  (body.marks (paramScope params)).filterMap Mark.refers?

/-- The ids that `ub_body` finds bound at more than one site. -/
def repeatedIds (params : List (Binder ℤ)) (body : Expr A ℤ) : List ℤ :=
  ubRepeatedIds ((params ++ ubBinders body []).map (·.id)) [] []

/-- One body renames another: no two sites share an id, every read refers to the binder at the
place of the one it referred to, and all but ids is unchanged. -/
structure Renames (params : List (Binder ℤ)) (body body' : Expr A ℤ) : Prop where
  distinct : ((sites params body').map (·.id)).Nodup
  refs : references params body' = references params body
  shape : body'.erase = body.erase

/-- No two sites of one id stand at one position, different sites are due different ids, and no
read has a binder due the id of the one it refers to in between. -/
structure Apart (params : List (Binder ℤ)) (body : Expr A ℤ) : Prop where
  positions : (sites params body).Nodup
  ids : ∀ a ∈ sites params body, ∀ b ∈ sites params body,
    a.due (repeatedIds params body) = b.due (repeatedIds params body) → a = b
  clear : ∀ scope l, .read scope l ∈ body.marks (paramScope params) →
    Clear (repeatedIds params body) scope l

variable {dups : List ℤ}

theorem Bind.due_nil (b : Bind) : b.due [] = b.id := by
  obtain ⟨id, site⟩ := b
  cases site <;> rfl

theorem Bind.image_nil : Bind.image [] = fun b => b := by
  funext b
  rw [Bind.image, Bind.due_nil]

theorem target_nil (scope : List Bind) (l : ℤ) : target [] scope l = l := by
  induction scope with
  | nil => rfl
  | cons b rest ih =>
      rw [target_cons, ih, Bind.due_nil]
      split
      · exact (localEq_iff.1 ‹_›).2
      · rfl

theorem Mark.image_nil (m : Mark) : m.image [] = m := by
  cases m with
  | bind b => rw [Mark.image, Bind.image_nil]
  | read scope l => rw [Mark.image, Bind.image_nil, List.map_id', target_nil]

theorem linked_params (params : List (Binder ℤ)) :
    Linked dups { env := params.map fun b => ⟨b.id, b⟩, dups := dups } (paramScope params) where
  env := by
    rw [paramScope, List.map_map, List.map_map]
    rfl
  dups := rfl

theorem image_paramScope (params : List (Binder ℤ)) :
    (paramScope params).map (Bind.image dups) = paramScope params := by
  rw [paramScope, List.map_map]
  rfl

theorem ubBody_marks (params : List (Binder ℤ)) (body : Expr A ℤ) :
    (ubBody body params).marks (paramScope params) =
      (body.marks (paramScope params)).map (Mark.image (repeatedIds params body)) := by
  rw [ubBody]
  change (if (repeatedIds params body).isEmpty then _ else _ : Expr A ℤ).marks _ = _
  split
  case isTrue hempty =>
    rw [List.isEmpty_iff.1 hempty, funext Mark.image_nil, List.map_id']
  case isFalse =>
    rw [← ubExpr_marks body (linked_params params), image_paramScope]
    rfl

theorem ubBody_erase (params : List (Binder ℤ)) (body : Expr A ℤ) :
    (ubBody body params).erase = body.erase := by
  simp only [ubBody]
  split
  · rfl
  · exact ubExpr_erase body _

theorem site?_image (m : Mark) : (m.image dups).site? = m.site?.map (Bind.image dups) := by
  cases m with
  | read scope l => rfl
  | bind b =>
      obtain ⟨id, site⟩ := b
      cases site <;> rfl

theorem ubBody_sites (params : List (Binder ℤ)) (body : Expr A ℤ) :
    sites params (ubBody body params) =
      (sites params body).map (Bind.image (repeatedIds params body)) := by
  rw [sites, sites, ubBody_marks, List.map_append, image_paramScope, List.filterMap_map,
    List.map_filterMap]
  congr 2
  funext m
  exact site?_image m

theorem ubBody_distinct_iff (params : List (Binder ℤ)) (body : Expr A ℤ) :
    ((sites params (ubBody body params)).map (·.id)).Nodup ↔
      (sites params body).Nodup ∧ ∀ a ∈ sites params body, ∀ b ∈ sites params body,
        a.due (repeatedIds params body) = b.due (repeatedIds params body) → a = b := by
  rw [ubBody_sites, List.map_map]
  constructor
  · intro h
    exact ⟨h.of_map _, fun a ha b hb => List.inj_on_of_nodup_map h ha hb⟩
  · rintro ⟨hnodup, hinj⟩
    exact hnodup.map_on fun a ha b hb => hinj a ha b hb

theorem not_renames_of_repeated_site {params : List (Binder ℤ)} {body : Expr A ℤ}
    (h : ¬ (sites params body).Nodup) : ¬ Renames params body (ubBody body params) :=
  fun hrenames => h ((ubBody_distinct_iff params body).1 hrenames.distinct).1

theorem references_image_iff (ms : List Mark) :
    (ms.map (Mark.image dups)).filterMap Mark.refers? = ms.filterMap Mark.refers? ↔
      ∀ scope l, .read scope l ∈ ms → Clear dups scope l := by
  induction ms with
  | nil => simp
  | cons m rest ih =>
      cases m with
      | bind b =>
          have hnot : ∀ scope l, Mark.read scope l ∈ Mark.bind b :: rest ↔ .read scope l ∈ rest :=
            fun scope l => by simp
          simp only [hnot, ← ih]
          rfl
      | read scope l =>
          have hcons : ∀ scope' l', Mark.read scope' l' ∈ Mark.read scope l :: rest ↔
              (scope' = scope ∧ l' = l) ∨ .read scope' l' ∈ rest := fun scope' l' => by simp
          change refers _ _ :: _ = refers scope l :: _ ↔ _
          rw [List.cons_eq_cons, ih, refers_image_iff]
          constructor
          · rintro ⟨hread, hrest⟩ scope' l' hmem
            obtain ⟨rfl, rfl⟩ | hmem := (hcons scope' l').1 hmem
            · exact hread
            · exact hrest scope' l' hmem
          · intro h
            exact ⟨h scope l ((hcons scope l).2 (.inl ⟨rfl, rfl⟩)),
              fun scope' l' hmem => h scope' l' ((hcons scope' l').2 (.inr hmem))⟩

end Body

variable {A : Type}

/-- The pass renames a body exactly when its sites are apart. -/
theorem ubBody_renames_iff (params : List (Binder ℤ)) (body : Expr A ℤ) :
    Renames params body (ubBody body params) ↔ Apart params body := by
  have hrefs : references params (ubBody body params) = references params body ↔ _ :=
    (congrArg (· = _) (congrArg (List.filterMap _) (ubBody_marks params body))).to_iff.trans
      (references_image_iff _)
  constructor
  · intro h
    obtain ⟨hpositions, hids⟩ := (ubBody_distinct_iff params body).1 h.distinct
    exact ⟨hpositions, hids, hrefs.1 h.refs⟩
  · intro h
    exact ⟨(ubBody_distinct_iff params body).2 ⟨h.positions, h.ids⟩, hrefs.2 h.clear,
      ubBody_erase params body⟩

/-- A block that binds a local at one position and reads it. -/
def pasted (rhs : Expr Unit ℤ) : Expr Unit ℤ :=
  .eBlock [.sLet (.pBind ⟨7, ascii "x"⟩ ⟨3, 5⟩) () rhs] (some (.eLocal 7 ())) ()

/-- Two copies of one block keep sharing an id, side by side and one inside the other. -/
theorem pasted_not_renamed :
    ¬ Renames [] (.other () [pasted (.other () []), pasted (.other () [])])
        (ubBody (.other () [pasted (.other () []), pasted (.other () [])]) []) ∧
      ¬ Renames [] (pasted (pasted (.other () []))) (ubBody (pasted (pasted (.other () []))) []) :=
  ⟨not_renames_of_repeated_site (by decide), not_renames_of_repeated_site (by decide)⟩

end Kaikai.UniqueBinders
