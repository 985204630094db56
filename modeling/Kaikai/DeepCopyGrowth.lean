import Kaikai.DeepCopyValue

namespace Kaikai.DeepCopy

open Kaikai.Runtime (Ref Scalar Fixed RecMeta VecData VarSlot SlotKind varSlotKind)
open Kaikai.Word64 (Word)

namespace Rc

theorem grows_self (rc : Rc) : rc.Grows rc := by
  cases rc with
  | plain n => exact .plain le_rfl
  | atomic n => exact .atomic
  | immortal => exact .immortal

theorem Grows.trans {r s t : Rc} (h : r.Grows s) (h' : s.Grows t) : r.Grows t := by
  cases h with
  | plain hmn =>
      cases h' with
      | plain hnk => exact .plain (hmn.trans hnk)
  | atomic =>
      cases h'
      exact .atomic
  | immortal => exact h'

theorem grows_incref (rc : Rc) : rc.Grows rc.incref := by
  cases rc with
  | plain n => exact .plain (Nat.le_succ n)
  | atomic n => exact .atomic
  | immortal => exact .immortal

theorem Grows.isPlain {r s : Rc} (h : r.Grows s) : s.isPlain = r.isPlain := by cases h <;> rfl

theorem Grows.isAtomic {r s : Rc} (h : r.Grows s) : s.isAtomic = r.isAtomic := by cases h <;> rfl

/-- An ordinary count has risen. -/
def Rises (r s : Rc) : Prop := ∃ m n, r = .plain m ∧ s = .plain n ∧ m < n

theorem Rises.trans_grows {r s t : Rc} (h : r.Rises s) (h' : s.Grows t) : r.Rises t := by
  obtain ⟨m, n, rfl, rfl, hmn⟩ := h
  cases h' with
  | plain hnk => exact ⟨_, _, rfl, rfl, hmn.trans_le hnk⟩

theorem Grows.trans_rises {r s t : Rc} (h : r.Grows s) (h' : s.Rises t) : r.Rises t := by
  obtain ⟨m, n, rfl, rfl, hmn⟩ := h'
  cases h with
  | plain hkm => exact ⟨_, _, rfl, rfl, hkm.trans_lt hmn⟩

end Rc

theorem ext_self (h : Heap) : Ext h h := fun _ nd hnode => ⟨nd.rc, hnode, Rc.grows_self _⟩

theorem Ext.trans {h h' h'' : Heap} (hfirst : Ext h h') (hsecond : Ext h' h'') : Ext h h'' := by
  intro a nd hnode
  obtain ⟨rc, hnode', hgrows⟩ := hfirst a nd hnode
  obtain ⟨rc', hnode'', hgrows'⟩ := hsecond a _ hnode'
  exact ⟨rc', hnode'', hgrows.trans hgrows'⟩

theorem Ext.next_le {h h' : Heap} (hext : Ext h h') : h.next ≤ h'.next := by
  by_contra hlt
  obtain ⟨nd, hnode⟩ : ∃ nd, h.node h'.next = some nd :=
    ⟨_, List.getElem?_eq_getElem (Nat.lt_of_not_le hlt)⟩
  obtain ⟨rc, hnode', -⟩ := hext _ nd hnode
  exact absurd (node_lt hnode') (Nat.lt_irrefl _)

theorem Ext.immortal {h h' : Heap} (hext : Ext h h') {a : Nat} {c : Cell}
    (hnode : h.node a = some ⟨c, .immortal⟩) : h'.node a = some ⟨c, .immortal⟩ := by
  obtain ⟨rc, hnode', hgrows⟩ := hext a _ hnode
  cases hgrows
  exact hnode'

theorem ext_alloc (h : Heap) (nd : Node) : Ext h (h.alloc nd) := by
  intro a nd' hnode
  refine ⟨nd'.rc, ?_, Rc.grows_self _⟩
  rw [node_alloc_of_lt (node_lt hnode), hnode]

section

variable {T : Tables} {h h' : Heap}

theorem vecData_ext (hext : Ext h h') {c : Cell} {data : VecData} (hdata : vecData h c = some data) :
    vecData h' c = some data := by
  cases c with
  | vec cap data' => exact hdata
  | view owner start len =>
      cases hnode : h.node owner with
      | none => simp [vecData, hnode] at hdata
      | some nd =>
          obtain ⟨rc, hnode', -⟩ := hext owner nd hnode
          simp only [vecData, hnode', Option.map_some]
          simpa only [vecData, hnode, Option.map_some] using hdata
  | _ => cases hdata

theorem parts_ext (hext : Ext h h') {c : Cell} {vs : List Value} {v : Value}
    (hvalue : c.value T h vs = some v) : c.parts T h' = c.parts T h := by
  cases c with
  | view owner start len =>
      cases hdata : vecData h (.view owner start len) with
      | none => simp [Cell.value, hdata] at hvalue
      | some data => simp only [Cell.parts, hdata, vecData_ext hext hdata]
  | ref kind cell => cases kind <;> rfl
  | _ => rfl

theorem cellValue_ext (hext : Ext h h') {c : Cell} {vs : List Value} {v : Value}
    (hvalue : c.value T h vs = some v) : c.value T h' vs = some v := by
  cases c with
  | view owner start len =>
      cases hdata : vecData h (.view owner start len) with
      | none => simp [Cell.value, hdata] at hvalue
      | some data =>
          simp only [Cell.value, hdata] at hvalue
          simpa only [Cell.value, vecData_ext hext hdata] using hvalue
  | ref kind cell => cases kind <;> exact hvalue
  | _ => exact hvalue

theorem value_ptr {n a : Nat} {v : Value} (hvalue : value T h (n + 1) (.ptr a) = some v) :
    ∃ nd vs, h.node a = some nd ∧ (nd.cell.parts T h).mapM (value T h n) = some vs ∧
      nd.cell.value T h vs = some v := by
  simp only [value, Option.bind_eq_bind, Option.bind_eq_some_iff] at hvalue
  obtain ⟨nd, hnode, vs, hparts, hcell⟩ := hvalue
  exact ⟨nd, vs, hnode, hparts, hcell⟩

theorem value_of_parts {n a : Nat} {nd : Node} {vs : List Value} {v : Value}
    (hnode : h.node a = some nd) (hparts : (nd.cell.parts T h).mapM (value T h n) = some vs)
    (hcell : nd.cell.value T h vs = some v) : value T h (n + 1) (.ptr a) = some v := by
  simp only [value, Option.bind_eq_bind, Option.bind_eq_some_iff]
  exact ⟨nd, hnode, vs, hparts, hcell⟩

theorem mapM_cons_eq_some {f : Ref → Option Value} {r : Ref} {rs : List Ref} {vs : List Value} :
    (r :: rs).mapM f = some vs ↔ ∃ v vs', f r = some v ∧ rs.mapM f = some vs' ∧ vs = v :: vs' := by
  simp only [List.mapM_cons, Option.bind_eq_bind, Option.bind_eq_some_iff, Option.pure_def,
    Option.some.injEq]
  constructor
  · rintro ⟨v, hv, vs', hvs', rfl⟩
    exact ⟨v, vs', hv, hvs', rfl⟩
  · rintro ⟨v, vs', hv, hvs', rfl⟩
    exact ⟨v, hv, vs', hvs', rfl⟩

theorem mapM_mono {f g : Ref → Option Value} {rs : List Ref} {vs : List Value}
    (hfg : ∀ r ∈ rs, ∀ v, f r = some v → g r = some v) (hvs : rs.mapM f = some vs) :
    rs.mapM g = some vs := by
  induction rs generalizing vs with
  | nil => exact hvs
  | cons r rs ih =>
      obtain ⟨v, vs', hv, hvs', rfl⟩ := mapM_cons_eq_some.1 hvs
      exact mapM_cons_eq_some.2 ⟨v, vs', hfg r List.mem_cons_self v hv,
        ih (fun r' hr' => hfg r' (List.mem_cons_of_mem _ hr')) hvs', rfl⟩

theorem exists_of_mapM {f : Ref → Option Value} {rs : List Ref} {vs : List Value}
    (hvs : rs.mapM f = some vs) {r : Ref} (hr : r ∈ rs) : ∃ v, f r = some v := by
  induction rs generalizing vs with
  | nil => cases hr
  | cons r' rs ih =>
      obtain ⟨v, vs', hv, hvs', rfl⟩ := mapM_cons_eq_some.1 hvs
      rcases List.mem_cons.1 hr with rfl | hr
      · exact ⟨v, hv⟩
      · exact ih hvs' hr

theorem value_ext (hext : Ext h h') {n : Nat} {r : Ref} {v : Value} (hvalue : value T h n r = some v) :
    value T h' n r = some v := by
  induction n generalizing r v with
  | zero => cases hvalue
  | succ n ih =>
      cases r with
      | null => exact hvalue
      | imm k => exact hvalue
      | ptr a =>
          obtain ⟨nd, vs, hnode, hparts, hcell⟩ := value_ptr hvalue
          obtain ⟨rc, hnode', -⟩ := hext a nd hnode
          refine value_of_parts hnode' ?_ (cellValue_ext hext hcell)
          rw [parts_ext hext hcell]
          exact mapM_mono (fun r _ v => ih) hparts

theorem visits_ext (hext : Ext h h') {n : Nat} {r : Ref} {v : Value} {a : Nat}
    (hvalue : value T h n r = some v) : Visits T h' r a ↔ Visits T h r a := by
  constructor
  · intro hvisits
    induction hvisits generalizing n v with
    | @here a nd' hnode' =>
        cases n with
        | zero => cases hvalue
        | succ n =>
            obtain ⟨nd, vs, hnode, -, -⟩ := value_ptr hvalue
            exact .here hnode
    | @part a b nd' r hnode' hr _ ih =>
        cases n with
        | zero => cases hvalue
        | succ n =>
            obtain ⟨nd, vs, hnode, hparts, hcell⟩ := value_ptr hvalue
            obtain ⟨rc, hnode'', -⟩ := hext a nd hnode
            rw [hnode''] at hnode'
            cases hnode'
            rw [parts_ext hext hcell] at hr
            obtain ⟨v', hv'⟩ := exists_of_mapM hparts hr
            exact .part hnode hr (ih hv')
  · intro hvisits
    induction hvisits generalizing n v with
    | @here a nd hnode =>
        obtain ⟨rc, hnode', -⟩ := hext a nd hnode
        exact .here hnode'
    | @part a b nd r hnode hr _ ih =>
        cases n with
        | zero => cases hvalue
        | succ n =>
            obtain ⟨nd', vs, hnode', hparts, hcell⟩ := value_ptr hvalue
            rw [hnode] at hnode'
            cases hnode'
            obtain ⟨v', hv'⟩ := exists_of_mapM hparts hr
            obtain ⟨rc, hnode'', -⟩ := hext a nd hnode
            refine .part hnode'' ?_ (ih hv')
            rw [parts_ext hext hcell]
            exact hr

/-- The heap has grown by a copy that shares the atoms in `A`. -/
structure Grown (T : Tables) (A : Nat → Prop) (h h' : Heap) : Prop where
  ok : Ok T h'
  ext : Ext h h'
  kept : ∀ a nd nd', h.node a = some nd → h'.node a = some nd' → nd.rc.isPlain = true →
    ¬(nd.cell.isAtom = true ∧ A a) → nd'.rc = nd.rc
  risen : ∀ a nd nd', h.node a = some nd → h'.node a = some nd' → nd.rc.isPlain = true →
    nd.cell.isAtom = true → A a → nd.rc.Rises nd'.rc

variable {A B : Nat → Prop}

theorem Grown.congr (hgrown : Grown T A h h')
    (hAB : ∀ a nd, h.node a = some nd → nd.cell.isAtom = true → (B a ↔ A a)) : Grown T B h h' where
  ok := hgrown.ok
  ext := hgrown.ext
  kept a nd nd' hnode hnode' hplain hnot := by
    refine hgrown.kept a nd nd' hnode hnode' hplain fun ⟨hatom, hA⟩ => hnot ⟨hatom, ?_⟩
    exact (hAB a nd hnode hatom).2 hA
  risen a nd nd' hnode hnode' hplain hatom hB :=
    hgrown.risen a nd nd' hnode hnode' hplain hatom ((hAB a nd hnode hatom).1 hB)

theorem Grown.trans {h'' : Heap} (hfirst : Grown T A h h') (hsecond : Grown T B h' h'') :
    Grown T (fun a => A a ∨ B a) h h'' where
  ok := hsecond.ok
  ext := hfirst.ext.trans hsecond.ext
  kept a nd nd'' hnode hnode'' hplain hnot := by
    obtain ⟨rc, hnode', hgrows⟩ := hfirst.ext a nd hnode
    have hrc : rc = nd.rc :=
      hfirst.kept a nd _ hnode hnode' hplain fun ⟨hatom, hA⟩ => hnot ⟨hatom, .inl hA⟩
    have hrc' : nd''.rc = rc := hsecond.kept a _ nd'' hnode' hnode'' (by rw [hrc]; exact hplain)
      fun ⟨hatom, hB⟩ => hnot ⟨hatom, .inr hB⟩
    rw [hrc', hrc]
  risen a nd nd'' hnode hnode'' hplain hatom hAB := by
    obtain ⟨rc, hnode', hgrows⟩ := hfirst.ext a nd hnode
    obtain ⟨rc', hnode₂, hgrows'⟩ := hsecond.ext a _ hnode'
    rw [hnode₂] at hnode''
    cases hnode''
    rcases hAB with hA | hB
    · exact (hfirst.risen a nd _ hnode hnode' hplain hatom hA).trans_grows hgrows'
    · exact hgrows.trans_rises (hsecond.risen a _ _ hnode' hnode₂
        (by rw [hgrows.isPlain]; exact hplain) hatom hB)

theorem grown_of_kept (hok : Ok T h') (hext : ∀ a nd, h.node a = some nd → h'.node a = some nd)
    (hA : ∀ a nd, h.node a = some nd → nd.cell.isAtom = true → ¬A a) : Grown T A h h' where
  ok := hok
  ext a nd hnode := ⟨nd.rc, hext a nd hnode, Rc.grows_self _⟩
  kept a nd nd' hnode hnode' _ _ := by
    rw [hext a nd hnode] at hnode'
    cases hnode'
    rfl
  risen a nd nd' hnode _ _ hatom hAa := absurd hAa (hA a nd hnode hatom)

theorem Ok.alloc (hok : Ok T h) {nd : Node} (hnd : nd.cell.isHandle = true → nd.rc.isAtomic = true) :
    Ok T (h.alloc nd) where
  bytes b := (ext_alloc h nd).immortal (hok.bytes b)
  chars c hc := (ext_alloc h nd).immortal (hok.chars c hc)
  unit := (ext_alloc h nd).immortal hok.unit
  nil := (ext_alloc h nd).immortal hok.nil
  interned e he := (ext_alloc h nd).immortal (hok.interned e he)
  handles a nd' hnode := by
    rcases node_alloc_cases hnode with hold | ⟨-, rfl⟩
    · exact hok.handles a nd' hold
    · exact hnd

theorem Ok.install (hok : Ok T h) {tag : Nat} {slots : List VarSlot} {a : Nat}
    (hnode : h.node a = some ⟨.variant tag slots, .immortal⟩) : Ok T (h.install tag slots a) where
  bytes := hok.bytes
  chars := hok.chars
  unit := hok.unit
  nil := hok.nil
  interned e he := by
    rcases List.mem_append.1 he with he | he
    · exact hok.interned e he
    · cases List.mem_singleton.1 he
      exact hnode
  handles := hok.handles

theorem isHandle_of_node {a : Nat} {f : Rc → Rc} {nd : Node} (r : Ref)
    (hnode : (h.modifyRc f r).node a = some nd) : ∃ rc, h.node a = some ⟨nd.cell, rc⟩ ∧
      (nd.rc = rc ∨ nd.rc = f rc) := by
  cases r with
  | null => exact ⟨nd.rc, hnode, .inl rfl⟩
  | imm k => exact ⟨nd.rc, hnode, .inl rfl⟩
  | ptr b =>
      rw [node_modifyRc] at hnode
      obtain ⟨nd', hnode', heq⟩ := Option.map_eq_some_iff.1 hnode
      split at heq
      · cases heq
        exact ⟨nd'.rc, hnode', .inr rfl⟩
      · cases heq
        exact ⟨_, hnode', .inl rfl⟩

theorem ext_incref (h : Heap) (a : Nat) : Ext h (h.incref (.ptr a)) := by
  intro b nd hnode
  rw [Heap.incref, node_modifyRc, hnode]
  by_cases hb : b = a
  · rw [Option.map_some, if_pos hb]
    exact ⟨_, rfl, Rc.grows_incref _⟩
  · rw [Option.map_some, if_neg hb]
    exact ⟨_, rfl, Rc.grows_self _⟩

theorem Ok.incref (hok : Ok T h) (a : Nat) : Ok T (h.incref (.ptr a)) where
  bytes b := (ext_incref h a).immortal (hok.bytes b)
  chars c hc := (ext_incref h a).immortal (hok.chars c hc)
  unit := (ext_incref h a).immortal hok.unit
  nil := (ext_incref h a).immortal hok.nil
  interned e he := (ext_incref h a).immortal (hok.interned e he)
  handles b nd hnode hhandle := by
    obtain ⟨rc, hold, hrc | hrc⟩ := isHandle_of_node _ hnode
    · rw [hrc]
      exact hok.handles b _ hold hhandle
    · rw [hrc, (Rc.grows_incref rc).isAtomic]
      exact hok.handles b _ hold hhandle

theorem grown_incref (hok : Ok T h) {a : Nat} {nd : Node} (hnode : h.node a = some nd)
    (hshared : nd.cell.isAtom = true ∨ nd.cell.isHandle = true) :
    Grown T (fun b => b = a) h (h.incref (.ptr a)) where
  ok := hok.incref a
  ext := ext_incref h a
  kept b nd₀ nd' hold hnew hplain hnot := by
    rw [Heap.incref, node_modifyRc, hold, Option.map_some] at hnew
    by_cases hb : b = a
    · rw [hb] at hold
      cases hnode.symm.trans hold
      rcases hshared with hatom | hhandle
      · exact absurd ⟨hatom, hb⟩ hnot
      · have hatomic := hok.handles a nd hnode hhandle
        cases hrc : nd.rc with
        | plain n => rw [hrc] at hatomic; cases hatomic
        | atomic n => rw [hrc] at hplain; cases hplain
        | immortal => rw [hrc] at hplain; cases hplain
    · rw [if_neg hb] at hnew
      cases hnew
      rfl
  risen b nd₀ nd' hold hnew hplain _ hb := by
    rw [Heap.incref, node_modifyRc, hold, Option.map_some, if_pos hb] at hnew
    cases hnew
    cases hrc : nd₀.rc with
    | plain n => exact ⟨n, n + 1, rfl, rfl, Nat.lt_succ_self n⟩
    | atomic n => rw [hrc] at hplain; cases hplain
    | immortal => rw [hrc] at hplain; cases hplain

theorem decref_incref (h : Heap) (r : Ref) : (h.incref r).decref r = h := by
  cases r with
  | ptr a =>
      simp only [Heap.incref, Heap.decref, Heap.modifyRc, List.modify_modify_eq]
      congr 1
      apply List.ext_getElem?
      intro i
      rw [List.getElem?_modify]
      split
      · cases h.nodes[i]? with
        | none => rfl
        | some nd =>
            obtain ⟨c, rc⟩ := nd
            cases rc <;> rfl
      · simp
  | _ => rfl

theorem incref_comm (h : Heap) (r r' : Ref) : (h.incref r).incref r' = (h.incref r').incref r := by
  cases r with
  | ptr a =>
      cases r' with
      | ptr b =>
          by_cases hab : a = b
          · rw [hab]
          · simp only [Heap.incref, Heap.modifyRc]
            rw [List.modify_modify_ne _ _ _ hab]
      | _ => rfl
  | _ => rfl

theorem foldl_incref_comm (h : Heap) (r : Ref) (rs : List Ref) :
    rs.foldl Heap.incref (h.incref r) = (rs.foldl Heap.incref h).incref r := by
  induction rs generalizing h with
  | nil => rfl
  | cons r' rs ih => rw [List.foldl_cons, List.foldl_cons, incref_comm, ih]

theorem foldl_decref_incref (h : Heap) (rs : List Ref) :
    rs.foldl Heap.decref (rs.foldl Heap.incref h) = h := by
  induction rs generalizing h with
  | nil => rfl
  | cons r rs ih => rw [List.foldl_cons, List.foldl_cons, foldl_incref_comm, decref_incref, ih]

end

end Kaikai.DeepCopy
