import Kaikai.DeepCopyGrowth

namespace Kaikai.DeepCopy

open Kaikai.Runtime (Ref Scalar Fixed RecMeta VecData VarSlot SlotKind varSlotKind fitsImmediate)
open Kaikai.Word64 (Word)

section

variable {T : Tables} {A B : Nat → Prop} {b : Nat} {h h' : Heap}

theorem Copied.ext (hcopied : Copied T A b h r) (hext : Ext h h') : Copied T A b h' r := by
  induction hcopied with
  | null => exact .null
  | imm k => exact .imm k
  | ptr hnode hpart _ ih =>
      obtain ⟨rc, hnode', hgrows⟩ := hext _ _ hnode
      refine .ptr hnode' ?_ ih
      rw [hgrows.isPlain]
      exact hpart

theorem Copied.mono {b' : Nat} {r : Ref} (hcopied : Copied T A b h r) (hb : b' ≤ b)
    (hAB : ∀ a nd, a < b → h.node a = some nd → nd.cell.isAtom = true → A a → b' ≤ a ∨ B a) :
    Copied T B b' h r := by
  induction hcopied with
  | null => exact .null
  | imm k => exact .imm k
  | @ptr a nd hnode hpart _ ih =>
      refine .ptr hnode ?_ ih
      rcases hpart with hnew | hrc | ⟨hatom, hA⟩
      · exact .inl (hb.trans hnew)
      · exact .inr (.inl hrc)
      · by_cases ha : b ≤ a
        · exact .inl (hb.trans ha)
        · rcases hAB a nd (Nat.lt_of_not_le ha) hnode hatom hA with hnew | hB
          · exact .inl hnew
          · exact .inr (.inr ⟨hatom, hB⟩)

theorem Copied.reach {r : Ref} {a : Nat} (hcopied : Copied T A b h r) (hreach : Reach T h r a) :
    ∃ nd, h.node a = some nd ∧
      (b ≤ a ∨ nd.rc.isPlain = false ∨ (nd.cell.isAtom = true ∧ A a)) := by
  induction hreach with
  | here hnode =>
      cases hcopied with
      | ptr hnode' hpart _ => exact ⟨_, hnode', hpart⟩
  | child hnode hr _ ih =>
      cases hcopied with
      | ptr hnode' _ hrest =>
          cases hnode.symm.trans hnode'
          exact ih (hrest _ hr)

theorem Copied.part {a : Nat} {nd : Node} {r : Ref} (hcopied : Copied T A b h (.ptr a))
    (hnode : h.node a = some nd) (hr : r ∈ nd.cell.parts T h) : Copied T A b h r := by
  cases hcopied with
  | ptr hnode' _ hrest =>
      cases hnode.symm.trans hnode'
      cases hcell : nd.cell with
      | view owner start len =>
          rw [hcell] at hr hrest
          have howner := hrest (.ptr owner) (List.mem_singleton_self _)
          cases howner with
          | @ptr _ nd' hnode' _ hrest' =>
              cases hcell' : nd'.cell with
              | vec cap data =>
                  rw [hcell'] at hrest'
                  simp only [Cell.parts, vecData, hnode', Option.map_some, hcell',
                    Option.getD_some] at hr
                  cases data with
                  | boxed xs =>
                      exact hrest' r (List.mem_of_mem_drop (List.mem_of_mem_take hr))
                  | _ => cases hr
              | _ => simp [Cell.parts, vecData, hnode', hcell'] at hr
      | ref kind cell =>
          rw [hcell] at hr hrest
          cases kind with
          | user => exact hrest r hr
          | var => cases hr
          | varForeign => cases hr
      | cons _ _ | record _ _ _ | variant _ _ | array _ | vec _ _ | closure _ _ _ =>
          rw [hcell] at hr hrest
          exact hrest r hr
      | _ =>
          rw [hcell] at hr
          cases hr

section

variable {last : Nat} {nd : Node} {y : Ref}

theorem Copied.node_setTail {a : Nat} (hcopied : Copied T A b h (.ptr a))
    (hlast : h.node last = some nd) (hlt : last < b) (hplain : nd.rc.isPlain = true)
    (hatom : nd.cell.isAtom = false) : (h.setTail last y).node a = h.node a := by
  refine node_setTail_of_ne y ?_
  rintro rfl
  cases hcopied with
  | ptr hnode hpart _ =>
      cases hlast.symm.trans hnode
      rcases hpart with hnew | hrc | ⟨hatom', -⟩
      · omega
      · rw [hplain] at hrc
        cases hrc
      · rw [hatom] at hatom'
        cases hatom'

theorem Copied.setTail {r : Ref} (hcopied : Copied T A b h r)
    (hlast : h.node last = some nd) (hlt : last < b) (hplain : nd.rc.isPlain = true)
    (hatom : nd.cell.isAtom = false) : Copied T A b (h.setTail last y) r := by
  induction hcopied with
  | null => exact .null
  | imm k => exact .imm k
  | ptr hnode hpart hrest ih =>
      have hsame := (Copied.ptr hnode hpart hrest).node_setTail (y := y) hlast hlt hplain hatom
      exact .ptr (hsame.trans hnode) hpart ih

theorem value_setTail {r : Ref} {n : Nat} {v : Value} (hcopied : Copied T A b h r)
    (hlast : h.node last = some nd) (hlt : last < b) (hplain : nd.rc.isPlain = true)
    (hatom : nd.cell.isAtom = false) (hvalue : value T h n r = some v) :
    value T (h.setTail last y) n r = some v := by
  induction n generalizing r v with
  | zero => cases hvalue
  | succ n ih =>
      cases r with
      | null => exact hvalue
      | imm k => exact hvalue
      | ptr a =>
          obtain ⟨nd', vs, hnode, hparts, hcell⟩ := value_ptr hvalue
          have hsame := hcopied.node_setTail (y := y) hlast hlt hplain hatom
          have hdata : vecData (h.setTail last y) nd'.cell = vecData h nd'.cell := by
            cases hkind : nd'.cell with
            | view owner start len =>
                cases hcopied with
                | ptr hnode' _ hrest =>
                    cases hnode.symm.trans hnode'
                    rw [hkind] at hrest
                    have howner := (hrest (.ptr owner) (List.mem_singleton_self _)).node_setTail
                      (y := y) hlast hlt hplain hatom
                    simp only [vecData, howner]
            | _ => rfl
          have hagree : nd'.cell.parts T (h.setTail last y) = nd'.cell.parts T h ∧
              nd'.cell.value T (h.setTail last y) vs = nd'.cell.value T h vs := by
            cases hkind : nd'.cell with
            | view owner start len =>
                rw [hkind] at hdata
                simp only [Cell.parts, Cell.value, hdata, and_self]
            | ref kind cell => cases kind <;> exact ⟨rfl, rfl⟩
            | _ => exact ⟨rfl, rfl⟩
          refine value_of_parts (hsame.trans hnode) ?_ (hagree.2.trans hcell)
          rw [hagree.1]
          exact mapM_mono (fun r hr v => ih (hcopied.part hnode hr)) hparts

theorem Ok.setTail {head tail : Ref} {rc : Rc} (hok : Ok T h)
    (hlast : h.node last = some ⟨.cons head tail, rc⟩) : Ok T (h.setTail last y) := by
  have hkeeps {a : Nat} {nd : Node} (hnode : h.node a = some nd)
      (hcell : ∀ x y, .cons x y ≠ nd.cell) : (h.setTail last y).node a = some nd := by
    rw [node_setTail_of_ne y, hnode]
    rintro rfl
    cases hlast.symm.trans hnode
    exact hcell _ _ rfl
  refine
    { bytes := fun b => hkeeps (hok.bytes b) fun _ _ => Cell.noConfusion
      chars := fun c hc => hkeeps (hok.chars c hc) fun _ _ => Cell.noConfusion
      unit := hkeeps hok.unit fun _ _ => Cell.noConfusion
      nil := hkeeps hok.nil fun _ _ => Cell.noConfusion
      interned := fun e he => hkeeps (hok.interned e he) fun _ _ => Cell.noConfusion
      handles := fun a nd hnode hhandle => ?_ }
  by_cases ha : a = last
  · rw [ha, DeepCopy.node_setTail y hlast] at hnode
    cases hnode
    cases hhandle
  · rw [node_setTail_of_ne y ha] at hnode
    exact hok.handles a nd hnode hhandle

end

theorem Grown.congr_right {h'' : Heap} (hgrown : Grown T A h h') (hok : Ok T h'')
    (hsame : ∀ a, a < h.next → h''.node a = h'.node a) : Grown T A h h'' where
  ok := hok
  ext a nd hnode := by
    rw [hsame a (node_lt hnode)]
    exact hgrown.ext a nd hnode
  kept a nd nd' hnode hnode' := by
    rw [hsame a (node_lt hnode)] at hnode'
    exact hgrown.kept a nd nd' hnode hnode'
  risen a nd nd' hnode hnode' := by
    rw [hsame a (node_lt hnode)] at hnode'
    exact hgrown.risen a nd nd' hnode hnode'

theorem Grown.node_eq (hgrown : Grown T A h h') {a : Nat} {nd : Node} (hnode : h.node a = some nd)
    (hplain : nd.rc.isPlain = true) (hatom : nd.cell.isAtom = false) : h'.node a = some nd := by
  obtain ⟨rc, hnode', -⟩ := hgrown.ext a nd hnode
  have hrc : rc = nd.rc := hgrown.kept a nd _ hnode hnode' hplain fun hshared => by
    rw [hatom] at hshared
    cases hshared.1
  rw [hnode', hrc]

/-- A reference has been copied: the heap that has grown, and the value and the graph of the
copy. -/
structure Outcome (T : Tables) (A : Nat → Prop) (m : Nat) (h : Heap) (v : Value) (h' : Heap)
    (r' : Ref) : Prop where
  grown : Grown T A h h'
  value : value T h' m r' = some v
  copied : Copied T A h.next h' r'

/-- The copy of every value of a depth up to `n`. -/
def Copies (T : Tables) (n : Nat) (f : Heap → Ref → Option (Heap × Ref)) : Prop :=
  ∀ m ≤ n, ∀ h r v, Ok T h → value T h m r = some v →
    ∃ h' r', f h r = some (h', r') ∧ Outcome T (Visits T h r) m h v h' r'

section

variable {f : Heap → Ref → Option (Heap × Ref)} {n m : Nat}

/-- The visits of several references. -/
def VisitsAny (T : Tables) (h : Heap) (rs : List Ref) (a : Nat) : Prop := ∃ r ∈ rs, Visits T h r a

theorem visits_ptr {a c : Nat} {nd : Node} (hnode : h.node a = some nd) :
    Visits T h (.ptr a) c ↔ c = a ∨ VisitsAny T h (nd.cell.parts T h) c := by
  constructor
  · intro hvisits
    cases hvisits with
    | here _ => exact .inl rfl
    | part hnode' hr hrest =>
        cases hnode.symm.trans hnode'
        exact .inr ⟨_, hr, hrest⟩
  · rintro (rfl | ⟨r, hr, hrest⟩)
    · exact .here hnode
    · exact .part hnode hr hrest

theorem copyEach_spec (hf : Copies T n f) (hm : m ≤ n) {rs : List Ref} {vs : List Value}
    (hok : Ok T h) (hvalues : rs.mapM (value T h m) = some vs) :
    ∃ h' xs, copyEach f h rs = some (h', xs) ∧ Grown T (VisitsAny T h rs) h h' ∧
      xs.mapM (value T h' m) = some vs ∧ ∀ x ∈ xs, Copied T (VisitsAny T h rs) h.next h' x := by
  induction rs generalizing h vs with
  | nil =>
      refine ⟨h, [], rfl, ?_, hvalues, fun x hx => absurd hx List.not_mem_nil⟩
      refine grown_of_kept hok (fun a nd hnode => hnode) fun a nd _ _ hA => ?_
      obtain ⟨r, hr, -⟩ := hA
      cases hr
  | cons r rs ih =>
      obtain ⟨v, vs', hv, hvs', rfl⟩ := mapM_cons_eq_some.1 hvalues
      obtain ⟨h₁, x, hx, hout⟩ := hf m hm h r v hok hv
      have hvs₁ : rs.mapM (value T h₁ m) = some vs' :=
        mapM_mono (fun r _ v hv => value_ext hout.grown.ext hv) hvs'
      obtain ⟨h', xs, hxs, hgrown, hvalues', hcopied⟩ := ih hout.grown.ok hvs₁
      have hany (a : Nat) : VisitsAny T h₁ rs a ↔ VisitsAny T h rs a := by
        refine exists_congr fun r' => and_congr_right fun hr' => ?_
        obtain ⟨v', hv'⟩ := exists_of_mapM hvs' hr'
        exact visits_ext hout.grown.ext hv'
      have hboth (a : Nat) : VisitsAny T h (r :: rs) a ↔ Visits T h r a ∨ VisitsAny T h₁ rs a := by
        rw [hany]
        simp only [VisitsAny, List.exists_mem_cons_iff]
      refine ⟨h', x :: xs, ?_, ?_, ?_, ?_⟩
      · simp only [copyEach, hx, hxs, Option.bind_eq_bind, Option.bind_some]
      · exact (hout.grown.trans hgrown).congr fun a _ _ _ => hboth a
      · exact mapM_cons_eq_some.2 ⟨v, vs', value_ext hgrown.ext hout.value, hvalues', rfl⟩
      · intro y hy
        rcases List.mem_cons.1 hy with rfl | hy
        · exact (hout.copied.ext hgrown.ext).mono le_rfl fun a _ _ _ _ hA => .inr ((hboth a).2 (.inl hA))
        · exact (hcopied y hy).mono hout.grown.ext.next_le fun a _ _ _ _ hA =>
            .inr ((hboth a).2 (.inr hA))

theorem copyEach_cons_eq_some {r : Ref} {rs xs : List Ref}
    (hcopy : copyEach f h (r :: rs) = some (h', xs)) :
    ∃ h₁ x xs', f h r = some (h₁, x) ∧ copyEach f h₁ rs = some (h', xs') ∧ xs = x :: xs' := by
  simp only [copyEach, Option.bind_eq_bind, Option.bind_eq_some_iff, Prod.exists] at hcopy
  obtain ⟨h₁, x, hx, h₂, xs', hxs, heq⟩ := hcopy
  cases heq
  exact ⟨h₁, x, xs', hx, hxs, rfl⟩

theorem copySlots_spec (mask : Nat) {i : Nat} {slots : List VarSlot} {vs args : List Value}
    {xs : List Ref} (hvalues : slotValues mask i slots vs = some args)
    (hcopy : copyEach f h (slotRefs mask i slots) = some (h', xs)) :
    ∃ slots', copySlots f mask i h slots = some (h', slots') ∧ slotRefs mask i slots' = xs ∧
      slotValues mask i slots' vs = some args := by
  induction slots generalizing i h vs args xs with
  | nil =>
      cases hcopy
      exact ⟨[], rfl, rfl, hvalues⟩
  | cons slot slots ih =>
      have hraw {w : Word} (hkind : varSlotKind mask i ≠ .ptr) (hslot : slot = .i64 w) :
          ∃ slots', copySlots f mask i h (slot :: slots) = some (h', slots') ∧
            slotRefs mask i slots' = xs ∧ slotValues mask i slots' vs = some args := by
        subst hslot
        have hrefs (rest : List VarSlot) :
            slotRefs mask i (.i64 w :: rest) = slotRefs mask (i + 1) rest := by
          cases h : varSlotKind mask i <;> simp only [slotRefs, h]
        have hargs (rest : List VarSlot) : slotValues mask i (.i64 w :: rest) vs =
            (slotValues mask (i + 1) rest vs).map (.word (varSlotKind mask i) w :: ·) := by
          cases h : varSlotKind mask i <;> simp only [slotValues, h]
          exact absurd h hkind
        rw [hargs] at hvalues
        obtain ⟨args', hargs', rfl⟩ := Option.map_eq_some_iff.1 hvalues
        rw [hrefs] at hcopy
        obtain ⟨slots', hslots, hxs, hvs⟩ := ih hargs' hcopy
        refine ⟨.i64 w :: slots', ?_, (hrefs slots').trans hxs, ?_⟩
        · cases h : varSlotKind mask i with
          | ptr => exact absurd h hkind
          | _ => simp only [copySlots, h, hslots, Option.bind_eq_bind, Option.bind_some]
        · rw [hargs, hvs]
          rfl
      cases hkind : varSlotKind mask i with
      | ptr =>
          cases slot with
          | i64 w => simp [slotValues, hkind] at hvalues
          | ptr r =>
              cases vs with
              | nil => simp [slotValues, hkind] at hvalues
              | cons v vs =>
                  simp only [slotValues, hkind] at hvalues
                  obtain ⟨args', hargs', rfl⟩ := Option.map_eq_some_iff.1 hvalues
                  simp only [slotRefs, hkind] at hcopy
                  obtain ⟨h₁, x, xs', hx, hxs, rfl⟩ := copyEach_cons_eq_some hcopy
                  obtain ⟨slots', hslots, hrefs, hvs⟩ := ih hargs' hxs
                  refine ⟨.ptr x :: slots', ?_, ?_, ?_⟩
                  · simp only [copySlots, hkind, hx, hslots, Option.bind_eq_bind, Option.bind_some]
                  · simp only [slotRefs, hkind, hrefs]
                  · simp only [slotValues, hkind, hvs, Option.map_some]
      | _ =>
          cases slot with
          | i64 w => exact hraw (by rw [hkind]; exact SlotKind.noConfusion) rfl
          | ptr r => simp [slotValues, hkind] at hvalues

theorem copyTail_spec (hf : Copies T n f) {k : Nat} (hmk : m ≤ k) (hm : m ≤ n) {x src : Ref}
    {vs : List Value} (hok : Ok T h) (hvalue : value T h m src = some (.list vs)) :
    ∃ h' y, copyTail f k (h.new (.cons x .null)).1 h.next src = some h' ∧
      Grown T (Visits T h src) h h' ∧ h'.node h.next = some ⟨.cons x y, .plain 1⟩ ∧
      value T h' m y = some (.list vs) ∧ Copied T (Visits T h src) h.next h' y := by
  induction k generalizing m h x src vs with
  | zero =>
      cases Nat.le_zero.1 hmk
      cases hvalue
  | succ k ih =>
      have hokA : Ok T (h.alloc ⟨.cons x .null, .plain 1⟩) :=
        hok.alloc fun hhandle => Bool.noConfusion hhandle
      have hgrownA : Grown T (fun _ => False) h (h.alloc ⟨.cons x .null, .plain 1⟩) :=
        grown_of_kept hokA (fun a nd hnode => (node_alloc_of_lt (node_lt hnode)).trans hnode)
          fun _ _ _ _ => id
      have hlastA : (h.alloc ⟨.cons x .null, .plain 1⟩).node h.next = some ⟨.cons x .null, .plain 1⟩ :=
        node_alloc
      -- the patch of the last cell, once the heap has grown behind it
      have hpatch {A : Nat → Prop} {h₁ : Heap} (y : Ref)
          (hgrown : Grown T A (h.alloc ⟨.cons x .null, .plain 1⟩) h₁) :
          Grown T (fun a => False ∨ A a) h (h₁.setTail h.next y) ∧
            h₁.node h.next = some ⟨.cons x .null, .plain 1⟩ := by
        have hlast := hgrown.node_eq hlastA rfl rfl
        exact ⟨(hgrownA.trans hgrown).congr_right (hgrown.ok.setTail hlast) fun a ha =>
          node_setTail_of_ne y (Nat.ne_of_lt ha), hlast⟩
      by_cases hcons : ∃ a rc head tail, src = .ptr a ∧ h.node a = some ⟨.cons head tail, rc⟩
      · obtain ⟨a, rc, head, tail, rfl, hnode⟩ := hcons
        cases m with
        | zero => cases hvalue
        | succ m =>
            obtain ⟨nd, ws, hnode', hparts, hcell⟩ := value_ptr hvalue
            cases hnode.symm.trans hnode'
            obtain ⟨v, ws', hv, hrest, rfl⟩ := mapM_cons_eq_some.1 hparts
            obtain ⟨w, ws'', hw, hnil, rfl⟩ := mapM_cons_eq_some.1 hrest
            cases hnil
            cases w with
            | list vs' =>
                cases hcell
                have hm' : m ≤ n := (Nat.le_succ m).trans hm
                obtain ⟨h₁, z, hz, hout⟩ := hf m hm' _ head v hokA (value_ext hgrownA.ext hv)
                obtain ⟨hgrown₁, hlast⟩ := hpatch (.ptr h₁.next) hout.grown
                have hvs' := value_ext hgrown₁.ext hw
                obtain ⟨h', y, hcopy, hgrown', hnode₂, hy, hcopied⟩ :=
                  ih (Nat.le_of_succ_le_succ hmk) hm' (x := z) hgrown₁.ok hvs'
                have hnext : (h₁.setTail h.next (.ptr h₁.next)).next = h₁.next := next_setTail _ _
                rw [hnext] at hnode₂
                have hlt : h.next < (h.alloc ⟨.cons x .null, .plain 1⟩).next := by
                  rw [next_alloc]
                  exact Nat.lt_succ_self _
                have hle := hout.grown.ext.next_le
                have hz' := value_setTail (y := .ptr h₁.next) hout.copied hlast hlt rfl rfl hout.value
                have hcopiedz := hout.copied.setTail (y := .ptr h₁.next) hlast hlt rfl rfl
                have hvisits (c : Nat) : Visits T h (.ptr a) c ↔
                    c = a ∨ Visits T h head c ∨ Visits T h tail c := by
                  rw [visits_ptr hnode]
                  simp [VisitsAny, Cell.parts]
                refine ⟨h', .ptr h₁.next, ?_, ?_, ?_, ?_, ?_⟩
                · rw [hnext] at hcopy
                  have hnodeA : (h.alloc ⟨.cons x .null, .plain 1⟩).node a = _ :=
                    (node_alloc_of_lt (node_lt hnode)).trans hnode
                  simp only [copyTail, Heap.new] at hcopy ⊢
                  simp only [hnodeA, Option.map_some, hz, Option.bind_eq_bind, Option.bind_some]
                  rw [setTail_alloc _ (hlt.trans_le hle)]
                  exact hcopy
                · refine (hgrown₁.trans hgrown').congr fun c nd hc hatom => ?_
                  rw [hvisits, visits_ext hgrownA.ext hv, visits_ext hgrown₁.ext hw, false_or]
                  refine or_iff_right ?_
                  rintro rfl
                  cases hnode.symm.trans hc
                  cases hatom
                · exact hgrown'.node_eq (node_setTail _ hlast) rfl rfl
                · refine value_of_parts hnode₂ (?_ : _ = some [v, .list vs']) rfl
                  exact mapM_cons_eq_some.2 ⟨v, _, value_ext hgrown'.ext hz',
                    mapM_cons_eq_some.2 ⟨_, [], hy, rfl, rfl⟩, rfl⟩
                · refine .ptr hnode₂ (.inl (by omega)) fun r hr => ?_
                  rcases List.mem_cons.1 hr with rfl | hr
                  · refine (hcopiedz.ext hgrown'.ext).mono hlt.le fun c _ _ _ _ hc => ?_
                    rw [visits_ext hgrownA.ext hv] at hc
                    exact .inr ((hvisits c).2 (.inr (.inl hc)))
                  · cases List.mem_singleton.1 hr
                    refine hcopied.mono (by omega) fun c _ _ _ _ hc => ?_
                    rw [visits_ext hgrown₁.ext hw] at hc
                    exact .inr ((hvisits c).2 (.inr (.inr hc)))
            | _ => cases hcell
      · have hvalueA := value_ext hgrownA.ext hvalue
        obtain ⟨h₁, y, hy, hout⟩ := hf m hm _ src _ hokA hvalueA
        obtain ⟨hgrown₁, hlast⟩ := hpatch y hout.grown
        have hlt : h.next < (h.alloc ⟨.cons x .null, .plain 1⟩).next := by
          rw [next_alloc]
          exact Nat.lt_succ_self _
        have hfinish : copyTail f (k + 1) (h.new (.cons x .null)).1 h.next src =
            some (h₁.setTail h.next y) := by
          cases src with
          | ptr a =>
              cases m with
              | zero => cases hvalue
              | succ m =>
                  obtain ⟨nd, ws, hnode, -, -⟩ := value_ptr hvalue
                  have hnodeA : (h.alloc ⟨.cons x .null, .plain 1⟩).node a = _ :=
                    (node_alloc_of_lt (node_lt hnode)).trans hnode
                  simp only [copyTail, Heap.new, hnodeA, Option.map_some]
                  split
                  · next head tail heq =>
                      obtain ⟨c, rc⟩ := nd
                      cases heq
                      exact absurd ⟨a, rc, head, tail, rfl, hnode⟩ hcons
                  · simp only [hy, Option.bind_eq_bind, Option.bind_some]
          | null => simp only [copyTail, Heap.new, hy, Option.bind_eq_bind, Option.bind_some]
          | imm w => simp only [copyTail, Heap.new, hy, Option.bind_eq_bind, Option.bind_some]
        have hvisits (c : Nat) : Visits T (h.alloc ⟨.cons x .null, .plain 1⟩) src c ↔
            Visits T h src c := visits_ext hgrownA.ext hvalue
        refine ⟨h₁.setTail h.next y, y, hfinish, ?_, node_setTail _ hlast, ?_, ?_⟩
        · exact hgrown₁.congr fun c _ _ _ => by rw [hvisits, false_or]
        · exact value_setTail hout.copied hlast hlt rfl rfl hout.value
        · exact (hout.copied.setTail hlast hlt rfl rfl).mono hlt.le fun c _ _ _ _ hc =>
            .inr ((hvisits c).1 hc)

end

section

variable {m : Nat} {v : Value}

theorem outcome_alloc {h₁ : Heap} {d : Cell} {rc : Rc} {xs : List Ref} {vs : List Value}
    (hgrown : Grown T A h h₁) (hhandle : d.isHandle = false) (hparts : ∀ k, d.parts T k = xs)
    (hvalues : xs.mapM (value T h₁ m) = some vs) (hvalue : ∀ k, d.value T k vs = some v)
    (hcopied : ∀ x ∈ d.children T, Copied T A h.next h₁ x) :
    Outcome T A (m + 1) h v (h₁.alloc ⟨d, rc⟩) (.ptr h₁.next) := by
  have hext := ext_alloc h₁ ⟨d, rc⟩
  have hok : Ok T (h₁.alloc ⟨d, rc⟩) := hgrown.ok.alloc fun h => by rw [hhandle] at h; cases h
  refine ⟨?_, ?_, ?_⟩
  · refine (hgrown.trans (B := fun _ => False) (grown_of_kept hok (fun c nd hnode =>
      (node_alloc_of_lt (node_lt hnode)).trans hnode) fun _ _ _ _ => id)).congr fun c _ _ _ => ?_
    rw [or_false]
  · refine value_of_parts node_alloc ?_ (hvalue _)
    rw [hparts]
    exact mapM_mono (fun x _ w hw => value_ext hext hw) hvalues
  · exact .ptr node_alloc (.inl hgrown.ext.next_le) fun x hx => (hcopied x hx).ext hext

variable {a : Nat} {nd : Node}

theorem grown_of_parts {h₁ : Heap} (hnode : h.node a = some nd) (hatom : nd.cell.isAtom = false)
    (hgrown : Grown T (VisitsAny T h (nd.cell.parts T h)) h h₁) :
    Grown T (Visits T h (.ptr a)) h h₁ := by
  refine hgrown.congr fun c nd' hc hatom' => ?_
  rw [visits_ptr hnode]
  refine or_iff_right ?_
  rintro rfl
  cases hnode.symm.trans hc
  rw [hatom] at hatom'
  cases hatom'

theorem copied_of_parts {h₁ : Heap} {x : Ref} (hnode : h.node a = some nd)
    (hcopied : Copied T (VisitsAny T h (nd.cell.parts T h)) h.next h₁ x) :
    Copied T (Visits T h (.ptr a)) h.next h₁ x :=
  hcopied.mono le_rfl fun _ _ _ _ _ hc => .inr ((visits_ptr hnode).2 (.inr hc))

theorem grown_leaf (hok : Ok T h) (hnode : h.node a = some nd) (hatom : nd.cell.isAtom = false)
    (hparts : nd.cell.parts T h = []) : Grown T (Visits T h (.ptr a)) h h := by
  refine grown_of_parts hnode hatom (grown_of_kept hok (fun _ _ => id) fun _ _ _ _ hany => ?_)
  obtain ⟨r, hr, -⟩ := hany
  rw [hparts] at hr
  cases hr

theorem outcome_cached {d : Cell} {c : Nat} (hgrown : Grown T A h h)
    (hcell : h.node c = some ⟨d, .immortal⟩) (hparts : ∀ k, d.parts T k = [])
    (hchildren : d.children T = []) (hvalue : ∀ k, d.value T k [] = some v) :
    Outcome T A (m + 1) h v h (.ptr c) := by
  refine ⟨hgrown, value_of_parts hcell (by rw [hparts]; rfl) (hvalue h), ?_⟩
  refine .ptr hcell (.inr (.inl rfl)) fun r hr => ?_
  rw [hchildren] at hr
  cases hr

theorem outcome_shared (hok : Ok T h) (hnode : h.node a = some nd)
    (hshared : nd.cell.isAtom = true ∨ nd.cell.isHandle = true)
    (hparts : ∀ k, nd.cell.parts T k = []) (hchildren : nd.cell.children T = [])
    (hvalue : ∀ k, nd.cell.value T k [] = some v) :
    Outcome T (Visits T h (.ptr a)) (m + 1) h v (h.incref (.ptr a)) (.ptr a) := by
  have hvisits (c : Nat) : Visits T h (.ptr a) c ↔ c = a := by
    rw [visits_ptr hnode, hparts]
    simp [VisitsAny]
  have hgrown := grown_incref hok hnode hshared
  obtain ⟨rc, hnode', hgrows⟩ := hgrown.ext a nd hnode
  refine ⟨hgrown.congr fun c _ _ _ => hvisits c,
    value_of_parts hnode' (by rw [hparts]; rfl) (hvalue _), ?_⟩
  refine .ptr hnode' ?_ fun r hr => ?_
  · rcases hshared with hatom | hhandle
    · exact .inr (.inr ⟨hatom, (hvisits a).2 rfl⟩)
    · refine .inr (.inl ?_)
      have hatomic := hok.handles a nd hnode hhandle
      rw [hgrows.isPlain]
      cases hrc : nd.rc with
      | plain k => rw [hrc] at hatomic; cases hatomic
      | atomic k => rfl
      | immortal => rfl
  · rw [hchildren] at hr
    cases hr

theorem outcome_variantU {h₁ : Heap} {tag : Nat} {slots : List VarSlot} {vs args : List Value}
    (hgrown : Grown T A h h₁)
    (hvalues : (slotRefs (T.slotMask tag) 0 slots).mapM (value T h₁ m) = some vs)
    (hargs : slotValues (T.slotMask tag) 0 slots vs = some args)
    (hcopied : ∀ x ∈ slotRefs (T.slotMask tag) 0 slots, Copied T A h.next h₁ x) :
    ∃ h' r', variantU T h₁ tag slots = (h', r') ∧
      Outcome T A (m + 1) h (.variant tag args) h' r' := by
  have hvalue (k : Heap) : (Cell.variant tag slots).value T k vs = some (.variant tag args) := by
    simp only [Cell.value, hargs, Option.map_some]
  have hfound {c : Nat} (hlookup : h₁.lookup tag slots = some c) :
      Outcome T A (m + 1) h (.variant tag args) h₁ (.ptr c) := by
    obtain ⟨e, he, rfl⟩ := Option.map_eq_some_iff.1 hlookup
    have hin := hgrown.ok.interned e (List.mem_of_find?_eq_some he)
    obtain ⟨htag, hslots⟩ : e.tag = tag ∧ e.slots = slots := by simpa using List.find?_some he
    rw [htag, hslots] at hin
    exact ⟨hgrown, value_of_parts hin hvalues (hvalue h₁), .ptr hin (.inr (.inl rfl)) hcopied⟩
  have hnew (rc : Rc) : Outcome T A (m + 1) h (.variant tag args)
      (h₁.alloc ⟨.variant tag slots, rc⟩) (.ptr h₁.next) :=
    outcome_alloc hgrown rfl (fun _ => rfl) hvalues hvalue hcopied
  have hinstalled : Outcome T A (m + 1) h (.variant tag args)
      ((h₁.alloc ⟨.variant tag slots, .immortal⟩).install tag slots h₁.next) (.ptr h₁.next) := by
    have hout := hnew .immortal
    have hext : Ext (h₁.alloc ⟨.variant tag slots, .immortal⟩)
        ((h₁.alloc ⟨.variant tag slots, .immortal⟩).install tag slots h₁.next) := ext_self _
    exact ⟨hout.grown.congr_right (hout.grown.ok.install node_alloc) fun _ _ => rfl,
      value_ext hext hout.value, hout.copied.ext hext⟩
  unfold variantU
  split
  · next hslots =>
      subst hslots
      split
      · next hlookup => exact ⟨_, _, rfl, hfound hlookup⟩
      · split
        · exact ⟨_, _, rfl, hinstalled⟩
        · exact ⟨_, _, rfl, hnew .immortal⟩
  · split
    · split
      · next hlookup => exact ⟨_, _, rfl, hfound hlookup⟩
      · split
        · exact ⟨_, _, rfl, hinstalled⟩
        · exact ⟨_, _, rfl, hnew (.plain 1)⟩
    · exact ⟨_, _, rfl, hnew (.plain 1)⟩

end

theorem outcome_vec {n : Nat} {f : Heap → Ref → Option (Heap × Ref)} {data : VecData}
    {vs : List Value} (hf : Copies T n f) (hm : m ≤ n) (hok : Ok T h) (hnode : h.node a = some nd)
    (hatom : nd.cell.isAtom = false) (hparts : nd.cell.parts T h = vecRefs data)
    (hvalues : (vecRefs data).mapM (value T h m) = some vs) :
    ∃ h' data', copyVec f h data = some (h', data') ∧ Outcome T (Visits T h (.ptr a)) (m + 1) h
      (vecValue data vs) (h'.alloc ⟨.vec data'.length data', .plain 1⟩) (.ptr h'.next) := by
  have hleaf (hnone : vecRefs data = []) : Outcome T (Visits T h (.ptr a)) (m + 1) h
      (vecValue data vs) (h.alloc ⟨.vec data.length data, .plain 1⟩) (.ptr h.next) := by
    refine outcome_alloc (grown_leaf hok hnode hatom (hparts.trans hnone)) rfl (fun _ => rfl) hvalues
      (fun _ => rfl) fun x hx => ?_
    rw [Cell.children, hnone] at hx
    cases hx
  cases data with
  | boxed xs =>
      obtain ⟨h', ys, hcopy, hgrown, hvalues', hcopied⟩ := copyEach_spec hf hm hok hvalues
      have hcopy' : copyVec f h (.boxed xs) = some (h', .boxed ys) := by
        rw [copyVec, show copyEach f h xs = some (h', ys) from hcopy, Option.map_some]
      rw [← hparts] at hgrown hcopied
      exact ⟨h', .boxed ys, hcopy', outcome_alloc (grown_of_parts hnode hatom hgrown) rfl
        (fun _ => rfl) hvalues' (fun _ => rfl) fun y hy => copied_of_parts hnode (hcopied y hy)⟩
  | pending => exact ⟨h, .pending, rfl, hleaf rfl⟩
  | raw tag bits => exact ⟨h, .raw tag bits, rfl, hleaf rfl⟩
  | inlined shape rows => exact ⟨h, .inlined shape rows, rfl, hleaf rfl⟩

theorem outcome_cons {n : Nat} {f : Heap → Ref → Option (Heap × Ref)} {head tail : Ref} {rc : Rc}
    {vs : List Value} (hf : Copies T n f) (hm : m ≤ n) (hok : Ok T h)
    (hnode : h.node a = some ⟨.cons head tail, rc⟩)
    (hvalues : [head, tail].mapM (value T h m) = some vs) (hvalue : consValue vs = some v) :
    ∃ h₁ x h', f h head = some (h₁, x) ∧
      copyTail f n (h₁.new (.cons x .null)).1 h₁.next tail = some h' ∧
      Outcome T (Visits T h (.ptr a)) (m + 1) h v h' (.ptr h₁.next) := by
  obtain ⟨w, ws, hw, hrest, rfl⟩ := mapM_cons_eq_some.1 hvalues
  obtain ⟨t, ts, ht, hnil, rfl⟩ := mapM_cons_eq_some.1 hrest
  cases hnil
  cases t with
  | list us =>
      cases hvalue
      obtain ⟨h₁, x, hx, hout⟩ := hf m hm h head w hok hw
      have ht₁ := value_ext hout.grown.ext ht
      obtain ⟨h', y, hcopy, hgrown, hnode', hy, hcopied⟩ :=
        copyTail_spec hf hm hm (x := x) hout.grown.ok ht₁
      have hvisits (c : Nat) : VisitsAny T h [head, tail] c ↔ Visits T h head c ∨ Visits T h₁ tail c := by
        rw [visits_ext hout.grown.ext ht]
        simp [VisitsAny]
      refine ⟨h₁, x, h', hx, hcopy, ?_, ?_, ?_⟩
      · exact grown_of_parts hnode rfl ((hout.grown.trans hgrown).congr fun c _ _ _ => hvisits c)
      · refine value_of_parts hnode' (?_ : _ = some [w, .list us]) rfl
        exact mapM_cons_eq_some.2 ⟨w, _, value_ext hgrown.ext hout.value,
          mapM_cons_eq_some.2 ⟨_, [], hy, rfl, rfl⟩, rfl⟩
      · refine .ptr hnode' (.inl hout.grown.ext.next_le) fun r hr => copied_of_parts hnode ?_
        rcases List.mem_cons.1 hr with rfl | hr
        · exact (hout.copied.ext hgrown.ext).mono le_rfl fun c _ _ _ _ hc =>
            .inr ((hvisits c).2 (.inl hc))
        · cases List.mem_singleton.1 hr
          exact hcopied.mono hout.grown.ext.next_le fun c _ _ _ _ hc =>
            .inr ((hvisits c).2 (.inr hc))
  | _ => cases hvalue

theorem deepCopy_copies (T : Tables) (n : Nat) : Copies T n (deepCopy T n) := by
  induction n with
  | zero =>
      intro m hm h r v _ hvalue
      cases Nat.le_zero.1 hm
      cases hvalue
  | succ n ih =>
      intro m hm h r v hok hvalue
      cases m with
      | zero => cases hvalue
      | succ m =>
          have hmn : m ≤ n := Nat.le_of_succ_le_succ hm
          cases r with
          | null =>
              have hgrown : Grown T (Visits T h .null) h h :=
                grown_of_kept hok (fun _ _ => id) fun _ _ _ _ hvisits => nomatch hvisits
              exact ⟨h, .null, rfl, hgrown, hvalue, .null⟩
          | imm k =>
              have hgrown : Grown T (Visits T h (.imm k)) h h :=
                grown_of_kept hok (fun _ _ => id) fun _ _ _ _ hvisits => nomatch hvisits
              exact ⟨h, .imm k, rfl, hgrown, hvalue, .imm k⟩
          | ptr a =>
              obtain ⟨⟨cell, rc⟩, vs, hnode, hparts, hcell⟩ := value_ptr hvalue
              simp only [deepCopy, hnode, Option.bind_eq_bind, Option.bind_some]
              have hnil {x : Ref} {P : Prop} (hx : x ∈ ([] : List Ref)) : P := absurd hx List.not_mem_nil
              cases cell with
              | unit | bool _ | nil =>
                  exact ⟨_, _, rfl, outcome_shared hok hnode (.inl rfl) (fun _ => rfl) rfl fun _ => hcell⟩
              | fiber _ | pid _ =>
                  exact ⟨_, _, rfl, outcome_shared hok hnode (.inr rfl) (fun _ => rfl) rfl fun _ => hcell⟩
              | str _ | real _ | fixed _ _ | foreign _ | range _ _ _ =>
                  exact ⟨_, _, rfl, outcome_alloc (grown_leaf hok hnode rfl rfl) rfl (fun _ => rfl) rfl
                    (fun _ => hcell) fun _ => hnil⟩
              | int i =>
                  have hgrown := grown_leaf hok hnode rfl rfl
                  simp only [kaiInt]
                  split
                  · exact ⟨h, .imm i, rfl, hgrown, hcell, .imm i⟩
                  · exact ⟨_, _, rfl, outcome_alloc hgrown rfl (fun _ => rfl) rfl (fun _ => hcell)
                      fun _ => hnil⟩
              | char c =>
                  have hgrown := grown_leaf hok hnode rfl rfl
                  simp only [kaiChar]
                  split
                  · next hc =>
                      exact ⟨_, _, rfl, outcome_cached hgrown (hok.chars c hc) (fun _ => rfl) rfl
                        fun _ => hcell⟩
                  · exact ⟨_, _, rfl, outcome_alloc hgrown rfl (fun _ => rfl) rfl (fun _ => hcell)
                      fun _ => hnil⟩
              | byte b =>
                  exact ⟨_, _, rfl, outcome_cached (grown_leaf hok hnode rfl rfl) (hok.bytes b)
                    (fun _ => rfl) rfl fun _ => hcell⟩
              | cons head tail =>
                  obtain ⟨h₁, x, h', hx, hcopy, hout⟩ := outcome_cons ih hmn hok hnode hparts hcell
                  simp only [hx, hcopy, Option.bind_some]
                  exact ⟨_, _, rfl, hout⟩
              | record headTag names fields =>
                  obtain ⟨h', xs, hcopy, hgrown, hvalues, hcopied⟩ := copyEach_spec ih hmn hok hparts
                  simp only [show copyEach (deepCopy T n) h fields = _ from hcopy, Option.bind_some]
                  exact ⟨_, _, rfl, outcome_alloc (grown_of_parts hnode rfl hgrown) rfl (fun _ => rfl)
                    hvalues (fun _ => hcell) fun x hx => copied_of_parts hnode (hcopied x hx)⟩
              | array items =>
                  obtain ⟨h', xs, hcopy, hgrown, hvalues, hcopied⟩ := copyEach_spec ih hmn hok hparts
                  simp only [show copyEach (deepCopy T n) h items = _ from hcopy, Option.bind_some]
                  exact ⟨_, _, rfl, outcome_alloc (grown_of_parts hnode rfl hgrown) rfl (fun _ => rfl)
                    hvalues (fun _ => hcell) fun x hx => copied_of_parts hnode (hcopied x hx)⟩
              | closure fn arity captures =>
                  obtain ⟨h', xs, hcopy, hgrown, hvalues, hcopied⟩ := copyEach_spec ih hmn hok hparts
                  simp only [show copyEach (deepCopy T n) h captures = _ from hcopy, Option.bind_some,
                    kaiClosure, Heap.new, foldl_decref_incref]
                  exact ⟨_, _, rfl, outcome_alloc (grown_of_parts hnode rfl hgrown) rfl (fun _ => rfl)
                    hvalues (fun _ => hcell) fun x hx => copied_of_parts hnode (hcopied x hx)⟩
              | variant tag slots =>
                  obtain ⟨h₁, xs, hcopy, hgrown, hvalues, hcopied⟩ := copyEach_spec ih hmn hok hparts
                  obtain ⟨args, hargs, rfl⟩ := Option.map_eq_some_iff.1 hcell
                  obtain ⟨slots', hslots, rfl, hargs'⟩ := copySlots_spec (T.slotMask tag) hargs hcopy
                  obtain ⟨h', r', hnew, hout⟩ := outcome_variantU (grown_of_parts hnode rfl hgrown)
                    hvalues hargs' fun x hx => copied_of_parts hnode (hcopied x hx)
                  simp only [hslots, Option.bind_some, hnew]
                  exact ⟨_, _, rfl, hout⟩
              | vec cap data =>
                  obtain ⟨h', data', hcopy, hout⟩ := outcome_vec ih hmn hok hnode rfl rfl hparts
                  simp only [vecData, Option.bind_some, hcopy]
                  cases hcell
                  exact ⟨_, _, rfl, hout⟩
              | view owner start len =>
                  obtain ⟨data, hdata, rfl⟩ := Option.map_eq_some_iff.1 hcell
                  have hrefs : (Cell.view owner start len).parts T h = vecRefs data := by
                    simp only [Cell.parts, hdata, Option.map_some, Option.getD_some]
                  rw [hrefs] at hparts
                  obtain ⟨h', data', hcopy, hout⟩ := outcome_vec ih hmn hok hnode rfl hrefs hparts
                  simp only [hdata, Option.bind_some, hcopy]
                  exact ⟨_, _, rfl, hout⟩
              | ref kind cell =>
                  cases kind with
                  | user =>
                      obtain ⟨h', xs, hcopy, hgrown, hvalues, hcopied⟩ := copyEach_spec ih hmn hok hparts
                      obtain ⟨h₁, x, xs', hx, hrest, rfl⟩ := copyEach_cons_eq_some hcopy
                      cases hrest
                      simp only [hx, Option.bind_some]
                      exact ⟨_, _, rfl, outcome_alloc (grown_of_parts hnode rfl hgrown) rfl (fun _ => rfl)
                        hvalues (fun _ => hcell) fun x hx => copied_of_parts hnode (hcopied x hx)⟩
                  | var | varForeign =>
                      refine ⟨_, _, rfl, outcome_alloc (grown_leaf hok hnode rfl rfl) rfl (fun _ => rfl)
                        rfl (fun _ => hcell) fun x hx => ?_⟩
                      cases List.mem_singleton.1 hx
                      exact .ptr hok.unit (.inr (.inl rfl)) fun _ => hnil
              | cont => cases hcell
              | seq _ _ => cases hcell

end

section

variable {T : Tables} {h h' : Heap} {r r' : Ref} {v : Value}

/-- What a value sent to another thread owes to its original. -/
structure Isolated (T : Tables) (h : Heap) (r : Ref) (h' : Heap) (r' : Ref) (v : Value) : Prop where
  /-- the copy has the value of the original -/
  value : ∃ n, value T h' n r' = some v
  /-- a node of both is immortal or counted atomically -/
  shared : ∀ a nd, Reach T h r a → Reach T h' r' a → h'.node a = some nd → nd.rc.isPlain = false
  /-- the counts of the original that are not atomic are what they were -/
  counts : ∀ a nd nd', Reach T h r a → h.node a = some nd → h'.node a = some nd' →
    nd.rc.isAtomic = false → nd'.rc = nd.rc

/-- No atom that the copy visits has an ordinary count. -/
def Static (T : Tables) (h : Heap) (r : Ref) : Prop :=
  ∀ a nd, Visits T h r a → h.node a = some nd → nd.cell.isAtom = true → nd.rc.isPlain = false

theorem Reach.node {a : Nat} (hreach : Reach T h r a) : ∃ nd, h.node a = some nd := by
  induction hreach with
  | here hnode => exact ⟨_, hnode⟩
  | child _ _ _ ih => exact ih

theorem Visits.reach {a : Nat} (hvisits : Visits T h r a) : Reach T h r a := by
  induction hvisits with
  | here hnode => exact .here hnode
  | @part a b nd r hnode hr _ ih =>
      cases hcell : nd.cell with
      | view owner start len =>
          rw [hcell] at hr
          simp only [Cell.parts, vecData] at hr
          cases howner : h.node owner with
          | none => simp [howner] at hr
          | some nd' =>
              have hin : r ∈ nd'.cell.children T := by
                cases hcell' : nd'.cell with
                | vec cap data =>
                    simp only [howner, Option.map_some, hcell', Option.getD_some] at hr
                    cases data with
                    | boxed xs => exact List.mem_of_mem_drop (List.mem_of_mem_take hr)
                    | _ => cases hr
                | _ => simp [howner, hcell'] at hr
              have hchild : Ref.ptr owner ∈ nd.cell.children T := by
                rw [hcell]
                exact List.mem_singleton_self _
              exact .child hnode hchild (.child howner hin ih)
      | ref kind cell =>
          have hin : r ∈ nd.cell.children T := by
            rw [hcell] at hr ⊢
            cases kind with
            | user => exact hr
            | var => cases hr
            | varForeign => cases hr
          exact .child hnode hin ih
      | cons _ _ | record _ _ _ | variant _ _ | array _ | vec _ _ | closure _ _ _ =>
          refine .child hnode ?_ ih
          rw [hcell] at hr ⊢
          exact hr
      | _ =>
          rw [hcell] at hr
          cases hr

theorem Outcome.isolated_iff {n : Nat} (hout : Outcome T (Visits T h r) n h v h' r') :
    Isolated T h r h' r' v ↔ Static T h r := by
  constructor
  · intro hisolated a nd hvisits hnode hatom
    by_contra hplain
    rw [Bool.not_eq_false] at hplain
    -- the count of a shared atom rises
    obtain ⟨rc, hnode', -⟩ := hout.grown.ext a nd hnode
    have hrisen := hout.grown.risen a nd _ hnode hnode' hplain hatom hvisits
    have hkept := hisolated.counts a nd _ hvisits.reach hnode hnode'
      (by cases hrc : nd.rc <;> rw [hrc] at hplain <;> first | rfl | cases hplain)
    obtain ⟨i, j, hi, hj, hij⟩ := hrisen
    rw [hj, hi] at hkept
    cases hkept
    exact Nat.lt_irrefl _ hij
  · intro hstatic
    refine ⟨⟨n, hout.value⟩, fun a nd' hreach hreach' hnode' => ?_,
      fun a nd nd' hreach hnode hnode' hatomic => ?_⟩
    · obtain ⟨nd, hnode⟩ := hreach.node
      obtain ⟨nd₂, hnode₂, hpart⟩ := hout.copied.reach hreach'
      cases hnode'.symm.trans hnode₂
      obtain ⟨rc, hext, hgrows⟩ := hout.grown.ext a nd hnode
      rw [hext] at hnode'
      cases hnode'
      rcases hpart with hnew | hrc | ⟨hatom, hvisits⟩
      · exact absurd (node_lt hnode) (Nat.not_lt_of_le hnew)
      · exact hrc
      · rw [hgrows.isPlain]
        exact hstatic a nd hvisits hnode hatom
    · obtain ⟨rc, hext, hgrows⟩ := hout.grown.ext a nd hnode
      rw [hext] at hnode'
      cases hnode'
      cases hrc : nd.rc with
      | plain i =>
          rw [← hrc]
          refine hout.grown.kept a nd _ hnode hext (by rw [hrc]; rfl) fun ⟨hatom, hvisits⟩ => ?_
          have hplain := hstatic a nd hvisits hnode hatom
          rw [hrc] at hplain
          cases hplain
      | atomic i =>
          rw [hrc] at hatomic
          cases hatomic
      | immortal =>
          rw [hrc] at hgrows
          cases hgrows
          rfl

/-- The copy of a value that may cross exists, and it is isolated from the original exactly
where no atom in it has an ordinary count. -/
theorem deepCopy_isolated_iff {n : Nat} (hok : Ok T h) (hvalue : value T h n r = some v) :
    ∃ h' r', deepCopy T n h r = some (h', r') ∧ (Isolated T h r h' r' v ↔ Static T h r) := by
  obtain ⟨h', r', hcopy, hout⟩ := deepCopy_copies T n n le_rfl h r v hok hvalue
  exact ⟨h', r', hcopy, hout.isolated_iff⟩

end

/-- The immortal nodes of every process. -/
def staticNodes : List Node :=
  [⟨.unit, .immortal⟩, ⟨.nil, .immortal⟩] ++
    ((List.range 256).map fun i => ⟨.byte (UInt8.ofNat i), .immortal⟩) ++
    (List.range 128).map fun c => ⟨.char c, .immortal⟩

/-- Their addresses, for a program without slot masks. -/
def staticTables : Tables where
  byteCell b := 2 + b.toNat
  charCell c := 258 + c
  unitCell := 0
  nilCell := 1
  slotMask _ := 0
  reusable _ := false
  room _ _ _ := true

/-- A heap with the given nodes from address 386 on. -/
def process (nodes : List Node) : Heap := ⟨staticNodes ++ nodes, []⟩

theorem length_staticNodes : staticNodes.length = 386 := by
  simp [staticNodes]

theorem ok_process {nodes : List Node} (hnodes : ∀ nd ∈ nodes, nd.cell.isHandle = false) :
    Ok staticTables (process nodes) := by
  have hstatic {a : Nat} {nd : Node} (hnode : staticNodes[a]? = some nd) :
      (process nodes).node a = some nd := by
    have ha := (List.getElem?_eq_some_iff.1 hnode).1
    exact (List.getElem?_append_left ha).trans hnode
  refine
    { bytes := fun b => hstatic ?_
      chars := fun c hc => hstatic ?_
      unit := hstatic rfl
      nil := hstatic rfl
      interned := fun e he => absurd he List.not_mem_nil
      handles := fun a nd hnode hhandle => ?_ }
  · have hb := b.toNat_lt
    simp only [staticNodes, staticTables]
    rw [List.getElem?_append_left (by simp; omega), List.getElem?_append_right (by simp)]
    simp only [List.length_cons, List.length_nil, Nat.zero_add, Nat.reduceAdd,
      Nat.add_sub_cancel_left, List.getElem?_map, List.getElem?_range hb, Option.map_some,
      UInt8.ofNat_toNat]
  · simp only [staticNodes, staticTables]
    rw [List.getElem?_append_right (by simp)]
    simp only [List.length_append, List.length_cons, List.length_nil, List.length_map,
      List.length_range, Nat.zero_add, Nat.reduceAdd, Nat.add_sub_cancel_left, List.getElem?_map,
      List.getElem?_range (show c < 128 by omega), Option.map_some]
  · have hin := List.mem_of_getElem? hnode
    rcases List.mem_append.1 hin with hin | hin
    · simp only [staticNodes, List.mem_append, List.mem_cons, List.not_mem_nil, or_false,
        List.mem_map] at hin
      rcases hin with ((rfl | rfl) | ⟨i, -, rfl⟩) | ⟨i, -, rfl⟩ <;> cases hhandle
    · rw [hnodes nd hin] at hhandle
      cases hhandle

/-- A list of one string. -/
theorem deepCopy_isolated_iff_list : ∃ h' r',
    deepCopy staticTables 3 (process [⟨.str [107], .plain 1⟩, ⟨.cons (.ptr 386) (.ptr 1), .plain 1⟩])
      (.ptr 387) = some (h', r') ∧
    (Isolated staticTables (process [⟨.str [107], .plain 1⟩, ⟨.cons (.ptr 386) (.ptr 1), .plain 1⟩])
      (.ptr 387) h' r' (.list [.str [107]]) ↔
      Static staticTables
        (process [⟨.str [107], .plain 1⟩, ⟨.cons (.ptr 386) (.ptr 1), .plain 1⟩]) (.ptr 387)) :=
  deepCopy_isolated_iff (ok_process (by simp [Cell.isHandle])) rfl

theorem setCell_process (nd : Node) (c : Cell) :
    (process [nd]).setCell 386 c = process [{ nd with cell := c }] := by
  refine congrArg (fun nodes => Heap.mk nodes []) ?_
  apply List.ext_getElem?
  intro i
  have hlength := length_staticNodes
  show ((staticNodes ++ [nd]).modify 386 _)[i]? = _
  by_cases hi : i < 386
  · rw [List.getElem?_modify_ne _ _ (by omega), List.getElem?_append_left (by omega),
      List.getElem?_append_left (by omega)]
  · rw [List.getElem?_modify, List.getElem?_append_right (by omega),
      List.getElem?_append_right (by omega), hlength]
    by_cases hlast : 386 = i
    · subst hlast
      rfl
    · obtain ⟨j, hj⟩ : ∃ j, i - 386 = j + 1 := ⟨i - 387, by omega⟩
      simp [hlast, hj]

theorem seqNorm_exhausted : seqNorm staticTables
    (process [⟨.range (Word.ofInt 5) (Word.ofInt 4) (Word.ofInt 1), .plain 1⟩]) (.ptr 386) =
      process [⟨.nil, .plain 1⟩] := by
  have hnode : (process [⟨.range (Word.ofInt 5) (Word.ofInt 4) (Word.ofInt 1), .plain 1⟩]).node 386 =
      some ⟨.range (Word.ofInt 5) (Word.ofInt 4) (Word.ofInt 1), .plain 1⟩ := rfl
  simp only [seqNorm, hnode, Option.map_some]
  rw [if_pos (by decide), setCell_process]

/-- A range that ran out is sent: the receiver gets the sender's own cell, whose ordinary count
has risen. -/
theorem not_isolated_exhausted : ∃ h' r',
    deepCopy staticTables 1 (seqNorm staticTables
      (process [⟨.range (Word.ofInt 5) (Word.ofInt 4) (Word.ofInt 1), .plain 1⟩]) (.ptr 386))
      (.ptr 386) = some (h', r') ∧
    ¬Isolated staticTables (seqNorm staticTables
      (process [⟨.range (Word.ofInt 5) (Word.ofInt 4) (Word.ofInt 1), .plain 1⟩]) (.ptr 386))
      (.ptr 386) h' r' (.list []) := by
  rw [seqNorm_exhausted]
  have hnode : (process [⟨.nil, .plain 1⟩]).node 386 = some ⟨.nil, .plain 1⟩ := rfl
  have hok : Ok staticTables (process [⟨.nil, .plain 1⟩]) := ok_process (by simp [Cell.isHandle])
  obtain ⟨h', r', hcopy, hout⟩ := deepCopy_copies staticTables 1 1 le_rfl _ (.ptr 386) (.list []) hok rfl
  refine ⟨h', r', hcopy, fun hisolated => ?_⟩
  have hstatic := hout.isolated_iff.1 hisolated 386 _ (.here hnode) hnode rfl
  cases hstatic

end Kaikai.DeepCopy
