import Kaikai.Reuse

namespace Kaikai.Reuse

open Function RefCount

/-- Each count is the number of references to its cell. -/
abbrev Counts (s : State) (roots : List Word) : Prop :=
  Exact isPtr (kids s.masks) s.heap roots

/-- The word is a counted reference. -/
def State.Counted (s : State) (w : Word) : Prop :=
  ¬ s.heap.Uncounted isPtr w

/-- The two heaps are the same but for the place of one cell. -/
structure Agrees (s : State) (r : Word) (t : State) (q : Word) : Prop where
  live : s.heap.live.erase r = t.heap.live.erase q
  same : ∀ x ∈ s.heap.live.erase r, s.rc x = t.rc x ∧ s.body x = t.body x
  here : r ∈ s.heap.live
  there : q ∈ t.heap.live
  cell : s.rc r = t.rc q ∧ s.body r = t.body q

section Layout

variable (layout : ℕ → ℕ)

/-- The masks recorded are those of the constructors, and the cells there are are read by
them. -/
structure Wf (s : State) : Prop where
  recorded : ∀ tag m, s.masks tag = some m → m = layout tag
  cells : ∀ a ∈ s.heap.live, ∀ tag slots, s.body a = .variant tag slots →
    maskOf s.masks tag = layout tag

/-- The words a body owns by the masks of the constructors. -/
def owned (b : Body) : List Word :=
  kids (fun tag => some (layout tag)) b

/-- An arm about to rebuild: it holds its scrutinee and the words of `roots`, and the
allocator has the address `a` to give. -/
structure Ready (s : State) (scr a : Word) (roots : List Word) : Prop where
  wf : Wf layout s
  exact : Counts s (scr :: roots)
  scr_live : scr ∈ s.heap.live
  free : a ∉ s.heap.live
  ptr : isPtr a

/-- The state `t` after the arm: the counts are exact, the value `r` is `b` and read as it was
built, and the heap is the one of a fresh cell at `a`. -/
structure Rebuilt (t : State) (r : Word) (plain : State) (a : Word) (b : Body)
    (roots : List Word) : Prop where
  exact : Counts t (r :: roots)
  built : t.body r = b
  read : ∀ tag slots, b = .variant tag slots → maskOf t.masks tag = layout tag
  agrees : Agrees t r plain a

/-- Slot `i` of the cell holds a pointer. -/
def ptrSlot : Body → ℕ → Bool
  | .variant tag _, i => slotKind (layout tag) i = slotPtr
  | .cons _ _, _ | .record _ _ _, _ | .other _, _ => true

/-- The test by which the helper releases the old word of slot `i` of its donor. -/
def Rebuild.pays (s : State) (scr : Word) : Rebuild → ℕ → Word → Word → Bool
  | cons _ _ => fun _ old new => decide (old ≠ new)
  | record _ _ kept => recordPays kept
  | variant tag _ => variantPays (layout tag)
  | variantReuseAt _ _ =>
    match s.body scr with
    | .variant t _ => reuseAtPays (maskOf s.masks t)
    | _ => fun _ _ _ => false

/-- The helper takes the cell of its donor. -/
def Rebuild.Reuses (s : State) (scr : Word) (c : Rebuild) : Prop :=
  s.checkUnique scr = true ∧
    match c, s.body scr with
    | cons _ _, .cons _ _ => True
    | record _ fields _, .record _ _ old => old.length = fields.length
    | variant tag slots, .variant t old =>
      old.length = slots.length ∧ maskOf s.masks t = layout tag
    | variantReuseAt _ slots, .variant _ old => old.length = slots.length
    | _, _ => False

/-- Every word that the helper releases is in a pointer slot. -/
def Rebuild.Clean (s : State) (scr : Word) (c : Rebuild) : Prop :=
  ∀ i < c.body.words.length,
    c.pays layout s scr i ((s.body scr).words.getD i 0) (c.body.words.getD i 0) = true →
      ptrSlot layout (s.body scr) i = true

/-- A helper followed by the arm's release of its scrutinee does what a fresh cell does, and
releases pointers only. -/
structure Rebuild.Correct (c : Rebuild) (s : State) (scr a : Word) (roots : List Word) :
    Prop where
  rebuilt : Rebuilt layout ((c.run layout a scr s).1.decref scr) (c.run layout a scr s).2
    ((fresh layout a c.body s).decref scr) a c.body roots
  clean : c.Reuses layout s scr → c.Clean layout s scr

/-- Where the helper takes its donor: which old words may be among the new ones, which slots
the mask must not mistake, and which tag must be known. -/
def Rebuild.Fits (s : State) (scr : Word) (c : Rebuild) : Prop :=
  match c, s.body scr with
  | cons head tail, .cons oldHead oldTail =>
    (oldHead = head → ¬ s.Counted oldHead) ∧ (oldTail = tail → ¬ s.Counted oldTail)
  | record _ fields kept, .record _ _ old =>
    ∀ i < fields.length, old.getD i 0 = fields.getD i 0 → s.Counted (old.getD i 0) →
      i < 64 ∧ kept.testBit i = true
  | variant tag slots, .variant _ old =>
    maskOf s.masks tag = layout tag ∧
      ∀ i < slots.length,
        if slotKind (layout tag) i = slotPtr then
          s.Counted (old.getD i 0) →
            (layout tag).testBit i = false ∧ old.getD i 0 ≠ slots.getD i 0
        else (layout tag).testBit i = true ∨ old.getD i 0 = slots.getD i 0
  | variantReuseAt _ slots, .variant t old =>
    ∀ i < slots.length, slotKind (layout t) i = slotPtr → s.Counted (old.getD i 0) →
      old.getD i 0 ≠ slots.getD i 0
  | _, _ => True

/-- Both heaps have the same cells. -/
structure SameCells (s t : State) : Prop where
  live : s.heap.live = t.heap.live
  same : ∀ x ∈ s.heap.live, s.rc x = t.rc x ∧ s.body x = t.body x

/-- The words that what the arm builds owns. -/
def ownedBuilt : Option (ℕ × List Word) → List Word
  | some (tag, slots) => owned layout (.variant tag slots)
  | none => []

/-- The arm that ends as `t` holds what it builds, and ends as `p` does. -/
def ArmCorrect (a : Word) (built : Option (ℕ × List Word)) (rest : List Word)
    (t p : State × Word) : Prop :=
  match built with
  | some (tag, slots) => Rebuilt layout t.1 t.2 p.1 a (.variant tag slots) rest
  | none => Counts t.1 rest ∧ SameCells t.1 p.1

/-- The arm that takes a token does what it does without. -/
def TokenCorrect (s : State) (scr a : Word) (n : ℕ) (built : Option (ℕ × List Word))
    (dropped rest : List Word) : Prop :=
  ArmCorrect layout a built rest (tokenArm layout a scr n built dropped s)
    (plainArm layout a scr built dropped s)

/-- An arm about to take a token: what it builds and drops are the children of its scrutinee
and the words of its own. -/
structure TokenReady (s : State) (scr a : Word) (built : Option (ℕ × List Word))
    (own dropped rest : List Word) : Prop where
  ready : Ready layout s scr a (own ++ rest)
  shares : (ownedBuilt layout built ++ dropped).Perm (owned layout (s.body scr) ++ own)

/-- The scrutinee is a variant, and where it is unique it has the arity asked for and the tag
of what is built is known; or its count is never touched. -/
def TokenFits (s : State) (scr : Word) (n : ℕ) (built : Option (ℕ × List Word)) : Prop :=
  match s.body scr with
  | .variant _ old =>
    s.rc scr = some 1 → old.length = n ∧
      ∀ tag slots, built = some (tag, slots) → slots.length = n →
        maskOf s.masks tag = layout tag
  | .cons _ _ | .record _ _ _ | .other _ => s.rc scr = none

end Layout

variable {layout : ℕ → ℕ}

theorem Wf.kids_eq {s : State} (h : Wf layout s) :
    ∀ x ∈ s.heap.live, owned layout (s.heap.body x) = kids s.masks (s.heap.body x) := by
  intro x hx
  rcases hb : s.heap.body x with _ | _ | ⟨tag, slots⟩ | _
  case variant =>
    have hm := h.cells x hx tag slots hb
    simp only [owned, kids, hm]
    rfl
  all_goals rfl

theorem maskOf_register {s : State} (h : Wf layout s) (tag : ℕ) :
    maskOf (register s.masks tag (layout tag)) tag = layout tag := by
  unfold register
  split
  · simp [maskOf]
  · rename_i hne
    obtain ⟨m, hm⟩ := Option.ne_none_iff_exists'.mp hne
    simp [maskOf, hm, h.recorded tag m hm]

theorem maskOf_register_of {s : State} (h : Wf layout s) (tag : ℕ) {t : ℕ}
    (ht : maskOf s.masks t = layout t) :
    maskOf (register s.masks tag (layout tag)) t = layout t := by
  by_cases htt : t = tag
  · rw [htt]
    exact maskOf_register h tag
  · unfold register
    split
    · simp only [maskOf, update_of_ne htt]
      exact ht
    · exact ht

theorem Wf.register {s : State} (h : Wf layout s) (tag : ℕ) :
    Wf layout { s with masks := Reuse.register s.masks tag (layout tag) } where
  recorded t m hm := by
    by_cases htt : t = tag
    · subst htt
      have hmask := maskOf_register h t
      simp only [maskOf] at hmask
      change Reuse.register s.masks t (layout t) t = some m at hm
      rwa [hm] at hmask
    · refine h.recorded t m ?_
      change Reuse.register s.masks tag (layout tag) t = some m at hm
      unfold Reuse.register at hm
      split at hm
      · rwa [update_of_ne htt] at hm
      · exact hm
  cells a ha t slots hb := maskOf_register_of h tag (h.cells a ha t slots hb)

/-- The old words, from number `i` on, at which the test holds. -/
def pick (p : ℕ → Word → Word → Bool) : ℕ → List Word → List Word → List Word
  | i, old :: olds, new :: news =>
    if p i old new then old :: pick p (i + 1) olds news else pick p (i + 1) olds news
  | _, _, _ => []

theorem mem_pick {p : ℕ → Word → Word → Bool} {w : Word} {i : ℕ} {olds news : List Word} :
    w ∈ pick p i olds news ↔ ∃ j, ∃ _ : j < olds.length, j < news.length ∧
      p (i + j) (olds.getD j 0) (news.getD j 0) = true ∧ olds.getD j 0 = w := by
  induction olds generalizing i news with
  | nil => simp [pick]
  | cons old olds ih =>
      cases news with
      | nil => simp [pick]
      | cons new news =>
          have hrest : (∃ j, ∃ _ : j < (old :: olds).length, j < (new :: news).length ∧
              p (i + j) ((old :: olds).getD j 0) ((new :: news).getD j 0) = true ∧
                (old :: olds).getD j 0 = w) ↔
              (p i old new = true ∧ old = w) ∨ w ∈ pick p (i + 1) olds news := by
            rw [ih]
            constructor
            · rintro ⟨_ | j, hj, hk, hp, hw⟩
              · exact .inl ⟨hp, hw⟩
              · refine .inr ⟨j, Nat.lt_of_succ_lt_succ hj, Nat.lt_of_succ_lt_succ hk, ?_, hw⟩
                rwa [Nat.add_right_comm, Nat.add_assoc]
            · rintro (⟨hp, hw⟩ | ⟨j, hj, hk, hp, hw⟩)
              · exact ⟨0, by simp, by simp, hp, hw⟩
              · refine ⟨j + 1, Nat.succ_lt_succ hj, Nat.succ_lt_succ hk, ?_, hw⟩
                rwa [Nat.add_right_comm, Nat.add_assoc] at hp
          rw [hrest, pick]
          split
          · rename_i hp
            rw [List.mem_cons, eq_comm (a := w)]
            simp [hp]
          · rename_i hp
            simp [hp]

/-- Where the one test holds only with the other, the words of the second are those of the
first and those that it leaves. -/
theorem pick_perm {p q : ℕ → Word → Word → Bool} {i : ℕ} {olds news : List Word}
    (hpq : ∀ j < olds.length, j < news.length →
      p (i + j) (olds.getD j 0) (news.getD j 0) = true →
        q (i + j) (olds.getD j 0) (news.getD j 0) = true) :
    (pick p i olds news ++ pick (fun i o n => q i o n && !p i o n) i olds news).Perm
      (pick q i olds news) := by
  induction olds generalizing i news with
  | nil => simp [pick]
  | cons old olds ih =>
      cases news with
      | nil => simp [pick]
      | cons new news =>
          have hrest : (pick p (i + 1) olds news ++
              pick (fun i o n => q i o n && !p i o n) (i + 1) olds news).Perm
              (pick q (i + 1) olds news) := ih fun j hj hk hp => by
            have h := hpq (j + 1) (Nat.succ_lt_succ hj) (Nat.succ_lt_succ hk)
            rw [Nat.add_right_comm, Nat.add_assoc] at hp ⊢
            exact h hp
          have hhere := hpq 0 (by simp) (by simp)
          simp only [Nat.add_zero, List.getD_cons_zero] at hhere
          rcases hp : p i old new with _ | _
          · rcases hq : q i old new with _ | _
            · simpa [pick, hp, hq] using hrest
            · simp only [pick, hp, hq, Bool.not_false, Bool.and_self, if_true,
                Bool.false_eq_true, if_false]
              exact List.perm_middle.trans (hrest.cons _)
          · simp only [pick, hp, hhere hp, Bool.not_true, Bool.and_false, if_true,
              Bool.false_eq_true, if_false, List.cons_append]
            exact hrest.cons _

theorem release_pick {h : Heap Word Body} {k : Body → List Word}
    {p q : ℕ → Word → Word → Bool} {i : ℕ} {olds news : List Word}
    (hpq : ∀ j < olds.length, j < news.length →
      p (i + j) (olds.getD j 0) (news.getD j 0) = true →
        q (i + j) (olds.getD j 0) (news.getD j 0) = true)
    (hleft : ∀ w ∈ pick (fun i o n => q i o n && !p i o n) i olds news,
      h.Uncounted isPtr w) :
    h.release isPtr k (pick p i olds news) = h.release isPtr k (pick q i olds news) := by
  induction olds generalizing i news h with
  | nil => simp [pick]
  | cons old olds ih =>
      cases news with
      | nil => simp [pick]
      | cons new news =>
          have hpq' : ∀ j < olds.length, j < news.length →
              p (i + 1 + j) (olds.getD j 0) (news.getD j 0) = true →
                q (i + 1 + j) (olds.getD j 0) (news.getD j 0) = true := fun j hj hk hp => by
            have h := hpq (j + 1) (Nat.succ_lt_succ hj) (Nat.succ_lt_succ hk)
            rw [Nat.add_right_comm, Nat.add_assoc] at hp ⊢
            exact h hp
          have hhere := hpq 0 (by simp) (by simp)
          simp only [Nat.add_zero, List.getD_cons_zero] at hhere
          rcases hp : p i old new with _ | _
          · rcases hq : q i old new with _ | _
            · simp only [pick, hp, hq, Bool.false_and, Bool.false_eq_true, if_false] at hleft ⊢
              exact ih hpq' hleft
            · simp only [pick, hp, hq, Bool.not_false, Bool.and_self, if_true,
                Bool.false_eq_true, if_false] at hleft ⊢
              rw [release_uncounted (hleft old List.mem_cons_self)]
              exact ih hpq' fun w hw => hleft w (List.mem_cons_of_mem _ hw)
          · simp only [pick, hp, hhere hp, Bool.not_true, Bool.and_false, if_true,
              Bool.false_eq_true, if_false] at hleft ⊢
            rw [release_cons, release_cons h old (pick q _ _ _)]
            exact ih hpq' fun w hw => Uncounted.release (hleft w hw) _

theorem pick_true {i : ℕ} {olds news : List Word} (hlen : olds.length = news.length) :
    pick (fun _ _ _ => true) i olds news = olds := by
  induction olds generalizing i news with
  | nil => simp [pick]
  | cons old olds ih =>
      cases news with
      | nil => simp at hlen
      | cons new news => simp [pick, ih (Nat.succ.inj hlen)]

theorem pick_ptrWords {mask i : ℕ} {olds news : List Word}
    (hlen : olds.length = news.length) :
    pick (fun i _ _ => slotKind mask i = slotPtr) i olds news = ptrWords mask i olds := by
  induction olds generalizing i news with
  | nil => simp [pick, ptrWords]
  | cons old olds ih =>
      cases news with
      | nil => simp at hlen
      | cons new news => simp [pick, ptrWords, ih (Nat.succ.inj hlen)]

theorem pick_owned {b : Body} {news : List Word} (hlen : b.words.length = news.length) :
    pick (fun i _ _ => ptrSlot layout b i) 0 b.words news = owned layout b := by
  cases b with
  | variant tag slots => exact pick_ptrWords hlen
  | _ => exact pick_true hlen

section Donor

variable {s : State} {scr a : Word} {roots : List Word}

theorem Wf.counts_iff (h : Wf layout s) :
    Counts s roots ↔ Exact isPtr (owned layout) s.heap roots :=
  ⟨fun he => he.congr h.kids_eq, fun he => he.congr fun x hx => (h.kids_eq x hx).symm⟩

theorem Wf.decref_heap (h : Wf layout s) (v : Word) :
    s.decref v = ⟨s.heap.release isPtr (owned layout) [v], s.masks⟩ := by
  rw [release_congr h.kids_eq]
  rfl

theorem Wf.mono {h : Heap Word Body} (hs : Wf layout s) (hsub : h.live ⊆ s.heap.live)
    (hbody : h.body = s.heap.body) : Wf layout ⟨h, s.masks⟩ where
  recorded := hs.recorded
  cells x hx tag slots hb := by
    change h.body x = _ at hb
    rw [hbody] at hb
    exact hs.cells x (hsub hx) tag slots hb

theorem Wf.put {h : Heap Word Body} {m : Masks} {d : Word} {k : Option ℕ} {b : Body}
    (hs : Wf layout ⟨h, m⟩) (hb : ∀ tag slots, b = .variant tag slots → maskOf m tag = layout tag) :
    Wf layout ⟨h.put d k b, m⟩ where
  recorded := hs.recorded
  cells x hx tag slots hx' := by
    by_cases hxd : x = d
    · subst hxd
      exact hb tag slots ((update_self x _ _).symm.trans hx')
    · exact hs.cells x ((Finset.mem_insert.mp hx).resolve_left hxd) tag slots
        ((update_of_ne hxd _ _).symm.trans hx')

theorem setBody_put (X : Heap Word Body) (m : Masks) (d : Word) (k : Option ℕ) (b b' : Body) :
    State.setBody ⟨X.put d k b, m⟩ d b' = ⟨X.put d k b', m⟩ := by
  simp only [State.setBody, Heap.put, update_idem]

@[simp] theorem body_put (X : Heap Word Body) (m : Masks) (d : Word) (k : Option ℕ) (b : Body) :
    State.body ⟨X.put d k b, m⟩ d = b :=
  update_self d _ _

theorem heap_eq_put (s : State) {d : Word} (hd : d ∈ s.heap.live) :
    s = ⟨(s.heap.erase d).put d (s.rc d) (s.body d), s.masks⟩ := by
  have hlive : insert d (s.heap.live.erase d) = s.heap.live := Finset.insert_erase hd
  simp only [Heap.erase, Heap.put, State.rc, State.body, update_eq_self, hlive]

theorem incref_decref {X : Heap Word Body} {m : Masks} {b : Body} (hp : isPtr scr = true) :
    ((State.incref ⟨X.put scr (some 1) b, m⟩ scr).decref scr) =
      ⟨X.put scr (some 1) b, m⟩ := by
  have hlive : scr ∈ (X.put scr (some 1) b).live := Finset.mem_insert_self _ _
  have hrc : (X.put scr (some 1) b).rc scr = some 1 := update_self scr _ _
  have hinc : State.incref ⟨X.put scr (some 1) b, m⟩ scr =
      ⟨(X.put scr (some 1) b).setRc scr (some 2), m⟩ := by
    simp only [State.incref, hp, hlive, and_self, if_true, State.rc, hrc]
  have hlive2 : scr ∈ ((X.put scr (some 1) b).setRc scr (some 2)).live := hlive
  have h2 : ((X.put scr (some 1) b).setRc scr (some 2)).rc scr = some 2 := update_self scr _ _
  rw [hinc]
  simp only [State.decref]
  rw [release_more hp hlive2 h2 (by simp), release_nil]
  simp only [Heap.setRc, Heap.put, update_idem]

theorem decref_put {X : Heap Word Body} {m : Masks} {d v : Word} {k : Option ℕ} {b : Body}
    (hd : d ∉ X.live) (hk : ∀ x ∈ X.live, d ∉ kids m (X.body x)) (hv : d ≠ v) :
    State.decref ⟨X.put d k b, m⟩ v = ⟨(X.release isPtr (kids m) [v]).put d k b, m⟩ := by
  simp only [State.decref]
  rw [release_put hd hk (by simpa using hv)]

/-- The words of the donor are written over from number `pre.length` on, and the old ones that
the test asks for are released. -/
theorem refill_put {pays : ℕ → Word → Word → Bool} {m : Masks} {d : Word}
    {f : List Word → Body} (hwords : ∀ ws, (f ws).words = ws)
    (hset : ∀ ws i w, (f ws).setWord i w = f (ws.set i w)) {X : Heap Word Body}
    {olds news : List Word} (pre : List Word) (hlen : olds.length = news.length)
    (hd : d ∉ X.live) (hk : ∀ x ∈ X.live, d ∉ kids m (X.body x))
    (hpaid : d ∉ pick pays pre.length olds news) :
    State.refill pays d pre.length news ⟨X.put d (some 1) (f (pre ++ olds)), m⟩ =
      ⟨(X.release isPtr (kids m) (pick pays pre.length olds news)).put d (some 1)
        (f (pre ++ news)), m⟩ := by
  induction news generalizing X pre olds with
  | nil =>
      obtain rfl : olds = [] := List.length_eq_zero_iff.mp hlen
      simp [State.refill, pick]
  | cons new news ih =>
      cases olds with
      | nil => simp at hlen
      | cons old olds =>
          have hold : (pre ++ old :: olds).getD pre.length 0 = old := by simp
          have hnew : (pre ++ old :: olds).set pre.length new = (pre ++ [new]) ++ olds := by
            simp
          have hpre : (pre ++ [new]).length = pre.length + 1 := by simp
          have happ : pre ++ new :: news = (pre ++ [new]) ++ news := by simp
          have hlen' : olds.length = news.length := Nat.succ.inj hlen
          simp only [State.refill, body_put, hwords, hset, hold, hnew, setBody_put]
          rw [happ, ← hpre]
          by_cases hp : pays pre.length old new = true
          · simp only [pick, hp, if_true, List.mem_cons, not_or] at hpaid ⊢
            rw [decref_put hd hk hpaid.1, release_cons X old (pick _ _ _ _), ← hpre]
            refine ih _ hlen' (fun hm => hd (release_live_subset _ _ hm)) (fun x hx => ?_)
              (hpre ▸ hpaid.2)
            rw [release_body]
            exact hk x (release_live_subset _ _ hx)
          · simp only [pick, hp, Bool.false_eq_true, if_false] at hpaid ⊢
            rw [← hpre]
            exact ih _ hlen' hd hk (hpre ▸ hpaid)

theorem refill_all {pays : ℕ → Word → Word → Bool} {m : Masks} {d : Word}
    {f : List Word → Body} (hwords : ∀ ws, (f ws).words = ws)
    (hset : ∀ ws i w, (f ws).setWord i w = f (ws.set i w)) {X : Heap Word Body}
    {olds news : List Word} (hlen : olds.length = news.length) (hd : d ∉ X.live)
    (hk : ∀ x ∈ X.live, d ∉ kids m (X.body x)) (hpaid : d ∉ pick pays 0 olds news)
    (hs : s = ⟨X.put d (some 1) (f olds), m⟩) :
    s.refill pays d 0 news =
      ⟨(X.release isPtr (kids m) (pick pays 0 olds news)).put d (some 1) (f news), m⟩ := by
  rw [hs]
  exact refill_put hwords hset [] hlen hd hk hpaid

theorem decref_if {X : Heap Word Body} {m : Masks} {d v : Word} {k : Option ℕ} {b : Body}
    {p : Prop} [Decidable p] (hd : d ∉ X.live) (hk : ∀ x ∈ X.live, d ∉ kids m (X.body x))
    (hv : p → d ≠ v) :
    (if p then State.decref ⟨X.put d k b, m⟩ v else ⟨X.put d k b, m⟩) =
      ⟨(X.release isPtr (kids m) (if p then [v] else [])).put d k b, m⟩ := by
  split
  · rename_i hp
    exact decref_put hd hk (hv hp)
  · rw [release_nil]

theorem Ready.scr_ptr (h : Ready layout s scr a roots) : isPtr scr = true :=
  h.exact.live_ptr scr h.scr_live

theorem Ready.ne (h : Ready layout s scr a roots) : a ≠ scr :=
  fun he => h.free (he ▸ h.scr_live)

theorem Rebuild.Reuses.length {c : Rebuild} (h : c.Reuses layout s scr) :
    (s.body scr).words.length = c.body.words.length := by
  obtain ⟨-, h⟩ := h
  cases c <;> cases hb : s.body scr <;> simp only [hb] at h <;>
    first | exact h | exact h.1 | rfl

theorem Rebuild.Reuses.unique {c : Rebuild} (h : c.Reuses layout s scr) :
    s.checkUnique scr = true :=
  h.1

theorem rc_of_unique (h : s.checkUnique scr = true) : s.rc scr = some 1 := by
  simp only [State.checkUnique, Bool.and_eq_true, decide_eq_true_eq] at h
  exact h.2

/-- The masks once the helper has taken its donor. -/
def Rebuild.masks (layout : ℕ → ℕ) (s : State) : Rebuild → Masks
  | variantReuseAt tag _ => register s.masks tag (layout tag)
  | cons _ _ | record _ _ _ | variant _ _ => s.masks

/-- The old words that the helper releases. -/
def Rebuild.paid (layout : ℕ → ℕ) (s : State) (scr : Word) (c : Rebuild) : List Word :=
  pick (c.pays layout s scr) 0 (s.body scr).words c.body.words

theorem pick_cons_ne (oldHead oldTail head tail : Word) :
    pick (fun _ old new => decide (old ≠ new)) 0 [oldHead, oldTail] [head, tail] =
      (if oldHead ≠ head then [oldHead] else []) ++
        (if oldTail ≠ tail then [oldTail] else []) := by
  by_cases hh : oldHead = head <;> by_cases ht : oldTail = tail <;> simp [pick, hh, ht]

theorem Rebuild.run_reuses {c : Rebuild} (hr : Ready layout s scr a roots)
    (hc : c.Reuses layout s scr) (hpaid : scr ∉ c.paid layout s scr) :
    (c.run layout a scr s).1.decref scr =
        ⟨((s.heap.erase scr).release isPtr (kids s.masks) (c.paid layout s scr)).put scr
          (some 1) c.body, c.masks layout s⟩ ∧
      (c.run layout a scr s).2 = scr := by
  have hu := hc.unique
  have h1 := rc_of_unique hu
  have hp := hr.scr_ptr
  have hd : scr ∉ (s.heap.erase scr).live := Finset.notMem_erase _ _
  have hk : ∀ x ∈ (s.heap.erase scr).live, scr ∉ kids s.masks ((s.heap.erase scr).body x) :=
    fun x hx => (hr.exact.unreferenced hr.scr_live h1).2 x (Finset.mem_of_mem_erase hx)
  have hlen := hc.length
  have hs := heap_eq_put s hr.scr_live
  rw [h1] at hs
  obtain ⟨-, hshape⟩ := hc
  cases c with
  | cons head tail =>
      rcases hb : s.body scr with ⟨oldHead, oldTail⟩ | _ | _ | _ <;> simp only [hb] at hshape
      rw [hb] at hs
      simp only [paid, pays, body, hb, Body.words, pick_cons_ne, List.mem_append, not_or]
        at hpaid ⊢
      have hset : s.setBody scr (.cons head tail) =
          ⟨(s.heap.erase scr).put scr (some 1) (.cons head tail), s.masks⟩ :=
        (congrArg (fun t => State.setBody t scr (.cons head tail)) hs).trans
          (setBody_put _ _ _ _ _ _)
      have hhead : oldHead ≠ head → scr ≠ oldHead := fun hne he => by simp [hne, he] at hpaid
      have htail : oldTail ≠ tail → scr ≠ oldTail := fun hne he => by simp [hne, he] at hpaid
      simp only [run, reuseOrAllocCons, hb, hu, if_true, hset, decref_if hd hk hhead]
      rw [decref_if (fun hm => hd (release_live_subset _ _ hm)) (fun x hx => ?_) htail,
        incref_decref hp, release_append]
      · exact ⟨rfl, trivial⟩
      · rw [release_body]
        exact hk x (release_live_subset _ _ hx)
  | record names fields kept =>
      rcases hb : s.body scr with _ | ⟨tag, oldNames, old⟩ | _ | _ <;> simp only [hb] at hshape
      rw [hb] at hs hlen
      simp only [paid, hb] at hpaid ⊢
      have hrefill := refill_all (f := .record tag oldNames) (fun _ => rfl) (fun _ _ _ => rfl)
        hlen hd hk hpaid hs
      simp only [body, Body.words, pays] at hrefill ⊢
      simp only [run, reuseOrAllocRecord, hb, hshape, hu, and_self, if_true, hrefill, body_put,
        Body.words, setBody_put, incref_decref hp]
      exact ⟨rfl, trivial⟩
  | variant tag slots =>
      rcases hb : s.body scr with _ | _ | ⟨t, old⟩ | _ <;> simp only [hb] at hshape
      rw [hb] at hs hlen
      simp only [paid, hb] at hpaid ⊢
      have hrefill := refill_all (f := .variant t) (fun _ => rfl) (fun _ _ _ => rfl)
        hlen hd hk hpaid hs
      simp only [body, Body.words, pays] at hrefill ⊢
      simp only [run, reuseOrAllocVariant, hb, hshape, hu, and_self, if_true, hrefill, body_put,
        Body.words, setBody_put, incref_decref hp]
      exact ⟨rfl, trivial⟩
  | variantReuseAt tag slots =>
      rcases hb : s.body scr with _ | _ | ⟨t, old⟩ | _ <;> simp only [hb] at hshape
      rw [hb] at hs hlen
      simp only [paid, hb] at hpaid ⊢
      have hrefill := refill_all (f := .variant t) (fun _ => rfl) (fun _ _ _ => rfl)
        hlen hd hk hpaid hs
      simp only [body, Body.words, pays, hb] at hrefill ⊢
      simp only [run, Reuse.variantReuseAt, hb, hshape, hu, and_self, if_true, hrefill,
        body_put, Body.words, setBody_put, incref_decref hp]
      exact ⟨rfl, trivial⟩

/-- The masks after a fresh cell. -/
def freshMasks (layout : ℕ → ℕ) (s : State) : Body → Masks
  | .variant tag _ => register s.masks tag (layout tag)
  | .cons _ _ | .record _ _ _ | .other _ => s.masks

theorem fresh_eq (s : State) (b : Body) :
    fresh layout a b s = ⟨s.heap.put a (some 1) b, freshMasks layout s b⟩ := by
  cases b <;> rfl

theorem Wf.freshMasks (h : Wf layout s) (b : Body) :
    Wf layout ⟨s.heap, Reuse.freshMasks layout s b⟩ := by
  cases b with
  | variant tag slots => exact h.register tag
  | _ => exact h

theorem freshMasks_read (h : Wf layout s) {b : Body} {tag : ℕ} {slots : List Word}
    (hb : b = .variant tag slots) : maskOf (freshMasks layout s b) tag = layout tag := by
  subst hb
  exact maskOf_register h tag

theorem Wf.masks (h : Wf layout s) (c : Rebuild) : Wf layout ⟨s.heap, c.masks layout s⟩ := by
  cases c with
  | variantReuseAt tag slots => exact h.register tag
  | _ => exact h

theorem agrees_put {Z : Heap Word Body} {r q : Word} (hr : r ∉ Z.live) (hq : q ∉ Z.live)
    (k : Option ℕ) (b : Body) (m m' : Masks) :
    Agrees ⟨Z.put r k b, m⟩ r ⟨Z.put q k b, m'⟩ q where
  live := (Finset.erase_insert hr).trans (Finset.erase_insert hq).symm
  same x hx := by
    have hxZ : x ∈ Z.live := by
      have hx' : x ∈ (insert r Z.live).erase r := hx
      rwa [Finset.erase_insert hr] at hx'
    have hxr : x ≠ r := fun he => hr (he ▸ hxZ)
    have hxq : x ≠ q := fun he => hq (he ▸ hxZ)
    simp only [State.rc, State.body, Heap.put, update_of_ne hxr, update_of_ne hxq, and_self]
  here := Finset.mem_insert_self _ _
  there := Finset.mem_insert_self _ _
  cell := by simp only [State.rc, State.body, Heap.put, update_self, and_self]

section Arm

variable {rest : List Word}

theorem Ready.ownedExact (hr : Ready layout s scr a roots) :
    Exact isPtr (owned layout) s.heap (scr :: roots) :=
  hr.wf.counts_iff.mp hr.exact

theorem Ready.fresh_decref (hr : Ready layout s scr a roots) (b : Body) :
    (fresh layout a b s).decref scr =
      ⟨(s.heap.release isPtr (owned layout) [scr]).put a (some 1) b, freshMasks layout s b⟩ := by
  have hwf : Wf layout ⟨s.heap.put a (some 1) b, freshMasks layout s b⟩ :=
    (hr.wf.freshMasks b).put fun tag slots hb => freshMasks_read hr.wf hb
  have hkid : ∀ x ∈ s.heap.live, a ∉ owned layout (s.heap.body x) := fun x hx hm =>
    hr.free (hr.ownedExact.kids_live x hx a hm hr.ptr)
  rw [fresh_eq, hwf.decref_heap, release_put hr.free hkid (by simpa using hr.ne)]

theorem Ready.live_release (hr : Ready layout s scr a roots) (ws : List Word) :
    a ∉ (s.heap.release isPtr (owned layout) ws).live :=
  fun hm => hr.free (release_live_subset _ _ hm)

theorem rebuilt_put {Z : Heap Word Body} {r : Word} {b : Body} {m m' : Masks}
    (hZ : Exact isPtr (owned layout) Z (owned layout b ++ rest)) (hwf : Wf layout ⟨Z, m⟩)
    (hread : ∀ tag slots, b = .variant tag slots → maskOf m tag = layout tag)
    (hr : r ∉ Z.live) (hp : isPtr r = true) (ha : a ∉ Z.live) :
    Rebuilt layout ⟨Z.put r (some 1) b, m⟩ r ⟨Z.put a (some 1) b, m'⟩ a b rest where
  exact := (hwf.put hread).counts_iff.mpr (hZ.put hr hp)
  built := update_self _ _ _
  read := hread
  agrees := agrees_put hr ha _ _ _ _

theorem Ready.rebuilt_fresh {b : Body}
    (hr : Ready layout s scr a (owned layout b ++ rest)) :
    Rebuilt layout ((fresh layout a b s).decref scr) a ((fresh layout a b s).decref scr) a b
      rest := by
  rw [hr.fresh_decref]
  have hZ : Exact isPtr (owned layout) (s.heap.release isPtr (owned layout) [scr])
      (owned layout b ++ rest) := hr.ownedExact.release
  refine rebuilt_put hZ ?_ (fun tag slots hb => freshMasks_read hr.wf hb) (hr.live_release _)
    hr.ptr (hr.live_release _)
  exact (hr.wf.freshMasks b).mono (release_live_subset _ _) (release_body _ _)

/-- The old words in pointer slots that the helper does not release. -/
def Rebuild.left (layout : ℕ → ℕ) (s : State) (scr : Word) (c : Rebuild) : List Word :=
  pick (fun i old new => ptrSlot layout (s.body scr) i && !c.pays layout s scr i old new) 0
    (s.body scr).words c.body.words

theorem Rebuild.Clean.pays_slot {c : Rebuild} (h : c.Clean layout s scr) :
    ∀ j < (s.body scr).words.length, j < c.body.words.length →
      c.pays layout s scr (0 + j) ((s.body scr).words.getD j 0) (c.body.words.getD j 0) = true →
        ptrSlot layout (s.body scr) (0 + j) = true := by
  intro j _ hj hp
  rw [Nat.zero_add] at hp ⊢
  exact h j hj hp

theorem Rebuild.Clean.perm {c : Rebuild} (h : c.Clean layout s scr)
    (hc : c.Reuses layout s scr) :
    (c.paid layout s scr ++ c.left layout s scr).Perm (owned layout (s.body scr)) := by
  have hp := pick_perm (q := fun i _ _ => ptrSlot layout (s.body scr) i) h.pays_slot
  rwa [pick_owned hc.length] at hp

/-- With its donor, the rebuilt value is right when its tag is read as built and no counted
word is left. -/
theorem Rebuild.rebuilt_iff {c : Rebuild}
    (hr : Ready layout s scr a (owned layout c.body ++ rest)) (hc : c.Reuses layout s scr)
    (hclean : c.Clean layout s scr) :
    Rebuilt layout ((c.run layout a scr s).1.decref scr) (c.run layout a scr s).2
        ((fresh layout a c.body s).decref scr) a c.body rest ↔
      (∀ tag slots, c.body = .variant tag slots →
        maskOf (c.masks layout s) tag = layout tag) ∧
        ∀ w ∈ c.left layout s scr, ¬ s.Counted w := by
  have h1 := rc_of_unique hc.unique
  have hp := hr.scr_ptr
  have hexact := hr.ownedExact
  obtain ⟨hroot, hkid⟩ := hexact.unreferenced hr.scr_live h1
  have hperm := hclean.perm hc
  -- the words of the donor are not the donor
  have hown : scr ∉ owned layout (s.body scr) := hkid scr hr.scr_live
  have hpaid : scr ∉ c.paid layout s scr := fun hm =>
    hown (hperm.mem_iff.mp (List.mem_append_left _ hm))
  have hleft : ∀ w ∈ c.left layout s scr, w ≠ scr := by
    rintro w hw rfl
    exact hown (hperm.mem_iff.mp (List.mem_append_right _ hw))
  set X := s.heap.erase scr with hX
  have hwfX : Wf layout ⟨X, s.masks⟩ := hr.wf.mono (Finset.erase_subset _ _) rfl
  have hrun := c.run_reuses hr hc hpaid
  have hkids : X.release isPtr (kids s.masks) (c.paid layout s scr) =
      X.release isPtr (owned layout) (c.paid layout s scr) :=
    (release_congr hwfX.kids_eq).symm
  rw [hkids] at hrun
  rw [hrun.1, hrun.2, hr.fresh_decref, release_last hp hr.scr_live h1, List.append_nil]
  set Y := X.release isPtr (owned layout) (c.paid layout s scr) with hY
  have hXexact : Exact isPtr (owned layout) X
      (c.paid layout s scr ++ (c.left layout s scr ++ (owned layout c.body ++ rest))) := by
    refine (hexact.erase hr.scr_live h1).perm ?_
    rw [← List.append_assoc, ← List.append_assoc, ← List.append_assoc]
    exact (hperm.symm.append_right _).append_right _
  have hscrY : scr ∉ Y.live := fun hm =>
    Finset.notMem_erase scr s.heap.live (release_live_subset _ _ hm)
  have hcounted : ∀ w ∈ c.left layout s scr,
      ((Y.put scr (some 1) c.body).Uncounted isPtr w ↔ ¬ s.Counted w) := by
    intro w hw
    have hXs : X.Uncounted isPtr w ↔ s.heap.Uncounted isPtr w := uncounted_erase (hleft w hw)
    rw [uncounted_put (hleft w hw), State.Counted, not_not, ← hXs]
    exact ⟨not_imp_not.mp (hXexact.counted_release (List.mem_append_left _ hw)),
      fun hu => Uncounted.release hu _⟩
  have hYput : Exact isPtr (owned layout) (Y.put scr (some 1) c.body)
      (c.left layout s scr ++ scr :: rest) := by
    have hY' : Exact isPtr (owned layout) Y
        (owned layout c.body ++ (c.left layout s scr ++ rest)) :=
      hXexact.release.perm (List.perm_append_comm_assoc _ _ _)
    exact (hY'.put hscrY hp).perm List.perm_middle.symm
  have hwfY : Wf layout ⟨Y, c.masks layout s⟩ :=
    (hr.wf.masks c).mono ((release_live_subset _ _).trans (Finset.erase_subset _ _))
      (release_body _ _)
  constructor
  · intro h
    refine ⟨h.read, fun w hw => (hcounted w hw).mp ?_⟩
    have he := (hwfY.put h.read).counts_iff.mp h.exact
    exact he.uncounted_of_append hYput w hw
  · rintro ⟨hread, hu⟩
    have he := hYput.drop_all fun w hw => (hcounted w hw).mpr (hu w hw)
    -- nothing but uncounted words is left, so the old children are all released
    have hYall : Y = X.release isPtr (owned layout) (owned layout (s.body scr)) := by
      rw [hY, ← pick_owned hc.length]
      refine release_pick hclean.pays_slot fun w hw => ?_
      rw [hX, uncounted_erase (hleft w hw)]
      exact not_not.mp (hu w hw)
    have haY : a ∉ Y.live := fun hm =>
      hr.free (Finset.mem_of_mem_erase (release_live_subset _ _ hm))
    change Rebuilt layout _ _ ⟨(X.release isPtr (owned layout)
      (owned layout (s.body scr))).put a (some 1) c.body, _⟩ a c.body rest
    rw [← hYall]
    exact {
      exact := (hwfY.put hread).counts_iff.mpr he
      built := update_self _ _ _
      read := hread
      agrees := agrees_put hscrY haY _ _ _ _ }

theorem Rebuild.run_fresh {c : Rebuild} (hc : ¬ c.Reuses layout s scr) :
    c.run layout a scr s = (fresh layout a c.body s, a) := by
  cases c with
  | cons head tail =>
      rcases hb : s.body scr with _ | _ | _ | _ <;>
        simp [Rebuild.run, reuseOrAllocCons, Rebuild.Reuses, hb, fresh, Rebuild.body] at hc ⊢
      simp [hc]
  | record names fields kept =>
      rcases hb : s.body scr with _ | _ | _ | _ <;>
        simp [Rebuild.run, reuseOrAllocRecord, Rebuild.Reuses, hb, fresh, Rebuild.body] at hc ⊢
      intro hlen hu
      exact absurd hlen (hc hu)
  | variant tag slots =>
      rcases hb : s.body scr with _ | _ | _ | _ <;>
        simp [Rebuild.run, reuseOrAllocVariant, Rebuild.Reuses, hb, fresh, Rebuild.body] at hc ⊢
      intro hlen hm hu
      exact absurd hm (hc hu hlen)
  | variantReuseAt tag slots =>
      rcases hb : s.body scr with _ | _ | _ | _ <;>
        simp [Rebuild.run, Reuse.variantReuseAt, Rebuild.Reuses, hb, fresh, Rebuild.body]
          at hc ⊢
      intro hlen hu
      exact absurd hlen (hc hu)

theorem Rebuild.left_iff {c : Rebuild} (hc : c.Reuses layout s scr) :
    (∀ w ∈ c.left layout s scr, ¬ s.Counted w) ↔
      ∀ i < c.body.words.length, ptrSlot layout (s.body scr) i = true →
        c.pays layout s scr i ((s.body scr).words.getD i 0) (c.body.words.getD i 0) = false →
          ¬ s.Counted ((s.body scr).words.getD i 0) := by
  constructor
  · intro h i hi hslot hpays
    refine h _ (mem_pick.mpr ⟨i, hc.length ▸ hi, hi, ?_, rfl⟩)
    rw [Nat.zero_add, hslot, hpays]
    rfl
  · intro h w hw
    obtain ⟨i, -, hi, hpick, rfl⟩ := mem_pick.mp hw
    rw [Nat.zero_add, Bool.and_eq_true, Bool.not_eq_true'] at hpick
    exact h i hi hpick.1 hpick.2

theorem recordPays_eq_false {kept i old new : ℕ} :
    recordPays kept i old new = false ↔ old = new ∧ ¬ (i < 64 ∧ kept.testBit i = true) := by
  simp [recordPays]

theorem variantPays_eq_true {mask i old new : ℕ} :
    variantPays mask i old new = true ↔ mask.testBit i = false ∧ old ≠ new := by
  simp [variantPays]

theorem reuseAtPays_eq_true {mask i old new : ℕ} :
    reuseAtPays mask i old new = true ↔
      slotKind mask i = slotPtr ∧ isPtr old = true ∧ old ≠ new := by
  have hzero : mask = 0 → slotKind mask i = slotPtr := by
    rintro rfl
    simp [slotKind, slotPtr]
  simp only [reuseAtPays, Bool.and_eq_true, Bool.or_eq_true, decide_eq_true_eq, and_assoc]
  exact ⟨fun ⟨hm, h⟩ => ⟨hm.elim hzero id, h⟩, fun ⟨hm, h⟩ => ⟨.inr hm, h⟩⟩

theorem State.Counted.ptr {w : Word} (h : s.Counted w) : isPtr w = true :=
  (not_not.mp (not_or.mp h).1).1

theorem Rebuild.fits_iff {c : Rebuild} (hwf : Wf layout s) (hscr : scr ∈ s.heap.live)
    (hc : c.Reuses layout s scr) :
    c.Fits layout s scr ↔ c.Clean layout s scr ∧
      (∀ tag slots, c.body = .variant tag slots →
        maskOf (c.masks layout s) tag = layout tag) ∧
      ∀ w ∈ c.left layout s scr, ¬ s.Counted w := by
  rw [c.left_iff hc]
  obtain ⟨-, hshape⟩ := hc
  cases c with
  | cons head tail =>
      rcases hb : s.body scr with ⟨oldHead, oldTail⟩ | _ | _ | _ <;> simp only [hb] at hshape
      simp only [Fits, Clean, pays, body, hb, Body.words, ptrSlot]
      constructor
      · rintro ⟨hhead, htail⟩
        refine ⟨fun _ _ _ => trivial, by simp, fun i hi _ hne => ?_⟩
        obtain rfl | rfl : i = 0 ∨ i = 1 := by simp at hi; omega
        · exact hhead (by simpa using hne)
        · exact htail (by simpa using hne)
      · rintro ⟨-, -, h⟩
        exact ⟨fun he => h 0 (by simp) trivial (by simpa using he),
          fun he => h 1 (by simp) trivial (by simpa using he)⟩
  | record names fields kept =>
      rcases hb : s.body scr with _ | ⟨tag, oldNames, old⟩ | _ | _ <;> simp only [hb] at hshape
      simp only [Fits, Clean, pays, body, hb, Body.words, ptrSlot, recordPays_eq_false]
      constructor
      · intro h
        refine ⟨fun _ _ _ => trivial, by simp, fun i hi _ hne hcount => ?_⟩
        exact hne.2 (h i hi hne.1 hcount)
      · rintro ⟨-, -, h⟩ i hi he hcount
        by_contra hno
        exact h i hi trivial ⟨he, hno⟩ hcount
  | variant tag slots =>
      rcases hb : s.body scr with _ | _ | ⟨t, old⟩ | _ <;> simp only [hb] at hshape
      have ht : layout t = layout tag := (hwf.cells scr hscr t old hb).symm.trans hshape.2
      simp only [Fits, Clean, pays, body, hb, Body.words, ptrSlot, ht, masks,
        Body.variant.injEq, and_imp, decide_eq_true_eq, ← Bool.not_eq_true,
        variantPays_eq_true]
      constructor
      · rintro ⟨hmask, h⟩
        refine ⟨fun i hi hbit hne => ?_, fun _ _ he _ => he ▸ hmask,
          fun i hi hslot hno hcount => ?_⟩
        · have hi' := h i hi
          split_ifs at hi' with hslot
          · exact hslot
          · exact hi'.elim (fun hb => absurd hb hbit) fun he => absurd he hne
        · have hi' := h i hi
          rw [if_pos hslot] at hi'
          exact hno (hi' hcount)
      · rintro ⟨hclean, hmask, h⟩
        refine ⟨hmask tag slots rfl rfl, fun i hi => ?_⟩
        split_ifs with hslot
        · intro hcount
          by_contra hno
          exact h i hi hslot hno hcount
        · by_contra hno
          obtain ⟨hbit, hne⟩ := not_or.mp hno
          exact hslot (hclean i hi hbit hne)
  | variantReuseAt tag slots =>
      rcases hb : s.body scr with _ | _ | ⟨t, old⟩ | _ <;> simp only [hb] at hshape
      have ht : maskOf s.masks t = layout t := hwf.cells scr hscr t old hb
      simp only [Fits, Clean, pays, body, hb, Body.words, ptrSlot, ht, masks,
        Body.variant.injEq, and_imp, decide_eq_true_eq, ← Bool.not_eq_true,
        reuseAtPays_eq_true]
      constructor
      · intro h
        refine ⟨fun i _ hslot _ _ => hslot, fun _ _ he _ => he ▸ maskOf_register hwf tag,
          fun i hi hslot hno hcount => ?_⟩
        exact hno ⟨hslot, hcount.ptr, h i hi hslot hcount⟩
      · rintro ⟨-, -, h⟩ i hi hslot hcount he
        exact h i hi hslot (fun hp => hp.2.2 he) hcount

theorem Rebuild.correct_iff {c : Rebuild}
    (hr : Ready layout s scr a (owned layout c.body ++ rest)) :
    c.Correct layout s scr a rest ↔ (c.Reuses layout s scr → c.Fits layout s scr) := by
  constructor
  · intro h hc
    have hiff := c.rebuilt_iff hr hc (h.clean hc)
    exact (c.fits_iff hr.wf hr.scr_live hc).mpr ⟨h.clean hc, hiff.mp h.rebuilt⟩
  · intro h
    by_cases hc : c.Reuses layout s scr
    · obtain ⟨hclean, hgood⟩ := (c.fits_iff hr.wf hr.scr_live hc).mp (h hc)
      exact ⟨(c.rebuilt_iff hr hc hclean).mpr hgood, fun _ => hclean⟩
    · refine ⟨?_, fun h => absurd h hc⟩
      rw [c.run_fresh hc]
      exact hr.rebuilt_fresh

theorem incref_eq (s : State) (w : Word) :
    s.incref w = ⟨s.heap.retain isPtr [w], s.masks⟩ := by
  have hne : ∀ x, x ≠ w → (s.heap.retain isPtr [w]).rc x = s.heap.rc x := fun x hx =>
    retain_rc_of_notMem _ (by simpa using hx)
  unfold State.incref
  split
  · rename_i hp
    rcases hk : s.heap.rc w with _ | k
    · have hsame : s.heap.retain isPtr [w] = s.heap := by
        unfold Heap.retain
        congr 1
        funext x
        by_cases hx : x = w
        · rw [hx, hk]
          simp
        · exact hne x hx
      simp only [State.rc, hk, hsame]
    · have hset : s.heap.retain isPtr [w] = s.heap.setRc w (some (k + 1)) := by
        unfold Heap.retain Heap.setRc
        congr 1
        funext x
        by_cases hx : x = w
        · rw [hx, if_pos hp, hk, update_self]
          simp
        · exact (hne x hx).trans (update_of_ne hx _ _).symm
      simp only [State.rc, hk, hset]
  · rename_i hp
    have hsame : s.heap.retain isPtr [w] = s.heap := by
      unfold Heap.retain
      congr 1
      funext x
      by_cases hx : x = w
      · rw [hx, if_neg hp]
      · exact hne x hx
    rw [hsame]

theorem dups_eq (s : State) (ws : List Word) :
    s.dups ws = ⟨s.heap.retain isPtr ws, s.masks⟩ := by
  induction ws generalizing s with
  | nil => rw [retain_nil]; rfl
  | cons w ws ih =>
      change (s.incref w).dups ws = _
      rw [ih, incref_eq]
      change State.mk ((s.heap.retain isPtr [w]).retain isPtr ws) s.masks = _
      rw [retain_retain, List.singleton_append]

theorem Wf.decrefs_eq (h : Wf layout s) (ws : List Word) :
    s.decrefs ws = ⟨s.heap.release isPtr (owned layout) ws, s.masks⟩ := by
  induction ws generalizing s with
  | nil => rw [release_nil]; rfl
  | cons w ws ih =>
      change (s.decref w).decrefs ws = _
      rw [h.decref_heap, ih (h.mono (release_live_subset _ _) (release_body _ _)),
        release_cons s.heap w ws]

/-- What an arm that holds no token builds. -/
def build (layout : ℕ → ℕ) (a : Word) (built : Option (ℕ × List Word)) (s : State) :
    State × Word :=
  match built with
  | some (tag, slots) => (s.variantU a tag (layout tag) slots, a)
  | none => (s, 0)

/-- The heap of the arm without reuse, before it builds. -/
def plainHeap (layout : ℕ → ℕ) (s : State) (scr : Word) (dropped : List Word) :
    Heap Word Body :=
  (s.heap.retain isPtr (owned layout (s.body scr))).release isPtr (owned layout)
    (scr :: dropped)

theorem Ready.kids_scr (hr : Ready layout s scr a roots) :
    kids s.masks (s.body scr) = owned layout (s.body scr) :=
  (hr.wf.kids_eq scr hr.scr_live).symm

theorem Wf.retain (h : Wf layout s) (ws : List Word) :
    Wf layout ⟨s.heap.retain isPtr ws, s.masks⟩ :=
  h.mono (Finset.Subset.refl _) rfl

theorem Ready.plainArm_eq (hr : Ready layout s scr a roots)
    (built : Option (ℕ × List Word)) (dropped : List Word) :
    plainArm layout a scr built dropped s =
      build layout a built ⟨plainHeap layout s scr dropped, s.masks⟩ := by
  have hdec := (hr.wf.retain (owned layout (s.body scr))).decrefs_eq (scr :: dropped)
  unfold plainArm plainHeap
  rw [hr.kids_scr, dups_eq, ← hdec]
  rcases built with _ | ⟨tag, slots⟩ <;> rfl

theorem reuseFree_null (s : State) : reuseFree 0 s = s := rfl

theorem variantAt_null (a : Word) (tag mask : ℕ) (slots : List Word) (s : State) :
    variantAt a 0 tag mask slots s = (s.variantU a tag mask slots, a) := by
  unfold variantAt
  rw [reuseFree_null]
  split
  · exact if_neg fun h => h.1 rfl
  · rfl

theorem Ready.tokenArm_null (hr : Ready layout s scr a roots) {n : ℕ} {h : Heap Word Body}
    (hdrop : dropReuseToken scr n s = (0, ⟨h, s.masks⟩)) (hlive : h.live = s.heap.live)
    (hbody : h.body = s.heap.body) (built : Option (ℕ × List Word)) (dropped : List Word) :
    tokenArm layout a scr n built dropped s =
      build layout a built
        ⟨(h.retain isPtr (owned layout (s.body scr))).release isPtr (owned layout) dropped,
          s.masks⟩ := by
  have hwf : Wf layout ⟨h, s.masks⟩ := hr.wf.mono hlive.le hbody
  unfold tokenArm
  simp only [hdrop, if_true]
  rw [hr.kids_scr, dups_eq, (hwf.retain _).decrefs_eq]
  rcases built with _ | ⟨tag, slots⟩
  · rfl
  · exact variantAt_null _ _ _ _ _

theorem Ready.decrement_retain (hr : Ready layout s scr a roots) (h1 : s.rc scr ≠ some 1)
    (dropped : List Word) :
    ((s.decrement scr).heap.retain isPtr (owned layout (s.body scr))).release isPtr
      (owned layout) dropped = plainHeap layout s scr dropped := by
  have hp := hr.scr_ptr
  unfold plainHeap State.decrement
  rcases hk : s.rc scr with _ | k
  · have hu : (s.heap.retain isPtr (owned layout (s.body scr))).Uncounted isPtr scr := by
      refine .inr ?_
      change s.heap.rc scr = none at hk
      simp only [Heap.retain, hk, Option.map_none, ite_self]
    rw [release_uncounted hu]
  · have hcount := hr.ownedExact.count scr hr.scr_live k hk
    rw [List.count_cons_self] at hcount
    have hk1 : k ≠ 1 := fun he => h1 (he ▸ hk)
    have hlive : scr ∈ (s.heap.retain isPtr (owned layout (s.body scr))).live := hr.scr_live
    have hrc := retain_rc hp hr.scr_live hk (owned layout (s.body scr))
    have hsub : k - 1 + (owned layout (s.body scr)).count scr =
        k + (owned layout (s.body scr)).count scr - 1 := by omega
    rw [release_more hp hlive hrc (by omega), ← hsub, ← retain_setRc hp hr.scr_live]

theorem isPtr_ne_zero {w : Word} (h : isPtr w = true) : w ≠ 0 := by
  rintro rfl
  simp [isPtr] at h

theorem isPtr_not_value {w : Word} (h : isPtr w = true) : isValue w = false := by
  rw [isPtr, Bool.and_eq_true, Bool.not_eq_true'] at h
  exact h.2

theorem Ready.tokenArm_unique {dropped : List Word} (hr : Ready layout s scr a roots)
    {n t : ℕ} {old : List Word} (hb : s.body scr = .variant t old) (hn : old.length = n)
    (h1 : s.rc scr = some 1) (hdrop : scr ∉ dropped) (built : Option (ℕ × List Word)) :
    tokenArm layout a scr n built dropped s =
      match built with
      | some (tag, slots) =>
        if slots.length = n then
          (⟨((s.heap.erase scr).release isPtr (owned layout) dropped).put scr (some 1)
            (.variant tag slots), s.masks⟩, scr)
        else build layout a built
          ⟨(s.heap.erase scr).release isPtr (owned layout) dropped, s.masks⟩
      | none => build layout a none
          ⟨(s.heap.erase scr).release isPtr (owned layout) dropped, s.masks⟩ := by
  have hp := hr.scr_ptr
  have hne := isPtr_ne_zero hp
  have hkid := (hr.ownedExact.unreferenced hr.scr_live h1).2
  have hu : s.checkUnique scr = true := by
    simp [State.checkUnique, hp, hr.scr_live, h1]
  have htoken : dropReuseToken scr n s = (scr, s) := by
    simp [dropReuseToken, hp, hb, hn, hu]
  have hbody : (State.mk (s.heap.release isPtr (owned layout) dropped) s.masks).body scr =
      .variant t old := by
    change (s.heap.release isPtr (owned layout) dropped).body scr = _
    rw [release_body]
    exact hb
  have hfree : reuseFree scr ⟨s.heap.release isPtr (owned layout) dropped, s.masks⟩ =
      ⟨(s.heap.erase scr).release isPtr (owned layout) dropped, s.masks⟩ := by
    simp only [reuseFree, hne, isPtr_not_value hp, hbody, Bool.false_eq_true, or_self, if_false,
      release_erase hkid hdrop]
  have hput : s.heap.release isPtr (owned layout) dropped =
      ((s.heap.erase scr).release isPtr (owned layout) dropped).put scr (some 1)
        (.variant t old) := by
    have hs := congrArg State.heap (heap_eq_put s hr.scr_live)
    rw [h1, hb] at hs
    refine (congrArg (fun h => h.release isPtr (owned layout) dropped) hs).trans ?_
    exact release_put (Finset.notMem_erase _ _)
      (fun x hx => hkid x (Finset.mem_of_mem_erase hx)) hdrop
  have hdec := hr.wf.decrefs_eq dropped
  unfold tokenArm
  simp only [htoken, hne, if_false, hdec]
  rcases built with _ | ⟨tag, slots⟩
  · simp only [hfree, build]
  · simp only [variantAt, hbody, hfree, hne, ne_eq, not_false_eq_true, true_and, hn, build]
    by_cases hlen : slots.length = n
    · rw [if_pos hlen.symm, if_pos hlen, hput, setBody_put]
      simp only [Heap.setRc, Heap.put, update_idem]
    · rw [if_neg (Ne.symm hlen), if_neg hlen]

theorem Ready.plainHeap_unique (hr : Ready layout s scr a roots) (h1 : s.rc scr = some 1)
    (dropped : List Word) :
    plainHeap layout s scr dropped =
      (s.heap.erase scr).release isPtr (owned layout) dropped := by
  have hexact := hr.ownedExact
  have hown : scr ∉ owned layout (s.body scr) :=
    (hexact.unreferenced hr.scr_live h1).2 scr hr.scr_live
  have hlive : scr ∈ (s.heap.retain isPtr (owned layout (s.body scr))).live := hr.scr_live
  have hrc := (retain_rc_of_notMem isPtr hown).trans h1
  have herased := hexact.erase hr.scr_live h1
  unfold plainHeap
  rw [release_last hr.scr_ptr hlive hrc, retain_erase hown]
  refine release_retain (fun w hw hlive h0 => ?_) dropped
  -- the child has the reference of the donor
  have hcount := herased.count w hlive 0 h0
  have hpos := List.count_pos_iff.mpr hw
  rw [List.count_append] at hcount
  change 0 = _ + ((owned layout (s.body scr)).count w + _) at hcount
  omega

section Token

variable {n : ℕ} {built : Option (ℕ × List Word)} {own dropped : List Word}

theorem build_correct {Z : Heap Word Body} {m : Masks}
    (hZ : Exact isPtr (owned layout) Z (ownedBuilt layout built ++ rest))
    (hwf : Wf layout ⟨Z, m⟩) (ha : a ∉ Z.live) (hp : isPtr a = true) :
    ArmCorrect layout a built rest (build layout a built ⟨Z, m⟩)
      (build layout a built ⟨Z, m⟩) := by
  rcases built with _ | ⟨tag, slots⟩
  · exact ⟨hwf.counts_iff.mpr hZ, rfl, fun _ _ => ⟨rfl, rfl⟩⟩
  · refine rebuilt_put hZ (hwf.register tag) ?_ ha hp ha
    rintro _ _ ⟨⟩
    exact maskOf_register hwf tag

theorem TokenReady.retain_exact (hr : TokenReady layout s scr a built own dropped rest) :
    Exact isPtr (owned layout) (s.heap.retain isPtr (owned layout (s.body scr)))
      ((scr :: dropped) ++ (ownedBuilt layout built ++ rest)) := by
  have hexact := hr.ready.ownedExact
  have hkids : ∀ w ∈ owned layout (s.body scr), isPtr w → w ∈ s.heap.live := fun w hw =>
    hexact.kids_live scr hr.ready.scr_live w hw
  refine (hexact.retain hkids).perm ?_
  calc (owned layout (s.body scr) ++ scr :: (own ++ rest)).Perm
        (scr :: (owned layout (s.body scr) ++ (own ++ rest))) := List.perm_middle
    _ = scr :: ((owned layout (s.body scr) ++ own) ++ rest) := by rw [List.append_assoc]
    _ |>.Perm (scr :: ((ownedBuilt layout built ++ dropped) ++ rest)) :=
        (hr.shares.symm.append_right rest).cons scr
    _ |>.Perm (scr :: (dropped ++ (ownedBuilt layout built ++ rest))) := by
        rw [List.append_assoc]
        exact (List.perm_append_comm_assoc _ _ _).cons scr

theorem Ready.retained_free (hr : Ready layout s scr a roots) (ws vs : List Word) :
    a ∉ ((s.heap.retain isPtr ws).release isPtr (owned layout) vs).live :=
  fun hm => hr.free (release_live_subset (s.heap.retain isPtr ws) vs hm)

theorem TokenReady.plain_correct (hr : TokenReady layout s scr a built own dropped rest) :
    ArmCorrect layout a built rest
      (build layout a built ⟨plainHeap layout s scr dropped, s.masks⟩)
      (plainArm layout a scr built dropped s) := by
  rw [hr.ready.plainArm_eq]
  refine build_correct hr.retain_exact.release ?_ ?_ hr.ready.ptr
  · exact (hr.ready.wf.retain _).mono (release_live_subset _ _) (release_body _ _)
  · exact hr.ready.retained_free _ _

theorem decrement_eq (s : State) (v : Word) :
    ∃ h, s.decrement v = ⟨h, s.masks⟩ ∧ h.live = s.heap.live ∧ h.body = s.heap.body := by
  unfold State.decrement
  split
  · exact ⟨s.heap, rfl, rfl, rfl⟩
  · exact ⟨_, rfl, rfl, rfl⟩

theorem TokenReady.decremented (hr : TokenReady layout s scr a built own dropped rest)
    (h1 : s.rc scr ≠ some 1) (hdrop : dropReuseToken scr n s = (0, s.decrement scr)) :
    TokenCorrect layout s scr a n built dropped rest := by
  obtain ⟨h, hdec, hlive, hbody⟩ := decrement_eq s scr
  have hplain := hr.ready.decrement_retain h1 dropped
  rw [hdec] at hdrop hplain
  unfold TokenCorrect
  rw [hr.ready.tokenArm_null hdrop hlive hbody, hplain]
  exact hr.plain_correct

theorem TokenReady.shared (hr : TokenReady layout s scr a built own dropped rest) {t : ℕ}
    {old : List Word} (hb : s.body scr = .variant t old) (h1 : s.rc scr ≠ some 1) :
    TokenCorrect layout s scr a n built dropped rest := by
  have hu : s.checkUnique scr = false := by
    simp [State.checkUnique, h1]
  have hdrop : dropReuseToken scr n s = (0, s.decrement scr) := by
    simp only [dropReuseToken, hr.ready.scr_ptr, hb, hu, if_true, Bool.false_eq_true, if_false]
    split <;> rfl
  exact hr.decremented h1 hdrop

theorem TokenReady.mismatch (hr : TokenReady layout s scr a built own dropped rest) {t : ℕ}
    {old : List Word} (hb : s.body scr = .variant t old) (h1 : s.rc scr = some 1)
    (hn : old.length ≠ n) : ¬ TokenCorrect layout s scr a n built dropped rest := by
  have hdrop : dropReuseToken scr n s = (0, ⟨s.heap.setRc scr (some 0), s.masks⟩) := by
    simp only [dropReuseToken, hr.ready.scr_ptr, hb, ne_eq, hn, not_false_eq_true, if_true,
      State.decrement, h1]
  have hplain := hr.ready.plainHeap_unique h1 dropped
  -- the cell is still there after the arm
  have hkept : scr ∈ (((s.heap.setRc scr (some 0)).retain isPtr
      (owned layout (s.body scr))).release isPtr (owned layout) dropped).live := by
    have hown : scr ∉ owned layout (s.body scr) :=
      (hr.ready.ownedExact.unreferenced hr.ready.scr_live h1).2 scr hr.ready.scr_live
    have hrc := (retain_rc_of_notMem isPtr hown).trans h1
    have hexact := hr.retain_exact.decrement hrc
    have hset := retain_setRc hr.ready.scr_ptr hr.ready.scr_live (k := 0)
      (owned layout (s.body scr))
    rw [List.count_eq_zero.mpr hown] at hset
    rw [hset]
    exact hexact.release_zero hr.ready.scr_live (update_self _ _ _)
  have hgone : scr ∉ (plainHeap layout s scr dropped).live := by
    rw [hplain]
    exact fun hm => Finset.notMem_erase _ _ (release_live_subset _ _ hm)
  unfold TokenCorrect
  rw [hr.ready.tokenArm_null hdrop rfl rfl, hr.ready.plainArm_eq]
  intro h
  rcases built with _ | ⟨tag, slots⟩
  · exact hgone (h.2.live ▸ hkept)
  · have hmem := Finset.mem_erase.mpr
      ⟨hr.ready.ne.symm, Finset.mem_insert_of_mem (b := a) hkept⟩
    have hlive := h.agrees.live
    change Finset.erase (insert a _) a = Finset.erase (insert a _) a at hlive
    rw [hlive] at hmem
    obtain ⟨hne, hin⟩ := Finset.mem_erase.mp hmem
    exact hgone ((Finset.mem_insert.mp hin).resolve_left hne)

theorem TokenReady.unique_iff (hr : TokenReady layout s scr a built own dropped rest) {t : ℕ}
    {old : List Word} (hb : s.body scr = .variant t old) (h1 : s.rc scr = some 1)
    (hn : old.length = n) :
    TokenCorrect layout s scr a n built dropped rest ↔
      ∀ tag slots, built = some (tag, slots) → slots.length = n →
        maskOf s.masks tag = layout tag := by
  have hplain := hr.ready.plainHeap_unique h1 dropped
  have hcorrect := hr.plain_correct
  have hfree : scr ∉ dropped := by
    intro hm
    obtain ⟨hroot, hkid⟩ := hr.ready.ownedExact.unreferenced hr.ready.scr_live h1
    rcases List.mem_append.mp (hr.shares.mem_iff.mp (List.mem_append_right _ hm)) with hm | hm
    · exact hkid scr hr.ready.scr_live hm
    · exact hroot (List.mem_append_left _ hm)
  unfold TokenCorrect
  rw [hr.ready.tokenArm_unique hb hn h1 hfree]
  rw [hplain] at hcorrect
  rcases built with _ | ⟨tag, slots⟩
  · exact ⟨fun _ _ _ he => by simp at he, fun _ => hcorrect⟩
  · by_cases hlen : slots.length = n
    · simp only [hlen, if_true]
      constructor
      · rintro h _ _ ⟨⟩ -
        exact h.read tag slots rfl
      · intro h
        have hZ := hr.retain_exact.release
        change Exact isPtr _ (plainHeap layout s scr dropped) _ at hZ
        rw [hr.ready.plainArm_eq, hplain]
        rw [hplain] at hZ
        refine rebuilt_put hZ ?_ ?_ ?_ hr.ready.scr_ptr ?_
        · exact hr.ready.wf.mono ((release_live_subset _ _).trans (Finset.erase_subset _ _))
            (release_body _ _)
        · rintro _ _ ⟨⟩
          exact h tag slots rfl hlen
        · exact fun hm => Finset.notMem_erase _ _ (release_live_subset _ _ hm)
        · exact fun hm =>
            hr.ready.free (Finset.mem_of_mem_erase (release_live_subset _ _ hm))
    · simp only [hlen, if_false]
      refine ⟨fun _ _ _ he hl => ?_, fun _ => hcorrect⟩
      cases he
      exact absurd hl hlen

theorem TokenReady.other_iff (hr : TokenReady layout s scr a built own dropped rest)
    (hb : ∀ tag slots, s.body scr ≠ .variant tag slots) :
    TokenCorrect layout s scr a n built dropped rest ↔ s.rc scr = none := by
  have hdrop : dropReuseToken scr n s = (0, s) := by
    unfold dropReuseToken
    split
    · split
      · rename_i hv
        exact absurd hv (hb _ _)
      · rfl
    · rfl
  constructor
  · intro h
    by_contra hk
    obtain ⟨k, hk⟩ := Option.ne_none_iff_exists'.mp hk
    have hp := hr.ready.scr_ptr
    have hlive : scr ∈ (s.heap.retain isPtr (owned layout (s.body scr))).live := hr.ready.scr_live
    have hrc := retain_rc hp hr.ready.scr_live hk (owned layout (s.body scr))
    have hcounted : ¬ (s.heap.retain isPtr (owned layout (s.body scr))).Uncounted isPtr scr :=
      not_or.mpr ⟨not_not.mpr ⟨hp, hlive⟩, by simp [hrc]⟩
    have hexact := hr.retain_exact.perm List.perm_middle.symm
    have hkept := hexact.counted_release List.mem_cons_self hcounted
    have hZ := hexact.release
    have hwf : Wf layout ⟨(s.heap.retain isPtr (owned layout (s.body scr))).release isPtr
        (owned layout) dropped, s.masks⟩ :=
      (hr.ready.wf.retain _).mono (release_live_subset _ _) (release_body _ _)
    unfold TokenCorrect at h
    rw [hr.ready.tokenArm_null hdrop rfl rfl] at h
    -- the reference of the arm to its scrutinee is still there
    rcases built with _ | ⟨tag, slots⟩
    · exact hkept ((hwf.counts_iff.mp h.1).uncounted_of_append (s := [scr]) hZ scr (by simp))
    · have hwf' := (hwf.register tag).put (d := a) (k := some 1) (b := .variant tag slots)
        (by rintro _ _ ⟨⟩; exact maskOf_register hwf tag)
      have hput := ((hZ.perm List.perm_middle.symm).put (hr.ready.retained_free _ _)
        hr.ready.ptr).perm
        (List.Perm.swap scr a rest)
      have hu := (hwf'.counts_iff.mp h.exact).uncounted_of_append (s := [scr]) hput scr (by simp)
      exact hkept ((uncounted_put hr.ready.ne.symm).mp hu)
  · intro hk
    have hdec : s.decrement scr = s := by
      simp only [State.decrement, hk]
    refine hr.decremented (by simp [hk]) ?_
    rw [hdrop, hdec]

theorem TokenReady.correct_iff (hr : TokenReady layout s scr a built own dropped rest) :
    TokenCorrect layout s scr a n built dropped rest ↔ TokenFits layout s scr n built := by
  rcases hb : s.body scr with _ | _ | ⟨t, old⟩ | _ <;> simp only [TokenFits, hb]
  case variant =>
    constructor
    · intro h h1
      have hn : old.length = n := not_not.mp fun hn => hr.mismatch hb h1 hn h
      exact ⟨hn, (hr.unique_iff hb h1 hn).mp h⟩
    · intro h
      by_cases h1 : s.rc scr = some 1
      · exact (hr.unique_iff hb h1 (h h1).1).mpr (h h1).2
      · exact hr.shared hb h1
  all_goals exact hr.other_iff fun _ _ he => by simp [hb] at he

end Token

end Arm

end Donor

/-- Tag 5 has a pointer and an integer. -/
def sampleLayout (tag : ℕ) : ℕ := if tag = 5 then 4 else 0

/-- The scrutinee at 2, which holds `b`, and a cell at 4 with two references. -/
def sample (b : Body) : State where
  heap := ⟨{2, 4}, fun a => if a = 2 then some 1 else some 2,
    fun a => if a = 2 then b else .other []⟩
  masks tag := if tag = 5 then some 4 else none

theorem sample_ready {b : Body} {roots : List Word}
    (hb : ∀ tag slots, b = .variant tag slots → tag = 5)
    (h4 : (owned sampleLayout b).count 4 + roots.count 4 = 2)
    (hk : ∀ w ∈ owned sampleLayout b ++ roots, isPtr w = true → w = 4) :
    Ready sampleLayout (sample b) 2 6 roots := by
  have hwf : Wf sampleLayout (sample b) := by
    refine ⟨fun tag m hm => ?_, fun a ha tag slots hv => ?_⟩
    · simp only [sample] at hm
      split at hm
      · rename_i h5
        rw [sampleLayout, if_pos h5]
        exact (Option.some.inj hm).symm
      · simp at hm
    · simp only [sample, State.body] at hv
      split at hv
      · rw [hb tag slots hv]
        rfl
      · simp at hv
  have hlive : ∀ w ∈ owned sampleLayout b ++ roots, isPtr w = true →
      w ∈ ({2, 4} : Finset Word) := fun w hw hp => by simp [hk w hw hp]
  have htwo : 2 ∉ owned sampleLayout b ++ roots := fun hm =>
    absurd (hk 2 hm (by decide)) (by decide)
  rw [List.mem_append, not_or] at htwo
  have hrefs : ∀ x, (sample b).heap.refs (owned sampleLayout) x =
      (owned sampleLayout b).count x := by
    intro x
    simp [Heap.refs, sample, owned, kids]
  refine ⟨hwf, hwf.counts_iff.mpr ⟨fun x hx k hk => ?_, fun x hx w hw hp => ?_,
    fun w hw hp => ?_, fun x hx => ?_⟩, by simp [sample], by simp [sample], by decide⟩
  · rw [hrefs]
    simp only [sample, Finset.mem_insert, Finset.mem_singleton] at hx hk
    rcases hx with rfl | rfl
    · rw [List.count_cons_self, List.count_eq_zero.mpr htwo.1, List.count_eq_zero.mpr htwo.2]
      simpa using hk.symm
    · rw [List.count_cons_of_ne (by decide), h4]
      simpa using hk.symm
  · simp only [sample, Finset.mem_insert, Finset.mem_singleton] at hx hw ⊢
    rcases hx with rfl | rfl
    · simpa using hlive w (List.mem_append_left _ (by simpa using hw)) hp
    · simp [owned, kids] at hw
  · rcases List.mem_cons.mp hw with rfl | hw
    · simp [sample]
    · exact hlive w (List.mem_append_right _ hw) hp
  · simp only [sample, Finset.mem_insert, Finset.mem_singleton] at hx
    rcases hx with rfl | rfl <;> decide

theorem sample_not_correct {b : Body} {c : Rebuild} (hshape : c.Reuses sampleLayout (sample b) 2)
    {rest : List Word} (hr : Ready sampleLayout (sample b) 2 6 (owned sampleLayout c.body ++ rest))
    (hno : ¬ c.Fits sampleLayout (sample b) 2) :
    ¬ c.Correct sampleLayout (sample b) 2 6 rest :=
  fun h => hno ((c.correct_iff hr).mp h hshape)

/-- A record of 65 fields whose last is a counted cell. -/
def wide : List Word := List.replicate 64 0 ++ [4]

theorem sample_counted (b : Body) : (sample b).Counted 4 := by
  simp [State.Counted, Heap.Uncounted, sample, isPtr, isValue]

theorem sample_checkUnique (b : Body) : (sample b).checkUnique 2 = true := by
  simp [State.checkUnique, State.rc, sample, isPtr, isValue]

theorem wide_getD : wide.getD 64 0 = 4 := by decide

theorem wide_mem {w : Word} (hw : w ∈ wide) (hp : isPtr w = true) : w = 4 := by
  simp only [wide, List.mem_append, List.mem_replicate, List.mem_singleton] at hw
  rcases hw with ⟨-, rfl⟩ | rfl
  · exact absurd hp (by decide)
  · rfl

/-- The helpers that reuse their donor, and the arms that take a token, leave the counts exact
and the heap as without reuse, when and only when the words fit. -/
theorem reuse_exact_iff (layout : ℕ → ℕ) (s : State) (scr a : Word) (rest : List Word) :
    (∀ c : Rebuild, Ready layout s scr a (owned layout c.body ++ rest) →
      (c.Correct layout s scr a rest ↔ (c.Reuses layout s scr → c.Fits layout s scr))) ∧
    ∀ n built own dropped, TokenReady layout s scr a built own dropped rest →
      (TokenCorrect layout s scr a n built dropped rest ↔ TokenFits layout s scr n built) :=
  ⟨fun c hr => c.correct_iff hr, fun _ _ _ _ hr => hr.correct_iff⟩

/-- A wide record whose last field is kept is not rebuilt exactly, nor is a cons whose head is
kept, and a variant with an unboxed slot has its payload released. -/
theorem not_reuse_exact :
    (Ready sampleLayout (sample (.record 0 [] wide)) 2 6
        (owned sampleLayout (Rebuild.record [] wide 0).body ++ []) ∧
      ¬ (Rebuild.record [] wide 0).Correct sampleLayout (sample (.record 0 [] wide)) 2 6 []) ∧
    (Ready sampleLayout (sample (.cons 4 0)) 2 6
        (owned sampleLayout (Rebuild.cons 4 0).body ++ []) ∧
      ¬ (Rebuild.cons 4 0).Correct sampleLayout (sample (.cons 4 0)) 2 6 []) ∧
    (Ready sampleLayout (sample (.variant 5 [0, 8])) 2 6
        (owned sampleLayout (Rebuild.variant 5 [0, 10]).body ++ [4, 4]) ∧
      ¬ (Rebuild.variant 5 [0, 10]).Correct sampleLayout (sample (.variant 5 [0, 8])) 2 6
        [4, 4]) := by
  have hwide : Ready sampleLayout (sample (.record 0 [] wide)) 2 6
      (owned sampleLayout (Rebuild.record [] wide 0).body ++ []) := by
    refine sample_ready (by rintro _ _ ⟨⟩) (by decide) fun w hw hp => ?_
    simp only [List.append_nil, List.mem_append] at hw
    exact hw.elim (wide_mem · hp) (wide_mem · hp)
  have hcons : Ready sampleLayout (sample (.cons 4 0)) 2 6
      (owned sampleLayout (Rebuild.cons 4 0).body ++ []) :=
    sample_ready (by rintro _ _ ⟨⟩) (by decide) (by decide)
  have hvariant : Ready sampleLayout (sample (.variant 5 [0, 8])) 2 6
      (owned sampleLayout (Rebuild.variant 5 [0, 10]).body ++ [4, 4]) :=
    sample_ready (by rintro _ _ ⟨⟩; rfl) (by decide) (by decide)
  have hreuses : (Rebuild.variant 5 [0, 10]).Reuses sampleLayout
      (sample (.variant 5 [0, 8])) 2 := ⟨sample_checkUnique _, rfl, rfl⟩
  refine ⟨⟨hwide, sample_not_correct ⟨sample_checkUnique _, rfl⟩ hwide fun h => ?_⟩,
    ⟨hcons, sample_not_correct ⟨sample_checkUnique _, trivial⟩ hcons fun h => ?_⟩,
    ⟨hvariant, sample_not_correct hreuses hvariant fun h => ?_⟩⟩
  · -- field 64 has no bit in the word of the kept fields
    have hcount := sample_counted (.record 0 [] wide)
    rw [← wide_getD] at hcount
    exact absurd (h 64 (by decide) rfl hcount).1 (by decide)
  · exact h.1 rfl (sample_counted _)
  · -- the kind of slot 1 is bit 2 of the mask, and the helper reads bit 1
    have hslot := h.2 1 (by decide)
    rw [if_neg (by decide)] at hslot
    exact absurd hslot (by decide)

theorem reuse_exact_iff_sample :
    (Rebuild.variantReuseAt 5 [0, 8]).Correct sampleLayout (sample (.variant 5 [4, 8])) 2 6 [4] ∧
      TokenCorrect sampleLayout (sample (.variant 5 [4, 8])) 2 6 2 (some (5, [4, 10])) [] [4] := by
  have hready : Ready sampleLayout (sample (.variant 5 [4, 8])) 2 6 [0, 4] :=
    sample_ready (by rintro _ _ ⟨⟩; rfl) (by decide) (by decide)
  have htoken : TokenReady sampleLayout (sample (.variant 5 [4, 8])) 2 6 (some (5, [4, 10])) []
      [] [4] :=
    ⟨sample_ready (by rintro _ _ ⟨⟩; rfl) (by decide) (by decide), by decide⟩
  obtain ⟨hrebuild, harm⟩ := reuse_exact_iff sampleLayout (sample (.variant 5 [4, 8])) 2 6 [4]
  refine ⟨(hrebuild (.variantReuseAt 5 [0, 8]) hready).mpr fun _ => ?_,
    (harm 2 _ _ _ htoken).mpr fun _ => ?_⟩
  · intro i hi hslot _
    obtain rfl | rfl : i = 0 ∨ i = 1 := by simp at hi; omega
    · decide
    · exact absurd hslot (by decide)
  · refine ⟨rfl, ?_⟩
    rintro _ _ ⟨⟩ -
    rfl

end Kaikai.Reuse
