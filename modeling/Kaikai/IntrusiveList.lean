import Mathlib.Data.List.Nodup

namespace Kaikai.Intrusive

open Function

structure Links (κ ι : Type) where
  head : κ → Option ι
  next : ι → Option ι

/-- The word a walk follows: the head of a list, or the link of a node. -/
inductive Link (κ ι : Type) where
  | head (k : κ)
  | next (x : ι)

variable {κ ι α : Type}

/-- From `h` the links pass through the nodes of `l`, in order, and end there. -/
def Chain (next : ι → Option ι) : Option ι → List ι → Prop
  | h, [] => h = none
  | h, x :: l => h = some x ∧ Chain next (next x) l

theorem Chain.congr {next next' : ι → Option ι} {h : Option ι} {l : List ι}
    (hc : Chain next h l) (hn : ∀ x ∈ l, next' x = next x) : Chain next' h l := by
  induction l generalizing h with
  | nil => exact hc
  | cons x l ih =>
      refine ⟨hc.1, ?_⟩
      rw [hn x List.mem_cons_self]
      exact ih hc.2 fun y hy => hn y (List.mem_cons_of_mem _ hy)

theorem Chain.unique {next : ι → Option ι} {h : Option ι} {l l' : List ι}
    (hc : Chain next h l) (hc' : Chain next h l') : l = l' := by
  induction l generalizing h l' with
  | nil =>
      cases l' with
      | nil => rfl
      | cons y l' => exact absurd (hc.symm.trans hc'.1) (by simp)
  | cons x l ih =>
      cases l' with
      | nil => exact absurd (hc'.symm.trans hc.1) (by simp)
      | cons y l' =>
          obtain rfl : x = y := Option.some.inj (hc.1.symm.trans hc'.1)
          rw [ih hc.2 hc'.2]

theorem takeWhile_congr {p q : ι → Bool} {l : List ι} (h : ∀ x ∈ l, p x = q x) :
    l.takeWhile p = l.takeWhile q := by
  induction l with
  | nil => rfl
  | cons x l ih =>
      rw [List.takeWhile_cons, List.takeWhile_cons, h x List.mem_cons_self,
        ih fun y hy => h y (List.mem_cons_of_mem _ hy)]

theorem dropWhile_congr {p q : ι → Bool} {l : List ι} (h : ∀ x ∈ l, p x = q x) :
    l.dropWhile p = l.dropWhile q := by
  induction l with
  | nil => rfl
  | cons x l ih =>
      rw [List.dropWhile_cons, List.dropWhile_cons, h x List.mem_cons_self,
        ih fun y hy => h y (List.mem_cons_of_mem _ hy)]

namespace Links

def load (L : Links κ ι) : Link κ ι → Option ι
  | .head k => L.head k
  | .next x => L.next x

/-- The walk from `w` over `l` left `l'`: it touched the word `w` and the links of `l` only, and
the nodes it took out point nowhere. -/
structure Rewrites (L L' : Links κ ι) (w : Link κ ι) (l l' : List ι) : Prop where
  chain : Chain L'.next (L'.load w) l'
  head : ∀ k, w ≠ .head k → L'.head k = L.head k
  next : ∀ x, x ∉ l → w ≠ .next x → L'.next x = L.next x
  gone : ∀ x ∈ l, x ∉ l' → L'.next x = none

/-- The word the walk starts from is not a link of the nodes it visits. -/
def Before (w : Link κ ι) (l : List ι) : Prop :=
  ∀ x ∈ l, w ≠ .next x

theorem Rewrites.refl {L : Links κ ι} {w : Link κ ι} {l : List ι}
    (hc : Chain L.next (L.load w) l) : Rewrites L L w l l :=
  ⟨hc, fun _ _ => rfl, fun _ _ _ => rfl, fun _ hx hx' => absurd hx hx'⟩

theorem Rewrites.keep {L L' : Links κ ι} {w : Link κ ι} {x : ι} {l l' : List ι}
    (hw : Before w (x :: l)) (hl : L.load w = some x)
    (hr : Rewrites L L' (.next x) l l') : Rewrites L L' w (x :: l) (x :: l') := by
  have hload : L'.load w = L.load w := by
    cases w with
    | head k => exact hr.head k (by simp)
    | next y =>
        have hyx : y ≠ x := fun h => hw x List.mem_cons_self (by rw [h])
        have hyl : y ∉ l := fun h => hw y (List.mem_cons_of_mem _ h) rfl
        exact hr.next y hyl (by simpa using Ne.symm hyx)
  refine ⟨⟨hload.trans hl, hr.chain⟩, fun k _ => hr.head k (by simp), ?_, ?_⟩
  · intro y hy _
    obtain ⟨hyx, hyl⟩ := not_or.mp (mt List.mem_cons.mpr hy)
    exact hr.next y hyl (by simpa using Ne.symm hyx)
  · intro y hy hy'
    obtain ⟨hyx, hyl'⟩ := not_or.mp (mt List.mem_cons.mpr hy')
    exact hr.gone y ((List.mem_cons.mp hy).resolve_left hyx) hyl'

theorem Rewrites.trans {L M L' : Links κ ι} {w : Link κ ι} {l m l' : List ι}
    (hlm : Rewrites L M w l m) (hml : Rewrites M L' w m l') (hsub : ∀ x ∈ m, x ∈ l)
    (hw : Before w l) : Rewrites L L' w l l' := by
  refine ⟨hml.chain, fun k hk => (hml.head k hk).trans (hlm.head k hk), ?_, ?_⟩
  · intro x hx hwx
    exact (hml.next x (fun h => hx (hsub x h)) hwx).trans (hlm.next x hx hwx)
  · intro x hx hx'
    by_cases hm : x ∈ m
    · exact hml.gone x hm hx'
    · exact (hml.next x hm (hw x hx)).trans (hlm.gone x hx hm)

theorem Before.tail {w : Link κ ι} {x : ι} {l : List ι} (h : Before w (x :: l)) : Before w l :=
  fun y hy => h y (List.mem_cons_of_mem _ hy)

theorem before_next {x : ι} {l : List ι} (h : x ∉ l) : Before (Link.next x : Link κ ι) l :=
  fun _ hy he => h (Link.next.inj he ▸ hy)

theorem before_head (k : κ) (l : List ι) : Before (Link.head k : Link κ ι) l :=
  fun _ _ => by simp

/-- Acting on one node does not change the test of another. -/
def Stable (p : α → ι → Bool) (act : ι → α → α) : Prop :=
  ∀ a x y, y ≠ x → p (act x a) y = p a y

theorem Stable.filter {p : α → ι → Bool} {act : ι → α → α} (hs : Stable p act) {x : ι}
    {l : List ι} (hx : x ∉ l) (a : α) : l.filter (p (act x a)) = l.filter (p a) :=
  List.filter_congr fun y hy => by rw [hs a x y fun h => hx (h ▸ hy)]

theorem Stable.filter_not {p : α → ι → Bool} {act : ι → α → α} (hs : Stable p act) {x : ι}
    {l : List ι} (hx : x ∉ l) (a : α) :
    l.filter (fun y => !p (act x a) y) = l.filter (fun y => !p a y) :=
  List.filter_congr fun y hy => by rw [hs a x y fun h => hx (h ▸ hy)]

variable [DecidableEq κ] [DecidableEq ι]

def store (L : Links κ ι) : Link κ ι → Option ι → Links κ ι
  | .head k, v => { L with head := update L.head k v }
  | .next x, v => { L with next := update L.next x v }

/-- `*w = x->next; x->next = NULL`. -/
def splice (L : Links κ ι) (w : Link κ ι) (x : ι) : Links κ ι :=
  (L.store w (L.next x)).store (.next x) none

/-- `x->next = head; head = x`. -/
def push (L : Links κ ι) (k : κ) (x : ι) : Links κ ι :=
  (L.store (.next x) (L.head k)).store (.head k) (some x)

/-- Every node of which `p` holds is spliced out and acted on. -/
def drain (p : α → ι → Bool) (act : ι → α → α) :
    ℕ → Link κ ι → Links κ ι → α → Links κ ι × α
  | 0, _, L, a => (L, a)
  | n + 1, w, L, a =>
    match L.load w with
    | none => (L, a)
    | some x =>
      if p a x then drain p act n w (L.splice w x) (act x a)
      else drain p act n (.next x) L a

/-- The first node of which `p` holds is spliced out. -/
def cut (p : ι → Bool) : ℕ → Link κ ι → Links κ ι → Option ι × Links κ ι
  | 0, _, L => (none, L)
  | n + 1, w, L =>
    match L.load w with
    | none => (none, L)
    | some x => if p x then (some x, L.splice w x) else cut p n (.next x) L

/-- The first node is taken off and acted on for as long as `p` holds of it. -/
def popWhile (p : α → ι → Bool) (act : ι → α → α) (k : κ) :
    ℕ → Links κ ι → α → Links κ ι × α
  | 0, L, a => (L, a)
  | n + 1, L, a =>
    match L.head k with
    | none => (L, a)
    | some x =>
      if p a x then popWhile p act k n (L.splice (.head k) x) (act x a) else (L, a)

/-- `x->next = c->next; c->next = x`. -/
def linkAfter (L : Links κ ι) (x c : ι) : Links κ ι :=
  (L.store (.next x) (L.next c)).store (.next c) (some x)

/-- From `c`, `x` is linked past the nodes of which `p` holds. -/
def linkPast (p : ι → Bool) (x : ι) : ℕ → ι → Links κ ι → Links κ ι
  | 0, c, L => L.linkAfter x c
  | n + 1, c, L =>
    match L.next c with
    | none => L.linkAfter x c
    | some d => if p d then linkPast p x n d L else L.linkAfter x c

theorem Rewrites.splice {L : Links κ ι} {w : Link κ ι} {x : ι} {l : List ι}
    (hw : Before w (x :: l)) (hd : (x :: l).Nodup)
    (hc : Chain L.next (L.load w) (x :: l)) : Rewrites L (L.splice w x) w (x :: l) l := by
  have hx : x ∉ l := (List.nodup_cons.mp hd).1
  have hwx : w ≠ .next x := hw x List.mem_cons_self
  have hnext : ∀ y, y ≠ x → w ≠ .next y → (L.splice w x).next y = L.next y := by
    intro y hy hwy
    cases w with
    | head k => exact update_of_ne hy _ _
    | next z =>
        have hzy : y ≠ z := fun h => hwy (by rw [h])
        exact (update_of_ne hy _ _).trans (update_of_ne hzy _ _)
  have hload : (L.splice w x).load w = L.next x := by
    cases w with
    | head k => exact update_self k _ _
    | next z =>
        have hzx : z ≠ x := fun h => hwx (by rw [h])
        exact (update_of_ne hzx _ _).trans (update_self z _ _)
  refine ⟨?_, ?_, ?_, ?_⟩
  · rw [hload]
    refine hc.2.congr fun y hy => hnext y ?_ (hw y (List.mem_cons_of_mem _ hy))
    exact fun h => hx (h ▸ hy)
  · intro k hk
    cases w with
    | head j => exact update_of_ne (fun h => hk (by rw [h])) _ _
    | next z => rfl
  · intro y hy hwy
    exact hnext y (fun h => hy (h ▸ List.mem_cons_self)) hwy
  · intro y hy hy'
    obtain rfl := (List.mem_cons.mp hy).resolve_right hy'
    exact update_self y _ _

theorem drain_spec {p : α → ι → Bool} {act : ι → α → α} (hs : Stable p act) {n : ℕ}
    {w : Link κ ι} {L : Links κ ι} {a : α} {l : List ι} (hn : l.length ≤ n)
    (hw : Before w l) (hd : l.Nodup) (hc : Chain L.next (L.load w) l) :
    Rewrites L (drain p act n w L a).1 w l (l.filter fun x => !p a x) ∧
      (drain p act n w L a).2 = (l.filter (p a)).foldl (fun a x => act x a) a := by
  induction l generalizing n w L a with
  | nil =>
      have hload : L.load w = none := hc
      cases n with
      | zero => exact ⟨Rewrites.refl hc, rfl⟩
      | succ n => simpa only [drain, hload] using ⟨Rewrites.refl hc, rfl⟩
  | cons x l ih =>
      obtain ⟨hx, hd'⟩ := List.nodup_cons.mp hd
      obtain _ | n := n
      · simp at hn
      have hn' : l.length ≤ n := by simpa using hn
      have hload : L.load w = some x := hc.1
      by_cases hp : p a x
      · have hcut := Rewrites.splice hw hd hc
        obtain ⟨hr, hb⟩ := ih (a := act x a) hn' hw.tail hd' hcut.chain
        rw [hs.filter_not hx] at hr
        rw [hs.filter hx] at hb
        simp only [drain, hload, hp, if_true, List.filter_cons, Bool.not_true,
          Bool.false_eq_true, if_false, List.foldl_cons]
        exact ⟨hcut.trans hr (fun y hy => List.mem_cons_of_mem _ hy) hw, hb⟩
      · obtain ⟨hr, hb⟩ := ih (w := .next x) (a := a) hn' (before_next hx) hd' hc.2
        simp only [drain, hload, hp, List.filter_cons, Bool.not_false, if_true,
          Bool.false_eq_true, if_false]
        exact ⟨hr.keep hw hload, hb⟩

theorem cut_spec {p : ι → Bool} {n : ℕ} {w : Link κ ι} {L : Links κ ι} {l : List ι}
    (hn : l.length ≤ n) (hw : Before w l) (hd : l.Nodup) (hc : Chain L.next (L.load w) l) :
    Rewrites L (cut p n w L).2 w l (l.eraseP p) ∧ (cut p n w L).1 = l.find? p := by
  induction l generalizing n w L with
  | nil =>
      have hload : L.load w = none := hc
      cases n with
      | zero => exact ⟨Rewrites.refl hc, rfl⟩
      | succ n => simpa only [cut, hload] using ⟨Rewrites.refl hc, rfl⟩
  | cons x l ih =>
      obtain ⟨hx, hd'⟩ := List.nodup_cons.mp hd
      obtain _ | n := n
      · simp at hn
      have hn' : l.length ≤ n := by simpa using hn
      have hload : L.load w = some x := hc.1
      by_cases hp : p x
      · simp only [cut, hload, hp, if_true, List.eraseP_cons_of_pos, List.find?_cons_of_pos]
        exact ⟨Rewrites.splice hw hd hc, trivial⟩
      · obtain ⟨hr, hb⟩ := ih (w := .next x) hn' (before_next hx) hd' hc.2
        simp only [cut, hload, hp, List.eraseP_cons_of_neg, List.find?_cons_of_neg,
          Bool.false_eq_true, if_false, not_false_eq_true]
        exact ⟨hr.keep hw hload, hb⟩

theorem popWhile_spec {p : α → ι → Bool} {act : ι → α → α} (hs : Stable p act) {k : κ} {n : ℕ}
    {L : Links κ ι} {a : α} {l : List ι} (hn : l.length ≤ n) (hd : l.Nodup)
    (hc : Chain L.next (L.head k) l) :
    Rewrites L (popWhile p act k n L a).1 (.head k) l (l.dropWhile (p a)) ∧
      (popWhile p act k n L a).2 = (l.takeWhile (p a)).foldl (fun a x => act x a) a := by
  induction l generalizing n L a with
  | nil =>
      have hload : L.head k = none := hc
      cases n with
      | zero => exact ⟨Rewrites.refl hc, rfl⟩
      | succ n => simpa only [popWhile, hload] using ⟨Rewrites.refl hc, rfl⟩
  | cons x l ih =>
      obtain ⟨hx, hd'⟩ := List.nodup_cons.mp hd
      obtain _ | n := n
      · simp at hn
      have hn' : l.length ≤ n := by simpa using hn
      have hload : L.head k = some x := hc.1
      by_cases hp : p a x
      · have hcut := Rewrites.splice (before_head k _) hd hc
        obtain ⟨hr, hb⟩ := ih (a := act x a) hn' hd' hcut.chain
        have hdrop : l.dropWhile (p (act x a)) = l.dropWhile (p a) :=
          dropWhile_congr fun y hy => hs a x y fun h => hx (h ▸ hy)
        have htake : l.takeWhile (p (act x a)) = l.takeWhile (p a) :=
          takeWhile_congr fun y hy => hs a x y fun h => hx (h ▸ hy)
        rw [hdrop] at hr
        rw [htake] at hb
        simp only [popWhile, hload, hp, if_true, List.dropWhile_cons, List.takeWhile_cons,
          List.foldl_cons]
        exact ⟨hcut.trans hr (fun y hy => List.mem_cons_of_mem _ hy) (before_head k _), hb⟩
      · simp only [popWhile, hload, hp, Bool.false_eq_true, if_false, List.dropWhile_cons,
          List.takeWhile_cons, List.foldl_nil]
        exact ⟨Rewrites.refl hc, trivial⟩

/-- What linking `x` in after `c` does: `l` follows `c` before, and `l'` afterwards. -/
structure Inserts (L L' : Links κ ι) (c x : ι) (l l' : List ι) : Prop where
  chain : Chain L'.next (L'.next c) l'
  head : L'.head = L.head
  next : ∀ y ∉ l, y ≠ c → y ≠ x → L'.next y = L.next y

theorem linkAfter_spec {x c : ι} {L : Links κ ι} {l : List ι} (hxc : x ≠ c) (hc : c ∉ l)
    (hx : x ∉ l) (hl : Chain L.next (L.next c) l) : Inserts L (L.linkAfter x c) c x l (x :: l) := by
  have hother : ∀ y, y ≠ c → y ≠ x → (L.linkAfter x c).next y = L.next y :=
    fun y hyc hyx => (update_of_ne hyc _ _).trans (update_of_ne hyx _ _)
  have hnx : (L.linkAfter x c).next x = L.next c :=
    (update_of_ne hxc _ _).trans (update_self x _ _)
  refine ⟨⟨update_self c _ _, ?_⟩, rfl, fun y _ => hother y⟩
  rw [hnx]
  exact hl.congr fun y hy => hother y (fun h => hc (h ▸ hy)) fun h => hx (h ▸ hy)

theorem linkPast_spec {p : ι → Bool} {x c : ι} {n : ℕ} {L : Links κ ι} {l : List ι}
    (hn : l.length ≤ n) (hd : (c :: l).Nodup) (hx : x ∉ c :: l)
    (hl : Chain L.next (L.next c) l) :
    Inserts L (linkPast p x n c L) c x l (l.takeWhile p ++ x :: l.dropWhile p) := by
  induction l generalizing n c with
  | nil =>
      have hload : L.next c = none := hl
      have hxc : x ≠ c := fun h => hx (h ▸ List.mem_cons_self)
      have hafter := linkAfter_spec hxc List.not_mem_nil List.not_mem_nil hl
      cases n with
      | zero => exact hafter
      | succ n => simpa only [linkPast, hload, List.takeWhile_nil, List.dropWhile_nil,
          List.nil_append] using hafter
  | cons d l ih =>
      obtain ⟨hcd, hd'⟩ := List.nodup_cons.mp hd
      obtain ⟨hxc, hxd⟩ := not_or.mp (mt List.mem_cons.mpr hx)
      obtain _ | n := n
      · simp at hn
      have hload : L.next c = some d := hl.1
      by_cases hp : p d
      · have hr := ih (n := n) (by simpa using hn) hd' hxd hl.2
        simp only [linkPast, hload, hp, if_true, List.takeWhile_cons, List.dropWhile_cons]
        refine ⟨⟨?_, hr.chain⟩, hr.head, ?_⟩
        · have hcl := not_or.mp (mt List.mem_cons.mpr hcd)
          exact (hr.next c hcl.2 hcl.1 fun h => hxc h.symm).trans hload
        · intro y hy _ hyx
          obtain ⟨hyd, hyl⟩ := not_or.mp (mt List.mem_cons.mpr hy)
          exact hr.next y hyl hyd hyx
      · simp only [linkPast, hload, hp, List.takeWhile_cons, List.dropWhile_cons,
          Bool.false_eq_true, if_false, List.nil_append]
        exact linkAfter_spec hxc hcd hxd hl

/-- Each head starts the list `l` gives it, no node is on two lists or twice on one, and a node
on no list points nowhere. -/
structure Holds (L : Links κ ι) (l : κ → List ι) : Prop where
  chain : ∀ k, Chain L.next (L.head k) (l k)
  nodup : ∀ k, (l k).Nodup
  disjoint : ∀ j k x, x ∈ l j → x ∈ l k → j = k
  off : ∀ x, (∀ k, x ∉ l k) → L.next x = none

section Holds

variable {L L' : Links κ ι} {l : κ → List ι} {k : κ} {x : ι}

omit [DecidableEq κ] [DecidableEq ι] in
theorem Holds.empty : Holds (⟨fun _ => none, fun _ => none⟩ : Links κ ι) fun _ => [] :=
  ⟨fun _ => rfl, fun _ => List.nodup_nil, fun _ _ _ h => by simp at h, fun _ _ => rfl⟩

theorem Holds.rewrite {l' : List ι} (h : Holds L l) (hr : Rewrites L L' (.head k) (l k) l')
    (hsub : l'.Sublist (l k)) : Holds L' (update l k l') := by
  have hmem : ∀ j y, y ∈ update l k l' j → y ∈ l j := by
    intro j y hy
    by_cases hj : j = k
    · subst hj
      rw [update_self] at hy
      exact hsub.subset hy
    · rwa [update_of_ne hj] at hy
  refine ⟨?_, ?_, ?_, ?_⟩
  · intro j
    by_cases hj : j = k
    · subst hj
      rw [update_self]
      exact hr.chain
    · rw [update_of_ne hj, hr.head j fun he => hj (Link.head.inj he).symm]
      refine (h.chain j).congr fun y hy => hr.next y (fun hyk => hj ?_) (by simp)
      exact h.disjoint j k y hy hyk
  · intro j
    by_cases hj : j = k
    · subst hj
      rw [update_self]
      exact (h.nodup j).sublist hsub
    · rw [update_of_ne hj]
      exact h.nodup j
  · exact fun i j y hi hj => h.disjoint i j y (hmem i y hi) (hmem j y hj)
  · intro y hy
    by_cases hyk : y ∈ l k
    · refine hr.gone y hyk fun hy' => hy k ?_
      rwa [update_self]
    · rw [hr.next y hyk (by simp)]
      refine h.off y fun j hyj => ?_
      have hj : j ≠ k := fun he => hyk (he ▸ hyj)
      exact hy j (by rwa [update_of_ne hj])

omit [DecidableEq ι] in
theorem Holds.insert {u v : List ι} (h : Holds L l) (hx : ∀ j, x ∉ l j)
    (hk : l k = u ++ v) (hchain : Chain L'.next (L'.head k) (u ++ x :: v))
    (hhead : ∀ j, j ≠ k → L'.head j = L.head j)
    (hnext : ∀ y ∉ l k, y ≠ x → L'.next y = L.next y) :
    Holds L' (update l k (u ++ x :: v)) := by
  have hperm : (u ++ x :: v).Perm (x :: l k) := hk ▸ List.perm_middle
  have hmem : ∀ j y, y ∈ update l k (u ++ x :: v) j ↔ y ∈ l j ∨ (j = k ∧ y = x) := by
    intro j y
    by_cases hj : j = k
    · subst hj
      rw [update_self, hperm.mem_iff, List.mem_cons, or_comm]
      simp only [true_and]
    · simp [hj]
  refine ⟨?_, ?_, ?_, ?_⟩
  · intro j
    by_cases hj : j = k
    · subst hj
      rwa [update_self]
    · rw [update_of_ne hj, hhead j hj]
      refine (h.chain j).congr fun y hy => hnext y (fun hyk => hj ?_) fun he => hx j (he ▸ hy)
      exact h.disjoint j k y hy hyk
  · intro j
    by_cases hj : j = k
    · subst hj
      rw [update_self]
      exact hperm.nodup_iff.mpr (List.nodup_cons.mpr ⟨hx j, h.nodup j⟩)
    · rw [update_of_ne hj]
      exact h.nodup j
  · intro i j y hi hj
    rcases (hmem i y).mp hi with hyi | ⟨hi, hyx⟩
    · rcases (hmem j y).mp hj with hyj | ⟨-, hyx⟩
      · exact h.disjoint i j y hyi hyj
      · exact absurd (hyx ▸ hyi) (hx i)
    · rcases (hmem j y).mp hj with hyj | ⟨hj, -⟩
      · exact absurd (hyx ▸ hyj) (hx j)
      · rw [hi, hj]
  · intro y hy
    have hyx : y ≠ x := fun he => hy k ((hmem k y).mpr (.inr ⟨rfl, he⟩))
    have hyl : ∀ j, y ∉ l j := fun j hj => hy j ((hmem j y).mpr (.inl hj))
    rw [hnext y (hyl k) hyx]
    exact h.off y hyl

theorem Holds.push (h : Holds L l) (hx : ∀ j, x ∉ l j) :
    Holds (L.push k x) (update l k (x :: l k)) := by
  have hother : ∀ y, y ≠ x → (L.push k x).next y = L.next y := fun y hy => update_of_ne hy _ _
  refine h.insert (u := []) hx rfl ⟨update_self k _ _, ?_⟩
    (fun j hj => update_of_ne hj _ _) fun y _ => hother y
  have hnx : (L.push k x).next x = L.head k := update_self x _ _
  rw [hnx]
  exact (h.chain k).congr fun y hy => hother y fun he => hx k (he ▸ hy)

end Holds

end Links

end Kaikai.Intrusive
