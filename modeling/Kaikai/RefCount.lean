import Mathlib.Algebra.Order.BigOperators.Group.Finset

namespace Kaikai.RefCount

open Function

/-- `rc` is `none` where the count of a cell is never touched. The words of cells that are not
`live` mean nothing. -/
structure Heap (W β : Type) where
  live : Finset W
  rc : W → Option ℕ
  body : W → β

variable {W β : Type} [DecidableEq W] (isPtr : W → Bool) (kids : β → List W)

namespace Heap

def erase (h : Heap W β) (a : W) : Heap W β := { h with live := h.live.erase a }

def setRc (h : Heap W β) (a : W) (k : Option ℕ) : Heap W β :=
  { h with rc := update h.rc a k }

/-- The cell at `a`, written anew. -/
def put (h : Heap W β) (a : W) (k : Option ℕ) (b : β) : Heap W β where
  live := insert a h.live
  rc := update h.rc a k
  body := update h.body a b

/-- The references to `a` that cells hold. -/
def refs (h : Heap W β) (a : W) : ℕ := ∑ b ∈ h.live, (kids (h.body b)).count a

/-- The references that cells hold. -/
def weight (h : Heap W β) : ℕ := ∑ b ∈ h.live, (kids (h.body b)).length

/-- One reference for each word of the list is released; a cell whose last reference goes
releases its own. -/
def releaseWith : ℕ → Heap W β → List W → Heap W β
  | 0, h, _ => h
  | _ + 1, h, [] => h
  | n + 1, h, w :: ws =>
    if isPtr w ∧ w ∈ h.live then
      match h.rc w with
      | none => releaseWith n h ws
      | some k =>
        if k = 1 then releaseWith n (h.erase w) (kids (h.body w) ++ ws)
        else releaseWith n (h.setRc w (some (k - 1))) ws
    else releaseWith n h ws

def release (h : Heap W β) (ws : List W) : Heap W β :=
  releaseWith isPtr kids (ws.length + h.weight kids) h ws

/-- One more reference to each word of the list. -/
def retain (h : Heap W β) (ws : List W) : Heap W β :=
  { h with rc := fun a =>
      if isPtr a ∧ a ∈ h.live then (h.rc a).map (· + ws.count a) else h.rc a }

/-- The word holds no counted reference. -/
def Uncounted (h : Heap W β) (w : W) : Prop :=
  ¬ (isPtr w ∧ w ∈ h.live) ∨ h.rc w = none

end Heap

open Heap

/-- Each count is the number of references to its cell, from cells and from the roots, and no
reference dangles. -/
structure Exact (h : Heap W β) (roots : List W) : Prop where
  count : ∀ a ∈ h.live, ∀ k, h.rc a = some k → k = h.refs kids a + roots.count a
  kids_live : ∀ b ∈ h.live, ∀ w ∈ kids (h.body b), isPtr w → w ∈ h.live
  roots_live : ∀ w ∈ roots, isPtr w → w ∈ h.live
  live_ptr : ∀ a ∈ h.live, isPtr a

variable {isPtr kids}

theorem Exact.perm {h : Heap W β} {r s : List W} (he : Exact isPtr kids h r) (hp : r.Perm s) :
    Exact isPtr kids h s where
  count a ha k hk := by rw [he.count a ha k hk, hp.count_eq]
  kids_live := he.kids_live
  roots_live w hw := he.roots_live w (hp.mem_iff.mpr hw)
  live_ptr := he.live_ptr

theorem refs_erase {h : Heap W β} {d : W} (hd : d ∈ h.live) (a : W) :
    h.refs kids a = (h.erase d).refs kids a + (kids (h.body d)).count a :=
  (Finset.sum_erase_add _ _ hd).symm

theorem weight_erase (kids : β → List W) {h : Heap W β} {d : W} (hd : d ∈ h.live) :
    h.weight kids = (h.erase d).weight kids + (kids (h.body d)).length :=
  (Finset.sum_erase_add _ _ hd).symm

theorem Exact.unreferenced {h : Heap W β} {d : W} {r : List W}
    (he : Exact isPtr kids h (d :: r)) (hd : d ∈ h.live) (h1 : h.rc d = some 1) :
    d ∉ r ∧ ∀ b ∈ h.live, d ∉ kids (h.body b) := by
  have hc := he.count d hd 1 h1
  rw [List.count_cons_self] at hc
  refine ⟨fun hr => ?_, fun b hb hk => ?_⟩
  · have := List.count_pos_iff.mpr hr
    omega
  · have hle := Finset.single_le_sum (f := fun b => (kids (h.body b)).count d)
      (fun _ _ => Nat.zero_le _) hb
    have hpos := List.count_pos_iff.mpr hk
    have hz : h.refs kids d = 0 := by omega
    rw [refs] at hz
    omega

theorem Exact.erase {h : Heap W β} {d : W} {r : List W} (he : Exact isPtr kids h (d :: r))
    (hd : d ∈ h.live) (h1 : h.rc d = some 1) :
    Exact isPtr kids (h.erase d) (kids (h.body d) ++ r) := by
  obtain ⟨hr, hk⟩ := he.unreferenced hd h1
  refine ⟨fun a ha k hak => ?_, fun b hb w hw hp => ?_, fun w hw hp => ?_, fun a ha => ?_⟩
  · obtain ⟨hne, hal⟩ := Finset.mem_erase.mp ha
    have hc := he.count a hal k hak
    rw [List.count_cons_of_ne hne.symm, refs_erase hd] at hc
    rw [List.count_append]
    omega
  · have hbl := Finset.mem_of_mem_erase hb
    refine Finset.mem_erase.mpr ⟨fun hwd => hk b hbl (hwd ▸ hw), he.kids_live b hbl w hw hp⟩
  · rcases List.mem_append.mp hw with hw | hw
    · exact Finset.mem_erase.mpr ⟨fun hwd => hk d hd (hwd ▸ hw), he.kids_live d hd w hw hp⟩
    · exact Finset.mem_erase.mpr ⟨fun hwd => hr (hwd ▸ hw),
        he.roots_live w (List.mem_cons_of_mem _ hw) hp⟩
  · exact he.live_ptr a (Finset.mem_of_mem_erase ha)

theorem Exact.drop_uncounted {h : Heap W β} {w : W} {r : List W}
    (he : Exact isPtr kids h (w :: r)) (hw : h.Uncounted isPtr w) : Exact isPtr kids h r where
  count a ha k hk := by
    have hne : w ≠ a := by
      rintro rfl
      rcases hw with hw | hw
      · exact hw ⟨he.live_ptr w ha, ha⟩
      · exact absurd (hw.symm.trans hk) (by simp)
    rw [he.count a ha k hk, List.count_cons_of_ne hne]
  kids_live := he.kids_live
  roots_live v hv := he.roots_live v (List.mem_cons_of_mem _ hv)
  live_ptr := he.live_ptr

theorem Exact.decrement {h : Heap W β} {w : W} {r : List W} {k : ℕ}
    (he : Exact isPtr kids h (w :: r)) (hk : h.rc w = some k) :
    Exact isPtr kids (h.setRc w (some (k - 1))) r where
  count a ha j hj := by
    by_cases haw : a = w
    · subst haw
      have hj' : some (k - 1) = some j := (update_self a _ _).symm.trans hj
      have hc := he.count a ha k hk
      rw [List.count_cons_self] at hc
      have hjk : k - 1 = j := Option.some.inj hj'
      change j = h.refs kids a + _
      omega
    · have hj' : h.rc a = some j := (update_of_ne haw _ _).symm.trans hj
      have hc := he.count a ha j hj'
      rw [List.count_cons_of_ne (Ne.symm haw)] at hc
      exact hc
  kids_live := he.kids_live
  roots_live v hv := he.roots_live v (List.mem_cons_of_mem _ hv)
  live_ptr := he.live_ptr

theorem Exact.put {h : Heap W β} {d : W} {b : β} {r : List W}
    (he : Exact isPtr kids h (kids b ++ r)) (hd : d ∉ h.live) (hp : isPtr d) :
    Exact isPtr kids (h.put d (some 1) b) (d :: r) := by
  have hfree : ∀ w ∈ h.live, w ≠ d := fun w hw hwd => hd (hwd ▸ hw)
  have hbody : ∀ x ∈ h.live, (h.put d (some 1) b).body x = h.body x := fun x hx =>
    update_of_ne (hfree x hx) _ _
  have hself : (h.put d (some 1) b).body d = b := update_self d _ _
  have hrefs : ∀ a, (h.put d (some 1) b).refs kids a = (kids b).count a + h.refs kids a := by
    intro a
    change ∑ x ∈ insert d h.live, (kids ((h.put d (some 1) b).body x)).count a = _
    rw [Finset.sum_insert hd, hself]
    exact congrArg _ (Finset.sum_congr rfl fun x hx => by rw [hbody x hx])
  refine ⟨fun a ha k hk => ?_, fun x hx w hw hwp => ?_, fun w hw hwp => ?_, fun a ha => ?_⟩
  · rw [hrefs]
    by_cases had : a = d
    · subst had
      have hk1 : some 1 = some k := (update_self a _ _).symm.trans hk
      have hk' : k = 1 := (Option.some.inj hk1).symm
      -- nothing refers to the address yet
      have hkids : (kids b).count a = 0 := List.count_eq_zero.mpr fun hm =>
        hfree a (he.roots_live a (List.mem_append_left _ hm) hp) rfl
      have hroots : r.count a = 0 := List.count_eq_zero.mpr fun hm =>
        hfree a (he.roots_live a (List.mem_append_right _ hm) hp) rfl
      have hcells : h.refs kids a = 0 := Finset.sum_eq_zero fun x hx =>
        List.count_eq_zero.mpr fun hm => hfree a (he.kids_live x hx a hm hp) rfl
      rw [List.count_cons_self, hkids, hroots, hcells, hk']
    · have hal : a ∈ h.live := (Finset.mem_insert.mp ha).resolve_left had
      have hka : h.rc a = some k := (update_of_ne had _ _).symm.trans hk
      have hc := he.count a hal k hka
      rw [List.count_append] at hc
      rw [List.count_cons_of_ne (Ne.symm had)]
      omega
  · refine Finset.mem_insert_of_mem ?_
    rcases Finset.mem_insert.mp hx with rfl | hx
    · rw [hself] at hw
      exact he.roots_live w (List.mem_append_left _ hw) hwp
    · rw [hbody x hx] at hw
      exact he.kids_live x hx w hw hwp
  · rcases List.mem_cons.mp hw with rfl | hw
    · exact Finset.mem_insert_self _ _
    · exact Finset.mem_insert_of_mem (he.roots_live w (List.mem_append_right _ hw) hwp)
  · rcases Finset.mem_insert.mp ha with rfl | ha
    · exact hp
    · exact he.live_ptr a ha

theorem releaseWith_fuel {n m : ℕ} {h : Heap W β} {ws : List W}
    (hn : ws.length + h.weight kids ≤ n) (hm : ws.length + h.weight kids ≤ m) :
    h.releaseWith isPtr kids n ws = h.releaseWith isPtr kids m ws := by
  induction n generalizing m h ws with
  | zero =>
      obtain rfl : ws = [] := List.length_eq_zero_iff.mp (by omega)
      cases m <;> rfl
  | succ n ih =>
      cases ws with
      | nil => cases m <;> rfl
      | cons w ws =>
          rw [List.length_cons] at hn hm
          obtain _ | m := m
          · omega
          simp only [releaseWith]
          split
          · rename_i hw
            split
            · exact ih (by omega) (by omega)
            · split
              · have hweight := weight_erase kids hw.2
                refine ih ?_ ?_ <;> rw [List.length_append] <;> omega
              · refine ih ?_ ?_ <;> change ws.length + h.weight kids ≤ _ <;> omega
          · exact ih (by omega) (by omega)

@[simp] theorem release_nil (h : Heap W β) : h.release isPtr kids [] = h := by
  unfold release
  cases ([] : List W).length + h.weight kids <;> rfl

theorem release_uncounted {h : Heap W β} {w : W} (hw : h.Uncounted isPtr w) (ws : List W) :
    h.release isPtr kids (w :: ws) = h.release isPtr kids ws := by
  have hlen : (w :: ws).length + h.weight kids = ws.length + h.weight kids + 1 := by
    rw [List.length_cons]
    omega
  rw [release, release, hlen]
  simp only [releaseWith]
  split
  · rename_i hp
    have hrc : h.rc w = none := hw.resolve_left (not_not.mpr hp)
    rw [hrc]
  · rfl

theorem release_last {h : Heap W β} {w : W} (hp : isPtr w) (hw : w ∈ h.live)
    (h1 : h.rc w = some 1) (ws : List W) :
    h.release isPtr kids (w :: ws) =
      (h.erase w).release isPtr kids (kids (h.body w) ++ ws) := by
  have hweight := weight_erase kids hw
  have hlen : (w :: ws).length + h.weight kids = ws.length + h.weight kids + 1 := by
    rw [List.length_cons]
    omega
  rw [release, release, hlen]
  simp only [releaseWith, hp, hw, and_self, if_true, h1]
  refine releaseWith_fuel ?_ le_rfl
  rw [List.length_append]
  omega

theorem release_more {h : Heap W β} {w : W} {k : ℕ} (hp : isPtr w) (hw : w ∈ h.live)
    (hk : h.rc w = some k) (h1 : k ≠ 1) (ws : List W) :
    h.release isPtr kids (w :: ws) =
      (h.setRc w (some (k - 1))).release isPtr kids ws := by
  have hlen : (w :: ws).length + h.weight kids = ws.length + h.weight kids + 1 := by
    rw [List.length_cons]
    omega
  rw [release, release, hlen]
  simp only [releaseWith, hp, hw, and_self, if_true, hk, h1, if_false]
  exact releaseWith_fuel le_rfl le_rfl

theorem release_induct (isPtr : W → Bool) (kids : β → List W)
    {motive : Heap W β → List W → Prop} (nil : ∀ h, motive h [])
    (uncounted : ∀ h w ws, h.Uncounted isPtr w → motive h ws → motive h (w :: ws))
    (last : ∀ h w ws, isPtr w → w ∈ h.live → h.rc w = some 1 →
      motive (h.erase w) (kids (h.body w) ++ ws) → motive h (w :: ws))
    (more : ∀ h w ws k, isPtr w → w ∈ h.live → h.rc w = some k → k ≠ 1 →
      motive (h.setRc w (some (k - 1))) ws → motive h (w :: ws))
    (h : Heap W β) (ws : List W) : motive h ws := by
  induction hn : ws.length + h.weight kids generalizing h ws with
  | zero =>
      obtain rfl : ws = [] := List.length_eq_zero_iff.mp (by omega)
      exact nil h
  | succ n ih =>
      cases ws with
      | nil => exact nil h
      | cons w ws =>
          rw [List.length_cons] at hn
          by_cases hw : isPtr w ∧ w ∈ h.live
          · rcases hk : h.rc w with _ | k
            · exact uncounted h w ws (.inr hk) (ih h ws (by omega))
            · by_cases h1 : k = 1
              · have hweight := weight_erase kids hw.2
                refine last h w ws hw.1 hw.2 (h1 ▸ hk) (ih _ _ ?_)
                rw [List.length_append]
                omega
              · have hweight : (h.setRc w (some (k - 1))).weight kids = h.weight kids := rfl
                exact more h w ws k hw.1 hw.2 hk h1 (ih _ ws (by omega))
          · exact uncounted h w ws (.inl hw) (ih h ws (by omega))

theorem Exact.release {h : Heap W β} {ws r : List W} (he : Exact isPtr kids h (ws ++ r)) :
    Exact isPtr kids (h.release isPtr kids ws) r := by
  induction h, ws using release_induct isPtr kids with
  | nil h => simpa using he
  | uncounted h w ws hw ih =>
      rw [release_uncounted hw]
      exact ih (he.drop_uncounted hw)
  | last h w ws hp hw h1 ih =>
      rw [release_last hp hw h1]
      refine ih ?_
      rw [List.append_assoc]
      exact he.erase hw h1
  | more h w ws k hp hw hk h1 ih =>
      rw [release_more hp hw hk h1]
      exact ih (he.decrement hk)

theorem release_append (h : Heap W β) (ws vs : List W) :
    h.release isPtr kids (ws ++ vs) = (h.release isPtr kids ws).release isPtr kids vs := by
  induction h, ws using release_induct isPtr kids with
  | nil h => simp
  | uncounted h w ws hw ih => rw [List.cons_append, release_uncounted hw, release_uncounted hw, ih]
  | last h w ws hp hw h1 ih =>
      rw [List.cons_append, release_last hp hw h1, release_last hp hw h1, ← ih,
        List.append_assoc]
  | more h w ws k hp hw hk h1 ih =>
      rw [List.cons_append, release_more hp hw hk h1, release_more hp hw hk h1, ih]

theorem release_cons (h : Heap W β) (w : W) (ws : List W) :
    h.release isPtr kids (w :: ws) = (h.release isPtr kids [w]).release isPtr kids ws :=
  release_append h [w] ws

@[simp] theorem release_body (h : Heap W β) (ws : List W) :
    (h.release isPtr kids ws).body = h.body := by
  induction h, ws using release_induct isPtr kids with
  | nil h => simp
  | uncounted h w ws hw ih => rw [release_uncounted hw, ih]
  | last h w ws hp hw h1 ih =>
      rw [release_last hp hw h1, ih]
      rfl
  | more h w ws k hp hw hk h1 ih =>
      rw [release_more hp hw hk h1, ih]
      rfl

theorem release_live_subset (h : Heap W β) (ws : List W) :
    (h.release isPtr kids ws).live ⊆ h.live := by
  induction h, ws using release_induct isPtr kids with
  | nil h => simp
  | uncounted h w ws hw ih => rwa [release_uncounted hw]
  | last h w ws hp hw h1 ih =>
      rw [release_last hp hw h1]
      exact ih.trans (Finset.erase_subset _ _)
  | more h w ws k hp hw hk h1 ih =>
      rw [release_more hp hw hk h1]
      exact ih

theorem Uncounted.release {h : Heap W β} {v : W} (hv : h.Uncounted isPtr v) (ws : List W) :
    (h.release isPtr kids ws).Uncounted isPtr v := by
  rcases hv with hv | hv
  · exact .inl fun hp => hv ⟨hp.1, release_live_subset h ws hp.2⟩
  · refine .inr ?_
    induction h, ws using release_induct isPtr kids with
    | nil h => simpa using hv
    | uncounted h w ws hw ih => rw [release_uncounted hw, ih hv]
    | last h w ws hp hw h1 ih =>
        rw [release_last hp hw h1]
        exact ih hv
    | more h w ws k hp hw hk h1 ih =>
        rw [release_more hp hw hk h1]
        have hvw : v ≠ w := by
          rintro rfl
          exact absurd (hv.symm.trans hk) (by simp)
        exact ih ((update_of_ne hvw _ _).trans hv)

theorem uncounted_put {h : Heap W β} {d w : W} {k : Option ℕ} {b : β} (hne : w ≠ d) :
    (h.put d k b).Uncounted isPtr w ↔ h.Uncounted isPtr w := by
  simp only [Heap.Uncounted, Heap.put, Finset.mem_insert, hne, false_or, update_of_ne hne]

theorem uncounted_erase {h : Heap W β} {d w : W} (hne : w ≠ d) :
    (h.erase d).Uncounted isPtr w ↔ h.Uncounted isPtr w := by
  simp only [Heap.Uncounted, Heap.erase, Finset.mem_erase, ne_eq, hne, not_false_eq_true,
    true_and]

theorem release_put {h : Heap W β} {d : W} {k : Option ℕ} {b : β} {ws : List W}
    (hd : d ∉ h.live) (hk : ∀ x ∈ h.live, d ∉ kids (h.body x)) (hw : d ∉ ws) :
    (h.put d k b).release isPtr kids ws = (h.release isPtr kids ws).put d k b := by
  induction h, ws using release_induct isPtr kids with
  | nil h => simp
  | uncounted h w ws hu ih =>
      obtain ⟨hdw, hdws⟩ := not_or.mp (mt List.mem_cons.mpr hw)
      have hu' : (h.put d k b).Uncounted isPtr w := by
        rcases hu with hu | hu
        · exact .inl fun hp => hu ⟨hp.1,
            (Finset.mem_insert.mp hp.2).resolve_left (Ne.symm hdw)⟩
        · exact .inr ((update_of_ne (Ne.symm hdw) _ _).trans hu)
      rw [release_uncounted hu', release_uncounted hu, ih hd hk hdws]
  | last h w ws hp hwl h1 ih =>
      obtain ⟨hdw, hdws⟩ := not_or.mp (mt List.mem_cons.mpr hw)
      have hne : w ≠ d := Ne.symm hdw
      have hrc : (h.put d k b).rc w = some 1 := (update_of_ne hne _ _).trans h1
      have hbody : (h.put d k b).body w = h.body w := update_of_ne hne _ _
      have herase : (h.put d k b).erase w = (h.erase w).put d k b := by
        simp only [Heap.erase, Heap.put, Finset.erase_insert_of_ne hdw]
      rw [release_last hp (Finset.mem_insert_of_mem hwl) hrc, release_last hp hwl h1, hbody,
        herase]
      refine ih (fun hm => hd (Finset.mem_of_mem_erase hm))
        (fun x hx => hk x (Finset.mem_of_mem_erase hx)) fun hm => ?_
      rcases List.mem_append.mp hm with hm | hm
      · exact hk w hwl hm
      · exact hdws hm
  | more h w ws j hp hwl hj h1 ih =>
      obtain ⟨hdw, hdws⟩ := not_or.mp (mt List.mem_cons.mpr hw)
      have hne : w ≠ d := Ne.symm hdw
      have hrc : (h.put d k b).rc w = some j := (update_of_ne hne _ _).trans hj
      have hset : (h.put d k b).setRc w (some (j - 1)) = (h.setRc w (some (j - 1))).put d k b := by
        simp only [Heap.setRc, Heap.put, update_comm hdw]
      rw [release_more hp (Finset.mem_insert_of_mem hwl) hrc h1, release_more hp hwl hj h1, hset]
      exact ih hd hk hdws

theorem rc_release_none {h : Heap W β} {v : W} {ws : List W}
    (hv : (h.release isPtr kids ws).rc v = none) : h.rc v = none := by
  induction h, ws using release_induct isPtr kids with
  | nil h => simpa using hv
  | uncounted h w ws hw ih =>
      rw [release_uncounted hw] at hv
      exact ih hv
  | last h w ws hp hw h1 ih =>
      rw [release_last hp hw h1] at hv
      exact ih hv
  | more h w ws k hp hw hk h1 ih =>
      rw [release_more hp hw hk h1] at hv
      have hset := ih hv
      by_cases hvw : v = w
      · subst hvw
        exact absurd ((update_self v _ _).symm.trans hset) (by simp)
      · exact (update_of_ne hvw _ _).symm.trans hset

theorem release_congr {kids' : β → List W} {h : Heap W β} {ws : List W}
    (hk : ∀ x ∈ h.live, kids' (h.body x) = kids (h.body x)) :
    h.release isPtr kids' ws = h.release isPtr kids ws := by
  induction h, ws using release_induct isPtr kids with
  | nil h => simp
  | uncounted h w ws hw ih => rw [release_uncounted hw, release_uncounted hw, ih hk]
  | last h w ws hp hw h1 ih =>
      rw [release_last hp hw h1, release_last hp hw h1, hk w hw]
      exact ih fun x hx => hk x (Finset.mem_of_mem_erase hx)
  | more h w ws k hp hw hj h1 ih =>
      rw [release_more hp hw hj h1, release_more hp hw hj h1]
      exact ih hk

theorem Exact.congr {kids' : β → List W} {h : Heap W β} {r : List W}
    (he : Exact isPtr kids h r) (hk : ∀ x ∈ h.live, kids' (h.body x) = kids (h.body x)) :
    Exact isPtr kids' h r where
  count a ha k hak := by
    have hrefs : h.refs kids' a = h.refs kids a :=
      Finset.sum_congr rfl fun x hx => by rw [hk x hx]
    rw [hrefs]
    exact he.count a ha k hak
  kids_live b hb w hw := he.kids_live b hb w (hk b hb ▸ hw)
  roots_live := he.roots_live
  live_ptr := he.live_ptr

theorem Exact.drop_all {h : Heap W β} {s r : List W} (he : Exact isPtr kids h (s ++ r))
    (hs : ∀ w ∈ s, h.Uncounted isPtr w) : Exact isPtr kids h r := by
  induction s with
  | nil => exact he
  | cons w s ih =>
      exact ih (he.drop_uncounted (hs w List.mem_cons_self)) fun v hv =>
        hs v (List.mem_cons_of_mem _ hv)

theorem Exact.counted_release {h : Heap W β} {ws r : List W} {v : W}
    (he : Exact isPtr kids h (ws ++ r)) (hv : v ∈ r) (hc : ¬ h.Uncounted isPtr v) :
    ¬ (h.release isPtr kids ws).Uncounted isPtr v := by
  obtain ⟨hp, hrc⟩ := not_or.mp hc
  rintro (hu | hu)
  · have hptr := (not_not.mp hp).1
    exact hu ⟨hptr, he.release.roots_live v hv hptr⟩
  · exact hrc (rc_release_none hu)

theorem Exact.uncounted_of_append {h : Heap W β} {r s : List W}
    (hr : Exact isPtr kids h r) (hs : Exact isPtr kids h (s ++ r)) :
    ∀ w ∈ s, h.Uncounted isPtr w := by
  intro w hw
  by_contra hc
  obtain ⟨hp, hrc⟩ := not_or.mp hc
  obtain ⟨k, hk⟩ := Option.ne_none_iff_exists'.mp hrc
  have hlive := (not_not.mp hp).2
  have h1 := hr.count w hlive k hk
  have h2 := hs.count w hlive k hk
  rw [List.count_append] at h2
  have hpos := List.count_pos_iff.mpr hw
  omega

theorem release_erase {h : Heap W β} {d : W} {ws : List W}
    (hk : ∀ x ∈ h.live, d ∉ kids (h.body x)) (hw : d ∉ ws) :
    (h.release isPtr kids ws).erase d = (h.erase d).release isPtr kids ws := by
  induction h, ws using release_induct isPtr kids with
  | nil h => simp
  | uncounted h w ws hu ih =>
      obtain ⟨-, hdws⟩ := not_or.mp (mt List.mem_cons.mpr hw)
      have hu' : (h.erase d).Uncounted isPtr w :=
        hu.imp (mt fun hp => ⟨hp.1, Finset.mem_of_mem_erase hp.2⟩) id
      rw [release_uncounted hu, release_uncounted hu', ih hk hdws]
  | last h w ws hp hwl h1 ih =>
      obtain ⟨hdw, hdws⟩ := not_or.mp (mt List.mem_cons.mpr hw)
      have hwd : w ∈ (h.erase d).live := Finset.mem_erase.mpr ⟨Ne.symm hdw, hwl⟩
      have hswap : (h.erase d).erase w = (h.erase w).erase d := by
        simp only [Heap.erase, Finset.erase_right_comm]
      rw [release_last hp hwl h1, release_last hp hwd h1, hswap]
      refine ih (fun x hx => hk x (Finset.mem_of_mem_erase hx)) fun hm => ?_
      rcases List.mem_append.mp hm with hm | hm
      · exact hk w hwl hm
      · exact hdws hm
  | more h w ws j hp hwl hj h1 ih =>
      obtain ⟨hdw, hdws⟩ := not_or.mp (mt List.mem_cons.mpr hw)
      have hwd : w ∈ (h.erase d).live := Finset.mem_erase.mpr ⟨Ne.symm hdw, hwl⟩
      rw [release_more hp hwl hj h1, release_more hp hwd hj h1]
      exact ih hk hdws

theorem Exact.release_zero {h : Heap W β} {d : W} {ws r : List W}
    (he : Exact isPtr kids h (ws ++ r)) (hd : d ∈ h.live) (h0 : h.rc d = some 0) :
    d ∈ (h.release isPtr kids ws).live := by
  -- the cell is no root, so the release does not come to it
  have hne : ∀ (h : Heap W β) (w : W) (vs : List W), Exact isPtr kids h (w :: vs) →
      d ∈ h.live → h.rc d = some 0 → d ≠ w := by
    rintro h w vs he hd h0 rfl
    have hc := he.count d hd 0 h0
    rw [List.count_cons_self] at hc
    omega
  induction h, ws using release_induct isPtr kids with
  | nil h => simpa using hd
  | uncounted h w ws hw ih =>
      rw [release_uncounted hw]
      exact ih (he.drop_uncounted hw) hd h0
  | last h w ws hp hw h1 ih =>
      rw [release_last hp hw h1]
      have hdw := hne h w (ws ++ r) he hd h0
      refine ih ?_ (Finset.mem_erase.mpr ⟨hdw, hd⟩) h0
      rw [List.append_assoc]
      exact he.erase hw h1
  | more h w ws k hp hw hk h1 ih =>
      rw [release_more hp hw hk h1]
      have hdw := hne h w (ws ++ r) he hd h0
      exact ih (he.decrement hk) hd ((update_of_ne hdw _ _).trans h0)

@[simp] theorem retain_nil (h : Heap W β) : h.retain isPtr [] = h := by
  unfold retain
  congr 1
  funext a
  split <;> simp

theorem retain_retain (h : Heap W β) (ws vs : List W) :
    (h.retain isPtr ws).retain isPtr vs = h.retain isPtr (ws ++ vs) := by
  unfold retain
  congr 1
  funext a
  dsimp only
  split
  · rw [Option.map_map, List.count_append]
    congr 1
    funext k
    exact Nat.add_assoc _ _ _
  · rfl

theorem retain_rc {h : Heap W β} {a : W} {k : ℕ} (hp : isPtr a) (ha : a ∈ h.live)
    (hk : h.rc a = some k) (ws : List W) :
    (h.retain isPtr ws).rc a = some (k + ws.count a) := by
  simp only [retain, hp, ha, and_self, if_true, hk, Option.map_some]

theorem retain_rc_of_notMem (isPtr : W → Bool) {h : Heap W β} {a : W} {ws : List W} (ha : a ∉ ws) :
    (h.retain isPtr ws).rc a = h.rc a := by
  simp only [retain, List.count_eq_zero.mpr ha]
  split <;> simp

theorem Exact.retain {h : Heap W β} {ws r : List W} (he : Exact isPtr kids h r)
    (hw : ∀ w ∈ ws, isPtr w → w ∈ h.live) :
    Exact isPtr kids (h.retain isPtr ws) (ws ++ r) where
  count a ha k hk := by
    have hal : a ∈ h.live := ha
    rcases hj : h.rc a with _ | j
    · simp [Heap.retain, hj] at hk
    · have hkj := (retain_rc (he.live_ptr a ha) hal hj ws).symm.trans hk
      have hc := he.count a ha j hj
      rw [List.count_append]
      change k = h.refs kids a + _
      have := Option.some.inj hkj
      omega
  kids_live := he.kids_live
  roots_live v hv hp := (List.mem_append.mp hv).elim (hw v · hp) (he.roots_live v · hp)
  live_ptr := he.live_ptr

theorem retain_erase {h : Heap W β} {d : W} {ws : List W} (hd : d ∉ ws) :
    (h.retain isPtr ws).erase d = (h.erase d).retain isPtr ws := by
  unfold retain Heap.erase
  congr 1
  funext a
  by_cases had : a = d
  · subst had
    simp only [List.count_eq_zero.mpr hd, Finset.notMem_erase, and_false, if_false]
    split <;> simp
  · simp only [Finset.mem_erase, had, ne_eq, not_false_eq_true, true_and]

theorem retain_setRc {h : Heap W β} {d : W} {k : ℕ} (hp : isPtr d) (hd : d ∈ h.live)
    (ws : List W) :
    (h.setRc d (some k)).retain isPtr ws =
      (h.retain isPtr ws).setRc d (some (k + ws.count d)) := by
  unfold retain setRc
  congr 1
  funext a
  by_cases had : a = d
  · subst had
    simp only [update_self, hp, hd, and_self, if_true, Option.map_some]
  · simp only [update_of_ne had]

theorem release_retain {h : Heap W β} {ws : List W}
    (hw : ∀ w ∈ ws, w ∈ h.live → h.rc w ≠ some 0) (vs : List W) :
    (h.retain isPtr ws).release isPtr kids (ws ++ vs) = h.release isPtr kids vs := by
  induction ws with
  | nil => simp
  | cons w ws ih =>
      rw [← ih fun v hv => hw v (List.mem_cons_of_mem _ hv), List.cons_append]
      by_cases hu : h.Uncounted isPtr w
      · have hsame : h.retain isPtr (w :: ws) = h.retain isPtr ws := by
          unfold retain
          congr 1
          funext a
          by_cases haw : a = w
          · subst haw
            rcases hu with hu | hu
            · rw [if_neg hu, if_neg hu]
            · rw [hu]
              rfl
          · rw [List.count_cons_of_ne (Ne.symm haw)]
        have hu' : (h.retain isPtr ws).Uncounted isPtr w := by
          rcases hu with hu | hu
          · exact .inl hu
          · refine .inr ?_
            simp only [retain, hu, Option.map_none, ite_self]
        rw [hsame, release_uncounted hu']
      · obtain ⟨hp, hrc⟩ := not_or.mp hu
        obtain ⟨k, hk⟩ := Option.ne_none_iff_exists'.mp hrc
        obtain ⟨hptr, hlive⟩ := not_not.mp hp
        have hpos : k ≠ 0 := by
          rintro rfl
          exact hw w List.mem_cons_self hlive hk
        have hrc' := retain_rc hptr hlive hk (w :: ws)
        have hset : (h.retain isPtr (w :: ws)).setRc w (some (k + (w :: ws).count w - 1)) =
            h.retain isPtr ws := by
          unfold retain setRc
          congr 1
          funext a
          by_cases haw : a = w
          · subst haw
            rw [update_self, if_pos ⟨hptr, hlive⟩, hk, List.count_cons_self]
            rfl
          · rw [update_of_ne haw]
            simp only [List.count_cons_of_ne (Ne.symm haw)]
        have hlive' : w ∈ (h.retain isPtr (w :: ws)).live := hlive
        have hmore : k + (w :: ws).count w ≠ 1 := by
          rw [List.count_cons_self]
          omega
        rw [release_more hptr hlive' hrc' hmore, hset]

end Kaikai.RefCount
