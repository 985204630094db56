import Mathlib.Data.Finset.Max
import Kaikai.ReuseExact

namespace Kaikai.RefCount

open Function Heap

variable {W β : Type} [DecidableEq W] {isPtr : W → Bool} {kids : β → List W}

/-- Every cell is counted, and is built from cells of lower rank. -/
structure Tidy (isPtr : W → Bool) (kids : β → List W) (h : Heap W β) : Prop where
  counted : ∀ a ∈ h.live, ∃ k, h.rc a = some (k + 1)
  ranked : ∃ rank : W → ℕ, ∀ a ∈ h.live, ∀ w ∈ kids (h.body a), isPtr w → rank w < rank a

theorem Tidy.erase {h : Heap W β} (ht : Tidy isPtr kids h) (a : W) : Tidy isPtr kids (h.erase a) where
  counted x hx := ht.counted x (Finset.mem_of_mem_erase hx)
  ranked := by
    obtain ⟨rank, hrank⟩ := ht.ranked
    exact ⟨rank, fun x hx => hrank x (Finset.mem_of_mem_erase hx)⟩

theorem Tidy.release {kids' : β → List W} {h : Heap W β} {ws : List W} (ht : Tidy isPtr kids h) :
    Tidy isPtr kids (h.release isPtr kids' ws) := by
  induction h, ws using release_induct isPtr kids' with
  | nil h => rwa [release_nil]
  | uncounted h w ws hw ih =>
      rw [release_uncounted hw]
      exact ih ht
  | last h w ws hp hw h1 ih =>
      rw [release_last hp hw h1]
      exact ih (ht.erase w)
  | more h w ws k hp hw hk h1 ih =>
      rw [release_more hp hw hk h1]
      refine ih ⟨fun a ha => ?_, ht.ranked⟩
      by_cases haw : a = w
      · obtain ⟨j, hj⟩ := ht.counted w hw
        have hkj : k = j + 1 := Option.some.inj (hk.symm.trans hj)
        refine ⟨j - 1, haw ▸ (update_self a _ _).trans (congrArg some ?_)⟩
        omega
      · obtain ⟨j, hj⟩ := ht.counted a ha
        exact ⟨j, (update_of_ne haw _ _).trans hj⟩

theorem Tidy.retain {h : Heap W β} (ht : Tidy isPtr kids h) (ws : List W) :
    Tidy isPtr kids (h.retain isPtr ws) where
  counted a ha := by
    obtain ⟨j, hj⟩ := ht.counted a ha
    rw [Heap.retain]
    dsimp only
    split
    · exact ⟨j + ws.count a, by rw [hj, Option.map_some]; congr 1; omega⟩
    · exact ⟨j, hj⟩
  ranked := ht.ranked

theorem Tidy.put {h : Heap W β} {d : W} {b : β} {r : List W} (ht : Tidy isPtr kids h)
    (hd : d ∉ h.live) (he : Exact isPtr kids (h.put d (some 1) b) (d :: r)) :
    Tidy isPtr kids (h.put d (some 1) b) := by
  obtain ⟨-, hnone⟩ := he.unreferenced (Finset.mem_insert_self _ _) (update_self d _ _)
  have hold : ∀ a ∈ h.live, a ≠ d := fun a ha had => hd (had ▸ ha)
  refine ⟨fun a ha => ?_, ?_⟩
  · rcases Finset.mem_insert.1 ha with rfl | ha
    · exact ⟨0, update_self a _ _⟩
    · obtain ⟨k, hk⟩ := ht.counted a ha
      exact ⟨k, (update_of_ne (hold a ha) _ _).trans hk⟩
  · obtain ⟨rank, hrank⟩ := ht.ranked
    refine ⟨update rank d ((kids b).map rank).sum.succ, fun a ha w hw hp => ?_⟩
    have hwd : w ≠ d := fun hwd => hnone a ha (hwd ▸ hw)
    rw [update_of_ne hwd]
    rcases Finset.mem_insert.1 ha with rfl | hlive
    · rw [update_self]
      have hb : (h.put a (some 1) b).body a = b := update_self a _ _
      rw [hb] at hw
      exact Nat.lt_succ_of_le (List.le_sum_of_mem (List.mem_map_of_mem hw))
    · rw [update_of_ne (hold a hlive)]
      have hb : (h.put d (some 1) b).body a = h.body a := update_of_ne (hold a hlive) _ _
      exact hrank a hlive w (hb ▸ hw) hp

theorem Tidy.live_eq_empty {h : Heap W β} {r : List W} (ht : Tidy isPtr kids h)
    (he : Exact isPtr kids h r) (hr : ∀ w ∈ r, ¬ isPtr w) : h.live = ∅ := by
  by_contra hne
  obtain ⟨rank, hrank⟩ := ht.ranked
  obtain ⟨a, ha, hmax⟩ := h.live.exists_max_image rank (Finset.nonempty_iff_ne_empty.2 hne)
  obtain ⟨k, hk⟩ := ht.counted a ha
  have hcount := he.count a ha _ hk
  have hroot : r.count a = 0 := List.count_eq_zero.2 fun hm => hr a hm (he.live_ptr a ha)
  have hrefs : h.refs kids a = 0 := by
    refine Finset.sum_eq_zero fun b hb => List.count_eq_zero.2 fun hm => ?_
    exact (hrank b hb a hm (he.live_ptr a ha)).not_ge (hmax b hb)
  omega

end Kaikai.RefCount

namespace Kaikai.Reuse

open Function RefCount

/-- The heap of a program and the words it holds: it starts with immediates, builds cells, shares
and drops words, and rebuilds a cell it holds, in place where the helper may. -/
inductive Runs (layout : ℕ → ℕ) : State → List Word → Prop
  | start (b : Body) {r : List Word} (hr : ∀ w ∈ r, ¬ isPtr w) :
      Runs layout ⟨⟨∅, fun _ => none, fun _ => b⟩, fun _ => none⟩ r
  | order {s : State} {r r' : List Word} (h : Runs layout s r) (hr : r.Perm r') : Runs layout s r'
  | fresh {s : State} {a : Word} {b : Body} {r : List Word} (h : Runs layout s (owned layout b ++ r))
      (ha : a ∉ s.heap.live) (hp : isPtr a) : Runs layout (fresh layout a b s) (a :: r)
  | dup {s : State} {w : Word} {r : List Word} (h : Runs layout s r)
      (hw : isPtr w → w ∈ s.heap.live) : Runs layout (s.incref w) (w :: r)
  | drop {s : State} {w : Word} {r : List Word} (h : Runs layout s (w :: r)) :
      Runs layout (s.decref w) r
  | rebuild {s : State} {scr a : Word} {c : Rebuild} {r : List Word}
      (h : Runs layout s (scr :: (owned layout c.body ++ r))) (hscr : scr ∈ s.heap.live)
      (ha : a ∉ s.heap.live) (hp : isPtr a) (hc : c.Reuses layout s scr → c.Fits layout s scr) :
      Runs layout ((c.run layout a scr s).1.decref scr) ((c.run layout a scr s).2 :: r)

/-- What every state of a run is. -/
structure Kept (layout : ℕ → ℕ) (s : State) (r : List Word) : Prop where
  wf : Wf layout s
  exact : Exact isPtr (owned layout) s.heap r
  tidy : Tidy isPtr (owned layout) s.heap

variable {layout : ℕ → ℕ} {s : State} {r : List Word}

theorem Kept.put {Z : Heap Word Body} {m : Masks} {d : Word} {b : Body} (hwf : Wf layout ⟨Z, m⟩)
    (ht : Tidy isPtr (owned layout) Z) (hd : d ∉ Z.live)
    (hread : ∀ tag slots, b = .variant tag slots → maskOf m tag = layout tag)
    (he : Counts ⟨Z.put d (some 1) b, m⟩ (d :: r)) : Kept layout ⟨Z.put d (some 1) b, m⟩ (d :: r) :=
  have hput := hwf.put hread
  ⟨hput, hput.counts_iff.1 he, ht.put hd (hput.counts_iff.1 he)⟩

theorem Kept.rebuild {scr a : Word} {c : Rebuild}
    (h : Kept layout s (scr :: (owned layout c.body ++ r))) (hscr : scr ∈ s.heap.live)
    (ha : a ∉ s.heap.live) (hp : isPtr a) (hc : c.Reuses layout s scr → c.Fits layout s scr) :
    Kept layout ((c.run layout a scr s).1.decref scr) ((c.run layout a scr s).2 :: r) := by
  have hr : Ready layout s scr a (owned layout c.body ++ r) :=
    ⟨h.wf, h.wf.counts_iff.2 h.exact, hscr, ha, hp⟩
  have hcorrect := c.correct_iff hr |>.2 hc
  have hrebuilt := hcorrect.rebuilt
  by_cases hreuse : c.Reuses layout s scr
  · have hown : scr ∉ owned layout (s.body scr) :=
      (hr.ownedExact.unreferenced hscr (rc_of_unique hreuse.unique)).2 scr hscr
    have hpaid : scr ∉ c.paid layout s scr := fun hm =>
      hown (((hcorrect.clean hreuse).perm hreuse).subset (List.mem_append_left _ hm))
    obtain ⟨hrun, hvalue⟩ := c.run_reuses hr hreuse hpaid
    rw [hrun, hvalue] at hrebuilt ⊢
    have hsub : ((s.heap.erase scr).release isPtr (kids s.masks) (c.paid layout s scr)).live ⊆
        s.heap.live.erase scr := release_live_subset _ _
    refine Kept.put ?_ (h.tidy.erase scr).release ?_ hrebuilt.read hrebuilt.exact
    · exact (h.wf.masks c).mono (hsub.trans (Finset.erase_subset _ _)) (release_body _ _)
    · exact fun hm => Finset.notMem_erase scr _ (hsub hm)
  · rw [c.run_fresh hreuse, hr.fresh_decref] at hrebuilt ⊢
    refine Kept.put ?_ h.tidy.release (hr.live_release _) hrebuilt.read hrebuilt.exact
    exact (h.wf.freshMasks c.body).mono (release_live_subset _ _) (release_body _ _)

theorem Runs.kept (h : Runs layout s r) : Kept layout s r := by
  induction h with
  | start b hr =>
      refine ⟨⟨nofun, by simp⟩, ⟨by simp, by simp, ?_, by simp⟩, by simp, fun _ => 0, by simp⟩
      exact fun w hw hp => absurd hp (hr w hw)
  | order _ hr ih => exact ⟨ih.wf, ih.exact.perm hr, ih.tidy⟩
  | @fresh s a b r _ ha hp ih =>
      rw [fresh_eq]
      have hread : ∀ tag slots, b = .variant tag slots →
          maskOf (freshMasks layout s b) tag = layout tag := fun _ _ => freshMasks_read ih.wf
      have hwf := ih.wf.freshMasks b
      exact Kept.put hwf ih.tidy ha hread ((hwf.put hread).counts_iff.2 (ih.exact.put ha hp))
  | @dup s w r _ hw ih =>
      rw [incref_eq]
      refine ⟨⟨ih.wf.recorded, ih.wf.cells⟩, ?_, ih.tidy.retain [w]⟩
      exact ih.exact.retain fun v hv => List.mem_singleton.1 hv ▸ hw
  | @drop s w r _ ih =>
      rw [ih.wf.decref_heap]
      exact ⟨ih.wf.mono (release_live_subset _ _) (release_body _ _),
        (show Exact _ _ _ ([w] ++ r) from ih.exact).release, ih.tidy.release⟩
  | rebuild _ hscr ha hp hc ih => exact ih.rebuild hscr ha hp hc

/-- In every state of a run the counts are exact, every cell has a reference, and a program that
holds no cell has left none. -/
theorem runs_leave_nothing (h : Runs layout s r) : Counts s r ∧
    (∀ a ∈ s.heap.live, ∃ k, s.rc a = some (k + 1)) ∧
      ((∀ w ∈ r, ¬ isPtr w) → s.heap.live = ∅) :=
  ⟨h.kept.wf.counts_iff.2 h.kept.exact, h.kept.tidy.counted,
    h.kept.tidy.live_eq_empty h.kept.exact⟩

/-- One cell, built of two immediates. -/
def oneCell : State :=
  fresh sampleLayout 2 (.cons 1 1) ⟨⟨∅, fun _ => none, fun _ => .cons 1 1⟩, fun _ => none⟩

/-- The cell is rebuilt in place with another tail, and dropped. -/
theorem runs_leave_nothing_rebuilt :
    ((((Rebuild.cons 1 3).run sampleLayout 4 2 oneCell).1.decref 2).decref
      ((Rebuild.cons 1 3).run sampleLayout 4 2 oneCell).2).heap.live = ∅ := by
  have hheld : Runs sampleLayout oneCell [2, 1, 3] :=
    .fresh (.start (.cons 1 1) (by decide)) (by decide) (by decide)
  have hrebuilt := Runs.rebuild (c := .cons 1 3) (a := 4) (r := []) hheld (by decide) (by decide)
    (by decide) fun _ => ⟨fun _ h => h (.inl (by decide)), nofun⟩
  exact (runs_leave_nothing (.drop hrebuilt)).2.2 (by decide)

end Kaikai.Reuse
