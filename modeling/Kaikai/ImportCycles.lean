import Mathlib.Algebra.GroupWithZero.Nat
import Mathlib.Data.List.Nodup
import Mathlib.Tactic.Tauto
import Kaikai.Str

namespace Kaikai.ImportCycles

open Str

variable {δ : Type}

/-- A segment of the stream of declarations: the module it belongs to and its length. -/
structure ImportSeg where
  home : Str
  size : Nat
deriving DecidableEq

/-- A segment with its declarations. -/
structure Chunk (δ : Type) where
  home : Str
  decls : List δ

def chunksOf : List ImportSeg → List δ → List (Chunk δ)
  | [], _ => []
  | s :: segs, decls => ⟨s.home, decls.take s.size⟩ :: chunksOf segs (decls.drop s.size)

structure ModuleEntry where
  home : Str
  origin : Str

def homeOfFile : List ModuleEntry → Str → Str
  | [], _ => []
  | m :: mods, path => if m.origin = path then m.home else homeOfFile mods path

/-- The imports between the modules of the stream. -/
def homeDeps (edges : List (Str × Str)) (mods : List ModuleEntry) (homes : List Str) :
    List (Str × Str) :=
  edges.flatMap fun e =>
    if homeOfFile mods e.1 ≠ homeOfFile mods e.2 ∧ homeOfFile mods e.1 ∈ homes ∧
        homeOfFile mods e.2 ∈ homes then
      [(homeOfFile mods e.1, homeOfFile mods e.2)]
    else []

/-- The cycle of a module, empty where it is in none. -/
def groupOf : List (List Str) → Str → List Str
  | [], _ => []
  | g :: groups, h => if h ∈ g then g else groupOf groups h

def ready (deps : List (Str × Str)) (emitted : List Str) (h : Str) : Bool :=
  deps.all fun d => d.1 != h || emitted.contains d.2

structure Released (δ : Type) where
  emitted : List Str
  postponed : List (Chunk δ)
  out : List (Chunk δ)

/-- Emits each waiting segment whose imports are out, starting over after each. -/
def release (deps : List (Str × Str)) (emitted : List Str) (waiting out keep : List (Chunk δ)) :
    Released δ :=
  match waiting with
  | [] => ⟨emitted, keep.reverse, out⟩
  | c :: rest =>
      if ready deps emitted c.home then
        release deps (c.home :: emitted) (keep.reverse ++ rest) (c :: out) []
      else release deps emitted rest out (c :: keep)
termination_by (keep.length + waiting.length, waiting.length)
decreasing_by
  · apply Prod.Lex.left
    simp
  · apply Prod.Lex.right'
    · simp
      omega
    · simp

/-- The segments of the members, in the order of the cycle. -/
def filterMapChunks (chunks : List (Chunk δ)) (g : List Str) : List (Chunk δ) :=
  g.flatMap fun h => chunks.filter fun c => c.home == h

def orderChunks (allChunks : List (Chunk δ)) (groups : List (List Str)) (deps : List (Str × Str)) :
    List (Chunk δ) → Released δ → List (Chunk δ)
  | [], s => s.out.reverse ++ s.postponed
  | c :: rest, s =>
      if groupOf groups c.home = [] then
        if ready deps s.emitted c.home then
          orderChunks allChunks groups deps rest
            (release deps (c.home :: s.emitted) s.postponed (c :: s.out) [])
        else
          orderChunks allChunks groups deps rest ⟨s.emitted, s.postponed ++ [c], s.out⟩
      else if rest.any fun r => (groupOf groups c.home).contains r.home then
        orderChunks allChunks groups deps rest s
      else
        orderChunks allChunks groups deps rest
          (release deps (groupOf groups c.home ++ s.emitted) s.postponed
            ((filterMapChunks allChunks (groupOf groups c.home)).reverse ++ s.out) [])

/-- The segments of the reordered stream, and its declarations. -/
def cyclesReorder (edges : List (Str × Str)) (mods : List ModuleEntry) (groups : List (List Str))
    (segs : List ImportSeg) (decls : List δ) : List ImportSeg × List δ :=
  let chunks := chunksOf segs decls
  let deps := homeDeps edges mods (chunks.map Chunk.home)
  let out := orderChunks chunks groups deps chunks ⟨[], [], []⟩
  (out.map fun c => ⟨c.home, c.decls.length⟩, out.flatMap Chunk.decls)

/-- `y` is in the list, and `x` in front of it. -/
def Before (l : List Str) (x y : Str) : Prop := y ∈ l ∧ l.idxOf x < l.idxOf y

theorem Before.mem {l : List Str} {x y : Str} (h : Before l x y) : x ∈ l :=
  List.idxOf_lt_length_iff.1 (Nat.lt_trans h.2 (List.idxOf_lt_length_iff.2 h.1))

theorem Before.append {l : List Str} {x y : Str} (h : Before l x y) (t : List Str) :
    Before (l ++ t) x y := by
  refine ⟨List.mem_append_left t h.1, ?_⟩
  rw [List.idxOf_append_of_mem h.mem, List.idxOf_append_of_mem h.1]
  exact h.2

theorem before_append {l t : List Str} {x y : Str} (hx : x ∈ l) (hy : y ∉ l) (ht : y ∈ t) :
    Before (l ++ t) x y := by
  refine ⟨List.mem_append_right l ht, ?_⟩
  rw [List.idxOf_append_of_mem hx, List.idxOf_append_of_notMem hy]
  exact Nat.lt_of_lt_of_le (List.idxOf_lt_length_iff.2 hx) (Nat.le_add_right _ _)

theorem not_before_append {l : List Str} {x y : Str} (hx : x ∉ l) (hy : y ∈ l) (t : List Str) :
    ¬ Before (l ++ t) x y := by
  rintro ⟨-, hlt⟩
  rw [List.idxOf_append_of_notMem hx, List.idxOf_append_of_mem hy] at hlt
  exact absurd (List.idxOf_lt_length_iff.2 hy) (by omega)

/-- Every import that does not stay inside one cycle goes to an earlier segment. -/
def InOrder (groups : List (List Str)) (deps : List (Str × Str)) (chunks : List (Chunk δ)) : Prop :=
  ∀ d ∈ deps, (¬ ∃ g ∈ groups, d.1 ∈ g ∧ d.2 ∈ g) → Before (chunks.map Chunk.home) d.2 d.1

theorem ready_iff {deps : List (Str × Str)} {emitted : List Str} {h : Str} :
    ready deps emitted h = true ↔ ∀ d ∈ deps, d.1 = h → d.2 ∈ emitted := by
  rw [ready, List.all_eq_true]
  refine forall₂_congr fun d _ => ?_
  rw [Bool.or_eq_true, bne_iff_ne, List.contains_iff_mem]
  exact Iff.symm imp_iff_not_or

/-- A release moves ready segments out one after another, until none is ready. -/
inductive Releases (deps : List (Str × Str)) : Released δ → Released δ → Prop
  | done {s : Released δ} (h : ∀ c ∈ s.postponed, ¬ ready deps s.emitted c.home = true) :
      Releases deps s s
  | move {emitted : List Str} {front back out : List (Chunk δ)} {c : Chunk δ} {t : Released δ}
      (hready : ready deps emitted c.home = true)
      (hrest : Releases deps ⟨c.home :: emitted, front ++ back, c :: out⟩ t) :
      Releases deps ⟨emitted, front ++ c :: back, out⟩ t

theorem release_releases (deps : List (Str × Str)) (emitted : List Str)
    (waiting out keep : List (Chunk δ))
    (h : ∀ c ∈ keep, ¬ ready deps emitted c.home = true) :
    Releases deps ⟨emitted, keep.reverse ++ waiting, out⟩ (release deps emitted waiting out keep) := by
  induction emitted, waiting, out, keep using release.induct deps with
  | case1 emitted out keep =>
      rw [release, List.append_nil]
      exact .done fun c hc => h c (List.mem_reverse.1 hc)
  | case2 emitted out keep c rest hready ih =>
      rw [List.unattach_reverse, List.unattach_attach] at ih
      rw [release, if_pos hready]
      exact .move hready (ih fun c hc => absurd hc List.not_mem_nil)
  | case3 emitted out keep c rest hready ih =>
      rw [release, if_neg hready]
      have hkeep := ih fun d hd => by
        obtain rfl | hd := List.mem_cons.1 hd
        · exact hready
        · exact h d hd
      rwa [List.reverse_cons, List.append_assoc, List.singleton_append] at hkeep

/-- The import cycles: no module is in two of them, or twice in one. -/
structure Cycles where
  groups : List (List Str)
  distinct : groups.flatten.Nodup

theorem mem_groupOf {groups : List (List Str)} {h : Str} (hne : groupOf groups h ≠ []) :
    h ∈ groupOf groups h ∧ groupOf groups h ∈ groups := by
  induction groups with
  | nil => exact absurd rfl hne
  | cons g groups ih =>
      rw [groupOf] at hne ⊢
      split_ifs at hne ⊢ with hmem
      · exact ⟨hmem, List.mem_cons_self⟩
      · exact ⟨(ih hne).1, List.mem_cons_of_mem _ (ih hne).2⟩

theorem groupOf_eq {groups : List (List Str)} (hd : groups.flatten.Nodup) {g : List Str} {h : Str}
    (hg : g ∈ groups) (hh : h ∈ g) : groupOf groups h = g := by
  induction groups with
  | nil => exact absurd hg List.not_mem_nil
  | cons g' groups ih =>
      rw [List.flatten_cons, List.nodup_append'] at hd
      obtain ⟨-, hrest, hdisjoint⟩ := hd
      obtain rfl | hg := List.mem_cons.1 hg
      · rw [groupOf, if_pos hh]
      · have hnot : h ∉ g' := fun hmem => hdisjoint hmem (List.mem_flatten.2 ⟨g, hg, hh⟩)
        rw [groupOf, if_neg hnot, ih hrest hg]

theorem groupOf_eq_nil_iff {groups : List (List Str)} {h : Str} :
    groupOf groups h = [] ↔ ∀ g ∈ groups, h ∉ g := by
  induction groups with
  | nil => exact iff_of_true rfl fun g hg => absurd hg List.not_mem_nil
  | cons g groups ih =>
      rw [groupOf, List.forall_mem_cons, ← ih]
      split_ifs with hmem
      · exact iff_of_false (List.ne_nil_of_mem hmem) fun hnot => hnot.1 hmem
      · exact ⟨fun hnil => ⟨hmem, hnil⟩, And.right⟩

theorem mem_filterMapChunks {chunks : List (Chunk δ)} {g : List Str} {c : Chunk δ} :
    c ∈ filterMapChunks chunks g ↔ c ∈ chunks ∧ c.home ∈ g := by
  simp only [filterMapChunks, List.mem_flatMap, List.mem_filter, beq_iff_eq]
  constructor
  · rintro ⟨h, hh, hc, rfl⟩
    exact ⟨hc, hh⟩
  · rintro ⟨hc, hh⟩
    exact ⟨c.home, hh, hc, rfl⟩

theorem nodup_filterMapChunks {chunks : List (Chunk δ)} (hc : chunks.Nodup) {g : List Str}
    (hg : g.Nodup) : (filterMapChunks chunks g).Nodup := by
  rw [filterMapChunks, List.nodup_flatMap]
  refine ⟨fun h _ => hc.filter _, hg.imp fun hne => ?_⟩
  intro c hleft hright
  rw [List.mem_filter, beq_iff_eq] at hleft hright
  exact hne (hleft.2.symm.trans hright.2)

/-- All segments of the module's cycle have been passed, and its own. -/
def Settled (groups : List (List Str)) (rest : List (Chunk δ)) (c : Chunk δ) : Prop :=
  ∀ r ∈ rest, r.home ≠ c.home ∧ r.home ∉ groupOf groups c.home

/-- The module has an import chain, through modules in no cycle, to a member of a cycle that has a
segment in `rest`. -/
inductive Waits (groups : List (List Str)) (deps : List (Str × Str)) (rest : List (Chunk δ)) :
    Str → Prop
  | cycle {x : Str} {g : List Str} {r : Chunk δ} (hg : g ∈ groups) (hx : x ∈ g) (hr : r ∈ rest)
      (hmember : r.home ∈ g) : Waits groups deps rest x
  | through {x y : Str} (hx : groupOf groups x = []) (hdep : (x, y) ∈ deps)
      (hy : Waits groups deps rest y) : Waits groups deps rest x

section Stream

variable (all : List (Chunk δ)) (cycles : Cycles) (deps : List (Str × Str)) (sound : Prop)

/-- What holds between two segments, with `rest` still to come. Where `sound` holds the imports of
the cycles are in order too. -/
structure Inv (rest : List (Chunk δ)) (s : Released δ) : Prop where
  nodup : (s.out.reverse ++ s.postponed).Nodup
  mem : ∀ c, (c ∈ s.out ∨ c ∈ s.postponed) ↔ c ∈ all ∧ Settled cycles.groups rest c
  free : ∀ c ∈ s.postponed, groupOf cycles.groups c.home = []
  emitted : ∀ c ∈ all, c.home ∈ s.emitted ↔ c ∈ s.out
  whole : ∀ g ∈ cycles.groups, (∀ r ∈ rest, r.home ∉ g) →
    filterMapChunks all g <:+: s.out.reverse
  sorted : ∀ c ∈ s.out, (groupOf cycles.groups c.home = [] ∨ sound) → ∀ d ∈ deps, d.1 = c.home →
    d.2 ∉ groupOf cycles.groups c.home → Before (s.out.reverse.map Chunk.home) d.2 c.home

/-- No waiting segment could go out. -/
def Still (s : Released δ) : Prop := ∀ c ∈ s.postponed, ¬ ready deps s.emitted c.home = true

variable {all cycles deps sound}
variable (hhomes : (all.map Chunk.home).Nodup)
  (hdeps : ∀ d ∈ deps, d.1 ∈ all.map Chunk.home ∧ d.2 ∈ all.map Chunk.home)

include hhomes in
theorem eq_of_home {c d : Chunk δ} (hc : c ∈ all) (hd : d ∈ all) (h : c.home = d.home) : c = d :=
  List.inj_on_of_nodup_map hhomes hc hd h

theorem Inv.out_mem {rest : List (Chunk δ)} {s : Released δ}
    (h : Inv all cycles deps sound rest s) {c : Chunk δ} (hc : c ∈ s.out) : c ∈ all :=
  ((h.mem c).1 (.inl hc)).1

theorem Inv.postponed_mem {rest : List (Chunk δ)} {s : Released δ}
    (h : Inv all cycles deps sound rest s) {c : Chunk δ} (hc : c ∈ s.postponed) : c ∈ all :=
  ((h.mem c).1 (.inr hc)).1

include hdeps in
theorem Inv.dep_out {rest : List (Chunk δ)} {s : Released δ}
    (h : Inv all cycles deps sound rest s) {d : Str × Str} (hd : d ∈ deps)
    (hout : d.2 ∈ s.emitted) : d.2 ∈ s.out.reverse.map Chunk.home := by
  obtain ⟨c, hc, hhome⟩ := List.mem_map.1 (hdeps d hd).2
  rw [← hhome] at hout
  exact List.mem_map.2 ⟨c, List.mem_reverse.2 ((h.emitted c hc).1 hout), hhome⟩

include hhomes hdeps in
theorem Inv.before_ready {rest : List (Chunk δ)} {s : Released δ}
    (h : Inv all cycles deps sound rest s) {c : Chunk δ} (hc : c ∈ all) (hnot : c ∉ s.out)
    (hready : ready deps s.emitted c.home = true) {d : Str × Str} (hd : d ∈ deps)
    (hdx : d.1 = c.home) : Before (s.out.reverse.map Chunk.home ++ [c.home]) d.2 c.home := by
  refine before_append (h.dep_out hdeps hd (ready_iff.1 hready d hd hdx)) ?_ List.mem_cons_self
  intro hmem
  obtain ⟨y, hy, hhome⟩ := List.mem_map.1 hmem
  have hyout := List.mem_reverse.1 hy
  exact hnot (eq_of_home hhomes (h.out_mem hyout) hc hhome ▸ hyout)

include hhomes hdeps in
theorem Inv.move {rest : List (Chunk δ)} {emitted : List Str} {front back out : List (Chunk δ)}
    {c : Chunk δ} (h : Inv all cycles deps sound rest ⟨emitted, front ++ c :: back, out⟩)
    (hready : ready deps emitted c.home = true) :
    Inv all cycles deps sound rest ⟨c.home :: emitted, front ++ back, c :: out⟩ := by
  have hwait : c ∈ front ++ c :: back := List.mem_append_right _ List.mem_cons_self
  have hc := h.postponed_mem hwait
  have hperm : (out.reverse ++ (front ++ c :: back)).Perm
      ((c :: out).reverse ++ (front ++ back)) := by
    rw [List.reverse_cons, List.append_assoc]
    exact List.perm_middle.append_left out.reverse
  have hnodup : ((c :: out).reverse ++ (front ++ back)).Nodup := hperm.nodup_iff.1 h.nodup
  have hnot : c ∉ out := fun hmem => by
    have hleft := (List.nodup_append'.1 h.nodup).2.2
    exact hleft (List.mem_reverse.2 hmem) hwait
  constructor
  · exact hnodup
  · intro x
    rw [← h.mem x]
    simp only [List.mem_cons, List.mem_append]
    tauto
  · intro x hx
    refine h.free x ?_
    obtain hx | hx := List.mem_append.1 hx
    · exact List.mem_append_left _ hx
    · exact List.mem_append_right _ (List.mem_cons_of_mem _ hx)
  · intro x hx
    rw [List.mem_cons, List.mem_cons, h.emitted x hx]
    exact or_congr_left ⟨fun heq => eq_of_home hhomes hx hc heq, fun heq => heq ▸ rfl⟩
  · intro g hg hrest
    rw [List.reverse_cons]
    exact (h.whole g hg hrest).trans (List.infix_append' [] _ _)
  · intro x hx hsound d hd hdx hout
    rw [List.reverse_cons, List.map_append]
    obtain rfl | hx := List.mem_cons.1 hx
    · exact h.before_ready hhomes hdeps hc hnot hready hd hdx
    · exact (h.sorted x hx hsound d hd hdx hout).append _

include hhomes hdeps in
theorem Inv.releases {rest : List (Chunk δ)} {s t : Released δ}
    (h : Inv all cycles deps sound rest s) (hr : Releases deps s t) :
    Inv all cycles deps sound rest t ∧ Still deps t ∧ ∃ more, t.out = more ++ s.out := by
  induction hr with
  | done hstill => exact ⟨h, hstill, [], rfl⟩
  | move hready _ ih =>
      obtain ⟨hinv, hstill, more, hmore⟩ := ih (h.move hhomes hdeps hready)
      exact ⟨hinv, hstill, more ++ [_], by rw [hmore, List.append_assoc]; rfl⟩

variable {c : Chunk δ} {rest : List (Chunk δ)} {s : Released δ}

theorem settled_cons {x : Chunk δ} : Settled cycles.groups (c :: rest) x ↔
    (c.home ≠ x.home ∧ c.home ∉ groupOf cycles.groups x.home) ∧ Settled cycles.groups rest x :=
  List.forall_mem_cons

theorem settled_single (hgroup : groupOf cycles.groups c.home = []) {x : Chunk δ} :
    Settled cycles.groups (c :: rest) x ↔ c.home ≠ x.home ∧ Settled cycles.groups rest x := by
  rw [settled_cons, and_congr_left_iff]
  intro _
  refine and_iff_left_of_imp fun _ hmem => ?_
  have hne := List.ne_nil_of_mem hmem
  exact groupOf_eq_nil_iff.1 hgroup _ (mem_groupOf hne).2 hmem

include hhomes in
theorem Inv.mem_single (h : Inv all cycles deps sound (c :: rest) s) (hc : c ∈ all)
    (hrest : ∀ r ∈ rest, r.home ≠ c.home) (hgroup : groupOf cycles.groups c.home = [])
    (x : Chunk δ) : (x = c ∨ x ∈ s.out ∨ x ∈ s.postponed) ↔
      x ∈ all ∧ Settled cycles.groups rest x := by
  rw [h.mem, settled_single hgroup]
  constructor
  · rintro (rfl | ⟨hx, -, hsettled⟩)
    · refine ⟨hc, fun r hr => ⟨hrest r hr, ?_⟩⟩
      rw [hgroup]
      exact List.not_mem_nil
    · exact ⟨hx, hsettled⟩
  · rintro ⟨hx, hsettled⟩
    by_cases heq : c.home = x.home
    · exact .inl (eq_of_home hhomes hx hc heq.symm)
    · exact .inr ⟨hx, heq, hsettled⟩

theorem Inv.not_mem_self (h : Inv all cycles deps sound (c :: rest) s) :
    c ∉ s.out ∧ c ∉ s.postponed := by
  have hnot : ¬ (c ∈ s.out ∨ c ∈ s.postponed) := by
    rw [h.mem]
    exact fun hmem => (hmem.2 c List.mem_cons_self).1 rfl
  exact not_or.1 hnot

theorem whole_single (hgroup : groupOf cycles.groups c.home = []) {g : List Str}
    (hg : g ∈ cycles.groups) (hrest : ∀ r ∈ rest, r.home ∉ g) : ∀ r ∈ c :: rest, r.home ∉ g :=
  List.forall_mem_cons.2 ⟨groupOf_eq_nil_iff.1 hgroup g hg, hrest⟩

include hhomes hdeps in
theorem Inv.out_single (h : Inv all cycles deps sound (c :: rest) s) (hc : c ∈ all)
    (hrest : ∀ r ∈ rest, r.home ≠ c.home) (hgroup : groupOf cycles.groups c.home = [])
    (hready : ready deps s.emitted c.home = true) :
    Inv all cycles deps sound rest ⟨c.home :: s.emitted, s.postponed, c :: s.out⟩ := by
  obtain ⟨hout, hpostponed⟩ := h.not_mem_self
  constructor
  · rw [List.reverse_cons, List.append_assoc]
    refine (List.perm_middle (a := c)).nodup_iff.2 (List.nodup_cons.2 ⟨?_, h.nodup⟩)
    rw [List.mem_append, List.mem_reverse]
    exact not_or.2 ⟨hout, hpostponed⟩
  · intro x
    rw [← h.mem_single hhomes hc hrest hgroup x, List.mem_cons, or_assoc]
  · exact h.free
  · intro x hx
    rw [List.mem_cons, List.mem_cons, h.emitted x hx]
    exact or_congr_left ⟨fun heq => eq_of_home hhomes hx hc heq, fun heq => heq ▸ rfl⟩
  · intro g hg hfree
    rw [List.reverse_cons]
    exact (h.whole g hg (whole_single hgroup hg hfree)).trans (List.infix_append' [] _ _)
  · intro x hx hsound d hd hdx hcross
    rw [List.reverse_cons, List.map_append]
    obtain rfl | hx := List.mem_cons.1 hx
    · exact h.before_ready hhomes hdeps hc hout hready hd hdx
    · exact (h.sorted x hx hsound d hd hdx hcross).append _

include hhomes in
theorem Inv.wait_single (h : Inv all cycles deps sound (c :: rest) s) (hc : c ∈ all)
    (hrest : ∀ r ∈ rest, r.home ≠ c.home) (hgroup : groupOf cycles.groups c.home = []) :
    Inv all cycles deps sound rest ⟨s.emitted, s.postponed ++ [c], s.out⟩ := by
  obtain ⟨hout, hpostponed⟩ := h.not_mem_self
  constructor
  · rw [← List.append_assoc]
    refine (List.perm_append_singleton c _).nodup_iff.2 (List.nodup_cons.2 ⟨?_, h.nodup⟩)
    rw [List.mem_append, List.mem_reverse]
    exact not_or.2 ⟨hout, hpostponed⟩
  · intro x
    rw [← h.mem_single hhomes hc hrest hgroup x, List.mem_append, List.mem_singleton]
    tauto
  · intro x hx
    obtain hx | hx := List.mem_append.1 hx
    · exact h.free x hx
    · rwa [List.mem_singleton.1 hx]
  · exact h.emitted
  · exact fun g hg hfree => h.whole g hg (whole_single hgroup hg hfree)
  · exact h.sorted

theorem groupOf_member {x : Str} (hx : c.home ∈ groupOf cycles.groups x) :
    groupOf cycles.groups x = groupOf cycles.groups c.home :=
  (groupOf_eq cycles.distinct (mem_groupOf (List.ne_nil_of_mem hx)).2 hx).symm

theorem Inv.pass (h : Inv all cycles deps sound (c :: rest) s) {r : Chunk δ} (hr : r ∈ rest)
    (hmember : r.home ∈ groupOf cycles.groups c.home) : Inv all cycles deps sound rest s := by
  constructor
  · exact h.nodup
  · intro x
    rw [h.mem, settled_cons]
    refine and_congr_right fun _ => and_iff_right_of_imp fun hsettled => ⟨fun heq => ?_, fun hx => ?_⟩
    · rw [heq] at hmember
      exact (hsettled r hr).2 hmember
    · rw [← groupOf_member hx] at hmember
      exact (hsettled r hr).2 hmember
  · exact h.free
  · exact h.emitted
  · intro g hg hfree
    refine h.whole g hg (List.forall_mem_cons.2 ⟨fun hcg => ?_, hfree⟩)
    rw [groupOf_eq cycles.distinct hg hcg] at hmember
    exact hfree r hr hmember
  · exact h.sorted

theorem Inv.out_cycle (h : Inv all cycles deps sound (c :: rest) s) (hall : all.Nodup)
    (hgroup : groupOf cycles.groups c.home ≠ [])
    (hlast : ∀ r ∈ rest, r.home ∉ groupOf cycles.groups c.home)
    (hsound : sound → ∀ d ∈ deps, d.1 ∈ groupOf cycles.groups c.home →
      d.2 ∉ groupOf cycles.groups c.home → d.2 ∈ s.out.reverse.map Chunk.home) :
    Inv all cycles deps sound rest ⟨groupOf cycles.groups c.home ++ s.emitted, s.postponed,
      (filterMapChunks all (groupOf cycles.groups c.home)).reverse ++ s.out⟩ := by
  obtain ⟨hself, hg⟩ := mem_groupOf hgroup
  have hmember : ∀ {x : Chunk δ}, x.home ∈ groupOf cycles.groups c.home →
      groupOf cycles.groups x.home = groupOf cycles.groups c.home := groupOf_eq cycles.distinct hg
  have hnot : ∀ {x : Chunk δ}, x.home ∈ groupOf cycles.groups c.home →
      ¬ (x ∈ s.out ∨ x ∈ s.postponed) := by
    intro x hx
    rw [h.mem]
    rintro ⟨-, hsettled⟩
    refine (hsettled c List.mem_cons_self).2 ?_
    rwa [hmember hx]
  generalize hgen : groupOf cycles.groups c.home = g at *
  have hgnodup : g.Nodup := (List.nodup_flatten.1 cycles.distinct).1 g hg
  constructor
  · rw [List.reverse_append, List.reverse_reverse, List.append_assoc]
    have hperm : (s.out.reverse ++ (filterMapChunks all g ++ s.postponed)).Perm
        (filterMapChunks all g ++ (s.out.reverse ++ s.postponed)) := by
      rw [← List.append_assoc, ← List.append_assoc]
      exact List.perm_append_comm.append_right _
    rw [hperm.nodup_iff, List.nodup_append']
    refine ⟨nodup_filterMapChunks hall hgnodup, h.nodup, fun x hx hx' => ?_⟩
    rw [List.mem_append, List.mem_reverse] at hx'
    exact hnot (mem_filterMapChunks.1 hx).2 hx'
  · intro x
    rw [List.mem_append, List.mem_reverse, mem_filterMapChunks, or_assoc, h.mem, settled_cons]
    by_cases hx : x.home ∈ g
    · have hsettled : Settled cycles.groups rest x := fun r hr =>
        ⟨fun heq => hlast r hr (heq ▸ hx), by rw [hmember hx]; exact hlast r hr⟩
      exact ⟨fun hmem => ⟨hmem.elim And.left And.left, hsettled⟩, fun hmem => .inl ⟨hmem.1, hx⟩⟩
    · have hfar : c.home ≠ x.home ∧ c.home ∉ groupOf cycles.groups x.home := by
        refine ⟨fun heq => hx (heq ▸ hself), fun hmem => hx ?_⟩
        rw [← hgen, ← groupOf_member hmem]
        exact (mem_groupOf (List.ne_nil_of_mem hmem)).1
      rw [or_iff_right fun hmem => hx hmem.2, and_iff_right hfar]
  · exact h.free
  · intro x hx
    rw [List.mem_append, List.mem_append, List.mem_reverse, mem_filterMapChunks, h.emitted x hx,
      and_iff_right hx]
  · intro g' hg' hfree
    rw [List.reverse_append, List.reverse_reverse]
    by_cases heq : c.home ∈ g'
    · rw [← groupOf_eq cycles.distinct hg' heq, hgen]
      exact (List.suffix_append _ _).isInfix
    · exact (h.whole g' hg' (List.forall_mem_cons.2 ⟨heq, hfree⟩)).trans
        (List.prefix_append _ _).isInfix
  · intro x hx hq d hd hdx hcross
    rw [List.reverse_append, List.reverse_reverse, List.map_append]
    obtain hx | hx := List.mem_append.1 hx
    · have hxg := (mem_filterMapChunks.1 (List.mem_reverse.1 hx)).2
      have hxmem := (mem_filterMapChunks.1 (List.mem_reverse.1 hx)).1
      rw [hmember hxg] at hq hcross
      refine before_append (hsound (hq.resolve_left hgroup) d hd (hdx ▸ hxg) hcross) ?_
        (List.mem_map_of_mem (List.mem_reverse.1 hx))
      intro hmem
      obtain ⟨y, hy, hhome⟩ := List.mem_map.1 hmem
      exact hnot (hhome ▸ hxg) (.inl (List.mem_reverse.1 hy))
    · exact (h.sorted x hx hq d hd hdx hcross).append _

omit hdeps in
theorem Inv.not_out_of_waits (h : Inv all cycles deps sound rest s) {x : Str}
    (hx : Waits cycles.groups deps rest x) : ∀ d ∈ s.out, d.home ≠ x := by
  induction hx with
  | cycle hg hx hr hmember =>
      rintro d hd rfl
      have hsettled := ((h.mem d).1 (.inl hd)).2
      rw [← groupOf_eq cycles.distinct hg hx] at hmember
      exact (hsettled _ hr).2 hmember
  | through hx hdep _ ih =>
      rintro d hd rfl
      have hbefore := h.sorted d hd (.inl hx) _ hdep rfl (by rw [hx]; exact List.not_mem_nil)
      obtain ⟨e, he, hhome⟩ := List.mem_map.1 hbefore.mem
      exact ih e (List.mem_reverse.1 he) hhome

include hhomes hdeps in
theorem Inv.waits_of_not_out {past : List (Chunk δ)} (h : Inv all cycles deps sound rest s)
    (hstill : Still deps s) (horder : InOrder cycles.groups deps all) (hall : all = past ++ rest)
    {n : Nat} : ∀ {d : Chunk δ}, d ∈ all → (all.map Chunk.home).idxOf d.home = n →
      d.home ∉ rest.map Chunk.home → d ∉ s.out → Waits cycles.groups deps rest d.home := by
  induction n using Nat.strongRecOn with
  | _ n ih =>
    intro d hd hidx hpast hout
    by_cases hsettled : Settled cycles.groups rest d
    · have hwait : d ∈ s.postponed := ((h.mem d).2 ⟨hd, hsettled⟩).resolve_left hout
      have hsingle := h.free d hwait
      have hready := hstill d hwait
      rw [ready_iff] at hready
      push Not at hready
      obtain ⟨e, he, hed, hnot⟩ := hready
      have hbefore := horder e he (by
        rintro ⟨g, hg, hleft, -⟩
        exact groupOf_eq_nil_iff.1 hsingle g hg (hed ▸ hleft))
      obtain ⟨f, hf, hfe⟩ := List.mem_map.1 (hdeps e he).2
      have hlt : (all.map Chunk.home).idxOf f.home < n := by
        rw [hfe, ← hidx, ← hed]
        exact hbefore.2
      have hfpast : f.home ∉ rest.map Chunk.home := by
        intro hmem
        have hdpast : d.home ∈ past.map Chunk.home := by
          have hdall := List.mem_map_of_mem (f := Chunk.home) hd
          rw [hall, List.map_append, List.mem_append] at hdall
          exact hdall.resolve_right hpast
        have hfnot : f.home ∉ past.map Chunk.home := by
          rw [hall, List.map_append] at hhomes
          exact fun hmem' => (List.nodup_append'.1 hhomes).2.2 hmem' hmem
        rw [hall, List.map_append] at hbefore
        rw [hed, ← hfe] at hbefore
        exact not_before_append hfnot hdpast _ hbefore
      have hfout : f ∉ s.out := by
        rw [← h.emitted f hf, hfe]
        exact hnot
      have hwaits := ih _ hlt hf rfl hfpast hfout
      rw [hfe] at hwaits
      have hdep : (d.home, e.2) ∈ deps := by
        rw [← hed]
        exact he
      exact .through hsingle hdep hwaits
    · unfold Settled at hsettled
      push Not at hsettled
      obtain ⟨r, hr, hmember⟩ := hsettled
      have hne : r.home ≠ d.home := fun heq => hpast (heq ▸ List.mem_map_of_mem hr)
      obtain ⟨hself, hg⟩ := mem_groupOf (List.ne_nil_of_mem (hmember hne))
      exact .cycle hg hself hr (hmember hne)

/-- A cycle, the last of whose segments is `c`, has an import that leaves it and waits for a cycle
that is not complete before `c`. -/
def LateAt (groups : List (List Str)) (deps : List (Str × Str)) (c : Chunk δ)
    (rest : List (Chunk δ)) : Prop :=
  groupOf groups c.home ≠ [] ∧ (∀ r ∈ rest, r.home ∉ groupOf groups c.home) ∧
    ∃ d ∈ deps, d.1 ∈ groupOf groups c.home ∧ d.2 ∉ groupOf groups c.home ∧
      Waits groups deps (c :: rest) d.2

/-- Some cycle imports, directly or through modules in no cycle, another that ends behind it. -/
def Late (groups : List (List Str)) (deps : List (Str × Str)) (all : List (Chunk δ)) : Prop :=
  ∃ past c rest, all = past ++ c :: rest ∧ LateAt groups deps c rest

include hhomes hdeps in
theorem Inv.imports_out {past : List (Chunk δ)} (h : Inv all cycles deps sound (c :: rest) s)
    (hstill : Still deps s) (horder : InOrder cycles.groups deps all)
    (hall : all = past ++ c :: rest) (hgroup : groupOf cycles.groups c.home ≠ [])
    (hlast : ∀ r ∈ rest, r.home ∉ groupOf cycles.groups c.home)
    (hlate : ¬ LateAt cycles.groups deps c rest) {d : Str × Str} (hd : d ∈ deps)
    (hinner : d.1 ∈ groupOf cycles.groups c.home) (houter : d.2 ∉ groupOf cycles.groups c.home) :
    d.2 ∈ s.out.reverse.map Chunk.home := by
  obtain ⟨hself, hg⟩ := mem_groupOf hgroup
  obtain ⟨e, he, hhome⟩ := List.mem_map.1 (hdeps d hd).2
  by_contra hout
  have heout : e ∉ s.out := fun hmem =>
    hout (List.mem_map.2 ⟨e, List.mem_reverse.2 hmem, hhome⟩)
  have hpast : e.home ∉ (c :: rest).map Chunk.home := by
    rw [hhome, List.map_cons, List.mem_cons]
    rintro (heq | hmem)
    · exact houter (heq ▸ hself)
    · have hbefore := horder d hd (by
        rintro ⟨g, hg', hleft, hright⟩
        rw [← groupOf_eq cycles.distinct hg' hleft, groupOf_eq cycles.distinct hg hinner] at hright
        exact houter hright)
      have hsplit : all.map Chunk.home = (past ++ [c]).map Chunk.home ++ rest.map Chunk.home := by
        rw [hall, ← List.map_append, List.append_assoc]
        rfl
      have hfar : d.1 ∉ rest.map Chunk.home := by
        intro hmem'
        obtain ⟨r, hr, hrd⟩ := List.mem_map.1 hmem'
        exact hlast r hr (hrd ▸ hinner)
      have hnear : d.1 ∈ (past ++ [c]).map Chunk.home := by
        have hdall := (hdeps d hd).1
        rw [hsplit, List.mem_append] at hdall
        exact hdall.resolve_right hfar
      have hnot : d.2 ∉ (past ++ [c]).map Chunk.home := by
        rw [hsplit] at hhomes
        exact fun hmem' => (List.nodup_append'.1 hhomes).2.2 hmem' hmem
      rw [hsplit] at hbefore
      exact not_before_append hnot hnear _ hbefore
  have hwaits := h.waits_of_not_out hhomes hdeps hstill horder hall he rfl hpast heout
  rw [hhome] at hwaits
  exact hlate ⟨hgroup, hlast, d, hd, hinner, houter, hwaits⟩

include hhomes hdeps in
theorem orderChunks_step {past : List (Chunk δ)} (h : Inv all cycles deps sound (c :: rest) s)
    (hstill : Still deps s) (hall : all = past ++ c :: rest)
    (hsound : sound → InOrder cycles.groups deps all ∧ ¬ Late cycles.groups deps all) :
    ∃ t, orderChunks all cycles.groups deps (c :: rest) s =
        orderChunks all cycles.groups deps rest t ∧
      Inv all cycles deps sound rest t ∧ Still deps t ∧ (∃ more, t.out = more ++ s.out) ∧
      (groupOf cycles.groups c.home ≠ [] →
        (∀ r ∈ rest, r.home ∉ groupOf cycles.groups c.home) → ∃ more, t.out = more ++
          ((filterMapChunks all (groupOf cycles.groups c.home)).reverse ++ s.out)) := by
  have hc : c ∈ all := hall ▸ List.mem_append_right _ List.mem_cons_self
  have hrest : ∀ r ∈ rest, r.home ≠ c.home := by
    intro r hr heq
    rw [hall, List.map_append, List.map_cons] at hhomes
    have hnodup := (List.nodup_append'.1 hhomes).2.1
    exact (List.nodup_cons.1 hnodup).1 (heq ▸ List.mem_map_of_mem hr)
  by_cases hgroup : groupOf cycles.groups c.home = []
  · by_cases hready : ready deps s.emitted c.home = true
    · have hrel := release_releases deps (c.home :: s.emitted) s.postponed (c :: s.out) []
        fun d hd => absurd hd List.not_mem_nil
      obtain ⟨hinv, hstill', more, hmore⟩ :=
        (h.out_single hhomes hdeps hc hrest hgroup hready).releases hhomes hdeps hrel
      refine ⟨_, by rw [orderChunks, if_pos hgroup, if_pos hready], hinv, hstill',
        ⟨more ++ [c], by rw [hmore, List.append_assoc]; rfl⟩, fun hne => absurd hgroup hne⟩
    · refine ⟨_, by rw [orderChunks, if_pos hgroup, if_neg hready],
        h.wait_single hhomes hc hrest hgroup, ?_, ⟨[], rfl⟩, fun hne => absurd hgroup hne⟩
      intro d hd
      obtain hd | hd := List.mem_append.1 hd
      · exact hstill d hd
      · rwa [List.mem_singleton.1 hd]
  · by_cases hmore : (rest.any fun r => (groupOf cycles.groups c.home).contains r.home) = true
    · obtain ⟨r, hr, hmember⟩ := List.any_eq_true.1 hmore
      rw [List.contains_iff_mem] at hmember
      exact ⟨s, by rw [orderChunks, if_neg hgroup, if_pos hmore], h.pass hr hmember, hstill,
        ⟨[], rfl⟩, fun _ hlast => absurd hmember (hlast r hr)⟩
    · have hlast : ∀ r ∈ rest, r.home ∉ groupOf cycles.groups c.home := fun r hr hmember =>
        hmore (List.any_eq_true.2 ⟨r, hr, List.contains_iff_mem.2 hmember⟩)
      have hrel := release_releases deps (groupOf cycles.groups c.home ++ s.emitted) s.postponed
        ((filterMapChunks all (groupOf cycles.groups c.home)).reverse ++ s.out) []
        fun d hd => absurd hd List.not_mem_nil
      have hcycle := h.out_cycle (List.Nodup.of_map _ hhomes) hgroup hlast fun hq d hd hin hout =>
        h.imports_out hhomes hdeps hstill (hsound hq).1 hall hgroup hlast
          (fun hlate => (hsound hq).2 ⟨past, c, rest, hall, hlate⟩) hd hin hout
      obtain ⟨hinv, hstill', more, hout⟩ := hcycle.releases hhomes hdeps hrel
      exact ⟨_, by rw [orderChunks, if_neg hgroup, if_neg hmore], hinv, hstill',
        ⟨more ++ (filterMapChunks all (groupOf cycles.groups c.home)).reverse,
          by rw [hout, List.append_assoc]⟩, fun _ _ => ⟨more, hout⟩⟩

include hhomes hdeps in
theorem orderChunks_run
    (hsound : sound → InOrder cycles.groups deps all ∧ ¬ Late cycles.groups deps all) :
    ∀ {rest past : List (Chunk δ)} {s : Released δ}, all = past ++ rest →
      Inv all cycles deps sound rest s → Still deps s →
      ∃ t, orderChunks all cycles.groups deps rest s = t.out.reverse ++ t.postponed ∧
        Inv all cycles deps sound [] t ∧ Still deps t ∧ ∃ more, t.out = more ++ s.out
  | [], _, s, _, h, hstill => ⟨s, rfl, h, hstill, [], rfl⟩
  | c :: rest, past, s, hall, h, hstill => by
      obtain ⟨t, hrun, hinv, hstill', ⟨more, hmore⟩, -⟩ :=
        orderChunks_step hhomes hdeps h hstill hall hsound
      have hnext : all = (past ++ [c]) ++ rest := by rw [hall, List.append_assoc]; rfl
      obtain ⟨u, hrun', hinv', hlast, more', hmore'⟩ := orderChunks_run hsound hnext hinv hstill'
      exact ⟨u, hrun.trans hrun', hinv', hlast, more' ++ more, by
        rw [hmore', hmore, List.append_assoc]⟩

include hhomes hdeps in
theorem not_inOrder_of_late (hsound : ¬ sound) : ∀ {rest past : List (Chunk δ)} {s : Released δ},
    all = past ++ rest → Inv all cycles deps sound rest s → Still deps s →
    (∃ front c back, rest = front ++ c :: back ∧ LateAt cycles.groups deps c back) →
    ¬ InOrder cycles.groups deps (orderChunks all cycles.groups deps rest s)
  | [], _, _, _, _, _, ⟨front, c, back, hsplit, _⟩ =>
      absurd hsplit.symm (List.append_ne_nil_of_right_ne_nil front (List.cons_ne_nil c back))
  | c :: rest, past, s, hall, h, hstill, ⟨front, e, back, hsplit, hlate⟩ => by
      have hvacuous : sound → InOrder cycles.groups deps all ∧ ¬ Late cycles.groups deps all :=
        fun hq => absurd hq hsound
      obtain ⟨t, hrun, hinv, hstill', -, hblock⟩ :=
        orderChunks_step hhomes hdeps h hstill hall hvacuous
      have hnext : all = (past ++ [c]) ++ rest := by rw [hall, List.append_assoc]; rfl
      rw [hrun]
      cases front with
      | cons f front =>
          have htail := (List.cons.inj hsplit).2
          exact not_inOrder_of_late hsound hnext hinv hstill' ⟨front, e, back, htail, hlate⟩
      | nil =>
          obtain ⟨rfl, rfl⟩ := List.cons.inj hsplit
          obtain ⟨hgroup, hlast, d, hd, hinner, houter, hwaits⟩ := hlate
          obtain ⟨more, hout⟩ := hblock hgroup hlast
          obtain ⟨u, hrun', -, -, more', hmore'⟩ :=
            orderChunks_run hhomes hdeps hvacuous hnext hinv hstill'
          obtain ⟨hself, hg⟩ := mem_groupOf hgroup
          intro horder
          have hbefore := horder d hd (by
            rintro ⟨g, hg', hleft, hright⟩
            rw [← groupOf_eq cycles.distinct hg' hleft, groupOf_eq cycles.distinct hg hinner]
              at hright
            exact houter hright)
          have hresult : orderChunks all cycles.groups deps rest t =
              (s.out.reverse ++ filterMapChunks all (groupOf cycles.groups c.home)) ++
                (more.reverse ++ (more'.reverse ++ u.postponed)) := by
            rw [hrun', hmore', hout]
            simp only [List.reverse_append, List.reverse_reverse, List.append_assoc]
          rw [hresult, List.map_append] at hbefore
          refine not_before_append ?_ ?_ _ hbefore
          · intro hmem
            obtain ⟨x, hx, hhome⟩ := List.mem_map.1 hmem
            obtain hx | hx := List.mem_append.1 hx
            · exact h.not_out_of_waits hwaits x (List.mem_reverse.1 hx) hhome
            · exact houter (hhome ▸ (mem_filterMapChunks.1 hx).2)
          · obtain ⟨x, hx, hhome⟩ := List.mem_map.1 (hdeps d hd).1
            exact List.mem_map.2 ⟨x, List.mem_append_right _
              (mem_filterMapChunks.2 ⟨hx, hhome ▸ hinner⟩), hhome⟩

theorem inv_start : Inv all cycles deps sound all ⟨[], [], []⟩ where
  nodup := List.nodup_nil
  mem := fun c => iff_of_false (not_or.2 ⟨List.not_mem_nil, List.not_mem_nil⟩)
    fun h => (h.2 c h.1).1 rfl
  free := fun _ hc => absurd hc List.not_mem_nil
  emitted := fun _ _ => iff_of_false List.not_mem_nil List.not_mem_nil
  whole := fun g _ hfree => by
    have hnone : filterMapChunks all g = [] := by
      rw [List.eq_nil_iff_forall_not_mem]
      exact fun c hc => hfree c (mem_filterMapChunks.1 hc).1 (mem_filterMapChunks.1 hc).2
    rw [hnone]
    exact List.nil_infix
  sorted := fun _ hc => absurd hc List.not_mem_nil

theorem still_start : Still deps (⟨[], [], []⟩ : Released δ) :=
  fun _ hc => absurd hc List.not_mem_nil

theorem not_waits_nil {x : Str} : ¬ Waits cycles.groups deps ([] : List (Chunk δ)) x := by
  intro h
  induction h with
  | cycle _ _ hr _ => exact List.not_mem_nil hr
  | through _ _ _ ih => exact ih

include hhomes hdeps in
theorem orderChunks_blocks :
    (orderChunks all cycles.groups deps all ⟨[], [], []⟩).Perm all ∧
      ∀ g ∈ cycles.groups, filterMapChunks all g <:+:
        orderChunks all cycles.groups deps all ⟨[], [], []⟩ := by
  obtain ⟨t, hrun, hinv, -, -⟩ := orderChunks_run hhomes hdeps
    (fun hq : False => hq.elim) (List.nil_append all).symm inv_start still_start
  rw [hrun]
  constructor
  · refine (List.perm_ext_iff_of_nodup hinv.nodup (List.Nodup.of_map _ hhomes)).2 fun c => ?_
    rw [List.mem_append, List.mem_reverse, hinv.mem]
    exact and_iff_left fun r hr => absurd hr List.not_mem_nil
  · exact fun g hg => (hinv.whole g hg fun r hr => absurd hr List.not_mem_nil).trans
      (List.prefix_append _ _).isInfix

include hhomes hdeps in
theorem orderChunks_inOrder_iff (horder : InOrder cycles.groups deps all) :
    InOrder cycles.groups deps (orderChunks all cycles.groups deps all ⟨[], [], []⟩) ↔
      ¬ Late cycles.groups deps all := by
  constructor
  · rintro hout ⟨past, c, rest, hall, hlate⟩
    exact not_inOrder_of_late hhomes hdeps not_false (List.nil_append all).symm inv_start
      still_start ⟨past, c, rest, hall, hlate⟩ hout
  · intro hlate
    obtain ⟨t, hrun, hinv, hstill, -⟩ := orderChunks_run hhomes hdeps
      (fun _ : True => ⟨horder, hlate⟩) (List.nil_append all).symm inv_start still_start
    have hout : ∀ c ∈ all, c ∈ t.out := by
      intro c hc
      by_contra hnot
      exact not_waits_nil (hinv.waits_of_not_out hhomes hdeps hstill horder
        (List.append_nil all).symm hc rfl List.not_mem_nil hnot)
    have hnone : t.postponed = [] := by
      rw [List.eq_nil_iff_forall_not_mem]
      intro c hc
      have hdisjoint := (List.nodup_append'.1 hinv.nodup).2.2
      exact hdisjoint (List.mem_reverse.2 (hout c (hinv.postponed_mem hc))) hc
    rw [hrun, hnone, List.append_nil]
    intro d hd hcross
    obtain ⟨c, hc, hhome⟩ := List.mem_map.1 (hdeps d hd).1
    rw [← hhome]
    refine hinv.sorted c (hout c hc) (.inr trivial) d hd hhome.symm fun hmem => hcross ?_
    obtain ⟨hself, hg⟩ := mem_groupOf (List.ne_nil_of_mem hmem)
    exact ⟨_, hg, hhome ▸ hself, hmem⟩

end Stream

/-- Segments of distinct modules whose sizes add up to the declarations. -/
structure Program (δ : Type) where
  segs : List ImportSeg
  decls : List δ
  distinct : (segs.map ImportSeg.home).Nodup
  sizes : (segs.map ImportSeg.size).sum = decls.length

def Program.chunks (p : Program δ) : List (Chunk δ) := chunksOf p.segs p.decls

theorem chunksOf_home (segs : List ImportSeg) (decls : List δ) :
    (chunksOf segs decls).map Chunk.home = segs.map ImportSeg.home := by
  induction segs generalizing decls with
  | nil => rfl
  | cons s segs ih => rw [chunksOf, List.map_cons, List.map_cons, ih]

theorem chunksOf_segs {segs : List ImportSeg} {decls : List δ}
    (h : (segs.map ImportSeg.size).sum ≤ decls.length) :
    (chunksOf segs decls).map (fun c => (⟨c.home, c.decls.length⟩ : ImportSeg)) = segs := by
  induction segs generalizing decls with
  | nil => rfl
  | cons s segs ih =>
      rw [List.map_cons, List.sum_cons] at h
      rw [chunksOf, List.map_cons, ih (by rw [List.length_drop]; omega), List.length_take,
        Nat.min_eq_left (by omega)]

theorem chunksOf_layout (chunks : List (Chunk δ)) :
    chunksOf (chunks.map fun c => ⟨c.home, c.decls.length⟩) (chunks.flatMap Chunk.decls) =
      chunks := by
  induction chunks with
  | nil => rfl
  | cons c chunks ih =>
      rw [List.map_cons, List.flatMap_cons, chunksOf, List.take_left, List.drop_left, ih]

theorem mem_homeDeps {edges : List (Str × Str)} {mods : List ModuleEntry} {homes : List Str}
    {d : Str × Str} (hd : d ∈ homeDeps edges mods homes) : d.1 ∈ homes ∧ d.2 ∈ homes := by
  obtain ⟨e, -, hmem⟩ := List.mem_flatMap.1 hd
  split_ifs at hmem with hkept
  · rw [List.mem_singleton.1 hmem]
    exact hkept.2
  · exact absurd hmem List.not_mem_nil

/-- The imports between the modules of a program. -/
def Program.deps (p : Program δ) (edges : List (Str × Str)) (mods : List ModuleEntry) :
    List (Str × Str) :=
  homeDeps edges mods (p.chunks.map Chunk.home)

/-- The chunks of the reordered stream. -/
def Program.reordered (p : Program δ) (edges : List (Str × Str)) (mods : List ModuleEntry)
    (cycles : Cycles) : List (Chunk δ) :=
  chunksOf (cyclesReorder edges mods cycles.groups p.segs p.decls).1
    (cyclesReorder edges mods cycles.groups p.segs p.decls).2

/-- The reordered stream has every segment once, with its declarations; every cycle stands together
in its own order; and imports that went to earlier segments still do. -/
structure Sound (p : Program δ) (edges : List (Str × Str)) (mods : List ModuleEntry)
    (cycles : Cycles) : Prop where
  segs : (cyclesReorder edges mods cycles.groups p.segs p.decls).1.Perm p.segs
  chunks : (p.reordered edges mods cycles).Perm p.chunks
  whole : ∀ g ∈ cycles.groups, filterMapChunks p.chunks g <:+: p.reordered edges mods cycles
  ordered : InOrder cycles.groups (p.deps edges mods) p.chunks →
    InOrder cycles.groups (p.deps edges mods) (p.reordered edges mods cycles)

/-- The reordering is sound exactly when no cycle of an ordered program imports, directly or through
modules in no cycle, a cycle that ends behind it. -/
theorem sound_iff (p : Program δ) (edges : List (Str × Str)) (mods : List ModuleEntry)
    (cycles : Cycles) : Sound p edges mods cycles ↔
      (InOrder cycles.groups (p.deps edges mods) p.chunks →
        ¬ Late cycles.groups (p.deps edges mods) p.chunks) := by
  have hhomes : (p.chunks.map Chunk.home).Nodup := by
    rw [Program.chunks, chunksOf_home]
    exact p.distinct
  have hdeps : ∀ d ∈ p.deps edges mods, d.1 ∈ p.chunks.map Chunk.home ∧
      d.2 ∈ p.chunks.map Chunk.home := fun _ hd => mem_homeDeps hd
  have hreordered : p.reordered edges mods cycles =
      orderChunks p.chunks cycles.groups (p.deps edges mods) p.chunks ⟨[], [], []⟩ :=
    chunksOf_layout _
  obtain ⟨hperm, hwhole⟩ := @orderChunks_blocks _ _ cycles _ hhomes hdeps
  constructor
  · intro h horder
    have hout := h.ordered horder
    rw [hreordered] at hout
    exact (orderChunks_inOrder_iff hhomes hdeps horder).1 hout
  · intro hlate
    refine ⟨?_, hreordered ▸ hperm, fun g hg => hreordered ▸ hwhole g hg, fun horder => ?_⟩
    · have hsegs := hperm.map fun c : Chunk δ => (⟨c.home, c.decls.length⟩ : ImportSeg)
      rwa [Program.chunks, chunksOf_segs (Nat.le_of_eq p.sizes)] at hsegs
    · rw [hreordered]
      exact (orderChunks_inOrder_iff hhomes hdeps horder).2 (hlate horder)

/-- Modules 1 and 2 import each other, and so do 3 and 4; 4 imports 1. -/
def interleaved : Program Nat where
  segs := [⟨[1], 1⟩, ⟨[3], 1⟩, ⟨[4], 1⟩, ⟨[2], 1⟩]
  decls := [10, 30, 40, 20]
  distinct := by decide
  sizes := rfl

def interleavedEdges : List (Str × Str) :=
  [([1], [2]), ([2], [1]), ([3], [4]), ([4], [3]), ([4], [1])]

def interleavedMods : List ModuleEntry :=
  [⟨[1], [1]⟩, ⟨[2], [2]⟩, ⟨[3], [3]⟩, ⟨[4], [4]⟩]

def interleavedCycles : Cycles := ⟨[[[1], [2]], [[3], [4]]], by decide⟩

/-- The second cycle ends first, and goes out before the module that it imports. -/
theorem not_sound_interleaved :
    ¬ Sound interleaved interleavedEdges interleavedMods interleavedCycles := by
  rw [sound_iff]
  intro h
  refine h ?_ ⟨[⟨[1], [10]⟩, ⟨[3], [30]⟩], ⟨[4], [40]⟩, [⟨[2], [20]⟩], rfl, by decide, by decide,
    ([4], [1]), by decide, by decide, by decide, ?_⟩
  · unfold InOrder Before
    decide
  · exact .cycle (g := [[1], [2]]) (r := ⟨[2], [20]⟩) (by decide) (by decide)
      (List.mem_cons_of_mem _ List.mem_cons_self) (by decide)

end Kaikai.ImportCycles
