import Kaikai.RegexpMatch

namespace Kaikai.RegexpCaptures

open Relation
open Kaikai.Fragment
open Kaikai.Regexp
open Kaikai.RegexpLanguage
open Kaikai.RegexpMatch
open Kaikai.RegexpSyntax
open Kaikai.RegexpText
open Kaikai.Str

mutual

/-- The ids of the capture groups of a pattern. -/
def groupIds : RxAst → List Int
  | .rxConcat xs => groupIdsAll xs
  | .rxAlt xs => groupIdsAll xs
  | .rxStar x => groupIds x
  | .rxPlus x => groupIds x
  | .rxOpt x => groupIds x
  | .rxRepeat x _ _ => groupIds x
  | .rxGroup id x => id :: groupIds x
  | _ => []

def groupIdsAll : List RxAst → List Int
  | [] => []
  | x :: xs => groupIds x ++ groupIdsAll xs

end

/-- `update` on the first capture of a group, which is `fresh` when there is none. -/
def putCapture (gid : Int) (update : Capture → Capture) (fresh : Capture) :
    List Capture → List Capture
  | [] => [fresh]
  | c :: rest => if c.groupId = gid then update c :: rest else c :: putCapture gid update fresh rest

theorem rxCapsRebuild_eq (before : List Capture) :
    ∀ tail, rxCapsRebuild before tail = before.reverse ++ tail := by
  induction before with
  | nil => exact fun _ => rfl
  | cons c before ih =>
      intro tail
      rw [rxCapsRebuild, ih, List.reverse_cons, List.append_assoc, List.singleton_append]

theorem rxCaptureSetLoop_eq (gid startV endV : Int) (isOpen : Bool) (caps : List Capture) :
    ∀ before, rxCaptureSetLoop caps gid startV endV isOpen before = before.reverse ++
      putCapture gid (fun c => if isOpen then ⟨gid, startV, c.stop⟩ else ⟨gid, c.start, endV⟩)
        (if isOpen then ⟨gid, startV, endV⟩ else ⟨gid, -1, endV⟩) caps := by
  induction caps with
  | nil =>
      intro before
      rw [rxCaptureSetLoop, rxCapsRebuild_eq, putCapture]
      split <;> rfl
  | cons c caps ih =>
      intro before
      rw [rxCaptureSetLoop, putCapture]
      split
      · rw [rxCapsRebuild_eq]
      · rw [ih, List.reverse_cons, List.append_assoc, List.singleton_append]

theorem rxCaptureSet_open (caps : List Capture) (gid pos : Int) :
    rxCaptureSet caps gid pos (-1) true =
      putCapture gid (fun c => ⟨gid, pos, c.stop⟩) ⟨gid, pos, -1⟩ caps :=
  rxCaptureSetLoop_eq gid pos (-1) true caps []

theorem rxCaptureClose_eq (caps : List Capture) (gid pos : Int) : rxCaptureClose caps gid pos =
    putCapture gid (fun c => ⟨gid, c.start, pos⟩) ⟨gid, -1, pos⟩ caps :=
  rxCaptureSetLoop_eq gid (-1) pos false caps []

/-- No group has two captures. -/
def Distinct (caps : List Capture) : Prop := (caps.map Capture.groupId).Nodup

theorem mem_putCapture {gid : Int} {update : Capture → Capture} {fresh c : Capture}
    {caps : List Capture} (hd : Distinct caps) (h : c ∈ putCapture gid update fresh caps) :
    (c ∈ caps ∧ c.groupId ≠ gid) ∨ (∃ c0 ∈ caps, c0.groupId = gid ∧ c = update c0) ∨
      (c = fresh ∧ ∀ c0 ∈ caps, c0.groupId ≠ gid) := by
  induction caps with
  | nil => exact .inr (.inr ⟨List.mem_singleton.1 h, by simp⟩)
  | cons c1 caps ih =>
      rw [Distinct, List.map_cons, List.nodup_cons] at hd
      rw [putCapture] at h
      split at h
      · next heq =>
          rcases List.mem_cons.1 h with rfl | h
          · exact .inr (.inl ⟨c1, List.mem_cons_self, heq, rfl⟩)
          · refine .inl ⟨List.mem_cons_of_mem _ h, fun hc => hd.1 ?_⟩
            rw [heq, ← hc]
            exact List.mem_map_of_mem h
      · next hne =>
          rcases List.mem_cons.1 h with rfl | h
          · exact .inl ⟨List.mem_cons_self, hne⟩
          · rcases ih hd.2 h with ⟨hc, hg⟩ | ⟨c0, hc0, hg⟩ | ⟨rfl, hnone⟩
            · exact .inl ⟨List.mem_cons_of_mem _ hc, hg⟩
            · exact .inr (.inl ⟨c0, List.mem_cons_of_mem _ hc0, hg⟩)
            · refine .inr (.inr ⟨rfl, fun c0 hc0 => ?_⟩)
              rcases List.mem_cons.1 hc0 with rfl | hc0
              · exact hne
              · exact hnone c0 hc0

theorem map_putCapture {gid : Int} {update : Capture → Capture} {fresh : Capture}
    (hu : ∀ c, (update c).groupId = gid) (hf : fresh.groupId = gid) (caps : List Capture) :
    (putCapture gid update fresh caps).map Capture.groupId =
      if gid ∈ caps.map Capture.groupId then caps.map Capture.groupId
      else caps.map Capture.groupId ++ [gid] := by
  induction caps with
  | nil => simp [putCapture, hf]
  | cons c caps ih =>
      rw [putCapture]
      by_cases hc : c.groupId = gid
      · rw [if_pos hc]
        simp [hu, hc]
      · rw [if_neg hc, List.map_cons, ih]
        by_cases hmem : gid ∈ caps.map Capture.groupId
        · rw [if_pos hmem, if_pos (by rw [List.map_cons]; exact List.mem_cons_of_mem _ hmem)]
          rfl
        · rw [if_neg hmem, if_neg]
          · rfl
          · rw [List.map_cons, List.mem_cons]
            exact fun h => h.elim (fun h => hc h.symm) hmem

theorem Distinct.put {gid : Int} {update : Capture → Capture} {fresh : Capture}
    {caps : List Capture} (h : Distinct caps) (hu : ∀ c, (update c).groupId = gid)
    (hf : fresh.groupId = gid) : Distinct (putCapture gid update fresh caps) := by
  unfold Distinct
  rw [map_putCapture hu hf]
  split
  · exact h
  · next hnot =>
      rw [List.nodup_append]
      refine ⟨h, List.nodup_singleton gid, fun g hg g' hg' => ?_⟩
      rw [List.mem_singleton.1 hg']
      exact fun heq => hnot (heq ▸ hg)

theorem groupId_mem_put {gid : Int} {update : Capture → Capture} {fresh : Capture}
    (hu : ∀ c, (update c).groupId = gid) (hf : fresh.groupId = gid) {caps : List Capture} {g : Int}
    (hg : g = gid ∨ g ∈ caps.map Capture.groupId) :
    g ∈ (putCapture gid update fresh caps).map Capture.groupId := by
  rw [map_putCapture hu hf]
  split
  · next h => exact hg.elim (fun heq => heq ▸ h) id
  · exact hg.elim (fun heq => heq ▸ by simp) (List.mem_append_left _)

/-- The captures of a search that began at `p0` and is at `pos`, inside the groups of
`open_`: group 0 comes first and is still open, and every group that is not open any
more spans a stretch. -/
structure Kept (open_ : List Int) (p0 pos : Nat) (caps : List Capture) : Prop where
  head : ∃ tail, caps = ⟨0, p0, -1⟩ :: tail
  distinct : Distinct caps
  opened : ∀ g ∈ open_, g ∈ caps.map Capture.groupId
  started : ∀ c ∈ caps, (p0 : Int) ≤ c.start ∧ c.start ≤ pos
  closed : ∀ c ∈ caps, c.groupId ∉ 0 :: open_ → c.start ≤ c.stop ∧ c.stop ≤ pos

theorem kept_start (p0 : Nat) : Kept [] p0 p0 [⟨0, p0, -1⟩] where
  head := ⟨[], rfl⟩
  distinct := List.nodup_singleton _
  opened := by simp
  started := by simp
  closed := by simp

theorem Kept.later {open_ : List Int} {p0 pos pos' : Nat} {caps : List Capture}
    (h : Kept open_ p0 pos caps) (hle : pos ≤ pos') : Kept open_ p0 pos' caps where
  head := h.head
  distinct := h.distinct
  opened := h.opened
  started := fun c hc => by
    have := h.started c hc
    omega
  closed := fun c hc hg => by
    have := h.closed c hc hg
    omega

theorem Kept.le {open_ : List Int} {p0 pos : Nat} {caps : List Capture}
    (h : Kept open_ p0 pos caps) : p0 ≤ pos := by
  obtain ⟨tail, rfl⟩ := h.head
  have := h.started ⟨0, p0, -1⟩ List.mem_cons_self
  simp only at this
  omega

theorem Kept.enter {open_ : List Int} {p0 pos : Nat} {caps : List Capture} {gid : Int}
    (h : Kept open_ p0 pos caps) (hgid : gid ≠ 0) :
    Kept (gid :: open_) p0 pos (rxCaptureSet caps gid pos (-1) true) := by
  have hle := h.le
  rw [rxCaptureSet_open]
  constructor
  case head =>
    obtain ⟨tail, rfl⟩ := h.head
    rw [putCapture, if_neg hgid.symm]
    exact ⟨_, rfl⟩
  case distinct => exact h.distinct.put (fun _ => rfl) rfl
  case opened =>
    intro g hg
    exact @groupId_mem_put gid _ _ (fun _ => rfl) (by rfl) _ _
      ((List.mem_cons.1 hg).imp_right (h.opened g))
  case started =>
    intro c hc
    rcases mem_putCapture h.distinct hc with ⟨hc, -⟩ | ⟨c0, -, -, rfl⟩ | ⟨rfl, -⟩
    · exact h.started c hc
    all_goals
      simp only
      omega
  case closed =>
    intro c hc hg
    rw [List.mem_cons, List.mem_cons, not_or, not_or] at hg
    rcases mem_putCapture h.distinct hc with ⟨hc, -⟩ | ⟨c0, -, -, rfl⟩ | ⟨rfl, -⟩
    · exact h.closed c hc (by rw [List.mem_cons, not_or]; exact ⟨hg.1, hg.2.2⟩)
    all_goals exact absurd rfl hg.2.1

theorem Kept.leave {open_ : List Int} {p0 pos : Nat} {caps : List Capture} {gid : Int}
    (h : Kept (gid :: open_) p0 pos caps) (hgid : gid ≠ 0) :
    Kept open_ p0 pos (rxCaptureClose caps gid pos) := by
  have hmem := h.opened gid List.mem_cons_self
  obtain ⟨c1, hc1, hc1gid⟩ := List.mem_map.1 hmem
  rw [rxCaptureClose_eq]
  constructor
  case head =>
    obtain ⟨tail, rfl⟩ := h.head
    rw [putCapture, if_neg hgid.symm]
    exact ⟨_, rfl⟩
  case distinct => exact h.distinct.put (fun _ => rfl) rfl
  case opened =>
    intro g hg
    exact @groupId_mem_put gid _ _ (fun _ => rfl) (by rfl) _ _
      (.inr (h.opened g (List.mem_cons_of_mem _ hg)))
  case started =>
    intro c hc
    rcases mem_putCapture h.distinct hc with ⟨hc, -⟩ | ⟨c0, hc0, -, rfl⟩ | ⟨rfl, hnone⟩
    · exact h.started c hc
    · exact h.started c0 hc0
    · exact absurd hc1gid (hnone c1 hc1)
  case closed =>
    intro c hc hg
    rcases mem_putCapture h.distinct hc with ⟨hc, hne⟩ | ⟨c0, hc0, -, rfl⟩ | ⟨rfl, hnone⟩
    · refine h.closed c hc ?_
      rw [List.mem_cons, not_or] at hg ⊢
      rw [List.mem_cons, not_or]
      exact ⟨hg.1, hne, hg.2⟩
    · exact ⟨(h.started c0 hc0).2, le_rfl⟩
    · exact absurd hc1gid (hnone c1 hc1)

/-- A relation on positions and captures that keeps them in order. -/
def Keeps (R : Nat × List Capture → Nat × List Capture → Prop) : Prop :=
  ∀ open_ p0 x y, R x y → Kept open_ p0 x.1 x.2 → Kept open_ p0 y.1 y.2

theorem keeps_comp {R S : Nat × List Capture → Nat × List Capture → Prop} (hR : Keeps R)
    (hS : Keeps S) : Keeps (Comp R S) :=
  fun open_ p0 x y ⟨z, hxz, hzy⟩ h => hS open_ p0 z y hzy (hR open_ p0 x z hxz h)

theorem keeps_star {R : Nat × List Capture → Nat × List Capture → Prop} (hR : Keeps R) :
    Keeps (ReflTransGen R) := by
  intro open_ p0 x y hxy h
  induction hxy with
  | refl => exact h
  | tail _ hstep ih => exact hR open_ p0 _ _ hstep ih

theorem keeps_iter {R : Nat × List Capture → Nat × List Capture → Prop} (hR : Keeps R) (k : Nat) :
    Keeps (iter R k) := by
  induction k with
  | zero =>
      rintro open_ p0 x _ rfl h
      exact h
  | succ k ih => exact keeps_comp hR ih

theorem keeps_take (s : Str) (P : Char → Bool) : Keeps ((captureReading s).take P) := by
  rintro open_ p0 x _ ⟨⟨hlt, -⟩, rfl⟩ h
  exact h.later (rxNextPos_bounds hlt).1.le

mutual

theorem keeps_spans (s : Str) (counts : Int → Option Int → Nat → Prop) :
    ∀ a : RxAst, 0 ∉ groupIds a → Keeps (spans (captureReading s) counts a)
  | .rxChar _, _ => keeps_take s _
  | .rxAny, _ => keeps_take s _
  | .rxClass _ _, _ => keeps_take s _
  | .rxAnchor an, _ => by
      rintro open_ p0 x _ ⟨-, rfl⟩ h
      exact h
  | .rxConcat xs, hgid => keeps_spansAll s counts xs hgid
  | .rxAlt xs, hgid => keeps_spansAny s counts xs hgid
  | .rxStar x, hgid => keeps_star (keeps_spans s counts x hgid)
  | .rxPlus x, hgid =>
      keeps_comp (keeps_spans s counts x hgid) (keeps_star (keeps_spans s counts x hgid))
  | .rxOpt x, hgid => by
      rintro open_ p0 u v (rfl | huv) h
      · exact h
      · exact keeps_spans s counts x hgid open_ p0 u v huv h
  | .rxRepeat x lo hi, hgid => by
      rintro open_ p0 u v ⟨k, -, huv⟩ h
      exact keeps_iter (keeps_spans s counts x hgid) k open_ p0 u v huv h
  | .rxGroup id x, hgid => by
      rw [groupIds, List.mem_cons, not_or] at hgid
      have hne : id ≠ 0 := fun h => hgid.1 h.symm
      rintro open_ p0 u _ ⟨_, rfl, v, huv, rfl⟩ h
      exact (keeps_spans s counts x hgid.2 (id :: open_) p0 _ v huv
        (h.enter hne)).leave hne

theorem keeps_spansAll (s : Str) (counts : Int → Option Int → Nat → Prop) :
    ∀ xs : List RxAst, 0 ∉ groupIdsAll xs → Keeps (spansAll (captureReading s) counts xs)
  | [], _ => by
      rintro open_ p0 x _ rfl h
      exact h
  | x :: xs, hgid => by
      rw [groupIdsAll, List.mem_append, not_or] at hgid
      exact keeps_comp (keeps_spans s counts x hgid.1) (keeps_spansAll s counts xs hgid.2)

theorem keeps_spansAny (s : Str) (counts : Int → Option Int → Nat → Prop) :
    ∀ xs : List RxAst, 0 ∉ groupIdsAll xs → Keeps (spansAny (captureReading s) counts xs)
  | [], _ => fun _ _ _ _ huv _ => huv.elim
  | x :: xs, hgid => by
      rw [groupIdsAll, List.mem_append, not_or] at hgid
      rintro open_ p0 u v (huv | huv) h
      · exact keeps_spans s counts x hgid.1 open_ p0 u v huv h
      · exact keeps_spansAny s counts xs hgid.2 open_ p0 u v huv h

end

theorem Kept.close {p0 pos : Nat} {caps : List Capture} (h : Kept [] p0 pos caps) :
    rxMatchStart (rxCaptureClose caps 0 pos) = p0 ∧
      ∀ c ∈ rxCaptureClose caps 0 pos, (p0 : Int) ≤ c.start ∧ c.start ≤ c.stop ∧ c.stop ≤ pos := by
  have hle := h.le
  obtain ⟨tail, rfl⟩ := h.head
  rw [rxCaptureClose_eq, putCapture, if_pos rfl]
  refine ⟨by rw [rxMatchStart, if_pos rfl], fun c hc => ?_⟩
  rcases List.mem_cons.1 hc with rfl | hc
  · simp only
    omega
  · have hmem := List.mem_cons_of_mem (⟨0, p0, -1⟩ : Capture) hc
    have hne : c.groupId ∉ [0] := by
      rw [List.mem_singleton]
      intro h0
      have hnodup := h.distinct
      rw [Distinct, List.map_cons, List.nodup_cons] at hnodup
      exact hnodup.1 (List.mem_map.2 ⟨c, hc, h0⟩)
    have hstart := h.started c hmem
    have hclosed := h.closed c hmem hne
    omega

end Kaikai.RegexpCaptures
