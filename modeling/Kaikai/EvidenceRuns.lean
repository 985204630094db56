import Kaikai.EvidenceScope
import Mathlib.Logic.Relation

namespace Kaikai.Evidence

open Kaikai.Str
open Ev Relation

section Contexts

variable {outer : ℕ → List Ev} {next : ℕ} {c : Context} {scope : List Ev} {mask : Ev}

theorem hopsFrom_of_not_onChain {disp n : Ev} (h : n.onChain disp = false) (k : ℕ) :
    hopsFrom disp n k = 0 := by
  induction n generalizing k with
  | null => rfl
  | node hd p f ih _ =>
      rw [onChain, Bool.or_eq_false_iff, decide_eq_false_iff_not] at h
      rw [hopsFrom, if_neg h.1]
      exact ih h.2 (k + 1)

theorem hopsFrom_hopUp {j : ℕ} {disp n : Ev} (hdisp : disp ≠ null) (h : hopUp j n = disp) (k : ℕ) :
    hopsFrom disp n k = if k + j < 255 then k + j else 0 := by
  induction j generalizing n k with
  | zero =>
      cases n with
      | null => exact absurd h.symm hdisp
      | node hd p f =>
          have heq : node hd p f = disp := h
          rw [hopsFrom, if_pos heq, Nat.add_zero]
  | succ j ih =>
      cases n with
      | null =>
          have hnull : ∀ i, hopUp i null = null := fun i => by
            induction i with
            | zero => rfl
            | succ i ih => exact ih
          exact absurd ((hnull (j + 1)).symm.trans h).symm hdisp
      | node hd p f =>
          have hne : node hd p f ≠ disp := by
            rintro rfl
            obtain hnull | hon := onChain_hopUp j p
            · exact hdisp (h.symm.trans hnull)
            · have hup : hopUp j p = node hd p f := h
              rw [hup, not_onChain_parent] at hon
              exact nomatch hon
          have hup : hopUp j p = disp := h
          rw [hopsFrom, if_neg hne, ih hup (k + 1)]
          simp only [Nat.add_assoc, Nat.add_comm 1 j]

theorem dispAtPush_pushed (c : Context) (id : ℕ) (label : Label) (cleanup : Bool)
    (hfits : c.top.onChain c.disp = true → ∃ k < 254, hopUp k c.top = c.disp) :
    dispAtPush (pushed c id label cleanup) = maskOn c.top c.disp := by
  rw [pushed, dispAtPush]
  dsimp only
  cases hon : c.top.onChain c.disp with
  | false =>
      have hhops : dispHops c = 0 := by
        unfold dispHops
        split
        · rfl
        · exact hopsFrom_of_not_onChain hon 1
      rw [if_pos hhops, maskOn_of_not_onChain hon]
  | true =>
      obtain ⟨k, hk, hup⟩ := hfits hon
      have hhops : dispHops c = k + 1 := by
        rw [dispHops, if_neg (ne_null_of_onChain hon),
          hopsFrom_hopUp (ne_null_of_onChain hon) hup, if_pos (by omega)]
        omega
      rw [hhops, if_neg (Nat.succ_ne_zero k), Nat.add_sub_cancel, hup, maskOn_of_onChain hon]

theorem Ev.Chained.update {n : Ev} (h : Chained outer n)
    (holder : ∀ m, n.onChain m = true → m.address < next) (scope : List Ev) :
    Chained (Function.update outer next scope) n := by
  induction n with
  | null => trivial
  | node hd p f ih _ =>
      obtain ⟨hdepth, hfl, hslots, hvisible, hparent⟩ := h
      refine ⟨hdepth, hfl, hslots, ?_, ih hparent fun m hm => holder m (onChain_node.2 (.inr hm))⟩
      have hlt : hd.id < next := holder _ (onChain_self hd p f)
      rw [hvisible, Function.update_of_ne (Nat.ne_of_lt hlt)]

theorem Sound.update (h : Sound outer next c scope mask) (scope' : List Ev) :
    Sound (Function.update outer next scope') (next + 1) c scope mask where
  chained := h.chained.update h.older scope'
  older m hm := Nat.lt_succ_of_lt (h.older m hm)
  slots := h.slots
  inForce := h.inForce
  aligned := h.aligned
  dispOlder := h.dispOlder.imp_right Nat.lt_succ_of_lt
  inSight := h.inSight

theorem depthOn_eq (n : Ev) (h : n.depth + 1 < 2 ^ 32) : depthOn n = n.depth + 1 := by
  cases n with
  | null => rfl
  | node hd p f => exact Nat.mod_eq_of_lt h

theorem Sound.withMask (h : Sound outer next c scope mask) :
    Sound outer next { c with disp := mask } scope mask where
  chained := h.chained
  older := h.older
  slots := h.slots
  inForce := by
    obtain rfl | hon := h.mask_null_or
    · exact if_neg fun hne => hne.1 rfl
    · exact maskOn_of_onChain hon
  aligned := Aligned.refl _ _
  dispOlder := h.mask_null_or.imp (fun hnull => by rw [hnull]; rfl) (h.older mask)
  inSight := h.inSight

theorem onChain_pushed {id : ℕ} {label : Label} {cleanup : Bool} {m : Ev} :
    (pushed c id label cleanup).onChain m = true ↔
      pushed c id label cleanup = m ∨ c.top.onChain m = true :=
  onChain_node

theorem nearest_pushed (hslots : ∀ i, c.flTop i = nearest i c.top) (id : ℕ) (label : Label)
    (cleanup : Bool) (i : ℕ) :
    (c.push (pushed c id label cleanup)).flTop i = nearest i (pushed c id label cleanup) := by
  have hnearest : nearest i (pushed c id label cleanup) =
      if effFl label = some i then pushed c id label cleanup else nearest i c.top := rfl
  have hfl : (pushed c id label cleanup).fl = effFl label := rfl
  rw [hnearest, Context.push, hfl]
  cases effFl label with
  | none => exact hslots i
  | some j =>
      by_cases hj : j = i
      · subst hj
        rw [if_pos rfl]
        exact Function.update_self ..
      · rw [if_neg fun heq => hj (Option.some.inj heq)]
        exact (Function.update_of_ne (Ne.symm hj) ..).trans (hslots i)

theorem Sound.disp_ne_pushed (h : Sound outer next c scope mask) (label : Label) (cleanup : Bool)
    (hdepth : c.top.depth + 1 < 2 ^ 32) : pushed c next label cleanup ≠ c.disp := by
  intro heq
  obtain hzero | hlt := h.dispOlder
  · rw [← heq] at hzero
    exact Nat.succ_ne_zero _ ((depthOn_eq c.top hdepth).symm.trans hzero)
  · rw [← heq] at hlt
    exact Nat.lt_irrefl next hlt

theorem Sound.push (h : Sound outer next c scope mask) {label : Label} {cleanup : Bool}
    (hfits : c.top.onChain c.disp = true → ∃ k < 254, hopUp k c.top = c.disp)
    (hslot : effFl label ≠ none →
      c.top.onChain c.disp = true ∨ descend (depthOn c.top) c.disp = null)
    (hdepth : c.top.depth + 1 < 2 ^ 32) :
    Sound (Function.update outer next scope) (next + 1) (c.push (pushed c next label cleanup))
      (pushed c next label cleanup :: scope) (dispAtPush (pushed c next label cleanup)) := by
  have hmask : dispAtPush (pushed c next label cleanup) = mask :=
    (dispAtPush_pushed c next label cleanup hfits).trans h.inForce
  have hne : pushed c next label cleanup ≠ mask := by
    intro heq
    obtain hnull | hon := h.mask_null_or
    · rw [hnull] at heq
      exact nomatch heq
    · have hlt := h.older mask hon
      rw [← heq] at hlt
      exact Nat.lt_irrefl next hlt
  have hsame : c.top.onChain c.disp = true → c.disp = mask := fun hon =>
    (maskOn_of_onChain hon).symm.trans h.inForce
  constructor
  case chained =>
    refine ⟨depthOn_eq c.top hdepth, rfl, fun i hi => ?_, ?_, h.chained.update h.older scope⟩
    · have hl : effFl label = some i := hi
      simp only [hl]
      exact h.slots i
    · refine Eq.trans (congrArg (visible c.top) hmask) (h.inSight.trans ?_)
      exact (Function.update_self next scope outer).symm
  case older =>
    intro m hm
    obtain rfl | hm := onChain_pushed.1 hm
    · exact Nat.lt_succ_self next
    · exact Nat.lt_succ_of_lt (h.older m hm)
  case slots => exact nearest_pushed h.slots next label cleanup
  case inForce =>
    rw [hmask]
    cases hon : c.top.onChain c.disp with
    | true => exact (maskOn_of_onChain (onChain_pushed.2 (.inr hon))).trans (hsame hon)
    | false =>
        rw [← h.inForce, maskOn_of_not_onChain hon]
        refine maskOn_of_not_onChain (Bool.eq_false_iff.2 fun hon' => ?_)
        obtain heq | hon' := onChain_pushed.1 hon'
        · exact h.disp_ne_pushed label cleanup hdepth heq
        · exact nomatch hon.symm.trans hon'
  case aligned =>
    intro m hm hfl
    rw [hmask]
    obtain rfl | hm := onChain_pushed.1 hm
    · change descend (depthOn c.top) c.disp = descend (depthOn c.top) mask
      cases hon : c.top.onChain c.disp with
      | true => rw [hsame hon]
      | false =>
          have hnull : mask = null := h.inForce.symm.trans (maskOn_of_not_onChain hon)
          rw [(hslot hfl).resolve_left (Bool.eq_false_iff.1 hon), hnull, descend]
    · exact h.aligned m hm hfl
  case dispOlder => exact h.dispOlder.imp_right Nat.lt_succ_of_lt
  case inSight =>
    rw [hmask]
    refine Eq.trans (if_neg hne) (Eq.trans (if_neg fun hhidden => hhidden.2 hmask) ?_)
    exact congrArg _ h.inSight

theorem flPop_eq {n : Ev} {flTop : ℕ → Ev} (hlink : Linked n)
    (hslots : ∀ i, flTop i = nearest i n) (i : ℕ) : flPop flTop n i = nearest i n.parent := by
  cases n with
  | null => exact hslots i
  | node hd p f =>
      have hi := hslots i
      rw [nearest] at hi
      rw [flPop, Ev.parent]
      cases hfl : hd.fl with
      | none => simpa [hfl] using hi
      | some j =>
          by_cases hj : j = i
          · subst hj
            rw [← hlink j hfl]
            exact Function.update_self ..
          · rw [hfl, if_neg fun heq => hj (Option.some.inj heq)] at hi
            exact (Function.update_of_ne (Ne.symm hj) ..).trans hi

theorem Sound.below {n : Ev} (hn : n ≠ null) (hchain : Chained outer n)
    (holder : ∀ m, n.onChain m = true → m.address < next) (hslots : ∀ i, c.flTop i = nearest i n)
    (hmask : maskOn n.parent c.disp = dispAtPush n)
    (haligned : Aligned n.parent c.disp (dispAtPush n))
    (hdisp : c.disp.depth = 0 ∨ c.disp.address < next) :
    Sound outer next (c.pop n) (outer n.address) (dispAtPush n) where
  chained := hchain.parent
  older m hm := holder m (onChain_parent hm)
  slots := flPop_eq hchain.linked hslots
  inForce := hmask
  aligned := haligned
  dispOlder := hdisp
  inSight := by
    cases n with
    | null => exact absurd rfl hn
    | node hd p f => exact hchain.2.2.2.1

theorem maskOn_parent {n disp : Ev} (hn : n ≠ null) (h : maskOn n disp = dispAtPush n) :
    maskOn n.parent disp = dispAtPush n := by
  cases n with
  | null => exact absurd rfl hn
  | node hd p f =>
      cases hon : (node hd p f).onChain disp with
      | true =>
          rw [maskOn_of_onChain hon] at h
          obtain hnull | hp := onChain_dispAtPush hd p f
          · exact absurd (h.trans hnull) (ne_null_of_onChain hon)
          · rw [← h] at hp ⊢
            exact maskOn_of_onChain hp
      | false =>
          rw [← h, maskOn_of_not_onChain hon]
          exact maskOn_of_not_onChain (Bool.or_eq_false_iff.1 hon).2

theorem Sound.pop {n : Ev} (h : Sound outer next c scope (dispAtPush n)) (htop : c.top = n)
    (hn : n ≠ null) : Sound outer next (c.pop n) (outer n.address) (dispAtPush n) := by
  subst htop
  refine .below hn h.chained h.older h.slots (maskOn_parent hn h.inForce) ?_ h.dispOlder
  exact fun m hm => h.aligned m (onChain_parent hm)

theorem visible_enter {n top : Ev} (hchain : Chained outer top) (hon : top.onChain n = true)
    (hfirst : ∀ m, top.onChain m = true → m.parent.onChain n = true → dispAtPush m ≠ n) :
    visible top n = outer n.address := by
  induction top with
  | null => exact nomatch hon
  | node hd p f ih _ =>
      rw [visible]
      split
      · next heq =>
          rw [← heq]
          exact hchain.2.2.2.1
      · next hne =>
          have hp := (onChain_node.1 hon).resolve_left hne
          rw [if_pos ⟨ne_null_of_onChain hp, hfirst _ (onChain_self hd p f) hp⟩]
          exact ih hchain.parent hp fun m hm => hfirst m (onChain_node.2 (.inr hm))

theorem Sound.enter {n : Ev} (h : Sound outer next c scope mask) (hon : c.top.onChain n = true)
    (hfirst : ∀ m, c.top.onChain m = true → m.parent.onChain n = true → dispAtPush m ≠ n) :
    Sound outer next { c with disp := n } (outer n.address) n where
  chained := h.chained
  older := h.older
  slots := h.slots
  inForce := maskOn_of_onChain hon
  aligned := Aligned.refl _ _
  dispOlder := .inr (h.older n hon)
  inSight := visible_enter h.chained hon hfirst

theorem Sound.empty (htop : c.top = null) (hslots : ∀ i, c.flTop i = null)
    (hdisp : c.disp.depth = 0 ∨ c.disp.address < next) : Sound outer next c [] null := by
  have hoff : ∀ m, c.top.onChain m = false := fun m => by
    rw [htop]
    rfl
  constructor
  case chained =>
    rw [htop]
    trivial
  case older => exact fun m hm => nomatch (hoff m).symm.trans hm
  case slots =>
    rw [htop]
    exact hslots
  case inForce => exact maskOn_of_not_onChain (hoff c.disp)
  case aligned => exact fun m hm => nomatch (hoff m).symm.trans hm
  case dispOlder => exact hdisp
  case inSight =>
    rw [htop]
    rfl

end Contexts

section Frames

/-- An unwind has taken the nodes above `cur` out of their slots, on the way to `target`. -/
structure Unwinding (outer : ℕ → List Ev) (next : ℕ) (c : Context) (target cur : Ev) : Prop where
  chained : Chained outer c.top
  older : ∀ m, c.top.onChain m = true → m.address < next
  slots : ∀ i, c.flTop i = nearest i cur
  onChain : cur = null ∨ c.top.onChain cur = true
  target : target ≠ null →
    c.top.onChain target = true ∧ (cur.onChain target = true ∨ cur = target.parent)
  dispOlder : c.disp.depth = 0 ∨ c.disp.address < next

/-- Each frame finds the evidence in order again when the frames inside it are gone. -/
inductive Framed (outer : ℕ → List Ev) (next : ℕ) : List Frame → Context → List Ev → Prop
  | base {c scope mask} : c.top = null → Sound outer next c scope mask →
      Framed outer next [] c scope
  | ended {c scope mask} : c.top = null → Sound outer next c scope mask →
      Framed outer next [.ended] c scope
  | handle {c scope n fs} : n ≠ null → c.top = n → Sound outer next c scope (dispAtPush n) →
      Framed outer next fs (c.pop n) (outer n.address) →
      Framed outer next (.handle n :: fs) c scope
  | clause {c scope mask prev scope' fs} : Sound outer next c scope mask →
      Framed outer next fs { c with disp := prev } scope' →
      Framed outer next (.clause prev scope' :: fs) c scope
  | finish {c scope n saved savedFl scope' fs} : n ≠ null → c.top = n.parent →
      Sound outer next c scope (dispAtPush n) →
      Framed outer next (.handle n :: fs) (c.restore n saved savedFl) scope' →
      Framed outer next (.cleanup n saved savedFl scope' :: .handle n :: fs) c scope
  | resume {c scope n saved savedFl scope' target fs} : n ≠ null → c.top = n.parent →
      Sound outer next c scope (dispAtPush n) →
      Framed outer next (.unwind target n :: fs) (c.restore n saved savedFl) scope' →
      Framed outer next (.cleanup n saved savedFl scope' :: .unwind target n :: fs) c scope
  | unwind {c c' scope scope' target cur fs} : Unwinding outer next c target cur →
      c'.top = c.top → Framed outer next fs c' scope' →
      Framed outer next (.unwind target cur :: fs) c scope

variable {outer : ℕ → List Ev} {next : ℕ} {c : Context} {scope : List Ev} {fs : List Frame}

theorem Framed.update (h : Framed outer next fs c scope) (v : List Ev) :
    Framed (Function.update outer next v) (next + 1) fs c scope := by
  induction h with
  | base htop hs => exact .base htop (hs.update v)
  | ended htop hs => exact .ended htop (hs.update v)
  | @handle c scope n fs hn htop hs _ ih =>
      have hon : c.top.onChain n = true := by
        rw [htop]
        cases n with
        | null => exact absurd rfl hn
        | node hd p f => exact onChain_self hd p f
      refine .handle hn htop (hs.update v) ?_
      rwa [Function.update_of_ne (Nat.ne_of_lt (hs.older n hon))]
  | clause hs _ ih => exact .clause (hs.update v) ih
  | finish hn htop hs _ ih => exact .finish hn htop (hs.update v) ih
  | resume hn htop hs _ ih => exact .resume hn htop (hs.update v) ih
  | unwind hu htop _ ih =>
      refine .unwind ⟨hu.chained.update hu.older v, fun m hm => ?_, hu.slots, hu.onChain, hu.target,
        hu.dispOlder.imp_right Nat.lt_succ_of_lt⟩ htop ih
      exact Nat.lt_succ_of_lt (hu.older m hm)

theorem Framed.sound (h : Framed outer next fs c scope)
    (hrun : ∀ target cur rest, fs ≠ .unwind target cur :: rest) :
    ∃ mask, Sound outer next c scope mask := by
  cases h with
  | base _ hs => exact ⟨_, hs⟩
  | ended _ hs => exact ⟨_, hs⟩
  | handle _ _ hs _ => exact ⟨_, hs⟩
  | clause hs _ => exact ⟨_, hs⟩
  | finish _ _ hs _ => exact ⟨_, hs⟩
  | resume _ _ hs _ => exact ⟨_, hs⟩
  | unwind => exact absurd rfl (hrun _ _ _)

theorem Framed.withMask (h : Framed outer next fs c scope) :
    Framed outer next fs { c with disp := maskOn c.top c.disp } scope := by
  induction h with
  | base htop hs =>
      have hm := hs.inForce
      subst hm
      exact .base htop hs.withMask
  | ended htop hs =>
      have hm := hs.inForce
      subst hm
      exact .ended htop hs.withMask
  | @handle c scope n fs hn htop hs _ ih =>
      have hout : maskOn (c.pop n).top (c.pop n).disp = dispAtPush n := (hs.pop htop hn).inForce
      rw [hout] at ih
      rw [hs.inForce]
      exact .handle hn htop hs.withMask ih
  | clause hs hrest _ =>
      have hm := hs.inForce
      subst hm
      exact .clause hs.withMask hrest
  | @finish c scope n saved savedFl scope' fs hn htop hs hrest ih =>
      rw [hs.inForce]
      refine .finish hn htop hs.withMask ?_
      cases hrest with
      | handle _ _ hs' _ =>
          have hin : maskOn (c.restore n saved savedFl).top (c.restore n saved savedFl).disp =
            dispAtPush n := hs'.inForce
          rwa [hin] at ih
  | resume hn htop hs hrest _ =>
      rw [hs.inForce]
      refine .resume hn htop hs.withMask ?_
      cases hrest with
      | unwind hu htop' hfs =>
          refine .unwind ⟨hu.chained, hu.older, hu.slots, hu.onChain, hu.target, ?_⟩ htop' hfs
          exact hs.withMask.dispOlder
  | @unwind c c' scope scope' target cur fs hu htop hfs _ =>
      refine .unwind ⟨hu.chained, hu.older, hu.slots, hu.onChain, hu.target, ?_⟩ htop hfs
      obtain hnull | hon := maskOn_null_or c.top c.disp
      · exact .inl (by rw [hnull]; rfl)
      · exact .inr (hu.older _ hon)

theorem Framed.frameOf {target : Ev} (h : Framed outer next fs c scope)
    (htarget : c.top.onChain target = true) :
    ∃ c' : Context, Framed outer next (frameOf target fs) (c'.pop target) (outer target.address) ∧
      Sound outer next (c'.pop target) (outer target.address) (dispAtPush target) := by
  induction h with
  | base htop _ =>
      rw [htop] at htarget
      exact nomatch htarget
  | ended htop _ =>
      rw [htop] at htarget
      exact nomatch htarget
  | @handle c scope n fs hn htop hs hrest ih =>
      rw [Evidence.frameOf]
      split
      · next heq =>
          subst heq
          exact ⟨c, hrest, hs.pop htop hn⟩
      · next hne =>
          refine ih ?_
          cases n with
          | null => exact absurd rfl hn
          | node hd p f =>
              rw [htop] at htarget
              exact (onChain_node.1 htarget).resolve_left hne
  | clause hs _ ih => exact ih htarget
  | @finish c scope n saved savedFl scope' fs hn htop hs hrest ih =>
      refine ih ?_
      cases hrest with
      | handle _ htop' _ _ =>
          rw [htop']
          rw [htop] at htarget
          exact onChain_parent htarget
  | @resume c scope n saved savedFl scope' target' fs hn htop hs hrest ih =>
      refine ih ?_
      cases hrest with
      | unwind hu _ _ =>
          rw [htop] at htarget
          exact onChain_trans (hu.onChain.resolve_left hn) (onChain_parent htarget)
  | unwind hu htop _ ih =>
      rw [← htop] at htarget
      exact ih htarget

end Frames

section Steps

theorem push_pop (c : Context) (id : ℕ) (label : Label) (cleanup : Bool) :
    (c.push (pushed c id label cleanup)).pop (pushed c id label cleanup) = c := by
  have hfl : flPop (c.push (pushed c id label cleanup)).flTop (pushed c id label cleanup) =
      c.flTop := by
    rw [Context.push, pushed, flPop, Ev.fl]
    dsimp only
    cases effFl label with
    | none => rfl
    | some i =>
        dsimp only
        rw [Function.update_idem, Function.update_eq_self]
  rw [Context.pop, hfl]
  rfl

theorem pop_restore (c : Context) (n : Ev) :
    (c.pop n).restore n c.top ((n.fl.map c.flTop).getD null) = c := by
  rw [Context.pop, Context.restore]
  cases n with
  | null => rfl
  | node h p f =>
      rw [flPop, Ev.fl]
      cases h.fl with
      | none => rfl
      | some i =>
          dsimp only [Option.map_some, Option.getD_some]
          rw [Function.update_idem, Function.update_eq_self]

/-- The step starts where the mask will serve: a push no more than 254 nodes above the dispatching
one, and of a slotted effect only where that node is on the chain or out of the way; a clause of a
node that no node of its own running clause stands above; a default clause over an empty chain; and
a `finally` of an unwind under the mask its handler was pushed under. -/
def MaskServes (s : State) : Act → Prop
  | .push label _ =>
      (s.ctx.top.onChain s.ctx.disp = true → ∃ k < 254, hopUp k s.ctx.top = s.ctx.disp) ∧
        (effFl label ≠ none →
          s.ctx.top.onChain s.ctx.disp = true ∨ descend (depthOn s.ctx.top) s.ctx.disp = null) ∧
        s.ctx.top.depth + 1 < 2 ^ 32
  | .enter n =>
      ∀ m, s.ctx.top.onChain m = true → m.parent.onChain n = true → dispAtPush m ≠ n
  | .enterDefault _ _ => s.ctx.top = null
  | .unwind =>
      ∀ target cur fs, s.frames = .unwind target cur :: fs → cur ≠ null → cur ≠ target.parent →
        s.pending cur = true →
        maskOn cur.parent s.ctx.disp = dispAtPush cur ∧
          Aligned cur.parent s.ctx.disp (dispAtPush cur)
  | _ => True

/-- The evidence is in order, in the running code and in what it returns to. -/
def State.InOrder (s : State) : Prop :=
  Framed s.outer s.next s.frames s.ctx s.scope

variable {s s' : State}

theorem State.InOrder.sound (h : s.InOrder) (hrun : s.Running) :
    ∃ mask, Sound s.outer s.next s.ctx s.scope mask := by
  refine Framed.sound h fun target cur rest hframes => ?_
  rw [State.Running, hframes] at hrun
  exact hrun

theorem inOrder_init : State.init.InOrder :=
  .base rfl (.empty rfl (fun _ => rfl) (.inl rfl))

theorem inOrder_push {label : Label} {cleanup : Bool} (h : s.InOrder)
    (hserves : MaskServes s (.push label cleanup)) (hstep : step s (.push label cleanup) = some s') :
    s'.InOrder := by
  unfold step at hstep
  dsimp only at hstep
  split at hstep
  · next hrun =>
      obtain rfl := Option.some.inj hstep
      obtain ⟨mask, hs⟩ := h.sound hrun
      obtain ⟨hfits, hslot, hdepth⟩ := hserves
      refine .handle (by simp [pushed]) rfl (hs.push hfits hslot hdepth) ?_
      rw [push_pop]
      change Framed _ _ _ _ (Function.update s.outer s.next s.scope s.next)
      rw [Function.update_self]
      exact h.update s.scope
  · exact nomatch hstep

theorem inOrder_runCleanup (h : s.InOrder) (hstep : step s .runCleanup = some s') :
    s'.InOrder := by
  unfold step at hstep
  dsimp only at hstep
  split at hstep
  · next n fs hframes =>
      split at hstep
      · obtain rfl := Option.some.inj hstep
        have hframed := h
        rw [State.InOrder, hframes] at hframed
        cases hframed with
        | handle hn htop hs hrest =>
            rw [State.InOrder, State.startCleanup, hframes]
            refine .finish hn rfl (hs.pop htop hn) ?_
            rw [pop_restore]
            exact .handle hn htop hs hrest
      · exact nomatch hstep
  · exact nomatch hstep

theorem inOrder_pop (h : s.InOrder) (hstep : step s .pop = some s') : s'.InOrder := by
  unfold step at hstep
  dsimp only at hstep
  split at hstep
  · next n fs hframes =>
      obtain rfl := Option.some.inj hstep
      rw [State.InOrder, hframes] at h
      cases h with
      | handle _ _ _ hrest => exact hrest
  · exact nomatch hstep

theorem inOrder_enter {n : Ev} (h : s.InOrder) (hserves : MaskServes s (.enter n))
    (hstep : step s (.enter n) = some s') : s'.InOrder := by
  unfold step at hstep
  dsimp only at hstep
  split at hstep
  · next hcond =>
      obtain rfl := Option.some.inj hstep
      obtain ⟨mask, hs⟩ := h.sound hcond.1
      exact .clause (hs.enter hcond.2 hserves) h
  · exact nomatch hstep

theorem inOrder_enterDefault {id : ℕ} {label : Label} (h : s.InOrder)
    (hserves : MaskServes s (.enterDefault id label))
    (hstep : step s (.enterDefault id label) = some s') : s'.InOrder := by
  unfold step at hstep
  dsimp only at hstep
  split at hstep
  · next hrun =>
      obtain rfl := Option.some.inj hstep
      obtain ⟨mask, hs⟩ := h.sound hrun
      have htop : s.ctx.top = null := hserves
      have hslots := hs.slots
      rw [htop] at hslots
      exact .clause (.empty htop hslots (.inl rfl)) h
  · exact nomatch hstep

theorem inOrder_leave (h : s.InOrder) (hstep : step s .leave = some s') : s'.InOrder := by
  unfold step at hstep
  dsimp only at hstep
  split at hstep
  · next prev scope fs hframes =>
      obtain rfl := Option.some.inj hstep
      rw [State.InOrder, hframes] at h
      cases h with
      | clause _ hrest => exact hrest
  · exact nomatch hstep

theorem inOrder_finish (h : s.InOrder) (hstep : step s .finish = some s') : s'.InOrder := by
  unfold step at hstep
  dsimp only at hstep
  split at hstep
  · next n saved savedFl scope fs hframes =>
      obtain rfl := Option.some.inj hstep
      rw [State.InOrder, hframes] at h
      cases h with
      | finish _ _ _ hrest => exact hrest
      | resume _ _ _ hrest => exact hrest
  · exact nomatch hstep

theorem inOrder_exit {target : Ev} (h : s.InOrder) (hstep : step s (.exit target) = some s') :
    s'.InOrder := by
  unfold step at hstep
  dsimp only at hstep
  split at hstep
  · next hcond =>
      obtain rfl := Option.some.inj hstep
      obtain ⟨mask, hs⟩ := h.sound hcond.1
      have htop : s.ctx.top = null ∨ s.ctx.top.onChain s.ctx.top = true := by
        cases s.ctx.top with
        | null => exact .inl rfl
        | node hd p f => exact .inr (onChain_self hd p f)
      refine .unwind ⟨hs.chained, hs.older, hs.slots, htop, fun hne => ?_, hs.dispOlder⟩ rfl h
      have hon := hcond.2.resolve_left hne
      exact ⟨hon, .inl hon⟩
  · exact nomatch hstep

theorem inOrder_land {target cur : Ev} {fs : List Frame} (h : s.InOrder)
    (hframes : s.frames = .unwind target cur :: fs) (hcur : cur = null ∨ cur = target.parent) :
    (s.land target fs).InOrder := by
  rw [State.InOrder, hframes] at h
  cases h with
  | @unwind _ c' _ scope' _ _ _ hu htop hfs =>
      unfold State.land
      split
      · next htarget =>
          have hnull : cur = null := by
            obtain hcur | hcur := hcur
            · exact hcur
            · rw [hcur, htarget]
              rfl
          have hslots := hu.slots
          rw [hnull] at hslots
          exact .ended rfl (.empty rfl hslots hu.dispOlder)
      · next htarget =>
          obtain ⟨hon, hleft⟩ := hu.target htarget
          have hparent : cur = target.parent := by
            obtain rfl | hcur := hcur
            · exact hleft.resolve_left (by rw [onChain]; simp)
            · exact hcur
          rw [← htop] at hon
          obtain ⟨c'', hframed, hs⟩ := hfs.frameOf hon
          have hland := hframed.withMask
          rw [hs.inForce] at hland
          have hslots : s.ctx.flTop = (c''.pop target).flTop := by
            funext i
            rw [hu.slots i, hs.slots i, hparent]
            rfl
          rw [State.InOrder]
          dsimp only
          rw [hslots]
          exact hland

theorem inOrder_unwind (h : s.InOrder) (hserves : MaskServes s .unwind)
    (hstep : step s .unwind = some s') : s'.InOrder := by
  unfold step at hstep
  dsimp only at hstep
  split at hstep
  · next target cur fs hframes =>
      obtain rfl := Option.some.inj hstep
      unfold State.unwind
      split
      · next hcur => exact inOrder_land h hframes hcur
      · next hcur =>
          rw [not_or] at hcur
          have hframed := h
          rw [State.InOrder, hframes] at hframed
          cases hframed with
          | @unwind _ c' _ scope' _ _ _ hu htop hfs =>
              have hon := hu.onChain.resolve_left hcur.1
              have hchain := hu.chained.of_onChain hon
              have holder : ∀ m, cur.onChain m = true → m.address < s.next := fun m hm =>
                hu.older m (onChain_trans hon hm)
              split
              · next hpending =>
                  obtain ⟨hmask, haligned⟩ :=
                    hserves target cur fs hframes hcur.1 hcur.2 hpending
                  rw [State.InOrder, State.startCleanup, hframes]
                  refine .resume hcur.1 rfl
                    (.below hcur.1 hchain holder hu.slots hmask haligned hu.dispOlder) ?_
                  rw [pop_restore]
                  exact .unwind hu htop hfs
              · refine .unwind ⟨hu.chained, hu.older, flPop_eq hchain.linked hu.slots, ?_, fun hne => ?_,
                  hu.dispOlder⟩ htop hfs
                · exact (onChain_hopUp 1 cur).imp_right (onChain_trans hon)
                · obtain ⟨htarget, hleft⟩ := hu.target hne
                  refine ⟨htarget, ?_⟩
                  cases cur with
                  | null => exact absurd rfl hcur.1
                  | node hd p f =>
                      obtain rfl | hp := onChain_node.1 (hleft.resolve_right hcur.2)
                      · exact .inr rfl
                      · exact .inl hp
  · exact nomatch hstep

theorem inOrder_step {a : Act} (h : s.InOrder) (hserves : MaskServes s a)
    (hstep : step s a = some s') : s'.InOrder := by
  cases a with
  | push => exact inOrder_push h hserves hstep
  | runCleanup => exact inOrder_runCleanup h hstep
  | pop => exact inOrder_pop h hstep
  | enter => exact inOrder_enter h hserves hstep
  | enterDefault => exact inOrder_enterDefault h hserves hstep
  | leave => exact inOrder_leave h hstep
  | finish => exact inOrder_finish h hstep
  | exit => exact inOrder_exit h hstep
  | unwind => exact inOrder_unwind h hserves hstep

/-- A step that starts where the mask serves. -/
def Serves (s s' : State) : Prop :=
  ∃ a, MaskServes s a ∧ step s a = some s'

theorem inOrder_run (h : ReflTransGen Serves State.init s) : s.InOrder := by
  induction h with
  | refl => exact inOrder_init
  | tail _ hstep ih =>
      obtain ⟨a, hserves, hstep⟩ := hstep
      exact inOrder_step ih hserves hstep

/-- Both searches return the innermost handler in scope, and none where there is none. -/
structure State.Agrees (s : State) : Prop where
  fast : ∀ label, evFindFiber s.ctx label = first label s.scope
  full : ∀ label, evFind s.ctx.top label s.ctx.disp = first label s.scope
  none : ∀ label, first label s.scope = null ↔ ∀ n ∈ s.scope, n.handles label = false

theorem first_eq_null {label : Label} {scope : List Ev} :
    first label scope = null ↔ ∀ n ∈ scope, n.handles label = false := by
  rw [first]
  cases hfind : scope.find? (handles label) with
  | none =>
      rw [List.find?_eq_none] at hfind
      exact ⟨fun _ n hn => Bool.eq_false_iff.2 (hfind n hn), fun _ => rfl⟩
  | some n =>
      have hhandles := List.find?_some hfind
      have hmem := List.mem_of_find?_eq_some hfind
      refine ⟨fun hnull => ?_, fun hnone => absurd hhandles (Bool.eq_false_iff.1 (hnone n hmem))⟩
      rw [Option.getD_some] at hnull
      rw [hnull] at hhandles
      exact absurd hhandles Bool.false_ne_true

theorem State.InOrder.agrees (h : s.InOrder) (hrun : s.Running) : s.Agrees := by
  obtain ⟨mask, hs⟩ := h.sound hrun
  exact ⟨fun label => (hs.find_eq label).1, fun label => (hs.find_eq label).2,
    fun _ => first_eq_null⟩

/-- In a run whose masks serve, both searches return the innermost handler in scope. -/
theorem agrees_run (h : ReflTransGen Serves State.init s) (hrun : s.Running) : s.Agrees :=
  (inOrder_run h).agrees hrun

end Steps

section Asides

/-- The frames above a default clause that began over a chain, with `depth` frames below it. -/
inductive Aside (depth : ℕ) (outer : ℕ → List Ev) (next : ℕ) :
    List Frame → Context → List Ev → Prop
  | base {c scope prev scope' fs} : fs.length = depth →
      Framed outer next fs { c with disp := prev } scope' →
      Aside depth outer next (.clause prev scope' :: fs) c scope
  | clause {c scope prev scope' fs} : Aside depth outer next fs { c with disp := prev } scope' →
      Aside depth outer next (.clause prev scope' :: fs) c scope
  | handle {c scope n fs} : n.address < next →
      Aside depth outer next fs (c.pop n) (outer n.address) →
      Aside depth outer next (.handle n :: fs) c scope

variable {depth : ℕ} {outer : ℕ → List Ev} {next : ℕ} {c : Context} {scope : List Ev}
variable {fs : List Frame} {s s' : State}

theorem Aside.depth_lt (h : Aside depth outer next fs c scope) : depth < fs.length := by
  induction h with
  | base hlen _ =>
      rw [List.length_cons]
      omega
  | clause _ ih => exact Nat.lt_succ_of_lt ih
  | handle _ _ ih => exact Nat.lt_succ_of_lt ih

theorem Aside.update (h : Aside depth outer next fs c scope) (v : List Ev) :
    Aside depth (Function.update outer next v) (next + 1) fs c scope := by
  induction h with
  | base hlen hframed => exact .base hlen (hframed.update v)
  | clause _ ih => exact .clause ih
  | handle hlt _ ih =>
      refine .handle (Nat.lt_succ_of_lt hlt) ?_
      rwa [Function.update_of_ne (Nat.ne_of_lt hlt)]

/-- What a default clause over a chain may do for the order to come back when it leaves. -/
def Act.Quiet : Act → Prop
  | .runCleanup | .exit _ | .unwind => False
  | _ => True

/-- The frames below the outermost default clause over a chain, while there is one. -/
def watch (s : State) : Option ℕ → Act → Option ℕ
  | none, .enterDefault _ _ => if s.ctx.top = null then none else some s.frames.length
  | some depth, .leave => if s.frames.length = depth + 1 then none else some depth
  | aside, _ => aside

/-- The evidence is in order, or is again when a default clause over a chain has left. -/
def State.Ordered (s : State) : Option ℕ → Prop
  | none => s.InOrder
  | some depth => Aside depth s.outer s.next s.frames s.ctx s.scope

/-- The step starts where the mask serves, or stays inside a default clause over a chain. -/
def AsideServes (s : State) : Option ℕ → Act → Prop
  | none, .enterDefault _ _ => True
  | none, a => MaskServes s a
  | some _, a => a.Quiet

theorem aside_leave (h : s.Ordered (some depth)) (hstep : step s .leave = some s') :
    s'.Ordered (watch s (some depth) .leave) := by
  unfold step at hstep
  dsimp only at hstep
  split at hstep
  · next prev scope fs hframes =>
      obtain rfl := Option.some.inj hstep
      rw [State.Ordered, hframes] at h
      rw [watch, hframes, List.length_cons]
      cases h with
      | base hlen hframed =>
          rw [if_pos (congrArg (· + 1) hlen)]
          exact hframed
      | clause haside =>
          have hlt := haside.depth_lt
          rw [if_neg (by omega)]
          exact haside
  · exact nomatch hstep

theorem aside_step {a : Act} (h : s.Ordered (some depth)) (hquiet : a.Quiet)
    (hstep : step s a = some s') : s'.Ordered (watch s (some depth) a) := by
  cases a with
  | push label cleanup =>
      unfold step at hstep
      dsimp only at hstep
      split at hstep
      · obtain rfl := Option.some.inj hstep
        refine .handle (Nat.lt_succ_self s.next) ?_
        rw [push_pop]
        change Aside _ _ _ _ _ (Function.update s.outer s.next s.scope s.next)
        rw [Function.update_self]
        exact Aside.update h s.scope
      · exact nomatch hstep
  | pop =>
      unfold step at hstep
      dsimp only at hstep
      split at hstep
      · next n fs hframes =>
          obtain rfl := Option.some.inj hstep
          rw [State.Ordered, hframes] at h
          cases h with
          | handle _ hrest => exact hrest
      · exact nomatch hstep
  | enter n =>
      unfold step at hstep
      dsimp only at hstep
      split at hstep
      · obtain rfl := Option.some.inj hstep
        exact .clause h
      · exact nomatch hstep
  | enterDefault id label =>
      unfold step at hstep
      dsimp only at hstep
      split at hstep
      · obtain rfl := Option.some.inj hstep
        exact .clause h
      · exact nomatch hstep
  | leave => exact aside_leave h hstep
  | finish =>
      unfold step at hstep
      dsimp only at hstep
      split at hstep
      · next hframes =>
          rw [State.Ordered, hframes] at h
          cases h
      · exact nomatch hstep
  | runCleanup => cases hquiet
  | exit => cases hquiet
  | unwind => cases hquiet

theorem ordered_enterDefault {id : ℕ} {label : Label} (h : s.InOrder)
    (hstep : step s (.enterDefault id label) = some s') :
    s'.Ordered (watch s none (.enterDefault id label)) := by
  rw [watch]
  split
  · next htop => exact inOrder_enterDefault h htop hstep
  · unfold step at hstep
    dsimp only at hstep
    split at hstep
    · obtain rfl := Option.some.inj hstep
      exact .base rfl h
    · exact nomatch hstep

theorem ordered_step {aside : Option ℕ} {a : Act} (h : s.Ordered aside)
    (hserves : AsideServes s aside a) (hstep : step s a = some s') :
    s'.Ordered (watch s aside a) := by
  cases aside with
  | some depth => exact aside_step h hserves hstep
  | none =>
      cases a with
      | enterDefault => exact ordered_enterDefault h hstep
      | _ =>
          refine inOrder_step h ?_ hstep
          exact hserves

end Asides

section Runs

def actorLabel : Label :=
  { base := ascii "Actor", args := [] }

def consoleLabel : Label :=
  { base := ascii "Console", args := [] }

/-- A fiber with a handler of `Actor`. -/
def actorState : State :=
  (step .init (.push actorLabel false)).getD .init

/-- The same fiber in a default clause of `Console`. -/
def defaultState : State :=
  (step actorState (.enterDefault 0 consoleLabel)).getD .init

/-- The same fiber in a clause of its handler. -/
def clauseState : State :=
  (step actorState (.enter actorState.ctx.top)).getD .init

theorem clauseState_run : ReflTransGen Serves State.init clauseState := by
  have hpush : Serves State.init actorState :=
    ⟨.push actorLabel false, ⟨(fun hon => nomatch hon), fun _ => .inr (descend_of_le (Nat.zero_le _)),
      by decide⟩, rfl⟩
  have henter : Serves actorState clauseState := by
    refine ⟨.enter actorState.ctx.top, fun m hm hbelow => ?_, rfl⟩
    obtain rfl | hm := onChain_node.1 hm
    · exact nomatch hbelow
    · exact nomatch hm
  exact .tail (.single hpush) henter

theorem clauseState_agrees : clauseState.Agrees ∧ evFindFiber clauseState.ctx actorLabel = null :=
  ⟨agrees_run clauseState_run trivial, (agrees_run clauseState_run trivial).fast actorLabel⟩

/-- In a default clause over a handler of `Actor` the fast search misses what the full one finds. -/
theorem defaultState_disagrees :
    step .init (.push actorLabel false) = some actorState ∧
      step actorState (.enterDefault 0 consoleLabel) = some defaultState ∧
      defaultState.Running ∧ evFindFiber defaultState.ctx actorLabel = null ∧
      evFind defaultState.ctx.top actorLabel defaultState.ctx.disp ≠ null ∧
      ¬ defaultState.Agrees := by
  have hfast : evFindFiber defaultState.ctx actorLabel = null := by
    have hcur : descend 1 (defaultNode 0 consoleLabel) = defaultNode 0 consoleLabel :=
      descend_of_le (Nat.zero_le 1)
    refine Eq.trans (if_pos ⟨?_, .inr ?_⟩) rfl
    · change descend 1 (defaultNode 0 consoleLabel) ≠ null
      rw [hcur, defaultNode]
      simp
    · change null ≠ descend 1 (defaultNode 0 consoleLabel)
      rw [hcur, defaultNode]
      simp
  have hfull : evFind defaultState.ctx.top actorLabel defaultState.ctx.disp ≠ null := by decide
  refine ⟨rfl, rfl, trivial, hfast, hfull, fun hagrees => hfull ?_⟩
  rw [hagrees.full, ← hagrees.fast, hfast]

end Runs

end Kaikai.Evidence
