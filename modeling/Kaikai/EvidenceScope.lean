import Kaikai.Evidence
import Mathlib.Data.List.Basic

namespace Kaikai.Evidence

open Kaikai.Str
open Ev

namespace Ev

/-- The handlers of a chain that a mask leaves in sight, the innermost first. -/
def visible : Ev → Ev → List Ev
  | null, _ => []
  | node h p f, mask =>
      if node h p f = mask then visible p (dispAtPush (node h p f))
      else if mask ≠ null ∧ dispAtPush (node h p f) ≠ mask then visible p mask
      else node h p f :: visible p mask

/-- The innermost node of a chain in a slot. -/
def nearest (i : ℕ) : Ev → Ev
  | null => null
  | node h p f => if h.fl = some i then node h p f else nearest i p

theorem onChain_self (h : Header) (p f : Ev) : (node h p f).onChain (node h p f) = true := by
  rw [onChain, decide_eq_true rfl, Bool.true_or]

theorem onChain_node {h : Header} {p f n : Ev} :
    (node h p f).onChain n = true ↔ node h p f = n ∨ p.onChain n = true := by
  rw [onChain, Bool.or_eq_true, decide_eq_true_eq]

theorem onChain_null (n : Ev) : n.onChain null = false := by
  induction n with
  | null => rfl
  | node h p f ih _ => rw [onChain, ih, Bool.or_false, decide_eq_false_iff_not]; simp

theorem ne_null_of_onChain {n m : Ev} (h : n.onChain m = true) : m ≠ null := by
  rintro rfl
  rw [onChain_null] at h
  exact nomatch h

theorem onChain_parent {n m : Ev} (h : n.parent.onChain m = true) : n.onChain m = true := by
  cases n with
  | null => exact h
  | node hd p f => exact onChain_node.2 (.inr h)

theorem onChain_trans {a b c : Ev} (hab : a.onChain b = true) (hbc : b.onChain c = true) :
    a.onChain c = true := by
  induction a with
  | null => exact nomatch hab
  | node h p f ih _ =>
      obtain rfl | hp := onChain_node.1 hab
      · exact hbc
      · exact onChain_node.2 (.inr (ih hp))

theorem sizeOf_le_of_onChain {n m : Ev} (h : n.onChain m = true) : sizeOf m ≤ sizeOf n := by
  induction n with
  | null => exact nomatch h
  | node hd p f ih _ =>
      obtain rfl | hp := onChain_node.1 h
      · exact Nat.le_refl _
      · have hle := ih hp
        rw [node.sizeOf_spec]
        omega

theorem not_onChain_parent (h : Header) (p f : Ev) : p.onChain (node h p f) = false := by
  by_contra hon
  rw [Bool.not_eq_false] at hon
  have hle := sizeOf_le_of_onChain hon
  rw [node.sizeOf_spec] at hle
  omega

theorem onChain_hopUp (k : ℕ) (n : Ev) : hopUp k n = null ∨ n.onChain (hopUp k n) = true := by
  induction k generalizing n with
  | zero =>
      cases n with
      | null => exact .inl rfl
      | node h p f => exact .inr (onChain_self h p f)
  | succ k ih =>
      obtain h | h := ih n.parent
      · exact .inl h
      · exact .inr (onChain_parent h)

theorem onChain_dispAtPush (h : Header) (p f : Ev) :
    dispAtPush (node h p f) = null ∨ p.onChain (dispAtPush (node h p f)) = true := by
  rw [dispAtPush]
  split
  · exact .inl rfl
  · exact onChain_hopUp _ p

/-- The innermost handler of an effect. -/
def first (label : Label) (scope : List Ev) : Ev :=
  (scope.find? (handles label)).getD null

theorem first_cons (label : Label) (h : Header) (p f : Ev) (scope : List Ev) :
    first label (node h p f :: scope) =
      if effMatch h.label label then node h p f else first label scope := by
  rw [first, List.find?_cons, handles]
  split
  · next hm => rw [if_pos hm, Option.getD_some]
  · next hm => rw [if_neg (Bool.eq_false_iff.1 hm), first]

theorem findFrom_eq (label : Label) (n mask : Ev) :
    findFrom label n mask = first label (visible n mask) := by
  induction n generalizing mask with
  | null => rfl
  | node h p f ih _ =>
      rw [findFrom, visible]
      split
      · dsimp only
        rw [if_neg, ih]
        rintro ⟨hne, hon⟩
        obtain hnull | hchain := onChain_dispAtPush h p f
        · exact hne hnull
        · exact nomatch hon.symm.trans hchain
      · split
        · exact ih mask
        · rw [first_cons, ih]

/-- Depths count the nodes below, slots link the nearest node of their effect, and the handlers in
sight where a node was pushed are the ones recorded for it. -/
def Chained (outer : ℕ → List Ev) : Ev → Prop
  | null => True
  | node h p f =>
      h.depth = p.depth + 1 ∧ h.fl = effFl h.label ∧ (∀ i, h.fl = some i → f = nearest i p) ∧
        visible p (dispAtPush (node h p f)) = outer h.id ∧ Chained outer p

/-- The slot of a node links the next node of its effect. -/
def Linked : Ev → Prop
  | null => True
  | node h p f => ∀ i, h.fl = some i → f = nearest i p

variable {outer : ℕ → List Ev}

theorem Chained.linked {n : Ev} (h : Chained outer n) : Linked n := by
  cases n with
  | null => trivial
  | node hd p f => exact h.2.2.1

theorem Chained.parent {n : Ev} (h : Chained outer n) : Chained outer n.parent := by
  cases n with
  | null => trivial
  | node hd p f => exact h.2.2.2.2

theorem Chained.of_onChain {n m : Ev} (h : Chained outer n) (hm : n.onChain m = true) :
    Chained outer m := by
  induction n with
  | null => exact nomatch hm
  | node hd p f ih _ =>
      obtain rfl | hp := onChain_node.1 hm
      · exact h
      · exact ih h.parent hp

theorem Chained.depth_le {n m : Ev} (h : Chained outer n) (hm : n.onChain m = true) :
    m.depth ≤ n.depth := by
  induction n with
  | null => exact nomatch hm
  | node hd p f ih _ =>
      obtain rfl | hp := onChain_node.1 hm
      · exact Nat.le_refl _
      · have hle := ih h.parent hp
        have hdepth := h.1
        change m.depth ≤ hd.depth
        omega

theorem Chained.depth_lt {hd : Header} {p f m : Ev} (h : Chained outer (node hd p f))
    (hm : p.onChain m = true) : m.depth < hd.depth := by
  have hle := h.parent.depth_le hm
  have hdepth := h.1
  change m.depth ≤ p.depth at hle
  omega

theorem descend_of_le {d : ℕ} {n : Ev} (h : n.depth ≤ d) : descend d n = n := by
  cases n with
  | null => rw [descend]
  | node hd p f =>
      rw [descend, if_neg]
      exact Nat.not_lt.2 h

theorem descend_of_lt {d : ℕ} {h : Header} {p f : Ev} (hlt : d < h.depth) :
    descend d (node h p f) = descend d (dispAtPush (node h p f)) := by
  rw [descend, if_pos hlt]

/-- At the depths of the slotted nodes of a chain, the masks `cur` and `mask` agree. -/
def Aligned (n cur mask : Ev) : Prop :=
  ∀ m, n.onChain m = true → m.fl ≠ none → descend m.depth cur = descend m.depth mask

theorem Aligned.refl (n mask : Ev) : Aligned n mask mask :=
  fun _ _ _ => rfl

theorem Aligned.below {h : Header} {p f cur mask : Ev} (ha : Aligned (node h p f) cur mask) :
    Aligned p cur mask :=
  fun m hm => ha m (onChain_node.2 (.inr hm))

theorem Aligned.through {h : Header} {p f cur : Ev} (hc : Chained outer (node h p f))
    (ha : Aligned (node h p f) cur (node h p f)) : Aligned p cur (dispAtPush (node h p f)) := by
  intro m hm hfl
  rw [ha.below m hm hfl, descend_of_lt (hc.depth_lt hm)]

theorem effFl_of_effMatch {a b : Label} (h : effMatch a b = true) : effFl a = effFl b := by
  rw [effMatch, Bool.or_eq_true, decide_eq_true_eq, Bool.and_eq_true, decide_eq_true_eq] at h
  obtain rfl | ⟨hbase, -⟩ := h
  · rfl
  · rw [effFl, effFl, hbase]

theorem findFl_eq {label : Label} {i : ℕ} (hl : effFl label = some i) {n : Ev}
    (hn : Chained outer n) {cur mask : Ev} (hmask : mask = null ∨ n.onChain mask = true)
    (ha : Aligned n cur mask) : findFl label (nearest i n) cur = first label (visible n mask) := by
  induction n generalizing cur mask with
  | null => rfl
  | node h p f ih _ =>
      have hup := onChain_dispAtPush h p f
      have hbelow : node h p f ≠ mask → mask = null ∨ p.onChain mask = true := fun hne =>
        hmask.imp_right fun hon => (onChain_node.1 hon).resolve_left hne
      rw [nearest, visible]
      split
      · next hfl =>
          have hcur : descend h.depth cur = mask := by
            rw [show h.depth = (node h p f).depth from rfl,
              ha _ (onChain_self h p f) (by rw [Ev.fl, hfl]; simp)]
            refine descend_of_le ?_
            obtain rfl | hon := hmask
            · exact Nat.zero_le _
            · exact hn.depth_le hon
          have hrest : ∀ {up : Ev}, (up = null ∨ p.onChain up = true) → Aligned p mask up →
              findFl label f mask = first label (visible p up) := by
            rw [hn.2.2.1 i hfl]
            exact ih hn.parent
          rw [findFl, hcur]
          split
          · next hskip =>
              by_cases heq : node h p f = mask
              · subst heq
                rw [if_pos rfl]
                exact hrest hup ((Aligned.refl _ _).through hn)
              · rw [if_neg heq, if_pos ⟨hskip.1, hskip.2.resolve_left heq⟩]
                exact hrest (hbelow heq) (Aligned.refl _ _)
          · next hsee =>
              have heq : node h p f ≠ mask := by
                rintro rfl
                exact hsee ⟨by simp, .inl rfl⟩
              have hvisible : ¬ (mask ≠ null ∧ dispAtPush (node h p f) ≠ mask) :=
                fun hhidden => hsee ⟨hhidden.1, .inr hhidden.2⟩
              rw [if_neg heq, if_neg hvisible, first_cons, hrest (hbelow heq) (Aligned.refl _ _)]
      · next hfl =>
          have hmatch : ¬ effMatch h.label label = true := fun hm =>
            hfl (hn.2.1.trans ((effFl_of_effMatch hm).trans hl))
          split
          · next heq =>
              subst heq
              exact ih hn.parent hup (ha.through hn)
          · next heq =>
              have hrest := ih hn.parent (hbelow heq) ha.below
              split
              · exact hrest
              · rw [first_cons, if_neg hmatch, hrest]

end Ev

/-- The mask in force on a chain: a node that is not on it masks nothing. -/
def maskOn (top skip : Ev) : Ev :=
  if skip ≠ null ∧ top.onChain skip then skip else null

theorem maskOn_of_onChain {top skip : Ev} (h : top.onChain skip = true) :
    maskOn top skip = skip :=
  if_pos ⟨ne_null_of_onChain h, h⟩

theorem maskOn_of_not_onChain {top skip : Ev} (h : top.onChain skip = false) :
    maskOn top skip = null :=
  if_neg fun hon => nomatch hon.2.symm.trans h

theorem maskOn_null_or (top skip : Ev) :
    maskOn top skip = null ∨ top.onChain (maskOn top skip) = true := by
  unfold maskOn
  split
  · next h => exact .inr h.2
  · exact .inl rfl

theorem evFind_eq (top : Ev) (label : Label) (skip : Ev) :
    evFind top label skip = first label (visible top (maskOn top skip)) :=
  findFrom_eq label top _

/-- The evidence is in order, with these handlers in sight and this mask in force. -/
structure Sound (outer : ℕ → List Ev) (next : ℕ) (c : Context) (scope : List Ev) (mask : Ev) :
    Prop where
  chained : Chained outer c.top
  older : ∀ m, c.top.onChain m = true → m.address < next
  slots : ∀ i, c.flTop i = nearest i c.top
  inForce : maskOn c.top c.disp = mask
  aligned : Aligned c.top c.disp mask
  dispOlder : c.disp.depth = 0 ∨ c.disp.address < next
  inSight : visible c.top mask = scope

variable {outer : ℕ → List Ev} {next : ℕ} {c : Context} {scope : List Ev} {mask : Ev}

theorem Sound.mask_null_or (h : Sound outer next c scope mask) :
    mask = null ∨ c.top.onChain mask = true := by
  rw [← h.inForce]
  exact maskOn_null_or c.top c.disp

theorem Sound.find_eq (h : Sound outer next c scope mask) (label : Label) :
    evFindFiber c label = first label scope ∧ evFind c.top label c.disp = first label scope := by
  have hfull : evFind c.top label c.disp = first label scope := by
    rw [evFind_eq, h.inForce, h.inSight]
  refine ⟨?_, hfull⟩
  unfold evFindFiber
  split
  · exact hfull
  · next i hl =>
      rw [h.slots, findFl_eq hl h.chained h.mask_null_or h.aligned, h.inSight]

end Kaikai.Evidence
