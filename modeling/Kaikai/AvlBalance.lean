import Kaikai.AvlMap

namespace Kaikai.AvlMap

variable {κ ν : Type}

/-- The longest path and the number of nodes. -/
def height : Tree κ ν → Nat
  | .tEmpty => 0
  | .tNode _ _ _ l r => max (height l) (height r) + 1

def nodes : Tree κ ν → Nat
  | .tEmpty => 0
  | .tNode _ _ _ l r => nodes l + nodes r + 1

def Balanced : Tree κ ν → Prop
  | .tEmpty => True
  | .tNode _ _ _ l r => (height l ≤ height r + 1 ∧ height r ≤ height l + 1) ∧ Balanced l ∧ Balanced r

/-- Every node holds the word of its size and height. -/
def Packed : Tree κ ν → Prop
  | .tEmpty => True
  | .tNode k v p l r =>
      p = Word64.wrap (nodes (.tNode k v p l r) * 64 + height (.tNode k v p l r)) ∧
        Packed l ∧ Packed r

/-- Small enough for its size and height to be read back. -/
def Fits (t : Tree κ ν) : Prop := height t < 64 ∧ nodes t < 2 ^ 57

structure Good (t : Tree κ ν) : Prop where
  balanced : Balanced t
  packed : Packed t

theorem nodes_eq (t : Tree κ ν) : nodes t = (pairs t).length := by
  induction t with
  | tEmpty => rfl
  | tNode nk nv _ l r ihl ihr =>
      rw [nodes, pairs, List.length_append, List.length_cons, ihl, ihr, Nat.add_assoc]

theorem treeHeight_bounds (t : Tree κ ν) : -64 < treeHeight t ∧ treeHeight t < 64 := by
  rcases t with _ | ⟨_, _, p, _, _⟩
  · exact ⟨Int.negSucc_lt_zero _, Int.ofNat_succ_pos _⟩
  · exact ⟨Int.lt_tmod_of_pos p (by decide), Int.tmod_lt_of_pos p (by decide)⟩

theorem Packed.decode {t : Tree κ ν} (h : Packed t) (hfits : Fits t) :
    treeHeight t = height t ∧ treeSize t = nodes t := by
  rcases t with _ | ⟨k, v, p, l, r⟩
  · exact ⟨rfl, rfl⟩
  · obtain ⟨hp, -⟩ := h
    obtain ⟨hh, hn⟩ := hfits
    rw [Word64.wrap_eq_self (by omega) (by omega)] at hp
    rw [treeHeight, treeSize, Int.tmod_eq_emod_of_nonneg (by omega),
      Int.tdiv_eq_ediv_of_nonneg (by omega)]
    omega

theorem Fits.left {k : κ} {v : ν} {p : Int} {l r : Tree κ ν} (h : Fits (.tNode k v p l r)) :
    Fits l := by
  obtain ⟨hh, hn⟩ := h
  rw [height] at hh
  rw [nodes] at hn
  exact ⟨by omega, by omega⟩

theorem Fits.right {k : κ} {v : ν} {p : Int} {l r : Tree κ ν} (h : Fits (.tNode k v p l r)) :
    Fits r := by
  obtain ⟨hh, hn⟩ := h
  rw [height] at hh
  rw [nodes] at hn
  exact ⟨by omega, by omega⟩

theorem Good.left {k : κ} {v : ν} {p : Int} {l r : Tree κ ν} (h : Good (.tNode k v p l r)) :
    Good l :=
  ⟨h.balanced.2.1, h.packed.2.1⟩

theorem Good.right {k : κ} {v : ν} {p : Int} {l r : Tree κ ν} (h : Good (.tNode k v p l r)) :
    Good r :=
  ⟨h.balanced.2.2, h.packed.2.2⟩

@[simp] theorem height_treeNode (k : κ) (v : ν) (l r : Tree κ ν) :
    height (treeNode k v l r) = max (height l) (height r) + 1 :=
  rfl

@[simp] theorem nodes_treeNode (k : κ) (v : ν) (l r : Tree κ ν) :
    nodes (treeNode k v l r) = nodes l + nodes r + 1 :=
  rfl

theorem good_treeNode {l r : Tree κ ν} (hl : Good l) (hr : Good r) (hfl : Fits l) (hfr : Fits r)
    (hbal : height l ≤ height r + 1 ∧ height r ≤ height l + 1) (k : κ) (v : ν) :
    Good (treeNode k v l r) := by
  obtain ⟨hlh, hls⟩ := hl.packed.decode hfl
  obtain ⟨hrh, hrs⟩ := hr.packed.decode hfr
  have hfl1 := hfl.1
  have hfr1 := hfr.1
  have hfl2 := hfl.2
  have hfr2 := hfr.2
  have hh : (if treeHeight l > treeHeight r then Word64.add (treeHeight l) 1
      else Word64.add (treeHeight r) 1) = (max (height l) (height r) + 1 : Int) := by
    rw [hlh, hrh, Word64.add_eq (by omega) (by omega), Word64.add_eq (by omega) (by omega)]
    split_ifs <;> omega
  have hsum : Word64.add (Word64.add (treeSize l) (treeSize r)) 1 = nodes l + nodes r + 1 := by
    have hlr : Word64.add (treeSize l) (treeSize r) = nodes l + nodes r := by
      rw [hls, hrs, Word64.add_eq (by omega) (by omega)]
    rw [hlr, Word64.add_eq (by omega) (by omega)]
  rw [treeNode]
  simp only [hh, hsum]
  refine ⟨⟨hbal, hl.balanced, hr.balanced⟩, ?_, hl.packed, hr.packed⟩
  rw [Word64.add, Word64.mul, Word64.wrap_wrap_add, nodes, height]
  push_cast
  rfl

theorem fits_inner {k : κ} {v : ν} {l r : Tree κ ν} (hh : max (height l) (height r) < 63)
    (hn : nodes l + nodes r + 1 < 2 ^ 57) : Fits (treeNode k v l r) :=
  ⟨by rw [height_treeNode]; omega, hn⟩

/-- What rebalancing a node gives when its children's heights differ by at most two. -/
structure Rebalanced (l r t : Tree κ ν) : Prop where
  good : Good t
  ge : max (height l) (height r) ≤ height t
  le : height t ≤ max (height l) (height r) + 1
  exact : height l ≤ height r + 1 → height r ≤ height l + 1 →
    height t = max (height l) (height r) + 1

theorem sub_eq_heights {l r : Tree κ ν} (hl : Good l) (hr : Good r) (hfl : Fits l) (hfr : Fits r) :
    Word64.sub (treeHeight l) (treeHeight r) = height l - height r := by
  have hfl1 := hfl.1
  have hfr1 := hfr.1
  rw [(hl.packed.decode hfl).1, (hr.packed.decode hfr).1, Word64.sub_eq (by omega) (by omega)]

theorem rotate_right_single (yk xk : κ) (yv xv : ν) (p : Int) (t1 t2 t3 : Tree κ ν) :
    treeRotateRight (treeNode yk yv (.tNode xk xv p t1 t2) t3) =
      treeNode xk xv t1 (treeNode yk yv t2 t3) :=
  rfl

theorem rotate_right_double (nk lk mk : κ) (nv lv mv : ν) (p q : Int) (ll ml mr r : Tree κ ν) :
    treeRotateRight (treeNode nk nv (treeRotateLeft (.tNode lk lv p ll (.tNode mk mv q ml mr))) r) =
      treeNode mk mv (treeNode lk lv ll ml) (treeNode nk nv mr r) :=
  rfl

theorem rotate_left_single (xk yk : κ) (xv yv : ν) (p : Int) (t1 t2 t3 : Tree κ ν) :
    treeRotateLeft (treeNode xk xv t1 (.tNode yk yv p t2 t3)) =
      treeNode yk yv (treeNode xk xv t1 t2) t3 :=
  rfl

theorem rotate_left_double (nk rk mk : κ) (nv rv mv : ν) (p q : Int) (l ml mr rr : Tree κ ν) :
    treeRotateLeft (treeNode nk nv l (treeRotateRight (.tNode rk rv p (.tNode mk mv q ml mr) rr))) =
      treeNode mk mv (treeNode nk nv l ml) (treeNode rk rv mr rr) :=
  rfl

theorem rotate_right_spec {nk : κ} {nv : ν} {l r : Tree κ ν} (hl : Good l) (hr : Good r)
    (hfl : Fits l) (hfr : Fits r) (hh : height l = height r + 2)
    (hn : nodes l + nodes r + 1 ≤ 2 ^ 57) :
    Rebalanced l r (if treeBalanceFactor l < 0 then
      treeRotateRight (treeNode nk nv (treeRotateLeft l) r)
      else treeRotateRight (treeNode nk nv l r)) := by
  have hfl1 := hfl.1
  rcases l with _ | ⟨lk, lv, lp, ll, lr⟩
  · cases hh
  have hbl := hl.balanced.1
  have hfll := hfl.left
  have hflr := hfl.right
  rw [nodes] at hn
  rw [height] at hh hfl1
  rw [treeBalanceFactor, sub_eq_heights hl.left hl.right hfll hflr]
  split_ifs with hbf
  · rcases lr with _ | ⟨mk, mv, mp, ml, mr⟩
    · rw [height] at hbf
      omega
    have hbm := hl.right.balanced.1
    rw [nodes] at hn
    rw [height] at hh hfl1 hbf hbl
    rw [rotate_right_double]
    have hin1 := good_treeNode hl.left hl.right.left hfll hflr.left ⟨by omega, by omega⟩ lk lv
    have hin2 := good_treeNode hl.right.right hr hflr.right hfr ⟨by omega, by omega⟩ nk nv
    have hgood := good_treeNode hin1 hin2 (fits_inner (by omega) (by omega))
      (fits_inner (by omega) (by omega)) (by simp only [height_treeNode]; omega) mk mv
    refine ⟨hgood, ?_, ?_, ?_⟩ <;> simp only [height_treeNode, height] <;> omega
  · rw [rotate_right_single]
    have hin := good_treeNode hl.right hr hflr hfr ⟨by omega, by omega⟩ nk nv
    have hgood := good_treeNode hl.left hin hfll (fits_inner (by omega) (by omega))
      (by simp only [height_treeNode]; omega) lk lv
    refine ⟨hgood, ?_, ?_, ?_⟩ <;> simp only [height_treeNode, height] <;> omega

theorem rotate_left_spec {nk : κ} {nv : ν} {l r : Tree κ ν} (hl : Good l) (hr : Good r)
    (hfl : Fits l) (hfr : Fits r) (hh : height r = height l + 2)
    (hn : nodes l + nodes r + 1 ≤ 2 ^ 57) :
    Rebalanced l r (if treeBalanceFactor r > 0 then
      treeRotateLeft (treeNode nk nv l (treeRotateRight r))
      else treeRotateLeft (treeNode nk nv l r)) := by
  have hfr1 := hfr.1
  rcases r with _ | ⟨rk, rv, rp, rl, rr⟩
  · cases hh
  have hbr := hr.balanced.1
  have hfrl := hfr.left
  have hfrr := hfr.right
  rw [nodes] at hn
  rw [height] at hh hfr1
  rw [treeBalanceFactor, sub_eq_heights hr.left hr.right hfrl hfrr]
  split_ifs with hbf
  · rcases rl with _ | ⟨mk, mv, mp, ml, mr⟩
    · rw [height] at hbf
      omega
    have hbm := hr.left.balanced.1
    rw [nodes] at hn
    rw [height] at hh hfr1 hbf hbr
    rw [rotate_left_double]
    have hin1 := good_treeNode hl hr.left.left hfl hfrl.left ⟨by omega, by omega⟩ nk nv
    have hin2 := good_treeNode hr.left.right hr.right hfrl.right hfrr ⟨by omega, by omega⟩ rk rv
    have hgood := good_treeNode hin1 hin2 (fits_inner (by omega) (by omega))
      (fits_inner (by omega) (by omega)) (by simp only [height_treeNode]; omega) mk mv
    refine ⟨hgood, ?_, ?_, ?_⟩ <;> simp only [height_treeNode, height] <;> omega
  · rw [rotate_left_single]
    have hin := good_treeNode hl hr.left hfl hfrl ⟨by omega, by omega⟩ nk nv
    have hgood := good_treeNode hin hr.right (fits_inner (by omega) (by omega)) hfrr
      (by simp only [height_treeNode]; omega) rk rv
    refine ⟨hgood, ?_, ?_, ?_⟩ <;> simp only [height_treeNode, height] <;> omega

theorem treeBalance_spec (nk : κ) (nv : ν) {l r : Tree κ ν} (hl : Good l) (hr : Good r)
    (hfl : Fits l) (hfr : Fits r) (hlr : height l ≤ height r + 2) (hrl : height r ≤ height l + 2)
    (hn : nodes l + nodes r + 1 ≤ 2 ^ 57) :
    Rebalanced l r (treeBalance (treeNode nk nv l r)) := by
  have hfl1 := hfl.1
  have hfr1 := hfr.1
  have hbf := sub_eq_heights hl hr hfl hfr
  have hneg : Word64.sub 0 (height l - height r) = height r - height l := by
    rw [Word64.sub_eq (by omega) (by omega)]
    omega
  rw [treeNode]
  simp only [treeBalance, hbf, hneg]
  by_cases h1 : (height l - height r : Int) > 1
  · rw [if_pos h1]
    exact rotate_right_spec hl hr hfl hfr (by omega) hn
  · rw [if_neg h1]
    by_cases h2 : (height r - height l : Int) > 1
    · rw [if_pos h2]
      exact rotate_left_spec hl hr hfl hfr (by omega) hn
    · rw [if_neg h2]
      exact ⟨good_treeNode hl hr hfl hfr ⟨by omega, by omega⟩ nk nv, Nat.le_succ _, le_rfl,
        fun _ _ => rfl⟩

theorem nodes_treeBalance (t : Tree κ ν) : nodes (treeBalance t) = nodes t := by
  rw [nodes_eq, nodes_eq, pairs_treeBalance]

theorem nodes_treeRemoveMin (t : Tree κ ν) : nodes (treeRemoveMin t) ≤ nodes t := by
  rcases pairs_min t with ⟨-, rfl⟩ | ⟨mp, -, hpairs⟩
  · exact le_rfl
  · rw [nodes_eq, nodes_eq, hpairs]
    exact Nat.le_succ _

theorem nodes_treeRemoveHere (l r : Tree κ ν) :
    nodes (treeRemoveHere l r) = nodes l + nodes r := by
  rw [nodes_eq, pairs_treeRemoveHere, List.length_append, nodes_eq, nodes_eq]

/-- The tree after an insertion: as high, or one higher. -/
structure Grown (t t' : Tree κ ν) : Prop where
  good : Good t'
  ge : height t ≤ height t'
  le : height t' ≤ height t + 1

/-- The tree after a removal: as high, or one lower. -/
structure Shrunk (t t' : Tree κ ν) : Prop where
  good : Good t'
  ge : height t ≤ height t' + 1
  le : height t' ≤ height t

theorem Grown.fits {t t' : Tree κ ν} (h : Grown t t') (hh : height t < 63) (hn : nodes t' < 2 ^ 57) :
    Fits t' :=
  ⟨h.le.trans_lt (Nat.succ_lt_succ hh), hn⟩

theorem Shrunk.fits {t t' : Tree κ ν} (h : Shrunk t t') (hf : Fits t) (hn : nodes t' ≤ nodes t) :
    Fits t' :=
  ⟨h.le.trans_lt hf.1, hn.trans_lt hf.2⟩

theorem shrunk_left {l l' r : Tree κ ν} {nk mk : κ} {nv mv : ν} {p : Int}
    (h : Good (.tNode nk nv p l r)) (hfits : Fits (.tNode nk nv p l r)) (hl : Shrunk l l')
    (hnodes : nodes l' ≤ nodes l) :
    Shrunk (.tNode nk nv p l r) (treeBalance (treeNode mk mv l' r)) := by
  have hbal := h.balanced.1
  have hle := hl.le
  have hge := hl.ge
  have hn := hfits.2
  rw [nodes] at hn
  obtain ⟨hgood, hmin, hmax, hexact⟩ := treeBalance_spec mk mv hl.good h.right
    (hl.fits hfits.left hnodes) hfits.right (by omega) (by omega) (by omega)
  refine ⟨hgood, ?_, ?_⟩ <;> rw [height] <;> omega

theorem shrunk_right {l r r' : Tree κ ν} {nk mk : κ} {nv mv : ν} {p : Int}
    (h : Good (.tNode nk nv p l r)) (hfits : Fits (.tNode nk nv p l r)) (hr : Shrunk r r')
    (hnodes : nodes r' ≤ nodes r) :
    Shrunk (.tNode nk nv p l r) (treeBalance (treeNode mk mv l r')) := by
  have hbal := h.balanced.1
  have hle := hr.le
  have hge := hr.ge
  have hn := hfits.2
  rw [nodes] at hn
  obtain ⟨hgood, hmin, hmax, hexact⟩ := treeBalance_spec mk mv h.left hr.good
    hfits.left (hr.fits hfits.right hnodes) (by omega) (by omega) (by omega)
  refine ⟨hgood, ?_, ?_⟩ <;> rw [height] <;> omega

theorem treeRemoveMin_shrunk {t : Tree κ ν} (h : Good t) (hfits : Fits t) :
    Shrunk t (treeRemoveMin t) := by
  induction t with
  | tEmpty => exact ⟨h, Nat.zero_le _, le_rfl⟩
  | tNode nk nv p l r ihl _ =>
      rcases l with _ | ⟨lk, lv, lp, ll, lr⟩
      · refine ⟨h.right, ?_, ?_⟩ <;> simp only [treeRemoveMin, height] <;> omega
      · rw [treeRemoveMin]
        · exact shrunk_left h hfits (ihl h.left hfits.left) (nodes_treeRemoveMin _)
        · rintro ⟨⟩

theorem treeRemoveHere_shrunk {nk : κ} {nv : ν} {p : Int} {l r : Tree κ ν}
    (h : Good (.tNode nk nv p l r)) (hfits : Fits (.tNode nk nv p l r)) :
    Shrunk (.tNode nk nv p l r) (treeRemoveHere l r) := by
  have hbal := h.balanced.1
  rcases l with _ | ⟨lk, lv, lp, ll, lr⟩
  · refine ⟨h.right, ?_, ?_⟩ <;> simp only [treeRemoveHere, height] <;> omega
  · rcases r with _ | ⟨rk, rv, rp, rl, rr⟩
    · rw [height, height] at hbal
      refine ⟨h.left, ?_, ?_⟩ <;> simp only [treeRemoveHere, height] <;> omega
    · rcases pairs_min (.tNode rk rv rp rl rr) with ⟨-, hr⟩ | ⟨mp, hmin, -⟩
      · cases hr
      · simp only [treeRemoveHere, hmin]
        exact shrunk_right h hfits (treeRemoveMin_shrunk h.right hfits.right)
          (nodes_treeRemoveMin _)

section Order

variable [LinearOrder κ]

theorem nodes_treeInsert (t : Tree κ ν) (key : κ) (value : ν) :
    nodes (treeInsert t key value) ≤ nodes t + 1 := by
  induction t with
  | tEmpty => exact le_rfl
  | tNode nk nv _ l r ihl ihr =>
      rw [treeInsert]
      split_ifs <;> simp only [nodes_treeBalance, nodes_treeNode, nodes] <;> omega

theorem nodes_treeRemove (t : Tree κ ν) (key : κ) : nodes (treeRemove t key) ≤ nodes t := by
  induction t with
  | tEmpty => exact le_rfl
  | tNode nk nv _ l r ihl ihr =>
      rw [treeRemove]
      split_ifs <;>
        simp only [nodes_treeBalance, nodes_treeNode, nodes_treeRemoveHere, nodes] <;> omega

theorem treeInsert_grown {t : Tree κ ν} (h : Good t) (hfits : Fits t) (key : κ) (value : ν) :
    Grown t (treeInsert t key value) := by
  induction t with
  | tEmpty =>
      refine ⟨⟨⟨⟨Nat.zero_le _, Nat.zero_le _⟩, trivial, trivial⟩, ?_, trivial, trivial⟩,
        Nat.zero_le _, le_rfl⟩
      exact (Word64.wrap_eq_self (by decide) (by decide)).symm
  | tNode nk nv p l r ihl ihr =>
      have hbal := h.balanced.1
      have hh := hfits.1
      have hn := hfits.2
      rw [height] at hh
      rw [nodes] at hn
      rw [treeInsert]
      split_ifs with heq hlt
      · have hnode := good_treeNode h.left h.right hfits.left hfits.right hbal nk value
        exact ⟨hnode, le_rfl, Nat.le_succ _⟩
      · have hl := ihl h.left hfits.left
        have hnl := nodes_treeInsert l key value
        have hfl := hl.fits (by omega) (by omega)
        have hle := hl.le
        have hge := hl.ge
        obtain ⟨hgood, hmin, hmax, hexact⟩ := treeBalance_spec nk nv hl.good h.right
          hfl hfits.right (by omega) (by omega) (by omega)
        refine ⟨hgood, ?_, ?_⟩ <;> rw [height] <;> omega
      · have hr := ihr h.right hfits.right
        have hnr := nodes_treeInsert r key value
        have hfr := hr.fits (by omega) (by omega)
        have hle := hr.le
        have hge := hr.ge
        obtain ⟨hgood, hmin, hmax, hexact⟩ := treeBalance_spec nk nv h.left hr.good
          hfits.left hfr (by omega) (by omega) (by omega)
        refine ⟨hgood, ?_, ?_⟩ <;> rw [height] <;> omega

theorem treeRemove_shrunk {t : Tree κ ν} (h : Good t) (hfits : Fits t) (key : κ) :
    Shrunk t (treeRemove t key) := by
  induction t with
  | tEmpty => exact ⟨h, Nat.zero_le _, le_rfl⟩
  | tNode nk nv p l r ihl ihr =>
      rw [treeRemove]
      split_ifs
      · exact shrunk_left h hfits (ihl h.left hfits.left) (nodes_treeRemove l key)
      · exact shrunk_right h hfits (ihr h.right hfits.right) (nodes_treeRemove r key)
      · exact treeRemoveHere_shrunk h hfits

end Order

end Kaikai.AvlMap
