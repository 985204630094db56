import Kaikai.AvlRun

namespace Kaikai.AvlMap

variable {κ ν : Type}

/-- Every packed field is a machine word. -/
def Worded : Tree κ ν → Prop
  | .tEmpty => True
  | .tNode _ _ p l r => Word64.InRange p ∧ Worded l ∧ Worded r

theorem worded_treeNode {l r : Tree κ ν} (hl : Worded l) (hr : Worded r) (k : κ) (v : ν) :
    Worded (treeNode k v l r) :=
  ⟨Word64.wrap_inRange _, hl, hr⟩

theorem worded_treeRotateRight {t : Tree κ ν} (h : Worded t) : Worded (treeRotateRight t) := by
  rcases t with _ | ⟨yk, yv, _, _ | ⟨xk, xv, _, t1, t2⟩, t3⟩
  · exact h
  · exact h
  · obtain ⟨-, ⟨-, h1, h2⟩, h3⟩ := h
    exact worded_treeNode h1 (worded_treeNode h2 h3 yk yv) xk xv

theorem worded_treeRotateLeft {t : Tree κ ν} (h : Worded t) : Worded (treeRotateLeft t) := by
  rcases t with _ | ⟨xk, xv, _, t1, _ | ⟨yk, yv, _, t2, t3⟩⟩
  · exact h
  · exact h
  · obtain ⟨-, h1, -, h2, h3⟩ := h
    exact worded_treeNode (worded_treeNode h1 h2 xk xv) h3 yk yv

theorem worded_treeBalance {t : Tree κ ν} (h : Worded t) : Worded (treeBalance t) := by
  rcases t with _ | ⟨nk, nv, _, l, r⟩
  · exact h
  · obtain ⟨-, hl, hr⟩ := h
    rw [treeBalance]
    split_ifs
    · exact worded_treeRotateRight (worded_treeNode (worded_treeRotateLeft hl) hr nk nv)
    · exact worded_treeRotateRight (worded_treeNode hl hr nk nv)
    · exact worded_treeRotateLeft (worded_treeNode hl (worded_treeRotateRight hr) nk nv)
    · exact worded_treeRotateLeft (worded_treeNode hl hr nk nv)
    · exact worded_treeNode hl hr nk nv

theorem worded_treeInsert [LinearOrder κ] {t : Tree κ ν} (h : Worded t) (key : κ) (value : ν) :
    Worded (treeInsert t key value) := by
  induction t with
  | tEmpty => exact ⟨by decide, trivial, trivial⟩
  | tNode nk nv _ l r ihl ihr =>
      obtain ⟨-, hl, hr⟩ := h
      rw [treeInsert]
      split_ifs
      · exact worded_treeNode hl hr nk value
      · exact worded_treeBalance (worded_treeNode (ihl hl) hr nk nv)
      · exact worded_treeBalance (worded_treeNode hl (ihr hr) nk nv)

/-- The subtrees that are lower than 64 are read back as they are. -/
def Reads (t : Tree κ ν) : Prop :=
  ∀ s, Subtree s t → height s < 64 → treeHeight s = height s ∧ treeSize s = nodes s

theorem Reads.left {k : κ} {v : ν} {p : Int} {l r : Tree κ ν} (h : Reads (.tNode k v p l r)) :
    Reads l :=
  fun s hs => h s (.left hs)

theorem Reads.right {k : κ} {v : ν} {p : Int} {l r : Tree κ ν} (h : Reads (.tNode k v p l r)) :
    Reads r :=
  fun s hs => h s (.right hs)

theorem Reads.packed {t : Tree κ ν} (hreads : Reads t) (hworded : Worded t) (hh : height t < 64) :
    Packed t := by
  induction t with
  | tEmpty => trivial
  | tNode k v p l r ihl ihr =>
      obtain ⟨hheight, hsize⟩ := hreads _ (.refl _) hh
      have hp := Int.mul_tdiv_add_tmod p 64
      rw [treeHeight] at hheight
      rw [treeSize] at hsize
      rw [hheight, hsize] at hp
      rw [height] at hh
      refine ⟨?_, ihl hreads.left hworded.2.1 (by omega), ihr hreads.right hworded.2.2 (by omega)⟩
      have hword : ((nodes (.tNode k v p l r) : Int) * 64 + height (.tNode k v p l r)) = p := by
        rw [mul_comm, hp]
      rw [hword, Word64.wrap_eq_self hworded.1.1 hworded.1.2]

theorem Reads.fits {t : Tree κ ν} (hreads : Reads t) (hworded : Worded t) (hh : height t < 64) :
    Fits t := by
  refine ⟨hh, ?_⟩
  rcases t with _ | ⟨k, v, p, l, r⟩
  · exact Nat.two_pow_pos 57
  · obtain ⟨hheight, hsize⟩ := hreads _ (.refl _) hh
    have hhigh := hworded.1.2
    have hp := Int.mul_tdiv_add_tmod p 64
    rw [treeHeight] at hheight
    rw [treeSize] at hsize
    rw [hheight, hsize] at hp
    omega

theorem Reads.good {t : Tree κ ν} (hreads : Reads t) (hbalanced : Balanced t) (hworded : Worded t)
    (hh : height t < 64) : Good t :=
  ⟨hbalanced, hreads.packed hworded hh⟩

theorem nodes_lt_two_pow (t : Tree κ ν) : nodes t < 2 ^ height t := by
  induction t with
  | tEmpty => exact Nat.one_pos
  | tNode k v p l r ihl ihr =>
      have hl := ihl.trans_le (Nat.pow_le_pow_right Nat.two_pos (le_max_left _ (height r)))
      have hr := ihr.trans_le (Nat.pow_le_pow_right Nat.two_pos (le_max_right (height l) _))
      rw [nodes, height, pow_succ]
      omega

theorem treeHeight_overflow {t : Tree κ ν} (h : Packed t) (hh : height t ≤ 64)
    (hn : nodes t ≤ 2 ^ 57) (hover : ¬ Fits t) : treeHeight t ≤ 0 := by
  rcases t with _ | ⟨k, v, p, l, r⟩
  · exact le_rfl
  · obtain ⟨hp, -⟩ := h
    rw [Fits] at hover
    rw [treeHeight, hp, Word64.wrap]
    generalize nodes (.tNode k v p l r) = n at *
    generalize height (.tNode k v p l r) = h at *
    rcases lt_or_ge (n * 64 + h) (2 ^ 63) with hlt | hge
    · have hmod : ((n * 64 + h + 2 ^ 63) % 2 ^ 64 - 2 ^ 63 : Int) = 64 * (n + 1) := by omega
      rw [hmod, Int.mul_tmod_right]
    · have hneg : ((n * 64 + h + 2 ^ 63) % 2 ^ 64 - 2 ^ 63 : Int) = -(2 ^ 64 - n * 64 - h) := by
        omega
      rw [hneg, Int.neg_tmod, Int.neg_nonpos_iff]
      exact Int.tmod_nonneg 64 (by omega)

theorem rotate_right_shape {l : Tree κ ν} (hl : 0 < height l) (nk : κ) (nv : ν) (r : Tree κ ν) :
    ∃ k v a b, (if treeBalanceFactor l < 0 then
        treeRotateRight (treeNode nk nv (treeRotateLeft l) r)
        else treeRotateRight (treeNode nk nv l r)) = treeNode k v a (treeNode nk nv b r) ∧
      height a ≤ height l := by
  rcases l with _ | ⟨lk, lv, lp, ll, lr⟩
  · cases hl
  · split_ifs
    · rcases lr with _ | ⟨mk, mv, mp, ml, mr⟩
      · refine ⟨lk, lv, ll, .tEmpty, rfl, ?_⟩
        rw [height]
        omega
      · refine ⟨mk, mv, treeNode lk lv ll ml, mr, rfl, ?_⟩
        rw [height_treeNode, height, height]
        omega
    · refine ⟨lk, lv, ll, lr, rfl, ?_⟩
      rw [height]
      omega

theorem rotate_left_height {l r : Tree κ ν} (hlr : height l + 2 ≤ height r) (nk : κ) (nv : ν) :
    height (if treeBalanceFactor r > 0 then
      treeRotateLeft (treeNode nk nv l (treeRotateRight r))
      else treeRotateLeft (treeNode nk nv l r)) ≤ height r + 1 := by
  rcases r with _ | ⟨rk, rv, rp, rl, rr⟩
  · cases hlr
  · split_ifs
    · rcases rl with _ | ⟨mk, mv, mp, ml, mr⟩
      · change height (treeNode rk rv (treeNode nk nv l .tEmpty) rr) ≤ _
        simp only [height_treeNode, height] at hlr ⊢
        omega
      · rw [rotate_left_double]
        simp only [height_treeNode, height] at hlr ⊢
        omega
    · rw [rotate_left_single]
      simp only [height_treeNode, height] at hlr ⊢
      omega

theorem overflow_breaks {nk : κ} {nv : ν} {l r : Tree κ ν} (hl : Good l) (hfl : Fits l)
    (hr : Packed r) (hlow : 2 ≤ height l) (hh : height r ≤ 64) (hn : nodes r ≤ 2 ^ 57)
    (hover : ¬ Fits r) (hbalanced : Balanced (treeBalance (treeNode nk nv l r)))
    (hreads : Reads (treeBalance (treeNode nk nv l r))) : False := by
  have hlh := (hl.packed.decode hfl).1
  have hrh := treeHeight_overflow hr hh hn hover
  have hrlow := (treeHeight_bounds r).1
  have hlt := hfl.1
  have hbf : Word64.sub (treeHeight l) (treeHeight r) > 1 := by
    rw [Word64.sub_eq (by omega) (by omega)]
    omega
  obtain ⟨k, v, a, b, hshape, ha⟩ := rotate_right_shape (Nat.zero_lt_of_lt hlow) nk nv r
  rw [treeNode] at hbalanced hreads
  simp only [treeBalance, if_pos hbf, hshape] at hbalanced hreads
  have hchild : Subtree r (treeNode k v a (treeNode nk nv b r)) := .right (.right (.refl r))
  have hdiff := hbalanced.1.2
  rw [height_treeNode] at hdiff
  have hread := (hreads r hchild (by omega)).1
  have hpos := nodes_lt_two_pow r
  rw [Fits] at hover
  have hzero : height r = 0 := by omega
  rw [hzero] at hpos
  omega

theorem treeBalance_height (nk : κ) (nv : ν) {l r : Tree κ ν} (hl : Good l) (hr : Good r)
    (hfl : Fits l) (hfr : Fits r) (hlr : height l ≤ height r + 1) :
    height (treeBalance (treeNode nk nv l r)) ≤ max (height l) (height r) + 1 := by
  have hfl1 := hfl.1
  have hfr1 := hfr.1
  have hbf := sub_eq_heights hl hr hfl hfr
  have hneg : Word64.sub 0 (height l - height r) = height r - height l := by
    rw [Word64.sub_eq (by omega) (by omega)]
    omega
  rw [treeNode]
  simp only [treeBalance, hbf, hneg]
  rw [if_neg (by omega)]
  by_cases h2 : (height r - height l : Int) > 1
  · rw [if_pos h2]
    have hle := rotate_left_height (l := l) (r := r) (by omega) nk nv
    exact hle.trans (Nat.succ_le_succ (le_max_right _ _))
  · rw [if_neg h2]
    exact le_rfl

/-- Puts of the keys below `n`, from the least one on. -/
def ascendingPuts (n : Nat) : List (Op Int Int) := (List.range n).map fun i : Nat => .put i 0

theorem run_ascendingPuts_succ (n : Nat) : (run (ascendingPuts (n + 1))).root =
    treeInsert (run (ascendingPuts n)).root n 0 := by
  rw [run, ascendingPuts, List.range_succ, List.map_append, List.foldl_append]
  rfl

theorem pairs_treeInsert_last [LinearOrder κ] {t : Tree κ ν} {key : κ}
    (h : ∀ p ∈ pairs t, p.1 < key) (value : ν) :
    pairs (treeInsert t key value) = pairs t ++ [(key, value)] := by
  induction t with
  | tEmpty => rfl
  | tNode nk nv p l r _ ihr =>
      have hnk : nk < key := h (nk, nv) (by simp [pairs])
      have hr := ihr fun q hq => h q (by simp [pairs, hq])
      rw [treeInsert, if_neg hnk.ne', if_neg hnk.not_gt, pairs_treeBalance, pairs_treeNode, hr,
        pairs, List.append_assoc, List.cons_append]

theorem pairs_ascendingPuts (n : Nat) :
    pairs (run (ascendingPuts n)).root = (List.range n).map fun i : Nat => ((i : Int), (0 : Int)) := by
  induction n with
  | zero => rfl
  | succ n ih =>
      rw [run_ascendingPuts_succ, pairs_treeInsert_last, ih, List.range_succ, List.map_append]
      · rfl
      · rw [ih]
        intro p hp
        obtain ⟨i, hi, rfl⟩ := List.mem_map.1 hp
        exact Int.ofNat_lt.2 (List.mem_range.1 hi)

theorem nodes_ascendingPuts (n : Nat) : nodes (run (ascendingPuts n)).root = n := by
  rw [nodes_eq, pairs_ascendingPuts, List.length_map, List.length_range]

theorem worded_ascendingPuts (n : Nat) : Worded (run (ascendingPuts n)).root := by
  induction n with
  | zero => exact trivial
  | succ n ih =>
      rw [run_ascendingPuts_succ]
      exact worded_treeInsert ih n 0

theorem height_ascendingPuts (h : ∀ n, Balanced (run (ascendingPuts n)).root ∧
    Reads (run (ascendingPuts n)).root) (n : Nat) :
    height (run (ascendingPuts n)).root ≤ 64 := by
  induction n with
  | zero => exact Nat.zero_le 64
  | succ n ih =>
      obtain ⟨hbalanced', hreads'⟩ := h (n + 1)
      obtain ⟨hbalanced, hreads⟩ := h n
      have hworded := worded_ascendingPuts n
      have hpairs := pairs_ascendingPuts n
      rw [run_ascendingPuts_succ] at hbalanced' hreads' ⊢
      generalize (run (ascendingPuts n)).root = t at *
      rcases t with _ | ⟨nk, nv, p, l, r⟩
      · exact Nat.succ_le_succ (Nat.zero_le 63)
      · have hnk : nk < (n : Int) := by
          have hm : (nk, nv) ∈ pairs (.tNode nk nv p l r) := by simp [pairs]
          rw [hpairs] at hm
          obtain ⟨i, hi, heq⟩ := List.mem_map.1 hm
          cases heq
          exact Int.ofNat_lt.2 (List.mem_range.1 hi)
        rw [treeInsert, if_neg hnk.ne', if_neg hnk.not_gt] at hbalanced' hreads' ⊢
        rw [height] at ih
        obtain ⟨hdiff, hbl, hbr⟩ := hbalanced
        have hfl := hreads.left.fits hworded.2.1 (by omega)
        have hfr := hreads.right.fits hworded.2.2 (by omega)
        have hl := hreads.left.good hbl hworded.2.1 (by omega)
        have hr := hreads.right.good hbr hworded.2.2 (by omega)
        have hgrown := treeInsert_grown hr hfr (n : Int) 0
        have hnodes := nodes_treeInsert r (n : Int) 0
        have hge := hgrown.ge
        have hle := hgrown.le
        have hfr2 := hfr.2
        generalize treeInsert r (n : Int) 0 = r' at *
        by_cases hover : Fits r'
        · have hl1 := hfl.1
          have hr1 := hover.1
          have hmax := treeBalance_height nk nv hl hgrown.good hfl hover (by omega)
          omega
        · have hlow : 2 ≤ height l := by
            have hpow := nodes_lt_two_pow r
            by_contra hlt
            have hr2 : height r ≤ 2 := by omega
            have hfour := Nat.pow_le_pow_right Nat.two_pos hr2
            rw [Fits] at hover
            omega
          exact (overflow_breaks hl hfl hgrown.good.packed hlow (by omega) (by omega) hover
            hbalanced' hreads').elim

/-- No bound on the heights or on the sizes, no balance and no readable words. -/
theorem balance_gives_out : ¬ ∀ ops : List (Op Int Int), Balanced (run ops).root ∧
    ∀ t, Subtree t (run ops).root → height t < 64 →
      treeHeight t = height t ∧ treeSize t = nodes t := by
  intro h
  have hlt : ∀ n : Nat, n < 2 ^ 64 := by
    intro n
    have hheight := height_ascendingPuts (fun n => h (ascendingPuts n)) n
    calc n = nodes (run (ascendingPuts n)).root := (nodes_ascendingPuts n).symm
      _ < 2 ^ height (run (ascendingPuts n)).root := nodes_lt_two_pow _
      _ ≤ 2 ^ 64 := Nat.pow_le_pow_right Nat.two_pos hheight
  exact Nat.lt_irrefl _ (hlt (2 ^ 64))

end Kaikai.AvlMap
