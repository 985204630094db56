import Kaikai.BinAccept

namespace Kaikai.BinSer

open Kaikai.Str
open Kaikai.Word64
open Kaikai.Stretch

variable {buf : Bytes} {T : DerivedTypes} {dec dec' : Shape → Int → Decoded Val}
variable {α β : Type} {p q : Int} {n n' : Nat}

/-- A value or an error. -/
def Answered (r : Decoded α) : Prop := (∃ v q, r = .ok v q) ∨ ∃ m, r = .err m

theorem answered_ok (v : α) (q : Int) : Answered (.ok v q) := Or.inl ⟨v, q, rfl⟩

theorem answered_err (m : String) : Answered (.err m : Decoded α) := Or.inr ⟨m, rfl⟩

theorem answered_bind_iff {r : Decoded α} {next : α → Int → Decoded β} :
    Answered (r.bind next) ↔ Answered r ∧ ∀ v q, r = .ok v q → Answered (next v q) := by
  cases r <;> simp [Answered, Decoded.bind]

theorem answered_run_iff {r : Run α} {next : α → Decoded β} :
    Answered (.run r next) ↔ ∃ v, r = .ok v ∧ Answered (next v) := by
  cases r <;> simp [Answered, Decoded.run]

/-- A computation that answers no less when the calls inside it do. -/
def Monotone (F : (Shape → Int → Decoded Val) → Decoded α) : Prop :=
  ∀ dec dec', (∀ s p, (dec s p).Le (dec' s p)) → (F dec).Le (F dec')

theorem monotone_call (s : Shape) (p : Int) : Monotone fun dec => dec s p := fun _ _ h => h s p

theorem monotone_guard (s : Shape) (p : Int) : Monotone fun dec => deriveFieldGuard buf dec s p :=
  fun _ _ h => fieldGuard_le h s p

theorem monotone_chain (ss : List Shape) (p : Int) :
    Monotone fun dec => deriveDecodeChain buf dec ss p := fun _ _ h => decodeChain_le h ss p

theorem monotone_loop (elem : Shape) (n : Nat) (p : Int) (acc : List Val) :
    Monotone fun dec => binListFromBytesLoop (dec elem) n p acc :=
  fun _ _ h => listLoop_le (h elem) n p acc

variable {F : (Shape → Int → Decoded Val) → Decoded α}

theorem Monotone.raise (hF : Monotone F) (h : Answered (F (decode buf T n))) (hnm : n ≤ n') :
    F (decode buf T n') = F (decode buf T n) := by
  have hle : (F (decode buf T n)).Le (F (decode buf T n')) := hF _ _ (decode_le hnm)
  rcases hle with hle | hle
  · rw [hle] at h
    rcases h with ⟨v, q, h⟩ | ⟨m, h⟩ <;> cases h
  · exact hle.symm

theorem Monotone.agree (hF : Monotone F) {v : α} (h : Answered (F (decode buf T n)))
    (hv : F (decode buf T n') = .ok v q) : F (decode buf T n) = .ok v q := by
  rcases Nat.le_total n n' with hle | hle
  · rw [← hF.raise h hle, hv]
  · have hvok : Answered (F (decode buf T n')) := hv ▸ answered_ok v q
    rw [hF.raise hvok hle, hv]

/-- The values of a chain of guards: a `Char` leaf is still an integer. -/
def Raw (T : DerivedTypes) (vs : List Val) (ss : List Shape) : Prop :=
  HaveShapes T vs (ss.map rawLeaf) ∧ Shorts vs

/-- In the place of every `Char` leaf stands a scalar value. -/
def Scalars : List Shape → List Val → Prop
  | .char :: ss, .int n :: vs => IsScalar n ∧ Scalars ss vs
  | _ :: ss, _ :: vs => Scalars ss vs
  | _, _ => True

/-- The decoder of a shape answers at a cursor. Its reads pass the end of the register nowhere,
every integer that becomes a character is one, and so it is with the decoders that it calls,
at the cursors to which the wire grammar leads it; no chain of calls goes on for ever. -/
inductive Safe (buf : Bytes) (T : DerivedTypes) : Shape → Int → Prop where
  | int (p : Int) : Safe buf T .int p
  | char {p : Int} (scalar : ∀ x q, InRange x → Placed buf p (leBytes 8 x) q → IsScalar x) :
      Safe buf T .char p
  | bool {p : Int} (room : p + 1 < 2 ^ 63) : Safe buf T .bool p
  | byte {p : Int} (room : p + 1 < 2 ^ 63) : Safe buf T .byte p
  | string {p : Int} (room : p + 4 < 2 ^ 63) : Safe buf T .string p
  | option {p : Int} {elem : Shape} (room : p + 1 < 2 ^ 63)
      (payload : ∀ q, Placed buf p [1] q → Safe buf T elem q) : Safe buf T (.option elem) p
  | list {p : Int} {elem : Shape} (room : p + 4 < 2 ^ 63)
      (elems : ∀ (c : Nat) (vs : List Val) (q : Int), c < 2 ^ 32 → vs.length < c →
        HaveShapes T vs (List.replicate vs.length elem) → Shorts vs →
        Placed buf p (leBytes 4 c ++ wires vs) q → Safe buf T elem q) :
      Safe buf T (.list elem) p
  | record {p : Int} {k : Nat} {fields : List (String × Shape)} (body : T.body k = .record fields)
      (guards : ∀ as s bs vs q, fields.map Prod.snd = as ++ s :: bs → s ≠ .char → Raw T vs as →
        Placed buf p (wires vs) q → Safe buf T s q)
      (scalars : ∀ vs q, Raw T vs (fields.map Prod.snd) → Placed buf p (wires vs) q →
        Scalars (fields.map Prod.snd) vs) :
      Safe buf T (.named k) p
  | sum {p : Int} {k : Nat} {variants : List (List Shape)} (body : T.body k = .sum variants)
      (room : p + 1 < 2 ^ 63)
      (guards : ∀ (idx : Nat) (as : List Shape) s bs vs q, variants[idx]? = some (as ++ s :: bs) →
        s ≠ .char → Raw T vs as → Placed buf p (UInt8.ofNat idx :: wires vs) q → Safe buf T s q)
      (scalars : ∀ (idx : Nat) (ss : List Shape) vs q, variants[idx]? = some ss → Raw T vs ss →
        Placed buf p (UInt8.ofNat idx :: wires vs) q → Scalars ss vs) :
      Safe buf T (.named k) p

theorem not_ok (t : Trap) : ¬ ∃ v : α, (Except.error t : Run α) = .ok v := by
  rintro ⟨v, h⟩
  cases h

theorem fieldValues_iff {ss : List Shape} {vs : List Val} (h : Raw T vs ss) :
    (∃ vals, deriveFieldValues (List.zipWith rawRead ss vs) = .ok vals) ↔ Scalars ss vs := by
  obtain ⟨hshape, hshort⟩ := h
  induction ss generalizing vs with
  | nil =>
      obtain rfl : vs = [] := List.length_eq_zero_iff.1 hshape.length_eq
      exact iff_of_true ⟨[], rfl⟩ trivial
  | cons s ss ih =>
      cases vs with
      | nil => simp [HaveShapes] at hshape
      | cons v vs =>
          rw [List.map_cons, HaveShapes] at hshape
          rw [Shorts] at hshort
          have ih := ih hshape.2 hshort.2
          have hplain : rawRead s v = .ok v →
              ((∃ vals, deriveFieldValues (List.zipWith rawRead (s :: ss) (v :: vs)) = .ok vals) ↔
                Scalars ss vs) := by
            intro hread
            rw [List.zipWith_cons_cons, deriveFieldValues, hread, ← ih]
            cases deriveFieldValues (List.zipWith rawRead ss vs) with
            | ok ws => exact iff_of_true ⟨_, rfl⟩ ⟨_, rfl⟩
            | error t => exact iff_of_false (not_ok t) (not_ok t)
          cases s with
          | char =>
              cases v with
              | int x =>
                  rw [Scalars, ← ih, ← intToChar_ok_iff, List.zipWith_cons_cons,
                    deriveFieldValues, rawRead]
                  cases intToChar x with
                  | error t => exact iff_of_false (not_ok t) fun h => not_ok t h.1
                  | ok ch =>
                      cases deriveFieldValues (List.zipWith rawRead ss vs) with
                      | ok ws => exact iff_of_true ⟨_, rfl⟩ ⟨⟨ch, rfl⟩, ⟨ws, rfl⟩⟩
                      | error t => exact iff_of_false (not_ok t) fun h => not_ok t h.2
              | _ => simp [rawLeaf, HasShape] at hshape
          | _ => exact hplain rfl

theorem tag_answers (buf : Bytes) (hp : InRange p) : (∃ t, binTagAt buf p = .ok t) ↔ p + 1 < 2 ^ 63 := by
  rw [binTagAt]
  cases head_spec buf hp (w := 1) (c := 1) rfl (by decide) with
  | here hpi hlen hspan hhave hadd hget =>
      have hfits := buf.fits
      have hinside := hspan.inside
      have hstop := hspan.stop
      rw [if_pos hhave, hget]
      exact iff_of_true ⟨_, rfl⟩ (by omega)
  | short hhave hroom hnone =>
      rw [if_neg (by rw [hhave]; decide)]
      exact iff_of_true ⟨_, rfl⟩ hroom
  | past hhave hadd hpast hget hnone =>
      rw [if_pos hhave, hget]
      exact iff_of_false (not_ok _) (by omega)

theorem boolEnd_answers (buf : Bytes) (hp : InRange p) :
    (∃ e, binBoolEnd buf p = .ok e) ↔ p + 1 < 2 ^ 63 := by
  rw [binBoolEnd]
  cases head_spec buf hp (w := 1) (c := 1) rfl (by decide) with
  | here hpi hlen hspan hhave hadd hget =>
      have hfits := buf.fits
      have hinside := hspan.inside
      have hstop := hspan.stop
      rw [hhave, if_neg (by decide), hget]
      exact iff_of_true ⟨_, rfl⟩ (by omega)
  | short hhave hroom hnone =>
      rw [hhave, if_pos (by decide)]
      exact iff_of_true ⟨_, rfl⟩ hroom
  | past hhave hadd hpast hget hnone =>
      rw [hhave, if_neg (by decide), hget]
      exact iff_of_false (not_ok _) (by omega)

theorem stringEnd_answers (buf : Bytes) (hp : InRange p) :
    (∃ e, binStringEnd buf p = .ok e) ↔ p + 4 < 2 ^ 63 := by
  rw [binStringEnd]
  cases head_spec buf hp (w := 4) (c := 4) rfl (by decide) with
  | here hpi hlen hspan hhave hadd hget =>
      have hfits := buf.fits
      have hinside := hspan.inside
      have hstop := hspan.stop
      rw [hhave, if_neg (by decide), hget]
      exact iff_of_true ⟨_, rfl⟩ (by omega)
  | short hhave hroom hnone =>
      rw [hhave, if_pos (by decide)]
      exact iff_of_true ⟨_, rfl⟩ hroom
  | past hhave hadd hpast hget hnone =>
      rw [hhave, if_neg (by decide), hget]
      exact iff_of_false (not_ok _) (by omega)

theorem guard_of_leaf {s : Shape} {r : BinPrim} (hr : binserPrimReader s = some r)
    (hend : binserPrimEnd buf r p = .ok q) (hq : 0 ≤ q) :
    deriveFieldGuard buf dec s p = .ok (binserPrimAt buf r p) q := by
  rw [deriveFieldGuard, hr]
  dsimp only
  rw [hend, Decoded.run_ok, if_neg (by omega)]

theorem int_placed {x : Int} (hx : InRange x) (h : Placed buf p (leBytes 8 x) q) :
    binIntEnd buf p = q ∧ 0 ≤ q ∧ binIntAt buf p = .ok x := by
  obtain ⟨i, j, rfl, rfl, hspan⟩ := h.spans (leBytes_ne_nil _ _)
  obtain ⟨hhave, hadd⟩ := cursor_spans hspan (c := 8) (by rw [length_leBytes]; rfl)
  refine ⟨?_, by omega, ?_⟩
  · rw [binIntEnd, if_pos hhave, hadd]
  · rw [binIntAt, bytesGetLe_spans hspan (length_leBytes 8 x), wrap_leNat_int hx]

theorem guard_complete {s : Shape} {v : Val} (hv : HasShape T v (rawLeaf s)) (hshort : Short v)
    (h : Placed buf p (wire v) q) :
    ∃ n, deriveFieldGuard buf (decode buf T n) s p = .ok (rawRead s v) q := by
  obtain ⟨n, hn⟩ := decode_wire v (rawLeaf s) hv hshort p q h
  have hleaf : ∀ {r}, binserPrimReader (rawLeaf s) = some r →
      binserPrimEnd buf r p = .ok q ∧ 0 ≤ q ∧ binserPrimAt buf r p = .ok v := by
    intro r hr
    have hn' := decode_ok_mono hn (Nat.le_succ n)
    rw [decode_readsLeaves n (rawLeaf s) r hr] at hn'
    exact leafFromBytes_eq_ok_iff.1 hn'
  refine ⟨n, ?_⟩
  cases s with
  | int =>
      obtain ⟨hend, hq, hat⟩ := hleaf rfl
      rw [guard_of_leaf rfl hend hq, hat]
      rfl
  | bool =>
      obtain ⟨hend, hq, hat⟩ := hleaf rfl
      rw [guard_of_leaf rfl hend hq, hat]
      rfl
  | string =>
      obtain ⟨hend, hq, hat⟩ := hleaf rfl
      rw [guard_of_leaf rfl hend hq, hat]
      rfl
  | char =>
      cases v with
      | int x =>
          rw [wire] at h
          obtain ⟨hend, hq, hat⟩ := int_placed hv h
          have hend' : binserPrimEnd buf .bpChar p = .ok q := congrArg Except.ok hend
          rw [guard_of_leaf rfl hend' hq, binserPrimAt, binCharAt, hat]
          rfl
      | _ => simp [rawLeaf, HasShape] at hv
  | _ => exact congrArg (fun r : Decoded Val => r.bind fun v p => Decoded.ok (Except.ok v) p) hn

theorem Raw.cons_iff {s : Shape} {ss : List Shape} {v : Val} {vs : List Val} :
    Raw T (v :: vs) (s :: ss) ↔ (HasShape T v (rawLeaf s) ∧ Short v) ∧ Raw T vs ss := by
  rw [Raw, Raw, List.map_cons, HaveShapes, Shorts]
  exact and_and_and_comm

theorem Raw.exists_cons {s : Shape} {ss : List Shape} {vs : List Val} (h : Raw T vs (s :: ss)) :
    ∃ v ws, vs = v :: ws := by
  cases vs with
  | nil => exact absurd h.1 (by simp [HaveShapes])
  | cons v ws => exact ⟨v, ws, rfl⟩

theorem Raw.eq_nil {vs : List Val} (h : Raw T vs []) : vs = [] :=
  List.length_eq_zero_iff.1 h.1.length_eq

theorem chain_complete {ss : List Shape} {vs : List Val} (h : Raw T vs ss)
    (hplaced : Placed buf p (wires vs) q) :
    ∃ n, deriveDecodeChain buf (decode buf T n) ss p = .ok (List.zipWith rawRead ss vs) q := by
  induction ss generalizing p vs with
  | nil =>
      obtain rfl := h.eq_nil
      rw [wires, placed_nil_iff] at hplaced
      subst hplaced
      exact ⟨0, rfl⟩
  | cons s ss ih =>
      obtain ⟨v, vs, rfl⟩ := h.exists_cons
      obtain ⟨hv, hvs⟩ := Raw.cons_iff.1 h
      rw [wires] at hplaced
      obtain ⟨m, hhead, htail⟩ := placed_append_iff.1 hplaced
      obtain ⟨n₁, hguard⟩ := guard_complete hv.1 hv.2 hhead
      obtain ⟨n₂, hchain⟩ := ih hvs htail
      refine ⟨max n₁ n₂, ?_⟩
      have hguard' := (monotone_guard s p).raise (n := n₁) (hguard ▸ answered_ok _ _)
        (le_max_left n₁ n₂)
      have hchain' := (monotone_chain ss m).raise (n := n₂) (hchain ▸ answered_ok _ _)
        (le_max_right n₁ n₂)
      rw [deriveDecodeChain, hguard', hguard, Decoded.bind_ok, hchain', hchain, Decoded.bind_ok,
        List.zipWith_cons_cons]

section Necessity

theorem guard_of_chain {as bs : List Shape} {s : Shape} {vs : List Val}
    (h : Answered (deriveDecodeChain buf (decode buf T n) (as ++ s :: bs) p)) (hvs : Raw T vs as)
    (hplaced : Placed buf p (wires vs) q) :
    Answered (deriveFieldGuard buf (decode buf T n) s q) := by
  induction as generalizing p vs with
  | nil =>
      obtain rfl := hvs.eq_nil
      rw [wires, placed_nil_iff] at hplaced
      subst hplaced
      rw [List.nil_append, deriveDecodeChain, answered_bind_iff] at h
      exact h.1
  | cons a as ih =>
      obtain ⟨v, vs, rfl⟩ := hvs.exists_cons
      obtain ⟨hv, hvs⟩ := Raw.cons_iff.1 hvs
      rw [wires] at hplaced
      obtain ⟨m, hhead, htail⟩ := placed_append_iff.1 hplaced
      obtain ⟨n', hguard⟩ := guard_complete hv.1 hv.2 hhead
      rw [List.cons_append, deriveDecodeChain, answered_bind_iff] at h
      have hnext := h.2 _ _ ((monotone_guard a p).agree h.1 hguard)
      rw [answered_bind_iff] at hnext
      exact ih hnext.1 hvs htail

theorem elem_of_loop {elem : Shape} {c : Nat} {vs acc : List Val}
    (h : Answered (binListFromBytesLoop (decode buf T n elem) c p acc)) (hlen : vs.length < c)
    (hvs : HaveShapes T vs (List.replicate vs.length elem)) (hshort : Shorts vs)
    (hplaced : Placed buf p (wires vs) q) : Answered (decode buf T n elem q) := by
  induction vs generalizing p c acc with
  | nil =>
      obtain ⟨c, rfl⟩ := Nat.exists_eq_succ_of_ne_zero (Nat.ne_of_gt hlen)
      rw [wires, placed_nil_iff] at hplaced
      subst hplaced
      rw [binListFromBytesLoop, answered_bind_iff] at h
      exact h.1
  | cons v vs ih =>
      obtain ⟨c, rfl⟩ := Nat.exists_eq_succ_of_ne_zero (Nat.ne_of_gt (Nat.zero_lt_of_lt hlen))
      rw [List.length_cons, List.replicate_succ, HaveShapes] at hvs
      rw [Shorts] at hshort
      rw [wires] at hplaced
      obtain ⟨m, hhead, htail⟩ := placed_append_iff.1 hplaced
      obtain ⟨n', hv⟩ := decode_wire v elem hvs.1 hshort.1 p m hhead
      rw [binListFromBytesLoop, answered_bind_iff] at h
      have hnext := h.2 _ _ ((monotone_call elem p).agree h.1 hv)
      exact ih hnext (by simpa using hlen) hvs.2 hshort.2 htail

theorem safe_of_guard {s : Shape} (hs : s ≠ .char) (hq : InRange q)
    (h : Answered (deriveFieldGuard buf (decode buf T n) s q))
    (ih : Answered (decode buf T n s q) → Safe buf T s q) : Safe buf T s q := by
  have hprim : ∀ {r}, binserPrimReader s = some r → ∃ e, binserPrimEnd buf r q = .ok e := by
    intro r hr
    rw [deriveFieldGuard, hr] at h
    obtain ⟨e, he, -⟩ := answered_run_iff.1 h
    exact ⟨e, he⟩
  cases s with
  | int => exact Safe.int q
  | bool => exact Safe.bool ((boolEnd_answers buf hq).1 (hprim rfl))
  | string => exact Safe.string ((stringEnd_answers buf hq).1 (hprim rfl))
  | char => exact absurd rfl hs
  | _ => exact ih (answered_bind_iff.1 h).1

theorem scalars_of_payload {ss : List Shape} {vs : List Val} {build : List Val → Val}
    (h : Answered ((deriveDecodeChain buf (decode buf T n) ss p).bind fun reads q =>
      .run (deriveFieldValues reads) fun vals => .ok (build vals) q))
    (hvs : Raw T vs ss) (hplaced : Placed buf p (wires vs) q) : Scalars ss vs := by
  obtain ⟨n', hchain⟩ := chain_complete hvs hplaced
  rw [answered_bind_iff] at h
  have hread := h.2 _ _ ((monotone_chain ss p).agree h.1 hchain)
  obtain ⟨vals, hvals, -⟩ := answered_run_iff.1 hread
  exact (fieldValues_iff hvs).1 ⟨vals, hvals⟩

theorem safe_of_answered {s : Shape} (hp : InRange p) (h : Answered (decode buf T n s p)) :
    Safe buf T s p := by
  induction n generalizing s p with
  | zero => rcases h with ⟨v, q, h⟩ | ⟨m, h⟩ <;> cases h
  | succ n ih =>
      rw [decode] at h
      cases s with
      | int => exact Safe.int p
      | bool =>
          obtain ⟨e, he, -⟩ := answered_run_iff.1 h
          exact Safe.bool ((boolEnd_answers buf hp).1 ⟨e, he⟩)
      | string =>
          obtain ⟨e, he, -⟩ := answered_run_iff.1 h
          exact Safe.string ((stringEnd_answers buf hp).1 ⟨e, he⟩)
      | char =>
          refine Safe.char fun x q hx hplaced => ?_
          obtain ⟨hend, hq, hat⟩ := int_placed hx hplaced
          rw [deriveDecodeCallAt, binCharFromBytes, leafFromBytes] at h
          obtain ⟨e, he, hnext⟩ := answered_run_iff.1 h
          obtain rfl : q = e := hend.symm.trans (Except.ok.inj he)
          rw [if_neg (by omega), binserPrimAt, binCharAt, hat] at hnext
          obtain ⟨v, hv, -⟩ := answered_run_iff.1 hnext
          apply intToChar_ok_iff.1
          cases hch : intToChar x with
          | ok ch => exact ⟨ch, rfl⟩
          | error t =>
              have hbad : (do return Val.char (← intToChar x) : Run Val) = .ok v := hv
              rw [hch] at hbad
              cases hbad
      | byte =>
          obtain ⟨t, ht, -⟩ := answered_run_iff.1 h
          exact Safe.byte ((tag_answers buf hp).1 ⟨t, ht⟩)
      | list elem =>
          rw [deriveDecodeCallAt, binListFromBytes] at h
          cases head_spec buf hp (w := 4) (c := 4) rfl (by decide) with
          | @here bs i k hpi hlen hspan hhave hadd hget =>
              subst hpi
              have hroom : (i : Int) + 4 < 2 ^ 63 := by
                have hfits := buf.fits
                have hinside := hspan.inside
                have hstop := hspan.stop
                omega
              refine Safe.list hroom fun c vs q hc hlt hvs hshort hplaced => ?_
              obtain ⟨m, hcount, helems⟩ := placed_append_iff.1 hplaced
              obtain ⟨i', k', hi, rfl, hspan'⟩ := hcount.spans (leBytes_ne_nil _ _)
              obtain rfl : i = i' := by omega
              have hk : k = k' := by
                rw [← hspan.stop, ← hspan'.stop, hlen, length_leBytes]
              subst hk
              rw [hspan.unique hspan', wrap_leNat_count hc] at hget
              rw [hhave, if_neg (by decide), hget, hadd, Decoded.run_ok, Int.toNat_natCast] at h
              exact ih (hplaced.inRange hp) (elem_of_loop h hlt hvs hshort helems)
          | short hhave hroom hnone =>
              refine Safe.list hroom fun c vs q hc hlt hvs hshort hplaced => ?_
              obtain ⟨m, hcount, -⟩ := placed_append_iff.1 hplaced
              obtain ⟨i, k, hi, -, hspan⟩ := hcount.spans (leBytes_ne_nil _ _)
              exact absurd (length_leBytes 4 _) (hnone i k _ hi hspan)
          | past hhave hadd hpast hget hnone =>
              rw [hhave, if_neg (by decide), hget] at h
              obtain ⟨v, hv, -⟩ := answered_run_iff.1 h
              cases hv
      | option elem =>
          rw [deriveDecodeCallAt, binOptionFromBytes] at h
          cases head_spec buf hp (w := 1) (c := 1) rfl (by decide) with
          | @here bs i k hpi hlen hspan hhave hadd hget =>
              subst hpi
              have hroom : (i : Int) + 1 < 2 ^ 63 := by
                have hfits := buf.fits
                have hinside := hspan.inside
                have hstop := hspan.stop
                omega
              refine Safe.option hroom fun q hplaced => ?_
              obtain ⟨i', k', hi, rfl, hspan'⟩ := hplaced.spans (List.cons_ne_nil _ _)
              obtain rfl : i = i' := by omega
              have hk : k = k' := by
                rw [← hspan.stop, ← hspan'.stop, hlen]
                rfl
              subst hk
              rw [hspan.unique hspan', wrap_leNat_byte] at hget
              rw [hhave, if_neg (by decide), hget, hadd, Decoded.run_ok] at h
              rw [if_neg (by decide), if_pos (by decide), answered_bind_iff] at h
              exact ih (hplaced.inRange hp) h.1
          | short hhave hroom hnone =>
              refine Safe.option hroom fun q hplaced => ?_
              obtain ⟨i, k, hi, -, hspan⟩ := hplaced.spans (List.cons_ne_nil _ _)
              exact absurd rfl (hnone i k _ hi hspan)
          | past hhave hadd hpast hget hnone =>
              rw [hhave, if_neg (by decide), hget] at h
              obtain ⟨v, hv, -⟩ := answered_run_iff.1 h
              cases hv
      | named k =>
          rw [deriveDecodeCallAt, deriveFromBytes] at h
          cases hbody : T.body k with
          | record fields =>
              rw [hbody] at h
              refine Safe.record hbody ?_ ?_
              · intro as s bs vs q hfields hs hvs hplaced
                have hchain := (answered_bind_iff.1 h).1
                rw [hfields] at hchain
                have hq := hplaced.inRange hp
                exact safe_of_guard hs hq (guard_of_chain hchain hvs hplaced) (ih hq)
              · intro vs q hvs hplaced
                exact scalars_of_payload h hvs hplaced
          | sum variants =>
              rw [hbody] at h
              obtain ⟨t, ht, hnext⟩ := answered_run_iff.1 h
              have hroom := (tag_answers buf hp).1 ⟨t, ht⟩
              -- the tag on the wire selects the branch that the decoder takes
              have hbranch : ∀ {idx : Nat} {ss : List Shape} {vs : List Val} {q : Int},
                  variants[idx]? = some ss → Placed buf p (UInt8.ofNat idx :: wires vs) q →
                  ∃ m, Placed buf m (wires vs) q ∧ InRange m ∧
                    Answered ((deriveDecodeChain buf (decode buf T n) ss m).bind fun reads q =>
                      .run (deriveFieldValues reads) fun vals => .ok (Val.variant idx vals) q) := by
                intro idx ss vs q hidx hplaced
                rw [← List.singleton_append] at hplaced
                obtain ⟨m, htag, hrest⟩ := placed_append_iff.1 hplaced
                obtain ⟨hread, hadd, hchain⟩ := branch_of_tag (T.variants_le k variants hbody) hidx htag
                obtain rfl := Except.ok.inj (ht.symm.trans hread)
                rw [if_neg (by omega), hchain, hadd] at hnext
                exact ⟨m, hrest, htag.inRange hp, hnext⟩
              refine Safe.sum hbody hroom ?_ ?_
              · intro idx as s bs vs q hidx hs hvs hplaced
                obtain ⟨m, hrest, hm, hpay⟩ := hbranch hidx hplaced
                have hq := hplaced.inRange hp
                exact safe_of_guard hs hq
                  (guard_of_chain (answered_bind_iff.1 hpay).1 hvs hrest) (ih hq)
              · intro idx ss vs q hidx hvs hplaced
                obtain ⟨m, hrest, hm, hpay⟩ := hbranch hidx hplaced
                exact scalars_of_payload hpay hvs hrest

end Necessity

section Sufficiency

theorem guard_answers {s : Shape}
    (h : s ≠ .char → ∃ n, Answered (decode buf T n s q)) :
    ∃ n, Answered (deriveFieldGuard buf (decode buf T n) s q) := by
  have hmeasure : ∀ {r} {e : Int}, binserPrimReader s = some r → binserPrimEnd buf r q = .ok e →
      ∃ n, Answered (deriveFieldGuard buf (decode buf T n) s q) := by
    intro r e hr hend
    refine ⟨0, ?_⟩
    rw [deriveFieldGuard, hr]
    apply answered_run_iff.2 ⟨e, hend, ?_⟩
    split_ifs
    · exact answered_err _
    · exact answered_ok _ _
  have hprim : ∀ {r}, s ≠ .char → binserPrimReader s = some r →
      ∃ n, Answered (deriveFieldGuard buf (decode buf T n) s q) := by
    intro r hs hr
    obtain ⟨n, hn⟩ := h hs
    rw [← (monotone_call s q).raise hn (Nat.le_succ n), decode_readsLeaves n s r hr] at hn
    obtain ⟨e, hend, -⟩ := answered_run_iff.1 hn
    exact hmeasure hr hend
  have hcall : s ≠ .char → binserPrimReader s = none →
      ∃ n, Answered (deriveFieldGuard buf (decode buf T n) s q) := by
    intro hs hr
    obtain ⟨n, hn⟩ := h hs
    refine ⟨n, ?_⟩
    rw [deriveFieldGuard, hr]
    exact answered_bind_iff.2 ⟨hn, fun v m _ => answered_ok _ _⟩
  cases s with
  | char => exact hmeasure (e := binIntEnd buf q) rfl rfl
  | int => exact hprim (by simp) rfl
  | bool => exact hprim (by simp) rfl
  | string => exact hprim (by simp) rfl
  | _ => exact hcall (by simp) rfl

theorem chain_answers {ss : List Shape} (hp : InRange p)
    (h : ∀ as s bs vs q, ss = as ++ s :: bs → s ≠ .char → Raw T vs as →
      Placed buf p (wires vs) q → ∃ n, Answered (decode buf T n s q)) :
    ∃ n, Answered (deriveDecodeChain buf (decode buf T n) ss p) := by
  induction ss generalizing p with
  | nil => exact ⟨0, answered_ok _ _⟩
  | cons s ss ih =>
      have hhead : s ≠ .char → ∃ n, Answered (decode buf T n s p) := fun hs =>
        h [] s ss [] p rfl hs ⟨trivial, trivial⟩ (placed_nil_iff.2 rfl)
      obtain ⟨n₁, hguard⟩ := guard_answers hhead
      rcases hguard with ⟨r, m, hok⟩ | ⟨msg, herr⟩
      · obtain ⟨v, rfl, hv, hshort, hplaced⟩ := guard_accepts (decode_accepts n₁) hp hok
        have htail : ∀ as t bs vs q, ss = as ++ t :: bs → t ≠ .char → Raw T vs as →
            Placed buf m (wires vs) q → ∃ n, Answered (decode buf T n t q) := by
          intro as t bs vs q hss ht hvs hrest
          apply h (s :: as) t bs (v :: vs) q (by rw [hss]; rfl) ht
          · exact Raw.cons_iff.2 ⟨⟨hv, hshort⟩, hvs⟩
          · rw [wires]
            exact placed_append_iff.2 ⟨m, hplaced, hrest⟩
        obtain ⟨n₂, hchain⟩ := ih (hplaced.inRange hp) htail
        refine ⟨max n₁ n₂, ?_⟩
        have hguard' := (monotone_guard s p).raise (hok ▸ answered_ok _ _) (le_max_left n₁ n₂)
        have hchain' := (monotone_chain ss m).raise hchain (le_max_right n₁ n₂)
        rw [deriveDecodeChain, hguard', hok, Decoded.bind_ok, hchain', answered_bind_iff]
        exact ⟨hchain, fun vs q _ => answered_ok _ _⟩
      · refine ⟨n₁, ?_⟩
        rw [deriveDecodeChain, herr]
        exact answered_err _

theorem loop_answers (elem : Shape) (c : Nat) (acc : List Val) (hp : InRange p)
    (h : ∀ (vs : List Val) q, vs.length < c → HaveShapes T vs (List.replicate vs.length elem) →
      Shorts vs → Placed buf p (wires vs) q → ∃ n, Answered (decode buf T n elem q)) :
    ∃ n, Answered (binListFromBytesLoop (decode buf T n elem) c p acc) := by
  induction c generalizing p acc with
  | zero => exact ⟨0, answered_ok _ _⟩
  | succ c ih =>
      obtain ⟨n₁, hhead⟩ := h [] p (Nat.succ_pos c) trivial trivial (placed_nil_iff.2 rfl)
      rcases hhead with ⟨v, m, hok⟩ | ⟨msg, herr⟩
      · obtain ⟨hv, hshort, hplaced⟩ := decode_accepts n₁ elem p v m hp hok
        have htail : ∀ (vs : List Val) q, vs.length < c →
            HaveShapes T vs (List.replicate vs.length elem) → Shorts vs →
            Placed buf m (wires vs) q → ∃ n, Answered (decode buf T n elem q) := by
          intro vs q hlt hvs hshorts hrest
          apply h (v :: vs) q (Nat.succ_lt_succ hlt)
          · rw [List.length_cons, List.replicate_succ, HaveShapes]
            exact ⟨hv, hvs⟩
          · rw [Shorts]
            exact ⟨hshort, hshorts⟩
          · rw [wires]
            exact placed_append_iff.2 ⟨m, hplaced, hrest⟩
        obtain ⟨n₂, hloop⟩ := ih (v :: acc) (hplaced.inRange hp) htail
        refine ⟨max n₁ n₂, ?_⟩
        have hcall' := (monotone_call elem p).raise (hok ▸ answered_ok _ _) (le_max_left n₁ n₂)
        have hloop' := (monotone_loop elem c m (v :: acc)).raise hloop (le_max_right n₁ n₂)
        rw [binListFromBytesLoop, hcall', hok, Decoded.bind_ok, hloop']
        exact hloop
      · refine ⟨n₁, ?_⟩
        rw [binListFromBytesLoop, herr]
        exact answered_err _

theorem payload_answers {ss : List Shape} (build : List Val → Val) (hp : InRange p)
    (hchain : ∃ n, Answered (deriveDecodeChain buf (decode buf T n) ss p))
    (hscalar : ∀ vs q, Raw T vs ss → Placed buf p (wires vs) q → Scalars ss vs) :
    ∃ n, Answered ((deriveDecodeChain buf (decode buf T n) ss p).bind fun reads q =>
      .run (deriveFieldValues reads) fun vals => .ok (build vals) q) := by
  obtain ⟨n, hn⟩ := hchain
  refine ⟨n, answered_bind_iff.2 ⟨hn, fun reads q hok => ?_⟩⟩
  obtain ⟨vs, rfl, hshape, hshort, hplaced⟩ := chain_accepts (decode_accepts n) hp hok
  obtain ⟨vals, hvals⟩ := (fieldValues_iff ⟨hshape, hshort⟩).2
    (hscalar vs q ⟨hshape, hshort⟩ hplaced)
  exact answered_run_iff.2 ⟨vals, hvals, answered_ok _ _⟩

theorem leaf_answers {r : BinPrim} {e : Int} (hend : binserPrimEnd buf r p = .ok e)
    (hat : 0 ≤ e → ∃ v, binserPrimAt buf r p = .ok v) : Answered (leafFromBytes buf r p) := by
  rw [leafFromBytes, answered_run_iff]
  refine ⟨e, hend, ?_⟩
  split_ifs with hneg
  · exact answered_err _
  · obtain ⟨v, hv⟩ := hat (Int.not_lt.1 hneg)
    exact answered_run_iff.2 ⟨v, hv, answered_ok _ _⟩

theorem answered_of_safe {s : Shape} (h : Safe buf T s p) (hp : InRange p) :
    ∃ n, Answered (decode buf T n s p) := by
  induction h with
  | int p =>
      refine ⟨1, leaf_answers (r := .bpInt) rfl fun hpos => ?_⟩
      obtain ⟨x, -, hat, -⟩ := int_accepts buf hp rfl hpos
      rw [binserPrimAt, hat]
      exact ⟨_, rfl⟩
  | @char p scalar =>
      refine ⟨1, leaf_answers (r := .bpChar) rfl fun hpos => ?_⟩
      obtain ⟨x, hx, hat, hplaced⟩ := int_accepts buf hp rfl hpos
      obtain ⟨ch, hch⟩ := intToChar_ok_iff.2 (scalar x _ hx hplaced)
      rw [binserPrimAt, binCharAt, hat]
      refine ⟨.char ch, ?_⟩
      show (do return Val.char (← intToChar x)) = _
      rw [hch]
      rfl
  | @bool p room =>
      obtain ⟨e, he⟩ := (boolEnd_answers buf hp).2 room
      refine ⟨1, leaf_answers (r := .bpBool) he fun hpos => ?_⟩
      obtain ⟨b, hat, -⟩ := bool_accepts hp he hpos
      rw [binserPrimAt, hat]
      exact ⟨_, rfl⟩
  | @string p room =>
      obtain ⟨e, he⟩ := (stringEnd_answers buf hp).2 room
      refine ⟨1, leaf_answers (r := .bpString) he fun hpos => ?_⟩
      obtain ⟨t, hat, -⟩ := string_accepts hp he hpos
      rw [binserPrimAt, hat]
      exact ⟨_, rfl⟩
  | @byte p room =>
      obtain ⟨t, ht⟩ := (tag_answers buf hp).2 room
      refine ⟨1, ?_⟩
      rw [decode, deriveDecodeCallAt, deriveDecodeByte, answered_run_iff]
      refine ⟨t, ht, ?_⟩
      split_ifs with hneg
      · exact answered_err _
      · have hlt := (tag_accepts hp ht (Int.not_lt.1 hneg)).1
        refine answered_run_iff.2 ⟨UInt8.ofNat t.toNat, ?_, answered_ok _ _⟩
        rw [binByte, if_neg (by omega)]
  | @option p elem room payload ih =>
      cases head_spec buf hp (w := 1) (c := 1) rfl (by decide) with
      | @here bs i j hpi hlen hspan hhave hadd hget =>
          subst hpi
          obtain ⟨b, rfl⟩ := List.length_eq_one_iff.1 hlen
          rw [wrap_leNat_byte] at hget
          by_cases hsome : b = 1
          · subst hsome
            have hplaced := Placed.of_spans hspan
            obtain ⟨n, hn⟩ := ih j hplaced (hplaced.inRange hp)
            refine ⟨n + 1, ?_⟩
            rw [decode, deriveDecodeCallAt, binOptionFromBytes, hhave, if_neg (by decide), hget,
              Decoded.run_ok, if_neg (by decide), if_pos (by decide), hadd, answered_bind_iff]
            exact ⟨hn, fun v m _ => answered_ok _ _⟩
          · have hone : (1 : UInt8).toNat = 1 := rfl
            have hne : ¬ (b.toNat : Int) = 1 := fun h => hsome (UInt8.toNat_inj.1 (by omega))
            refine ⟨1, ?_⟩
            rw [decode, deriveDecodeCallAt, binOptionFromBytes, hhave, if_neg (by decide), hget,
              Decoded.run_ok, if_neg hne]
            split_ifs
            · exact answered_ok _ _
            · exact answered_err _
      | short hhave hroom hnone =>
          refine ⟨1, ?_⟩
          rw [decode, deriveDecodeCallAt, binOptionFromBytes, hhave, if_pos (by decide)]
          exact answered_err _
      | past hhave hadd hpast hget hnone => omega
  | @list p elem room elems ih =>
      cases head_spec buf hp (w := 4) (c := 4) rfl (by decide) with
      | @here bs i k hpi hlen hspan hhave hadd hget =>
          subst hpi
          have hlt := leNat_lt bs
          rw [hlen] at hlt
          rw [wrap_eq_self (by omega) (by omega)] at hget
          have hcount := Placed.of_spans hspan
          rw [← leBytes_leNat_count hlen] at hcount
          obtain ⟨n, hn⟩ := loop_answers (T := T) elem (leNat bs) []
            (hcount.inRange hp) fun vs q hless hvs hshort hplaced =>
              ih (leNat bs) vs q (by omega) hless hvs hshort
                (placed_append_iff.2 ⟨k, hcount, hplaced⟩)
                (hplaced.inRange (hcount.inRange hp))
          refine ⟨n + 1, ?_⟩
          rw [decode, deriveDecodeCallAt, binListFromBytes, hhave, if_neg (by decide), hget,
            Decoded.run_ok, Int.toNat_natCast, hadd]
          exact hn
      | short hhave hroom hnone =>
          refine ⟨1, ?_⟩
          rw [decode, deriveDecodeCallAt, binListFromBytes, hhave, if_pos (by decide)]
          exact answered_err _
      | past hhave hadd hpast hget hnone => omega
  | @record p k fields body guards scalars ih =>
      have hchain := chain_answers hp fun as s bs vs q hfields hs hvs hplaced =>
        ih as s bs vs q hfields hs hvs hplaced (hplaced.inRange hp)
      obtain ⟨n, hn⟩ := payload_answers (.record (fields.map Prod.fst)) hp hchain scalars
      refine ⟨n + 1, ?_⟩
      rw [decode, deriveDecodeCallAt, deriveFromBytes, body]
      exact hn
  | @sum p k variants body room guards scalars ih =>
      obtain ⟨t, ht⟩ := (tag_answers buf hp).2 room
      by_cases hneg : t < 0
      · refine ⟨1, ?_⟩
        rw [decode, deriveDecodeCallAt, deriveFromBytes, body]
        refine answered_run_iff.2 ⟨t, ht, ?_⟩
        rw [if_pos hneg]
        exact answered_err _
      · have htag := (tag_accepts hp ht (Int.not_lt.1 hneg)).2
        cases hbranch : deriveSumTagChain t variants 0 with
        | none =>
            refine ⟨1, ?_⟩
            rw [decode, deriveDecodeCallAt, deriveFromBytes, body]
            refine answered_run_iff.2 ⟨t, ht, ?_⟩
            rw [if_neg hneg, hbranch]
            exact answered_err _
        | some branch =>
            obtain ⟨idx, ss⟩ := branch
            obtain ⟨rfl, -, hidx⟩ := deriveSumTagChain_some hbranch
            rw [Nat.sub_zero] at hidx
            rw [Int.toNat_natCast] at htag
            have hwhole : ∀ {vs q}, Placed buf (add p 1) (wires vs) q →
                Placed buf p (UInt8.ofNat idx :: wires vs) q := fun hplaced =>
              placed_append_iff.2 ⟨_, htag, hplaced⟩
            have hm := htag.inRange hp
            have hchain := chain_answers hm fun as s bs vs q hss hs hvs hplaced =>
              ih idx as s bs vs q (hss ▸ hidx) hs hvs (hwhole hplaced) (hplaced.inRange hm)
            obtain ⟨n, hn⟩ := payload_answers (.variant idx) hm hchain
              fun vs q hvs hplaced => scalars idx ss vs q hidx hvs (hwhole hplaced)
            refine ⟨n + 1, ?_⟩
            rw [decode, deriveDecodeCallAt, deriveFromBytes, body]
            refine answered_run_iff.2 ⟨idx, ht, ?_⟩
            rw [if_neg hneg, hbranch]
            exact hn

end Sufficiency

end Kaikai.BinSer
