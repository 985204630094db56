import Kaikai.BinRoundTrip

namespace Kaikai.BinSer

open Kaikai.Str
open Kaikai.Word64
open Kaikai.Stretch

variable {buf : Bytes} {T : DerivedTypes} {dec : Shape → Int → Decoded Val}
variable {i j : Nat} {bs : Str} {p q c : Int} {w : Nat}

theorem leBytes_wrap_leNat (h : bs.length = 8) : leBytes 8 (wrap (leNat bs)) = bs := by
  apply (leNat_inj (by rw [length_leBytes, h])).1
  have hlt := leNat_lt bs
  rw [h] at hlt
  have hval := leNat_leBytes 8 (wrap (leNat bs))
  have hmod : wrap (leNat bs) % 256 ^ 8 = leNat bs := by
    unfold wrap
    omega
  omega

theorem leBytes_leNat_count (h : bs.length = 4) : leBytes 4 (leNat bs : Int) = bs := by
  apply (leNat_inj (by rw [length_leBytes, h])).1
  have hlt := leNat_lt bs
  rw [h] at hlt
  have hval := leNat_leBytes 4 (leNat bs)
  omega

/-- What a read of `w` bytes at the cursor `p` meets: the bytes, the end of the buffer, or the
end of the register. In the last case the sum wraps and the bounds test passes. -/
inductive Head (buf : Bytes) (p : Int) (w : Nat) (c : Int) : Prop where
  | here {bs : Str} {i j : Nat} (hp : p = i) (hlen : bs.length = w)
      (hspan : Spans buf.val i bs j) (hhave : binHave buf.val p c = true) (hadd : add p c = j)
      (hget : bytesGetLe buf.val p w = .ok (wrap (leNat bs)))
  | short (hhave : binHave buf.val p c = false) (hroom : p + c < 2 ^ 63)
      (hnone : ∀ (i j : Nat) (bs : Str), p = i → Spans buf.val i bs j → bs.length ≠ w)
  | past (hhave : binHave buf.val p c = true) (hadd : add p c < 0) (hpast : 2 ^ 63 ≤ p + c)
      (hget : bytesGetLe buf.val p w = .error .outOfRange)
      (hnone : ∀ (i j : Nat) (bs : Str), p = i → Spans buf.val i bs j → bs.length ≠ w)

theorem head_spec (buf : Bytes) (hp : InRange p) (hc : (w : Int) = c) (hw : w < 2 ^ 60) : Head buf p w c := by
  subst hc
  have hfits := buf.fits
  obtain ⟨hlow, hhigh⟩ := hp
  by_cases hpast : 2 ^ 63 ≤ p + w
  · have hadd : add p w < 0 := by
      unfold add wrap
      omega
    refine Head.past ?_ hadd hpast ?_ ?_
    · rw [binHave]
      simp only [Bool.and_eq_true, decide_eq_true_eq]
      omega
    · rw [bytesGetLe, bytesSpan, if_pos (by omega)]
      rfl
    · rintro i j bs rfl hspan
      have hstart := hspan.start_le
      omega
  · have hadd : add p w = p + w := wrap_eq_self (by omega) (by omega)
    by_cases hin : 0 ≤ p ∧ p + w ≤ buf.val.length
    · obtain ⟨i, rfl⟩ := Int.eq_ofNat_of_zero_le hin.1
      have hspan : Spans buf.val i ((buf.val.drop i).take w) (i + w) := by
        have h := spans_slice (s := buf.val) (i := i) (j := i + w) (by omega) (by omega)
        rwa [Nat.add_sub_cancel_left] at h
      have hlen : ((buf.val.drop i).take w).length = w := by
        rw [List.length_take, List.length_drop]
        omega
      obtain ⟨hhave, hcur⟩ := cursor_spans hspan (c := w) (by rw [hlen])
      exact Head.here rfl hlen hspan hhave hcur (bytesGetLe_spans hspan hlen)
    · refine Head.short ?_ (by omega) ?_
      · rw [binHave, hadd]
        simp only [Bool.and_eq_false_iff, decide_eq_false_iff_not]
        omega
      · rintro i j bs rfl hspan hlen
        have hstop := hspan.stop
        have hinside := hspan.inside
        omega

/-- The Unicode scalar values, as `int_to_char` tests for them. -/
def IsScalar (n : Int) : Prop := 0 ≤ n ∧ n ≤ 0x10FFFF ∧ ¬ (0xD800 ≤ n ∧ n ≤ 0xDFFF)

theorem intToChar_eq_ok_iff {n : Int} {ch : Char} :
    intToChar n = .ok ch ↔ n = ch.toNat := by
  constructor
  · intro h
    rw [intToChar] at h
    split_ifs at h with hbad
    obtain rfl := Except.ok.inj h
    have hvalid : n.toNat.isValidChar := by
      unfold Nat.isValidChar
      omega
    have hof : (Char.ofNat n.toNat).toNat = n.toNat := by
      rw [Char.ofNat, dif_pos hvalid]
      rfl
    omega
  · rintro rfl
    exact intToChar_toNat ch

theorem intToChar_ok_iff {n : Int} : (∃ ch, intToChar n = .ok ch) ↔ IsScalar n := by
  rw [intToChar, IsScalar]
  split_ifs with hbad
  · simp only [exists_false, false_iff]
    omega
  · exact iff_of_true ⟨_, rfl⟩ (by omega)

/-- Until the value is built, a `Char` leaf is the integer in its place. -/
def rawLeaf : Shape → Shape
  | .char => .int
  | s => s

/-- The read that is put off until the value is built. -/
def rawRead : Shape → Val → Run Val
  | .char, .int n => do return .char (← intToChar n)
  | _, v => .ok v

/-- Whatever `dec` accepts is a wire form. -/
def Accepts (buf : Bytes) (T : DerivedTypes) (dec : Shape → Int → Decoded Val) : Prop :=
  ∀ s p v q, InRange p → dec s p = .ok v q →
    HasShape T v s ∧ Short v ∧ Placed buf p (wire v) q

theorem Placed.inRange (h : Placed buf p bs q) (hp : InRange p) : InRange q := by
  rcases h with ⟨-, rfl⟩ | ⟨i, j, rfl, rfl, hspan⟩
  · exact hp
  · have hfits := buf.fits
    have hinside := hspan.inside
    unfold InRange
    omega

theorem int_accepts (buf : Bytes) (hp : InRange p) (h : binIntEnd buf p = q) (hq : 0 ≤ q) :
    ∃ x, InRange x ∧ binIntAt buf p = .ok x ∧ Placed buf p (leBytes 8 x) q := by
  subst h
  rw [binIntEnd] at hq ⊢
  cases head_spec buf hp (w := 8) (c := 8) rfl (by decide) with
  | here hpi hlen hspan hhave hadd hget =>
      subst hpi
      refine ⟨_, wrap_inRange _, hget, ?_⟩
      rw [if_pos hhave, hadd, leBytes_wrap_leNat hlen]
      exact Placed.of_spans hspan
  | short hhave hroom hnone =>
      rw [if_neg (by rw [hhave]; decide)] at hq
      exact absurd hq (by decide)
  | past hhave hadd hpast hget hnone =>
      rw [if_pos hhave] at hq
      omega

theorem bool_accepts (hp : InRange p) (h : binBoolEnd buf p = .ok q) (hq : 0 ≤ q) :
    ∃ b, binBoolAt buf p = .ok b ∧ Placed buf p [if b then 1 else 0] q := by
  rw [binBoolEnd] at h
  cases head_spec buf hp (w := 1) (c := 1) rfl (by decide) with
  | here hpi hlen hspan hhave hadd hget =>
      subst hpi
      obtain ⟨b, rfl⟩ := List.length_eq_one_iff.1 hlen
      rw [wrap_leNat_byte] at hget
      rw [hhave, if_neg (by decide), hget] at h
      have hend : (if (b.toNat : Int) > 1 then -2 else add _ 1) = q := Except.ok.inj h
      split_ifs at hend with hbad
      · subst hend
        exact absurd hq (by decide)
      · subst hend
        have hb : b = 0 ∨ b = 1 := by
          have hle : b.toNat = 0 ∨ b.toNat = 1 := by omega
          exact hle.imp (fun h => UInt8.toNat_inj.1 h) fun h => UInt8.toNat_inj.1 h
        refine ⟨decide (b = 1), ?_, ?_⟩
        · rw [binBoolAt, hget]
          rcases hb with rfl | rfl <;> rfl
        · rw [hadd]
          rcases hb with rfl | rfl <;> exact Placed.of_spans hspan
  | short hhave hroom hnone =>
      rw [hhave, if_pos (by decide)] at h
      obtain rfl := Except.ok.inj h
      exact absurd hq (by decide)
  | past hhave hadd hpast hget hnone =>
      rw [hhave, if_neg (by decide), hget] at h
      cases h

theorem string_accepts (hp : InRange p) (h : binStringEnd buf p = .ok q) (hq : 0 ≤ q) :
    ∃ t : Str, binStringAt buf p = .ok t ∧ t.length < 2 ^ 32 ∧
      Placed buf p (leBytes 4 t.length ++ t) q := by
  rw [binStringEnd] at h
  cases head_spec buf hp (w := 4) (c := 4) rfl (by decide) with
  | @here bs i k hpi hlen hspan hhave hadd hget =>
      subst hpi
      have hlt := leNat_lt bs
      rw [hlen] at hlt
      have hcount : wrap (leNat bs) = leNat bs := wrap_eq_self (by omega) (by omega)
      rw [hcount] at hget
      rw [hhave, if_neg (by decide), hget, hadd] at h
      have hk : InRange k := by
        have hfits := buf.fits
        have hinside := hspan.inside
        unfold InRange
        omega
      have hend : (if binHave buf.val k (leNat bs) then add k (leNat bs) else -3) = q :=
        Except.ok.inj h
      cases head_spec buf hk (w := leNat bs) rfl (by omega) with
      | @here t i' j hpi' hlen' hspan' hhave' hadd' hget' =>
          obtain rfl : k = i' := by omega
          rw [if_pos hhave', hadd'] at hend
          subst hend
          refine ⟨t, ?_, by omega, ?_⟩
          · rw [binStringAt, hget, hadd]
            show bytesSpan buf.val k (leNat bs) = _
            rw [← hlen', bytesSpan_spans hspan']
          · rw [hlen', leBytes_leNat_count hlen]
            exact Placed.of_spans (hspan.append hspan')
      | short hhave' hroom' hnone' =>
          rw [if_neg (by rw [hhave']; decide)] at hend
          exact absurd (hend ▸ hq) (by decide)
      | past hhave' hadd' hpast' hget' hnone' =>
          rw [if_pos hhave'] at hend
          omega
  | short hhave hroom hnone =>
      rw [hhave, if_pos (by decide)] at h
      obtain rfl := Except.ok.inj h
      exact absurd hq (by decide)
  | past hhave hadd hpast hget hnone =>
      rw [hhave, if_neg (by decide), hget] at h
      cases h

theorem prim_accepts {s : Shape} {r : BinPrim} (hr : binserPrimReader s = some r) (hp : InRange p)
    (h : binserPrimEnd buf r p = .ok q) (hq : 0 ≤ q) :
    ∃ v, binserPrimAt buf r p = rawRead s v ∧ HasShape T v (rawLeaf s) ∧ Short v ∧
      Placed buf p (wire v) q := by
  cases s with
  | int =>
      obtain rfl := Option.some.inj hr
      obtain ⟨x, hx, hat, hplaced⟩ := int_accepts buf hp (Except.ok.inj h) hq
      refine ⟨.int x, ?_, hx, trivial, ?_⟩
      · rw [binserPrimAt, hat]
        rfl
      · rw [wire]
        exact hplaced
  | bool =>
      obtain rfl := Option.some.inj hr
      obtain ⟨b, hat, hplaced⟩ := bool_accepts hp h hq
      refine ⟨.bool b, ?_, trivial, trivial, ?_⟩
      · rw [binserPrimAt, hat]
        rfl
      · rw [wire]
        exact hplaced
  | string =>
      obtain rfl := Option.some.inj hr
      obtain ⟨t, hat, hlen, hplaced⟩ := string_accepts hp h hq
      refine ⟨.string t, ?_, trivial, hlen, ?_⟩
      · rw [binserPrimAt, hat]
        rfl
      · rw [wire]
        exact hplaced
  | char =>
      obtain rfl := Option.some.inj hr
      obtain ⟨x, hx, hat, hplaced⟩ := int_accepts buf hp (Except.ok.inj h) hq
      refine ⟨.int x, ?_, hx, trivial, ?_⟩
      · rw [binserPrimAt, binCharAt, hat]
        rfl
      · rw [wire]
        exact hplaced
  | _ => cases hr

theorem raw_of_reader_none {s : Shape} (hr : binserPrimReader s = none) (v : Val) :
    rawLeaf s = s ∧ rawRead s v = .ok v := by
  cases s with
  | int => cases hr
  | bool => cases hr
  | string => cases hr
  | char => cases hr
  | _ => exact ⟨rfl, rfl⟩

theorem guard_accepts (hdec : Accepts buf T dec) {s : Shape} {r : Run Val} (hp : InRange p)
    (h : deriveFieldGuard buf dec s p = .ok r q) :
    ∃ v, r = rawRead s v ∧ HasShape T v (rawLeaf s) ∧ Short v ∧ Placed buf p (wire v) q := by
  rw [deriveFieldGuard] at h
  cases hr : binserPrimReader s with
  | some prim =>
      rw [hr] at h
      obtain ⟨e, hend, hnext⟩ := Decoded.run_eq_ok_iff.1 h
      split_ifs at hnext with hneg
      obtain ⟨rfl, rfl⟩ := Decoded.ok.inj hnext
      exact prim_accepts hr hp hend (by omega)
  | none =>
      rw [hr] at h
      obtain ⟨v, m, hv, hnext⟩ := Decoded.bind_eq_ok_iff.1 h
      obtain ⟨rfl, rfl⟩ := Decoded.ok.inj hnext
      obtain ⟨hraw, hread⟩ := raw_of_reader_none hr v
      rw [hraw]
      exact ⟨v, hread.symm, hdec s p v m hp hv⟩

theorem chain_accepts (hdec : Accepts buf T dec) {ss : List Shape} {rs : List (Run Val)}
    (hp : InRange p) (h : deriveDecodeChain buf dec ss p = .ok rs q) :
    ∃ vs, rs = List.zipWith rawRead ss vs ∧ HaveShapes T vs (ss.map rawLeaf) ∧ Shorts vs ∧
      Placed buf p (wires vs) q := by
  induction ss generalizing p rs with
  | nil =>
      obtain ⟨rfl, rfl⟩ := Decoded.ok.inj h
      exact ⟨[], rfl, trivial, trivial, placed_nil_iff.2 rfl⟩
  | cons s ss ih =>
      rw [deriveDecodeChain] at h
      obtain ⟨r, m, hguard, hrest⟩ := Decoded.bind_eq_ok_iff.1 h
      obtain ⟨rs', q', hchain, hnext⟩ := Decoded.bind_eq_ok_iff.1 hrest
      obtain ⟨rfl, rfl⟩ := Decoded.ok.inj hnext
      obtain ⟨v, rfl, hv, hshort, hplaced⟩ := guard_accepts hdec hp hguard
      obtain ⟨vs, rfl, hvs, hshorts, hplaceds⟩ := ih (hplaced.inRange hp) hchain
      refine ⟨v :: vs, rfl, ?_, ?_, ?_⟩
      · rw [List.map_cons, HaveShapes]
        exact ⟨hv, hvs⟩
      · rw [Shorts]
        exact ⟨hshort, hshorts⟩
      · rw [wires]
        exact placed_append_iff.2 ⟨m, hplaced, hplaceds⟩

theorem rawRead_ok {s : Shape} {v w : Val} (hv : HasShape T v (rawLeaf s)) (hshort : Short v)
    (h : rawRead s v = .ok w) : HasShape T w s ∧ Short w ∧ wire w = wire v := by
  cases s with
  | char =>
      cases v with
      | int n =>
          cases hn : intToChar n with
          | error t =>
              rw [rawRead, hn] at h
              cases h
          | ok ch =>
              rw [rawRead, hn] at h
              obtain rfl : Val.char ch = w := Except.ok.inj h
              rw [intToChar_eq_ok_iff.1 hn]
              refine ⟨trivial, trivial, ?_⟩
              rw [wire, wire]
      | _ => simp [rawLeaf, HasShape] at hv
  | _ =>
      obtain rfl := Except.ok.inj h
      exact ⟨hv, hshort, rfl⟩

theorem fieldValues_ok {ss : List Shape} {vs vals : List Val}
    (hvs : HaveShapes T vs (ss.map rawLeaf)) (hshort : Shorts vs)
    (h : deriveFieldValues (List.zipWith rawRead ss vs) = .ok vals) :
    HaveShapes T vals ss ∧ Shorts vals ∧ wires vals = wires vs := by
  induction ss generalizing vs vals with
  | nil =>
      obtain rfl : vs = [] := List.length_eq_zero_iff.1 hvs.length_eq
      obtain rfl := Except.ok.inj h
      exact ⟨trivial, trivial, rfl⟩
  | cons s ss ih =>
      cases vs with
      | nil => simp [HaveShapes] at hvs
      | cons v vs =>
          rw [List.map_cons, HaveShapes] at hvs
          rw [Shorts] at hshort
          rw [List.zipWith_cons_cons, deriveFieldValues] at h
          cases hread : rawRead s v with
          | error t =>
              rw [hread] at h
              cases h
          | ok w =>
              cases hrest : deriveFieldValues (List.zipWith rawRead ss vs) with
              | error t =>
                  rw [hread, hrest] at h
                  cases h
              | ok ws =>
                  rw [hread, hrest] at h
                  obtain rfl : w :: ws = vals := Except.ok.inj h
                  obtain ⟨hw, hshortw, hwire⟩ := rawRead_ok hvs.1 hshort.1 hread
                  obtain ⟨hws, hshortws, hwires⟩ := ih hvs.2 hshort.2 hrest
                  rw [HaveShapes, Shorts, wires, wires, hwire, hwires]
                  exact ⟨⟨hw, hws⟩, ⟨hshortw, hshortws⟩, rfl⟩

theorem payload_accepts (hdec : Accepts buf T dec) {ss : List Shape} {vals : List Val}
    {rs : List (Run Val)} (hp : InRange p) (hchain : deriveDecodeChain buf dec ss p = .ok rs q)
    (hvals : deriveFieldValues rs = .ok vals) :
    HaveShapes T vals ss ∧ Shorts vals ∧ Placed buf p (wires vals) q := by
  obtain ⟨vs, rfl, hvs, hshorts, hplaced⟩ := chain_accepts hdec hp hchain
  obtain ⟨hshape, hshort, hwires⟩ := fieldValues_ok hvs hshorts hvals
  rw [hwires]
  exact ⟨hshape, hshort, hplaced⟩

theorem listLoop_accepts (hdec : Accepts buf T dec) {elem : Shape} {n : Nat} {acc : List Val}
    {v : Val} (hp : InRange p) (h : binListFromBytesLoop (dec elem) n p acc = .ok v q) :
    ∃ vs, v = .list (acc.reverse ++ vs) ∧ vs.length = n ∧
      HaveShapes T vs (List.replicate n elem) ∧ Shorts vs ∧ Placed buf p (wires vs) q := by
  induction n generalizing p acc with
  | zero =>
      obtain ⟨rfl, rfl⟩ := Decoded.ok.inj h
      refine ⟨[], ?_, rfl, trivial, trivial, placed_nil_iff.2 rfl⟩
      rw [List.append_nil]
  | succ n ih =>
      rw [binListFromBytesLoop] at h
      obtain ⟨x, m, hx, hrest⟩ := Decoded.bind_eq_ok_iff.1 h
      obtain ⟨hshape, hshort, hplaced⟩ := hdec elem p x m hp hx
      obtain ⟨vs, rfl, hlen, hshapes, hshorts, hplaceds⟩ := ih (hplaced.inRange hp) hrest
      refine ⟨x :: vs, ?_, ?_, ?_, ?_, ?_⟩
      · rw [List.reverse_cons, List.append_assoc]
        rfl
      · rw [List.length_cons, hlen]
      · rw [List.replicate_succ, HaveShapes]
        exact ⟨hshape, hshapes⟩
      · rw [Shorts]
        exact ⟨hshort, hshorts⟩
      · rw [wires]
        exact placed_append_iff.2 ⟨m, hplaced, hplaceds⟩

theorem tag_accepts {t : Int} (hp : InRange p) (h : binTagAt buf p = .ok t) (ht : 0 ≤ t) :
    t < 256 ∧ Placed buf p [UInt8.ofNat t.toNat] (add p 1) := by
  rw [binTagAt] at h
  cases head_spec buf hp (w := 1) (c := 1) rfl (by decide) with
  | here hpi hlen hspan hhave hadd hget =>
      subst hpi
      obtain ⟨b, rfl⟩ := List.length_eq_one_iff.1 hlen
      rw [if_pos hhave, hget, wrap_leNat_byte] at h
      obtain rfl := Except.ok.inj h
      have hb : b.toNat < 256 := b.toNat_lt
      rw [Int.toNat_natCast, UInt8.ofNat_toNat, hadd]
      exact ⟨by omega, Placed.of_spans hspan⟩
  | short hhave hroom hnone =>
      rw [if_neg (by rw [hhave]; decide)] at h
      obtain rfl := Except.ok.inj h
      exact absurd ht (by decide)
  | past hhave hadd hpast hget hnone =>
      rw [if_pos hhave, hget] at h
      cases h

theorem deriveSumTagChain_some {tag : Int} {variants : List (List Shape)} {base idx : Nat}
    {vargs : List Shape} (h : deriveSumTagChain tag variants base = some (idx, vargs)) :
    tag = idx ∧ base ≤ idx ∧ variants[idx - base]? = some vargs := by
  induction variants generalizing base with
  | nil => cases h
  | cons v rest ih =>
      rw [deriveSumTagChain] at h
      split_ifs at h with htag
      · obtain ⟨rfl, rfl⟩ := Prod.mk.inj (Option.some.inj h)
        exact ⟨htag, le_refl _, by simp⟩
      · obtain ⟨hidx, hle, hget⟩ := ih h
        refine ⟨hidx, by omega, ?_⟩
        have hsucc : idx - base = idx - (base + 1) + 1 := by omega
        rw [hsucc, List.getElem?_cons_succ, hget]

theorem leaf_accepts {s : Shape} {r : BinPrim} {v : Val} (hr : binserPrimReader s = some r)
    (hp : InRange p) (h : leafFromBytes buf r p = .ok v q) :
    HasShape T v s ∧ Short v ∧ Placed buf p (wire v) q := by
  obtain ⟨hend, hq, hat⟩ := leafFromBytes_eq_ok_iff.1 h
  obtain ⟨raw, hread, hraw, hshort, hplaced⟩ := prim_accepts (T := T) hr hp hend hq
  obtain ⟨hv, hshortv, hwire⟩ := rawRead_ok hraw hshort (hread.symm.trans hat)
  rw [hwire]
  exact ⟨hv, hshortv, hplaced⟩

theorem decodeCallAt_accepts (hdec : Accepts buf T dec) :
    Accepts buf T (deriveDecodeCallAt buf T dec) := by
  intro s p v q hp h
  cases s with
  | int => exact leaf_accepts rfl hp h
  | bool => exact leaf_accepts rfl hp h
  | string => exact leaf_accepts rfl hp h
  | char => exact leaf_accepts rfl hp h
  | byte =>
      rw [deriveDecodeCallAt, deriveDecodeByte] at h
      obtain ⟨t, htag, hnext⟩ := Decoded.run_eq_ok_iff.1 h
      split_ifs at hnext with hneg
      obtain ⟨b, hbyte, hok⟩ := Decoded.run_eq_ok_iff.1 hnext
      obtain ⟨rfl, rfl⟩ := Decoded.ok.inj hok
      obtain ⟨hlt, hplaced⟩ := tag_accepts hp htag (by omega)
      rw [binByte, if_neg (by omega)] at hbyte
      obtain rfl := Except.ok.inj hbyte
      refine ⟨trivial, trivial, ?_⟩
      rw [wire]
      exact hplaced
  | list elem =>
      rw [deriveDecodeCallAt, binListFromBytes] at h
      split_ifs at h with hhave
      rw [Bool.not_eq_true, Bool.not_eq_false'] at hhave
      obtain ⟨n, hget, hloop⟩ := Decoded.run_eq_ok_iff.1 h
      cases head_spec buf hp (w := 4) (c := 4) rfl (by decide) with
      | @here bs i k hpi hlen hspan _ hadd hread =>
          subst hpi
          have hlt := leNat_lt bs
          rw [hlen] at hlt
          rw [hread, wrap_eq_self (by omega) (by omega)] at hget
          obtain rfl := Except.ok.inj hget
          rw [hadd, Int.toNat_natCast] at hloop
          have hk := (Placed.of_spans hspan).inRange hp
          obtain ⟨vs, rfl, hcount, hshapes, hshorts, hplaced⟩ := listLoop_accepts hdec hk hloop
          rw [List.reverse_nil, List.nil_append, HasShape, Short, wire, hcount,
            leBytes_leNat_count hlen]
          exact ⟨hshapes, ⟨by omega, hshorts⟩,
            placed_append_iff.2 ⟨k, Placed.of_spans hspan, hplaced⟩⟩
      | short hfalse hroom hnone => exact absurd (hhave.symm.trans hfalse) (by decide)
      | past _ hadd hpast hread hnone =>
          rw [hread] at hget
          cases hget
  | option elem =>
      rw [deriveDecodeCallAt, binOptionFromBytes] at h
      split_ifs at h with hhave
      rw [Bool.not_eq_true, Bool.not_eq_false'] at hhave
      obtain ⟨t, hget, hnext⟩ := Decoded.run_eq_ok_iff.1 h
      have htag : binTagAt buf p = .ok t := by rw [binTagAt, if_pos hhave, hget]
      split_ifs at hnext with hnone hsome
      · subst hnone
        obtain ⟨rfl, rfl⟩ := Decoded.ok.inj hnext
        refine ⟨trivial, trivial, ?_⟩
        rw [wire]
        exact (tag_accepts hp htag (by decide)).2
      · subst hsome
        obtain ⟨x, m, hx, hok⟩ := Decoded.bind_eq_ok_iff.1 hnext
        obtain ⟨rfl, rfl⟩ := Decoded.ok.inj hok
        have hplaced := (tag_accepts hp htag (by decide)).2
        obtain ⟨hshape, hshort, hrest⟩ := hdec elem _ x m (hplaced.inRange hp) hx
        rw [HasShape, Short, wire, ← List.singleton_append]
        exact ⟨hshape, hshort, placed_append_iff.2 ⟨_, hplaced, hrest⟩⟩
  | named k =>
      rw [deriveDecodeCallAt, deriveFromBytes] at h
      cases hbody : T.body k with
      | record fields =>
          rw [hbody] at h
          obtain ⟨rs, m, hchain, hnext⟩ := Decoded.bind_eq_ok_iff.1 h
          obtain ⟨vals, hvals, hok⟩ := Decoded.run_eq_ok_iff.1 hnext
          obtain ⟨rfl, rfl⟩ := Decoded.ok.inj hok
          obtain ⟨hshape, hshort, hplaced⟩ := payload_accepts hdec hp hchain hvals
          rw [HasShape, Short, wire]
          exact ⟨⟨fields, hbody, rfl, hshape⟩, hshort, hplaced⟩
      | sum variants =>
          rw [hbody] at h
          obtain ⟨t, htag, hnext⟩ := Decoded.run_eq_ok_iff.1 h
          split_ifs at hnext with hneg
          have hplaced := (tag_accepts hp htag (by omega)).2
          cases hbranch : deriveSumTagChain t variants 0 with
          | none =>
              rw [hbranch] at hnext
              cases hnext
          | some branch =>
              obtain ⟨idx, vargs⟩ := branch
              rw [hbranch] at hnext
              obtain ⟨rs, m, hchain, hrun⟩ := Decoded.bind_eq_ok_iff.1 hnext
              obtain ⟨vals, hvals, hok⟩ := Decoded.run_eq_ok_iff.1 hrun
              obtain ⟨rfl, rfl⟩ := Decoded.ok.inj hok
              obtain ⟨rfl, -, hidx⟩ := deriveSumTagChain_some hbranch
              obtain ⟨hshape, hshort, hrest⟩ :=
                payload_accepts hdec (hplaced.inRange hp) hchain hvals
              rw [HasShape, Short, wire, ← List.singleton_append]
              rw [Int.toNat_natCast] at hplaced
              exact ⟨⟨variants, vargs, hbody, hidx, hshape⟩, hshort,
                placed_append_iff.2 ⟨_, hplaced, hrest⟩⟩

theorem decode_accepts (n : Nat) : Accepts buf T (decode buf T n) := by
  induction n with
  | zero =>
      intro s p v q hp h
      cases h
  | succ n ih => exact decodeCallAt_accepts ih

end Kaikai.BinSer
