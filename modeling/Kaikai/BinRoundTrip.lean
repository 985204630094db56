import Kaikai.BinDecode

namespace Kaikai.BinSer

open Kaikai.Str
open Kaikai.Word64
open Kaikai.Stretch

mutual

/-- Every string and every list fits the four bytes of its count. -/
def Short : Val → Prop
  | .string s => s.length < 2 ^ 32
  | .list xs => xs.length < 2 ^ 32 ∧ Shorts xs
  | .some v => Short v
  | .record _ vals => Shorts vals
  | .variant _ args => Shorts args
  | _ => True

def Shorts : List Val → Prop
  | [] => True
  | v :: vs => Short v ∧ Shorts vs

end

variable {buf : Bytes} {T : DerivedTypes} {dec dec' : Shape → Int → Decoded Val}
variable {i j n w : Nat} {bs : Str}

/-- The bytes between two cursors. No bytes at all stand at every cursor, inside the buffer or
not. -/
def Placed (buf : Bytes) (p : Int) (bs : Str) (q : Int) : Prop :=
  (bs = [] ∧ p = q) ∨ ∃ i j : Nat, p = i ∧ q = j ∧ Spans buf.val i bs j

theorem Placed.of_spans (h : Spans buf.val i bs j) : Placed buf i bs j := Or.inr ⟨i, j, rfl, rfl, h⟩

theorem placed_nil_iff {p q : Int} : Placed buf p [] q ↔ p = q := by
  constructor
  · rintro (⟨-, rfl⟩ | ⟨i, j, rfl, rfl, h⟩)
    · rfl
    · rw [(spans_nil_iff.1 h).1]
  · exact fun h => Or.inl ⟨rfl, h⟩

theorem Placed.spans {p q : Int} (h : Placed buf p bs q) (hne : bs ≠ []) :
    ∃ i j : Nat, p = i ∧ q = j ∧ Spans buf.val i bs j :=
  h.resolve_left fun hnil => hne hnil.1

theorem placed_append_iff {p q : Int} {as : Str} :
    Placed buf p (as ++ bs) q ↔ ∃ m, Placed buf p as m ∧ Placed buf m bs q := by
  constructor
  · rintro (⟨hnil, rfl⟩ | ⟨i, j, rfl, rfl, h⟩)
    · obtain ⟨rfl, rfl⟩ := List.append_eq_nil_iff.1 hnil
      exact ⟨p, placed_nil_iff.2 rfl, placed_nil_iff.2 rfl⟩
    · obtain ⟨k, has, hbs⟩ := spans_append_iff.1 h
      exact ⟨k, Placed.of_spans has, Placed.of_spans hbs⟩
  · rintro ⟨m, has, hbs⟩
    rcases has with ⟨rfl, rfl⟩ | ⟨i, k, rfl, rfl, has⟩
    · exact hbs
    · rcases hbs with ⟨rfl, rfl⟩ | ⟨k', j, hk, rfl, hbs⟩
      · rw [List.append_nil]
        exact Placed.of_spans has
      · obtain rfl : k = k' := by omega
        exact Placed.of_spans (has.append hbs)

theorem cursor_spans {c : Int} (h : Spans buf.val i bs j) (hc : (bs.length : Int) = c) :
    binHave buf.val i c = true ∧ add i c = j := by
  have hstop := h.stop
  have hinside := h.inside
  have hfits := buf.fits
  have hadd : add i c = j := by
    rw [add, wrap_eq_self (by omega) (by omega)]
    omega
  refine ⟨?_, hadd⟩
  rw [binHave, hadd]
  simp only [Bool.and_eq_true, decide_eq_true_eq]
  omega

theorem bytesSpan_spans (h : Spans buf.val i bs j) : bytesSpan buf.val i bs.length = .ok bs := by
  have hstop := h.stop
  have hinside := h.inside
  rw [bytesSpan_nat (by omega), h.text, List.take_left]

theorem bytesGetLe_spans (h : Spans buf.val i bs j) (hw : bs.length = w) :
    bytesGetLe buf.val i w = .ok (wrap (leNat bs)) := by
  subst hw
  rw [bytesGetLe, bytesSpan_spans h]
  rfl

theorem wrap_leNat_int {x : Int} (hx : InRange x) : wrap (leNat (leBytes 8 x)) = x := by
  rw [leNat_leBytes]
  unfold InRange at hx
  unfold wrap
  omega

theorem wrap_leNat_count {c : Nat} (hc : c < 2 ^ 32) :
    wrap (leNat (leBytes 4 c)) = (c : Int) := by
  rw [leNat_leBytes]
  unfold wrap
  omega

theorem wrap_leNat_byte (b : UInt8) : wrap (leNat [b]) = (b.toNat : Int) := by
  have hb : b.toNat < 256 := b.toNat_lt
  rw [leNat, leNat, wrap_eq_self (by omega) (by omega)]
  rfl

theorem leafFromBytes_eq_ok_iff {r : BinPrim} {p q : Int} {v : Val} :
    leafFromBytes buf r p = .ok v q ↔
      binserPrimEnd buf r p = .ok q ∧ 0 ≤ q ∧ binserPrimAt buf r p = .ok v := by
  rw [leafFromBytes, Decoded.run_eq_ok_iff]
  constructor
  · rintro ⟨e, hend, hnext⟩
    split_ifs at hnext with hneg
    obtain ⟨v', hat, hok⟩ := Decoded.run_eq_ok_iff.1 hnext
    obtain ⟨rfl, rfl⟩ := Decoded.ok.inj hok
    exact ⟨hend, by omega, hat⟩
  · rintro ⟨hend, hpos, hat⟩
    refine ⟨q, hend, ?_⟩
    rw [if_neg (by omega), hat]
    rfl

theorem intToChar_toNat (c : Char) : intToChar c.toNat = .ok c := by
  have hvalid := c.valid
  have hsize : c.toNat = c.val.toNat := rfl
  unfold UInt32.isValidChar Nat.isValidChar at hvalid
  rw [intToChar, if_neg (by omega)]
  congr 1
  exact Char.ofNat_toNat c

theorem leafFromBytes_wire {v : Val} {s : Shape} {r : BinPrim}
    (hr : binserPrimReader s = some r) (hs : HasShape T v s) (hshort : Short v)
    (h : Spans buf.val i (wire v) j) : leafFromBytes buf r i = .ok v j := by
  rw [leafFromBytes_eq_ok_iff]
  have hstop := h.stop
  cases s with
  | int =>
      obtain rfl := Option.some.inj hr
      cases v with
      | int x =>
          rw [wire] at h hstop
          obtain ⟨hhave, hadd⟩ := cursor_spans h (c := 8) (by rw [length_leBytes]; rfl)
          have hget := bytesGetLe_spans h (length_leBytes 8 x)
          refine ⟨?_, by omega, ?_⟩
          · rw [binserPrimEnd, binIntEnd, if_pos hhave, hadd]
          · rw [binserPrimAt, binIntAt, hget, wrap_leNat_int hs]
            rfl
      | _ => simp [HasShape] at hs
  | bool =>
      obtain rfl := Option.some.inj hr
      cases v with
      | bool b =>
          rw [wire] at h hstop
          obtain ⟨hhave, hadd⟩ := cursor_spans h (c := 1) rfl
          have hget := bytesGetLe_spans h (w := 1) rfl
          rw [wrap_leNat_byte] at hget
          refine ⟨?_, by omega, ?_⟩
          · rw [binserPrimEnd, binBoolEnd, hhave, hget, hadd]
            cases b <;> rfl
          · rw [binserPrimAt, binBoolAt, hget]
            cases b <;> rfl
      | _ => simp [HasShape] at hs
  | string =>
      obtain rfl := Option.some.inj hr
      cases v with
      | string t =>
          rw [wire] at h
          obtain ⟨k, hcount, htext⟩ := spans_append_iff.1 h
          obtain ⟨hhave, hadd⟩ := cursor_spans hcount (c := 4) (by rw [length_leBytes]; rfl)
          have hget := bytesGetLe_spans hcount (length_leBytes 4 _)
          rw [wrap_leNat_count hshort] at hget
          obtain ⟨hhave', hadd'⟩ := cursor_spans htext rfl
          refine ⟨?_, by omega, ?_⟩
          · rw [binserPrimEnd, binStringEnd, hhave, hget, hadd]
            show Except.ok (if binHave buf.val k t.length then add k t.length else -3) = _
            rw [if_pos hhave', hadd']
          · rw [binserPrimAt, binStringAt, hget, hadd]
            show (do return Val.string (← bytesSpan buf.val k t.length)) = _
            rw [bytesSpan_spans htext]
            rfl
      | _ => simp [HasShape] at hs
  | char =>
      obtain rfl := Option.some.inj hr
      cases v with
      | char c =>
          rw [wire] at h hstop
          obtain ⟨hhave, hadd⟩ := cursor_spans h (c := 8) (by rw [length_leBytes]; rfl)
          have hget := bytesGetLe_spans h (length_leBytes 8 _)
          have hrange : InRange c.toNat := by
            have hlt : c.toNat < 2 ^ 32 := c.val.toNat_lt
            unfold InRange
            omega
          rw [wrap_leNat_int hrange] at hget
          refine ⟨?_, by omega, ?_⟩
          · rw [binserPrimEnd, binIntEnd, if_pos hhave, hadd]
          · rw [binserPrimAt, binCharAt, binIntAt, hget]
            show (do return Val.char (← intToChar c.toNat)) = _
            rw [intToChar_toNat]
            rfl
      | _ => simp [HasShape] at hs
  | _ => cases hr

theorem deriveDecodeByte_wire {b : UInt8} (h : Spans buf.val i [b] j) :
    deriveDecodeByte buf i = .ok (.byte b) j := by
  have hb : b.toNat < 256 := b.toNat_lt
  obtain ⟨hhave, hadd⟩ := cursor_spans h (c := 1) rfl
  have hget := bytesGetLe_spans h (w := 1) rfl
  have htag : binTagAt buf i = .ok (b.toNat : Int) := by
    rw [binTagAt, if_pos hhave, ← wrap_leNat_byte]
    exact hget
  have hbyte : binByte b.toNat = .ok b := by
    rw [binByte, if_neg (by omega), Int.toNat_natCast, UInt8.ofNat_toNat]
  rw [deriveDecodeByte, htag, Decoded.run_ok, if_neg (by omega), hbyte, Decoded.run_ok,
    hadd]

/-- Values decoded one after another, each from where the one before it ends. -/
def Threaded (dec : Shape → Int → Decoded Val) : List Val → List Shape → Int → Int → Prop
  | [], [], p, q => p = q
  | v :: vs, s :: ss, p, q => ∃ m, dec s p = .ok v m ∧ Threaded dec vs ss m q
  | _, _, _, _ => False

theorem Threaded.mono (h : ∀ s p, (dec s p).Le (dec' s p)) :
    ∀ {vs : List Val} {ss : List Shape} {p q : Int},
      Threaded dec vs ss p q → Threaded dec' vs ss p q
  | [], [], _, _, ht => ht
  | v :: vs, s :: ss, p, q, ht => by
      obtain ⟨m, hv, hvs⟩ := ht
      refine ⟨m, ?_, Threaded.mono h hvs⟩
      rcases h s p with hle | hle
      · rw [hle] at hv
        cases hv
      · rw [← hle, hv]
  | [], _ :: _, _, _, ht => ht.elim
  | _ :: _, [], _, _, ht => ht.elim

theorem listLoop_of_threaded {elem : Shape} {vs acc : List Val} {p q : Int}
    (h : Threaded dec vs (List.replicate vs.length elem) p q) :
    binListFromBytesLoop (dec elem) vs.length p acc = .ok (.list (acc.reverse ++ vs)) q := by
  induction vs generalizing p acc with
  | nil =>
      obtain rfl : p = q := h
      rw [List.length_nil, binListFromBytesLoop, List.append_nil]
  | cons v vs ih =>
      obtain ⟨k, hv, hvs⟩ := h
      rw [List.length_cons, binListFromBytesLoop, hv, Decoded.bind_ok, ih hvs,
        List.reverse_cons, List.append_assoc]
      rfl

/-- `dec` decodes a leaf as the leaf's own `from_bytes` does. -/
def ReadsLeaves (buf : Bytes) (dec : Shape → Int → Decoded Val) : Prop :=
  ∀ s r, binserPrimReader s = some r → ∀ p, dec s p = leafFromBytes buf r p

theorem decode_readsLeaves (n : Nat) : ReadsLeaves buf (decode buf T (n + 1)) := by
  intro s r hr p
  cases s <;> first | (obtain rfl := Option.some.inj hr; rfl) | cases hr

theorem deriveFieldValues_ok (vs : List Val) : deriveFieldValues (vs.map .ok) = .ok vs := by
  induction vs with
  | nil => rfl
  | cons v vs ih =>
      rw [List.map_cons, deriveFieldValues, ih]
      rfl

theorem decodeChain_of_threaded (hdec : ReadsLeaves buf dec) :
    ∀ {vs : List Val} {ss : List Shape} {p q : Int}, Threaded dec vs ss p q →
      deriveDecodeChain buf dec ss p = .ok (vs.map .ok) q
  | [], [], p, q, h => by
      obtain rfl : p = q := h
      rfl
  | v :: vs, s :: ss, p, q, h => by
      obtain ⟨m, hv, hvs⟩ := h
      have hguard : deriveFieldGuard buf dec s p = .ok (.ok v) m := by
        rw [deriveFieldGuard]
        cases hr : binserPrimReader s with
        | none => rw [hv, Decoded.bind_ok]
        | some r =>
            rw [hdec s r hr, leafFromBytes_eq_ok_iff] at hv
            dsimp only
            rw [hv.1, Decoded.run_ok, if_neg (by omega), hv.2.2]
      rw [deriveDecodeChain, hguard, Decoded.bind_ok, decodeChain_of_threaded hdec hvs,
        Decoded.bind_ok, List.map_cons]
  | [], _ :: _, _, _, h => h.elim
  | _ :: _, [], _, _, h => h.elim

theorem deriveSumTagChain_eq (tag idx : Nat) (variants : List (List Shape)) :
    deriveSumTagChain ((tag + idx : Nat) : Int) variants idx =
      variants[tag]?.map fun vargs => (tag + idx, vargs) := by
  induction variants generalizing tag idx with
  | nil => rfl
  | cons v rest ih =>
      rw [deriveSumTagChain]
      cases tag with
      | zero =>
          rw [if_pos (by omega)]
          simp
      | succ tag =>
          rw [if_neg (by omega), List.getElem?_cons_succ]
          have hshift : tag + 1 + idx = tag + (idx + 1) := by omega
          rw [hshift]
          exact ih tag (idx + 1)

theorem decode_ok_mono {n m : Nat} {s : Shape} {p q : Int} {v : Val}
    (h : decode buf T n s p = .ok v q) (hnm : n ≤ m) : decode buf T m s p = .ok v q := by
  have hle : (decode buf T n s p).Le (decode buf T m s p) := decode_le hnm s p
  rcases hle with hle | hle
  · rw [hle] at h
    cases h
  · rw [← hle, h]

theorem branch_of_tag {variants : List (List Shape)} {idx : Nat} {ss : List Shape}
    {p q : Int} (hlen : variants.length ≤ 256) (hidx : variants[idx]? = some ss)
    (htag : Placed buf p [UInt8.ofNat idx] q) :
    binTagAt buf p = .ok (idx : Int) ∧ add p 1 = q ∧
      deriveSumTagChain (idx : Int) variants 0 = some (idx, ss) := by
  have hlt : idx < variants.length := (List.getElem?_eq_some_iff.1 hidx).1
  obtain ⟨i, j, rfl, rfl, hspan⟩ := htag.spans (List.cons_ne_nil _ _)
  obtain ⟨hhave, hadd⟩ := cursor_spans hspan (c := 1) rfl
  have hget := bytesGetLe_spans hspan (w := 1) rfl
  have hbyte : (UInt8.ofNat idx).toNat = idx := by
    rw [UInt8.toNat_ofNat']
    omega
  rw [wrap_leNat_byte, hbyte] at hget
  refine ⟨?_, hadd, ?_⟩
  · rw [binTagAt, if_pos hhave]
    exact hget
  · have h := deriveSumTagChain_eq idx 0 variants
    rw [hidx] at h
    exact h

theorem deriveSum_wire {tname : String} {variants : List (List Shape)} {idx : Nat}
    {vargs : List Shape} {args : List Val} {p m q : Int} (hlen : variants.length ≤ 256)
    (hidx : variants[idx]? = some vargs) (hdec : ReadsLeaves buf dec)
    (htag : Placed buf p [UInt8.ofNat idx] m) (hargs : Threaded dec args vargs m q) :
    deriveSumFromBytes buf dec tname variants p = .ok (.variant idx args) q := by
  obtain ⟨hread, hadd, hchain⟩ := branch_of_tag hlen hidx htag
  rw [deriveSumFromBytes, hread, Decoded.run_ok, if_neg (by omega), hchain]
  dsimp only
  rw [hadd, decodeChain_of_threaded hdec hargs, Decoded.bind_ok, deriveFieldValues_ok,
    Decoded.run_ok]

theorem decode_leaf {v : Val} {s : Shape} {r : BinPrim} {p q : Int}
    (hr : binserPrimReader s = some r) (hs : HasShape T v s) (hshort : Short v)
    (hne : wire v ≠ []) (h : Placed buf p (wire v) q) : decode buf T 1 s p = .ok v q := by
  obtain ⟨i, j, rfl, rfl, hspan⟩ := h.spans hne
  rw [decode_readsLeaves 0 s r hr]
  exact leafFromBytes_wire hr hs hshort hspan

theorem leBytes_ne_nil (w : Nat) (x : Int) : leBytes (w + 1) x ≠ [] := List.cons_ne_nil _ _

mutual

theorem decode_wire : ∀ (v : Val) (s : Shape), HasShape T v s → Short v →
    ∀ p q : Int, Placed buf p (wire v) q → ∃ n, decode buf T n s p = .ok v q
  | .int x, .int, hs, hshort, p, q, h =>
      ⟨1, decode_leaf rfl hs hshort (by rw [wire]; exact leBytes_ne_nil _ _) h⟩
  | .bool b, .bool, hs, hshort, p, q, h =>
      ⟨1, decode_leaf rfl hs hshort (by rw [wire]; exact List.cons_ne_nil _ _) h⟩
  | .string t, .string, hs, hshort, p, q, h =>
      ⟨1, decode_leaf rfl hs hshort
        (by rw [wire]; exact List.append_ne_nil_of_left_ne_nil (leBytes_ne_nil _ _) _) h⟩
  | .char c, .char, hs, hshort, p, q, h =>
      ⟨1, decode_leaf rfl hs hshort (by rw [wire]; exact leBytes_ne_nil _ _) h⟩
  | .byte b, .byte, _, _, p, q, h => by
      rw [wire] at h
      obtain ⟨i, j, rfl, rfl, hspan⟩ := h.spans (List.cons_ne_nil _ _)
      refine ⟨1, ?_⟩
      rw [decode, deriveDecodeCallAt]
      exact deriveDecodeByte_wire hspan
  | .list xs, .list elem, hs, hshort, p, q, h => by
      rw [HasShape] at hs
      rw [Short] at hshort
      rw [wire] at h
      obtain ⟨m, hcount, helems⟩ := placed_append_iff.1 h
      obtain ⟨n, hn⟩ := decode_wires xs _ hs hshort.2 m q helems
      obtain ⟨i, k, rfl, rfl, hspan⟩ := hcount.spans (leBytes_ne_nil _ _)
      obtain ⟨hhave, hadd⟩ := cursor_spans hspan (c := 4) (by rw [length_leBytes]; rfl)
      have hget := bytesGetLe_spans hspan (length_leBytes 4 _)
      rw [wrap_leNat_count hshort.1] at hget
      refine ⟨n + 1, ?_⟩
      rw [decode, deriveDecodeCallAt, binListFromBytes, hhave, hget]
      rw [if_neg (by decide), Decoded.run_ok, Int.toNat_natCast, hadd]
      exact listLoop_of_threaded hn
  | .none, .option elem, _, _, p, q, h => by
      rw [wire] at h
      obtain ⟨i, j, rfl, rfl, hspan⟩ := h.spans (List.cons_ne_nil _ _)
      obtain ⟨hhave, hadd⟩ := cursor_spans hspan (c := 1) rfl
      have hget := bytesGetLe_spans hspan (w := 1) rfl
      refine ⟨1, ?_⟩
      rw [decode, deriveDecodeCallAt, binOptionFromBytes, hhave, hget, wrap_leNat_byte, hadd]
      rfl
  | .some v, .option elem, hs, hshort, p, q, h => by
      rw [HasShape] at hs
      rw [Short] at hshort
      rw [wire, ← List.singleton_append] at h
      obtain ⟨m, htag, hv⟩ := placed_append_iff.1 h
      obtain ⟨n, hn⟩ := decode_wire v elem hs hshort m q hv
      obtain ⟨i, k, rfl, rfl, hspan⟩ := htag.spans (List.cons_ne_nil _ _)
      obtain ⟨hhave, hadd⟩ := cursor_spans hspan (c := 1) rfl
      have hget := bytesGetLe_spans hspan (w := 1) rfl
      refine ⟨n + 1, ?_⟩
      rw [decode, deriveDecodeCallAt, binOptionFromBytes, hhave, hget, wrap_leNat_byte, hadd]
      show (decode buf T n elem k).bind _ = _
      rw [hn]
      rfl
  | .record names vals, .named k, hs, hshort, p, q, h => by
      rw [HasShape] at hs
      rw [Short] at hshort
      rw [wire] at h
      obtain ⟨fields, hbody, rfl, hvals⟩ := hs
      obtain ⟨n, hn⟩ := decode_wires vals _ hvals hshort p q h
      have hn' := hn.mono (decode_le (Nat.le_succ n))
      refine ⟨n + 2, ?_⟩
      rw [decode, deriveDecodeCallAt, deriveFromBytes, hbody]
      dsimp only
      rw [deriveRecordFromBytes, decodeChain_of_threaded (decode_readsLeaves n) hn',
        Decoded.bind_ok, deriveFieldValues_ok, Decoded.run_ok]
  | .variant idx args, .named k, hs, hshort, p, q, h => by
      rw [HasShape] at hs
      rw [Short] at hshort
      rw [wire, ← List.singleton_append] at h
      obtain ⟨variants, vargs, hbody, hidx, hargs⟩ := hs
      obtain ⟨m, htag, hv⟩ := placed_append_iff.1 h
      obtain ⟨n, hn⟩ := decode_wires args _ hargs hshort m q hv
      have hn' := hn.mono (decode_le (Nat.le_succ n))
      refine ⟨n + 2, ?_⟩
      rw [decode, deriveDecodeCallAt, deriveFromBytes, hbody]
      exact deriveSum_wire (T.variants_le k variants hbody) hidx (decode_readsLeaves n) htag hn'

theorem decode_wires : ∀ (vs : List Val) (ss : List Shape), HaveShapes T vs ss → Shorts vs →
    ∀ p q : Int, Placed buf p (wires vs) q → ∃ n, Threaded (decode buf T n) vs ss p q
  | [], [], _, _, p, q, h => by
      rw [wires] at h
      exact ⟨0, placed_nil_iff.1 h⟩
  | v :: vs, s :: ss, hs, hshort, p, q, h => by
      rw [HaveShapes] at hs
      rw [Shorts] at hshort
      rw [wires] at h
      obtain ⟨m, hv, hvs⟩ := placed_append_iff.1 h
      obtain ⟨n, hn⟩ := decode_wire v s hs.1 hshort.1 p m hv
      obtain ⟨n', hn'⟩ := decode_wires vs ss hs.2 hshort.2 m q hvs
      exact ⟨max n n', m, decode_ok_mono hn (le_max_left n n'),
        hn'.mono (decode_le (le_max_right n n'))⟩

end

end Kaikai.BinSer
