import Kaikai.BinSafe

namespace Kaikai.BinSer

open Kaikai.Str
open Kaikai.Word64
open Kaikai.Stretch

variable {T : DerivedTypes} {k : Nat} {v : Val} {buf : Bytes} {pre rest : Str} {pos : Int}

/-- The encoder answers, and the decoder reads the value back from between `pre` and `rest`. -/
def RoundTrips (T : DerivedTypes) (k : Nat) (v : Val) (pre rest : Str) : Prop :=
  ∃ bs, toBytes T k v = .ok bs ∧
    ∀ buf : Bytes, buf.val = pre ++ (bs ++ rest) →
      ∃ n, decode buf T n (.named k) pre.length = .ok v (pre.length + bs.length)

/-- The decoder answers, and leaves the cursor between where it was and the end. -/
def Stays (buf : Bytes) (T : DerivedTypes) (k : Nat) (pos : Int) : Prop :=
  ∃ n, (∃ m, decode buf T n (.named k) pos = .err m) ∨
    ∃ w q, decode buf T n (.named k) pos = .ok w q ∧ pos ≤ q ∧ q ≤ buf.val.length

/-- A decoder behind the end of the buffer has something to read. -/
def Reads (buf : Bytes) (T : DerivedTypes) (k : Nat) (pos : Int) : Prop :=
  (buf.val.length : Int) < pos → ∀ w, HasShape T w (.named k) → wire w ≠ []

mutual

theorem short_of_wire_nil : ∀ v : Val, wire v = [] → Short v
  | .int _, _ => trivial
  | .bool _, _ => trivial
  | .string s, h => by
      rw [wire] at h
      exact absurd (List.append_eq_nil_iff.1 h).1 (leBytes_ne_nil _ _)
  | .char _, _ => trivial
  | .byte _, _ => trivial
  | .list xs, h => by
      rw [wire] at h
      exact absurd (List.append_eq_nil_iff.1 h).1 (leBytes_ne_nil _ _)
  | .none, _ => trivial
  | .some v, h => by
      rw [wire] at h
      cases h
  | .record _ vals, h => by
      rw [wire] at h
      rw [Short]
      exact shorts_of_wires_nil vals h
  | .variant idx args, h => by
      rw [wire] at h
      cases h

theorem shorts_of_wires_nil : ∀ vs : List Val, wires vs = [] → Shorts vs
  | [], _ => trivial
  | v :: vs, h => by
      rw [wires, List.append_eq_nil_iff] at h
      rw [Shorts]
      exact ⟨short_of_wire_nil v h.1, shorts_of_wires_nil vs h.2⟩

end

theorem spans_middle {a b c : Str} : Spans (a ++ (b ++ c)) a.length b (a.length + b.length) where
  stop := rfl
  inside := by
    rw [List.length_append, List.length_append]
    omega
  text := by
    rw [List.drop_left, ← List.append_assoc, ← List.length_append, List.drop_left]

theorem inRange_of_le (buf : Bytes) (h : pre.length ≤ buf.val.length) : InRange (pre.length : Int) := by
  have hfits := buf.fits
  unfold InRange
  omega

theorem roundTrips_iff (hv : HasShape T v (.named k))
    (hroom : (pre ++ (wire v ++ rest)).length < 2 ^ 60) : RoundTrips T k v pre rest ↔ Short v := by
  constructor
  · rintro ⟨bs, hbytes, hback⟩
    obtain rfl := Except.ok.inj ((toBytes_eq hv).symm.trans hbytes)
    obtain ⟨n, hn⟩ := hback ⟨_, hroom⟩ rfl
    have hrange : InRange (pre.length : Int) :=
      inRange_of_le ⟨_, hroom⟩ (by rw [List.length_append]; omega)
    exact (decode_accepts n _ _ _ _ hrange hn).2.1
  · intro hshort
    refine ⟨wire v, toBytes_eq hv, fun buf hbuf => ?_⟩
    have hplaced : Placed buf pre.length (wire v) (pre.length + (wire v).length) := by
      have hspan := spans_middle (a := pre) (b := wire v) (c := rest)
      rw [← hbuf] at hspan
      exact Placed.of_spans hspan
    exact decode_wire v (.named k) hv hshort _ _ hplaced

/-- The decoder stays inside exactly when it meets no trap, and reads something when it starts
behind the end. -/
theorem stays_iff (hpos : InRange pos) :
    Stays buf T k pos ↔ Safe buf T (.named k) pos ∧ Reads buf T k pos := by
  constructor
  · rintro ⟨n, hn⟩
    have hanswer : Answered (decode buf T n (.named k) pos) := by
      rcases hn with ⟨m, herr⟩ | ⟨w, q, hok, -⟩
      · exact Or.inr ⟨m, herr⟩
      · exact Or.inl ⟨w, q, hok⟩
    refine ⟨safe_of_answered hpos hanswer, fun hpast w hw hnil => ?_⟩
    have hplaced : Placed buf pos (wire w) pos := by rw [hnil, placed_nil_iff]
    obtain ⟨n', hn'⟩ := decode_wire w _ hw (short_of_wire_nil w hnil) pos pos hplaced
    have hsame := (monotone_call (.named k) pos).agree hanswer hn'
    rcases hn with ⟨m, herr⟩ | ⟨w', q, hok, hle, hinside⟩
    · cases herr.symm.trans hsame
    · obtain ⟨-, rfl⟩ := Decoded.ok.inj (hok.symm.trans hsame)
      omega
  · rintro ⟨hsafe, hreads⟩
    obtain ⟨n, hn⟩ := answered_of_safe hsafe hpos
    refine ⟨n, ?_⟩
    rcases hn with ⟨w, q, hok⟩ | herr
    · right
      refine ⟨w, q, hok, ?_⟩
      obtain ⟨hw, hshort, hplaced⟩ := decode_accepts n _ _ _ _ hpos hok
      rcases hplaced with ⟨hnil, rfl⟩ | ⟨i, j, rfl, rfl, hspan⟩
      · refine ⟨le_refl _, ?_⟩
        by_contra hpast
        exact hreads (Int.not_le.1 hpast) w hw hnil
      · have hle := hspan.le
        have hinside := hspan.inside
        omega
    · exact Or.inl herr

/-- The codec keeps its promise for a value and a buffer exactly when the lengths in the value
fit, and the decoder, from where it starts, meets no trap and has something to read. -/
theorem codec_iff (hv : HasShape T v (.named k))
    (hroom : (pre ++ (wire v ++ rest)).length < 2 ^ 60) (hpos : InRange pos) :
    RoundTrips T k v pre rest ∧ Stays buf T k pos ↔
      Short v ∧ Safe buf T (.named k) pos ∧ Reads buf T k pos :=
  and_congr (roundTrips_iff hv hroom) (stays_iff hpos)

/-- `type Flag = { on: Bool }`, `type Letter = { at: Char }` and
`type Panel = { lamp: Option[Flag], open: Bool }`. -/
def flagTypes : DerivedTypes where
  name := fun k => if k = 0 then "Flag" else if k = 1 then "Letter" else "Panel"
  body := fun k =>
    if k = 0 then .record [("on", .bool)]
    else if k = 1 then .record [("at", .char)]
    else .record [("lamp", .option (.named 0)), ("open", .bool)]
  writers := fun _ => true
  fields_nodup := by
    intro k fields h
    split_ifs at h <;> obtain rfl := TypeBody.record.inj h <;> decide
  variants_le := by
    intro k variants h
    split_ifs at h

/-- A panel with its lamp on. -/
def panel : Val :=
  .record ["lamp", "open"] [.some (.record ["on"] [.bool true]), .bool false]

theorem panel_shape : HasShape flagTypes panel (.named 2) :=
  ⟨_, rfl, rfl, ⟨_, rfl, rfl, trivial, trivial⟩, trivial, trivial⟩

theorem flag_safe {buf : Bytes} {p : Int} (hroom : p + 1 < 2 ^ 63) :
    Safe buf flagTypes (.named 0) p := by
  have hbody : flagTypes.body 0 = .record [("on", .bool)] := rfl
  refine Safe.record hbody ?_ ?_
  · intro as s bs vs q hss hs hvs hplaced
    cases as with
    | nil =>
        obtain ⟨rfl, rfl⟩ := List.cons.inj hss
        obtain rfl := hvs.eq_nil
        rw [wires, placed_nil_iff] at hplaced
        subst hplaced
        exact Safe.bool hroom
    | cons a as =>
        have hlen := congrArg List.length hss
        simp at hlen
  · intro vs q hvs hplaced
    obtain ⟨v, ws, rfl⟩ := Raw.exists_cons hvs
    obtain rfl := (Raw.cons_iff.1 hvs).2.eq_nil
    trivial

/-- The three bytes of a panel, read from their start. -/
theorem codec_panel :
    RoundTrips flagTypes 2 panel [] [] ∧ Stays ⟨[1, 1, 0], by decide⟩ flagTypes 2 0 := by
  apply (codec_iff panel_shape (by decide) (by unfold InRange; omega)).2
  refine ⟨⟨⟨trivial, trivial⟩, trivial, trivial⟩, ?_, ?_⟩
  · have hbody : flagTypes.body 2 = .record [("lamp", .option (.named 0)), ("open", .bool)] := rfl
    have hinside {bs : Str} {q : Int} (h : Placed ⟨[1, 1, 0], by decide⟩ 0 bs q) : q ≤ 3 := by
      obtain ⟨-, rfl⟩ | ⟨i, j, -, rfl, hspans⟩ := h
      · omega
      · exact_mod_cast hspans.inside
    refine Safe.record hbody ?_ ?_
    · intro as s bs vs q hss hs hvs hplaced
      have hq := hinside hplaced
      match as, hss with
      | [], hss =>
          obtain ⟨rfl, rfl⟩ := List.cons.inj hss
          obtain rfl := hvs.eq_nil
          rw [wires, placed_nil_iff] at hplaced
          subst hplaced
          exact Safe.option (by omega) fun q hq => flag_safe (by have := hinside hq; omega)
      | [a], hss =>
          obtain ⟨rfl, rfl⟩ := List.cons.inj (List.cons.inj hss).2
          exact Safe.bool (by omega)
      | a :: b :: as, hss =>
          have hlen := congrArg List.length hss
          simp at hlen
    · intro vs q hvs hplaced
      obtain ⟨v, ws, rfl⟩ := Raw.exists_cons hvs
      obtain ⟨w, us, rfl⟩ := Raw.exists_cons (Raw.cons_iff.1 hvs).2
      obtain rfl := (Raw.cons_iff.1 (Raw.cons_iff.1 hvs).2).2.eq_nil
      trivial
  · intro hpast
    exact absurd hpast (by decide)

/-- The last cursor of the register passes the bounds test of a `Bool`, and the eight bytes of
a surrogate pass the one of a `Char`. -/
theorem codec_traps :
    ¬ Stays ⟨[1], by decide⟩ flagTypes 0 (2 ^ 63 - 1) ∧
    ¬ Stays ⟨leBytes 8 0xD800, by decide⟩ flagTypes 1 0 := by
  constructor
  · intro h
    have hsafe := ((stays_iff (by unfold InRange; omega)).1 h).1
    cases hsafe with
    | record body guards scalars =>
        obtain rfl := TypeBody.record.inj body
        have hbool := guards [] .bool [] [] _ rfl (by simp) ⟨trivial, trivial⟩
          (placed_nil_iff.2 rfl)
        cases hbool with
        | bool room => exact absurd room (by omega)
    | sum body _ _ _ => cases body
  · intro h
    have hsafe := ((stays_iff (by unfold InRange; omega)).1 h).1
    cases hsafe with
    | record body guards scalars =>
        obtain rfl := TypeBody.record.inj body
        have hsurrogate : InRange 0xD800 := by
          unfold InRange
          omega
        have hplaced : Placed ⟨leBytes 8 0xD800, by decide⟩ 0 (wires [.int 0xD800]) 8 :=
          Placed.of_spans (i := 0) (j := 8) ⟨rfl, by decide, rfl⟩
        have hscalar := scalars [.int 0xD800] 8
          ⟨⟨hsurrogate, trivial⟩, trivial, trivial⟩ hplaced
        exact hscalar.1.2.2 (by decide)
    | sum body _ _ _ => cases body

end Kaikai.BinSer
