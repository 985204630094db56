import Kaikai.Str
import Kaikai.Word64

namespace Kaikai.BinSer

open Kaikai.Str
open Kaikai.Word64

/-- The low `w` bytes of a word, least significant first. -/
def leBytes : Nat → Int → Str
  | 0, _ => []
  | w + 1, n => UInt8.ofNat (n % 256).toNat :: leBytes w (n / 256)

/-- The unsigned number that little-endian bytes denote. -/
def leNat : Str → Nat
  | [] => 0
  | b :: bs => b.toNat + 256 * leNat bs

@[simp] theorem length_leBytes (w : Nat) (n : Int) : (leBytes w n).length = w := by
  induction w generalizing n with
  | zero => rfl
  | succ w ih => simp [leBytes, ih]

theorem leNat_lt (bs : Str) : leNat bs < 256 ^ bs.length := by
  induction bs with
  | nil => decide
  | cons b bs ih =>
      have hb : b.toNat < 256 := b.toNat_lt
      rw [leNat, List.length_cons, pow_succ]
      omega

theorem leNat_inj {as bs : Str} (hlen : as.length = bs.length) : leNat as = leNat bs ↔ as = bs := by
  constructor
  · intro h
    induction as generalizing bs with
    | nil => exact (List.length_eq_zero_iff.1 hlen.symm).symm
    | cons a as ih =>
        cases bs with
        | nil => cases hlen
        | cons b bs =>
            have ha := a.toNat_lt
            have hb := b.toNat_lt
            rw [leNat, leNat] at h
            rw [UInt8.toNat_inj.1 (show a.toNat = b.toNat by omega),
              ih (Nat.succ.inj hlen) (by omega)]
  · rintro rfl
    rfl

theorem leNat_leBytes (w : Nat) (n : Int) : (leNat (leBytes w n) : Int) = n % 256 ^ w := by
  induction w generalizing n with
  | zero => simp [leBytes, leNat]
  | succ w ih =>
      have hlow : 0 ≤ n % 256 := Int.emod_nonneg n (by decide)
      have hhigh : n % 256 < 256 := Int.emod_lt_of_pos n (by decide)
      have hbyte : ((UInt8.ofNat (n % 256).toNat).toNat : Int) = n % 256 := by
        rw [UInt8.toNat_ofNat']
        omega
      have hsplit : n % 256 ^ (w + 1) = n % 256 + 256 * (n / 256 % 256 ^ w) := by
        rw [pow_succ, Int.mul_comm (256 ^ w) 256, Int.emod_def n (256 * 256 ^ w),
          ← Int.ediv_ediv_of_nonneg (by decide), Int.emod_def n 256, Int.emod_def (n / 256)]
        ring
      rw [leBytes, leNat, Nat.cast_add, Nat.cast_mul, ih, hbyte, hsplit]
      rfl

/-- What ends a program instead of answering it: an index outside an array, a tag that is no
byte, an integer that is no character. The last stands for a value of another type than the
one declared, which the type checker excludes. -/
inductive Trap where
  | outOfRange
  | badTag
  | notScalar
  | illTyped
deriving DecidableEq

abbrev Run := Except Trap

/-- `bin_byte` ends the program on an integer that is no byte. -/
def binByte (n : Int) : Run UInt8 :=
  if n < 0 ∨ n > 255 then .error .badTag else .ok (UInt8.ofNat n.toNat)

/-- Whether `n` more bytes are held from `pos`. The sum is a register's. -/
def binHave (buf : Str) (pos n : Int) : Bool :=
  decide (pos ≥ 0) && decide (n ≥ 0) && decide (add pos n ≤ buf.length)

/-- `kai_bytes_span`: the slots `[off, off + n)`, with a trap when they leave the array. -/
def bytesSpan (a : Str) (off n : Int) : Run Str :=
  if off < 0 ∨ n < 0 ∨ off > a.length ∨ n > a.length - off then .error .outOfRange
  else .ok ((a.drop off.toNat).take n.toNat)

/-- `width` bytes as an unsigned number; eight of them wrap into the register. -/
def bytesGetLe (src : Str) (off : Int) (width : Nat) : Run Int := do
  let s ← bytesSpan src off width
  return wrap (leNat s)

def bytesGetString (src : Str) (off n : Int) : Run Str := bytesSpan src off n

/-- The bytes `bs` over the slots from `off`. -/
def bytesStore (dst : Str) (off : Nat) (bs : Str) : Run Str := do
  let _ ← bytesSpan dst off bs.length
  return dst.take off ++ (bs ++ dst.drop (off + bs.length))

def bytesPutLe (dst : Str) (off : Nat) (v : Int) (width : Nat) : Run Str :=
  bytesStore dst off (leBytes width v)

def bytesPutString (dst : Str) (off : Nat) (s : Str) : Run Str := bytesStore dst off s

def bytesBlit (dst : Str) (off : Nat) (src : Str) (soff n : Nat) : Run Str := do
  let _ ← bytesSpan dst off n
  let s ← bytesSpan src soff n
  bytesStore dst off s

theorem bytesSpan_nat {a : Str} {off n : Nat} (h : off + n ≤ a.length) :
    bytesSpan a off n = .ok ((a.drop off).take n) := by
  rw [bytesSpan, if_neg (by omega)]
  rfl

theorem bytesSpan_all (a : Str) : bytesSpan a (0 : Nat) a.length = .ok a := by
  rw [bytesSpan_nat (by omega), List.drop_zero, List.take_length]

theorem bytesStore_eq {dst bs : Str} {off : Nat} (h : off + bs.length ≤ dst.length) :
    bytesStore dst off bs = .ok (dst.take off ++ (bs ++ dst.drop (off + bs.length))) := by
  rw [bytesStore, bytesSpan_nat h]
  rfl

theorem bytesBlit_eq {dst src : Str} {off : Nat} (h : off + src.length ≤ dst.length) :
    bytesBlit dst off src 0 src.length = bytesStore dst off src := by
  rw [bytesBlit, bytesSpan_nat h, bytesSpan_all]
  rfl

theorem bytesStore_append {dst as bs : Str} {off : Nat}
    (h : off + (as.length + bs.length) ≤ dst.length) :
    (do let d ← bytesStore dst off as; bytesStore d (off + as.length) bs) =
      bytesStore dst off (as ++ bs) := by
  have hoff : (dst.take off).length = off := by
    rw [List.length_take]
    omega
  have hfront : (dst.take off ++ as).length = off + as.length := by
    rw [List.length_append, hoff]
  rw [bytesStore_eq (by omega), bytesStore_eq (by rw [List.length_append]; exact h)]
  show bytesStore _ (off + as.length) bs = _
  rw [bytesStore_eq (by
    rw [List.length_append, List.length_append, hoff, List.length_drop]
    omega)]
  have htake : (dst.take off ++ (as ++ dst.drop (off + as.length))).take (off + as.length) =
      dst.take off ++ as := by
    rw [← List.append_assoc]
    exact List.take_left' hfront
  have hdrop : (dst.take off ++ (as ++ dst.drop (off + as.length))).drop
      (off + as.length + bs.length) = dst.drop (off + (as ++ bs).length) := by
    rw [← List.append_assoc, ← hfront, List.drop_length_add_append, List.drop_drop, hfront,
      List.length_append, Nat.add_assoc]
  rw [htake, hdrop, List.append_assoc, List.append_assoc]

/-- The storage of an encoder: `len` bytes are written, the rest is room. -/
structure BinBuf where
  bytes : Str
  len : Nat
deriving DecidableEq

/-- The written part. -/
def BinBuf.written (b : BinBuf) : Str := b.bytes.take b.len

/-- The storage is not empty and holds what is written. -/
structure BinBuf.WellFormed (b : BinBuf) : Prop where
  pos : 0 < b.bytes.length
  fits : b.len ≤ b.bytes.length

def binBufNew : BinBuf := ⟨List.replicate 64 0, 0⟩

theorem binBufNew_wellFormed : binBufNew.WellFormed := ⟨by decide, by decide⟩

def arrayGrow (a : Str) (n : Nat) (fill : UInt8) : Str := a ++ List.replicate (n - a.length) fill

/-- Doubling up to what is needed. An empty storage would double for ever; none is ever
built. -/
def binBufCap (cap need : Nat) : Nat :=
  if cap ≥ need ∨ cap = 0 then cap else binBufCap (cap * 2) need
termination_by need - cap

theorem le_binBufCap {cap : Nat} (need : Nat) (hcap : 0 < cap) : need ≤ binBufCap cap need := by
  fun_induction binBufCap cap need with
  | case1 cap h => omega
  | case2 cap h ih => exact ih (by omega)

/-- The storage of `b` with room for `n` more bytes. -/
def binBufRoom (b : BinBuf) (n : Nat) : Str :=
  if b.len + n ≤ b.bytes.length then b.bytes
  else arrayGrow b.bytes (binBufCap b.bytes.length (b.len + n)) 0

theorem binBufRoom_spec {b : BinBuf} (hb : b.WellFormed) (n : Nat) :
    b.len + n ≤ (binBufRoom b n).length ∧ 0 < (binBufRoom b n).length ∧
      (binBufRoom b n).take b.len = b.written := by
  rw [binBufRoom]
  split_ifs with h
  · exact ⟨h, hb.pos, rfl⟩
  · have hcap := le_binBufCap (b.len + n) hb.pos
    have hlen : (arrayGrow b.bytes (binBufCap b.bytes.length (b.len + n)) 0).length =
        binBufCap b.bytes.length (b.len + n) := by
      rw [arrayGrow, List.length_append, List.length_replicate]
      omega
    refine ⟨by omega, by omega, ?_⟩
    rw [arrayGrow]
    exact List.take_append_of_le_length hb.fits

def binBufPut (b : BinBuf) (src : Str) : Run BinBuf := do
  let d ← bytesBlit (binBufRoom b src.length) b.len src 0 src.length
  return ⟨d, b.len + src.length⟩

def binBufByte (b : BinBuf) (n : Int) : Run BinBuf :=
  if n < 0 ∨ n > 255 then .error .badTag
  else do
    let d ← bytesPutLe (binBufRoom b 1) b.len n 1
    return ⟨d, b.len + 1⟩

def binBufPutInt (b : BinBuf) (n : Int) : Run BinBuf := do
  let d ← bytesPutLe (binBufRoom b 8) b.len n 8
  return ⟨d, b.len + 8⟩

def binBufPutBool (b : BinBuf) (x : Bool) : Run BinBuf := do
  let d ← bytesPutLe (binBufRoom b 1) b.len (if x then 1 else 0) 1
  return ⟨d, b.len + 1⟩

def binBufPutString (b : BinBuf) (s : Str) : Run BinBuf := do
  let dst ← bytesPutLe (binBufRoom b (4 + s.length)) b.len s.length 4
  let d ← bytesPutString dst (b.len + 4) s
  return ⟨d, b.len + 4 + s.length⟩

def binBufPutChar (b : BinBuf) (c : Char) : Run BinBuf := binBufPutInt b c.toNat

def binWriteLen4 (buf : Str) (off : Nat) (n : Int) : Run Str := bytesPutLe buf off n 4

/-- The count of a list, ahead of its elements. -/
def binBufPutList {α : Type} (b : BinBuf) (xs : List α) (put : BinBuf → α → Run BinBuf) :
    Run BinBuf := do
  let dst ← binWriteLen4 (binBufRoom b 4) b.len xs.length
  xs.foldlM put ⟨dst, b.len + 4⟩

def binBufPutOption {α : Type} (b : BinBuf) (o : Option α) (put : BinBuf → α → Run BinBuf) :
    Run BinBuf :=
  match o with
  | none => binBufByte b 0
  | some x => do put (← binBufByte b 1) x

/-- The bytes written, as an array of that length. -/
def binBufBytes (b : BinBuf) : Run Str := bytesBlit (List.replicate b.len 0) 0 b.bytes 0 b.len

theorem binBufBytes_eq {b : BinBuf} (hb : b.WellFormed) : binBufBytes b = .ok b.written := by
  have hlen : b.written.length = b.len := by
    rw [BinBuf.written, List.length_take]
    exact Nat.min_eq_left hb.fits
  have hspan : bytesSpan b.bytes (0 : Nat) b.len = .ok b.written :=
    bytesSpan_nat (by rw [Nat.zero_add]; exact hb.fits)
  rw [binBufBytes, bytesBlit, hspan, bytesSpan_nat (by simp)]
  show bytesStore _ 0 b.written = _
  rw [bytesStore_eq (by simp [hlen])]
  simp [hlen]

/-- From any well-formed buffer, `op` writes exactly `bs` after what is there. -/
def Appends (op : BinBuf → Run BinBuf) (bs : Str) : Prop :=
  ∀ b : BinBuf, b.WellFormed →
    ∃ b' : BinBuf, op b = .ok b' ∧ b'.WellFormed ∧ b'.written = b.written ++ bs

theorem Appends.nil : Appends .ok [] := fun b hb => ⟨b, rfl, hb, (List.append_nil _).symm⟩

theorem Appends.bind {op : BinBuf → Run BinBuf} {next : BinBuf → Run BinBuf} {as bs : Str}
    (hop : Appends op as) (hnext : Appends next bs) :
    Appends (fun b => op b >>= next) (as ++ bs) := by
  intro b hb
  obtain ⟨b₁, hop, hb₁, hwritten₁⟩ := hop b hb
  obtain ⟨b₂, hnext, hb₂, hwritten₂⟩ := hnext b₁ hb₁
  refine ⟨b₂, ?_, hb₂, ?_⟩
  · show op b >>= next = _
    rw [hop]
    exact hnext
  · rw [hwritten₂, hwritten₁, List.append_assoc]

theorem appends_store (bs : Str) :
    Appends (fun b => do
      let d ← bytesStore (binBufRoom b bs.length) b.len bs
      return ⟨d, b.len + bs.length⟩) bs := by
  intro b hb
  obtain ⟨hroom, hpos, hwritten⟩ := binBufRoom_spec hb bs.length
  dsimp only
  rw [bytesStore_eq hroom, hwritten]
  have hlen : b.written.length = b.len := by
    rw [BinBuf.written, List.length_take]
    exact Nat.min_eq_left hb.fits
  refine ⟨_, rfl, ⟨?_, ?_⟩, ?_⟩
  · simp only [List.length_append, List.length_drop]
    omega
  · simp only [List.length_append, List.length_drop]
    omega
  · rw [BinBuf.written]
    dsimp only
    rw [← List.append_assoc]
    apply List.take_left'
    rw [List.length_append, hlen]

theorem appends_put (src : Str) : Appends (fun b => binBufPut b src) src := by
  intro b hb
  obtain ⟨b', hstore, hok⟩ := appends_store src b hb
  refine ⟨b', ?_, hok⟩
  dsimp only
  rw [binBufPut, bytesBlit_eq (binBufRoom_spec hb src.length).1]
  exact hstore

theorem appends_byte {n : Nat} (hn : n < 256) :
    Appends (fun b => binBufByte b n) [UInt8.ofNat n] := by
  intro b hb
  have hbytes : leBytes 1 n = [UInt8.ofNat n] := by
    have hmod : ((n : Int) % 256).toNat = n := by omega
    rw [leBytes, leBytes, hmod]
  obtain ⟨b', hstore, hok⟩ := appends_store (leBytes 1 n) b hb
  rw [hbytes] at hok
  refine ⟨b', ?_, hok⟩
  dsimp only
  rw [binBufByte, if_neg (by omega)]
  exact hstore

theorem appends_putInt (n : Int) : Appends (fun b => binBufPutInt b n) (leBytes 8 n) := by
  intro b hb
  obtain ⟨b', hstore, hok⟩ := appends_store (leBytes 8 n) b hb
  rw [length_leBytes] at hstore
  exact ⟨b', hstore, hok⟩

theorem appends_putChar (c : Char) :
    Appends (fun b => binBufPutChar b c) (leBytes 8 c.toNat) :=
  appends_putInt c.toNat

theorem appends_putBool (x : Bool) :
    Appends (fun b => binBufPutBool b x) [if x then 1 else 0] := by
  intro b hb
  have hbytes : leBytes 1 (if x then 1 else 0) = [if x then 1 else 0] := by
    cases x <;> rfl
  obtain ⟨b', hstore, hok⟩ := appends_store (leBytes 1 (if x then 1 else 0)) b hb
  rw [length_leBytes] at hstore
  rw [hbytes] at hok
  exact ⟨b', hstore, hok⟩

theorem appends_putString (s : Str) :
    Appends (fun b => binBufPutString b s) (leBytes 4 s.length ++ s) := by
  intro b hb
  obtain ⟨b', hstore, hok⟩ := appends_store (leBytes 4 s.length ++ s) b hb
  have hlen : (leBytes 4 s.length ++ s).length = 4 + s.length := by
    rw [List.length_append, length_leBytes]
  rw [hlen] at hstore
  refine ⟨b', ?_, hok⟩
  have hroom : b.len + ((leBytes 4 s.length).length + s.length) ≤
      (binBufRoom b (4 + s.length)).length := by
    rw [length_leBytes]
    exact (binBufRoom_spec hb (4 + s.length)).1
  dsimp only at hstore ⊢
  rw [← bytesStore_append hroom, length_leBytes] at hstore
  rw [binBufPutString, bytesPutLe]
  rw [← hstore]
  simp only [bytesPutString, bind_assoc, Nat.add_assoc]

theorem appends_putList {α : Type} (xs : List α) {put : BinBuf → α → Run BinBuf} {bs : Str}
    (h : Appends (fun b => xs.foldlM put b) bs) :
    Appends (fun b => binBufPutList b xs put) (leBytes 4 xs.length ++ bs) := by
  have hcount := appends_store (leBytes 4 xs.length)
  rw [length_leBytes] at hcount
  intro b hb
  obtain ⟨b', hboth, hok⟩ := (hcount.bind h) b hb
  refine ⟨b', ?_, hok⟩
  rw [← hboth]
  simp only [binBufPutList, binWriteLen4, bytesPutLe, bind_assoc, pure_bind]

theorem appends_putNone {α : Type} (put : BinBuf → α → Run BinBuf) :
    Appends (fun b => binBufPutOption b none put) [0] :=
  appends_byte (n := 0) (by decide)

theorem appends_putSome {α : Type} {x : α} (put : BinBuf → α → Run BinBuf) {bs : Str}
    (h : Appends (fun b => put b x) bs) :
    Appends (fun b => binBufPutOption b (some x) put) (1 :: bs) :=
  (appends_byte (n := 1) (by decide)).bind h

end Kaikai.BinSer
