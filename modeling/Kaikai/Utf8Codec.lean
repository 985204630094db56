import Kaikai.Utf8

/-!
Validation of UTF-8 over bytes, and lossy decoding that replaces what cannot be
read. The scanner answers the length of a well-formed sequence, and minus the length
of the ill-formed part to skip otherwise.
-/

namespace Kaikai.Utf8Codec

open Kaikai.Str
open Kaikai.Utf8

def byteToInt (b : UInt8) : Int := b.toNat

/-- Length of the sequence a lead byte opens; 0 for a byte that cannot lead. -/
def u8Width (b : Int) : Int :=
  if b < 0x80 then 1
  else if b < 0xC2 then 0
  else if b < 0xE0 then 2
  else if b < 0xF0 then 3
  else if b < 0xF5 then 4
  else 0

def u8SecondLo (b : Int) : Int := if b = 0xE0 then 0xA0 else if b = 0xF0 then 0x90 else 0x80

def u8SecondHi (b : Int) : Int := if b = 0xED then 0x9F else if b = 0xF4 then 0x8F else 0xBF

def u8IsCont (b : Int) : Bool := b ≥ 0x80 && b ≤ 0xBF

/-- Checks the remaining continuation bytes; `have_` bytes are already read. -/
def u8Tail : List UInt8 → Int → Int → Int
  | [], have_, width => if have_ = width then width else 0 - have_
  | b :: tail, have_, width =>
      if have_ = width then width
      else if u8IsCont (byteToInt b) then u8Tail tail (have_ + 1) width
      else 0 - have_

def u8Seq (b : UInt8) (rest : List UInt8) : Int :=
  let lead := byteToInt b
  let width := u8Width lead
  if width = 0 then 0 - 1
  else if width = 1 then 1
  else match rest with
    | [] => 0 - 1
    | b1 :: tail =>
        let c := byteToInt b1
        if c < u8SecondLo lead ∨ c > u8SecondHi lead then 0 - 1 else u8Tail tail 2 width

def u8Drop : List UInt8 → Int → List UInt8
  | [], _ => []
  | b :: tail, n => if n ≤ 0 then b :: tail else u8Drop tail (n - 1)

/-- `inside` counts the bytes of the current valid sequence still to pass. -/
def u8FirstBad : List UInt8 → Int → Int → Option Int
  | [], _, _ => none
  | b :: rest, inside, off =>
      if inside > 0 then u8FirstBad rest (inside - 1) (off + 1)
      else
        let n := u8Seq b rest
        if n < 0 then some off else u8FirstBad rest (n - 1) (off + 1)

theorem length_u8Drop_le (bs : List UInt8) (n : Int) : (u8Drop bs n).length ≤ bs.length := by
  induction bs generalizing n with
  | nil => exact Nat.le_refl 0
  | cons b bs ih =>
      rw [u8Drop]
      split
      · exact Nat.le_refl _
      · exact (ih (n - 1)).trans (Nat.le_succ _)

/-- Output is reversed; U+FFFD is pushed as EF BF BD. -/
def u8Lossy : List UInt8 → Int → List UInt8 → List UInt8
  | [], _, acc => acc
  | b :: rest, inside, acc =>
      if inside > 0 then u8Lossy rest (inside - 1) (b :: acc)
      else
        let n := u8Seq b rest
        if n > 0 then u8Lossy rest (n - 1) (b :: acc)
        else u8Lossy (u8Drop rest (0 - n - 1)) 0 (0xBD :: 0xBF :: 0xEF :: acc)
termination_by bs => bs.length
decreasing_by
  · exact Nat.lt_succ_self _
  · exact Nat.lt_succ_self _
  · exact Nat.lt_succ_of_le (length_u8Drop_le _ _)

/-- `Ok` with the text, or `Err` with the offset of the first ill-formed sequence. -/
def decode (bs : List UInt8) : Except Int Str :=
  match u8FirstBad bs 0 0 with
  | some off => .error off
  | none => .ok bs

def decodeLossy (bs : List UInt8) : Str := (u8Lossy bs 0 []).reverse

def isValid (bs : List UInt8) : Bool :=
  match u8FirstBad bs 0 0 with
  | some _ => false
  | none => true

/-- A concatenation of encoded characters. -/
def WellFormed (bs : List UInt8) : Prop := ∃ text, bs = utf8 text

/-- What the byte classes allow at the start of a sequence. -/
def Begins : List UInt8 → Prop
  | [] => True
  | [b] => 0 < u8Width (byteToInt b)
  | b :: c :: tail =>
      u8SecondLo (byteToInt b) ≤ byteToInt c ∧ byteToInt c ≤ u8SecondHi (byteToInt b) ∧
        (∀ d ∈ tail, u8IsCont (byteToInt d) = true) ∧ tail.length + 2 ≤ u8Width (byteToInt b)

theorem byteToInt_ofNat {n : Nat} (h : n < 256) : byteToInt (UInt8.ofNat n) = n := by
  rw [byteToInt, UInt8.toNat_ofNat_of_lt' h]

theorem u8IsCont_iff (b : Int) : u8IsCont b = true ↔ 0x80 ≤ b ∧ b ≤ 0xBF := by
  simp [u8IsCont]

theorem u8Width_cases (b : Int) : (u8Width b = 0 ∧ (0x80 ≤ b ∧ b < 0xC2 ∨ 0xF5 ≤ b)) ∨
    (u8Width b = 1 ∧ b < 0x80) ∨ (u8Width b = 2 ∧ 0xC2 ≤ b ∧ b < 0xE0) ∨
    (u8Width b = 3 ∧ 0xE0 ≤ b ∧ b < 0xF0) ∨ (u8Width b = 4 ∧ 0xF0 ≤ b ∧ b < 0xF5) := by
  unfold u8Width
  split_ifs <;> omega

theorem u8SecondLo_cases (b : Int) : (u8SecondLo b = 0xA0 ∧ b = 0xE0) ∨
    (u8SecondLo b = 0x90 ∧ b = 0xF0) ∨ (u8SecondLo b = 0x80 ∧ b ≠ 0xE0 ∧ b ≠ 0xF0) := by
  unfold u8SecondLo
  split_ifs <;> omega

theorem u8SecondHi_cases (b : Int) : (u8SecondHi b = 0x9F ∧ b = 0xED) ∨
    (u8SecondHi b = 0x8F ∧ b = 0xF4) ∨ (u8SecondHi b = 0xBF ∧ b ≠ 0xED ∧ b ≠ 0xF4) := by
  unfold u8SecondHi
  split_ifs <;> omega

theorem encode_begins (c : Char) : ∃ b tail, String.utf8EncodeChar c = b :: tail ∧
    Begins (b :: tail) ∧ (tail.length + 1 : Int) = u8Width (byteToInt b) := by
  have hvalid : c.val.toNat < 0xd800 ∨ (0xdfff < c.val.toNat ∧ c.val.toNat < 0x110000) := c.valid
  unfold String.utf8EncodeChar
  generalize c.val.toNat = v at hvalid
  simp only
  by_cases h1 : v ≤ 0x7f
  · have hw := u8Width_cases v
    refine ⟨_, _, if_pos h1, ?_⟩
    simp only [Begins, byteToInt_ofNat (show v < 256 by omega), List.length_nil]
    omega
  rw [if_neg h1]
  by_cases h2 : v ≤ 0x7ff
  · have hw := u8Width_cases (v / 64 % 0x20 + 0xc0 : Nat)
    have hlo := u8SecondLo_cases (v / 64 % 0x20 + 0xc0 : Nat)
    have hhi := u8SecondHi_cases (v / 64 % 0x20 + 0xc0 : Nat)
    refine ⟨_, _, if_pos h2, ?_⟩
    simp only [Begins, byteToInt_ofNat (show v / 64 % 0x20 + 0xc0 < 256 by omega),
      byteToInt_ofNat (show v % 0x40 + 0x80 < 256 by omega), List.length_singleton,
      List.length_nil, List.not_mem_nil, false_implies, implies_true, true_and]
    omega
  rw [if_neg h2]
  by_cases h3 : v ≤ 0xffff
  · have hw := u8Width_cases (v / 4096 % 0x10 + 0xe0 : Nat)
    have hlo := u8SecondLo_cases (v / 4096 % 0x10 + 0xe0 : Nat)
    have hhi := u8SecondHi_cases (v / 4096 % 0x10 + 0xe0 : Nat)
    refine ⟨_, _, if_pos h3, ?_⟩
    simp only [Begins, byteToInt_ofNat (show v / 4096 % 0x10 + 0xe0 < 256 by omega),
      byteToInt_ofNat (show v / 64 % 0x40 + 0x80 < 256 by omega),
      byteToInt_ofNat (show v % 0x40 + 0x80 < 256 by omega), List.length_cons, List.length_nil,
      List.forall_mem_singleton, u8IsCont_iff]
    omega
  · have hw := u8Width_cases (v / 262144 % 0x08 + 0xf0 : Nat)
    have hlo := u8SecondLo_cases (v / 262144 % 0x08 + 0xf0 : Nat)
    have hhi := u8SecondHi_cases (v / 262144 % 0x08 + 0xf0 : Nat)
    refine ⟨_, _, if_neg h3, ?_⟩
    simp only [Begins, byteToInt_ofNat (show v / 262144 % 0x08 + 0xf0 < 256 by omega),
      byteToInt_ofNat (show v / 4096 % 0x40 + 0x80 < 256 by omega),
      byteToInt_ofNat (show v / 64 % 0x40 + 0x80 < 256 by omega),
      byteToInt_ofNat (show v % 0x40 + 0x80 < 256 by omega), List.length_cons, List.length_nil,
      List.forall_mem_cons, List.not_mem_nil, false_implies, implies_true, and_true, u8IsCont_iff]
    omega

theorem val_ofNat {v : Nat} (h : v.isValidChar) : (Char.ofNat v).val.toNat = v := by
  rw [Char.ofNat, dif_pos h]
  rfl

theorem eq_ofNat {n : Nat} {b : UInt8} (h : n = b.toNat) : UInt8.ofNat n = b := by
  rw [h, UInt8.ofNat_toNat]

theorem exists_of_begins {b : UInt8} {tail : List UInt8} (h : Begins (b :: tail))
    (hlen : (tail.length + 1 : Int) = u8Width (byteToInt b)) :
    ∃ c, String.utf8EncodeChar c = b :: tail := by
  have hb := b.toNat_lt
  have hw := u8Width_cases (byteToInt b)
  have hlo := u8SecondLo_cases (byteToInt b)
  have hhi := u8SecondHi_cases (byteToInt b)
  rcases tail with _ | ⟨c, _ | ⟨d, _ | ⟨e, _ | ⟨f, tail⟩⟩⟩⟩
  · simp only [byteToInt, List.length_nil] at *
    have hv : b.toNat.isValidChar := Or.inl (by omega)
    refine ⟨Char.ofNat b.toNat, ?_⟩
    unfold String.utf8EncodeChar
    simp only [val_ofNat hv]
    rw [if_pos (by omega), UInt8.ofNat_toNat]
  · simp only [Begins, byteToInt, List.length_singleton, List.length_nil] at *
    have hlead : 0xc2 ≤ b.toNat ∧ b.toNat < 0xe0 := by omega
    have hc : 0x80 ≤ c.toNat ∧ c.toNat ≤ 0xbf := by omega
    clear hw hlo hhi h hlen
    have hv : ((b.toNat - 0xc0) * 64 + (c.toNat - 0x80)).isValidChar := Or.inl (by omega)
    refine ⟨Char.ofNat ((b.toNat - 0xc0) * 64 + (c.toNat - 0x80)), ?_⟩
    unfold String.utf8EncodeChar
    simp only [val_ofNat hv]
    rw [if_neg (by omega), if_pos (by omega), eq_ofNat (b := b) (by omega),
      eq_ofNat (b := c) (by omega)]
  · simp only [Begins, byteToInt, List.length_cons, List.length_nil, List.forall_mem_singleton,
      u8IsCont_iff] at *
    have hlead : 0xe0 ≤ b.toNat ∧ b.toNat < 0xf0 := by omega
    have hc : 0x80 ≤ c.toNat ∧ c.toNat ≤ 0xbf := by omega
    have hlong : b.toNat = 0xe0 → 0xa0 ≤ c.toNat := by omega
    have hsurrogate : b.toNat = 0xed → c.toNat ≤ 0x9f := by omega
    have hd : 0x80 ≤ d.toNat ∧ d.toNat ≤ 0xbf := by omega
    clear hw hlo hhi h hlen
    have hv : ((b.toNat - 0xe0) * 4096 + (c.toNat - 0x80) * 64 + (d.toNat - 0x80)).isValidChar := by
      unfold Nat.isValidChar
      omega
    have hlow : 0x7ff < (b.toNat - 0xe0) * 4096 + (c.toNat - 0x80) * 64 + (d.toNat - 0x80) := by
      omega
    clear hlong hsurrogate
    refine ⟨Char.ofNat ((b.toNat - 0xe0) * 4096 + (c.toNat - 0x80) * 64 + (d.toNat - 0x80)), ?_⟩
    unfold String.utf8EncodeChar
    simp only [val_ofNat hv]
    rw [if_neg (by omega), if_neg (by omega), if_pos (by omega), eq_ofNat (b := b) (by omega),
      eq_ofNat (b := c) (by omega), eq_ofNat (b := d) (by omega)]
  · simp only [Begins, byteToInt, List.length_cons, List.length_nil, List.forall_mem_cons,
      List.not_mem_nil, false_implies, implies_true, and_true, u8IsCont_iff] at *
    have hlead : 0xf0 ≤ b.toNat ∧ b.toNat < 0xf5 := by omega
    have hc : 0x80 ≤ c.toNat ∧ c.toNat ≤ 0xbf := by omega
    have hlong : b.toNat = 0xf0 → 0x90 ≤ c.toNat := by omega
    have hlast : b.toNat = 0xf4 → c.toNat ≤ 0x8f := by omega
    have hd : 0x80 ≤ d.toNat ∧ d.toNat ≤ 0xbf := by omega
    have he : 0x80 ≤ e.toNat ∧ e.toNat ≤ 0xbf := by omega
    clear hw hlo hhi h hlen
    have hlow : 0xffff < (b.toNat - 0xf0) * 262144 + (c.toNat - 0x80) * 4096 +
        (d.toNat - 0x80) * 64 + (e.toNat - 0x80) := by
      omega
    have hv : ((b.toNat - 0xf0) * 262144 + (c.toNat - 0x80) * 4096 + (d.toNat - 0x80) * 64 +
        (e.toNat - 0x80)).isValidChar := by
      unfold Nat.isValidChar
      omega
    clear hlong hlast
    refine ⟨Char.ofNat ((b.toNat - 0xf0) * 262144 + (c.toNat - 0x80) * 4096 +
      (d.toNat - 0x80) * 64 + (e.toNat - 0x80)), ?_⟩
    unfold String.utf8EncodeChar
    simp only [val_ofNat hv]
    rw [if_neg (by omega), if_neg (by omega), if_neg (by omega), eq_ofNat (b := b) (by omega),
      eq_ofNat (b := c) (by omega), eq_ofNat (b := d) (by omega), eq_ofNat (b := e) (by omega)]
  · simp only [List.length_cons] at hlen
    omega

theorem begins_take {p : List UInt8} (h : Begins p) (n : Nat) : Begins (p.take n) := by
  rcases p with _ | ⟨b, _ | ⟨c, tail⟩⟩
  · rw [List.take_nil]
    trivial
  · rcases n with _ | n
    · trivial
    · rw [List.take_of_length_le (by simp)]
      exact h
  · rcases n with _ | _ | n
    · trivial
    · have hw := h.2.2.2
      change 0 < u8Width (byteToInt b)
      omega
    · refine ⟨h.1, h.2.1, fun d hd => h.2.2.1 d (List.mem_of_mem_take hd), ?_⟩
      have hw := h.2.2.2
      rw [List.length_take]
      omega

theorem begins_complete {b c : UInt8} {tail : List UInt8} (h : Begins (b :: c :: tail)) :
    ∃ x, b :: c :: tail <+: String.utf8EncodeChar x := by
  have hw := h.2.2.2
  obtain ⟨n, hn⟩ : ∃ n : Nat, (tail.length + 2 + n : Int) = u8Width (byteToInt b) :=
    ⟨(u8Width (byteToInt b) - (tail.length + 2)).toNat, by omega⟩
  have hfull : Begins (b :: c :: (tail ++ List.replicate n 0x80)) := by
    refine ⟨h.1, h.2.1, fun d hd => ?_, ?_⟩
    · rcases List.mem_append.1 hd with hd | hd
      · exact h.2.2.1 d hd
      · rw [List.eq_of_mem_replicate hd]
        rfl
    · rw [List.length_append, List.length_replicate]
      omega
  obtain ⟨x, hx⟩ := exists_of_begins hfull (by
    rw [List.length_cons, List.length_append, List.length_replicate]
    omega)
  exact ⟨x, by rw [hx]; exact ⟨List.replicate n 0x80, rfl⟩⟩

theorem begins_lead {b : UInt8} (h : Begins [b]) : ∃ x, [b] <+: String.utf8EncodeChar x := by
  change 0 < u8Width (byteToInt b) at h
  have hw := u8Width_cases (byteToInt b)
  have hlo := u8SecondLo_cases (byteToInt b)
  have hhi := u8SecondHi_cases (byteToInt b)
  by_cases hone : u8Width (byteToInt b) = 1
  · obtain ⟨x, hx⟩ := @exists_of_begins b [] h (by rw [hone]; rfl)
    exact ⟨x, hx ▸ List.prefix_rfl⟩
  · have hc : byteToInt (UInt8.ofNat (u8SecondLo (byteToInt b)).toNat) =
        u8SecondLo (byteToInt b) := by
      rw [byteToInt_ofNat (by omega)]
      omega
    obtain ⟨x, hx⟩ := @begins_complete b (UInt8.ofNat (u8SecondLo (byteToInt b)).toNat) []
      ⟨by rw [hc], by rw [hc]; omega, fun d hd => absurd hd List.not_mem_nil, by
        rw [List.length_nil]
        omega⟩
    exact ⟨x, List.IsPrefix.trans ⟨_, rfl⟩ hx⟩

theorem begins_iff {b : UInt8} {tail : List UInt8} :
    Begins (b :: tail) ↔ ∃ c, b :: tail <+: String.utf8EncodeChar c := by
  constructor
  · rcases tail with _ | ⟨c, tail⟩
    · exact begins_lead
    · exact begins_complete
  · rintro ⟨c, hc⟩
    obtain ⟨b', tail', heq, hbegins, -⟩ := encode_begins c
    rw [heq] at hc
    rw [List.prefix_iff_eq_take.1 hc]
    exact begins_take hbegins _

theorem u8Tail_spec (rest : List UInt8) (have_ : Nat) (width : Int) (h : (have_ : Int) ≤ width) :
    ∃ n : Nat, n ≤ rest.length ∧ (∀ d ∈ rest.take n, u8IsCont (byteToInt d) = true) ∧
      ((u8Tail rest have_ width = width ∧ have_ + n = width) ∨
        (u8Tail rest have_ width = -(have_ + n : Int) ∧ have_ + n < width ∧
          ∀ d, rest[n]? = some d → u8IsCont (byteToInt d) = false)) := by
  induction rest generalizing have_ with
  | nil =>
      refine ⟨0, le_rfl, by simp, ?_⟩
      rw [u8Tail]
      by_cases heq : (have_ : Int) = width
      · exact .inl ⟨if_pos heq, by simpa using heq⟩
      · exact .inr ⟨by rw [if_neg heq]; simp, by simpa using lt_of_le_of_ne h heq, by simp⟩
  | cons b rest ih =>
      rw [u8Tail]
      by_cases heq : (have_ : Int) = width
      · exact ⟨0, Nat.zero_le _, by simp, .inl ⟨if_pos heq, by simpa using heq⟩⟩
      rw [if_neg heq]
      cases hcont : u8IsCont (byteToInt b) with
      | false =>
          refine ⟨0, Nat.zero_le _, by simp, .inr ⟨by simp, ?_, ?_⟩⟩
          · simpa using lt_of_le_of_ne h heq
          · rintro d hd
            cases hd
            exact hcont
      | true =>
          obtain ⟨n, hn, hall, hout⟩ := ih (have_ + 1) (by push_cast; omega)
          push_cast at hout
          refine ⟨n + 1, Nat.succ_le_succ hn, ?_, ?_⟩
          · rw [List.take_succ_cons, List.forall_mem_cons]
            exact ⟨hcont, hall⟩
          · rw [if_pos rfl, List.getElem?_cons_succ]
            push_cast
            rcases hout with ⟨hrun, hw⟩ | ⟨hrun, hw, hstop⟩
            · exact .inl ⟨hrun, by omega⟩
            · exact .inr ⟨by rw [hrun]; ring, by omega, hstop⟩

/-- What the scanner read: a whole sequence, or the longest start of one. -/
inductive Scanned (b : UInt8) (rest : List UInt8) : Int → Prop where
  | whole {n : Nat} : n ≤ rest.length → Begins (b :: rest.take n) →
      (n + 1 : Int) = u8Width (byteToInt b) → Scanned b rest (n + 1)
  | broken {n : Nat} : n ≤ rest.length → (n = 0 ∨ Begins (b :: rest.take n)) →
      (u8Width (byteToInt b) = 0 ∨ (n + 1 : Int) < u8Width (byteToInt b)) →
      (∀ m, n < m → m ≤ rest.length → ¬ Begins (b :: rest.take m)) → Scanned b rest (-(n + 1))

theorem begins_width {b : UInt8} {tail : List UInt8} (h : Begins (b :: tail)) :
    (tail.length + 1 : Int) ≤ u8Width (byteToInt b) := by
  rcases tail with _ | ⟨c, tail⟩
  · exact h
  · rw [List.length_cons]
    have hw := h.2.2.2
    push_cast
    omega

theorem u8Seq_scanned (b : UInt8) (rest : List UInt8) : Scanned b rest (u8Seq b rest) := by
  have hw := u8Width_cases (byteToInt b)
  unfold u8Seq
  simp only
  by_cases hzero : u8Width (byteToInt b) = 0
  · rw [if_pos hzero]
    refine @Scanned.broken b rest 0 (Nat.zero_le _) (.inl rfl) (.inl hzero) fun m _ _ hm => ?_
    have hle := begins_width hm
    omega
  rw [if_neg hzero]
  by_cases hone : u8Width (byteToInt b) = 1
  · rw [if_pos hone]
    refine @Scanned.whole b rest 0 (Nat.zero_le _) ?_ (by rw [hone]; rfl)
    change 0 < u8Width (byteToInt b)
    omega
  rw [if_neg hone]
  rcases rest with _ | ⟨c, tail⟩
  · refine @Scanned.broken b [] 0 le_rfl (.inl rfl) (.inr (by push_cast; omega)) fun m hlt hle => ?_
    exact absurd (hlt.trans_le hle) (Nat.lt_irrefl 0)
  simp only
  by_cases hc : byteToInt c < u8SecondLo (byteToInt b) ∨ byteToInt c > u8SecondHi (byteToInt b)
  · rw [if_pos hc]
    refine @Scanned.broken b (c :: tail) 0 (Nat.zero_le _) (.inl rfl) (.inr (by push_cast; omega))
      fun m hlt hle hm => ?_
    obtain ⟨m, rfl⟩ := Nat.exists_eq_succ_of_ne_zero hlt.ne'
    rw [List.take_succ_cons] at hm
    have h1 := hm.1
    have h2 := hm.2.1
    omega
  rw [if_neg hc]
  obtain ⟨n, hn, hall, hout⟩ := u8Tail_spec tail 2 (u8Width (byteToInt b)) (by push_cast; omega)
  push_cast at hout
  have hbegins : Begins (b :: (c :: tail).take (n + 1)) := by
    rw [List.take_succ_cons]
    refine ⟨by omega, by omega, hall, ?_⟩
    rw [List.length_take, min_eq_left hn]
    omega
  rcases hout with ⟨hrun, hwidth⟩ | ⟨hrun, hwidth, hstop⟩
  · rw [hrun, ← hwidth, show (2 + n : Int) = ((n + 1 : Nat) : Int) + 1 by push_cast; ring]
    refine .whole (Nat.succ_le_succ hn) hbegins ?_
    push_cast
    omega
  · rw [hrun, show (2 + n : Int) = ((n + 1 : Nat) : Int) + 1 by push_cast; ring]
    refine .broken (Nat.succ_le_succ hn) (.inr hbegins) (.inr (by push_cast; omega))
      fun m hlt hle hm => ?_
    obtain ⟨m, rfl⟩ := Nat.exists_eq_succ_of_ne_zero (Nat.ne_zero_of_lt hlt)
    rw [List.take_succ_cons] at hm
    have hlen : n < tail.length := by
      rw [List.length_cons] at hle
      omega
    have hmem : tail[n] ∈ tail.take m := by
      rw [List.mem_take_iff_getElem]
      exact ⟨n, by omega, rfl⟩
    have hcont := hm.2.2.1 _ hmem
    rw [hstop _ (List.getElem?_eq_getElem hlen)] at hcont
    cases hcont

/-- The start of a well-formed sequence. -/
def Starts (p : List UInt8) : Prop := ∃ c, p <+: String.utf8EncodeChar c

/-- No well-formed sequence starts here. -/
def Unreadable (s : List UInt8) : Prop := ∀ c, ¬ String.utf8EncodeChar c <+: s

/-- The longest prefix that is one byte or the start of a well-formed sequence. -/
structure MaximalSubpart (p s : List UInt8) : Prop where
  isPrefix : p <+: s
  ne_nil : p ≠ []
  start : p.length = 1 ∨ Starts p
  longest : ∀ q, q <+: s → q.length = 1 ∨ Starts q → q.length ≤ p.length

theorem encode_width {c : Char} {b : UInt8} {s : List UInt8}
    (h : String.utf8EncodeChar c <+: b :: s) :
    ((String.utf8EncodeChar c).length : Int) = u8Width (byteToInt b) := by
  obtain ⟨b', tail, heq, -, hlen⟩ := encode_begins c
  rw [heq] at h ⊢
  rw [(List.cons_prefix_cons.1 h).1] at hlen
  rw [← hlen, List.length_cons]
  push_cast
  rfl

theorem encode_unique {c c' : Char} {s : List UInt8} (h : String.utf8EncodeChar c <+: s)
    (h' : String.utf8EncodeChar c' <+: s) : String.utf8EncodeChar c = String.utf8EncodeChar c' := by
  rcases s with _ | ⟨b, s⟩
  · rw [List.prefix_nil.1 h, List.prefix_nil.1 h']
  · have hlen := (encode_width h).trans (encode_width h').symm
    rw [List.prefix_iff_eq_take.1 h, List.prefix_iff_eq_take.1 h', Int.ofNat.inj hlen]

theorem encode_length_pos (c : Char) : 0 < (String.utf8EncodeChar c).length :=
  List.length_pos_iff.2 (utf8EncodeChar_ne_nil c)

theorem u8Seq_spec (b : UInt8) (rest : List UInt8) :
    (∃ c rest', b :: rest = String.utf8EncodeChar c ++ rest' ∧
      u8Seq b rest = (String.utf8EncodeChar c).length) ∨
    ∃ p rest', b :: rest = p ++ rest' ∧ Unreadable (b :: rest) ∧ MaximalSubpart p (b :: rest) ∧
      u8Seq b rest = -(p.length : Int) := by
  have hsplit : ∀ n, b :: rest = (b :: rest.take n) ++ rest.drop n := fun n => by
    rw [List.cons_append, List.take_append_drop]
  generalize hrun : u8Seq b rest = out
  rcases hrun ▸ u8Seq_scanned b rest with @⟨n, hn, hbegins, hw⟩ | @⟨n, hn, hstart, hw, hmax⟩
  · obtain ⟨c, hc⟩ := exists_of_begins hbegins (by rw [List.length_take, min_eq_left hn]; exact hw)
    refine .inl ⟨c, rest.drop n, hc ▸ hsplit n, ?_⟩
    rw [hc, List.length_cons, List.length_take, min_eq_left hn]
    push_cast
    rfl
  · have hlen : (b :: rest.take n).length = n + 1 := by
      rw [List.length_cons, List.length_take, min_eq_left hn]
    have hshort : ∀ m, m ≤ rest.length → Begins (b :: rest.take m) → m ≤ n := fun m hm h =>
      Nat.le_of_not_lt fun hlt => hmax m hlt hm h
    have htake : ∀ q, q <+: b :: rest → q ≠ [] → ∃ m, m ≤ rest.length ∧ q = b :: rest.take m := by
      intro q hq hne
      rcases q with _ | ⟨d, q⟩
      · exact absurd rfl hne
      · obtain ⟨hd, hq'⟩ := List.cons_prefix_cons.1 hq
        rw [hd]
        exact ⟨q.length, hq'.length_le, congrArg (b :: ·) (List.prefix_iff_eq_take.1 hq')⟩
    refine .inr ⟨b :: rest.take n, rest.drop n, hsplit n, fun c hc => ?_, ?_, ?_⟩
    · have hwidth := encode_width hc
      obtain ⟨m, hm, heq⟩ := htake _ hc (utf8EncodeChar_ne_nil c)
      have hle := hshort m hm (begins_iff.2 ⟨c, heq ▸ List.prefix_rfl⟩)
      rw [heq, List.length_cons, List.length_take, min_eq_left hm] at hwidth
      push_cast at hwidth
      omega
    · refine ⟨⟨rest.drop n, (hsplit n).symm⟩, List.cons_ne_nil _ _, ?_, fun q hq hstart' => ?_⟩
      · rw [hlen]
        exact hstart.imp (fun h => by rw [h]) fun h => begins_iff.1 h
      · rcases hstart' with h | hq'
        · rw [h, hlen]
          exact Nat.succ_le_succ (Nat.zero_le n)
        · by_cases hne : q = []
          · rw [hne]
            exact Nat.zero_le _
          · obtain ⟨m, hm, rfl⟩ := htake q hq hne
            rw [hlen, List.length_cons, List.length_take, min_eq_left hm]
            exact Nat.succ_le_succ (hshort m hm (begins_iff.2 hq'))
    · rw [hlen]
      push_cast
      rfl

theorem not_wellFormed {s : List UInt8} (hs : s ≠ []) (h : Unreadable s) : ¬ WellFormed s := by
  rintro ⟨_ | ⟨c, text⟩, rfl⟩
  · exact hs rfl
  · exact h c ⟨utf8 text, (utf8_cons c text).symm⟩

theorem wellFormed_encode (c : Char) (s : List UInt8) :
    WellFormed (String.utf8EncodeChar c ++ s) ↔ WellFormed s := by
  constructor
  · rintro ⟨_ | ⟨c', text⟩, h⟩
    · exact absurd (List.append_eq_nil_iff.1 h).1 (utf8EncodeChar_ne_nil c)
    · rw [utf8_cons] at h
      have heq := encode_unique ⟨s, rfl⟩ ⟨utf8 text, h.symm⟩
      rw [heq] at h
      exact ⟨text, List.append_cancel_left h⟩
  · rintro ⟨text, rfl⟩
    exact ⟨c :: text, (utf8_cons c text).symm⟩

/-- The lengths of the well-formed prefixes. -/
def validPrefixes (s : List UInt8) : Set Nat := {n | n ≤ s.length ∧ WellFormed (s.take n)}

theorem wellFormed_nil : WellFormed [] := ⟨[], rfl⟩

theorem isGreatest_unreadable {s : List UInt8} (h : Unreadable s) :
    IsGreatest (validPrefixes s) 0 := by
  refine ⟨⟨Nat.zero_le _, wellFormed_nil⟩, fun n hn => ?_⟩
  obtain ⟨hle, _ | ⟨c, text⟩, htake⟩ := hn
  · have hlen := congrArg List.length htake
    rw [List.length_take, min_eq_left hle] at hlen
    exact hlen.le
  · rw [utf8_cons] at htake
    exact absurd (List.IsPrefix.trans ⟨_, htake.symm⟩ (List.take_prefix n s)) (h c)

theorem isGreatest_encode (c : Char) {s : List UInt8} {n : Nat}
    (h : IsGreatest (validPrefixes s) n) :
    IsGreatest (validPrefixes (String.utf8EncodeChar c ++ s))
      ((String.utf8EncodeChar c).length + n) := by
  obtain ⟨⟨hle, hwf⟩, hmax⟩ := h
  refine ⟨⟨?_, ?_⟩, fun m hm => ?_⟩
  · rw [List.length_append]
    exact Nat.add_le_add_left hle _
  · rw [List.take_length_add_append]
    exact (wellFormed_encode c _).2 hwf
  · obtain ⟨hm, htake⟩ := hm
    by_cases hlt : m < (String.utf8EncodeChar c).length
    · exact hlt.le.trans (Nat.le_add_right _ _)
    · obtain ⟨k, rfl⟩ := Nat.exists_eq_add_of_le (Nat.le_of_not_lt hlt)
      rw [List.take_length_add_append, wellFormed_encode] at htake
      rw [List.length_append] at hm
      exact Nat.add_le_add_left (hmax ⟨Nat.le_of_add_le_add_left hm, htake⟩) _

theorem u8FirstBad_skip (xs rest : List UInt8) (off : Int) :
    u8FirstBad (xs ++ rest) xs.length off = u8FirstBad rest 0 (off + xs.length) := by
  induction xs generalizing off with
  | nil => simp
  | cons b xs ih =>
      rw [List.cons_append, u8FirstBad, List.length_cons, if_pos (by push_cast; omega)]
      push_cast
      rw [add_sub_cancel_right, ih, add_assoc, add_comm (1 : Int)]

theorem u8Seq_encode {c : Char} {b : UInt8} {tail : List UInt8}
    (h : String.utf8EncodeChar c = b :: tail) (rest : List UInt8) :
    u8Seq b (tail ++ rest) = tail.length + 1 := by
  have hstart : String.utf8EncodeChar c <+: b :: (tail ++ rest) := ⟨rest, by rw [h]; rfl⟩
  rcases u8Seq_spec b (tail ++ rest) with ⟨c', rest', heq, hrun⟩ | ⟨p, rest', -, hno, -⟩
  · rw [hrun, ← encode_unique hstart ⟨rest', heq.symm⟩, h, List.length_cons]
    push_cast
    rfl
  · exact absurd hstart (hno c)

theorem u8Seq_subpart {b : UInt8} {tail rest : List UInt8} (hno : Unreadable (b :: (tail ++ rest)))
    (hmax : MaximalSubpart (b :: tail) (b :: (tail ++ rest))) :
    u8Seq b (tail ++ rest) = -(tail.length + 1 : Int) := by
  rcases u8Seq_spec b (tail ++ rest) with ⟨c, rest', heq, -⟩ | ⟨p, rest', -, -, hp, hrun⟩
  · exact absurd ⟨rest', heq.symm⟩ (hno c)
  · have hlen : p.length = tail.length + 1 :=
      le_antisymm (hmax.longest p hp.isPrefix hp.start)
        (hp.longest (b :: tail) hmax.isPrefix hmax.start)
    rw [hrun, hlen]
    push_cast
    rfl

theorem u8FirstBad_encode (c : Char) (rest : List UInt8) (off : Int) :
    u8FirstBad (String.utf8EncodeChar c ++ rest) 0 off =
      u8FirstBad rest 0 (off + (String.utf8EncodeChar c).length) := by
  obtain ⟨b, tail, h, -⟩ := encode_begins c
  rw [h, List.cons_append, u8FirstBad, if_neg (by decide)]
  simp only [u8Seq_encode h]
  rw [if_neg (by omega), add_sub_cancel_right, u8FirstBad_skip, List.length_cons]
  push_cast
  rw [add_assoc, add_comm (1 : Int)]

theorem u8FirstBad_unreadable {s : List UInt8} (hs : s ≠ []) (h : Unreadable s) (off : Int) :
    u8FirstBad s 0 off = some off := by
  rcases s with _ | ⟨b, rest⟩
  · exact absurd rfl hs
  · rw [u8FirstBad, if_neg (by decide)]
    rcases u8Seq_spec b rest with ⟨c, rest', heq, -⟩ | ⟨p, -, -, -, hp, hrun⟩
    · exact absurd ⟨rest', heq.symm⟩ (h c)
    · have hpos := List.length_pos_iff.2 hp.ne_nil
      simp only [hrun]
      rw [if_pos (by omega)]

/-- A text is empty, starts with an encoded character, or starts with a maximal
subpart that no character begins with. -/
inductive Head : List UInt8 → Prop where
  | nil : Head []
  | char (c : Char) (rest : List UInt8) : Head (String.utf8EncodeChar c ++ rest)
  | subpart (p rest : List UInt8) : Unreadable (p ++ rest) → MaximalSubpart p (p ++ rest) →
      Head (p ++ rest)

theorem head (s : List UInt8) : Head s := by
  rcases s with _ | ⟨b, rest⟩
  · exact .nil
  · rcases u8Seq_spec b rest with ⟨c, rest', heq, -⟩ | ⟨p, rest', heq, hno, hp, -⟩
    · rw [heq]
      exact .char c rest'
    · rw [heq] at hno hp ⊢
      exact .subpart p rest' hno hp

theorem u8FirstBad_spec (k : Nat) : ∀ s : List UInt8, s.length = k → ∀ off,
    (WellFormed s ∧ u8FirstBad s 0 off = none) ∨
      ¬ WellFormed s ∧ ∃ n : Nat, IsGreatest (validPrefixes s) n ∧
        u8FirstBad s 0 off = some (off + n) := by
  induction k using Nat.strong_induction_on with
  | _ k ih =>
      intro s hk off
      cases head s with
      | nil => exact .inl ⟨wellFormed_nil, rfl⟩
      | char c rest =>
          have hpos := encode_length_pos c
          rw [List.length_append] at hk
          rw [wellFormed_encode, u8FirstBad_encode]
          rcases ih rest.length (by omega) rest rfl (off + (String.utf8EncodeChar c).length) with
            h | ⟨hno, n, hn, hrun⟩
          · exact .inl h
          · refine .inr ⟨hno, _, isGreatest_encode c hn, ?_⟩
            rw [hrun]
            push_cast
            rw [add_assoc]
      | subpart p rest hno hp =>
          have hne : p ++ rest ≠ [] := fun h => hp.ne_nil (List.append_eq_nil_iff.1 h).1
          refine .inr ⟨not_wellFormed hne hno, 0, isGreatest_unreadable hno, ?_⟩
          rw [u8FirstBad_unreadable hne hno]
          simp

/-- The text with every maximal subpart of an ill-formed sequence replaced by U+FFFD. -/
inductive Replaced : List UInt8 → List UInt8 → Prop where
  | nil : Replaced [] []
  | char (c : Char) {rest out : List UInt8} : Replaced rest out →
      Replaced (String.utf8EncodeChar c ++ rest) (String.utf8EncodeChar c ++ out)
  | subpart {p rest out : List UInt8} : Unreadable (p ++ rest) → MaximalSubpart p (p ++ rest) →
      Replaced rest out → Replaced (p ++ rest) ([0xEF, 0xBF, 0xBD] ++ out)

theorem u8Lossy_skip (xs rest acc : List UInt8) :
    u8Lossy (xs ++ rest) xs.length acc = u8Lossy rest 0 (xs.reverse ++ acc) := by
  induction xs generalizing acc with
  | nil => simp
  | cons b xs ih =>
      rw [List.cons_append, u8Lossy, List.length_cons, if_pos (by push_cast; omega)]
      push_cast
      rw [add_sub_cancel_right, ih, List.reverse_cons, List.append_assoc]
      rfl

theorem u8Drop_length (xs rest : List UInt8) : u8Drop (xs ++ rest) xs.length = rest := by
  induction xs with
  | nil =>
      rcases rest with _ | ⟨b, rest⟩
      · rfl
      · rw [List.nil_append, u8Drop, if_pos (by simp)]
  | cons b xs ih =>
      rw [List.cons_append, u8Drop, List.length_cons, if_neg (by push_cast; omega)]
      push_cast
      rw [add_sub_cancel_right, ih]

theorem u8Lossy_encode (c : Char) (rest acc : List UInt8) :
    u8Lossy (String.utf8EncodeChar c ++ rest) 0 acc =
      u8Lossy rest 0 ((String.utf8EncodeChar c).reverse ++ acc) := by
  obtain ⟨b, tail, h, -⟩ := encode_begins c
  rw [h, List.cons_append, u8Lossy, if_neg (by decide)]
  simp only [u8Seq_encode h]
  rw [if_pos (by omega), add_sub_cancel_right, u8Lossy_skip, List.reverse_cons, List.append_assoc]
  rfl

theorem u8Lossy_subpart {p rest : List UInt8} (hno : Unreadable (p ++ rest))
    (hp : MaximalSubpart p (p ++ rest)) (acc : List UInt8) :
    u8Lossy (p ++ rest) 0 acc = u8Lossy rest 0 (0xBD :: 0xBF :: 0xEF :: acc) := by
  rcases p with _ | ⟨b, tail⟩
  · exact absurd rfl hp.ne_nil
  · rw [List.cons_append] at hno hp ⊢
    rw [u8Lossy, if_neg (by decide)]
    simp only [u8Seq_subpart hno hp]
    rw [if_neg (by omega), show (0 - -(tail.length + 1 : Int) - 1) = tail.length by ring,
      u8Drop_length]

theorem Replaced.u8Lossy {s out : List UInt8} (h : Replaced s out) (acc : List UInt8) :
    u8Lossy s 0 acc = out.reverse ++ acc := by
  induction h generalizing acc with
  | nil =>
      rw [Utf8Codec.u8Lossy]
      rfl
  | char c _ ih =>
      rw [u8Lossy_encode, ih, List.reverse_append, List.append_assoc]
  | subpart hno hp _ ih =>
      rw [u8Lossy_subpart hno hp, ih, List.reverse_append, List.append_assoc]
      rfl

theorem exists_replaced (k : Nat) : ∀ s : List UInt8, s.length = k → ∃ out, Replaced s out := by
  induction k using Nat.strong_induction_on with
  | _ k ih =>
      intro s hk
      cases head s with
      | nil => exact ⟨[], .nil⟩
      | char c rest =>
          have hpos := encode_length_pos c
          rw [List.length_append] at hk
          obtain ⟨out, h⟩ := ih rest.length (by omega) rest rfl
          exact ⟨_, .char c h⟩
      | subpart p rest hno hp =>
          have hpos := List.length_pos_iff.2 hp.ne_nil
          rw [List.length_append] at hk
          obtain ⟨out, h⟩ := ih rest.length (by omega) rest rfl
          exact ⟨_, .subpart hno hp h⟩

theorem Replaced.wellFormed {s out : List UInt8} (h : Replaced s out) : WellFormed out := by
  induction h with
  | nil => exact wellFormed_nil
  | char c _ ih => exact (wellFormed_encode c _).2 ih
  | subpart _ _ _ ih => exact (wellFormed_encode (Char.ofNat 0xFFFD) _).2 ih

theorem Replaced.eq_self {s out : List UInt8} (h : Replaced s out) (hs : WellFormed s) :
    out = s := by
  induction h with
  | nil => rfl
  | char c _ ih => rw [ih ((wellFormed_encode c _).1 hs)]
  | subpart hno hp _ _ =>
      exact absurd hs (not_wellFormed (fun h => hp.ne_nil (List.append_eq_nil_iff.1 h).1) hno)

theorem replaced_iff {s out : List UInt8} : Replaced s out ↔ out = decodeLossy s := by
  have hlossy : ∀ {out}, Replaced s out → out = decodeLossy s := fun h => by
    rw [decodeLossy, h.u8Lossy, List.append_nil, List.reverse_reverse]
  constructor
  · exact hlossy
  · rintro rfl
    obtain ⟨out, h⟩ := exists_replaced _ s rfl
    exact hlossy h ▸ h

theorem isValid_iff (s : List UInt8) : isValid s = true ↔ WellFormed s := by
  rw [isValid]
  rcases u8FirstBad_spec _ s rfl 0 with ⟨hwf, hrun⟩ | ⟨hno, n, -, hrun⟩
  · simp [hrun, hwf]
  · simp [hrun, hno]

theorem decode_error_iff (s : List UInt8) (off : Int) : decode s = .error off ↔
    ¬ WellFormed s ∧ ∃ n : Nat, off = n ∧ IsGreatest (validPrefixes s) n := by
  rw [decode]
  rcases u8FirstBad_spec _ s rfl 0 with ⟨hwf, hrun⟩ | ⟨hno, n, hn, hrun⟩
  · simp [hrun, hwf]
  · simp only [hrun, zero_add, Except.error.injEq]
    constructor
    · rintro rfl
      exact ⟨hno, n, rfl, hn⟩
    · rintro ⟨-, m, rfl, hm⟩
      rw [hn.unique hm]

/-- Validation accepts exactly the encoded texts and an error names the end of the
longest valid prefix; lossy decoding replaces the maximal subparts and nothing else. -/
theorem validation_exact (bs : List UInt8) :
    (isValid bs = true ↔ WellFormed bs) ∧
      (∀ off, decode bs = .error off ↔
        ¬ WellFormed bs ∧ ∃ n : Nat, off = n ∧ IsGreatest (validPrefixes bs) n) ∧
      isValid (decodeLossy bs) = true ∧ (isValid bs = true → decodeLossy bs = bs) ∧
      ∀ out, Replaced bs out ↔ out = decodeLossy bs := by
  have hlossy : Replaced bs (decodeLossy bs) := replaced_iff.2 rfl
  refine ⟨isValid_iff bs, decode_error_iff bs, (isValid_iff _).2 hlossy.wellFormed, fun h => ?_,
    fun out => replaced_iff⟩
  exact hlossy.eq_self ((isValid_iff bs).1 h)

end Kaikai.Utf8Codec
