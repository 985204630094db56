import Kaikai.HashWords

namespace Kaikai.Hash

open Kaikai.SecureHash

variable {w : Nat}

/-- The state that holds a hash value. -/
def heldState (s : Working w) : ShaState :=
  { a := held s.a, b := held s.b, c := held s.c, d := held s.d,
    e := held s.e, f := held s.f, g := held s.g, h := held s.h }

theorem shaWordAt_range' (f : Nat → Word) (d n i : Nat) (h : i < n) :
    shaWordAt ((List.range' d n).map f) i = f (d + i) := by
  induction n generalizing d i with
  | zero => omega
  | succ n ih =>
      rw [List.range'_succ, List.map_cons]
      cases i with
      | zero => rfl
      | succ i =>
          rw [shaWordAt, ih (d + 1) i (by omega), Nat.add_right_comm, Nat.add_assoc]

theorem shaAppend1_eq (ws : List Word) (x : Word) : shaAppend1 ws x = ws ++ [x] := by
  induction ws with
  | nil => rfl
  | cons w ws ih => rw [shaAppend1, ih, List.cons_append]

theorem shaWindow_next (f : Nat → Word) (d : Nat) :
    shaAppend1 (shaDrop1 ((List.range' d 16).map f)) (f (d + 16)) =
      (List.range' (d + 1) 16).map f := by
  rw [shaAppend1_eq, List.range'_succ, List.map_cons, shaDrop1,
    List.range'_concat (s := d + 1) (n := 15), List.map_append, Nat.add_right_comm]
  rfl

section Schedule

variable {S : Algorithm w} {next : Word → Word → Word → Word → Word}

theorem extendLoop_eq (hnext : ∀ x2 x7 x15 x16 : BitVec w,
      next (held x2) (held x7) (held x15) (held x16) =
        held (S.smallSigma1 x2 + x7 + S.smallSigma0 x15 + x16))
    (block : List Bool) (n d : Nat) (accRev : List Word) :
    extendLoop next ((List.range' d 16).map fun t => held (S.schedule block t)) n accRev =
      accRev.reverse ++ (List.range' (d + 16) n).map fun t => held (S.schedule block t) := by
  induction n generalizing d accRev with
  | zero => simp [extendLoop]
  | succ n ih =>
      have hword : S.schedule block (d + 16) = S.smallSigma1 (S.schedule block (d + 14)) +
          S.schedule block (d + 9) + S.smallSigma0 (S.schedule block (d + 1)) +
          S.schedule block d := by
        rw [Algorithm.schedule, if_neg (by omega)]
        rfl
      rw [extendLoop]
      simp only [shaWordAt_range' _ d 16 _ (show 0 < 16 by decide),
        shaWordAt_range' _ d 16 _ (show 1 < 16 by decide),
        shaWordAt_range' _ d 16 _ (show 9 < 16 by decide),
        shaWordAt_range' _ d 16 _ (show 14 < 16 by decide), hnext, Nat.add_zero, ← hword]
      rw [shaWindow_next (fun t => held (S.schedule block t)), ih, List.range'_succ,
        List.map_cons, List.reverse_cons, List.append_assoc, Nat.add_right_comm d 1 16]
      rfl

end Schedule

section Rounds

variable {S : Algorithm w} {bigSigma0 bigSigma1 : Word → Word} {add : Word → Word → Word}
  {add5 : Word → Word → Word → Word → Word → Word}

theorem round_eq (h0 : ∀ x : BitVec w, bigSigma0 (held x) = held (S.bigSigma0 x))
    (h1 : ∀ x : BitVec w, bigSigma1 (held x) = held (S.bigSigma1 x))
    (hadd : ∀ x y : BitVec w, add (held x) (held y) = held (x + y))
    (hadd5 : ∀ x y z u v : BitVec w,
      add5 (held x) (held y) (held z) (held u) (held v) = held (x + y + z + u + v))
    (s : Working w) (k x : BitVec w) :
    round bigSigma0 bigSigma1 add add5 (heldState s) (held k) (held x) =
      heldState (S.round s k x) := by
  simp only [round, heldState, Algorithm.round, h0, h1, shaCh_held, shaMaj_held, hadd, hadd5]

theorem rounds_eq {step : ShaState → Word → Word → ShaState}
    (hstep : ∀ (s : Working w) (k x : BitVec w),
      step (heldState s) (held k) (held x) = heldState (S.round s k x))
    (words : Nat → BitVec w) (ks : List (BitVec w)) (i : Nat) (s : Working w) :
    rounds step (heldState s) ((List.range' i ks.length).map fun t => held (words t))
        (ks.map held) =
      heldState ((ks.zipIdx i).foldl (fun s kt => S.round s kt.1 (words kt.2)) s) := by
  induction ks generalizing i s with
  | nil => rfl
  | cons k ks ih =>
      rw [List.length_cons, List.range'_succ, List.map_cons, List.map_cons, rounds, hstep, ih]
      rfl

theorem compressBlock_eq {next : Word → Word → Word → Word → Word}
    {step : ShaState → Word → Word → ShaState} {bytesToWords : List Word → List Word} {n : Nat}
    (hwords : ∀ bs : List (BitVec 8), bs.length = n → bytesToWords (bs.map held) =
      ((List.range 16).map (blockWord w (bitString bs))).map held)
    (hnext : ∀ x2 x7 x15 x16 : BitVec w,
      next (held x2) (held x7) (held x15) (held x16) =
        held (S.smallSigma1 x2 + x7 + S.smallSigma0 x15 + x16))
    (hstep : ∀ (s : Working w) (k x : BitVec w),
      step (heldState s) (held k) (held x) = heldState (S.round s k x))
    (hadd : ∀ x y : BitVec w, add (held x) (held y) = held (x + y))
    {m : Nat} (hm : S.constants.length = 16 + m)
    (s : Working w) (bs : List (BitVec 8)) (hbs : bs.length = n) :
    compressBlock bytesToWords (fun ws => ws ++ extendLoop next ws m [])
        (rounds step) (S.constants.map held) add (heldState s) (bs.map held) =
      heldState (S.compress s (bitString bs)) := by
  have hfirst : bytesToWords (bs.map held) =
      (List.range' 0 16).map fun t => held (S.schedule (bitString bs) t) := by
    rw [hwords bs hbs, List.map_map, List.range_eq_range']
    apply List.map_congr_left
    intro t ht
    have hlt : t < 16 := by
      rw [← List.range_eq_range'] at ht
      exact List.mem_range.1 ht
    rw [Function.comp_apply, Algorithm.schedule, if_pos hlt]
  have hall : bytesToWords (bs.map held) ++ extendLoop next (bytesToWords (bs.map held)) m [] =
      (List.range' 0 S.constants.length).map fun t => held (S.schedule (bitString bs) t) := by
    rw [hfirst, extendLoop_eq hnext, hm, ← List.range'_append_1, List.map_append]
    rfl
  rw [compressBlock, hall, rounds_eq hstep]
  simp only [heldState, hadd]
  rfl

end Rounds

theorem shaTakeNLoop_eq (bs : List Word) (n : Nat) (accRev : List Word) :
    shaTakeNLoop bs n accRev =
      if n ≤ bs.length then .splitOk (accRev.reverse ++ bs.take n) (bs.drop n)
      else .splitShort (accRev.reverse ++ bs) := by
  fun_induction shaTakeNLoop bs n accRev with
  | case1 bs accRev => simp
  | case2 n accRev => simp
  | case3 b bs n accRev ih =>
      rw [ih]
      simp

section Drive

variable {block : Nat} {hblock : 0 < block} {compress : ShaState → List Word → ShaState}

theorem shaTakeN_splitOk {bs front rest : List Word} {n : Nat}
    (h : shaTakeN bs n = .splitOk front rest) : front.length = n ∧ bs = front ++ rest := by
  rw [shaTakeN, shaTakeNLoop_eq] at h
  split at h
  · next hle =>
      cases h
      exact ⟨List.length_take_of_le hle, (List.take_append_drop n bs).symm⟩
  · cases h

theorem shaTakeN_splitShort {bs front : List Word} {n : Nat}
    (h : shaTakeN bs n = .splitShort front) : front.length < n ∧ bs = front := by
  rw [shaTakeN, shaTakeNLoop_eq] at h
  split at h
  · cases h
  · next hlt =>
      cases h
      exact ⟨by simpa using hlt, rfl⟩

theorem drivePadded_eq (s : ShaState) (padded : List Word) :
    drivePadded block hblock compress s padded = (blocks block padded).foldl compress s := by
  fun_induction drivePadded block hblock compress s padded with
  | case1 s padded front rest h ih =>
      obtain ⟨hlen, rfl⟩ := shaTakeN_splitOk h
      rw [ih, blocks_append (hblock) hlen, List.foldl_cons]
  | case2 s padded front h =>
      obtain ⟨hlen, rfl⟩ := shaTakeN_splitShort h
      rw [blocks_of_lt hlen, List.foldl_nil]

/-- The whole blocks are compressed as they come and the rest with `tail` after
it, which is the padded message cut into blocks. -/
theorem drive_eq {finalize : List Word → Word → List Word} {total : Word} (tail : List Word)
    (s : ShaState) (bs : List Word)
    (hfinalize : ∀ front : List Word, front.length < block →
      front.length % block = bs.length % block → finalize front total = front ++ tail) :
    drive block hblock compress finalize s bs total = (blocks block (bs ++ tail)).foldl compress s := by
  fun_induction drive block hblock compress finalize s bs total with
  | case1 s bs front rest h ih =>
      obtain ⟨hlen, rfl⟩ := shaTakeN_splitOk h
      rw [ih, List.append_assoc, blocks_append (hblock) hlen, List.foldl_cons]
      intro last hlast hmod
      apply hfinalize last hlast
      rw [hmod, List.length_append, hlen, Nat.add_mod_left]
  | case2 s bs front h =>
      obtain ⟨hlen, rfl⟩ := shaTakeN_splitShort h
      rw [drivePadded_eq, hfinalize bs hlen rfl]

theorem foldl_compress {S : Algorithm w} (hw : 16 * w = block * 8)
    (hcompress : ∀ (s : Working w) (bs : List (BitVec 8)), bs.length = block →
      compress (heldState s) (bs.map held) = heldState (S.compress s (bitString bs)))
    (s : Working w) (bs : List (BitVec 8)) :
    (blocks block (bs.map held)).foldl compress (heldState s) =
      heldState ((blocks (16 * w) (bitString bs)).foldl S.compress s) := by
  rw [hw, blocks_bitString (by decide), blocks_map, List.foldl_map, List.foldl_map]
  have hall : ∀ b ∈ blocks block bs, b.length = block := fun b hb => length_of_mem_blocks hb
  generalize blocks block bs = bss at hall
  induction bss generalizing s with
  | nil => rfl
  | cons b bss ih =>
      rw [List.foldl_cons, List.foldl_cons, hcompress s b (hall b List.mem_cons_self)]
      exact ih _ fun b' hb' => hall b' (List.mem_cons_of_mem b hb')

end Drive

theorem shaByteLen_eq (bs : List Word) : shaByteLen bs = BitVec.ofNat 64 bs.length := by
  have h (acc : Word) : shaByteLenLoop bs acc = acc + BitVec.ofNat 64 bs.length := by
    induction bs generalizing acc with
    | nil => simp [shaByteLenLoop]
    | cons b bs ih =>
        rw [shaByteLenLoop, ih, List.length_cons, BitVec.add_assoc, Nat.add_comm,
          BitVec.ofNat_add]
        rfl
  rw [shaByteLen, h]
  exact BitVec.zero_add _

theorem shaZerosLoop_eq (n : Nat) (acc : List Word) :
    shaZerosLoop n acc = List.replicate n 0 ++ acc := by
  induction n generalizing acc with
  | zero => rfl
  | succ n ih => rw [shaZerosLoop, ih, List.replicate_succ', List.append_assoc, List.singleton_append]

/-- How many zero bytes follow the byte `0x80` after `len` bytes of a block. -/
def zeroBytes (align block len : Nat) : Nat :=
  if len < align then align - (len + 1) else align + block - (len + 1)

theorem finalizePad_eq {align block : Nat} (halign : align < block) (hblock : block ≤ 128)
    (lengthField : Word → List Word) (front : List Word) (hfront : front.length < block)
    (total : Word) :
    finalizePad (BitVec.ofNat 64 align) (BitVec.ofNat 64 block) lengthField front total =
      front ++ (128 :: (List.replicate (zeroBytes align block front.length) 0 ++
        lengthField (total * 8))) := by
  have hcount : (if (shaByteLen front).slt (BitVec.ofNat 64 align) then
      BitVec.ofNat 64 align - (shaByteLen front + 1)
      else BitVec.ofNat 64 align + BitVec.ofNat 64 block - (shaByteLen front + 1)).toNat =
      zeroBytes align block front.length := by
    have hnat (n : Nat) (hn : n < 256) : (BitVec.ofNat 64 n).toNat = n := by
      rw [BitVec.toNat_ofNat, Nat.mod_eq_of_lt (by omega)]
    have hint (n : Nat) (hn : n < 256) : (BitVec.ofNat 64 n).toInt = n := by
      rw [BitVec.toInt_eq_toNat_of_lt (by rw [hnat n hn]; omega), hnat n hn]
    have hslt : (BitVec.ofNat 64 front.length).slt (BitVec.ofNat 64 align) = true ↔
        front.length < align := by
      rw [BitVec.slt, hint _ (by omega), hint _ (by omega), decide_eq_true_eq, Int.ofNat_lt]
    have hused : BitVec.ofNat 64 front.length + 1 = BitVec.ofNat 64 (front.length + 1) :=
      (BitVec.ofNat_add ..).symm
    rw [shaByteLen_eq, hused, ← BitVec.ofNat_add, zeroBytes]
    split
    · next h =>
        rw [if_pos (hslt.1 h), BitVec.ofNat_sub_ofNat_of_le _ _ (by omega) (by have := hslt.1 h; omega), hnat _ (by omega)]
    · next h =>
        rw [if_neg (fun h' => h (hslt.2 h')), BitVec.ofNat_sub_ofNat_of_le _ _ (by omega) (by omega), hnat _ (by omega)]
  rw [finalizePad]
  simp only [hcount, shaZerosLoop_eq]
  simp

theorem zeroCount_sha256 (n : Nat) : zeroCount 32 (n * 8) = 7 + zeroBytes 56 64 (n % 64) * 8 := by
  unfold zeroCount zeroBytes
  split <;> omega

theorem zeroCount_sha512 (n : Nat) : zeroCount 64 (n * 8) = 7 + zeroBytes 112 128 (n % 128) * 8 := by
  unfold zeroCount zeroBytes
  split <;> omega

theorem bitString_padded {bs lengthBytes : List (BitVec 8)} {z : Nat}
    (hzeros : zeroCount w (bs.length * 8) = 7 + z * 8)
    (hlength : bitString lengthBytes = bitsOf (BitVec.ofNat (2 * w) (bs.length * 8))) :
    bitString (bs ++ 128 :: (List.replicate z 0 ++ lengthBytes)) = pad w (bitString bs) := by
  have hone : bitsOf (128 : BitVec 8) = true :: List.replicate 7 false := by decide
  rw [pad, length_bitString, hzeros, bitString_append, bitString_cons, bitString_append,
    bitString_replicate_zero, hlength, hone, List.replicate_add, List.cons_append,
    List.append_assoc]

theorem packDigest_eq {wordToBytesBe : Word → List Word → List Word}
    {bytes : BitVec w → List (BitVec 8)}
    (h : ∀ (x : BitVec w) (accRev : List Word),
      wordToBytesBe (held x) accRev = ((bytes x).map held).reverse ++ accRev)
    (s : Working w) :
    packDigest wordToBytesBe (heldState s) = (s.words.flatMap bytes).map held := by
  simp only [packDigest, heldState, h, Working.words, List.flatMap_cons, List.flatMap_nil,
    List.map_append, List.reverse_append, List.reverse_reverse, List.append_assoc,
    List.append_nil]

theorem bitString_words {bytes : BitVec w → List (BitVec 8)}
    (h : ∀ x, bitString (bytes x) = bitsOf x) (xs : List (BitVec w)) :
    bitString (xs.flatMap bytes) = xs.flatMap bitsOf := by
  induction xs with
  | nil => rfl
  | cons x xs ih => rw [List.flatMap_cons, bitString_append, h, ih, List.flatMap_cons]

/-- The state after all blocks holds the hash value, when the code's block step,
padding and length field are those of the algorithm. -/
theorem drive_hash {S : Algorithm w} {align block : Nat} {hblock : 0 < block}
    {compress : ShaState → List Word → ShaState} {lengthField : Word → List Word}
    {bytes lengthBytes : List (BitVec 8)}
    (hw : 16 * w = block * 8) (halign : align < block) (hmax : block ≤ 128)
    (hcompress : ∀ (s : Working w) (bs : List (BitVec 8)), bs.length = block →
      compress (heldState s) (bs.map held) = heldState (S.compress s (bitString bs)))
    (hzeros : zeroCount w (bytes.length * 8) =
      7 + zeroBytes align block (bytes.length % block) * 8)
    (hfield : lengthField (BitVec.ofNat 64 bytes.length * 8) = lengthBytes.map held)
    (hlength : bitString lengthBytes = bitsOf (BitVec.ofNat (2 * w) (bytes.length * 8))) :
    drive block hblock compress (finalizePad (BitVec.ofNat 64 align) (BitVec.ofNat 64 block) lengthField)
        (heldState S.initial) (bytes.map held) (shaByteLen (bytes.map held)) =
      heldState (S.hash (bitString bytes)) := by
  have htail : bytes.map held ++ (128 :: (List.replicate
      (zeroBytes align block (bytes.length % block)) 0 ++ lengthBytes.map held)) =
      (bytes ++ 128 :: (List.replicate (zeroBytes align block (bytes.length % block)) 0 ++
        lengthBytes)).map held := by
    simp only [List.map_append, List.map_cons, List.map_replicate]
    rfl
  rw [drive_eq (128 :: (List.replicate (zeroBytes align block (bytes.length % block)) 0 ++
      lengthBytes.map held)), htail, foldl_compress hw hcompress, bitString_padded hzeros hlength]
  · rfl
  · intro front hfront hmod
    rw [Nat.mod_eq_of_lt hfront, List.length_map] at hmod
    rw [finalizePad_eq halign hmax lengthField front hfront, hmod, shaByteLen_eq,
      List.length_map, hfield]

theorem shaMask32_sum (x y : BitVec 32) : shaMask32 (held x + held y) = held (x + y) := by
  rw [shaMask32_add, held_inj (by decide), held_inj (by decide)]

theorem held_add_setWidth (x : Word) (y : BitVec 32) :
    (x + held y).setWidth 32 = x.setWidth 32 + y := by
  rw [BitVec.setWidth_add _ _ (by decide), held_inj (by decide)]

theorem sha256BigSigma0_held (x : BitVec 32) :
    sha256BigSigma0 (held x) = held (SecureHash.sha256.bigSigma0 x) := by
  rw [sha256BigSigma0, shaRotr32_held (by decide) (by decide), shaRotr32_held (by decide) (by decide),
    shaRotr32_held (by decide) (by decide), held_xor, held_xor]
  rfl

theorem sha256BigSigma1_held (x : BitVec 32) :
    sha256BigSigma1 (held x) = held (SecureHash.sha256.bigSigma1 x) := by
  rw [sha256BigSigma1, shaRotr32_held (by decide) (by decide), shaRotr32_held (by decide) (by decide),
    shaRotr32_held (by decide) (by decide), held_xor, held_xor]
  rfl

theorem sha256SmallSigma0_held (x : BitVec 32) :
    sha256SmallSigma0 (held x) = held (SecureHash.sha256.smallSigma0 x) := by
  rw [sha256SmallSigma0, shaRotr32_held (by decide) (by decide), shaRotr32_held (by decide) (by decide),
    shaShr32_held (by decide), held_xor, held_xor]
  rfl

theorem sha256SmallSigma1_held (x : BitVec 32) :
    sha256SmallSigma1 (held x) = held (SecureHash.sha256.smallSigma1 x) := by
  rw [sha256SmallSigma1, shaRotr32_held (by decide) (by decide), shaRotr32_held (by decide) (by decide),
    shaShr32_held (by decide), held_xor, held_xor]
  rfl

theorem sha256Round_held (s : Working 32) (k x : BitVec 32) :
    sha256Round (heldState s) (held k) (held x) = heldState (SecureHash.sha256.round s k x) := by
  apply round_eq sha256BigSigma0_held sha256BigSigma1_held shaMask32_sum
  intro x y z u v
  rw [shaMask32_eq]
  simp only [held_add_setWidth, held_inj (show 32 ≤ 64 by decide)]

theorem sha256K_eq : sha256K = SecureHash.sha256.constants.map held := by
  decide

theorem sha256CompressBlock_held (s : Working 32) (bs : List (BitVec 8)) (h : bs.length = 64) :
    sha256CompressBlock (heldState s) (bs.map held) =
      heldState (SecureHash.sha256.compress s (bitString bs)) := by
  rw [sha256CompressBlock, sha256K_eq]
  refine compressBlock_eq ?_ ?_ sha256Round_held shaMask32_sum rfl s bs h
  · intro bs hbs
    exact shaBytesToWords32Loop_held 16 bs hbs []
  · intro x2 x7 x15 x16
    rw [shaMask32_eq, sha256SmallSigma0_held, sha256SmallSigma1_held]
    simp only [held_add_setWidth, held_inj (show 32 ≤ 64 by decide)]

theorem length_bytes (n : Nat) :
    shaLengthBytesBe (BitVec.ofNat 64 n * 8) = (bytes64 (BitVec.ofNat 64 (n * 8))).map held := by
  rw [shaLengthBytesBe_eq, BitVec.ofNat_mul]
  rfl

theorem sha256Drive_eq (bytes : List (BitVec 8)) :
    sha256Drive sha256Initial (bytes.map held) (shaByteLen (bytes.map held)) =
      heldState (SecureHash.sha256.hash (bitString bytes)) := by
  have hinitial : sha256Initial = heldState SecureHash.sha256.initial := rfl
  have hpad : sha256FinalizePad =
      finalizePad (BitVec.ofNat 64 56) (BitVec.ofNat 64 64) shaLengthBytesBe := rfl
  rw [sha256Drive, hinitial, hpad]
  exact drive_hash (show 16 * 32 = 64 * 8 from rfl) (by decide) (by decide)
    sha256CompressBlock_held (zeroCount_sha256 _) (length_bytes _) (bitString_bytes64 _)

theorem sha256_exact (bytes : List (BitVec 8)) : ∃ out : List (BitVec 8),
    sha256 (bytes.map held) = out.map held ∧
      bitString out = SecureHash.sha256.digest (bitString bytes) := by
  refine ⟨(SecureHash.sha256.hash (bitString bytes)).words.flatMap bytes32, ?_,
    bitString_words bitString_bytes32 _⟩
  rw [sha256, sha256Drive_eq, sha256PackDigest, packDigest_eq shaWord32ToBytesBe_held]

theorem shaAdd64_held (x y : Word) : shaAdd64 (held x) (held y) = held (x + y) := by
  rw [shaAdd64_eq, held_word, held_word, held_word]

theorem sha512BigSigma0_held (x : Word) :
    sha512BigSigma0 (held x) = held (SecureHash.sha512.bigSigma0 x) := by
  rw [sha512BigSigma0, shaRotr64_eq (by decide) (by decide), shaRotr64_eq (by decide) (by decide),
    shaRotr64_eq (by decide) (by decide), held_word, held_word]
  rfl

theorem sha512BigSigma1_held (x : Word) :
    sha512BigSigma1 (held x) = held (SecureHash.sha512.bigSigma1 x) := by
  rw [sha512BigSigma1, shaRotr64_eq (by decide) (by decide), shaRotr64_eq (by decide) (by decide),
    shaRotr64_eq (by decide) (by decide), held_word, held_word]
  rfl

theorem sha512SmallSigma0_eq (x : Word) :
    sha512SmallSigma0 x = SecureHash.sha512.smallSigma0 x := by
  rw [sha512SmallSigma0, shaRotr64_eq (by decide) (by decide),
    shaRotr64_eq (by decide) (by decide)]
  rfl

theorem sha512SmallSigma1_eq (x : Word) :
    sha512SmallSigma1 x = SecureHash.sha512.smallSigma1 x := by
  rw [sha512SmallSigma1, shaRotr64_eq (by decide) (by decide),
    shaRotr64_eq (by decide) (by decide)]
  rfl

theorem sha512Round_held (s : Working 64) (k x : Word) :
    sha512Round (heldState s) (held k) (held x) = heldState (SecureHash.sha512.round s k x) := by
  apply round_eq sha512BigSigma0_held sha512BigSigma1_held shaAdd64_held
  intro x y z u v
  rw [shaAdd64x5_eq]
  simp only [held_word]

theorem sha512K_eq : sha512K = SecureHash.sha512.constants.map held := by
  decide

theorem sha512CompressBlock_held (s : Working 64) (bs : List (BitVec 8)) (h : bs.length = 128) :
    sha512CompressBlock (heldState s) (bs.map held) =
      heldState (SecureHash.sha512.compress s (bitString bs)) := by
  rw [sha512CompressBlock, sha512K_eq]
  refine compressBlock_eq ?_ ?_ sha512Round_held shaAdd64_held rfl s bs h
  · intro bs hbs
    exact shaBytesToWords64Loop_held 16 bs hbs []
  · intro x2 x7 x15 x16
    rw [shaAdd64x4_eq, held_word, held_word, held_word, held_word, held_word,
      sha512SmallSigma0_eq, sha512SmallSigma1_eq]

theorem bitsOf_length {n : Nat} (h : n < 2 ^ 64) :
    bitString (List.replicate 8 (0 : BitVec 8) ++ bytes64 (BitVec.ofNat 64 n)) =
      bitsOf (BitVec.ofNat 128 n) := by
  have hword : BitVec.ofNat 128 n = (0 : BitVec 64) ++ BitVec.ofNat 64 n := by
    apply BitVec.eq_of_toNat_eq
    rw [BitVec.toNat_append, BitVec.toNat_ofNat, BitVec.toNat_ofNat, Nat.mod_eq_of_lt h,
      Nat.mod_eq_of_lt (by omega)]
    simp
  rw [hword, bitsOf_append, bitString_append, bitString_replicate_zero, bitString_bytes64,
    bitsOf_zero]

theorem sha512Drive_eq (bytes : List (BitVec 8)) (h : bytes.length * 8 < 2 ^ 64) :
    sha512Drive sha512Initial (bytes.map held) (shaByteLen (bytes.map held)) =
      heldState (SecureHash.sha512.hash (bitString bytes)) := by
  have hinitial : sha512Initial = heldState SecureHash.sha512.initial := by
    simp only [heldState, held_word]
    rfl
  have hpad : sha512FinalizePad = finalizePad (BitVec.ofNat 64 112) (BitVec.ofNat 64 128)
      fun totalBits => shaZerosLoop 8 [] ++ shaLengthBytesBe totalBits := rfl
  have hfield : shaZerosLoop 8 [] ++ shaLengthBytesBe (BitVec.ofNat 64 bytes.length * 8) =
      (List.replicate 8 (0 : BitVec 8) ++ bytes64 (BitVec.ofNat 64 (bytes.length * 8))).map
        held := by
    rw [length_bytes, List.map_append]
    rfl
  rw [sha512Drive, hinitial, hpad]
  exact drive_hash (show 16 * 64 = 128 * 8 from rfl) (by decide) (by decide)
    sha512CompressBlock_held (zeroCount_sha512 _) hfield (bitsOf_length h)

theorem sha512_exact (bytes : List (BitVec 8)) (h : bytes.length * 8 < 2 ^ 64) :
    ∃ out : List (BitVec 8), sha512 (bytes.map held) = out.map held ∧
      bitString out = SecureHash.sha512.digest (bitString bytes) := by
  refine ⟨(SecureHash.sha512.hash (bitString bytes)).words.flatMap bytes64, ?_,
    bitString_words bitString_bytes64 _⟩
  have hpack (x : Word) (accRev : List Word) : shaWord64ToBytesBe (held x) accRev =
      ((bytes64 x).map held).reverse ++ accRev := by
    rw [held_word, shaWord64ToBytesBe_eq]
  rw [sha512, sha512Drive_eq bytes h, sha512PackDigest, packDigest_eq hpack]

/-- Both functions return the bytes of the standard's digest. SHA-512 writes the
length of the message as a 64-bit count, the low half of the standard's field. -/
theorem digests_exact (bytes : List (BitVec 8)) :
    (∃ out : List (BitVec 8), sha256 (bytes.map held) = out.map held ∧
      bitString out = SecureHash.sha256.digest (bitString bytes)) ∧
    (bytes.length * 8 < 2 ^ 64 → ∃ out : List (BitVec 8), sha512 (bytes.map held) = out.map held ∧
      bitString out = SecureHash.sha512.digest (bitString bytes)) :=
  ⟨sha256_exact bytes, sha512_exact bytes⟩

theorem digests_exact_abc : ∃ out : List (BitVec 8),
    sha512 (([0x61, 0x62, 0x63] : List (BitVec 8)).map held) = out.map held ∧
      bitString out =
        SecureHash.sha512.digest (bitString ([0x61, 0x62, 0x63] : List (BitVec 8))) :=
  (digests_exact [0x61, 0x62, 0x63]).2 (by decide)

end Kaikai.Hash
