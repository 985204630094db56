import Mathlib.Data.List.Basic

/-!
The hash functions of the crypto library. An `Int` is a 64-bit word, so all
arithmetic wraps; a byte is a word below 256.
-/

namespace Kaikai.Hash

abbrev Word := BitVec 64

def bitShl (x : Word) (n : Nat) : Word := x <<< (n % 64)

def bitUshr (x : Word) (n : Nat) : Word := x >>> (n % 64)

def shaMask32 (x : Word) : Word := x &&& 4294967295

def shaShr32 (x : Word) (n : Nat) : Word := bitUshr x n

def shaRotr32 (x : Word) (n : Nat) : Word := bitUshr x n ||| shaMask32 (bitShl x (32 - n))

def shaCh (x y z : Word) : Word := (x &&& y) ^^^ (~~~x &&& z)

def shaMaj (x y z : Word) : Word := (x &&& y) ^^^ (x &&& z) ^^^ (y &&& z)

def shaByteLenLoop : List Word → Word → Word
  | [], acc => acc
  | _ :: rest, acc => shaByteLenLoop rest (acc + 1)

def shaByteLen (bs : List Word) : Word := shaByteLenLoop bs 0

inductive SplitN where
  | splitOk (front rest : List Word)
  | splitShort (front : List Word)

def shaTakeNLoop : List Word → Nat → List Word → SplitN
  | bs, 0, accRev => .splitOk accRev.reverse bs
  | [], _ + 1, accRev => .splitShort accRev.reverse
  | b :: rest, n + 1, accRev => shaTakeNLoop rest n (b :: accRev)

def shaTakeN (bs : List Word) (n : Nat) : SplitN := shaTakeNLoop bs n []

def shaBytesToWords32Loop : List Word → List Word → List Word
  | b0 :: b1 :: b2 :: b3 :: rest, accRev =>
      let w := (bitShl b0 24 ||| bitShl b1 16) ||| (bitShl b2 8 ||| b3)
      shaBytesToWords32Loop rest (w :: accRev)
  | _, accRev => accRev.reverse

def shaBytesToWords32 (bs : List Word) : List Word := shaBytesToWords32Loop bs []

def shaWord32ToBytesBe (w : Word) (accRev : List Word) : List Word :=
  let b0 := (shaMask32 (bitUshr w 24)).srem 256
  let b1 := bitUshr w 16 &&& 255
  let b2 := bitUshr w 8 &&& 255
  let b3 := w &&& 255
  b3 :: b2 :: b1 :: b0 :: accRev

def shaLo32 (x : Word) : Word := x &&& 4294967295

def shaHi32 (x : Word) : Word := bitUshr x 32

def shaTop64 : Word := ~~~9223372036854775807

def shaCombine64 (hi lo : Word) : Word :=
  let hiTop := hi &&& 2147483648
  let hiLo := hi &&& 2147483647
  let mid := bitShl hiLo 32 ||| lo
  if hiTop = 0 then mid else mid ||| shaTop64

def shaAdd64 (a b : Word) : Word :=
  let alo := shaLo32 a
  let ahi := shaHi32 a
  let blo := shaLo32 b
  let bhi := shaHi32 b
  let loFull := alo + blo
  let newLo := shaLo32 loFull
  let carry := bitUshr loFull 32
  let newHi := shaLo32 (ahi + bhi + carry)
  shaCombine64 newHi newLo

def shaAdd64x4 (a b c d : Word) : Word := shaAdd64 (shaAdd64 a b) (shaAdd64 c d)

def shaAdd64x5 (a b c d e : Word) : Word := shaAdd64 (shaAdd64x4 a b c d) e

def shaShl64 (x : Word) (n : Nat) : Word :=
  let xlo := shaLo32 x
  let xhi := shaHi32 x
  if n = 0 then x
  else if n < 32 then
    let newLo := shaLo32 (bitShl xlo n)
    let newHi := shaLo32 (bitShl xhi n ||| bitUshr xlo (32 - n))
    shaCombine64 newHi newLo
  else if n = 32 then shaCombine64 xlo 0
  else
    let k := n - 32
    let newHi := shaLo32 (bitShl xlo k)
    shaCombine64 newHi 0

def shaShr64 (x : Word) (n : Nat) : Word := bitUshr x n

def shaRotr64 (x : Word) (n : Nat) : Word := shaShr64 x n ||| shaShl64 x (64 - n)

def shaBytesToWords64Loop : List Word → List Word → List Word
  | b0 :: b1 :: b2 :: b3 :: b4 :: b5 :: b6 :: b7 :: rest, accRev =>
      let hi := (bitShl b0 24 ||| bitShl b1 16) ||| (bitShl b2 8 ||| b3)
      let lo := (bitShl b4 24 ||| bitShl b5 16) ||| (bitShl b6 8 ||| b7)
      let w := shaCombine64 hi lo
      shaBytesToWords64Loop rest (w :: accRev)
  | _, accRev => accRev.reverse

def shaBytesToWords64 (bs : List Word) : List Word := shaBytesToWords64Loop bs []

def shaWord64ToBytesBe (w : Word) (accRev : List Word) : List Word :=
  let hi := shaHi32 w
  let lo := shaLo32 w
  let b0 := bitUshr hi 24 &&& 255
  let b1 := bitUshr hi 16 &&& 255
  let b2 := bitUshr hi 8 &&& 255
  let b3 := hi &&& 255
  let b4 := bitUshr lo 24 &&& 255
  let b5 := bitUshr lo 16 &&& 255
  let b6 := bitUshr lo 8 &&& 255
  let b7 := lo &&& 255
  b7 :: b6 :: b5 :: b4 :: b3 :: b2 :: b1 :: b0 :: accRev

/-! The source writes each of these once for SHA-256 and once for SHA-512, with the
same body up to the helpers it calls; the helpers are parameters here. -/

structure ShaState where
  a : Word
  b : Word
  c : Word
  d : Word
  e : Word
  f : Word
  g : Word
  h : Word

abbrev Sha256State := ShaState

abbrev Sha512State := ShaState

def shaWordAt : List Word → Nat → Word
  | [], _ => 0
  | w :: _, 0 => w
  | _ :: rest, i + 1 => shaWordAt rest i

def shaDrop1 : List Word → List Word
  | [] => []
  | _ :: rest => rest

def shaAppend1 : List Word → Word → List Word
  | [], x => [x]
  | w :: rest, x => w :: shaAppend1 rest x

/-- `next` computes the new word from the words 2, 7, 15 and 16 back. -/
def extendLoop (next : Word → Word → Word → Word → Word) :
    List Word → Nat → List Word → List Word
  | _, 0, accRev => accRev.reverse
  | window, remaining + 1, accRev =>
      let wTm16 := shaWordAt window 0
      let wTm15 := shaWordAt window 1
      let wTm7 := shaWordAt window 9
      let wTm2 := shaWordAt window 14
      let wt := next wTm2 wTm7 wTm15 wTm16
      extendLoop next (shaAppend1 (shaDrop1 window) wt) remaining (wt :: accRev)

def round (bigSigma0 bigSigma1 : Word → Word) (add : Word → Word → Word)
    (add5 : Word → Word → Word → Word → Word → Word) (s : ShaState) (k w : Word) : ShaState :=
  let t1 := add5 s.h (bigSigma1 s.e) (shaCh s.e s.f s.g) k w
  let t2 := add (bigSigma0 s.a) (shaMaj s.a s.b s.c)
  { a := add t1 t2, b := s.a, c := s.b, d := s.c, e := add s.d t1, f := s.e, g := s.f, h := s.g }

def rounds (round : ShaState → Word → Word → ShaState) :
    ShaState → List Word → List Word → ShaState
  | s, [], _ => s
  | s, _ :: _, [] => s
  | s, w :: wt, k :: kt => rounds round (round s k w) wt kt

def compressBlock (bytesToWords extend : List Word → List Word)
    (rounds : ShaState → List Word → List Word → ShaState) (ks : List Word)
    (add : Word → Word → Word) (s : ShaState) (blockBytes : List Word) : ShaState :=
  let wInit := bytesToWords blockBytes
  let wFull := extend wInit
  let s2 := rounds s wFull ks
  { a := add s.a s2.a, b := add s.b s2.b, c := add s.c s2.c, d := add s.d s2.d,
    e := add s.e s2.e, f := add s.f s2.f, g := add s.g s2.g, h := add s.h s2.h }

def shaZerosLoop : Nat → List Word → List Word
  | 0, acc => acc
  | n + 1, acc => shaZerosLoop n (0 :: acc)

def shaLengthBytesBe (totalBits : Word) : List Word :=
  let b7 := totalBits &&& 255
  let b6 := bitUshr totalBits 8 &&& 255
  let b5 := bitUshr totalBits 16 &&& 255
  let b4 := bitUshr totalBits 24 &&& 255
  let b3 := bitUshr totalBits 32 &&& 255
  let b2 := bitUshr totalBits 40 &&& 255
  let b1 := bitUshr totalBits 48 &&& 255
  let b0 := bitUshr totalBits 56 &&& 255
  [b0, b1, b2, b3, b4, b5, b6, b7]

/-- Zeros up to `align` in the last block of length `block`, then the length. -/
def finalizePad (align block : Word) (lengthField : Word → List Word)
    (front : List Word) (totalBytes : Word) : List Word :=
  let partLen := shaByteLen front
  let totalBits := totalBytes * 8
  let afterOne := front ++ [128]
  let used := partLen + 1
  let targetZeroBlock := if partLen.slt align then align - used else align + block - used
  afterOne ++ shaZerosLoop targetZeroBlock.toNat [] ++ lengthField totalBits

theorem shaTakeNLoop_rest {bs accRev front rest : List Word} {n : Nat}
    (h : shaTakeNLoop bs n accRev = .splitOk front rest) : rest.length + n = bs.length := by
  fun_induction shaTakeNLoop bs n accRev with
  | case1 bs accRev =>
      cases h
      rfl
  | case2 => cases h
  | case3 b bs n accRev ih =>
      rw [List.length_cons, ← ih h]
      rfl

theorem shaTakeN_rest_lt {bs front rest : List Word} {block : Nat} (hblock : 0 < block)
    (h : shaTakeN bs block = .splitOk front rest) : rest.length < bs.length := by
  have hlen := shaTakeNLoop_rest h
  omega

def drivePadded (block : Nat) (hblock : 0 < block) (compress : ShaState → List Word → ShaState)
    (s : ShaState) (padded : List Word) : ShaState :=
  match _h : shaTakeN padded block with
  | .splitOk front rest => drivePadded block hblock compress (compress s front) rest
  | .splitShort _ => s
termination_by padded.length
decreasing_by exact shaTakeN_rest_lt hblock ‹_›

def drive (block : Nat) (hblock : 0 < block) (compress : ShaState → List Word → ShaState)
    (finalize : List Word → Word → List Word) (s : ShaState) (bs : List Word)
    (totalBytes : Word) : ShaState :=
  match _h : shaTakeN bs block with
  | .splitOk front rest => drive block hblock compress finalize (compress s front) rest totalBytes
  | .splitShort front => drivePadded block hblock compress s (finalize front totalBytes)
termination_by bs.length
decreasing_by exact shaTakeN_rest_lt hblock ‹_›

def packDigest (wordToBytesBe : Word → List Word → List Word) (s : ShaState) : List Word :=
  let r0 := wordToBytesBe s.a []
  let r1 := wordToBytesBe s.b r0
  let r2 := wordToBytesBe s.c r1
  let r3 := wordToBytesBe s.d r2
  let r4 := wordToBytesBe s.e r3
  let r5 := wordToBytesBe s.f r4
  let r6 := wordToBytesBe s.g r5
  let r7 := wordToBytesBe s.h r6
  r7.reverse

def sha256Initial : Sha256State :=
  { a := 0x6a09e667, b := 0xbb67ae85, c := 0x3c6ef372, d := 0xa54ff53a,
    e := 0x510e527f, f := 0x9b05688c, g := 0x1f83d9ab, h := 0x5be0cd19 }

def sha256K : List Word := [
    1116352408, 1899447441, 3049323471, 3921009573, 961987163, 1508970993,
    2453635748, 2870763221, 3624381080, 310598401, 607225278, 1426881987,
    1925078388, 2162078206, 2614888103, 3248222580, 3835390401, 4022224774,
    264347078, 604807628, 770255983, 1249150122, 1555081692, 1996064986,
    2554220882, 2821834349, 2952996808, 3210313671, 3336571891, 3584528711,
    113926993, 338241895, 666307205, 773529912, 1294757372, 1396182291,
    1695183700, 1986661051, 2177026350, 2456956037, 2730485921, 2820302411,
    3259730800, 3345764771, 3516065817, 3600352804, 4094571909, 275423344,
    430227734, 506948616, 659060556, 883997877, 958139571, 1322822218,
    1537002063, 1747873779, 1955562222, 2024104815, 2227730452, 2361852424,
    2428436474, 2756734187, 3204031479, 3329325298]

def sha256BigSigma0 (x : Word) : Word := shaRotr32 x 2 ^^^ shaRotr32 x 13 ^^^ shaRotr32 x 22

def sha256BigSigma1 (x : Word) : Word := shaRotr32 x 6 ^^^ shaRotr32 x 11 ^^^ shaRotr32 x 25

def sha256SmallSigma0 (x : Word) : Word := shaRotr32 x 7 ^^^ shaRotr32 x 18 ^^^ shaShr32 x 3

def sha256SmallSigma1 (x : Word) : Word := shaRotr32 x 17 ^^^ shaRotr32 x 19 ^^^ shaShr32 x 10

def sha256ExtendLoop : List Word → Nat → List Word → List Word :=
  extendLoop fun wTm2 wTm7 wTm15 wTm16 =>
    shaMask32 (sha256SmallSigma1 wTm2 + wTm7 + sha256SmallSigma0 wTm15 + wTm16)

def sha256Extend (w0to15 : List Word) : List Word := w0to15 ++ sha256ExtendLoop w0to15 48 []

def sha256Round : Sha256State → Word → Word → Sha256State :=
  round sha256BigSigma0 sha256BigSigma1 (fun x y => shaMask32 (x + y))
    fun h s c k w => shaMask32 (h + s + c + k + w)

def sha256Rounds : Sha256State → List Word → List Word → Sha256State := rounds sha256Round

def sha256CompressBlock : Sha256State → List Word → Sha256State :=
  compressBlock shaBytesToWords32 sha256Extend sha256Rounds sha256K fun x y => shaMask32 (x + y)

def sha256FinalizePad : List Word → Word → List Word := finalizePad 56 64 shaLengthBytesBe

def sha256Drive : Sha256State → List Word → Word → Sha256State :=
  drive 64 (by decide) sha256CompressBlock sha256FinalizePad

def sha256PackDigest : Sha256State → List Word := packDigest shaWord32ToBytesBe

def sha256 (bytes : List Word) : List Word :=
  let total := shaByteLen bytes
  sha256PackDigest (sha256Drive sha256Initial bytes total)

def sha512Initial : Sha512State :=
  { a := 0x6a09e667f3bcc908, b := 0xbb67ae8584caa73b, c := 0x3c6ef372fe94f82b,
    d := 0xa54ff53a5f1d36f1, e := 0x510e527fade682d1, f := 0x9b05688c2b3e6c1f,
    g := 0x1f83d9abfb41bd6b, h := 0x5be0cd19137e2179 }

def sha512K : List Word := [
    4794697086780616226, 8158064640168781261, -5349999486874862801, -1606136188198331460,
    4131703408338449720, 6480981068601479193, -7908458776815382629, -6116909921290321640,
    -2880145864133508542, 1334009975649890238, 2608012711638119052, 6128411473006802146,
    8268148722764581231, -9160688886553864527, -7215885187991268811, -4495734319001033068,
    -1973867731355612462, -1171420211273849373, 1135362057144423861, 2597628984639134821,
    3308224258029322869, 5365058923640841347, 6679025012923562964, 8573033837759648693,
    -7476448914759557205, -6327057829258317296, -5763719355590565569, -4658551843659510044,
    -4116276920077217854, -3051310485924567259, 489312712824947311, 1452737877330783856,
    2861767655752347644, 3322285676063803686, 5560940570517711597, 5996557281743188959,
    7280758554555802590, 8532644243296465576, -9096487096722542874, -7894198246740708037,
    -6719396339535248540, -6333637450476146687, -4446306890439682159, -4076793802049405392,
    -3345356375505022440, -2983346525034927856, -860691631967231958, 1182934255886127544,
    1847814050463011016, 2177327727835720531, 2830643537854262169, 3796741975233480872,
    4115178125766777443, 5681478168544905931, 6601373596472566643, 7507060721942968483,
    8399075790359081724, 8693463985226723168, -8878714635349349518, -8302665154208450068,
    -8016688836872298968, -6606660893046293015, -4685533653050689259, -4147400797238176981,
    -3880063495543823972, -3348786107499101689, -1523767162380948706, -757361751448694408,
    500013540394364858, 748580250866718886, 1242879168328830382, 1977374033974150939,
    2944078676154940804, 3659926193048069267, 4368137639120453308, 4836135668995329356,
    5532061633213252278, 6448918945643986474, 6902733635092675308, 7801388544844847127]

def sha512BigSigma0 (x : Word) : Word := shaRotr64 x 28 ^^^ shaRotr64 x 34 ^^^ shaRotr64 x 39

def sha512BigSigma1 (x : Word) : Word := shaRotr64 x 14 ^^^ shaRotr64 x 18 ^^^ shaRotr64 x 41

def sha512SmallSigma0 (x : Word) : Word := shaRotr64 x 1 ^^^ shaRotr64 x 8 ^^^ shaShr64 x 7

def sha512SmallSigma1 (x : Word) : Word := shaRotr64 x 19 ^^^ shaRotr64 x 61 ^^^ shaShr64 x 6

def sha512ExtendLoop : List Word → Nat → List Word → List Word :=
  extendLoop fun wTm2 wTm7 wTm15 wTm16 =>
    shaAdd64x4 (sha512SmallSigma1 wTm2) wTm7 (sha512SmallSigma0 wTm15) wTm16

def sha512Extend (w0to15 : List Word) : List Word := w0to15 ++ sha512ExtendLoop w0to15 64 []

def sha512Round : Sha512State → Word → Word → Sha512State :=
  round sha512BigSigma0 sha512BigSigma1 shaAdd64 shaAdd64x5

def sha512Rounds : Sha512State → List Word → List Word → Sha512State := rounds sha512Round

def sha512CompressBlock : Sha512State → List Word → Sha512State :=
  compressBlock shaBytesToWords64 sha512Extend sha512Rounds sha512K shaAdd64

def sha512FinalizePad : List Word → Word → List Word :=
  finalizePad 112 128 fun totalBits => shaZerosLoop 8 [] ++ shaLengthBytesBe totalBits

def sha512Drive : Sha512State → List Word → Word → Sha512State :=
  drive 128 (by decide) sha512CompressBlock sha512FinalizePad

def sha512PackDigest : Sha512State → List Word := packDigest shaWord64ToBytesBe

def sha512 (bytes : List Word) : List Word :=
  let total := shaByteLen bytes
  sha512PackDigest (sha512Drive sha512Initial bytes total)

end Kaikai.Hash
