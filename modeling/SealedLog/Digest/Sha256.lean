import SealedLog.Text.Hex

/-!
# SHA-256

The digest of a byte string, as a total function. A message is padded to whole blocks
of 64 bytes, the blocks are folded one after the other into eight 32-bit words, and the
words written in hexadecimal are the digest text. Nothing here depends on what is
hashed: the trees that use it are in `SealedLog.Tree`.

Main statement: `length_hex`, a digest text always has 64 characters.
-/

namespace SealedLog.Sha256

/-- The eight words that the blocks of a message are folded into. -/
structure Words where
  a : UInt32
  b : UInt32
  c : UInt32
  d : UInt32
  e : UInt32
  f : UInt32
  g : UInt32
  h : UInt32

/-- The words before the first block: the fractional parts of the square roots of the
first eight primes. -/
def Words.initial : Words :=
  ⟨0x6a09e667, 0xbb67ae85, 0x3c6ef372, 0xa54ff53a,
    0x510e527f, 0x9b05688c, 0x1f83d9ab, 0x5be0cd19⟩

/-- The round constants: the fractional parts of the cube roots of the first 64 primes. -/
def roundConstants : Array UInt32 := #[
  0x428a2f98, 0x71374491, 0xb5c0fbcf, 0xe9b5dba5, 0x3956c25b, 0x59f111f1, 0x923f82a4, 0xab1c5ed5,
  0xd807aa98, 0x12835b01, 0x243185be, 0x550c7dc3, 0x72be5d74, 0x80deb1fe, 0x9bdc06a7, 0xc19bf174,
  0xe49b69c1, 0xefbe4786, 0x0fc19dc6, 0x240ca1cc, 0x2de92c6f, 0x4a7484aa, 0x5cb0a9dc, 0x76f988da,
  0x983e5152, 0xa831c66d, 0xb00327c8, 0xbf597fc7, 0xc6e00bf3, 0xd5a79147, 0x06ca6351, 0x14292967,
  0x27b70a85, 0x2e1b2138, 0x4d2c6dfc, 0x53380d13, 0x650a7354, 0x766a0abb, 0x81c2c92e, 0x92722c85,
  0xa2bfe8a1, 0xa81a664b, 0xc24b8b70, 0xc76c51a3, 0xd192e819, 0xd6990624, 0xf40e3585, 0x106aa070,
  0x19a4c116, 0x1e376c08, 0x2748774c, 0x34b0bcb5, 0x391c0cb3, 0x4ed8aa4a, 0x5b9cca4f, 0x682e6ff3,
  0x748f82ee, 0x78a5636f, 0x84c87814, 0x8cc70208, 0x90befffa, 0xa4506ceb, 0xbef9a3f7, 0xc67178f2]

/-- Rotation to the right by `n` places, `0 < n < 32`. -/
def rotateRight (x n : UInt32) : UInt32 :=
  (x >>> n) ||| (x <<< (32 - n))

def wordAt (data : ByteArray) (i : Nat) : UInt32 :=
  ((data.get! i).toUInt32 <<< 24) ||| ((data.get! (i + 1)).toUInt32 <<< 16) |||
    ((data.get! (i + 2)).toUInt32 <<< 8) ||| (data.get! (i + 3)).toUInt32

/-- Extends a message schedule by `n` words, each mixed from four earlier ones. -/
def extendSchedule : Nat → Array UInt32 → Array UInt32
  | 0, w => w
  | n + 1, w =>
    let i := w.size
    let x := w.getD (i - 15) 0
    let y := w.getD (i - 2) 0
    let s0 := rotateRight x 7 ^^^ rotateRight x 18 ^^^ (x >>> 3)
    let s1 := rotateRight y 17 ^^^ rotateRight y 19 ^^^ (y >>> 10)
    extendSchedule n (w.push (w.getD (i - 16) 0 + s0 + w.getD (i - 7) 0 + s1))

/-- The 64 words of the block that starts at byte `offset`. -/
def schedule (data : ByteArray) (offset : Nat) : Array UInt32 :=
  extendSchedule 48 ((Array.range 16).map fun i => wordAt data (offset + 4 * i))

def rounds (w : Array UInt32) : Nat → (a b c d e f g h : UInt32) → Words
  | 0, a, b, c, d, e, f, g, h => ⟨a, b, c, d, e, f, g, h⟩
  | n + 1, a, b, c, d, e, f, g, h =>
    let i := 63 - n
    let s1 := rotateRight e 6 ^^^ rotateRight e 11 ^^^ rotateRight e 25
    let choice := (e &&& f) ^^^ (~~~ e &&& g)
    let t1 := h + s1 + choice + roundConstants.getD i 0 + w.getD i 0
    let s0 := rotateRight a 2 ^^^ rotateRight a 13 ^^^ rotateRight a 22
    let majority := (a &&& b) ^^^ (a &&& c) ^^^ (b &&& c)
    rounds w n (t1 + (s0 + majority)) a b c (d + t1) e f g

/-- Folds the block at byte `offset` into the words. -/
def compress (s : Words) (data : ByteArray) (offset : Nat) : Words :=
  let r := rounds (schedule data offset) 64 s.a s.b s.c s.d s.e s.f s.g s.h
  ⟨s.a + r.a, s.b + r.b, s.c + r.c, s.d + r.d, s.e + r.e, s.f + r.f, s.g + r.g, s.h + r.h⟩

/-- Folds `n` further blocks, the first at byte `offset`. -/
def compressBlocks (data : ByteArray) : Nat → Nat → Words → Words
  | 0, _, s => s
  | n + 1, offset, s => compressBlocks data n (offset + 64) (compress s data offset)

def pushZeros : Nat → ByteArray → ByteArray
  | 0, data => data
  | n + 1, data => pushZeros n (data.push 0)

/-- The low eight bytes of `n`, most significant first. -/
def lengthBytes (n : Nat) : List UInt8 :=
  [56, 48, 40, 32, 24, 16, 8, 0].map fun shift => UInt8.ofNat (n >>> shift)

/-- The message, a one bit, zeros up to eight bytes short of a whole block, and the
length of the message in bits. -/
def pad (message : ByteArray) : ByteArray :=
  let marked := message.push 0x80
  let filled := pushZeros ((119 - message.size % 64) % 64) marked
  (lengthBytes (8 * message.size)).foldl ByteArray.push filled

/-- The digest of a byte string, as eight words. -/
def digest (message : ByteArray) : Words :=
  let padded := pad message
  compressBlocks padded (padded.size / 64) 0 .initial

def Words.toHex (s : Words) : List Char :=
  Hex.ofWord s.a ++ Hex.ofWord s.b ++ Hex.ofWord s.c ++ Hex.ofWord s.d ++
    Hex.ofWord s.e ++ Hex.ofWord s.f ++ Hex.ofWord s.g ++ Hex.ofWord s.h

def hex (message : ByteArray) : String :=
  String.ofList (digest message).toHex

theorem length_toHex (s : Words) : s.toHex.length = 64 := by
  simp [Words.toHex]

theorem length_hex (message : ByteArray) : (hex message).length = 64 := by
  simp [hex, length_toHex]

end SealedLog.Sha256
