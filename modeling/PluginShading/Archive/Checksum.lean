import PluginShading.Files.Bytes

/-!
The two checksums that archives carry: CRC-32, with the reflected polynomial `EDB88320`, and SHA-256.
-/
namespace PluginShading.Archive

open Files (Bytes)

/-! ### CRC-32 -/

/-- Divides by the polynomial one bit further. -/
def crcShift (c : UInt32) : UInt32 := if c &&& 1 = 1 then (c >>> 1) ^^^ 0xEDB88320 else c >>> 1

def crcByte (c : UInt32) (b : UInt8) : UInt32 :=
  crcShift (crcShift (crcShift (crcShift (crcShift (crcShift (crcShift (crcShift (c ^^^ b.toUInt32))))))))

def crc32 (b : Bytes) : UInt32 := (b.foldl crcByte 0xFFFFFFFF) ^^^ 0xFFFFFFFF

/-! ### SHA-256 -/

def roundConstants : List UInt32 := [
  0x428a2f98, 0x71374491, 0xb5c0fbcf, 0xe9b5dba5, 0x3956c25b, 0x59f111f1, 0x923f82a4, 0xab1c5ed5,
  0xd807aa98, 0x12835b01, 0x243185be, 0x550c7dc3, 0x72be5d74, 0x80deb1fe, 0x9bdc06a7, 0xc19bf174,
  0xe49b69c1, 0xefbe4786, 0x0fc19dc6, 0x240ca1cc, 0x2de92c6f, 0x4a7484aa, 0x5cb0a9dc, 0x76f988da,
  0x983e5152, 0xa831c66d, 0xb00327c8, 0xbf597fc7, 0xc6e00bf3, 0xd5a79147, 0x06ca6351, 0x14292967,
  0x27b70a85, 0x2e1b2138, 0x4d2c6dfc, 0x53380d13, 0x650a7354, 0x766a0abb, 0x81c2c92e, 0x92722c85,
  0xa2bfe8a1, 0xa81a664b, 0xc24b8b70, 0xc76c51a3, 0xd192e819, 0xd6990624, 0xf40e3585, 0x106aa070,
  0x19a4c116, 0x1e376c08, 0x2748774c, 0x34b0bcb5, 0x391c0cb3, 0x4ed8aa4a, 0x5b9cca4f, 0x682e6ff3,
  0x748f82ee, 0x78a5636f, 0x84c87814, 0x8cc70208, 0x90befffa, 0xa4506ceb, 0xbef9a3f7, 0xc67178f2]

/-- The eight words that are carried from block to block. -/
structure Chain where
  a : UInt32
  b : UInt32
  c : UInt32
  d : UInt32
  e : UInt32
  f : UInt32
  g : UInt32
  h : UInt32
  deriving DecidableEq, Repr

namespace Chain

def start : Chain :=
  ⟨0x6a09e667, 0xbb67ae85, 0x3c6ef372, 0xa54ff53a, 0x510e527f, 0x9b05688c, 0x1f83d9ab, 0x5be0cd19⟩

def add (x y : Chain) : Chain :=
  ⟨x.a + y.a, x.b + y.b, x.c + y.c, x.d + y.d, x.e + y.e, x.f + y.f, x.g + y.g, x.h + y.h⟩

def words (x : Chain) : List UInt32 := [x.a, x.b, x.c, x.d, x.e, x.f, x.g, x.h]

end Chain

def rotate (n : UInt32) (w : UInt32) : UInt32 := (w >>> n) ||| (w <<< (32 - n))

def shaRound (x : Chain) (constant word : UInt32) : Chain :=
  let choice := (x.e &&& x.f) ^^^ ((~~~ x.e) &&& x.g)
  let majority := (x.a &&& x.b) ^^^ (x.a &&& x.c) ^^^ (x.b &&& x.c)
  let t := x.h + (rotate 6 x.e ^^^ rotate 11 x.e ^^^ rotate 25 x.e) + choice + constant + word
  let u := (rotate 2 x.a ^^^ rotate 13 x.a ^^^ rotate 22 x.a) + majority
  ⟨t + u, x.a, x.b, x.c, x.d + t, x.e, x.f, x.g⟩

/-- The word that follows sixteen in the schedule. -/
def scheduled (window : List UInt32) : UInt32 :=
  let w (i : Nat) : UInt32 := window.getD i 0
  let low := rotate 7 (w 1) ^^^ rotate 18 (w 1) ^^^ (w 1 >>> 3)
  let high := rotate 17 (w 14) ^^^ rotate 19 (w 14) ^^^ (w 14 >>> 10)
  w 0 + low + w 9 + high

/-- One round after another; `window` holds the next sixteen words. -/
def shaRounds : List UInt32 → List UInt32 → Chain → Chain
  | [], _, x => x
  | constant :: constants, window, x =>
    shaRounds constants (window.drop 1 ++ [scheduled window]) (shaRound x constant (window.getD 0 0))

def wordOf (b : Bytes) : UInt32 := UInt32.ofNat (Bytes.number b.reverse)

def shaBlock (x : Chain) (block : Bytes) : Chain :=
  x.add (shaRounds roundConstants ((Bytes.blocks 4 block).map wordOf) x)

/-- A one bit, zeros, and the length in bits at the end of a block. -/
def shaPadding (length : Nat) : Bytes :=
  0x80 :: List.replicate ((119 - length % 64) % 64) 0 ++ Bytes.bigEndian 8 (8 * length)

def sha256 (b : Bytes) : Bytes :=
  ((Bytes.blocks 64 (b ++ shaPadding b.length)).foldl shaBlock Chain.start).words.flatMap fun w =>
    Bytes.bigEndian 4 w.toNat

theorem length_sha256 (b : Bytes) : (sha256 b).length = 32 := by
  simp [sha256, Chain.words, Bytes.bigEndian]

end PluginShading.Archive
