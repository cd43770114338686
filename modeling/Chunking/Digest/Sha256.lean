/-!
# SHA-256

The digest by which texts are compared. The message is padded to whole blocks
of 64 bytes: a single one bit, zeros, and the length in bits as a 64-bit
number. Each block is expanded to 64 words, and these are mixed, one a round,
into a state of eight words, which is added to what it was before the block.

## Main definitions

* `Sha256.State`: The eight words that are carried from block to block.
* `Sha256.pad`: A message with its padding.
* `Sha256.schedule`: The 64 words of a block.
* `Sha256.compress`: The state after a block.
* `Sha256.digest`: The digest of a message.
* `textDigest`: The digest of a text in hexadecimal digits.
-/

namespace Chunking

namespace Sha256

/-- The words that are carried from block to block. -/
structure State where
  a : UInt32
  b : UInt32
  c : UInt32
  d : UInt32
  e : UInt32
  f : UInt32
  g : UInt32
  h : UInt32
  deriving DecidableEq, Repr

/-- The state before the first block: the fractional parts of the square roots
of the first eight primes. -/
def initial : State :=
  ⟨0x6a09e667, 0xbb67ae85, 0x3c6ef372, 0xa54ff53a,
   0x510e527f, 0x9b05688c, 0x1f83d9ab, 0x5be0cd19⟩

/-- The constants of the rounds: the fractional parts of the cube roots of the
first 64 primes. -/
def roundConstants : List UInt32 :=
  [0x428a2f98, 0x71374491, 0xb5c0fbcf, 0xe9b5dba5, 0x3956c25b, 0x59f111f1, 0x923f82a4, 0xab1c5ed5,
   0xd807aa98, 0x12835b01, 0x243185be, 0x550c7dc3, 0x72be5d74, 0x80deb1fe, 0x9bdc06a7, 0xc19bf174,
   0xe49b69c1, 0xefbe4786, 0x0fc19dc6, 0x240ca1cc, 0x2de92c6f, 0x4a7484aa, 0x5cb0a9dc, 0x76f988da,
   0x983e5152, 0xa831c66d, 0xb00327c8, 0xbf597fc7, 0xc6e00bf3, 0xd5a79147, 0x06ca6351, 0x14292967,
   0x27b70a85, 0x2e1b2138, 0x4d2c6dfc, 0x53380d13, 0x650a7354, 0x766a0abb, 0x81c2c92e, 0x92722c85,
   0xa2bfe8a1, 0xa81a664b, 0xc24b8b70, 0xc76c51a3, 0xd192e819, 0xd6990624, 0xf40e3585, 0x106aa070,
   0x19a4c116, 0x1e376c08, 0x2748774c, 0x34b0bcb5, 0x391c0cb3, 0x4ed8aa4a, 0x5b9cca4f, 0x682e6ff3,
   0x748f82ee, 0x78a5636f, 0x84c87814, 0x8cc70208, 0x90befffa, 0xa4506ceb, 0xbef9a3f7, 0xc67178f2]

/-- A word with its bits turned to the right; those that fall out come back in
on the left. -/
def rotate (word : UInt32) (bits : UInt32) : UInt32 :=
  (word >>> bits) ||| (word <<< (32 - bits))

/-- The eight bytes of a 64-bit number, the highest first. -/
def bytesOf (number : UInt64) : List UInt8 :=
  ([56, 48, 40, 32, 24, 16, 8, 0] : List UInt64).map fun bits => (number >>> bits).toUInt8

/-- The number of zero bytes after the byte with the single one bit. -/
def zerosAfter (size : Nat) : Nat :=
  (119 - size % 64) % 64

/-- A message with its padding, a whole number of blocks. -/
def pad (message : ByteArray) : ByteArray :=
  let marked := message.push 0x80
  let filled := (List.replicate (zerosAfter message.size) (0 : UInt8)).foldl ByteArray.push marked
  (bytesOf (UInt64.ofNat (message.size * 8))).foldl ByteArray.push filled

/-- The byte at an offset, or zero behind the end. -/
def byteAt (bytes : ByteArray) (offset : Nat) : UInt32 :=
  if h : offset < bytes.size then bytes[offset].toUInt32 else 0

/-- The word of four bytes at an offset, the highest byte first. -/
def wordAt (bytes : ByteArray) (offset : Nat) : UInt32 :=
  (byteAt bytes offset <<< 24) ||| (byteAt bytes (offset + 1) <<< 16) |||
    (byteAt bytes (offset + 2) <<< 8) ||| byteAt bytes (offset + 3)

/-- The word that follows at least sixteen words of a schedule. -/
def nextWord (words : Array UInt32) : UInt32 :=
  let back (distance : Nat) : UInt32 := words[words.size - distance]?.getD 0
  let near := back 15
  let far := back 2
  back 16 + (rotate near 7 ^^^ rotate near 18 ^^^ (near >>> 3)) +
    back 7 + (rotate far 17 ^^^ rotate far 19 ^^^ (far >>> 10))

/-- The 64 words of the block at an offset: its own sixteen, and those that
follow from them. -/
def schedule (bytes : ByteArray) (offset : Nat) : Array UInt32 :=
  let own := (List.range 16).foldl (fun words i => words.push (wordAt bytes (offset + 4 * i))) #[]
  (List.range 48).foldl (fun words _ => words.push (nextWord words)) own

/-- One round with a word of the schedule and a constant. -/
def round (state : State) (word constant : UInt32) : State :=
  let ⟨a, b, c, d, e, f, g, h⟩ := state
  let choice := (e &&& f) ^^^ (~~~e &&& g)
  let majority := (a &&& b) ^^^ (a &&& c) ^^^ (b &&& c)
  let fresh := h + (rotate e 6 ^^^ rotate e 11 ^^^ rotate e 25) + choice + constant + word
  let mixed := (rotate a 2 ^^^ rotate a 13 ^^^ rotate a 22) + majority
  ⟨fresh + mixed, a, b, c, d + fresh, e, f, g⟩

/-- The words of two states added up. -/
def State.add (s t : State) : State :=
  ⟨s.a + t.a, s.b + t.b, s.c + t.c, s.d + t.d, s.e + t.e, s.f + t.f, s.g + t.g, s.h + t.h⟩

/-- The state after the block at an offset. -/
def compress (bytes : ByteArray) (state : State) (offset : Nat) : State :=
  state.add (((schedule bytes offset).toList.zip roundConstants).foldl
    (fun state pair => round state pair.1 pair.2) state)

/-- The digest of a message. -/
def digest (message : ByteArray) : State :=
  let padded := pad message
  (List.range (padded.size / 64)).foldl (fun state i => compress padded state (64 * i)) initial

/-- The words of a state in order. -/
def State.words (s : State) : List UInt32 :=
  [s.a, s.b, s.c, s.d, s.e, s.f, s.g, s.h]

/-- The eight lowercase hexadecimal digits of a word. -/
def hexDigits (word : UInt32) : List Char :=
  ([28, 24, 20, 16, 12, 8, 4, 0] : List UInt32).map fun bits =>
    Nat.digitChar ((word >>> bits) &&& 0xf).toNat

end Sha256

/-- The SHA-256 digest of a text's UTF-8 form, in lowercase hexadecimal
digits. -/
def textDigest (text : String) : String :=
  String.ofList ((Sha256.digest text.toUTF8).words.flatMap Sha256.hexDigits)

end Chunking
