import BlockFeed.Bytes.Endian

/-! The hash function SHA-256 on byte strings. A message is padded to whole blocks of sixteen 32-bit
words, and each block is mixed into a state of eight words in 64 rounds. -/

namespace BlockFeed.Bitcoin.Sha256

/-- The eight words that a message is mixed into. -/
@[ext]
structure State where
  a : UInt32
  b : UInt32
  c : UInt32
  d : UInt32
  e : UInt32
  f : UInt32
  g : UInt32
  h : UInt32
  deriving DecidableEq, Repr

/-- The state before the first block: the first 32 fractional bits of the square roots of the
first eight primes. -/
def initial : State :=
  ⟨0x6a09e667, 0xbb67ae85, 0x3c6ef372, 0xa54ff53a, 0x510e527f, 0x9b05688c, 0x1f83d9ab, 0x5be0cd19⟩

/-- One constant a round: the first 32 fractional bits of the cube roots of the first 64 primes. -/
def roundConstants : List UInt32 := [
  0x428a2f98, 0x71374491, 0xb5c0fbcf, 0xe9b5dba5, 0x3956c25b, 0x59f111f1, 0x923f82a4, 0xab1c5ed5,
  0xd807aa98, 0x12835b01, 0x243185be, 0x550c7dc3, 0x72be5d74, 0x80deb1fe, 0x9bdc06a7, 0xc19bf174,
  0xe49b69c1, 0xefbe4786, 0x0fc19dc6, 0x240ca1cc, 0x2de92c6f, 0x4a7484aa, 0x5cb0a9dc, 0x76f988da,
  0x983e5152, 0xa831c66d, 0xb00327c8, 0xbf597fc7, 0xc6e00bf3, 0xd5a79147, 0x06ca6351, 0x14292967,
  0x27b70a85, 0x2e1b2138, 0x4d2c6dfc, 0x53380d13, 0x650a7354, 0x766a0abb, 0x81c2c92e, 0x92722c85,
  0xa2bfe8a1, 0xa81a664b, 0xc24b8b70, 0xc76c51a3, 0xd192e819, 0xd6990624, 0xf40e3585, 0x106aa070,
  0x19a4c116, 0x1e376c08, 0x2748774c, 0x34b0bcb5, 0x391c0cb3, 0x4ed8aa4a, 0x5b9cca4f, 0x682e6ff3,
  0x748f82ee, 0x78a5636f, 0x84c87814, 0x8cc70208, 0x90befffa, 0xa4506ceb, 0xbef9a3f7, 0xc67178f2]

/-- A word turned to the right by `count` bits, of which there are more than none and fewer than
32. -/
def rotate (word count : UInt32) : UInt32 := word >>> count ||| word <<< (32 - count)

/-- The mixture of a word that enters a new word of the schedule from fifteen places before. -/
def scheduleEarly (word : UInt32) : UInt32 := rotate word 7 ^^^ rotate word 18 ^^^ word >>> 3

/-- The mixture of a word that enters a new word of the schedule from two places before. -/
def scheduleLate (word : UInt32) : UInt32 := rotate word 17 ^^^ rotate word 19 ^^^ word >>> 10

/-- The word that follows the sixteen words of a window. Words beyond the window's end are zero. -/
def nextWord (window : List UInt32) : UInt32 :=
  scheduleLate (window.getD 14 0) + window.getD 9 0 + scheduleEarly (window.getD 1 0) +
    window.getD 0 0

/-- The bits of the second word where the first has ones, and of the third where it has zeros. -/
def choose (x y z : UInt32) : UInt32 := (x &&& y) ^^^ (~~~x &&& z)

/-- The bits that at least two of three words have. -/
def majority (x y z : UInt32) : UInt32 := (x &&& y) ^^^ (x &&& z) ^^^ (y &&& z)

/-- A round: one constant and one word of the schedule are mixed into the state. -/
def round (state : State) (constant word : UInt32) : State :=
  let ⟨a, b, c, d, e, f, g, h⟩ := state
  let high := rotate e 6 ^^^ rotate e 11 ^^^ rotate e 25
  let low := rotate a 2 ^^^ rotate a 13 ^^^ rotate a 22
  let added := h + high + choose e f g + constant + word
  ⟨added + low + majority a b c, a, b, c, d + added, e, f, g⟩

/-- A round for every constant. The window holds the next words of the schedule, from which those
after them are made. -/
def rounds (state : State) (window : List UInt32) : List UInt32 → State
  | [] => state
  | constant :: constants =>
      rounds (round state constant (window.headD 0)) (window.tail ++ [nextWord window]) constants

/-- Mixes a block of sixteen words into the state. -/
def compress (state : State) (block : List UInt32) : State :=
  let mixed := rounds state block roundConstants
  ⟨state.a + mixed.a, state.b + mixed.b, state.c + mixed.c, state.d + mixed.d,
    state.e + mixed.e, state.f + mixed.f, state.g + mixed.g, state.h + mixed.h⟩

/-- Mixes this many blocks of sixteen words into the state. -/
def absorb (state : State) (words : List UInt32) : Nat → State
  | 0 => state
  | blocks + 1 => absorb (compress state (words.take 16)) (words.drop 16) blocks

/-- A message, a one bit, as few zero bits as fill the last block, and the number of the message's
bits in eight bytes. -/
def pad (message : Bytes) : Bytes :=
  message ++ 0x80 :: List.replicate ((119 - message.length % 64) % 64) 0 ++
    Bytes.bigEndian 8 (8 * message.length)

/-- The big-endian words of a byte string. -/
def words : Bytes → List UInt32
  | a :: b :: c :: d :: rest => UInt32.ofNat (Bytes.ofBigEndian [a, b, c, d]) :: words rest
  | _ => []

/-- The bytes of a state. -/
def State.bytes (state : State) : Bytes :=
  [state.a, state.b, state.c, state.d, state.e, state.f, state.g, state.h].flatMap fun word =>
    Bytes.bigEndian 4 word.toNat

/-- The hash of a message. -/
def digest (message : Bytes) : Bytes :=
  let words := words (pad message)
  (absorb initial words (words.length / 16)).bytes

@[simp] theorem digest_length (message : Bytes) : (digest message).length = 32 := by
  simp [digest, State.bytes]

end BlockFeed.Bitcoin.Sha256
