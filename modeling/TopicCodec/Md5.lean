import TopicCodec.Wire

/-!
# The MD5 digest

A message is padded to whole blocks of 64 bytes, each block is mixed into a state of
four words in 64 steps, and the sixteen bytes of the last state are the digest.
-/
namespace TopicCodec.Md5

structure State where
  a : UInt32
  b : UInt32
  c : UInt32
  d : UInt32
  deriving DecidableEq, Repr

def initial : State := ⟨0x67452301, 0xefcdab89, 0x98badcfe, 0x10325476⟩

/-- One constant for each step: the integer part of `2 ^ 32` times the sine of its number,
counted from one. -/
def constants : List UInt32 :=
  [0xd76aa478, 0xe8c7b756, 0x242070db, 0xc1bdceee, 0xf57c0faf, 0x4787c62a, 0xa8304613, 0xfd469501,
    0x698098d8, 0x8b44f7af, 0xffff5bb1, 0x895cd7be, 0x6b901122, 0xfd987193, 0xa679438e, 0x49b40821,
    0xf61e2562, 0xc040b340, 0x265e5a51, 0xe9b6c7aa, 0xd62f105d, 0x02441453, 0xd8a1e681, 0xe7d3fbc8,
    0x21e1cde6, 0xc33707d6, 0xf4d50d87, 0x455a14ed, 0xa9e3e905, 0xfcefa3f8, 0x676f02d9, 0x8d2a4c8a,
    0xfffa3942, 0x8771f681, 0x6d9d6122, 0xfde5380c, 0xa4beea44, 0x4bdecfa9, 0xf6bb4b60, 0xbebfbc70,
    0x289b7ec6, 0xeaa127fa, 0xd4ef3085, 0x04881d05, 0xd9d4d039, 0xe6db99e5, 0x1fa27cf8, 0xc4ac5665,
    0xf4292244, 0x432aff97, 0xab9423a7, 0xfc93a039, 0x655b59c3, 0x8f0ccc92, 0xffeff47d, 0x85845dd1,
    0x6fa87e4f, 0xfe2ce6e0, 0xa3014314, 0x4e0811a1, 0xf7537e82, 0xbd3af235, 0x2ad7d2bb, 0xeb86d391]

/-- The rotations that the steps of a round go through. -/
def rotations : (round : Nat) → List UInt32
  | 0 => [7, 12, 17, 22]
  | 1 => [5, 9, 14, 20]
  | 2 => [4, 11, 16, 23]
  | _ => [6, 10, 15, 21]

/-- The nonlinear mixture of three words in a round. -/
def mixture (round : Nat) (b c d : UInt32) : UInt32 :=
  match round with
  | 0 => (b &&& c) ||| (~~~b &&& d)
  | 1 => (d &&& b) ||| (~~~d &&& c)
  | 2 => b ^^^ c ^^^ d
  | _ => c ^^^ (b ||| ~~~d)

/-- The word of the block that a step takes. -/
def wordIndex (step : Nat) : Nat :=
  match step / 16 with
  | 0 => step
  | 1 => (5 * step + 1) % 16
  | 2 => (3 * step + 5) % 16
  | _ => 7 * step % 16

def rotateLeft (x n : UInt32) : UInt32 := (x <<< n) ||| (x >>> (32 - n))

def step (block : List UInt32) (state : State) (i : Nat) : State :=
  let round := i / 16
  let sum := state.a + mixture round state.b state.c state.d + constants.getD i 0 +
    block.getD (wordIndex i) 0
  let turn := (rotations round).getD (i % 4) 0
  ⟨state.d, state.b + rotateLeft sum turn, state.b, state.c⟩

/-- Mixes a block of sixteen words into the state. -/
def compress (state : State) (block : List UInt32) : State :=
  let mixed := (List.range 64).foldl (step block) state
  ⟨state.a + mixed.a, state.b + mixed.b, state.c + mixed.c, state.d + mixed.d⟩

/-- The list in pieces of `size`; the fuel bounds their number. -/
def pieces {α : Type} (size : Nat) : (fuel : Nat) → List α → List (List α)
  | 0, _ => []
  | fuel + 1, list =>
      if list.isEmpty then [] else list.take size :: pieces size fuel (list.drop size)

/-- The message, a set bit, zeros, and the length of the message in bits. -/
def pad (message : List UInt8) : List UInt8 :=
  let zeros := (119 - message.length % 64) % 64
  message ++ [0x80] ++ List.replicate zeros 0 ++ ByteOrder.littleBytes 8 (8 * message.length)

def words (bytes : List UInt8) : List UInt32 :=
  (pieces 4 bytes.length bytes).map fun piece => UInt32.ofNat (ByteOrder.ofLittleBytes piece)

/-- The sixteen bytes of the digest. -/
def digest (message : List UInt8) : List UInt8 :=
  let blocks := pieces 16 message.length.succ (words (pad message))
  let final := blocks.foldl compress initial
  [final.a, final.b, final.c, final.d].flatMap fun word => ByteOrder.littleBytes 4 word.toNat

end TopicCodec.Md5
