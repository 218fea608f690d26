import ShareCovenant.Bytes

/-!
# RIPEMD-160

Two lines of eighty steps run over the same block and are added crosswise. Each line is a list of steps:
a message word, a rotation, a mixing function and a constant. A digest has 20 bytes by its type.
-/

namespace ShareCovenant.Ripemd160

/-- The five chaining words. -/
structure State where
  a : UInt32
  b : UInt32
  c : UInt32
  d : UInt32
  e : UInt32

def State.initial : State where
  a := 0x67452301
  b := 0xefcdab89
  c := 0x98badcfe
  d := 0x10325476
  e := 0xc3d2e1f0

/-! ## Words -/

/-- Rotation to the left by less than 32 places. -/
def rotateLeft (x : UInt32) (n : UInt32) : UInt32 := (x <<< n) ||| (x >>> (32 - n))

/-- The bytes read as words of four, least significant byte first. -/
def words : Bytes → List UInt32
  | a :: b :: c :: d :: rest =>
      (a.toUInt32 ||| (b.toUInt32 <<< 8) ||| (c.toUInt32 <<< 16) ||| (d.toUInt32 <<< 24)) :: words rest
  | _ => []

/-- The four bytes of a word, least significant first. -/
def wordBytes (w : UInt32) : Bytes :=
  [w.toUInt8, (w >>> 8).toUInt8, (w >>> 16).toUInt8, (w >>> 24).toUInt8]

/-! ## Steps -/

/-- A function of three words that mixes them bit by bit. -/
abbrev Mix := UInt32 → UInt32 → UInt32 → UInt32

def mix1 : Mix := fun x y z => x ^^^ y ^^^ z
def mix2 : Mix := fun x y z => (x &&& y) ||| (~~~x &&& z)
def mix3 : Mix := fun x y z => (x ||| ~~~y) ^^^ z
def mix4 : Mix := fun x y z => (x &&& z) ||| (y &&& ~~~z)
def mix5 : Mix := fun x y z => x ^^^ (y ||| ~~~z)

/-- Sixteen steps with one mixing function and one constant: for each step the index of its message
word and its rotation. -/
structure Round where
  mix : Mix
  constant : UInt32
  steps : List (Nat × UInt32)

/-- The rounds of the first line. -/
def leftLine : List Round :=
  [{ mix := mix1, constant := 0x00000000,
     steps := [(0, 11), (1, 14), (2, 15), (3, 12), (4, 5), (5, 8), (6, 7), (7, 9),
               (8, 11), (9, 13), (10, 14), (11, 15), (12, 6), (13, 7), (14, 9), (15, 8)] },
   { mix := mix2, constant := 0x5a827999,
     steps := [(7, 7), (4, 6), (13, 8), (1, 13), (10, 11), (6, 9), (15, 7), (3, 15),
               (12, 7), (0, 12), (9, 15), (5, 9), (2, 11), (14, 7), (11, 13), (8, 12)] },
   { mix := mix3, constant := 0x6ed9eba1,
     steps := [(3, 11), (10, 13), (14, 6), (4, 7), (9, 14), (15, 9), (8, 13), (1, 15),
               (2, 14), (7, 8), (0, 13), (6, 6), (13, 5), (11, 12), (5, 7), (12, 5)] },
   { mix := mix4, constant := 0x8f1bbcdc,
     steps := [(1, 11), (9, 12), (11, 14), (10, 15), (0, 14), (8, 15), (12, 9), (4, 8),
               (13, 9), (3, 14), (7, 5), (15, 6), (14, 8), (5, 6), (6, 5), (2, 12)] },
   { mix := mix5, constant := 0xa953fd4e,
     steps := [(4, 9), (0, 15), (5, 5), (9, 11), (7, 6), (12, 8), (2, 13), (10, 12),
               (14, 5), (1, 12), (3, 13), (8, 14), (11, 11), (6, 8), (15, 5), (13, 6)] }]

/-- The rounds of the second line. -/
def rightLine : List Round :=
  [{ mix := mix5, constant := 0x50a28be6,
     steps := [(5, 8), (14, 9), (7, 9), (0, 11), (9, 13), (2, 15), (11, 15), (4, 5),
               (13, 7), (6, 7), (15, 8), (8, 11), (1, 14), (10, 14), (3, 12), (12, 6)] },
   { mix := mix4, constant := 0x5c4dd124,
     steps := [(6, 9), (11, 13), (3, 15), (7, 7), (0, 12), (13, 8), (5, 9), (10, 11),
               (14, 7), (15, 7), (8, 12), (12, 7), (4, 6), (9, 15), (1, 13), (2, 11)] },
   { mix := mix3, constant := 0x6d703ef3,
     steps := [(15, 9), (5, 7), (1, 15), (3, 11), (7, 8), (14, 6), (6, 6), (9, 14),
               (11, 12), (8, 13), (12, 5), (2, 14), (10, 13), (0, 13), (4, 7), (13, 5)] },
   { mix := mix2, constant := 0x7a6d76e9,
     steps := [(8, 15), (6, 5), (4, 8), (1, 11), (3, 14), (11, 14), (15, 6), (0, 14),
               (5, 6), (12, 9), (2, 12), (13, 9), (9, 12), (7, 5), (10, 15), (14, 8)] },
   { mix := mix1, constant := 0x00000000,
     steps := [(12, 8), (15, 5), (10, 12), (4, 9), (1, 12), (5, 5), (8, 14), (7, 6),
               (6, 8), (2, 13), (13, 6), (14, 5), (0, 15), (3, 13), (9, 11), (11, 11)] }]

/-- One step with its message word. -/
def step (mix : Mix) (constant word rotation : UInt32) (s : State) : State :=
  let t := rotateLeft (s.a + mix s.b s.c s.d + word + constant) rotation + s.e
  { a := s.e, b := t, c := s.b, d := rotateLeft s.c 10, e := s.d }

/-- Runs a line over the words of a block. -/
def runLine (line : List Round) (block : List UInt32) (s : State) : State :=
  line.foldl (fun s r =>
    r.steps.foldl (fun s (index, rotation) => step r.mix r.constant (block.getD index 0) rotation s) s) s

/-! ## Messages -/

/-- Takes in one block of 64 bytes. -/
def compress (s : State) (block : Bytes) : State :=
  let ws := words block
  let l := runLine leftLine ws s
  let r := runLine rightLine ws s
  { a := s.b + l.c + r.d, b := s.c + l.d + r.e, c := s.d + l.e + r.a, d := s.e + l.a + r.b,
    e := s.a + l.b + r.c }

/-- Takes in the given number of blocks. -/
def absorb : Nat → State → Bytes → State
  | 0, s, _ => s
  | n + 1, s, msg => absorb n (compress s (msg.take 64)) (msg.drop 64)

/-- The number of zero bytes that fill the last block before the length. -/
def padLength (n : Nat) : Nat := (119 - n % 64) % 64

/-- The message, a one bit, zeros, and the length in bits in eight bytes. -/
def pad (msg : Bytes) : Bytes :=
  msg ++ 0x80 :: List.replicate (padLength msg.length) 0 ++ LittleEndian.encode 8 (8 * msg.length)

/-- The chaining words as bytes. -/
def State.bytes (s : State) : FixedBytes 20 :=
  ⟨[s.a, s.b, s.c, s.d, s.e].flatMap wordBytes, rfl⟩

/-- The digest of a message. -/
def hash (msg : Bytes) : FixedBytes 20 :=
  let padded := pad msg
  (absorb (padded.length / 64) .initial padded).bytes

end ShareCovenant.Ripemd160
