import ShareCovenant.Bytes

/-!
# Five-bit symbols

The 32 symbols of addresses and their characters, and the regrouping of bits between symbols and bytes,
most significant bit first. Cutting bits into bytes refuses a rest of a whole symbol or one that holds
a one.
-/

namespace ShareCovenant

/-- A symbol of five bits. -/
abbrev Symbol := BitVec 5

namespace Symbol

/-- The characters of the symbols, in the order of their values. -/
def alphabet : List Char := "qpzry9x8gf2tvdw0s3jn54khce6mua7l".toList

/-- The character of a symbol. -/
def toChar (s : Symbol) : Char := alphabet.getD s.toNat 'q'

/-- The symbol of a character. -/
def ofChar? (c : Char) : Option Symbol := (alphabet.idxOf? c).map (BitVec.ofNat 5)

/-! ## Bits -/

/-- The low `width` bits of a number, most significant first. -/
def bitsOf : Nat → Nat → List Bool
  | 0, _ => []
  | width + 1, n => n.testBit width :: bitsOf width n

/-- The number that the bits spell, most significant first. -/
def ofBits (bits : List Bool) : Nat := bits.foldl (fun n b => 2 * n + b.toNat) 0

/-- The bits of the symbols. -/
def symbolBits (symbols : List Symbol) : List Bool := symbols.flatMap fun s => bitsOf 5 s.toNat

/-- The bits of the bytes. -/
def byteBits (bytes : Bytes) : List Bool := bytes.flatMap fun b => bitsOf 8 b.toNat

/-- The bits in groups of five, the last one filled up with zeros. -/
def pack : List Bool → List Symbol
  | a :: b :: c :: d :: e :: rest => BitVec.ofNat 5 (ofBits [a, b, c, d, e]) :: pack rest
  | [] => []
  | bits => [BitVec.ofNat 5 (ofBits (bits ++ List.replicate (5 - bits.length) false))]

/-- The symbols of a byte string. -/
def ofBytes (bytes : Bytes) : List Symbol := pack (byteBits bytes)

/-- The bits in groups of eight. The rest has fewer than five bits, none of them one. -/
def unpack? : List Bool → Option Bytes
  | a :: b :: c :: d :: e :: f :: g :: h :: rest =>
      (unpack? rest).map (UInt8.ofNat (ofBits [a, b, c, d, e, f, g, h]) :: ·)
  | bits => if bits.length < 5 ∧ bits.all (!·) then some [] else none

/-- The byte string of symbols, if its padding is right. -/
def toBytes? (symbols : List Symbol) : Option Bytes := unpack? (symbolBits symbols)

end Symbol

end ShareCovenant
