import ShareCovenant.Transaction.Reader

/-!
# Compact sizes

Lengths are written in one, three, five or nine bytes, whichever is the shortest that fits; a first byte
from 253 on announces the number of bytes that follow. Reading refuses longer forms.
-/

namespace ShareCovenant.CompactSize

/-- The shortest form of a length. -/
def encode (n : Nat) : Bytes :=
  if n < 0xfd then LittleEndian.encode 1 n
  else if n < 0x10000 then 0xfd :: LittleEndian.encode 2 n
  else if n < 0x100000000 then 0xfe :: LittleEndian.encode 4 n
  else 0xff :: LittleEndian.encode 8 n

/-- Reads a number of `width` bytes that must be at least `least`. -/
def readAtLeast (least width : Nat) : Reader Nat := do
  let n ← Reader.number width
  if n < least then throw .nonMinimalSize
  return n

/-- Reads a length. -/
def read : Reader Nat := do
  let tag ← Reader.number 1
  if tag = 0xfd then readAtLeast 0xfd 2
  else if tag = 0xfe then readAtLeast 0x10000 4
  else if tag = 0xff then readAtLeast 0x100000000 8
  else return tag

/-- Bytes after their length. -/
def encodeBytes (bytes : Bytes) : Bytes := encode bytes.length ++ bytes

/-- Reads bytes after their length. -/
def readBytes : Reader Bytes := do
  let n ← read
  Reader.take n

/-- Reads items after their number. -/
def readList {α : Type} (item : Reader α) : Reader (List α) := do
  let n ← read
  Reader.replicate item n

end ShareCovenant.CompactSize
