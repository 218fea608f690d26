import ShareCovenant.Transaction.CompactSize

/-!
# Witnesses

A witness is a list of byte strings that unlocks an input beside its script. On the wire the number of
items comes first, and then each item after its length. A reader keeps one buffer for the items as they are
on the wire and an index with one entry an item, so it refuses a witness before it reads what would not fit:
too many items, or items that take up too much together.
-/

namespace ShareCovenant

/-- The items of a witness. -/
abbrev Witness := List Bytes

namespace Witness

/-- The items after their number. -/
def bytes (w : Witness) : Bytes := CompactSize.encode w.length ++ w.flatMap CompactSize.encodeBytes

/-! ## Limits -/

/-- The most items of a witness, and the most bytes that they take up on the wire, lengths included. -/
def maxSize : Nat := 4000000

/-- The size of an entry of the index. -/
def indexEntrySize : Nat := 4

/-- The largest size of a buffer that can be asked for; what is larger is reported as this. -/
def maxRequest : Nat := 0xffffffffffffffff

/-- Refuses more items than a witness may have. -/
def checkCount (count : Nat) : Except DecodeError Unit :=
  if maxSize < count then .error (.oversized count maxSize) else .ok ()

/-- Refuses a witness of `count` items that take up `size` bytes up to the one to be read next. The buffer
asked for holds the index as well. -/
def checkSize (count size : Nat) : Except DecodeError Unit :=
  if maxSize < size then .error (.oversized (min (indexEntrySize * count + size) maxRequest) maxSize)
  else .ok ()

/-! ## Reading -/

/-- Reads the next items of a witness of `count` items, those before which take up `size` bytes. -/
def readItems (count : Nat) : Nat → Nat → Reader (List Bytes)
  | 0, _ => return []
  | n + 1, size => do
      let length ← CompactSize.read
      let size := size + (CompactSize.encode length).length + length
      checkSize count size
      let item ← Reader.take length
      let others ← readItems count n size
      return item :: others

/-- Reads a witness. -/
def read : Reader Witness := do
  let count ← CompactSize.read
  checkCount count
  readItems count count 0

end Witness

end ShareCovenant
