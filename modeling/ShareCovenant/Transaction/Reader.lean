import ShareCovenant.Bytes

/-!
# Reading from the front of a byte string

A reader takes what it needs from the front of its input and leaves the rest. `length_of_take` bounds what
is left, which is why lists without a count can be read to their end.
-/

namespace ShareCovenant

/-- Why bytes are not a transaction or a list of outputs. -/
inductive DecodeError where
  /-- The input ends before a field is complete. -/
  | unexpectedEnd
  /-- A length is not in its shortest form. -/
  | nonMinimalSize
  /-- A witness asks for a buffer above the limit. -/
  | oversized (requested limit : Nat)
  /-- The flag after an empty input list is not the one for witnesses. -/
  | unknownFlag (flag : UInt8)
  /-- The witness flag is set and every witness is empty. -/
  | noWitnesses
  /-- Bytes are left after the transaction. -/
  | trailingBytes
  deriving DecidableEq, Repr

def DecodeError.message : DecodeError → String
  | .unexpectedEnd => "IO error"
  | .nonMinimalSize => "non-minimal varint"
  | .oversized requested limit =>
      s!"allocation of oversized vector: requested {requested}, maximum {limit}"
  | .unknownFlag flag => s!"unsupported segwit version: {flag.toNat}"
  | .noWitnesses => "parse failed: witness flag set but no witnesses present"
  | .trailingBytes => "parse failed: data not consumed entirely when explicitly deserializing"

/-- What lies behind an error, where there is more to tell. -/
def DecodeError.cause? : DecodeError → Option String
  | .unexpectedEnd => some "failed to fill whole buffer"
  | _ => none

/-- A reader of values of a type. -/
abbrev Reader (α : Type) := StateT Bytes (Except DecodeError) α

namespace Reader

/-- The next `n` bytes. -/
def take (n : Nat) : Reader Bytes := fun bytes =>
  if n ≤ bytes.length then .ok (bytes.take n, bytes.drop n) else .error .unexpectedEnd

theorem take_append (field rest : Bytes) : take field.length (field ++ rest) = .ok (field, rest) := by
  simp [take]

theorem length_of_take {n : Nat} {bytes field rest : Bytes} (h : take n bytes = .ok (field, rest)) :
    field.length = n ∧ bytes = field ++ rest := by
  unfold take at h
  split at h
  · cases h
    simp [List.length_take]
    omega
  · cases h

/-- The next `width` bytes as a number, least significant first. -/
def number (width : Nat) : Reader Nat := do
  return LittleEndian.decode (← take width)

/-- The next byte. -/
def byte : Reader UInt8 := do
  return UInt8.ofNat (← number 1)

/-- The next field of `n` bytes. -/
def fixed (n : Nat) : Reader (FixedBytes n) := do
  match FixedBytes.ofBytes? n (← take n) with
  | some field => return field
  | none => throw .unexpectedEnd

/-- The next `n` items. -/
def replicate {α : Type} (item : Reader α) : Nat → Reader (List α)
  | 0 => return []
  | n + 1 => do
      let first ← item
      let others ← replicate item n
      return first :: others

end Reader

end ShareCovenant
