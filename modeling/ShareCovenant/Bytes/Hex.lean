import ShareCovenant.Text.Unicode

/-!
# Hexadecimal text

Two digits a byte, the high half first. Writing uses lower-case digits and reading takes both cases.
A reading error names the first character that is no digit and its position; an odd number of
characters is reported before that.
-/

namespace ShareCovenant.Hex

/-- Why a text is not hexadecimal. -/
inductive Error where
  | oddLength
  /-- The character at this position, counted from zero, is not a digit. -/
  | badDigit (char : Char) (position : Nat)
  deriving DecidableEq, Repr

def Error.message : Error → String
  | .oddLength => "Odd number of digits"
  | .badDigit c position => s!"Invalid character {Text.quoteChar c} at position {position}"

/-- The value of a digit of either case. -/
def digit? (c : Char) : Option Nat :=
  if '0' ≤ c ∧ c ≤ '9' then some (c.toNat - '0'.toNat)
  else if 'a' ≤ c ∧ c ≤ 'f' then some (c.toNat - 'a'.toNat + 10)
  else if 'A' ≤ c ∧ c ≤ 'F' then some (c.toNat - 'A'.toNat + 10)
  else none

/-- The lower-case digit of a value below sixteen. -/
def digit (n : Nat) : Char :=
  if n < 10 then Char.ofNat ('0'.toNat + n) else Char.ofNat ('a'.toNat + (n - 10))

def encodeByte (b : UInt8) : List Char := [digit (b.toNat / 16), digit (b.toNat % 16)]

/-- The lower-case digits of a byte string. -/
def encodeChars (bytes : Bytes) : List Char := bytes.flatMap encodeByte

/-- The lower-case text of a byte string. -/
def encode (bytes : Bytes) : String := String.ofList (encodeChars bytes)

/-- Reads a digit that stands at `position`. -/
def readDigit (position : Nat) (c : Char) : Except Error Nat :=
  match digit? c with
  | some n => .ok n
  | none => .error (.badDigit c position)

/-- Reads the digits from `position` on, two a byte. -/
def decodeFrom (position : Nat) : List Char → Except Error Bytes
  | [] => .ok []
  | [_] => .error .oddLength
  | high :: low :: rest => do
      let h ← readDigit position high
      let l ← readDigit (position + 1) low
      let bytes ← decodeFrom (position + 2) rest
      return UInt8.ofNat (16 * h + l) :: bytes

/-- Reads a text of digits of either case. -/
def decode (text : List Char) : Except Error Bytes :=
  if text.length % 2 = 0 then decodeFrom 0 text else .error .oddLength

/-- A text of exactly two digits for each of `n` bytes. -/
def decodeFixed? (n : Nat) (text : List Char) : Option (FixedBytes n) :=
  match decode text with
  | .ok bytes => FixedBytes.ofBytes? n bytes
  | .error _ => none

end ShareCovenant.Hex
