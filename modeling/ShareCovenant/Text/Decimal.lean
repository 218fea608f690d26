/-!
# Unsigned decimal numbers

A number is an optional plus sign and one or more digits; leading zeros are allowed. The digits are read
from the left, so whichever comes first, a character that is no digit or a value above the bound, decides
the error.
-/

namespace ShareCovenant.Decimal

/-- Why a text is not an unsigned number below the bound. -/
inductive Error where
  | empty
  | badDigit
  | tooLarge
  deriving DecidableEq, Repr

def Error.message : Error → String
  | .empty => "cannot parse integer from empty string"
  | .badDigit => "invalid digit found in string"
  | .tooLarge => "number too large to fit in target type"

/-- The value of a decimal digit. -/
def digit? (c : Char) : Option Nat :=
  if '0' ≤ c ∧ c ≤ '9' then some (c.toNat - '0'.toNat) else none

/-- Reads digits after those that spell `n`; no value on the way may exceed `max`. -/
def readFrom (max n : Nat) : List Char → Except Error Nat
  | [] => .ok n
  | c :: cs =>
      match digit? c with
      | none => .error .badDigit
      | some d => if 10 * n + d ≤ max then readFrom max (10 * n + d) cs else .error .tooLarge

/-- Reads a number of at most `max`. -/
def read (max : Nat) : List Char → Except Error Nat
  | [] => .error .empty
  | ['+'] => .error .badDigit
  | '+' :: cs => readFrom max 0 cs
  | cs => readFrom max 0 cs

/-- Reads a 32-bit number. -/
def readUInt32 (cs : List Char) : Except Error UInt32 :=
  (read 0xffffffff cs).map UInt32.ofNat

/-- Reads a 64-bit number. -/
def readUInt64 (cs : List Char) : Except Error UInt64 :=
  (read 0xffffffffffffffff cs).map UInt64.ofNat

end ShareCovenant.Decimal
