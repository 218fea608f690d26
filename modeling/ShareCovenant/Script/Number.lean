import ShareCovenant.Script.Error

/-!
# Script numbers

A byte string is read as a number whose bytes stand least significant first and whose sign is the top bit
of the last byte (`value`). The minimal string of a number has no byte that could be left out; zero is the
empty string. Arithmetic takes minimal strings of at most four bytes, while conversions take all strings.
-/

namespace ShareCovenant.Number

/-- The top bit of a byte. -/
def signBit (b : UInt8) : Bool := b &&& 0x80 ≠ 0

/-- The number that a byte string stands for, of any length and minimal or not. -/
def value (bytes : Bytes) : Int :=
  match bytes.getLast? with
  | none => 0
  | some last =>
      let magnitude := LittleEndian.decode (bytes.dropLast ++ [last &&& 0x7f])
      if signBit last then -(magnitude : Int) else magnitude

/-- Puts a sign on a magnitude: on its last byte if the top bit there is free, in a byte of its own if
not. The empty magnitude takes no sign. -/
def withSign (negative : Bool) (magnitude : Bytes) : Bytes :=
  match magnitude.getLast? with
  | none => []
  | some last =>
      if signBit last then magnitude ++ [if negative then 0x80 else 0x00]
      else if negative then magnitude.dropLast ++ [last ||| 0x80]
      else magnitude

/-- The minimal string of a number. -/
def encode (n : Int) : Bytes := withSign (n < 0) (LittleEndian.digits n.natAbs)

/-- Whether a string is the minimal one of its number: the last byte holds more than a sign, or the byte
before it uses its top bit. -/
def isMinimal (bytes : Bytes) : Bool :=
  match bytes.reverse with
  | [] => true
  | [last] => last &&& 0x7f ≠ 0
  | last :: before :: _ => last &&& 0x7f ≠ 0 || signBit before

/-- The most bytes that an operand of arithmetic may have. -/
def maxSize : Nat := 4

/-- Reads an operand of arithmetic. -/
def decode (bytes : Bytes) : Except ScriptError Int :=
  if bytes.length > maxSize then .error (.numberOverflow bytes.length)
  else if isMinimal bytes then .ok (value bytes)
  else .error .nonMinimal

/-- The bytes up to the last one that is not zero. -/
def dropHighZeros (bytes : Bytes) : Bytes := (bytes.reverse.dropWhile (· == 0)).reverse

/-- The minimal string of the number that a string stands for. -/
def minimize (bytes : Bytes) : Bytes :=
  match bytes.getLast? with
  | none => []
  | some last =>
      if last &&& 0x7f ≠ 0 then bytes
      else withSign (signBit last) (dropHighZeros bytes.dropLast)

/-- A minimal string filled up to a size, its sign moved to the last byte. -/
def resize (bytes : Bytes) (size : Nat) : Except ScriptError Bytes :=
  if bytes.length > size then .error .impossibleEncoding
  else if bytes.length = size then .ok bytes
  else
    match bytes.getLast? with
    | none => .ok (List.replicate size 0)
    | some last =>
        .ok (bytes.dropLast ++ [last &&& 0x7f] ++ List.replicate (size - 1 - bytes.length) 0 ++
          [last &&& 0x80])

/-- Whether a string counts as true: a byte is not zero, the sign aside. -/
def isTrue (bytes : Bytes) : Bool :=
  match bytes.getLast? with
  | none => false
  | some last => bytes.dropLast.any (· != 0) || last &&& 0x7f != 0

/-- The minimal string of a truth value. -/
def ofBool (b : Bool) : Bytes := if b then [1] else []

end ShareCovenant.Number
