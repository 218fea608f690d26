import ShareCovenant.Crypto.Suite

/-!
# Base 58 with a checksum

A byte string is written as a number in base 58, with one leading `1` for every leading zero byte. The
last four bytes are the start of the hash of the others.
-/

namespace ShareCovenant.Base58

/-- The digits in the order of their values: no zero, no capital I and O, no small l. -/
def alphabet : List Char :=
  "123456789ABCDEFGHJKLMNPQRSTUVWXYZabcdefghijkmnopqrstuvwxyz".toList

/-- The number after one more digit. -/
def pushDigit? (n : Nat) (c : Char) : Option Nat := (alphabet.idxOf? c).map (58 * n + ·)

/-- Reads a byte string. -/
def decode? (text : List Char) : Option Bytes := do
  let n ← text.foldlM pushDigit? 0
  let zeros := (text.takeWhile (· == '1')).length
  return List.replicate zeros 0 ++ (LittleEndian.digits n).reverse

/-- Reads a byte string and takes off its checksum. -/
def decodeChecked? (suite : Suite) (text : List Char) : Option Bytes := do
  let bytes ← decode? text
  if bytes.length < 4 then none
  else
    let body := bytes.take (bytes.length - 4)
    if bytes.drop (bytes.length - 4) = (suite.sha256d body).val.take 4 then some body else none

end ShareCovenant.Base58
