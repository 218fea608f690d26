import ShareCovenant.Bytes.Hex
import ShareCovenant.Key.Base58
import ShareCovenant.Key.PublicKey

/-!
# Signing keys

A signing key is a scalar of the curve. It is read from 64 hexadecimal digits or from the checksummed
wallet form of 51 or 52 characters. Any fault of the wallet form counts as an unknown format.
-/

namespace ShareCovenant

/-- Why a key cannot be read or used. -/
inductive KeyError where
  | hex (e : Hex.Error)
  /-- Zero, or not below the order of the curve. -/
  | outOfRange
  | unknownFormat
  /-- The challenge or the resulting signature scalar is zero. -/
  | badTweak
  deriving DecidableEq, Repr

def KeyError.message : KeyError → String
  | .hex e => e.message
  | .outOfRange => "malformed or out-of-range secret key"
  | .unknownFormat => "unsupported key format, expected WIF or 64 hex characters"
  | .badTweak => "bad tweak"

namespace Key

variable (suite : Suite)

/-- The scalar that 32 bytes spell. -/
def ofBytes? (bytes : Bytes) : Option suite.curve.Scalar :=
  if bytes.length = 32 then suite.curve.scalar? (BigEndian.decode bytes) else none

/-- The network bytes of the wallet form: main and test network. -/
def walletNetworks : List UInt8 := [0x80, 0xef]

/-- Reads the wallet form: network byte, scalar, and at most one more byte, whose value is free. -/
def ofWallet? (text : List Char) : Option suite.curve.Scalar := do
  match ← Base58.decodeChecked? suite text with
  | network :: rest =>
      if walletNetworks.contains network ∧ (rest.length = 32 ∨ rest.length = 33) then
        ofBytes? suite (rest.take 32)
      else none
  | [] => none

/-- Reads 64 hexadecimal digits; positions count the bytes of the text. -/
def ofHex (text : String) : Except KeyError suite.curve.Scalar :=
  match Hex.decode (Text.byteChars text) with
  | .error e => .error (.hex e)
  | .ok bytes =>
      match ofBytes? suite bytes with
      | some key => .ok key
      | none => .error .outOfRange

/-- Reads a key of either form, blanks around it aside. The size in bytes tells the forms apart. -/
def parse (text : String) : Except KeyError suite.curve.Scalar :=
  let text := Text.trim text
  let size := text.utf8ByteSize
  let wallet := if size = 51 ∨ size = 52 then ofWallet? suite text.toList else none
  match wallet with
  | some key => .ok key
  | none => if size = 64 then ofHex suite text else .error .unknownFormat

/-- The key that signs every contract for which no other key is given. It can be public, as a contract
admits one set of outputs for each coin. -/
def publishedText : String := "57607b06ad855ecf808440130a2b466c1ce5fca269dff8a92b69697216460d6e"

/-- The published key. -/
def published : Except KeyError suite.curve.Scalar := parse suite publishedText

variable {suite}

/-- The bytes of a key. -/
def bytes (key : suite.curve.Scalar) : FixedBytes 32 := BigEndian.fixed 32 key.val

/-- The compressed public key. -/
def publicKey (key : suite.curve.Scalar) : FixedBytes 33 :=
  (suite.curve.smul key.val suite.curve.base).compressed

end Key

end ShareCovenant
