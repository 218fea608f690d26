import ShareCovenant.Address.Checksum
import ShareCovenant.Text.Unicode

/-!
# Addresses

An address is a human-readable part, a kind and a hash of 20 bytes. Its text is the human-readable part,
a colon, and the symbols of the payload: a version byte and the hash, followed by a checksum. Reading
takes either case, but not both, and supplies a missing human-readable part.
-/

namespace ShareCovenant

/-- What the hash of an address is the hash of. -/
inductive AddressKind where
  | pubkeyHash
  | scriptHash
  deriving DecidableEq, Repr

/-- Why a text is not an address. -/
inductive AddressError where
  | mixedCase
  | invalidCharacter
  | tooShort
  | badChecksum
  | badPadding
  | unsupportedLength
  | unknownKind
  deriving DecidableEq, Repr

def AddressError.message : AddressError → String
  | .mixedCase => "mixed case"
  | .invalidCharacter => "invalid character"
  | .tooShort => "too short"
  | .badChecksum => "bad checksum"
  | .badPadding => "bad padding"
  | .unsupportedLength => "only 160-bit hashes are supported"
  | .unknownKind => "unknown address type"

/-- A decoded address. -/
structure Address where
  /-- The part before the colon. -/
  hrp : String
  kind : AddressKind
  hash : FixedBytes 20
  deriving DecidableEq, Repr

/-! ## Locking scripts -/

/-- `HASH160 <hash> EQUAL` -/
def scriptHashLock (hash : FixedBytes 20) : Bytes := [0xa9, 0x14] ++ hash.val ++ [0x87]

/-- `DUP HASH160 <hash> EQUALVERIFY CHECKSIG` -/
def pubkeyHashLock (hash : FixedBytes 20) : Bytes := [0x76, 0xa9, 0x14] ++ hash.val ++ [0x88, 0xac]

namespace Address

/-- The script of outputs that pay to the address. -/
def lockingScript (a : Address) : Bytes :=
  match a.kind with
  | .pubkeyHash => pubkeyHashLock a.hash
  | .scriptHash => scriptHashLock a.hash

/-! ## Text -/

/-- The human-readable part of the network, also of addresses that do not name one. -/
def networkHrp : String := "ecash"

/-- The number of checksum symbols. -/
def checksumLength : Nat := 8

def versionByte : AddressKind → UInt8
  | .pubkeyHash => 0x00
  | .scriptHash => 0x08

def kindOf? (version : UInt8) : Option AddressKind :=
  if version = 0x00 then some .pubkeyHash
  else if version = 0x08 then some .scriptHash
  else none

/-- The text of an address. -/
def encode (a : Address) : String :=
  let data := Symbol.ofBytes (versionByte a.kind :: a.hash)
  let symbols := data ++ Checksum.make a.hrp data
  a.hrp ++ ":" ++ String.ofList (symbols.map Symbol.toChar)

/-- Whether a text has letters of both cases. -/
def mixesCase (text : List Char) : Bool := text.any Char.isLower && text.any Char.isUpper

/-- The characters without their upper case. -/
def lowered (cs : List Char) : List Char := cs.map Char.toLower

/-- The human-readable part and the payload of a text, which the last colon separates. -/
def parts (text : List Char) : List Char × List Char :=
  (Text.cutLast? ':' text).getD (networkHrp.toList, text)

/-- Reads the version byte and the hash of a payload without its checksum. -/
def ofData (hrp : String) (data : List Symbol) : Except AddressError Address :=
  match Symbol.toBytes? data with
  | none => .error .badPadding
  | some [] => .error .unsupportedLength
  | some (version :: bytes) =>
      match FixedBytes.ofBytes? 20 bytes with
      | none => .error .unsupportedLength
      | some hash =>
          match kindOf? version with
          | none => .error .unknownKind
          | some kind => .ok { hrp := hrp, kind := kind, hash := hash }

/-- Reads the symbols of a payload. -/
def ofSymbols (hrp : String) (payload : List Symbol) : Except AddressError Address :=
  if payload.length ≤ checksumLength then .error .tooShort
  else if Checksum.isValid hrp payload then
    ofData hrp (payload.take (payload.length - checksumLength))
  else .error .badChecksum

/-- Reads an address. -/
def decode (text : String) : Except AddressError Address :=
  let (hrp, payload) := parts text.toList
  if mixesCase text.toList then .error .mixedCase
  else
    match (lowered payload).mapM Symbol.ofChar? with
    | none => .error .invalidCharacter
    | some symbols => ofSymbols (String.ofList (lowered hrp)) symbols

end Address

end ShareCovenant
