import ShareCovenant.Crypto.Sha256
import ShareCovenant.Crypto.Ripemd160
import ShareCovenant.Crypto.Curve

/-!
# Hash functions and curve

Scripts, transactions and signatures rest on two hash functions and a curve. They take them as a
`Suite`, of which only the digest lengths are fixed, so that what holds of them holds for every choice of
hash functions. `Suite.standard` is the choice that runs.
-/

namespace ShareCovenant

/-- Two hash functions and the curve of signatures. -/
structure Suite where
  sha256 : Bytes → FixedBytes 32
  ripemd160 : Bytes → FixedBytes 20
  curve : Curve

namespace Suite

/-- SHA-256 twice, the hash of transactions. -/
def sha256d (suite : Suite) (bytes : Bytes) : FixedBytes 32 := suite.sha256 (suite.sha256 bytes)

/-- RIPEMD-160 of SHA-256, the hash in addresses. -/
def hash160 (suite : Suite) (bytes : Bytes) : FixedBytes 20 := suite.ripemd160 (suite.sha256 bytes)

/-- The size of the blocks that the keyed hash is built on. -/
def blockSize : Nat := 64

/-- HMAC: the key, hashed if it is longer than a block, is mixed into an inner and an outer message. -/
def hmac (suite : Suite) (key msg : Bytes) : FixedBytes 32 :=
  let short : Bytes := if key.length > blockSize then suite.sha256 key else key
  let block := short ++ List.replicate (blockSize - short.length) 0
  let inner := suite.sha256 (block.map (· ^^^ 0x36) ++ msg)
  suite.sha256 (block.map (· ^^^ 0x5c) ++ inner)

/-- SHA-256, RIPEMD-160 and secp256k1. -/
def standard : Suite where
  sha256 := Sha256.hash
  ripemd160 := Ripemd160.hash
  curve := .secp256k1

end Suite

end ShareCovenant
