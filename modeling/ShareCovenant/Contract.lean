import ShareCovenant.Contract.Covenant

/-!
# Contracts

A contract is a script, and coins of the contract are locked to its hash. The script of given terms must
be long enough for its length to take three bytes, and short enough for the whole preimage, which contains
it, to be one element.
-/

namespace ShareCovenant

structure Contract where
  /-- The bytes of the covenant program. -/
  script : Bytes
  deriving DecidableEq, Repr

namespace Contract

/-- The hash that coins of the contract are locked to. -/
def hash (suite : Suite) (c : Contract) : FixedBytes 20 := suite.hash160 c.script

/-- The address of the contract. -/
def address (suite : Suite) (c : Contract) : Address where
  hrp := Address.networkHrp
  kind := .scriptHash
  hash := c.hash suite

/-- The script of outputs that pay to the contract. -/
def lockingScript (suite : Suite) (c : Contract) : Bytes := scriptHashLock (c.hash suite)

/-- The longest script whose length takes one byte. -/
def maxShortScript : Nat := 252

/-- The size of a preimage without the script, whose length takes three bytes. -/
def preimageOverhead : Nat := 4 + 32 + 32 + 36 + 3 + 8 + 4 + 32 + 8

/-- Compiles the contract of a public key and terms. -/
def compile (pubkey : FixedBytes 33) (terms : Terms) : Except ContractError Contract := do
  let program ← Covenant.program pubkey terms
  let script ← program.lower.mapError .build
  if script.length ≤ maxShortScript ∨ maxElementSize < script.length + preimageOverhead then
    throw (.scriptSize script.length)
  return { script := script }

end Contract

end ShareCovenant
