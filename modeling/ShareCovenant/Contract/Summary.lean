import ShareCovenant.Contract.Spend

/-!
# Summaries

What a payer needs to know of a contract before sending to it, and what a spend amounts to. The least fee
is the size of the smallest spend, which is the one that pays nobody.
-/

namespace ShareCovenant

/-- A contract as it is published. -/
structure ContractSummary where
  address : String
  hash : String
  fee : UInt64
  parties : List Party
  /-- The size of the smallest spend: with a lower fee, no spend pays for its size. -/
  dustValue : Nat
  /-- The least amount of which some party is paid. -/
  minValue : UInt64
  /-- The largest amount that is distributed. -/
  maxValue : UInt64
  deriving DecidableEq, Repr

/-- A transaction as it is published. -/
structure SpendSummary where
  tx : Bytes
  txid : Txid
  outputs : List Output
  deriving DecidableEq, Repr

/-- The coin of an amount at the first output of the transaction with an all-zero identifier. -/
def Coin.placeholder (value : UInt64) : Coin where
  outpoint := { txid := FixedBytes.zero 32, index := 0 }
  value := value

/-- Summarizes the contract of a key and terms. Of a coin worth the fee alone, nobody is paid. -/
def ContractSummary.describe {suite : Suite} (key : suite.curve.Scalar) (terms : Terms) :
    Except ContractError ContractSummary := do
  let contract ← Contract.compile (Key.publicKey key) terms
  let cutoff ← Share.minUnitForAll terms.parties
  let smallest ← Spend.build key (Coin.placeholder terms.fee) terms
  return { address := (contract.address suite).encode
           hash := Hex.encode (contract.hash suite)
           fee := terms.fee
           parties := terms.parties
           dustValue := smallest.size
           minValue := UInt64.ofNat Terms.shareTotal * cutoff + terms.fee
           maxValue := Covenant.maxValue }

/-- Summarizes a transaction. -/
def SpendSummary.ofTransaction (suite : Suite) (tx : Transaction) : SpendSummary where
  tx := tx.bytes
  txid := tx.txid suite
  outputs := tx.outputs

end ShareCovenant
