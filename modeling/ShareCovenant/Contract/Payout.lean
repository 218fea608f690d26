import ShareCovenant.Contract

/-!
# Payouts

The outputs of a spend, computed from the amount of the coin. Up to the largest amount that the program
can divide, each party that clears the dust threshold is paid its share of units, or the amount is burnt
for the fee if nobody does. Above it, all but the fee returns to the contract in two halves.
-/

namespace ShareCovenant

/-- What becomes of an amount. -/
inductive PayoutMode where
  /-- It returns to the contract in two halves. -/
  | split
  /-- Each party is paid its share of units. -/
  | distribute (unit : UInt64)
  /-- Nobody is paid. -/
  | noPayout
  deriving DecidableEq, Repr

namespace Payout

/-- What becomes of an amount under the terms. -/
def mode (value : UInt64) (terms : Terms) : Except ContractError PayoutMode :=
  if Covenant.maxValue < value then .ok .split
  else if value < terms.fee then .ok .noPayout
  else do
    let unit ← Share.quotient (value - terms.fee) (UInt64.ofNat Terms.shareTotal)
    let cutoff ← Share.minUnitForAll terms.parties
    return if unit < cutoff then .noPayout else .distribute unit

/-- The two halves of an amount, the larger first, locked to a script. -/
def halves (net : UInt64) (lockingScript : Bytes) : List Output :=
  [{ amount := net - net / 2, lockingScript := lockingScript },
   { amount := net / 2, lockingScript := lockingScript }]

/-- The payments of a unit that reach the dust threshold, in the order of the parties. -/
def payments (unit : UInt64) (parties : List Party) (addresses : List Address) : List Output :=
  (parties.zip addresses).filterMap fun (party, address) =>
    let amount := unit * party.share.toUInt64
    if amount < Share.dustThreshold then none
    else some { amount := amount, lockingScript := address.lockingScript }

/-- The outputs, or the one that pays nobody if there are none. -/
def orNobody : List Output → List Output
  | [] => [Covenant.noPayoutOutput]
  | outputs => outputs

/-- The outputs of a spend of an amount held by a contract. -/
def outputs (suite : Suite) (value : UInt64) (terms : Terms) (contract : Contract) :
    Except ContractError (List Output) := do
  let addresses ← terms.validate.mapError .terms
  match ← mode value terms with
  | .split => return orNobody (halves (value - terms.fee) (contract.lockingScript suite))
  | .distribute unit => return orNobody (payments unit terms.parties addresses)
  | .noPayout => return orNobody []

end Payout

end ShareCovenant
