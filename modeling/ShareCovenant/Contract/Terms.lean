import ShareCovenant.Contract.Error
import ShareCovenant.Contract.Party

/-!
# Terms of a contract

The terms are the fee of every spend and the parties in the order in which they are paid. They are valid
if there are two or three parties with addresses of the network, every share is positive, the shares add
up to a thousand, and the fee is in its range. The first rule that fails, in this order for every party in
turn, is the one reported.
-/

namespace ShareCovenant

structure Terms where
  fee : UInt64
  parties : List Party
  deriving DecidableEq, Repr

namespace Terms

/-- The address of a party that keeps the rules for a single party. -/
def checkParty (p : Party) : Except TermsError Address :=
  match Address.decode p.address with
  | .error reason => .error (.badAddress p.address reason)
  | .ok a =>
      if a.hrp ≠ Address.networkHrp then .error (.foreignAddress p.address a.hrp)
      else if p.share.toNat < 1 ∨ shareTotal ≤ p.share.toNat then .error (.shareRange p.address p.share)
      else .ok a

/-- The sum of all shares. -/
def totalShare : List Party → Nat
  | [] => 0
  | p :: ps => p.share.toNat + totalShare ps

/-- Checks the terms, and gives the addresses of the parties. -/
def validate (terms : Terms) : Except TermsError (List Address) := do
  let count := terms.parties.length
  if count < minParties ∨ maxParties < count then throw (.partyCount count)
  if terms.fee.toNat < 1 ∨ maxFee < terms.fee.toNat then throw (.feeRange terms.fee)
  let addresses ← terms.parties.mapM checkParty
  let total := totalShare terms.parties
  if total ≠ shareTotal then throw (.shareTotal total)
  return addresses

end Terms

end ShareCovenant
