import ShareCovenant.Address
import ShareCovenant.Key
import ShareCovenant.Script.Error
import ShareCovenant.Transaction.Reader

/-!
# Contract errors

`TermsError` says what is wrong with the terms of a contract, `ContractError` why a contract or a spend of
it cannot be made.
-/

namespace ShareCovenant

/-! ## Limits -/

namespace Terms

def minParties : Nat := 2

def maxParties : Nat := 3

/-- What the shares of all parties add up to. -/
def shareTotal : Nat := 1000

/-- The largest fee: with two numbers of 24 bits added to it, it still is a number of four bytes. -/
def maxFee : Nat := 2113929217

end Terms

/-- What no contract can be made of. -/
inductive TermsError where
  | partyCount (got : Nat)
  | feeRange (fee : UInt64)
  | badAddress (address : String) (reason : AddressError)
  /-- An address of another network. -/
  | foreignAddress (address hrp : String)
  | shareRange (address : String) (share : UInt32)
  | shareTotal (total : Nat)
  deriving DecidableEq, Repr

def TermsError.message : TermsError → String
  | .partyCount got =>
      s!"the contract must have between {Terms.minParties} and {Terms.maxParties} parties, got {got}"
  | .feeRange fee => s!"the fee must be between 1 and {Terms.maxFee}, got {fee.toNat}"
  | .badAddress address reason => s!"invalid address {address}: {reason.message}"
  | .foreignAddress address hrp => s!"only ecash addresses are acceptable, got {hrp} for {address}"
  | .shareRange address share =>
      s!"shares must be a value between 1 and 999, got {share.toNat} for {address}"
  | .shareTotal total => s!"shares must add to {Terms.shareTotal}, got {total}"

/-- Why a contract or a spend cannot be made. -/
inductive ContractError where
  | terms (e : TermsError)
  | key (e : KeyError)
  /-- The transaction is larger than the fee pays for. -/
  | feeTooLow (fee : UInt64) (size : Nat)
  | divisionByZero (numerator : UInt64)
  | build (e : BuildError)
  /-- The script is too short or too long for its own checks. -/
  | scriptSize (size : Nat)
  | inputIndex (index inputs : Nat)
  | outputList (e : DecodeError)
  deriving DecidableEq, Repr

def ContractError.message : ContractError → String
  | .terms e => e.message
  | .key e => s!"invalid private key: {e.message}"
  | .feeTooLow fee size =>
      s!"the fee must be at least 1 sat per byte, that is, {size} or more (got {fee.toNat})"
  | .divisionByZero numerator => s!"division by zero ({numerator.toNat} / 0)"
  | .build e => s!"script build error: {e.message}"
  | .scriptSize size => s!"script build error: compiled script has unsupported size {size}"
  | .inputIndex index inputs =>
      s!"script build error: input index {index} out of bounds for {inputs} inputs"
  | .outputList e => s!"script build error: malformed output list: {e.message}"

end ShareCovenant
