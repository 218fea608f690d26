import ShareCovenant.Contract.Share
import ShareCovenant.Script.Program
import ShareCovenant.Transaction

/-!
# The covenant program

The program of a contract admits a spend only with the outputs that its terms prescribe. It starts with
twelve elements, from the bottom:

    prevouts outputs signature version hashPrevouts hashSequence outpoint scriptCode value sequence
    hashOutputs lockTimeAndType

It compares prevouts and outputs with their hashes, checks the outputs against the amount, and at the end
joins the nine last elements to the preimage and checks the one signature twice: as a signature of the
transaction and as a signature of that preimage. This ties every element to the transaction.
-/

namespace ShareCovenant.Covenant

open Node (ofOpcode checking)

/-- The largest amount that script numbers can divide. -/
def maxValue : UInt64 := 0x7fffffff

/-- The output of a spend that pays nobody: no amount, and a script that nothing unlocks. -/
def noPayoutOutput : Output := { amount := 0, lockingScript := [Opcode.unspendable] }

/-! ## Binding the transaction -/

/-- Compares the hashes of prevouts and outputs, and the prevouts with the outpoint, so that there is one
input. Leaves `outputs scriptCode value` on top. -/
def bindPreimage : Program :=
  [.num 11, ofOpcode .roll, ofOpcode .dup, ofOpcode .hash256, .num 9, ofOpcode .pick,
   checking .equalVerify,
   .num 6, ofOpcode .pick, checking .equalVerify,
   ofOpcode .dupSecond, .num 11, ofOpcode .roll, ofOpcode .dup, ofOpcode .hash256, ofOpcode .rot,
   checking .equalVerify,
   .num 5, ofOpcode .pick, .num 5, ofOpcode .pick]

/-- Joins the preimage and checks the signature, without its type byte, a second time over it. -/
def checkSignature (pubkey : FixedBytes 33) : Program :=
  List.replicate 8 (ofOpcode .cat) ++
  [.data pubkey, ofOpcode .dup3, ofOpcode .nip, checking .checkSigVerify,
   ofOpcode .rot, .num 64, ofOpcode .split, ofOpcode .drop, ofOpcode .rot, ofOpcode .sha256,
   ofOpcode .rot, ofOpcode .checkDataSig]

/-! ## Amounts above the largest one -/

/-- Takes the three low bytes off an amount as a number that is not negative, and brings the element below
the amount on top. -/
def takeLimb : Program :=
  [.num 3, ofOpcode .split, ofOpcode .swap, .data [0x00], ofOpcode .cat, ofOpcode .binToNum, ofOpcode .rot]

/-- The length of a script that locks to a script hash, and its first two bytes. -/
def ownScriptStart : Bytes := [23, 0xa9, 0x14]

/-- Two outputs to this contract whose amounts and the fee add up to the amount. The sum is taken in two
limbs of three bytes and one of two. -/
def overflowSplit (fee : Int) : Program :=
  [.data ownScriptStart, ofOpcode .rot, .num 3, ofOpcode .split, ofOpcode .nip, ofOpcode .hash160,
   .data [Opcode.equal.code], ofOpcode .cat, ofOpcode .cat,
   ofOpcode .rot, .num 8, ofOpcode .split, .num 24, ofOpcode .split, .num 8, ofOpcode .split,
   ofOpcode .rot, ofOpcode .dup, .num 5, ofOpcode .roll, checking .equalVerify, checking .equalVerify] ++
  takeLimb ++ takeLimb ++
  [ofOpcode .add, .num fee, ofOpcode .add, .num 4, ofOpcode .numToBin, .num 3, ofOpcode .split,
   ofOpcode .binToNum, ofOpcode .swap2] ++
  takeLimb ++ takeLimb ++
  [ofOpcode .add, .num 3, ofOpcode .roll, ofOpcode .add, .num 4, ofOpcode .numToBin, .num 3,
   ofOpcode .split, ofOpcode .binToNum, ofOpcode .swap2,
   ofOpcode .binToNum, ofOpcode .swap, ofOpcode .binToNum, ofOpcode .add, ofOpcode .add,
   .num 2, ofOpcode .numToBin, ofOpcode .cat, ofOpcode .cat, checking .equalVerify]

/-! ## Amounts that are distributed -/

/-- The bytes of the output that pays nobody, from the last one to the first, without the zeros of the
amount. -/
def noPayoutNumber : Bytes := Number.dropHighZeros noPayoutOutput.bytes.reverse

/-- The only output is the one that pays nobody. -/
def nobodyPaid : Program :=
  [ofOpcode .drop, ofOpcode .reverseBytes, ofOpcode .binToNum, .data noPayoutNumber, checking .equalVerify]

/-- Takes the next output off `unit outputs` and checks that it pays a share of units to a script. -/
def payParty (share : UInt32) (lockingScript : Bytes) : Program :=
  [.num 8, ofOpcode .split, .num 1, ofOpcode .split, ofOpcode .swap, ofOpcode .split, ofOpcode .rot,
   ofOpcode .rot, .data lockingScript, checking .equalVerify, ofOpcode .binToNum, .num share.toNat,
   ofOpcode .div, .num 2, ofOpcode .pick, checking .equalVerify]

/-- Pays a party from its least unit on. -/
def payIfDue (party : Party) (address : Address) : Except ContractError Program := do
  let unit ← Share.minUnit party.share
  return [ofOpcode .dupSecond, .num unit.toNat, ofOpcode .atLeast,
    .ifThen (payParty party.share address.lockingScript)]

/-- Pays the parties in order, and nobody else. -/
def payAll : List (Party × Address) → Except ContractError Program
  | [] => .ok [ofOpcode .size, .num 0, checking .equalVerify, ofOpcode .drop2]
  | (party, address) :: rest => do
      let first ← payIfDue party address
      let others ← payAll rest
      return first ++ others

/-- Computes the unit and pays the parties, or nobody if the unit is below every party's least one. -/
def distribution (fee : Int) (parties : List Party) (addresses : List Address) :
    Except ContractError Program := do
  let payout ← payAll (parties.zip addresses)
  let cutoff ← Share.minUnitForAll parties
  return [ofOpcode .nip, ofOpcode .binToNum, .num fee, ofOpcode .sub, .num Terms.shareTotal,
    ofOpcode .div, ofOpcode .dup, .num cutoff.toNat, ofOpcode .lessThan,
    .ifElse nobodyPaid (ofOpcode .swap :: payout)]

/-! ## The whole program -/

/-- The bits that only amounts above the largest one have. -/
def overflowMask : Bytes := LittleEndian.encode 8 (~~~maxValue).toNat

/-- The program of a contract. -/
def program (pubkey : FixedBytes 33) (terms : Terms) : Except ContractError Program := do
  let addresses ← terms.validate.mapError .terms
  let fee : Int := terms.fee.toNat
  let distributed ← distribution fee terms.parties addresses
  return bindPreimage ++ [ofOpcode .dup, .data overflowMask, ofOpcode .bitAnd,
    .ifElse (overflowSplit fee) distributed] ++ checkSignature pubkey

end ShareCovenant.Covenant
