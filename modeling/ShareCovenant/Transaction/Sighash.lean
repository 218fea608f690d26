import ShareCovenant.Transaction

/-!
# The signed digest

What a signature of an input signs is a preimage of ten fields: hashes of all outpoints, sequences and
outputs, and the fields of the input itself. Spend scripts push it in nine fragments, the last of which
joins the lock time and the type of the signature.
-/

namespace ShareCovenant

/-- The type of a signature that commits to all inputs and outputs, with the bit that keeps it from being
valid on other chains. -/
def sighashAllForkId : UInt32 := 0x41

/-- The fields that the signature of an input commits to. -/
structure Preimage where
  version : Int32
  hashPrevouts : FixedBytes 32
  hashSequence : FixedBytes 32
  outpoint : OutPoint
  /-- The script that runs when the input is verified. -/
  scriptCode : Bytes
  /-- The amount of the output being spent. -/
  value : UInt64
  sequence : UInt32
  hashOutputs : FixedBytes 32
  lockTime : UInt32
  sighashType : UInt32
  deriving DecidableEq, Repr

namespace Preimage

/-- The sequences of all inputs, one after the other. -/
def sequenceBytes (tx : Transaction) : Bytes :=
  tx.inputs.flatMap fun i => LittleEndian.encode 4 i.sequence.toNat

/-- The preimage of an input of a transaction. -/
def ofInput (suite : Suite) (tx : Transaction) (input : Input) (scriptCode : Bytes) (value : UInt64)
    (sighashType : UInt32) : Preimage where
  version := tx.version
  hashPrevouts := suite.sha256d (OutPoint.listBytes tx.outpoints)
  hashSequence := suite.sha256d (sequenceBytes tx)
  outpoint := input.outpoint
  scriptCode := scriptCode
  value := value
  sequence := input.sequence
  hashOutputs := suite.sha256d (Output.listBytes tx.outputs)
  lockTime := tx.lockTime
  sighashType := sighashType

/-- The preimage of the input at an index, if there is one. -/
def ofIndex? (suite : Suite) (tx : Transaction) (index : Nat) (scriptCode : Bytes) (value : UInt64)
    (sighashType : UInt32) : Option Preimage :=
  tx.inputs[index]?.map fun input => ofInput suite tx input scriptCode value sighashType

/-- The preimage in the pieces that spend scripts push. -/
def fragments (p : Preimage) : List Bytes :=
  [LittleEndian.encode 4 p.version.toUInt32.toNat,
   p.hashPrevouts,
   p.hashSequence,
   p.outpoint.bytes,
   CompactSize.encodeBytes p.scriptCode,
   LittleEndian.encode 8 p.value.toNat,
   LittleEndian.encode 4 p.sequence.toNat,
   p.hashOutputs,
   LittleEndian.encode 4 p.lockTime.toNat ++ LittleEndian.encode 4 p.sighashType.toNat]

/-- The whole preimage. -/
def bytes (p : Preimage) : Bytes := p.fragments.flatten

/-- The message that is signed. -/
def sighash (suite : Suite) (p : Preimage) : FixedBytes 32 := suite.sha256d p.bytes

end Preimage

end ShareCovenant
