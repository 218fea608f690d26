import ShareCovenant.Bytes.Hex
import ShareCovenant.Crypto.Suite
import ShareCovenant.Transaction.Witness

/-!
# Transactions

A transaction spends outputs of earlier ones and creates new outputs. On the wire it is its version, the
inputs, the outputs and the lock time; with witnesses, or without inputs, a marker and a flag stand before
the inputs and the witnesses before the lock time. The identifier of a transaction is the hash of the
form without them.
-/

namespace ShareCovenant

/-- The identifier of a transaction, in the byte order of the hash. -/
abbrev Txid := FixedBytes 32

/-- Identifiers are shown with their bytes reversed. -/
def Txid.toText (txid : Txid) : String := Hex.encode txid.val.reverse

/-- Reads an identifier as it is shown. -/
def Txid.ofText? (text : List Char) : Option Txid :=
  (Hex.decodeFixed? 32 text).map fun bytes => ⟨bytes.val.reverse, by simp [bytes.property]⟩

/-- An output of a transaction, by the transaction's identifier and its index. -/
structure OutPoint where
  txid : Txid
  index : UInt32
  deriving DecidableEq, Repr

/-- Spends an output. -/
structure Input where
  outpoint : OutPoint
  /-- The script that unlocks the output. -/
  unlockingScript : Bytes := []
  sequence : UInt32 := 0xffffffff
  witness : Witness := []
  deriving DecidableEq, Repr

/-- Holds an amount under a script. -/
structure Output where
  amount : UInt64
  lockingScript : Bytes
  deriving DecidableEq, Repr

structure Transaction where
  version : Int32 := 2
  inputs : List Input
  outputs : List Output
  lockTime : UInt32 := 0
  deriving DecidableEq, Repr

/-! ## Outpoints and inputs -/

def OutPoint.bytes (o : OutPoint) : Bytes := o.txid ++ LittleEndian.encode 4 o.index.toNat

def OutPoint.read : Reader OutPoint := do
  let txid ← Reader.fixed 32
  let index ← Reader.number 4
  return { txid := txid, index := UInt32.ofNat index }

/-- The outpoints one after the other, without their number. -/
def OutPoint.listBytes (os : List OutPoint) : Bytes := os.flatMap OutPoint.bytes

/-- An input without its witness. -/
def Input.bytes (i : Input) : Bytes :=
  i.outpoint.bytes ++ CompactSize.encodeBytes i.unlockingScript ++
    LittleEndian.encode 4 i.sequence.toNat

def Input.read : Reader Input := do
  let outpoint ← OutPoint.read
  let script ← CompactSize.readBytes
  let sequence ← Reader.number 4
  return { outpoint := outpoint, unlockingScript := script, sequence := UInt32.ofNat sequence }

/-! ## Outputs -/

namespace Output

def bytes (o : Output) : Bytes :=
  LittleEndian.encode 8 o.amount.toNat ++ CompactSize.encodeBytes o.lockingScript

def read : Reader Output := do
  let amount ← Reader.number 8
  let script ← CompactSize.readBytes
  return { amount := UInt64.ofNat amount, lockingScript := script }

/-- The outputs one after the other, without their number. -/
def listBytes (os : List Output) : Bytes := os.flatMap bytes

end Output

/-! ## Whole transactions -/

namespace Transaction

/-- Whether the form with marker and flag is used. -/
def hasMarker (tx : Transaction) : Bool :=
  tx.inputs.any (fun i => !i.witness.isEmpty) || tx.inputs.isEmpty

def inputBytes (tx : Transaction) : Bytes :=
  CompactSize.encode tx.inputs.length ++ tx.inputs.flatMap Input.bytes

def outputBytes (tx : Transaction) : Bytes :=
  CompactSize.encode tx.outputs.length ++ Output.listBytes tx.outputs

def versionBytes (tx : Transaction) : Bytes := LittleEndian.encode 4 tx.version.toUInt32.toNat

def lockTimeBytes (tx : Transaction) : Bytes := LittleEndian.encode 4 tx.lockTime.toNat

/-- The form without marker, flag and witnesses. -/
def coreBytes (tx : Transaction) : Bytes :=
  tx.versionBytes ++ tx.inputBytes ++ tx.outputBytes ++ tx.lockTimeBytes

/-- The transaction on the wire. -/
def bytes (tx : Transaction) : Bytes :=
  if tx.hasMarker then
    tx.versionBytes ++ [0x00, 0x01] ++ tx.inputBytes ++ tx.outputBytes ++
      tx.inputs.flatMap (fun i => i.witness.bytes) ++ tx.lockTimeBytes
  else tx.coreBytes

/-- The size on the wire. -/
def size (tx : Transaction) : Nat := tx.bytes.length

/-- The identifier. -/
def txid (suite : Suite) (tx : Transaction) : Txid := suite.sha256d tx.coreBytes

/-- Reads the witness of every input. -/
def readWitnesses : List Input → Reader (List Input)
  | [] => return []
  | i :: is => do
      let witness ← Witness.read
      let others ← readWitnesses is
      return { i with witness := witness } :: others

/-- Reads what follows the marker. -/
def readMarked (version : Int32) : Reader Transaction := do
  let flag ← Reader.byte
  if flag ≠ 1 then throw (.unknownFlag flag)
  let bare ← CompactSize.readList Input.read
  let outputs ← CompactSize.readList Output.read
  let inputs ← readWitnesses bare
  if !inputs.isEmpty && inputs.all (fun i => i.witness.isEmpty) then throw .noWitnesses
  let lockTime ← Reader.number 4
  return { version := version, inputs := inputs, outputs := outputs, lockTime := UInt32.ofNat lockTime }

/-- Reads a transaction. An empty input list is the marker of the form with witnesses. -/
def read : Reader Transaction := do
  let version := Int32.ofUInt32 (UInt32.ofNat (← Reader.number 4))
  let inputs ← CompactSize.readList Input.read
  if inputs.isEmpty then readMarked version
  else
    let outputs ← CompactSize.readList Output.read
    let lockTime ← Reader.number 4
    return { version := version, inputs := inputs, outputs := outputs, lockTime := UInt32.ofNat lockTime }

/-- Reads a transaction that takes up all of the bytes. -/
def decode (bytes : Bytes) : Except DecodeError Transaction :=
  match read bytes with
  | .error e => .error e
  | .ok (tx, []) => .ok tx
  | .ok (_, _ :: _) => .error .trailingBytes

/-- The outpoints that a transaction spends. -/
def outpoints (tx : Transaction) : List OutPoint := tx.inputs.map Input.outpoint

/-- The transaction with another unlocking script at one of its inputs. -/
def setUnlockingScript (tx : Transaction) (index : Nat) (script : Bytes) : Transaction :=
  { tx with inputs := tx.inputs.modify index fun i => { i with unlockingScript := script } }

end Transaction

end ShareCovenant
