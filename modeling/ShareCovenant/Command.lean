import ShareCovenant.Command.Arguments
import ShareCovenant.Text.Decimal

/-!
# Commands

There are two tools. The splitter describes a contract or spends one of its coins, and the auditor
verifies a spend. Both take the terms of the contract as options, and the key from an option or from the
environment.
-/

namespace ShareCovenant

/-- The options that name a contract. -/
structure ContractOptions where
  fee : UInt64
  /-- The texts of the parties. -/
  parties : List String
  key : Option String
  deriving DecidableEq, Repr

/-- What a tool is asked to do. -/
inductive Command where
  /-- Describe a contract. -/
  | describe (contract : ContractOptions)
  /-- Spend a coin of a value at an outpoint. -/
  | spend (contract : ContractOptions) (outpoint : String) (value : UInt64)
  /-- Verify an input of a transaction that spends a coin of a value. -/
  | audit (contract : ContractOptions) (tx : String) (value : UInt64) (input : UInt64)
  deriving DecidableEq, Repr

/-- The two tools. -/
inductive Tool where
  | splitter
  | auditor
  deriving DecidableEq, Repr

namespace Command

open Arguments (Spec Values)

/-- The environment variable that holds a key for which there is no option. -/
def keyVariable : String := "XEC_SPLIT_KEY"

def contractSpecs : List Spec :=
  [{ name := "fee" }, { name := "party", repeats := true }, { name := "key" }]

def spendSpecs : List Spec := contractSpecs ++ [{ name := "utxo" }, { name := "value" }]

def auditSpecs : List Spec := contractSpecs ++ [{ name := "tx" }, { name := "value" }, { name := "input" }]

/-- The number that an option holds. -/
def number? (text : String) : Option UInt64 := (Decimal.readUInt64 text.toList).toOption

/-- The number of an option that must be there. -/
def requiredNumber? (values : Values) (name : String) : Option UInt64 := do
  number? (← Arguments.get? values name)

/-- The number of an option, or another one if it is not there. -/
def numberOr? (values : Values) (name : String) (missing : UInt64) : Option UInt64 :=
  match Arguments.get? values name with
  | some text => number? text
  | none => some missing

/-- The options that name a contract: a fee and at least one party. -/
def contractOptions? (envKey : Option String) (values : Values) : Option ContractOptions := do
  let fee ← requiredNumber? values "fee"
  let parties := Arguments.getAll values "party"
  if parties.isEmpty then none
  else some { fee := fee, parties := parties, key := (Arguments.get? values "key").or envKey }

def describe? (envKey : Option String) (args : List String) : Option Command := do
  let values ← Arguments.read contractSpecs args
  return .describe (← contractOptions? envKey values)

def spend? (envKey : Option String) (args : List String) : Option Command := do
  let values ← Arguments.read spendSpecs args
  let contract ← contractOptions? envKey values
  let outpoint ← Arguments.get? values "utxo"
  return .spend contract outpoint (← requiredNumber? values "value")

def audit? (envKey : Option String) (args : List String) : Option Command := do
  let values ← Arguments.read auditSpecs args
  let contract ← contractOptions? envKey values
  let tx ← Arguments.get? values "tx"
  return .audit contract tx (← requiredNumber? values "value") (← numberOr? values "input" 0)

/-- Reads the command line of a tool. -/
def parse? (tool : Tool) (envKey : Option String) (args : List String) : Option Command :=
  match tool, args with
  | .auditor, args => audit? envKey args
  | .splitter, "contract" :: args => describe? envKey args
  | .splitter, "tx" :: args => spend? envKey args
  | .splitter, _ => none

end Command

end ShareCovenant
