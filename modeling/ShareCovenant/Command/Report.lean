import ShareCovenant.Command
import ShareCovenant.Contract.Summary
import ShareCovenant.Contract.Verify
import ShareCovenant.Text.Json

/-!
# Carrying out commands

A command logs what it finds and ends with a result or a failure. The result is a JSON value; a failure
is a message and, where there is one, its cause. `Outcome` is what the process shows of this.
-/

namespace ShareCovenant

/-- Why a command fails. -/
structure Failure where
  message : String
  cause : Option String := none
  deriving DecidableEq, Repr

namespace Failure

/-- The lines of a text, each but the first one moved in by four spaces. -/
def indent (text : String) : String := "\n    ".intercalate (text.splitOn "\n")

/-- The failure as it is shown. -/
def text (f : Failure) : String :=
  "Error: " ++ f.message ++
    (match f.cause with
    | none => ""
    | some cause => "\n\nCaused by:\n    " ++ indent cause) ++ "\n"

/-- The message and the cause in one line. -/
def chain (f : Failure) : String :=
  match f.cause with
  | none => f.message
  | some cause => f.message ++ ": " ++ cause

def ofContract (e : ContractError) : Failure := { message := e.message }

def ofKey (e : KeyError) : Failure := ofContract (.key e)

def ofParty (e : PartyError) : Failure := { message := e.message, cause := e.cause? }

def ofDecode (e : DecodeError) : Failure := { message := e.message, cause := e.cause? }

end Failure

/-- A log and how the command ended. -/
structure Report where
  log : String
  result : Except Failure String

/-- What a process shows: its exit code and its two outputs. -/
structure Outcome where
  code : Nat
  stdout : String
  stderr : String
  deriving DecidableEq, Repr

/-- A failure comes after the log, and with an exit code of one. -/
def Report.outcome (r : Report) : Outcome :=
  match r.result with
  | .ok out => { code := 0, stdout := out, stderr := r.log }
  | .error f => { code := 1, stdout := "", stderr := r.log ++ f.text }

/-- A command line that cannot be read has an exit code of its own. -/
def Outcome.rejected : Outcome := { code := 2, stdout := "", stderr := "invalid arguments\n" }

/-! ## Results -/

def Party.toJson (p : Party) : Json := .obj [("address", .str p.address), ("share", .num p.share.toNat)]

def Output.toJson (o : Output) : Json :=
  .obj [("value", .num o.amount.toNat), ("script", .str (Hex.encode o.lockingScript))]

def ContractSummary.toJson (s : ContractSummary) : Json :=
  .obj [("address", .str s.address), ("hash", .str s.hash), ("fee", .num s.fee.toNat),
    ("parties", .arr (s.parties.map Party.toJson)), ("dustValue", .num s.dustValue),
    ("minValue", .num s.minValue.toNat), ("maxValue", .num s.maxValue.toNat)]

def SpendSummary.toJson (s : SpendSummary) : Json :=
  .obj [("tx", .str (Hex.encode s.tx)), ("txid", .str s.txid.toText), ("size", .num s.tx.length),
    ("outputs", .arr (s.outputs.map Output.toJson))]

/-- The result of verifying a transaction. -/
def auditJson (txid : Txid) : Json := .obj [("txid", .str txid.toText), ("valid", .bool true)]

namespace Command

variable (suite : Suite)

/-! ## Options -/

/-- The key of the options, or the published one. -/
def signingKey (key : Option String) : Except Failure suite.curve.Scalar :=
  (match key with
  | some text => Key.parse suite text
  | none => Key.published suite).mapError .ofKey

/-- The parties of the options. -/
def parseParties (texts : List String) : Except Failure (List Party) :=
  texts.mapM fun text => (Party.parse text).mapError .ofParty

/-- The key and the terms of the options. -/
def keyAndTerms (options : ContractOptions) : Except Failure (suite.curve.Scalar × Terms) := do
  let key ← signingKey suite options.key
  let parties ← parseParties options.parties
  return (key, { fee := options.fee, parties := parties })

/-! ## Commands -/

/-- Describes a contract. -/
def describeSummary (options : ContractOptions) : Except Failure ContractSummary := do
  let (key, terms) ← keyAndTerms suite options
  (ContractSummary.describe key terms).mapError .ofContract

def describeReport (options : ContractOptions) : Report :=
  match describeSummary suite options with
  | .error f => { log := "", result := .error f }
  | .ok summary =>
      { log := "Contract address: " ++ summary.address ++ "\n"
        result := .ok (summary.toJson.pretty ++ "\n") }

/-- Spends a coin. -/
def spendSummary (options : ContractOptions) (outpoint : String) (value : UInt64) :
    Except Failure SpendSummary := do
  let (key, terms) ← keyAndTerms suite options
  let coin ← (Coin.parse outpoint value).mapError fun e => { message := e.message }
  if value = 0 then throw { message := "--value must be positive" }
  let tx ← (Spend.create key coin terms).mapError fun e =>
    { message := "cannot spend " ++ outpoint, cause := some e.message }
  return SpendSummary.ofTransaction suite tx

/-- The line that logs an output. -/
def outputLine (o : Output) : String := s!"  {o.amount.toNat} sats -> {Hex.encode o.lockingScript}\n"

def spendReport (options : ContractOptions) (outpoint : String) (value : UInt64) : Report :=
  match spendSummary suite options outpoint value with
  | .error f => { log := "", result := .error f }
  | .ok summary =>
      { log := String.join (summary.outputs.map outputLine)
        result := .ok (summary.toJson.pretty ++ "\n") }

/-- A transaction, the terms of the contract that it should spend from, and that contract. -/
structure AuditCase where
  tx : Transaction
  terms : Terms
  contract : Contract

/-- Reads what is to be verified. -/
def auditCase (options : ContractOptions) (tx : String) : Except Failure AuditCase := do
  let bytes ← (Hex.decode (Text.byteChars (Text.trim tx))).mapError fun e => { message := e.message }
  let tx ← (Transaction.decode bytes).mapError .ofDecode
  let (key, terms) ← keyAndTerms suite options
  let contract ← (Contract.compile (Key.publicKey key) terms).mapError .ofContract
  return { tx := tx, terms := terms, contract := contract }

/-- The lines that log what is verified. -/
def auditHeading (case : AuditCase) (value input : UInt64) : String :=
  "=== Spend Verification ===\n\n" ++
  s!"Txid: {(case.tx.txid suite).toText}\n" ++
  s!"Contract address: {(case.contract.address suite).encode}\n" ++
  s!"Input: {input.toNat} ({value.toNat} sats)\n\n"

/-- Whether the outputs are those that the terms prescribe. -/
def checkOutputs (case : AuditCase) (value : UInt64) : Except Failure Unit := do
  let expected ← (Payout.outputs suite value case.terms case.contract).mapError .ofContract
  if case.tx.outputs ≠ expected then
    throw { message := s!"outputs differ from the payout for {value.toNat} sats" }

/-- Verifies the script and then the outputs. -/
def auditChecks (case : AuditCase) (value input : UInt64) : Report :=
  let heading := auditHeading suite case value input
  match Contract.verifySpend suite case.tx input.toNat value case.contract with
  | .error e =>
      { log := heading
        result := .error
          { message := s!"input {input.toNat} rejected by the contract", cause := some e.message } }
  | .ok () =>
      let accepted := heading ++ "  ✓ Script accepted\n"
      match checkOutputs suite case value with
      | .error f => { log := accepted, result := .error f }
      | .ok () =>
          { log := accepted ++ s!"  ✓ Outputs match payout ({case.tx.outputs.length} output(s))\n"
            result := .ok ((auditJson (case.tx.txid suite)).compact ++ "\n") }

def auditReport (options : ContractOptions) (tx : String) (value input : UInt64) : Report :=
  match auditCase suite options tx with
  | .error f => { log := "", result := .error f }
  | .ok case => auditChecks suite case value input

/-- Carries out a command. -/
def report : Command → Report
  | .describe options => describeReport suite options
  | .spend options outpoint value => spendReport suite options outpoint value
  | .audit options tx value input => auditReport suite options tx value input

/-- Runs a tool on its command line and the key of the environment. -/
def run (tool : Tool) (envKey : Option String) (args : List String) : Outcome :=
  match parse? tool envKey args with
  | none => .rejected
  | some command => (report suite command).outcome

end Command

end ShareCovenant
