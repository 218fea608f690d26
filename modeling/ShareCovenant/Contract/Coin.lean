import ShareCovenant.Text.Decimal
import ShareCovenant.Text.Unicode
import ShareCovenant.Transaction

/-!
# Coins

A coin is an output of an earlier transaction with its amount. The text of its place is the identifier of
the transaction as it is shown, a colon and the index of the output.
-/

namespace ShareCovenant

/-- An output that can be spent. -/
structure Coin where
  outpoint : OutPoint
  value : UInt64
  deriving DecidableEq, Repr

/-- What is wrong with the text of an outpoint. -/
inductive OutPointFault where
  | noSeparator
  | badTxid
  | badIndex
  deriving DecidableEq, Repr

/-- A text that is not an outpoint. -/
structure OutPointError where
  text : String
  fault : OutPointFault
  deriving DecidableEq, Repr

def OutPointFault.message : OutPointFault → String
  | .noSeparator => "expected <txid>:<vout>"
  | .badTxid => "txid must be 64 hex characters"
  | .badIndex => "bad output index"

def OutPointError.message (e : OutPointError) : String := s!"invalid utxo {e.text}: {e.fault.message}"

/-- Reads an outpoint, which the first colon cuts in two. -/
def OutPoint.parse (text : String) : Except OutPointError OutPoint :=
  match Text.cutFirst? ':' text.toList with
  | none => .error { text := text, fault := .noSeparator }
  | some (txid, index) =>
      match Txid.ofText? txid with
      | none => .error { text := text, fault := .badTxid }
      | some txid =>
          match Decimal.readUInt32 index with
          | .error _ => .error { text := text, fault := .badIndex }
          | .ok index => .ok { txid := txid, index := index }

/-- The text of an outpoint. -/
def OutPoint.toText (o : OutPoint) : String := o.txid.toText ++ ":" ++ toString o.index.toNat

/-- The coin of a given value at the outpoint that a text names. -/
def Coin.parse (text : String) (value : UInt64) : Except OutPointError Coin :=
  (OutPoint.parse text).map fun outpoint => { outpoint := outpoint, value := value }

end ShareCovenant
