import ShareCovenant.Text.Decimal
import ShareCovenant.Text.Unicode

/-!
# Parties

A party is an address and its share in thousandths. Its text is the address, a colon and the share; as an
address has a colon of its own, the last one separates.
-/

namespace ShareCovenant

/-- A payee and its share of every amount, in thousandths. -/
structure Party where
  address : String
  share : UInt32
  deriving DecidableEq, Repr

/-- Why a text is not a party. -/
inductive PartyError where
  | noSeparator (text : String)
  | badShare (text : String) (reason : Decimal.Error)
  deriving DecidableEq, Repr

def PartyError.message : PartyError → String
  | .noSeparator text => s!"party must be <address>:<share>, got {text}"
  | .badShare text _ => s!"invalid share in {text}"

/-- What lies behind an error, where there is more to tell. -/
def PartyError.cause? : PartyError → Option String
  | .noSeparator _ => none
  | .badShare _ reason => some reason.message

/-- Reads a party. -/
def Party.parse (text : String) : Except PartyError Party :=
  match Text.cutLast? ':' text.toList with
  | none => .error (.noSeparator text)
  | some (address, share) =>
      match Decimal.readUInt32 share with
      | .error reason => .error (.badShare text reason)
      | .ok share => .ok { address := String.ofList address, share := share }

/-- The text of a party. -/
def Party.toText (p : Party) : String := p.address ++ ":" ++ toString p.share.toNat

end ShareCovenant
