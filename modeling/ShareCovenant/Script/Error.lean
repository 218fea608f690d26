import ShareCovenant.Bytes.Hex

/-!
# Script errors

The causes for which running a script stops, and for which a script cannot be written.
-/

namespace ShareCovenant

/-- Why a script stops. -/
inductive ScriptError where
  /-- A push announces more bytes than the script has. -/
  | truncatedPush
  /-- An unlocking script holds an opcode that does more than push. -/
  | notPushOnly
  /-- The script to run is not the one that the output commits to. -/
  | scriptHash
  | inputIndex (index : Nat)
  | elementSize (size : Nat)
  | stackUnderflow
  | verify (code : UInt8)
  | numberOverflow (size : Nat)
  | nonMinimal
  | splitRange
  | operandSize
  | divisionByZero
  | impossibleEncoding
  | unbalancedConditional
  | unsupported (code : UInt8)
  | signatureEncoding
  /-- A signature that is not empty is wrong. -/
  | nullFail
  /-- The script does not end with one true element. -/
  | evalFalse
  deriving DecidableEq, Repr

/-- A code in hexadecimal. -/
def codeText (code : UInt8) : String := "0x" ++ Hex.encode [code]

def ScriptError.message : ScriptError → String
  | .truncatedPush => "malformed script: unexpected end of script"
  | .notPushOnly => "spend script must only push data"
  | .scriptHash => "redeem script does not match the contract hash"
  | .inputIndex index => s!"input index {index} out of bounds"
  | .elementSize size => s!"element of {size} bytes exceeds the size limit"
  | .stackUnderflow => "stack underflow"
  | .verify code => s!"opcode {codeText code} failed its check"
  | .numberOverflow size => s!"number of {size} bytes is out of range"
  | .nonMinimal => "number is not minimally encoded"
  | .splitRange => "split position out of range"
  | .operandSize => "operands must have the same size"
  | .divisionByZero => "division by zero"
  | .impossibleEncoding => "number does not fit the requested size"
  | .unbalancedConditional => "unbalanced conditional"
  | .unsupported code => s!"unsupported opcode {codeText code}"
  | .signatureEncoding => "invalid signature encoding"
  | .nullFail => "non-empty signature failed to verify"
  | .evalFalse => "script evaluated to false or left extra items on the stack"

/-- Why a script cannot be written. -/
inductive BuildError where
  /-- The length of a push has no form. -/
  | oversizedPush (size : Nat)
  deriving DecidableEq, Repr

def BuildError.message : BuildError → String
  | .oversizedPush size =>
      s!"attempt to prepare {size} bytes to be pushed into script but the limit is 2^32-1"

end ShareCovenant
