import ShareCovenant.Bytes

/-!
# Opcodes

The opcodes that contracts use, with their codes. A script holds codes, and `Opcode.ofCode?` says which of
them have a meaning here. The codes that push small numbers are not among them.
-/

namespace ShareCovenant

/-- An opcode with a meaning. -/
inductive Opcode where
  | ifTrue | ifFalse | otherwise | endIf
  | drop2 | dup3 | swap2 | drop | dup | nip | dupSecond | pick | roll | rot | swap
  | cat | split | numToBin | binToNum | size | bitAnd | equal | equalVerify | reverseBytes
  | add | sub | div | lessThan | atLeast
  | sha256 | hash160 | hash256 | checkSig | checkSigVerify | checkDataSig
  deriving DecidableEq, Repr

namespace Opcode

/-- The code of an opcode. -/
def code : Opcode → UInt8
  | ifTrue => 0x63
  | ifFalse => 0x64
  | otherwise => 0x67
  | endIf => 0x68
  | drop2 => 0x6d
  | dup3 => 0x6f
  | swap2 => 0x72
  | drop => 0x75
  | dup => 0x76
  | nip => 0x77
  | dupSecond => 0x78
  | pick => 0x79
  | roll => 0x7a
  | rot => 0x7b
  | swap => 0x7c
  | cat => 0x7e
  | split => 0x7f
  | numToBin => 0x80
  | binToNum => 0x81
  | size => 0x82
  | bitAnd => 0x84
  | equal => 0x87
  | equalVerify => 0x88
  | add => 0x93
  | sub => 0x94
  | div => 0x96
  | lessThan => 0x9f
  | atLeast => 0xa2
  | sha256 => 0xa8
  | hash160 => 0xa9
  | hash256 => 0xaa
  | checkSig => 0xac
  | checkSigVerify => 0xad
  | checkDataSig => 0xba
  | reverseBytes => 0xbc

/-- The opcode with a code. -/
def ofCode? (code : UInt8) : Option Opcode :=
  match code with
  | 0x63 => some ifTrue
  | 0x64 => some ifFalse
  | 0x67 => some otherwise
  | 0x68 => some endIf
  | 0x6d => some drop2
  | 0x6f => some dup3
  | 0x72 => some swap2
  | 0x75 => some drop
  | 0x76 => some dup
  | 0x77 => some nip
  | 0x78 => some dupSecond
  | 0x79 => some pick
  | 0x7a => some roll
  | 0x7b => some rot
  | 0x7c => some swap
  | 0x7e => some cat
  | 0x7f => some split
  | 0x80 => some numToBin
  | 0x81 => some binToNum
  | 0x82 => some size
  | 0x84 => some bitAnd
  | 0x87 => some equal
  | 0x88 => some equalVerify
  | 0x93 => some add
  | 0x94 => some sub
  | 0x96 => some div
  | 0x9f => some lessThan
  | 0xa2 => some atLeast
  | 0xa8 => some sha256
  | 0xa9 => some hash160
  | 0xaa => some hash256
  | 0xac => some checkSig
  | 0xad => some checkSigVerify
  | 0xba => some checkDataSig
  | 0xbc => some reverseBytes
  | _ => none

@[simp] theorem ofCode?_code (op : Opcode) : ofCode? op.code = some op := by
  cases op <;> rfl

/-- The number that a code pushes: minus one, or one to sixteen. -/
def smallInt? (code : UInt8) : Option Int :=
  if code = 0x4f then some (-1)
  else if 0x51 ≤ code ∧ code ≤ 0x60 then some (code.toNat - 0x50)
  else none

/-- The code that ends a script unsuccessfully, whatever is on the stack. -/
def unspendable : UInt8 := 0x6a

end Opcode

end ShareCovenant
