import ShareCovenant.Script.Instruction
import ShareCovenant.Signature
import ShareCovenant.Transaction.Sighash

/-!
# Running scripts

A stack is a list of byte strings, the top first, of at most 520 bytes each. A script runs instruction by
instruction with one flag for every open conditional; opcodes act only while all flags are set. Opcodes
that check transaction signatures need the input that is being spent.
-/

namespace ShareCovenant

/-- The elements of a stack, the top first. -/
abbrev Stack := List Bytes

/-- The most bytes that an element may have. -/
def maxElementSize : Nat := 520

/-- The input whose signatures a script checks, and the script that they commit to. -/
structure SpendContext where
  tx : Transaction
  index : Nat
  value : UInt64
  scriptCode : Bytes

/-- Whether a signature with its type byte signs the input. The empty signature is a plain no. -/
def SpendContext.checkSignature (suite : Suite) (ctx : SpendContext) (sig pubkey : Bytes) :
    Except ScriptError Bool :=
  match sig.getLast? with
  | none => .ok false
  | some type =>
      if sig.dropLast.length ≠ 64 ∨ type.toUInt32 ≠ sighashAllForkId then .error .signatureEncoding
      else
        match Preimage.ofIndex? suite ctx.tx ctx.index ctx.scriptCode ctx.value type.toUInt32 with
        | none => .error (.inputIndex ctx.index)
        | some preimage => .ok (Signature.verify suite sig.dropLast (preimage.sighash suite) pubkey)

namespace Stack

/-! ## Elements and numbers -/

/-- The top element and the others. -/
def pop : Stack → Except ScriptError (Bytes × Stack)
  | [] => .error .stackUnderflow
  | item :: s => .ok (item, s)

/-- The top element as an operand of arithmetic, and the others. -/
def popNumber (s : Stack) : Except ScriptError (Int × Stack) := do
  let (item, s) ← pop s
  return (← Number.decode item, s)

/-- The element at a depth, counted from zero. -/
def peek (s : Stack) (depth : Int) : Except ScriptError Bytes :=
  match s[depth.toNat]? with
  | some item => if depth < 0 then .error .stackUnderflow else .ok item
  | none => .error .stackUnderflow

/-! ## Groups of opcodes -/

/-- Replaces the top element. -/
def replaceTop (f : Bytes → Bytes) : Stack → Except ScriptError Stack
  | [] => .error .stackUnderflow
  | a :: s => .ok (f a :: s)

/-- Copies the element at the depth on top. -/
def pick (s : Stack) : Except ScriptError Stack := do
  let (depth, s) ← popNumber s
  return (← peek s depth) :: s

/-- Moves the element at the depth on top. -/
def roll (s : Stack) : Except ScriptError Stack := do
  let (depth, s) ← popNumber s
  return (← peek s depth) :: s.eraseIdx depth.toNat

/-- Joins two elements. -/
def cat : Stack → Except ScriptError Stack
  | b :: a :: s =>
      if a.length + b.length > maxElementSize then .error (.elementSize (a.length + b.length))
      else .ok ((a ++ b) :: s)
  | _ => .error .stackUnderflow

/-- Cuts an element in two at a position. -/
def split (s : Stack) : Except ScriptError Stack := do
  let (position, s) ← popNumber s
  let (data, s) ← pop s
  if position < 0 ∨ data.length < position then throw .splitRange
  return data.drop position.toNat :: data.take position.toNat :: s

/-- Writes a number in a given size. -/
def numToBin (s : Stack) : Except ScriptError Stack := do
  let (size, s) ← popNumber s
  if size < 0 ∨ maxElementSize < size then throw (.elementSize size.natAbs)
  let (data, s) ← pop s
  return (← Number.resize (Number.minimize data) size.toNat) :: s

/-- Reads bytes as a number. -/
def binToNum : Stack → Except ScriptError Stack
  | [] => .error .stackUnderflow
  | data :: s =>
      let n := Number.minimize data
      if n.length > Number.maxSize then .error (.numberOverflow n.length) else .ok (n :: s)

/-- Joins two elements of one size bit by bit. -/
def bitAnd : Stack → Except ScriptError Stack
  | b :: a :: s => if a.length = b.length then .ok (List.zipWith (· &&& ·) a b :: s) else .error .operandSize
  | _ => .error .stackUnderflow

/-- Replaces two numbers, the second one on top, by an element. -/
def binary (f : Int → Int → Except ScriptError Bytes) (s : Stack) : Except ScriptError Stack := do
  let (b, s) ← popNumber s
  let (a, s) ← popNumber s
  return (← f a b) :: s

/-- The quotient, truncated toward zero. -/
def quotient (a b : Int) : Except ScriptError Bytes :=
  if b = 0 then .error .divisionByZero else .ok (Number.encode (a.tdiv b))

/-- Ends the script unless a check by an opcode succeeded. -/
def verify (op : Opcode) (ok : Bool) (s : Stack) : Except ScriptError Stack :=
  if ok then .ok s else .error (.verify op.code)

/-- Whether the two top elements are equal, and the others. -/
def compare : Stack → Except ScriptError (Bool × Stack)
  | b :: a :: s => .ok (a == b, s)
  | _ => .error .stackUnderflow

/-- The outcome of a signature check, which may fail only for the empty signature. -/
def nullFail (sig : Bytes) (valid : Bool) : Except ScriptError Bool :=
  if !valid && !sig.isEmpty then .error .nullFail else .ok valid

/-- Checks a signature of the input being spent, without which the opcode has no meaning. -/
def checkSig (suite : Suite) (ctx : Option SpendContext) (op : Opcode) (s : Stack) :
    Except ScriptError (Bool × Stack) :=
  match ctx, s with
  | none, _ => .error (.unsupported op.code)
  | some ctx, pubkey :: sig :: s => do
      let valid ← ctx.checkSignature suite sig pubkey
      return (← nullFail sig valid, s)
  | some _, _ => .error .stackUnderflow

/-- Checks a signature of the hash of a message. -/
def checkDataSig (suite : Suite) : Stack → Except ScriptError Stack
  | pubkey :: msg :: sig :: s =>
      if sig.length ≠ 0 ∧ sig.length ≠ 64 then .error .signatureEncoding
      else do
        let valid ← nullFail sig (Signature.verify suite sig (suite.sha256 msg) pubkey)
        return Number.ofBool valid :: s
  | _ => .error .stackUnderflow

end Stack

/-! ## Opcodes -/

/-- Runs an opcode other than those of conditionals. -/
def Opcode.run (suite : Suite) (ctx : Option SpendContext) (op : Opcode) (s : Stack) :
    Except ScriptError Stack :=
  match op with
  | .drop => match s with
    | _ :: s => .ok s
    | _ => .error .stackUnderflow
  | .drop2 => match s with
    | _ :: _ :: s => .ok s
    | _ => .error .stackUnderflow
  | .dup => match s with
    | a :: s => .ok (a :: a :: s)
    | _ => .error .stackUnderflow
  | .dup3 => match s with
    | c :: b :: a :: s => .ok (c :: b :: a :: c :: b :: a :: s)
    | _ => .error .stackUnderflow
  | .nip => match s with
    | b :: _ :: s => .ok (b :: s)
    | _ => .error .stackUnderflow
  | .dupSecond => match s with
    | b :: a :: s => .ok (a :: b :: a :: s)
    | _ => .error .stackUnderflow
  | .rot => match s with
    | c :: b :: a :: s => .ok (a :: c :: b :: s)
    | _ => .error .stackUnderflow
  | .swap => match s with
    | b :: a :: s => .ok (a :: b :: s)
    | _ => .error .stackUnderflow
  | .swap2 => match s with
    | d :: c :: b :: a :: s => .ok (b :: a :: d :: c :: s)
    | _ => .error .stackUnderflow
  | .size => match s with
    | a :: s => .ok (Number.encode a.length :: a :: s)
    | _ => .error .stackUnderflow
  | .reverseBytes => s.replaceTop List.reverse
  | .sha256 => s.replaceTop fun a => suite.sha256 a
  | .hash160 => s.replaceTop fun a => suite.hash160 a
  | .hash256 => s.replaceTop fun a => suite.sha256d a
  | .pick => s.pick
  | .roll => s.roll
  | .cat => s.cat
  | .split => s.split
  | .numToBin => s.numToBin
  | .binToNum => s.binToNum
  | .bitAnd => s.bitAnd
  | .add => s.binary fun a b => .ok (Number.encode (a + b))
  | .sub => s.binary fun a b => .ok (Number.encode (a - b))
  | .div => s.binary Stack.quotient
  | .lessThan => s.binary fun a b => .ok (Number.ofBool (a < b))
  | .atLeast => s.binary fun a b => .ok (Number.ofBool (a ≥ b))
  | .equal => do
      let (same, s) ← s.compare
      return Number.ofBool same :: s
  | .equalVerify => do
      let (same, s) ← s.compare
      s.verify .equalVerify same
  | .checkSig => do
      let (valid, s) ← s.checkSig suite ctx .checkSig
      return Number.ofBool valid :: s
  | .checkSigVerify => do
      let (valid, s) ← s.checkSig suite ctx .checkSigVerify
      s.verify .checkSigVerify valid
  | .checkDataSig => s.checkDataSig suite
  | .ifTrue | .ifFalse | .otherwise | .endIf => .error (.unsupported op.code)

namespace Script

/-- Runs a code: a small number is pushed, an opcode runs, and nothing else has a meaning. -/
def step (suite : Suite) (ctx : Option SpendContext) (code : UInt8) (s : Stack) :
    Except ScriptError Stack :=
  match Opcode.smallInt? code with
  | some n => .ok (Number.encode n :: s)
  | none =>
      match Opcode.ofCode? code with
      | some op => op.run suite ctx s
      | none => .error (.unsupported code)

/-! ## Conditionals -/

/-- The stack and the flags of the open conditionals, the innermost first. -/
structure State where
  stack : Stack
  conditions : List Bool
  deriving DecidableEq, Repr

/-- Whether instructions act. -/
def State.isExecuting (st : State) : Bool := st.conditions.all id

/-- Opens a conditional. Where instructions act, its flag is the top element, or its opposite. -/
def State.enter (st : State) (wanted : Bool) : Except ScriptError State :=
  if st.isExecuting then
    match st.stack with
    | [] => .error .stackUnderflow
    | top :: s => .ok { stack := s, conditions := (Number.isTrue top == wanted) :: st.conditions }
  else .ok { st with conditions := false :: st.conditions }

/-- Turns the flag of the innermost conditional around. -/
def State.toggle (st : State) : Except ScriptError State :=
  match st.conditions with
  | [] => .error .unbalancedConditional
  | c :: cs => .ok { st with conditions := (!c) :: cs }

/-- Closes the innermost conditional. -/
def State.leave (st : State) : Except ScriptError State :=
  match st.conditions with
  | [] => .error .unbalancedConditional
  | _ :: cs => .ok { st with conditions := cs }

/-- Runs one instruction. The size of a push counts even where it does not act. -/
def State.apply (suite : Suite) (ctx : Option SpendContext) (st : State) :
    Instruction → Except ScriptError State
  | .truncated => .error .truncatedPush
  | .push data =>
      if data.length > maxElementSize then .error (.elementSize data.length)
      else if st.isExecuting then .ok { st with stack := data :: st.stack }
      else .ok st
  | .op code =>
      match Opcode.ofCode? code with
      | some .ifTrue => st.enter true
      | some .ifFalse => st.enter false
      | some .otherwise => st.toggle
      | some .endIf => st.leave
      | _ =>
          if st.isExecuting then do
            let s ← step suite ctx code st.stack
            return { st with stack := s }
          else .ok st

/-- The stack after a script, all of whose conditionals are closed. -/
def State.finish (st : State) : Except ScriptError Stack :=
  match st.conditions with
  | [] => .ok st.stack
  | _ :: _ => .error .unbalancedConditional

/-- The stack itself, if no element is too large; of several that are, the lowest counts. -/
def checkSizes (s : Stack) : Except ScriptError Stack :=
  match s.reverse.find? (·.length > maxElementSize) with
  | some item => .error (.elementSize item.length)
  | none => .ok s

/-- Runs a script on a stack. -/
def execute (suite : Suite) (ctx : Option SpendContext) (script : Bytes) (s : Stack) :
    Except ScriptError Stack := do
  let s ← checkSizes s
  let st ← (instructions script).foldlM (State.apply suite ctx) { stack := s, conditions := [] }
  st.finish

end Script

end ShareCovenant
