import ShareCovenant.Script.Machine

/-!
# Programs

A program is a list of nodes: opcodes, literals, and conditionals whose branches are programs again. It is
lowered to the bytes of a script. `Program.run` gives it a meaning of its own, without flags: a
conditional takes its condition from the stack and runs one branch.
-/

namespace ShareCovenant

/-- One step of a program. -/
inductive Node where
  | op (code : UInt8)
  /-- An opcode that ends the script when its check fails. -/
  | verify (code : UInt8)
  /-- A number, lowered to its shortest push. -/
  | num (n : Int)
  /-- A byte string, lowered to a push of its bytes. -/
  | data (bytes : Bytes)
  | ifThen (body : List Node)
  | ifElse (body other : List Node)

/-- A sequence of nodes. -/
abbrev Program := List Node

namespace Node

/-- The node of an opcode. -/
def ofOpcode (op : Opcode) : Node := .op op.code

/-- The node of an opcode that checks. -/
def checking (op : Opcode) : Node := .verify op.code

end Node

namespace Program

/-! ## Lowering -/

/-- The push of a number: one code for minus one and zero to sixteen, a minimal string otherwise. -/
def pushNumber (n : Int) : Except BuildError Bytes :=
  if n = 0 then .ok [0x00]
  else if n = -1 then .ok [0x4f]
  else if 1 ≤ n ∧ n ≤ 16 then .ok [UInt8.ofNat (0x50 + n.toNat)]
  else Script.push (Number.encode n)

mutual
/-- The bytes of a node. -/
def lowerNode : Node → Except BuildError Bytes
  | .op code => .ok [code]
  | .verify code => .ok [code]
  | .num n => pushNumber n
  | .data bytes => Script.push bytes
  | .ifThen body => do
      let b ← lower body
      return Opcode.ifTrue.code :: b ++ [Opcode.endIf.code]
  | .ifElse body other => do
      let b ← lower body
      let o ← lower other
      return Opcode.ifTrue.code :: b ++ Opcode.otherwise.code :: o ++ [Opcode.endIf.code]

/-- The bytes of a program. -/
def lower : Program → Except BuildError Bytes
  | [] => .ok []
  | node :: nodes => do
      let first ← lowerNode node
      let others ← lower nodes
      return first ++ others
end

/-! ## Meaning -/

/-- Runs the code of an opcode; code zero pushes the empty string. -/
def runCode (suite : Suite) (ctx : Option SpendContext) (code : UInt8) (s : Stack) :
    Except ScriptError Stack :=
  if code = 0 then .ok ([] :: s) else Script.step suite ctx code s

mutual
/-- Runs a node on a stack. -/
def runNode (suite : Suite) (ctx : Option SpendContext) : Node → Stack → Except ScriptError Stack
  | .op code, s => runCode suite ctx code s
  | .verify code, s => runCode suite ctx code s
  | .num n, s => .ok (Number.encode n :: s)
  | .data bytes, s => .ok (bytes :: s)
  | .ifThen body, s => do
      let (condition, s) ← s.pop
      if Number.isTrue condition then run suite ctx body s else return s
  | .ifElse body other, s => do
      let (condition, s) ← s.pop
      if Number.isTrue condition then run suite ctx body s else run suite ctx other s

/-- Runs a program on a stack, node by node, until one of them fails. -/
def run (suite : Suite) (ctx : Option SpendContext) : Program → Stack → Except ScriptError Stack
  | [], s => .ok s
  | node :: nodes, s => do
      let s ← runNode suite ctx node s
      run suite ctx nodes s
end

end Program

end ShareCovenant
