import ShareCovenant.Script.Error
import ShareCovenant.Script.Number
import ShareCovenant.Script.Opcode

/-!
# Instructions

A script is a sequence of pushes and codes. Codes up to 75 push that many bytes, and the next three read
the number of bytes from one, two or four bytes. Reading a script cuts it into instructions; a push that
runs past the end ends the sequence as an instruction of its own.
-/

namespace ShareCovenant

/-- One step of a script. -/
inductive Instruction where
  | push (data : Bytes)
  | op (code : UInt8)
  /-- A push that runs past the end of the script. -/
  | truncated
  deriving DecidableEq, Repr

namespace Script

/-- Writes a push in the shortest form for its length. -/
def push (data : Bytes) : Except BuildError Bytes :=
  let n := data.length
  if n ≤ 0x4b then .ok (LittleEndian.encode 1 n ++ data)
  else if n < 0x100 then .ok (0x4c :: LittleEndian.encode 1 n ++ data)
  else if n < 0x10000 then .ok (0x4d :: LittleEndian.encode 2 n ++ data)
  else if n < 0x100000000 then .ok (0x4e :: LittleEndian.encode 4 n ++ data)
  else .error (.oversizedPush n)

/-- Writes pushes one after the other. -/
def pushAll : List Bytes → Except BuildError Bytes
  | [] => .ok []
  | data :: rest => do
      let first ← push data
      let others ← pushAll rest
      return first ++ others

/-- A push of the next `n` bytes, and what follows it. -/
def takePush (n : Nat) (bytes : Bytes) : Instruction × Bytes :=
  if n ≤ bytes.length then (.push (bytes.take n), bytes.drop n) else (.truncated, [])

/-- A push whose length stands in the next `width` bytes, and what follows it. -/
def takeSizedPush (width : Nat) (bytes : Bytes) : Instruction × Bytes :=
  if width ≤ bytes.length then
    takePush (LittleEndian.decode (bytes.take width)) (bytes.drop width)
  else (.truncated, [])

/-- The instruction that starts with a code, and what follows it. -/
def takeInstruction (code : UInt8) (bytes : Bytes) : Instruction × Bytes :=
  if code ≤ 0x4b then takePush code.toNat bytes
  else if code = 0x4c then takeSizedPush 1 bytes
  else if code = 0x4d then takeSizedPush 2 bytes
  else if code = 0x4e then takeSizedPush 4 bytes
  else (.op code, bytes)

theorem length_takePush (n : Nat) (bytes : Bytes) : (takePush n bytes).2.length ≤ bytes.length := by
  unfold takePush
  split <;> simp

theorem length_takeSizedPush (width : Nat) (bytes : Bytes) :
    (takeSizedPush width bytes).2.length ≤ bytes.length := by
  unfold takeSizedPush
  split
  · exact Nat.le_trans (length_takePush _ _) (by simp)
  · simp

theorem length_takeInstruction (code : UInt8) (bytes : Bytes) :
    (takeInstruction code bytes).2.length ≤ bytes.length := by
  unfold takeInstruction
  repeat' split
  · exact length_takePush _ _
  · exact length_takeSizedPush _ _
  · exact length_takeSizedPush _ _
  · exact length_takeSizedPush _ _
  · exact Nat.le_refl _

/-- The instructions of a script. -/
def instructions : Bytes → List Instruction
  | [] => []
  | code :: bytes =>
      (takeInstruction code bytes).1 :: instructions (takeInstruction code bytes).2
termination_by bytes => bytes.length
decreasing_by
  have := length_takeInstruction code bytes
  simp
  omega

/-- The data that an instruction pushes, if it does nothing else: small numbers are pushed in their
minimal form. -/
def pushedBy : Instruction → Except ScriptError Bytes
  | .push data => .ok data
  | .op code =>
      match Opcode.smallInt? code with
      | some n => .ok (Number.encode n)
      | none => .error .notPushOnly
  | .truncated => .error .truncatedPush

/-- What a script of pushes pushes, in order. -/
def pushes (script : Bytes) : Except ScriptError (List Bytes) := (instructions script).mapM pushedBy

end Script

end ShareCovenant
