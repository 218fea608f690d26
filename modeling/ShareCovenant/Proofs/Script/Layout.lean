import Mathlib
import ShareCovenant.Proofs.Script.Number
import ShareCovenant.Proofs.Script.Pushes

/-!
# The layout of a program

A program is lowered to one instruction for each code and each literal, with the codes of conditionals
around their branches. These instructions are its layout. Lowering writes them one after the other, so a
script that is read gives back the layout of its program, and its length is the sum of the sizes of the
instructions.
-/

namespace ShareCovenant

/-! ## Programs that can be run as bytes -/

/-- A code that is no push of bytes, apart from the empty one, and not part of a conditional. -/
def PlainCode (code : UInt8) : Prop :=
  code = 0 ∨ 0x4e < code ∧ code ∉ [Opcode.ifTrue, .ifFalse, .otherwise, .endIf].map Opcode.code

instance (code : UInt8) : Decidable (PlainCode code) := by
  unfold PlainCode
  infer_instance

mutual
/-- Codes are plain, and literals fit into an element. -/
def Node.Fits : Node → Prop
  | .op code => PlainCode code
  | .verify code => PlainCode code
  | .num n => (Number.encode n).length ≤ maxElementSize
  | .data bytes => bytes.length ≤ maxElementSize
  | .ifThen body => Program.Fits body
  | .ifElse body other => Program.Fits body ∧ Program.Fits other

def Program.Fits : Program → Prop
  | [] => True
  | node :: nodes => node.Fits ∧ Program.Fits nodes
end

theorem Program.Fits.append {p q : Program} (hp : p.Fits) (hq : q.Fits) : Program.Fits (p ++ q) := by
  induction p with
  | nil => exact hq
  | cons node nodes ih =>
      simp only [Program.Fits, List.cons_append] at hp ⊢
      exact ⟨hp.1, ih hp.2⟩

/-! ## Single instructions -/

namespace Instruction

/-- The instruction that pushes a number. -/
def number (n : Int) : Instruction :=
  if n = -1 then .op 0x4f
  else if 1 ≤ n ∧ n ≤ 16 then .op (UInt8.ofNat (0x50 + n.toNat))
  else .push (Number.encode n)

/-- The number of bytes that an instruction is written with. -/
def size : Instruction → Nat
  | .push data =>
      if data.length ≤ 0x4b then 1 + data.length
      else if data.length < 0x100 then 2 + data.length
      else if data.length < 0x10000 then 3 + data.length
      else 5 + data.length
  | .op _ => 1
  | .truncated => 0

/-- An instruction that is read back after it was written: the length of a push has a form, and a code is
above those of the pushes. -/
def Proper : Instruction → Prop
  | .push data => data.length < 0x100000000
  | .op code => 0x4e < code
  | .truncated => False

instance (i : Instruction) : Decidable i.Proper := by
  cases i <;> unfold Proper <;> infer_instance

theorem proper_push {data : Bytes} (h : data.length ≤ maxElementSize) : (push data).Proper :=
  Nat.lt_of_le_of_lt h (by decide)

theorem number_small {n : Int} (h : 1 ≤ n ∧ n ≤ 16) :
    number n = .op (UInt8.ofNat (0x50 + n.toNat)) ∧ 0x4e < UInt8.ofNat (0x50 + n.toNat) ∧
      PlainCode (UInt8.ofNat (0x50 + n.toNat)) ∧ Opcode.smallInt? (UInt8.ofNat (0x50 + n.toNat)) = some n := by
  obtain ⟨hlow, hhigh⟩ := h
  interval_cases n <;> decide

theorem number_large {n : Int} (hone : n ≠ -1) (h : ¬(1 ≤ n ∧ n ≤ 16)) :
    number n = .push (Number.encode n) := by
  rw [number, if_neg hone, if_neg h]

/-- The instruction of a number pushes its minimal string. -/
theorem pushedBy_number (n : Int) : Script.pushedBy (number n) = .ok (Number.encode n) := by
  by_cases hone : n = -1
  · subst hone
    rfl
  · by_cases hsmall : 1 ≤ n ∧ n ≤ 16
    · obtain ⟨hnumber, -, -, hn⟩ := number_small hsmall
      rw [hnumber, Script.pushedBy, hn]
    · rw [number_large hone hsmall, Script.pushedBy]

theorem number_injective : Function.Injective number := by
  intro m n h
  have hpushed := pushedBy_number m
  rw [h, pushedBy_number, Except.ok.injEq] at hpushed
  exact (Number.encode_injective hpushed).symm

theorem proper_number {n : Int} (h : (Number.encode n).length ≤ maxElementSize) : (number n).Proper := by
  by_cases hone : n = -1
  · subst hone
    decide
  · by_cases hsmall : 1 ≤ n ∧ n ≤ 16
    · obtain ⟨hnumber, hcode, -, -⟩ := number_small hsmall
      rw [hnumber]
      exact hcode
    · rw [number_large hone hsmall]
      exact proper_push h

theorem size_push {data : Bytes} (h : data.length ≤ 0x4b) : (push data).size = 1 + data.length := by
  rw [size, if_pos h]

theorem size_push_pos (data : Bytes) : 0 < (push data).size := by
  simp only [size]
  split_ifs <;> exact Nat.add_pos_left (by decide) _

theorem size_number_pos (n : Int) : 0 < (number n).size := by
  unfold number
  split_ifs
  · exact Nat.one_pos
  · exact Nat.one_pos
  · exact size_push_pos _

theorem size_number_small {n : Int} (h : 1 ≤ n ∧ n ≤ 16) : (number n).size = 1 := by
  rw [(number_small h).1, size]

/-- A number is written with at most `k + 2` bytes if its magnitude fits into `k + 1` bytes beside a sign. -/
theorem size_number_le {n : Int} {k : Nat} (hk : k < 0x4b) (h : n.natAbs < 128 * 256 ^ k) :
    (number n).size ≤ k + 2 := by
  have hlen := (Number.length_encode_le_iff n k).2 h
  by_cases hone : n = -1
  · subst hone
    exact Nat.succ_le_succ (Nat.zero_le _)
  · by_cases hsmall : 1 ≤ n ∧ n ≤ 16
    · rw [size_number_small hsmall]
      exact Nat.succ_le_succ (Nat.zero_le _)
    · rw [number_large hone hsmall, size_push (hlen.trans hk), Nat.add_comm]
      exact Nat.succ_le_succ hlen

end Instruction

/-! ## Instructions as bytes -/

namespace Script

/-- Writes an instruction. -/
def write : Instruction → Except BuildError Bytes
  | .push data => push data
  | .op code => .ok [code]
  | .truncated => .ok []

/-- Writes instructions one after the other. -/
def assemble : List Instruction → Except BuildError Bytes
  | [] => .ok []
  | i :: is => do
      let first ← write i
      let others ← assemble is
      return first ++ others

theorem assemble_append (is js : List Instruction) :
    assemble (is ++ js) = do
      let first ← assemble is
      let others ← assemble js
      return first ++ others := by
  induction is with
  | nil =>
      rw [List.nil_append]
      cases assemble js <;> rfl
  | cons i is ih =>
      rw [List.cons_append, assemble, assemble, ih]
      cases write i with
      | error e => rfl
      | ok first =>
          cases assemble is with
          | error e => rfl
          | ok mid =>
              cases assemble js with
              | error e => rfl
              | ok others => exact congrArg Except.ok (List.append_assoc first mid others).symm

theorem assemble_singleton (i : Instruction) : assemble [i] = write i := by
  rw [assemble, assemble]
  cases write i with
  | error e => rfl
  | ok bytes => exact congrArg Except.ok (List.append_nil bytes)

theorem length_push {data bytes : Bytes} (h : push data = .ok bytes) :
    bytes.length = (Instruction.push data).size := by
  simp only [push] at h
  simp only [Instruction.size]
  split_ifs at h ⊢
  all_goals
    cases h
    simp only [List.length_append, List.length_cons, LittleEndian.length_encode]

theorem length_pushAll {items : List Bytes} {bytes : Bytes} (h : pushAll items = .ok bytes) :
    bytes.length = (items.map fun data => (Instruction.push data).size).sum := by
  induction items generalizing bytes with
  | nil =>
      cases h
      rfl
  | cons data items ih =>
      obtain ⟨first, others, hfirst, hothers, rfl⟩ := exists_of_pushAll_cons h
      rw [List.length_append, length_push hfirst, ih hothers, List.map_cons, List.sum_cons]

/-- An instruction that is written is read back, whatever follows it. -/
theorem exists_write {i : Instruction} (h : i.Proper) :
    ∃ bytes, write i = .ok bytes ∧ bytes.length = i.size ∧
      ∀ rest, instructions (bytes ++ rest) = i :: instructions rest := by
  cases i with
  | push data =>
      obtain ⟨bytes, hbytes⟩ := push_isOk h
      exact ⟨bytes, hbytes, length_push hbytes, instructions_push hbytes⟩
  | op code => exact ⟨[code], rfl, rfl, instructions_op h⟩
  | truncated => exact h.elim

/-- Instructions that are written one after the other are read back. -/
theorem exists_assemble {is : List Instruction} (h : ∀ i ∈ is, i.Proper) :
    ∃ bytes, assemble is = .ok bytes ∧ bytes.length = (is.map Instruction.size).sum ∧
      ∀ rest, instructions (bytes ++ rest) = is ++ instructions rest := by
  induction is with
  | nil => exact ⟨[], rfl, rfl, fun _ => rfl⟩
  | cons i is ih =>
      obtain ⟨hi, his⟩ := List.forall_mem_cons.1 h
      obtain ⟨first, hfirst, hlen, hread⟩ := exists_write hi
      obtain ⟨others, hothers, hlens, hreads⟩ := ih his
      refine ⟨first ++ others, ?_, ?_, fun rest => ?_⟩
      · rw [assemble, hfirst, hothers]
        rfl
      · rw [List.length_append, hlen, hlens, List.map_cons, List.sum_cons]
      · rw [List.append_assoc, hread, hreads, List.cons_append]

end Script

/-! ## Programs as instructions -/

mutual
/-- The instructions of a node. -/
def Node.layout : Node → List Instruction
  | .op code => [if code = 0 then .push [] else .op code]
  | .verify code => [if code = 0 then .push [] else .op code]
  | .num n => [.number n]
  | .data bytes => [.push bytes]
  | .ifThen body => .op Opcode.ifTrue.code :: (Program.layout body ++ [.op Opcode.endIf.code])
  | .ifElse body other =>
      .op Opcode.ifTrue.code :: (Program.layout body ++
        .op Opcode.otherwise.code :: (Program.layout other ++ [.op Opcode.endIf.code]))

/-- The instructions of a program. -/
def Program.layout : Program → List Instruction
  | [] => []
  | node :: nodes => node.layout ++ Program.layout nodes
end

@[simp] theorem Node.layout_ofOpcode (op : Opcode) : (Node.ofOpcode op).layout = [.op op.code] := by
  cases op <;> rfl

@[simp] theorem Node.layout_checking (op : Opcode) : (Node.checking op).layout = [.op op.code] :=
  layout_ofOpcode op

theorem Program.layout_append (p q : Program) : Program.layout (p ++ q) = p.layout ++ q.layout := by
  induction p with
  | nil => rfl
  | cons node nodes ih => rw [List.cons_append, layout, layout, ih, List.append_assoc]

namespace Program

/-- The number of bytes of the script of a program. -/
def size (p : Program) : Nat := (p.layout.map Instruction.size).sum

theorem size_append (p q : Program) : size (p ++ q) = p.size + q.size := by
  rw [size, layout_append, List.map_append, List.sum_append]
  rfl

@[simp] theorem size_nil : size [] = 0 := rfl

@[simp] theorem size_opcode (op : Opcode) (p : Program) : size (Node.ofOpcode op :: p) = 1 + p.size := by
  rw [size, layout, Node.layout_ofOpcode]
  exact List.sum_cons

@[simp] theorem size_check (op : Opcode) (p : Program) : size (Node.checking op :: p) = 1 + p.size :=
  size_opcode op p

@[simp] theorem size_num (n : Int) (p : Program) : size (.num n :: p) = (Instruction.number n).size + p.size :=
  List.sum_cons

@[simp] theorem size_data (bytes : Bytes) (p : Program) :
    size (.data bytes :: p) = (Instruction.push bytes).size + p.size :=
  List.sum_cons

@[simp] theorem size_ifThen (body p : Program) : size (.ifThen body :: p) = 2 + body.size + p.size := by
  simp only [size, layout, Node.layout, List.cons_append, List.nil_append, List.append_assoc, List.map_cons,
    List.map_append, List.sum_cons, List.sum_append, Instruction.size]
  ring

@[simp] theorem size_ifElse (body other p : Program) :
    size (.ifElse body other :: p) = 3 + body.size + other.size + p.size := by
  simp only [size, layout, Node.layout, List.cons_append, List.nil_append, List.append_assoc, List.map_cons,
    List.map_append, List.sum_cons, List.sum_append, Instruction.size]
  ring

end Program

namespace Script

theorem write_code (code : UInt8) : write (if code = 0 then .push [] else .op code) = .ok [code] := by
  by_cases h : code = 0
  · subst h
    rfl
  · rw [if_neg h, write]

theorem write_number (n : Int) : write (.number n) = Program.pushNumber n := by
  unfold Program.pushNumber
  split_ifs with hzero hone hsmall
  · rw [hzero, Instruction.number_large (by decide) (by decide), write, Number.encode_zero]
    rfl
  · subst hone
    rfl
  · rw [(Instruction.number_small hsmall).1, write]
  · rw [Instruction.number_large hone hsmall, write]

mutual
theorem lowerNode_eq_assemble : (node : Node) → Program.lowerNode node = assemble node.layout
  | .op code => by rw [Node.layout, assemble_singleton, write_code, Program.lowerNode]
  | .verify code => by rw [Node.layout, assemble_singleton, write_code, Program.lowerNode]
  | .num n => by rw [Node.layout, assemble_singleton, write_number, Program.lowerNode]
  | .data bytes => by rw [Node.layout, assemble_singleton, write, Program.lowerNode]
  | .ifThen body => by
      rw [Program.lowerNode, Node.layout, lower_eq_assemble body, assemble, assemble_append]
      cases assemble (Program.layout body) <;> rfl
  | .ifElse body other => by
      rw [Program.lowerNode, Node.layout, lower_eq_assemble body, lower_eq_assemble other, assemble,
        assemble_append, assemble, assemble_append]
      cases assemble (Program.layout body) with
      | error e => rfl
      | ok b =>
          cases assemble (Program.layout other) with
          | error e => rfl
          | ok o => simp [write, assemble, bind, Except.bind, pure, Except.pure]

/-- Lowering a program writes its instructions. -/
theorem lower_eq_assemble : (p : Program) → p.lower = assemble p.layout
  | [] => rfl
  | node :: nodes => by
      rw [Program.lower, Program.layout, assemble_append, lowerNode_eq_assemble node,
        lower_eq_assemble nodes]
end

theorem proper_code {code : UInt8} (h : PlainCode code) :
    (if code = 0 then Instruction.push [] else .op code).Proper := by
  by_cases h0 : code = 0
  · rw [if_pos h0]
    exact Instruction.proper_push (Nat.zero_le _)
  · rw [if_neg h0]
    exact (h.resolve_left h0).1

mutual
theorem proper_layoutNode : (node : Node) → node.Fits → ∀ i ∈ node.layout, i.Proper
  | .op code, h => List.forall_mem_singleton.2 (proper_code h)
  | .verify code, h => List.forall_mem_singleton.2 (proper_code h)
  | .num n, h => List.forall_mem_singleton.2 (Instruction.proper_number h)
  | .data bytes, h => List.forall_mem_singleton.2 (Instruction.proper_push h)
  | .ifThen body, h => by
      have hbody := proper_layout body h
      simp only [Node.layout, List.forall_mem_cons, List.forall_mem_append]
      exact ⟨by decide, hbody, by decide⟩
  | .ifElse body other, h => by
      have hbody := proper_layout body h.1
      have hother := proper_layout other h.2
      simp only [Node.layout, List.forall_mem_cons, List.forall_mem_append]
      exact ⟨by decide, hbody, by decide, hother, by decide⟩

theorem proper_layout : (p : Program) → p.Fits → ∀ i ∈ p.layout, i.Proper
  | [], _ => List.forall_mem_nil _
  | node :: nodes, h => List.forall_mem_append.2 ⟨proper_layoutNode node h.1, proper_layout nodes h.2⟩
end

/-- A program that fits has a script, of the size of its instructions, that is read back as these. -/
theorem exists_lower {p : Program} (h : p.Fits) :
    ∃ script, p.lower = .ok script ∧ script.length = p.size ∧ instructions script = p.layout := by
  obtain ⟨script, hscript, hlen, hread⟩ := exists_assemble (proper_layout p h)
  have hall := hread []
  rw [List.append_nil, instructions_nil, List.append_nil] at hall
  exact ⟨script, (lower_eq_assemble p).trans hscript, hlen, hall⟩

theorem instructions_of_lower {p : Program} (h : p.Fits) {script : Bytes} (hscript : p.lower = .ok script) :
    instructions script = p.layout := by
  obtain ⟨script', hscript', -, hread⟩ := exists_lower h
  cases hscript.symm.trans hscript'
  exact hread

end Script

end ShareCovenant
