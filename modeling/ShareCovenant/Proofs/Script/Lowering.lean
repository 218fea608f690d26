import Mathlib
import ShareCovenant.Proofs.Script.Layout

/-!
# Running lowered programs

Running the bytes of a program has the meaning that `Program.run` gives it: the flags of conditionals stand
for the choice of a branch, and a branch that is not chosen changes nothing. The bytes are read back as the
layout of the program, so both are shown of instructions.
-/

namespace ShareCovenant.Script

/-- Runs instructions from a state on. -/
def runAll (suite : Suite) (ctx : Option SpendContext) (is : List Instruction) (st : State) :
    Except ScriptError State :=
  is.foldlM (State.apply suite ctx) st

variable {suite : Suite} {ctx : Option SpendContext}

theorem runAll_cons (i : Instruction) (is : List Instruction) (st : State) :
    runAll suite ctx (i :: is) st = State.apply suite ctx st i >>= runAll suite ctx is :=
  List.foldlM_cons

theorem runAll_append (is js : List Instruction) (st : State) :
    runAll suite ctx (is ++ js) st = runAll suite ctx is st >>= runAll suite ctx js :=
  List.foldlM_append

theorem runAll_singleton (i : Instruction) (st : State) :
    runAll suite ctx [i] st = State.apply suite ctx st i := by
  rw [runAll_cons]
  cases State.apply suite ctx st i <;> rfl

/-! ## Single instructions -/

theorem apply_push {data : Bytes} (h : data.length ≤ maxElementSize) (s : Stack) (cs : List Bool) :
    State.apply suite ctx ⟨s, cs⟩ (.push data) =
      .ok (if cs.all id then ⟨data :: s, cs⟩ else ⟨s, cs⟩) := by
  rw [State.apply, if_neg (by omega)]
  by_cases hexec : cs.all id
  · rw [State.isExecuting, if_pos hexec, if_pos hexec]
  · rw [State.isExecuting, if_neg hexec, if_neg hexec]

theorem apply_op {code : UInt8} (h : PlainCode code) (h0 : code ≠ 0) (s : Stack) (cs : List Bool) :
    State.apply suite ctx ⟨s, cs⟩ (.op code) =
      if cs.all id then (step suite ctx code s).map (⟨·, cs⟩) else .ok ⟨s, cs⟩ := by
  obtain ⟨-, h⟩ := h.resolve_left h0
  simp only [List.map_cons, List.map_nil, List.mem_cons, List.not_mem_nil, or_false, not_or] at h
  obtain ⟨hif, hnotif, helse, hend⟩ := h
  have hcode : ∀ op, Opcode.ofCode? code = some op → code = op.code := by
    intro op
    unfold Opcode.ofCode?
    split <;> rintro ⟨⟩ <;> rfl
  have hother : ∀ op ∈ [Opcode.ifTrue, .ifFalse, .otherwise, .endIf], Opcode.ofCode? code ≠ some op := by
    intro op hop heq
    have := hcode op heq
    fin_cases hop <;> contradiction
  rw [State.apply]
  split
  · exact absurd ‹_› (hother .ifTrue (by simp))
  · exact absurd ‹_› (hother .ifFalse (by simp))
  · exact absurd ‹_› (hother .otherwise (by simp))
  · exact absurd ‹_› (hother .endIf (by simp))
  · by_cases hexec : cs.all id
    · rw [State.isExecuting, if_pos hexec, if_pos hexec]
      cases step suite ctx code s <;> rfl
    · rw [State.isExecuting, if_neg hexec, if_neg hexec]

theorem apply_code {code : UInt8} (h : PlainCode code) (s : Stack) (cs : List Bool) :
    State.apply suite ctx ⟨s, cs⟩ (if code = 0 then .push [] else .op code) =
      if cs.all id then (Program.runCode suite ctx code s).map (⟨·, cs⟩) else .ok ⟨s, cs⟩ := by
  by_cases h0 : code = 0
  · rw [if_pos h0, apply_push (Nat.zero_le _), Program.runCode, if_pos h0]
    split <;> rfl
  · rw [if_neg h0, apply_op h h0, Program.runCode, if_neg h0]

/-- A number is pushed by its code or as its minimal string. -/
theorem apply_number {n : Int} (h : (Number.encode n).length ≤ maxElementSize) (s : Stack) (cs : List Bool) :
    State.apply suite ctx ⟨s, cs⟩ (.number n) =
      .ok (if cs.all id then ⟨Number.encode n :: s, cs⟩ else ⟨s, cs⟩) := by
  have hcode : ∀ code : UInt8, 0x4e < code → PlainCode code → Opcode.smallInt? code = some n →
      State.apply suite ctx ⟨s, cs⟩ (.op code) =
        .ok (if cs.all id then ⟨Number.encode n :: s, cs⟩ else ⟨s, cs⟩) := by
    intro code hpos hplain hn
    have h0 : code ≠ 0 := by
      rintro rfl
      exact absurd hpos (by decide)
    rw [apply_op hplain h0, step, hn]
    split <;> rfl
  by_cases hone : n = -1
  · subst hone
    exact hcode 0x4f (by decide) (by decide) (by decide)
  · by_cases hsmall : 1 ≤ n ∧ n ≤ 16
    · obtain ⟨hnumber, hpos, hplain, hn⟩ := Instruction.number_small hsmall
      rw [hnumber]
      exact hcode _ hpos hplain hn
    · rw [Instruction.number_large hone hsmall, apply_push h]

/-! ## Opening, turning and closing a conditional -/

theorem apply_enter (s : Stack) (cs : List Bool) :
    State.apply suite ctx ⟨s, cs⟩ (.op Opcode.ifTrue.code) =
      if cs.all id then s.pop.map fun p => ⟨p.2, Number.isTrue p.1 :: cs⟩ else .ok ⟨s, false :: cs⟩ := by
  have happly : State.apply suite ctx ⟨s, cs⟩ (.op Opcode.ifTrue.code) = State.enter ⟨s, cs⟩ true := rfl
  rw [happly, State.enter]
  by_cases hexec : cs.all id
  · rw [State.isExecuting, if_pos hexec, if_pos hexec]
    cases s with
    | nil => rfl
    | cons top s =>
        simp only [beq_true]
        rfl
  · rw [State.isExecuting, if_neg hexec, if_neg hexec]

/-- What a branch leaves, it leaves to what follows the conditional. -/
theorem map_bind_leave (x : Except ScriptError Stack) (c : Bool) (cs : List Bool) :
    (x.map (⟨·, c :: cs⟩) >>= runAll suite ctx [.op Opcode.endIf.code]) = x.map (⟨·, cs⟩) := by
  cases x <;> rfl

/-! ## Whole programs -/

mutual
/-- Where instructions do not act, a program changes nothing. -/
theorem runAll_layoutNode_skip {cs : List Bool} (hcs : ¬cs.all id = true) (s : Stack) :
    (node : Node) → node.Fits → runAll suite ctx node.layout ⟨s, cs⟩ = .ok ⟨s, cs⟩
  | .op code, h => by rw [Node.layout, runAll_singleton, apply_code h, if_neg hcs]
  | .verify code, h => by rw [Node.layout, runAll_singleton, apply_code h, if_neg hcs]
  | .num n, h => by rw [Node.layout, runAll_singleton, apply_number h, if_neg hcs]
  | .data bytes, h => by rw [Node.layout, runAll_singleton, apply_push h, if_neg hcs]
  | .ifThen body, h => by
      have hcs' : ¬(false :: cs).all id = true := by simp
      rw [Node.layout, runAll_cons, apply_enter, if_neg hcs]
      change runAll suite ctx (Program.layout body ++ _) ⟨s, false :: cs⟩ = _
      rw [runAll_append, runAll_layout_skip hcs' s body h]
      rfl
  | .ifElse body other, h => by
      have hcs' : ∀ c, ¬(c :: cs).all id = true := by
        intro c
        cases c with
        | true => simpa using hcs
        | false => simp
      rw [Node.layout, runAll_cons, apply_enter, if_neg hcs]
      change runAll suite ctx (Program.layout body ++ _) ⟨s, false :: cs⟩ = _
      rw [runAll_append, runAll_layout_skip (hcs' _) s body h.1]
      change runAll suite ctx (Program.layout other ++ _) ⟨s, true :: cs⟩ = _
      rw [runAll_append, runAll_layout_skip (hcs' _) s other h.2]
      rfl

theorem runAll_layout_skip {cs : List Bool} (hcs : ¬cs.all id = true) (s : Stack) :
    (p : Program) → p.Fits → runAll suite ctx p.layout ⟨s, cs⟩ = .ok ⟨s, cs⟩
  | [], _ => rfl
  | node :: nodes, h => by
      rw [Program.layout, runAll_append, runAll_layoutNode_skip hcs s node h.1]
      exact runAll_layout_skip hcs s nodes h.2
end

mutual
/-- Where instructions act, those of a program do what the program does. -/
theorem runAll_layoutNode {cs : List Bool} (hcs : cs.all id = true) :
    (node : Node) → node.Fits → (s : Stack) →
    runAll suite ctx node.layout ⟨s, cs⟩ = (Program.runNode suite ctx node s).map (⟨·, cs⟩)
  | .op code, h, s => by rw [Node.layout, runAll_singleton, apply_code h, if_pos hcs, Program.runNode]
  | .verify code, h, s => by rw [Node.layout, runAll_singleton, apply_code h, if_pos hcs, Program.runNode]
  | .num n, h, s => by
      rw [Node.layout, runAll_singleton, apply_number h, if_pos hcs, Program.runNode]
      rfl
  | .data bytes, h, s => by
      rw [Node.layout, runAll_singleton, apply_push h, if_pos hcs, Program.runNode]
      rfl
  | .ifThen body, h, s => by
      rw [Node.layout, runAll_cons, apply_enter, if_pos hcs, Program.runNode]
      cases s with
      | nil => rfl
      | cons top s =>
          change runAll suite ctx (Program.layout body ++ _) ⟨s, Number.isTrue top :: cs⟩ =
            Except.map _ (if Number.isTrue top then _ else _)
          rw [runAll_append]
          cases Number.isTrue top with
          | true => rw [runAll_layout (by simpa using hcs) body h, map_bind_leave, if_pos rfl]
          | false =>
              rw [runAll_layout_skip (by simp) s body h]
              rfl
  | .ifElse body other, h, s => by
      rw [Node.layout, runAll_cons, apply_enter, if_pos hcs, Program.runNode]
      cases s with
      | nil => rfl
      | cons top s =>
          change runAll suite ctx (Program.layout body ++ _) ⟨s, Number.isTrue top :: cs⟩ =
            Except.map _ (if Number.isTrue top then _ else _)
          rw [runAll_append]
          cases Number.isTrue top with
          | true =>
              rw [runAll_layout (by simpa using hcs) body h.1, if_pos rfl]
              cases Program.run suite ctx body s with
              | error e => rfl
              | ok t =>
                  change runAll suite ctx (Program.layout other ++ _) ⟨t, false :: cs⟩ = _
                  rw [runAll_append, runAll_layout_skip (by simp) t other h.2]
                  rfl
          | false =>
              rw [runAll_layout_skip (by simp) s body h.1]
              change runAll suite ctx (Program.layout other ++ _) ⟨s, true :: cs⟩ = _
              rw [runAll_append, runAll_layout (by simpa using hcs) other h.2, map_bind_leave]
              rfl

theorem runAll_layout {cs : List Bool} (hcs : cs.all id = true) :
    (p : Program) → p.Fits → (s : Stack) →
    runAll suite ctx p.layout ⟨s, cs⟩ = (Program.run suite ctx p s).map (⟨·, cs⟩)
  | [], _, s => by
      rw [Program.run]
      rfl
  | node :: nodes, h, s => by
      rw [Program.layout, runAll_append, runAll_layoutNode hcs node h.1, Program.run]
      cases Program.runNode suite ctx node s with
      | error e => rfl
      | ok t => exact runAll_layout hcs nodes h.2 t
end

/-- Running the bytes of a program is running the program, on a stack whose elements are not too large. -/
theorem execute_lower {p : Program} {script : Bytes} (hfits : p.Fits) (h : p.lower = .ok script) (s : Stack) :
    execute suite ctx script s = checkSizes s >>= Program.run suite ctx p := by
  rw [execute, instructions_of_lower hfits h]
  cases checkSizes s with
  | error e => rfl
  | ok t =>
      change (runAll suite ctx p.layout ⟨t, []⟩ >>= State.finish) = Program.run suite ctx p t
      rw [runAll_layout rfl p hfits]
      cases Program.run suite ctx p t <;> rfl

theorem checkSizes_eq_ok_iff (s t : Stack) :
    checkSizes s = .ok t ↔ t = s ∧ ∀ item ∈ s, item.length ≤ maxElementSize := by
  rw [checkSizes]
  cases hfind : s.reverse.find? (·.length > maxElementSize) with
  | some item =>
      have hmem := List.mem_of_find?_eq_some hfind
      have hlarge := List.find?_some hfind
      simp only [reduceCtorEq, false_iff, not_and]
      intro _ hall
      have := hall item (by simpa using hmem)
      simp at hlarge
      omega
  | none =>
      rw [List.find?_eq_none] at hfind
      simp only [Except.ok.injEq, eq_comm (a := s)]
      refine ⟨fun h => ⟨h, fun item hitem => ?_⟩, fun h => h.1⟩
      have := hfind item (by simpa using hitem)
      simp at this
      omega

end ShareCovenant.Script
