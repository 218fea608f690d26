import Mathlib
import ShareCovenant.Proofs.Script.Lowering

/-!
# The meaning of lowered programs

A program can be made a script if its codes neither push bytes nor belong to conditionals, its numbers have
64 bits and its byte strings fit into an element. Every such program has a script, and running the script
gives what `Program.run` gives, be it a stack or an error.
-/

namespace ShareCovenant

open Node (ofOpcode checking)

/-! ## Programs that can be made scripts -/

mutual
/-- Codes are plain, numbers have 64 bits, and byte strings fit into an element. -/
def Node.Scriptable : Node → Prop
  | .op code => PlainCode code
  | .verify code => PlainCode code
  | .num n => -2 ^ 63 ≤ n ∧ n < 2 ^ 63
  | .data bytes => bytes.length ≤ maxElementSize
  | .ifThen body => Program.Scriptable body
  | .ifElse body other => Program.Scriptable body ∧ Program.Scriptable other

def Program.Scriptable : Program → Prop
  | [] => True
  | node :: nodes => node.Scriptable ∧ Program.Scriptable nodes
end

mutual
instance Node.decidableScriptable : (node : Node) → Decidable node.Scriptable
  | .op code => inferInstanceAs (Decidable (PlainCode code))
  | .verify code => inferInstanceAs (Decidable (PlainCode code))
  | .num n => inferInstanceAs (Decidable (-2 ^ 63 ≤ n ∧ n < 2 ^ 63))
  | .data bytes => inferInstanceAs (Decidable (bytes.length ≤ maxElementSize))
  | .ifThen body => Program.decidableScriptable body
  | .ifElse body other =>
      have := Program.decidableScriptable body
      have := Program.decidableScriptable other
      inferInstanceAs (Decidable (_ ∧ _))

instance Program.decidableScriptable : (p : Program) → Decidable p.Scriptable
  | [] => .isTrue trivial
  | node :: nodes =>
      have := Node.decidableScriptable node
      have := Program.decidableScriptable nodes
      inferInstanceAs (Decidable (_ ∧ _))
end

theorem Number.length_encode_le_nine {n : Int} (h : -2 ^ 63 ≤ n ∧ n < 2 ^ 63) : (encode n).length ≤ 9 := by
  rw [length_encode_le_iff n 8]
  omega

mutual
theorem Node.Scriptable.fits : (node : Node) → node.Scriptable → node.Fits
  | .op _, h => h
  | .verify _, h => h
  | .num _, h => (Number.length_encode_le_nine h).trans (by decide)
  | .data _, h => h
  | .ifThen body, h => Program.Scriptable.fits body h
  | .ifElse body other, h => ⟨Program.Scriptable.fits body h.1, Program.Scriptable.fits other h.2⟩

theorem Program.Scriptable.fits : (p : Program) → p.Scriptable → p.Fits
  | [], _ => trivial
  | node :: nodes, h => ⟨Node.Scriptable.fits node h.1, Program.Scriptable.fits nodes h.2⟩
end

/-! ## Scripts that keep the meaning -/

namespace Script

/-- A program that can be made a script has one, and on elements that are not too large the script leaves the
stack that the program leaves, or stops for the reason for which the program stops. -/
theorem exists_lower_execute_eq_run {p : Program} (hp : p.Scriptable) :
    ∃ script, p.lower = .ok script ∧
      ∀ (suite : Suite) (ctx : Option SpendContext) (s : Stack),
        (∀ item ∈ s, item.length ≤ maxElementSize) →
          execute suite ctx script s = Program.run suite ctx p s := by
  have hfits := Program.Scriptable.fits p hp
  obtain ⟨script, hscript, -, -⟩ := exists_lower hfits
  refine ⟨script, hscript, fun suite ctx s hs => ?_⟩
  rw [execute_lower hfits hscript, (checkSizes_eq_ok_iff s s).2 ⟨rfl, hs⟩]
  rfl

/-- A conditional in a branch, the least number of 64 bits and the largest element. -/
def nestedProgram : Program :=
  [.ifElse [.ifThen [ofOpcode .div], .num (-2 ^ 63)]
    [.data (List.replicate maxElementSize 0), checking .equalVerify]]

theorem exists_lower_execute_eq_run_nested :
    nestedProgram.Scriptable ∧ (∀ item ∈ [[1], [0]], item.length ≤ maxElementSize) ∧
      ∃ script, nestedProgram.lower = .ok script ∧
        execute Suite.standard none script [[1], [0]] = .ok [[0, 0, 0, 0, 0, 0, 0, 0x80, 0x80]] ∧
        execute Suite.standard none script [[1], [1]] = .error .stackUnderflow ∧
        execute Suite.standard none script [[], [1]] = .error (.verify 0x88) := by
  have hp : nestedProgram.Scriptable := by decide +kernel
  obtain ⟨script, hscript, hrun⟩ := exists_lower_execute_eq_run hp
  refine ⟨hp, by decide, script, hscript, ?_, ?_, ?_⟩
  · rw [hrun _ _ _ (by decide)]
    decide +kernel
  · rw [hrun _ _ _ (by decide)]
    decide +kernel
  · rw [hrun _ _ _ (by decide)]
    decide +kernel

end Script

end ShareCovenant
