import Mathlib
import ShareCovenant.Proofs.Script.Steps

/-!
# Numbers that stay in range

Arithmetic takes numbers of at most four bytes, but what it leaves may be longer. A run stays in range if it
succeeds and every number that is computed on its way could be an operand again. Such runs are put together
from those of their parts.
-/

namespace ShareCovenant

/-- Whether a node computes a number, or writes one in a given size. -/
def Node.computes : Node → Bool
  | .op code => Opcode.ofCode? code ∈ [some .add, some .sub, some .div, some .binToNum, some .numToBin]
  | _ => false

namespace Program

open Node (ofOpcode checking)
open Number (encode value IsOperand)

variable {suite : Suite} {ctx : Option SpendContext} {p q : Program} {s t u : Stack}

/-- A run succeeds, and each number that a node computes on its way has at most four bytes. -/
structure RunsInRange (suite : Suite) (ctx : Option SpendContext) (p : Program) (s t : Stack) : Prop where
  run_eq : run suite ctx p s = .ok t
  computed : ∀ front node back, p = front ++ node :: back → node.computes = true →
    ∃ number below, run suite ctx (front ++ [node]) s = .ok (number :: below) ∧
      number.length ≤ Number.maxSize

namespace RunsInRange

theorem append (hp : RunsInRange suite ctx p s t) (hq : RunsInRange suite ctx q t u) :
    RunsInRange suite ctx (p ++ q) s u := by
  refine ⟨?_, ?_⟩
  · rw [run_append, hp.run_eq]
    exact hq.run_eq
  · intro front node back hsplit hnode
    rcases List.append_eq_append_iff.1 hsplit with ⟨mid, rfl, hmid⟩ | ⟨mid, hmid, hback⟩
    · obtain ⟨number, below, hrun, hlen⟩ := hq.computed mid node back hmid hnode
      refine ⟨number, below, ?_, hlen⟩
      rw [List.append_assoc, run_append, hp.run_eq]
      exact hrun
    · cases mid with
      | nil =>
          obtain ⟨number, below, hrun, hlen⟩ := hq.computed [] node back hback.symm hnode
          refine ⟨number, below, ?_, hlen⟩
          rw [List.append_nil] at hmid
          rw [← hmid, run_append, hp.run_eq]
          exact hrun
      | cons node' mid =>
          rw [List.cons_append, List.cons.injEq] at hback
          obtain ⟨rfl, rfl⟩ := hback
          exact hp.computed front node mid hmid hnode

/-- A run without numbers stays in range if it succeeds. -/
theorem of_run (hplain : p.all (fun node => !node.computes) = true) (h : run suite ctx p s = .ok t) :
    RunsInRange suite ctx p s t := by
  refine ⟨h, ?_⟩
  rintro front node back rfl hnode
  simp [hnode] at hplain

/-- A single node stays in range if the number that it leaves does. -/
theorem singleton {node : Node} {number : Bytes} (h : run suite ctx [node] s = .ok (number :: t))
    (hlen : number.length ≤ Number.maxSize) : RunsInRange suite ctx [node] s (number :: t) := by
  refine ⟨h, ?_⟩
  intro front node' back hsplit _
  obtain ⟨rfl, rfl, rfl⟩ : front = [] ∧ node' = node ∧ back = [] := by
    cases front with
    | nil => simp_all
    | cons _ front => simp at hsplit
  exact ⟨number, t, h, hlen⟩

/-! ## Nodes that compute -/

theorem binToNum {a : Bytes} (h : IsOperand (value a)) :
    RunsInRange suite ctx [ofOpcode .binToNum] (a :: s) (encode (value a) :: s) :=
  singleton (run_binToNum h) ((Number.length_encode_le_four _).2 h)

theorem add {x y : Int} (hx : IsOperand x) (hy : IsOperand y) (hsum : IsOperand (x + y)) :
    RunsInRange suite ctx [ofOpcode .add] (encode y :: encode x :: s) (encode (x + y) :: s) :=
  singleton (run_add hx hy) ((Number.length_encode_le_four _).2 hsum)

theorem add_natCast {m n : Nat} (h : m + n < 0x80000000) :
    RunsInRange suite ctx [ofOpcode .add] (encode n :: encode m :: s) (encode (m + n : Nat) :: s) :=
  singleton (run_add_natCast h) ((Number.length_encode_le_four _).2 (Number.isOperand_natCast h))

theorem numToBin {a r : Bytes} (n : Int) (k : Nat) (hn : n = k) (hk : k ≤ Number.maxSize)
    (h : Number.resize (encode (value a)) k = .ok r) :
    RunsInRange suite ctx [.num n, ofOpcode .numToBin] (a :: s) (r :: s) := by
  have hlen := (Number.value_of_resize h).1
  have hsize : k ≤ maxElementSize := hk.trans (by decide)
  have hrun : run suite ctx [.num n, ofOpcode .numToBin] (a :: s) = .ok (r :: s) :=
    (run_numToBin_iff n k hn hsize).2 ⟨r, h, rfl⟩
  have hnum : RunsInRange suite ctx [.num n] (a :: s) (encode n :: a :: s) := of_run rfl (run_num n)
  rw [run_num] at hrun
  exact hnum.append (singleton hrun (by rw [hlen]; exact hk))

end RunsInRange

end Program

end ShareCovenant
