import Mathlib
import ShareCovenant.Proofs.Except
import ShareCovenant.Proofs.Script.Number
import ShareCovenant.Script.Program

/-!
# Steps of a program

What the first node of a program does to the elements on top of a stack. A node that cannot fail there
rewrites the run; a node that can fail is given by the condition under which the run goes on, so that a
successful run unfolds to the conjunction of all its conditions.
-/

namespace ShareCovenant.Program

open Node (ofOpcode checking)
open Number (encode value IsOperand)

variable {suite : Suite} {ctx : Option SpendContext} {p : Program} {s t : Stack}

/-! ## Sequences and branches -/

@[simp] theorem run_nil : run suite ctx [] s = .ok s := by rw [run]

theorem run_cons (node : Node) :
    run suite ctx (node :: p) s = runNode suite ctx node s >>= run suite ctx p := by
  rw [run]

theorem run_append (p q : Program) :
    run suite ctx (p ++ q) s = run suite ctx p s >>= run suite ctx q := by
  induction p generalizing s with
  | nil =>
      rw [List.nil_append, run_nil]
      rfl
  | cons node nodes ih =>
      rw [List.cons_append, run_cons, run_cons]
      cases runNode suite ctx node s with
      | error e => rfl
      | ok u => exact ih

@[simp] theorem run_num (n : Int) : run suite ctx (.num n :: p) s = run suite ctx p (encode n :: s) := by
  rw [run_cons]
  rfl

@[simp] theorem run_data (bytes : Bytes) :
    run suite ctx (.data bytes :: p) s = run suite ctx p (bytes :: s) := by
  rw [run_cons]
  rfl

theorem run_ifThen (body : Program) (c : Bytes) :
    run suite ctx (.ifThen body :: p) (c :: s) =
      run suite ctx (if Number.isTrue c then body ++ p else p) s := by
  change (if Number.isTrue c then run suite ctx body s else .ok s) >>= run suite ctx p = _
  cases Number.isTrue c with
  | true => exact (run_append body p).symm
  | false => rfl

theorem run_ifElse (body other : Program) (c : Bytes) :
    run suite ctx (.ifElse body other :: p) (c :: s) =
      run suite ctx ((if Number.isTrue c then body else other) ++ p) s := by
  change (if Number.isTrue c then run suite ctx body s else run suite ctx other s) >>= run suite ctx p = _
  cases Number.isTrue c with
  | true => exact (run_append body p).symm
  | false => exact (run_append other p).symm

theorem runCode_code (op : Opcode) : runCode suite ctx op.code s = op.run suite ctx s := by
  cases op <;> rfl

theorem run_opcode (op : Opcode) :
    run suite ctx (ofOpcode op :: p) s = op.run suite ctx s >>= run suite ctx p := by
  rw [← runCode_code]
  rfl

theorem run_check (op : Opcode) :
    run suite ctx (checking op :: p) s = op.run suite ctx s >>= run suite ctx p := by
  rw [← runCode_code]
  rfl

/-- An opcode given by the function of the stack that it is. -/
theorem run_opcode_eq {op : Opcode} (f : Stack → Except ScriptError Stack)
    (hop : ∀ s, op.run suite ctx s = f s) :
    run suite ctx (ofOpcode op :: p) s = f s >>= run suite ctx p := by
  rw [run_opcode, hop]

/-! ## Moving elements -/

section Moving

variable (a b c d : Bytes)

@[simp] theorem run_drop : run suite ctx (ofOpcode .drop :: p) (a :: s) = run suite ctx p s := by
  rw [run_opcode]
  rfl

@[simp] theorem run_drop2 : run suite ctx (ofOpcode .drop2 :: p) (b :: a :: s) = run suite ctx p s := by
  rw [run_opcode]
  rfl

@[simp] theorem run_dup : run suite ctx (ofOpcode .dup :: p) (a :: s) = run suite ctx p (a :: a :: s) := by
  rw [run_opcode]
  rfl

@[simp] theorem run_dup3 :
    run suite ctx (ofOpcode .dup3 :: p) (c :: b :: a :: s) =
      run suite ctx p (c :: b :: a :: c :: b :: a :: s) := by
  rw [run_opcode]
  rfl

@[simp] theorem run_nip :
    run suite ctx (ofOpcode .nip :: p) (b :: a :: s) = run suite ctx p (b :: s) := by
  rw [run_opcode]
  rfl

@[simp] theorem run_dupSecond :
    run suite ctx (ofOpcode .dupSecond :: p) (b :: a :: s) = run suite ctx p (a :: b :: a :: s) := by
  rw [run_opcode]
  rfl

@[simp] theorem run_rot :
    run suite ctx (ofOpcode .rot :: p) (c :: b :: a :: s) = run suite ctx p (a :: c :: b :: s) := by
  rw [run_opcode]
  rfl

@[simp] theorem run_swap :
    run suite ctx (ofOpcode .swap :: p) (b :: a :: s) = run suite ctx p (a :: b :: s) := by
  rw [run_opcode]
  rfl

@[simp] theorem run_swap2 :
    run suite ctx (ofOpcode .swap2 :: p) (d :: c :: b :: a :: s) =
      run suite ctx p (b :: a :: d :: c :: s) := by
  rw [run_opcode]
  rfl

@[simp] theorem run_size :
    run suite ctx (ofOpcode .size :: p) (a :: s) = run suite ctx p (encode a.length :: a :: s) := by
  rw [run_opcode]
  rfl

@[simp] theorem run_reverseBytes :
    run suite ctx (ofOpcode .reverseBytes :: p) (a :: s) = run suite ctx p (a.reverse :: s) := by
  rw [run_opcode]
  rfl

@[simp] theorem run_sha256 :
    run suite ctx (ofOpcode .sha256 :: p) (a :: s) = run suite ctx p ((suite.sha256 a).val :: s) := by
  rw [run_opcode]
  rfl

@[simp] theorem run_hash160 :
    run suite ctx (ofOpcode .hash160 :: p) (a :: s) = run suite ctx p ((suite.hash160 a).val :: s) := by
  rw [run_opcode]
  rfl

@[simp] theorem run_hash256 :
    run suite ctx (ofOpcode .hash256 :: p) (a :: s) = run suite ctx p ((suite.sha256d a).val :: s) := by
  rw [run_opcode]
  rfl

end Moving

/-! ## Elements at a depth -/

theorem peek_of_getElem? {depth : Int} (h0 : 0 ≤ depth) {item : Bytes} (h : s[depth.toNat]? = some item) :
    Stack.peek s depth = .ok item := by
  rw [Stack.peek, h]
  simp only
  rw [if_neg (by omega)]

theorem popNumber_of_not_isOperand {n : Int} (hn : ¬IsOperand n) :
    Stack.popNumber (encode n :: s) = .error (.numberOverflow (encode n).length) := by
  rw [← Number.length_encode_le_four] at hn
  simp only [Stack.popNumber, Stack.pop, bind, Except.bind, Number.decode]
  rw [if_pos (by omega)]

theorem popNumber_encode {n : Int} (hn : IsOperand n) : Stack.popNumber (encode n :: s) = .ok (n, s) := by
  simp only [Stack.popNumber, Stack.pop, bind, Except.bind, Number.decode_encode hn]
  rfl

theorem run_pick (depth : Int) (h0 : 0 ≤ depth) (hop : IsOperand depth) {item : Bytes}
    (h : s[depth.toNat]? = some item) :
    run suite ctx (.num depth :: ofOpcode .pick :: p) s = run suite ctx p (item :: s) := by
  rw [run_num, run_opcode_eq Stack.pick fun _ => rfl]
  simp only [Stack.pick, popNumber_encode hop, bind, Except.bind, peek_of_getElem? h0 h]
  rfl

theorem run_roll (depth : Int) (h0 : 0 ≤ depth) (hop : IsOperand depth) {item : Bytes}
    (h : s[depth.toNat]? = some item) :
    run suite ctx (.num depth :: ofOpcode .roll :: p) s =
      run suite ctx p (item :: s.eraseIdx depth.toNat) := by
  rw [run_num, run_opcode_eq Stack.roll fun _ => rfl]
  simp only [Stack.roll, popNumber_encode hop, bind, Except.bind, peek_of_getElem? h0 h]
  rfl

/-- An element that is moved is there. -/
theorem lt_length_of_run_roll (depth : Int) (hop : IsOperand depth)
    (h : run suite ctx (.num depth :: ofOpcode .roll :: p) s = .ok t) : depth.toNat < s.length := by
  rw [run_num, run_opcode_eq Stack.roll fun _ => rfl, bind_eq_ok_iff] at h
  obtain ⟨u, hu, -⟩ := h
  by_contra hlen
  have hnone : s[depth.toNat]? = none := List.getElem?_eq_none (by omega)
  simp only [Stack.roll, popNumber_encode hop, bind, Except.bind, Stack.peek, hnone] at hu
  cases hu

/-! ## Byte strings -/

section Conditions

variable (a b : Bytes)

theorem run_cat_iff :
    run suite ctx (ofOpcode .cat :: p) (b :: a :: s) = .ok t ↔
      a.length + b.length ≤ maxElementSize ∧ run suite ctx p ((a ++ b) :: s) = .ok t := by
  rw [run_opcode_eq Stack.cat fun _ => rfl]
  simp only [Stack.cat]
  split_ifs with h
  · exact iff_of_false (by simp [bind, Except.bind]) (by omega)
  · exact ⟨fun hrun => ⟨by omega, hrun⟩, fun hrun => hrun.2⟩

theorem run_cat {a b : Bytes} (h : a.length + b.length ≤ maxElementSize) :
    run suite ctx (ofOpcode .cat :: p) (b :: a :: s) = run suite ctx p ((a ++ b) :: s) := by
  rw [run_opcode_eq Stack.cat fun _ => rfl]
  simp only [Stack.cat]
  rw [if_neg (by omega)]
  rfl

/-- A position is the encoding of a number that does not exceed the length. -/
theorem run_split_iff (position : Bytes) :
    run suite ctx (ofOpcode .split :: p) (position :: a :: s) = .ok t ↔
      ∃ k : Nat, position = encode k ∧ IsOperand k ∧ k ≤ a.length ∧
        run suite ctx p (a.drop k :: a.take k :: s) = .ok t := by
  rw [run_opcode_eq Stack.split fun _ => rfl]
  simp only [Stack.split, Stack.popNumber, Stack.pop, bind, Except.bind]
  cases hdec : Number.decode position with
  | error e =>
      refine iff_of_false (by simp) ?_
      rintro ⟨k, rfl, hk, -⟩
      rw [Number.decode_encode hk] at hdec
      cases hdec
  | ok n =>
      obtain ⟨rfl, hn⟩ := (Number.decode_eq_ok_iff _ _).1 hdec
      simp only [pure, Except.pure]
      split_ifs with hrange
      · refine iff_of_false (by simp) ?_
        rintro ⟨k, hk, -, hlen, -⟩
        have := Number.encode_injective hk
        omega
      · have hcast : ((n.toNat : Nat) : Int) = n := by omega
        constructor
        · intro hrun
          exact ⟨n.toNat, by rw [hcast], by rwa [hcast], by omega, hrun⟩
        · rintro ⟨k, hk, -, -, hrun⟩
          have hnk := Number.encode_injective hk
          subst hnk
          exact hrun

/-- Cuts an element that has bytes up to a fixed position. -/
theorem run_split_append {front back : Bytes} (n : Int) (hn : n = front.length) (hop : IsOperand n) :
    run suite ctx (.num n :: ofOpcode .split :: p) ((front ++ back) :: s) =
      run suite ctx p (back :: front :: s) := by
  subst hn
  rw [run_num, run_opcode_eq Stack.split fun _ => rfl]
  simp only [Stack.split, popNumber_encode hop, Stack.pop, bind, Except.bind,
    Int.toNat_natCast, List.length_append, List.drop_left, List.take_left]
  rw [if_neg (by omega)]
  rfl

/-- Cuts an element at a fixed position. -/
theorem run_split_at_iff {a : Bytes} (n : Int) (k : Nat) (hn : n = k) (hop : IsOperand n) :
    run suite ctx (.num n :: ofOpcode .split :: p) (a :: s) = .ok t ↔
      ∃ front back, a = front ++ back ∧ front.length = k ∧ run suite ctx p (back :: front :: s) = .ok t := by
  constructor
  · intro h
    have hlen : k ≤ a.length := by
      rw [run_num, run_split_iff] at h
      obtain ⟨j, hj, -, hlen, -⟩ := h
      have : k = j := by exact_mod_cast hn.symm.trans (Number.encode_injective hj)
      omega
    have htake : (a.take k).length = k := List.length_take_of_le hlen
    refine ⟨a.take k, a.drop k, (List.take_append_drop k a).symm, htake, ?_⟩
    rw [← run_split_append n (by rw [htake, hn]) hop, List.take_append_drop]
    exact h
  · rintro ⟨front, back, rfl, hlen, hrun⟩
    rw [run_split_append n (by rw [hlen, hn]) hop]
    exact hrun

theorem run_bitAnd_iff :
    run suite ctx (ofOpcode .bitAnd :: p) (b :: a :: s) = .ok t ↔
      a.length = b.length ∧ run suite ctx p (List.zipWith (· &&& ·) a b :: s) = .ok t := by
  rw [run_opcode_eq Stack.bitAnd fun _ => rfl]
  simp only [Stack.bitAnd]
  split_ifs with h
  · exact ⟨fun hrun => ⟨h, hrun⟩, fun hrun => hrun.2⟩
  · exact iff_of_false (by simp [bind, Except.bind]) (by tauto)

theorem run_equalVerify_iff :
    run suite ctx (checking .equalVerify :: p) (b :: a :: s) = .ok t ↔
      a = b ∧ run suite ctx p s = .ok t := by
  rw [run_check]
  change (Stack.verify .equalVerify (a == b) s >>= run suite ctx p) = .ok t ↔ _
  by_cases h : a = b
  · simp [Stack.verify, bind, Except.bind, h]
  · simp [Stack.verify, bind, Except.bind, h]

/-! ## Numbers -/

theorem run_binToNum_iff :
    run suite ctx (ofOpcode .binToNum :: p) (a :: s) = .ok t ↔
      IsOperand (value a) ∧ run suite ctx p (encode (value a) :: s) = .ok t := by
  rw [run_opcode_eq Stack.binToNum fun _ => rfl, ← Number.length_encode_le_four]
  simp only [Stack.binToNum, Number.minimize_eq]
  split_ifs with h
  · exact iff_of_false (by simp [bind, Except.bind]) (by omega)
  · exact ⟨fun hrun => ⟨by omega, hrun⟩, fun hrun => hrun.2⟩

theorem run_binToNum {a : Bytes} (h : IsOperand (value a)) :
    run suite ctx (ofOpcode .binToNum :: p) (a :: s) = run suite ctx p (encode (value a) :: s) := by
  rw [← Number.length_encode_le_four] at h
  rw [run_opcode_eq Stack.binToNum fun _ => rfl]
  simp only [Stack.binToNum, Number.minimize_eq]
  rw [if_neg (by omega)]
  rfl

theorem run_numToBin_iff {a : Bytes} (n : Int) (k : Nat) (hn : n = k) (hk : k ≤ maxElementSize) :
    run suite ctx (.num n :: ofOpcode .numToBin :: p) (a :: s) = .ok t ↔
      ∃ r, Number.resize (encode (value a)) k = .ok r ∧ run suite ctx p (r :: s) = .ok t := by
  have hsize : maxElementSize = 520 := rfl
  have hop : IsOperand k := by
    simp only [IsOperand, Int.natAbs_natCast]
    omega
  rw [hn, run_num, run_opcode_eq Stack.numToBin fun _ => rfl]
  simp only [Stack.numToBin, popNumber_encode hop, Stack.pop, bind, Except.bind,
    Number.minimize_eq, Int.toNat_natCast, pure, Except.pure]
  rw [if_neg (by omega)]
  cases Number.resize (encode (value a)) k with
  | error e => simp
  | ok r => simp

end Conditions

section Arithmetic

variable (x y : Int)

theorem run_binary_iff {op : Opcode} {f : Int → Int → Except ScriptError Bytes}
    (hop : ∀ s, op.run suite ctx s = Stack.binary f s) :
    run suite ctx (ofOpcode op :: p) (encode y :: encode x :: s) = .ok t ↔
      IsOperand x ∧ IsOperand y ∧ ∃ r, f x y = .ok r ∧ run suite ctx p (r :: s) = .ok t := by
  rw [run_opcode, hop, bind_eq_ok_iff]
  by_cases hy : IsOperand y
  · by_cases hx : IsOperand x
    · have hbinary : Stack.binary f (encode y :: encode x :: s) = (f x y).map (· :: s) := by
        simp only [Stack.binary, popNumber_encode hy, popNumber_encode hx, bind, Except.bind]
        cases f x y <;> rfl
      rw [hbinary]
      cases f x y with
      | error e => simp [Except.map]
      | ok r => simp [Except.map, hx, hy]
    · have hbinary : Stack.binary f (encode y :: encode x :: s) =
          .error (.numberOverflow (encode x).length) := by
        simp only [Stack.binary, popNumber_encode hy, popNumber_of_not_isOperand hx, bind, Except.bind]
      rw [hbinary]
      exact iff_of_false (by simp) (by tauto)
  · have hbinary : Stack.binary f (encode y :: encode x :: s) =
        .error (.numberOverflow (encode y).length) := by
      simp only [Stack.binary, popNumber_of_not_isOperand hy, bind, Except.bind]
    rw [hbinary]
    exact iff_of_false (by simp) (by tauto)

theorem run_add {x y : Int} (hx : IsOperand x) (hy : IsOperand y) :
    run suite ctx (ofOpcode .add :: p) (encode y :: encode x :: s) =
      run suite ctx p (encode (x + y) :: s) := by
  rw [run_opcode_eq (Stack.binary fun a b => .ok (encode (a + b))) fun _ => rfl]
  simp only [Stack.binary, popNumber_encode hy, popNumber_encode hx, bind, Except.bind]
  rfl

/-- Numbers that are not negative are added if the sum is in range. -/
theorem run_add_natCast {m n : Nat} (h : m + n < 0x80000000) :
    run suite ctx (ofOpcode .add :: p) (encode n :: encode m :: s) =
      run suite ctx p (encode (m + n : Nat) :: s) := by
  rw [run_add (Number.isOperand_natCast (by omega)) (Number.isOperand_natCast (by omega)), Int.natCast_add]

theorem run_sub_iff :
    run suite ctx (ofOpcode .sub :: p) (encode y :: encode x :: s) = .ok t ↔
      IsOperand x ∧ IsOperand y ∧ run suite ctx p (encode (x - y) :: s) = .ok t := by
  rw [run_binary_iff x y (f := fun a b => .ok (encode (a - b))) fun _ => rfl]
  simp

theorem run_div_iff (hy : y ≠ 0) :
    run suite ctx (ofOpcode .div :: p) (encode y :: encode x :: s) = .ok t ↔
      IsOperand x ∧ IsOperand y ∧ run suite ctx p (encode (x.tdiv y) :: s) = .ok t := by
  rw [run_binary_iff x y (f := Stack.quotient) fun _ => rfl]
  simp [Stack.quotient, hy]

theorem run_lessThan_iff :
    run suite ctx (ofOpcode .lessThan :: p) (encode y :: encode x :: s) = .ok t ↔
      IsOperand x ∧ IsOperand y ∧ run suite ctx p (Number.ofBool (x < y) :: s) = .ok t := by
  rw [run_binary_iff x y (f := fun a b => .ok (Number.ofBool (a < b))) fun _ => rfl]
  simp

theorem run_atLeast {x y : Int} (hx : IsOperand x) (hy : IsOperand y) :
    run suite ctx (ofOpcode .atLeast :: p) (encode y :: encode x :: s) =
      run suite ctx p (Number.ofBool (x ≥ y) :: s) := by
  rw [run_opcode_eq (Stack.binary fun a b => .ok (Number.ofBool (a ≥ b))) fun _ => rfl]
  simp only [Stack.binary, popNumber_encode hy, popNumber_encode hx, bind, Except.bind]
  rfl

end Arithmetic

end ShareCovenant.Program
