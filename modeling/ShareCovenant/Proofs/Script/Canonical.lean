import Mathlib
import ShareCovenant.Proofs.Script.Number

/-!
# One minimal string for each number

Scripts compare numbers as byte strings, so each number must have one string. The minimal strings are those that
`encode` writes, an operand of arithmetic is read from such a string of at most four bytes and from no other, and
conversions lead from every string to the minimal one of its number and back to a string of any size that holds it.
-/

namespace ShareCovenant.Number

/-! ## Literals and operands -/

theorem isMinimal_and_value_eq_iff (bs : Bytes) (n : Int) :
    isMinimal bs = true ∧ value bs = n ↔ bs = encode n := by
  rw [isMinimal_iff]
  constructor
  · rintro ⟨h, rfl⟩
    exact h
  · rintro rfl
    rw [value_encode]
    exact ⟨rfl, rfl⟩

theorem isMinimal_iff_exists (bs : Bytes) : isMinimal bs = true ↔ ∃ n, bs = encode n := by
  simp only [← isMinimal_and_value_eq_iff, exists_and_left, exists_eq', and_true]

theorem isOperand_iff (n : Int) : IsOperand n ↔ |n| ≤ 2 ^ 31 - 1 := by
  rw [IsOperand, Int.abs_eq_natAbs]
  omega

theorem decode_eq_ok_iff_length (bs : Bytes) (n : Int) : decode bs = .ok n ↔ bs.length ≤ 4 ∧ bs = encode n := by
  rw [decode_eq_ok_iff, ← length_encode_le_four]
  constructor
  · rintro ⟨rfl, hlen⟩
    exact ⟨hlen, rfl⟩
  · rintro ⟨hlen, rfl⟩
    exact ⟨rfl, hlen⟩

theorem decode_eq_numberOverflow_iff (bs : Bytes) (size : Nat) :
    decode bs = .error (.numberOverflow size) ↔ 4 < bs.length ∧ size = bs.length := by
  rw [decode, maxSize]
  split_ifs with hlong hminimal
  · simp [hlong, eq_comm]
  · simp [hlong]
  · simp [hlong]

theorem decode_eq_nonMinimal_iff (bs : Bytes) :
    decode bs = .error .nonMinimal ↔ bs.length ≤ 4 ∧ ∀ n, bs ≠ encode n := by
  rw [← not_exists, ← isMinimal_iff_exists, decode, maxSize]
  split_ifs with hlong hminimal
  · simp [hlong]
  · simp [hminimal]
  · simp [not_lt.1 hlong, hminimal]

/-- What a literal writes is what arithmetic reads: each number has one minimal string, and that string is the
operand with this number, if it has at most four bytes. All other strings are refused, the long ones for their
size. -/
theorem eq_encode_iff_and_decode_iff (bs : Bytes) (n : Int) :
    (isMinimal bs = true ∧ value bs = n ↔ bs = encode n) ∧
      (decode bs = .ok n ↔ bs.length ≤ 4 ∧ bs = encode n) ∧
      ((∃ operand, decode operand = .ok n) ↔ |n| ≤ 2 ^ 31 - 1) ∧
      (decode bs = .error (.numberOverflow bs.length) ↔ 4 < bs.length) ∧
      (decode bs = .error .nonMinimal ↔ bs.length ≤ 4 ∧ ∀ m, bs ≠ encode m) := by
  refine ⟨isMinimal_and_value_eq_iff bs n, decode_eq_ok_iff_length bs n, ?_, ?_, decode_eq_nonMinimal_iff bs⟩
  · rw [← isOperand_iff]
    constructor
    · rintro ⟨operand, h⟩
      exact ((decode_eq_ok_iff operand n).1 h).2
    · intro h
      exact ⟨encode n, decode_encode h⟩
  · rw [decode_eq_numberOverflow_iff]
    exact and_iff_left rfl

/-! ## Conversions -/

theorem minimize_minimize (bs : Bytes) : minimize (minimize bs) = minimize bs := by
  rw [minimize_eq bs, minimize_encode]

theorem minimize_eq_minimize_iff (as bs : Bytes) : minimize as = minimize bs ↔ value as = value bs := by
  rw [minimize_eq, minimize_eq, encode_injective.eq_iff]

theorem resize_eq_error_iff (bs : Bytes) (size : Nat) (e : ScriptError) :
    resize bs size = .error e ↔ size < bs.length ∧ e = .impossibleEncoding := by
  rw [resize]
  split_ifs with hlong hsame
  · simp [hlong, eq_comm]
  · simp [hlong]
  · cases bs.getLast? with
    | none => simp [hlong]
    | some last => simp [hlong]

/-- Every size that holds the minimal string of a number holds the number. -/
theorem length_minimize_le_iff (bs : Bytes) (size : Nat) :
    (minimize bs).length ≤ size ↔ ∃ filled, resize (minimize bs) size = .ok filled ∧ filled.length = size ∧
      value filled = value bs ∧ minimize filled = minimize bs := by
  constructor
  · intro hle
    cases h : resize (minimize bs) size with
    | error e => exact absurd ((resize_eq_error_iff _ _ e).1 h).1 (not_lt.2 hle)
    | ok filled =>
        rw [minimize_eq bs] at h
        obtain ⟨hlen, hvalue⟩ := value_of_resize h
        exact ⟨filled, rfl, hlen, hvalue, (minimize_eq_minimize_iff _ _).2 hvalue⟩
  · rintro ⟨filled, h, -⟩
    by_contra hlt
    rw [(resize_eq_error_iff _ _ _).2 ⟨not_le.1 hlt, rfl⟩] at h
    cases h

/-- Conversions keep the number: minimizing leads to one string for all strings of a number, a string counts as
true if its number is not zero, and filling up fails only where the minimal string does not fit. -/
theorem minimize_and_resize_iff (bs : Bytes) :
    isMinimal (minimize bs) = true ∧ value (minimize bs) = value bs ∧ minimize (minimize bs) = minimize bs ∧
      (∀ as, minimize as = minimize bs ↔ value as = value bs) ∧ (isTrue bs = true ↔ value bs ≠ 0) ∧
      (∀ size, resize (minimize bs) size = .error .impossibleEncoding ↔ size < (minimize bs).length) ∧
      ∀ size, (minimize bs).length ≤ size ↔ ∃ filled, resize (minimize bs) size = .ok filled ∧
        filled.length = size ∧ value filled = value bs ∧ minimize filled = minimize bs := by
  have hminimal : isMinimal (minimize bs) = true ∧ value (minimize bs) = value bs :=
    (isMinimal_and_value_eq_iff _ _).2 (minimize_eq bs)
  refine ⟨hminimal.1, hminimal.2, minimize_minimize bs, fun as => minimize_eq_minimize_iff as bs, isTrue_iff bs,
    fun size => ?_, length_minimize_le_iff bs⟩
  rw [resize_eq_error_iff]
  exact and_iff_left rfl

end ShareCovenant.Number
