import Mathlib
import ShareCovenant.Proofs.Bytes
import ShareCovenant.Proofs.Except
import ShareCovenant.Script.Program

/-!
# Reading back pushes

The instruction loop takes a written push off the front of a script and leaves the rest, so a script of
pushes is read back as the list it was written from.
-/

namespace ShareCovenant.Script

theorem instructions_nil : instructions [] = [] := by rw [instructions]

theorem instructions_cons (code : UInt8) (bytes : Bytes) :
    instructions (code :: bytes) =
      (takeInstruction code bytes).1 :: instructions (takeInstruction code bytes).2 := by
  rw [instructions]

/-- A code above the pushes is an instruction of its own. -/
theorem instructions_op {code : UInt8} (h : 0x4e < code) (bytes : Bytes) :
    instructions (code :: bytes) = .op code :: instructions bytes := by
  have hn : 0x4e < code.toNat := UInt8.lt_iff_toNat_lt.1 h
  have hne : ∀ k : UInt8, k.toNat ≤ 0x4e → code ≠ k := by
    rintro k hk rfl
    omega
  have hle : ¬code ≤ 0x4b := by
    rw [UInt8.le_iff_toNat_le]
    change ¬code.toNat ≤ 0x4b
    omega
  rw [instructions_cons, takeInstruction, if_neg hle, if_neg (hne _ (by decide)),
    if_neg (hne _ (by decide)), if_neg (hne _ (by decide))]

theorem takePush_append (data rest : Bytes) :
    takePush data.length (data ++ rest) = (.push data, rest) := by
  simp [takePush]

theorem takeSizedPush_append (width : Nat) {data : Bytes} (h : data.length < 256 ^ width) (rest : Bytes) :
    takeSizedPush width (LittleEndian.encode width data.length ++ data ++ rest) = (.push data, rest) := by
  have htake : (LittleEndian.encode width data.length ++ data ++ rest).take width =
      LittleEndian.encode width data.length := by
    rw [List.append_assoc, List.take_left' (LittleEndian.length_encode _ _)]
  have hdrop : (LittleEndian.encode width data.length ++ data ++ rest).drop width = data ++ rest := by
    rw [List.append_assoc, List.drop_left' (LittleEndian.length_encode _ _)]
  rw [takeSizedPush, if_pos (by simp), htake, hdrop, LittleEndian.decode_encode_of_lt h, takePush_append]

/-- A written push is read back, whatever follows it. -/
theorem instructions_push {data bytes : Bytes} (h : push data = .ok bytes) (rest : Bytes) :
    instructions (bytes ++ rest) = .push data :: instructions rest := by
  unfold push at h
  simp only at h
  split_ifs at h with h1 h2 h3 h4
  · cases h
    have hcode : (UInt8.ofNat data.length).toNat = data.length := UInt8.toNat_ofNat_of_lt' (by
      change data.length < 256
      omega)
    have hle : UInt8.ofNat data.length ≤ 0x4b := by
      rw [UInt8.le_iff_toNat_le, hcode]
      exact h1
    rw [LittleEndian.encode, LittleEndian.encode, List.append_assoc, List.cons_append, List.nil_append,
      instructions_cons, takeInstruction, if_pos hle, hcode, takePush_append]
  · cases h
    have htake := takeSizedPush_append 1 (by simpa using h2) rest
    rw [List.cons_append, List.cons_append, instructions_cons, takeInstruction, if_neg (by decide),
      if_pos rfl, htake]
  · cases h
    have htake := takeSizedPush_append 2 (by simpa using h3) rest
    rw [List.cons_append, List.cons_append, instructions_cons, takeInstruction, if_neg (by decide),
      if_neg (by decide), if_pos rfl, htake]
  · cases h
    have htake := takeSizedPush_append 4 (by simpa using h4) rest
    rw [List.cons_append, List.cons_append, instructions_cons, takeInstruction, if_neg (by decide),
      if_neg (by decide), if_neg (by decide), if_pos rfl, htake]

theorem exists_of_pushAll_cons {data : Bytes} {rest : List Bytes} {bytes : Bytes}
    (h : pushAll (data :: rest) = .ok bytes) :
    ∃ first others, push data = .ok first ∧ pushAll rest = .ok others ∧ bytes = first ++ others := by
  rw [pushAll, bind_eq_ok_iff] at h
  obtain ⟨first, hfirst, h⟩ := h
  rw [bind_eq_ok_iff] at h
  obtain ⟨others, hothers, h⟩ := h
  cases h
  exact ⟨first, others, hfirst, hothers, rfl⟩

/-- Written pushes are read back in order, whatever follows them. -/
theorem instructions_pushAll {items : List Bytes} {bytes : Bytes} (h : pushAll items = .ok bytes)
    (rest : Bytes) : instructions (bytes ++ rest) = items.map .push ++ instructions rest := by
  induction items generalizing bytes with
  | nil =>
      cases h
      rfl
  | cons data items ih =>
      obtain ⟨first, others, hfirst, hothers, rfl⟩ := exists_of_pushAll_cons h
      rw [List.append_assoc, instructions_push hfirst, ih hothers, List.map_cons, List.cons_append]

theorem instructions_of_pushAll {items : List Bytes} {bytes : Bytes} (h : pushAll items = .ok bytes) :
    instructions bytes = items.map .push := by
  have hread := instructions_pushAll h []
  rwa [instructions_nil, List.append_nil, List.append_nil] at hread

/-- What is written as pushes is what a script pushes. -/
theorem pushes_of_pushAll {items : List Bytes} {bytes : Bytes} (h : pushAll items = .ok bytes) :
    pushes bytes = .ok items := by
  rw [pushes, instructions_of_pushAll h]
  exact mapM_eq_ok_of_forall₂ (List.forall₂_map_left_iff.2 (List.forall₂_same.2 fun _ _ => rfl))

theorem push_isOk {data : Bytes} (h : data.length < 0x100000000) : ∃ bytes, push data = .ok bytes := by
  unfold push
  simp only
  split_ifs
  all_goals exact ⟨_, rfl⟩

theorem length_lt_of_push {data bytes : Bytes} (h : push data = .ok bytes) : data.length < 0x100000000 := by
  unfold push at h
  simp only at h
  split_ifs at h with h1 h2 h3 h4
  all_goals omega

theorem pushAll_isOk_iff {items : List Bytes} :
    (∃ bytes, pushAll items = .ok bytes) ↔ ∀ item ∈ items, item.length < 0x100000000 := by
  induction items with
  | nil => exact ⟨fun _ => List.forall_mem_nil _, fun _ => ⟨[], rfl⟩⟩
  | cons data items ih =>
      rw [List.forall_mem_cons, ← ih]
      constructor
      · rintro ⟨bytes, h⟩
        obtain ⟨first, others, hfirst, hothers, -⟩ := exists_of_pushAll_cons h
        exact ⟨length_lt_of_push hfirst, others, hothers⟩
      · rintro ⟨hdata, others, hothers⟩
        obtain ⟨first, hfirst⟩ := push_isOk hdata
        refine ⟨first ++ others, ?_⟩
        rw [pushAll, hfirst, hothers]
        rfl

/-- Pushes that have a form survive: their script consists of them alone, in order, and reading it fails
nowhere. A push has a form if its length fits into four bytes. -/
theorem exists_pushAll_and_pushes_iff (items : List Bytes) :
    (∃ script, pushAll items = .ok script ∧ instructions script = items.map .push ∧
        pushes script = .ok items) ↔
      ∀ item ∈ items, item.length < 2 ^ 32 := by
  refine Iff.trans ⟨?_, ?_⟩ pushAll_isOk_iff
  · rintro ⟨script, h, -, -⟩
    exact ⟨script, h⟩
  · rintro ⟨script, h⟩
    exact ⟨script, h, instructions_of_pushAll h, pushes_of_pushAll h⟩

/-- The number five is pushed as a byte, not by the code that pushes it. -/
example : pushAll [[], [5]] = .ok [0x00, 0x01, 0x05] := rfl

end ShareCovenant.Script
