import Mathlib
import ShareCovenant.Proofs.Script.Lowering
import ShareCovenant.Proofs.Script.Steps

/-!
# Scripts one after the other

The limit on elements is checked where a script starts, at pushes and by the two opcodes that make elements of
any size. No other step makes an element that is too large, so the stack that a script leaves is one that a
script can start from. As a script ends between two instructions and with all conditionals closed, a second
script goes on where the first one ends.
-/

namespace ShareCovenant

open Number (encode IsOperand)

/-- No element is too large. -/
def Stack.Fits (s : Stack) : Prop := ∀ item ∈ s, item.length ≤ maxElementSize

variable {suite : Suite} {ctx : Option SpendContext} {s t : Stack}

/-! ## Elements that opcodes make -/

theorem Number.length_encode_le_maxElementSize {n : Int} (h : n.natAbs < 128 * 256 ^ 4) :
    (encode n).length ≤ maxElementSize :=
  ((length_encode_le_iff n 4).2 h).trans (by decide)

theorem Number.length_ofBool_le (b : Bool) : (ofBool b).length ≤ maxElementSize := by
  cases b <;> decide

theorem FixedBytes.length_le_maxElementSize {n : Nat} (bytes : FixedBytes n) (h : n ≤ maxElementSize) :
    bytes.val.length ≤ maxElementSize := by
  rwa [bytes.property]

namespace Stack

theorem fits_cons_iff {item : Bytes} : Fits (item :: s) ↔ item.length ≤ maxElementSize ∧ s.Fits :=
  List.forall_mem_cons

theorem popNumber_eq_ok_iff {n : Int} : s.popNumber = .ok (n, t) ↔ s = encode n :: t ∧ IsOperand n := by
  constructor
  · intro h
    obtain ⟨⟨item, u⟩, hitem, hnumber⟩ := bind_eq_ok_iff.1 h
    obtain ⟨m, hm, hpair⟩ := bind_eq_ok_iff.1 hnumber
    cases hpair
    cases s with
    | nil => cases hitem
    | cons item s =>
        cases hitem
        obtain ⟨rfl, hn⟩ := (Number.decode_eq_ok_iff item n).1 hm
        exact ⟨rfl, hn⟩
  · rintro ⟨rfl, hn⟩
    exact Program.popNumber_encode hn

theorem mem_of_peek {depth : Int} {item : Bytes} (h : s.peek depth = .ok item) : item ∈ s := by
  unfold peek at h
  cases hget : s[depth.toNat]? with
  | none =>
      rw [hget] at h
      cases h
  | some found =>
      rw [hget] at h
      simp only at h
      split_ifs at h
      cases h
      exact List.mem_of_getElem? hget

/-! ## Groups of opcodes -/

theorem Fits.replaceTop (hs : s.Fits) {f : Bytes → Bytes}
    (hf : ∀ item, item.length ≤ maxElementSize → (f item).length ≤ maxElementSize)
    (h : s.replaceTop f = .ok t) : t.Fits := by
  cases s with
  | nil => cases h
  | cons item s =>
      cases h
      rw [fits_cons_iff] at hs ⊢
      exact ⟨hf item hs.1, hs.2⟩

theorem Fits.pick (hs : s.Fits) (h : s.pick = .ok t) : t.Fits := by
  obtain ⟨⟨depth, u⟩, hdepth, hcopy⟩ := bind_eq_ok_iff.1 h
  obtain ⟨item, hitem, ht⟩ := bind_eq_ok_iff.1 hcopy
  cases ht
  obtain ⟨rfl, -⟩ := popNumber_eq_ok_iff.1 hdepth
  rw [fits_cons_iff] at hs ⊢
  exact ⟨hs.2 item (mem_of_peek hitem), hs.2⟩

theorem Fits.roll (hs : s.Fits) (h : s.roll = .ok t) : t.Fits := by
  obtain ⟨⟨depth, u⟩, hdepth, hmove⟩ := bind_eq_ok_iff.1 h
  obtain ⟨item, hitem, ht⟩ := bind_eq_ok_iff.1 hmove
  cases ht
  obtain ⟨rfl, -⟩ := popNumber_eq_ok_iff.1 hdepth
  rw [fits_cons_iff] at hs ⊢
  exact ⟨hs.2 item (mem_of_peek hitem), fun other hmem => hs.2 other (List.mem_of_mem_eraseIdx hmem)⟩

theorem Fits.cat (hs : s.Fits) (h : s.cat = .ok t) : t.Fits := by
  match s, hs, h with
  | b :: a :: s, hs, h =>
      simp only [Stack.cat] at h
      split_ifs at h with hlarge
      cases h
      rw [fits_cons_iff, List.length_append]
      rw [fits_cons_iff, fits_cons_iff] at hs
      exact ⟨by omega, hs.2.2⟩

theorem Fits.split (hs : s.Fits) (h : s.split = .ok t) : t.Fits := by
  obtain ⟨⟨position, u⟩, hposition, hcut⟩ := bind_eq_ok_iff.1 h
  obtain ⟨⟨data, v⟩, hdata, hparts⟩ := bind_eq_ok_iff.1 hcut
  obtain ⟨rfl, -⟩ := popNumber_eq_ok_iff.1 hposition
  cases u with
  | nil => cases hdata
  | cons data u =>
      cases hdata
      dsimp only at hparts
      split_ifs at hparts with hrange
      · cases hparts
      · cases hparts
        rw [fits_cons_iff, fits_cons_iff] at hs ⊢
        rw [List.length_drop, List.length_take]
        exact ⟨by omega, by omega, hs.2.2⟩

theorem Fits.numToBin (hs : s.Fits) (h : s.numToBin = .ok t) : t.Fits := by
  obtain ⟨⟨size, u⟩, hsize, hfill⟩ := bind_eq_ok_iff.1 h
  obtain ⟨rfl, -⟩ := popNumber_eq_ok_iff.1 hsize
  dsimp only at hfill
  split_ifs at hfill with hrange
  · cases hfill
  · obtain ⟨⟨data, v⟩, hdata, hresize⟩ := bind_eq_ok_iff.1 hfill
    obtain ⟨filled, hfilled, ht⟩ := bind_eq_ok_iff.1 hresize
    cases ht
    cases u with
    | nil => cases hdata
    | cons data u =>
        cases hdata
        rw [Number.minimize_eq] at hfilled
        rw [fits_cons_iff, (Number.value_of_resize hfilled).1]
        rw [fits_cons_iff, fits_cons_iff] at hs
        exact ⟨by omega, hs.2.2⟩

theorem Fits.binToNum (hs : s.Fits) (h : s.binToNum = .ok t) : t.Fits := by
  cases s with
  | nil => cases h
  | cons data s =>
      unfold Stack.binToNum at h
      simp only at h
      split_ifs at h with hlong
      cases h
      rw [fits_cons_iff] at hs ⊢
      exact ⟨(not_lt.1 hlong).trans (by decide), hs.2⟩

theorem Fits.bitAnd (hs : s.Fits) (h : s.bitAnd = .ok t) : t.Fits := by
  match s, hs, h with
  | b :: a :: s, hs, h =>
      simp only [Stack.bitAnd] at h
      split_ifs at h with hsize
      cases h
      rw [fits_cons_iff, fits_cons_iff] at hs
      rw [fits_cons_iff, List.length_zipWith]
      exact ⟨by omega, hs.2.2⟩

theorem Fits.binary (hs : s.Fits) {f : Int → Int → Except ScriptError Bytes}
    (hf : ∀ x y item, IsOperand x → IsOperand y → f x y = .ok item → item.length ≤ maxElementSize)
    (h : s.binary f = .ok t) : t.Fits := by
  obtain ⟨⟨y, u⟩, hy, hfirst⟩ := bind_eq_ok_iff.1 h
  obtain ⟨⟨x, v⟩, hx, hresult⟩ := bind_eq_ok_iff.1 hfirst
  obtain ⟨item, hitem, ht⟩ := bind_eq_ok_iff.1 hresult
  cases ht
  obtain ⟨rfl, hyop⟩ := popNumber_eq_ok_iff.1 hy
  obtain ⟨rfl, hxop⟩ := popNumber_eq_ok_iff.1 hx
  rw [fits_cons_iff, fits_cons_iff] at hs
  rw [fits_cons_iff]
  exact ⟨hf x y item hxop hyop hitem, hs.2.2⟩

theorem length_quotient_le {x y : Int} {item : Bytes} (hx : IsOperand x) (h : quotient x y = .ok item) :
    item.length ≤ maxElementSize := by
  unfold quotient at h
  split_ifs at h
  cases h
  refine Number.length_encode_le_maxElementSize ?_
  have hquot : (x.tdiv y).natAbs ≤ x.natAbs := by
    rw [Int.natAbs_tdiv]
    exact Nat.div_le_self _ _
  unfold IsOperand at hx
  omega

theorem Fits.compare (hs : s.Fits) {same : Bool} (h : s.compare = .ok (same, t)) : t.Fits := by
  match s, hs, h with
  | b :: a :: s, hs, h =>
      cases h
      rw [fits_cons_iff, fits_cons_iff] at hs
      exact hs.2.2

theorem Fits.verify {op : Opcode} {ok : Bool} (hs : s.Fits) (h : s.verify op ok = .ok t) : t.Fits := by
  unfold Stack.verify at h
  split_ifs at h
  cases h
  exact hs

theorem Fits.checkSig {op : Opcode} {valid : Bool} (hs : s.Fits)
    (h : s.checkSig suite ctx op = .ok (valid, t)) : t.Fits := by
  match ctx, s, hs, h with
  | some ctx, pubkey :: sig :: s, hs, h =>
      obtain ⟨signed, -, hpassed⟩ := bind_eq_ok_iff.1 h
      obtain ⟨passed, -, ht⟩ := bind_eq_ok_iff.1 hpassed
      cases ht
      rw [fits_cons_iff, fits_cons_iff] at hs
      exact hs.2.2

theorem Fits.checkDataSig (hs : s.Fits) (h : s.checkDataSig suite = .ok t) : t.Fits := by
  match s, hs, h with
  | pubkey :: msg :: sig :: s, hs, h =>
      simp only [Stack.checkDataSig] at h
      split_ifs at h with hsize
      obtain ⟨valid, -, ht⟩ := bind_eq_ok_iff.1 h
      cases ht
      rw [fits_cons_iff, fits_cons_iff, fits_cons_iff] at hs
      rw [fits_cons_iff]
      exact ⟨Number.length_ofBool_le valid, hs.2.2.2⟩

end Stack

/-! ## Steps and runs -/

/-- No opcode makes an element that is too large. -/
theorem Opcode.fits_run {op : Opcode} (hs : s.Fits) (h : op.run suite ctx s = .ok t) : t.Fits := by
  cases op with
  | ifTrue | ifFalse | otherwise | endIf => cases h
  | drop | drop2 | dup | dup3 | nip | dupSecond | rot | swap | swap2 =>
      simp only [Opcode.run] at h
      split at h
      · cases h
        simp only [Stack.fits_cons_iff] at hs ⊢
        tauto
      · cases h
  | size =>
      simp only [Opcode.run] at h
      split at h
      · cases h
        simp only [Stack.fits_cons_iff] at hs ⊢
        refine ⟨Number.length_encode_le_maxElementSize ?_, hs⟩
        unfold maxElementSize at hs
        omega
      · cases h
  | reverseBytes => exact hs.replaceTop (fun item hitem => by rwa [List.length_reverse]) h
  | sha256 | hash160 | hash256 =>
      exact hs.replaceTop (fun item _ => FixedBytes.length_le_maxElementSize _ (by decide)) h
  | pick => exact hs.pick h
  | roll => exact hs.roll h
  | cat => exact hs.cat h
  | split => exact hs.split h
  | numToBin => exact hs.numToBin h
  | binToNum => exact hs.binToNum h
  | bitAnd => exact hs.bitAnd h
  | add | sub =>
      simp only [Opcode.run] at h
      -- Operands have at most four bytes, so their sum or difference has at most five.
      refine hs.binary (fun x y item hx hy hitem => ?_) h
      cases hitem
      unfold IsOperand at hx hy
      exact Number.length_encode_le_maxElementSize (by omega)
  | div =>
      simp only [Opcode.run] at h
      exact hs.binary (fun x y item hx _ hitem => Stack.length_quotient_le hx hitem) h
  | lessThan | atLeast =>
      simp only [Opcode.run] at h
      refine hs.binary (fun x y item _ _ hitem => ?_) h
      cases hitem
      exact Number.length_ofBool_le _
  | equal =>
      obtain ⟨⟨same, u⟩, hsame, ht⟩ := bind_eq_ok_iff.1 h
      cases ht
      exact Stack.fits_cons_iff.2 ⟨Number.length_ofBool_le same, hs.compare hsame⟩
  | equalVerify =>
      obtain ⟨⟨same, u⟩, hsame, hverify⟩ := bind_eq_ok_iff.1 h
      exact (hs.compare hsame).verify hverify
  | checkSig =>
      obtain ⟨⟨valid, u⟩, hvalid, ht⟩ := bind_eq_ok_iff.1 h
      cases ht
      exact Stack.fits_cons_iff.2 ⟨Number.length_ofBool_le valid, hs.checkSig hvalid⟩
  | checkSigVerify =>
      obtain ⟨⟨valid, u⟩, hvalid, hverify⟩ := bind_eq_ok_iff.1 h
      exact (hs.checkSig hvalid).verify hverify
  | checkDataSig => exact hs.checkDataSig h

namespace Script

theorem natAbs_smallInt?_lt {code : UInt8} {n : Int} (h : Opcode.smallInt? code = some n) : n.natAbs < 256 := by
  have hcode := code.toNat_lt
  unfold Opcode.smallInt? at h
  split_ifs at h
  · cases h
    decide
  · cases h
    omega

theorem fits_step {code : UInt8} (hs : s.Fits) (h : step suite ctx code s = .ok t) : t.Fits := by
  unfold step at h
  cases hsmall : Opcode.smallInt? code with
  | some n =>
      rw [hsmall] at h
      cases h
      have hn := natAbs_smallInt?_lt hsmall
      exact Stack.fits_cons_iff.2 ⟨Number.length_encode_le_maxElementSize (by omega), hs⟩
  | none =>
      cases hop : Opcode.ofCode? code with
      | some op =>
          rw [hsmall, hop] at h
          exact Opcode.fits_run hs h
      | none =>
          rw [hsmall, hop] at h
          cases h

theorem State.fits_enter {st st' : State} {wanted : Bool} (hs : st.stack.Fits) (h : st.enter wanted = .ok st') :
    st'.stack.Fits := by
  obtain ⟨s, cs⟩ := st
  unfold State.enter at h
  split_ifs at h
  · cases s with
    | nil => cases h
    | cons top s =>
        cases h
        exact (Stack.fits_cons_iff.1 hs).2
  · cases h
    exact hs

/-- An instruction leaves a stack that a script can start from. -/
theorem State.fits_apply {i : Instruction} {st st' : State} (hs : st.stack.Fits)
    (h : State.apply suite ctx st i = .ok st') : st'.stack.Fits := by
  cases i with
  | truncated => cases h
  | push data =>
      simp only [State.apply] at h
      split_ifs at h with hlarge
      · cases h
        exact Stack.fits_cons_iff.2 ⟨not_lt.1 hlarge, hs⟩
      · cases h
        exact hs
  | op code =>
      simp only [State.apply] at h
      split at h
      · exact fits_enter hs h
      · exact fits_enter hs h
      · unfold State.toggle at h
        split at h
        · cases h
        · cases h
          exact hs
      · unfold State.leave at h
        split at h
        · cases h
        · cases h
          exact hs
      · split_ifs at h
        · obtain ⟨t, hstep, ht⟩ := bind_eq_ok_iff.1 h
          cases ht
          exact fits_step hs hstep
        · cases h
          exact hs

theorem fits_runAll {is : List Instruction} {st st' : State} (hs : st.stack.Fits)
    (h : runAll suite ctx is st = .ok st') : st'.stack.Fits := by
  induction is generalizing st with
  | nil =>
      cases h
      exact hs
  | cons i is ih =>
      rw [runAll_cons, bind_eq_ok_iff] at h
      obtain ⟨mid, happly, hrun⟩ := h
      exact ih (State.fits_apply hs happly) hrun

/-! ## Instructions of joined scripts -/

/-- A push that does not run past the end is the same in a longer script. -/
theorem takePush_append_of_ne {n : Nat} {bytes : Bytes} (h : (takePush n bytes).1 ≠ .truncated) (rest : Bytes) :
    takePush n (bytes ++ rest) = ((takePush n bytes).1, (takePush n bytes).2 ++ rest) := by
  by_cases hlen : n ≤ bytes.length
  · have hlong : n ≤ (bytes ++ rest).length := by
      rw [List.length_append]
      omega
    rw [takePush, takePush, if_pos hlen, if_pos hlong, List.take_append_of_le_length hlen,
      List.drop_append_of_le_length hlen]
  · rw [takePush, if_neg hlen] at h
    exact absurd rfl h

theorem takeSizedPush_append_of_ne {width : Nat} {bytes : Bytes}
    (h : (takeSizedPush width bytes).1 ≠ .truncated) (rest : Bytes) :
    takeSizedPush width (bytes ++ rest) =
      ((takeSizedPush width bytes).1, (takeSizedPush width bytes).2 ++ rest) := by
  by_cases hlen : width ≤ bytes.length
  · have hlong : width ≤ (bytes ++ rest).length := by
      rw [List.length_append]
      omega
    rw [takeSizedPush, if_pos hlen] at h
    rw [takeSizedPush, takeSizedPush, if_pos hlen, if_pos hlong, List.take_append_of_le_length hlen,
      List.drop_append_of_le_length hlen, takePush_append_of_ne h]
  · rw [takeSizedPush, if_neg hlen] at h
    exact absurd rfl h

theorem takeInstruction_append_of_ne {code : UInt8} {bytes : Bytes}
    (h : (takeInstruction code bytes).1 ≠ .truncated) (rest : Bytes) :
    takeInstruction code (bytes ++ rest) =
      ((takeInstruction code bytes).1, (takeInstruction code bytes).2 ++ rest) := by
  unfold takeInstruction at h ⊢
  split_ifs at h ⊢
  · exact takePush_append_of_ne h rest
  · exact takeSizedPush_append_of_ne h rest
  · exact takeSizedPush_append_of_ne h rest
  · exact takeSizedPush_append_of_ne h rest
  · rfl

/-- A script that ends between two instructions is read to its end, and then what follows it. -/
theorem instructions_append {first : Bytes} (h : .truncated ∉ instructions first) (second : Bytes) :
    instructions (first ++ second) = instructions first ++ instructions second := by
  -- The recursion of the reading: what an instruction leaves unread is shorter, but not the tail of the script.
  induction first using instructions.induct with
  | case1 => rw [instructions_nil, List.nil_append, List.nil_append]
  | case2 code bytes ih =>
      rw [instructions_cons, List.mem_cons, not_or] at h
      rw [List.cons_append, instructions_cons, takeInstruction_append_of_ne (Ne.symm h.1), ih h.2,
        instructions_cons code bytes, List.cons_append]

/-- A run that succeeds has met no push that runs past the end. -/
theorem truncated_not_mem_of_runAll {is : List Instruction} {st st' : State}
    (h : runAll suite ctx is st = .ok st') : .truncated ∉ is := by
  induction is generalizing st with
  | nil => exact List.not_mem_nil
  | cons i is ih =>
      rw [runAll_cons, bind_eq_ok_iff] at h
      obtain ⟨mid, happly, hrun⟩ := h
      rw [List.mem_cons, not_or]
      refine ⟨?_, ih hrun⟩
      rintro rfl
      cases happly

/-! ## Whole scripts -/

theorem finish_eq_ok_iff {st : State} : st.finish = .ok t ↔ st = ⟨t, []⟩ := by
  obtain ⟨s, cs⟩ := st
  cases cs with
  | nil => simp [State.finish]
  | cons c cs => simp [State.finish]

theorem execute_of_fits {script : Bytes} (hs : s.Fits) :
    execute suite ctx script s = runAll suite ctx (instructions script) ⟨s, []⟩ >>= State.finish := by
  rw [execute, (checkSizes_eq_ok_iff s s).2 ⟨rfl, hs⟩]
  rfl

theorem execute_eq_ok_iff {script : Bytes} :
    execute suite ctx script s = .ok t ↔
      s.Fits ∧ runAll suite ctx (instructions script) ⟨s, []⟩ = .ok ⟨t, []⟩ := by
  constructor
  · intro h
    obtain ⟨u, hsizes, -⟩ := bind_eq_ok_iff.1 h
    have hs : s.Fits := ((checkSizes_eq_ok_iff s u).1 hsizes).2
    rw [execute_of_fits hs, bind_eq_ok_iff] at h
    obtain ⟨st, hrun, hfinish⟩ := h
    obtain rfl := finish_eq_ok_iff.1 hfinish
    exact ⟨hs, hrun⟩
  · rintro ⟨hs, hrun⟩
    rw [execute_of_fits hs, hrun]
    rfl

/-- What a script leaves is no more than the limit allows, and running another script on it is running both as
one script, be the outcome a stack or an error. -/
theorem fits_and_execute_append {first : Bytes} {mid : Stack} (h : execute suite ctx first s = .ok mid) :
    mid.Fits ∧ ∀ second, execute suite ctx (first ++ second) s = execute suite ctx second mid := by
  obtain ⟨hs, hrun⟩ := execute_eq_ok_iff.1 h
  have hmid : mid.Fits := fits_runAll hs hrun
  refine ⟨hmid, fun second => ?_⟩
  rw [execute_of_fits hs, execute_of_fits hmid, instructions_append (truncated_not_mem_of_runAll hrun),
    runAll_append, hrun]
  rfl

/-- A script whose conditional holds a push of no bytes in the branch that is not taken. -/
def choosingScript : Bytes := [0x51, 0x63, 0x02, 0xaa, 0xbb, 0x67, 0x4c, 0x00, 0x68]

theorem fits_and_execute_append_choosing :
    execute Suite.standard none choosingScript [[7]] = .ok [[0xaa, 0xbb], [7]] ∧
      Stack.Fits [[0xaa, 0xbb], [7]] ∧
      execute Suite.standard none (choosingScript ++ [0x7e]) [[7]] = .ok [[7, 0xaa, 0xbb]] ∧
      execute Suite.standard none (choosingScript ++ [0x02, 0x01]) [[7]] = .error .truncatedPush := by
  have h : execute Suite.standard none choosingScript [[7]] = .ok [[0xaa, 0xbb], [7]] := by decide +kernel
  obtain ⟨hfits, happend⟩ := fits_and_execute_append h
  refine ⟨h, hfits, ?_, ?_⟩
  · rw [happend]
    decide +kernel
  · rw [happend]
    decide +kernel

end Script

end ShareCovenant
