import Mathlib
import ShareCovenant.Contract.Verify
import ShareCovenant.Proofs.Covenant.Distribution
import ShareCovenant.Proofs.Covenant.Overflow
import ShareCovenant.Proofs.Script.Lowering

/-!
# What a contract admits

The parts of the covenant program put together: a compiled contract lets an input be spent if and only if
the unlocking script pushes twelve elements and the script of the contract, and the elements are admitted.
-/

namespace ShareCovenant

/-! ## The program fits into a script -/

@[simp] theorem Node.fits_ofOpcode (op : Opcode) :
    (Node.ofOpcode op).Fits ↔ op ∉ [Opcode.ifTrue, .ifFalse, .otherwise, .endIf] := by
  change PlainCode op.code ↔ _
  cases op <;> decide

@[simp] theorem Node.fits_checking (op : Opcode) :
    (Node.checking op).Fits ↔ op ∉ [Opcode.ifTrue, .ifFalse, .otherwise, .endIf] :=
  Node.fits_ofOpcode op

@[simp] theorem Node.fits_ifThen (body : Program) : (Node.ifThen body).Fits ↔ Program.Fits body := Iff.rfl

@[simp] theorem Node.fits_ifElse (body other : Program) :
    (Node.ifElse body other).Fits ↔ Program.Fits body ∧ Program.Fits other := Iff.rfl

theorem Node.fits_num {n : Int} (h : Number.IsOperand n) : (Node.num n).Fits := by
  have := (Number.length_encode_le_four n).2 h
  exact this.trans (by decide)

theorem Node.fits_data {bytes : Bytes} (h : bytes.length ≤ maxElementSize) : (Node.data bytes).Fits := h

namespace Covenant

open Program
open Number (value IsOperand isOperand_natCast)

variable {suite : Suite}

theorem fits_bindPreimage : Program.Fits bindPreimage := by
  simp (disch := decide) [bindPreimage, Program.Fits, Node.fits_num]

theorem fits_checkSignature (pubkey : FixedBytes 33) : Program.Fits (checkSignature pubkey) := by
  have hkey : (Node.data pubkey.val).Fits := Node.fits_data (by rw [pubkey.property]; decide)
  simp (disch := decide) [checkSignature, Program.Fits, Node.fits_num, hkey]

theorem fits_overflowSplit {fee : Int} (h : IsOperand fee) : Program.Fits (overflowSplit fee) := by
  have hfee := Node.fits_num h
  simp (disch := decide) [overflowSplit, takeLimb, Program.Fits, Node.fits_num, Node.fits_data, hfee]

theorem fits_payIfDue {party : Party} {address : Address} (hshare : party.share.toNat < Terms.shareTotal)
    {q : Program} (h : payIfDue party address = .ok q) : q.Fits := by
  obtain ⟨u, hmin, rfl⟩ := exists_of_payIfDue h
  have hu := (Share.minUnit_bounds hmin).2
  have hunit := Node.fits_num (isOperand_natCast (v := u.toNat) (by omega))
  have hshareFits := Node.fits_num (isOperand_natCast (v := party.share.toNat) (hshare.trans (by decide)))
  have hlen := Address.length_lockingScript address
  have hlock : (Node.data address.lockingScript).Fits :=
    Node.fits_data (show _ ≤ 520 by omega)
  have hpay : Program.Fits (payParty party.share address.lockingScript) := by
    simp (disch := decide) [payParty, Program.Fits, Node.fits_num, hshareFits, hlock]
  simp (disch := decide) [Program.Fits, hunit, hpay]

theorem fits_payAll {payees : List (Party × Address)}
    (hshare : ∀ payee ∈ payees, payee.1.share.toNat < Terms.shareTotal) {q : Program}
    (h : payAll payees = .ok q) : q.Fits := by
  induction payees generalizing q with
  | nil =>
      cases h
      simp (disch := decide) [Program.Fits, Node.fits_num]
  | cons payee payees ih =>
      obtain ⟨party, address⟩ := payee
      obtain ⟨first, others, hfirst, hothers, rfl⟩ := exists_of_payAll_cons h
      exact (fits_payIfDue (hshare (party, address) List.mem_cons_self) hfirst).append
        (ih (fun payee hp => hshare payee (List.mem_cons_of_mem _ hp)) hothers)

theorem fits_distribution {terms : Terms} {addresses : List Address} (hvalid : terms.Valid addresses)
    {q : Program} (h : distribution terms.fee.toNat terms.parties addresses = .ok q) : q.Fits := by
  obtain ⟨payout, cutoff, hpayout, hcutoff, rfl⟩ := exists_of_distribution h
  have hfee := Node.fits_num (isOperand_fee hvalid)
  have hcut := Node.fits_num (isOperand_cutoff hcutoff)
  have htotal : (Node.num Terms.shareTotal).Fits := Node.fits_num (by decide)
  have hnobody : Program.Fits nobodyPaid := by
    simp (disch := decide) [nobodyPaid, Program.Fits, Node.fits_data]
  have hpayoutFits := fits_payAll (fun payee hp => (hvalid.share (List.of_mem_zip hp).1).2) hpayout
  simp (disch := decide) [computeUnit, Program.Fits, hfee, htotal, hcut, hnobody, hpayoutFits]

/-! ## The program as a whole -/

/-- Whether an amount has a bit that the largest one has not. -/
def exceeds (amount : Bytes) : Bool := Number.isTrue (List.zipWith (· &&& ·) amount overflowMask)

/-- The elements with which the program of valid terms ends in one true element. -/
structure Elements.Admitted (suite : Suite) (ctx : SpendContext) (pubkey : FixedBytes 33) (terms : Terms)
    (addresses : List Address) (e : Elements) : Prop where
  bound : e.Bound suite
  length_value : e.value.length = 8
  outputs : if exceeds e.value then Splits suite terms.fee.toNat e.scriptCode e.value e.outputs
    else Distributes terms.fee.toNat terms.parties addresses e.value e.outputs
  signed : e.Signed suite ctx pubkey

theorem exists_program {terms : Terms} {addresses : List Address} (hvalidate : terms.validate = .ok addresses)
    (pubkey : FixedBytes 33) : ∃ p, program pubkey terms = .ok p := by
  have hvalid := Terms.valid_of_validate hvalidate
  obtain ⟨payout, hpayout⟩ : ∃ q, payAll (terms.parties.zip addresses) = .ok q :=
    exists_payAll fun payee hp => (hvalid.share (List.of_mem_zip hp).1).1
  obtain ⟨cutoff, hcutoff⟩ := hvalid.exists_minUnitForAll
  rw [program, hvalidate]
  refine ⟨_, (bind_eq_ok_iff ..).2 ⟨_, rfl, (bind_eq_ok_iff ..).2 ⟨_, distribution_eq hpayout hcutoff, rfl⟩⟩⟩

theorem exists_of_program {pubkey : FixedBytes 33} {terms : Terms} {p : Program}
    (h : program pubkey terms = .ok p) :
    ∃ addresses distributed, terms.validate = .ok addresses ∧
      distribution terms.fee.toNat terms.parties addresses = .ok distributed ∧
      p = bindPreimage ++ [Node.ofOpcode .dup, .data overflowMask, Node.ofOpcode .bitAnd,
        .ifElse (overflowSplit terms.fee.toNat) distributed] ++ checkSignature pubkey := by
  unfold program at h
  rw [bind_eq_ok_iff] at h
  obtain ⟨addresses, hvalidate, h⟩ := h
  rw [bind_eq_ok_iff] at h
  obtain ⟨distributed, hdistributed, h⟩ := h
  cases h
  exact ⟨addresses, distributed, mapError_eq_ok_iff.1 hvalidate, hdistributed, rfl⟩

theorem fits_program {pubkey : FixedBytes 33} {terms : Terms} {p : Program}
    (h : program pubkey terms = .ok p) : p.Fits := by
  obtain ⟨addresses, distributed, hvalidate, hdistributed, rfl⟩ := exists_of_program h
  have hvalid := Terms.valid_of_validate hvalidate
  have hchoice : Program.Fits [Node.ofOpcode .dup, .data overflowMask, Node.ofOpcode .bitAnd,
      .ifElse (overflowSplit terms.fee.toNat) distributed] := by
    simp (disch := decide) [Program.Fits, Node.fits_data, fits_overflowSplit (isOperand_fee hvalid),
      fits_distribution hvalid hdistributed]
  exact (fits_bindPreimage.append hchoice).append (fits_checkSignature pubkey)

theorem accepts_iff (t : Stack) : Contract.accepts t = true ↔ ∃ top, t = [top] ∧ Number.isTrue top = true := by
  rcases t with _ | ⟨top, _ | ⟨second, rest⟩⟩
  all_goals simp [Contract.accepts]

/-- The choice of a branch, and the branch that is chosen. -/
theorem run_payout_iff {ctx : Option SpendContext} {terms : Terms} {addresses : List Address}
    (hvalid : terms.Valid addresses) {distributed : Program}
    (h : distribution terms.fee.toNat terms.parties addresses = .ok distributed) {p : Program}
    {amount scriptCode outputs : Bytes} {s t : Stack} :
    run suite ctx (Node.ofOpcode .dup :: .data overflowMask :: Node.ofOpcode .bitAnd ::
        .ifElse (overflowSplit terms.fee.toNat) distributed :: p)
        (amount :: scriptCode :: outputs :: s) = .ok t ↔
      amount.length = 8 ∧
        (if exceeds amount then Splits suite terms.fee.toNat scriptCode amount outputs
          else Distributes terms.fee.toNat terms.parties addresses amount outputs) ∧
        run suite ctx p s = .ok t := by
  have hmask : overflowMask.length = 8 := LittleEndian.length_encode _ _
  rw [run_dup, run_data, run_bitAnd_iff, hmask, run_ifElse]
  refine and_congr_right fun _ => ?_
  change run suite ctx ((if exceeds amount then _ else _) ++ p) _ = _ ↔ _
  cases exceeds amount with
  | true => exact run_overflowSplit_iff hvalid.fee.2
  | false => exact run_distribution_iff hvalid h

/-- A run of the program is accepted if and only if it starts with elements that are admitted. -/
theorem run_program_iff {ctx : SpendContext} {pubkey : FixedBytes 33} {terms : Terms} {p : Program}
    (h : program pubkey terms = .ok p) {addresses : List Address} (hvalidate : terms.validate = .ok addresses)
    (s : Stack) :
    (∃ t, run suite (some ctx) p s = .ok t ∧ Contract.accepts t = true) ↔
      ∃ e : Elements, s = e.stack ∧ e.Admitted suite ctx pubkey terms addresses := by
  obtain ⟨addresses', distributed, hvalidate', hdistributed, rfl⟩ := exists_of_program h
  rw [hvalidate] at hvalidate'
  cases hvalidate'
  have hvalid := Terms.valid_of_validate hvalidate
  simp only [List.append_assoc, List.cons_append, List.nil_append, run_bindPreimage_iff,
    run_payout_iff hvalid hdistributed, run_checkSignature_iff]
  constructor
  · rintro ⟨t, ⟨e, rest, rfl, hbound, hlen, houtputs, hsigned, rfl⟩, haccepts⟩
    obtain ⟨top, htop, -⟩ := (accepts_iff _).1 haccepts
    cases htop
    exact ⟨e, List.append_nil _, hbound, hlen, houtputs, hsigned⟩
  · rintro ⟨e, rfl, hbound, hlen, houtputs, hsigned⟩
    exact ⟨[[1]], ⟨e, [], (List.append_nil _).symm, hbound, hlen, houtputs, hsigned, rfl⟩, rfl⟩

end Covenant

/-! ## Verifying an input -/

namespace Contract

open Covenant

theorem exists_of_compile {pubkey : FixedBytes 33} {terms : Terms} {contract : Contract}
    (h : compile pubkey terms = .ok contract) :
    ∃ p, program pubkey terms = .ok p ∧ p.lower = .ok contract.script ∧
      maxShortScript < contract.script.length ∧
      contract.script.length + preimageOverhead ≤ maxElementSize := by
  unfold compile at h
  rw [bind_eq_ok_iff] at h
  obtain ⟨p, hp, h⟩ := h
  rw [bind_eq_ok_iff] at h
  obtain ⟨script, hscript, h⟩ := h
  split_ifs at h with hsize
  · cases h
  · cases h
    rw [not_or, not_le, not_lt] at hsize
    exact ⟨p, hp, mapError_eq_ok_iff.1 hscript, hsize.1, hsize.2⟩

theorem exists_validate {pubkey : FixedBytes 33} {terms : Terms} {contract : Contract}
    (h : compile pubkey terms = .ok contract) : ∃ addresses, terms.validate = .ok addresses := by
  obtain ⟨p, hp, -⟩ := exists_of_compile h
  obtain ⟨addresses, -, hvalidate, -⟩ := exists_of_program hp
  exact ⟨addresses, hvalidate⟩

/-- The script of a contract is pushed after a length of two bytes. -/
theorem length_scriptCode {pubkey : FixedBytes 33} {terms : Terms} {contract : Contract}
    (h : compile pubkey terms = .ok contract) :
    (CompactSize.encodeBytes contract.script).length = 3 + contract.script.length := by
  obtain ⟨-, -, -, hlong, hshort⟩ := exists_of_compile h
  unfold maxShortScript at hlong
  unfold maxElementSize at hshort
  rw [CompactSize.encodeBytes, CompactSize.encode_of_medium (by omega) (by omega)]
  simp
  omega

/-- The script of a contract leaves room for the other fragments of a preimage in an element. -/
theorem length_scriptCode_add_le {pubkey : FixedBytes 33} {terms : Terms} {contract : Contract}
    (h : compile pubkey terms = .ok contract) :
    (CompactSize.encodeBytes contract.script).length + 156 ≤ maxElementSize := by
  obtain ⟨-, -, -, -, hsize⟩ := exists_of_compile h
  unfold preimageOverhead at hsize
  rw [length_scriptCode h]
  omega

theorem length_preimage_le {pubkey : FixedBytes 33} {terms : Terms} {contract : Contract}
    (h : compile pubkey terms = .ok contract) {p : Preimage} (hcode : p.scriptCode = contract.script) :
    p.bytes.length ≤ maxElementSize := by
  have hlen := length_scriptCode_add_le h
  rw [Preimage.length_bytes, hcode]
  omega

theorem runRedeemScript_eq_ok_iff {suite : Suite} {pubkey : FixedBytes 33} {terms : Terms} {contract : Contract}
    (h : compile pubkey terms = .ok contract) {addresses : List Address}
    (hvalidate : terms.validate = .ok addresses) (tx : Transaction) (index : Nat) (value : UInt64) (s : Stack) :
    runRedeemScript suite tx index value contract.script s = .ok () ↔
      ∃ e : Elements, s = e.stack ∧ (∀ item ∈ e.pushed, item.length ≤ maxElementSize) ∧
        e.Admitted suite ⟨tx, index, value, contract.script⟩ pubkey terms addresses := by
  obtain ⟨p, hp, hlower, -, -⟩ := exists_of_compile h
  have hrun : (∃ t, Program.run suite (some ⟨tx, index, value, contract.script⟩) p s = .ok t ∧ _) ↔ _ :=
    run_program_iff hp hvalidate s
  have haccepts : runRedeemScript suite tx index value contract.script s = .ok () ↔
      (∀ item ∈ s, item.length ≤ maxElementSize) ∧
        ∃ t, Program.run suite (some ⟨tx, index, value, contract.script⟩) p s = .ok t ∧ accepts t = true := by
    simp only [runRedeemScript, Script.execute_lower (fits_program hp) hlower, bind_eq_ok_iff]
    constructor
    · rintro ⟨t, ⟨s', hs', ht⟩, haccepts⟩
      obtain ⟨rfl, hsizes⟩ := (Script.checkSizes_eq_ok_iff _ _).1 hs'
      split_ifs at haccepts with hfinal
      exact ⟨hsizes, t, ht, hfinal⟩
    · rintro ⟨hsizes, t, ht, hfinal⟩
      exact ⟨t, ⟨s, (Script.checkSizes_eq_ok_iff _ _).2 ⟨rfl, hsizes⟩, ht⟩, by rw [if_pos hfinal]; rfl⟩
  rw [haccepts, hrun]
  constructor
  · rintro ⟨hsizes, e, rfl, hadmitted⟩
    exact ⟨e, rfl, fun item hitem => hsizes item (by simpa [← Elements.reverse_pushed] using hitem), hadmitted⟩
  · rintro ⟨e, rfl, hsizes, hadmitted⟩
    exact ⟨fun item hitem => hsizes item (by simpa [← Elements.reverse_pushed] using hitem), e, rfl, hadmitted⟩

theorem verifySpend_eq_ok_iff {suite : Suite} {tx : Transaction} {index : Nat} {value : UInt64}
    {contract : Contract} :
    verifySpend suite tx index value contract = .ok () ↔
      ∃ input script s, tx.inputs[index]? = some input ∧
        Script.pushes input.unlockingScript = .ok (s.reverse ++ [script]) ∧
        suite.hash160 script = contract.hash suite ∧
        runRedeemScript suite tx index value script s = .ok () := by
  unfold verifySpend
  cases hinput : tx.inputs[index]? with
  | none => simp
  | some input =>
      simp only [bind_eq_ok_iff]
      constructor
      · rintro ⟨pushes, hpushes, h⟩
        rcases hrev : pushes.reverse with _ | ⟨script, s⟩
        · rw [hrev] at h
          cases h
        · rw [hrev] at h
          simp only at h
          split_ifs at h with hhash
          have heq : pushes = s.reverse ++ [script] := by
            rw [← List.reverse_reverse pushes, hrev, List.reverse_cons]
          exact ⟨input, script, s, rfl, by rw [← heq]; exact hpushes, hhash, h⟩
      · rintro ⟨input', script, s, hinput', hpushes, hhash, h⟩
        cases hinput'
        refine ⟨_, hpushes, ?_⟩
        rw [List.reverse_append, List.reverse_reverse]
        simp only [List.reverse_cons, List.reverse_nil, List.nil_append, List.cons_append]
        rw [if_pos hhash]
        exact h

/-- An input whose unlocking script pushes a contract's own script last is unlocked if and only if the other
pushes are admitted. -/
theorem verifySpend_iff_admitted {suite : Suite} {pubkey : FixedBytes 33} {terms : Terms} {contract : Contract}
    (h : compile pubkey terms = .ok contract) {addresses : List Address}
    (hvalidate : terms.validate = .ok addresses) {tx : Transaction} {index : Nat} {value : UInt64} {input : Input}
    (hinput : tx.inputs[index]? = some input) {pushed : List Bytes}
    (hpushes : Script.pushes input.unlockingScript = .ok (pushed ++ [contract.script])) :
    verifySpend suite tx index value contract = .ok () ↔
      ∃ e : Elements, pushed = e.pushed ∧ (∀ item ∈ e.pushed, item.length ≤ maxElementSize) ∧
        e.Admitted suite ⟨tx, index, value, contract.script⟩ pubkey terms addresses := by
  rw [verifySpend_eq_ok_iff]
  constructor
  · rintro ⟨input', script, s, hinput', hpushes', -, hrun⟩
    rw [hinput] at hinput'
    cases hinput'
    rw [hpushes, Except.ok.injEq] at hpushes'
    obtain ⟨rfl, hscript⟩ := List.append_inj' hpushes' rfl
    cases hscript
    obtain ⟨e, rfl, hsizes, hadmitted⟩ := (runRedeemScript_eq_ok_iff h hvalidate tx index value s).1 hrun
    exact ⟨e, by rw [← Elements.reverse_pushed, List.reverse_reverse], hsizes, hadmitted⟩
  · rintro ⟨e, rfl, hsizes, hadmitted⟩
    refine ⟨input, contract.script, e.stack, hinput, ?_, rfl, ?_⟩
    · rw [← Elements.reverse_pushed, List.reverse_reverse]
      exact hpushes
    · exact (runRedeemScript_eq_ok_iff h hvalidate tx index value _).2 ⟨e, rfl, hsizes, hadmitted⟩

end Contract

end ShareCovenant
