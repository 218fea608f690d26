import Mathlib
import ShareCovenant.Proofs.Covenant.Admission

/-!
# The layout of the covenant program

The instructions of the program stand at fixed places up to the payments, and every payment starts with an
opcode that does not start what follows the last one. So the instructions determine the key, the fee and the
payments. Only the pushes of the fee, of least units and shares and of locking scripts vary in size.
-/

namespace ShareCovenant.Covenant

open Program
open Node (ofOpcode)

variable {is js : List Instruction}

/-! ## What the instructions determine -/

/-- The same share of units is paid to the same script. -/
def SamePayment (payee payee' : Party × Address) : Prop :=
  payee.1.share = payee'.1.share ∧ payee.2.lockingScript = payee'.2.lockingScript

theorem layout_checkSignature_inj {pubkey pubkey' : FixedBytes 33}
    (h : layout (checkSignature pubkey) = layout (checkSignature pubkey')) : pubkey = pubkey' := by
  simp only [checkSignature, layout_append, List.append_cancel_left_eq] at h
  simp only [layout, Node.layout, List.cons_append, List.nil_append, List.cons.injEq, Instruction.push.injEq] at h
  exact Subtype.ext h.1

theorem layout_overflowSplit_append_inj {fee fee' : Int}
    (h : layout (overflowSplit fee) ++ is = layout (overflowSplit fee') ++ js) : fee = fee' ∧ is = js := by
  simp only [overflowSplit, layout_append, List.append_assoc, List.append_cancel_left_eq] at h
  simp only [layout, Node.layout_ofOpcode, Node.layout, List.cons_append, List.nil_append, List.cons.injEq,
    Instruction.number_injective.eq_iff, true_and, List.append_cancel_left_eq] at h
  exact h

theorem layout_computeUnit_append_inj {fee fee' : Int}
    (h : layout (computeUnit fee) ++ is = layout (computeUnit fee') ++ js) : fee = fee' ∧ is = js := by
  simp only [computeUnit, layout, Node.layout_ofOpcode, Node.layout, List.cons_append, List.nil_append,
    List.cons.injEq, Instruction.number_injective.eq_iff, true_and] at h
  exact h

theorem layout_payParty_append_inj {share share' : UInt32} {script script' : Bytes}
    (h : layout (payParty share script) ++ is = layout (payParty share' script') ++ js) :
    share = share' ∧ script = script' ∧ is = js := by
  simp only [payParty, layout, Node.layout_ofOpcode, Node.layout_checking, Node.layout, List.cons_append,
    List.nil_append, List.cons.injEq, Instruction.number_injective.eq_iff, Instruction.push.injEq, true_and,
    Int.ofNat_inj, UInt32.toNat_inj] at h
  obtain ⟨hscript, hshare, hrest⟩ := h
  exact ⟨hshare, hscript, hrest⟩

theorem layout_payIfDue_append_inj {payee payee' : Party × Address} {q q' : Program}
    (h : payIfDue payee.1 payee.2 = .ok q) (h' : payIfDue payee'.1 payee'.2 = .ok q')
    (heq : q.layout ++ is = q'.layout ++ js) : SamePayment payee payee' ∧ is = js := by
  obtain ⟨unit, -, rfl⟩ := exists_of_payIfDue h
  obtain ⟨unit', -, rfl⟩ := exists_of_payIfDue h'
  simp only [layout, Node.layout_ofOpcode, Node.layout, List.cons_append, List.nil_append, List.append_assoc,
    List.cons.injEq, true_and] at heq
  obtain ⟨hshare, hscript, hrest⟩ := layout_payParty_append_inj heq.2
  exact ⟨⟨hshare, hscript⟩, List.tail_eq_of_cons_eq hrest⟩

/-- A payment starts with another opcode than the end of the payments. -/
theorem layout_payAll_nil_append_ne {payee : Party × Address} {payees : List (Party × Address)} {q q' : Program}
    (h : payAll [] = .ok q) (h' : payAll (payee :: payees) = .ok q') : q.layout ++ is ≠ q'.layout ++ js := by
  obtain ⟨first, others, hfirst, -, rfl⟩ := exists_of_payAll_cons h'
  obtain ⟨unit, -, rfl⟩ := exists_of_payIfDue hfirst
  cases h
  intro heq
  have hop : Instruction.op Opcode.size.code = .op Opcode.dupSecond.code := List.head_eq_of_cons_eq heq
  exact absurd hop (by decide)

theorem layout_payAll_append_inj {payees payees' : List (Party × Address)} {q q' : Program}
    (h : payAll payees = .ok q) (h' : payAll payees' = .ok q') (heq : q.layout ++ is = q'.layout ++ js) :
    List.Forall₂ SamePayment payees payees' ∧ is = js := by
  induction payees generalizing payees' q q' with
  | nil =>
      cases payees' with
      | nil =>
          rw [h, Except.ok.injEq] at h'
          rw [h'] at heq
          exact ⟨.nil, List.append_cancel_left heq⟩
      | cons payee' payees' => exact absurd heq (layout_payAll_nil_append_ne h h')
  | cons payee payees ih =>
      cases payees' with
      | nil => exact absurd heq.symm (layout_payAll_nil_append_ne h' h)
      | cons payee' payees' =>
          obtain ⟨first, others, hfirst, hothers, rfl⟩ := exists_of_payAll_cons h
          obtain ⟨first', others', hfirst', hothers', rfl⟩ := exists_of_payAll_cons h'
          rw [layout_append, layout_append, List.append_assoc, List.append_assoc] at heq
          obtain ⟨hpayment, hrest⟩ := layout_payIfDue_append_inj hfirst hfirst' heq
          obtain ⟨hpayments, hrest⟩ := ih hothers hothers' hrest
          exact ⟨.cons hpayment hpayments, hrest⟩

theorem layout_distribution_append_inj {fee fee' : Int} {parties parties' : List Party}
    {addresses addresses' : List Address} {q q' : Program} (h : distribution fee parties addresses = .ok q)
    (h' : distribution fee' parties' addresses' = .ok q') (heq : q.layout ++ is = q'.layout ++ js) :
    List.Forall₂ SamePayment (parties.zip addresses) (parties'.zip addresses') ∧ is = js := by
  obtain ⟨payout, cutoff, hpayout, -, rfl⟩ := exists_of_distribution h
  obtain ⟨payout', cutoff', hpayout', -, rfl⟩ := exists_of_distribution h'
  simp only [layout, layout_append, Node.layout_ofOpcode, Node.layout, List.cons_append, List.nil_append,
    List.append_assoc, List.cons.injEq, true_and] at heq
  have htail := (layout_computeUnit_append_inj heq).2
  simp only [List.cons.injEq, List.append_cancel_left_eq, true_and] at htail
  obtain ⟨hpayments, hrest⟩ := layout_payAll_append_inj hpayout hpayout' htail.2
  exact ⟨hpayments, List.tail_eq_of_cons_eq hrest⟩

/-- The instructions of a program determine its key, its fee and its payments. -/
theorem layout_program_inj {pubkey pubkey' : FixedBytes 33} {terms terms' : Terms} {p p' : Program}
    (h : program pubkey terms = .ok p) (h' : program pubkey' terms' = .ok p') {addresses addresses' : List Address}
    (hvalidate : terms.validate = .ok addresses) (hvalidate' : terms'.validate = .ok addresses')
    (heq : p.layout = p'.layout) :
    pubkey = pubkey' ∧ terms.fee = terms'.fee ∧
      List.Forall₂ SamePayment (terms.parties.zip addresses) (terms'.parties.zip addresses') := by
  obtain ⟨as, distributed, has, hdistributed, rfl⟩ := exists_of_program h
  obtain ⟨as', distributed', has', hdistributed', rfl⟩ := exists_of_program h'
  cases hvalidate.symm.trans has
  cases hvalidate'.symm.trans has'
  simp only [layout, layout_append, Node.layout_ofOpcode, Node.layout, List.cons_append, List.nil_append,
    List.append_assoc, List.append_cancel_left_eq, List.cons.injEq, true_and] at heq
  obtain ⟨hfee, heq⟩ := layout_overflowSplit_append_inj heq
  obtain ⟨hpayments, hrest⟩ := layout_distribution_append_inj hdistributed hdistributed' (List.tail_eq_of_cons_eq heq)
  exact ⟨layout_checkSignature_inj (List.tail_eq_of_cons_eq hrest),
    UInt64.toNat_inj.1 (Int.ofNat_inj.1 hfee), hpayments⟩

/-! ## How many bytes the instructions take -/

theorem size_bindPreimage : size bindPreimage = 21 := rfl

theorem size_nobodyPaid : size nobodyPaid = 7 := by decide +kernel

theorem size_checkSignature (pubkey : FixedBytes 33) : size (checkSignature pubkey) = 54 := by
  have hkey : (Instruction.push pubkey.val).size = 34 := by
    rw [Instruction.size_push (by rw [pubkey.property]; decide), pubkey.property]
  have hsplit : (Instruction.number 64).size = 2 := by decide +kernel
  simp [checkSignature, hkey, hsplit]

theorem size_ownOutputs : size ownOutputs = 27 := by
  have hsplit : (Instruction.number 24).size = 2 := by decide +kernel
  simp (disch := decide) [ownOutputs, ownScriptStart, Instruction.size_push, Instruction.size_number_small, hsplit]

theorem size_addUp (fee : Int) : size (addUp fee) = 59 + (Instruction.number fee).size := by
  simp (disch := decide) [addUp, takeLimb, Instruction.size_push, Instruction.size_number_small]
  ring

theorem size_overflowSplit (fee : Int) : size (overflowSplit fee) = 87 + (Instruction.number fee).size := by
  rw [overflowSplit_eq, size_append, size_append, size_ownOutputs, size_addUp, size_check, size_nil]
  ring

theorem size_computeUnit (fee : Int) : size (computeUnit fee) = 6 + (Instruction.number fee).size := by
  have htotal : (Instruction.number (Terms.shareTotal : Int)).size = 3 := by decide +kernel
  simp [computeUnit, htotal]
  ring

theorem size_payParty {share : UInt32} {script : Bytes} (h : script.length ≤ 0x4b) :
    size (payParty share script) = 15 + script.length + (Instruction.number share.toNat).size := by
  simp (disch := decide) [payParty, Instruction.size_number_small, Instruction.size_push h]
  ring

/-- The push of a share is larger only where that of its least unit is smaller. -/
theorem size_share_add_size_unit {share : UInt32} {unit : UInt64} (hshare : share.toNat < Terms.shareTotal)
    (h : Share.minUnit share = .ok unit) :
    2 ≤ (Instruction.number share.toNat).size + (Instruction.number unit.toNat).size ∧
      (Instruction.number share.toNat).size + (Instruction.number unit.toNat).size ≤ 4 := by
  have hpos := (Share.toNat_minUnit h).1
  obtain ⟨hlow, hhigh⟩ := Share.minUnit_bounds h
  have hunit := Share.minUnit_le_iff h
  refine ⟨Nat.add_le_add (Instruction.size_number_pos _) (Instruction.size_number_pos _), ?_⟩
  rcases Nat.lt_or_ge share.toNat 17 with hsmall | hmiddle
  · have hshareSize := Instruction.size_number_small (n := share.toNat) (by omega)
    have hunitSize := Instruction.size_number_le (n := unit.toNat) (k := 1) (by decide) (by omega)
    omega
  · rcases Nat.lt_or_ge share.toNat 128 with hmiddle' | hlarge
    · have hunitLe := (hunit 33).2 (by omega)
      have hshareSize := Instruction.size_number_le (n := share.toNat) (k := 0) (by decide) (by omega)
      have hunitSize := Instruction.size_number_le (n := unit.toNat) (k := 0) (by decide) (by omega)
      omega
    · have hunitLe := (hunit 5).2 (by omega)
      have hshareSize := Instruction.size_number_le (n := share.toNat) (k := 1) (by decide)
        (hshare.trans (by decide))
      have hunitSize := Instruction.size_number_small (n := unit.toNat) (by omega)
      omega

theorem size_payIfDue_bounds {party : Party} {address : Address} (hshare : party.share.toNat < Terms.shareTotal)
    {q : Program} (h : payIfDue party address = .ok q) : 44 ≤ q.size ∧ q.size ≤ 48 := by
  obtain ⟨unit, hunit, rfl⟩ := exists_of_payIfDue h
  have hnumbers := size_share_add_size_unit hshare hunit
  have hscript := Address.length_lockingScript address
  rw [size_opcode, size_num, size_opcode, size_ifThen, size_nil, size_payParty (by omega)]
  omega

theorem size_payAll_bounds {payees : List (Party × Address)}
    (hshare : ∀ payee ∈ payees, payee.1.share.toNat < Terms.shareTotal) {q : Program}
    (h : payAll payees = .ok q) : 44 * payees.length + 4 ≤ q.size ∧ q.size ≤ 48 * payees.length + 4 := by
  induction payees generalizing q with
  | nil =>
      cases h
      have hzero : (Instruction.number 0).size = 1 := by decide +kernel
      simp [hzero]
  | cons payee payees ih =>
      obtain ⟨party, address⟩ := payee
      obtain ⟨first, others, hfirst, hothers, rfl⟩ := exists_of_payAll_cons h
      obtain ⟨hparty, hparties⟩ := List.forall_mem_cons.1 hshare
      have hfirstSize := size_payIfDue_bounds hparty hfirst
      have hothersSize := ih hparties hothers
      rw [size_append, List.length_cons]
      omega

theorem size_distribution {fee : Int} {parties : List Party} {addresses : List Address} {payout : Program}
    {cutoff : UInt64} (hpayout : payAll (parties.zip addresses) = .ok payout)
    (hcutoff : Share.minUnitForAll parties = .ok cutoff) {q : Program}
    (h : distribution fee parties addresses = .ok q) :
    q.size = 20 + (Instruction.number fee).size + (Instruction.number cutoff.toNat).size + payout.size := by
  cases (distribution_eq hpayout hcutoff).symm.trans h
  rw [size_opcode, size_append, size_computeUnit, size_opcode, size_num, size_opcode, size_ifElse, size_opcode,
    size_nobodyPaid, size_nil]
  ring

/-- Whatever the terms, a program is longer than a short script and leaves room for the rest of a preimage. -/
theorem size_program_bounds {pubkey : FixedBytes 33} {terms : Terms} {p : Program}
    (h : program pubkey terms = .ok p) :
    Contract.maxShortScript < p.size ∧ p.size + Contract.preimageOverhead ≤ maxElementSize := by
  obtain ⟨addresses, distributed, hvalidate, hdistributed, rfl⟩ := exists_of_program h
  have hvalid := Terms.valid_of_validate hvalidate
  obtain ⟨payout, cutoff, hpayout, hcutoff, -⟩ := exists_of_distribution hdistributed
  have hcutoffHigh := (Share.minUnit_bounds hcutoff).2
  have hpayoutSize := size_payAll_bounds (fun payee hp => (hvalid.share (List.of_mem_zip hp).1).2) hpayout
  have hcount : (terms.parties.zip addresses).length = terms.parties.length := by
    rw [List.length_zip, ← hvalid.parties.length_eq, Nat.min_self]
  have hfee : (Instruction.number terms.fee.toNat).size ≤ 5 :=
    Instruction.size_number_le (k := 3) (by decide) (Nat.lt_of_le_of_lt hvalid.fee.2 (by decide))
  have hfeePos := Instruction.size_number_pos terms.fee.toNat
  have hcutoffSize := Instruction.size_number_le (n := cutoff.toNat) (k := 1) (by decide) (by omega)
  have hcutoffPos := Instruction.size_number_pos cutoff.toNat
  have hmask : (Instruction.push overflowMask).size = 9 := rfl
  obtain ⟨hmin, hmax⟩ := hvalid.count
  unfold Terms.minParties at hmin
  unfold Terms.maxParties at hmax
  rw [hcount] at hpayoutSize
  rw [size_append, size_append, size_bindPreimage, size_checkSignature, size_opcode, size_data, size_opcode,
    size_ifElse, size_overflowSplit, size_distribution hpayout hcutoff hdistributed, size_nil, hmask]
  unfold Contract.maxShortScript Contract.preimageOverhead maxElementSize
  omega

end ShareCovenant.Covenant
