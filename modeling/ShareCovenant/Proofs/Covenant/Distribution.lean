import Mathlib
import ShareCovenant.Proofs.Contract.Terms
import ShareCovenant.Proofs.Covenant.Binding
import ShareCovenant.Proofs.Transaction

/-!
# Distributing an amount

The branch for amounts that are divided, on elements of any content. When some party is due, it goes on if
and only if the outputs are those of a list with one payment for each party that is due, in the order of the
parties. The sizes and amounts are read as script numbers, but no reading of an output other than the honest
one is left by the comparisons that follow.
-/

namespace ShareCovenant.Covenant

open Program
open Node (ofOpcode checking)
open Number (value IsOperand isOperand_natCast)

variable {suite : Suite} {ctx : Option SpendContext} {p : Program} {s t : Stack}

/-! ## Payments -/

/-- An output that pays a share of units to a script. What the division by the share rounds off may be
paid or not. -/
structure Pays (unit share : Nat) (lockingScript : Bytes) (o : Output) : Prop where
  lockingScript : o.lockingScript = lockingScript
  least : unit * share ≤ o.amount.toNat
  most : o.amount.toNat ≤ unit * share + share - 1

/-- The largest unit, that of the largest amount. -/
def maxUnit : Nat := 2147483

/-- The largest amount of a payment of the largest unit is an operand of arithmetic. -/
theorem payment_lt {unit share : Nat} (hunit : unit ≤ maxUnit) (hshare : share < Terms.shareTotal) :
    unit * share + share < 0x80000000 := by
  have hshare' : share ≤ 999 := Nat.le_of_lt_succ hshare
  calc unit * share + share = (unit + 1) * share := by ring
    _ ≤ (maxUnit + 1) * 999 := Nat.mul_le_mul (Nat.succ_le_succ hunit) hshare'
    _ < 0x80000000 := by decide

/-- The quotient of an amount is that of a signed number, yet only amounts that are not negative pass. -/
theorem tdiv_value_iff {amount : Bytes} {share unit : Nat} (hlen : amount.length = 8) (hshare : 0 < share)
    (hmax : share < Terms.shareTotal) (hunit : 0 < unit) (hmaxUnit : unit ≤ maxUnit) :
    IsOperand (value amount) ∧ (value amount).tdiv share = unit ↔
      unit * share ≤ LittleEndian.decode amount ∧
        LittleEndian.decode amount ≤ unit * share + share - 1 := by
  rw [← Nat.div_eq_iff hshare]
  constructor
  · rintro ⟨-, hquotient⟩
    have hpos : 0 < value amount := by
      by_contra hneg
      have hneg' : 0 ≤ (-value amount).tdiv share := Int.tdiv_nonneg (by omega) (by omega)
      rw [Int.neg_tdiv] at hneg'
      omega
    rw [← Number.decode_of_value_pos hpos, ← Int.ofNat_tdiv] at hquotient
    exact_mod_cast hquotient
  · intro hquotient
    have hle := ((Nat.div_eq_iff hshare).1 hquotient).2
    have hlt := payment_lt hmaxUnit hmax
    have hvalue : value amount = LittleEndian.decode amount :=
      Number.value_of_decode_lt (k := 7) hlen (by omega)
    rw [hvalue, ← Int.ofNat_tdiv, hquotient]
    exact ⟨isOperand_natCast (by omega), rfl⟩

theorem run_payParty_iff {unit : Nat} {share : UInt32} {lockingScript : Bytes} (hunit : 0 < unit)
    (hmaxUnit : unit ≤ maxUnit) (hshare : 1 ≤ share.toNat) (hmax : share.toNat < Terms.shareTotal)
    (h0 : 0 < lockingScript.length) (hshort : lockingScript.length < 128) {outputs : Bytes} :
    run suite ctx (payParty share lockingScript ++ p) (outputs :: Number.encode unit :: s) = .ok t ↔
      ∃ o rest, outputs = o.bytes ++ rest ∧ Pays unit share.toNat lockingScript o ∧
        run suite ctx p (rest :: Number.encode unit :: s) = .ok t := by
  have hsize : CompactSize.encode lockingScript.length = Number.encode lockingScript.length := by
    rw [CompactSize.encode_of_short (by omega), Number.encode_byte h0 hshort]
  have hsizeOp : IsOperand lockingScript.length := isOperand_natCast (by omega)
  have hshareOp : IsOperand share.toNat := isOperand_natCast (hmax.trans (by decide))
  simp only [payParty, List.cons_append, List.nil_append]
  rw [run_split_at_iff 8 8 rfl (by decide)]
  constructor
  · rintro ⟨amount, rest₁, rfl, hamount, hrun⟩
    obtain ⟨v, rfl⟩ := LittleEndian.exists_encode_uint64 hamount
    rw [run_split_at_iff 1 1 rfl (by decide)] at hrun
    obtain ⟨size, rest₂, rfl, -, hrun⟩ := hrun
    rw [run_swap, run_split_iff] at hrun
    obtain ⟨k, rfl, -, hk, hrun⟩ := hrun
    rw [run_rot, run_rot, run_data, run_equalVerify_iff, run_binToNum_iff, run_num, run_div_iff _ _ (by omega),
      run_pick 2 (by decide) (by decide) rfl, run_equalVerify_iff] at hrun
    obtain ⟨hscript, hop, -, -, hquotient, hrun⟩ := hrun
    have hdiv : (value (LittleEndian.encode 8 v.toNat)).tdiv share.toNat = unit :=
      Number.encode_injective hquotient
    have hrange := (tdiv_value_iff hamount hshare hmax hunit hmaxUnit).1 ⟨hop, hdiv⟩
    rw [LittleEndian.decode_encode_uint64] at hrange
    have hk' : lockingScript.length = k := by rw [← hscript, List.length_take_of_le hk]
    refine ⟨⟨v, lockingScript⟩, rest₂.drop k, ?_, ⟨rfl, hrange.1, hrange.2⟩, hrun⟩
    rw [Output.bytes, CompactSize.encodeBytes, hsize, hk', ← hscript, List.append_assoc, List.append_assoc,
      List.take_append_drop]
  · rintro ⟨⟨amount, script⟩, rest, rfl, ⟨rfl, hleast, hmost⟩, hrun⟩
    obtain ⟨hop, hdiv⟩ := (tdiv_value_iff (LittleEndian.length_encode 8 amount.toNat) hshare hmax hunit
      hmaxUnit).2 (by rw [LittleEndian.decode_encode_uint64]; exact ⟨hleast, hmost⟩)
    refine ⟨LittleEndian.encode 8 amount.toNat, Number.encode script.length ++ (script ++ rest), ?_,
      LittleEndian.length_encode _ _, ?_⟩
    · rw [Output.bytes, CompactSize.encodeBytes, hsize]
      simp only [List.append_assoc]
    · have hone : (Number.encode (script.length : Int)).length = 1 := by
        rw [Number.encode_byte h0 hshort]
        rfl
      rw [run_split_append 1 (by rw [hone]; rfl) (by decide), run_swap, run_split_iff]
      refine ⟨script.length, rfl, hsizeOp, by simp, ?_⟩
      rw [List.drop_left, List.take_left, run_rot, run_rot, run_data, run_equalVerify_iff, run_binToNum hop,
        run_num, run_div_iff _ _ (by omega), run_pick 2 (by decide) (by decide) rfl, run_equalVerify_iff, hdiv]
      exact ⟨rfl, hop, hshareOp, rfl, hrun⟩

/-! ## All payments -/

/-- The parties whose share of units reaches the dust threshold, in order. -/
def due (unit : Nat) (payees : List (Party × Address)) : List (Party × Address) :=
  payees.filter fun payee => 546 ≤ unit * payee.1.share.toNat

/-- One payment for each party that is due, in order. -/
def PaysAll (unit : Nat) (payees : List (Party × Address)) (outputs : List Output) : Prop :=
  List.Forall₂ (fun payee o => Pays unit payee.1.share.toNat payee.2.lockingScript o) (due unit payees) outputs

theorem exists_of_payIfDue {party : Party} {address : Address} {q : Program}
    (h : payIfDue party address = .ok q) :
    ∃ unit, Share.minUnit party.share = .ok unit ∧ q = [ofOpcode .dupSecond, .num unit.toNat, ofOpcode .atLeast,
      .ifThen (payParty party.share address.lockingScript)] := by
  unfold payIfDue at h
  rw [bind_eq_ok_iff] at h
  obtain ⟨unit, hunit, h⟩ := h
  cases h
  exact ⟨unit, hunit, rfl⟩

theorem exists_of_payAll_cons {party : Party} {address : Address} {payees : List (Party × Address)} {q : Program}
    (h : payAll ((party, address) :: payees) = .ok q) :
    ∃ first others, payIfDue party address = .ok first ∧ payAll payees = .ok others ∧ q = first ++ others := by
  rw [payAll, bind_eq_ok_iff] at h
  obtain ⟨first, hfirst, h⟩ := h
  rw [bind_eq_ok_iff] at h
  obtain ⟨others, hothers, h⟩ := h
  cases h
  exact ⟨first, others, hfirst, hothers, rfl⟩

theorem run_payIfDue {party : Party} {address : Address} {q : Program} {unit : Nat} (hmaxUnit : unit ≤ maxUnit)
    (h : payIfDue party address = .ok q) {outputs : Bytes} :
    run suite ctx (q ++ p) (outputs :: Number.encode unit :: s) =
      run suite ctx (if 546 ≤ unit * party.share.toNat then payParty party.share address.lockingScript ++ p
        else p) (outputs :: Number.encode unit :: s) := by
  obtain ⟨u, hmin, rfl⟩ := exists_of_payIfDue h
  have hu := (Share.minUnit_bounds hmin).2
  have hunitOp : IsOperand unit := isOperand_natCast (Nat.lt_of_le_of_lt hmaxUnit (by decide))
  have hcond : decide ((unit : Int) ≥ u.toNat) = decide (546 ≤ unit * party.share.toNat) :=
    decide_eq_decide.2 (by rw [← Share.minUnit_le_iff hmin unit]; exact Int.ofNat_le)
  simp only [List.cons_append, List.nil_append, run_dupSecond, run_num]
  rw [run_atLeast hunitOp (isOperand_natCast (by omega)), run_ifThen, Number.isTrue_ofBool, hcond]
  simp

theorem exists_payAll {payees : List (Party × Address)} (h : ∀ payee ∈ payees, 1 ≤ payee.1.share.toNat) :
    ∃ q, payAll payees = .ok q := by
  induction payees with
  | nil => exact ⟨_, rfl⟩
  | cons payee payees ih =>
      obtain ⟨party, address⟩ := payee
      obtain ⟨hshare, hshares⟩ := List.forall_mem_cons.1 h
      obtain ⟨u, hu⟩ := Share.exists_minUnit hshare
      obtain ⟨others, hothers⟩ := ih hshares
      rw [payAll, payIfDue, hu, hothers]
      exact ⟨_, rfl⟩

/-- The payments go on with what lies below the outputs and the unit. -/
theorem run_payAll_iff {unit : Nat} (hunit : 0 < unit) (hmaxUnit : unit ≤ maxUnit)
    {payees : List (Party × Address)}
    (hshare : ∀ payee ∈ payees, 1 ≤ payee.1.share.toNat ∧ payee.1.share.toNat < Terms.shareTotal) {q : Program}
    (h : payAll payees = .ok q) {outputs : Bytes} :
    run suite ctx (q ++ p) (outputs :: Number.encode unit :: s) = .ok t ↔
      (∃ os, outputs = Output.listBytes os ∧ PaysAll unit payees os) ∧ run suite ctx p s = .ok t := by
  induction payees generalizing q outputs with
  | nil =>
      cases h
      simp only [List.cons_append, List.nil_append, run_size, run_num]
      rw [run_equalVerify_iff, run_drop2]
      constructor
      · rintro ⟨hlen, hrun⟩
        have : outputs.length = 0 := by exact_mod_cast Number.encode_injective hlen
        exact ⟨⟨[], List.eq_nil_of_length_eq_zero this, .nil⟩, hrun⟩
      · rintro ⟨⟨os, rfl, hpays⟩, hrun⟩
        cases hpays
        exact ⟨rfl, hrun⟩
  | cons payee payees ih =>
      obtain ⟨party, address⟩ := payee
      obtain ⟨first, others, hfirst, hothers, rfl⟩ := exists_of_payAll_cons h
      obtain ⟨hlow, hhigh⟩ := hshare (party, address) List.mem_cons_self
      have hih : ∀ outputs, run suite ctx (others ++ p) (outputs :: Number.encode unit :: s) = .ok t ↔ _ :=
        fun _ => ih (fun payee hp => hshare payee (List.mem_cons_of_mem _ hp)) hothers
      have hlen := Address.length_lockingScript address
      rw [List.append_assoc, run_payIfDue hmaxUnit hfirst]
      by_cases hdue : 546 ≤ unit * party.share.toNat
      · have hdues : due unit ((party, address) :: payees) = (party, address) :: due unit payees := by
          simp [due, hdue]
        rw [if_pos hdue, run_payParty_iff hunit hmaxUnit hlow hhigh (by omega) (by omega)]
        simp only [PaysAll, hdues]
        constructor
        · rintro ⟨o, rest, rfl, hpays, hrun⟩
          obtain ⟨⟨os, rfl, hall⟩, hbelow⟩ := (hih rest).1 hrun
          exact ⟨⟨o :: os, rfl, .cons hpays hall⟩, hbelow⟩
        · rintro ⟨⟨os, rfl, hall⟩, hrun⟩
          cases hall with
          | @cons _ o _ os hpays hall =>
              exact ⟨o, Output.listBytes os, rfl, hpays, (hih _).2 ⟨⟨os, rfl, hall⟩, hrun⟩⟩
      · have hdues : due unit ((party, address) :: payees) = due unit payees := by
          simp [due, hdue]
        rw [if_neg hdue, hih]
        simp only [PaysAll, hdues]

/-! ## The whole branch -/

theorem run_nobodyPaid_iff {unit outputs : Bytes} :
    run suite ctx (nobodyPaid ++ p) (unit :: outputs :: s) = .ok t ↔
      value outputs.reverse = value noPayoutOutput.bytes.reverse ∧ run suite ctx p s = .ok t := by
  have hnumber : noPayoutNumber = Number.encode (value noPayoutOutput.bytes.reverse) := by
    rw [← Number.minimize_eq]
    decide
  have hop : IsOperand (value noPayoutOutput.bytes.reverse) := by decide
  simp only [nobodyPaid, List.cons_append, List.nil_append, run_drop, run_reverseBytes]
  rw [run_binToNum_iff, run_data, run_equalVerify_iff, hnumber, Number.encode_injective.eq_iff]
  constructor
  · rintro ⟨-, heq, hrun⟩
    exact ⟨heq, hrun⟩
  · rintro ⟨heq, hrun⟩
    exact ⟨by rwa [heq], heq, hrun⟩

/-- The unit that the program computes for an amount. -/
def unitOf (fee : Nat) (amount : Bytes) : Int := (value amount - fee).tdiv Terms.shareTotal

/-- The outputs pay the parties that are due, or nobody if nobody is. -/
structure Distributes (fee : Nat) (parties : List Party) (addresses : List Address) (amount outputs : Bytes) :
    Prop where
  isOperand_amount : IsOperand (value amount)
  isOperand_net : IsOperand (value amount - fee)
  pays : if ∃ p ∈ parties, 546 ≤ unitOf fee amount * p.share.toNat then
      ∃ os, outputs = Output.listBytes os ∧ PaysAll (unitOf fee amount).toNat (parties.zip addresses) os
    else value outputs.reverse = value noPayoutOutput.bytes.reverse

theorem unitOf_le_maxUnit (fee : Nat) {amount : Bytes} (h : IsOperand (value amount)) :
    unitOf fee amount ≤ maxUnit := by
  unfold IsOperand at h
  unfold unitOf maxUnit Terms.shareTotal
  rcases Int.le_total 0 (value amount - fee) with hnet | hnet
  · rw [Int.tdiv_eq_ediv_of_nonneg hnet]
    omega
  · have hneg := Int.tdiv_nonneg (a := -(value amount - fee)) (b := 1000) (by omega) (by omega)
    rw [Int.neg_tdiv] at hneg
    push_cast
    omega

theorem isOperand_unitOf {fee : Nat} {amount : Bytes} (h : IsOperand (value amount - fee)) :
    IsOperand (unitOf fee amount) :=
  Nat.lt_of_le_of_lt (Int.natAbs_tdiv_le_natAbs _ _) h

/-- The unit reaches the least one of all parties if and only if some party is due. -/
theorem cutoff_le_iff {parties : List Party} {cutoff : UInt64} (h : Share.minUnitForAll parties = .ok cutoff)
    (unit : Int) : cutoff.toNat ≤ unit ↔ ∃ p ∈ parties, 546 ≤ unit * p.share.toNat := by
  rcases Int.lt_or_le unit 0 with hneg | hnonneg
  · refine iff_of_false (by omega) ?_
    rintro ⟨p, -, hp⟩
    have := Int.mul_nonpos_of_nonpos_of_nonneg hneg.le (Int.natCast_nonneg p.share.toNat)
    omega
  · obtain ⟨n, rfl⟩ := Int.eq_ofNat_of_zero_le hnonneg
    rw [Int.ofNat_le, Share.minUnitForAll_le_iff h]
    exact exists_congr fun p => and_congr_right fun _ => by norm_cast

theorem isOperand_fee {terms : Terms} {addresses : List Address} (hvalid : terms.Valid addresses) :
    IsOperand terms.fee.toNat :=
  isOperand_natCast (Nat.lt_of_le_of_lt hvalid.fee.2 (by decide))

theorem isOperand_cutoff {parties : List Party} {cutoff : UInt64} (h : Share.minUnitForAll parties = .ok cutoff) :
    IsOperand cutoff.toNat :=
  isOperand_natCast (Nat.lt_of_le_of_lt (Share.minUnit_bounds h).2 (by decide))

/-- The part of the branch that computes the unit of the amount on top. -/
def computeUnit (fee : Int) : Program :=
  [ofOpcode .binToNum, .num fee, ofOpcode .sub, .num Terms.shareTotal, ofOpcode .div]

theorem run_computeUnit_iff {fee : Nat} (hfee : IsOperand fee) {amount : Bytes} :
    run suite ctx (computeUnit fee ++ p) (amount :: s) = .ok t ↔
      IsOperand (value amount) ∧ IsOperand (value amount - fee) ∧
        run suite ctx p (Number.encode (unitOf fee amount) :: s) = .ok t := by
  simp only [computeUnit, List.cons_append, List.nil_append]
  rw [run_binToNum_iff, run_num, run_sub_iff, run_num, run_div_iff _ _ (by decide)]
  constructor
  · rintro ⟨hop, -, -, hnet, -, hrun⟩
    exact ⟨hop, hnet, hrun⟩
  · rintro ⟨hop, hnet, hrun⟩
    exact ⟨hop, hop, hfee, hnet, by decide, hrun⟩

theorem distribution_eq {fee : Int} {parties : List Party} {addresses : List Address} {payout : Program}
    {cutoff : UInt64} (hpayout : payAll (parties.zip addresses) = .ok payout)
    (hcutoff : Share.minUnitForAll parties = .ok cutoff) :
    distribution fee parties addresses = .ok (ofOpcode .nip :: (computeUnit fee ++ [ofOpcode .dup,
      .num cutoff.toNat, ofOpcode .lessThan, .ifElse nobodyPaid (ofOpcode .swap :: payout)])) := by
  rw [distribution, hpayout, hcutoff]
  rfl

theorem exists_of_distribution {fee : Int} {parties : List Party} {addresses : List Address} {q : Program}
    (h : distribution fee parties addresses = .ok q) :
    ∃ payout cutoff, payAll (parties.zip addresses) = .ok payout ∧ Share.minUnitForAll parties = .ok cutoff ∧
      q = ofOpcode .nip :: (computeUnit fee ++ [ofOpcode .dup, .num cutoff.toNat, ofOpcode .lessThan,
        .ifElse nobodyPaid (ofOpcode .swap :: payout)]) := by
  have hq := h
  rw [distribution, bind_eq_ok_iff] at h
  obtain ⟨payout, hpayout, h⟩ := h
  rw [bind_eq_ok_iff] at h
  obtain ⟨cutoff, hcutoff, -⟩ := h
  rw [distribution_eq hpayout hcutoff] at hq
  cases hq
  exact ⟨payout, cutoff, hpayout, hcutoff, rfl⟩

theorem run_distribution_iff {terms : Terms} {addresses : List Address} (hvalid : terms.Valid addresses)
    {q : Program} (h : distribution terms.fee.toNat terms.parties addresses = .ok q)
    {amount scriptCode outputs : Bytes} :
    run suite ctx (q ++ p) (amount :: scriptCode :: outputs :: s) = .ok t ↔
      Distributes terms.fee.toNat terms.parties addresses amount outputs ∧ run suite ctx p s = .ok t := by
  obtain ⟨payout, cutoff, hpayout, hcutoff, rfl⟩ := exists_of_distribution h
  have hdue := cutoff_le_iff hcutoff (unitOf terms.fee.toNat amount)
  rw [List.cons_append, run_nip, List.append_assoc, run_computeUnit_iff (isOperand_fee hvalid)]
  simp only [List.cons_append, List.nil_append]
  rw [run_dup, run_num, run_lessThan_iff, run_ifElse, Number.isTrue_ofBool]
  by_cases hlt : unitOf terms.fee.toNat amount < cutoff.toNat
  · rw [if_pos (decide_eq_true hlt), run_nobodyPaid_iff]
    have hnone := mt hdue.2 (by omega)
    constructor
    · rintro ⟨hop, hnet, -, -, houtputs, hrun⟩
      exact ⟨⟨hop, hnet, by rwa [if_neg hnone]⟩, hrun⟩
    · rintro ⟨⟨hop, hnet, hpays⟩, hrun⟩
      rw [if_neg hnone] at hpays
      exact ⟨hop, hnet, isOperand_unitOf hnet, isOperand_cutoff hcutoff, hpays, hrun⟩
  · have hsome := hdue.1 (by omega)
    rw [if_neg (by simpa using hlt), List.cons_append, run_swap]
    have hcutoff1 := (Share.minUnit_bounds hcutoff).1
    obtain ⟨unit, hunit⟩ : ∃ unit : Nat, unitOf terms.fee.toNat amount = unit :=
      Int.eq_ofNat_of_zero_le (by omega)
    have hshare : ∀ payee ∈ terms.parties.zip addresses,
        1 ≤ payee.1.share.toNat ∧ payee.1.share.toNat < Terms.shareTotal := fun payee hp =>
      hvalid.share (List.of_mem_zip hp).1
    constructor
    · rintro ⟨hop, hnet, -, -, hrun⟩
      have hmax := unitOf_le_maxUnit terms.fee.toNat hop
      rw [hunit] at hrun
      rw [run_payAll_iff (by omega) (by omega) hshare hpayout] at hrun
      refine ⟨⟨hop, hnet, ?_⟩, hrun.2⟩
      rw [if_pos hsome, hunit]
      exact hrun.1
    · rintro ⟨⟨hop, hnet, hpays⟩, hrun⟩
      have hmax := unitOf_le_maxUnit terms.fee.toNat hop
      rw [if_pos hsome, hunit] at hpays
      refine ⟨hop, hnet, isOperand_unitOf hnet, isOperand_cutoff hcutoff, ?_⟩
      rw [hunit, run_payAll_iff (by omega) (by omega) hshare hpayout]
      exact ⟨hpays, hrun⟩

end ShareCovenant.Covenant
