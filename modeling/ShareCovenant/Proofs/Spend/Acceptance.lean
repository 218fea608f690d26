import Mathlib
import ShareCovenant.Proofs.Spend.Completeness

/-!
# Accepted distributions

Of the transactions that are signed with the key of a contract, exactly those are accepted that spend nothing
else and pay each party that is due its share of units, within what the division rounds off. What the
payments leave of the amount is the fee, but for at most 998.
-/

namespace ShareCovenant.Spend

open Covenant

variable {suite : Suite} {terms : Terms} {value : UInt64}

/-! ## What is left to the miner -/

/-- Each payment stays below the share of the next unit. -/
theorem sum_amount_le {unit : Nat} {parties : List Party} {outputs : List Output}
    (hshare : ∀ p ∈ parties, 1 ≤ p.share.toNat) (h : List.Forall₂ (PaysParty unit) parties outputs) :
    (outputs.map (·.amount.toNat)).sum + parties.length ≤ (unit + 1) * Terms.totalShare parties := by
  induction h with
  | nil => exact Nat.zero_le _
  | @cons p o parties outputs hpays _ ih =>
      obtain ⟨hp, hparties⟩ := List.forall_mem_cons.1 hshare
      obtain ⟨a, -, -, -, hmost⟩ := hpays
      have := ih hparties
      rw [List.map_cons, List.sum_cons, List.length_cons, Terms.totalShare, Nat.mul_add, Nat.succ_mul unit]
      omega

theorem totalShare_filter_le (f : Party → Bool) (parties : List Party) :
    Terms.totalShare (parties.filter f) ≤ Terms.totalShare parties := by
  induction parties with
  | nil => exact Nat.le_refl _
  | cons p parties ih =>
      rw [List.filter_cons, Terms.totalShare]
      split_ifs
      · exact Nat.add_le_add_left ih _
      · omega

/-- The payments leave the fee, but for what two parties may round up. -/
theorem sum_amount_add_fee_le {addresses : List Address} (hvalid : terms.Valid addresses)
    (hsome : terms.SomeDue value) {outputs : List Output}
    (h : List.Forall₂ (PaysParty (terms.unit value)) (terms.dueParties value) outputs) :
    (outputs.map (·.amount.toNat)).sum + terms.fee.toNat ≤ value.toNat + 998 := by
  have hshare : ∀ p ∈ terms.dueParties value, 1 ≤ p.share.toNat ∧ p.share.toNat < Terms.shareTotal :=
    fun p hp => hvalid.share (List.mem_of_mem_filter hp)
  have hsum := sum_amount_le (fun p hp => (hshare p hp).1) h
  have htotal : Terms.totalShare (terms.dueParties value) ≤ 1000 :=
    (totalShare_filter_le _ _).trans_eq hvalid.total
  -- a party that is due shows that the amount is above the fee
  have hunit : terms.unit value * 1000 + terms.fee.toNat ≤ value.toNat := by
    obtain ⟨p, -, hdue⟩ := hsome
    have hpos : terms.unit value ≠ 0 := by
      intro h0
      rw [h0, Nat.zero_mul] at hdue
      omega
    unfold Terms.unit Terms.shareTotal at *
    omega
  cases hdue : terms.dueParties value with
  | nil =>
      rw [hdue] at h
      cases h
      rw [List.map_nil, List.sum_nil]
      omega
  | cons p parties =>
      rw [hdue, List.length_cons] at hsum
      cases parties with
      | nil =>
          -- a single party has at most 999 shares
          have hp := (hshare p (by rw [hdue]; exact List.mem_cons_self)).2
          simp only [Terms.totalShare, List.length_nil, Nat.add_zero] at hsum
          have hle : (terms.unit value + 1) * p.share.toNat ≤ (terms.unit value + 1) * 999 :=
            Nat.mul_le_mul_left _ (Nat.le_of_lt_succ hp)
          omega
      | cons q parties =>
          have hle := Nat.mul_le_mul_left (terms.unit value + 1) htotal
          rw [hdue] at hle
          rw [List.length_cons] at hsum
          omega

/-! ## The accepted transactions -/

/-- A signed spend of an amount that reaches the least unit is accepted if and only if it has no other input
and pays the parties that are due in their order. -/
theorem verifySpend_signed_iff_paysParty (hc : suite.curve.PrimeOrder) {key : suite.curve.Scalar}
    {contract : Contract} (hcompile : Contract.compile (Key.publicKey key) terms = .ok contract)
    {tx tx' : Transaction} {index : Nat} (hsign : signInput key tx index value contract = .ok tx')
    (hmax : value ≤ maxValue) {cutoff : UInt64} (hcutoff : Share.minUnitForAll terms.parties = .ok cutoff)
    (hunit : cutoff.toNat ≤ terms.unit value) :
    (Contract.verifySpend suite tx' index value contract = .ok () ↔
      tx'.inputs.length = 1 ∧
        List.Forall₂ (PaysParty (terms.unit value)) (terms.dueParties value) tx'.outputs) ∧
    (Contract.verifySpend suite tx' index value contract = .ok () →
      (tx'.outputs.map (·.amount.toNat)).sum + terms.fee.toNat ≤ value.toNat + 998) := by
  obtain ⟨addresses, hvalidate⟩ := Contract.exists_validate hcompile
  have hvalid := Terms.valid_of_validate hvalidate
  have hsome : terms.SomeDue value := (Terms.someDue_iff hcutoff value).2 hunit
  have haccepted : Contract.verifySpend suite tx' index value contract = .ok () ↔
      tx'.inputs.length = 1 ∧
        List.Forall₂ (PaysParty (terms.unit value)) (terms.dueParties value) tx'.outputs := by
    rw [verifySpend_signed_iff hc hcompile hvalidate hsign, obeys_iff_paysParty hvalid hmax hsome]
    refine and_congr_right fun _ => ⟨fun h => h.2, fun h => ⟨?_, h⟩⟩
    exact ((paysAll_iff_paysParty hvalid _ _).2 h).length_listBytes hvalid.length_zip_le
  exact ⟨haccepted, fun h => sum_amount_add_fee_le hvalid hsome (haccepted.1 h).2⟩

theorem verifySpend_signed_iff_paysParty_sample :
    ∃ (key : Suite.standard.curve.Scalar) (contract : Contract) (outputs : List Output) (tx : Transaction),
      Suite.standard.curve.PrimeOrder ∧ Contract.compile (Key.publicKey key) sampleTerms = .ok contract ∧
      signInput key (unsigned sampleCoin.outpoint outputs) 0 sampleCoin.value contract = .ok tx ∧
      sampleCoin.value ≤ maxValue ∧ Share.minUnitForAll sampleTerms.parties = .ok 1 ∧
      (1 : UInt64).toNat ≤ sampleTerms.unit sampleCoin.value ∧
      (Contract.verifySpend Suite.standard tx 0 sampleCoin.value contract = .ok () ↔
        tx.inputs.length = 1 ∧ List.Forall₂ (PaysParty (sampleTerms.unit sampleCoin.value))
          (sampleTerms.dueParties sampleCoin.value) tx.outputs) ∧
      (Contract.verifySpend Suite.standard tx 0 sampleCoin.value contract = .ok () →
        (tx.outputs.map (·.amount.toNat)).sum + sampleTerms.fee.toNat ≤ sampleCoin.value.toNat + 998) := by
  obtain ⟨key, tx, -, hbuild⟩ := exists_sampleSpend
  obtain ⟨contract, outputs, hcompile, -, hsign⟩ := exists_of_build hbuild
  have hmax : sampleCoin.value ≤ maxValue := by decide
  have hcutoff : Share.minUnitForAll sampleTerms.parties = .ok 1 := rfl
  have hunit : (1 : UInt64).toNat ≤ sampleTerms.unit sampleCoin.value := by decide
  obtain ⟨haccepted, hbound⟩ :=
    verifySpend_signed_iff_paysParty Curve.primeOrder_secp256k1 hcompile hsign hmax hcutoff hunit
  exact ⟨key, contract, outputs, tx, Curve.primeOrder_secp256k1, hcompile, hsign, hmax, hcutoff, hunit, haccepted,
    hbound⟩

end ShareCovenant.Spend
