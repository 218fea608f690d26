import Mathlib
import ShareCovenant.Contract.Summary
import ShareCovenant.Proofs.Contract.Accounting
import ShareCovenant.Proofs.Spend.Size

/-!
# Published limits

The summary of a contract names the least amount of which some party is paid and the least fee that pays for a
spend. Both are computed apart from the payout and from the spends, and both are exact.
-/

namespace ShareCovenant

open Covenant

variable {suite : Suite} {terms : Terms} {addresses : List Address} {value : UInt64}

/-! ## The least amount -/

namespace Terms

/-- Some party has a third of the shares, which two units bring to the dust threshold. -/
theorem Valid.cutoff_le_two (hvalid : terms.Valid addresses) {cutoff : UInt64}
    (hcutoff : Share.minUnitForAll terms.parties = .ok cutoff) : cutoff.toNat ≤ 2 := by
  rw [Share.minUnitForAll_le_iff hcutoff]
  -- otherwise three shares are 816 at most
  by_contra hnone
  have hsmall : ∀ p ∈ terms.parties, p.share.toNat ≤ 272 := fun p hp => by
    by_contra hlarge
    exact hnone ⟨p, hp, by omega⟩
  have hle := List.sum_le_card_nsmul _ _ (List.forall_mem_map.2 hsmall)
  have hcount : terms.parties.length ≤ 3 := hvalid.count.2
  rw [← totalShare_eq_sum, hvalid.total, shareTotal, List.length_map, smul_eq_mul] at hle
  omega

/-- Of the largest amount that is distributed, some party is due. -/
theorem Valid.least_le (hvalid : terms.Valid addresses) {cutoff : UInt64}
    (hcutoff : Share.minUnitForAll terms.parties = .ok cutoff) :
    1000 * cutoff.toNat + terms.fee.toNat ≤ Covenant.maxValue.toNat := by
  have hle := hvalid.cutoff_le_two hcutoff
  have hfee : terms.fee.toNat ≤ 2113929217 := hvalid.fee.2
  change _ ≤ 0x7fffffff
  omega

/-- Some party is due from a thousand of the least units and the fee on. -/
theorem someDue_iff_le {cutoff : UInt64} (hcutoff : Share.minUnitForAll terms.parties = .ok cutoff)
    (value : UInt64) : terms.SomeDue value ↔ 1000 * cutoff.toNat + terms.fee.toNat ≤ value.toNat := by
  have hpos := (Share.minUnit_bounds hcutoff).1
  rw [someDue_iff hcutoff, unit, shareTotal]
  omega

end Terms

namespace Payout

/-- The outputs are others than the one that pays nobody from the least amount on. -/
theorem ne_noPayout_iff (hvalidate : terms.validate = .ok addresses) {cutoff : UInt64}
    (hcutoff : Share.minUnitForAll terms.parties = .ok cutoff) {contract : Contract} {m : PayoutMode}
    (hmode : mode value terms = .ok m) {outs : List Output}
    (haccounts : AccountsFor suite terms addresses contract value outs m) :
    outs ≠ [noPayoutOutput] ↔ 1000 * cutoff.toNat + terms.fee.toNat ≤ value.toNat := by
  have hvalid := Terms.valid_of_validate hvalidate
  rcases mode_cases hmode with ⟨hsplit, rfl⟩ | ⟨-, hnone, rfl⟩ | ⟨-, hsome, unit, -, rfl⟩
  · obtain ⟨first, second, rfl, -⟩ := haccounts
    exact iff_of_true (by simp) ((hvalid.least_le hcutoff).trans (UInt64.lt_iff_toNat_lt.1 hsplit).le)
  · rw [← Terms.someDue_iff_le hcutoff]
    exact iff_of_false (not_not.2 haccounts) hnone
  · rw [← Terms.someDue_iff_le hcutoff]
    refine iff_of_true ?_ hsome
    obtain ⟨-, hdust, -⟩ := haccounts
    rintro rfl
    exact absurd (hdust _ List.mem_cons_self) (by decide)

end Payout

namespace ContractSummary

open Spend

variable {key : suite.curve.Scalar} {summary : ContractSummary}

theorem exists_of_describe (h : describe key terms = .ok summary) :
    ∃ cutoff smallest, Share.minUnitForAll terms.parties = .ok cutoff ∧
      build key (Coin.placeholder terms.fee) terms = .ok smallest ∧ summary.dustValue = smallest.size ∧
      summary.minValue = UInt64.ofNat Terms.shareTotal * cutoff + terms.fee ∧
      summary.maxValue = Covenant.maxValue := by
  unfold describe at h
  rw [bind_eq_ok_iff] at h
  obtain ⟨contract, -, h⟩ := h
  rw [bind_eq_ok_iff] at h
  obtain ⟨cutoff, hcutoff, h⟩ := h
  rw [bind_eq_ok_iff] at h
  obtain ⟨smallest, hsmallest, h⟩ := h
  cases h
  exact ⟨cutoff, smallest, hcutoff, hsmallest, rfl, rfl, rfl⟩

theorem exists_validate_of_describe (h : describe key terms = .ok summary) :
    ∃ addresses, terms.validate = .ok addresses := by
  obtain ⟨-, smallest, -, hsmallest, -⟩ := exists_of_describe h
  obtain ⟨contract, -, hcompile, -⟩ := exists_of_build hsmallest
  exact Contract.exists_validate hcompile

theorem toNat_minValue (hvalid : terms.Valid addresses) {cutoff : UInt64}
    (hcutoff : Share.minUnitForAll terms.parties = .ok cutoff) :
    (UInt64.ofNat Terms.shareTotal * cutoff + terms.fee).toNat = 1000 * cutoff.toNat + terms.fee.toNat := by
  have hle := (hvalid.least_le hcutoff).trans_lt Covenant.maxValue.toNat_lt
  have htotal : (UInt64.ofNat Terms.shareTotal).toNat = 1000 := rfl
  rw [UInt64.toNat_add, UInt64.toNat_mul, htotal]
  omega

/-- Every amount has a payout, in which somebody is paid exactly from the published least amount on. That is an
amount that is distributed. -/
theorem outputs_ne_noPayout_iff (h : describe key terms = .ok summary) :
    (∀ (value : UInt64) (contract : Contract), ∃ outs, Payout.outputs suite value terms contract = .ok outs ∧
      (outs ≠ [noPayoutOutput] ↔ summary.minValue ≤ value)) ∧
    summary.minValue ≤ summary.maxValue ∧ summary.maxValue = Covenant.maxValue := by
  obtain ⟨addresses, hvalidate⟩ := exists_validate_of_describe h
  have hvalid := Terms.valid_of_validate hvalidate
  obtain ⟨cutoff, -, hcutoff, -, -, hmin, hmax⟩ := exists_of_describe h
  have htoNat := toNat_minValue hvalid hcutoff
  rw [← hmin] at htoNat
  refine ⟨fun value contract => ?_, ?_, hmax⟩
  · obtain ⟨m, outs, hmode, houts, -, haccounts⟩ := Payout.exists_accountsFor hvalidate value contract
    refine ⟨outs, houts, ?_⟩
    rw [Payout.ne_noPayout_iff hvalidate hcutoff hmode haccounts, UInt64.le_iff_toNat_le, htoNat]
  · rw [hmax, UInt64.le_iff_toNat_le, htoNat]
    exact hvalid.least_le hcutoff

theorem exists_sampleSummary :
    ∃ (key : Suite.standard.curve.Scalar) (summary : ContractSummary), Key.published Suite.standard = .ok key ∧
      describe key sampleTerms = .ok summary := by
  have h : ((Key.published Suite.standard).toOption.bind fun key =>
      (describe key sampleTerms).toOption).isSome = true := by decide +kernel
  simp only [Option.isSome_iff_exists, Option.bind_eq_some_iff, toOption_eq_some_iff] at h
  obtain ⟨summary, key, hkey, hdescribe⟩ := h
  exact ⟨key, summary, hkey, hdescribe⟩

theorem outputs_ne_noPayout_iff_sample :
    ∃ (key : Suite.standard.curve.Scalar) (summary : ContractSummary), describe key sampleTerms = .ok summary ∧
      (∀ (value : UInt64) (contract : Contract), ∃ outs,
        Payout.outputs Suite.standard value sampleTerms contract = .ok outs ∧
        (outs ≠ [noPayoutOutput] ↔ summary.minValue ≤ value)) ∧
      summary.minValue ≤ summary.maxValue ∧ summary.maxValue = Covenant.maxValue := by
  obtain ⟨key, summary, -, hdescribe⟩ := exists_sampleSummary
  exact ⟨key, summary, hdescribe, outputs_ne_noPayout_iff hdescribe⟩

/-! ## The least fee -/

/-- The published least fee is the size of a spend whose outputs take ten bytes. -/
theorem dustValue_eq (h : describe key terms = .ok summary) {contract : Contract}
    (hcompile : Contract.compile (Key.publicKey key) terms = .ok contract) :
    summary.dustValue = contract.spendOverhead + 21 := by
  obtain ⟨addresses, hvalidate⟩ := exists_validate_of_describe h
  obtain ⟨-, smallest, -, hsmallest, hdust, -⟩ := exists_of_describe h
  obtain ⟨contract', outs, hcompile', houts, -, hsize⟩ := size_of_build hsmallest
  cases hcompile.symm.trans hcompile'
  rw [Payout.outputs_fee hvalidate houts] at hsize
  rw [hdust, hsize]
  rfl

/-- The size of every built spend is the published least fee and what its outputs take above ten bytes, twice,
with one byte more for their push from 76 bytes on. A spend is created if and only if the fee pays for that
size, and there is one that is if and only if the fee is the published least one or more. -/
theorem size_build_of_describe (h : describe key terms = .ok summary) :
    (∀ coin tx, build key coin terms = .ok tx → ∃ contract outputs,
      Contract.compile (Key.publicKey key) terms = .ok contract ∧
      Payout.outputs suite coin.value terms contract = .ok outputs ∧ 10 ≤ (Output.listBytes outputs).length ∧
      tx.size = summary.dustValue + 2 * ((Output.listBytes outputs).length - 10) +
        (if 76 ≤ (Output.listBytes outputs).length then 1 else 0) ∧
      create key coin terms =
        (if tx.size ≤ terms.fee.toNat then .ok tx else .error (.feeTooLow terms.fee tx.size)) ∧
      summary.dustValue ≤ tx.size) ∧
    ((∃ coin tx, create key coin terms = .ok tx) ↔ summary.dustValue ≤ terms.fee.toNat) := by
  have hbuilt : ∀ coin tx, build key coin terms = .ok tx → ∃ contract outputs,
      Contract.compile (Key.publicKey key) terms = .ok contract ∧
      Payout.outputs suite coin.value terms contract = .ok outputs ∧ 10 ≤ (Output.listBytes outputs).length ∧
      tx.size = summary.dustValue + 2 * ((Output.listBytes outputs).length - 10) +
        (if 76 ≤ (Output.listBytes outputs).length then 1 else 0) := fun coin tx hbuild => by
    obtain ⟨contract, outputs, hcompile, houtputs, hleast, hsize⟩ := size_of_build hbuild
    have hdust := dustValue_eq h hcompile
    exact ⟨contract, outputs, hcompile, houtputs, hleast, by omega⟩
  refine ⟨fun coin tx hbuild => ?_, ?_, fun hfee => ?_⟩
  · obtain ⟨contract, outputs, hcompile, houtputs, hleast, hsize⟩ := hbuilt coin tx hbuild
    exact ⟨contract, outputs, hcompile, houtputs, hleast, hsize, create_of_build hbuild, by omega⟩
  · rintro ⟨coin, tx, hcreate⟩
    obtain ⟨hbuild, hfee⟩ := build_of_create hcreate
    obtain ⟨_, _, -, -, -, hsize⟩ := hbuilt coin tx hbuild
    omega
  · obtain ⟨-, smallest, -, hsmallest, hdust, -⟩ := exists_of_describe h
    refine ⟨Coin.placeholder terms.fee, smallest, ?_⟩
    rw [create_of_build hsmallest, if_pos (hdust ▸ hfee)]

theorem size_build_of_describe_sample :
    ∃ (key : Suite.standard.curve.Scalar) (summary : ContractSummary) (tx : Transaction),
      describe key sampleTerms = .ok summary ∧ build key sampleCoin sampleTerms = .ok tx ∧
      (∃ contract outputs, Contract.compile (Key.publicKey key) sampleTerms = .ok contract ∧
        Payout.outputs Suite.standard sampleCoin.value sampleTerms contract = .ok outputs ∧
        10 ≤ (Output.listBytes outputs).length ∧
        tx.size = summary.dustValue + 2 * ((Output.listBytes outputs).length - 10) +
          (if 76 ≤ (Output.listBytes outputs).length then 1 else 0) ∧
        create key sampleCoin sampleTerms =
          (if tx.size ≤ sampleTerms.fee.toNat then .ok tx else .error (.feeTooLow sampleTerms.fee tx.size)) ∧
        summary.dustValue ≤ tx.size) ∧
      ((∃ coin tx, create key coin sampleTerms = .ok tx) ↔ summary.dustValue ≤ sampleTerms.fee.toNat) := by
  obtain ⟨key, summary, hkey, hdescribe⟩ := exists_sampleSummary
  obtain ⟨key', tx, hkey', hbuild⟩ := exists_sampleSpend
  cases hkey.symm.trans hkey'
  obtain ⟨hbuilt, hcreated⟩ := size_build_of_describe hdescribe
  exact ⟨key, summary, tx, hdescribe, hbuild, hbuilt sampleCoin tx hbuild, hcreated⟩

end ContractSummary

end ShareCovenant
