import Mathlib
import ShareCovenant.Contract.Payout
import ShareCovenant.Proofs.Covenant.Distribution

/-!
# Computed payouts

The outputs that are computed for an amount agree with what the program asks: no operation on amounts wraps
around, the payments are those of the parties that are due, and the halves add up to what the fee leaves.
-/

namespace ShareCovenant.Payout

open Covenant

variable {suite : Suite} {terms : Terms} {addresses : List Address} {value : UInt64}

/-! ## Modes -/

/-- What becomes of an amount is decided by its size and by whether some party is due. -/
theorem mode_cases {m : PayoutMode} (h : mode value terms = .ok m) :
    (maxValue < value ∧ m = .split) ∨
      (value ≤ maxValue ∧ ¬terms.SomeDue value ∧ m = .noPayout) ∨
      (value ≤ maxValue ∧ terms.SomeDue value ∧ ∃ unit : UInt64, unit.toNat = terms.unit value ∧
        m = .distribute unit) := by
  unfold mode at h
  split_ifs at h with hsplit hfee
  · cases h
    exact Or.inl ⟨hsplit, rfl⟩
  · cases h
    exact Or.inr (Or.inl ⟨UInt64.not_lt.1 hsplit, Terms.not_someDue_of_lt (UInt64.lt_iff_toNat_lt.1 hfee), rfl⟩)
  · have hfee' : terms.fee ≤ value := UInt64.not_lt.1 hfee
    rw [Share.quotient, if_neg (by decide), bind_eq_ok_iff] at h
    obtain ⟨unit, hquotient, h⟩ := h
    rw [bind_eq_ok_iff] at h
    obtain ⟨cutoff, hcutoff, h⟩ := h
    cases h
    have hunit : unit.toNat = terms.unit value := by
      rw [← Except.ok.inj hquotient, UInt64.toNat_div, UInt64.toNat_sub_of_le _ _ hfee']
      rfl
    have hlt : unit < cutoff ↔ ¬terms.SomeDue value := by
      rw [UInt64.lt_iff_toNat_lt, hunit, Terms.someDue_iff hcutoff value, not_le]
    split_ifs with hcmp
    · exact Or.inr (Or.inl ⟨UInt64.not_lt.1 hsplit, hlt.1 hcmp, rfl⟩)
    · exact Or.inr (Or.inr ⟨UInt64.not_lt.1 hsplit, not_not.1 (mt hlt.2 hcmp), unit, hunit, rfl⟩)

theorem exists_mode {cutoff : UInt64} (hcutoff : Share.minUnitForAll terms.parties = .ok cutoff)
    (value : UInt64) : ∃ m, mode value terms = .ok m := by
  unfold mode
  split_ifs
  · exact ⟨_, rfl⟩
  · exact ⟨_, rfl⟩
  · rw [Share.quotient, if_neg (by decide), hcutoff]
    exact ⟨_, rfl⟩

/-! ## Outputs of the modes -/

/-- A unit that is a script number has a share that is an amount. -/
theorem toNat_payment {unit : UInt64} (hunit : unit.toNat < 2 ^ 31) (share : UInt32) :
    (unit * share.toUInt64).toNat = unit.toNat * share.toNat := by
  have hlt : unit.toNat * share.toNat < 2 ^ 31 * 2 ^ 32 := Nat.mul_lt_mul'' hunit share.toNat_lt
  rw [UInt64.toNat_mul, UInt32.toNat_toUInt64, Nat.mod_eq_of_lt (by omega)]

theorem payment_lt_dustThreshold_iff {unit : UInt64} (hunit : unit.toNat < 2 ^ 31) (share : UInt32) :
    unit * share.toUInt64 < Share.dustThreshold ↔ unit.toNat * share.toNat < 546 := by
  rw [UInt64.lt_iff_toNat_lt, toNat_payment hunit]
  rfl

theorem payments_cons (unit : UInt64) (p : Party) (parties : List Party) (a : Address) (addresses : List Address) :
    payments unit (p :: parties) (a :: addresses) =
      if unit * p.share.toUInt64 < Share.dustThreshold then payments unit parties addresses
      else ⟨unit * p.share.toUInt64, a.lockingScript⟩ :: payments unit parties addresses := by
  simp only [payments, List.zip_cons_cons, List.filterMap_cons]
  split_ifs <;> rfl

theorem lt_of_le_maxUnit {unit : Nat} (h : unit ≤ maxUnit) : unit < 2 ^ 31 :=
  Nat.lt_of_le_of_lt h (by decide)

theorem paysAll_payments {unit : UInt64} (hunit : unit.toNat ≤ maxUnit) {parties : List Party}
    {addresses : List Address} (hshare : ∀ p ∈ parties, 1 ≤ p.share.toNat ∧ p.share.toNat < Terms.shareTotal) :
    PaysAll unit.toNat (parties.zip addresses) (payments unit parties addresses) := by
  have hlt := lt_of_le_maxUnit hunit
  unfold PaysAll due
  induction parties generalizing addresses with
  | nil => exact .nil
  | cons p parties ih =>
      cases addresses with
      | nil => exact .nil
      | cons a addresses =>
          obtain ⟨hp, hparties⟩ := List.forall_mem_cons.1 hshare
          have hpayment := toNat_payment hlt p.share
          rw [List.zip_cons_cons, List.filter_cons, payments_cons]
          simp only [payment_lt_dustThreshold_iff hlt, decide_eq_true_eq]
          by_cases hdue : 546 ≤ unit.toNat * p.share.toNat
          · rw [if_pos hdue, if_neg (not_lt.2 hdue)]
            have hmost : (unit * p.share.toUInt64).toNat ≤ unit.toNat * p.share.toNat + p.share.toNat - 1 := by
              omega
            exact .cons ⟨rfl, hpayment.ge, hmost⟩ (ih hparties)
          · rw [if_neg hdue, if_pos (not_le.1 hdue)]
            exact ih hparties

theorem ne_nil_of_paysAll (hvalid : terms.Valid addresses) (hsome : terms.SomeDue value) {outputs : List Output}
    (h : PaysAll (terms.unit value) (terms.parties.zip addresses) outputs) : outputs ≠ [] := by
  rintro rfl
  obtain ⟨p, hp, hdue⟩ := hsome
  have hnone : due (terms.unit value) (terms.parties.zip addresses) = [] := List.forall₂_nil_right_iff.1 h
  rw [← List.map_fst_zip hvalid.parties.length_eq.le, List.mem_map] at hp
  obtain ⟨payee, hpayee, rfl⟩ := hp
  exact List.filter_eq_nil_iff.1 hnone payee hpayee (decide_eq_true hdue)

theorem unit_le_maxUnit (hmax : value ≤ maxValue) : terms.unit value ≤ maxUnit := by
  have hle : value.toNat ≤ 0x7fffffff := UInt64.le_iff_toNat_le.1 hmax
  unfold Terms.unit Terms.shareTotal maxUnit
  omega

theorem paysAll_payments_unit (hvalid : terms.Valid addresses) (hmax : value ≤ maxValue) {unit : UInt64}
    (hunit : unit.toNat = terms.unit value) :
    PaysAll (terms.unit value) (terms.parties.zip addresses) (payments unit terms.parties addresses) := by
  rw [← hunit]
  exact paysAll_payments (hunit ▸ unit_le_maxUnit hmax) fun p hp => hvalid.share hp

theorem payments_ne_nil (hvalid : terms.Valid addresses) (hmax : value ≤ maxValue) (hsome : terms.SomeDue value)
    {unit : UInt64} (hunit : unit.toNat = terms.unit value) : payments unit terms.parties addresses ≠ [] :=
  ne_nil_of_paysAll hvalid hsome (paysAll_payments_unit hvalid hmax hunit)

theorem orNobody_of_ne_nil {outs : List Output} (h : outs ≠ []) : orNobody outs = outs := by
  cases outs with
  | nil => exact absurd rfl h
  | cons o os => rfl

/-- The outputs of an amount by its mode. -/
theorem outputs_cases (hvalidate : terms.validate = .ok addresses) {contract : Contract}
    {outs : List Output} (h : outputs suite value terms contract = .ok outs) :
    (maxValue < value ∧ outs = halves (value - terms.fee) (contract.lockingScript suite)) ∨
      (value ≤ maxValue ∧ ¬terms.SomeDue value ∧ outs = [noPayoutOutput]) ∨
      (value ≤ maxValue ∧ terms.SomeDue value ∧
        PaysAll (terms.unit value) (terms.parties.zip addresses) outs) := by
  have hvalid := Terms.valid_of_validate hvalidate
  rw [outputs, bind_eq_ok_iff] at h
  obtain ⟨addresses', haddresses, h⟩ := h
  cases hvalidate.symm.trans (mapError_eq_ok_iff.1 haddresses)
  rw [bind_eq_ok_iff] at h
  obtain ⟨m, hmode, h⟩ := h
  rcases mode_cases hmode with ⟨hsplit, rfl⟩ | ⟨hmax, hnone, rfl⟩ | ⟨hmax, hsome, unit, hunit, rfl⟩
  · cases h
    exact Or.inl ⟨hsplit, rfl⟩
  · cases h
    exact Or.inr (Or.inl ⟨hmax, hnone, rfl⟩)
  · cases h
    rw [orNobody_of_ne_nil (payments_ne_nil hvalid hmax hsome hunit)]
    exact Or.inr (Or.inr ⟨hmax, hsome, paysAll_payments_unit hvalid hmax hunit⟩)

/-! ## Halves -/

/-- The largest fee leaves twice the dust threshold of an amount that is split. -/
theorem fee_add_le (hmin : maxValue < value) (hfee : terms.fee.toNat ≤ Terms.maxFee) :
    terms.fee.toNat + 2 * 546 ≤ value.toNat := by
  have hlt : 0x7fffffff < value.toNat := UInt64.lt_iff_toNat_lt.1 hmin
  have hmaxFee : terms.fee.toNat ≤ 2113929217 := hfee
  omega

theorem fee_le (hmin : maxValue < value) (hfee : terms.fee.toNat ≤ Terms.maxFee) : terms.fee ≤ value :=
  UInt64.le_iff_toNat_le.2 (Nat.le_of_add_right_le (fee_add_le hmin hfee))

theorem half_le (net : UInt64) : net / 2 ≤ net := by
  rw [UInt64.le_iff_toNat_le, UInt64.toNat_div]
  exact Nat.div_le_self _ _

theorem toNat_half (hmin : maxValue < value) (hfee : terms.fee.toNat ≤ Terms.maxFee) :
    ((value - terms.fee) / 2).toNat = (value.toNat - terms.fee.toNat) / 2 := by
  rw [UInt64.toNat_div, UInt64.toNat_sub_of_le _ _ (fee_le hmin hfee)]
  rfl

/-- The halves of what a fee leaves add up with the fee. -/
theorem sum_halves (hmin : maxValue < value) (hfee : terms.fee.toNat ≤ Terms.maxFee) :
    (value - terms.fee - (value - terms.fee) / 2).toNat + ((value - terms.fee) / 2).toNat + terms.fee.toNat =
      value.toNat := by
  have hle := fee_add_le hmin hfee
  rw [UInt64.toNat_sub_of_le _ _ (half_le _), toNat_half hmin hfee, UInt64.toNat_sub_of_le _ _ (fee_le hmin hfee)]
  omega

end ShareCovenant.Payout
