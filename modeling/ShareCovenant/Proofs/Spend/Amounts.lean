import Mathlib
import ShareCovenant.Contract.Payout
import ShareCovenant.Proofs.Spend.Signing

/-!
# Outputs that obey the terms

What the branches of the program ask of the outputs when the amount is that of a coin: below the sign bit
the mask tells the amounts above the largest one, the unit is the quotient of natural numbers, and the bytes
of the outputs stand for no other outputs.
-/

namespace ShareCovenant

open Covenant
open Number (value IsOperand isOperand_natCast)

variable {suite : Suite}

namespace Covenant

/-! ## The choice of the branch -/

/-- The mask leaves the multiples of the first amount that is too large. -/
theorem and_overflowMask {v : Nat} (h : v < 2 ^ 64) : v &&& (~~~maxValue).toNat = v / 2 ^ 31 * 2 ^ 31 := by
  change v &&& (2 ^ 33 - 1) * 2 ^ 31 = _
  have hlow : (v &&& (2 ^ 33 - 1) * 2 ^ 31) % 2 ^ 31 = 0 := by
    rw [Nat.and_mod_two_pow, Nat.mul_mod_left, Nat.and_zero]
  have hhigh : (v &&& (2 ^ 33 - 1) * 2 ^ 31) / 2 ^ 31 = v / 2 ^ 31 := by
    rw [Nat.and_div_two_pow, Nat.mul_div_cancel _ (by decide), Nat.and_two_pow_sub_one_eq_mod]
    omega
  omega

/-- The mask picks the amounts that are above the largest one without the sign bit. -/
theorem exceeds_encode_eq {v : Nat} (h : v < 2 ^ 64) :
    exceeds (LittleEndian.encode 8 v) = decide (maxValue.toNat < v % 2 ^ 63) := by
  have hmax : maxValue.toNat = 2 ^ 31 - 1 := rfl
  rw [Bool.eq_iff_iff, decide_eq_true_iff, exceeds, overflowMask, LittleEndian.zipWith_and_encode,
    and_overflowMask h, Number.isTrue_iff, hmax]
  rcases Nat.lt_or_ge (v / 2 ^ 31 * 2 ^ 31) (128 * 256 ^ 7) with hfree | hset
  · rw [Number.value_encode_of_lt hfree]
    omega
  · rw [Number.value_encode_of_ge hset (by omega)]
    omega

theorem exceeds_encode {v : Nat} (h : v < 2 ^ 63) :
    exceeds (LittleEndian.encode 8 v) = decide (maxValue.toNat < v) := by
  rw [exceeds_encode_eq (by omega), Nat.mod_eq_of_lt h]

theorem exceeds_encode_of_le {v : UInt64} (h : v ≤ maxValue) : exceeds (LittleEndian.encode 8 v.toNat) = false := by
  have hle : v.toNat ≤ maxValue.toNat := UInt64.le_iff_toNat_le.1 h
  rw [exceeds_encode (hle.trans_lt (by decide))]
  exact decide_eq_false hle.not_gt

/-! ## Units of amounts -/

theorem due_toNat_iff (unit : Int) (share : Nat) : 546 ≤ unit * share ↔ 546 ≤ unit.toNat * share := by
  rcases Int.lt_or_le unit 0 with hneg | hnonneg
  · have := Int.mul_nonpos_of_nonpos_of_nonneg hneg.le (Int.natCast_nonneg share)
    have hzero : unit.toNat = 0 := by omega
    rw [hzero]
    omega
  · obtain ⟨n, rfl⟩ := Int.eq_ofNat_of_zero_le hnonneg
    rw [Int.toNat_natCast]
    exact_mod_cast Iff.rfl

theorem value_amount {v : Nat} (h : v < 2 ^ 63) : value (LittleEndian.encode 8 v) = v :=
  Number.value_encode_of_lt (k := 7) h

/-- The unit of an amount that does not reach the fee is not positive. -/
theorem toNat_unitOf {fee v : Nat} (h : v < 2 ^ 63) :
    (unitOf fee (LittleEndian.encode 8 v)).toNat = (v - fee) / Terms.shareTotal := by
  rw [unitOf, value_amount h]
  rcases Nat.lt_or_ge v fee with hlt | hge
  · have hneg := Int.tdiv_nonneg (a := -((v : Int) - fee)) (b := Terms.shareTotal) (by omega) (by omega)
    rw [Int.neg_tdiv] at hneg
    rw [Nat.sub_eq_zero_of_le hlt.le, Nat.zero_div]
    omega
  · rw [← Int.natCast_sub hge, ← Int.ofNat_tdiv, Int.toNat_natCast]

/-! ## Outputs of a distribution -/

/-- The locking scripts of payments are those of addresses, so their lengths take one byte. -/
theorem PaysAll.length_lockingScript {unit : Nat} {payees : List (Party × Address)} {outputs : List Output}
    (h : PaysAll unit payees outputs) : ∀ o ∈ outputs, o.lockingScript.length ≤ 25 := by
  unfold PaysAll at h
  generalize due unit payees = paid at h
  induction h with
  | nil => exact fun o ho => absurd ho List.not_mem_nil
  | @cons payee o _ _ hpays _ ih =>
      refine List.forall_mem_cons.2 ⟨?_, ih⟩
      rw [hpays.lockingScript]
      have := Address.length_lockingScript payee.2
      omega

theorem PaysAll.length_le {unit : Nat} {payees : List (Party × Address)} {outputs : List Output}
    (h : PaysAll unit payees outputs) : outputs.length ≤ payees.length := by
  rw [← List.Forall₂.length_eq h]
  exact List.length_filter_le _ _

theorem PaysAll.length_listBytes {unit : Nat} {payees : List (Party × Address)} {outputs : List Output}
    (h : PaysAll unit payees outputs) (hpayees : payees.length ≤ Terms.maxParties) :
    (Output.listBytes outputs).length ≤ maxElementSize := by
  have hcount := h.length_le
  have hbytes := Output.length_listBytes_le h.length_lockingScript
  unfold Terms.maxParties at hpayees
  unfold maxElementSize
  omega

/-- An output that pays a party its share of units. -/
def PaysParty (unit : Nat) (p : Party) (o : Output) : Prop :=
  ∃ a, Address.decode p.address = .ok a ∧ Pays unit p.share.toNat a.lockingScript o

theorem paysAll_zip_iff {unit : Nat} {parties : List Party} {addresses : List Address}
    (h : List.Forall₂ (fun p a => Address.decode p.address = .ok a) parties addresses) (outputs : List Output) :
    PaysAll unit (parties.zip addresses) outputs ↔
      List.Forall₂ (PaysParty unit) (parties.filter fun p => 546 ≤ unit * p.share.toNat) outputs := by
  induction h generalizing outputs with
  | nil => exact ⟨fun h => by cases h; exact .nil, fun h => by cases h; exact .nil⟩
  | @cons p a parties addresses hdecode _ ih =>
      unfold PaysAll due at ih ⊢
      rw [List.zip_cons_cons, List.filter_cons, List.filter_cons]
      split_ifs
      · rw [List.forall₂_cons_left_iff, List.forall₂_cons_left_iff]
        refine exists_congr fun o => exists_congr fun os => ?_
        rw [ih os]
        refine and_congr_left fun _ => ?_
        constructor
        · intro hpays
          exact ⟨a, hdecode, hpays⟩
        · rintro ⟨a', hdecode', hpays⟩
          cases hdecode.symm.trans hdecode'
          exact hpays
      · exact ih outputs

theorem ownScript_eq (contract : Contract) :
    ownScript suite contract.script = CompactSize.encodeBytes (contract.lockingScript suite) := by
  have hlen : (contract.lockingScript suite).length = 23 := length_scriptHashLock _
  rw [CompactSize.encodeBytes, hlen]
  rfl

end Covenant

namespace Spend

variable {terms : Terms} {addresses : List Address} {contract : Contract} {value : UInt64}

/-! ## Amounts that are divided -/

theorem obeys_iff_of_le (hmax : value ≤ maxValue) (outputs : List Output) :
    Obeys suite terms addresses contract value outputs ↔
      Distributes terms.fee.toNat terms.parties addresses (LittleEndian.encode 8 value.toNat)
        (Output.listBytes outputs) := by
  rw [Obeys, exceeds_encode_of_le hmax, if_neg Bool.false_ne_true]

/-- Amounts that are divided are operands, and so are their differences to the fee. -/
theorem isOperand_of_le (hvalid : terms.Valid addresses) (hmax : value ≤ maxValue) :
    IsOperand (Number.value (LittleEndian.encode 8 value.toNat)) ∧
      IsOperand (Number.value (LittleEndian.encode 8 value.toNat) - terms.fee.toNat) := by
  have hle : value.toNat ≤ 0x7fffffff := UInt64.le_iff_toNat_le.1 hmax
  have hfee : terms.fee.toNat ≤ 2113929217 := hvalid.fee.2
  rw [value_amount (by omega), IsOperand, IsOperand]
  omega

theorem distributes_iff (hvalid : terms.Valid addresses) (hmax : value ≤ maxValue) (outputs : Bytes) :
    Distributes terms.fee.toNat terms.parties addresses (LittleEndian.encode 8 value.toNat) outputs ↔
      (terms.SomeDue value ∧ ∃ os, outputs = Output.listBytes os ∧
          PaysAll (terms.unit value) (terms.parties.zip addresses) os) ∨
        (¬terms.SomeDue value ∧ Number.value outputs.reverse = Number.value noPayoutOutput.bytes.reverse) := by
  have hlt : value.toNat < 2 ^ 63 := Nat.lt_of_le_of_lt (UInt64.le_iff_toNat_le.1 hmax) (by decide)
  have hdue : (∃ p ∈ terms.parties, 546 ≤ unitOf terms.fee.toNat (LittleEndian.encode 8 value.toNat) *
      p.share.toNat) ↔ terms.SomeDue value := by
    simp only [due_toNat_iff, toNat_unitOf hlt]
    rfl
  have hunit : (unitOf terms.fee.toNat (LittleEndian.encode 8 value.toNat)).toNat = terms.unit value :=
    toNat_unitOf hlt
  constructor
  · rintro ⟨-, -, hpays⟩
    rw [hunit] at hpays
    by_cases hsome : terms.SomeDue value
    · rw [if_pos (hdue.2 hsome)] at hpays
      exact Or.inl ⟨hsome, hpays⟩
    · rw [if_neg (mt hdue.1 hsome)] at hpays
      exact Or.inr ⟨hsome, hpays⟩
  · intro hpays
    obtain ⟨hop, hnet⟩ := isOperand_of_le hvalid hmax
    refine ⟨hop, hnet, ?_⟩
    rw [hunit]
    rcases hpays with ⟨hsome, hpays⟩ | ⟨hnone, hpays⟩
    · rwa [if_pos (hdue.2 hsome)]
    · rwa [if_neg (mt hdue.1 hnone)]

/-- If some party is due, the outputs are one payment for each party that is, and nothing else. -/
theorem obeys_iff_paysAll (hvalid : terms.Valid addresses) (hmax : value ≤ maxValue)
    (hsome : terms.SomeDue value) (outputs : List Output) :
    Obeys suite terms addresses contract value outputs ↔
      PaysAll (terms.unit value) (terms.parties.zip addresses) outputs := by
  rw [obeys_iff_of_le hmax, distributes_iff hvalid hmax]
  constructor
  · rintro (⟨-, os, hbytes, hpays⟩ | ⟨hnone, -⟩)
    · have hshort : ∀ o ∈ os, o.lockingScript.length < 0xfd := fun o ho =>
        Nat.lt_of_le_of_lt (hpays.length_lockingScript o ho) (by decide)
      rwa [Output.eq_of_listBytes_eq hshort hbytes]
    · exact absurd hsome hnone
  · intro hpays
    exact Or.inl ⟨hsome, outputs, rfl, hpays⟩

theorem paysAll_iff_paysParty (hvalid : terms.Valid addresses) (value : UInt64) (outputs : List Output) :
    PaysAll (terms.unit value) (terms.parties.zip addresses) outputs ↔
      List.Forall₂ (PaysParty (terms.unit value)) (terms.dueParties value) outputs :=
  paysAll_zip_iff (hvalid.parties.imp fun _ _ => Terms.decode_of_checkParty) outputs

/-- The parties that are due are paid at their own addresses. -/
theorem obeys_iff_paysParty (hvalid : terms.Valid addresses) (hmax : value ≤ maxValue)
    (hsome : terms.SomeDue value) (outputs : List Output) :
    Obeys suite terms addresses contract value outputs ↔
      List.Forall₂ (PaysParty (terms.unit value)) (terms.dueParties value) outputs := by
  rw [obeys_iff_paysAll hvalid hmax hsome, paysAll_iff_paysParty hvalid]

theorem obeys_noPayout (hvalid : terms.Valid addresses) (hmax : value ≤ maxValue)
    (hnone : ¬terms.SomeDue value) : Obeys suite terms addresses contract value [noPayoutOutput] := by
  rw [obeys_iff_of_le hmax, distributes_iff hvalid hmax]
  refine Or.inr ⟨hnone, ?_⟩
  rw [Output.listBytes, List.flatMap_singleton]

/-! ## Amounts that are split -/

theorem obeys_iff_splits (hmin : maxValue < value) (hmax : value.toNat < 2 ^ 63) (outputs : List Output) :
    Obeys suite terms addresses contract value outputs ↔
      Splits suite terms.fee.toNat (CompactSize.encodeBytes contract.script)
        (LittleEndian.encode 8 value.toNat) (Output.listBytes outputs) := by
  rw [Obeys, exceeds_encode hmax, decide_eq_true (UInt64.lt_iff_toNat_lt.1 hmin), if_pos rfl]

/-- Above the largest amount, the outputs are two of the contract's own that add up to what the fee leaves,
as their amounts are read. -/
theorem obeys_iff_signedAmount {pubkey : FixedBytes 33}
    (hcompile : Contract.compile pubkey terms = .ok contract) (hmin : maxValue < value)
    (hmax : value.toNat < 2 ^ 63) (outputs : List Output) :
    Obeys suite terms addresses contract value outputs ↔
      ∃ v₁ v₂ : UInt64, outputs = [⟨v₁, contract.lockingScript suite⟩, ⟨v₂, contract.lockingScript suite⟩] ∧
        signedAmount v₁.toNat + signedAmount v₂.toNat + terms.fee.toNat = value.toNat := by
  have hcode := Contract.length_scriptCode hcompile
  have hown : ownScript suite contract.script = _ := ownScript_eq contract
  have hshort : (contract.lockingScript suite).length < 0xfd :=
    (length_scriptHashLock _).trans_lt (by decide)
  rw [obeys_iff_splits hmin hmax]
  constructor
  · rintro ⟨size, script, a₁, a₂, hsplit, hsize, h₁, h₂, houtputs, hsum⟩
    obtain ⟨-, rfl⟩ : CompactSize.encode contract.script.length = size ∧ contract.script = script := by
      refine List.append_inj hsplit ?_
      rw [CompactSize.encodeBytes, List.length_append] at hcode
      omega
    obtain ⟨v₁, rfl⟩ := LittleEndian.exists_encode_uint64 h₁
    obtain ⟨v₂, rfl⟩ := LittleEndian.exists_encode_uint64 h₂
    refine ⟨_, _, Output.eq_of_listBytes_eq (by simpa using hshort) ?_, (limbSum_eq_ok_iff hmax).1 hsum⟩
    rw [houtputs, hown]
    simp [Output.listBytes, Output.bytes]
  · rintro ⟨v₁, v₂, rfl, hvalue⟩
    refine ⟨CompactSize.encode contract.script.length, contract.script, LittleEndian.encode 8 v₁.toNat,
      LittleEndian.encode 8 v₂.toNat, rfl, ?_, LittleEndian.length_encode _ _, LittleEndian.length_encode _ _,
      ?_, (limbSum_eq_ok_iff hmax).2 hvalue⟩
    · rw [CompactSize.encodeBytes, List.length_append] at hcode
      omega
    · rw [hown]
      simp [Output.listBytes, Output.bytes]

/-- Above the largest amount, the outputs are two of the contract's own that add up to what the fee leaves,
unless their amounts run into the sign bit. -/
theorem obeys_iff_of_exceeds {pubkey : FixedBytes 33} (hcompile : Contract.compile pubkey terms = .ok contract)
    (hmin : maxValue < value) (hmax : value.toNat < 2 ^ 63) {outputs : List Output}
    (hamounts : ∀ o ∈ outputs, o.amount.toNat < 2 ^ 63) :
    Obeys suite terms addresses contract value outputs ↔
      ∃ o₁ o₂ : Output, outputs = [o₁, o₂] ∧ o₁.lockingScript = contract.lockingScript suite ∧
        o₂.lockingScript = contract.lockingScript suite ∧
        o₁.amount.toNat + o₂.amount.toNat + terms.fee.toNat = value.toNat := by
  rw [obeys_iff_signedAmount hcompile hmin hmax]
  constructor
  · rintro ⟨v₁, v₂, rfl, hsum⟩
    rw [signedAmount_of_lt (hamounts _ List.mem_cons_self),
      signedAmount_of_lt (hamounts _ (List.mem_cons_of_mem _ List.mem_cons_self))] at hsum
    exact ⟨_, _, rfl, rfl, rfl, by exact_mod_cast hsum⟩
  · rintro ⟨⟨v₁, s₁⟩, ⟨v₂, s₂⟩, rfl, rfl, rfl, hsum⟩
    refine ⟨v₁, v₂, rfl, ?_⟩
    rw [signedAmount_of_lt (hamounts _ List.mem_cons_self),
      signedAmount_of_lt (hamounts _ (List.mem_cons_of_mem _ List.mem_cons_self))]
    exact_mod_cast hsum

end Spend

end ShareCovenant
