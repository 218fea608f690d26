import Mathlib
import ShareCovenant.Proofs.Spend.Completeness

/-!
# Modes of the program

The program finds out for itself what becomes of an amount: by the bits that only large amounts have, and by the
unit that it computes. It takes the mode that is computed for the payout, for all amounts but those that have the
sign bit and otherwise no more than the largest amount. There the bits that are left are a negative zero, which
counts as false.
-/

namespace ShareCovenant

open Covenant
open Node (ofOpcode checking)
open Number (encode value IsOperand isOperand_natCast)

namespace Covenant

variable {suite : Suite} {fee cutoff : Nat} {amount : Bytes} {m m' : PayoutMode}

/-- The part of the program that takes the bits of the amount on top that only large amounts have. -/
def overflowTest : Program := [ofOpcode .dup, .data overflowMask, ofOpcode .bitAnd]

/-- The choice of the program: it splits the amount, or it computes the unit and compares it with the least one. -/
def choice (fee cutoff : Int) (payout : Program) : Node :=
  .ifElse (overflowSplit fee) (ofOpcode .nip :: (computeUnit fee ++
    [ofOpcode .dup, .num cutoff, ofOpcode .lessThan, .ifElse nobodyPaid payout]))

/-- The whole program around its choice. -/
def assembled (pubkey : FixedBytes 33) (fee cutoff : Int) (payout : Program) : Program :=
  bindPreimage ++ (overflowTest ++ [choice fee cutoff payout]) ++ checkSignature pubkey

/-- A part of the program leaves some elements in the place of the one on top, whatever lies below. -/
def Leaves (suite : Suite) (p : Program) (a : Bytes) (left : Stack) : Prop :=
  ∀ ctx s, Program.run suite ctx p (a :: s) = .ok (left ++ s)

/-- The mode that the program takes for an amount. -/
inductive Takes (suite : Suite) (fee cutoff : Nat) (amount : Bytes) : PayoutMode → Prop
  | split {flag : Bytes} (htest : Leaves suite overflowTest amount [flag, amount])
      (hflag : Number.isTrue flag = true) : Takes suite fee cutoff amount .split
  | noPayout {flag : Bytes} {unit : Int} (htest : Leaves suite overflowTest amount [flag, amount])
      (hflag : Number.isTrue flag = false) (hunit : Leaves suite (computeUnit fee) amount [encode unit])
      (hcutoff : unit < cutoff) : Takes suite fee cutoff amount .noPayout
  | distribute {flag : Bytes} {unit : UInt64} (htest : Leaves suite overflowTest amount [flag, amount])
      (hflag : Number.isTrue flag = false) (hunit : Leaves suite (computeUnit fee) amount [encode unit.toNat])
      (hcutoff : cutoff ≤ unit.toNat) : Takes suite fee cutoff amount (.distribute unit)

/-! ## The parts that decide -/

theorem leaves_overflowTest_iff (h : amount.length = 8) {flag : Bytes} :
    Leaves suite overflowTest amount [flag, amount] ↔ flag = List.zipWith (· &&& ·) amount overflowMask := by
  have hmask : overflowMask.length = 8 := LittleEndian.length_encode _ _
  have hrun : Leaves suite overflowTest amount [List.zipWith (· &&& ·) amount overflowMask, amount] := by
    intro ctx s
    rw [overflowTest, Program.run_dup, Program.run_data, Program.run_bitAnd_iff, hmask]
    exact ⟨h, rfl⟩
  constructor
  · intro hleaves
    have heq := (hleaves none []).symm.trans (hrun none [])
    simpa using heq
  · rintro rfl
    exact hrun

theorem leaves_computeUnit_iff (hfee : IsOperand fee) {unit : Int} :
    Leaves suite (computeUnit fee) amount [encode unit] ↔
      IsOperand (value amount) ∧ IsOperand (value amount - fee) ∧ unitOf fee amount = unit := by
  have hrun : ∀ (ctx : Option SpendContext) (s t : Stack),
      Program.run suite ctx (computeUnit fee) (amount :: s) = .ok t ↔
        IsOperand (value amount) ∧ IsOperand (value amount - fee) ∧ encode (unitOf fee amount) :: s = t := by
    intro ctx s t
    rw [← List.append_nil (computeUnit fee), run_computeUnit_iff hfee, Program.run_nil, Except.ok.injEq]
  constructor
  · intro hleaves
    obtain ⟨hop, hnet, heq⟩ := (hrun none [] _).1 (hleaves none [])
    exact ⟨hop, hnet, Number.encode_injective (List.cons.inj heq).1⟩
  · rintro ⟨hop, hnet, rfl⟩ ctx s
    exact (hrun ctx s _).2 ⟨hop, hnet, rfl⟩

theorem takes_split_iff (h : amount.length = 8) :
    Takes suite fee cutoff amount .split ↔ exceeds amount = true := by
  constructor
  · rintro ⟨htest, hflag⟩
    rwa [(leaves_overflowTest_iff h).1 htest] at hflag
  · intro hexceeds
    exact .split ((leaves_overflowTest_iff h).2 rfl) hexceeds

theorem takes_noPayout_iff (h : amount.length = 8) (hfee : IsOperand fee) :
    Takes suite fee cutoff amount .noPayout ↔ exceeds amount = false ∧ IsOperand (value amount) ∧
      IsOperand (value amount - fee) ∧ unitOf fee amount < cutoff := by
  constructor
  · intro htakes
    cases htakes with
    | noPayout htest hflag hunit hcutoff =>
        rw [(leaves_overflowTest_iff h).1 htest] at hflag
        obtain ⟨hop, hnet, rfl⟩ := (leaves_computeUnit_iff hfee).1 hunit
        exact ⟨hflag, hop, hnet, hcutoff⟩
  · rintro ⟨hexceeds, hop, hnet, hcutoff⟩
    exact .noPayout ((leaves_overflowTest_iff h).2 rfl) hexceeds
      ((leaves_computeUnit_iff hfee).2 ⟨hop, hnet, rfl⟩) hcutoff

theorem takes_distribute_iff (h : amount.length = 8) (hfee : IsOperand fee) {unit : UInt64} :
    Takes suite fee cutoff amount (.distribute unit) ↔ exceeds amount = false ∧ IsOperand (value amount) ∧
      IsOperand (value amount - fee) ∧ unitOf fee amount = unit.toNat ∧ cutoff ≤ unit.toNat := by
  constructor
  · intro htakes
    cases htakes with
    | distribute htest hflag hunit hcutoff =>
        rw [(leaves_overflowTest_iff h).1 htest] at hflag
        obtain ⟨hop, hnet, heq⟩ := (leaves_computeUnit_iff hfee).1 hunit
        exact ⟨hflag, hop, hnet, heq, hcutoff⟩
  · rintro ⟨hexceeds, hop, hnet, heq, hcutoff⟩
    exact .distribute ((leaves_overflowTest_iff h).2 rfl) hexceeds
      ((leaves_computeUnit_iff hfee).2 ⟨hop, hnet, heq⟩) hcutoff

theorem Takes.unique (h : amount.length = 8) (hfee : IsOperand fee) (htakes : Takes suite fee cutoff amount m)
    (htakes' : Takes suite fee cutoff amount m') : m = m' := by
  cases m with
  | split =>
      rw [takes_split_iff h] at htakes
      cases m' with
      | split => rfl
      | noPayout => simp [takes_noPayout_iff h hfee, htakes] at htakes'
      | distribute unit' => simp [takes_distribute_iff h hfee, htakes] at htakes'
  | noPayout =>
      rw [takes_noPayout_iff h hfee] at htakes
      cases m' with
      | split => simp [takes_split_iff h, htakes.1] at htakes'
      | noPayout => rfl
      | distribute unit' =>
          obtain ⟨-, -, -, hunit, hcutoff⟩ := (takes_distribute_iff h hfee).1 htakes'
          omega
  | distribute unit =>
      rw [takes_distribute_iff h hfee] at htakes
      obtain ⟨hflag, -, -, hunit, hcutoff⟩ := htakes
      cases m' with
      | split => simp [takes_split_iff h, hflag] at htakes'
      | noPayout =>
          obtain ⟨-, -, -, hlt⟩ := (takes_noPayout_iff h hfee).1 htakes'
          omega
      | distribute unit' =>
          obtain ⟨-, -, -, hunit', -⟩ := (takes_distribute_iff h hfee).1 htakes'
          obtain rfl : unit = unit' := UInt64.toNat_inj.1 (by omega)
          rfl

/-- The program goes on with the branch of the mode that it takes. -/
theorem run_iff_of_takes (h : amount.length = 8) (hfee : IsOperand fee) (hcutoff : IsOperand cutoff)
    (htakes : Takes suite fee cutoff amount m) {ctx : Option SpendContext} {payout p : Program} {scriptCode : Bytes}
    {s t : Stack} :
    Program.run suite ctx (overflowTest ++ choice fee cutoff payout :: p) (amount :: scriptCode :: s) = .ok t ↔
      match m with
      | .split => Program.run suite ctx (overflowSplit fee ++ p) (amount :: scriptCode :: s) = .ok t
      | .noPayout => Program.run suite ctx (nobodyPaid ++ p) (encode (unitOf fee amount) :: s) = .ok t
      | .distribute unit => Program.run suite ctx (payout ++ p) (encode unit.toNat :: s) = .ok t := by
  have hmask : overflowMask.length = 8 := LittleEndian.length_encode _ _
  -- an amount that does not exceed is compared with the cutoff by its unit
  have hdistributed : exceeds amount = false → IsOperand (value amount) → IsOperand (value amount - fee) →
      (Program.run suite ctx (overflowTest ++ choice fee cutoff payout :: p) (amount :: scriptCode :: s) = .ok t ↔
      Program.run suite ctx ((if unitOf fee amount < cutoff then nobodyPaid else payout) ++ p)
        (encode (unitOf fee amount) :: s) = .ok t) := by
    intro hexceeds hop hnet
    simp only [overflowTest, choice, List.cons_append, List.nil_append]
    rw [Program.run_dup, Program.run_data, Program.run_bitAnd_iff, hmask, Program.run_ifElse,
      show Number.isTrue _ = false from hexceeds, if_neg Bool.false_ne_true, List.cons_append, Program.run_nip,
      List.append_assoc, run_computeUnit_iff hfee]
    simp only [List.cons_append, List.nil_append]
    rw [Program.run_dup, Program.run_num, Program.run_lessThan_iff, Program.run_ifElse, Number.isTrue_ofBool]
    simp [h, hop, hnet, isOperand_unitOf hnet, hcutoff]
  cases m with
  | split =>
      have hexceeds := (takes_split_iff h).1 htakes
      simp only [overflowTest, choice, List.cons_append, List.nil_append]
      rw [Program.run_dup, Program.run_data, Program.run_bitAnd_iff, hmask, Program.run_ifElse,
        show Number.isTrue _ = true from hexceeds, if_pos rfl]
      exact and_iff_right h
  | noPayout =>
      obtain ⟨hexceeds, hop, hnet, hlt⟩ := (takes_noPayout_iff h hfee).1 htakes
      rw [hdistributed hexceeds hop hnet, if_pos hlt]
  | distribute unit =>
      obtain ⟨hexceeds, hop, hnet, hunit, hge⟩ := (takes_distribute_iff h hfee).1 htakes
      rw [hdistributed hexceeds hop hnet, if_neg (by omega), hunit]

/-! ## Amounts of coins -/

/-- The amounts whose bits above the largest amount are a negative zero. -/
def HidesSignBit (value : UInt64) : Prop :=
  2 ^ 63 ≤ value.toNat ∧ value.toNat ≤ 2 ^ 63 + maxValue.toNat

theorem exceeds_encode_of_hides {value : UInt64} (h : HidesSignBit value) :
    exceeds (LittleEndian.encode 8 value.toNat) = false := by
  have hmax : maxValue.toNat = 2 ^ 31 - 1 := rfl
  obtain ⟨hge, hle⟩ := h
  rw [exceeds_encode_eq value.toNat_lt, decide_eq_false_iff_not]
  omega

theorem exceeds_encode_of_not_hides {value : UInt64} (h : ¬HidesSignBit value) :
    exceeds (LittleEndian.encode 8 value.toNat) = decide (maxValue < value) := by
  have hmax : maxValue.toNat = 2 ^ 31 - 1 := rfl
  have hlt := value.toNat_lt
  unfold HidesSignBit at h
  rw [exceeds_encode_eq hlt, decide_eq_decide, UInt64.lt_iff_toNat_lt]
  omega

variable {terms : Terms} {addresses : List Address} {value : UInt64}

/-- The program takes the mode that is computed for an amount. -/
theorem takes_of_mode (hvalid : terms.Valid addresses) {cutoff : UInt64}
    (hcutoff : Share.minUnitForAll terms.parties = .ok cutoff) (hsign : ¬HidesSignBit value)
    (h : Payout.mode value terms = .ok m) :
    Takes suite terms.fee.toNat cutoff.toNat (LittleEndian.encode 8 value.toNat) m := by
  have hlen : (LittleEndian.encode 8 value.toNat).length = 8 := LittleEndian.length_encode _ _
  have hexceeds := exceeds_encode_of_not_hides hsign
  have hpositive := (Share.minUnit_bounds hcutoff).1
  -- the unit of the program may be negative where the one of the payout is zero, below every cutoff
  have hunits : value ≤ maxValue →
      (unitOf terms.fee.toNat (LittleEndian.encode 8 value.toNat)).toNat = terms.unit value := fun hmax =>
    toNat_unitOf (Nat.lt_of_le_of_lt (UInt64.le_iff_toNat_le.1 hmax) (by decide))
  rcases Payout.mode_cases h with ⟨hmin, rfl⟩ | ⟨hmax, hnone, rfl⟩ | ⟨hmax, hsome, unit, hunit, rfl⟩
  · rw [takes_split_iff hlen, hexceeds]
    exact decide_eq_true hmin
  · have heq := hunits hmax
    obtain ⟨hop, hnet⟩ := Spend.isOperand_of_le hvalid hmax
    rw [Terms.someDue_iff hcutoff] at hnone
    rw [decide_eq_false (UInt64.not_lt.2 hmax)] at hexceeds
    exact (takes_noPayout_iff hlen (isOperand_fee hvalid)).2 ⟨hexceeds, hop, hnet, by omega⟩
  · have heq := hunits hmax
    obtain ⟨hop, hnet⟩ := Spend.isOperand_of_le hvalid hmax
    rw [Terms.someDue_iff hcutoff] at hsome
    rw [decide_eq_false (UInt64.not_lt.2 hmax)] at hexceeds
    exact (takes_distribute_iff hlen (isOperand_fee hvalid)).2 ⟨hexceeds, hop, hnet, by omega, by omega⟩

theorem exists_program_eq_assembled (hvalidate : terms.validate = .ok addresses) (pubkey : FixedBytes 33) :
    ∃ (cutoff : UInt64) (payout : Program), Share.minUnitForAll terms.parties = .ok cutoff ∧
      program pubkey terms = .ok (assembled pubkey terms.fee.toNat cutoff.toNat payout) := by
  obtain ⟨p, hp⟩ := exists_program hvalidate pubkey
  obtain ⟨addresses', distributed, -, hdistributed, rfl⟩ := exists_of_program hp
  obtain ⟨payout, cutoff, -, hcutoff, rfl⟩ := exists_of_distribution hdistributed
  exact ⟨cutoff, ofOpcode .swap :: payout, hcutoff, hp⟩

/-- The program takes no other mode than the one that is computed, except for the amounts that hide their sign
bit. -/
theorem takes_iff_mode_iff (hvalidate : terms.validate = .ok addresses) (pubkey : FixedBytes 33) :
    ∃ (cutoff : UInt64) (payout : Program), Share.minUnitForAll terms.parties = .ok cutoff ∧
      program pubkey terms = .ok (assembled pubkey terms.fee.toNat cutoff.toNat payout) ∧
      ∀ value : UInt64, ∃ m, Payout.mode value terms = .ok m ∧
        ((∀ m', Takes suite terms.fee.toNat cutoff.toNat (LittleEndian.encode 8 value.toNat) m' ↔ m' = m) ↔
          ¬HidesSignBit value) := by
  obtain ⟨cutoff, payout, hcutoff, hprogram⟩ := exists_program_eq_assembled hvalidate pubkey
  refine ⟨cutoff, payout, hcutoff, hprogram, fun value => ?_⟩
  have hvalid := Terms.valid_of_validate hvalidate
  have hlen : (LittleEndian.encode 8 value.toNat).length = 8 := LittleEndian.length_encode _ _
  obtain ⟨m, hmode⟩ := Payout.exists_mode hcutoff value
  refine ⟨m, hmode, ?_, ?_⟩
  · intro htakes hsign
    have hmin : maxValue < value := UInt64.lt_iff_toNat_lt.2 (Nat.lt_of_lt_of_le (by decide) hsign.1)
    rw [Payout.mode, if_pos hmin] at hmode
    cases hmode
    have hsplit := (takes_split_iff hlen).1 ((htakes .split).2 rfl)
    rw [exceeds_encode_of_hides hsign] at hsplit
    cases hsplit
  · intro hsign m'
    have htakes : Takes suite _ _ (LittleEndian.encode 8 value.toNat) m :=
      takes_of_mode hvalid hcutoff hsign hmode
    constructor
    · intro htakes'
      exact Takes.unique hlen (isOperand_fee hvalid) htakes' htakes
    · rintro rfl
      exact htakes

end Covenant

namespace Spend

theorem exists_sampleAddresses : ∃ addresses, sampleTerms.validate = .ok addresses := by
  obtain ⟨key, tx, -, hbuild⟩ := exists_sampleSpend
  obtain ⟨contract, outputs, hcompile, -, -⟩ := exists_of_build hbuild
  exact Contract.exists_validate hcompile

theorem takes_iff_mode_iff_sample :
    ∃ addresses, sampleTerms.validate = .ok addresses ∧
      ∃ (cutoff : UInt64) (payout : Program), Share.minUnitForAll sampleTerms.parties = .ok cutoff ∧
        program ⟨List.replicate 33 2, rfl⟩ sampleTerms =
          .ok (assembled ⟨List.replicate 33 2, rfl⟩ sampleTerms.fee.toNat cutoff.toNat payout) ∧
        ∀ value : UInt64, ∃ m, Payout.mode value sampleTerms = .ok m ∧
          ((∀ m', Takes Suite.standard sampleTerms.fee.toNat cutoff.toNat
              (LittleEndian.encode 8 value.toNat) m' ↔ m' = m) ↔ ¬HidesSignBit value) := by
  obtain ⟨addresses, hvalidate⟩ := exists_sampleAddresses
  exact ⟨addresses, hvalidate, takes_iff_mode_iff hvalidate ⟨List.replicate 33 2, rfl⟩⟩

/-- The sign bit alone is split by the payout, and by the program paid to nobody. -/
theorem takes_noPayout_of_signBit :
    ∃ addresses, sampleTerms.validate = .ok addresses ∧
      ∃ cutoff : UInt64, Share.minUnitForAll sampleTerms.parties = .ok cutoff ∧
        Payout.mode 0x8000000000000000 sampleTerms = .ok .split ∧
        ¬Takes Suite.standard sampleTerms.fee.toNat cutoff.toNat
          (LittleEndian.encode 8 (0x8000000000000000 : UInt64).toNat) .split ∧
        Takes Suite.standard sampleTerms.fee.toNat cutoff.toNat
          (LittleEndian.encode 8 (0x8000000000000000 : UInt64).toNat) .noPayout := by
  obtain ⟨addresses, hvalidate⟩ := exists_sampleAddresses
  have hlen : (LittleEndian.encode 8 (0x8000000000000000 : UInt64).toNat).length = 8 :=
    LittleEndian.length_encode _ _
  have hexceeds : exceeds (LittleEndian.encode 8 (0x8000000000000000 : UInt64).toNat) = false :=
    exceeds_encode_of_hides ⟨by decide, by decide⟩
  have hvalue : Number.value (LittleEndian.encode 8 (0x8000000000000000 : UInt64).toNat) = 0 := by decide
  refine ⟨addresses, hvalidate, 1, rfl, rfl, ?_, ?_⟩
  · rw [takes_split_iff hlen, hexceeds]
    exact Bool.false_ne_true
  · rw [takes_noPayout_iff hlen (by decide), unitOf, hvalue]
    exact ⟨hexceeds, by decide, by decide, by decide⟩

end Spend

end ShareCovenant
