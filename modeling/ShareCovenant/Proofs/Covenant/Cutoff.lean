import Mathlib
import ShareCovenant.Proofs.Contract.Payout

/-!
# Least units

The program never multiplies a unit by a share to find out whether a payment reaches the dust threshold. It
compares the unit with the least one of the share, and before that once with the least one of all parties. The
comparisons decide as the threshold does in the computed payout.
-/

namespace ShareCovenant

open Covenant
open Node (ofOpcode)
open Number (encode IsOperand isOperand_natCast)

/-! ## Payments by the dust threshold -/

namespace Payout

/-- Nothing is paid if and only if no share of units reaches the dust threshold. -/
theorem payments_eq_nil_iff {unit : UInt64} (hunit : unit.toNat < 2 ^ 31) {parties : List Party}
    {addresses : List Address} (hlen : addresses.length = parties.length) :
    payments unit parties addresses = [] ↔ ∀ p ∈ parties, unit.toNat * p.share.toNat < 546 := by
  induction parties generalizing addresses with
  | nil => exact ⟨fun _ p hp => absurd hp List.not_mem_nil, fun _ => rfl⟩
  | cons p parties ih =>
      cases addresses with
      | nil => cases hlen
      | cons a addresses =>
          rw [payments_cons, List.forall_mem_cons, ← ih (Nat.succ.inj hlen)]
          simp only [payment_lt_dustThreshold_iff hunit]
          split_ifs with hsmall
          · exact (and_iff_right hsmall).symm
          · exact iff_of_false not_false fun h => hsmall h.1

end Payout

/-! ## The comparisons of the program -/

namespace Covenant

/-- The test before the payment of a party, which looks at the unit below the outputs. -/
def dueTest (least : UInt64) : Program := [ofOpcode .dupSecond, .num least.toNat, ofOpcode .atLeast]

/-- The test of whether nobody is paid, which looks at the unit on top. -/
def nobodyTest (cutoff : UInt64) : Program := [ofOpcode .dup, .num cutoff.toNat, ofOpcode .lessThan]

/-- A test leaves its answer on top of what it looks at, whatever lies below. -/
def Answers (test : Program) (seen : Stack) (answer : Bool) : Prop :=
  ∀ (suite : Suite) (ctx : Option SpendContext) (s : Stack),
    Program.run suite ctx test (seen ++ s) = .ok (Number.ofBool answer :: (seen ++ s))

theorem answers_dueTest {least unit : UInt64} (hleast : least.toNat ≤ 546) (hunit : unit.toNat < 2 ^ 31)
    (outputs : Bytes) : Answers (dueTest least) [outputs, encode unit.toNat] (least.toNat ≤ unit.toNat) := by
  intro suite ctx s
  simp only [dueTest, List.cons_append, List.nil_append, Program.run_dupSecond, Program.run_num]
  rw [Program.run_atLeast (isOperand_natCast hunit) (isOperand_natCast (by omega)), Program.run_nil]
  simp only [ge_iff_le, Int.ofNat_le]

theorem answers_nobodyTest {cutoff unit : UInt64} (hcutoff : cutoff.toNat ≤ 546) (hunit : unit.toNat < 2 ^ 31) :
    Answers (nobodyTest cutoff) [encode unit.toNat] (unit.toNat < cutoff.toNat) := by
  intro suite ctx s
  simp only [nobodyTest, List.cons_append, List.nil_append, Program.run_dup, Program.run_num]
  rw [Program.run_lessThan_iff, Program.run_nil, decide_eq_decide.2 Int.ofNat_lt]
  exact ⟨isOperand_natCast hunit, isOperand_natCast (by omega), rfl⟩

/-! ## The units they compare with -/

/-- The least unit of a party: by the dust threshold, in the program, and in the computed payout. Units that are
compared are script numbers. -/
structure DueFrom (p : Party) (least : UInt64) : Prop where
  minUnit_eq : Share.minUnit p.share = .ok least
  le_iff : ∀ unit : Nat, least.toNat ≤ unit ↔ 546 ≤ unit * p.share.toNat
  payIfDue_eq : ∀ address,
    payIfDue p address = .ok (dueTest least ++ [.ifThen (payParty p.share address.lockingScript)])
  answers : ∀ (address : Address) (outputs : Bytes) (unit : UInt64), unit.toNat < 2 ^ 31 →
    Answers (dueTest least) [outputs, encode unit.toNat] (Payout.payments unit [p] [address] ≠ [])

/-- The unit below which nobody is paid: by the dust threshold, in the program, and in the computed payout. -/
structure NobodyBelow (parties : List Party) (cutoff : UInt64) : Prop where
  minUnitForAll_eq : Share.minUnitForAll parties = .ok cutoff
  lt_iff : ∀ unit : Nat, unit < cutoff.toNat ↔ ∀ p ∈ parties, unit * p.share.toNat < 546
  distribution_eq : ∀ (fee : Int) (addresses : List Address) (payout : Program),
    payAll (parties.zip addresses) = .ok payout → distribution fee parties addresses =
      .ok (ofOpcode .nip :: (computeUnit fee ++ (nobodyTest cutoff ++
        [.ifElse nobodyPaid (ofOpcode .swap :: payout)])))
  answers : ∀ (addresses : List Address) (unit : UInt64), addresses.length = parties.length → unit.toNat < 2 ^ 31 →
    Answers (nobodyTest cutoff) [encode unit.toNat] (Payout.payments unit parties addresses = [])

theorem dueFrom_of_minUnit {p : Party} {least : UInt64} (h : Share.minUnit p.share = .ok least) : DueFrom p least where
  minUnit_eq := h
  le_iff := Share.minUnit_le_iff h
  payIfDue_eq address := by
    rw [payIfDue, h]
    rfl
  answers address outputs unit hunit := by
    have hdue : Payout.payments unit [p] [address] ≠ [] ↔ least.toNat ≤ unit.toNat := by
      rw [Ne, Payout.payments_eq_nil_iff hunit rfl, List.forall_mem_singleton, not_lt, Share.minUnit_le_iff h]
    simp only [hdue]
    exact answers_dueTest (Share.minUnit_bounds h).2 hunit outputs

theorem nobodyBelow_of_minUnitForAll {parties : List Party} {cutoff : UInt64}
    (h : Share.minUnitForAll parties = .ok cutoff) : NobodyBelow parties cutoff := by
  have hiff : ∀ unit : Nat, unit < cutoff.toNat ↔ ∀ p ∈ parties, unit * p.share.toNat < 546 := fun unit => by
    rw [← not_le, Share.minUnitForAll_le_iff h]
    simp
  refine ⟨h, hiff, fun _ _ _ hpayout => distribution_eq hpayout h, fun addresses unit hlen hunit => ?_⟩
  simp only [Payout.payments_eq_nil_iff hunit hlen, ← hiff]
  exact answers_nobodyTest (Share.minUnit_bounds h).2 hunit

/-- Every positive share has a least unit, and with one positive share there is a least unit of all. In the program
they decide as the dust threshold does in the computed payout. -/
theorem exists_dueFrom_nobodyBelow {parties : List Party} (hpos : ∃ p ∈ parties, 0 < p.share.toNat) :
    (∀ p : Party, 0 < p.share.toNat → ∃ least, DueFrom p least) ∧ ∃ cutoff, NobodyBelow parties cutoff := by
  constructor
  · intro p hp
    obtain ⟨least, hleast⟩ := Share.exists_minUnit hp
    exact ⟨least, dueFrom_of_minUnit hleast⟩
  · obtain ⟨p, hp, hshare⟩ := hpos
    obtain ⟨cutoff, hcutoff⟩ := Share.exists_minUnit (hshare.trans_le (Share.share_le_largest hp))
    exact ⟨cutoff, nobodyBelow_of_minUnitForAll hcutoff⟩

/-- The largest share that one unit does not bring to the threshold, after a party without a share. -/
theorem exists_dueFrom_nobodyBelow_second :
    (∃ p ∈ [Party.mk "first" 0, Party.mk "second" 545], 0 < p.share.toNat) ∧
      DueFrom (Party.mk "second" 545) 2 ∧ NobodyBelow [Party.mk "first" 0, Party.mk "second" 545] 2 := by
  have hpos : ∃ p ∈ [Party.mk "first" 0, Party.mk "second" 545], 0 < p.share.toNat := by decide
  obtain ⟨hparties, cutoff, hcutoff⟩ := exists_dueFrom_nobodyBelow hpos
  obtain ⟨least, hleast⟩ := hparties (Party.mk "second" 545) (by decide)
  cases hleast.minUnit_eq.symm.trans (show Share.minUnit 545 = .ok 2 by decide)
  cases hcutoff.minUnitForAll_eq.symm.trans (show _ = Except.ok 2 by decide)
  exact ⟨hpos, hleast, hcutoff⟩

end Covenant

end ShareCovenant
