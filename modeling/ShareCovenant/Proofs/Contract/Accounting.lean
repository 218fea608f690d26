import Mathlib
import ShareCovenant.Proofs.Contract.Compilation
import ShareCovenant.Proofs.Contract.Payout

/-!
# Accounting for amounts

The payout is computed with amounts of a fixed width. `Exact` computes it once more with operations that refuse
a result that is no amount; it refuses nothing, so that no operation wraps around. The outputs then account for
the whole amount: two halves that give back all but the fee, or payments above the dust threshold that leave no
more than the division rounds off and the shares that are too small.
-/

namespace ShareCovenant.Payout

open Covenant

variable {suite : Suite} {terms : Terms} {addresses : List Address} {value : UInt64}

/-! ## Exact arithmetic -/

namespace Exact

/-- The amount that a number is. Negative numbers and numbers of more than 64 bits are none. -/
def ofInt? (n : Int) : Option UInt64 :=
  if 0 ≤ n ∧ n < 2 ^ 64 then some (UInt64.ofNat n.toNat) else none

def add (a b : UInt64) : Option UInt64 := ofInt? (a.toNat + b.toNat)

def sub (a b : UInt64) : Option UInt64 := ofInt? (a.toNat - b.toNat)

def mul (a b : UInt64) : Option UInt64 := ofInt? (a.toNat * b.toNat)

def totalShare : List Party → Option UInt64
  | [] => some 0
  | p :: ps => do
      let others ← totalShare ps
      add p.share.toUInt64 others

def minUnit (share : UInt32) : Option UInt64 := do
  let unit ← (Share.quotient Share.dustThreshold share.toUInt64).toOption
  if Share.dustThreshold % share.toUInt64 = 0 then return unit else add unit 1

def mode (value : UInt64) (terms : Terms) : Option PayoutMode :=
  if maxValue < value then some .split
  else if value < terms.fee then some .noPayout
  else do
    let net ← sub value terms.fee
    let unit ← (Share.quotient net (UInt64.ofNat Terms.shareTotal)).toOption
    let cutoff ← minUnit (Share.largest terms.parties)
    return if unit < cutoff then .noPayout else .distribute unit

def halves (net : UInt64) (lockingScript : Bytes) : Option (List Output) := do
  let first ← sub net (net / 2)
  return [{ amount := first, lockingScript := lockingScript },
    { amount := net / 2, lockingScript := lockingScript }]

/-- The payments of a unit. The product is taken of every share, also of one that is not paid. -/
def payments (unit : UInt64) : List (Party × Address) → Option (List Output)
  | [] => some []
  | (party, address) :: payees => do
      let amount ← mul unit party.share.toUInt64
      let others ← payments unit payees
      return if amount < Share.dustThreshold then others
        else { amount := amount, lockingScript := address.lockingScript } :: others

/-- The outputs of a spend, with the shares added up as amounts before. -/
def outputs (suite : Suite) (value : UInt64) (terms : Terms) (contract : Contract) : Option (List Output) := do
  let addresses ← terms.validate.toOption
  let _ ← totalShare terms.parties
  match ← mode value terms with
  | .split => do
      let net ← sub value terms.fee
      let outs ← halves net (contract.lockingScript suite)
      return orNobody outs
  | .distribute unit => do
      let outs ← payments unit (terms.parties.zip addresses)
      return orNobody outs
  | .noPayout => return orNobody []

theorem ofInt?_eq_some_iff {n : Int} {a : UInt64} : ofInt? n = some a ↔ n = a.toNat := by
  have ha := a.toNat_lt
  unfold ofInt?
  constructor
  · intro h
    split_ifs at h with hrange
    cases h
    rw [UInt64.toNat_ofNat']
    omega
  · rintro rfl
    rw [if_pos (by omega), Int.toNat_natCast, UInt64.ofNat_toNat]

theorem add_eq_some {a b : UInt64} (h : a.toNat + b.toNat < 2 ^ 64) : add a b = some (a + b) := by
  rw [add, ofInt?_eq_some_iff, UInt64.toNat_add, Nat.mod_eq_of_lt h, Int.natCast_add]

theorem sub_eq_some {a b : UInt64} (h : b ≤ a) : sub a b = some (a - b) := by
  rw [sub, ofInt?_eq_some_iff, UInt64.toNat_sub_of_le _ _ h, Int.natCast_sub (UInt64.le_iff_toNat_le.1 h)]

theorem mul_eq_some {a b : UInt64} (h : a.toNat * b.toNat < 2 ^ 64) : mul a b = some (a * b) := by
  rw [mul, ofInt?_eq_some_iff, UInt64.toNat_mul, Nat.mod_eq_of_lt h, Int.natCast_mul]

/-! ## Nothing wraps around -/

theorem totalShare_eq_some {parties : List Party} (h : Terms.totalShare parties < 2 ^ 64) :
    totalShare parties = some (UInt64.ofNat (Terms.totalShare parties)) := by
  induction parties with
  | nil => rfl
  | cons p ps ih =>
      rw [Terms.totalShare] at h
      have hothers : (UInt64.ofNat (Terms.totalShare ps)).toNat = Terms.totalShare ps := by
        rw [UInt64.toNat_ofNat']
        omega
      have hadd : add p.share.toUInt64 (UInt64.ofNat (Terms.totalShare ps)) =
          some (p.share.toUInt64 + UInt64.ofNat (Terms.totalShare ps)) :=
        add_eq_some (by rw [UInt32.toNat_toUInt64, hothers]; exact h)
      rw [totalShare, ih (by omega), Option.bind_eq_bind, Option.bind_some, hadd, Option.some.injEq,
        ← UInt64.toNat_inj, UInt64.toNat_add, UInt32.toNat_toUInt64, hothers, UInt64.toNat_ofNat', Terms.totalShare]

theorem minUnit_eq_some {share : UInt32} {u : UInt64} (h : Share.minUnit share = .ok u) : minUnit share = some u := by
  rw [Share.minUnit, bind_eq_ok_iff] at h
  obtain ⟨unit, hquotient, h⟩ := h
  cases h
  rw [minUnit, hquotient]
  have hle : unit.toNat ≤ 546 := by
    unfold Share.quotient at hquotient
    split_ifs at hquotient
    cases hquotient
    rw [UInt64.toNat_div]
    exact Nat.div_le_self _ _
  change (if Share.dustThreshold % share.toUInt64 = 0 then some unit else add unit 1) = _
  split_ifs
  · rfl
  · exact add_eq_some (by change unit.toNat + 1 < _; omega)

theorem mode_eq_some {m : PayoutMode} (h : Payout.mode value terms = .ok m) : mode value terms = some m := by
  unfold Payout.mode at h
  unfold mode
  split_ifs at h ⊢ with hsplit hfee
  · cases h
    rfl
  · cases h
    rfl
  · rw [bind_eq_ok_iff] at h
    obtain ⟨unit, hquotient, h⟩ := h
    rw [bind_eq_ok_iff] at h
    obtain ⟨cutoff, hcutoff, h⟩ := h
    cases h
    rw [sub_eq_some (UInt64.not_lt.1 hfee), minUnit_eq_some hcutoff, Option.bind_eq_bind, Option.bind_some, hquotient]
    rfl

theorem payments_eq_some {unit : UInt64} (hunit : unit.toNat ≤ maxUnit) {parties : List Party}
    {addresses : List Address} (hshare : ∀ p ∈ parties, p.share.toNat < Terms.shareTotal) :
    payments unit (parties.zip addresses) = some (Payout.payments unit parties addresses) := by
  induction parties generalizing addresses with
  | nil => rfl
  | cons p parties ih =>
      cases addresses with
      | nil => rfl
      | cons a addresses =>
          obtain ⟨hp, hparties⟩ := List.forall_mem_cons.1 hshare
          have hlt := payment_lt hunit hp
          have hmul : mul unit p.share.toUInt64 = some (unit * p.share.toUInt64) :=
            mul_eq_some (by rw [UInt32.toNat_toUInt64]; omega)
          rw [List.zip_cons_cons, payments, ih hparties, hmul, payments_cons]
          rfl

theorem outputs_eq_some (hvalidate : terms.validate = .ok addresses) {m : PayoutMode}
    (hmode : Payout.mode value terms = .ok m) {contract : Contract} {outs : List Output}
    (h : Payout.outputs suite value terms contract = .ok outs) : outputs suite value terms contract = some outs := by
  have hvalid := Terms.valid_of_validate hvalidate
  have htotal : Terms.totalShare terms.parties < 2 ^ 64 := by
    rw [hvalid.total]
    decide
  unfold Payout.outputs at h
  rw [hvalidate, hmode] at h
  rw [outputs, hvalidate, totalShare_eq_some htotal, mode_eq_some hmode]
  simp only [Except.toOption, Option.bind_eq_bind, Option.bind_some, Option.pure_def]
  rcases mode_cases hmode with ⟨hsplit, rfl⟩ | ⟨-, -, rfl⟩ | ⟨hmax, -, unit, hunit, rfl⟩
  · cases h
    simp only [sub_eq_some (fee_le hsplit hvalid.fee.2), halves, sub_eq_some (half_le _), Option.bind_eq_bind,
      Option.bind_some, Option.pure_def]
    rfl
  · cases h
    rfl
  · cases h
    have hpayments : payments unit (terms.parties.zip addresses) =
        some (Payout.payments unit terms.parties addresses) :=
      payments_eq_some (hunit ▸ unit_le_maxUnit hmax) fun p hp => (hvalid.share hp).2
    simp only [hpayments, Option.bind_some]

end Exact

/-! ## What the outputs account for -/

/-- The outputs of a mode, by what they leave of the amount. -/
def AccountsFor (suite : Suite) (terms : Terms) (addresses : List Address) (contract : Contract) (value : UInt64)
    (outs : List Output) : PayoutMode → Prop
  | .split => ∃ first second : UInt64,
      outs = [⟨first, contract.lockingScript suite⟩, ⟨second, contract.lockingScript suite⟩] ∧
      first.toNat + second.toNat + terms.fee.toNat = value.toNat ∧
      second.toNat ≤ first.toNat ∧ first.toNat ≤ second.toNat + 1 ∧ 546 ≤ first.toNat ∧ 546 ≤ second.toNat
  | .distribute unit => outs = payments unit terms.parties addresses ∧ (∀ o ∈ outs, 546 ≤ o.amount.toNat) ∧
      (outs.map (·.amount.toNat)).sum + terms.fee.toNat ≤ value.toNat ∧
      value.toNat ≤ (outs.map (·.amount.toNat)).sum + terms.fee.toNat + (999 + 545 * (terms.parties.length - 1))
  | .noPayout => outs = [noPayoutOutput]

theorem halves_bounds (hmin : maxValue < value) (hfee : terms.fee.toNat ≤ Terms.maxFee) :
    ((value - terms.fee) / 2).toNat ≤ (value - terms.fee - (value - terms.fee) / 2).toNat ∧
      (value - terms.fee - (value - terms.fee) / 2).toNat ≤ ((value - terms.fee) / 2).toNat + 1 ∧
      546 ≤ ((value - terms.fee) / 2).toNat := by
  have hle := fee_add_le hmin hfee
  have hhalf := toNat_half hmin hfee
  have hsum := sum_halves hmin hfee
  omega

/-- A share that is not paid forfeits less than the dust threshold. -/
theorem payments_bounds {unit : UInt64} (hunit : unit.toNat < 2 ^ 31) {parties : List Party}
    {addresses : List Address} (hlen : addresses.length = parties.length) :
    (∀ o ∈ payments unit parties addresses, 546 ≤ o.amount.toNat) ∧
      ((payments unit parties addresses).map (·.amount.toNat)).sum ≤ unit.toNat * Terms.totalShare parties ∧
      unit.toNat * Terms.totalShare parties + 545 * (payments unit parties addresses).length ≤
        ((payments unit parties addresses).map (·.amount.toNat)).sum + 545 * parties.length := by
  -- the count of payments on the left says which parties forfeit nothing
  induction parties generalizing addresses with
  | nil => exact ⟨fun o ho => absurd ho List.not_mem_nil, Nat.zero_le _, Nat.le_refl _⟩
  | cons p parties ih =>
      cases addresses with
      | nil => cases hlen
      | cons a addresses =>
          obtain ⟨hdust, hmost, hleast⟩ := ih (Nat.succ.inj hlen)
          have hpayment := toNat_payment hunit p.share
          rw [payments_cons, Terms.totalShare, Nat.mul_add, List.length_cons]
          simp only [payment_lt_dustThreshold_iff hunit]
          split_ifs with hsmall
          · exact ⟨hdust, by omega, by omega⟩
          · rw [List.map_cons, List.sum_cons, List.length_cons, hpayment]
            exact ⟨List.forall_mem_cons.2 ⟨hpayment.ge.trans' (not_lt.1 hsmall), hdust⟩, by omega, by omega⟩

/-- Of an amount with a unit that pays somebody, less than a unit is rounded off, and all parties but one may
forfeit their shares. -/
theorem accountsFor_payments (hvalid : terms.Valid addresses) (hmax : value ≤ maxValue)
    (hsome : terms.SomeDue value) {unit : UInt64} (hunit : unit.toNat = terms.unit value) (contract : Contract)
    (hpaid : payments unit terms.parties addresses ≠ []) :
    AccountsFor suite terms addresses contract value (payments unit terms.parties addresses) (.distribute unit) := by
  have hlt : unit.toNat < 2 ^ 31 := lt_of_le_maxUnit (hunit ▸ unit_le_maxUnit hmax)
  obtain ⟨hdust, hmost, hleast⟩ := payments_bounds hlt hvalid.parties.length_eq.symm
  have hfee : terms.fee.toNat ≤ value.toNat := Nat.le_of_not_lt fun h => Terms.not_someDue_of_lt h hsome
  -- a party that is paid forfeits nothing, hence one less than all of them
  have hpos := List.length_pos_iff.2 hpaid
  rw [hvalid.total, hunit] at hmost hleast
  unfold Terms.unit Terms.shareTotal at hmost hleast
  exact ⟨rfl, hdust, by omega, by omega⟩

/-- Every amount has a mode and outputs under valid terms, which account for it. -/
theorem exists_accountsFor (hvalidate : terms.validate = .ok addresses) (value : UInt64) (contract : Contract) :
    ∃ m outs, mode value terms = .ok m ∧ outputs suite value terms contract = .ok outs ∧ outs ≠ [] ∧
      AccountsFor suite terms addresses contract value outs m := by
  have hvalid := Terms.valid_of_validate hvalidate
  obtain ⟨cutoff, hcutoff⟩ := hvalid.exists_minUnitForAll
  obtain ⟨m, hmode⟩ := exists_mode hcutoff value
  refine ⟨m, ?_⟩
  rw [outputs, hvalidate, hmode]
  rcases mode_cases hmode with ⟨hsplit, rfl⟩ | ⟨-, -, rfl⟩ | ⟨hmax, hsome, unit, hunit, rfl⟩
  · obtain ⟨hle, hlt, hdust⟩ := halves_bounds hsplit hvalid.fee.2
    exact ⟨_, rfl, rfl, List.cons_ne_nil _ _, _, _, rfl, sum_halves hsplit hvalid.fee.2, hle, hlt, hdust.trans hle,
      hdust⟩
  · exact ⟨_, rfl, rfl, List.cons_ne_nil _ _, rfl⟩
  · have hpaid := payments_ne_nil hvalid hmax hsome hunit
    refine ⟨_, rfl, rfl, ?_⟩
    rw [orNobody_of_ne_nil hpaid]
    exact ⟨hpaid, accountsFor_payments hvalid hmax hsome hunit contract hpaid⟩

/-- Every amount has a payout under valid terms, no operation wraps around in it, and its outputs account for the
amount. -/
theorem exists_outputs_accountsFor (hvalidate : terms.validate = .ok addresses) (value : UInt64)
    (contract : Contract) :
    ∃ m outs, mode value terms = .ok m ∧ outputs suite value terms contract = .ok outs ∧
      Exact.outputs suite value terms contract = some outs ∧ outs ≠ [] ∧
      AccountsFor suite terms addresses contract value outs m := by
  obtain ⟨m, outs, hmode, houts, hne, haccounts⟩ := exists_accountsFor hvalidate value contract
  exact ⟨m, outs, hmode, houts, Exact.outputs_eq_some hvalidate hmode houts, hne, haccounts⟩

/-- Two parties forfeit all that they can, and the division rounds off all that it can. -/
theorem exists_outputs_accountsFor_widest :
    ∃ addresses outs, Contract.widestTerms.validate = .ok addresses ∧
      mode 2114475216 Contract.widestTerms = .ok (.distribute 545) ∧
      outputs Suite.standard 2114475216 Contract.widestTerms ⟨[]⟩ = .ok outs ∧
      Exact.outputs Suite.standard 2114475216 Contract.widestTerms ⟨[]⟩ = some outs ∧ outs ≠ [] ∧
      AccountsFor Suite.standard Contract.widestTerms addresses ⟨[]⟩ 2114475216 outs (.distribute 545) ∧
      (outs.map (·.amount.toNat)).sum + Contract.widestTerms.fee.toNat + (999 + 545 * 2) = 2114475216 := by
  have hvalid : Contract.widestTerms.validate.toOption.isSome := by decide +kernel
  obtain ⟨addresses, hvalidate⟩ := exists_eq_ok_of_isSome hvalid
  have hmode : mode 2114475216 Contract.widestTerms = .ok (.distribute 545) := by decide
  obtain ⟨m, outs, hm, houts, hexact, hne, haccounts⟩ := exists_outputs_accountsFor hvalidate 2114475216 ⟨[]⟩
  rw [hmode, Except.ok.injEq] at hm
  subst hm
  have hsum : ((outputs Suite.standard 2114475216 Contract.widestTerms ⟨[]⟩).toOption.map fun outs =>
      (outs.map (·.amount.toNat)).sum + Contract.widestTerms.fee.toNat + (999 + 545 * 2)) = some 2114475216 := by
    decide +kernel
  rw [houts] at hsum
  exact ⟨addresses, outs, hvalidate, hmode, houts, hexact, hne, haccounts, Option.some.inj hsum⟩

end ShareCovenant.Payout
