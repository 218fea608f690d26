import Mathlib
import ShareCovenant.Contract.Share
import ShareCovenant.Proofs.Except

/-!
# Valid terms and least units

What validation promises of the terms, and which units clear the dust threshold: a share is paid from its
least unit on, and some party is paid from the least unit of the largest share on.
-/

namespace ShareCovenant

/-! ## Validation -/

namespace Terms

/-- Terms that keep all rules, with the addresses of the parties. -/
structure Valid (terms : Terms) (addresses : List Address) : Prop where
  count : minParties ≤ terms.parties.length ∧ terms.parties.length ≤ maxParties
  fee : 1 ≤ terms.fee.toNat ∧ terms.fee.toNat ≤ maxFee
  parties : List.Forall₂ (fun p a => checkParty p = .ok a) terms.parties addresses
  total : totalShare terms.parties = shareTotal

theorem valid_of_validate {terms : Terms} {addresses : List Address} (h : terms.validate = .ok addresses) :
    terms.Valid addresses := by
  simp only [validate, bind, Except.bind, throw, throwThe, MonadExceptOf.throw, pure, Except.pure] at h
  split_ifs at h with hcount hfee htotal
  · cases hparties : terms.parties.mapM checkParty <;> simp [hparties] at h
  · cases hparties : terms.parties.mapM checkParty with
    | error e =>
        rw [hparties] at h
        cases h
    | ok as =>
        rw [hparties] at h
        cases h
        exact ⟨by omega, by omega, forall₂_of_mapM_eq_ok hparties, not_not.1 htotal⟩

theorem Valid.validate {terms : Terms} {addresses : List Address} (h : terms.Valid addresses) :
    terms.validate = .ok addresses := by
  obtain ⟨hcount, hfee, hparties, htotal⟩ := h
  simp only [Terms.validate, bind, Except.bind, throw, throwThe, MonadExceptOf.throw, pure, Except.pure]
  rw [if_neg (by omega), if_neg (by omega), mapM_eq_ok_of_forall₂ hparties]
  exact if_neg (not_not.2 htotal)

theorem checkParty_eq_ok_iff {p : Party} {a : Address} :
    checkParty p = .ok a ↔ Address.decode p.address = .ok a ∧ a.hrp = Address.networkHrp ∧
      1 ≤ p.share.toNat ∧ p.share.toNat < shareTotal := by
  unfold checkParty
  cases Address.decode p.address with
  | error reason => simp
  | ok b =>
      dsimp only
      constructor
      · intro h
        split_ifs at h with hhrp hshare
        cases h
        exact ⟨rfl, not_not.1 hhrp, by omega, by omega⟩
      · rintro ⟨hb, hhrp, hlow, hhigh⟩
        cases hb
        exact (if_neg (not_not.2 hhrp)).trans (if_neg (by omega))

/-- A party that keeps the rules has a share of at least one thousandth, but not all of them. -/
theorem share_of_checkParty {p : Party} {a : Address} (h : checkParty p = .ok a) :
    1 ≤ p.share.toNat ∧ p.share.toNat < shareTotal :=
  (checkParty_eq_ok_iff.1 h).2.2

theorem decode_of_checkParty {p : Party} {a : Address} (h : checkParty p = .ok a) :
    Address.decode p.address = .ok a :=
  (checkParty_eq_ok_iff.1 h).1

theorem Valid.exists_checkParty {terms : Terms} {addresses : List Address} (h : terms.Valid addresses) {p : Party}
    (hp : p ∈ terms.parties) : ∃ a, checkParty p = .ok a := by
  obtain ⟨i, hi, rfl⟩ := List.getElem_of_mem hp
  have hi' : i < addresses.length := by rwa [← h.parties.length_eq]
  exact ⟨_, h.parties.get hi hi'⟩

theorem Valid.share {terms : Terms} {addresses : List Address} (h : terms.Valid addresses) {p : Party}
    (hp : p ∈ terms.parties) : 1 ≤ p.share.toNat ∧ p.share.toNat < shareTotal := by
  obtain ⟨a, ha⟩ := h.exists_checkParty hp
  exact share_of_checkParty ha

theorem Valid.length_zip_le {terms : Terms} {addresses : List Address} (h : terms.Valid addresses) :
    (terms.parties.zip addresses).length ≤ maxParties := by
  rw [List.length_zip]
  exact (Nat.min_le_left _ _).trans h.count.2

end Terms

/-! ## Least units -/

namespace Share

/-- The least unit of a share is the dust threshold divided by the share, rounded up. -/
theorem toNat_minUnit {share : UInt32} {u : UInt64} (h : minUnit share = .ok u) :
    0 < share.toNat ∧
      u.toNat = 546 / share.toNat + if 546 % share.toNat = 0 then 0 else 1 := by
  have hzero : share.toUInt64 = 0 ↔ share.toNat = 0 := by
    rw [← UInt64.toNat_inj, UInt32.toNat_toUInt64]
    rfl
  have hmod : dustThreshold % share.toUInt64 = 0 ↔ 546 % share.toNat = 0 := by
    rw [← UInt64.toNat_inj, UInt64.toNat_mod, UInt32.toNat_toUInt64]
    rfl
  have hdiv : (dustThreshold / share.toUInt64).toNat = 546 / share.toNat := by
    rw [UInt64.toNat_div, UInt32.toNat_toUInt64]
    rfl
  unfold minUnit quotient at h
  by_cases h0 : share.toUInt64 = 0
  · rw [if_pos h0] at h
    cases h
  · rw [if_neg h0] at h
    simp only [bind, Except.bind, pure, Except.pure, Except.ok.injEq, hmod] at h
    refine ⟨Nat.pos_of_ne_zero fun h1 => h0 (hzero.2 h1), ?_⟩
    have hle : 546 / share.toNat ≤ 546 := Nat.div_le_self _ _
    rw [← h]
    split_ifs
    · rw [hdiv, Nat.add_zero]
    · rw [UInt64.toNat_add, hdiv]
      change (546 / share.toNat + 1) % 18446744073709551616 = _
      omega

theorem exists_minUnit {share : UInt32} (h : 1 ≤ share.toNat) : ∃ u, minUnit share = .ok u := by
  have hzero : share.toUInt64 ≠ 0 := by
    intro h0
    have := congrArg UInt64.toNat h0
    rw [UInt32.toNat_toUInt64] at this
    exact absurd this (Nat.ne_of_gt h)
  rw [minUnit, quotient, if_neg hzero]
  exact ⟨_, rfl⟩

/-- From its least unit on, a share reaches the dust threshold. -/
theorem minUnit_le_iff {share : UInt32} {u : UInt64} (h : minUnit share = .ok u) (n : Nat) :
    u.toNat ≤ n ↔ 546 ≤ n * share.toNat := by
  obtain ⟨hpos, hu⟩ := toNat_minUnit h
  have hdm := Nat.div_add_mod 546 share.toNat
  have hlt := Nat.mod_lt 546 hpos
  rw [hu]
  constructor
  · intro hle
    have hmul := Nat.mul_le_mul_right share.toNat hle
    rw [Nat.add_mul, Nat.mul_comm (546 / share.toNat)] at hmul
    split_ifs at hmul <;> omega
  · intro hge
    have hle := Nat.div_le_div_right (c := share.toNat) hge
    rw [Nat.mul_div_cancel _ hpos] at hle
    split_ifs with hmod
    · exact hle
    · by_contra hlt
      have hn : n = 546 / share.toNat := by omega
      rw [hn, Nat.mul_comm] at hge
      omega

theorem minUnit_bounds {share : UInt32} {u : UInt64} (h : minUnit share = .ok u) :
    1 ≤ u.toNat ∧ u.toNat ≤ 546 := by
  have hpos := (toNat_minUnit h).1
  refine ⟨?_, (minUnit_le_iff h 546).2 (Nat.le_mul_of_pos_right _ hpos)⟩
  by_contra h0
  have := (minUnit_le_iff h 0).1 (by omega)
  omega

/-! ## The largest share -/

theorem toNat_max (a b : UInt32) : (max a b).toNat = max a.toNat b.toNat := by
  change (if a ≤ b then b else a).toNat = _
  split_ifs with h
  all_goals
    rw [UInt32.le_iff_toNat_le] at h
    omega

theorem le_foldl_max (parties : List Party) (m : UInt32) :
    m.toNat ≤ (parties.foldl (fun m p => max m p.share) m).toNat ∧
      ∀ p ∈ parties, p.share.toNat ≤ (parties.foldl (fun m p => max m p.share) m).toNat := by
  induction parties generalizing m with
  | nil => simp
  | cons q parties ih =>
      obtain ⟨hm, hall⟩ := ih (max m q.share)
      rw [toNat_max] at hm
      rw [List.foldl_cons]
      refine ⟨by omega, ?_⟩
      intro p hp
      rcases List.mem_cons.1 hp with rfl | hp
      · omega
      · exact hall p hp

theorem share_le_largest {parties : List Party} {p : Party} (hp : p ∈ parties) :
    p.share.toNat ≤ (largest parties).toNat :=
  (le_foldl_max parties 0).2 p hp

theorem exists_foldl_max (parties : List Party) (m : UInt32) :
    (parties.foldl (fun m p => max m p.share) m).toNat = m.toNat ∨
      ∃ p ∈ parties, (parties.foldl (fun m p => max m p.share) m).toNat = p.share.toNat := by
  induction parties generalizing m with
  | nil => exact Or.inl rfl
  | cons q parties ih =>
      rw [List.foldl_cons]
      rcases ih (max m q.share) with h | ⟨p, hp, h⟩
      · rw [h, toNat_max]
        rcases max_choice m.toNat q.share.toNat with hmax | hmax
        · exact Or.inl hmax
        · exact Or.inr ⟨q, List.mem_cons_self, hmax⟩
      · exact Or.inr ⟨p, List.mem_cons_of_mem _ hp, h⟩

/-- From the least unit of all parties on, some party reaches the dust threshold. -/
theorem minUnitForAll_le_iff {parties : List Party} {u : UInt64} (h : minUnitForAll parties = .ok u)
    (n : Nat) : u.toNat ≤ n ↔ ∃ p ∈ parties, 546 ≤ n * p.share.toNat := by
  rw [minUnit_le_iff h]
  constructor
  · intro hge
    rcases exists_foldl_max parties 0 with h0 | ⟨p, hp, hmax⟩
    · rw [largest, h0] at hge
      simp at hge
    · rw [largest, hmax] at hge
      exact ⟨p, hp, hge⟩
  · rintro ⟨p, hp, hge⟩
    exact hge.trans (Nat.mul_le_mul_left _ (share_le_largest hp))

end Share

/-! ## Amounts -/

namespace Terms

theorem Valid.exists_minUnitForAll {terms : Terms} {addresses : List Address} (h : terms.Valid addresses) :
    ∃ cutoff, Share.minUnitForAll terms.parties = .ok cutoff := by
  have hcount : 0 < terms.parties.length := Nat.lt_of_lt_of_le (by decide) h.count.1
  obtain ⟨p, hp⟩ := List.exists_mem_of_length_pos hcount
  exact Share.exists_minUnit ((h.share hp).1.trans (Share.share_le_largest hp))

/-- The unit of an amount. An amount that does not reach the fee has none. -/
def unit (terms : Terms) (value : UInt64) : Nat := (value.toNat - terms.fee.toNat) / shareTotal

/-- Some party is paid its share of an amount. -/
def SomeDue (terms : Terms) (value : UInt64) : Prop :=
  ∃ p ∈ terms.parties, 546 ≤ terms.unit value * p.share.toNat

/-- The parties that are paid their share of an amount, in order. -/
def dueParties (terms : Terms) (value : UInt64) : List Party :=
  terms.parties.filter fun p => 546 ≤ terms.unit value * p.share.toNat

theorem someDue_iff {terms : Terms} {cutoff : UInt64} (h : Share.minUnitForAll terms.parties = .ok cutoff)
    (value : UInt64) : terms.SomeDue value ↔ cutoff.toNat ≤ terms.unit value :=
  (Share.minUnitForAll_le_iff h _).symm

theorem not_someDue_of_lt {terms : Terms} {value : UInt64} (h : value.toNat < terms.fee.toNat) :
    ¬terms.SomeDue value := by
  rintro ⟨p, -, hdue⟩
  rw [unit, Nat.sub_eq_zero_of_le h.le, Nat.zero_div, Nat.zero_mul] at hdue
  omega

end Terms

end ShareCovenant
