import Mathlib
import ShareCovenant.Proofs.Covenant.Layout

/-!
# Which terms can be compiled

Terms that keep the rules have a contract, whatever the key. No division has a divisor of zero, and the sizes
of the pushes balance so that the script is never too short or too long for its own checks: all that is ever
refused are the terms.
-/

namespace ShareCovenant

namespace Terms

/-- The rules that terms keep. -/
structure KeepsRules (terms : Terms) : Prop where
  count : terms.parties.length = 2 ∨ terms.parties.length = 3
  fee : 1 ≤ terms.fee.toNat ∧ terms.fee.toNat ≤ maxFee
  address : ∀ p ∈ terms.parties, ∃ a, Address.decode p.address = .ok a ∧ a.hrp = "ecash"
  share : ∀ p ∈ terms.parties, 1 ≤ p.share.toNat ∧ p.share.toNat ≤ 999
  total : (terms.parties.map (·.share.toNat)).sum = 1000

theorem totalShare_eq_sum (parties : List Party) : totalShare parties = (parties.map (·.share.toNat)).sum := by
  induction parties with
  | nil => rfl
  | cons p parties ih => rw [totalShare, ih, List.map_cons, List.sum_cons]

theorem exists_forall₂_checkParty {parties : List Party} (h : ∀ p ∈ parties, ∃ a, checkParty p = .ok a) :
    ∃ addresses, List.Forall₂ (fun p a => checkParty p = .ok a) parties addresses := by
  induction parties with
  | nil => exact ⟨[], .nil⟩
  | cons p parties ih =>
      obtain ⟨⟨a, ha⟩, hparties⟩ := List.forall_mem_cons.1 h
      obtain ⟨addresses, haddresses⟩ := ih hparties
      exact ⟨a :: addresses, .cons ha haddresses⟩

theorem Valid.keepsRules {terms : Terms} {addresses : List Address} (h : terms.Valid addresses) :
    terms.KeepsRules := by
  obtain ⟨hmin, hmax⟩ := h.count
  unfold minParties at hmin
  unfold maxParties at hmax
  refine ⟨by omega, h.fee, fun p hp => ?_, fun p hp => ?_, ?_⟩
  · obtain ⟨a, ha⟩ := h.exists_checkParty hp
    obtain ⟨hdecode, hhrp, -⟩ := checkParty_eq_ok_iff.1 ha
    exact ⟨a, hdecode, hhrp⟩
  · obtain ⟨hlow, hhigh⟩ := h.share hp
    exact ⟨hlow, Nat.le_of_lt_succ hhigh⟩
  · rw [← totalShare_eq_sum]
    exact h.total

theorem KeepsRules.exists_valid {terms : Terms} (h : terms.KeepsRules) : ∃ addresses, terms.Valid addresses := by
  have hparties : ∀ p ∈ terms.parties, ∃ a, checkParty p = .ok a := fun p hp => by
    obtain ⟨a, hdecode, hhrp⟩ := h.address p hp
    obtain ⟨hlow, hhigh⟩ := h.share p hp
    exact ⟨a, checkParty_eq_ok_iff.2 ⟨hdecode, hhrp, hlow, Nat.lt_succ_of_le hhigh⟩⟩
  obtain ⟨addresses, haddresses⟩ := exists_forall₂_checkParty hparties
  have hcount : minParties ≤ terms.parties.length ∧ terms.parties.length ≤ maxParties := by
    rcases h.count with hlen | hlen <;> exact hlen ▸ by decide
  exact ⟨addresses, hcount, h.fee, haddresses, (totalShare_eq_sum _).trans h.total⟩

end Terms

namespace Contract

open Covenant

/-- Terms that are valid have a contract under every key. -/
theorem exists_compile {terms : Terms} {addresses : List Address} (hvalidate : terms.validate = .ok addresses)
    (pubkey : FixedBytes 33) : ∃ contract, compile pubkey terms = .ok contract := by
  obtain ⟨p, hp⟩ := exists_program hvalidate pubkey
  obtain ⟨script, hscript, hlen, -⟩ := Script.exists_lower (fits_program hp)
  obtain ⟨hlong, hshort⟩ := size_program_bounds hp
  refine ⟨⟨script⟩, ?_⟩
  rw [compile, hp]
  change (p.lower.mapError ContractError.build >>= _) = _
  rw [hscript]
  exact if_neg (by omega)

theorem exists_compile_of_isSome {terms : Terms} (h : terms.validate.toOption.isSome) (pubkey : FixedBytes 33) :
    ∃ contract, compile pubkey terms = .ok contract := by
  obtain ⟨addresses, hvalidate⟩ := exists_eq_ok_of_isSome h
  exact exists_compile hvalidate pubkey

theorem compile_of_validate_error {terms : Terms} {reason : TermsError} (h : terms.validate = .error reason)
    (pubkey : FixedBytes 33) : compile pubkey terms = .error (.terms reason) := by
  rw [compile, program, h]
  rfl

/-- The terms that can be compiled are those that keep the rules. A script is long enough for a length of two
bytes, every preimage that commits to it is short enough for an element, and no error is about anything but
the terms. -/
theorem exists_compile_iff_keepsRules (pubkey : FixedBytes 33) (terms : Terms) :
    ((∃ contract, compile pubkey terms = .ok contract) ↔ terms.KeepsRules) ∧
      (∀ contract, compile pubkey terms = .ok contract →
        252 < contract.script.length ∧ (CompactSize.encode contract.script.length).length = 3 ∧
          ∀ p : Preimage, p.scriptCode = contract.script → p.bytes.length ≤ 520) ∧
      ∀ e, compile pubkey terms = .error e → ∃ reason, terms.validate = .error reason ∧ e = .terms reason := by
  refine ⟨⟨?_, fun h => ?_⟩, fun contract h => ?_, fun e h => ?_⟩
  · rintro ⟨contract, h⟩
    obtain ⟨addresses, hvalidate⟩ := exists_validate h
    exact (Terms.valid_of_validate hvalidate).keepsRules
  · obtain ⟨addresses, hvalid⟩ := h.exists_valid
    exact exists_compile hvalid.validate pubkey
  · obtain ⟨-, -, -, hlong, -⟩ := exists_of_compile h
    have hcode := length_scriptCode h
    rw [CompactSize.encodeBytes, List.length_append] at hcode
    exact ⟨hlong, Nat.add_right_cancel hcode, fun p => length_preimage_le h⟩
  · cases hvalidate : terms.validate with
    | error reason =>
        rw [compile_of_validate_error hvalidate pubkey, Except.error.injEq] at h
        exact ⟨reason, rfl, h.symm⟩
    | ok addresses =>
        obtain ⟨contract, hcompile⟩ := exists_compile hvalidate pubkey
        rw [hcompile] at h
        cases h

/-- Terms with the longest script: three parties, the largest fee, and shares with the longest pushes. -/
def widestTerms : Terms where
  fee := 2113929217
  parties := [⟨"ecash:qq28cqs6dx23qh4qucnk9v3l2jt4yr242cxqqnw9kc", 1⟩,
    ⟨"ecash:qq830d643lw865u0x7mpc4yzsrvt9peccggju7td2v", 1⟩,
    ⟨"ecash:qq28cqs6dx23qh4qucnk9v3l2jt4yr242cxqqnw9kc", 998⟩]

theorem exists_compile_iff_keepsRules_widest :
    widestTerms.KeepsRules ∧
      ∃ contract, compile ⟨List.replicate 33 2, rfl⟩ widestTerms = .ok contract ∧
        252 < contract.script.length ∧ (CompactSize.encode contract.script.length).length = 3 ∧
          ∀ p : Preimage, p.scriptCode = contract.script → p.bytes.length ≤ 520 := by
  obtain ⟨hrules, hlimits, -⟩ := exists_compile_iff_keepsRules ⟨List.replicate 33 2, rfl⟩ widestTerms
  have hvalid : widestTerms.validate.toOption.isSome := by decide +kernel
  obtain ⟨contract, hcompile⟩ := exists_compile_of_isSome hvalid ⟨List.replicate 33 2, rfl⟩
  exact ⟨hrules.1 ⟨contract, hcompile⟩, contract, hcompile, hlimits contract hcompile⟩

end Contract

end ShareCovenant
