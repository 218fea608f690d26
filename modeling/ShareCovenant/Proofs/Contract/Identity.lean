import Mathlib
import ShareCovenant.Proofs.Contract.Compilation

/-!
# The identity of a contract

The address of a contract is a hash of its script, and the script says all that matters: contracts have one
script if and only if they have one key, one fee, and the same payees in the same order. Only the texts of the
addresses are lost, which may differ in case and in whether they name the network.
-/

namespace ShareCovenant

open Covenant

/-! ## Payees -/

theorem Address.lockingScript_eq_iff {a b : Address} :
    a.lockingScript = b.lockingScript ↔ a.kind = b.kind ∧ a.hash = b.hash := by
  constructor
  · obtain ⟨hrp, kind, hash⟩ := a
    obtain ⟨hrp', kind', hash'⟩ := b
    intro h
    cases kind with
    | pubkeyHash =>
        cases kind' with
        | pubkeyHash =>
            have hhash : hash.val = hash'.val := List.append_cancel_left (List.append_cancel_right h)
            exact ⟨rfl, Subtype.ext hhash⟩
        | scriptHash => exact absurd (List.head_eq_of_cons_eq h) (by decide)
    | scriptHash =>
        cases kind' with
        | pubkeyHash => exact absurd (List.head_eq_of_cons_eq h) (by decide)
        | scriptHash =>
            have hhash : hash.val = hash'.val := List.append_cancel_left (List.append_cancel_right h)
            exact ⟨rfl, Subtype.ext hhash⟩
  · rintro ⟨hkind, hhash⟩
    rw [lockingScript, lockingScript, hkind, hhash]

/-- Parties with the same share and the same kind and hash of an address, whatever its text. -/
structure Party.SamePayee (p q : Party) : Prop where
  share : p.share = q.share
  address : ∃ a b, Address.decode p.address = .ok a ∧ Address.decode q.address = .ok b ∧
    a.kind = b.kind ∧ a.hash = b.hash

theorem Party.SamePayee.of_decode_eq {p q : Party} (hshare : p.share = q.share)
    (hdecode : Address.decode p.address = Address.decode q.address)
    (hsome : (Address.decode p.address).toOption.isSome) : p.SamePayee q := by
  cases ha : Address.decode p.address with
  | error reason =>
      rw [ha] at hsome
      cases hsome
  | ok a => exact ⟨hshare, a, a, ha, hdecode.symm.trans ha, rfl, rfl⟩

theorem samePayment_iff_samePayee {p q : Party} {a b : Address} (ha : Address.decode p.address = .ok a)
    (hb : Address.decode q.address = .ok b) : SamePayment (p, a) (q, b) ↔ p.SamePayee q := by
  constructor
  · rintro ⟨hshare, hscript⟩
    exact ⟨hshare, a, b, ha, hb, Address.lockingScript_eq_iff.1 hscript⟩
  · rintro ⟨hshare, a', b', ha', hb', hsame⟩
    cases ha.symm.trans ha'
    cases hb.symm.trans hb'
    exact ⟨hshare, Address.lockingScript_eq_iff.2 hsame⟩

theorem forall₂_samePayment_iff {parties parties' : List Party} {addresses addresses' : List Address}
    (h : List.Forall₂ (fun p a => Terms.checkParty p = .ok a) parties addresses)
    (h' : List.Forall₂ (fun p a => Terms.checkParty p = .ok a) parties' addresses') :
    List.Forall₂ SamePayment (parties.zip addresses) (parties'.zip addresses') ↔
      List.Forall₂ Party.SamePayee parties parties' := by
  induction h generalizing parties' addresses' with
  | nil => cases h' <;> simp
  | cons hp _ ih =>
      cases h' with
      | nil => simp
      | cons hp' hparties' =>
          rw [List.zip_cons_cons, List.zip_cons_cons, List.forall₂_cons, List.forall₂_cons, ih hparties',
            samePayment_iff_samePayee (Terms.decode_of_checkParty hp) (Terms.decode_of_checkParty hp')]

/-! ## Programs of the same payees -/

theorem payAll_congr {payees payees' : List (Party × Address)} (h : List.Forall₂ SamePayment payees payees') :
    payAll payees = payAll payees' := by
  induction h with
  | nil => rfl
  | @cons payee payee' _ _ hpayment _ ih =>
      obtain ⟨party, address⟩ := payee
      obtain ⟨party', address'⟩ := payee'
      obtain ⟨hshare, hscript⟩ := hpayment
      dsimp only at hshare hscript
      rw [payAll, payAll, payIfDue, payIfDue, hshare, hscript, ih]

theorem largest_congr {parties parties' : List Party} (h : List.Forall₂ Party.SamePayee parties parties') :
    Share.largest parties = Share.largest parties' := by
  unfold Share.largest
  generalize (0 : UInt32) = m
  induction h generalizing m with
  | nil => rfl
  | cons hp _ ih => rw [List.foldl_cons, List.foldl_cons, hp.share, ih]

theorem program_congr {pubkey : FixedBytes 33} {terms terms' : Terms} {addresses addresses' : List Address}
    (hvalidate : terms.validate = .ok addresses) (hvalidate' : terms'.validate = .ok addresses')
    (hfee : terms.fee = terms'.fee) (hpayees : List.Forall₂ Party.SamePayee terms.parties terms'.parties) :
    program pubkey terms = program pubkey terms' := by
  have hpayments := (forall₂_samePayment_iff (Terms.valid_of_validate hvalidate).parties
    (Terms.valid_of_validate hvalidate').parties).2 hpayees
  have hdistribution : distribution terms.fee.toNat terms.parties addresses =
      distribution terms'.fee.toNat terms'.parties addresses' := by
    rw [distribution, distribution, Share.minUnitForAll, Share.minUnitForAll, payAll_congr hpayments,
      largest_congr hpayees, hfee]
  rw [program, program, hvalidate, hvalidate']
  change (distribution _ _ addresses >>= _) = (distribution _ _ addresses' >>= _)
  rw [hdistribution, hfee]

namespace Contract

/-- Two contracts have one script if and only if they have one key and one fee, and as many parties, which are
the same payees one by one. -/
theorem script_eq_iff {pubkey pubkey' : FixedBytes 33} {terms terms' : Terms} {contract contract' : Contract}
    (h : compile pubkey terms = .ok contract) (h' : compile pubkey' terms' = .ok contract') :
    contract.script = contract'.script ↔
      pubkey = pubkey' ∧ terms.fee = terms'.fee ∧ List.Forall₂ Party.SamePayee terms.parties terms'.parties := by
  obtain ⟨addresses, hvalidate⟩ := exists_validate h
  obtain ⟨addresses', hvalidate'⟩ := exists_validate h'
  obtain ⟨p, hp, hlower, -⟩ := exists_of_compile h
  obtain ⟨p', hp', hlower', -⟩ := exists_of_compile h'
  constructor
  · intro hscript
    have hlayout : p.layout = p'.layout := by
      rw [← Script.instructions_of_lower (fits_program hp) hlower, hscript,
        Script.instructions_of_lower (fits_program hp') hlower']
    obtain ⟨hkey, hfee, hpayments⟩ := layout_program_inj hp hp' hvalidate hvalidate' hlayout
    exact ⟨hkey, hfee, (forall₂_samePayment_iff (Terms.valid_of_validate hvalidate).parties
      (Terms.valid_of_validate hvalidate').parties).1 hpayments⟩
  · rintro ⟨rfl, hfee, hpayees⟩
    rw [program_congr hvalidate hvalidate' hfee hpayees, hp', Except.ok.injEq] at hp
    rw [hp, hlower, Except.ok.injEq] at hlower'
    exact hlower'

/-- Two parties with the texts of their addresses in full. -/
def namedTerms : Terms where
  fee := 1000
  parties := [⟨"ecash:qq28cqs6dx23qh4qucnk9v3l2jt4yr242cxqqnw9kc", 600⟩,
    ⟨"ecash:qq830d643lw865u0x7mpc4yzsrvt9peccggju7td2v", 400⟩]

/-- The same payees, once without the network and once in upper case. -/
def respelledTerms : Terms where
  fee := 1000
  parties := [⟨"qq28cqs6dx23qh4qucnk9v3l2jt4yr242cxqqnw9kc", 600⟩,
    ⟨"ECASH:QQ830D643LW865U0X7MPC4YZSRVT9PECCGGJU7TD2V", 400⟩]

theorem script_eq_iff_named :
    ∃ contract respelled reversed, compile ⟨List.replicate 33 2, rfl⟩ namedTerms = .ok contract ∧
      compile ⟨List.replicate 33 2, rfl⟩ respelledTerms = .ok respelled ∧
      compile ⟨List.replicate 33 2, rfl⟩ { namedTerms with parties := namedTerms.parties.reverse } = .ok reversed ∧
      contract.script = respelled.script ∧ contract.script ≠ reversed.script := by
  have hnamed : namedTerms.validate.toOption.isSome := by decide +kernel
  have hrespelled : respelledTerms.validate.toOption.isSome := by decide +kernel
  have hreversed : ({ namedTerms with parties := namedTerms.parties.reverse } : Terms).validate.toOption.isSome := by
    decide +kernel
  obtain ⟨contract, h⟩ := exists_compile_of_isSome hnamed ⟨List.replicate 33 2, rfl⟩
  obtain ⟨respelled, h'⟩ := exists_compile_of_isSome hrespelled ⟨List.replicate 33 2, rfl⟩
  obtain ⟨reversed, h''⟩ := exists_compile_of_isSome hreversed ⟨List.replicate 33 2, rfl⟩
  refine ⟨contract, respelled, reversed, h, h', h'', ?_, ?_⟩
  · rw [script_eq_iff h h']
    have hfirst := Party.SamePayee.of_decode_eq (p := namedTerms.parties[0]) (q := respelledTerms.parties[0]) rfl
      (by decide +kernel) (by decide +kernel)
    have hsecond := Party.SamePayee.of_decode_eq (p := namedTerms.parties[1]) (q := respelledTerms.parties[1]) rfl
      (by decide +kernel) (by decide +kernel)
    exact ⟨rfl, rfl, .cons hfirst (.cons hsecond .nil)⟩
  · rw [Ne, script_eq_iff h h'']
    rintro ⟨-, -, hpayees⟩
    have hshare := (List.forall₂_cons.1 hpayees).1.share
    exact absurd hshare (by decide)

end Contract

end ShareCovenant
