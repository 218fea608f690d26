import Mathlib
import ShareCovenant.Proofs.Curve.Secp256k1
import ShareCovenant.Proofs.Except
import ShareCovenant.Signature

/-!
# Signatures on a curve of prime order

The derived nonce is the first candidate in range. The covenant rests on two facts that hold for every nonce. A
signature that is made is valid under both serialized forms of the public key. And a signature that is valid for
two messages has one challenge for both: the two nonce points have one x and residues for y, so they are the same
point, and the multiples of the public key by the challenges are equal.
-/

namespace ShareCovenant.Signature

open Curve

variable {suite : Suite}

/-- The x of the nonce point in a signature. -/
def nonceBytes (sig : FixedBytes 64) : FixedBytes 32 := ⟨sig.val.take 32, by simp [sig.property]⟩

theorem challenge_lt (hc : suite.curve.PrimeOrder) (r : FixedBytes 32) (pubkey : FixedBytes 33)
    (msg : FixedBytes 32) : challenge suite r pubkey msg < suite.curve.order :=
  Nat.mod_lt _ hc.order_prime.pos

/-! ## Derived nonces -/

/-- A search ends with the first candidate in range, however many are refused before it. -/
theorem search_eq_of_first (key : suite.curve.Scalar) {n : Nat} {g : Nonce.Generator} {k : suite.curve.Scalar}
    (hrefused : ∀ m < n, Key.ofBytes? suite ((Nonce.Generator.retry suite)^[m] g).value = none)
    (hk : Key.ofBytes? suite ((Nonce.Generator.retry suite)^[n] g).value = some k) : Nonce.search key g = k := by
  induction n generalizing g with
  | zero =>
      change Key.ofBytes? suite g.value = some k at hk
      rw [Nonce.search_eq, Nonce.Generator.attempt, hk]
  | succ n ih =>
      have hfirst : Key.ofBytes? suite g.value = none := hrefused 0 n.succ_pos
      rw [Nonce.search_eq, Nonce.Generator.attempt, hfirst]
      exact ih (fun m hm => hrefused (m + 1) (Nat.succ_lt_succ hm)) hk

/-- The nonce for a key and a message is the first candidate in range. -/
theorem derive_eq_of_first {key : suite.curve.Scalar} {msg : FixedBytes 32} {n : Nat} {k : suite.curve.Scalar}
    (hrefused : ∀ m < n,
      Key.ofBytes? suite ((Nonce.Generator.retry suite)^[m] (Nonce.first key msg)).value = none)
    (hk : Key.ofBytes? suite ((Nonce.Generator.retry suite)^[n] (Nonce.first key msg)).value = some k) :
    Nonce.derive key msg = k := by
  rw [Nonce.derive_eq_search]
  exact search_eq_of_first key hrefused hk

/-! ## Nonce points -/

/-- The opposite of a point whose y is no residue has a residue y. -/
theorem isResidue_neg (hc : suite.curve.PrimeOrder) {x y : Nat} (h : suite.curve.Contains (.affine x y)) :
    suite.curve.isResidue (suite.curve.fieldPrime - y) = !suite.curve.isResidue y := by
  have := hc.fact_prime
  have hy : y < suite.curve.fieldPrime := h.2.1
  have hy0 : (y : ZMod suite.curve.fieldPrime) ≠ 0 :=
    mt (suite.curve.natCast_eq_zero_iff hy).1 (hc.y_pos h).ne'
  have hneg : ((suite.curve.fieldPrime - y : Nat) : ZMod suite.curve.fieldPrime) = -y := by
    rw [Nat.cast_sub hy.le, ZMod.natCast_self, zero_sub]
  have hneg0 : ((suite.curve.fieldPrime - y : Nat) : ZMod suite.curve.fieldPrime) ≠ 0 := by
    rw [hneg]
    exact neg_ne_zero.2 hy0
  rw [Bool.eq_not_iff, Ne, Bool.eq_iff_iff, suite.curve.isResidue_iff hc.two_lt,
    suite.curve.isResidue_iff hc.two_lt]
  have hor := isSquare_or_isSquare_neg hc.mod_four (y : ZMod suite.curve.fieldPrime)
  have hnot := not_isSquare_neg hc.mod_four hy0
  rw [hneg] at hneg0 ⊢
  tauto

/-- The nonce point is determined by its x. -/
theorem isNoncePoint_unique (hc : suite.curve.PrimeOrder) {r : Nat} {p q : Point}
    (hp : suite.curve.Contains p) (hq : suite.curve.Contains q) (h : isNoncePoint suite r p = true)
    (h' : isNoncePoint suite r q = true) : p = q := by
  match p, q, hp, hq, h, h' with
  | .affine x y, .affine x' y', hp, hq, h, h' =>
      simp only [isNoncePoint, Bool.and_eq_true, beq_iff_eq] at h h'
      obtain ⟨rfl, hy⟩ := h
      obtain ⟨rfl, hy'⟩ := h'
      rcases hc.y_eq_or hp hq with rfl | rfl
      · rfl
      · rw [isResidue_neg hc hp, hy] at hy'
        cases hy'

/-! ## Signatures with one nonce point -/

theorem exists_of_verify {r : FixedBytes 32} {s pubkey : Bytes} {msg : FixedBytes 32}
    (h : verify suite (r ++ s) msg pubkey = true) :
    ∃ p k, suite.curve.parsePoint? pubkey = some p ∧ s.length = 32 ∧ BigEndian.decode s = k.val ∧
      verifyPoint suite r k msg p = true := by
  rw [verify] at h
  split_ifs at h with hlen
  rw [List.length_append, r.property] at hlen
  split at h
  · rename_i p k hparse hscalar
    rw [List.drop_left' r.property, scalar?] at hscalar
    split_ifs at hscalar
    cases hscalar
    have hr : (⟨(r ++ s).take 32, by simp [r.property]⟩ : FixedBytes 32) = r :=
      Subtype.ext (List.take_left' r.property)
    rw [hr] at h
    exact ⟨p, _, hparse, by omega, rfl, h⟩
  · cases h

/-- The nonce point that verification computes is determined by its x. -/
theorem sub_nsmul_eq_of_verifyPoint (hc : suite.curve.PrimeOrder) [Fact suite.curve.fieldPrime.Prime]
    {G P : suite.curve.weierstrass.Point} (hG : suite.curve.coordinates G = suite.curve.base) {r : FixedBytes 32}
    {k k' : suite.curve.Scalar} {msg msg' : FixedBytes 32}
    (h : verifyPoint suite r k msg (suite.curve.coordinates P) = true)
    (h' : verifyPoint suite r k' msg' (suite.curve.coordinates P) = true) :
    k.val • G - challenge suite r (suite.curve.coordinates P).compressed msg • P =
      k'.val • G - challenge suite r (suite.curve.coordinates P).compressed msg' • P := by
  have hpoint : ∀ s e : Nat, suite.curve.add (suite.curve.smul s suite.curve.base)
      (suite.curve.neg (suite.curve.smul e (suite.curve.coordinates P))) =
        suite.curve.coordinates (s • G - e • P) := by
    intro s e
    rw [sub_eq_add_neg, coordinates_add hc.two_lt, coordinates_neg, coordinates_nsmul hc.three_lt,
      coordinates_nsmul hc.three_lt, hG]
  simp only [verifyPoint, hpoint, Bool.and_eq_true] at h h'
  exact coordinates_injective
    (isNoncePoint_unique hc (hc.contains_coordinates _) (hc.contains_coordinates _) h.2 h'.2)

/-- Valid signatures with one nonce point have the same scalar if and only if they have the same challenge. -/
theorem val_eq_iff_challenge_eq (hc : suite.curve.PrimeOrder) {p : Point} (hp : suite.curve.Contains p)
    (hne : p ≠ .infinity) {r : FixedBytes 32} {k k' : suite.curve.Scalar} {msg msg' : FixedBytes 32}
    (h : verifyPoint suite r k msg p = true) (h' : verifyPoint suite r k' msg' p = true) :
    k.val = k'.val ↔ challenge suite r p.compressed msg = challenge suite r p.compressed msg' := by
  have := hc.fact_prime
  obtain ⟨P, rfl⟩ := hc.exists_of_contains hp
  obtain ⟨G, hG, hG0⟩ := hc.exists_base
  have hP : P ≠ 0 := mt coordinates_eq_infinity_iff.2 hne
  have hsame := sub_nsmul_eq_of_verifyPoint hc hG h h'
  constructor
  · intro hk
    rwa [hk, sub_right_inj, hc.nsmul_eq_nsmul_iff hP, Nat.mod_eq_of_lt (challenge_lt hc _ _ _),
      Nat.mod_eq_of_lt (challenge_lt hc _ _ _)] at hsame
  · intro hchallenge
    rwa [hchallenge, sub_left_inj, hc.nsmul_eq_nsmul_iff hG0, Nat.mod_eq_of_lt k.property.2,
      Nat.mod_eq_of_lt k'.property.2] at hsame

/-- A signature that is valid for two messages has one challenge for both. -/
theorem challenge_eq_of_verify (hc : suite.curve.PrimeOrder) {sig : FixedBytes 64} {pubkey : FixedBytes 33}
    {msg msg' : FixedBytes 32} (h : verify suite sig msg pubkey = true)
    (h' : verify suite sig msg' pubkey = true) :
    challenge suite (nonceBytes sig) pubkey msg = challenge suite (nonceBytes sig) pubkey msg' := by
  have hsig : sig.val = nonceBytes sig ++ sig.val.drop 32 := (List.take_append_drop 32 _).symm
  rw [hsig] at h h'
  obtain ⟨p, k, hparse, -, hk, hverify⟩ := exists_of_verify h
  obtain ⟨p', k', hparse', -, hk', hverify'⟩ := exists_of_verify h'
  cases hparse.symm.trans hparse'
  obtain ⟨hcontains, hne, hcompressed⟩ := hc.of_parsePoint hparse
  rw [← hcompressed]
  exact (val_eq_iff_challenge_eq hc hcontains hne hverify hverify').1 (hk.symm.trans hk')

/-! ## Signatures that are made -/

/-- No multiple of the base point by a signing key is infinity. -/
theorem smul_base_ne_infinity (hc : suite.curve.PrimeOrder) (key : suite.curve.Scalar) :
    suite.curve.smul key.val suite.curve.base ≠ .infinity := by
  have := hc.fact_prime
  obtain ⟨G, hG, hG0⟩ := hc.exists_base
  rw [← hG, ← coordinates_nsmul hc.three_lt, Ne, coordinates_eq_infinity_iff, ← zero_nsmul G,
    hc.nsmul_eq_nsmul_iff hG0, Nat.mod_eq_of_lt key.property.2, Nat.zero_mod]
  exact key.property.1.ne'

/-- The public key of a signing key is read back as the multiple of the base point. -/
theorem parsePoint_publicKey (hc : suite.curve.PrimeOrder) (key : suite.curve.Scalar) :
    suite.curve.parsePoint? (Key.publicKey key) = some (suite.curve.smul key.val suite.curve.base) := by
  have := hc.fact_prime
  exact hc.parsePoint_compressed (hc.contains_smul hc.contains_base _) (smul_base_ne_infinity hc key)

/-- The nonce or its opposite names the nonce point. -/
theorem isNoncePoint_orientNonce (hc : suite.curve.PrimeOrder) [Fact suite.curve.fieldPrime.Prime]
    {G : suite.curve.weierstrass.Point} {k x y : Nat} (hk : k ≤ suite.curve.order)
    (h : suite.curve.coordinates (k • G) = .affine x y) :
    isNoncePoint suite x (suite.curve.coordinates (orientNonce suite k y • G)) = true := by
  have hcontains := hc.contains_coordinates (k • G)
  rw [h] at hcontains
  rw [orientNonce]
  split_ifs with hresidue
  · rw [h]
    simp [isNoncePoint, hresidue]
  · have hneg : (suite.curve.order - k) • G = -(k • G) := by
      rw [eq_neg_iff_add_eq_zero, ← add_nsmul, Nat.sub_add_cancel hk, hc.order_nsmul]
    have hlt : suite.curve.fieldPrime - y < suite.curve.fieldPrime := by
      have := hc.y_pos hcontains
      have := hcontains.2.1
      omega
    rw [hneg, coordinates_neg, h, neg, Nat.mod_eq_of_lt hlt]
    simp [isNoncePoint, isResidue_neg hc hcontains, hresidue]

theorem exists_nonce_of_sign {key : suite.curve.Scalar} {msg : FixedBytes 32} {sig : FixedBytes 64}
    (h : sign key msg = .ok sig) : ∃ k, signWith key msg k = .ok sig :=
  ⟨Nonce.derive key msg, h⟩

theorem exists_of_signWith (hc : suite.curve.PrimeOrder) {key : suite.curve.Scalar} {msg : FixedBytes 32}
    {k : suite.curve.Scalar} {sig : FixedBytes 64} (h : signWith key msg k = .ok sig) :
    ∃ x y e s : Nat, suite.curve.smul k.val suite.curve.base = .affine x y ∧
      e = challenge suite (BigEndian.fixed 32 x) (Key.publicKey key) msg ∧
      s = (orientNonce suite k.val y + e * key.val) % suite.curve.order ∧ e ≠ 0 ∧ s ≠ 0 ∧
      sig.val = (BigEndian.fixed 32 x).val ++ BigEndian.encode 32 s := by
  rw [signWith] at h
  cases hR : suite.curve.smul k.val suite.curve.base with
  | infinity => exact absurd hR (smul_base_ne_infinity hc k)
  | affine x y =>
      rw [hR, Point.affineCoordinates] at h
      dsimp only at h
      split_ifs at h with hzero
      rw [not_or] at hzero
      rw [Except.ok.injEq] at h
      exact ⟨x, y, _, _, rfl, rfl, rfl, hzero.1, hzero.2, (congrArg Subtype.val h).symm⟩

/-- A signature that is made, with any nonce, is valid for every byte string that is read as the public key. -/
theorem verify_of_signWith (hc : suite.curve.PrimeOrder) {key : suite.curve.Scalar} {msg : FixedBytes 32}
    {k : suite.curve.Scalar} {sig : FixedBytes 64} (h : signWith key msg k = .ok sig) {pubkey : Bytes}
    (hparse : suite.curve.parsePoint? pubkey = some (suite.curve.smul key.val suite.curve.base)) :
    verify suite sig msg pubkey = true := by
  have := hc.fact_prime
  obtain ⟨x, y, e, s, hR, he, hs, he0, hs0, hsig⟩ := exists_of_signWith hc h
  obtain ⟨G, hG, -⟩ := hc.exists_base
  rw [← hG, ← coordinates_nsmul hc.three_lt] at hR
  have hcontains := hc.contains_coordinates (k.val • G)
  rw [hR] at hcontains
  have hx := hc.decode_encode hcontains.1
  have hslt : s < suite.curve.order := hs ▸ Nat.mod_lt _ hc.order_prime.pos
  have hscalar : suite.curve.scalar? (BigEndian.decode (sig.val.drop 32)) =
      some ⟨s, Nat.pos_of_ne_zero hs0, hslt⟩ := by
    rw [hsig, List.drop_left' (BigEndian.fixed 32 x).property, BigEndian.decode_encode,
      Nat.mod_eq_of_lt (hslt.trans hc.order_lt), Curve.scalar?, dif_pos]
  have hnonce : nonceBytes sig = BigEndian.fixed 32 x := by
    apply Subtype.ext
    change sig.val.take 32 = _
    rw [hsig, List.take_left' (BigEndian.fixed 32 x).property]
  -- the point that verification computes is the multiple of the base point by the nonce
  have hpoint : suite.curve.add (suite.curve.smul s suite.curve.base)
      (suite.curve.neg (suite.curve.smul e (suite.curve.smul key.val suite.curve.base))) =
        suite.curve.coordinates (orientNonce suite k.val y • G) := by
    rw [← hG, ← coordinates_nsmul hc.three_lt, ← coordinates_nsmul hc.three_lt, ← coordinates_nsmul hc.three_lt,
      ← coordinates_neg, ← coordinates_add hc.two_lt, hs, hc.nsmul_mod, add_nsmul, mul_nsmul', add_neg_cancel_right]
  have hcompressed : (suite.curve.smul key.val suite.curve.base).compressed = Key.publicKey key := rfl
  have hverify : verifyPoint suite (nonceBytes sig) ⟨s, Nat.pos_of_ne_zero hs0, hslt⟩ msg
      (suite.curve.smul key.val suite.curve.base) = true := by
    rw [hnonce, verifyPoint, hcompressed, ← he, hpoint]
    simp only [BigEndian.fixed, hx, Bool.and_eq_true, decide_eq_true_eq, bne_iff_ne]
    exact ⟨⟨hcontains.1, he0⟩, isNoncePoint_orientNonce hc k.property.2.le hR⟩
  rw [verify, dif_pos sig.property, hparse, hscalar]
  exact hverify

/-- A signature that is made is valid. -/
theorem verify_of_sign (hc : suite.curve.PrimeOrder) {key : suite.curve.Scalar} {msg : FixedBytes 32}
    {sig : FixedBytes 64} (h : sign key msg = .ok sig) : verify suite sig msg (Key.publicKey key) = true := by
  obtain ⟨k, hk⟩ := exists_nonce_of_sign h
  exact verify_of_signWith hc hk (parsePoint_publicKey hc key)

/-- A signature that is made, with the derived nonce or with any other, is valid under both serialized forms of
the public key. -/
theorem verify_of_sign_encodings (hc : suite.curve.PrimeOrder) {key : suite.curve.Scalar} {msg : FixedBytes 32}
    {sig : FixedBytes 64} (h : sign key msg = .ok sig ∨ ∃ k, signWith key msg k = .ok sig) :
    verify suite sig msg (suite.curve.smul key.val suite.curve.base).compressed = true ∧
      verify suite sig msg (suite.curve.smul key.val suite.curve.base).uncompressed = true := by
  have := hc.fact_prime
  obtain ⟨k, hk⟩ : ∃ k, signWith key msg k = .ok sig := h.elim exists_nonce_of_sign id
  have hcontains := hc.contains_smul hc.contains_base key.val
  have hne := smul_base_ne_infinity hc key
  exact ⟨verify_of_signWith hc hk (hc.parsePoint_compressed hcontains hne),
    verify_of_signWith hc hk (hc.parsePoint_uncompressed hcontains hne)⟩

/-- A key whose bytes are all seven. -/
def sampleKey : Suite.standard.curve.Scalar :=
  ⟨0x0707070707070707070707070707070707070707070707070707070707070707, by decide⟩

def sampleMessage : FixedBytes 32 := ⟨List.replicate 32 0x42, rfl⟩

theorem verify_of_sign_encodings_sample :
    Suite.standard.curve.PrimeOrder ∧ ∃ sig, sign sampleKey sampleMessage = .ok sig ∧
      verify Suite.standard sig sampleMessage
        (Suite.standard.curve.smul sampleKey.val Suite.standard.curve.base).compressed = true ∧
      verify Suite.standard sig sampleMessage
        (Suite.standard.curve.smul sampleKey.val Suite.standard.curve.base).uncompressed = true := by
  have hc : Suite.standard.curve.PrimeOrder := primeOrder_secp256k1
  have hsome : (sign sampleKey sampleMessage).toOption.isSome := by decide +kernel
  cases hsign : sign sampleKey sampleMessage with
  | error e =>
      rw [hsign] at hsome
      cases hsome
  | ok sig => exact ⟨hc, sig, rfl, verify_of_sign_encodings hc (Or.inl hsign)⟩

/-! ## Signatures with a given nonce -/

/-- Under one public key and with one nonce, the scalars of two valid signatures are equal if and only if their
challenges are. So a signature that is valid for two messages has one challenge for both, and a message has no
second signature with the same nonce. -/
theorem scalar_eq_iff_challenge_eq (hc : suite.curve.PrimeOrder) {pubkey : Bytes} {p : Point}
    (hparse : suite.curve.parsePoint? pubkey = some p) {r : FixedBytes 32} {s s' : Bytes} {msg msg' : FixedBytes 32}
    (h : verify suite (r ++ s) msg pubkey = true) (h' : verify suite (r ++ s') msg' pubkey = true) :
    s = s' ↔ challenge suite r p.compressed msg = challenge suite r p.compressed msg' := by
  obtain ⟨p, k, hp, hlen, hk, hverify⟩ := exists_of_verify h
  cases hparse.symm.trans hp
  obtain ⟨p, k', hp', hlen', hk', hverify'⟩ := exists_of_verify h'
  cases hparse.symm.trans hp'
  obtain ⟨hcontains, hne⟩ := hc.contains_of_parsePoint hparse
  rw [← val_eq_iff_challenge_eq hc hcontains hne hverify hverify', ← hk, ← hk']
  constructor
  · rintro rfl
    rfl
  · intro hdecode
    have hs := BigEndian.encode_decode s
    rwa [hlen, hdecode, ← hlen', BigEndian.encode_decode, eq_comm] at hs

def secondMessage : FixedBytes 32 := ⟨List.replicate 32 0x43, rfl⟩

def reusedNonce : Suite.standard.curve.Scalar := ⟨5, by decide⟩

theorem scalar_eq_iff_challenge_eq_reused :
    ∃ (p : Point) (r : FixedBytes 32) (s s' : Bytes), Suite.standard.curve.PrimeOrder ∧
      Suite.standard.curve.parsePoint? p.uncompressed = some p ∧
      verify Suite.standard (r ++ s) sampleMessage p.uncompressed = true ∧
      verify Suite.standard (r ++ s') secondMessage p.uncompressed = true ∧ s ≠ s' ∧
      challenge Suite.standard r p.compressed sampleMessage ≠
        challenge Suite.standard r p.compressed secondMessage := by
  have hc : Suite.standard.curve.PrimeOrder := primeOrder_secp256k1
  have := hc.fact_prime
  have hparse := hc.parsePoint_uncompressed (hc.contains_smul hc.contains_base sampleKey.val)
    (smul_base_ne_infinity hc sampleKey)
  have hdiffer : (signWith sampleKey sampleMessage reusedNonce).toOption ≠
      (signWith sampleKey secondMessage reusedNonce).toOption := by decide +kernel
  obtain ⟨sig, hsign⟩ : ∃ sig, signWith sampleKey sampleMessage reusedNonce = .ok sig :=
    exists_eq_ok_of_isSome (by decide +kernel)
  obtain ⟨sig', hsign'⟩ : ∃ sig, signWith sampleKey secondMessage reusedNonce = .ok sig :=
    exists_eq_ok_of_isSome (by decide +kernel)
  have h := verify_of_signWith hc hsign hparse
  have h' := verify_of_signWith hc hsign' hparse
  obtain ⟨x, y, e, s, hR, -, -, -, -, hsig⟩ := exists_of_signWith hc hsign
  obtain ⟨x', y', e', s', hR', -, -, -, -, hsig'⟩ := exists_of_signWith hc hsign'
  cases hR.symm.trans hR'
  rw [hsign, hsign'] at hdiffer
  have hs : BigEndian.encode 32 s ≠ BigEndian.encode 32 s' := by
    intro heq
    rw [heq, ← hsig'] at hsig
    exact hdiffer (congrArg some (Subtype.ext hsig))
  rw [hsig] at h
  rw [hsig'] at h'
  exact ⟨_, _, _, _, hc, hparse, h, h', hs, mt (scalar_eq_iff_challenge_eq hc hparse h h').2 hs⟩

end ShareCovenant.Signature
