import ShareCovenant.Signature.Nonce

/-!
# Schnorr signatures

A signature of a 32-byte message is `r ‖ s`: the `x` of the nonce point `R`, whose `y` is a quadratic
residue, and `s = k + e·x` for the challenge `e`, which commits to `r`, the compressed public key and the
message. It is valid if `s·G − e·P` is a point with that `x` and a residue `y`.
-/

namespace ShareCovenant.Signature

variable (suite : Suite)

/-- The challenge for a nonce point, a compressed public key and a message. -/
def challenge (r : FixedBytes 32) (pubkey : FixedBytes 33) (msg : FixedBytes 32) : Nat :=
  BigEndian.decode (suite.sha256 (r ++ pubkey ++ msg)) % suite.curve.order

/-- The nonce or its negative, whichever has a nonce point with a residue `y`. -/
def orientNonce (k y : Nat) : Nat :=
  if suite.curve.isResidue y then k else suite.curve.order - k

variable {suite} in
/-- Signs a message with a nonce. -/
def signWith (key : suite.curve.Scalar) (msg : FixedBytes 32) (k : suite.curve.Scalar) :
    Except KeyError (FixedBytes 64) :=
  let (x, y) := (suite.curve.smul k.val suite.curve.base).affineCoordinates
  let r := BigEndian.fixed 32 x
  let e := challenge suite r (Key.publicKey key) msg
  let s := (orientNonce suite k.val y + e * key.val) % suite.curve.order
  if e = 0 ∨ s = 0 then .error .badTweak
  else .ok ⟨r ++ BigEndian.encode 32 s, by simp [r.property]⟩

variable {suite} in
/-- Signs a message. -/
def sign (key : suite.curve.Scalar) (msg : FixedBytes 32) : Except KeyError (FixedBytes 64) :=
  signWith key msg (Nonce.derive key msg)

/-- Whether a point is the nonce point that `r` names. -/
def isNoncePoint (r : Nat) : Point → Bool
  | .infinity => false
  | .affine x y => x == r && suite.curve.isResidue y

/-- Whether `r ‖ s` is a signature of the message under a point. -/
def verifyPoint (r : FixedBytes 32) (s : suite.curve.Scalar) (msg : FixedBytes 32) (p : Point) : Bool :=
  let c := suite.curve
  let e := challenge suite r p.compressed msg
  BigEndian.decode r < c.fieldPrime && e != 0 &&
    isNoncePoint suite (BigEndian.decode r) (c.add (c.smul s.val c.base) (c.neg (c.smul e p)))

/-- Whether a byte string is a signature of the message under a serialized public key. -/
def verify (sig : Bytes) (msg : FixedBytes 32) (pubkey : Bytes) : Bool :=
  if h : sig.length = 64 then
    match suite.curve.parsePoint? pubkey, suite.curve.scalar? (BigEndian.decode (sig.drop 32)) with
    | some p, some s => verifyPoint suite ⟨sig.take 32, by simp [h]⟩ s msg p
    | _, _ => false
  else false

end ShareCovenant.Signature
