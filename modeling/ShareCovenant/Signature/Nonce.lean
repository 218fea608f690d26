import ShareCovenant.Key

/-!
# Deterministic nonces

The nonce of a signature is drawn from a keyed hash generator seeded with the key, the message and the
name of the scheme (RFC 6979), so the same key and message are always signed alike. The first candidate in
range is taken, however many are refused before it.
-/

namespace ShareCovenant.Nonce

variable (suite : Suite)

/-- The generator's key, and its value, which is the candidate. -/
structure Generator where
  key : FixedBytes 32
  value : FixedBytes 32

/-- The name of the scheme, sixteen bytes. -/
def schemeName : Bytes := Text.utf8 "Schnorr+SHA256  "

namespace Generator

/-- Draws the next value. -/
def step (g : Generator) : Generator := { g with value := suite.hmac g.key g.value }

/-- Rekeys the generator with a marker byte and further data, and steps it. -/
def rekey (g : Generator) (marker : UInt8) (data : Bytes) : Generator :=
  step suite { g with key := suite.hmac g.key (g.value ++ marker :: data) }

/-- The generator for a key and a message. -/
def seed (key : Bytes) (msg : FixedBytes 32) : Generator :=
  let data := key ++ msg ++ schemeName
  let start : Generator := { key := FixedBytes.zero 32, value := ⟨List.replicate 32 1, rfl⟩ }
  (start.rekey suite 0 data).rekey suite 1 data

/-- Draws the next candidate after one that is refused. -/
def retry (g : Generator) : Generator := (g.rekey suite 0 []).step suite

end Generator

/-- The candidate, if it is in range, or else the generator of the next one. -/
def Generator.attempt (g : Generator) : Generator ⊕ suite.curve.Scalar :=
  match Key.ofBytes? suite g.value with
  | some k => .inr k
  | none => .inl (g.retry suite)

variable {suite}

/-- The first candidate in range, from the one of the generator on. There is no bound on how many are refused.
The key serves only to show that scalars exist, as a search that does not end has some scalar for its result. -/
def search (key : suite.curve.Scalar) (g : Generator) : suite.curve.Scalar :=
  haveI : Nonempty suite.curve.Scalar := ⟨key⟩
  Id.run (repeatM (m := Id) (Generator.attempt suite) g)

/-- The first candidate for a key and a message. -/
def first (key : suite.curve.Scalar) (msg : FixedBytes 32) : Generator :=
  (Generator.seed suite (Key.bytes key) msg).step suite

/-- The nonce for a key and a message. The first candidate is tried before the search, as it is in range but for
one case in 2¹²⁷; where it is, the nonce computes without the search. -/
def derive (key : suite.curve.Scalar) (msg : FixedBytes 32) : suite.curve.Scalar :=
  match (first key msg).attempt suite with
  | .inr k => k
  | .inl g => search key g

theorem search_eq (key : suite.curve.Scalar) (g : Generator) :
    search key g = match g.attempt suite with
      | .inr k => k
      | .inl g => search key g := by
  have : Nonempty suite.curve.Scalar := ⟨key⟩
  rw [search, Id.run, repeatM_eq_of_monadTail, repeatM.body]
  cases g.attempt suite with
  | inl g => rfl
  | inr k => rfl

theorem derive_eq_search (key : suite.curve.Scalar) (msg : FixedBytes 32) :
    derive key msg = search key (first key msg) :=
  (search_eq key (first key msg)).symm

end ShareCovenant.Nonce
