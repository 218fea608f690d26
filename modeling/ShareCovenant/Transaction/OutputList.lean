import ShareCovenant.Transaction

/-!
# Lists of outputs

Outputs stand one after the other without a number, as they enter the signed digest. Each output says where
it ends, so the list is read output by output until nothing is left.
-/

namespace ShareCovenant

namespace Reader

/-- A reader that takes at least `n` bytes whenever it succeeds. -/
def Consumes {α : Type} (n : Nat) (r : Reader α) : Prop :=
  ∀ bytes a rest, r bytes = .ok (a, rest) → rest.length + n ≤ bytes.length

theorem consumes_take (n : Nat) : Consumes n (take n) := by
  intro bytes a rest h
  have := length_of_take h
  simp [this.2, this.1, Nat.add_comm]

theorem Consumes.mono {α : Type} {m n : Nat} {r : Reader α} (h : Consumes n r) (hmn : m ≤ n) :
    Consumes m r := by
  intro bytes a rest hr
  have := h bytes a rest hr
  omega

theorem consumes_pure {α : Type} (a : α) : Consumes 0 (pure a : Reader α) := by
  intro bytes b rest h
  cases h
  simp

theorem consumes_throw {α : Type} (n : Nat) (e : DecodeError) : Consumes n (throw e : Reader α) := by
  intro bytes b rest h
  cases h

theorem Consumes.bind {α β : Type} {m n : Nat} {r : Reader α} {f : α → Reader β} (hr : Consumes m r)
    (hf : ∀ a, Consumes n (f a)) : Consumes (m + n) (r >>= f) := by
  intro bytes b rest h
  change (r bytes >>= fun p => f p.1 p.2) = _ at h
  cases hrb : r bytes with
  | error e => rw [hrb] at h; cases h
  | ok p =>
      rw [hrb] at h
      have h1 := hr bytes p.1 p.2 hrb
      have h2 := hf p.1 p.2 b rest h
      omega

theorem consumes_number (width : Nat) : Consumes width (number width) :=
  (consumes_take width).bind fun _ => consumes_pure _

end Reader

namespace CompactSize

theorem consumes_readAtLeast (least width : Nat) : Reader.Consumes 0 (readAtLeast least width) := by
  refine Reader.Consumes.mono ((Reader.consumes_number width).bind (n := 0) fun n => ?_) (by omega)
  dsimp only
  split
  · exact (Reader.consumes_throw 0 _).bind fun _ => Reader.consumes_pure _
  · exact Reader.consumes_pure _

theorem consumes_read : Reader.Consumes 1 read := by
  refine (Reader.consumes_number 1).bind (n := 0) fun tag => ?_
  split
  · exact consumes_readAtLeast _ _
  · split
    · exact consumes_readAtLeast _ _
    · split
      · exact consumes_readAtLeast _ _
      · exact Reader.consumes_pure _

theorem consumes_readBytes : Reader.Consumes 1 readBytes :=
  consumes_read.bind fun n => (Reader.consumes_take n).mono (Nat.zero_le n)

end CompactSize

namespace Output

theorem consumes_read : Reader.Consumes 9 read :=
  (Reader.consumes_number 8).bind fun _ =>
    CompactSize.consumes_readBytes.bind fun _ => Reader.consumes_pure _

/-- Reads outputs until the input is used up. -/
def readAll (bytes : Bytes) : Except DecodeError (List Output) :=
  if bytes.isEmpty then .ok []
  else
    match h : read bytes with
    | .error e => .error e
    | .ok (output, rest) =>
        have : rest.length < bytes.length := by
          have := consumes_read bytes output rest h
          omega
        (readAll rest).map (output :: ·)
termination_by bytes.length

end Output

end ShareCovenant
