import Mathlib
import ShareCovenant.Proofs.Except
import ShareCovenant.Proofs.Transaction
import ShareCovenant.Transaction.OutputList

/-!
# Reading back what was written

Each reader takes the written form of a value off the front of its input and nothing else, so it succeeds on
the written form of a value, whatever follows, and on no other bytes. A length is written in a single form, and
an output ends where its script does. So a list of outputs is read back from the bytes of its outputs, although
nothing marks where one ends, and from no other bytes.
-/

namespace ShareCovenant

/-! ## Readers -/

namespace Reader

variable {α β : Type} {bytes rest : Bytes}

theorem bind_eq_ok_iff {r : Reader α} {f : α → Reader β} {b : β} :
    (r >>= f) bytes = .ok (b, rest) ↔ ∃ a mid, r bytes = .ok (a, mid) ∧ f a mid = .ok (b, rest) := by
  change (r bytes >>= fun p => f p.1 p.2) = _ ↔ _
  rw [ShareCovenant.bind_eq_ok_iff]
  exact Prod.exists

theorem take_eq_ok_iff {n : Nat} {field : Bytes} :
    take n bytes = .ok (field, rest) ↔ field.length = n ∧ bytes = field ++ rest := by
  refine ⟨length_of_take, ?_⟩
  rintro ⟨rfl, rfl⟩
  exact take_append field rest

theorem number_eq_ok_iff {width n : Nat} :
    number width bytes = .ok (n, rest) ↔ n < 256 ^ width ∧ bytes = LittleEndian.encode width n ++ rest := by
  constructor
  · intro h
    obtain ⟨field, mid, htake, hpure⟩ := bind_eq_ok_iff.1 h
    cases hpure
    obtain ⟨hlen, rfl⟩ := take_eq_ok_iff.1 htake
    rw [← LittleEndian.eq_encode_of_length hlen, ← hlen]
    exact ⟨LittleEndian.decode_lt field, rfl⟩
  · rintro ⟨hn, rfl⟩
    refine bind_eq_ok_iff.2 ⟨_, rest, take_eq_ok_iff.2 ⟨LittleEndian.length_encode width n, rfl⟩, ?_⟩
    rw [LittleEndian.decode_encode_of_lt hn]
    rfl

end Reader

/-! ## Lengths -/

namespace CompactSize

variable {bytes rest : Bytes}

theorem readAtLeast_eq_ok_iff {least width n : Nat} :
    readAtLeast least width bytes = .ok (n, rest) ↔
      least ≤ n ∧ n < 256 ^ width ∧ bytes = LittleEndian.encode width n ++ rest := by
  rw [readAtLeast, Reader.bind_eq_ok_iff]
  constructor
  · rintro ⟨m, mid, hnumber, h⟩
    dsimp only at h
    split_ifs at h with hleast
    · cases h
    · cases h
      exact ⟨not_lt.1 hleast, Reader.number_eq_ok_iff.1 hnumber⟩
  · rintro ⟨hleast, hnumber⟩
    refine ⟨n, rest, Reader.number_eq_ok_iff.2 hnumber, ?_⟩
    rw [if_neg (not_lt.2 hleast)]
    rfl

/-- The first byte is the length itself or says how many bytes hold it. -/
theorem read_cons (tag : UInt8) (bytes : Bytes) :
    read (tag :: bytes) =
      if tag.toNat = 0xfd then readAtLeast 0xfd 2 bytes
      else if tag.toNat = 0xfe then readAtLeast 0x10000 4 bytes
      else if tag.toNat = 0xff then readAtLeast 0x100000000 8 bytes
      else .ok (tag.toNat, bytes) := by
  have hnumber : Reader.number 1 (tag :: bytes) = .ok (tag.toNat, bytes) := by
    refine Reader.number_eq_ok_iff.2 ⟨tag.toNat_lt, ?_⟩
    rw [LittleEndian.encode, LittleEndian.encode, UInt8.ofNat_toNat]
    rfl
  change (Reader.number 1 (tag :: bytes) >>= fun p => _) = _
  rw [hnumber]
  dsimp only [bind, Except.bind]
  split_ifs <;> rfl

theorem read_eq_ok_iff {n : Nat} : read bytes = .ok (n, rest) ↔ n < 2 ^ 64 ∧ bytes = encode n ++ rest := by
  constructor
  · intro h
    cases bytes with
    | nil => cases h
    | cons tag bytes =>
        have htag := tag.toNat_lt
        rw [read_cons] at h
        split_ifs at h with h1 h2 h3
        · obtain ⟨hleast, hlt, rfl⟩ := readAtLeast_eq_ok_iff.1 h
          obtain rfl : tag = 0xfd := UInt8.toNat_inj.1 h1
          rw [encode_of_medium hleast hlt]
          exact ⟨by omega, rfl⟩
        · obtain ⟨hleast, hlt, rfl⟩ := readAtLeast_eq_ok_iff.1 h
          obtain rfl : tag = 0xfe := UInt8.toNat_inj.1 h2
          rw [encode, if_neg (by omega), if_neg (by omega), if_pos (by omega)]
          exact ⟨by omega, rfl⟩
        · obtain ⟨hleast, hlt, rfl⟩ := readAtLeast_eq_ok_iff.1 h
          obtain rfl : tag = 0xff := UInt8.toNat_inj.1 h3
          rw [encode, if_neg (by omega), if_neg (by omega), if_neg (by omega)]
          exact ⟨by omega, rfl⟩
        · cases h
          refine ⟨by omega, ?_⟩
          rw [encode_of_short (by omega), UInt8.ofNat_toNat]
          rfl
  · rintro ⟨hn, rfl⟩
    unfold encode
    split_ifs with h1 h2 h3
    · have hbyte : (UInt8.ofNat n).toNat = n := UInt8.toNat_ofNat_of_lt' (show n < 256 by omega)
      rw [LittleEndian.encode, LittleEndian.encode, List.cons_append, read_cons, hbyte, if_neg (by omega),
        if_neg (by omega), if_neg (by omega)]
      rfl
    · rw [List.cons_append, read_cons, if_pos (by decide), readAtLeast_eq_ok_iff]
      exact ⟨by omega, by omega, rfl⟩
    · rw [List.cons_append, read_cons, if_neg (by decide), if_pos (by decide), readAtLeast_eq_ok_iff]
      exact ⟨by omega, by omega, rfl⟩
    · rw [List.cons_append, read_cons, if_neg (by decide), if_neg (by decide), if_pos (by decide),
        readAtLeast_eq_ok_iff]
      exact ⟨by omega, by omega, rfl⟩

theorem readBytes_eq_ok_iff {field : Bytes} :
    readBytes bytes = .ok (field, rest) ↔ field.length < 2 ^ 64 ∧ bytes = encodeBytes field ++ rest := by
  rw [readBytes, Reader.bind_eq_ok_iff]
  constructor
  · rintro ⟨n, mid, hread, htake⟩
    obtain ⟨hn, rfl⟩ := read_eq_ok_iff.1 hread
    obtain ⟨rfl, rfl⟩ := Reader.take_eq_ok_iff.1 htake
    rw [encodeBytes, List.append_assoc]
    exact ⟨hn, rfl⟩
  · rintro ⟨hn, rfl⟩
    rw [encodeBytes, List.append_assoc]
    exact ⟨field.length, field ++ rest, read_eq_ok_iff.2 ⟨hn, rfl⟩, Reader.take_eq_ok_iff.2 ⟨rfl, rfl⟩⟩

end CompactSize

/-! ## Outputs -/

namespace Output

variable {bytes rest : Bytes}

theorem read_eq_ok_iff {o : Output} :
    read bytes = .ok (o, rest) ↔ o.lockingScript.length < 2 ^ 64 ∧ bytes = o.bytes ++ rest := by
  rw [read, Reader.bind_eq_ok_iff]
  constructor
  · rintro ⟨amount, mid, hamount, h⟩
    obtain ⟨script, mid', hscript, hpure⟩ := Reader.bind_eq_ok_iff.1 h
    cases hpure
    obtain ⟨hlt, rfl⟩ := Reader.number_eq_ok_iff.1 hamount
    obtain ⟨hlen, rfl⟩ := CompactSize.readBytes_eq_ok_iff.1 hscript
    refine ⟨hlen, ?_⟩
    rw [Output.bytes, List.append_assoc, UInt64.toNat_ofNat', Nat.mod_eq_of_lt (b := 2 ^ 64) hlt]
  · rintro ⟨hlen, rfl⟩
    obtain ⟨amount, script⟩ := o
    refine ⟨amount.toNat, CompactSize.encodeBytes script ++ rest, ?_, ?_⟩
    · rw [Output.bytes, List.append_assoc]
      exact Reader.number_eq_ok_iff.2 ⟨amount.toNat_lt, rfl⟩
    · refine Reader.bind_eq_ok_iff.2 ⟨script, rest, CompactSize.readBytes_eq_ok_iff.2 ⟨hlen, rfl⟩, ?_⟩
      rw [UInt64.ofNat_toNat]
      rfl

theorem readAll_nil : readAll [] = .ok [] := by
  rw [readAll]
  rfl

theorem readAll_of_ne_nil (h : bytes ≠ []) :
    readAll bytes = read bytes >>= fun p => (readAll p.2).map (p.1 :: ·) := by
  rw [readAll, if_neg (by simpa using h)]
  split <;> simp_all [bind, Except.bind]

theorem readAll_eq_ok_nil_iff : readAll bytes = .ok [] ↔ bytes = [] := by
  constructor
  · intro h
    by_contra hne
    rw [readAll_of_ne_nil hne, ShareCovenant.bind_eq_ok_iff] at h
    obtain ⟨p, -, hmap⟩ := h
    obtain ⟨os, -, hcons⟩ := map_eq_ok_iff.1 hmap
    cases hcons
  · rintro rfl
    exact readAll_nil

theorem readAll_eq_ok_cons_iff {o : Output} {os : List Output} :
    readAll bytes = .ok (o :: os) ↔ ∃ rest, read bytes = .ok (o, rest) ∧ readAll rest = .ok os := by
  rcases eq_or_ne bytes [] with rfl | hne
  · rw [readAll_nil]
    constructor
    · intro h
      cases h
    · rintro ⟨rest, hread, -⟩
      cases hread
  · rw [readAll_of_ne_nil hne, ShareCovenant.bind_eq_ok_iff]
    constructor
    · rintro ⟨⟨o', rest⟩, hread, hmap⟩
      obtain ⟨os', hrest, hcons⟩ := map_eq_ok_iff.1 hmap
      cases hcons
      exact ⟨rest, hread, hrest⟩
    · rintro ⟨rest, hread, hrest⟩
      exact ⟨(o, rest), hread, map_eq_ok_iff.2 ⟨os, hrest, rfl⟩⟩

/-- The outputs of a list are read from their bytes and from no other bytes, if eight bytes hold the lengths of
their scripts. -/
theorem readAll_eq_ok_iff {os : List Output} :
    readAll bytes = .ok os ↔ (∀ o ∈ os, o.lockingScript.length < 2 ^ 64) ∧ bytes = listBytes os := by
  -- over the outputs rather than over the bytes, which are read in portions of any size
  induction os generalizing bytes with
  | nil =>
      rw [readAll_eq_ok_nil_iff]
      simp [listBytes]
  | cons o os ih =>
      rw [readAll_eq_ok_cons_iff, List.forall_mem_cons, listBytes_cons]
      constructor
      · rintro ⟨rest, hread, hrest⟩
        obtain ⟨hlen, rfl⟩ := read_eq_ok_iff.1 hread
        obtain ⟨hlens, rfl⟩ := ih.1 hrest
        exact ⟨⟨hlen, hlens⟩, rfl⟩
      · rintro ⟨⟨hlen, hlens⟩, rfl⟩
        exact ⟨listBytes os, read_eq_ok_iff.2 ⟨hlen, rfl⟩, ih.2 ⟨hlens, rfl⟩⟩

theorem listBytes_injOn : Set.InjOn listBytes {os | ∀ o ∈ os, o.lockingScript.length < 2 ^ 64} := by
  intro os hos os' hos' h
  have hread : readAll (listBytes os) = .ok os := readAll_eq_ok_iff.2 ⟨hos, rfl⟩
  have hread' : readAll (listBytes os) = .ok os' := readAll_eq_ok_iff.2 ⟨hos', h⟩
  exact Except.ok.inj (hread.symm.trans hread')

/-- Lists of outputs and byte strings correspond one to one: a list is read from its own bytes, and what is read
has the bytes that it was read from. The form of a length holds those below `2 ^ 64`, so a list with a longer
script is not read back. -/
theorem readAll_listBytes_and_injOn :
    (∀ os : List Output, readAll (listBytes os) = .ok os ↔ ∀ o ∈ os, o.lockingScript.length < 2 ^ 64) ∧
      (∀ (bytes : Bytes) (os : List Output), readAll bytes = .ok os → listBytes os = bytes) ∧
      Set.InjOn listBytes {os | ∀ o ∈ os, o.lockingScript.length < 2 ^ 64} := by
  refine ⟨fun os => ?_, fun bytes os h => (readAll_eq_ok_iff.1 h).2.symm, listBytes_injOn⟩
  rw [readAll_eq_ok_iff]
  exact and_iff_left rfl

/-- An output whose script has a length in a longer form than needed is refused. -/
example : readAll (LittleEndian.encode 8 0 ++ [0xfd, 1, 0, 0x6a]) = .error .nonMinimalSize := by
  decide +kernel

end Output

end ShareCovenant
