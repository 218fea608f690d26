import Mathlib
import ShareCovenant.Proofs.Bytes
import ShareCovenant.Address
import ShareCovenant.Transaction.Sighash

/-!
# Outpoints and outputs as bytes

A list of outpoints or outputs enters the preimage without its number. All outpoints have one size, so their
bytes give their number; the bytes of outputs with short locking scripts are those of no other list.
-/

namespace ShareCovenant

/-! ## Items without their number -/

/-- Items written one after the other determine the list if each can be cut off the front of what follows it. -/
theorem eq_of_flatMap_eq {α : Type} {write : α → Bytes} {as bs : List α} (hne : ∀ a, write a ≠ [])
    (hcut : ∀ a, ∀ b ∈ bs, ∀ x y, write a ++ x = write b ++ y → a = b ∧ x = y)
    (h : as.flatMap write = bs.flatMap write) : as = bs := by
  induction as generalizing bs with
  | nil =>
      cases bs with
      | nil => rfl
      | cons b bs => exact absurd (List.append_eq_nil_iff.1 h.symm).1 (hne b)
  | cons a as ih =>
      cases bs with
      | nil => exact absurd (List.append_eq_nil_iff.1 h).1 (hne a)
      | cons b bs =>
          obtain ⟨rfl, hrest⟩ := hcut a b List.mem_cons_self _ _ h
          rw [ih (fun a b hb => hcut a b (List.mem_cons_of_mem _ hb)) hrest]

theorem flatMap_injective_of_length {α : Type} {write : α → Bytes} {size : Nat}
    (hlen : ∀ a, (write a).length = size + 1) (hinj : Function.Injective write) :
    Function.Injective (List.flatMap write) := by
  intro as bs h
  refine eq_of_flatMap_eq (fun a hnil => ?_) (fun a b _ x y hab => ?_) h
  · have := hlen a
    rw [hnil] at this
    cases this
  · obtain ⟨hhead, htail⟩ := List.append_inj hab (by rw [hlen, hlen])
    exact ⟨hinj hhead, htail⟩

/-! ## Outpoints -/

namespace OutPoint

theorem length_bytes (o : OutPoint) : o.bytes.length = 36 := by
  simp [bytes, o.txid.property]

theorem length_listBytes (os : List OutPoint) : (listBytes os).length = 36 * os.length := by
  induction os with
  | nil => rfl
  | cons o os ih =>
      rw [listBytes, List.flatMap_cons, List.length_append, length_bytes, List.length_cons]
      rw [listBytes] at ih
      omega

theorem bytes_injective : Function.Injective bytes := by
  rintro ⟨txid, index⟩ ⟨txid', index'⟩ h
  obtain ⟨htxid, hindex⟩ := List.append_inj h (by rw [txid.property, txid'.property])
  cases Subtype.ext htxid
  cases LittleEndian.encode_uint32_injective hindex
  rfl

theorem listBytes_injective : Function.Injective listBytes :=
  flatMap_injective_of_length length_bytes bytes_injective

/-- The bytes of outpoints are those of one outpoint only if there is no other. -/
theorem listBytes_eq_bytes_iff (os : List OutPoint) (o : OutPoint) : listBytes os = o.bytes ↔ os = [o] := by
  rw [← listBytes_injective.eq_iff, listBytes, listBytes, List.flatMap_singleton]

end OutPoint

/-! ## Outputs -/

namespace CompactSize

theorem encode_of_short {n : Nat} (h : n < 0xfd) : encode n = [UInt8.ofNat n] := by
  rw [encode, if_pos h, LittleEndian.encode, LittleEndian.encode]

/-- The form of a length starts with the length itself or with a larger byte. -/
theorem exists_encode_eq_cons (n : Nat) :
    ∃ (tag : UInt8) (rest : Bytes), encode n = tag :: rest ∧
      (n < 0xfd ∧ tag.toNat = n ∧ rest = [] ∨ 0xfd ≤ n ∧ 0xfd ≤ tag.toNat) := by
  rcases Nat.lt_or_ge n 0xfd with h | h
  · exact ⟨_, _, encode_of_short h, Or.inl ⟨h, UInt8.toNat_ofNat_of_lt' (show n < 256 by omega), rfl⟩⟩
  · unfold encode
    rw [if_neg (by omega)]
    split_ifs
    all_goals exact ⟨_, _, rfl, Or.inr ⟨h, by decide⟩⟩

/-- Bytes after a short length are those of no other bytes. -/
theorem encodeBytes_append_inj {a b x y : Bytes} (hb : b.length < 0xfd)
    (h : encodeBytes a ++ x = encodeBytes b ++ y) : a = b ∧ x = y := by
  obtain ⟨tag, rest, htag, hcases⟩ := exists_encode_eq_cons a.length
  have hbyte : (UInt8.ofNat b.length).toNat = b.length :=
    UInt8.toNat_ofNat_of_lt' (show b.length < 256 by omega)
  rw [encodeBytes, encodeBytes, htag, encode_of_short hb] at h
  simp only [List.cons_append, List.nil_append, List.append_assoc, List.cons.injEq] at h
  obtain ⟨hhead, htail⟩ := h
  rcases hcases with ⟨-, ha, rfl⟩ | ⟨-, ha⟩
  · have hlen : a.length = b.length := by rw [← ha, hhead, hbyte]
    exact List.append_inj htail hlen
  · rw [hhead, hbyte] at ha
    omega

end CompactSize

namespace Output

theorem bytes_append_inj {o o' : Output} {x y : Bytes} (hshort : o'.lockingScript.length < 0xfd)
    (h : o.bytes ++ x = o'.bytes ++ y) : o = o' ∧ x = y := by
  obtain ⟨amount, script⟩ := o
  obtain ⟨amount', script'⟩ := o'
  simp only [bytes, List.append_assoc] at h
  obtain ⟨hamount, hrest⟩ := List.append_inj h (by simp)
  obtain ⟨rfl, rfl⟩ := CompactSize.encodeBytes_append_inj hshort hrest
  cases LittleEndian.encode_uint64_injective hamount
  exact ⟨rfl, rfl⟩

theorem listBytes_cons (o : Output) (os : List Output) : listBytes (o :: os) = o.bytes ++ listBytes os := rfl

theorem bytes_ne_nil (o : Output) : o.bytes ≠ [] := by
  intro h
  have := congrArg List.length h
  simp [bytes] at this

/-- The bytes of outputs with short scripts determine the outputs. -/
theorem eq_of_listBytes_eq {os os' : List Output} (hshort : ∀ o ∈ os', o.lockingScript.length < 0xfd)
    (h : listBytes os = listBytes os') : os = os' :=
  eq_of_flatMap_eq bytes_ne_nil (fun _ o' ho' _ _ => bytes_append_inj (hshort o' ho')) h

theorem length_bytes {o : Output} (h : o.lockingScript.length < 0xfd) :
    o.bytes.length = 9 + o.lockingScript.length := by
  rw [bytes, CompactSize.encodeBytes, CompactSize.encode_of_short h]
  simp only [List.length_append, List.length_cons, List.length_nil, LittleEndian.length_encode]
  omega

/-- Outputs with the scripts of addresses take at most 34 bytes each. -/
theorem length_listBytes_le {os : List Output} (h : ∀ o ∈ os, o.lockingScript.length ≤ 25) :
    (listBytes os).length ≤ 34 * os.length := by
  induction os with
  | nil => exact Nat.le_refl 0
  | cons o os ih =>
      obtain ⟨hscript, hscripts⟩ := List.forall_mem_cons.1 h
      have := ih hscripts
      rw [listBytes_cons, List.length_append, length_bytes (by omega), List.length_cons]
      omega

end Output

/-! ## Unlocking scripts -/

/-- What does not look at the unlocking script does not change with it. -/
theorem Transaction.map_inputs_setUnlockingScript {α : Type} (f : Input → α)
    (hf : ∀ (i : Input) (script : Bytes), f { i with unlockingScript := script } = f i) (tx : Transaction)
    (index : Nat) (script : Bytes) : (tx.setUnlockingScript index script).inputs.map f = tx.inputs.map f := by
  apply List.ext_getElem?
  intro j
  simp only [setUnlockingScript, List.getElem?_map, List.getElem?_modify]
  cases tx.inputs[j]? with
  | none => rfl
  | some i =>
      by_cases h : index = j
      · simp [h, hf]
      · simp [h]

theorem Transaction.length_inputs_setUnlockingScript (tx : Transaction) (index : Nat) (script : Bytes) :
    (tx.setUnlockingScript index script).inputs.length = tx.inputs.length :=
  List.length_modify ..

theorem Transaction.getElem?_setUnlockingScript {tx : Transaction} {index : Nat} {input : Input}
    (h : tx.inputs[index]? = some input) (script : Bytes) :
    (tx.setUnlockingScript index script).inputs[index]? = some { input with unlockingScript := script } := by
  simp [setUnlockingScript, h]

theorem Transaction.outpoints_setUnlockingScript (tx : Transaction) (index : Nat) (script : Bytes) :
    (tx.setUnlockingScript index script).outpoints = tx.outpoints :=
  map_inputs_setUnlockingScript _ (fun _ _ => rfl) tx index script

namespace Preimage

theorem sequenceBytes_setUnlockingScript (tx : Transaction) (index : Nat) (script : Bytes) :
    sequenceBytes (tx.setUnlockingScript index script) = sequenceBytes tx := by
  have h := Transaction.map_inputs_setUnlockingScript
    (fun i => LittleEndian.encode 4 i.sequence.toNat) (fun _ _ => rfl) tx index script
  simpa [sequenceBytes, List.flatMap_def] using congrArg List.flatten h

/-- Unlocking scripts are no part of a preimage. -/
theorem ofInput_setUnlockingScript (suite : Suite) (tx : Transaction) (index : Nat) (input : Input)
    (script script' scriptCode : Bytes) (value : UInt64) (type : UInt32) :
    ofInput suite (tx.setUnlockingScript index script) { input with unlockingScript := script' } scriptCode
      value type = ofInput suite tx input scriptCode value type := by
  simp only [ofInput, Transaction.outpoints_setUnlockingScript, sequenceBytes_setUnlockingScript]
  rfl

end Preimage

/-! ## Preimages -/

namespace Preimage

/-- The fragments of a preimage have their sizes, but for the script. -/
theorem map_length_fragments (p : Preimage) :
    p.fragments.map List.length = [4, 32, 32, 36, (CompactSize.encodeBytes p.scriptCode).length, 8, 4, 32, 8] := by
  simp [fragments, p.hashPrevouts.property, p.hashSequence.property, p.hashOutputs.property, OutPoint.length_bytes]

theorem length_bytes (p : Preimage) :
    p.bytes.length = 4 + 32 + 32 + 36 + (CompactSize.encodeBytes p.scriptCode).length + 8 + 4 + 32 + 8 := by
  rw [bytes, List.length_flatten, map_length_fragments]
  simp only [List.sum_cons, List.sum_nil]
  omega

/-- Byte strings that spell a preimage are its fragments if all but the script have the sizes of theirs: what is
left over is the size of the script. -/
theorem eq_fragments_of_flatten_eq {p : Preimage} {pieces : List Bytes} {size : Nat}
    (hsizes : pieces.map List.length = [4, 32, 32, 36, size, 8, 4, 32, 8]) (h : pieces.flatten = p.bytes) :
    pieces = p.fragments := by
  have hsize : size = (CompactSize.encodeBytes p.scriptCode).length := by
    have hlen := congrArg List.length h
    rw [List.length_flatten, hsizes, length_bytes] at hlen
    simp only [List.sum_cons, List.sum_nil] at hlen
    omega
  refine List.eq_iff_flatten_eq.2 ⟨h, ?_⟩
  rw [hsizes, map_length_fragments, hsize]

end Preimage

/-- A length of two bytes stands after a tag. -/
theorem CompactSize.encode_of_medium {n : Nat} (h : 0xfd ≤ n) (h' : n < 0x10000) :
    encode n = 0xfd :: LittleEndian.encode 2 n := by
  rw [encode, if_neg (by omega), if_pos h']

/-! ## Locking scripts -/

theorem Address.length_lockingScript (a : Address) :
    a.lockingScript.length = 23 ∨ a.lockingScript.length = 25 := by
  unfold lockingScript
  cases a.kind with
  | pubkeyHash => simp [pubkeyHashLock, a.hash.property]
  | scriptHash => simp [scriptHashLock, a.hash.property]

theorem length_scriptHashLock (hash : FixedBytes 20) : (scriptHashLock hash).length = 23 := by
  simp [scriptHashLock, hash.property]

end ShareCovenant
