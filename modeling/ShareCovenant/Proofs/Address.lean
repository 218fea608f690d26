import Mathlib
import ShareCovenant.Address
import ShareCovenant.Proofs.Address.Checksum
import ShareCovenant.Proofs.Address.Symbol
import ShareCovenant.Proofs.Bytes
import ShareCovenant.Proofs.Except
import ShareCovenant.Proofs.Text

/-!
# Spellings of addresses

A text is read as an address if and only if it does not mix cases and its spelling, in lower case and with the
network if it names none, is the text of that address. So what is written is read back, and no address has a
second spelling. A text that differs from an address within eight characters of the payload is no address.
-/

namespace ShareCovenant.Address

/-- The text in lower case, with the network before it if it has no human-readable part. -/
def spelling (text : String) : String :=
  let lower := String.ofList (lowered text.toList)
  if ':' ∈ text.toList then lower else networkHrp ++ ":" ++ lower

/-- The version byte and the hash as symbols. -/
def data (a : Address) : List Symbol := Symbol.ofBytes (versionByte a.kind :: a.hash)

/-- The symbols of an address, with the checksum. -/
def payload (a : Address) : List Symbol := a.data ++ Checksum.make a.hrp a.data

theorem toList_encode (a : Address) :
    a.encode.toList = a.hrp.toList ++ ':' :: a.payload.map Symbol.toChar := by
  simp [encode, payload, data]

/-! ## Payloads -/

theorem kindOf?_eq_some_iff {version : UInt8} {kind : AddressKind} :
    kindOf? version = some kind ↔ version = versionByte kind := by
  rw [kindOf?]
  split_ifs with hpubkey hscript <;> cases kind <;> simp_all [versionByte]

theorem ofData_eq_ok_iff {hrp : String} {symbols : List Symbol} {a : Address} :
    ofData hrp symbols = .ok a ↔ a.hrp = hrp ∧ symbols = a.data := by
  rw [data, ← Symbol.toBytes?_eq_some_iff]
  constructor
  · intro h
    unfold ofData at h
    split at h
    · cases h
    · cases h
    · rename_i version bytes hbytes
      split at h
      · cases h
      · rename_i hash hhash
        split at h
        · cases h
        · rename_i kind hkind
          cases h
          rw [hbytes, kindOf?_eq_some_iff.1 hkind, FixedBytes.ofBytes?_eq_some_iff.1 hhash]
          exact ⟨rfl, rfl⟩
  · rintro ⟨rfl, hbytes⟩
    have hhash : FixedBytes.ofBytes? 20 a.hash.val = some a.hash := FixedBytes.ofBytes?_eq_some_iff.2 rfl
    have hkind : kindOf? (versionByte a.kind) = some a.kind := kindOf?_eq_some_iff.2 rfl
    simp only [ofData, hbytes, hhash, hkind]

theorem data_ne_nil (a : Address) : a.data ≠ [] := by
  intro h
  have hbytes := Symbol.toBytes?_eq_some_iff.2 h.symm
  cases hbytes

theorem checksumLength_lt_length_payload (a : Address) : checksumLength < a.payload.length := by
  have hdata := List.length_pos_iff.2 a.data_ne_nil
  rw [payload, List.length_append, Checksum.length_make, checksumLength]
  omega

theorem isValid_payload (a : Address) : Checksum.isValid a.hrp a.payload = true :=
  (Checksum.isValid_append_iff _ _ (Checksum.length_make _ _)).2 rfl

theorem ofSymbols_eq_ok_iff {hrp : String} {symbols : List Symbol} {a : Address} :
    ofSymbols hrp symbols = .ok a ↔ a.hrp = hrp ∧ symbols = a.payload := by
  rw [ofSymbols]
  split_ifs with hshort hvalid
  · simp only [false_iff, not_and]
    rintro - rfl
    exact absurd hshort a.checksumLength_lt_length_payload.not_ge
  · have hsplit := List.take_append_drop (symbols.length - checksumLength) symbols
    have hlen : (symbols.drop (symbols.length - checksumLength)).length = 8 := by
      rw [List.length_drop]
      exact Nat.sub_sub_self (not_le.1 hshort).le
    rw [← hsplit, Checksum.isValid_append_iff _ _ hlen] at hvalid
    rw [ofData_eq_ok_iff]
    constructor
    · rintro ⟨rfl, hdata⟩
      rw [payload, ← hdata, ← hvalid, hsplit]
      exact ⟨rfl, rfl⟩
    · rintro ⟨rfl, rfl⟩
      simp [payload, Checksum.length_make, checksumLength]
  · simp only [false_iff, not_and]
    rintro rfl rfl
    exact hvalid a.isValid_payload

/-! ## Texts -/

theorem toLower_eq_colon_iff {c : Char} : c.toLower = ':' ↔ c = ':' := by
  by_cases hc : c.isUpper
  · have hlower := Char.isLower_toLower_eq_isAlpha c
    constructor
    · intro h
      rw [h, Char.isAlpha, hc] at hlower
      cases hlower
    · rintro rfl
      rfl
  · rw [Char.toLower_eq_of_not_isUpper hc]

theorem colon_mem_lowered_iff {cs : List Char} : ':' ∈ lowered cs ↔ ':' ∈ cs := by
  simp [lowered, toLower_eq_colon_iff]

theorem parts_append {hrp rest : List Char} (h : ':' ∉ rest) : parts (hrp ++ ':' :: rest) = (hrp, rest) := by
  rw [parts, Text.cutLast?_append h]
  rfl

theorem parts_of_not_mem {text : List Char} (h : ':' ∉ text) : parts text = (networkHrp.toList, text) := by
  rw [parts, Text.cutLast?_eq_none_iff.2 h]
  rfl

theorem colon_cases (text : List Char) :
    (∃ hrp rest, text = hrp ++ ':' :: rest ∧ ':' ∉ rest) ∨ ':' ∉ text := by
  cases hcut : Text.cutLast? ':' text with
  | none => exact Or.inr (Text.cutLast?_eq_none_iff.1 hcut)
  | some halves => exact Or.inl ⟨_, _, Text.eq_append_of_cutLast? hcut⟩

theorem colon_not_mem_parts (text : List Char) : ':' ∉ (parts text).2 := by
  rcases colon_cases text with ⟨hrp, rest, rfl, hrest⟩ | hcolon
  · rwa [parts_append hrest]
  · rwa [parts_of_not_mem hcolon]

theorem mem_of_mem_parts {text : List Char} {c : Char} (h : c ∈ (parts text).2) : c ∈ text := by
  rcases colon_cases text with ⟨hrp, rest, rfl, hrest⟩ | hcolon
  · rw [parts_append hrest] at h
    exact List.mem_append_right _ (List.mem_cons_of_mem _ h)
  · rwa [parts_of_not_mem hcolon] at h

theorem lowered_append (cs ds : List Char) : lowered (cs ++ ds) = lowered cs ++ lowered ds := List.map_append

theorem lowered_cons_colon (cs : List Char) : lowered (':' :: cs) = ':' :: lowered cs := rfl

theorem toList_spelling (text : String) :
    (spelling text).toList = lowered (parts text.toList).1 ++ ':' :: lowered (parts text.toList).2 := by
  rcases colon_cases text.toList with ⟨hrp, rest, htext, hrest⟩ | hcolon
  · have hcolon : ':' ∈ text.toList := by simp [htext]
    rw [spelling, if_pos hcolon, String.toList_ofList, htext, parts_append hrest, lowered_append, lowered_cons_colon]
  · have hnetwork : lowered networkHrp.toList = networkHrp.toList := by decide
    simp [spelling, hcolon, parts_of_not_mem hcolon, hnetwork]

theorem colon_not_mem_payload (a : Address) : ':' ∉ a.payload.map Symbol.toChar := by
  rw [List.mem_map]
  rintro ⟨s, -, hs⟩
  exact Symbol.toChar_ne_colon s hs

theorem spelling_eq_encode_iff {text : String} {a : Address} :
    spelling text = a.encode ↔ lowered (parts text.toList).1 = a.hrp.toList ∧
      lowered (parts text.toList).2 = a.payload.map Symbol.toChar := by
  rw [← String.toList_inj, toList_spelling, toList_encode]
  constructor
  · intro h
    have hparts := congrArg parts h
    rwa [parts_append (mt colon_mem_lowered_iff.1 (colon_not_mem_parts _)),
      parts_append (colon_not_mem_payload a), Prod.mk.injEq] at hparts
  · rintro ⟨hhrp, hpayload⟩
    rw [hhrp, hpayload]

/-- The texts that are read as an address. -/
theorem decode_eq_ok_iff {text : String} {a : Address} :
    decode text = .ok a ↔ mixesCase text.toList = false ∧ spelling text = a.encode := by
  rw [spelling_eq_encode_iff, decode]
  dsimp only
  split_ifs with hmix
  · simp [hmix]
  · split
    · rename_i hsymbols
      constructor
      · nofun
      · rintro ⟨-, -, hpayload⟩
        rw [Symbol.mapM_ofChar?_eq_some_iff.2 hpayload] at hsymbols
        cases hsymbols
    · rename_i symbols hsymbols
      rw [Symbol.mapM_ofChar?_eq_some_iff] at hsymbols
      rw [ofSymbols_eq_ok_iff, hsymbols, Symbol.toChar_injective.list_map.eq_iff, ← String.toList_inj,
        String.toList_ofList, eq_comm (a := a.hrp.toList)]
      exact (and_iff_right (Bool.eq_false_of_not_eq_true hmix)).symm

/-! ## What is written is read -/

theorem lowered_eq_self_iff {cs : List Char} : lowered cs = cs ↔ ∀ c ∈ cs, c.isUpper = false := by
  constructor
  · intro h c hc
    rw [← h, lowered, List.mem_map] at hc
    obtain ⟨c, -, rfl⟩ := hc
    exact Char.isUpper_toLower_eq_false c
  · intro h
    have hmap : cs.map Char.toLower = cs.map id :=
      List.map_congr_left fun c hc => Char.toLower_eq_of_not_isUpper (by simp [h c hc])
    rw [lowered, hmap, List.map_id]

theorem mixesCase_eq_false {text : List Char} (h : ∀ c ∈ text, c.isUpper = false) : mixesCase text = false := by
  rw [mixesCase, Bool.and_eq_false_iff]
  right
  simpa using h

theorem isUpper_encode_iff (a : Address) :
    (∀ c ∈ a.encode.toList, c.isUpper = false) ↔ ∀ c ∈ a.hrp.toList, c.isUpper = false := by
  have hpayload : ∀ c ∈ a.payload.map Symbol.toChar, c.isUpper = false := by
    simp only [List.mem_map]
    rintro _ ⟨s, -, rfl⟩
    exact Symbol.isUpper_toChar s
  rw [toList_encode, List.forall_mem_append, List.forall_mem_cons]
  exact and_iff_left ⟨rfl, hpayload⟩

theorem spelling_encode_eq_iff (a : Address) :
    spelling a.encode = a.encode ↔ ∀ c ∈ a.encode.toList, c.isUpper = false := by
  have hcolon : ':' ∈ a.encode.toList := by simp [toList_encode]
  rw [← lowered_eq_self_iff, spelling, if_pos hcolon, ← String.toList_inj, String.toList_ofList]

/-- An address is read back from its text if and only if no letter of its human-readable part is in upper case. -/
theorem decode_encode_eq_ok_iff (a : Address) :
    decode a.encode = .ok a ↔ ∀ c ∈ a.hrp.toList, c.isUpper = false := by
  rw [decode_eq_ok_iff, spelling_encode_eq_iff, ← isUpper_encode_iff]
  exact and_iff_right_of_imp mixesCase_eq_false

/-! ## One spelling -/

/-- The text of an address is the spelling of whatever it is read from, and it is read from every text with that
spelling in which cases are not mixed. -/
theorem encode_eq_spelling_of_decode {text : String} {a : Address} (h : decode text = .ok a) :
    a.encode = spelling text ∧
      ∀ other, decode other = .ok a ↔ mixesCase other.toList = false ∧ spelling other = spelling text := by
  obtain ⟨-, hspelling⟩ := decode_eq_ok_iff.1 h
  refine ⟨hspelling.symm, fun other => ?_⟩
  rw [decode_eq_ok_iff, hspelling]

theorem encode_eq_spelling_of_decode_upper :
    ∃ a, decode "QQ28CQS6DX23QH4QUCNK9V3L2JT4YR242CXQQNW9KC" = .ok a ∧
      a.encode = "ecash:qq28cqs6dx23qh4qucnk9v3l2jt4yr242cxqqnw9kc" ∧
      decode "ecash:qq28cqs6dx23qh4qucnk9v3l2jt4yr242cxqqnw9kc" = .ok a := by
  have hspelling : spelling "QQ28CQS6DX23QH4QUCNK9V3L2JT4YR242CXQQNW9KC" =
      "ecash:qq28cqs6dx23qh4qucnk9v3l2jt4yr242cxqqnw9kc" := by decide +kernel
  have hother : spelling "ecash:qq28cqs6dx23qh4qucnk9v3l2jt4yr242cxqqnw9kc" =
      "ecash:qq28cqs6dx23qh4qucnk9v3l2jt4yr242cxqqnw9kc" := by decide +kernel
  obtain ⟨a, hdecode⟩ : ∃ a, decode "QQ28CQS6DX23QH4QUCNK9V3L2JT4YR242CXQQNW9KC" = .ok a :=
    exists_eq_ok_of_isSome (by decide +kernel)
  obtain ⟨hencode, hiff⟩ := encode_eq_spelling_of_decode hdecode
  exact ⟨a, hdecode, hencode.trans hspelling, (hiff _).2 ⟨by decide +kernel, hother.trans hspelling.symm⟩⟩

/-! ## Mistyped addresses -/

theorem lowered_payload {text : List Char} (h : ∀ c ∈ text, c.isUpper = false) :
    lowered (parts text).2 = (parts text).2 :=
  lowered_eq_self_iff.2 fun c hc => h c (mem_of_mem_parts hc)

/-- A text in lower case that differs from an address only within eight consecutive characters of the payload is
no address. -/
theorem decode_of_burst {s t : String} {a : Address} (h : decode s = .ok a)
    (hs : ∀ c ∈ s.toList, c.isUpper = false) (ht : ∀ c ∈ t.toList, c.isUpper = false)
    (hhrp : (parts s.toList).1 = (parts t.toList).1)
    (hburst : Checksum.Burst 8 (parts s.toList).2 (parts t.toList).2) :
    decode t = .error .invalidCharacter ∨ decode t = .error .badChecksum := by
  obtain ⟨hname, hpayload⟩ := spelling_eq_encode_iff.1 (decode_eq_ok_iff.1 h).2
  rw [lowered_payload hs] at hpayload
  rw [hhrp] at hname
  simp only [decode, mixesCase_eq_false ht, Bool.false_eq_true, if_false, lowered_payload ht, hname,
    String.ofList_toList]
  cases hsymbols : (parts t.toList).2.mapM Symbol.ofChar? with
  | none => exact Or.inl rfl
  | some symbols =>
      right
      rw [hpayload, Symbol.mapM_ofChar?_eq_some_iff.1 hsymbols] at hburst
      have hsymbolBurst := hburst.of_map Symbol.toChar_injective
      have hlong : ¬symbols.length ≤ checksumLength := by
        rw [← hsymbolBurst.length_eq]
        exact a.checksumLength_lt_length_payload.not_ge
      have hinvalid : ¬Checksum.isValid a.hrp symbols = true := by
        simp [Checksum.isValid_of_burst hsymbolBurst a.isValid_payload]
      exact (if_neg hlong).trans (if_neg hinvalid)

def typedText : String := "ecash:qq28cqs6dx23qh4qucnk9v3l2jt4yr242cxqqnw9kc"

/-- Eight characters in the middle of the hash are other ones. -/
def mistypedText : String := "ecash:qq28cqs6dx23qh4qmua7lkce2jt4yr242cxqqnw9kc"

theorem decode_of_burst_hash :
    ∃ a, decode typedText = .ok a ∧ (∀ c ∈ typedText.toList, c.isUpper = false) ∧
      (∀ c ∈ mistypedText.toList, c.isUpper = false) ∧
      (parts typedText.toList).1 = (parts mistypedText.toList).1 ∧
      Checksum.Burst 8 (parts typedText.toList).2 (parts mistypedText.toList).2 ∧
      (decode mistypedText = .error .invalidCharacter ∨ decode mistypedText = .error .badChecksum) := by
  obtain ⟨a, hdecode⟩ : ∃ a, decode typedText = .ok a := exists_eq_ok_of_isSome (by decide +kernel)
  have htyped : ∀ c ∈ typedText.toList, c.isUpper = false := lowered_eq_self_iff.1 (by decide +kernel)
  have hmistyped : ∀ c ∈ mistypedText.toList, c.isUpper = false := lowered_eq_self_iff.1 (by decide +kernel)
  have hhrp : (parts typedText.toList).1 = (parts mistypedText.toList).1 := by decide +kernel
  have hburst : Checksum.Burst 8 (parts typedText.toList).2 (parts mistypedText.toList).2 :=
    Checksum.burst_iff_exists_append.2 ⟨"qq28cqs6dx23qh4q".toList, "ucnk9v3l".toList, "mua7lkce".toList,
      "2jt4yr242cxqqnw9kc".toList, by decide +kernel, by decide +kernel, by decide, by decide, by decide⟩
  exact ⟨a, hdecode, htyped, hmistyped, hhrp, hburst, decode_of_burst hdecode htyped hmistyped hhrp hburst⟩

end ShareCovenant.Address
