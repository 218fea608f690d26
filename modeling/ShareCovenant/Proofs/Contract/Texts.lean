import ShareCovenant.Contract.Coin
import ShareCovenant.Contract.Party
import ShareCovenant.Proofs.Text
import ShareCovenant.Proofs.Text.Digits

/-!
# The texts of outpoints and parties

A text is read as an outpoint if and only if it is sixty-four hexadecimal digits, a colon and a numeral, and as a
party if and only if what follows its last colon is a numeral. What is read is what the parts spell, so that
outpoints and parties are read back from the texts that are written for them.
-/

namespace ShareCovenant

open Decimal

theorem toList_toString (n : Nat) : (toString n).toList = Nat.toDigits 10 n := by
  rw [Nat.toString_eq_ofList_toDigits, String.toList_ofList]

/-! ## Outpoints -/

namespace Txid

theorem ofText?_eq_some_iff {text : List Char} {txid : Txid} :
    ofText? text = some txid ↔ Hex.Spells text txid.val.reverse := by
  rw [ofText?, Option.map_eq_some_iff]
  constructor
  · rintro ⟨bytes, hread, rfl⟩
    rw [List.reverse_reverse]
    exact Hex.decodeFixed?_eq_some_iff.1 hread
  · intro h
    exact ⟨⟨txid.val.reverse, by rw [List.length_reverse, txid.property]⟩, Hex.decodeFixed?_eq_some_iff.2 h,
      Subtype.ext (List.reverse_reverse _)⟩

theorem length_of_spells {text : List Char} {txid : Txid} (h : Hex.Spells text txid.val.reverse) :
    text.length = 64 := by
  rw [h.length_eq, List.length_reverse, txid.property]

theorem exists_spells {text : List Char} (hlen : text.length = 64) (h : ∀ c ∈ text, c ∈ Hex.digits) :
    ∃ txid : Txid, Hex.Spells text txid.val.reverse := by
  obtain ⟨bytes, hbytes⟩ := Hex.exists_spells (show text.length = 2 * 32 from hlen) h
  refine ⟨⟨bytes.val.reverse, by rw [List.length_reverse, bytes.property]⟩, ?_⟩
  rwa [List.reverse_reverse]

end Txid

namespace OutPoint

theorem parse_eq_ok_iff {text : String} {o : OutPoint} :
    parse text = .ok o ↔ ∃ txid index, text.toList = txid ++ ':' :: index ∧
      Hex.Spells txid o.txid.val.reverse ∧ IsNumeral index o.index.toNat := by
  constructor
  · intro h
    unfold parse at h
    split at h
    · cases h
    next txid index hcut =>
      split at h
      · cases h
      next id hid =>
        split at h
        · cases h
        next n hn =>
          cases h
          exact ⟨txid, index, (Text.eq_append_of_cutFirst? hcut).1, Txid.ofText?_eq_some_iff.1 hid,
            readUInt32_eq_ok_iff.1 hn⟩
  · rintro ⟨txid, index, htext, htxid, hindex⟩
    have hcolon : ':' ∉ txid := fun hmem => absurd (htxid.1 ':' hmem) (by decide)
    rw [parse, htext, Text.cutFirst?_append hcolon]
    simp only [Txid.ofText?_eq_some_iff.2 htxid, readUInt32_eq_ok_iff.2 hindex]

theorem exists_parse_iff {text : String} :
    (∃ o, parse text = .ok o) ↔ ∃ txid index n, text.toList = txid ++ ':' :: index ∧ txid.length = 64 ∧
      (∀ c ∈ txid, c ∈ Hex.digits) ∧ IsNumeral index n ∧ n ≤ 2 ^ 32 - 1 := by
  constructor
  · rintro ⟨o, ho⟩
    obtain ⟨txid, index, htext, htxid, hindex⟩ := parse_eq_ok_iff.1 ho
    have hle := o.index.toNat_lt
    exact ⟨txid, index, o.index.toNat, htext, Txid.length_of_spells htxid, htxid.1, hindex, by omega⟩
  · rintro ⟨txid, index, n, htext, hlen, hdigits, hindex, hle⟩
    obtain ⟨id, hid⟩ := Txid.exists_spells hlen hdigits
    obtain ⟨m, hm⟩ := exists_readUInt32_iff.2 ⟨n, hindex, hle⟩
    exact ⟨⟨id, m⟩, parse_eq_ok_iff.2 ⟨txid, index, htext, hid, readUInt32_eq_ok_iff.1 hm⟩⟩

theorem parse_toText (o : OutPoint) : parse o.toText = .ok o := by
  refine parse_eq_ok_iff.2 ⟨Hex.encodeChars o.txid.val.reverse, Nat.toDigits 10 o.index.toNat, ?_,
    Hex.spells_encodeChars _, isNumeral_toDigits _⟩
  rw [toText, String.toList_append, String.toList_append, toList_toString, Txid.toText, Hex.encode,
    String.toList_ofList, List.append_assoc]
  rfl

end OutPoint

theorem Coin.parse_eq_ok_iff {text : String} {value : UInt64} {coin : Coin} :
    Coin.parse text value = .ok coin ↔ OutPoint.parse text = .ok coin.outpoint ∧ coin.value = value := by
  rw [Coin.parse, map_eq_ok_iff]
  constructor
  · rintro ⟨o, ho, rfl⟩
    exact ⟨ho, rfl⟩
  · rintro ⟨ho, rfl⟩
    exact ⟨coin.outpoint, ho, rfl⟩

/-! ## Parties -/

namespace Party

theorem parse_eq_ok_iff {text : String} {p : Party} :
    parse text = .ok p ↔ ∃ share, text.toList = p.address.toList ++ ':' :: share ∧ ':' ∉ share ∧
      IsNumeral share p.share.toNat := by
  constructor
  · intro h
    unfold parse at h
    split at h
    · cases h
    next address share hcut =>
      split at h
      · cases h
      next n hn =>
        cases h
        obtain ⟨htext, hcolon⟩ := Text.eq_append_of_cutLast? hcut
        exact ⟨share, by rw [htext, String.toList_ofList], hcolon, readUInt32_eq_ok_iff.1 hn⟩
  · rintro ⟨share, htext, hcolon, hshare⟩
    rw [parse, htext, Text.cutLast?_append hcolon]
    simp only [readUInt32_eq_ok_iff.2 hshare, String.ofList_toList]

theorem exists_parse_iff {text : String} :
    (∃ p, parse text = .ok p) ↔ ∃ address share n, text.toList = address ++ ':' :: share ∧ ':' ∉ share ∧
      IsNumeral share n ∧ n ≤ 2 ^ 32 - 1 := by
  constructor
  · rintro ⟨p, hp⟩
    obtain ⟨share, htext, hcolon, hshare⟩ := parse_eq_ok_iff.1 hp
    have hle := p.share.toNat_lt
    exact ⟨p.address.toList, share, p.share.toNat, htext, hcolon, hshare, by omega⟩
  · rintro ⟨address, share, n, htext, hcolon, hshare, hle⟩
    obtain ⟨m, hm⟩ := exists_readUInt32_iff.2 ⟨n, hshare, hle⟩
    refine ⟨⟨String.ofList address, m⟩, parse_eq_ok_iff.2 ⟨share, ?_, hcolon, readUInt32_eq_ok_iff.1 hm⟩⟩
    rw [htext, String.toList_ofList]

theorem parse_toText (p : Party) : parse p.toText = .ok p := by
  have hshare := isNumeral_toDigits p.share.toNat
  refine parse_eq_ok_iff.2 ⟨Nat.toDigits 10 p.share.toNat, ?_, hshare.colon_not_mem, hshare⟩
  rw [toText, String.toList_append, String.toList_append, toList_toString, List.append_assoc]
  rfl

end Party

/-! ## The grammars -/

/-- Outpoints and parties are read from the texts of their grammars and from no others, a coin at the outpoint that
its text spells and a party with all of the text before the last colon as its address; and each is read back from
the text that is written for it. -/
theorem coin_and_party_parse_iff :
    (∀ text value, (∃ coin, Coin.parse text value = .ok coin) ↔
      ∃ txid index n, text.toList = txid ++ ':' :: index ∧ txid.length = 64 ∧ (∀ c ∈ txid, c ∈ Hex.digits) ∧
        IsNumeral index n ∧ n ≤ 2 ^ 32 - 1) ∧
    (∀ text value coin, Coin.parse text value = .ok coin ↔
      coin.value = value ∧ ∃ txid index, text.toList = txid ++ ':' :: index ∧ txid.length = 64 ∧
        Hex.Spells txid coin.outpoint.txid.val.reverse ∧ IsNumeral index coin.outpoint.index.toNat) ∧
    (∀ text, (∃ p, Party.parse text = .ok p) ↔
      ∃ address share n, text.toList = address ++ ':' :: share ∧ ':' ∉ share ∧ IsNumeral share n ∧
        n ≤ 2 ^ 32 - 1) ∧
    (∀ text p, Party.parse text = .ok p ↔
      ∃ share, text.toList = p.address.toList ++ ':' :: share ∧ ':' ∉ share ∧ IsNumeral share p.share.toNat) ∧
    (∀ outpoint value, Coin.parse outpoint.toText value = .ok { outpoint := outpoint, value := value }) ∧
    (∀ p : Party, Party.parse p.toText = .ok p) := by
  refine ⟨fun text value => ?_, fun text value coin => ?_, fun _ => Party.exists_parse_iff,
    fun _ _ => Party.parse_eq_ok_iff, fun o value => ?_, Party.parse_toText⟩
  · rw [← OutPoint.exists_parse_iff]
    constructor
    · rintro ⟨coin, hcoin⟩
      exact ⟨coin.outpoint, (Coin.parse_eq_ok_iff.1 hcoin).1⟩
    · rintro ⟨o, ho⟩
      exact ⟨⟨o, value⟩, Coin.parse_eq_ok_iff.2 ⟨ho, rfl⟩⟩
  · rw [Coin.parse_eq_ok_iff, OutPoint.parse_eq_ok_iff, and_comm]
    refine and_congr_right fun _ => exists₂_congr fun txid index => and_congr_right fun _ => ?_
    constructor
    · exact fun h => ⟨Txid.length_of_spells h.1, h⟩
    · exact fun h => h.2
  · exact Coin.parse_eq_ok_iff.2 ⟨OutPoint.parse_toText o, rfl⟩

/-- The address keeps a colon of its own, and the share may have a sign and leading zeros. -/
example : Party.parse "ecash:qq:+007" = .ok ⟨"ecash:qq", 7⟩ := rfl

end ShareCovenant
