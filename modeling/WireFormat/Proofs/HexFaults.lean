import Mathlib.Data.List.Induction
import WireFormat.Proofs.Hex

/-! Hexadecimal texts that are refused. An odd number of bytes is looked for first, and then the first character that
    is no digit. A decoder that goes over the bytes of the text two at a time, and makes out a character only where
    a byte is no digit, finds the same: digits take one byte each, so that byte begins a character. -/

namespace WireFormat.Hex

/-! ### The first character that is no digit -/

/-- `c` is the first character of `text` that is no digit, and `position` is the number of bytes in front of it. -/
structure BreaksAt (text : String) (c : Char) (position : Nat) : Prop where
  not_digit : ¬IsDigit c
  split : ∃ front back : List Char, text.toList = front ++ c :: back ∧ (∀ d ∈ front, IsDigit d) ∧
    String.utf8Len front = position

theorem exists_breaksAt {text : String} (h : ∃ c ∈ text.toList, ¬IsDigit c) :
    ∃ c position, BreaksAt text c position := by
  have hsome : (text.toList.find? fun c => decide ¬IsDigit c).isSome := by
    simpa [List.find?_isSome] using h
  obtain ⟨c, hc⟩ := Option.isSome_iff_exists.mp hsome
  obtain ⟨hbad, front, back, hsplit, hfront⟩ := List.find?_eq_some_iff_append.mp hc
  exact ⟨c, _, by simpa using hbad, front, back, hsplit, by simpa using hfront, rfl⟩

theorem digitValues_of_break {front : List Char} (hfront : ∀ d ∈ front, IsDigit d) {c : Char} (hc : ¬IsDigit c)
    (back : List Char) (position : Nat) : digitValues position (front ++ c :: back) =
      .error (.invalidCharacter c (position + String.utf8Len front)) := by
  induction front generalizing position with
  | nil => rw [List.nil_append, digitValues, digitValue?_eq_none_iff.mpr hc, String.utf8Len_nil, Nat.add_zero]
  | cons d front ih =>
    obtain ⟨v, -, hv, -⟩ := digitValue?_of_isDigit (hfront d List.mem_cons_self)
    have hrest := ih (fun e he => hfront e (List.mem_cons_of_mem d he)) (position + d.utf8Size)
    rw [List.cons_append, digitValues, hv, hrest, String.utf8Len_cons, Nat.add_assoc, Nat.add_comm d.utf8Size]
    rfl

section
variable {text : String} {c : Char} {position : Nat}

theorem BreaksAt.decode (h : BreaksAt text c position) (heven : text.utf8ByteSize % 2 = 0) :
    Hex.decode text = .error (.invalidCharacter c position) := by
  obtain ⟨hc, front, back, hsplit, hfront, rfl⟩ := h
  rw [Hex.decode, if_neg (by omega), hsplit, digitValues_of_break hfront hc, Nat.zero_add]
  rfl

/-- The position is one between characters, and the character behind it is the one named. -/
theorem BreaksAt.get? (h : BreaksAt text c position) :
    (⟨position⟩ : String.Pos.Raw).IsValid text ∧ String.Pos.Raw.get? text ⟨position⟩ = some c := by
  obtain ⟨-, front, back, hsplit, -, rfl⟩ := h
  obtain rfl : text = String.ofList (front ++ c :: back) := by rw [← hsplit, String.ofList_toList]
  constructor
  · rw [String.Pos.Raw.isValid_iff_exists_append]
    refine ⟨String.ofList front, String.ofList (c :: back), String.ofList_append, ?_⟩
    rw [String.Pos.Raw.ext_iff, String.byteIdx_rawEndPos, String.utf8ByteSize_ofList]
  · exact String.get?_of_valid front (c :: back)

end

/-! ### Outcomes -/

section
variable {text : String}

theorem valid_of_digits (heven : text.utf8ByteSize % 2 = 0) (h : ∀ c ∈ text.toList, IsDigit c) : Valid text :=
  ⟨by rw [← utf8ByteSize_of_isDigit h, heven], h⟩

theorem decode_eq_oddLength_iff {n : Nat} : decode text = .error (.oddLength n) ↔
    text.utf8ByteSize % 2 = 1 ∧ n = text.utf8ByteSize := by
  constructor
  · intro h
    rcases Nat.mod_two_eq_zero_or_one text.utf8ByteSize with heven | hodd
    · by_cases hdigits : ∀ c ∈ text.toList, IsDigit c
      · obtain ⟨b, hb, -⟩ := (valid_of_digits heven hdigits).decode
        rw [hb] at h
        cases h
      · obtain ⟨c, position, hc⟩ := exists_breaksAt (by simpa using hdigits)
        rw [hc.decode heven] at h
        cases h
    · rw [decode, if_pos hodd] at h
      cases h
      exact ⟨hodd, rfl⟩
  · rintro ⟨hodd, rfl⟩
    rw [decode, if_pos hodd]

end

/-! ### The text byte by byte -/

/-- The UTF-8 form of a text. -/
def utf8 (text : List Char) : Bytes := text.flatMap String.utf8EncodeChar

/-- The character that UTF-8 text begins with. What is not UTF-8 begins with its first byte, taken for a character. -/
def leading (b : UInt8) (rest : Bytes) : Char :=
  ((String.fromUTF8? (b :: rest).toByteArray).bind fun text => text.toList.head?).getD (Char.ofNat b.toNat)

/-- The value of the digit `b`. If it is none, `rest` helps to tell the character. -/
def half (position : Nat) (b : UInt8) (rest : Bytes) : Except Fault Nat :=
  match digitValue? (Char.ofNat b.toNat) with
  | some value => .ok value
  | none => .error (.invalidCharacter (leading b rest) position)

/-- The bytes spelled by two bytes of text each, the first of which stands at `position`. -/
def joinPairs (position : Nat) : Bytes → Except Fault Bytes
  | high :: low :: text => do
    let h ← half position high (low :: text)
    let l ← half (position + 1) low text
    return UInt8.ofNat (16 * h + l) :: (← joinPairs (position + 2) text)
  | _ => .ok []

/-- The bytes of a hexadecimal text given in UTF-8. -/
def decodeUtf8 (text : Bytes) : Except Fault Bytes :=
  if text.length % 2 = 1 then .error (.oddLength text.length) else joinPairs 0 text

theorem utf8_cons (c : Char) (text : List Char) : utf8 (c :: text) = String.utf8EncodeChar c ++ utf8 text :=
  List.flatMap_cons

theorem toUTF8_eq (text : String) : text.toUTF8.data.toList = utf8 text.toList := by
  rw [String.toUTF8_eq_toByteArray, ← String.utf8Encode_toList]
  exact List.toList_data_toByteArray

theorem length_utf8 (text : List Char) : (utf8 text).length = String.utf8Len text := by
  induction text with
  | nil => rfl
  | cons c text ih =>
    rw [utf8_cons, List.length_append, ih, String.length_utf8EncodeChar, String.utf8Len_cons, Nat.add_comm]

theorem utf8EncodeChar_of_lt {c : Char} (h : c.toNat < 128) : String.utf8EncodeChar c = [UInt8.ofNat c.toNat] := by
  have hle : c.val.toNat ≤ 127 := Nat.le_of_lt_succ h
  rw [String.utf8EncodeChar, if_pos hle]
  rfl

theorem ofNat_byte {c : Char} (h : c.toNat < 128) : Char.ofNat (UInt8.ofNat c.toNat).toNat = c := by
  rw [UInt8.toNat_ofNat_of_lt' (by rw [UInt8.size]; omega), Char.ofNat_toNat]

theorem not_isDigit_of_byte_ge {b : UInt8} (h : 128 ≤ b.toNat) : ¬IsDigit (Char.ofNat b.toNat) := by
  have high : ∀ n < 256, 128 ≤ n → ¬IsDigit (Char.ofNat n) := by decide +kernel
  exact high b.toNat b.toNat_lt h

/-- Characters that take more than one byte begin with a byte that no ASCII character has. -/
theorem utf8EncodeChar_of_ge {c : Char} (h : 128 ≤ c.toNat) :
    ∃ b bs, String.utf8EncodeChar c = b :: bs ∧ 128 ≤ b.toNat := by
  have hv : ¬c.val.toNat ≤ 127 := Nat.not_le.mpr h
  have hbyte : ∀ n < 256, 128 ≤ n → 128 ≤ (UInt8.ofNat n).toNat := fun n hlt hn => by
    rwa [UInt8.toNat_ofNat_of_lt' hlt]
  rw [String.utf8EncodeChar, if_neg hv]
  split
  · exact ⟨_, _, rfl, hbyte _ (by omega) (by omega)⟩
  · split
    · exact ⟨_, _, rfl, hbyte _ (by omega) (by omega)⟩
    · exact ⟨_, _, rfl, hbyte _ (by omega) (by omega)⟩

/-- The first byte of a character that is no digit is no digit. -/
theorem lead_of_not_isDigit {c : Char} (h : ¬IsDigit c) :
    ∃ b bs, String.utf8EncodeChar c = b :: bs ∧ ¬IsDigit (Char.ofNat b.toNat) := by
  rcases Nat.lt_or_ge c.toNat 128 with hlt | hge
  · exact ⟨_, [], utf8EncodeChar_of_lt hlt, by rwa [ofNat_byte hlt]⟩
  · obtain ⟨b, bs, hbytes, hb⟩ := utf8EncodeChar_of_ge hge
    exact ⟨b, bs, hbytes, not_isDigit_of_byte_ge hb⟩

theorem leading_utf8 {c : Char} {text : List Char} {b : UInt8} {rest : Bytes} (h : utf8 (c :: text) = b :: rest) :
    leading b rest = c := by
  have hbytes : (b :: rest).toByteArray = (String.ofList (c :: text)).toByteArray := by
    rw [← h]
    rfl
  have htext : String.fromUTF8? (b :: rest).toByteArray = some (String.ofList (c :: text)) := by
    rw [hbytes, String.fromUTF8?, dif_pos (String.ofList (c :: text)).isValidUTF8]
    rfl
  rw [leading, htext, Option.bind_some, String.toList_ofList]
  rfl

theorem half_of_digit {c : Char} {v : Nat} (h : digitValue? c = some v) (position : Nat) (rest : Bytes) :
    half position (UInt8.ofNat c.toNat) rest = .ok v := by
  rw [half, ofNat_byte (isDigit_of_digitValue? h).toNat_lt, h]

/-- Where a byte is no digit, a character begins, so what is made out is this character. -/
theorem half_of_break {c : Char} (h : ¬IsDigit c) (text : List Char) :
    ∃ b rest, utf8 (c :: text) = b :: rest ∧
      ∀ position, half position b rest = .error (.invalidCharacter c position) := by
  obtain ⟨b, bs, hc, hb⟩ := lead_of_not_isDigit h
  have htext : utf8 (c :: text) = b :: (bs ++ utf8 text) := by rw [utf8_cons, hc, List.cons_append]
  exact ⟨b, _, htext, fun position => by rw [half, digitValue?_eq_none_iff.mpr hb, leading_utf8 htext]⟩

theorem utf8_cons_of_digit {c : Char} {v : Nat} (h : digitValue? c = some v) (text : List Char) :
    utf8 (c :: text) = UInt8.ofNat c.toNat :: utf8 text := by
  rw [utf8_cons, utf8EncodeChar_of_lt (isDigit_of_digitValue? h).toNat_lt, List.singleton_append]

theorem joinPairs_of_break {c : Char} (h : ¬IsDigit c) (text : List Char) (position : Nat)
    (heven : (utf8 (c :: text)).length % 2 = 0) :
    joinPairs position (utf8 (c :: text)) = (digitValues position (c :: text)).map joinHalves := by
  obtain ⟨b, rest, htext, hhalf⟩ := half_of_break h text
  rw [htext] at heven ⊢
  -- The length is even, so another byte follows.
  rcases rest with _ | ⟨low, rest⟩
  · cases heven
  · rw [joinPairs, hhalf, digitValues, digitValue?_eq_none_iff.mpr h]
    rfl

/-- Up to the first character that is no digit, each pair of bytes is a pair of characters. -/
theorem joinPairs_utf8 (text : List Char) (position : Nat) (heven : (utf8 text).length % 2 = 0) :
    joinPairs position (utf8 text) = (digitValues position text).map joinHalves := by
  induction text using List.twoStepInduction generalizing position with
  | nil => rfl
  | singleton c =>
    refine joinPairs_of_break (fun hdigit => ?_) [] position heven
    rw [utf8, List.flatMap_singleton, utf8EncodeChar_of_lt hdigit.toNat_lt] at heven
    cases heven
  | cons_cons c d text ih _ =>
    rcases hc : digitValue? c with _ | high
    · exact joinPairs_of_break (digitValue?_eq_none_iff.mp hc) (d :: text) position heven
    have hsize : c.utf8Size = 1 := (isDigit_of_digitValue? hc).utf8Size_eq
    rw [utf8_cons_of_digit hc] at heven ⊢
    rcases hd : digitValue? d with _ | low
    · obtain ⟨b, rest, htext, hhalf⟩ := half_of_break (digitValue?_eq_none_iff.mp hd) text
      rw [htext, joinPairs, half_of_digit hc, hhalf, digitValues, hc, digitValues, hd, hsize]
      rfl
    · have hsize' : d.utf8Size = 1 := (isDigit_of_digitValue? hd).utf8Size_eq
      rw [utf8_cons_of_digit hd, List.length_cons, List.length_cons] at heven
      have hrest := ih (position + 2) (by omega)
      rw [utf8_cons_of_digit hd, joinPairs, half_of_digit hc, half_of_digit hd, hrest, digitValues, hc, digitValues, hd,
        hsize, hsize']
      rcases digitValues (position + 1 + 1) text with fault | vs <;> rfl

theorem decodeUtf8_toUTF8 (text : String) : decodeUtf8 text.toUTF8.data.toList = decode text := by
  have hsize : (utf8 text.toList).length = text.utf8ByteSize := by
    rw [length_utf8, ← String.utf8ByteSize_ofList, String.ofList_toList]
  rw [toUTF8_eq, decodeUtf8, decode, hsize]
  split
  · rfl
  · rename_i heven
    rw [joinPairs_utf8 text.toList 0 (by omega)]

/-- What is written from bytes has two digits for each, none in uppercase, and is read back. A text is refused for its
    length just if it has an odd number of bytes; otherwise for its first character that is no digit, which is named
    in full, with the number of bytes in front of it; and otherwise it spells the bytes from which it is written, but
    for the case of its digits. This holds of a decoder that takes the text byte by byte. -/
theorem decode_exact :
    (∀ b : Bytes, decode (encode b) = .ok b ∧ (encode b).length = 2 * b.length ∧
      ∀ c ∈ (encode b).toList, '0' ≤ c ∧ c ≤ '9' ∨ 'a' ≤ c ∧ c ≤ 'f') ∧
    ∀ text : String,
      (∀ n, decode text = .error (.oddLength n) ↔ text.utf8ByteSize % 2 = 1 ∧ n = text.utf8ByteSize) ∧
      (text.utf8ByteSize % 2 = 0 → (∃ c ∈ text.toList, ¬IsDigit c) →
        ∃ c position, BreaksAt text c position ∧ decode text = .error (.invalidCharacter c position) ∧
          (⟨position⟩ : String.Pos.Raw).IsValid text ∧ String.Pos.Raw.get? text ⟨position⟩ = some c) ∧
      (text.utf8ByteSize % 2 = 0 → (∀ c ∈ text.toList, IsDigit c) →
        ∃ b, decode text = .ok b ∧ encode b = text.map Char.toLower) ∧
      decodeUtf8 text.toUTF8.data.toList = decode text := by
  refine ⟨fun b => ⟨decode_encode b, length_encode b, fun c hc => mem_encode hc⟩, fun text =>
    ⟨fun n => decode_eq_oddLength_iff, fun heven hbad => ?_, fun heven hdigits => ?_, decodeUtf8_toUTF8 text⟩⟩
  · obtain ⟨c, position, hc⟩ := exists_breaksAt hbad
    exact ⟨c, position, hc, hc.decode heven, hc.get?⟩
  · obtain ⟨b, hb, -, hlower⟩ := (valid_of_digits heven hdigits).decode
    exact ⟨b, hb, hlower⟩

/-- A letter of two bytes between two digits, the same with one digit, and digits of either case. -/
theorem decode_exact_accented :
    "0é0".utf8ByteSize % 2 = 0 ∧ (∃ c ∈ "0é0".toList, ¬IsDigit c) ∧ BreaksAt "0é0" 'é' 1 ∧
      String.Pos.Raw.get? "0é0" ⟨1⟩ = some 'é' ∧
      decodeUtf8 "0é0".toUTF8.data.toList = .error (.invalidCharacter 'é' 1) ∧
      decode "é0" = .error (.oddLength 3) ∧
      "aBcD".utf8ByteSize % 2 = 0 ∧ (∀ c ∈ "aBcD".toList, IsDigit c) ∧
      ∃ b, decode "aBcD" = .ok b ∧ encode b = "abcd" := by
  obtain ⟨-, texts⟩ := decode_exact
  have heven : "0é0".utf8ByteSize % 2 = 0 := by decide
  have hbad : ∃ c ∈ "0é0".toList, ¬IsDigit c := ⟨'é', by decide, by decide⟩
  have hdecode : decode "0é0" = .error (.invalidCharacter 'é' 1) := by decide
  have heven' : "aBcD".utf8ByteSize % 2 = 0 := by decide
  have hdigits : ∀ c ∈ "aBcD".toList, IsDigit c := (by decide : Valid "aBcD").digits
  obtain ⟨-, hrefused, -, hbytes⟩ := texts "0é0"
  obtain ⟨c, position, hbreaks, hfault, -, hget⟩ := hrefused heven hbad
  obtain ⟨rfl, rfl⟩ : 'é' = c ∧ 1 = position := by simpa [hdecode] using hfault
  obtain ⟨b, hb, hlower⟩ := (texts "aBcD").2.2.1 heven' hdigits
  have hcase : "aBcD".map Char.toLower = "abcd" := by rw [← String.toList_inj, String.toList_map]; decide
  exact ⟨heven, hbad, hbreaks, hget, hbytes.trans hdecode, ((texts "é0").1 3).mpr (by decide), heven', hdigits, b, hb,
    hlower.trans hcase⟩

end WireFormat.Hex
