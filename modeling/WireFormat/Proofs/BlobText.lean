import WireFormat.Proofs.HexFaults
import WireFormat.Proofs.Unread
import WireFormat.Proofs.Whole

/-! Blobs from text. A blob is the same whether it is parsed, decoded from hexadecimal text, loaded from a JSON string
    or read through a cursor over the bytes that the text spells. What is no hexadecimal text is refused as such before
    the number of its bytes is looked at. -/

namespace WireFormat

/-! ### Readings that leave nothing -/

/-- A field that is read to the end of some bytes is what these bytes consist of. -/
theorem Cursor.read_exhausts_iff {f : Field} {b : Bytes} {v : f.Result} :
    (∃ after, (Cursor.ofBytes b).read f false = (.ok v, after) ∧ after.isExhausted = true) ↔
      f.decode .all b = .ok (v, []) := by
  have hc : (Cursor.ofBytes b).InBounds := Nat.zero_le _
  have hrest : ∀ rest, f.decode .all b = .ok (v, rest) →
      ((Cursor.ofBytes b).moveTo (b.length - rest.length)).isExhausted = rest.isEmpty := fun rest h => by
    rw [isExhausted]
    exact congrArg List.isEmpty (unread_moveTo_suffix (f.decode_suffix h))
  simp only [read_eq f false hc, Decoder.through_eq_ok_iff]
  constructor
  · rintro ⟨after, ⟨rest, h, rfl⟩, hend⟩
    obtain rfl : rest = [] := List.isEmpty_iff.mp ((hrest rest h).symm.trans hend)
    exact h
  · intro h
    exact ⟨_, ⟨[], h, rfl⟩, hrest [] h⟩

section
variable {text : String} {b : Bytes}

theorem Bytes.ofHex_eq_ok_iff : Bytes.ofHex text = .ok b ↔ Hex.decode text = .ok b := by
  rw [ofHex]
  rcases Hex.decode text with fault | b' <;> simp [Except.mapError]

theorem Bytes.ofHex_of_fault {fault : Hex.Fault} (h : Hex.decode text = .error fault) :
    Bytes.ofHex text = .error (.hex fault) := by
  rw [ofHex, h]
  rfl

theorem Codec.ofHex_of_bytes {α : Type} (c : Codec α) (h : Bytes.ofHex text = .ok b) : c.ofHex text = c.ofBytes b := by
  rw [ofHex, h]
  rfl

/-- A value is decoded from hexadecimal text just if a cursor over the bytes of this text reads it to the end. -/
theorem Schema.ofHex_eq_ok_iff_read (s : Schema) {v : s.Value} : s.codec.ofHex text = .ok v ↔
    ∃ c after, Cursor.ofHex text = .ok c ∧ c.read (.value s) false = (.ok v, after) ∧ after.isExhausted = true := by
  rcases hb : Bytes.ofHex text with e | b
  · rw [Codec.ofHex, Cursor.ofHex, hb]
    simp [Except.map, bind, Except.bind]
  · rw [s.codec.ofHex_of_bytes hb, ofBytes_eq_ok_iff, Cursor.ofHex, hb]
    refine (Cursor.read_exhausts_iff (f := .value s)).symm.trans ?_
    constructor
    · rintro ⟨after, h⟩
      exact ⟨Cursor.ofBytes b, after, rfl, h⟩
    · rintro ⟨c, after, hc, h⟩
      exact ⟨after, Except.ok.inj hc ▸ h⟩

end

namespace Blob

variable {n : Nat} {text : String} {b : Bytes} {p : Blob n}

theorem parse_of_decode (h : Hex.decode text = .ok b) : parse n text = ofBytes n b := by
  rw [parse, Bytes.ofHex_eq_ok_iff.mpr h]
  rfl

theorem parse_of_fault {fault : Hex.Fault} (h : Hex.decode text = .error fault) :
    parse n text = .error (.hex fault) := by
  rw [parse, Bytes.ofHex_of_fault h]
  rfl

/-- A blob is parsed from its digits in either case, and from nothing else. -/
theorem parse_eq_ok_iff : parse n text = .ok p ↔ p.toHex = text.map Char.toLower := by
  rw [toHex, ← Hex.decode_eq_ok_iff]
  rcases h : Hex.decode text with fault | b
  · rw [parse_of_fault h]
    simp
  · rw [parse_of_decode h, ofBytes_eq_ok_iff, Except.ok.injEq, eq_comm]

theorem parse_toHex (p : Blob n) : parse n p.toHex = .ok p := by
  rw [toHex, parse_of_decode (Hex.decode_encode p.bytes)]
  exact ofBytes_eq_ok_iff.mpr rfl

theorem exists_parse_iff : (∃ p, parse n text = .ok p) ↔ text.length = 2 * n ∧ ∀ c ∈ text.toList, Hex.IsDigit c := by
  constructor
  · rintro ⟨p, hp⟩
    have hlower := parse_eq_ok_iff.mp hp
    have hlen := Hex.length_encode p.bytes
    rw [← toHex, hlower, String.length_map, p.length_bytes] at hlen
    exact ⟨hlen, (Hex.valid_iff_decode.mpr ⟨p.bytes, Hex.decode_eq_ok_iff.mpr hlower⟩).digits⟩
  · rintro ⟨hlen, hdigits⟩
    obtain ⟨b, hb, hsize, -⟩ := (Hex.Valid.mk (by omega) hdigits).decode
    exact ⟨⟨b, by omega⟩, by rw [parse_of_decode hb]; exact ofBytes_eq_ok_iff.mpr rfl⟩

theorem parse_of_length_ne (heven : text.utf8ByteSize % 2 = 0) (h : ∀ c ∈ text.toList, Hex.IsDigit c)
    (hlen : text.length ≠ 2 * n) : parse n text = .error (.sizeMismatch n (text.utf8ByteSize / 2)) := by
  have hsize := Hex.utf8ByteSize_of_isDigit h
  obtain ⟨b, hb, hbytes, -⟩ := (Hex.valid_of_digits heven h).decode
  rw [parse_of_decode hb, ofBytes, dif_neg (by omega), hsize, hbytes]

/-- However a blob is made of a text, the outcome is that of parsing: parsing, decoding the text and loading it as a
    JSON string give the same blob or the same failure. Just the texts of as many digits as the blob takes are read,
    and the digits of the blob, in lowercase, are this text. All others are refused: for their length if it is odd, for
    their first character that is no digit, or at last for the number of bytes they spell. A cursor over the bytes of
    the text reads the blob and nothing is left just if parsing gives it. -/
theorem parse_agrees (n : Nat) (text : String) :
    (codec n).ofHex text = parse n text ∧ (codec n).ofJson (.string text) = parse n text ∧
    ((∃ p, parse n text = .ok p) ↔ text.length = 2 * n ∧ ∀ c ∈ text.toList, Hex.IsDigit c) ∧
    (∀ p : Blob n, parse n text = .ok p → p.toHex = text.map Char.toLower) ∧
    (∀ p : Blob n, parse n p.toHex = .ok p) ∧
    (text.utf8ByteSize % 2 = 1 → parse n text = .error (.hex (.oddLength text.utf8ByteSize))) ∧
    (text.utf8ByteSize % 2 = 0 → (∃ c ∈ text.toList, ¬Hex.IsDigit c) →
      ∃ c position, Hex.BreaksAt text c position ∧ parse n text = .error (.hex (.invalidCharacter c position))) ∧
    (text.utf8ByteSize % 2 = 0 → (∀ c ∈ text.toList, Hex.IsDigit c) → text.length ≠ 2 * n →
      parse n text = .error (.sizeMismatch n (text.utf8ByteSize / 2))) ∧
    (∀ p : Blob n, parse n text = .ok p ↔ ∃ c after, Cursor.ofHex text = .ok c ∧
      c.read (.value (.blob n)) false = (.ok p, after) ∧ after.isExhausted = true) := by
  refine ⟨rfl, rfl, exists_parse_iff, fun p => parse_eq_ok_iff.mp, parse_toHex, fun hodd => ?_, fun heven hbad => ?_,
    parse_of_length_ne, fun p => (Schema.blob n).ofHex_eq_ok_iff_read⟩
  · exact parse_of_fault (Hex.decode_eq_oddLength_iff.mpr ⟨hodd, rfl⟩)
  · obtain ⟨c, position, hc⟩ := Hex.exists_breaksAt hbad
    exact ⟨c, position, hc, parse_of_fault (hc.decode heven)⟩

/-- One byte in mixed case, half a byte, four characters of which one is no digit, and one byte too many. -/
theorem parse_agrees_one_byte :
    ("aB".length = 2 * 1 ∧ ∀ c ∈ "aB".toList, Hex.IsDigit c) ∧
      (∃ p : Blob 1, parse 1 "aB" = .ok p ∧ p.toHex = "aB".map Char.toLower ∧
        ∃ c after, Cursor.ofHex "aB" = .ok c ∧ c.read (.value (.blob 1)) false = (.ok p, after) ∧
          after.isExhausted = true) ∧
      "a".utf8ByteSize % 2 = 1 ∧ (codec 1).ofHex "a" = .error (.hex (.oddLength 1)) ∧
      "00g0".utf8ByteSize % 2 = 0 ∧ (∃ c ∈ "00g0".toList, ¬Hex.IsDigit c) ∧ Hex.BreaksAt "00g0" 'g' 2 ∧
      (codec 1).ofJson (.string "00g0") = .error (.hex (.invalidCharacter 'g' 2)) ∧
      "00a0".utf8ByteSize % 2 = 0 ∧ (∀ c ∈ "00a0".toList, Hex.IsDigit c) ∧ "00a0".length ≠ 2 * 1 ∧
      parse 1 "00a0" = .error (.sizeMismatch 1 2) := by
  have hdigits : ∀ c ∈ "aB".toList, Hex.IsDigit c := (by decide : Hex.Valid "aB").digits
  have hdigits' : ∀ c ∈ "00a0".toList, Hex.IsDigit c := (by decide : Hex.Valid "00a0").digits
  have hbad : ∃ c ∈ "00g0".toList, ¬Hex.IsDigit c := ⟨'g', by decide, by decide⟩
  have hdecode : parse 1 "00g0" = .error (.hex (.invalidCharacter 'g' 2)) := by decide
  obtain ⟨-, -, hread, hlower, -, -, -, -, hcursor⟩ := parse_agrees 1 "aB"
  obtain ⟨hhex, -, -, -, -, hodd, -⟩ := parse_agrees 1 "a"
  obtain ⟨-, hjson, -, -, -, -, hbreak, -⟩ := parse_agrees 1 "00g0"
  obtain ⟨-, -, -, -, -, -, -, hlong, -⟩ := parse_agrees 1 "00a0"
  obtain ⟨p, hp⟩ := hread.mpr ⟨by decide, hdigits⟩
  obtain ⟨c, position, hc, hfault⟩ := hbreak (by decide) hbad
  obtain ⟨rfl, rfl⟩ : 'g' = c ∧ 2 = position := by simpa [hdecode] using hfault
  exact ⟨⟨by decide, hdigits⟩, ⟨p, hp, hlower p hp, (hcursor p).mp hp⟩, by decide, hhex.trans (hodd (by decide)),
    by decide, hbad, hc, hjson.trans hfault, by decide, hdigits', by decide, hlong (by decide) hdigits' (by decide)⟩

end Blob

end WireFormat
