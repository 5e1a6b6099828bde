import WireFormat.Encoder
import WireFormat.Proofs.Varint.Canonical

/-! Values that are wider than their declared width. Writing counts groups: it refuses a value whose digits to the
    base 128 exceed the bound for the width, and writes any other, even one that does not fit the width. What is
    written of such a value, reading at the same width refuses. -/

namespace WireFormat.Varint

theorem size_le_iff {v k : Nat} (hk : 0 < k) : size v ≤ k ↔ v < 128 ^ k :=
  ⟨fun h => Nat.lt_of_lt_of_le (lt_pow_size v) (Nat.pow_le_pow_right (by decide) h), size_le_of_lt_pow hk⟩

theorem size_le_maxSize_iff {bits v : Nat} :
    size v ≤ maxSize bits ↔ (Nat.digits 128 v).length ≤ bits ⌈/⌉ 7 + 1 := by
  rw [maxSize_eq, size_le_iff (Nat.succ_pos _), Nat.digits_length_le_iff (by decide)]

theorem encoder_eq (bits v : Nat) (data : Bytes) : Encoder.varint bits v data =
    if size v ≤ maxSize bits then (.ok (), data ++ canonical v) else (.error (.varintOverflow bits), data) := by
  rw [Encoder.varint, encode_eq]
  by_cases h : size v ≤ maxSize bits
  · rw [if_pos h, if_pos h]
    rfl
  · rw [if_neg h, if_neg h]
    rfl

/-- A value with more digits to the base 128 than the bound for the width is refused, and the bytes written so far
    stay as they are; of any other value just the canonical digits are written. These are read back at the same width
    if the value fits it, and are invalid if it does not. No value that fits is refused. -/
theorem varint_bounded (bits v : Nat) (data : Bytes) :
    (Encoder.varint bits v data = (.error (.varintOverflow bits), data) ↔
      bits ⌈/⌉ 7 + 1 < (Nat.digits 128 v).length) ∧
    (Encoder.varint bits v data = (.ok (), data ++ canonical v) ↔
      (Nat.digits 128 v).length ≤ bits ⌈/⌉ 7 + 1) ∧
    (∀ b, Encoder.varint bits v data = (.ok (), data ++ b) →
      decode bits b 0 = if v < 2 ^ bits then .ok (v, b.length) else .error .invalidVarint) ∧
    (v < 2 ^ bits → Encoder.varint bits v data = (.ok (), data ++ canonical v)) := by
  rw [encoder_eq, ← Nat.not_le, ← size_le_maxSize_iff]
  refine ⟨?_, ?_, fun b hb => ?_, fun h => if_pos (size_le_maxSize h)⟩
  · by_cases h : size v ≤ maxSize bits <;> simp [h]
  · by_cases h : size v ≤ maxSize bits <;> simp [h]
  · have hle : size v ≤ maxSize bits := by
      by_contra h
      rw [if_neg h] at hb
      cases hb
    rw [if_pos hle] at hb
    obtain rfl : canonical v = b := List.append_cancel_left (Prod.mk.inj hb).2
    rcases Nat.lt_or_ge v (2 ^ bits) with h | h
    · rw [if_pos h, length_canonical]
      simpa using decode_canonical h []
    · rw [if_neg (Nat.not_lt.mpr h)]
      simpa using decode_canonical_of_ge h []

/-- Seven bits leave room for two digits: 16383 has just these and is written, though it is too wide to be read back,
    and 16384 has three. -/
theorem varint_bounded_seven :
    Encoder.varint 7 16383 [0xEE] = (.ok (), [0xEE, 0xFF, 0x7F]) ∧ decode 7 [0xFF, 0x7F] 0 = .error .invalidVarint ∧
      Encoder.varint 7 16384 [0xEE] = (.error (.varintOverflow 7), [0xEE]) ∧
      127 < 2 ^ 7 ∧ Encoder.varint 7 127 [0xEE] = (.ok (), [0xEE] ++ canonical 127) := by
  have hwritten : Encoder.varint 7 16383 [0xEE] = (.ok (), [0xEE] ++ [0xFF, 0x7F]) := by decide
  have hread := (varint_bounded 7 16383 [0xEE]).2.2.1 _ hwritten
  have hdigits : 7 ⌈/⌉ 7 + 1 < (Nat.digits 128 16384).length := by
    rw [← maxSize_eq, ← Nat.not_le, Nat.digits_length_le_iff (by decide)]
    decide
  have hfits : 127 < 2 ^ 7 := by decide
  exact ⟨hwritten, hread, (varint_bounded 7 16384 [0xEE]).1.mpr hdigits, hfits,
    (varint_bounded 7 127 [0xEE]).2.2.2 hfits⟩

end WireFormat.Varint
