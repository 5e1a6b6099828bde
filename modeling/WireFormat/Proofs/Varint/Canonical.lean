import WireFormat.Proofs.Varint.Grammar

/-! The canonical form of a varint, which is what the encoder writes at every width that has room for the
    value, and what the decoder of any other width makes of it. -/

namespace WireFormat.Varint

/-! ### Sizes -/

theorem bitLength_of_ge {v : Nat} (h : 128 ≤ v) : bitLength v = bitLength (v / 128) + 7 := by
  have hdiv : v / 128 ≠ 0 := by omega
  have hlog : v.log2 = (v / 128).log2 + 7 := by
    obtain ⟨hle, hlt⟩ := (Nat.log2_eq_iff hdiv).mp rfl
    rw [Nat.log2_eq_iff (by omega)]
    constructor
    · rw [Nat.pow_add]
      omega
    · rw [Nat.add_right_comm, Nat.pow_add]
      omega
  simp [bitLength, hlog, hdiv, show v ≠ 0 by omega, Nat.add_right_comm]

theorem bitLength_le_iff {v bits : Nat} : bitLength v ≤ bits ↔ v < 2 ^ bits := by
  rcases Nat.eq_zero_or_pos v with rfl | hv
  · simp [bitLength]
  · rw [bitLength, if_neg hv.ne', Nat.add_one_le_iff, Nat.log2_lt hv.ne']

theorem size_of_lt {v : Nat} (h : v < 128) : size v = 1 := by
  have hbits : bitLength v ≤ 7 := bitLength_le_iff.mpr h
  rw [size, groupsFor]
  omega

theorem size_of_ge {v : Nat} (h : 128 ≤ v) : size v = size (v / 128) + 1 := by
  have hpos : 0 < bitLength (v / 128) := by
    rw [bitLength, if_neg (by omega)]
    omega
  rw [size, size, bitLength_of_ge h, groupsFor, groupsFor]
  omega

theorem size_pos (v : Nat) : 0 < size v := by
  rw [size]
  omega

/-- The groups that hold the width hold the value. -/
theorem size_le_groupsFor {bits v : Nat} (hbits : 0 < bits) (h : v < 2 ^ bits) : size v ≤ groupsFor bits := by
  have := bitLength_le_iff.mpr h
  rw [size, groupsFor, groupsFor]
  omega

theorem size_le_maxSize {bits v : Nat} (h : v < 2 ^ bits) : size v ≤ maxSize bits := by
  have := bitLength_le_iff.mpr h
  rw [size, maxSize, groupsFor, groupsFor]
  omega

theorem size_le_of_lt_pow {v k : Nat} (hk : 0 < k) (h : v < 128 ^ k) : size v ≤ k := by
  have hbits : v < 2 ^ (7 * k) := by rwa [Nat.pow_mul]
  have := size_le_groupsFor (by omega) hbits
  rw [groupsFor] at this
  omega

/-! ### The form -/

/-- The bytes of some groups: the high bit is set in all but the last. -/
def marked : List Nat → Bytes
  | [] => []
  | [d] => [UInt8.ofNat d]
  | d :: e :: ds => UInt8.ofNat (d + 128) :: marked (e :: ds)

/-- The bytes of the digits of `v` to the base 128, the lowest first. There are no more digits than `v`
    needs, and zero has one. -/
def canonical (v : Nat) : Bytes := marked (if v = 0 then [0] else Nat.digits 128 v)

theorem canonical_of_lt {v : Nat} (h : v < 128) : canonical v = [UInt8.ofNat v] := by
  rcases Nat.eq_zero_or_pos v with rfl | hv
  · rfl
  · rw [canonical, if_neg hv.ne', Nat.digits_of_lt 128 v hv.ne' h, marked]

theorem canonical_of_ge {v : Nat} (h : 128 ≤ v) :
    canonical v = UInt8.ofNat (v % 128 + 128) :: canonical (v / 128) := by
  have hv : v ≠ 0 := by omega
  have hdiv : v / 128 ≠ 0 := by omega
  rw [canonical, canonical, if_neg hv, if_neg hdiv, Nat.digits_def' (by decide) (by omega)]
  rcases hd : Nat.digits 128 (v / 128) with _ | ⟨e, ds⟩
  · exact absurd (Nat.digits_eq_nil_iff_eq_zero.mp hd) hdiv
  · rw [marked]

/-- The canonical form of a value is that of its last group, or its first group in front of the form of
    the rest. -/
theorem canonical_induction {P : Nat → Prop} (last : ∀ v, v < 128 → P v)
    (more : ∀ v, 128 ≤ v → P (v / 128) → P v) (v : Nat) : P v := by
  induction v using Nat.strongRecOn with
  | ind v ih =>
    rcases Nat.lt_or_ge v 128 with h | h
    · exact last v h
    · exact more v h (ih (v / 128) (by omega))

theorem lt_pow_size (v : Nat) : v < 128 ^ size v := by
  induction v using canonical_induction with
  | last v h => rwa [size_of_lt h, Nat.pow_one]
  | more v h ih => rwa [size_of_ge h, Nat.pow_succ, ← Nat.div_lt_iff_lt_mul (by decide)]

theorem canonical_eq_spelling {v more : Nat} (h : more + 1 = size v) : canonical v = spelling more v := by
  induction v using canonical_induction generalizing more with
  | last v hv =>
    rw [size_of_lt hv] at h
    obtain rfl : more = 0 := by omega
    exact canonical_of_lt hv
  | more v hv ih =>
    rw [size_of_ge hv, Nat.add_left_inj] at h
    obtain ⟨more, rfl⟩ := Nat.exists_eq_add_one.mpr (h ▸ size_pos (v / 128))
    rw [canonical_of_ge hv, ih h, spelling]

theorem canonical_spells (v : Nat) :
    (canonical v).length = size v ∧ value (canonical v) = v ∧ extent? (canonical v) = some (size v) := by
  have hlt := lt_pow_size v
  obtain ⟨more, hmore⟩ := Nat.exists_eq_add_one.mpr (size_pos v)
  rw [hmore] at hlt ⊢
  rw [canonical_eq_spelling hmore.symm]
  exact ⟨length_spelling more v, value_spelling hlt, extent?_spelling hlt⟩

theorem length_canonical (v : Nat) : (canonical v).length = size v := (canonical_spells v).1

theorem value_canonical (v : Nat) : value (canonical v) = v := (canonical_spells v).2.1

theorem extent?_canonical (v : Nat) : extent? (canonical v) = some (size v) := (canonical_spells v).2.2

theorem value_lt (b : Bytes) : value b < 128 ^ b.length := by
  have := Nat.ofDigits_lt_base_pow_length (b := 128) (l := b.map (·.toNat % 128)) (by decide) fun d hd => by
    obtain ⟨c, -, rfl⟩ := List.mem_map.mp hd
    exact Nat.mod_lt _ (by decide)
  rwa [List.length_map] at this

/-- No string of groups for a value is shorter than its canonical form. -/
theorem size_value_le {b : Bytes} (hb : b ≠ []) : size (value b) ≤ b.length :=
  size_le_of_lt_pow (List.length_pos_iff.mpr hb) (value_lt b)

/-! ### The encoder -/

theorem groups_eq (room v : Nat) : groups room v = if size v ≤ room + 1 then some (canonical v) else none := by
  induction room generalizing v with
  | zero =>
    rw [groups]
    rcases Nat.lt_or_ge v 128 with h | h
    · rw [if_pos h, if_pos (size_of_lt h).le, canonical_of_lt h]
    · have := size_pos (v / 128)
      rw [if_neg (by omega), if_neg (by rw [size_of_ge h]; omega)]
  | succ room ih =>
    rw [groups]
    rcases Nat.lt_or_ge v 128 with h | h
    · rw [if_pos h, if_pos (by rw [size_of_lt h]; omega), canonical_of_lt h]
    · rw [if_neg (by omega), ih, size_of_ge h, canonical_of_ge h]
      by_cases hs : size (v / 128) ≤ room + 1
      · rw [if_pos hs, if_pos (by omega), Option.map_some]
      · rw [if_neg hs, if_neg (by omega), Option.map_none]

/-- The encoder refuses a value only for having more groups than its width admits. -/
theorem encode_eq (bits v : Nat) :
    encode bits v = if size v ≤ maxSize bits then .ok (canonical v) else .error (.varintOverflow bits) := by
  rw [encode, groups_eq, maxSize]
  by_cases h : size v ≤ groupsFor bits + 1
  · rw [if_pos h, if_pos h]
  · rw [if_neg h, if_neg h]

theorem encode_of_lt {bits v : Nat} (h : v < 2 ^ bits) : encode bits v = .ok (canonical v) := by
  rw [encode_eq, if_pos (size_le_maxSize h)]

/-! ### Reading back -/

theorem begins_canonical {bits v : Nat} (h : v < 2 ^ bits) (t : Bytes) :
    Begins bits (canonical v ++ t) v (size v) := by
  refine Begins.append ⟨extent?_canonical v, ?_, ?_, h⟩ t
  · rw [← maxSize_eq]
    exact size_le_maxSize h
  · rw [List.take_of_length_le (length_canonical v).le, value_canonical]

theorem decode_canonical {bits v : Nat} (h : v < 2 ^ bits) (t : Bytes) :
    decode bits (canonical v ++ t) 0 = .ok (v, size v) :=
  decode_eq_ok_iff.mpr ⟨Nat.zero_le _, begins_canonical h t⟩

/-- A width that has no room for the value finds neither a smaller one nor the end of the input. -/
theorem decode_canonical_of_ge {bits v : Nat} (h : 2 ^ bits ≤ v) (t : Bytes) :
    decode bits (canonical v ++ t) 0 = .error .invalidVarint := by
  have hends : extent? (canonical v ++ t) = some (size v) := extent?_append_of_some t (extent?_canonical v)
  refine decode_eq_invalidVarint_iff.mpr ⟨Nat.zero_le _, fun u k hb => ?_, fun ht => ?_⟩
  · obtain rfl : size v = k := Option.some.inj (hends.symm.trans hb.ends)
    have hu := hb.spells
    rw [List.drop_zero, List.take_left' (length_canonical v), value_canonical] at hu
    exact absurd hb.fits (by omega)
  · rw [List.drop_zero] at ht
    rw [ht.extent?_eq_none] at hends
    cases hends

/-- Every width that has room for a value writes the same shortest bytes, and every width reads them back
    or refuses them by whether it has room. -/
theorem encode_portable {bits v : Nat} (hbits : 0 < bits) (hv : v < 2 ^ bits) (other : Nat) (t : Bytes) :
    encode bits v = .ok (canonical v) ∧
    (canonical v).length = size v ∧
    size v ≤ bits ⌈/⌉ 7 ∧
    (∀ b, extent? b = some b.length → value b = v → size v ≤ b.length) ∧
    decode other (canonical v ++ t) 0 =
      if v < 2 ^ other then .ok (v, size v) else .error .invalidVarint := by
  refine ⟨encode_of_lt hv, length_canonical v, ?_, fun b hb hval => ?_, ?_⟩
  · have hle := size_le_groupsFor hbits hv
    have hmax := maxSize_eq bits
    rw [maxSize] at hmax
    omega
  · subst hval
    exact size_value_le (List.length_pos_iff.mp (length_of_extent? hb).1)
  · rcases Nat.lt_or_ge v (2 ^ other) with h | h
    · rw [if_pos h, decode_canonical h]
    · rw [if_neg (Nat.not_lt.mpr h), decode_canonical_of_ge h]

/-- 300 written at 16 bits is too wide for 8. -/
theorem encode_portable_three_hundred :
    0 < 16 ∧ 300 < 2 ^ 16 ∧ encode 16 300 = .ok [0xAC, 0x02] ∧
      decode 8 ([0xAC, 0x02] ++ [0x05]) 0 = .error .invalidVarint := by
  have h := encode_portable (show 0 < 16 by decide) (show 300 < 2 ^ 16 by decide) 8 [0x05]
  have hc : canonical 300 = [0xAC, 0x02] := by
    rw [canonical_of_ge (by decide), canonical_of_lt (by decide)]
    rfl
  rw [hc] at h
  exact ⟨by decide, by decide, h.1, by simpa using h.2.2.2.2⟩

end WireFormat.Varint
