import Mathlib.Data.List.ModifyLast
import Mathlib.Data.Set.Card
import WireFormat.Proofs.Varint.Canonical

/-! The spellings of a value. A varint may hold groups of zeros behind those that its value needs, as long as the
    bound for the width is kept, and there is no other way to spell a value than its canonical form: so there is
    one spelling for each number of groups from those needed up to the bound. -/

namespace WireFormat.Varint

/-! ### Groups of zeros -/

/-- The bytes `b` of a varint, continued by `n` groups of zeros. -/
def padded (b : Bytes) : (n : Nat) → Bytes
  | 0 => b
  | n + 1 => b.modifyLast (· ||| 0x80) ++ List.replicate n 0x80 ++ [0]

theorem modifyLast_singleton (c : UInt8) : [c].modifyLast (· ||| 0x80) = [c ||| 0x80] :=
  List.modifyLast_concat _ c []

/-- Padding happens at the end. -/
theorem padded_cons (c : UInt8) {b : Bytes} (hb : b ≠ []) (n : Nat) : padded (c :: b) n = c :: padded b n := by
  cases n with
  | zero => rfl
  | succ n =>
    have hlast : (c :: b).modifyLast (· ||| 0x80) = c :: b.modifyLast (· ||| 0x80) :=
      List.modifyLast_append_of_right_ne_nil _ [c] b hb
    rw [padded, padded, hlast, List.cons_append, List.cons_append]

/-- Behind a last group that is padded stands a group of zeros, which is padded less. -/
theorem padded_singleton_succ (c : UInt8) (n : Nat) : padded [c] (n + 1) = (c ||| 0x80) :: padded [0] n := by
  cases n with
  | zero => simp [padded, modifyLast_singleton]
  | succ n => simp [padded, modifyLast_singleton, List.replicate_succ]

theorem ofNat_or_mark {v : Nat} (h : v < 128) : UInt8.ofNat v ||| 0x80 = UInt8.ofNat (v % 128 + 128) := by
  have bytes : ∀ v < 128, UInt8.ofNat v ||| 0x80 = UInt8.ofNat (v % 128 + 128) := by decide +kernel
  exact bytes v h

/-- The canonical form with groups of zeros behind it is the spelling with that many groups. -/
theorem padded_canonical {v n more : Nat} (h : more + 1 = size v + n) : padded (canonical v) n = spelling more v := by
  have hpos := size_pos v
  induction more generalizing v n with
  | zero =>
    obtain rfl : n = 0 := by omega
    exact canonical_eq_spelling h
  | succ more ih =>
    rcases Nat.lt_or_ge v 128 with hv | hv
    · -- The value needs one group, so all others hold zeros.
      rw [size_of_lt hv] at h
      obtain rfl : n = more + 1 := by omega
      have hzeros : padded [0] more = spelling more 0 := ih (v := 0) (by rw [size_of_lt (by decide)]; omega) (size_pos 0)
      rw [canonical_of_lt hv, padded_singleton_succ, hzeros, ofNat_or_mark hv, spelling, Nat.div_eq_of_lt hv]
    · rw [size_of_ge hv] at h
      have hne : canonical (v / 128) ≠ [] := by
        rw [← List.length_pos_iff, length_canonical]
        exact size_pos _
      rw [canonical_of_ge hv, padded_cons _ hne, ih (by omega) (size_pos _), spelling]

/-! ### What is accepted -/

/-- A varint stands in front just if these bytes are its canonical form with zeros behind it, within the bound. -/
theorem begins_iff_padded {bits : Nat} {b : Bytes} {v k : Nat} :
    Begins bits b v k ↔
      v < 2 ^ bits ∧ size v ≤ k ∧ k ≤ bits ⌈/⌉ 7 + 1 ∧ b.take k = padded (canonical v) (k - size v) := by
  constructor
  · rintro ⟨hends, hk, hv, hlt⟩
    obtain ⟨hpos, hlen⟩ := length_of_extent? hends
    obtain ⟨more, rfl⟩ := Nat.exists_eq_add_one.mpr hpos
    have htake : (b.take (more + 1)).length = more + 1 := List.length_take_of_le hlen
    have hsize : size v ≤ more + 1 := by
      have := size_value_le (b := b.take (more + 1)) (List.length_pos_iff.mp (by omega))
      rwa [← hv, htake] at this
    refine ⟨hlt, hsize, hk, ?_⟩
    rw [take_eq_spelling hends, ← hv, padded_canonical (Nat.add_sub_cancel' hsize).symm]
  · rintro ⟨hlt, hsize, hk, htake⟩
    obtain ⟨more, rfl⟩ := Nat.exists_eq_add_one.mpr (Nat.lt_of_lt_of_le (size_pos v) hsize)
    have hpow : v < 128 ^ (more + 1) :=
      Nat.lt_of_lt_of_le (lt_pow_size v) (Nat.pow_le_pow_right (by decide) hsize)
    rw [padded_canonical (Nat.add_sub_cancel' hsize).symm] at htake
    have hends : extent? b = some (more + 1) := by
      rw [← List.take_append_drop (more + 1) b, htake]
      exact extent?_append_of_some _ (extent?_spelling hpow)
    exact ⟨hends, hk, by rw [htake, value_spelling hpow], hlt⟩

theorem length_padded (v n : Nat) : (padded (canonical v) n).length = size v + n := by
  obtain ⟨more, hmore⟩ := Nat.exists_eq_add_one.mpr (Nat.add_pos_left (size_pos v) n)
  rw [padded_canonical hmore.symm, length_spelling, hmore]

/-- The spellings of a value are told apart by their lengths. -/
theorem padded_injective (v : Nat) : Function.Injective (padded (canonical v)) := fun m n h => by
  have hlen := congrArg List.length h
  rw [length_padded, length_padded] at hlen
  omega

theorem decode_whole_iff {bits v : Nat} (h : v < 2 ^ bits) {b : Bytes} :
    decode bits b 0 = .ok (v, b.length) ↔
      ∃ n < bits ⌈/⌉ (7 : Nat) + 2 - size v, padded (canonical v) n = b := by
  rw [decode_eq_ok_iff, List.drop_zero, begins_iff_padded, List.take_length]
  constructor
  · rintro ⟨-, -, hsize, hk, hb⟩
    exact ⟨b.length - size v, by omega, hb.symm⟩
  · rintro ⟨n, hn, rfl⟩
    rw [length_padded, Nat.add_sub_cancel_left]
    exact ⟨Nat.zero_le _, h, Nat.le_add_right _ _, by omega, rfl⟩

/-- The decoder accepts the canonical form of a value with any number of groups of zeros behind it that keeps the
    bound for the width, and nothing else; so it accepts a value in as many spellings as there are such numbers. -/
theorem decode_padded (bits : Nat) :
    (∀ packed offset v k, decode bits packed offset = .ok (v, k) →
      size v ≤ k ∧ k ≤ bits ⌈/⌉ (7 : Nat) + 1 ∧
        ∃ b, encode bits v = .ok b ∧ (packed.drop offset).take k = padded b (k - size v)) ∧
    (∀ v, v < 2 ^ bits → ∃ b, encode bits v = .ok b ∧
      (∀ k, size v ≤ k → k ≤ bits ⌈/⌉ (7 : Nat) + 1 → ∀ x t : Bytes,
        decode bits (x ++ padded b (k - size v) ++ t) x.length = .ok (v, k)) ∧
      {b | decode bits b 0 = .ok (v, b.length)}.ncard = bits ⌈/⌉ (7 : Nat) + 2 - size v) := by
  constructor
  · intro packed offset v k h
    obtain ⟨hlt, hsize, hk, htake⟩ := begins_iff_padded.mp (decode_eq_ok_iff.mp h).2
    exact ⟨hsize, hk, canonical v, encode_of_lt hlt, htake⟩
  · intro v hlt
    refine ⟨canonical v, encode_of_lt hlt, fun k hsize hk x t => ?_, ?_⟩
    · have hlen : (padded (canonical v) (k - size v)).length = k := by
        rw [length_padded]
        omega
      refine decode_eq_ok_iff.mpr ⟨by simp only [List.length_append]; omega, begins_iff_padded.mpr ⟨hlt, hsize, hk, ?_⟩⟩
      rw [List.append_assoc, List.drop_left, List.take_left' hlen]
    · have hset : {b | decode bits b 0 = .ok (v, b.length)} =
          padded (canonical v) '' (Finset.range (bits ⌈/⌉ (7 : Nat) + 2 - size v) : Set Nat) := by
        ext b
        simpa using decode_whole_iff hlt
      rw [hset, Set.ncard_image_of_injective _ (padded_injective v), Set.ncard_coe_finset, Finset.card_range]

/-- 200 has two spellings of 8 bits, and is found in the longer one. -/
theorem decode_padded_two_hundred :
    decode 8 [0xEE, 0xC8, 0x81, 0x00, 0x07] 1 = .ok (200, 3) ∧ 200 < 2 ^ 8 ∧ encode 8 200 = .ok [0xC8, 0x01] ∧
      [0xC8, 0x81, 0x00] = padded [0xC8, 0x01] 1 ∧ {b | decode 8 b 0 = .ok (200, b.length)}.ncard = 2 := by
  have hdecode : decode 8 [0xEE, 0xC8, 0x81, 0x00, 0x07] 1 = .ok (200, 3) := by decide
  have hencode : encode 8 200 = .ok [0xC8, 0x01] := by decide
  have hsize : size 200 = 2 := by rw [size_of_ge (by decide), size_of_lt (by decide)]
  obtain ⟨haccepted, hspellings⟩ := decode_padded 8
  obtain ⟨-, -, b, hb, htake⟩ := haccepted _ _ _ _ hdecode
  obtain rfl : b = [0xC8, 0x01] := Except.ok.inj (hb.symm.trans hencode)
  obtain ⟨-, -, -, hcount⟩ := hspellings 200 (by decide)
  rw [hsize] at htake hcount
  exact ⟨hdecode, by decide, hencode, htake, hcount⟩

end WireFormat.Varint
