import Mathlib.Data.Nat.Digits.Lemmas
import WireFormat.Packed

/-! Packed integers read back: packing and unpacking are inverse, whatever follows the packed bytes. -/

namespace WireFormat.Packed

/-! ### Digits

The bytes are digits to the base 256, filled up with zeros to the number of digits asked for. -/

theorem length_digits (n value : Nat) : (digits n value).length = n := by
  induction n generalizing value with
  | zero => rfl
  | succ n ih => rw [digits, List.length_cons, ih]

theorem ofDigits_eq (b : Bytes) : ofDigits b = Nat.ofDigits 256 (b.map UInt8.toNat) := by
  induction b with
  | nil => rfl
  | cons c b ih => rw [ofDigits, ih, List.map_cons, Nat.ofDigits_cons]

theorem map_toNat_digits {n value : Nat} (h : value < 256 ^ n) :
    (digits n value).map UInt8.toNat = Nat.digitsAppend 256 n value := by
  induction n generalizing value with
  | zero =>
    obtain rfl : value = 0 := Nat.lt_one_iff.mp h
    rfl
  | succ n ih =>
    rw [digits, List.map_cons, ih (by rw [Nat.pow_succ] at h; omega), UInt8.toNat_ofNat']
    rcases Nat.eq_zero_or_pos value with rfl | hpos
    · simp [Nat.digitsAppend, List.replicate_succ]
    · simp [Nat.digitsAppend, Nat.digits_def' (by decide : 1 < 256) hpos]

theorem lt_of_mem_map_toNat {b : Bytes} : ∀ d ∈ b.map UInt8.toNat, d < 256 := by
  intro d hd
  obtain ⟨c, -, rfl⟩ := List.mem_map.mp hd
  exact c.toNat_lt

theorem ofDigits_lt (b : Bytes) : ofDigits b < 256 ^ b.length := by
  have h := Nat.ofDigits_lt_base_pow_length (by decide) (lt_of_mem_map_toNat (b := b))
  rwa [← ofDigits_eq, List.length_map] at h

theorem ofDigits_inj {x y : Bytes} (hlen : x.length = y.length) (h : ofDigits x = ofDigits y) : x = y := by
  rw [ofDigits_eq, ofDigits_eq] at h
  have hmap := Nat.ofDigits_inj_of_len_eq (by decide) (by simpa using hlen) lt_of_mem_map_toNat
    lt_of_mem_map_toNat h
  exact List.map_injective_iff.mpr (fun _ _ => UInt8.toNat_inj.mp) hmap

theorem ofDigits_digits {n value : Nat} (h : value < 256 ^ n) : ofDigits (digits n value) = value := by
  rw [ofDigits_eq, map_toNat_digits h]
  exact (Nat.setInvOn_digitsAppend_ofDigits (by decide) n).2 h

theorem digits_ofDigits (b : Bytes) : digits b.length (ofDigits b) = b :=
  ofDigits_inj (length_digits _ _) (ofDigits_digits (ofDigits_lt b))

/-! ### Packed integers -/

theorem length_arrange (order : ByteOrder) (b : Bytes) : (arrange order b).length = b.length := by
  cases order
  · rfl
  · exact List.length_reverse

theorem arrange_arrange (order : ByteOrder) (b : Bytes) : arrange order (arrange order b) = b := by
  cases order
  · rfl
  · exact List.reverse_reverse b

variable {n : Nat}

theorem length_encode (order : ByteOrder) (v : Word n) : (encode order v).length = n := by
  rw [encode, length_arrange, length_digits]

theorem ofBytes_encode (order : ByteOrder) (v : Word n) : ofBytes n order (encode order v) = v := by
  have hlt : v.toNat < 256 ^ n := by
    have := v.isLt
    rwa [Nat.pow_mul] at this
  rw [ofBytes, encode, arrange_arrange, ofDigits_digits hlt, BitVec.ofNat_toNat, BitVec.setWidth_eq]

theorem toNat_ofBytes (order : ByteOrder) (b : Bytes) :
    (ofBytes b.length order b).toNat = ofDigits (arrange order b) := by
  have hlt : ofDigits (arrange order b) < 2 ^ (8 * b.length) := by
    have := ofDigits_lt (arrange order b)
    rwa [length_arrange, show 256 = 2 ^ 8 from rfl, ← Nat.pow_mul] at this
  rw [ofBytes, BitVec.toNat_ofNat, Nat.mod_eq_of_lt hlt]

theorem encode_ofBytes (order : ByteOrder) (b : Bytes) : encode order (ofBytes b.length order b) = b := by
  have hdigits := digits_ofDigits (arrange order b)
  rw [length_arrange] at hdigits
  rw [encode, toNat_ofBytes, hdigits, arrange_arrange]

theorem decode_encode_append (order : ByteOrder) (v : Word n) (t : Bytes) :
    decode n order (encode order v ++ t) 0 = .ok v := by
  have hlen := length_encode order v
  rw [decode, if_pos (by rw [List.length_append, hlen]; omega), List.drop_zero, List.take_left' hlen,
    ofBytes_encode]

end WireFormat.Packed
