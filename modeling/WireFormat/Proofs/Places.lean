import Mathlib.Algebra.BigOperators.Fin
import Mathlib.Algebra.BigOperators.Ring.Finset
import Mathlib.Data.List.Indexes
import WireFormat.Proofs.Cursor
import WireFormat.Proofs.Packed

/-! Packed integers at an offset. An integer is the sum of its bytes, each weighted by the power of 256 that its place
    in the byte order gives it. Unpacking finds this sum wherever all the bytes are there, and packing gives the
    same bytes back. -/

namespace WireFormat.Packed

/-! ### Weights -/

/-- Where, among `n` bytes, the one stands that is weighted by `256 ^ i`. -/
def place (n : Nat) : ByteOrder → Nat → Nat
  | .little, i => i
  | .big, i => n - 1 - i

theorem place_lt {n i : Nat} (h : i < n) (order : ByteOrder) : place n order i < n := by
  cases order with
  | little => exact h
  | big =>
    rw [place]
    omega

theorem ofDigits_eq_sum (b : Bytes) :
    ofDigits b = ∑ i ∈ Finset.range b.length, (b.getD i 0).toNat * 256 ^ i := by
  have hlen : (b.map UInt8.toNat).length = b.length := List.length_map _
  rw [ofDigits_eq, Nat.ofDigits_eq_sum_mapIdx, List.mapIdx_eq_ofFn, List.sum_ofFn, ← hlen, Finset.sum_range]
  refine Finset.sum_congr rfl fun i _ => ?_
  have hi : i.val < b.length := by simpa using i.isLt
  simp [hi]

theorem getD_arrange (order : ByteOrder) {b : Bytes} {i : Nat} (h : i < b.length) :
    (arrange order b).getD i 0 = b.getD (place b.length order i) 0 := by
  cases order with
  | little => rfl
  | big => rw [arrange, place, List.getD_eq_getElem?_getD, List.getElem?_reverse h, List.getD_eq_getElem?_getD]

theorem toNat_ofBytes_eq_sum (order : ByteOrder) (b : Bytes) :
    (ofBytes b.length order b).toNat =
      ∑ i ∈ Finset.range b.length, (b.getD (place b.length order i) 0).toNat * 256 ^ i := by
  rw [toNat_ofBytes, ofDigits_eq_sum, length_arrange]
  exact Finset.sum_congr rfl fun i hi => by rw [getD_arrange order (Finset.mem_range.mp hi)]

/-! ### Offsets -/

section Offsets
variable {n : Nat} {order : ByteOrder} {packed : Bytes} {offset : Nat}

theorem decode_eq_endOfBuffer_iff : decode n order packed offset = .error .endOfBuffer ↔ packed.length < offset + n := by
  rw [decode]
  by_cases h : offset + n ≤ packed.length
  · simp [h]
  · simp [h, Nat.not_le.mp h]

theorem decode_of_le (h : offset + n ≤ packed.length) :
    decode n order packed offset = .ok (ofBytes n order ((packed.drop offset).take n)) := if_pos h

theorem length_window (h : offset + n ≤ packed.length) : ((packed.drop offset).take n).length = n := by
  rw [List.length_take, List.length_drop]
  omega

theorem getD_window {j : Nat} (hj : j < n) : ((packed.drop offset).take n).getD j 0 = packed.getD (offset + j) 0 := by
  rw [List.getD_eq_getElem?_getD, List.getElem?_take_of_lt hj, List.getElem?_drop, List.getD_eq_getElem?_getD]

theorem toNat_window (h : offset + n ≤ packed.length) :
    (ofBytes n order ((packed.drop offset).take n)).toNat =
      ∑ i ∈ Finset.range n, (packed.getD (offset + place n order i) 0).toNat * 256 ^ i := by
  have hsum := toNat_ofBytes_eq_sum order ((packed.drop offset).take n)
  rw [length_window h] at hsum
  rw [hsum]
  exact Finset.sum_congr rfl fun i hi => by rw [getD_window (place_lt (Finset.mem_range.mp hi) order)]

theorem encode_window (h : offset + n ≤ packed.length) :
    encode order (ofBytes n order ((packed.drop offset).take n)) = (packed.drop offset).take n := by
  have hback := encode_ofBytes order ((packed.drop offset).take n)
  rwa [length_window h] at hback

end Offsets

theorem decode_append (order : ByteOrder) {n : Nat} (v : Word n) (x y : Bytes) :
    decode n order (x ++ encode order v ++ y) x.length = .ok v := by
  rw [← decode_drop (by simp), List.append_assoc, List.drop_left, decode_encode_append]

/-- Unpacking fails just if the bytes asked for go past the end. Otherwise it finds the sum of the bytes by their
    weights, whose packed form they are; and the packed form of any integer is unpacked wherever it stands. One
    byte order is the reverse of the other, and a cursor reads what stands at its position. -/
theorem decode_places {n : Nat} (order : ByteOrder) :
    (∀ packed offset, decode n order packed offset = .error .endOfBuffer ↔ packed.length < offset + n) ∧
    (∀ packed offset, ¬packed.length < offset + n → ∃ v : Word n, decode n order packed offset = .ok v ∧
      v.toNat = ∑ i ∈ Finset.range n, (packed.getD (offset + place n order i) 0).toNat * 256 ^ i ∧
      encode order v = (packed.drop offset).take n) ∧
    (∀ (v : Word n) (x y : Bytes), decode n order (x ++ encode order v ++ y) x.length = .ok v) ∧
    (∀ v : Word n, encode .big v = (encode .little v).reverse) ∧
    (∀ (c : Cursor) (peek : Bool), (c.read (.word n order) peek).1 = decode n order c.data c.position ∧
      ∀ v : Word n, (c.read (.word n order) peek).1 = .ok v →
        (c.read (.word n order) peek).2.position = if peek then c.position else c.position + n) := by
  refine ⟨fun _ _ => decode_eq_endOfBuffer_iff, fun packed offset h => ?_, fun v x y => decode_append order v x y,
    fun _ => rfl, fun c peek => ?_⟩
  · have hle := Nat.not_lt.mp h
    exact ⟨_, decode_of_le hle, toNat_window hle, encode_window hle⟩
  · rw [Cursor.read, Field.read, Reading.word]
    rcases decode n order c.data c.position with e | v
    · exact ⟨rfl, fun v hv => by cases hv⟩
    · exact ⟨rfl, fun _ _ => by cases peek <;> rfl⟩

/-- Two bytes in the middle of four, and an offset that leaves no room for two more. -/
theorem decode_places_middle :
    let packed : Bytes := [0xFF, 0x02, 0x01, 0xFF]
    let c := (Cursor.ofBytes packed).moveTo 1
    ¬packed.length < 1 + 2 ∧
      (∃ v : Word 2, decode 2 .big packed 1 = .ok v ∧ v.toNat = 0x0201 ∧ encode .big v = [0x02, 0x01]) ∧
      packed.length < 2 ^ 64 - 1 + 2 ∧ decode 2 .big packed (2 ^ 64 - 1) = .error .endOfBuffer ∧
      (c.read (.word 2 .big) false).1 = .ok (0x0201 : Word 2) ∧ (c.read (.word 2 .big) false).2.position = 3 := by
  intro packed c
  obtain ⟨hshort, hfound, -, -, hread⟩ := decode_places (n := 2) .big
  have hroom : ¬packed.length < 1 + 2 := by decide
  have hend : packed.length < 2 ^ 64 - 1 + 2 := by decide
  have hv : (c.read (.word 2 .big) false).1 = .ok (0x0201 : Word 2) := by decide
  obtain ⟨v, hdecode, hsum, hback⟩ := hfound packed 1 hroom
  exact ⟨hroom, ⟨v, hdecode, hsum.trans (by decide), hback⟩, hend, (hshort packed _).mpr hend, hv,
    (hread c false).2 _ hv⟩

end WireFormat.Packed
