import Mathlib.Algebra.Order.Floor.Div
import Mathlib.Data.Nat.Digits.Lemmas
import WireFormat.Varint

/-! The groups of seven bits in a string of bytes: the number they spell to the base 128, where the bytes of
    a varint end, and which bytes spell a number in a given number of groups. Reading one group less leaves room
    for seven bits less, so whether a number fits its width can be told group by group (`cons_lt_two_pow_iff`). -/

namespace WireFormat.Varint

theorem maxSize_eq (bits : Nat) : maxSize bits = bits ⌈/⌉ 7 + 1 := by
  rw [maxSize, groupsFor, Nat.ceilDiv_eq_add_pred_div]
  rfl

/-! ### The number -/

/-- The number that the groups of `b` spell, the lowest first. -/
def value (b : Bytes) : Nat := Nat.ofDigits 128 (b.map (·.toNat % 128))

@[simp] theorem value_nil : value [] = 0 := rfl

@[simp] theorem value_cons (c : UInt8) (b : Bytes) : value (c :: b) = c.toNat % 128 + 128 * value b := by
  simp [value, Nat.ofDigits_cons]

theorem value_append (a b : Bytes) : value (a ++ b) = value a + 128 ^ a.length * value b := by
  simp [value, Nat.ofDigits_append]

/-- A group in front of a number fits if the group does and the number fits into seven bits less. -/
theorem cons_lt_two_pow_iff {bits g h : Nat} (hg : g < 128) :
    g + 128 * h < 2 ^ bits ↔ g < 2 ^ bits ∧ h < 2 ^ (bits - 7) := by
  rcases Nat.lt_or_ge bits 7 with hb | hb
  · have hle : 2 ^ bits ≤ 2 ^ 6 := Nat.pow_le_pow_right (by decide) (by omega)
    rw [Nat.sub_eq_zero_of_le (by omega), Nat.pow_zero]
    omega
  · obtain ⟨k, rfl⟩ := Nat.exists_eq_add_of_le hb
    have hpos : 0 < 2 ^ k := Nat.two_pow_pos k
    rw [Nat.add_sub_cancel_left, Nat.pow_add]
    omega

/-! ### The end -/

/-- The number of bytes up to the first whose high bit is clear, if there is one. -/
def extent? (b : Bytes) : Option Nat := (b.findIdx? (·.toNat < 128)).map (· + 1)

@[simp] theorem extent?_nil : extent? [] = none := rfl

theorem extent?_cons_of_lt {c : UInt8} (b : Bytes) (hc : c.toNat < 128) : extent? (c :: b) = some 1 := by
  simp [extent?, List.findIdx?_cons, hc]

theorem extent?_cons_of_ge {c : UInt8} (b : Bytes) (hc : ¬c.toNat < 128) :
    extent? (c :: b) = (extent? b).map (· + 1) := by
  simp [extent?, List.findIdx?_cons, hc]

theorem extent?_eq_none_iff {b : Bytes} : extent? b = none ↔ ∀ c ∈ b, 128 ≤ c.toNat := by
  simp [extent?, List.findIdx?_eq_none_iff]

theorem extent?_append (a b : Bytes) :
    extent? (a ++ b) = (extent? a).or ((extent? b).map (· + a.length)) := by
  induction a with
  | nil => simp
  | cons c a ih =>
    by_cases hc : c.toNat < 128
    · simp [extent?_cons_of_lt, hc]
    · rw [List.cons_append, extent?_cons_of_ge _ hc, extent?_cons_of_ge _ hc, ih]
      cases extent? a <;> cases extent? b <;> simp [Nat.add_assoc]

theorem extent?_append_of_some {a : Bytes} {k : Nat} (b : Bytes) (h : extent? a = some k) :
    extent? (a ++ b) = some k := by
  rw [extent?_append, h, Option.some_or]

theorem length_of_extent? {b : Bytes} {k : Nat} (h : extent? b = some k) : 0 < k ∧ k ≤ b.length := by
  obtain ⟨i, hi, rfl⟩ := Option.map_eq_some_iff.mp h
  have := (List.findIdx?_eq_some_iff_getElem.mp hi).1
  omega

/-! ### Numbers of groups

A varint is determined by its value and its number of groups. -/

/-- The varint of `value` with `more` groups in front of its last one. -/
def spelling : (more : Nat) → (value : Nat) → Bytes
  | 0, value => [UInt8.ofNat value]
  | more + 1, value => UInt8.ofNat (value % 128 + 128) :: spelling more (value / 128)

theorem length_spelling (more v : Nat) : (spelling more v).length = more + 1 := by
  induction more generalizing v with
  | zero => rfl
  | succ more ih => rw [spelling, List.length_cons, ih]

/-- The byte of a group that others follow. -/
theorem toNat_more (v : Nat) : (UInt8.ofNat (v % 128 + 128)).toNat = v % 128 + 128 := by
  rw [UInt8.toNat_ofNat']
  omega

theorem value_spelling {more v : Nat} (h : v < 128 ^ (more + 1)) : value (spelling more v) = v := by
  induction more generalizing v with
  | zero =>
    rw [spelling, value_cons, value_nil, UInt8.toNat_ofNat']
    omega
  | succ more ih =>
    rw [Nat.pow_succ, ← Nat.div_lt_iff_lt_mul (by decide)] at h
    rw [spelling, value_cons, toNat_more, ih h]
    omega

theorem extent?_spelling {more v : Nat} (h : v < 128 ^ (more + 1)) :
    extent? (spelling more v) = some (more + 1) := by
  induction more generalizing v with
  | zero =>
    refine extent?_cons_of_lt [] ?_
    rw [UInt8.toNat_ofNat']
    omega
  | succ more ih =>
    rw [Nat.pow_succ, ← Nat.div_lt_iff_lt_mul (by decide)] at h
    have hmore : ¬(UInt8.ofNat (v % 128 + 128)).toNat < 128 := by
      rw [toNat_more]
      omega
    rw [spelling, extent?_cons_of_ge _ hmore, ih h, Option.map_some]

theorem take_eq_spelling {b : Bytes} {more : Nat} (h : extent? b = some (more + 1)) :
    b.take (more + 1) = spelling more (value (b.take (more + 1))) := by
  induction more generalizing b with
  | zero =>
    obtain ⟨c, b, rfl⟩ := List.exists_cons_of_length_pos (length_of_extent? h).2
    have hc : c.toNat < 128 := by
      by_contra hc
      rw [extent?_cons_of_ge b hc] at h
      obtain ⟨k, hk, hadd⟩ := Option.map_eq_some_iff.mp h
      have := (length_of_extent? hk).1
      omega
    rw [List.take_succ_cons, List.take_zero, value_cons, value_nil, spelling, Nat.mod_eq_of_lt hc]
    simp
  | succ more ih =>
    obtain ⟨c, b, rfl⟩ := List.exists_cons_of_length_pos (Nat.lt_of_lt_of_le (Nat.succ_pos _) (length_of_extent? h).2)
    have hc : ¬c.toNat < 128 := fun hc => by
      rw [extent?_cons_of_lt b hc] at h
      have := Option.some.inj h
      omega
    rw [extent?_cons_of_ge b hc] at h
    obtain ⟨k, hk, hadd⟩ := Option.map_eq_some_iff.mp h
    obtain rfl : k = more + 1 := Nat.add_right_cancel hadd
    have hlow : c.toNat % 128 < 128 := Nat.mod_lt _ (by decide)
    have hbyte : (c.toNat % 128 + 128 * value (b.take (more + 1))) % 128 + 128 = c.toNat := by
      have := c.toNat_lt
      omega
    have hrest : (c.toNat % 128 + 128 * value (b.take (more + 1))) / 128 = value (b.take (more + 1)) := by omega
    rw [List.take_succ_cons, value_cons, spelling, hbyte, hrest, ← ih hk, UInt8.ofNat_toNat]

end WireFormat.Varint
