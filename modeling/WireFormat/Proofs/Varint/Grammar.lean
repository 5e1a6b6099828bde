import WireFormat.Proofs.Varint.Groups

/-! What the decoder of varints accepts, and which of its two failures it reports otherwise: input that
    only lacks bytes is truncated, all other is invalid. -/

namespace WireFormat.Varint

/-! ### The scan

One recursion follows the decoder: each step takes one byte, gives up one group of `room` and seven of
the free bits. -/

section Scan
variable {bits room : Nat}

theorem shiftRight_eq_zero_iff {g : Nat} : g >>> bits = 0 ↔ g < 2 ^ bits := by
  rw [Nat.shiftRight_eq_div_pow, Nat.div_eq_zero_iff_lt (Nat.two_pow_pos bits)]

theorem scan_cons_of_misfit {c : UInt8} (b : Bytes) (h : ¬c.toNat % 128 < 2 ^ bits) :
    scan bits room (c :: b) = (.error .invalidVarint, 1) := by
  have hg : (c.toNat % 128) >>> bits ≠ 0 := mt shiftRight_eq_zero_iff.mp h
  cases room <;> simp [scan, hg]

theorem scan_cons_of_last {c : UInt8} (b : Bytes) (h : c.toNat % 128 < 2 ^ bits) (hc : c.toNat < 128) :
    scan bits room (c :: b) = (.ok (c.toNat % 128), 1) := by
  have hg : (c.toNat % 128) >>> bits = 0 := shiftRight_eq_zero_iff.mpr h
  cases room <;> simp [scan, hg, hc]

theorem scan_cons_of_full {c : UInt8} (b : Bytes) (h : c.toNat % 128 < 2 ^ bits) (hc : ¬c.toNat < 128) :
    scan bits 0 (c :: b) = (.error .invalidVarint, 1) := by
  have hg : (c.toNat % 128) >>> bits = 0 := shiftRight_eq_zero_iff.mpr h
  simp [scan, hg, hc]

theorem scan_cons_of_more {c : UInt8} (b : Bytes) (h : c.toNat % 128 < 2 ^ bits) (hc : ¬c.toNat < 128) :
    scan bits (room + 1) (c :: b) =
      ((scan (bits - 7) room b).1.map (c.toNat % 128 + 128 * ·), (scan (bits - 7) room b).2 + 1) := by
  have hg : (c.toNat % 128) >>> bits = 0 := shiftRight_eq_zero_iff.mpr h
  simp [scan, hg, hc]

theorem scan_more_eq_ok_iff {c : UInt8} {b : Bytes} {v k : Nat} (h : c.toNat % 128 < 2 ^ bits)
    (hc : ¬c.toNat < 128) :
    scan bits (room + 1) (c :: b) = (.ok v, k) ↔
      ∃ u i, scan (bits - 7) room b = (.ok u, i) ∧ c.toNat % 128 + 128 * u = v ∧ i + 1 = k := by
  rw [scan_cons_of_more b h hc]
  rcases scan (bits - 7) room b with ⟨e | u, i⟩ <;> simp [Except.map]

/-- The first `k` bytes of `b` are a varint for `v`, with no more than `room` groups before the last. -/
structure Spells (bits room : Nat) (b : Bytes) (v k : Nat) : Prop where
  ends : extent? b = some k
  length_le : k ≤ room + 1
  spells : value (b.take k) = v
  fits : v < 2 ^ bits

theorem spells_cons_of_last {c : UInt8} {b : Bytes} {v k : Nat} (h : c.toNat % 128 < 2 ^ bits)
    (hc : c.toNat < 128) : Spells bits room (c :: b) v k ↔ c.toNat % 128 = v ∧ 1 = k := by
  constructor
  · intro hs
    obtain rfl : 1 = k := Option.some.inj ((extent?_cons_of_lt b hc).symm.trans hs.ends)
    exact ⟨by simpa using hs.spells, rfl⟩
  · rintro ⟨rfl, rfl⟩
    exact ⟨extent?_cons_of_lt b hc, Nat.le_add_left 1 room, by simp, h⟩

theorem spells_cons_of_more {c : UInt8} {b : Bytes} {v k : Nat} (h : c.toNat % 128 < 2 ^ bits)
    (hc : ¬c.toNat < 128) :
    Spells bits (room + 1) (c :: b) v k ↔
      ∃ u i, Spells (bits - 7) room b u i ∧ c.toNat % 128 + 128 * u = v ∧ i + 1 = k := by
  have hg : c.toNat % 128 < 128 := Nat.mod_lt _ (by decide)
  constructor
  · rintro ⟨hends, hk, hv, hlt⟩
    rw [extent?_cons_of_ge b hc] at hends
    obtain ⟨i, hi, rfl⟩ := Option.map_eq_some_iff.mp hends
    rw [List.take_succ_cons, value_cons] at hv
    have hrest := (cons_lt_two_pow_iff hg).mp (hv.symm ▸ hlt)
    exact ⟨value (b.take i), i, ⟨hi, Nat.le_of_succ_le_succ hk, rfl, hrest.2⟩, hv, rfl⟩
  · rintro ⟨u, i, ⟨hi, hk, rfl, hlt⟩, rfl, rfl⟩
    refine ⟨?_, Nat.succ_le_succ hk, ?_, (cons_lt_two_pow_iff hg).mpr ⟨h, hlt⟩⟩
    · rw [extent?_cons_of_ge b hc, hi, Option.map_some]
    · rw [List.take_succ_cons, value_cons]

/-- The first group of a varint fits, and is its last one if there is no room for more. -/
theorem Spells.head {c : UInt8} {b : Bytes} {v k : Nat} (h : Spells bits room (c :: b) v k) :
    c.toNat % 128 < 2 ^ bits ∧ (room = 0 → c.toNat < 128) := by
  obtain ⟨hends, hk, hv, hlt⟩ := h
  obtain ⟨j, rfl⟩ := Nat.exists_eq_succ_of_ne_zero (length_of_extent? hends).1.ne'
  rw [List.take_succ_cons, value_cons] at hv
  refine ⟨by omega, fun hroom => ?_⟩
  by_contra hc
  rw [extent?_cons_of_ge b hc] at hends
  obtain ⟨i, hi, hij⟩ := Option.map_eq_some_iff.mp hends
  have := (length_of_extent? hi).1
  omega

theorem scan_eq_ok_iff {b : Bytes} {v k : Nat} : scan bits room b = (.ok v, k) ↔ Spells bits room b v k := by
  induction b generalizing bits room v k with
  | nil => exact ⟨fun h => by simp [scan] at h, fun h => by cases h.ends⟩
  | cons c b ih =>
    by_cases hfit : c.toNat % 128 < 2 ^ bits
    · by_cases hc : c.toNat < 128
      · rw [scan_cons_of_last b hfit hc, spells_cons_of_last hfit hc]
        simp
      · rcases room with _ | room
        · rw [scan_cons_of_full b hfit hc]
          exact ⟨fun h => by simp at h, fun h => absurd (h.head.2 rfl) hc⟩
        · rw [scan_more_eq_ok_iff hfit hc, spells_cons_of_more hfit hc]
          simp only [ih]
    · rw [scan_cons_of_misfit b hfit]
      exact ⟨fun h => by simp at h, fun h => absurd h.head.1 hfit⟩

theorem scan_eq_endOfBuffer_iff {b : Bytes} :
    (scan bits room b).1 = .error .endOfBuffer ↔
      extent? b = none ∧ b.length ≤ room ∧ value b < 2 ^ bits := by
  induction b generalizing bits room with
  | nil => simp [scan]
  | cons c b ih =>
    have hg : c.toNat % 128 < 128 := Nat.mod_lt _ (by decide)
    rw [value_cons, cons_lt_two_pow_iff hg]
    by_cases hfit : c.toNat % 128 < 2 ^ bits
    · by_cases hc : c.toNat < 128
      · simp [scan_cons_of_last b hfit hc, extent?_cons_of_lt b hc]
      · rw [extent?_cons_of_ge b hc, Option.map_eq_none_iff]
        rcases room with _ | room
        · simp [scan_cons_of_full b hfit hc]
        · rw [scan_cons_of_more b hfit hc, List.length_cons, Nat.add_le_add_iff_right, ← and_assoc]
          simp only [hfit, true_and, and_assoc, ← ih]
          rcases scan (bits - 7) room b with ⟨r | u, i⟩ <;> simp [Except.map]
    · simp [scan_cons_of_misfit b hfit, hfit]

theorem scan_error {b : Bytes} {e : Error} (h : (scan bits room b).1 = .error e) :
    e = .endOfBuffer ∨ e = .invalidVarint := by
  induction b generalizing bits room with
  | nil =>
    rw [scan] at h
    exact Or.inl (Except.error.inj h).symm
  | cons c b ih =>
    by_cases hfit : c.toNat % 128 < 2 ^ bits
    · by_cases hc : c.toNat < 128
      · simp [scan_cons_of_last b hfit hc] at h
      · rcases room with _ | room
        · rw [scan_cons_of_full b hfit hc] at h
          exact Or.inr (Except.error.inj h).symm
        · rw [scan_cons_of_more b hfit hc] at h
          rcases hs : scan (bits - 7) room b with ⟨r | u, i⟩
          · rw [hs] at h
            exact ih (by rw [hs]; exact h)
          · simp [hs, Except.map] at h
    · rw [scan_cons_of_misfit b hfit] at h
      exact Or.inr (Except.error.inj h).symm

end Scan

/-! ### The grammar -/

/-- `b` begins with a varint of `k` bytes for the value `v` of `bits` bits: its `k`-th byte is the first
    one to end a varint. -/
structure Begins (bits : Nat) (b : Bytes) (v k : Nat) : Prop where
  ends : extent? b = some k
  length_le : k ≤ bits ⌈/⌉ 7 + 1
  spells : v = value (b.take k)
  fits : v < 2 ^ bits

/-- `b` breaks off within a varint of `bits` bits. -/
structure Truncated (bits : Nat) (b : Bytes) : Prop where
  unended : ∀ c ∈ b, 128 ≤ c.toNat
  length_lt : b.length < bits ⌈/⌉ 7 + 1
  fits : value b < 2 ^ bits

section Grammar
variable {bits : Nat} {b : Bytes}

theorem spells_iff_begins {v k : Nat} : Spells bits (groupsFor bits) b v k ↔ Begins bits b v k := by
  have hmax := maxSize_eq bits
  rw [maxSize] at hmax
  constructor
  · intro h
    exact ⟨h.ends, hmax ▸ h.length_le, h.spells.symm, h.fits⟩
  · intro h
    exact ⟨h.ends, hmax ▸ h.length_le, h.spells.symm, h.fits⟩

theorem scan_eq_endOfBuffer_iff_truncated :
    (scan bits (groupsFor bits) b).1 = .error .endOfBuffer ↔ Truncated bits b := by
  rw [scan_eq_endOfBuffer_iff, extent?_eq_none_iff, ← Nat.lt_succ_iff]
  change _ ∧ _ < maxSize bits ∧ _ ↔ _
  rw [maxSize_eq]
  exact ⟨fun ⟨h₁, h₂, h₃⟩ => ⟨h₁, h₂, h₃⟩, fun h => ⟨h.unended, h.length_lt, h.fits⟩⟩

theorem Begins.append {v k : Nat} (h : Begins bits b v k) (t : Bytes) : Begins bits (b ++ t) v k where
  ends := extent?_append_of_some t h.ends
  length_le := h.length_le
  spells := by rw [List.take_append_of_le_length (length_of_extent? h.ends).2, h.spells]
  fits := h.fits

theorem Truncated.extent?_eq_none (h : Truncated bits b) : extent? b = none :=
  extent?_eq_none_iff.mpr h.unended

/-- A last group of zeros ends what breaks off, and does not change the number. -/
theorem Truncated.begins (h : Truncated bits b) : Begins bits (b ++ [0]) (value b) (b.length + 1) where
  ends := by
    rw [extent?_append, h.extent?_eq_none, extent?_cons_of_lt [] (by decide)]
    simp [Nat.add_comm]
  length_le := h.length_lt
  spells := by simp [value_append, List.take_of_length_le]
  fits := h.fits

/-- If more bytes complete a varint, the bytes so far hold it or break off within it. -/
theorem Begins.of_append {t : Bytes} {v k : Nat} (h : Begins bits (b ++ t) v k) :
    Begins bits b v k ∨ Truncated bits b := by
  rcases hb : extent? b with _ | j
  · right
    have hends := h.ends
    rw [extent?_append, hb, Option.none_or] at hends
    obtain ⟨i, hi, rfl⟩ := Option.map_eq_some_iff.mp hends
    have hle := h.length_le
    have hpos := (length_of_extent? hi).1
    have hv := h.spells ▸ h.fits
    rw [List.take_append, value_append, List.take_of_length_le (by omega)] at hv
    exact ⟨extent?_eq_none_iff.mp hb, by omega, by omega⟩
  · left
    obtain rfl : j = k := Option.some.inj ((extent?_append_of_some t hb).symm.trans h.ends)
    refine ⟨hb, h.length_le, ?_, h.fits⟩
    rw [h.spells, List.take_append_of_le_length (length_of_extent? hb).2]

end Grammar

/-! ### The decoder -/

section Decode
variable {bits : Nat} {packed : Bytes} {offset : Nat}

theorem decode_eq_ok_iff {v k : Nat} :
    decode bits packed offset = .ok (v, k) ↔
      offset ≤ packed.length ∧ Begins bits (packed.drop offset) v k := by
  rw [← spells_iff_begins, ← scan_eq_ok_iff, decode]
  by_cases ho : offset ≤ packed.length
  · rcases scan bits (groupsFor bits) (packed.drop offset) with ⟨e | u, i⟩ <;> simp [ho]
  · simp [ho]

theorem decode_eq_endOfBuffer_iff :
    decode bits packed offset = .error .endOfBuffer ↔
      packed.length < offset ∨ Truncated bits (packed.drop offset) := by
  rw [← scan_eq_endOfBuffer_iff_truncated, decode, ← Nat.not_le]
  by_cases ho : offset ≤ packed.length
  · rcases scan bits (groupsFor bits) (packed.drop offset) with ⟨e | u, i⟩ <;> simp [ho]
  · simp [ho]

theorem decode_error {e : Error} (h : decode bits packed offset = .error e) :
    e = .endOfBuffer ∨ e = .invalidVarint := by
  rw [decode] at h
  by_cases ho : offset ≤ packed.length
  · rw [if_pos ho] at h
    rcases hs : scan bits (groupsFor bits) (packed.drop offset) with ⟨e' | u, i⟩
    · rw [hs] at h
      obtain rfl : e' = e := Except.error.inj h
      exact scan_error (congrArg Prod.fst hs)
    · rw [hs] at h
      cases h
  · rw [if_neg ho] at h
    exact Or.inl (Except.error.inj h).symm

theorem decode_eq_invalidVarint_iff :
    decode bits packed offset = .error .invalidVarint ↔
      offset ≤ packed.length ∧ (∀ v k, ¬Begins bits (packed.drop offset) v k) ∧
        ¬Truncated bits (packed.drop offset) := by
  constructor
  · intro h
    have hnot : ¬(packed.length < offset ∨ Truncated bits (packed.drop offset)) := fun h' => by
      simp [decode_eq_endOfBuffer_iff.mpr h'] at h
    have ho : offset ≤ packed.length := Nat.not_lt.mp fun h' => hnot (Or.inl h')
    refine ⟨ho, fun v k hb => ?_, fun ht => hnot (Or.inr ht)⟩
    simp [decode_eq_ok_iff.mpr ⟨ho, hb⟩] at h
  · rintro ⟨ho, hbegins, htruncated⟩
    rcases h : decode bits packed offset with e | ⟨v, k⟩
    · rcases decode_error h with rfl | rfl
      · rcases decode_eq_endOfBuffer_iff.mp h with hlt | ht
        · omega
        · exact absurd ht htruncated
      · rfl
    · exact absurd (decode_eq_ok_iff.mp h).2 (hbegins v k)

/-- Truncated input is what is not accepted yet and could be with more bytes. -/
theorem decode_eq_endOfBuffer_iff_extends (ho : offset ≤ packed.length) :
    decode bits packed offset = .error .endOfBuffer ↔
      (∀ r, decode bits packed offset ≠ .ok r) ∧ ∃ t r, decode bits (packed ++ t) offset = .ok r := by
  constructor
  · intro h
    have ht := (decode_eq_endOfBuffer_iff.mp h).resolve_left (Nat.not_lt.mpr ho)
    have hb := ht.begins
    rw [← List.drop_append_of_le_length ho] at hb
    refine ⟨fun r hr => by simp [h] at hr, [0], _, decode_eq_ok_iff.mpr ⟨?_, hb⟩⟩
    rw [List.length_append]
    omega
  · rintro ⟨hfail, t, ⟨v, k⟩, h⟩
    have hb := (decode_eq_ok_iff.mp h).2
    rw [List.drop_append_of_le_length ho] at hb
    rcases hb.of_append with hb | ht
    · exact absurd (decode_eq_ok_iff.mpr ⟨ho, hb⟩) (hfail _)
    · exact decode_eq_endOfBuffer_iff.mpr (Or.inr ht)

/-- The decoder accepts what begins with a varint, calls truncated what more bytes could make acceptable
    and an offset past the end, and calls all else invalid. -/
theorem decode_grammar (bits : Nat) (packed : Bytes) (offset : Nat) :
    (∀ v k, decode bits packed offset = .ok (v, k) ↔
      offset ≤ packed.length ∧ Begins bits (packed.drop offset) v k) ∧
    (decode bits packed offset = .error .endOfBuffer ↔
      packed.length < offset ∨ Truncated bits (packed.drop offset)) ∧
    (offset ≤ packed.length ∧ decode bits packed offset = .error .endOfBuffer ↔
      offset ≤ packed.length ∧ (∀ r, decode bits packed offset ≠ .ok r) ∧
        ∃ t r, decode bits (packed ++ t) offset = .ok r) ∧
    (decode bits packed offset = .error .invalidVarint ↔
      offset ≤ packed.length ∧ (∀ v k, ¬Begins bits (packed.drop offset) v k) ∧
        ¬Truncated bits (packed.drop offset)) :=
  ⟨fun _ _ => decode_eq_ok_iff, decode_eq_endOfBuffer_iff,
    and_congr_right fun ho => decode_eq_endOfBuffer_iff_extends ho, decode_eq_invalidVarint_iff⟩

/-- Groups of zeros past the width are accepted up to the bound. -/
example : decode 8 [0x80, 0x80, 0x00] 0 = .ok (0, 3) := by decide

end Decode

end WireFormat.Varint
