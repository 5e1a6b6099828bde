import Mathlib.Data.String.Basic
import WireFormat.Error

/-! Hexadecimal text and the bytes it spells. Text that is written from bytes reads back as those bytes, and
    text that is read is, in lowercase, what is written from the bytes read. -/

namespace WireFormat.Hex

/-! ### Digits -/

/-- The digits of either case. -/
def IsDigit (c : Char) : Prop := '0' ≤ c ∧ c ≤ '9' ∨ 'a' ≤ c ∧ c ≤ 'f' ∨ 'A' ≤ c ∧ c ≤ 'F'

instance : DecidablePred IsDigit := fun c => by unfold IsDigit; infer_instance

theorem IsDigit.toNat_lt {c : Char} (h : IsDigit c) : c.toNat < 128 := by
  have hle : ∀ a b : Char, a ≤ b → a.toNat ≤ b.toNat := fun a b hab => by
    rwa [Char.le_def, UInt32.le_iff_toNat_le] at hab
  rcases h with ⟨-, h⟩ | ⟨-, h⟩ | ⟨-, h⟩ <;> exact Nat.lt_of_le_of_lt (hle _ _ h) (by decide)

/-- A check of the 128 ASCII characters. -/
theorem of_ascii {P : Char → Prop} (h : ∀ n < 128, P (Char.ofNat n)) {c : Char} (hc : c.toNat < 128) : P c := by
  have hP := h c.toNat hc
  rwa [Char.ofNat_toNat] at hP

theorem digitValue?_of_isDigit {c : Char} (h : IsDigit c) :
    ∃ v < 16, digitValue? c = some v ∧ Nat.digitChar v = c.toLower :=
  of_ascii (P := fun c => IsDigit c → ∃ v < 16, digitValue? c = some v ∧ Nat.digitChar v = c.toLower)
    (by decide +kernel) h.toNat_lt h

theorem toLower_of_ge {c : Char} (h : 128 ≤ c.toNat) : c.toLower = c := by
  have hupper : ¬('A'.val ≤ c.val ∧ c.val ≤ 'Z'.val) := by
    rintro ⟨-, hle⟩
    exact absurd (UInt32.le_iff_toNat_le.mp hle) (Nat.not_le.mpr (Nat.lt_of_lt_of_le (by decide) h))
  exact dif_neg hupper

theorem isDigit_toLower_iff {c : Char} : IsDigit c.toLower ↔ IsDigit c := by
  rcases Nat.lt_or_ge c.toNat 128 with hlt | hge
  · exact of_ascii (P := fun c => IsDigit c.toLower ↔ IsDigit c) (by decide +kernel) hlt
  · rw [toLower_of_ge hge]

theorem digitValue?_digitChar {v : Nat} (h : v < 16) : digitValue? (Nat.digitChar v) = some v := by
  have small : ∀ v < 16, digitValue? (Nat.digitChar v) = some v := by decide
  exact small v h

theorem utf8Size_digitChar {v : Nat} (h : v < 16) : (Nat.digitChar v).utf8Size = 1 := by
  have small : ∀ v < 16, (Nat.digitChar v).utf8Size = 1 := by decide
  exact small v h

theorem utf8Len_eq_length {text : List Char} (h : ∀ c ∈ text, c.utf8Size = 1) :
    String.utf8Len text = text.length := by
  induction text with
  | nil => rfl
  | cons c text ih =>
    rw [String.utf8Len_cons, List.length_cons, h c List.mem_cons_self,
      ih fun d hd => h d (List.mem_cons_of_mem c hd)]

theorem IsDigit.utf8Size_eq {c : Char} (h : IsDigit c) : c.utf8Size = 1 := by
  rw [Char.utf8Size_eq_one_iff, UInt32.le_iff_toNat_le]
  exact Nat.le_of_lt_succ h.toNat_lt

/-! ### Reading what was written -/

/-- The high and the low half of each byte. -/
def halves (b : Bytes) : List Nat := b.flatMap fun c => [c.toNat / 16, c.toNat % 16]

theorem joinHalves_halves (b : Bytes) : joinHalves (halves b) = b := by
  induction b with
  | nil => rfl
  | cons c b ih =>
    have hc : UInt8.ofNat (16 * (c.toNat / 16) + c.toNat % 16) = c := by
      rw [Nat.div_add_mod, UInt8.ofNat_toNat]
    exact congrArg₂ List.cons hc ih

theorem digits_eq_map (b : Bytes) : digits b = (halves b).map Nat.digitChar := by
  rw [digits, halves, List.map_flatMap]
  rfl

theorem halves_lt {b : Bytes} {v : Nat} (h : v ∈ halves b) : v < 16 := by
  obtain ⟨c, -, hv⟩ := List.mem_flatMap.mp h
  have := c.toNat_lt
  rcases List.mem_pair.mp hv with rfl | rfl <;> omega

theorem length_halves (b : Bytes) : (halves b).length = 2 * b.length := by
  simp [halves, List.length_flatMap, Nat.mul_comm]

theorem digitValues_map {vs : List Nat} (h : ∀ v ∈ vs, v < 16) (position : Nat) :
    digitValues position (vs.map Nat.digitChar) = .ok vs := by
  induction vs generalizing position with
  | nil => rfl
  | cons v vs ih =>
    rw [List.map_cons, digitValues, digitValue?_digitChar (h v List.mem_cons_self)]
    simp only [ih fun u hu => h u (List.mem_cons_of_mem v hu), Except.map]

theorem utf8ByteSize_encode (b : Bytes) : (encode b).utf8ByteSize = 2 * b.length := by
  rw [encode, String.utf8ByteSize_ofList, digits_eq_map, utf8Len_eq_length, List.length_map, length_halves]
  intro c hc
  obtain ⟨v, hv, rfl⟩ := List.mem_map.mp hc
  exact utf8Size_digitChar (halves_lt hv)

theorem length_encode (b : Bytes) : (encode b).length = 2 * b.length := by
  rw [encode, String.length_ofList, digits_eq_map, List.length_map, length_halves]

theorem mem_encode {b : Bytes} {c : Char} (h : c ∈ (encode b).toList) :
    '0' ≤ c ∧ c ≤ '9' ∨ 'a' ≤ c ∧ c ≤ 'f' := by
  have small : ∀ v < 16, let c := Nat.digitChar v; '0' ≤ c ∧ c ≤ '9' ∨ 'a' ≤ c ∧ c ≤ 'f' := by decide
  rw [encode, String.toList_ofList, digits_eq_map] at h
  obtain ⟨v, hv, rfl⟩ := List.mem_map.mp h
  exact small v (halves_lt hv)

theorem isDigit_of_mem_encode {b : Bytes} {c : Char} (h : c ∈ (encode b).toList) : IsDigit c :=
  (mem_encode h).imp_right .inl

theorem decode_encode (b : Bytes) : decode (encode b) = .ok b := by
  have hsize : ¬(encode b).utf8ByteSize % 2 = 1 := by
    rw [utf8ByteSize_encode]
    omega
  rw [decode, if_neg hsize, encode, String.toList_ofList, digits_eq_map,
    digitValues_map (fun _ => halves_lt), Except.map, joinHalves_halves]

theorem encode_injective {b b' : Bytes} (h : encode b = encode b') : b = b' := by
  have hb := decode_encode b
  rw [h, decode_encode] at hb
  exact (Except.ok.inj hb).symm

/-! ### Writing what was read -/

/-- Text that spells bytes: an even number of digits and nothing else. -/
structure Valid (text : String) : Prop where
  even : text.length % 2 = 0
  digits : ∀ c ∈ text.toList, IsDigit c

instance (text : String) : Decidable (Valid text) :=
  decidable_of_iff (text.length % 2 = 0 ∧ text.toList.all (IsDigit ·) = true)
    ⟨fun ⟨heven, h⟩ => ⟨heven, by simpa using h⟩, fun h => ⟨h.even, by simpa using h.digits⟩⟩

theorem digitValues_of_isDigit {text : List Char} (h : ∀ c ∈ text, IsDigit c) (position : Nat) :
    ∃ vs, digitValues position text = .ok vs ∧ (∀ v ∈ vs, v < 16) ∧
      vs.map Nat.digitChar = text.map Char.toLower := by
  induction text generalizing position with
  | nil => exact ⟨[], rfl, by simp, rfl⟩
  | cons c text ih =>
    obtain ⟨v, hlt, hv, hlow⟩ := digitValue?_of_isDigit (h c List.mem_cons_self)
    obtain ⟨vs, hvs, hall, hmap⟩ := ih (fun d hd => h d (List.mem_cons_of_mem c hd)) (position + c.utf8Size)
    refine ⟨v :: vs, ?_, by simpa using ⟨hlt, hall⟩, by rw [List.map_cons, List.map_cons, hlow, hmap]⟩
    rw [digitValues, hv]
    simp only [hvs, Except.map]

theorem halves_joinHalves {vs : List Nat} (heven : vs.length % 2 = 0) (h : ∀ v ∈ vs, v < 16) :
    halves (joinHalves vs) = vs := by
  induction vs using joinHalves.induct with
  | case1 high low vs ih =>
    have hhigh := h high (by simp)
    have hlow := h low (by simp)
    have hbyte : (UInt8.ofNat (16 * high + low)).toNat = 16 * high + low :=
      UInt8.toNat_ofNat_of_lt (by rw [UInt8.size]; omega)
    have hrest := ih (by simp only [List.length_cons] at heven; omega) fun v hv => h v (by simp [hv])
    rw [joinHalves, halves, List.flatMap_cons, ← halves, hrest, hbyte, List.cons_append, List.cons_append,
      List.nil_append, show (16 * high + low) / 16 = high by omega, show (16 * high + low) % 16 = low by omega]
  | case2 vs hvs =>
    rcases vs with _ | ⟨v, _ | ⟨w, vs⟩⟩
    · rfl
    · simp at heven
    · exact absurd rfl (hvs v w vs)

theorem utf8ByteSize_of_isDigit {text : String} (h : ∀ c ∈ text.toList, IsDigit c) :
    text.utf8ByteSize = text.length := by
  rw [← String.ofList_toList (s := text), String.utf8ByteSize_ofList, String.length_ofList]
  exact utf8Len_eq_length fun c hc => (h c hc).utf8Size_eq

theorem Valid.decode {text : String} (h : Valid text) :
    ∃ b, decode text = .ok b ∧ b.length = text.length / 2 ∧ encode b = text.map Char.toLower := by
  obtain ⟨vs, hvs, hlt, hmap⟩ := digitValues_of_isDigit h.digits 0
  have hlen : vs.length = text.length := by
    rw [← String.length_toList, ← List.length_map (f := Char.toLower), ← hmap, List.length_map]
  have hback := halves_joinHalves (by rw [hlen]; exact h.even) hlt
  refine ⟨joinHalves vs, ?_, ?_, ?_⟩
  · have hsize : ¬text.utf8ByteSize % 2 = 1 := by
      rw [utf8ByteSize_of_isDigit h.digits, h.even]
      decide
    rw [Hex.decode, if_neg hsize, hvs]
    rfl
  · have := length_halves (joinHalves vs)
    rw [hback, hlen] at this
    omega
  · rw [encode, digits_eq_map, hback, hmap, ← String.toList_map, String.ofList_toList]

/-! ### Refusals -/

theorem isDigit_of_digitValue? {c : Char} {v : Nat} (h : digitValue? c = some v) : IsDigit c := by
  rw [digitValue?] at h
  split at h
  · exact .inl ‹_›
  · split at h
    · exact .inr (.inl ‹_›)
    · split at h
      · exact .inr (.inr ‹_›)
      · cases h

theorem digitValue?_eq_none_iff {c : Char} : digitValue? c = none ↔ ¬IsDigit c := by
  constructor
  · intro h hdigit
    obtain ⟨v, -, hv, -⟩ := digitValue?_of_isDigit hdigit
    rw [h] at hv
    cases hv
  · intro h
    rcases hv : digitValue? c with _ | v
    · rfl
    · exact absurd (isDigit_of_digitValue? hv) h

theorem isDigit_of_digitValues {text : List Char} {position : Nat} {vs : List Nat}
    (h : digitValues position text = .ok vs) : ∀ c ∈ text, IsDigit c := by
  induction text generalizing position vs with
  | nil => intro c hc; cases hc
  | cons c text ih =>
    rw [digitValues] at h
    cases hv : digitValue? c with
    | none =>
      rw [hv] at h
      cases h
    | some v =>
      simp only [hv] at h
      cases hrest : digitValues (position + c.utf8Size) text with
      | error e =>
        rw [hrest] at h
        cases h
      | ok us => exact List.forall_mem_cons.mpr ⟨isDigit_of_digitValue? hv, ih hrest⟩

/-- Just the texts that spell bytes are read. -/
theorem valid_iff_decode {text : String} : Valid text ↔ ∃ b, decode text = .ok b := by
  refine ⟨fun h => ?_, fun ⟨b, h⟩ => ?_⟩
  · obtain ⟨b, hb, -⟩ := h.decode
    exact ⟨b, hb⟩
  · rw [decode] at h
    split at h
    · cases h
    · rename_i heven
      cases hvs : digitValues 0 text.toList with
      | error e =>
        rw [hvs] at h
        cases h
      | ok vs =>
        have hdigits := isDigit_of_digitValues hvs
        rw [utf8ByteSize_of_isDigit hdigits] at heven
        exact ⟨by omega, hdigits⟩

/-- A text spells the bytes from which, in lowercase, it is written. -/
theorem decode_eq_ok_iff {text : String} {b : Bytes} : decode text = .ok b ↔ encode b = text.map Char.toLower := by
  constructor
  · intro h
    obtain ⟨b', hb', -, hlower⟩ := (valid_iff_decode.mpr ⟨b, h⟩).decode
    rw [h] at hb'
    rw [Except.ok.inj hb', hlower]
  · intro h
    have hvalid : Valid text := by
      constructor
      · rw [← String.length_map (f := Char.toLower), ← h, length_encode]
        omega
      · intro c hc
        rw [← isDigit_toLower_iff]
        apply isDigit_of_mem_encode (b := b)
        rw [h, String.toList_map]
        exact List.mem_map_of_mem hc
    obtain ⟨b', hb', -, hlower⟩ := hvalid.decode
    rw [hb', encode_injective (h.trans hlower.symm)]

/-- What is refused has an odd number of bytes, or a character that is no digit. -/
theorem refused_iff {text : String} :
    (∃ fault, decode text = .error fault) ↔ text.utf8ByteSize % 2 = 1 ∨ ∃ c ∈ text.toList, ¬IsDigit c := by
  have hdecode : (∃ fault, decode text = .error fault) ↔ ¬Valid text := by
    rw [valid_iff_decode]
    rcases decode text with fault | b <;> simp
  rw [hdecode]
  by_cases hdigits : ∀ c ∈ text.toList, IsDigit c
  · have hsize := utf8ByteSize_of_isDigit hdigits
    constructor
    · intro h
      refine .inl (Nat.mod_two_ne_zero.mp fun heven => h ⟨?_, hdigits⟩)
      rw [← hsize, heven]
    · rintro (hodd | ⟨c, hc, hbad⟩) hvalid
      · rw [hsize, hvalid.even] at hodd
        cases hodd
      · exact hbad (hdigits c hc)
  · exact iff_of_true (fun h => hdigits h.digits) (.inr (by simpa using hdigits))

end WireFormat.Hex

namespace WireFormat

theorem Bytes.ofHex_encode (b : Bytes) : Bytes.ofHex (Hex.encode b) = .ok b := by
  rw [Bytes.ofHex, Hex.decode_encode]
  rfl

end WireFormat
