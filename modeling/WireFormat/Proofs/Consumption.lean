import WireFormat.Field
import WireFormat.Proofs.Varint.Grammar

/-! How many bytes decoders take. Every decoder of a field takes a number of bytes from the front; a list
    takes at least the one byte of its count, so only blobs of no bytes are found in no bytes at all. -/

namespace WireFormat

namespace Decoder

variable {α β : Type} {r : CountRange} {b rest : Bytes}

/-! ### Decoders taken apart -/

instance : LawfulMonad Decoder := LawfulMonad.mk' Decoder
  (fun d => by
    funext r b
    rw [map_apply]
    rcases d r b with e | ⟨v, rest⟩ <;> rfl)
  (fun _ _ => rfl)
  (fun d f g => by
    funext r b
    simp only [bind_apply]
    rcases d r b with e | ⟨v, rest⟩ <;> rfl)

theorem pure_eq_ok_iff {v w : α} : (pure v : Decoder α) r b = .ok (w, rest) ↔ v = w ∧ b = rest := by
  rw [pure_apply]
  simp

theorem bind_eq_ok_iff {d : Decoder α} {next : α → Decoder β} {w : β} :
    (d >>= next) r b = .ok (w, rest) ↔ ∃ v mid, d r b = .ok (v, mid) ∧ next v r mid = .ok (w, rest) := by
  rw [bind_apply]
  rcases d r b with e | ⟨v, mid⟩ <;> simp

theorem bind_eq_error_iff {d : Decoder α} {next : α → Decoder β} {e : Error} :
    (d >>= next) r b = .error e ↔
      d r b = .error e ∨ ∃ v mid, d r b = .ok (v, mid) ∧ next v r mid = .error e := by
  rw [bind_apply]
  rcases d r b with e' | ⟨v, mid⟩ <;> simp

theorem map_eq_ok_iff {d : Decoder α} {f : α → β} {w : β} :
    (f <$> d) r b = .ok (w, rest) ↔ ∃ v, d r b = .ok (v, rest) ∧ f v = w := by
  rw [map_apply]
  rcases d r b with e | ⟨v, mid⟩ <;> simp [and_comm]

theorem map_eq_error_iff {d : Decoder α} {f : α → β} {e : Error} : (f <$> d) r b = .error e ↔ d r b = .error e := by
  rw [map_apply]
  rcases d r b with e' | ⟨v, rest⟩ <;> simp

theorem take_eq_ok_iff {n : Nat} {v : Bytes} :
    take n r b = .ok (v, rest) ↔ n ≤ b.length ∧ b.take n = v ∧ b.drop n = rest := by
  rw [take]
  by_cases hn : n ≤ b.length <;> simp [hn]

theorem take_eq_error_iff {n : Nat} {e : Error} : take n r b = .error e ↔ b.length < n ∧ e = .endOfBuffer := by
  rw [take, ← Nat.not_le]
  by_cases hn : n ≤ b.length <;> simp [hn, eq_comm]

theorem word_eq_map (n : Nat) (order : ByteOrder) : word n order = Packed.ofBytes n order <$> take n := by
  funext r b
  rw [word, map_apply, take, Packed.decode, Nat.zero_add, List.drop_zero]
  by_cases hn : n ≤ b.length <;> simp [hn]

theorem varint_eq_ok_iff {bits : Nat} {v : BitVec bits} :
    varint bits r b = .ok (v, rest) ↔
      ∃ u k, Varint.Begins bits b u k ∧ BitVec.ofNat bits u = v ∧ b.drop k = rest := by
  have hbegins : ∀ u k, Varint.decode bits b 0 = .ok (u, k) ↔ Varint.Begins bits b u k := fun u k => by
    rw [Varint.decode_eq_ok_iff, List.drop_zero]
    exact and_iff_right (Nat.zero_le _)
  rw [varint]
  simp only [← hbegins]
  rcases Varint.decode bits b 0 with e | ⟨u, k⟩ <;> simp

theorem varint_eq_error_iff {bits : Nat} {e : Error} :
    varint bits r b = .error e ↔ Varint.decode bits b 0 = .error e := by
  rw [varint]
  rcases Varint.decode bits b 0 with e' | ⟨u, k⟩ <;> simp

theorem varint_of_decode {bits n k : Nat} (h : Varint.decode bits b 0 = .ok (n, k)) :
    varint bits r b = .ok (BitVec.ofNat bits n, b.drop k) ∧ (BitVec.ofNat bits n).toNat = n := by
  have hn : n < 2 ^ bits := (Varint.decode_eq_ok_iff.mp h).2.fits
  rw [varint, h, BitVec.toNat_ofNat, Nat.mod_eq_of_lt hn]
  exact ⟨rfl, rfl⟩

theorem accept_eq_ok_iff {n m : Nat} :
    accept n r b = .ok (m, rest) ↔ r.contains n = true ∧ n = m ∧ b = rest := by
  rw [accept]
  by_cases hn : r.contains n = true <;> simp [hn]

theorem counted_eq_ok_iff {d : Decoder α} {declared : Nat} {v : α} :
    counted d declared r b = .ok (v, rest) ↔ d r b = .ok (v, rest) ∧
      ¬(rest.length = b.length ∧ r.isCapped = false ∧ rest.length < declared) := by
  rw [counted]
  rcases d r b with e | ⟨u, mid⟩
  · simp
  · by_cases hstop : mid.length = b.length ∧ r.isCapped = false ∧ mid.length < declared
    · simp only [if_pos hstop]
      constructor
      · intro h
        cases h
      · rintro ⟨h, hgo⟩
        cases h
        exact absurd hstop hgo
    · simp only [if_neg hstop]
      constructor
      · intro h
        cases h
        exact ⟨rfl, hstop⟩
      · exact And.left

theorem counted_eq_error_iff {d : Decoder α} {declared : Nat} {e : Error} :
    counted d declared r b = .error e ↔ d r b = .error e ∨ e = .invalidLength declared ∧
      ∃ v rest, d r b = .ok (v, rest) ∧ rest.length = b.length ∧ r.isCapped = false ∧ rest.length < declared := by
  rw [counted]
  rcases d r b with e' | ⟨u, mid⟩
  · simp
  · by_cases hstop : mid.length = b.length ∧ r.isCapped = false ∧ mid.length < declared
    · simp only [if_pos hstop]
      constructor
      · intro h
        cases h
        exact .inr ⟨rfl, u, mid, rfl, hstop⟩
      · rintro (h | ⟨rfl, -⟩)
        · cases h
        · rfl
    · simp only [if_neg hstop]
      constructor
      · intro h
        cases h
      · rintro (h | ⟨-, v, rest, h, hstop'⟩)
        · cases h
        · cases h
          exact absurd hstop' hstop

theorem count_eq_ok_iff {n : Nat} :
    count r b = .ok (n, rest) ↔ ∃ v, varint 64 r b = .ok (v, rest) ∧ v.toNat = n ∧ r.contains n = true := by
  constructor
  · intro h
    obtain ⟨v, mid, hv, h⟩ := bind_eq_ok_iff.mp h
    obtain ⟨hr, rfl, rfl⟩ := accept_eq_ok_iff.mp h
    exact ⟨v, hv, rfl, hr⟩
  · rintro ⟨v, hv, rfl, hr⟩
    exact bind_eq_ok_iff.mpr ⟨v, rest, hv, accept_eq_ok_iff.mpr ⟨hr, rfl, rfl⟩⟩

theorem count_of_refused {v : BitVec 64} (hv : varint 64 r b = .ok (v, rest)) (hr : r.contains v.toNat = false) :
    count r b = .error (.invalidLength v.toNat) := by
  refine bind_eq_error_iff.mpr (.inr ⟨v, rest, hv, ?_⟩)
  rw [accept, hr]
  rfl

theorem contains_of_count {n : Nat} (h : count r b = .ok (n, rest)) : r.contains n = true := by
  obtain ⟨-, -, -, hr⟩ := count_eq_ok_iff.mp h
  exact hr

section
variable {d : Decoder α} {n k : Nat}

theorem list_of_error {e : Error} (h : Varint.decode 64 b 0 = .error e) : list d r b = .error e :=
  bind_eq_error_iff.mpr (.inl (bind_eq_error_iff.mpr (.inl (varint_eq_error_iff.mpr h))))

theorem list_of_refused (h : Varint.decode 64 b 0 = .ok (n, k)) (hr : r.contains n = false) :
    list d r b = .error (.invalidLength n) := by
  obtain ⟨hv, hn⟩ := varint_of_decode (r := r) h
  rw [← hn] at hr ⊢
  exact bind_eq_error_iff.mpr (.inl (count_of_refused hv hr))

theorem list_of_accepted (h : Varint.decode 64 b 0 = .ok (n, k)) (hr : r.contains n = true) :
    list d r b = each (counted d n) n r (b.drop k) := by
  obtain ⟨hv, hn⟩ := varint_of_decode (r := r) h
  rw [list, bind_apply, count_eq_ok_iff.mpr ⟨_, hv, hn, hr⟩]

end

/-! ### Bytes taken -/

/-- Every value that `d` finds stands on `k` bytes at least. -/
def Takes (k : Nat) (d : Decoder α) : Prop :=
  ∀ ⦃r : CountRange⦄ ⦃b : Bytes⦄ ⦃v : α⦄ ⦃rest : Bytes⦄, d r b = .ok (v, rest) → rest.length + k ≤ b.length

theorem Takes.mono {d : Decoder α} {j k : Nat} (h : Takes k d) (hjk : j ≤ k) : Takes j d := fun r b v rest hd => by
  have := h hd
  omega

theorem Takes.bind {d : Decoder α} {next : α → Decoder β} {j k : Nat} (h : Takes j d)
    (hnext : ∀ v, Takes k (next v)) : Takes (j + k) (d >>= next) := by
  intro r b w rest hw
  obtain ⟨v, mid, hv, hw⟩ := bind_eq_ok_iff.mp hw
  have hmid := h hv
  have hrest := hnext v hw
  omega

theorem Takes.map {d : Decoder α} {k : Nat} (f : α → β) (h : Takes k d) : Takes k (f <$> d) := by
  intro r b w rest hw
  obtain ⟨v, hv, -⟩ := map_eq_ok_iff.mp hw
  exact h hv

theorem takes_pure (v : α) : Takes 0 (pure v) := by
  intro r b w rest h
  obtain ⟨-, rfl⟩ := pure_eq_ok_iff.mp h
  exact Nat.le_refl _

theorem takes_take (n : Nat) : Takes n (take n) := by
  intro r b v rest h
  obtain ⟨hn, -, rfl⟩ := take_eq_ok_iff.mp h
  rw [List.length_drop]
  omega

theorem takes_word (n : Nat) (order : ByteOrder) : Takes n (word n order) := by
  rw [word_eq_map]
  exact (takes_take n).map _

theorem takes_boolean : Takes 1 boolean := (takes_word 1 .little).map (· == 1)

theorem takes_varint (bits : Nat) : Takes 1 (varint bits) := by
  intro r b v rest h
  obtain ⟨u, k, hbegins, -, rfl⟩ := varint_eq_ok_iff.mp h
  obtain ⟨hpos, hle⟩ := Varint.length_of_extent? hbegins.ends
  rw [List.length_drop]
  omega

theorem takes_accept (n : Nat) : Takes 0 (accept n) := by
  intro r b m rest h
  obtain ⟨-, -, rfl⟩ := accept_eq_ok_iff.mp h
  exact Nat.le_refl _

theorem takes_count : Takes 1 count := (takes_varint 64).bind fun v => takes_accept v.toNat

section Lists
variable {d : Decoder α}

theorem Takes.counted {k : Nat} (h : Takes k d) (declared : Nat) : Takes k (counted d declared) :=
  fun _ _ _ _ hv => h (counted_eq_ok_iff.mp hv).1

theorem Takes.each (h : Takes 0 d) (n : Nat) : Takes 0 (each d n) := by
  induction n with
  | zero => exact takes_pure []
  | succ n ih => exact h.bind fun v => ih.map (v :: ·)

theorem Takes.list (h : Takes 0 d) : Takes 1 (list d) := takes_count.bind fun n => (h.counted n).each n

end Lists

end Decoder

open Decoder

/-! ### Values -/

namespace Blob

variable {n : Nat} {r : CountRange} {b rest : Bytes}

theorem decode_eq_ok_iff {p : Blob n} :
    Blob.decode n r b = .ok (p, rest) ↔ Decoder.take n r b = .ok (p.bytes, rest) := by
  rw [Blob.decode, take_eq_ok_iff, Decoder.take]
  by_cases hn : n ≤ b.length
  · have hlen : (b.take n).length = n := List.length_take_of_le hn
    obtain ⟨bytes, hbytes⟩ := p
    simp [hn, Blob.ofBytes, hlen, Except.map]
  · simp [hn]

theorem decode_eq_error_iff {e : Error} : Blob.decode n r b = .error e ↔ Decoder.take n r b = .error e := by
  rw [Blob.decode, Decoder.take]
  by_cases hn : n ≤ b.length
  · have hlen : (b.take n).length = n := List.length_take_of_le hn
    simp [hn, Blob.ofBytes, hlen, Except.map]
  · simp [hn]

theorem takes_decode (n : Nat) : Takes n (Blob.decode n) :=
  fun _ _ _ _ h => takes_take n (decode_eq_ok_iff.mp h)

end Blob

theorem Transfer.takes_decode : Takes 37 Transfer.decode :=
  (takes_word 1 .little).bind fun _ =>
  (takes_varint 64).bind fun _ =>
  (takes_word 32 .little).bind fun _ =>
  takes_boolean.bind fun _ =>
  (((Blob.takes_decode 32).mono (Nat.zero_le _)).list).bind fun _ =>
  (((Blob.takes_decode 4).mono (Nat.zero_le _)).list.map Sequence.mk).bind fun _ =>
  takes_pure _

namespace Schema

/-- The least number of bytes that a value takes. -/
def leastSize : Schema → Nat
  | blob n => n
  | transfer => 37
  | list _ => 1
  | sequence _ => 1

theorem takes_decode (s : Schema) : Takes s.leastSize s.codec.decode := by
  induction s with
  | blob n => exact Blob.takes_decode n
  | transfer => exact Transfer.takes_decode
  | list s ih => exact (ih.mono (Nat.zero_le _)).list
  | sequence s ih => exact (ih.mono (Nat.zero_le _)).list.map Sequence.mk

theorem shrinks_decode (s : Schema) : Takes 0 s.codec.decode := s.takes_decode.mono (Nat.zero_le _)

/-- No list of the schema has elements that take no bytes. -/
def Solid : Schema → Prop
  | list s => 0 < s.leastSize ∧ s.Solid
  | sequence s => 0 < s.leastSize ∧ s.Solid
  | _ => True

end Schema

end WireFormat
