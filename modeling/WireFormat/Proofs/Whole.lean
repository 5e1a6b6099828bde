import WireFormat.Proofs.Failures
import WireFormat.Proofs.Hex
import WireFormat.Proofs.RoundTrip
import WireFormat.Proofs.Size

/-! Whole inputs. The bytes of a value are read back as this value; less of them is input that ends too early,
    wherever it is cut off, and what follows them is counted as extra. All elements of lists have to take bytes
    for this, because a list of others is held against the bytes that follow. A blob is not read but measured,
    so every number of bytes but its own is a mismatch. -/

namespace WireFormat

/-! ### Lists whose elements take bytes -/

section Lists
variable {α : Type} {frame : α → Bytes} {vs : List α}

theorem framed_pos (frame : α → Bytes) (vs : List α) : 0 < (framed frame vs).length := by
  have := Varint.size_pos vs.length
  rw [framed, List.length_append, Varint.length_canonical]
  omega

theorem length_le_length_framed (h : ∀ v ∈ vs, 0 < (frame v).length) : vs.length ≤ (framed frame vs).length := by
  have hle := List.length_le_sum_of_one_le (vs.map fun v => (frame v).length) fun n hn => by
    obtain ⟨v, hv, rfl⟩ := List.mem_map.mp hn
    exact h v hv
  rw [List.length_map, ← List.length_flatMap] at hle
  rw [framed, List.length_append]
  exact Nat.le_add_left_of_le hle

theorem length_le_length_framed_of_mem {v : α} (hv : v ∈ vs) : (frame v).length ≤ (framed frame vs).length := by
  rw [framed, List.length_append]
  exact Nat.le_add_left_of_le (List.sublist_flatten_of_mem (List.mem_map_of_mem hv)).length_le

end Lists

theorem Blob.length_le_length_framed {n : Nat} (hn : 0 < n) (ps : List (Blob n)) :
    ps.length ≤ (framed Blob.bytes ps).length :=
  WireFormat.length_le_length_framed fun p _ => p.length_bytes.symm ▸ hn

namespace Schema

theorem leastSize_le_length_frame (s : Schema) (v : s.Value) : s.leastSize ≤ (s.frame v).length := by
  cases s with
  | blob n => exact (Blob.length_bytes v).ge
  | transfer =>
    have hamount := Varint.size_pos (Transfer.amount v).toNat
    have hin := framed_pos Blob.bytes (Transfer.inputs v)
    have hout := framed_pos Blob.bytes (Transfer.outputs v).toList
    rw [frame, Transfer.frame]
    simp only [List.length_append, List.length_singleton, Packed.length_encode, Varint.length_canonical]
    rw [leastSize]
    omega
  | list s => exact framed_pos s.frame v
  | sequence s => exact framed_pos s.frame (Sequence.toList v)

section
variable {s : Schema}

theorem not_hollow_list (hpos : 0 < s.leastSize) (h : ∀ v, ¬s.Hollow v) (vs : List s.Value) :
    ¬(list s).Hollow vs := by
  rintro ⟨v, -, hnil | hollow⟩
  · have hle := s.leastSize_le_length_frame v
    rw [hnil, List.length_nil] at hle
    exact absurd hpos (Nat.not_lt.mpr hle)
  · exact h v hollow

theorem Solid.not_hollow (hs : s.Solid) (v : s.Value) : ¬s.Hollow v := by
  induction s with
  | blob n => exact id
  | transfer => exact id
  | list s ih => exact not_hollow_list hs.1 (ih hs.2) v
  | sequence s ih => exact not_hollow_list hs.1 (ih hs.2) (Sequence.toList v)

theorem counts_le_list (hpos : 0 < s.leastSize) (h : ∀ v, ∀ n ∈ s.counts v, n ≤ (s.frame v).length)
    (vs : List s.Value) : ∀ n ∈ (list s).counts vs, n ≤ (framed s.frame vs).length := by
  intro n hn
  rcases List.mem_cons.mp hn with rfl | hn
  · exact length_le_length_framed fun v _ => Nat.lt_of_lt_of_le hpos (s.leastSize_le_length_frame v)
  · obtain ⟨v, hv, hn⟩ := List.mem_flatMap.mp hn
    exact Nat.le_trans (h v n hn) (length_le_length_framed_of_mem hv)

/-- No list in a value is longer than the value has bytes. -/
theorem Solid.counts_le (hs : s.Solid) (v : s.Value) : ∀ n ∈ s.counts v, n ≤ (s.frame v).length := by
  induction s with
  | blob n =>
    intro n hn
    cases hn
  | transfer =>
    intro n hn
    have hin := Blob.length_le_length_framed (by decide) (Transfer.inputs v)
    have hout := Blob.length_le_length_framed (by decide) (Transfer.outputs v).toList
    rw [frame, Transfer.frame, List.length_append, List.length_append]
    rcases List.mem_pair.mp hn with rfl | rfl
    · omega
    · rw [Sequence.length]
      omega
  | list s ih => exact counts_le_list hs.1 (ih hs.2) v
  | sequence s ih => exact counts_le_list hs.1 (ih hs.2) (Sequence.toList v)

theorem Solid.fits (hs : s.Solid) {v : s.Value} (h : ∀ n ∈ s.counts v, n < 2 ^ 64) : Fits .all s v where
  countable := h
  accepted _ _ := rfl
  capped hollow := absurd hollow (hs.not_hollow v)

/-- Wherever the bytes of a value are cut off, the input ends too early. -/
theorem Solid.decode_prefix (hs : s.Solid) {v : s.Value} (h : ∀ n ∈ s.counts v, n < 2 ^ 64) {p : Bytes}
    (hp : p <+: s.frame v) (hne : p ≠ s.frame v) : s.codec.decode .all p = .error .endOfBuffer := by
  obtain ⟨t, ht⟩ := hp
  have hwhole : s.codec.decode .all (p ++ t) = .ok (v, []) := by
    have := s.reads_frame (hs.fits h) []
    rwa [List.append_nil, ← ht] at this
  -- Either outcome would be kept by the rest of the bytes.
  rcases hd : s.codec.decode .all p with e | ⟨u, rest⟩
  · rcases plain_decode hs hd with rfl | hfinal
    · rfl
    · have := s.incremental_decode.final hd hfinal t
      rw [hwhole] at this
      cases this
  · obtain ⟨-, hrest⟩ := s.incremental_decode.eq_of_append hd hwhole
    obtain ⟨-, rfl⟩ := List.append_eq_nil_iff.mp hrest
    exact absurd (by rw [← ht, List.append_nil]) hne

end

end Schema

/-! ### Whole inputs -/

section
variable {α : Type} {d : Decoder α} {b rest : Bytes} {v : α}

theorem Decoder.whole_eq_ok_iff : d.whole b = .ok v ↔ d .all b = .ok (v, []) := by
  rw [whole]
  rcases d .all b with e | ⟨u, _ | ⟨c, rest⟩⟩ <;> simp

theorem Decoder.whole_of_error {e : Error} (h : d .all b = .error e) : d.whole b = .error e := by
  rw [whole, h]

theorem Decoder.whole_of_rest (h : d .all b = .ok (v, rest)) (hrest : rest ≠ []) :
    d.whole b = .error (.extraData rest.length) := by
  rw [whole, h]
  cases rest with
  | nil => exact absurd rfl hrest
  | cons c rest => rfl

end

theorem Codec.ofHex_encode {α : Type} (c : Codec α) (b : Bytes) : c.ofHex (Hex.encode b) = c.ofBytes b := by
  rw [ofHex, Bytes.ofHex_encode]
  rfl

theorem Blob.ofBytes_eq_ok_iff {n : Nat} {b : Bytes} {p : Blob n} : Blob.ofBytes n b = .ok p ↔ p.bytes = b := by
  obtain ⟨bytes, hbytes⟩ := p
  rw [ofBytes]
  by_cases hb : b.length = n
  · simp [hb, eq_comm]
  · rw [dif_neg hb]
    refine ⟨fun h => (by cases h), ?_⟩
    rintro rfl
    exact absurd hbytes hb

namespace Schema

theorem ofBytes_eq_whole {s : Schema} (hs : ∀ n, s ≠ blob n) : s.codec.ofBytes = s.codec.decode.whole := by
  cases s with
  | blob n => exact absurd rfl (hs n)
  | _ => rfl

theorem ofBytes_eq_ok_iff {s : Schema} {b : Bytes} {v : s.Value} :
    s.codec.ofBytes b = .ok v ↔ s.codec.decode .all b = .ok (v, []) := by
  cases s with
  | blob n =>
    change Blob.ofBytes n b = .ok v ↔ Blob.decode n .all b = .ok (v, [])
    have hlen := Blob.length_bytes v
    rw [Blob.ofBytes_eq_ok_iff, Blob.decode_eq_ok_iff, Decoder.take_eq_ok_iff, List.drop_eq_nil_iff]
    constructor
    · rintro rfl
      exact ⟨hlen.ge, List.take_of_length_le hlen.le, hlen.le⟩
    · rintro ⟨-, htake, hle⟩
      rw [← htake, List.take_of_length_le hle]
  | _ => exact Decoder.whole_eq_ok_iff

/-- The bytes of a value are read back in full, and nothing else is made of any part of them or of more. A blob
    is found in an input of its size, and its bytes are the input. -/
theorem ofBytes_strict :
    (∀ s : Schema, s.Solid → (∀ n, s ≠ blob n) → ∀ v : s.Value, s.codec.size v < 2 ^ 64 →
      ∃ b, s.codec.toBytes v = .ok b ∧ s.codec.ofBytes b = .ok v ∧
        (∃ text, s.codec.toHex v = .ok text ∧ s.codec.ofHex text = .ok v) ∧
        (∀ p, p <+: b → p ≠ b → s.codec.ofBytes p = .error .endOfBuffer) ∧
        (∀ e, e ≠ [] → s.codec.ofBytes (b ++ e) = .error (.extraData e.length))) ∧
    (∀ n b, ((∃ p, (Blob.codec n).ofBytes b = .ok p) ↔ b.length = n) ∧
      (∀ p, (Blob.codec n).ofBytes b = .ok p ↔ p.bytes = b) ∧
      (b.length ≠ n → (Blob.codec n).ofBytes b = .error (.sizeMismatch n b.length))) := by
  constructor
  · intro s hs hblob v hsize
    have h : ∀ n ∈ s.counts v, n < 2 ^ 64 := fun n hn => by
      rw [← s.length_frame v] at hsize
      exact Nat.lt_of_le_of_lt (hs.counts_le v n hn) hsize
    have hread := s.reads_frame (hs.fits h)
    have hback : s.codec.ofBytes (s.frame v) = .ok v := by
      rw [ofBytes_eq_whole hblob, Decoder.whole_eq_ok_iff]
      simpa using hread []
    refine ⟨s.frame v, toBytes_eq h, hback, ?_, fun p hp hne => ?_, fun e he => ?_⟩
    · exact ⟨Hex.encode (s.frame v), by rw [Codec.toHex, toBytes_eq h, Except.map], by rw [Codec.ofHex_encode, hback]⟩
    · rw [ofBytes_eq_whole hblob]
      exact Decoder.whole_of_error (hs.decode_prefix h hp hne)
    · rw [ofBytes_eq_whole hblob]
      exact Decoder.whole_of_rest (hread e) he
  · intro n b
    refine ⟨⟨?_, fun hb => ⟨⟨b, hb⟩, Blob.ofBytes_eq_ok_iff.mpr rfl⟩⟩, fun p => Blob.ofBytes_eq_ok_iff,
      fun hb => dif_neg hb⟩
    rintro ⟨p, hp⟩
    rw [← Blob.ofBytes_eq_ok_iff.mp hp, p.length_bytes]

/-- A list of two sequences, cut off before the one element of the first. -/
theorem ofBytes_strict_nested :
    let s := Schema.list (.sequence (.blob 1))
    let v : s.Value := [⟨[⟨[9], rfl⟩]⟩, ⟨[]⟩]
    s.Solid ∧ (∀ n, s ≠ blob n) ∧ s.codec.size v < 2 ^ 64 ∧ s.codec.ofBytes [2, 1, 9, 0] = .ok v ∧
      s.codec.ofBytes [2, 1] = .error .endOfBuffer ∧ s.codec.ofBytes [2, 1, 9, 0, 5, 6] = .error (.extraData 2) ∧
      (Blob.codec 2).ofBytes [2, 1] = .ok ⟨[2, 1], rfl⟩ ∧
      (Blob.codec 2).ofBytes [2, 1, 9] = .error (.sizeMismatch 2 3) := by
  intro s v
  have hs : s.Solid := ⟨by decide, by decide, trivial⟩
  have hblob : ∀ n, s ≠ blob n := by simp [s]
  have hsize : s.codec.size v < 2 ^ 64 := by decide
  obtain ⟨b, hb, hback, -, hshort, hlong⟩ := ofBytes_strict.1 s hs hblob v hsize
  obtain rfl : b = [2, 1, 9, 0] := Except.ok.inj (hb.symm.trans (by decide +kernel))
  exact ⟨hs, hblob, hsize, hback, hshort [2, 1] (by decide) (by decide), hlong [5, 6] (by decide),
    ((ofBytes_strict.2 2 [2, 1]).2.1 ⟨[2, 1], rfl⟩).mpr rfl, (ofBytes_strict.2 2 [2, 1, 9]).2.2 (by decide)⟩

end Schema

end WireFormat
