import WireFormat.Proofs.Whole

/-! Lists of blobs that take bytes. Whether one is found is a matter of numbers: its count, the size of the blobs and
    the bytes behind the count, which are cut into blobs from their front on. -/

namespace WireFormat

theorem Varint.le_length_of_decode {bits v k : Nat} {b : Bytes} (h : decode bits b 0 = .ok (v, k)) :
    k ≤ b.length := by
  simpa using (length_of_extent? (decode_eq_ok_iff.mp h).2.ends).2

open Decoder

/-! ### Blobs one behind the other -/

namespace Blob

variable {n : Nat} {r : CountRange} {b : Bytes}

/-- The first `count` pieces of `n` bytes each that `b` is cut into. -/
def chunks (n count : Nat) (b : Bytes) : List Bytes := (List.range count).map fun i => (b.drop (i * n)).take n

theorem chunks_succ (n count : Nat) (b : Bytes) : chunks n (count + 1) b = b.take n :: chunks n count (b.drop n) := by
  simp only [chunks, List.range_succ_eq_map, List.map_cons, List.map_map, Nat.zero_mul, List.drop_zero]
  simp [Function.comp_def, Nat.succ_mul, Nat.add_comm]

theorem bytes_injective : Function.Injective (bytes : Blob n → Bytes) := by
  rintro ⟨x, hx⟩ ⟨y, hy⟩ rfl
  rfl

theorem decode_of_le (h : n ≤ b.length) : ∃ p : Blob n, Blob.decode n r b = .ok (p, b.drop n) ∧ p.bytes = b.take n :=
  ⟨⟨b.take n, List.length_take_of_le h⟩, decode_eq_ok_iff.mpr (take_eq_ok_iff.mpr ⟨h, rfl, rfl⟩), rfl⟩

theorem each_of_le {count : Nat} (h : count * n ≤ b.length) :
    ∃ ps : List (Blob n), each (Blob.decode n) count r b = .ok (ps, b.drop (count * n)) ∧
      ps.map Blob.bytes = chunks n count b := by
  induction count generalizing b with
  | zero => exact ⟨[], by rw [Nat.zero_mul]; rfl, rfl⟩
  | succ count ih =>
    rw [Nat.succ_mul] at h ⊢
    obtain ⟨p, hp, hbytes⟩ := decode_of_le (r := r) (Nat.le_trans (Nat.le_add_left _ _) h)
    obtain ⟨ps, hps, hchunks⟩ := ih (b := b.drop n) (by rw [List.length_drop]; omega)
    rw [List.drop_drop, Nat.add_comm n] at hps
    refine ⟨p :: ps, bind_eq_ok_iff.mpr ⟨p, b.drop n, hp, map_eq_ok_iff.mpr ⟨ps, hps, rfl⟩⟩, ?_⟩
    rw [List.map_cons, hbytes, hchunks, chunks_succ]

/-- However many blobs are there, the list ends too early if not all are. -/
theorem each_of_lt {count : Nat} (h : b.length < count * n) :
    each (Blob.decode n) count r b = .error .endOfBuffer := by
  induction count generalizing b with
  | zero => exact absurd h (by rw [Nat.zero_mul]; exact Nat.not_lt_zero _)
  | succ count ih =>
    rcases Nat.lt_or_ge b.length n with hlt | hle
    · exact bind_eq_error_iff.mpr (.inl (decode_eq_error_iff.mpr (take_eq_error_iff.mpr ⟨hlt, rfl⟩)))
    · obtain ⟨p, hp, -⟩ := decode_of_le (r := r) hle
      rw [Nat.succ_mul] at h
      have hrest := ih (b := b.drop n) (by rw [List.length_drop]; omega)
      exact bind_eq_error_iff.mpr (.inr ⟨p, b.drop n, hp, bind_eq_error_iff.mpr (.inl hrest)⟩)

/-! ### Lists of blobs -/

theorem list_of_le (hn : 0 < n) {count k : Nat} (h : Varint.decode 64 b 0 = .ok (count, k))
    (hr : r.contains count = true) (hle : count * n ≤ (b.drop k).length) :
    ∃ ps : List (Blob n), list (Blob.decode n) r b = .ok (ps, b.drop (k + count * n)) ∧
      ps.map Blob.bytes = chunks n count (b.drop k) := by
  -- Each blob takes bytes, so none is held against the bytes left.
  rw [list_of_accepted h hr, counted_eq_self ((takes_decode n).mono hn), ← List.drop_drop]
  exact each_of_le hle

theorem list_of_lt (hn : 0 < n) {count k : Nat} (h : Varint.decode 64 b 0 = .ok (count, k))
    (hr : r.contains count = true) (hlt : (b.drop k).length < count * n) :
    list (Blob.decode n) r b = .error .endOfBuffer := by
  rw [list_of_accepted h hr, counted_eq_self ((takes_decode n).mono hn)]
  exact each_of_lt hlt

/-! ### Whole inputs -/

section
variable {count k : Nat}

theorem ofBytes_list_eq_ok_iff (hn : 0 < n) {ps : List (Blob n)} :
    (Schema.list (.blob n)).codec.ofBytes b = .ok ps ↔ ∃ count k, Varint.decode 64 b 0 = .ok (count, k) ∧
      (b.drop k).length = count * n ∧ ps.map bytes = chunks n count (b.drop k) := by
  change whole (list (Blob.decode n)) b = .ok ps ↔ _
  rw [whole_eq_ok_iff]
  constructor
  · intro hlist
    rcases h : Varint.decode 64 b 0 with e | ⟨count, k⟩
    · rw [list_of_error h] at hlist
      cases hlist
    rcases Nat.lt_or_ge (b.drop k).length (count * n) with hlt | hle
    · rw [list_of_lt hn h rfl hlt] at hlist
      cases hlist
    obtain ⟨qs, hqs, hchunks⟩ := list_of_le (r := .all) hn h rfl hle
    obtain ⟨rfl, hrest⟩ := Prod.mk.inj (Except.ok.inj (hlist.symm.trans hqs))
    rw [← List.drop_drop, eq_comm, List.drop_eq_nil_iff] at hrest
    exact ⟨count, k, rfl, Nat.le_antisymm hrest hle, hchunks⟩
  · rintro ⟨count, k, h, hlen, hchunks⟩
    obtain ⟨qs, hqs, hqchunks⟩ := list_of_le (r := .all) hn h rfl hlen.ge
    rw [← List.drop_drop, ← hlen, List.drop_length] at hqs
    rwa [List.map_injective_iff.mpr bytes_injective (hchunks.trans hqchunks.symm)]

theorem ofBytes_list_iff (hn : 0 < n) : (∃ ps, (Schema.list (.blob n)).codec.ofBytes b = .ok ps) ↔
    ∃ count k, Varint.decode 64 b 0 = .ok (count, k) ∧ (b.drop k).length = count * n := by
  simp only [ofBytes_list_eq_ok_iff hn]
  constructor
  · rintro ⟨-, count, k, h, hlen, -⟩
    exact ⟨count, k, h, hlen⟩
  · rintro ⟨count, k, h, hlen⟩
    obtain ⟨ps, -, hchunks⟩ := list_of_le (r := .all) hn h rfl hlen.ge
    exact ⟨ps, count, k, h, hlen, hchunks⟩

theorem ofBytes_list_of_lt (hn : 0 < n) (h : Varint.decode 64 b 0 = .ok (count, k))
    (hlt : count * n < (b.drop k).length) : (Schema.list (.blob n)).codec.ofBytes b =
      .error (.extraData ((b.drop k).length - count * n)) := by
  obtain ⟨ps, hps, -⟩ := list_of_le (r := .all) hn h rfl (Nat.le_of_lt hlt)
  rw [← List.drop_drop] at hps
  have hlen : ((b.drop k).drop (count * n)).length = (b.drop k).length - count * n := List.length_drop
  rw [← hlen]
  refine whole_of_rest hps fun hnil => ?_
  rw [hnil, List.length_nil] at hlen
  omega

end

/-! ### Outcomes -/

/-- A list of blobs that take bytes is found if its count is accepted and the bytes behind the count suffice for as
    many blobs, which are then cut from these bytes one behind the other; if they do not suffice, the input ends too
    early, wherever that is. An input that ends right behind the last blob consists of the list of these blobs, and
    no other input consists of such a list. -/
theorem list_outcomes {n : Nat} (hn : 0 < n) :
    (∀ c : Cursor, c.InBounds → ∀ peek,
      (∀ e, Varint.decode 64 c.data c.position = .error e → c.read (.values (.blob n)) peek = (.error e, c)) ∧
      (∀ count k, Varint.decode 64 c.data c.position = .ok (count, k) →
        (c.accepted.contains count = false →
          c.read (.values (.blob n)) peek = (.error (.invalidLength count), c)) ∧
        (c.accepted.contains count = true → (c.unread.drop k).length < count * n →
          c.read (.values (.blob n)) peek = (.error .endOfBuffer, c)) ∧
        (c.accepted.contains count = true → count * n ≤ (c.unread.drop k).length →
          ∃ ps : List (Blob n), ps.map bytes = chunks n count (c.unread.drop k) ∧
            c.read (.values (.blob n)) peek =
              (.ok ps, if peek then c else c.moveTo (c.position + (k + count * n)))))) ∧
    (∀ b,
      ((∃ ps, (Schema.list (.blob n)).codec.ofBytes b = .ok ps) ↔
        ∃ count k, Varint.decode 64 b 0 = .ok (count, k) ∧ (b.drop k).length = count * n) ∧
      (∀ ps, (Schema.list (.blob n)).codec.ofBytes b = .ok ps ↔
        ∃ count k, Varint.decode 64 b 0 = .ok (count, k) ∧ (b.drop k).length = count * n ∧
          ps.map bytes = chunks n count (b.drop k)) ∧
      (∀ count k, Varint.decode 64 b 0 = .ok (count, k) → count * n < (b.drop k).length →
        (Schema.list (.blob n)).codec.ofBytes b = .error (.extraData ((b.drop k).length - count * n)))) := by
  refine ⟨fun c hc peek => ?_, fun b => ⟨ofBytes_list_iff hn, fun ps => ofBytes_list_eq_ok_iff hn, fun count k =>
    ofBytes_list_of_lt hn⟩⟩
  simp only [← Cursor.decode_unread 64 hc]
  refine ⟨fun e h => Cursor.read_of_decode_error hc (list_of_error h), fun count k h => ⟨?_, ?_, ?_⟩⟩
  · intro hr
    exact Cursor.read_of_decode_error hc (list_of_refused h hr)
  · intro hr hlt
    exact Cursor.read_of_decode_error hc (list_of_lt hn h hr hlt)
  · intro hr hle
    obtain ⟨ps, hps, hchunks⟩ := list_of_le hn h hr hle
    have hk := Varint.le_length_of_decode h
    rw [List.length_drop] at hle
    exact ⟨ps, hchunks, Cursor.read_of_decode_ok hc (by omega) hps⟩

/-- Two of the pairs in five bytes, the count as it stands, refused, and raised until the bytes of all pairs could no
    longer be counted in 64 bits. -/
theorem list_outcomes_pairs :
    let c := (Cursor.ofBytes [7, 2, 1, 2, 3, 4, 5]).moveTo 1
    let forged := Cursor.ofBytes [0x80, 0x80, 0x80, 0x80, 0x80, 0x80, 0x80, 0x80, 0x80, 0x01, 1, 2]
    0 < 2 ∧ c.InBounds ∧ forged.InBounds ∧
      (∃ ps : List (Blob 2), ps.map bytes = [[1, 2], [3, 4]] ∧
        c.read (.values (.blob 2)) false = (.ok ps, c.moveTo 6)) ∧
      (c.accepting (.atLeast 3)).read (.values (.blob 2)) false =
        (.error (.invalidLength 2), c.accepting (.atLeast 3)) ∧
      forged.read (.values (.blob 2)) true = (.error .endOfBuffer, forged) ∧
      (Schema.list (.blob 2)).codec.ofBytes [2, 1, 2, 3, 4] = .ok [⟨[1, 2], rfl⟩, ⟨[3, 4], rfl⟩] ∧
      (Schema.list (.blob 2)).codec.ofBytes [2, 1, 2, 3, 4, 5] = .error (.extraData 1) := by
  intro c forged
  have hn : 0 < 2 := by decide
  have hc : c.InBounds := by decide
  have hforged : forged.InBounds := by decide
  obtain ⟨reads, inputs⟩ := list_outcomes hn
  have hcount : Varint.decode 64 forged.data forged.position = .ok (2 ^ 63, 10) := by decide
  obtain ⟨ps, hchunks, hread⟩ := ((reads c hc false).2 2 1 (by decide)).2.2 rfl (by decide)
  exact ⟨hn, hc, hforged, ⟨ps, hchunks, hread⟩, ((reads (c.accepting (.atLeast 3)) hc false).2 2 1 (by decide)).1 rfl,
    ((reads forged hforged true).2 _ _ hcount).2.1 rfl (by decide),
    ((inputs _).2.1 _).mpr ⟨2, 1, by decide, by decide, by decide⟩, (inputs _).2.2 2 1 (by decide) (by decide)⟩

end Blob

end WireFormat
