import WireFormat.Proofs.BlobLists

/-! Lists of blobs of no bytes. They never run out, so their number is bounded by the range of counts if that has an
    upper end, and otherwise by the bytes behind the count, although none of these is taken. An input that ends right
    behind the count of such a list is therefore not this list, unless it is empty. -/

namespace WireFormat

theorem CountRange.isCapped_eq_true_iff {r : CountRange} : r.isCapped = true ↔ r.upper ≠ .unbounded := by
  rw [isCapped]
  cases r.upper <;> simp

/-! ### Elements of no bytes -/

namespace Decoder

variable {α β : Type} {d : Decoder α} {r : CountRange} {b : Bytes} {v : α}

theorem each_of_idle (h : d r b = .ok (v, b)) (n : Nat) : each d n r b = .ok (List.replicate n v, b) := by
  induction n with
  | zero => rfl
  | succ n ih => exact bind_eq_ok_iff.mpr ⟨v, b, h, map_eq_ok_iff.mpr ⟨_, ih, rfl⟩⟩

theorem counted_of_room (h : d r b = .ok (v, b)) {declared : Nat}
    (hroom : r.isCapped = true ∨ declared ≤ b.length) : counted d declared r b = .ok (v, b) := by
  refine counted_eq_ok_iff.mpr ⟨h, ?_⟩
  rintro ⟨-, hopen, hlt⟩
  rcases hroom with hcap | hle
  · rw [hopen] at hcap
    cases hcap
  · omega

theorem counted_of_lack (h : d r b = .ok (v, b)) {declared : Nat} (hopen : r.isCapped = false)
    (hlack : b.length < declared) : counted d declared r b = .error (.invalidLength declared) :=
  counted_eq_error_iff.mpr (.inr ⟨rfl, v, b, h, rfl, hopen, hlack⟩)

theorem whole_map (f : α → β) (d : Decoder α) (b : Bytes) : (f <$> d).whole b = (d.whole b).map f := by
  rw [whole, whole, map_apply]
  rcases d .all b with e | ⟨v, _ | ⟨c, rest⟩⟩ <;> rfl

end Decoder

open Decoder

/-! ### Sequences -/

namespace Schema

variable {s : Schema} {b : Bytes} {v : Sequence s.Value}

theorem ofBytes_sequence : (sequence s).codec.ofBytes b = ((list s).codec.ofBytes b).map Sequence.mk :=
  whole_map Sequence.mk (Decoder.list s.codec.decode) b

theorem ofBytes_sequence_eq_ok_iff :
    (sequence s).codec.ofBytes b = .ok v ↔ (list s).codec.ofBytes b = .ok v.toList := by
  obtain ⟨vs⟩ := v
  rw [ofBytes_sequence]
  rcases (list s).codec.ofBytes b with e | us <;> simp [Except.map]

theorem ofBytes_sequence_of_error {e : Error} (h : (list s).codec.ofBytes b = .error e) :
    (sequence s).codec.ofBytes b = .error e := by
  rw [ofBytes_sequence, h, Except.map]

end Schema

/-! ### Lists of blobs of no bytes -/

namespace Blob

variable {r : CountRange} {b : Bytes}

/-- Blobs of no bytes are all alike, so only their number counts. -/
theorem list_hollow {count k : Nat} (h : Varint.decode 64 b 0 = .ok (count, k)) (hr : r.contains count = true) :
    list (Blob.decode 0) r b = if count = 0 ∨ r.upper ≠ .unbounded ∨ count ≤ (b.drop k).length
      then .ok (List.replicate count zero, b.drop k) else .error (.invalidLength count) := by
  have hidle : Blob.decode 0 r (b.drop k) = .ok (zero, b.drop k) :=
    decode_eq_ok_iff.mpr (take_eq_ok_iff.mpr ⟨Nat.zero_le _, rfl, rfl⟩)
  rw [list_of_accepted h hr]
  split
  · rename_i hroom
    rcases hroom with rfl | hroom
    · rfl
    · rw [← CountRange.isCapped_eq_true_iff] at hroom
      exact each_of_idle (counted_of_room hidle hroom) count
  · rename_i hroom
    obtain ⟨hcount, hopen, hlack⟩ : count ≠ 0 ∧ r.upper = .unbounded ∧ (b.drop k).length < count := by
      simpa using hroom
    obtain ⟨count, rfl⟩ := Nat.exists_eq_succ_of_ne_zero hcount
    have hcap : r.isCapped = false := by rw [CountRange.isCapped, hopen]
    exact bind_eq_error_iff.mpr (.inl (counted_of_lack hidle hcap hlack))

theorem ofBytes_list_hollow {ps : List (Blob 0)} (h : (Schema.list (.blob 0)).codec.ofBytes b = .ok ps) :
    ps = [] := by
  have hlist : list (Blob.decode 0) .all b = .ok (ps, []) := whole_eq_ok_iff.mp h
  rcases hcount : Varint.decode 64 b 0 with e | ⟨count, k⟩
  · rw [list_of_error hcount] at hlist
    cases hlist
  · rw [list_hollow hcount rfl] at hlist
    split at hlist
    · rename_i hroom
      obtain ⟨rfl, hrest⟩ := Prod.mk.inj (Except.ok.inj hlist)
      -- Behind the count of a whole input there is nothing, so this count is held against no bytes.
      have hzero : count = 0 := by simpa [hrest, CountRange.all] using hroom
      rw [hzero, List.replicate_zero]
    · cases hlist

theorem frame_list_hollow (ps : List (Blob 0)) : (Schema.list (.blob 0)).frame ps = Varint.canonical ps.length := by
  have hnil : ps.flatMap bytes = [] :=
    List.flatMap_eq_nil_iff.mpr fun p _ => List.length_eq_zero_iff.mp p.length_bytes
  change framed bytes ps = _
  rw [framed, hnil, List.append_nil]

theorem toBytes_list_hollow {ps : List (Blob 0)} (h : ps.length < 2 ^ 64) :
    (Schema.list (.blob 0)).codec.toBytes ps = .ok (Varint.canonical ps.length) := by
  rw [← frame_list_hollow]
  exact Schema.toBytes_eq fun n hn => by
    obtain rfl : n = ps.length := by simpa [Schema.counts] using hn
    exact h

theorem ofBytes_list_canonical {n : Nat} (h : n < 2 ^ 64) :
    (Schema.list (.blob 0)).codec.ofBytes (Varint.canonical n) =
      if n = 0 then .ok [] else .error (.invalidLength n) := by
  have hcount : Varint.decode 64 (Varint.canonical n) 0 = .ok (n, (Varint.canonical n).length) := by
    rw [Varint.length_canonical]
    simpa using Varint.decode_canonical h []
  have hlist := list_hollow (r := .all) hcount rfl
  rw [List.drop_length] at hlist
  split
  · rename_i hzero
    subst hzero
    exact whole_eq_ok_iff.mpr hlist
  · rename_i hn
    exact whole_of_error (hlist.trans (if_neg (by simpa [CountRange.all] using hn)))

theorem ofBytes_toBytes_list_hollow {ps : List (Blob 0)} (h : ps.length < 2 ^ 64) :
    ∃ b, (Schema.list (.blob 0)).codec.toBytes ps = .ok b ∧
      ((Schema.list (.blob 0)).codec.ofBytes b = .ok ps ↔ ps = []) ∧
      (ps ≠ [] → (Schema.list (.blob 0)).codec.ofBytes b = .error (.invalidLength ps.length)) := by
  have hread := ofBytes_list_canonical h
  refine ⟨Varint.canonical ps.length, toBytes_list_hollow h, ⟨ofBytes_list_hollow, ?_⟩, fun hps => ?_⟩
  · rintro rfl
    exact hread
  · rw [hread, if_neg (mt List.length_eq_zero_iff.mp hps)]

/-- A list of blobs of no bytes is found, and takes just the bytes of its count, if it is empty, if the range of
    counts has an upper end, or if no fewer bytes than it has elements follow the count; any other is refused. No
    input consists of such a list with elements, so what is written of one is refused as well. -/
theorem hollow_list_outcomes :
    (∀ c : Cursor, c.InBounds → ∀ peek count k, Varint.decode 64 c.data c.position = .ok (count, k) →
      c.accepted.contains count = true →
      c.read (.values (.blob 0)) peek =
        if count = 0 ∨ c.accepted.upper ≠ .unbounded ∨ count ≤ (c.unread.drop k).length then
          (.ok (List.replicate count zero), if peek then c else c.moveTo (c.position + k))
        else (.error (.invalidLength count), c)) ∧
    (∀ b ps, (Schema.list (.blob 0)).codec.ofBytes b = .ok ps → ps = []) ∧
    (∀ ps : List (Blob 0), ps.length < 2 ^ 64 → ∃ b, (Schema.list (.blob 0)).codec.toBytes ps = .ok b ∧
      ((Schema.list (.blob 0)).codec.ofBytes b = .ok ps ↔ ps = []) ∧
      (ps ≠ [] → (Schema.list (.blob 0)).codec.ofBytes b = .error (.invalidLength ps.length))) ∧
    (∀ b v, (Schema.sequence (.blob 0)).codec.ofBytes b = .ok v → v.toList = []) ∧
    (∀ v : Sequence (Blob 0), v.length < 2 ^ 64 → ∃ b, (Schema.sequence (.blob 0)).codec.toBytes v = .ok b ∧
      ((Schema.sequence (.blob 0)).codec.ofBytes b = .ok v ↔ v.toList = []) ∧
      (v.toList ≠ [] → (Schema.sequence (.blob 0)).codec.ofBytes b = .error (.invalidLength v.length))) := by
  refine ⟨fun c hc peek count k h hr => ?_, fun b ps => ofBytes_list_hollow, fun ps => ofBytes_toBytes_list_hollow,
    fun b v hv => ofBytes_list_hollow (Schema.ofBytes_sequence_eq_ok_iff.mp hv), fun v hlen => ?_⟩
  · rw [← Cursor.decode_unread 64 hc] at h
    have hlist := list_hollow h hr
    split
    · rename_i hroom
      rw [if_pos hroom] at hlist
      exact Cursor.read_of_decode_ok hc (Varint.le_length_of_decode h) hlist
    · rename_i hroom
      rw [if_neg hroom] at hlist
      exact Cursor.read_of_decode_error hc hlist
  · obtain ⟨b, hb, hback, hrefused⟩ := ofBytes_toBytes_list_hollow hlen
    exact ⟨b, hb, Schema.ofBytes_sequence_eq_ok_iff.trans hback,
      fun hne => Schema.ofBytes_sequence_of_error (hrefused hne)⟩

/-- Three blobs in front of two bytes: they are refused, with a lower end of the range as well, and found once it has
    an upper end. Of two written ones, none are found. -/
theorem hollow_list_outcomes_three :
    let c := Cursor.ofBytes [3, 7, 7]
    c.InBounds ∧ Varint.decode 64 c.data c.position = .ok (3, 1) ∧
      c.read (.values (.blob 0)) false = (.error (.invalidLength 3), c) ∧
      (c.accepting (.atLeast 1)).read (.values (.blob 0)) false =
        (.error (.invalidLength 3), c.accepting (.atLeast 1)) ∧
      (c.accepting (.below 4)).read (.values (.blob 0)) false =
        (.ok [zero, zero, zero], (c.accepting (.below 4)).moveTo 1) ∧
      (∃ b, (Schema.list (.blob 0)).codec.toBytes [zero, zero] = .ok b ∧
        (Schema.list (.blob 0)).codec.ofBytes b = .error (.invalidLength 2)) ∧
      ∃ b, (Schema.sequence (.blob 0)).codec.toBytes ⟨[zero, zero]⟩ = .ok b ∧
        (Schema.sequence (.blob 0)).codec.ofBytes b = .error (.invalidLength 2) := by
  intro c
  have hc : c.InBounds := by decide
  have hcount : Varint.decode 64 c.data c.position = .ok (3, 1) := by decide
  obtain ⟨reads, -, lists, -, sequences⟩ := hollow_list_outcomes
  obtain ⟨b, hb, -, hrefused⟩ := lists [zero, zero] (by decide)
  obtain ⟨b', hb', -, hrefused'⟩ := sequences ⟨[zero, zero]⟩ (by decide)
  exact ⟨hc, hcount, reads c hc false 3 1 hcount rfl, reads (c.accepting (.atLeast 1)) hc false 3 1 hcount rfl,
    reads (c.accepting (.below 4)) hc false 3 1 hcount rfl, ⟨b, hb, hrefused (by simp)⟩,
    ⟨b', hb', hrefused' (by simp)⟩⟩

end Blob

end WireFormat
