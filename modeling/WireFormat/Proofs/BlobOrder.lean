import WireFormat.Blob
import WireFormat.Proofs.Places

/-! The order of blobs. A blob stands for the number whose digits to the base 256 are its bytes, the lowest first, and
    blobs are ordered as these numbers. So the order is total, and however a list of blobs is sorted, the result is the
    same. -/

namespace WireFormat

/-! ### Lists compared from their last element -/

theorem compareLex_append {α : Type} {cmp : α → α → Ordering} {x y : List α} (h : x.length = y.length) (u v : List α) :
    (x ++ u).compareLex cmp (y ++ v) = (x.compareLex cmp y).then (u.compareLex cmp v) := by
  induction x generalizing y with
  | nil =>
    obtain rfl := List.length_eq_zero_iff.mp h.symm
    rfl
  | cons a x ih =>
    obtain ⟨b, y, rfl⟩ := List.exists_cons_of_length_eq_add_one h.symm
    rw [List.cons_append, List.cons_append, List.compareLex_cons_cons, List.compareLex_cons_cons,
      ih (Nat.succ.inj h), Ordering.then_assoc]

namespace Packed

/-- The lowest digit decides between two numbers only if the others are equal. -/
theorem compare_add_mul (c d : UInt8) (x y : Nat) :
    compare (c.toNat + 256 * x) (d.toNat + 256 * y) = (compare x y).then (compare c d) := by
  have hc := c.toNat_lt
  have hd := d.toNat_lt
  rw [UInt8.compare_eq_toNat_compare_toNat]
  rcases Nat.lt_trichotomy x y with hlt | rfl | hgt
  · rw [Nat.compare_eq_lt.mpr hlt, Nat.compare_eq_lt.mpr (by omega)]
    rfl
  · rw [Nat.compare_eq_eq.mpr rfl, Ordering.eq_then]
    rcases Nat.lt_trichotomy c.toNat d.toNat with hlt | heq | hgt
    · rw [Nat.compare_eq_lt.mpr hlt, Nat.compare_eq_lt.mpr (by omega)]
    · rw [heq, Nat.compare_eq_eq.mpr rfl, Nat.compare_eq_eq.mpr rfl]
    · rw [Nat.compare_eq_gt.mpr hgt, Nat.compare_eq_gt.mpr (by omega)]
  · rw [Nat.compare_eq_gt.mpr hgt, Nat.compare_eq_gt.mpr (by omega)]
    rfl

theorem compareLex_reverse {x y : Bytes} (h : x.length = y.length) :
    x.reverse.compareLex compare y.reverse = compare (ofDigits x) (ofDigits y) := by
  induction x generalizing y with
  | nil =>
    obtain rfl := List.length_eq_zero_iff.mp h.symm
    rfl
  | cons c x ih =>
    obtain ⟨d, y, rfl⟩ := List.exists_cons_of_length_eq_add_one h.symm
    have hlen : x.length = y.length := Nat.succ.inj h
    have hlow : [c].compareLex compare [d] = compare c d := by
      rw [List.compareLex_cons_cons, List.compareLex_nil_nil, Ordering.then_eq]
    rw [List.reverse_cons, List.reverse_cons, compareLex_append (by simpa using hlen), ih hlen, hlow, ofDigits,
      ofDigits, compare_add_mul]

theorem ofDigits_replicate_zero (n : Nat) : ofDigits (List.replicate n 0) = 0 := by
  rw [ofDigits_eq, List.map_replicate]
  exact Nat.ofDigits_replicate_zero

end Packed

namespace Blob

variable {n : Nat} {p q r : Blob n}

/-! ### Blobs as numbers -/

/-- The number whose digits to the base 256 are the bytes, the lowest first. -/
def number (p : Blob n) : Nat := Packed.ofDigits p.bytes

theorem number_eq_sum (p : Blob n) : p.number = ∑ i ∈ Finset.range n, (p.bytes.getD i 0).toNat * 256 ^ i := by
  rw [number, Packed.ofDigits_eq_sum, p.length_bytes]

theorem number_injective (h : p.number = q.number) : p = q := by
  obtain ⟨x, hx⟩ := p
  obtain ⟨y, rfl⟩ := q
  obtain rfl := Packed.ofDigits_inj hx h
  rfl

theorem number_zero : (zero : Blob n).number = 0 := Packed.ofDigits_replicate_zero n

theorem compare_eq (p q : Blob n) : compare p q = compare p.number q.number :=
  Packed.compareLex_reverse (p.length_bytes.trans q.length_bytes.symm)

theorem lt_iff : p < q ↔ p.number < q.number := by
  change compare p q = .lt ↔ _
  rw [compare_eq, Nat.compare_eq_lt]

theorem isLE_compare_iff : (compare p q).isLE = true ↔ p.number ≤ q.number := by
  rw [compare_eq, Nat.isLE_compare]

theorem compare_eq_compareOn : (compare : Blob n → Blob n → Ordering) = compareOn number :=
  funext fun p => funext fun q => compare_eq p q

instance : Std.TransOrd (Blob n) := by
  change Std.TransCmp (compare : Blob n → Blob n → Ordering)
  rw [compare_eq_compareOn]
  infer_instance

instance : Std.LawfulEqOrd (Blob n) where
  eq_of_compare h := by
    rw [compare_eq, Nat.compare_eq_eq] at h
    exact number_injective h

theorem isLeast_iff : (∀ q : Blob n, (compare p q).isLE = true) ↔ p = zero := by
  constructor
  · intro h
    have hle := isLE_compare_iff.mp (h zero)
    rw [number_zero, Nat.le_zero] at hle
    exact number_injective (hle.trans number_zero.symm)
  · rintro rfl q
    rw [isLE_compare_iff, number_zero]
    exact Nat.zero_le _

/-- Unpacked with the lowest byte first, a blob is the integer of its number. -/
theorem decode_little (p : Blob n) :
    ∃ v : Word n, Packed.decode n .little p.bytes 0 = .ok v ∧ v.toNat = p.number := by
  obtain ⟨b, rfl⟩ := p
  refine ⟨_, Packed.decode_of_le (Nat.zero_add b.length).le, ?_⟩
  rw [List.drop_zero, List.take_length, Packed.toNat_ofBytes]
  rfl

/-! ### Sorting -/

theorem sort_perm (ps : List (Blob n)) : (sort ps).Perm ps := List.mergeSort_perm ps _

theorem sort_pairwise (ps : List (Blob n)) : (sort ps).Pairwise fun p q => (compare p q).isLE = true := by
  have htrans : ∀ p q r : Blob n, (compare p q).isLE = true → (compare q r).isLE = true → (compare p r).isLE = true :=
    fun p q r => Std.TransOrd.isLE_trans
  have htotal : ∀ p q : Blob n, ((compare p q).isLE || (compare q p).isLE) = true := fun p q => by
    rw [Bool.or_eq_true, isLE_compare_iff, isLE_compare_iff]
    exact Nat.le_total _ _
  exact List.pairwise_mergeSort htrans htotal ps

/-- Blobs that may stand in either order are equal, so a list has one sorted arrangement. -/
theorem eq_sort {ps qs : List (Blob n)} (hperm : qs.Perm ps) (h : qs.Pairwise fun p q => (compare p q).isLE = true) :
    qs = sort ps := by
  refine List.Perm.eq_of_pairwise (fun p q _ _ hpq hqp => ?_) h (sort_pairwise ps) (hperm.trans (sort_perm ps).symm)
  exact number_injective (Nat.le_antisymm (isLE_compare_iff.mp hpq) (isLE_compare_iff.mp hqp))

/-! ### The order -/

/-- Blobs are compared as their numbers, the sums of their bytes weighted by powers of 256, and as the integers they
    are unpacked to. The order is total, only equal blobs compare as equal, and only the blob of zeros is least. A list
    of blobs has one sorted arrangement, which is what sorting gives in whatever order the list comes. -/
theorem compare_numeric (n : Nat) :
    (∀ p : Blob n, p.number = ∑ i ∈ Finset.range n, (p.bytes.getD i 0).toNat * 256 ^ i) ∧
    (∀ p q : Blob n, compare p q = compare p.number q.number ∧
      p.partialCompare q = some (compare p.number q.number) ∧ (p < q ↔ p.number < q.number) ∧
      (compare p q = .eq ↔ p = q)) ∧
    (∀ p q : Blob n, compare q p = (compare p q).swap) ∧
    (∀ p q r : Blob n, (compare p q).isLE = true → (compare q r).isLE = true → (compare p r).isLE = true) ∧
    (∀ p : Blob n, (∀ q : Blob n, (compare p q).isLE = true) ↔ p = zero) ∧
    (∀ p q : Blob n, ∃ v w : Word n, Packed.decode n .little p.bytes 0 = .ok v ∧
      Packed.decode n .little q.bytes 0 = .ok w ∧ compare p q = compare v.toNat w.toNat) ∧
    (∀ ps : List (Blob n), (sort ps).Perm ps ∧ (sort ps).Pairwise fun p q => p.number ≤ q.number) ∧
    (∀ ps qs sorted : List (Blob n), qs.Perm ps → sorted.Perm qs →
      (sorted.Pairwise fun p q => (compare p q).isLE = true) → sorted = sort ps) := by
  refine ⟨number_eq_sum, fun p q => ⟨compare_eq p q, congrArg some (compare_eq p q), lt_iff, Std.compare_eq_iff_eq⟩,
    fun p q => Std.OrientedOrd.eq_swap, fun p q r => Std.TransOrd.isLE_trans, fun p => isLeast_iff, fun p q => ?_,
    fun ps => ⟨sort_perm ps, (sort_pairwise ps).imp isLE_compare_iff.mp⟩,
    fun ps qs sorted hqs hsorted => eq_sort (hsorted.trans hqs)⟩
  obtain ⟨v, hv, hvp⟩ := p.decode_little
  obtain ⟨w, hw, hwq⟩ := q.decode_little
  exact ⟨v, w, hv, hw, by rw [compare_eq, hvp, hwq]⟩

/-- A pair with a large first byte is less than one with a small second byte. -/
theorem compare_numeric_pairs :
    let low : Blob 2 := ⟨[0xFF, 0x00], rfl⟩
    let high : Blob 2 := ⟨[0x00, 0x01], rfl⟩
    low < high ∧ (compare zero low).isLE = true ∧ (compare low high).isLE = true ∧ (compare zero high).isLE = true ∧
      [low, high, zero].Perm [high, zero, low] ∧ [zero, low, high].Perm [low, high, zero] ∧
      ([zero, low, high].Pairwise fun p q => (compare p q).isLE = true) ∧
      [zero, low, high] = sort [high, zero, low] := by
  intro low high
  obtain ⟨-, compared, -, trans, -, -, -, sorted⟩ := compare_numeric 2
  have hlow : (compare zero low).isLE = true := by decide
  have hhigh : (compare low high).isLE = true := by decide
  have hperm : [low, high, zero].Perm [high, zero, low] := by decide
  have hperm' : [zero, low, high].Perm [low, high, zero] := by decide
  have hpairwise : [zero, low, high].Pairwise fun p q => (compare p q).isLE = true := by decide
  exact ⟨(compared low high).2.2.1.mpr (by decide), hlow, hhigh, trans zero low high hlow hhigh, hperm, hperm',
    hpairwise, sorted _ _ _ hperm hperm' hpairwise⟩

end Blob

end WireFormat
