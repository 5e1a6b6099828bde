import WireFormat.Proofs.Trace

/-! Forged counts. A count is only a number in the input, and says nothing about how much input there is. Under
    a range without upper end, a list that declares more elements than bytes follow its count cannot be found:
    every element either takes a byte or is held against the bytes that are left, so the list fails after one
    element more than there are bytes at most. Hence every list that is found is shorter than the input. -/

namespace WireFormat

/-! ### Reading elements -/

namespace Decoder

variable {α : Type} {d : Decoder α} {r : CountRange} {declared : Nat}

/-- As long as fewer than `declared` bytes are unread, every value that `d` finds takes one of them. -/
def Advances (declared : Nat) (r : CountRange) (d : Decoder α) : Prop :=
  ∀ ⦃b v rest⦄, b.length < declared → d r b = .ok (v, rest) → rest.length < b.length

theorem Takes.advances (h : Takes 1 d) : Advances declared r d := fun _ _ _ _ hd => h hd

theorem advances_counted (h : Takes 0 d) (hopen : r.isCapped = false) :
    Advances declared r (counted d declared) := by
  intro b v rest hb hv
  obtain ⟨hd, hgo⟩ := counted_eq_ok_iff.mp hv
  have hle := h hd
  -- An element that took none would have been held against the bytes left, which are too few.
  by_contra hlt
  exact hgo ⟨by omega, hopen, by omega⟩

theorem Advances.le_length (h : Advances declared r d) {n : Nat} {b rest : Bytes} {vs : List α}
    (hb : b.length < declared) (hvs : each d n r b = .ok (vs, rest)) : n ≤ b.length := by
  induction n generalizing b vs with
  | zero => exact Nat.zero_le _
  | succ n ih =>
    obtain ⟨v, mid, hv, hvs⟩ := bind_eq_ok_iff.mp hvs
    obtain ⟨us, hus, -⟩ := map_eq_ok_iff.mp hvs
    -- One byte less at least is left for one element less.
    have hlt := h hb hv
    have := ih (Nat.lt_trans hlt hb) hus
    omega

theorem Advances.tried_le (h : Advances declared r d) {n : Nat} {b : Bytes} (hb : b.length < declared) :
    tried d n r b ≤ b.length + 1 := by
  rcases hvs : each d n r b with e | ⟨vs, rest⟩
  · obtain ⟨k, us, mid, htried, hus, -⟩ := tried_of_error hvs
    rw [htried]
    exact Nat.succ_le_succ (h.le_length hb hus)
  · rw [tried_of_ok hvs]
    exact Nat.le_succ_of_le (h.le_length hb hvs)

theorem Advances.each_eq_error (h : Advances declared r d) {n : Nat} {b : Bytes} (hb : b.length < declared)
    (hn : b.length < n) : ∃ e, each d n r b = .error e := by
  rcases hvs : each d n r b with e | ⟨vs, rest⟩
  · exact ⟨e, rfl⟩
  · exact absurd (h.le_length hb hvs) (Nat.not_le.mpr hn)

end Decoder

/-! ### Lists on record -/

namespace Traced

variable {α β : Type} {t : Traced α} {next : α → Traced β}

/-- Under ranges without upper end, a list on record that declares more elements than bytes follow its count makes
    the decoder fail, and no more elements of it are tried than these bytes and one. -/
def Frugal (t : Traced α) : Prop :=
  ∀ ⦃r b o⦄, r.isCapped = false → o ∈ t.openings r b → o.unread < o.count →
    (∃ e, t.decode r b = .error e) ∧ o.tried ≤ o.unread + 1

theorem frugal_plain (d : Decoder α) : Frugal (plain d) := fun _ _ _ _ ho => by cases ho

theorem Frugal.bind (h : Frugal t) (hnext : ∀ v, Frugal (next v)) : Frugal (t >>= next) := by
  intro r b o hopen ho hforged
  rcases mem_openings_bind.mp ho with ho | ⟨v, rest, hv, ho⟩
  · obtain ⟨⟨e, he⟩, hle⟩ := h hopen ho hforged
    exact ⟨⟨e, Decoder.bind_eq_error_iff.mpr (.inl he)⟩, hle⟩
  · obtain ⟨⟨e, he⟩, hle⟩ := hnext v hopen ho hforged
    exact ⟨⟨e, Decoder.bind_eq_error_iff.mpr (.inr ⟨v, rest, hv, he⟩)⟩, hle⟩

theorem Frugal.map (f : α → β) (h : Frugal t) : Frugal (f <$> t) := h.bind fun v => frugal_plain (pure (f v))

theorem Frugal.each (h : Frugal t) (n : Nat) : Frugal (t.each n) := by
  induction n with
  | zero => exact frugal_plain (pure [])
  | succ n ih => exact h.bind fun v => ih.map (v :: ·)

theorem Frugal.counted (h : Frugal t) (declared : Nat) : Frugal (t.counted declared) := by
  intro r b o hopen ho hforged
  obtain ⟨⟨e, he⟩, hle⟩ := h hopen ho hforged
  exact ⟨⟨e, Decoder.counted_eq_error_iff.mpr (.inl he)⟩, hle⟩

theorem Frugal.counting {element : Nat → Traced α} (h : ∀ n, Frugal (element n))
    (advances : ∀ {r n}, r.isCapped = false → Decoder.Advances n r (element n).decode) :
    Frugal (Traced.counting element) := by
  intro r b o hopen ho hforged
  -- Of the lists on record, the first is the list itself, which may be refused; all others stand in its elements.
  rcases mem_openings_counting ho with ⟨v, rest, hv, hr, rfl⟩ | ⟨n, rest, hn, rfl | ho⟩
  · exact ⟨⟨_, decode_counting_of_error (Decoder.count_of_refused hv hr)⟩, Nat.zero_le _⟩
  · obtain ⟨e, he⟩ := (advances hopen).each_eq_error hforged hforged
    exact ⟨⟨e, by rw [decode_counting_of_count hn, decode_each, he]⟩, (advances hopen).tried_le hforged⟩
  · obtain ⟨⟨e, he⟩, hle⟩ := (h n).each n hopen ho hforged
    exact ⟨⟨e, by rw [decode_counting_of_count hn, he]⟩, hle⟩

theorem Frugal.list (h : Frugal t) (htakes : Decoder.Takes 0 t.decode) : Frugal t.list :=
  .counting h.counted fun hopen => Decoder.advances_counted htakes hopen

end Traced

open Traced

/-! ### Values and fields -/

theorem Blob.frugal_list (n : Nat) : Frugal (list (plain (Blob.decode n))) :=
  (frugal_plain _).list ((Blob.takes_decode n).mono (Nat.zero_le _))

theorem Transfer.frugal_traced : Frugal Transfer.traced :=
  (frugal_plain _).bind fun _ =>
  (frugal_plain _).bind fun _ =>
  (frugal_plain _).bind fun _ =>
  (frugal_plain _).bind fun _ =>
  (Blob.frugal_list 32).bind fun _ =>
  ((Blob.frugal_list 4).map Sequence.mk).bind fun _ =>
  frugal_plain _

theorem Schema.frugal_traced (s : Schema) : Frugal s.traced := by
  induction s with
  | blob n => exact frugal_plain _
  | transfer => exact Transfer.frugal_traced
  | list s ih => exact ih.list (s.takes_traced.mono (Nat.zero_le _))
  | sequence s ih => exact (ih.list (s.takes_traced.mono (Nat.zero_le _))).map Sequence.mk

namespace Field

theorem frugal_traced (f : Field) : Frugal f.traced := by
  cases f with
  | varints bits => exact .counting (fun _ => frugal_plain _) fun _ => (Decoder.takes_varint bits).advances
  | value s => exact s.frugal_traced
  | values s => exact s.frugal_traced.list (s.takes_traced.mono (Nat.zero_le _))
  | valueLists s =>
    have hlist : Decoder.Takes 1 s.traced.list.decode := (s.takes_traced.mono (Nat.zero_le _)).list
    exact .counting (fun _ => s.frugal_traced.list (s.takes_traced.mono (Nat.zero_le _))) fun _ => hlist.advances
  | _ => exact frugal_plain _

/-- Whether the field is a list, so that its reading begins with a count. -/
def isList : Field → Bool
  | varints _ => true
  | value (.list _) => true
  | value (.sequence _) => true
  | values _ => true
  | valueLists _ => true
  | _ => false

theorem mem_openings_of_varint {f : Field} (hf : f.isList = true) {r : CountRange} {b rest : Bytes} {v : BitVec 64}
    (hv : Decoder.varint 64 r b = .ok (v, rest)) :
    ∃ o ∈ f.traced.openings r b, o.count = v.toNat ∧ o.unread = rest.length := by
  have counting_mem {α : Type} (element : Nat → Traced α) :
      ∃ o ∈ (counting element).openings r b, o.count = v.toNat ∧ o.unread = rest.length := by
    cases hr : r.contains v.toNat with
    | false =>
      rw [openings_counting_of_refused hv hr]
      exact ⟨_, List.mem_cons_self, rfl, rfl⟩
    | true =>
      rw [openings_counting_of_count (Decoder.count_eq_ok_iff.mpr ⟨v, hv, rfl, hr⟩)]
      exact ⟨_, List.mem_cons_self, rfl, rfl⟩
  cases f with
  | varints bits => exact counting_mem _
  | values s => exact counting_mem _
  | valueLists s => exact counting_mem _
  | value s =>
    cases s with
    | list s => exact counting_mem _
    | sequence s =>
      obtain ⟨o, ho, hfields⟩ := counting_mem s.traced.counted
      exact ⟨o, mem_openings_bind.mpr (.inl ho), hfields⟩
    | _ => cases hf
  | _ => cases hf

end Field

/-! ### Cursors -/

namespace Cursor

variable {c : Cursor} {f : Field} {peek : Bool}

theorem varint_unread (hc : c.InBounds) {n k : Nat} (h : Varint.decode 64 c.data c.position = .ok (n, k)) :
    ∃ v : BitVec 64, Decoder.varint 64 c.accepted c.unread = .ok (v, c.unread.drop k) ∧ v.toNat = n := by
  rw [← decode_unread 64 hc] at h
  exact ⟨_, Decoder.varint_of_decode h⟩

theorem exists_position {front : Bytes} (hc : c.InBounds) (h : front <:+ c.unread) :
    ∃ p, c.position ≤ p ∧ p ≤ c.data.length ∧ front = c.data.drop p := by
  have hfront := List.suffix_iff_eq_drop.mp h
  rw [unread, List.drop_drop] at hfront
  refine ⟨_, Nat.le_add_right _ _, ?_, hfront⟩
  rw [InBounds] at hc
  rw [List.length_drop]
  omega

theorem position_of_in (hc : c.InBounds) {o : Opening} (h : o.In c.unread) :
    ∃ p k, c.position ≤ p ∧ Varint.decode 64 c.data p = .ok (o.count, k) ∧
      o.unread = c.data.length - (p + k) := by
  obtain ⟨front, k, hfront, hbegins, hunread⟩ := h
  obtain ⟨p, hle, hp, rfl⟩ := exists_position hc hfront
  refine ⟨p, k, hle, Varint.decode_eq_ok_iff.mpr ⟨hp, hbegins⟩, ?_⟩
  rw [hunread, List.length_drop, Nat.sub_sub]

/-- Under a range without upper end, the reading of a list begins the list whose count stands at the cursor. All
    lists it begins, at whatever depth, have their counts at the cursor or behind it; it fails if one of them
    declares more elements than bytes follow its count, and tries no more elements of that list than these bytes
    and one. Every list in a value that is read is shorter than the unread bytes. -/
theorem read_forged (hc : c.InBounds) (hopen : c.accepted.isCapped = false) (f : Field) (peek : Bool) :
    (∀ n k, f.isList = true → Varint.decode 64 c.data c.position = .ok (n, k) →
      ∃ o ∈ c.openings f, o.count = n ∧ o.unread = c.unread.length - k) ∧
    (∀ o ∈ c.openings f,
      (∃ p k, c.position ≤ p ∧ Varint.decode 64 c.data p = .ok (o.count, k) ∧
        o.unread = c.data.length - (p + k)) ∧
      (o.unread < o.count → (∃ e, (c.read f peek).1 = .error e) ∧ o.tried ≤ o.unread + 1)) ∧
    (∀ v, (c.read f peek).1 = .ok v → ∀ n ∈ f.counts v, n < c.unread.length) := by
  have fails : ∀ o ∈ c.openings f, o.unread < o.count →
      (∃ e, (c.read f peek).1 = .error e) ∧ o.tried ≤ o.unread + 1 := by
    intro o ho hforged
    obtain ⟨⟨e, he⟩, hle⟩ := f.frugal_traced hopen ho hforged
    exact ⟨⟨e, by rw [read_fst hc, he]; rfl⟩, hle⟩
  have placed : ∀ o ∈ c.openings f, ∃ p k, c.position ≤ p ∧ Varint.decode 64 c.data p = .ok (o.count, k) ∧
      o.unread = c.data.length - (p + k) := fun o ho => position_of_in hc (f.placed_traced.mem ho)
  refine ⟨fun n k hf hn => ?_, fun o ho => ⟨placed o ho, fails o ho⟩, fun v hv n hn => ?_⟩
  · obtain ⟨v, hv, rfl⟩ := varint_unread hc hn
    obtain ⟨o, ho, hcount, hunread⟩ := Field.mem_openings_of_varint hf hv
    exact ⟨o, ho, hcount, by rw [hunread, List.length_drop]⟩
  · -- The list is on record, and would be forged if it were as long as the unread bytes.
    rw [← count_openings hc hv] at hn
    obtain ⟨o, ho, rfl⟩ := List.mem_map.mp hn
    have hlt := (f.placed_traced.mem ho).unread_lt
    by_contra hle
    obtain ⟨⟨e, he⟩, -⟩ := fails o ho (by omega)
    rw [hv] at he
    cases he

/-- A list of one list, which declares 256 blobs of no bytes in front of two bytes: one of them is tried. Read as
    a list of varints, the same bytes hold one. -/
theorem read_forged_nested :
    let c := (ofBytes [9, 1, 0x80, 0x02, 7, 7]).moveTo 1
    c.InBounds ∧ c.accepted.isCapped = false ∧
      (∃ o ∈ c.openings (.valueLists (.blob 0)), o.count = 1 ∧ o.unread = 4) ∧
      ⟨256, 2, 1⟩ ∈ c.openings (.valueLists (.blob 0)) ∧
      (∃ e, (c.read (.valueLists (.blob 0)) false).1 = .error e) ∧ 1 ≤ 2 + 1 ∧
      (c.read (.varints 16) true).1 = .ok [256] ∧ 1 < c.unread.length := by
  intro c
  have hc : c.InBounds := by decide
  have hopen : c.accepted.isCapped = false := rfl
  have hmem : ⟨256, 2, 1⟩ ∈ c.openings (.valueLists (.blob 0)) := by decide
  have hread : (c.read (.varints 16) true).1 = .ok [256] := by decide
  obtain ⟨first, fails, -⟩ := read_forged hc hopen (.valueLists (.blob 0)) false
  obtain ⟨herror, htried⟩ := (fails _ hmem).2 (by decide)
  have hlt := (read_forged hc hopen (.varints 16) true).2.2 [256] hread 1 List.mem_cons_self
  exact ⟨hc, hopen, first 1 1 rfl (by decide), hmem, herror, htried, hread, hlt⟩

end Cursor

end WireFormat
