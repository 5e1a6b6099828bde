import WireFormat.Proofs.Consumption
import WireFormat.Proofs.Cursor
import WireFormat.Proofs.Framing

/-! Decoders with a record of the lists they begin: the count of each, how many bytes were unread behind it, and
    how many of its elements were tried. The record is kept in reading order and also if the decoder fails. A
    traced decoder decodes as the plain one does; what is on record after a success are the lists of the value
    found, and whatever is on record stands in the input. -/

namespace WireFormat

/-- A list that a decoder begins. -/
structure Opening where
  count : Nat
  /-- The number of bytes unread behind the count. -/
  unread : Nat
  /-- The number of elements that the decoder tries, the one that fails among them. -/
  tried : Nat
  deriving DecidableEq

/-- A decoder and the lists it begins. -/
structure Traced (α : Type) where
  decode : Decoder α
  /-- The lists begun in some bytes, in the order of their counts, up to the end or a failure. -/
  openings : CountRange → Bytes → List Opening

/-- How many of `n` elements are tried: all up to the first that fails. -/
def Decoder.tried {α : Type} (element : Decoder α) : (n : Nat) → CountRange → Bytes → Nat
  | 0, _, _ => 0
  | n + 1, r, b =>
    match element r b with
    | .ok (_, rest) => tried element n r rest + 1
    | .error _ => 1

namespace Traced

variable {α β : Type}

instance : Monad Traced where
  pure v := ⟨pure v, fun _ _ => []⟩
  bind t next := {
    decode := t.decode >>= fun v => (next v).decode
    -- What comes next begins its lists only if `t` succeeds.
    openings := fun r b => t.openings r b ++ match t.decode r b with
      | .ok (v, rest) => (next v).openings r rest
      | .error _ => [] }

/-- A decoder that begins no lists. -/
def plain (d : Decoder α) : Traced α := ⟨d, fun _ _ => []⟩

def counted (element : Traced α) (declared : Nat) : Traced α :=
  ⟨Decoder.counted element.decode declared, element.openings⟩

def each (element : Traced α) : (n : Nat) → Traced (List α)
  | 0 => return []
  | n + 1 => do
    let v ← element
    let vs ← each element n
    return v :: vs

/-- A count `n` and that many values of `element n`, which are not tried if the count is not accepted. -/
def counting (element : Nat → Traced α) : Traced (List α) where
  decode := do
    let n ← Decoder.count
    Decoder.each (element n).decode n
  openings r b :=
    match Decoder.varint 64 r b with
    | .ok (v, rest) =>
      let n := v.toNat
      if r.contains n then
        ⟨n, rest.length, (element n).decode.tried n r rest⟩ :: (each (element n) n).openings r rest
      else [⟨n, rest.length, 0⟩]
    | .error _ => []

def list (element : Traced α) : Traced (List α) := counting element.counted

def nested (element : Traced α) : Traced (List (List α)) := counting fun _ => list element

def varints (bits : Nat) : Traced (List (BitVec bits)) := counting fun _ => plain (Decoder.varint bits)

end Traced

open Traced

def Transfer.traced : Traced Transfer := do
  let version ← plain (Decoder.word 1 .little)
  let amount ← plain (Decoder.varint 64)
  let fee ← plain (Decoder.word 32 .little)
  let unlock ← plain Decoder.boolean
  let inputs ← list (plain (Blob.decode 32))
  let outputs ← Sequence.mk <$> list (plain (Blob.decode 4))
  return { version, amount, fee, unlock, inputs, outputs }

def Schema.traced : (s : Schema) → Traced s.Value
  | blob n => plain (Blob.decode n)
  | transfer => Transfer.traced
  | list s => s.traced.list
  | sequence s => Sequence.mk <$> s.traced.list

def Field.traced : (f : Field) → Traced f.Result
  | varints bits => Traced.varints bits
  | value s => s.traced
  | values s => s.traced.list
  | valueLists s => s.traced.nested
  | f => plain f.decode

/-- The lists that the reading of a field begins at a cursor. -/
def Cursor.openings (c : Cursor) (f : Field) : List Opening := f.traced.openings c.accepted c.unread

/-! ### What is tried -/

namespace Decoder

variable {α : Type} {d : Decoder α} {n : Nat} {r : CountRange} {b rest : Bytes}

theorem tried_of_ok {vs : List α} (h : each d n r b = .ok (vs, rest)) : tried d n r b = n := by
  induction n generalizing b vs with
  | zero => rfl
  | succ n ih =>
    obtain ⟨v, mid, hv, h⟩ := bind_eq_ok_iff.mp h
    obtain ⟨us, hus, -⟩ := map_eq_ok_iff.mp h
    rw [tried, hv]
    exact congrArg (· + 1) (ih hus)

/-- After a failure, the elements tried are those found in front of it and the one that failed. -/
theorem tried_of_error {e : Error} (h : each d n r b = .error e) :
    ∃ k vs mid, tried d n r b = k + 1 ∧ each d k r b = .ok (vs, mid) ∧ d r mid = .error e := by
  induction n generalizing b with
  | zero => cases h
  | succ n ih =>
    rw [tried]
    rcases bind_eq_error_iff.mp h with hd | ⟨v, mid, hv, h⟩
    · exact ⟨0, [], b, by rw [hd], rfl, hd⟩
    · rcases bind_eq_error_iff.mp h with h | ⟨us, rest, -, h⟩
      · obtain ⟨k, vs, last, htried, hvs, hlast⟩ := ih h
        refine ⟨k + 1, v :: vs, last, by rw [hv, ← htried], ?_, hlast⟩
        exact bind_eq_ok_iff.mpr ⟨v, mid, hv, map_eq_ok_iff.mpr ⟨vs, hvs, rfl⟩⟩
      · cases h

theorem tried_le (d : Decoder α) (n : Nat) (r : CountRange) (b : Bytes) : tried d n r b ≤ n := by
  induction n generalizing b with
  | zero => exact Nat.le_refl _
  | succ n ih =>
    rw [tried]
    rcases d r b with e | ⟨v, rest⟩
    · exact Nat.succ_le_succ (Nat.zero_le n)
    · exact Nat.succ_le_succ (ih rest)

theorem each_of_error {k : Nat} {vs : List α} {mid : Bytes} {e : Error} (hk : k < n)
    (hvs : each d k r b = .ok (vs, mid)) (he : d r mid = .error e) : each d n r b = .error e := by
  induction n generalizing k b vs with
  | zero => exact absurd hk (Nat.not_lt_zero k)
  | succ n ih =>
    cases k with
    | zero =>
      obtain ⟨-, rfl⟩ := pure_eq_ok_iff.mp hvs
      exact bind_eq_error_iff.mpr (.inl he)
    | succ k =>
      obtain ⟨v, next, hv, hvs⟩ := bind_eq_ok_iff.mp hvs
      obtain ⟨us, hus, -⟩ := map_eq_ok_iff.mp hvs
      have hlater := ih (Nat.lt_of_succ_lt_succ hk) hus
      exact bind_eq_error_iff.mpr (.inr ⟨v, next, hv, bind_eq_error_iff.mpr (.inl hlater)⟩)

theorem each_eq_error_iff {e : Error} : each d n r b = .error e ↔
    ∃ k < n, ∃ vs mid, each d k r b = .ok (vs, mid) ∧ d r mid = .error e := by
  constructor
  · intro h
    obtain ⟨k, vs, mid, htried, hvs, he⟩ := tried_of_error h
    have hk := tried_le d n r b
    rw [htried] at hk
    exact ⟨k, hk, vs, mid, hvs, he⟩
  · rintro ⟨k, hk, vs, mid, hvs, he⟩
    exact each_of_error hk hvs he

end Decoder

/-! ### What is decoded -/

namespace Traced

variable {α β : Type} {t : Traced α} {next : α → Traced β} {element : Nat → Traced α} {r : CountRange}
variable {b rest : Bytes}

theorem decode_bind_of_ok {v : α} (h : t.decode r b = .ok (v, rest)) :
    (t >>= next).decode r b = (next v).decode r rest := by
  change (t.decode >>= fun v => (next v).decode) r b = _
  rw [Decoder.bind_apply, h]

theorem decode_bind_of_error {e : Error} (h : t.decode r b = .error e) : (t >>= next).decode r b = .error e := by
  change (t.decode >>= fun v => (next v).decode) r b = _
  rw [Decoder.bind_apply, h]

theorem decode_each (t : Traced α) (n : Nat) : (t.each n).decode = t.decode.each n := by
  induction n with
  | zero => rfl
  | succ n ih =>
    rw [Decoder.each, ← ih]
    rfl

theorem decode_counting_of_count {n : Nat} (h : Decoder.count r b = .ok (n, rest)) :
    (counting element).decode r b = ((element n).each n).decode r rest := by
  change (Decoder.count >>= fun n => Decoder.each (element n).decode n) r b = _
  rw [decode_each, Decoder.bind_apply, h]

theorem decode_counting_of_error {e : Error} (h : Decoder.count r b = .error e) :
    (counting element).decode r b = .error e := by
  change (Decoder.count >>= fun n => Decoder.each (element n).decode n) r b = _
  rw [Decoder.bind_apply, h]

end Traced

theorem Transfer.decode_traced : Transfer.traced.decode = Transfer.decode := rfl

theorem Schema.decode_traced (s : Schema) : s.traced.decode = s.codec.decode := by
  induction s with
  | blob n => rfl
  | transfer => exact Transfer.decode_traced
  | list s ih => exact congrArg Decoder.list ih
  | sequence s ih => exact congrArg (Sequence.mk <$> Decoder.list ·) ih

theorem Schema.takes_traced (s : Schema) : Decoder.Takes s.leastSize s.traced.decode :=
  s.decode_traced ▸ s.takes_decode

/-- Keeping a record does not change what is decoded. -/
theorem Field.decode_traced (f : Field) : f.traced.decode = f.decode := by
  cases f with
  | value s => exact s.decode_traced
  | values s => exact congrArg Decoder.list s.decode_traced
  | valueLists s => exact congrArg Decoder.nested s.decode_traced
  | _ => rfl

/-! ### What is on record -/

namespace Traced

variable {α β : Type} {t : Traced α} {next : α → Traced β} {r : CountRange} {b rest : Bytes} {o : Opening}

theorem openings_bind_of_ok {v : α} (h : t.decode r b = .ok (v, rest)) :
    (t >>= next).openings r b = t.openings r b ++ (next v).openings r rest := by
  change t.openings r b ++ _ = _
  rw [h]

theorem openings_bind_of_error {e : Error} (h : t.decode r b = .error e) :
    (t >>= next).openings r b = t.openings r b := by
  change t.openings r b ++ _ = _
  rw [h, List.append_nil]

theorem mem_openings_bind : o ∈ (t >>= next).openings r b ↔
    o ∈ t.openings r b ∨ ∃ v rest, t.decode r b = .ok (v, rest) ∧ o ∈ (next v).openings r rest := by
  rcases h : t.decode r b with e | ⟨v, rest⟩
  · simp [openings_bind_of_error h]
  · simp [openings_bind_of_ok h]

section Counting
variable {element : Nat → Traced α} {n : Nat} {v : BitVec 64}

theorem openings_counting_of_error {e : Error} (h : Decoder.varint 64 r b = .error e) :
    (counting element).openings r b = [] := by
  simp only [counting, h]

theorem openings_counting_of_refused (h : Decoder.varint 64 r b = .ok (v, rest)) (hr : r.contains v.toNat = false) :
    (counting element).openings r b = [⟨v.toNat, rest.length, 0⟩] := by
  simp [counting, h, hr]

theorem openings_counting_of_count (h : Decoder.count r b = .ok (n, rest)) :
    (counting element).openings r b =
      ⟨n, rest.length, (element n).decode.tried n r rest⟩ :: (each (element n) n).openings r rest := by
  obtain ⟨v, hv, rfl, hr⟩ := Decoder.count_eq_ok_iff.mp h
  simp only [counting, hv, hr, if_true]

end Counting

/-- After every success, the value found and the counts on record are as `R` says. -/
def Records (t : Traced α) (R : α → List Nat → Prop) : Prop :=
  ∀ ⦃r b v rest⦄, t.decode r b = .ok (v, rest) → R v ((t.openings r b).map Opening.count)

section Records
variable {R : α → List Nat → Prop} {S : β → List Nat → Prop}

theorem records_pure {v : α} (h : R v []) : Records (pure v) R := by
  intro r b w rest hw
  obtain ⟨rfl, -⟩ := Decoder.pure_eq_ok_iff.mp hw
  exact h

theorem records_plain (d : Decoder α) : (plain d).Records fun _ ns => ns = [] := fun _ _ _ _ _ => rfl

theorem Records.bind (h : t.Records R) (hnext : ∀ v ns, R v ns → (next v).Records fun w ms => S w (ns ++ ms)) :
    (t >>= next).Records S := by
  intro r b w rest hw
  obtain ⟨v, mid, hv, hw⟩ := Decoder.bind_eq_ok_iff.mp hw
  rw [openings_bind_of_ok hv, List.map_append]
  exact hnext v _ (h hv) hw

theorem Records.map {f : α → β} (h : t.Records fun v ns => S (f v) ns) : (f <$> t).Records S :=
  h.bind fun v ns hv => records_pure (by rwa [List.append_nil])

variable {counts : α → List Nat}

theorem Records.each (h : t.Records fun v ns => ns = counts v) (n : Nat) :
    (t.each n).Records fun vs ns => vs.length = n ∧ ns = vs.flatMap counts := by
  induction n with
  | zero => exact records_pure ⟨rfl, rfl⟩
  | succ n ih =>
    refine h.bind fun v ns hv => Records.map ?_
    intro r b vs rest hvs
    obtain ⟨hlen, hns⟩ := ih hvs
    rw [hns, hv]
    exact ⟨by rw [List.length_cons, hlen], rfl⟩

theorem Records.counting {element : Nat → Traced α} (h : ∀ n, (element n).Records fun v ns => ns = counts v) :
    (Traced.counting element).Records fun vs ns => ns = vs.length :: vs.flatMap counts := by
  intro r b vs rest hvs
  obtain ⟨n, mid, hn, hvs⟩ := Decoder.bind_eq_ok_iff.mp hvs
  rw [← decode_each] at hvs
  obtain ⟨rfl, hns⟩ := (h n).each n hvs
  rw [openings_counting_of_count hn, List.map_cons, hns]

theorem records_counting_plain (d : Nat → Decoder α) :
    (Traced.counting fun n => plain (d n)).Records fun vs ns => ns = [vs.length] := by
  intro r b vs rest hvs
  have elements : ∀ n, (plain (d n)).Records fun _ ns => ns = [] := fun n => records_plain (d n)
  rw [Records.counting elements hvs, List.flatMap_eq_nil_iff.mpr fun _ _ => rfl]

theorem Records.list (h : t.Records fun v ns => ns = counts v) :
    t.list.Records fun vs ns => ns = vs.length :: vs.flatMap counts :=
  .counting fun _ _ _ _ _ hv => h (Decoder.counted_eq_ok_iff.mp hv).1

end Records

/-! ### Where the lists stand -/

end Traced

namespace Opening

variable {o : Opening} {b mid : Bytes}

/-- The count of the list is a varint somewhere in `b`, with the unread bytes behind it. -/
def In (o : Opening) (b : Bytes) : Prop :=
  ∃ front k, front <:+ b ∧ Varint.Begins 64 front o.count k ∧ o.unread = front.length - k

theorem In.of_suffix (h : o.In mid) (hmid : mid <:+ b) : o.In b := by
  obtain ⟨front, k, hfront, h⟩ := h
  exact ⟨front, k, hfront.trans hmid, h⟩

theorem In.count_lt (h : o.In b) : o.count < 2 ^ 64 := by
  obtain ⟨front, k, -, hbegins, -⟩ := h
  exact hbegins.fits

theorem In.unread_lt (h : o.In b) : o.unread < b.length := by
  obtain ⟨front, k, hfront, hbegins, hunread⟩ := h
  have hle := hfront.length_le
  have hk := Varint.length_of_extent? hbegins.ends
  omega

theorem in_of_varint {r : CountRange} {v : BitVec 64} {rest : Bytes} (h : Decoder.varint 64 r b = .ok (v, rest))
    (tried : Nat) : In ⟨v.toNat, rest.length, tried⟩ b := by
  obtain ⟨u, k, hbegins, rfl, rfl⟩ := Decoder.varint_eq_ok_iff.mp h
  refine ⟨b, k, List.suffix_refl b, ?_, List.length_drop⟩
  rwa [BitVec.toNat_ofNat, Nat.mod_eq_of_lt hbegins.fits]

end Opening

namespace Traced

variable {α β : Type} {t : Traced α} {next : α → Traced β} {r : CountRange} {b : Bytes} {o : Opening}

/-- All lists on record stand in the bytes that are decoded, and the bytes left are an end of these. -/
structure Placed (t : Traced α) : Prop where
  suffix : ∀ {r b v rest}, t.decode r b = .ok (v, rest) → rest <:+ b
  mem : ∀ {r b o}, o ∈ t.openings r b → o.In b

theorem placed_plain (f : Field) : Placed (plain f.decode) where
  suffix := f.decode_suffix
  mem ho := by cases ho

theorem placed_pure (v : α) : Placed (pure v) where
  suffix hw := by
    obtain ⟨-, rfl⟩ := Decoder.pure_eq_ok_iff.mp hw
    exact List.suffix_refl _
  mem ho := by cases ho

theorem Placed.bind (h : Placed t) (hnext : ∀ v, Placed (next v)) : Placed (t >>= next) where
  suffix hw := by
    obtain ⟨v, mid, hv, hw⟩ := Decoder.bind_eq_ok_iff.mp hw
    exact ((hnext v).suffix hw).trans (h.suffix hv)
  mem ho := by
    rcases mem_openings_bind.mp ho with ho | ⟨v, mid, hv, ho⟩
    · exact h.mem ho
    · exact ((hnext v).mem ho).of_suffix (h.suffix hv)

theorem Placed.map (f : α → β) (h : Placed t) : Placed (f <$> t) := h.bind fun v => placed_pure (f v)

theorem Placed.each (h : Placed t) (n : Nat) : Placed (t.each n) := by
  induction n with
  | zero => exact placed_pure []
  | succ n ih => exact h.bind fun v => ih.map (v :: ·)

/-- A list on record is the one whose count comes first, which may be refused, or stands in one of its elements. -/
theorem mem_openings_counting {element : Nat → Traced α} (ho : o ∈ (counting element).openings r b) :
    (∃ v rest, Decoder.varint 64 r b = .ok (v, rest) ∧ r.contains v.toNat = false ∧
      o = ⟨v.toNat, rest.length, 0⟩) ∨
    ∃ n rest, Decoder.count r b = .ok (n, rest) ∧
      (o = ⟨n, rest.length, (element n).decode.tried n r rest⟩ ∨ o ∈ (each (element n) n).openings r rest) := by
  rcases hv : Decoder.varint 64 r b with e | ⟨v, rest⟩
  · rw [openings_counting_of_error hv] at ho
    cases ho
  · cases hr : r.contains v.toNat with
    | false =>
      rw [openings_counting_of_refused hv hr, List.mem_singleton] at ho
      exact .inl ⟨v, rest, rfl, hr, ho⟩
    | true =>
      have hn := Decoder.count_eq_ok_iff.mpr ⟨v, hv, rfl, hr⟩
      rw [openings_counting_of_count hn, List.mem_cons] at ho
      exact .inr ⟨v.toNat, rest, hn, ho⟩

theorem suffix_of_count {n : Nat} {rest : Bytes} (h : Decoder.count r b = .ok (n, rest)) : rest <:+ b := by
  obtain ⟨v, hv, -, -⟩ := Decoder.count_eq_ok_iff.mp h
  exact (Field.varint 64).decode_suffix (r := r) hv

theorem Placed.counting {element : Nat → Traced α} (h : ∀ n, Placed (element n)) :
    Placed (Traced.counting element) where
  suffix hvs := by
    obtain ⟨n, mid, hn, hvs⟩ := Decoder.bind_eq_ok_iff.mp hvs
    rw [← decode_each] at hvs
    exact (((h n).each n).suffix hvs).trans (suffix_of_count hn)
  mem ho := by
    rcases mem_openings_counting ho with ⟨v, rest, hv, -, rfl⟩ | ⟨n, rest, hn, rfl | ho⟩
    · exact Opening.in_of_varint hv 0
    · obtain ⟨v, hv, rfl, -⟩ := Decoder.count_eq_ok_iff.mp hn
      exact Opening.in_of_varint hv _
    · exact (((h n).each n).mem ho).of_suffix (suffix_of_count hn)

theorem Placed.counted (h : Placed t) (declared : Nat) : Placed (t.counted declared) :=
  ⟨fun hv => h.suffix (Decoder.counted_eq_ok_iff.mp hv).1, h.mem⟩

theorem Placed.list (h : Placed t) : Placed t.list := .counting h.counted

end Traced

/-! ### Values and fields -/

theorem Blob.placed_list (n : Nat) : (list (plain (Blob.decode n))).Placed :=
  (placed_plain (.value (.blob n))).list

theorem Transfer.placed_traced : Transfer.traced.Placed :=
  (placed_plain (.word 1 .little)).bind fun _ =>
  (placed_plain (.varint 64)).bind fun _ =>
  (placed_plain (.word 32 .little)).bind fun _ =>
  (placed_plain .boolean).bind fun _ =>
  (Blob.placed_list 32).bind fun _ =>
  ((Blob.placed_list 4).map Sequence.mk).bind fun _ =>
  placed_pure _

theorem Blob.records_list (n : Nat) : (list (plain (Blob.decode n))).Records fun ps ns => ns = [ps.length] :=
  records_counting_plain fun declared => Decoder.counted (Blob.decode n) declared

theorem Transfer.records_traced : Transfer.traced.Records fun t ns => ns = Schema.transfer.counts t := by
  have houtputs : (Sequence.mk <$> list (plain (Blob.decode 4))).Records fun outputs ns => ns = [outputs.length] :=
    (Blob.records_list 4).map
  refine (records_plain _).bind fun version _ h₁ => ?_
  refine (records_plain _).bind fun amount _ h₂ => ?_
  refine (records_plain _).bind fun fee _ h₃ => ?_
  refine (records_plain _).bind fun unlock _ h₄ => ?_
  refine (Blob.records_list 32).bind fun inputs _ h₅ => ?_
  refine houtputs.bind fun outputs _ h₆ => records_pure ?_
  rw [h₁, h₂, h₃, h₄, h₅, h₆]
  rfl

namespace Schema

/-- After a success, the lists on record are those of the value. -/
theorem records_traced (s : Schema) : s.traced.Records fun v ns => ns = s.counts v := by
  induction s with
  | blob n => exact records_plain _
  | transfer => exact Transfer.records_traced
  | list s ih => exact ih.list
  | sequence s ih => exact ih.list.map

theorem placed_traced (s : Schema) : s.traced.Placed := by
  induction s with
  | blob n => exact placed_plain (.value (.blob n))
  | transfer => exact Transfer.placed_traced
  | list s ih => exact ih.list
  | sequence s ih => exact ih.list.map Sequence.mk

theorem countable_of_decode {s : Schema} {r : CountRange} {b rest : Bytes} {v : s.Value}
    (h : s.codec.decode r b = .ok (v, rest)) : ∀ n ∈ s.counts v, n < 2 ^ 64 := by
  intro n hn
  rw [← s.decode_traced] at h
  rw [← s.records_traced h] at hn
  obtain ⟨o, ho, rfl⟩ := List.mem_map.mp hn
  exact (s.placed_traced.mem ho).count_lt

end Schema

namespace Field

/-- The lengths of all lists in what is read. -/
def counts : (f : Field) → f.Result → List Nat
  | varints _, vs => [vs.length]
  | value s, v => s.counts v
  | values s, vs => (Schema.list s).counts vs
  | valueLists s, vss => (Schema.list (Schema.list s)).counts vss
  | _, _ => []

theorem records_traced (f : Field) : f.traced.Records fun v ns => ns = f.counts v := by
  cases f with
  | varints bits => exact records_counting_plain fun _ => Decoder.varint bits
  | value s => exact s.records_traced
  | values s => exact s.records_traced.list
  | valueLists s => exact .counting fun _ => s.records_traced.list
  | _ => exact records_plain _

theorem placed_traced (f : Field) : f.traced.Placed := by
  cases f with
  | varints bits => exact .counting fun _ => placed_plain (.varint bits)
  | value s => exact s.placed_traced
  | values s => exact s.placed_traced.list
  | valueLists s => exact .counting fun _ => s.placed_traced.list
  | _ => exact placed_plain _

end Field

/-! ### Cursors -/

namespace Cursor

variable {c : Cursor} {f : Field} {peek : Bool}

theorem read_fst (hc : c.InBounds) : (c.read f peek).1 = (f.traced.decode c.accepted c.unread).map Prod.fst := by
  rw [read_eq f peek hc, f.decode_traced, Decoder.through]
  rcases f.decode c.accepted c.unread with e | ⟨v, rest⟩ <;> rfl

/-- What is on record after a read that succeeds are the lists of the value read. -/
theorem count_openings {v : f.Result} (hc : c.InBounds) (h : (c.read f peek).1 = .ok v) :
    (c.openings f).map Opening.count = f.counts v := by
  rw [read_fst hc] at h
  rcases hd : f.traced.decode c.accepted c.unread with e | ⟨u, rest⟩
  · rw [hd] at h
    cases h
  · rw [hd] at h
    obtain rfl : u = v := Except.ok.inj h
    exact f.records_traced hd

end Cursor

end WireFormat
