import WireFormat.Proofs.Forged
import WireFormat.Proofs.HollowLists
import WireFormat.Proofs.Limit

/-! What reads fail with: the end of the input, an invalid varint, or a count. A read comes to the lists in its field
    one after the other, also those inside of elements. A count it fails with is that of a list it has come to, and is
    either not accepted, or one of blobs of no bytes, which are too many for the bytes behind it. -/

namespace WireFormat

/-! ### Transfers in two parts -/

namespace Transfer

/-- The fields in front of the lists. -/
def head : Decoder (Word 1 × BitVec 64 × Word 32 × Bool) := do
  let version ← Decoder.word 1 .little
  let amount ← Decoder.varint 64
  let fee ← Decoder.word 32 .little
  let unlock ← Decoder.boolean
  return (version, amount, fee, unlock)

theorem decode_eq : Transfer.decode = (do
    let (version, amount, fee, unlock) ← head
    let inputs ← (Field.values (.blob 32)).decode
    let outputs ← (Field.value (.sequence (.blob 4))).decode
    return { version, amount, fee, unlock, inputs, outputs }) := by
  simp only [decode, head, bind_assoc, pure_bind]
  rfl

variable {r : CountRange} {b : Bytes} {e : Error}

theorem decode_eq_error_iff : Transfer.decode r b = .error e ↔ head r b = .error e ∨
    ∃ front mid, head r b = .ok (front, mid) ∧ ((Field.values (.blob 32)).decode r mid = .error e ∨
      ∃ inputs rest, (Field.values (.blob 32)).decode r mid = .ok (inputs, rest) ∧
        (Field.value (.sequence (.blob 4))).decode r rest = .error e) := by
  rw [decode_eq, Decoder.bind_eq_error_iff]
  refine or_congr_right (exists_congr fun front => exists_congr fun mid => and_congr_right fun _ => ?_)
  refine Decoder.bind_eq_error_iff.trans ?_
  refine or_congr_right (exists_congr fun inputs => exists_congr fun rest => and_congr_right fun _ => ?_)
  exact Decoder.map_eq_error_iff

theorem failsWith_head : Decoder.FailsWith (fun e => e = .endOfBuffer ∨ e = .invalidVarint) r head :=
  ((Decoder.failsWith_word 1 .little).mono fun _ => .inl).bind fun _ =>
  (Decoder.failsWith_varint 64).bind fun _ =>
  ((Decoder.failsWith_word 32 .little).mono fun _ => .inl).bind fun _ =>
  (Decoder.failsWith_boolean.mono fun _ => .inl).bind fun _ =>
  Decoder.failsWith_pure _

theorem suffix_of_head {front : Word 1 × BitVec 64 × Word 32 × Bool} {rest : Bytes}
    (h : head r b = .ok (front, rest)) : rest <:+ b := by
  have placed := (Traced.placed_plain (.word 1 .little)).bind fun version =>
    (Traced.placed_plain (.varint 64)).bind fun amount =>
    (Traced.placed_plain (.word 32 .little)).bind fun fee =>
    (Traced.placed_plain .boolean).bind fun unlock =>
    Traced.placed_pure (version, amount, fee, unlock)
  exact placed.suffix h

end Transfer

/-! ### The lists in a field -/

namespace Field

/-- The first field is a list, of which each element is read as the second. -/
inductive IsListOf : Field → Field → Prop where
  | varints (bits : Nat) : IsListOf (varints bits) (varint bits)
  | list (s : Schema) : IsListOf (value (.list s)) (value s)
  | sequence (s : Schema) : IsListOf (value (.sequence s)) (value s)
  | values (s : Schema) : IsListOf (values s) (value s)
  | valueLists (s : Schema) : IsListOf (valueLists s) (values s)

/-- On its way through some bytes, the decoding of a field comes to a list of `g`s that begins at `front`. The list is
    the field itself, or stands in an element behind others that are found, or is one of the two in a transfer. -/
inductive Reaches (r : CountRange) (g : Field) (front : Bytes) : Field → Bytes → Prop where
  | here {f : Field} (hf : f.IsListOf g) : Reaches r g front f front
  | inside {f element : Field} {b mid rest : Bytes} {n k : Nat} {vs : List element.Result}
      (hf : f.IsListOf element) (hcount : Decoder.count r b = .ok (n, mid)) (hk : k < n)
      (hvs : Decoder.each element.decode k r mid = .ok (vs, rest)) (h : Reaches r g front element rest) :
      Reaches r g front f b
  | inputs {b mid : Bytes} {head : Word 1 × BitVec 64 × Word 32 × Bool}
      (hhead : Transfer.head r b = .ok (head, mid)) (h : Reaches r g front (values (.blob 32)) mid) :
      Reaches r g front (value .transfer) b
  | outputs {b mid rest : Bytes} {head : Word 1 × BitVec 64 × Word 32 × Bool} {inputs : List (Blob 32)}
      (hhead : Transfer.head r b = .ok (head, mid)) (hinputs : (values (.blob 32)).decode r mid = .ok (inputs, rest))
      (h : Reaches r g front (value (.sequence (.blob 4))) rest) : Reaches r g front (value .transfer) b

variable {f g : Field} {r : CountRange} {b front : Bytes} {e : Error}

/-- All lists fail alike: watching for elements that take no bytes makes no difference where there are none. -/
theorem IsListOf.decode_eq_error_iff (hf : f.IsListOf g) :
    f.decode r b = .error e ↔ Decoder.list g.decode r b = .error e := by
  cases hf with
  | varints bits =>
    change Decoder.varints bits r b = _ ↔ _
    rw [Decoder.varints_eq_list]
    rfl
  | list s => rfl
  | sequence s => exact Decoder.map_eq_error_iff
  | values s => rfl
  | valueLists s =>
    rw [s.decode_valueLists]
    rfl

theorem hollow_or_takes_value (s : Schema) : value s = value (.blob 0) ∨ Decoder.Takes 1 (value s).decode := by
  rcases Nat.eq_zero_or_pos s.leastSize with hs | hs
  · cases s with
    | blob n =>
      obtain rfl : n = 0 := hs
      exact .inl rfl
    | _ => cases hs
  · exact .inr (s.takes_decode.mono hs)

/-- The only elements that take no bytes are blobs of no bytes. -/
theorem IsListOf.hollow_or_takes (hf : f.IsListOf g) : g = value (.blob 0) ∨ Decoder.Takes 1 g.decode := by
  cases hf with
  | varints bits => exact .inr (Decoder.takes_varint bits)
  | list s => exact hollow_or_takes_value s
  | sequence s => exact hollow_or_takes_value s
  | values s => exact hollow_or_takes_value s
  | valueLists s => exact .inr (Schema.list s).takes_decode

theorem not_reaches_blob (n : Nat) : ¬Reaches r g front (value (.blob n)) b := by
  intro h
  cases h with
  | here hf => cases hf
  | inside hf => cases hf

/-- The list stands in the bytes that are decoded. -/
theorem Reaches.suffix (h : Reaches r g front f b) : front <:+ b := by
  induction h with
  | here hf => exact List.suffix_refl front
  | @inside f element b mid rest n k vs hf hcount hk hvs h ih =>
    have heach := congrFun₂ (Traced.decode_each (Traced.plain element.decode) k) r mid
    have hrest := ((Traced.placed_plain element).each k).suffix (heach.trans hvs)
    exact (ih.trans hrest).trans (Traced.suffix_of_count hcount)
  | inputs hhead h ih => exact ih.trans (Transfer.suffix_of_head hhead)
  | outputs hhead hinputs h ih => exact (ih.trans (decode_suffix _ hinputs)).trans (Transfer.suffix_of_head hhead)

/-- What the list fails with, the field fails with. -/
theorem Reaches.decode_error (h : Reaches r g front f b) (he : Decoder.list g.decode r front = .error e) :
    f.decode r b = .error e := by
  induction h with
  | here hf => exact hf.decode_eq_error_iff.mpr he
  | inside hf hcount hk hvs h ih =>
    rcases hf.hollow_or_takes with rfl | htakes
    · exact absurd h (not_reaches_blob 0)
    · rw [hf.decode_eq_error_iff, Decoder.list, Decoder.bind_apply, hcount]
      change Decoder.each _ _ r _ = _
      rw [Decoder.counted_eq_self htakes]
      exact Decoder.each_eq_error_iff.mpr ⟨_, hk, _, _, hvs, ih⟩
  | inputs hhead h ih => exact Transfer.decode_eq_error_iff.mpr (.inr ⟨_, _, hhead, .inl ih⟩)
  | outputs hhead hinputs h ih =>
    exact Transfer.decode_eq_error_iff.mpr (.inr ⟨_, _, hhead, .inr ⟨_, _, hinputs, ih⟩⟩)

theorem IsListOf.solid (hf : f.IsListOf g) (h : f.Solid) : g.Solid ∧ g ≠ value (.blob 0) := by
  have solid_list {s : Schema} (h : (Schema.list s).Solid) : (value s).Solid ∧ value s ≠ value (.blob 0) := by
    refine ⟨h.2, ?_⟩
    rintro ⟨⟩
    exact absurd h.1 (Nat.lt_irrefl 0)
  cases hf with
  | varints bits => exact ⟨trivial, by simp⟩
  | list s => exact solid_list h
  | sequence s => exact solid_list h
  | values s => exact solid_list h
  | valueLists s => exact ⟨h.2, by simp⟩

theorem Reaches.not_solid (h : Reaches r (value (.blob 0)) front f b) : ¬f.Solid := by
  induction h with
  | here hf => exact fun hsolid => (hf.solid hsolid).2 rfl
  | inside hf hcount hk hvs h ih => exact fun hsolid => ih (hf.solid hsolid).1
  | inputs hhead h ih => exact absurd ⟨by decide, trivial⟩ ih
  | outputs hhead hinputs h ih => exact absurd ⟨by decide, trivial⟩ ih

/-! ### Counts that do not pass -/

/-- The count `n` of a list of `g`s that begins at `front` does not pass: it lies outside the range, or the list is
    one of blobs of no bytes, which are more than the bytes behind the count, under a range without upper end. -/
def Refused (r : CountRange) (g : Field) (front : Bytes) (n : Nat) : Prop :=
  ∃ k, Varint.decode 64 front 0 = .ok (n, k) ∧
    (r.contains n = false ∨ g = value (.blob 0) ∧ r.isCapped = false ∧ (front.drop k).length < n)

theorem Refused.list_eq {n : Nat} (h : Refused r g front n) :
    Decoder.list g.decode r front = .error (.invalidLength n) := by
  obtain ⟨k, hcount, hn⟩ := h
  cases hr : r.contains n with
  | false => exact Decoder.list_of_refused hcount hr
  | true =>
    rcases hn with hn | ⟨rfl, hopen, hlack⟩
    · rw [hr] at hn
      cases hn
    · refine (Blob.list_hollow hcount hr).trans (if_neg ?_)
      rintro (rfl | hcap | hle)
      · exact absurd hlack (Nat.not_lt_zero _)
      · rw [CountRange.isCapped_eq_true_iff.mpr hcap] at hopen
        cases hopen
      · omega

theorem refused_of_hollow {n k : Nat} (hcount : Varint.decode 64 b 0 = .ok (n, k)) (hr : r.contains n = true)
    (h : Decoder.list (value (.blob 0)).decode r b = .error e) :
    e = .invalidLength n ∧ Refused r (value (.blob 0)) b n := by
  change Decoder.list (Blob.decode 0) r b = _ at h
  rw [Blob.list_hollow hcount hr] at h
  split at h
  · cases h
  · rename_i hroom
    obtain ⟨-, hupper, hlack⟩ : n ≠ 0 ∧ r.upper = .unbounded ∧ (b.drop k).length < n := by simpa using hroom
    have hopen : r.isCapped = false := by rw [CountRange.isCapped, hupper]
    exact ⟨(Except.error.inj h).symm, k, hcount, .inr ⟨rfl, hopen, hlack⟩⟩

/-- What the decoding of a field from `b` may fail with. -/
inductive Failure (r : CountRange) (f : Field) (b : Bytes) : Error → Prop where
  | endOfBuffer : Failure r f b .endOfBuffer
  | invalidVarint : Failure r f b .invalidVarint
  | invalidLength {g : Field} {front : Bytes} {n : Nat} (hreach : Reaches r g front f b) (hn : Refused r g front n) :
    Failure r f b (.invalidLength n)

theorem Failure.of_varint (h : e = .endOfBuffer ∨ e = .invalidVarint) : Failure r f b e := by
  rcases h with rfl | rfl
  · exact .endOfBuffer
  · exact .invalidVarint

/-- What a part fails with, the whole may fail with, if it comes to the lists in the part. -/
theorem Failure.of_part {part : Field} {mid : Bytes}
    (reaches : ∀ {g front}, Reaches r g front part mid → Reaches r g front f b) (h : Failure r part mid e) :
    Failure r f b e := by
  cases h with
  | endOfBuffer => exact .endOfBuffer
  | invalidVarint => exact .invalidVarint
  | invalidLength hreach hn => exact .invalidLength (reaches hreach) hn

/-- A list fails at its count or, unless its elements are blobs of no bytes, in one of them. -/
theorem failure_of_element (hf : f.IsListOf g)
    (hg : ∀ {b e}, g.decode r b = .error e → Failure r g b e) (h : f.decode r b = .error e) : Failure r f b e := by
  rw [hf.decode_eq_error_iff] at h
  rcases hcount : Varint.decode 64 b 0 with e' | ⟨n, k⟩
  · rw [Decoder.list_of_error hcount] at h
    obtain rfl := Except.error.inj h
    exact .of_varint (Varint.decode_error hcount)
  cases hr : r.contains n with
  | false =>
    rw [Decoder.list_of_refused hcount hr] at h
    obtain rfl := Except.error.inj h
    exact .invalidLength (.here hf) ⟨k, hcount, .inl hr⟩
  | true =>
    rcases hf.hollow_or_takes with rfl | htakes
    · obtain ⟨rfl, hn⟩ := refused_of_hollow hcount hr h
      exact .invalidLength (.here hf) hn
    · rw [Decoder.list_of_accepted hcount hr, Decoder.counted_eq_self htakes] at h
      obtain ⟨j, hj, vs, rest, hvs, he⟩ := Decoder.each_eq_error_iff.mp h
      obtain ⟨hv, hn⟩ := Decoder.varint_of_decode (r := r) hcount
      exact (hg he).of_part (.inside hf (Decoder.count_eq_ok_iff.mpr ⟨_, hv, hn, hr⟩) hj hvs)

theorem failure_of_blob {n : Nat} (h : (value (.blob n)).decode r b = .error e) :
    Failure r (value (.blob n)) b e := by
  obtain rfl := Blob.failsWith_decode n h
  exact .endOfBuffer

theorem failure_of_value {s : Schema} (h : (value s).decode r b = .error e) : Failure r (value s) b e := by
  induction s generalizing b e with
  | blob n => exact failure_of_blob h
  | transfer =>
    rcases Transfer.decode_eq_error_iff.mp h with h | ⟨head, mid, hhead, h | ⟨inputs, rest, hinputs, h⟩⟩
    · exact .of_varint (Transfer.failsWith_head h)
    · exact (failure_of_element (.values _) failure_of_blob h).of_part (.inputs hhead)
    · exact (failure_of_element (.sequence _) failure_of_blob h).of_part (.outputs hhead hinputs)
  | list s ih => exact failure_of_element (.list s) ih h
  | sequence s ih => exact failure_of_element (.sequence s) ih h

/-- Whether the field takes a number of bytes that is known beforehand. -/
def isFixed : Field → Bool
  | boolean => true
  | word _ _ => true
  | bytes _ => true
  | hex _ => true
  | value (.blob _) => true
  | _ => false

theorem failsWith_fixed (hf : f.isFixed = true) : Decoder.FailsWith (· = .endOfBuffer) r f.decode := by
  cases f with
  | boolean => exact Decoder.failsWith_boolean
  | word n order => exact Decoder.failsWith_word n order
  | bytes length => exact Decoder.failsWith_take length
  | hex length => exact (Decoder.failsWith_take length).map Hex.encode
  | value s =>
    cases s with
    | blob n => exact Blob.failsWith_decode n
    | _ => cases hf
  | _ => cases hf

theorem failure_of_varint {bits : Nat} (h : (varint bits).decode r b = .error e) : Failure r (varint bits) b e :=
  .of_varint (Decoder.failsWith_varint (r := r) bits h)

theorem failure_of_decode (h : f.decode r b = .error e) : Failure r f b e := by
  have of_fixed (hf : f.isFixed = true) : Failure r f b e := .of_varint (.inl (failsWith_fixed hf h))
  cases f with
  | varint bits => exact failure_of_varint h
  | varints bits => exact failure_of_element (.varints bits) failure_of_varint h
  | value s => exact failure_of_value h
  | values s => exact failure_of_element (.values s) failure_of_value h
  | valueLists s => exact failure_of_element (.valueLists s) (failure_of_element (.values s) failure_of_value) h
  | _ => exact of_fixed rfl

/-- The counts that decoding fails with are those that do not pass, of lists it comes to. -/
theorem decode_eq_invalidLength_iff {n : Nat} : f.decode r b = .error (.invalidLength n) ↔
    ∃ g front, Reaches r g front f b ∧ Refused r g front n := by
  constructor
  · intro h
    cases failure_of_decode h with
    | invalidLength hreach hn => exact ⟨_, _, hreach, hn⟩
  · rintro ⟨g, front, hreach, hn⟩
    exact hreach.decode_error hn.list_eq

end Field

/-! ### Cursors -/

namespace Cursor

variable {c : Cursor}

theorem refused_drop_iff {r : CountRange} {g : Field} {p n : Nat} (hp : p ≤ c.data.length) :
    Field.Refused r g (c.data.drop p) n ↔ ∃ k, Varint.decode 64 c.data p = .ok (n, k) ∧
      (r.contains n = false ∨ g = .value (.blob 0) ∧ r.isCapped = false ∧ c.data.length - (p + k) < n) := by
  simp only [Field.Refused, Varint.decode_drop hp, List.drop_drop, List.length_drop]

theorem read_eq_invalidLength_iff (hc : c.InBounds) {f : Field} {peek : Bool} {n : Nat} :
    (c.read f peek).1 = .error (.invalidLength n) ↔ ∃ g p k, c.position ≤ p ∧
      Field.Reaches c.accepted g (c.data.drop p) f c.unread ∧ Varint.decode 64 c.data p = .ok (n, k) ∧
      (c.accepted.contains n = false ∨
        g = .value (.blob 0) ∧ c.accepted.isCapped = false ∧ c.data.length - (p + k) < n) := by
  rw [read_eq_error_iff hc, Field.decode_eq_invalidLength_iff]
  constructor
  · rintro ⟨g, front, hreach, hn⟩
    obtain ⟨p, hle, hp, rfl⟩ := exists_position hc hreach.suffix
    obtain ⟨k, hcount, hn⟩ := (refused_drop_iff hp).mp hn
    exact ⟨g, p, k, hle, hreach, hcount, hn⟩
  · rintro ⟨g, p, k, -, hreach, hcount, hn⟩
    have hp : p ≤ c.data.length := (Varint.decode_eq_ok_iff.mp hcount).1
    exact ⟨g, _, hreach, (refused_drop_iff hp).mpr ⟨k, hcount, hn⟩⟩

theorem step_ne_sizeMismatch (hc : c.InBounds) (s : Step) (expected found : Nat) :
    (c.step s).1 ≠ .error (.sizeMismatch expected found) := by
  have of_reset (p : Nat) : (c.reset p).1 ≠ .error (.sizeMismatch expected found) := by
    rw [reset]
    split <;> simp
  cases s with
  | read f peek =>
    intro h
    cases Field.failure_of_decode ((read_eq_error_iff hc).mp h)
  | skip n => exact of_reset _
  | reset position => exact of_reset position
  | compact => exact fun h => by cases h
  | accept r => exact fun h => by cases h

/-- A read of a field of known size fails only if the input ends too early, and that of a varint if this is invalid
    as well. Any other may also fail with the count of a list. It does so just if it comes to the list, at `p`, and
    either this count is not accepted, or no upper end is set and it is that of blobs of no bytes, which are more than
    the bytes behind it. Hence no step ever fails with a mismatch of sizes, and where every count is accepted, a field
    without lists of blobs of no bytes never fails with a count. -/
theorem read_failures (hc : c.InBounds) :
    (∀ f peek e, f.isFixed = true → (c.read f peek).1 = .error e → e = .endOfBuffer) ∧
    (∀ bits peek e, (c.read (.varint bits) peek).1 = .error e → e = .endOfBuffer ∨ e = .invalidVarint) ∧
    (∀ f peek e, (c.read f peek).1 = .error e →
      e = .endOfBuffer ∨ e = .invalidVarint ∨ ∃ n, e = .invalidLength n) ∧
    (∀ f peek n, (c.read f peek).1 = .error (.invalidLength n) ↔
      ∃ g p k, c.position ≤ p ∧ Field.Reaches c.accepted g (c.data.drop p) f c.unread ∧
        Varint.decode 64 c.data p = .ok (n, k) ∧
        (c.accepted.contains n = false ∨
          g = .value (.blob 0) ∧ c.accepted.isCapped = false ∧ c.data.length - (p + k) < n)) ∧
    (∀ s expected found, (c.step s).1 ≠ .error (.sizeMismatch expected found)) ∧
    (∀ f : Field, f.Solid → (∀ n, c.accepted.contains n = true) → ∀ peek n,
      (c.read f peek).1 ≠ .error (.invalidLength n)) := by
  refine ⟨fun f peek e hf h => ?_, fun bits peek e h => ?_, fun f peek e h => ?_,
    fun f peek n => read_eq_invalidLength_iff hc, step_ne_sizeMismatch hc, fun f hf hall peek n h => ?_⟩
  · exact Field.failsWith_fixed hf ((read_eq_error_iff hc).mp h)
  · exact Decoder.failsWith_varint (r := c.accepted) bits ((read_eq_error_iff hc).mp h)
  · cases Field.failure_of_decode ((read_eq_error_iff hc).mp h) with
    | endOfBuffer => exact .inl rfl
    | invalidVarint => exact .inr (.inl rfl)
    | invalidLength hreach hn => exact .inr (.inr ⟨_, rfl⟩)
  · obtain ⟨g, p, k, -, hreach, -, hr | ⟨rfl, -, -⟩⟩ := (read_eq_invalidLength_iff hc).mp h
    · rw [hall n] at hr
      cases hr
    · exact hreach.not_solid hf

/-- Two lists of blobs of no bytes, the second of which declares five in front of one byte. An upper end below two
    stops the read at the outer count, and if the blobs take a byte each, no count is at fault. -/
theorem read_failures_hollow :
    let c := (ofBytes [9, 2, 1, 5, 7]).moveTo 1
    let f := Field.valueLists (.blob 0)
    c.InBounds ∧ (c.read f false).1 = .error (.invalidLength 5) ∧
      (∃ p k, 1 ≤ p ∧ Field.Reaches .all (.value (.blob 0)) (c.data.drop p) f c.unread ∧
        Varint.decode 64 c.data p = .ok (5, k) ∧ c.data.length - (p + k) < 5) ∧
      ((c.accepting (.atMost 1)).read f true).1 = .error (.invalidLength 2) ∧
      ∀ n, (c.read (.valueLists (.blob 1)) false).1 ≠ .error (.invalidLength n) := by
  intro c f
  have hc : c.InBounds := by decide
  have hhollow : (c.read f false).1 = .error (.invalidLength 5) := by decide
  have hsolid : (Field.valueLists (.blob 1)).Solid := ⟨by decide, by decide, trivial⟩
  obtain ⟨-, -, -, counts, -, solid⟩ := read_failures hc
  obtain ⟨-, -, -, limited, -⟩ := read_failures (c := c.accepting (.atMost 1)) hc
  refine ⟨hc, hhollow, ?_, (limited f true 2).mpr ?_, solid _ hsolid (fun _ => rfl) false⟩
  · obtain ⟨g, p, k, hp, hreach, hcount, hr | ⟨rfl, -, hlack⟩⟩ := (counts f false 5).mp hhollow
    · cases hr
    · exact ⟨p, k, hp, hreach, hcount, hlack⟩
  · exact ⟨.values (.blob 0), 1, 1, Nat.le_refl 1, .here (.valueLists _), by decide, .inl rfl⟩

end Cursor

end WireFormat
