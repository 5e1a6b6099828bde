import WireFormat.Cursor.Field
import WireFormat.Proofs.Varint.Grammar

/-! Readings and decoders agree. A reading moves a cursor in place, a decoder takes a value from the front
    of some bytes; from every cursor in bounds a reading gives what its decoder gives on the unread bytes
    and stops where the decoder's rest begins. A reading that is put together from others may fail after
    some of them have moved the cursor; the readings of fields never do. -/

namespace WireFormat

namespace Cursor
variable (c : Cursor) (p q : Nat)

/-- The cursor stands at one of its bytes or at their end. -/
def InBounds : Prop := c.position ≤ c.data.length

instance : Decidable c.InBounds := inferInstanceAs (Decidable (c.position ≤ c.data.length))

@[simp] theorem moveTo_data : (c.moveTo p).data = c.data := rfl
@[simp] theorem moveTo_position : (c.moveTo p).position = p := rfl
@[simp] theorem moveTo_accepted : (c.moveTo p).accepted = c.accepted := rfl
@[simp] theorem moveTo_moveTo : (c.moveTo p).moveTo q = c.moveTo q := rfl
@[simp] theorem moveTo_position_self : c.moveTo c.position = c := rfl
@[simp] theorem unread_moveTo : (c.moveTo p).unread = c.data.drop p := rfl

end Cursor

namespace Decoder

variable {α β : Type}

/-- What a cursor makes of a decoder: a value moves it to the bytes that follow, unless this is a peek, and
    a failure leaves it as it is. -/
def through (d : Decoder α) (peek : Bool) (c : Cursor) : Except Error α × Cursor :=
  match d c.accepted c.unread with
  | .ok (v, rest) => (.ok v, if peek then c else c.moveTo (c.data.length - rest.length))
  | .error e => (.error e, c)

theorem through_eq_ok_iff {d : Decoder α} {peek : Bool} {c after : Cursor} {v : α} :
    d.through peek c = (.ok v, after) ↔ ∃ rest, d c.accepted c.unread = .ok (v, rest) ∧
      after = if peek then c else c.moveTo (c.data.length - rest.length) := by
  rw [through]
  rcases d c.accepted c.unread with e | ⟨u, rest⟩
  · simp
  · simp [eq_comm]

theorem through_eq_error_iff {d : Decoder α} {peek : Bool} {c : Cursor} {e : Error} :
    (d.through peek c).1 = .error e ↔ d c.accepted c.unread = .error e := by
  rw [through]
  rcases d c.accepted c.unread with e' | ⟨u, rest⟩ <;> simp

theorem through_map (f : α → β) (d : Decoder α) (peek : Bool) (c : Cursor) :
    (f <$> d).through peek c = ((d.through peek c).1.map f, (d.through peek c).2) := by
  rw [through, through, map_apply]
  rcases d c.accepted c.unread with e | ⟨v, rest⟩ <;> rfl

end Decoder

/-! ### Looking at an offset -/

theorem Packed.decode_drop {n : Nat} {order : ByteOrder} {packed : Bytes} {offset : Nat}
    (h : offset ≤ packed.length) : decode n order (packed.drop offset) 0 = decode n order packed offset := by
  simp only [decode, Nat.zero_add, List.length_drop, List.drop_zero]
  by_cases hn : offset + n ≤ packed.length
  · rw [if_pos hn, if_pos (by omega)]
  · rw [if_neg hn, if_neg (by omega)]

theorem Varint.decode_drop {bits : Nat} {packed : Bytes} {offset : Nat} (h : offset ≤ packed.length) :
    decode bits (packed.drop offset) 0 = decode bits packed offset := by
  rw [decode, decode, if_pos (Nat.zero_le _), if_pos h, List.drop_zero]

namespace Reading

variable {α β : Type}

/-! ### Tracking -/

/-- From every cursor in bounds, `m` gives what `d` gives on the unread bytes. It moves the cursor forward
    and no further than the end; a value moves it to the bytes that `d` leaves. -/
def Tracks (m : Reading α) (d : Decoder α) : Prop :=
  ∀ c : Cursor, c.InBounds → ∃ result p, m c = (result, c.moveTo p) ∧ c.position ≤ p ∧ p ≤ c.data.length ∧
    d c.accepted c.unread = result.map fun v => (v, c.data.drop p)

theorem tracks_pure (v : α) : Tracks (pure v) (pure v) := fun c hc =>
  ⟨.ok v, c.position, rfl, Nat.le_refl _, hc, rfl⟩

theorem Tracks.bind {m : Reading α} {d : Decoder α} {k : α → Reading β} {l : α → Decoder β}
    (hm : Tracks m d) (hk : ∀ v, Tracks (k v) (l v)) : Tracks (m >>= k) (d >>= l) := by
  intro c hc
  obtain ⟨result, p, hmc, hle, hp, hd⟩ := hm c hc
  rw [show (m >>= k) c = andThen m k c from rfl, andThen, hmc, Decoder.bind_apply, hd]
  cases result with
  | error e => exact ⟨.error e, p, rfl, hle, hp, rfl⟩
  | ok v =>
    obtain ⟨result', q, hkc, hle', hq, hl⟩ := hk v (c.moveTo p) hp
    exact ⟨result', q, hkc, Nat.le_trans hle hle', hq, hl⟩

theorem Tracks.map {m : Reading α} {d : Decoder α} (f : α → β) (h : Tracks m d) :
    Tracks (f <$> m) (f <$> d) :=
  h.bind fun v => tracks_pure (f v)

/-- Putting the cursor back after a failure only changes where a failure leaves it. -/
theorem Tracks.restoring {m : Reading α} {d : Decoder α} (h : Tracks m d) :
    Tracks (restoring false m) d := by
  intro c hc
  obtain ⟨result, p, hmc, hle, hp, hd⟩ := h c hc
  rw [Reading.restoring, hmc]
  cases result with
  | error e => exact ⟨.error e, c.position, rfl, Nat.le_refl _, hc, hd⟩
  | ok v => exact ⟨.ok v, p, rfl, hle, hp, hd⟩

/-! ### Whole reads -/

/-- As `Tracks` for what is no peek; moreover a failure leaves the cursor where it is, and a peek gives the
    same and leaves it as well. -/
structure Settled (read : Bool → Reading α) (d : Decoder α) : Prop where
  tracks : Tracks (read false) d
  kept : ∀ {c : Cursor}, c.InBounds → ∀ {e}, (read false c).1 = .error e → (read false c).2 = c
  peek : ∀ {c : Cursor}, c.InBounds → read true c = ((read false c).1, c)

theorem Settled.map {read : Bool → Reading α} {d : Decoder α} (f : α → β) (h : Settled read d) :
    Settled (fun peek => f <$> read peek) (f <$> d) where
  tracks := h.tracks.map f
  kept {c} hc {e} he := by
    rw [show (f <$> read false) c = andThen (read false) (fun v => pure (f v)) c from rfl, andThen] at he ⊢
    rcases hr : read false c with ⟨e' | v, moved⟩
    · have hkept := h.kept hc (congrArg Prod.fst hr)
      rwa [hr] at hkept
    · rw [hr] at he
      cases he
  peek {c} hc := by
    rw [show (f <$> read true) c = andThen (read true) (fun v => pure (f v)) c from rfl,
      show (f <$> read false) c = andThen (read false) (fun v => pure (f v)) c from rfl, andThen, andThen,
      h.peek hc]
    rcases read false c with ⟨e | v, moved⟩ <;> rfl

theorem Tracks.settled {m : Reading α} {d : Decoder α} (h : Tracks m d) :
    Settled (fun peek => Reading.restoring peek m) d where
  tracks := h.restoring
  kept {c} hc {e} he := by
    obtain ⟨result, p, hmc, -⟩ := h c hc
    rw [Reading.restoring, hmc] at he ⊢
    cases result with
    | error e' => rfl
    | ok v => cases he
  peek {c} hc := by
    obtain ⟨result, p, hmc, -⟩ := h c hc
    rw [Reading.restoring, Reading.restoring, hmc]
    cases result <;> rfl

theorem Settled.eq_through {read : Bool → Reading α} {d : Decoder α} (h : Settled read d) (peek : Bool)
    {c : Cursor} (hc : c.InBounds) : read peek c = d.through peek c := by
  obtain ⟨result, p, hrc, hle, hp, hd⟩ := h.tracks c hc
  rw [Decoder.through, hd]
  cases result with
  | error e =>
    have hkept := h.kept hc (congrArg Prod.fst hrc)
    cases peek
    · rw [hrc] at hkept ⊢
      exact congrArg (Prod.mk _) hkept
    · rw [h.peek hc, hrc]
      rfl
  | ok v =>
    cases peek
    · rw [hrc]
      simp [Except.map, Nat.sub_sub_self hp]
    · rw [h.peek hc, hrc]
      rfl

/-! ### Single values -/

theorem settled_word (n : Nat) (order : ByteOrder) : Settled (word n order) (Decoder.word n order) where
  tracks c hc := by
    rw [word, Decoder.word, Cursor.unread, Packed.decode_drop hc]
    rcases h : Packed.decode n order c.data c.position with e | v
    · exact ⟨.error e, c.position, rfl, Nat.le_refl _, hc, rfl⟩
    · have hn : c.position + n ≤ c.data.length := by
        rw [Packed.decode] at h
        by_contra hlt
        rw [if_neg hlt] at h
        cases h
      exact ⟨.ok v, c.position + n, rfl, Nat.le_add_right _ _, hn, by simp [Except.map]⟩
  kept {c} _ {e} he := by
    rw [word] at he ⊢
    rcases h : Packed.decode n order c.data c.position with e' | v
    · rfl
    · rw [h] at he
      cases he
  peek {c} _ := by
    rw [word, word]
    rcases Packed.decode n order c.data c.position with e | v <;> rfl

theorem settled_take (n : Nat) : Settled (take n) (Decoder.take n) where
  tracks c hc := by
    rw [take, Decoder.take]
    have hlen : n ≤ c.unread.length ↔ c.position + n ≤ c.data.length := by
      have := hc
      rw [Cursor.InBounds] at this
      rw [Cursor.unread, List.length_drop]
      omega
    by_cases hn : c.position + n ≤ c.data.length
    · rw [if_pos (hlen.mpr hn)]
      refine ⟨.ok (c.unread.take n), c.position + n, if_pos hn, Nat.le_add_right _ _, hn, ?_⟩
      simp [Except.map, Cursor.unread]
    · rw [if_neg (mt hlen.mp hn)]
      exact ⟨.error .endOfBuffer, c.position, if_neg hn, Nat.le_refl _, hc, rfl⟩
  kept {c} _ {e} he := by
    rw [take] at he ⊢
    by_cases hn : c.position + n ≤ c.data.length
    · rw [if_pos hn] at he
      cases he
    · rw [if_neg hn]
  peek {c} _ := by
    rw [take, take]
    by_cases hn : c.position + n ≤ c.data.length
    · rw [if_pos hn, if_pos hn]
      rfl
    · rw [if_neg hn, if_neg hn]

theorem settled_varint (bits : Nat) : Settled (varint bits) (Decoder.varint bits) where
  tracks c hc := by
    rw [varint, Decoder.varint, Cursor.unread, Varint.decode_drop hc]
    rcases h : Varint.decode bits c.data c.position with e | ⟨v, k⟩
    · exact ⟨.error e, c.position, rfl, Nat.le_refl _, hc, rfl⟩
    · have hk := (Varint.length_of_extent? (Varint.decode_eq_ok_iff.mp h).2.ends).2
      rw [List.length_drop] at hk
      have hc' : c.position ≤ c.data.length := hc
      exact ⟨.ok _, c.position + k, rfl, Nat.le_add_right _ _, by omega, by simp [Except.map]⟩
  kept {c} _ {e} he := by
    rw [varint] at he ⊢
    rcases h : Varint.decode bits c.data c.position with e' | ⟨v, k⟩
    · rfl
    · rw [h] at he
      cases he
  peek {c} _ := by
    rw [varint, varint]
    rcases Varint.decode bits c.data c.position with e | ⟨v, k⟩ <;> rfl

/-! ### Lists -/

theorem tracks_accept (n : Nat) : Tracks (accept n) (Decoder.accept n) := by
  intro c hc
  rw [accept, Decoder.accept]
  by_cases hn : c.accepted.contains n = true
  · rw [if_pos hn, if_pos hn]
    exact ⟨.ok n, c.position, rfl, Nat.le_refl _, hc, rfl⟩
  · rw [if_neg hn, if_neg hn]
    exact ⟨.error (.invalidLength n), c.position, rfl, Nat.le_refl _, hc, rfl⟩

theorem tracks_count : Tracks count Decoder.count :=
  (settled_varint 64).tracks.bind fun v => tracks_accept v.toNat

variable {m : Reading α} {d : Decoder α}

/-- An element leaves the cursor where it was just if it leaves as many bytes unread as there were. -/
theorem Tracks.counted (h : Tracks m d) (declared : Nat) :
    Tracks (counted m declared) (Decoder.counted d declared) := by
  intro c hc
  obtain ⟨result, p, hmc, hle, hp, hd⟩ := h c hc
  rw [Reading.counted, Decoder.counted, hmc, hd]
  cases result with
  | error e => exact ⟨.error e, p, rfl, hle, hp, rfl⟩
  | ok v =>
    have hstop : (c.moveTo p).position = c.position ∧ (c.moveTo p).accepted.isCapped = false ∧
          (c.moveTo p).unread.length < declared ↔
        (c.data.drop p).length = c.unread.length ∧ c.accepted.isCapped = false ∧
          (c.data.drop p).length < declared := by
      refine and_congr ?_ Iff.rfl
      rw [Cursor.moveTo_position, Cursor.unread, List.length_drop, List.length_drop]
      omega
    simp only [Except.map]
    by_cases h : (c.data.drop p).length = c.unread.length ∧ c.accepted.isCapped = false ∧
        (c.data.drop p).length < declared
    · rw [if_pos (hstop.mpr h), if_pos h]
      exact ⟨.error (.invalidLength declared), p, rfl, hle, hp, rfl⟩
    · rw [if_neg (mt hstop.mp h), if_neg h]
      exact ⟨.ok v, p, rfl, hle, hp, rfl⟩

theorem Tracks.each (h : Tracks m d) (n : Nat) : Tracks (each m n) (Decoder.each d n) := by
  induction n with
  | zero => exact tracks_pure []
  | succ n ih => exact h.bind fun v => ih.bind fun vs => tracks_pure (v :: vs)

theorem Tracks.list (h : Tracks m d) : Settled (list m) (Decoder.list d) :=
  (tracks_count.bind fun n => (h.counted n).each n).settled

theorem Tracks.nested (h : Tracks m d) : Settled (nested m) (Decoder.nested d) :=
  (tracks_count.bind fun n => h.list.tracks.each n).settled

theorem settled_varints (bits : Nat) : Settled (varints bits) (Decoder.varints bits) :=
  (tracks_count.bind fun n => (settled_varint bits).tracks.each n).settled

end Reading

/-! ### Values and fields -/

open Reading

theorem Blob.tracks_read (n : Nat) : Tracks (Blob.read n) (Blob.decode n) := by
  intro c hc
  obtain ⟨result, p, hmc, hle, hp, hd⟩ := (settled_take n).tracks c hc
  rw [Blob.decode, hd, show Blob.read n c = andThen (Reading.take n false) (fun b => lift (ofBytes n b)) c from rfl,
    andThen, hmc]
  cases result with
  | error e => exact ⟨.error e, p, rfl, hle, hp, rfl⟩
  | ok b => exact ⟨ofBytes n b, p, rfl, hle, hp, rfl⟩

theorem settled_boolean : Settled Reading.boolean Decoder.boolean :=
  (settled_word 1 .little).map (· == 1)

theorem Transfer.tracks_read : Tracks Transfer.read Transfer.decode :=
  (settled_word 1 .little).tracks.bind fun _ =>
  (settled_varint 64).tracks.bind fun _ =>
  (settled_word 32 .little).tracks.bind fun _ =>
  settled_boolean.tracks.bind fun _ =>
  (Blob.tracks_read 32).list.tracks.bind fun _ =>
  ((Blob.tracks_read 4).list.tracks.map Sequence.mk).restoring.bind fun _ =>
  tracks_pure _

/-- The reading of values of a schema does what the codec of the schema says. -/
theorem Schema.tracks_read (s : Schema) : Tracks s.read s.codec.decode := by
  induction s with
  | blob n => exact Blob.tracks_read n
  | transfer => exact Transfer.tracks_read
  | list s ih => exact ih.list.tracks
  | sequence s ih => exact ih.list.tracks.map Sequence.mk

theorem Field.settled_read (f : Field) : Settled f.read f.decode := by
  cases f with
  | boolean => exact settled_boolean
  | word n order => exact settled_word n order
  | bytes length => exact settled_take length
  | hex length => exact (settled_take length).map Hex.encode
  | varint bits => exact settled_varint bits
  | varints bits => exact settled_varints bits
  | value s => exact s.tracks_read.settled
  | values s => exact s.tracks_read.list
  | valueLists s => exact s.tracks_read.nested

/-- Reading a field through a cursor is decoding it from the unread bytes. -/
theorem Field.read_eq_through (f : Field) (peek : Bool) {c : Cursor} (hc : c.InBounds) :
    f.read peek c = f.decode.through peek c :=
  f.settled_read.eq_through peek hc

/-- What a field leaves of some bytes is their end. -/
theorem Field.decode_suffix (f : Field) {r : CountRange} {b rest : Bytes} {v : f.Result}
    (h : f.decode r b = .ok (v, rest)) : rest <:+ b := by
  obtain ⟨result, p, -, -, -, hd⟩ := f.settled_read.tracks ⟨b, 0, r⟩ (Nat.zero_le _)
  rw [show f.decode r b = _ from hd] at h
  cases result with
  | error e => cases h
  | ok u =>
    obtain ⟨-, rfl⟩ := Prod.mk.inj (Except.ok.inj h)
    exact List.drop_suffix p b

end WireFormat
