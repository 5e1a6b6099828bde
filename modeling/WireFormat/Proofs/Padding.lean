import WireFormat.Proofs.Trace
import WireFormat.Proofs.Varint.Spellings
import WireFormat.Proofs.Whole

/-! Padding. Some bytes that are read as a value are not those that the value is written as. A count may be spelled
    with groups of zeros behind those it needs, and then the input is longer than the bytes of the value. Blobs and
    words have one spelling only, so among the inputs read as a list of blobs, nested to any depth, the bytes of
    the value are the one shortest. Transfers also have a byte for a truth value, which is false for all numbers
    but 1. -/

namespace WireFormat

/-- `used` is no shorter than `frame`, and is `frame` if it is no longer. -/
structure Padded (frame used : Bytes) : Prop where
  length_le : frame.length ≤ used.length
  eq_of_length : used.length = frame.length → used = frame

theorem padded_self (frame : Bytes) : Padded frame frame := ⟨Nat.le_refl _, fun _ => rfl⟩

theorem Padded.append {frame frame' used used' : Bytes} (h : Padded frame used) (h' : Padded frame' used') :
    Padded (frame ++ frame') (used ++ used') where
  length_le := by
    rw [List.length_append, List.length_append]
    exact Nat.add_le_add h.length_le h'.length_le
  eq_of_length hlen := by
    rw [List.length_append, List.length_append] at hlen
    have hle := h.length_le
    have hle' := h'.length_le
    rw [h.eq_of_length (by omega), h'.eq_of_length (by omega)]

namespace Decoder

variable {α β : Type} {r : CountRange} {b rest : Bytes}

/-- Every value that `d` finds stands on its frame or on more bytes than this. -/
def Pads (d : Decoder α) (frame : α → Bytes) : Prop :=
  ∀ ⦃r b v rest⦄, d r b = .ok (v, rest) → ∃ used, b = used ++ rest ∧ Padded (frame v) used

/-! ### Single values -/

theorem pads_take (n : Nat) : Pads (take n) id := by
  intro r b v rest h
  obtain ⟨-, rfl, rfl⟩ := take_eq_ok_iff.mp h
  exact ⟨_, (List.take_append_drop n b).symm, padded_self _⟩

theorem pads_word (n : Nat) (order : ByteOrder) : Pads (word n order) (Packed.encode order) := by
  intro r b v rest h
  rw [word_eq_map] at h
  obtain ⟨used, hused, rfl⟩ := map_eq_ok_iff.mp h
  obtain ⟨hn, rfl, rfl⟩ := take_eq_ok_iff.mp hused
  refine ⟨b.take n, (List.take_append_drop n b).symm, ?_⟩
  have hback := Packed.encode_ofBytes order (b.take n)
  rw [List.length_take_of_le hn] at hback
  rw [hback]
  exact padded_self _

theorem pads_varint (bits : Nat) : Pads (varint bits) fun v => Varint.canonical v.toNat := by
  intro r b v rest h
  obtain ⟨u, k, hbegins, rfl, rfl⟩ := varint_eq_ok_iff.mp h
  obtain ⟨hfits, hsize, -, htake⟩ := Varint.begins_iff_padded.mp hbegins
  have hlen : (b.take k).length = k := List.length_take_of_le (Varint.length_of_extent? hbegins.ends).2
  refine ⟨b.take k, (List.take_append_drop k b).symm, ?_⟩
  simp only [BitVec.toNat_ofNat, Nat.mod_eq_of_lt hfits]
  -- What is read is the canonical form with groups of zeros behind it.
  constructor
  · rwa [Varint.length_canonical, hlen]
  · intro heq
    rw [hlen, Varint.length_canonical] at heq
    rw [htake, heq, Nat.sub_self, Varint.padded]

theorem boolean_cons (c : UInt8) (b : Bytes) : boolean r (c :: b) = .ok (c == 1, b) := by
  have hbyte : Packed.ofBytes 1 .little [c] = c.toBitVec := by
    simp [Packed.ofBytes, Packed.arrange, Packed.ofDigits]
  have hone : (c.toBitVec == 1) = (c == 1) := by
    rw [Bool.eq_iff_iff, beq_iff_eq, beq_iff_eq, ← UInt8.toBitVec_inj]
    rfl
  change Except.ok (Packed.ofBytes 1 .little [c] == 1, b) = _
  rw [hbyte, hone]

theorem boolean_eq_ok_iff {v : Bool} : boolean r b = .ok (v, rest) ↔ ∃ c : UInt8, b = c :: rest ∧ v = (c == 1) := by
  constructor
  · intro h
    cases b with
    | nil => cases h
    | cons c b =>
      rw [boolean_cons] at h
      cases h
      exact ⟨c, rfl, rfl⟩
  · rintro ⟨c, rfl, rfl⟩
    exact boolean_cons c rest

/-! ### Lists -/

theorem pads_count : Pads count Varint.canonical := by
  intro r b n rest h
  obtain ⟨v, hv, rfl, -⟩ := count_eq_ok_iff.mp h
  exact pads_varint 64 hv

section Lists
variable {d : Decoder α} {frame : α → Bytes}

theorem Pads.counted (h : Pads d frame) (declared : Nat) : Pads (counted d declared) frame :=
  fun _ _ _ _ hv => h (counted_eq_ok_iff.mp hv).1

theorem Pads.each (h : Pads d frame) {n : Nat} {vs : List α} (hvs : each d n r b = .ok (vs, rest)) :
    vs.length = n ∧ ∃ used, b = used ++ rest ∧ Padded (vs.flatMap frame) used := by
  induction n generalizing b vs with
  | zero =>
    obtain ⟨rfl, rfl⟩ := pure_eq_ok_iff.mp hvs
    exact ⟨rfl, [], rfl, padded_self []⟩
  | succ n ih =>
    obtain ⟨v, mid, hv, hvs⟩ := bind_eq_ok_iff.mp hvs
    obtain ⟨us, hus, rfl⟩ := map_eq_ok_iff.mp hvs
    obtain ⟨used, rfl, hused⟩ := h hv
    obtain ⟨hlen, used', rfl, hused'⟩ := ih hus
    refine ⟨by rw [List.length_cons, hlen], used ++ used', (List.append_assoc ..).symm, ?_⟩
    rw [List.flatMap_cons]
    exact hused.append hused'

theorem Pads.list (h : Pads d frame) : Pads (list d) (framed frame) := by
  intro r b vs rest hvs
  obtain ⟨n, mid, hn, heach⟩ := bind_eq_ok_iff.mp hvs
  obtain ⟨used, rfl, hused⟩ := pads_count hn
  obtain ⟨rfl, used', rfl, hused'⟩ := (h.counted n).each heach
  exact ⟨used ++ used', (List.append_assoc ..).symm, hused.append hused'⟩

end Lists

end Decoder

open Decoder

/-! ### Values -/

theorem Blob.pads_decode (n : Nat) : Pads (Blob.decode n) Blob.bytes :=
  fun _ _ _ _ h => pads_take n (decode_eq_ok_iff.mp h)

namespace Schema

/-- Values of the schema are made of blobs alone. -/
def OfBlobs : Schema → Prop
  | blob _ => True
  | transfer => False
  | list s => s.OfBlobs
  | sequence s => s.OfBlobs

theorem pads_decode {s : Schema} (hs : s.OfBlobs) : Pads s.codec.decode s.frame := by
  induction s with
  | blob n => exact Blob.pads_decode n
  | transfer => exact hs.elim
  | list s ih => exact (ih hs).list
  | sequence s ih =>
    intro r b v rest h
    obtain ⟨vs, hvs, rfl⟩ := map_eq_ok_iff.mp h
    exact (ih hs).list hvs

end Schema

namespace Transfer

/-- Where the byte of the truth value stands: behind the version, the amount and the fee. -/
def unlockOffset (t : Transfer) : Nat := 1 + Varint.size t.amount.toNat + 32

/-- The bytes in front of the truth value. -/
def front (t : Transfer) : Bytes :=
  Packed.encode .little t.version ++ Varint.canonical t.amount.toNat ++ Packed.encode .little t.fee

/-- The bytes behind the truth value. -/
def back (t : Transfer) : Bytes := framed Blob.bytes t.inputs ++ framed Blob.bytes t.outputs.toList

theorem length_front (t : Transfer) : t.front.length = t.unlockOffset := by
  rw [front, List.length_append, List.length_append, Packed.length_encode, Packed.length_encode,
    Varint.length_canonical, unlockOffset]

theorem frame_eq (t : Transfer) : t.frame = t.front ++ booleanByte t.unlock :: t.back := by
  simp only [frame, front, back, List.append_assoc, List.cons_append, List.nil_append]

theorem getElem?_frame (t : Transfer) : t.frame[t.unlockOffset]? = some (booleanByte t.unlock) := by
  rw [frame_eq, ← length_front, List.getElem?_append_right (Nat.le_refl _), Nat.sub_self, List.getElem?_cons_zero]

theorem set_frame (t : Transfer) (c : UInt8) : t.frame.set t.unlockOffset c = t.front ++ c :: t.back := by
  rw [frame_eq, ← length_front, List.set_append_right _ _ (Nat.le_refl _), Nat.sub_self, List.set_cons_zero]

/-- A transfer stands on its frame with some byte for the truth value, or on more bytes. -/
theorem padded_of_decode {r : CountRange} {b rest : Bytes} {t : Transfer} (h : Transfer.decode r b = .ok (t, rest)) :
    ∃ c : UInt8, t.unlock = (c == 1) ∧ ∃ used, b = used ++ rest ∧ Padded (t.frame.set t.unlockOffset c) used := by
  obtain ⟨version, mid₁, hversion, h⟩ := bind_eq_ok_iff.mp h
  obtain ⟨amount, mid₂, hamount, h⟩ := bind_eq_ok_iff.mp h
  obtain ⟨fee, mid₃, hfee, h⟩ := bind_eq_ok_iff.mp h
  obtain ⟨unlock, mid₄, hunlock, h⟩ := bind_eq_ok_iff.mp h
  obtain ⟨inputs, mid₅, hinputs, h⟩ := bind_eq_ok_iff.mp h
  obtain ⟨outputs, mid₆, houtputs, h⟩ := bind_eq_ok_iff.mp h
  obtain ⟨ps, hps, rfl⟩ := map_eq_ok_iff.mp houtputs
  obtain ⟨rfl, rfl⟩ := pure_eq_ok_iff.mp h
  obtain ⟨used₁, rfl, h₁⟩ := pads_word 1 .little hversion
  obtain ⟨used₂, rfl, h₂⟩ := pads_varint 64 hamount
  obtain ⟨used₃, rfl, h₃⟩ := pads_word 32 .little hfee
  obtain ⟨c, rfl, hc⟩ := boolean_eq_ok_iff.mp hunlock
  obtain ⟨used₅, rfl, h₅⟩ := (Blob.pads_decode 32).list hinputs
  obtain ⟨used₆, rfl, h₆⟩ := (Blob.pads_decode 4).list hps
  refine ⟨c, hc, used₁ ++ used₂ ++ used₃ ++ c :: (used₅ ++ used₆), by simp, ?_⟩
  rw [set_frame]
  exact ((h₁.append h₂).append h₃).append ((padded_self [c]).append (h₅.append h₆))

theorem booleanByte_or (c : UInt8) : c = booleanByte (c == 1) ∨ (c == 1) = false ∧ c ≠ 0 ∧ c ≠ 1 := by
  by_cases h₁ : c = 1
  · exact .inl (by rw [h₁]; rfl)
  · have hfalse : (c == 1) = false := beq_false_of_ne h₁
    rw [hfalse]
    by_cases h₀ : c = 0
    · exact .inl h₀
    · exact .inr ⟨rfl, h₀, h₁⟩

end Transfer

namespace Schema

/-- An input of a value is no shorter than the bytes of the value. Of the inputs of one made of blobs, only these
    bytes are no longer. Those of a transfer that are no longer may still have any byte for a truth value that is
    false. -/
theorem ofBytes_padded :
    (∀ s : Schema, s.OfBlobs → ∀ b (v : s.Value), s.codec.ofBytes b = .ok v →
      ∃ bytes, s.codec.toBytes v = .ok bytes ∧
        s.codec.size v ≤ b.length ∧ (s.codec.size v = b.length ↔ b = bytes)) ∧
    (∀ b t, Transfer.codec.ofBytes b = .ok t →
      ∃ bytes, Transfer.codec.toBytes t = .ok bytes ∧ bytes[t.unlockOffset]? = some (booleanByte t.unlock) ∧
        Transfer.codec.size t ≤ b.length ∧
        (Transfer.codec.size t = b.length ↔
          b = bytes ∨ t.unlock = false ∧ ∃ c, c ≠ 0 ∧ c ≠ 1 ∧ b = bytes.set t.unlockOffset c)) := by
  constructor
  · intro s hs b v h
    have hdecode := ofBytes_eq_ok_iff.mp h
    obtain ⟨used, hused, hpad⟩ := pads_decode hs hdecode
    obtain rfl : b = used := hused.trans (List.append_nil used)
    refine ⟨s.frame v, toBytes_eq (countable_of_decode hdecode), ?_⟩
    rw [← s.length_frame v]
    exact ⟨hpad.length_le, fun hlen => hpad.eq_of_length hlen.symm, fun hb => by rw [hb]⟩
  · intro b t h
    have hdecode := ofBytes_eq_ok_iff (s := transfer).mp h
    obtain ⟨c, hc, used, hused, hpad⟩ := Transfer.padded_of_decode hdecode
    obtain rfl : b = used := hused.trans (List.append_nil used)
    have hlength : t.frame.length = Transfer.codec.size t := t.length_frame
    have hset (c : UInt8) : (t.frame.set t.unlockOffset c).length = Transfer.codec.size t := by
      rw [List.length_set, hlength]
    refine ⟨t.frame, toBytes_eq (s := transfer) (countable_of_decode (s := transfer) hdecode), t.getElem?_frame,
      hset c ▸ hpad.length_le, fun hlen => ?_, ?_⟩
    · -- All parts have their least length, so only the byte of the truth value is left to differ.
      have hb := hpad.eq_of_length (hlen.symm.trans (hset c).symm)
      rcases Transfer.booleanByte_or c with hbyte | ⟨hfalse, hne⟩
      · rw [← hc] at hbyte
        rw [Transfer.set_frame, hbyte, ← Transfer.frame_eq] at hb
        exact .inl hb
      · exact .inr ⟨hc.trans hfalse, c, hne.1, hne.2, hb⟩
    · rintro (rfl | ⟨-, c', -, -, rfl⟩)
      · exact hlength.symm
      · exact (hset c').symm

/-- A list of one list, whose counts are spelled with three groups too many, and a transfer with seven for a truth
    value, which is no longer than it is written. -/
theorem ofBytes_padded_groups :
    let s := Schema.list (.list (.blob 1))
    let v : s.Value := [[⟨[7], rfl⟩]]
    let b : Bytes := 1 :: 5 :: (List.replicate 32 0 ++ [7, 0, 0])
    let t : Transfer := { version := 1, amount := 5, fee := 0, unlock := false, inputs := [], outputs := ⟨[]⟩ }
    s.OfBlobs ∧ s.codec.ofBytes [0x81, 0, 0x81, 0x80, 0, 7] = .ok v ∧ s.codec.size v ≤ 6 ∧
      s.codec.toBytes v ≠ .ok [0x81, 0, 0x81, 0x80, 0, 7] ∧
      Transfer.codec.ofBytes b = .ok t ∧ Transfer.codec.size t = b.length ∧
      ∃ bytes, Transfer.codec.toBytes t = .ok bytes ∧
        (b = bytes ∨ t.unlock = false ∧ ∃ c, c ≠ 0 ∧ c ≠ 1 ∧ b = bytes.set t.unlockOffset c) := by
  intro s v b t
  have hv : s.codec.ofBytes [0x81, 0, 0x81, 0x80, 0, 7] = .ok v := by decide +kernel
  have ht : Transfer.codec.ofBytes b = .ok t := by decide +kernel
  have hsize : Transfer.codec.size t = b.length := by decide
  obtain ⟨bytes, hbytes, hle, heq⟩ := ofBytes_padded.1 s trivial _ v hv
  obtain ⟨bytes', hbytes', -, -, heq'⟩ := ofBytes_padded.2 b t ht
  refine ⟨trivial, hv, hle, fun h => ?_, ht, hsize, bytes', hbytes', heq'.mp hsize⟩
  have := heq.mpr (Except.ok.inj (h.symm.trans hbytes))
  exact absurd this (by decide)

end Schema

end WireFormat
