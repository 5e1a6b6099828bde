import WireFormat.Proofs.Extension

/-! The failures that decoders report. Values of fixed size only find the end of the input; varints may also be
    invalid, and counts may also lie outside the range. Where no list has elements that take no bytes, nothing
    else fails, so every failure is one of input that ends too early or one that no more input repairs. -/

namespace WireFormat

/-- A failure under the range `r` of input that ends too early, or that no more input repairs. -/
def Error.Plain (r : CountRange) (e : Error) : Prop := e = .endOfBuffer ∨ e.Final r

namespace Decoder

variable {α β : Type} {E : Error → Prop} {r : CountRange}

/-- Under the range `r`, all failures of `d` are of the kind `E`. -/
def FailsWith (E : Error → Prop) (r : CountRange) (d : Decoder α) : Prop :=
  ∀ ⦃b : Bytes⦄ ⦃e : Error⦄, d r b = .error e → E e

theorem FailsWith.mono {E' : Error → Prop} {d : Decoder α} (h : FailsWith E r d) (hE : ∀ e, E e → E' e) :
    FailsWith E' r d :=
  fun _ _ he => hE _ (h he)

theorem failsWith_pure (v : α) : FailsWith E r (pure v) := fun _ _ h => by cases h

theorem FailsWith.bind {d : Decoder α} {next : α → Decoder β} (h : FailsWith E r d)
    (hnext : ∀ v, FailsWith E r (next v)) : FailsWith E r (d >>= next) := by
  intro b e he
  rcases bind_eq_error_iff.mp he with he | ⟨v, mid, -, he⟩
  · exact h he
  · exact hnext v he

theorem FailsWith.map {d : Decoder α} (f : α → β) (h : FailsWith E r d) : FailsWith E r (f <$> d) :=
  h.bind fun v => failsWith_pure (f v)

/-! ### Single values -/

theorem failsWith_take (n : Nat) : FailsWith (· = .endOfBuffer) r (take n) :=
  fun _ _ h => (take_eq_error_iff.mp h).2

theorem failsWith_word (n : Nat) (order : ByteOrder) : FailsWith (· = .endOfBuffer) r (word n order) := by
  rw [word_eq_map]
  exact (failsWith_take n).map _

theorem failsWith_boolean : FailsWith (· = .endOfBuffer) r boolean := (failsWith_word 1 .little).map (· == 1)

theorem failsWith_varint (bits : Nat) :
    FailsWith (fun e => e = .endOfBuffer ∨ e = .invalidVarint) r (varint bits) :=
  fun _ _ h => Varint.decode_error (varint_eq_error_iff.mp h)

theorem plain_varint (bits : Nat) : FailsWith (Error.Plain r) r (varint bits) :=
  (failsWith_varint bits).mono fun e he => he.imp_right fun h => by
    rw [h]
    trivial

/-! ### Lists -/

theorem plain_accept (n : Nat) : FailsWith (Error.Plain r) r (accept n) := by
  intro b e h
  rw [accept] at h
  by_cases hr : r.contains n = true
  · rw [if_pos hr] at h
    cases h
  · rw [if_neg hr] at h
    obtain rfl := Except.error.inj h
    exact .inr (Bool.eq_false_iff.mpr hr)

theorem plain_count : FailsWith (Error.Plain r) r count := (plain_varint 64).bind fun v => plain_accept v.toNat

theorem FailsWith.each {d : Decoder α} (h : FailsWith E r d) (n : Nat) : FailsWith E r (each d n) := by
  induction n with
  | zero => exact failsWith_pure []
  | succ n ih => exact h.bind fun v => ih.map (v :: ·)

theorem FailsWith.list {d : Decoder α} (h : FailsWith (Error.Plain r) r d) (htakes : Takes 1 d) :
    FailsWith (Error.Plain r) r (list d) :=
  plain_count.bind fun n => by
    rw [counted_eq_self htakes]
    exact h.each n

end Decoder

open Decoder

/-! ### Values -/

section Values
variable {r : CountRange}

theorem Blob.failsWith_decode (n : Nat) : FailsWith (· = .endOfBuffer) r (Blob.decode n) :=
  fun _ _ h => failsWith_take n (decode_eq_error_iff.mp h)

theorem Blob.plain_decode (n : Nat) : FailsWith (Error.Plain r) r (Blob.decode n) :=
  (Blob.failsWith_decode n).mono fun _ => .inl

theorem Transfer.plain_decode : FailsWith (Error.Plain r) r Transfer.decode :=
  ((failsWith_word 1 .little).mono fun _ => .inl).bind fun _ =>
  (plain_varint 64).bind fun _ =>
  ((failsWith_word 32 .little).mono fun _ => .inl).bind fun _ =>
  (failsWith_boolean.mono fun _ => .inl).bind fun _ =>
  ((Blob.plain_decode 32).list ((Blob.takes_decode 32).mono (by decide))).bind fun _ =>
  (((Blob.plain_decode 4).list ((Blob.takes_decode 4).mono (by decide))).map Sequence.mk).bind fun _ =>
  failsWith_pure _

theorem Schema.plain_decode {s : Schema} (h : s.Solid) : FailsWith (Error.Plain r) r s.codec.decode := by
  induction s with
  | blob n => exact Blob.plain_decode n
  | transfer => exact Transfer.plain_decode
  | list s ih => exact (ih h.2).list (s.takes_decode.mono h.1)
  | sequence s ih => exact ((ih h.2).list (s.takes_decode.mono h.1)).map Sequence.mk

end Values

end WireFormat
