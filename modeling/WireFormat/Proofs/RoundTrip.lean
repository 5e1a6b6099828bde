import WireFormat.Field
import WireFormat.Proofs.Framing
import WireFormat.Proofs.Packed

/-! What encoders write, decoders read back, whatever bytes follow. Lists come back if the range of counts
    contains their lengths; if some element takes no bytes, the range also has to have an upper end, because
    otherwise the bytes that happen to follow the list decide. -/

namespace WireFormat

/-- Under the range `r`, `d` takes `v` from `b` and leaves what follows. -/
def Decoder.Reads {α : Type} (d : Decoder α) (r : CountRange) (b : Bytes) (v : α) : Prop :=
  ∀ t, d r (b ++ t) = .ok (v, t)

namespace Decoder

variable {α β : Type} {r : CountRange}

theorem reads_pure (v : α) : Reads (pure v) r [] v := fun _ => rfl

theorem Reads.bind {d : Decoder α} {next : α → Decoder β} {b b' : Bytes} {v : α} {w : β} (h : Reads d r b v)
    (h' : Reads (next v) r b' w) : Reads (d >>= next) r (b ++ b') w := fun t => by
  rw [bind_apply, List.append_assoc, h (b' ++ t)]
  exact h' t

theorem Reads.map {d : Decoder α} {b : Bytes} {v : α} (f : α → β) (h : Reads d r b v) :
    Reads (f <$> d) r b (f v) := fun t => by
  rw [map_apply, h t]

/-! ### Single values -/

theorem reads_take (b : Bytes) : Reads (take b.length) r b b := fun t => by
  rw [take, if_pos (by rw [List.length_append]; omega), List.take_left, List.drop_left]

theorem reads_word {n : Nat} (order : ByteOrder) (v : Word n) : Reads (word n order) r (Packed.encode order v) v :=
  fun t => by
    rw [word, Packed.decode_encode_append]
    simp only [List.drop_left' (Packed.length_encode order v)]

theorem reads_boolean (v : Bool) : Reads boolean r [booleanByte v] v := by
  cases v
  · exact (reads_word .little (0 : Word 1)).map (· == 1)
  · exact (reads_word .little (1 : Word 1)).map (· == 1)

theorem reads_varint {bits : Nat} (v : BitVec bits) : Reads (varint bits) r (Varint.canonical v.toNat) v :=
  fun t => by
    rw [varint, Varint.decode_canonical v.isLt]
    simp only [List.drop_left' (Varint.length_canonical v.toNat), BitVec.ofNat_toNat, BitVec.setWidth_eq]

/-! ### Lists -/

theorem reads_count {n : Nat} (hlt : n < 2 ^ 64) (hr : r.contains n = true) :
    Reads count r (Varint.canonical n) n := by
  have hn : (BitVec.ofNat 64 n).toNat = n := by rw [BitVec.toNat_ofNat, Nat.mod_eq_of_lt hlt]
  have haccept : Reads (accept n) r [] n := fun t => by rw [List.nil_append, accept, if_pos hr]
  have h : Reads count r (Varint.canonical (BitVec.ofNat 64 n).toNat ++ []) n :=
    (reads_varint (BitVec.ofNat 64 n)).bind (by rw [hn]; exact haccept)
  rwa [List.append_nil, hn] at h

/-- An element that takes bytes is never held against the number of elements. -/
theorem Reads.counted {d : Decoder α} {b : Bytes} {v : α} (h : Reads d r b v) (hcap : b = [] → r.isCapped = true)
    (declared : Nat) : Reads (counted d declared) r b v := fun t => by
  have hstop : ¬(t.length = (b ++ t).length ∧ r.isCapped = false ∧ t.length < declared) := by
    rintro ⟨hlen, hopen, -⟩
    rw [List.length_append] at hlen
    rw [hcap (List.length_eq_zero_iff.mp (by omega))] at hopen
    cases hopen
  rw [Decoder.counted, h t]
  simp only [if_neg hstop]

section Lists
variable {d : Decoder α} {frame : α → Bytes}

theorem reads_each {vs : List α} (h : ∀ v ∈ vs, Reads d r (frame v) v) :
    Reads (each d vs.length) r (vs.flatMap frame) vs := by
  induction vs with
  | nil => exact reads_pure []
  | cons v vs ih =>
    rw [List.length_cons, List.flatMap_cons, each]
    refine (h v List.mem_cons_self).bind ?_
    exact (ih fun u hu => h u (List.mem_cons_of_mem v hu)).map (v :: ·)

theorem reads_list {vs : List α} (hlt : vs.length < 2 ^ 64) (hr : r.contains vs.length = true)
    (h : ∀ v ∈ vs, Reads d r (frame v) v) (hcap : ∀ v ∈ vs, frame v = [] → r.isCapped = true) :
    Reads (list d) r (framed frame vs) vs :=
  (reads_count hlt hr).bind (reads_each fun v hv => (h v hv).counted (hcap v hv) vs.length)

theorem reads_varints {bits : Nat} {vs : List (BitVec bits)} (hlt : vs.length < 2 ^ 64)
    (hr : r.contains vs.length = true) :
    Reads (varints bits) r (framed (fun v => Varint.canonical v.toNat) vs) vs :=
  (reads_count hlt hr).bind (reads_each fun v _ => reads_varint v)

end Lists

end Decoder

open Decoder

/-! ### Values -/

section Values
variable {r : CountRange}

theorem Blob.reads_bytes {n : Nat} (p : Blob n) : Reads (Blob.decode n) r p.bytes p := fun t => by
  obtain ⟨b, rfl⟩ := p
  rw [Blob.decode, reads_take b t]
  simp only [Blob.ofBytes, dif_pos]
  rfl

/-- The range contains the lengths of all lists in a value, and has an upper end if some element of one
    takes no bytes. -/
structure Schema.Fits (r : CountRange) (s : Schema) (v : s.Value) : Prop where
  countable : ∀ n ∈ s.counts v, n < 2 ^ 64
  accepted : ∀ n ∈ s.counts v, r.contains n = true
  capped : s.Hollow v → r.isCapped = true

theorem Schema.Fits.element {s : Schema} {vs : List s.Value} (h : Fits r (list s) vs) {v : s.Value} (hv : v ∈ vs) :
    Fits r s v where
  countable n hn := h.countable n (List.mem_cons_of_mem _ (List.mem_flatMap.mpr ⟨v, hv, hn⟩))
  accepted n hn := h.accepted n (List.mem_cons_of_mem _ (List.mem_flatMap.mpr ⟨v, hv, hn⟩))
  capped hollow := h.capped ⟨v, hv, .inr hollow⟩

theorem Schema.Fits.reads_list {s : Schema} {vs : List s.Value} (h : Fits r (list s) vs) {d : Decoder s.Value}
    (hd : ∀ v ∈ vs, Reads d r (s.frame v) v) : Reads (Decoder.list d) r (framed s.frame vs) vs :=
  Decoder.reads_list (h.countable _ List.mem_cons_self) (h.accepted _ List.mem_cons_self) hd
    fun v hv hnil => h.capped ⟨v, hv, .inl hnil⟩

theorem Blob.reads_list {n : Nat} {ps : List (Blob n)} (hn : 0 < n) (hlt : ps.length < 2 ^ 64)
    (hr : r.contains ps.length = true) : Reads (Blob.codec n).list.decode r (framed Blob.bytes ps) ps :=
  Decoder.reads_list hlt hr (fun p _ => p.reads_bytes) fun p _ hnil => by
    have := p.length_bytes
    rw [hnil, List.length_nil] at this
    omega

theorem Transfer.reads_frame {t : Transfer} (h : Schema.transfer.Fits r t) :
    Reads Transfer.decode r t.frame t := by
  have hin : t.inputs.length ∈ Schema.transfer.counts t := List.mem_cons_self
  have hout : t.outputs.toList.length ∈ Schema.transfer.counts t := List.mem_cons_of_mem _ List.mem_cons_self
  rw [Transfer.frame]
  simp only [List.append_assoc]
  refine (reads_word .little t.version).bind ?_
  refine (reads_varint t.amount).bind ?_
  refine (reads_word .little t.fee).bind ?_
  refine (reads_boolean t.unlock).bind ?_
  refine (Blob.reads_list (by decide) (h.countable _ hin) (h.accepted _ hin)).bind ?_
  exact ((Blob.reads_list (by decide) (h.countable _ hout) (h.accepted _ hout)).map Sequence.mk).map
    fun outputs => { t with outputs }

/-- The codec of a schema reads a value back from its frame. -/
theorem Schema.reads_frame (s : Schema) {v : s.Value} (h : s.Fits r v) : Reads s.codec.decode r (s.frame v) v := by
  induction s with
  | blob n => exact Blob.reads_bytes v
  | transfer => exact Transfer.reads_frame h
  | list s ih => exact h.reads_list fun u hu => ih (h.element hu)
  | sequence s ih =>
    have hlist : (Schema.list s).Fits r (Sequence.toList v) := ⟨h.countable, h.accepted, h.capped⟩
    exact (hlist.reads_list fun u hu => ih (hlist.element hu)).map Sequence.mk

/-- Lists of lists come back as well. Their reading does not ask whether an inner list took any bytes. -/
theorem Schema.Fits.reads_nested {s : Schema} {vss : List (List s.Value)} (h : Fits r (list (list s)) vss) :
    Reads (Decoder.nested s.codec.decode) r (framed (framed s.frame) vss) vss := by
  have hcount := reads_count (h.countable _ List.mem_cons_self) (h.accepted _ List.mem_cons_self)
  refine hcount.bind (reads_each fun vs hvs => ?_)
  exact (h.element hvs).reads_list fun v hv => s.reads_frame ((h.element hvs).element hv)

end Values

end WireFormat
