import WireFormat.Message
import WireFormat.Proofs.Framing
import WireFormat.Proofs.Packed

/-! The size of a value is the number of its bytes. Sizes and bytes come from two recursions over the value;
    they agree, and every value whose lists have countable lengths is written. Its bytes follow the framing
    grammar, in which a list is its count and the bytes of its elements. -/

namespace WireFormat

/-! ### Sizes -/

theorem length_framed {α : Type} {frame : α → Bytes} {size : α → Nat} {vs : List α}
    (h : ∀ v ∈ vs, (frame v).length = size v) :
    (framed frame vs).length = Varint.size vs.length + (vs.map size).foldr (· + ·) 0 := by
  rw [framed, List.length_append, Varint.length_canonical, List.length_flatMap, List.map_congr_left h]
  rfl

theorem Transfer.length_frame (t : Transfer) : t.frame.length = t.size := by
  have hin : (framed Blob.bytes t.inputs).length = inputsCodec.size t.inputs :=
    length_framed fun p _ => p.length_bytes
  have hout : (framed Blob.bytes t.outputs.toList).length = outputsCodec.size t.outputs :=
    length_framed fun p _ => p.length_bytes
  rw [frame, size]
  simp only [List.length_append, List.length_singleton, Packed.length_encode, Varint.length_canonical, hin, hout]

theorem Schema.length_frame (s : Schema) (v : s.Value) : (s.frame v).length = s.codec.size v := by
  induction s with
  | blob n => exact Blob.length_bytes v
  | transfer => exact Transfer.length_frame v
  | list s ih => exact length_framed fun u _ => ih u
  | sequence s ih => exact length_framed fun u _ => ih u

/-! ### The grammar -/

/-- A list after the grammar: its count, and the bytes of its elements in order. -/
def Codec.framing {α : Type} (c : Codec α) (vs : List α) : Except Error Bytes := do
  let count ← Varint.encode 64 vs.length
  let parts ← vs.mapM c.toBytes
  return count ++ parts.flatten

/-- A value after the grammar. -/
def Schema.framing : (s : Schema) → s.Value → Except Error Bytes
  | blob _, p => .ok (Blob.bytes p)
  | transfer, t => do
    let amount ← Varint.encode 64 (Transfer.amount t).toNat
    let inputs ← (Blob.codec 32).framing (Transfer.inputs t)
    let outputs ← (Blob.codec 4).framing (Transfer.outputs t).toList
    return Packed.encode .little (Transfer.version t) ++ amount ++ Packed.encode .little (Transfer.fee t) ++
      [booleanByte (Transfer.unlock t)] ++ inputs ++ outputs
  | list s, vs => s.codec.framing vs
  | sequence s, vs => s.codec.framing (Sequence.toList vs)

theorem mapM_eq_ok {α β : Type} {f : α → Except Error β} {g : α → β} {vs : List α}
    (h : ∀ v ∈ vs, f v = .ok (g v)) : vs.mapM f = .ok (vs.map g) := by
  induction vs with
  | nil => rfl
  | cons v vs ih =>
    obtain ⟨hv, hvs⟩ := List.forall_mem_cons.mp h
    rw [List.mapM_cons, hv, ih hvs]
    rfl

theorem Codec.framing_eq {α : Type} {c : Codec α} {frame : α → Bytes} {vs : List α} (hlen : vs.length < 2 ^ 64)
    (h : ∀ v ∈ vs, c.toBytes v = .ok (frame v)) : c.framing vs = .ok (framed frame vs) := by
  rw [framing, Varint.encode_of_lt hlen, mapM_eq_ok h]
  rfl

theorem Blob.toBytes_eq {n : Nat} (p : Blob n) : (codec n).toBytes p = .ok p.bytes := rfl

namespace Schema

/-- What is written to nothing is the whole of the bytes. -/
theorem toBytes_eq {s : Schema} {v : s.Value} (h : ∀ n ∈ s.counts v, n < 2 ^ 64) :
    s.codec.toBytes v = .ok (s.frame v) := by
  rw [Codec.toBytes, s.writes_frame v h []]
  rfl

theorem framing_eq {s : Schema} {v : s.Value} (h : ∀ n ∈ s.counts v, n < 2 ^ 64) :
    s.framing v = .ok (s.frame v) := by
  have element : ∀ (s : Schema) {vs : List s.Value}, (∀ n ∈ (list s).counts vs, n < 2 ^ 64) →
      s.codec.framing vs = .ok (framed s.frame vs) := fun s vs h =>
    Codec.framing_eq (h _ List.mem_cons_self) fun u hu =>
      toBytes_eq fun n hn => h n (List.mem_cons_of_mem _ (List.mem_flatMap.mpr ⟨u, hu, hn⟩))
  cases s with
  | blob n => rfl
  | transfer =>
    have hin := Codec.framing_eq (h _ List.mem_cons_self) fun p _ => Blob.toBytes_eq (n := 32) p
    have hout := Codec.framing_eq (h _ (List.mem_cons_of_mem _ List.mem_cons_self))
      fun p _ => Blob.toBytes_eq (n := 4) p
    rw [framing, Varint.encode_of_lt (Transfer.amount v).isLt]
    rw [hin, hout]
    rfl
  | list s => exact element s h
  | sequence s => exact element s h

/-- A value with countable lists has bytes, as many as its size says. They are the same to whatever message
    they are written, and those of the grammar. -/
theorem toBytes_exact {s : Schema} {v : s.Value} (h : ∀ n ∈ s.counts v, n < 2 ^ 64) :
    ∃ b, s.codec.toBytes v = .ok b ∧ b.length = s.codec.size v ∧
      (∀ m : Message, m.append (.value s v) = (.ok (), ⟨m.data ++ b⟩)) ∧ s.framing v = .ok b := by
  refine ⟨s.frame v, toBytes_eq h, s.length_frame v, fun m => ?_, framing_eq h⟩
  rw [Message.append, Entry.encode, s.writes_frame v h m.data]

/-- 128 blobs of no bytes need a count of two bytes. -/
theorem toBytes_exact_hollow :
    let s := Schema.list (.list (.blob 0))
    let v : s.Value := [List.replicate 128 Blob.zero, []]
    (∀ n ∈ s.counts v, n < 2 ^ 64) ∧ s.codec.toBytes v = .ok [2, 0x80, 0x01, 0] ∧ s.codec.size v = 4 ∧
      (Message.mk [7]).append (.value s v) = (.ok (), ⟨[7, 2, 0x80, 0x01, 0]⟩) ∧
      s.framing v = .ok [2, 0x80, 0x01, 0] := by
  intro s v
  have h : ∀ n ∈ s.counts v, n < 2 ^ 64 := by decide +kernel
  have hbytes : s.codec.toBytes v = .ok [2, 0x80, 0x01, 0] := by decide +kernel
  obtain ⟨b, hb, hlen, happend, hframing⟩ := toBytes_exact h
  obtain rfl : b = [2, 0x80, 0x01, 0] := Except.ok.inj (hb.symm.trans hbytes)
  exact ⟨h, hbytes, hlen.symm, happend ⟨[7]⟩, hframing⟩

end Schema

end WireFormat
