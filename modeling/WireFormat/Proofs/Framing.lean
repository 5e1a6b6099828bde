import WireFormat.Entry
import WireFormat.Proofs.Varint.Canonical

/-! The bytes that stand for values: a list is the canonical varint of its length in front of the bytes of
    its elements, at every level of nesting. Encoders write just these bytes at the end of what is there. -/

namespace WireFormat

/-! ### Frames -/

/-- The count of some values and the bytes of each, in order. -/
def framed {α : Type} (frame : α → Bytes) (vs : List α) : Bytes :=
  Varint.canonical vs.length ++ vs.flatMap frame

/-- The byte of a truth value. -/
def booleanByte (v : Bool) : UInt8 := if v then 1 else 0

/-- The bytes of the fields in order. -/
def Transfer.frame (t : Transfer) : Bytes :=
  Packed.encode .little t.version ++ Varint.canonical t.amount.toNat ++ Packed.encode .little t.fee ++
    [booleanByte t.unlock] ++ framed Blob.bytes t.inputs ++ framed Blob.bytes t.outputs.toList

namespace Schema

/-- The bytes of a value. -/
def frame : (s : Schema) → s.Value → Bytes
  | blob _, p => Blob.bytes p
  | transfer, t => Transfer.frame t
  | list s, vs => framed s.frame vs
  | sequence s, vs => framed s.frame (Sequence.toList vs)

/-- The lengths of all lists in a value, in the order of their counts. -/
def counts : (s : Schema) → s.Value → List Nat
  | blob _, _ => []
  | transfer, t => [(Transfer.inputs t).length, (Transfer.outputs t).length]
  | list s, vs => vs.length :: vs.flatMap s.counts
  | sequence s, vs => (Sequence.toList vs).length :: (Sequence.toList vs).flatMap s.counts

/-- Some list in a value has an element that takes no bytes. -/
def Hollow : (s : Schema) → s.Value → Prop
  | blob _, _ => False
  | transfer, _ => False
  | list s, vs => ∃ v ∈ vs, s.frame v = [] ∨ s.Hollow v
  | sequence s, vs => ∃ v ∈ Sequence.toList vs, s.frame v = [] ∨ s.Hollow v

end Schema

/-! ### Writing -/

namespace Encoder

/-- `e` succeeds and adds `b` to whatever is there. -/
def Writes (e : Encoder) (b : Bytes) : Prop := ∀ data, e data = (.ok (), data ++ b)

theorem writes_nothing : Writes nothing [] := fun data => by rw [nothing, List.append_nil]

theorem writes_bytes (b : Bytes) : Writes (bytes b) b := fun _ => rfl

theorem Writes.andThen {e e' : Encoder} {b b' : Bytes} (h : Writes e b) (h' : Writes e' b') :
    Writes (e.andThen e') (b ++ b') := fun data => by
  rw [Encoder.andThen, h data]
  simp only [h' (data ++ b), List.append_assoc]

theorem writes_word {n : Nat} (order : ByteOrder) (v : Word n) : Writes (word order v) (Packed.encode order v) := by
  cases order
  · exact writes_bytes (Packed.digits n v.toNat)
  · exact writes_bytes (Packed.encode .big v)

theorem writes_varint {bits value : Nat} (h : value < 2 ^ bits) :
    Writes (varint bits value) (Varint.canonical value) := by
  rw [varint, Varint.encode_of_lt h]
  exact writes_bytes _

theorem writes_count {n : Nat} (h : n < 2 ^ 64) : Writes (count n) (Varint.canonical n) := by
  rw [count, if_pos (show n < UInt64.size from h)]
  exact writes_varint h

section Lists
variable {α : Type} {element : α → Encoder} {frame : α → Bytes}

theorem writes_each {vs : List α} (h : ∀ v ∈ vs, Writes (element v) (frame v)) :
    Writes (each element vs) (vs.flatMap frame) := by
  induction vs with
  | nil => exact writes_nothing
  | cons v vs ih =>
    rw [each, List.flatMap_cons]
    exact (h v List.mem_cons_self).andThen (ih fun u hu => h u (List.mem_cons_of_mem v hu))

theorem writes_list {vs : List α} (hlen : vs.length < 2 ^ 64) (h : ∀ v ∈ vs, Writes (element v) (frame v)) :
    Writes (list element vs) (framed frame vs) :=
  (writes_count hlen).andThen (writes_each h)

end Lists

end Encoder

open Encoder

theorem Transfer.writes_frame (t : Transfer) (hin : t.inputs.length < 2 ^ 64) (hout : t.outputs.length < 2 ^ 64) :
    Writes t.encode t.frame := by
  have hblob : ∀ n, ∀ p : Blob n, Writes ((Blob.codec n).encode p) p.bytes := fun _ p => writes_bytes p.bytes
  have h := (writes_word .little t.version).andThen <|
    (writes_varint t.amount.isLt).andThen <|
    (writes_word .little t.fee).andThen <|
    (writes_bytes [booleanByte t.unlock]).andThen <|
    (writes_list hin fun p _ => hblob 32 p).andThen (writes_list hout fun p _ => hblob 4 p)
  simp only [← List.append_assoc] at h
  exact h

/-- The codec of a schema writes the frame of every value whose lists have countable lengths. -/
theorem Schema.writes_frame (s : Schema) (v : s.Value) (h : ∀ n ∈ s.counts v, n < 2 ^ 64) :
    Writes (s.codec.encode v) (s.frame v) := by
  induction s with
  | blob n => exact writes_bytes _
  | transfer => exact Transfer.writes_frame v (h _ (by simp [counts])) (h _ (by simp [counts]))
  | list s ih =>
    refine writes_list (h _ List.mem_cons_self) fun u hu => ih u fun n hn => h n ?_
    exact List.mem_cons_of_mem _ (List.mem_flatMap.mpr ⟨u, hu, hn⟩)
  | sequence s ih =>
    refine writes_list (h _ List.mem_cons_self) fun u hu => ih u fun n hn => h n ?_
    exact List.mem_cons_of_mem _ (List.mem_flatMap.mpr ⟨u, hu, hn⟩)

end WireFormat
