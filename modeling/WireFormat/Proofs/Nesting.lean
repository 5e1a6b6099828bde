import WireFormat.Proofs.Consumption
import WireFormat.Proofs.Cursor

/-! Lists of lists have one form in bytes. They may be written and read as lists of lists, as a list of
    values that are lists, as one value, or as sequences of sequences: the bytes are the same, and so is what
    is made of any bytes, whether they are well formed or not. Readers of lists watch for elements that take
    no bytes and readers of lists of lists do not, but an inner list takes the byte of its count. -/

namespace WireFormat

def Sequence.ofLists {α : Type} (vss : List (List α)) : Sequence (Sequence α) := ⟨vss.map Sequence.mk⟩

/-! ### Writing -/

theorem Encoder.each_map {α β : Type} (f : α → β) (element : β → Encoder) (vs : List α) :
    each element (vs.map f) = each (fun v => element (f v)) vs := by
  induction vs with
  | nil => rfl
  | cons v vs ih => rw [List.map_cons, each, each, ih]

theorem Encoder.list_ofLists {α : Type} (element : α → Encoder) (vss : List (List α)) :
    list (fun s : Sequence α => list element s.toList) (Sequence.ofLists vss).toList = nested element vss := by
  rw [Sequence.ofLists, list, each_map, List.length_map]
  rfl

/-! ### Reading -/

namespace Decoder

variable {α β : Type} {d : Decoder α}

theorem counted_map (f : α → β) (declared : Nat) : counted (f <$> d) declared = f <$> counted d declared := by
  funext r b
  rw [counted, map_apply, map_apply, counted]
  rcases d r b with e | ⟨v, rest⟩
  · rfl
  · by_cases hstop : rest.length = b.length ∧ r.isCapped = false ∧ rest.length < declared
    · simp only [if_pos hstop]
    · simp only [if_neg hstop]

theorem each_map (f : α → β) (n : Nat) : each (f <$> d) n = List.map f <$> each d n := by
  induction n with
  | zero => rfl
  | succ n ih =>
    funext r b
    rw [each, each, ih]
    simp only [bind_apply, map_apply]
    rcases d r b with e | ⟨v, mid⟩
    · rfl
    · simp only
      rcases each d n r mid with e | ⟨vs, rest⟩ <;> rfl

theorem list_map (f : α → β) : list (f <$> d) = List.map f <$> list d := by
  funext r b
  rw [map_apply, list, list, bind_apply, bind_apply]
  rcases count r b with e | ⟨n, mid⟩
  · rfl
  · simp only [counted_map, each_map, map_apply]

/-- Nothing is held against elements that take bytes. -/
theorem counted_eq_self (h : Takes 1 d) (declared : Nat) : counted d declared = d := by
  funext r b
  rw [counted]
  rcases hd : d r b with e | ⟨v, rest⟩
  · rfl
  · have hlt := h hd
    have hgo : ¬(rest.length = b.length ∧ r.isCapped = false ∧ rest.length < declared) := by
      rintro ⟨heq, -⟩
      omega
    simp only [if_neg hgo]

theorem varints_eq_list (bits : Nat) : varints bits = list (varint bits) := by
  rw [varints, list]
  simp only [counted_eq_self (takes_varint bits)]

theorem nested_eq_list (h : Takes 0 d) : nested d = list (list d) := by
  rw [nested, list.eq_1 (list d)]
  simp only [counted_eq_self h.list]

end Decoder

open Decoder

namespace Schema

variable (s : Schema)

theorem decode_valueLists : (Field.valueLists s).decode = (Field.values (list s)).decode :=
  nested_eq_list s.shrinks_decode

theorem decode_sequences : (Field.value (sequence (sequence s))).decode =
    Sequence.ofLists <$> (Field.valueLists s).decode := by
  rw [decode_valueLists]
  change Sequence.mk <$> Decoder.list (Sequence.mk <$> Decoder.list s.codec.decode) = _
  rw [list_map, Functor.map_map]
  rfl

end Schema

/-- However a list of lists is written, the same bytes are added to a message, and however it is read, the
    same lists or the same failure come out and the cursor stands at the same place. -/
theorem nested_framing (s : Schema) :
    (∀ (m : Message) (vss : List (List s.Value)),
      m.append (.values (.list s) vss) = m.append (.valueLists s vss) ∧
      m.append (.value (.list (.list s)) vss) = m.append (.valueLists s vss) ∧
      m.append (.value (.sequence (.sequence s)) (.ofLists vss)) = m.append (.valueLists s vss)) ∧
    (∀ c : Cursor, c.InBounds → ∀ peek,
      c.read (.values (.list s)) peek = c.read (.valueLists s) peek ∧
      c.read (.value (.list (.list s))) peek = c.read (.valueLists s) peek ∧
      c.read (.value (.sequence (.sequence s))) peek =
        ((c.read (.valueLists s) peek).1.map .ofLists, (c.read (.valueLists s) peek).2)) := by
  constructor
  · intro m vss
    refine ⟨rfl, rfl, ?_⟩
    have h := congrFun (Encoder.list_ofLists s.codec.encode vss) m.data
    rw [Message.append, Message.append]
    exact congrArg (fun written : Except Error Unit × Bytes => (written.1, Message.mk written.2)) h
  · intro c hc peek
    have hvalues : c.read (.values (.list s)) peek = c.read (.valueLists s) peek := by
      rw [Cursor.read_eq _ peek hc, Cursor.read_eq _ peek hc, s.decode_valueLists]
    refine ⟨hvalues, ?_, ?_⟩
    · rw [← hvalues, Cursor.read_eq _ peek hc, Cursor.read_eq _ peek hc]
      rfl
    · rw [Cursor.read_eq _ peek hc, Cursor.read_eq _ peek hc, s.decode_sequences, through_map]

/-- Blobs of no bytes in lists of which the second is longer than what follows it: all readers break off there,
    and the cursor stays before the outer count. -/
theorem nested_framing_hollow :
    let c := (Cursor.ofBytes [9, 2, 1, 2]).moveTo 1
    c.InBounds ∧ c.read (.valueLists (.blob 0)) false = (.error (.invalidLength 2), c) ∧
      c.read (.values (.list (.blob 0))) false = (.error (.invalidLength 2), c) ∧
      c.read (.value (.sequence (.sequence (.blob 0)))) false = (.error (.invalidLength 2), c) := by
  intro c
  have hc : c.InBounds := by decide
  have hread : c.read (.valueLists (.blob 0)) false = (.error (.invalidLength 2), c) := by decide
  obtain ⟨hvalues, -, hsequences⟩ := (nested_framing (.blob 0)).2 c hc false
  refine ⟨hc, hread, hvalues.trans hread, ?_⟩
  rw [hsequences, hread]
  rfl

end WireFormat
