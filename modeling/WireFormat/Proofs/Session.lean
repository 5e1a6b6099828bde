import WireFormat.Proofs.Cursor
import WireFormat.Proofs.Hex
import WireFormat.Proofs.RoundTrip

/-! Sessions: a message is written entry by entry and read field by field, in the same order. Every read
    finds what was written and takes just the bytes written for it, however many peeks stand in between. -/

namespace WireFormat

/-! ### Entries -/

namespace Entry

/-- The bytes an entry adds to a message. -/
def frame : Entry → Bytes
  | boolean v => [booleanByte v]
  | word _ order v => Packed.encode order v
  | bytes b => b
  | copy source length => (source.getD []).take length
  | hex text => (Hex.decode text).toOption.getD []
  | varint _ v => Varint.canonical v.toNat
  | varints _ vs => framed (fun v => Varint.canonical v.toNat) vs
  | value s v => s.frame v
  | values s vs => (Schema.list s).frame vs
  | valueLists s vss => (Schema.list (Schema.list s)).frame vss

/-- The lengths of all lists in an entry. -/
def counts : Entry → List Nat
  | varints _ vs => [vs.length]
  | value s v => s.counts v
  | values s vs => (Schema.list s).counts vs
  | valueLists s vss => (Schema.list (Schema.list s)).counts vss
  | _ => []

/-- Some list in an entry has an element that takes no bytes. -/
def Hollow : Entry → Prop
  | value s v => s.Hollow v
  | values s vs => (Schema.list s).Hollow vs
  | valueLists s vss => (Schema.list (Schema.list s)).Hollow vss
  | _ => False

/-- Lengths are countable, hexadecimal text spells bytes, and nothing is asked of an absent source. -/
structure Writable (e : Entry) : Prop where
  countable : ∀ n ∈ e.counts, n < 2 ^ 64
  spelled : ∀ text, e = hex text → Hex.Valid text
  present : ∀ length, e = copy none length → length = 0

/-- An entry that can be written, and read under the range `r`: it contains the lengths of all lists, and
    has an upper end if some element of one takes no bytes. -/
structure Fits (r : CountRange) (e : Entry) : Prop extends Writable e where
  accepted : ∀ n ∈ e.counts, r.contains n = true
  capped : e.Hollow → r.isCapped = true

section Frames
variable {e : Entry} {r : CountRange}

theorem writes_frame (h : e.Writable) : Encoder.Writes e.encode e.frame := by
  cases e with
  | boolean v => exact Encoder.writes_bytes _
  | word n order v => exact Encoder.writes_word order v
  | bytes b => exact Encoder.writes_bytes b
  | copy source length =>
    cases source with
    | some b => exact Encoder.writes_bytes _
    | none =>
      obtain rfl := h.present length rfl
      exact Encoder.writes_nothing
  | hex text =>
    obtain ⟨b, hb, -⟩ := (h.spelled text rfl).decode
    rw [encode, Encoder.hex, Bytes.ofHex, frame, hb]
    exact Encoder.writes_bytes b
  | varint bits v => exact Encoder.writes_varint v.isLt
  | varints bits vs =>
    exact Encoder.writes_list (h.countable _ List.mem_cons_self) fun v _ => Encoder.writes_varint v.isLt
  | value s v => exact s.writes_frame v h.countable
  | values s vs => exact (Schema.list s).writes_frame vs h.countable
  | valueLists s vss => exact (Schema.list (Schema.list s)).writes_frame vss h.countable

theorem reads_frame (h : e.Fits r) : e.field.decode.Reads r e.frame e.readBack := by
  cases e with
  | boolean v => exact Decoder.reads_boolean v
  | word n order v => exact Decoder.reads_word order v
  | bytes b => exact Decoder.reads_take b
  | copy source length => exact Decoder.reads_take _
  | hex text =>
    obtain ⟨b, hb, hlen, hlow⟩ := (h.spelled text rfl).decode
    have hread := (Decoder.reads_take (r := r) b).map Hex.encode
    rw [hlen, hlow] at hread
    rw [frame, hb]
    exact hread
  | varint bits v => exact Decoder.reads_varint v
  | varints bits vs =>
    exact Decoder.reads_varints (h.countable _ List.mem_cons_self) (h.accepted _ List.mem_cons_self)
  | value s v => exact s.reads_frame ⟨h.countable, h.accepted, h.capped⟩
  | values s vs => exact (Schema.list s).reads_frame ⟨h.countable, h.accepted, h.capped⟩
  | valueLists s vss => exact Schema.Fits.reads_nested ⟨h.countable, h.accepted, h.capped⟩

end Frames

end Entry

/-! ### Messages -/

namespace Message

theorem append_eq {e : Entry} (h : e.Writable) (m : Message) : m.append e = (.ok (), ⟨m.data ++ e.frame⟩) := by
  rw [append, e.writes_frame h m.data]

theorem appendAll_eq {es : List Entry} (h : ∀ e ∈ es, e.Writable) (m : Message) :
    m.appendAll es = (es.map fun _ => .ok (), ⟨m.data ++ es.flatMap Entry.frame⟩) := by
  induction es generalizing m with
  | nil => rw [appendAll, List.map_nil, List.flatMap_nil, List.append_nil]
  | cons e es ih =>
    obtain ⟨he, hes⟩ := List.forall_mem_cons.mp h
    rw [appendAll, append_eq he]
    simp only [ih hes, List.map_cons, List.flatMap_cons, List.append_assoc]

end Message

/-! ### Reading back -/

/-- A read that leaves the cursor where it is. -/
def Cursor.Step.isPeek : Cursor.Step → Bool
  | read _ peek => peek
  | _ => false

theorem Cursor.Step.eq_read_of_isPeek {s : Cursor.Step} (h : s.isPeek = true) : ∃ f, s = .read f true := by
  cases s with
  | read f peek => exact ⟨f, by rw [isPeek] at h; rw [h]⟩
  | _ => cases h

namespace Entry

/-- The step that reads an entry back. -/
@[reducible] def reading (e : Entry) : Cursor.Step := .read e.field false

/-- That step with what it gives. -/
def recovered (e : Entry) : Σ s : Cursor.Step, Except Error s.Result := ⟨e.reading, .ok e.readBack⟩

end Entry

namespace Cursor

variable {c : Cursor} {e : Entry} {es : List Entry} {b t : Bytes}

theorem length_of_unread (hc : c.InBounds) (h : c.unread = b ++ t) :
    c.data.length = c.position + b.length + t.length := by
  have hunread := congrArg List.length h
  rw [unread, List.length_drop, List.length_append] at hunread
  rw [InBounds] at hc
  omega

theorem unread_past (h : c.unread = b ++ t) : (c.moveTo (c.position + b.length)).unread = t := by
  rw [unread_moveTo, ← List.drop_drop, ← unread, h, List.drop_left]

theorem step_reading (hc : c.InBounds) (h : c.unread = e.frame ++ t) (fits : e.Fits c.accepted) :
    c.step e.reading = (.ok e.readBack, c.moveTo (c.position + e.frame.length)) := by
  have hlen := length_of_unread hc h
  rw [show c.step e.reading = c.read e.field false from rfl, read_eq e.field false hc, Decoder.through, h,
    e.reads_frame fits t]
  simp [hlen]

/-- The reads among the steps find one entry after the other, and the cursor ends behind the last. -/
theorem run_frames {steps : List Step} (hc : c.InBounds) (h : c.unread = es.flatMap Entry.frame ++ t)
    (fits : ∀ e ∈ es, e.Fits c.accepted) (reads : steps.filter (!·.isPeek) = es.map Entry.reading) :
    (c.run steps).1.filter (!·.1.isPeek) = es.map Entry.recovered ∧
      (c.run steps).2 = c.moveTo (c.position + (es.flatMap Entry.frame).length) := by
  induction steps generalizing c es with
  | nil =>
    obtain rfl : es = [] := List.map_eq_nil_iff.mp reads.symm
    exact ⟨rfl, rfl⟩
  | cons s steps ih =>
    cases hs : s.isPeek with
    | true =>
      obtain ⟨f, rfl⟩ := Step.eq_read_of_isPeek hs
      rw [List.filter_cons_of_neg (by simp [hs])] at reads
      have hstep : c.step (.read f true) = ((c.step (.read f false)).1, c) := read_peek f hc
      rw [run_cons, hstep, List.filter_cons_of_neg (by simp [hs])]
      exact ih hc h fits reads
    | false =>
      rw [List.filter_cons_of_pos (by simp [hs])] at reads
      cases es with
      | nil => cases reads
      | cons e es =>
        obtain ⟨rfl, later⟩ := List.cons.inj reads
        obtain ⟨he, hes⟩ := List.forall_mem_cons.mp fits
        rw [List.flatMap_cons, List.append_assoc] at h
        have hbounds : (c.moveTo (c.position + e.frame.length)).InBounds := by
          rw [InBounds, moveTo_position, moveTo_data, length_of_unread hc h]
          exact Nat.le_add_right _ _
        obtain ⟨houtcomes, hlast⟩ := ih hbounds (unread_past h) hes later
        rw [run_cons, step_reading hc h he, List.filter_cons_of_pos (by simp [hs]), houtcomes, hlast]
        refine ⟨rfl, ?_⟩
        rw [moveTo_moveTo, moveTo_position, List.flatMap_cons, List.length_append, Nat.add_assoc]

/-- The first steps are a session of their own, with the first entries. -/
theorem reads_take {steps : List Step} (reads : steps.filter (!·.isPeek) = es.map Entry.reading) (n : Nat) :
    (steps.take n).filter (!·.isPeek) = (es.take ((steps.take n).countP (!·.isPeek))).map Entry.reading := by
  rw [List.map_take, ← reads, List.countP_eq_length_filter]
  exact List.prefix_iff_eq_take.mp ((List.take_prefix n steps).filter _)

end Cursor

open Cursor

/-- A message written on nothing reads back in full. Every entry is accepted, and the message is the same
    when it is carried over in hexadecimal digits. The reads find the values of the entries in their order,
    each moves the cursor to where the writing of its entry ended, peeks change neither, and no byte is
    left. -/
theorem session_round_trip {es : List Entry} {r : CountRange} {steps : List Step}
    (fits : ∀ e ∈ es, e.Fits r) (reads : steps.filter (!·.isPeek) = es.map Entry.reading) :
    let m := (Message.empty.appendAll es).2
    let c := (ofMessage m).accepting r
    (Message.empty.appendAll es).1 = es.map (fun _ => .ok ()) ∧
    ofHex m.toHex = .ok (ofMessage m) ∧
    (c.run steps).1.filter (!·.1.isPeek) = es.map Entry.recovered ∧
    (∀ n, (c.run (steps.take n)).2 =
      c.moveTo (Message.empty.appendAll (es.take ((steps.take n).countP (!·.isPeek)))).2.size) ∧
    (c.run steps).2.isExhausted = true := by
  intro m c
  have writable : ∀ e ∈ es, e.Writable := fun e he => (fits e he).toWritable
  have hm : m = ⟨es.flatMap Entry.frame⟩ := congrArg Prod.snd (Message.appendAll_eq writable Message.empty)
  have hunread : c.unread = es.flatMap Entry.frame := congrArg Message.data hm
  have hc : c.InBounds := Nat.zero_le _
  obtain ⟨houtcomes, hlast⟩ := run_frames (t := []) hc (by rw [hunread, List.append_nil]) fits reads
  refine ⟨congrArg Prod.fst (Message.appendAll_eq writable Message.empty), ?_, houtcomes, fun n => ?_, ?_⟩
  · rw [ofHex, Message.toHex, Bytes.ofHex, Hex.decode_encode]
    rfl
  · have hreads := reads_take reads n
    generalize (steps.take n).countP (!·.isPeek) = k at hreads ⊢
    have hsplit : c.unread = (es.take k).flatMap Entry.frame ++ (es.drop k).flatMap Entry.frame := by
      rw [hunread, ← List.flatMap_append, List.take_append_drop]
    have hfits : ∀ e ∈ es.take k, e.Fits r := fun e he => fits e (List.mem_of_mem_take he)
    rw [(run_frames hc hsplit hfits hreads).2, Message.appendAll_eq fun e he => (hfits e he).toWritable]
    simp [Message.size, Message.empty, c, accepting, ofMessage, ofBytes]
  · rw [hlast, isExhausted, unread_past (t := []) (by rw [hunread, List.append_nil])]
    rfl

/-- Hexadecimal text, a varint, two blobs without bytes under an upper end, and a nested list, with a peek that
    succeeds and one that fails in between. -/
theorem session_round_trip_mixed :
    let es : List Entry := [.hex "0aF0", .varint 16 300, .values (.blob 0) [Blob.zero, Blob.zero],
      .value (.list (.sequence (.blob 1))) [⟨[⟨[9], rfl⟩]⟩, ⟨[]⟩]]
    let steps : List Step := [.read (.hex 2) false, .read (.word 1 .big) true, .read (.varint 16) false,
      .read (.value .transfer) true, .read (.values (.blob 0)) false,
      .read (.value (.list (.sequence (.blob 1)))) false]
    let c := (ofBytes [0x0A, 0xF0, 0xAC, 0x02, 2, 2, 1, 9, 0]).accepting (.atMost 2)
    (∀ e ∈ es, e.Fits (.atMost 2)) ∧ steps.filter (!·.isPeek) = es.map Entry.reading ∧
      (c.run steps).1.filter (!·.1.isPeek) = es.map Entry.recovered ∧
      (c.run (steps.take 4)).2 = c.moveTo 4 ∧ (c.run steps).2.isExhausted = true := by
  intro es steps c
  have hreads : steps.filter (!·.isPeek) = es.map Entry.reading := rfl
  have hc : c = (ofMessage (Message.empty.appendAll es).2).accepting (.atMost 2) := by
    decide
  have fits : ∀ e ∈ es, e.Fits (.atMost 2) := by
    have hhex : Hex.Valid "0aF0" := by decide
    simp only [es, List.forall_mem_cons]
    refine ⟨⟨⟨by decide, fun text h => ?_, by simp⟩, by decide, fun _ => rfl⟩,
      ⟨⟨by decide, by simp, by simp⟩, by decide, fun _ => rfl⟩,
      ⟨⟨by decide, by simp, by simp⟩, by decide, fun _ => rfl⟩,
      ⟨⟨by decide, by simp, by simp⟩, by decide, fun _ => rfl⟩, by simp⟩
    obtain rfl := Entry.hex.inj h
    exact hhex
  obtain ⟨-, -, houtcomes, hpositions, hlast⟩ := session_round_trip fits hreads
  rw [← hc] at houtcomes hpositions hlast
  refine ⟨fits, hreads, houtcomes, ?_, hlast⟩
  rw [hpositions 4]
  exact congrArg c.moveTo (by decide)

end WireFormat
