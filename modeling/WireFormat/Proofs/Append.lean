import WireFormat.Proofs.Session

/-! Appending. What becomes of an entry depends on the entry alone: it adds the same bytes to every message, or is
    refused with the same failure by every message and then adds nothing. So a run of appends adds the bytes of the
    entries that are not refused, in order. Only hexadecimal text and copies are ever refused; a list is not, since
    none of the parts that it writes before its last can fail. -/

namespace WireFormat

namespace Entry

/-- The bytes that an entry adds to any message, or the failure that refuses it. -/
def outcome : Entry → Except Error Bytes
  | hex text => Bytes.ofHex text
  | copy none (_ + 1) => .error (.invalidArgument .source)
  | e => .ok e.frame

variable {e : Entry}

theorem encode_eq_ofResult (h : ∀ n ∈ e.counts, n < 2 ^ 64) : e.encode = Encoder.ofResult e.outcome := by
  cases e with
  | hex text => rfl
  | copy source length =>
    rcases source with _ | b
    · rcases length with _ | length
      · funext data
        exact congrArg (Prod.mk _) (List.append_nil data).symm
      · rfl
    · rfl
  | _ => exact funext (writes_frame ⟨h, by simp, by simp⟩)

/-- Only hexadecimal text that spells no bytes and bytes of an absent source are refused. -/
theorem outcome_eq_error_iff {err : Error} :
    e.outcome = .error err ↔
      (∃ text fault, e = .hex text ∧ Hex.decode text = .error fault ∧ err = .hex fault) ∨
      (∃ length, e = .copy none length ∧ length ≠ 0 ∧ err = .invalidArgument .source) := by
  cases e with
  | hex text =>
    rw [outcome, Bytes.ofHex]
    rcases hdecode : Hex.decode text with fault | b
    · simp [Except.mapError, hdecode, eq_comm]
    · simp [Except.mapError, hdecode]
  | copy source length =>
    rcases source with _ | b
    · rcases length with _ | length <;> simp [outcome, eq_comm]
    · simp [outcome]
  | _ => simp [outcome]

end Entry

namespace Message

variable {e : Entry} {es : List Entry}

theorem append_of_ok (h : ∀ n ∈ e.counts, n < 2 ^ 64) {b : Bytes} (hb : e.outcome = .ok b) (m : Message) :
    m.append e = (.ok (), ⟨m.data ++ b⟩) := by
  rw [append, Entry.encode_eq_ofResult h, hb]
  rfl

theorem append_of_error (h : ∀ n ∈ e.counts, n < 2 ^ 64) {err : Error} (herr : e.outcome = .error err)
    (m : Message) : m.append e = (.error err, m) := by
  rw [append, Entry.encode_eq_ofResult h, herr]
  rfl

/-- A run adds the bytes of the entries that are not refused, and a refusal does not touch the others. -/
theorem appendAll_outcomes (h : ∀ e ∈ es, ∀ n ∈ e.counts, n < 2 ^ 64) (m : Message) :
    m.appendAll es = (es.map fun e => e.outcome.map fun _ => (),
      ⟨m.data ++ (es.filterMap fun e => e.outcome.toOption).flatten⟩) := by
  induction es generalizing m with
  | nil => simp [appendAll]
  | cons e es ih =>
    obtain ⟨he, hes⟩ := List.forall_mem_cons.mp h
    rcases houtcome : e.outcome with err | b
    · rw [appendAll, append_of_error he houtcome]
      simp [ih hes, houtcome, Except.map, Except.toOption]
    · rw [appendAll, append_of_ok he houtcome]
      simp [ih hes, houtcome, Except.map, Except.toOption]

/-- Appending an entry with countable lists has one outcome for all messages, and a run of appends adds the bytes of
    the entries that are not refused. A packed integer adds its packed form in either order of bytes. Refused are
    texts with an odd number of bytes or another character than a digit, and copies of some bytes of no source. -/
theorem append_uniform :
    (∀ e : Entry, (∀ n ∈ e.counts, n < 2 ^ 64) → ∀ m : Message,
      (∀ b, e.outcome = .ok b → m.append e = (.ok (), ⟨m.data ++ b⟩)) ∧
      (∀ err, e.outcome = .error err → m.append e = (.error err, m))) ∧
    (∀ es : List Entry, (∀ e ∈ es, ∀ n ∈ e.counts, n < 2 ^ 64) → ∀ m : Message,
      m.appendAll es = (es.map fun e => e.outcome.map fun _ => (),
        ⟨m.data ++ (es.filterMap fun e => e.outcome.toOption).flatten⟩)) ∧
    (∀ n order (v : Word n) (m : Message),
      m.append (.word n order v) = (.ok (), ⟨m.data ++ Packed.encode order v⟩)) ∧
    (∀ e : Entry, (∀ n ∈ e.counts, n < 2 ^ 64) → ∀ (m : Message) err, (m.append e).1 = .error err ↔
      (∃ text fault, e = .hex text ∧ Hex.decode text = .error fault ∧ err = .hex fault) ∨
      (∃ length, e = .copy none length ∧ length ≠ 0 ∧ err = .invalidArgument .source)) ∧
    (∀ text, (∃ fault, Hex.decode text = .error fault) ↔
      text.utf8ByteSize % 2 = 1 ∨ ∃ c ∈ text.toList, ¬Hex.IsDigit c) := by
  refine ⟨fun e h m => ⟨fun b hb => append_of_ok h hb m, fun err herr => append_of_error h herr m⟩,
    fun es h m => appendAll_outcomes h m, fun n order v m => ?_, fun e h m err => ?_, fun text => Hex.refused_iff⟩
  · exact append_of_ok (e := .word n order v) (by simp [Entry.counts]) rfl m
  · rw [← Entry.outcome_eq_error_iff]
    rcases houtcome : e.outcome with err' | b
    · rw [append_of_error h houtcome]
      simp
    · rw [append_of_ok h houtcome]
      simp

/-- A word, a list of lists and three refusals in between, written behind a first byte. -/
theorem append_uniform_mixed :
    let es : List Entry := [.word 2 .big 0x0102, .hex "0g", .copy none 3,
      .values (.list (.blob 1)) [[⟨[9], rfl⟩], []], .hex "0aF"]
    (∀ e ∈ es, ∀ n ∈ e.counts, n < 2 ^ 64) ∧
      (Message.mk [7]).appendAll es =
        ([.ok (), .error (.hex (.invalidCharacter 'g' 1)), .error (.invalidArgument .source), .ok (),
          .error (.hex (.oddLength 3))], ⟨[7, 1, 2, 2, 1, 9, 0]⟩) := by
  intro es
  have h : ∀ e ∈ es, ∀ n ∈ e.counts, n < 2 ^ 64 := by decide
  exact ⟨h, (append_uniform.2.1 es h ⟨[7]⟩).trans (by decide)⟩

end Message

end WireFormat
