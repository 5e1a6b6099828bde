import WireFormat.Cursor
import WireFormat.Proofs.Reading

/-! What every session with a cursor keeps. The cursor stays within its bytes, the bytes stay an end of
    those it was made with, a step that fails or peeks changes nothing, and a read only ever moves the
    cursor forward. -/

namespace WireFormat.Cursor

/-! ### Steps -/

/-- The cursor is in bounds, and its bytes are the end of `origin`. -/
structure Within (origin : Bytes) (c : Cursor) : Prop where
  inBounds : c.InBounds
  suffix : c.data <:+ origin

section Step
variable {c : Cursor} {origin : Bytes}

theorem read_eq (f : Field) (peek : Bool) (hc : c.InBounds) : c.read f peek = f.decode.through peek c :=
  f.read_eq_through peek hc

theorem read_eq_error_iff {f : Field} {peek : Bool} {e : Error} (hc : c.InBounds) :
    (c.read f peek).1 = .error e ↔ f.decode c.accepted c.unread = .error e := by
  rw [read_eq f peek hc]
  exact Decoder.through_eq_error_iff

theorem decode_unread (bits : Nat) (hc : c.InBounds) :
    Varint.decode bits c.unread 0 = Varint.decode bits c.data c.position := Varint.decode_drop hc

theorem read_of_decode_error {f : Field} {peek : Bool} {e : Error} (hc : c.InBounds)
    (h : f.decode c.accepted c.unread = .error e) : c.read f peek = (.error e, c) := by
  rw [read_eq f peek hc, Decoder.through, h]

theorem read_of_decode_ok {f : Field} {peek : Bool} {v : f.Result} {n : Nat} (hc : c.InBounds)
    (hn : n ≤ c.unread.length) (h : f.decode c.accepted c.unread = .ok (v, c.unread.drop n)) :
    c.read f peek = (.ok v, if peek then c else c.moveTo (c.position + n)) := by
  have hstop : c.data.length - (c.unread.drop n).length = c.position + n := by
    rw [InBounds] at hc
    rw [unread, List.length_drop] at hn
    rw [unread, List.length_drop, List.length_drop]
    omega
  rw [read_eq f peek hc, Decoder.through, h]
  simp only [hstop]

theorem read_peek (f : Field) (hc : c.InBounds) : c.read f true = ((c.read f false).1, c) :=
  f.settled_read.peek hc

theorem read_moves (f : Field) (hc : c.InBounds) :
    ∃ p, c.position ≤ p ∧ p ≤ c.data.length ∧ (c.read f false).2 = c.moveTo p := by
  obtain ⟨result, p, hr, hle, hp, -⟩ := f.settled_read.tracks c hc
  exact ⟨p, hle, hp, congrArg Prod.snd hr⟩

theorem read_error {f : Field} {peek : Bool} {e : Error} (hc : c.InBounds) (h : (c.read f peek).1 = .error e) :
    (c.read f peek).2 = c := by
  cases peek
  · exact f.settled_read.kept hc h
  · rw [read_peek f hc]

theorem reset_error {position : Nat} {e : Error} (h : (c.reset position).1 = .error e) :
    (c.reset position).2 = c := by
  rw [reset] at h ⊢
  split at h
  · cases h
  · rename_i hp
    rw [if_neg hp]

theorem step_error {s : Step} {e : Error} (hc : c.InBounds) (h : (c.step s).1 = .error e) :
    (c.step s).2 = c := by
  cases s with
  | read f peek => exact read_error hc h
  | skip n => exact reset_error h
  | reset position => exact reset_error h
  | compact => cases h
  | accept r => cases h

/-! ### Sessions -/

theorem run_cons (s : Step) (steps : List Step) : c.run (s :: steps) =
    (⟨s, (c.step s).1⟩ :: ((c.step s).2.run steps).1, ((c.step s).2.run steps).2) := rfl

namespace Within

theorem moveTo (h : Within origin c) {p : Nat} (hp : p ≤ c.data.length) : Within origin (c.moveTo p) :=
  ⟨hp, h.suffix⟩

theorem reset (h : Within origin c) (position : Nat) : Within origin (c.reset position).2 := by
  rw [Cursor.reset]
  split
  · rename_i hp
    exact h.moveTo hp
  · exact h

theorem read (h : Within origin c) (f : Field) (peek : Bool) : Within origin (c.read f peek).2 := by
  cases peek
  · obtain ⟨p, -, hp, hr⟩ := read_moves f h.inBounds
    rw [hr]
    exact h.moveTo hp
  · rw [read_peek f h.inBounds]
    exact h

theorem step (h : Within origin c) (s : Step) : Within origin (c.step s).2 := by
  cases s with
  | read f peek => exact h.read f peek
  | skip n => exact h.reset _
  | reset position => exact h.reset position
  | compact => exact ⟨Nat.zero_le _, (List.drop_suffix _ _).trans h.suffix⟩
  | accept r => exact ⟨h.inBounds, h.suffix⟩

theorem run (h : Within origin c) (steps : List Step) : Within origin (c.run steps).2 := by
  induction steps generalizing c with
  | nil => exact h
  | cons s steps ih => exact ih (h.step s)

end Within

end Step

/-! ### Making a cursor -/

/-- The cursors that no step has been taken with. -/
inductive Fresh : Cursor → Prop where
  | ofBytes (b : Bytes) : Fresh (ofBytes b)
  | ofMessage (m : Message) : Fresh (ofMessage m)
  | ofHex {text : String} {c : Cursor} (h : ofHex text = .ok c) : Fresh c
  | default : Fresh default
  | accepting {c : Cursor} (h : Fresh c) (r : CountRange) : Fresh (c.accepting r)

theorem Fresh.position_eq {c : Cursor} (h : Fresh c) : c.position = 0 := by
  induction h with
  | ofBytes b => rfl
  | ofMessage m => rfl
  | @ofHex text c h =>
    rw [Cursor.ofHex] at h
    rcases hb : Bytes.ofHex text with e | b
    · rw [hb] at h
      cases h
    · rw [hb] at h
      obtain rfl := Except.ok.inj h
      rfl
  | default => rfl
  | accepting h r ih => exact ih

theorem Fresh.within {c : Cursor} (h : Fresh c) : Within c.data c :=
  ⟨by rw [InBounds, h.position_eq]; exact Nat.zero_le _, List.suffix_refl _⟩

/-- Wherever a session stands, its cursor is in bounds over an end of the first bytes; what fails from there
    leaves the cursor as it is, a peek gives what the read gives and leaves it as well, and a read that
    succeeds moves it forward only. -/
theorem run_invariant {origin : Cursor} (fresh : Fresh origin) (steps : List Step) :
    let c := (origin.run steps).2
    (c.position ≤ c.data.length ∧ c.data <:+ origin.data) ∧
    (∀ s e, (c.step s).1 = .error e → (c.step s).2 = c) ∧
    (∀ f, c.step (.read f true) = ((c.step (.read f false)).1, c)) ∧
    (∀ f v, (c.step (.read f false)).1 = .ok v →
      ∃ p, c.position ≤ p ∧ p ≤ c.data.length ∧ (c.step (.read f false)).2 = c.moveTo p) := by
  intro c
  have h : Within origin.data c := fresh.within.run steps
  exact ⟨⟨h.inBounds, h.suffix⟩, fun _ _ he => step_error h.inBounds he, fun f => read_peek f h.inBounds,
    fun f _ _ => read_moves f h.inBounds⟩

/-- A list of two blobs that breaks off in the second leaves the cursor before its count. -/
theorem run_invariant_truncated :
    Fresh (ofBytes [7, 2, 1, 1, 1]) ∧
      let c := ((ofBytes [7, 2, 1, 1, 1]).run [.skip 1, .compact]).2
      (c.step (.read (.values (.blob 2)) false)).1 = .error .endOfBuffer ∧
        (c.step (.read (.values (.blob 2)) false)).2 = c := by
  refine ⟨.ofBytes _, rfl, ?_⟩
  exact (run_invariant (.ofBytes [7, 2, 1, 1, 1]) [.skip 1, .compact]).2.1
    (.read (.values (.blob 2)) false) .endOfBuffer rfl

end WireFormat.Cursor
