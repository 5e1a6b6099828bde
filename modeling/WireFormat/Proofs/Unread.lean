import WireFormat.Proofs.Cursor

/-! Reading depends on the unread bytes alone. Two cursors with the same bytes before them and the same range
    of counts give the same outcomes in every session that does not move to a position by its number, and have
    the same bytes before them after every step. So forgetting the bytes behind a cursor does not show, but in
    the numbers of positions, which become smaller by the number of bytes forgotten. -/

namespace WireFormat.Cursor

/-- Whether a step leaves positions out of account. -/
def Step.isRelative : Step → Bool
  | reset _ => false
  | _ => true

/-- The cursors have the same unread bytes and accept the same counts. -/
structure Alike (c c' : Cursor) : Prop where
  inBounds : c.InBounds
  inBounds' : c'.InBounds
  accepted : c.accepted = c'.accepted
  unread : c.unread = c'.unread

section
variable {c c' : Cursor}

/-! ### What is unread after a move -/

theorem length_unread (c : Cursor) : c.unread.length = c.data.length - c.position := List.length_drop

theorem unread_moveTo_suffix {rest : Bytes} (h : rest <:+ c.unread) :
    (c.moveTo (c.data.length - rest.length)).unread = rest :=
  (List.suffix_iff_eq_drop.mp (h.trans (List.drop_suffix _ _))).symm

theorem unread_moveTo_add (c : Cursor) (n : Nat) : (c.moveTo (c.position + n)).unread = c.unread.drop n := by
  rw [unread_moveTo, unread, List.drop_drop]

/-! ### Skipping and resetting -/

/-- To skip is to read bytes and to drop them. -/
theorem skip_eq_read (c : Cursor) (n : Nat) :
    c.skip n = ((c.read (.bytes n) false).1.map fun _ => (), (c.read (.bytes n) false).2) := by
  rw [skip, reset, read, Field.read, Reading.take]
  by_cases hn : c.position + n ≤ c.data.length
  · rw [if_pos hn, if_pos hn]
    rfl
  · rw [if_neg hn, if_neg hn]
    rfl

/-! ### Forgetting -/

@[simp] theorem compact_data (c : Cursor) : c.compact.data = c.unread := rfl

theorem size_sub_size_compact (h : c.InBounds) : c.size - c.compact.size = c.position := by
  rw [InBounds] at h
  rw [size, size, compact_data, length_unread]
  omega

theorem reset_compact (h : c.InBounds) (p : Nat) :
    (c.compact.reset p).1 = (c.reset (p + c.position)).1 ∧
      (c.compact.reset p).2.unread = (c.reset (p + c.position)).2.unread := by
  have hiff : p ≤ c.compact.data.length ↔ p + c.position ≤ c.data.length := by
    rw [InBounds] at h
    rw [compact_data, length_unread]
    omega
  rw [reset, reset]
  by_cases hp : p + c.position ≤ c.data.length
  · rw [if_pos hp, if_pos (hiff.mpr hp), Nat.add_comm p, unread_moveTo_add]
    exact ⟨rfl, rfl⟩
  · rw [if_neg hp, if_neg (mt hiff.mp hp)]
    exact ⟨rfl, rfl⟩

/-! ### Steps and sessions -/

namespace Alike

theorem compact_right (h : c.InBounds) : Alike c c.compact := ⟨h, Nat.zero_le _, rfl, rfl⟩

theorem compact (h : Alike c c') : Alike c.compact c'.compact :=
  ⟨Nat.zero_le _, Nat.zero_le _, h.accepted, h.unread⟩

theorem accepting (h : Alike c c') (r : CountRange) : Alike (c.accepting r) (c'.accepting r) :=
  ⟨h.inBounds, h.inBounds', rfl, h.unread⟩

theorem moveTo (h : Alike c c') {rest : Bytes} (hrest : rest <:+ c.unread) :
    Alike (c.moveTo (c.data.length - rest.length)) (c'.moveTo (c'.data.length - rest.length)) where
  inBounds := Nat.sub_le _ _
  inBounds' := Nat.sub_le _ _
  accepted := h.accepted
  unread := by rw [unread_moveTo_suffix hrest, unread_moveTo_suffix (h.unread ▸ hrest)]

theorem read (h : Alike c c') (f : Field) (peek : Bool) :
    (c.read f peek).1 = (c'.read f peek).1 ∧ Alike (c.read f peek).2 (c'.read f peek).2 := by
  rw [read_eq f peek h.inBounds, read_eq f peek h.inBounds', Decoder.through, Decoder.through, ← h.accepted,
    ← h.unread]
  rcases hd : f.decode c.accepted c.unread with e | ⟨v, rest⟩
  · exact ⟨rfl, h⟩
  · cases peek with
    | true => exact ⟨rfl, h⟩
    | false => exact ⟨rfl, h.moveTo (f.decode_suffix hd)⟩

theorem skip (h : Alike c c') (n : Nat) :
    (c.skip n).1 = (c'.skip n).1 ∧ Alike (c.skip n).2 (c'.skip n).2 := by
  obtain ⟨houtcome, hafter⟩ := h.read (.bytes n) false
  rw [skip_eq_read, skip_eq_read, houtcome]
  exact ⟨rfl, hafter⟩

theorem step (h : Alike c c') {s : Step} (hs : s.isRelative = true) :
    (c.step s).1 = (c'.step s).1 ∧ Alike (c.step s).2 (c'.step s).2 := by
  cases s with
  | read f peek => exact h.read f peek
  | skip n => exact h.skip n
  | reset position => cases hs
  | compact => exact ⟨rfl, h.compact⟩
  | accept r => exact ⟨rfl, h.accepting r⟩

theorem run (h : Alike c c') {steps : List Step} (hs : ∀ s ∈ steps, s.isRelative = true) :
    (c.run steps).1 = (c'.run steps).1 ∧ Alike (c.run steps).2 (c'.run steps).2 := by
  induction steps generalizing c c' with
  | nil => exact ⟨rfl, h⟩
  | cons s steps ih =>
    obtain ⟨hfirst, hlater⟩ := List.forall_mem_cons.mp hs
    obtain ⟨houtcome, hafter⟩ := h.step hfirst
    obtain ⟨houtcomes, hlast⟩ := ih hafter hlater
    rw [run_cons, run_cons, houtcome, houtcomes]
    exact ⟨rfl, hlast⟩

end Alike

/-- Cursors with the same unread bytes and range of counts cannot be told apart by reading, skipping,
    forgetting and changes of the range, a cursor and its compact form among them; skipping is reading
    bytes; and the positions of the compact form are those of the cursor less the bytes it forgot. -/
theorem unread_determines (h : Alike c c') :
    (∀ steps : List Step, (∀ s ∈ steps, s.isRelative = true) →
      (c.run steps).1 = (c'.run steps).1 ∧
        ∀ n, (c.run (steps.take n)).2.unread = (c'.run (steps.take n)).2.unread) ∧
    Alike c c.compact ∧
    (∀ n, c.skip n = ((c.read (.bytes n) false).1.map fun _ => (), (c.read (.bytes n) false).2)) ∧
    (∀ p, (c.compact.reset p).1 = (c.reset (p + (c.size - c.compact.size))).1 ∧
      (c.compact.reset p).2.unread = (c.reset (p + (c.size - c.compact.size))).2.unread) := by
  refine ⟨fun steps hs => ⟨(h.run hs).1, fun n => ?_⟩, .compact_right h.inBounds, skip_eq_read c, fun p => ?_⟩
  · exact (h.run fun s hmem => hs s (List.mem_of_mem_take hmem)).2.unread
  · rw [size_sub_size_compact h.inBounds]
    exact reset_compact h.inBounds p

/-- A list of two blobs of no bytes, of which it matters that one byte follows its count, behind two bytes and
    behind none. -/
theorem unread_determines_compacted :
    let c := (ofBytes [5, 5, 2, 0xAA]).moveTo 2
    let steps : List Step := [.read (.values (.blob 0)) false, .compact, .skip (2 ^ 64 - 1),
      .accept (.atMost 2), .read (.values (.blob 0)) false, .read (.varint 16) true]
    Alike c (ofBytes [2, 0xAA]) ∧ (∀ s ∈ steps, s.isRelative = true) ∧
      (c.run steps).1 = ((ofBytes [2, 0xAA]).run steps).1 ∧ (c.run steps).2.unread = [0xAA] ∧
      (c.compact.reset 1).2.unread = (c.reset 3).2.unread := by
  intro c steps
  have h : Alike c (ofBytes [2, 0xAA]) := ⟨by decide, by decide, rfl, rfl⟩
  have hs : ∀ s ∈ steps, s.isRelative = true := by simp [steps, Step.isRelative]
  obtain ⟨hrun, -, -, hreset⟩ := unread_determines h
  exact ⟨h, hs, (hrun steps hs).1, ((hrun steps hs).2 steps.length).trans (by decide), (hreset 1).2⟩

end

end WireFormat.Cursor
