import WireFormat.Proofs.Hex

/-! Formatted hexadecimal text. Layout may stand anywhere in it, inside the mark as well, and nothing depends on it.
    What is read is the spelling of some bytes with layout put in, and a text without layout and mark is read as it
    stands. -/

namespace WireFormat.Hex

/-! ### Layout -/

/-- `text` is `core` with layout put in, at any places and as much as may be. -/
inductive LaidOut : (core text : List Char) → Prop where
  | nil : LaidOut [] []
  | keep (c : Char) {core text : List Char} (h : LaidOut core text) : LaidOut (c :: core) (c :: text)
  | layout {c : Char} (hc : isLayout c = true) {core text : List Char} (h : LaidOut core text) :
    LaidOut core (c :: text)

/-- What is left of a text without its layout. -/
def bare (text : List Char) : List Char := text.filter fun c => !isLayout c

section
variable {core text : List Char}

theorem bare_eq_self (h : ∀ c ∈ text, isLayout c = false) : bare text = text :=
  List.filter_eq_self.mpr fun c hc => by rw [h c hc]; rfl

theorem LaidOut.bare_eq (h : LaidOut core text) : bare text = bare core := by
  induction h with
  | nil => rfl
  | keep c _ ih => rw [bare, bare, List.filter_cons, List.filter_cons, ← bare, ← bare, ih]
  | layout hc _ ih => rw [bare, List.filter_cons_of_neg (by simp [hc]), ← bare, ih]

theorem laidOut_bare (text : List Char) : LaidOut (bare text) text := by
  induction text with
  | nil => exact .nil
  | cons c text ih =>
    rcases hc : isLayout c with _ | _
    · rw [bare, List.filter_cons_of_pos (by simp [hc])]
      exact .keep c ih
    · rw [bare, List.filter_cons_of_neg (by simp [hc])]
      exact .layout hc ih

theorem not_isLayout_of_isDigit {c : Char} (h : IsDigit c) : isLayout c = false :=
  of_ascii (P := fun c => IsDigit c → isLayout c = false) (by decide +kernel) h.toNat_lt h

end

/-! ### Spellings -/

/-- `core` is the digits of `b`, each in either case, with the mark in front of them or without. -/
def IsSpelling (b : Bytes) (core : List Char) : Prop :=
  ∃ text, text.map Char.toLower = (encode b).toList ∧ (core = text ∨ core = '0' :: 'x' :: text)

section
variable {b : Bytes} {core text : List Char}

theorem dropMark_cases (text : List Char) :
    text = '0' :: 'x' :: dropMark text ∨ ¬['0', 'x'] <+: text ∧ dropMark text = text := by
  unfold dropMark
  split
  · exact .inl rfl
  · rename_i hmark
    refine .inr ⟨?_, rfl⟩
    rintro ⟨rest, rfl⟩
    exact hmark rest rfl

theorem dropMark_eq_self (h : ¬['0', 'x'] <+: text) : dropMark text = text := by
  rcases dropMark_cases text with hmark | ⟨-, hself⟩
  · exact absurd ⟨dropMark text, hmark.symm⟩ h
  · exact hself

theorem isDigit_of_map_toLower (h : text.map Char.toLower = (encode b).toList) {c : Char} (hc : c ∈ text) :
    IsDigit c := by
  rw [← isDigit_toLower_iff]
  apply isDigit_of_mem_encode (b := b)
  rw [← h]
  exact List.mem_map_of_mem hc

theorem decode_ofList_eq_ok_iff : decode (String.ofList text) = .ok b ↔ text.map Char.toLower = (encode b).toList := by
  rw [decode_eq_ok_iff, ← String.toList_inj, String.toList_map, String.toList_ofList, eq_comm]

/-- The mark is no digits, so digits alone are never taken for the mark and what follows it. -/
theorem dropMark_of_isDigit (h : ∀ c ∈ text, IsDigit c) : dropMark text = text := by
  refine dropMark_eq_self fun ⟨rest, hrest⟩ => ?_
  have hx : IsDigit 'x' := h 'x' (by simp [← hrest])
  exact absurd hx (by decide)

theorem isSpelling_iff : IsSpelling b core ↔ decode (String.ofList (dropMark core)) = .ok b := by
  rw [decode_ofList_eq_ok_iff]
  constructor
  · rintro ⟨text, hlower, rfl | rfl⟩
    · rwa [dropMark_of_isDigit fun c => isDigit_of_map_toLower hlower]
    · exact hlower
  · intro h
    rcases dropMark_cases core with hmark | ⟨-, hself⟩
    · exact ⟨dropMark core, h, .inr hmark⟩
    · exact ⟨dropMark core, h, .inl hself.symm⟩

theorem IsSpelling.bare_eq (h : IsSpelling b core) : bare core = core := by
  obtain ⟨text, hlower, hcore⟩ := h
  have htext : ∀ c ∈ text, isLayout c = false := fun c hc => not_isLayout_of_isDigit (isDigit_of_map_toLower hlower hc)
  refine bare_eq_self ?_
  rcases hcore with rfl | rfl
  · exact htext
  · exact List.forall_mem_cons.mpr ⟨by decide, List.forall_mem_cons.mpr ⟨by decide, htext⟩⟩

end

/-! ### Formatted text -/

theorem decodeFormatted_eq (text : String) :
    decodeFormatted text = decode (String.ofList (dropMark (bare text.toList))) := rfl

/-- Formatted text is read if it is a spelling of some bytes with layout put in, and these are the bytes read.
    Whatever is read or refused, layout has no part in it. A text without layout is read as it stands, and without its
    mark if it has one. -/
theorem decodeFormatted_layout :
    (∀ (text : String) (b : Bytes),
      decodeFormatted text = .ok b ↔ ∃ core, IsSpelling b core ∧ LaidOut core text.toList) ∧
    (∀ (core : List Char) (s t : String), LaidOut core s.toList → LaidOut core t.toList →
      decodeFormatted s = decodeFormatted t) ∧
    (∀ text : String, (∀ c ∈ text.toList, isLayout c = false) →
      (¬['0', 'x'] <+: text.toList → decodeFormatted text = decode text) ∧
      decodeFormatted ("0x" ++ text) = decode text) := by
  refine ⟨fun text b => ⟨fun h => ⟨_, isSpelling_iff.mpr h, laidOut_bare text.toList⟩, ?_⟩, fun core s t hs ht => ?_,
    fun text htext => ⟨fun hmark => ?_, ?_⟩⟩
  · rintro ⟨core, hcore, htext⟩
    rw [decodeFormatted_eq, htext.bare_eq, hcore.bare_eq, isSpelling_iff.mp hcore]
  · rw [decodeFormatted_eq, decodeFormatted_eq, hs.bare_eq, ht.bare_eq]
  · rw [decodeFormatted_eq, bare_eq_self htext, dropMark_eq_self hmark, String.ofList_toList]
  · have hmarked : bare ("0x" ++ text).toList = '0' :: 'x' :: text.toList := by
      rw [String.toList_append]
      exact bare_eq_self (List.forall_mem_cons.mpr ⟨by decide, List.forall_mem_cons.mpr ⟨by decide, htext⟩⟩)
    rw [decodeFormatted_eq, hmarked, dropMark, String.ofList_toList]

/-- One byte with layout inside its mark and between its digits, a mark in uppercase, and a second mark. -/
theorem decodeFormatted_layout_split_mark :
    let core := ['0', 'x', 'a', 'B']
    IsSpelling [0xAB] core ∧ LaidOut core "0 x\ta\r\nB".toList ∧ decodeFormatted "0 x\ta\r\nB" = .ok [0xAB] ∧
      LaidOut core "0xaB ".toList ∧ decodeFormatted "0xaB " = decodeFormatted "0 x\ta\r\nB" ∧
      (∀ c ∈ "0XaB".toList, isLayout c = false) ∧ ¬['0', 'x'] <+: "0XaB".toList ∧
      decodeFormatted "0XaB" = .error (.invalidCharacter 'X' 1) ∧
      (∀ c ∈ "0x".toList, isLayout c = false) ∧ decodeFormatted "0x0x" = .error (.invalidCharacter 'x' 1) := by
  intro core
  obtain ⟨reads, alike, plain⟩ := decodeFormatted_layout
  have hcore : IsSpelling [0xAB] core := ⟨['a', 'B'], by decide, .inr rfl⟩
  have hsplit : LaidOut core "0 x\ta\r\nB".toList :=
    (by decide : bare "0 x\ta\r\nB".toList = core) ▸ laidOut_bare _
  have hjoined : LaidOut core "0xaB ".toList := (by decide : bare "0xaB ".toList = core) ▸ laidOut_bare _
  have hupper : ∀ c ∈ "0XaB".toList, isLayout c = false := by simp [isLayout]
  have hmark : ¬['0', 'x'] <+: "0XaB".toList := by decide
  have hsecond : ∀ c ∈ "0x".toList, isLayout c = false := by simp [isLayout]
  exact ⟨hcore, hsplit, (reads _ _).mpr ⟨core, hcore, hsplit⟩, hjoined, alike core _ _ hjoined hsplit, hupper, hmark,
    ((plain _ hupper).1 hmark).trans (by decide), hsecond, (plain _ hsecond).2.trans (by decide)⟩

end WireFormat.Hex
