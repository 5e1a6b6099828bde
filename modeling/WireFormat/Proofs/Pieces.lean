import WireFormat.Text

/-! Splitting and joining. A text is cut into pieces that do not hold the delimiter, one more than the delimiter
    occurs in it, and joined they give the text back. So a list of texts comes back from its joined form just if it
    could be the pieces of a text: it is not empty, and none of its texts holds the delimiter. -/

namespace WireFormat.Text

variable {delimiter : Char}

/-! ### Pieces -/

theorem pieces_cons_self (text : List Char) : pieces delimiter (delimiter :: text) = [] :: pieces delimiter text :=
  if_pos rfl

theorem pieces_ne_nil (text : List Char) : pieces delimiter text ≠ [] := by
  cases text with
  | nil => simp [pieces]
  | cons c text =>
    rw [pieces]
    split
    · simp
    · split <;> simp

/-- A character other than the delimiter goes to the front of the first piece. -/
theorem pieces_cons_of_ne {c : Char} (h : c ≠ delimiter) (text : List Char) :
    ∃ piece rest, pieces delimiter text = piece :: rest ∧ pieces delimiter (c :: text) = (c :: piece) :: rest := by
  obtain ⟨piece, rest, htext⟩ := List.exists_cons_of_ne_nil (pieces_ne_nil text)
  exact ⟨piece, rest, htext, by rw [pieces, if_neg h, htext]⟩

theorem pieces_eq_splitOn (text : List Char) : pieces delimiter text = text.splitOn delimiter := by
  induction text with
  | nil => rfl
  | cons c text ih =>
    rw [List.splitOn_cons_eq_if_modifyHead, ← ih]
    by_cases hc : c = delimiter
    · rw [hc, pieces_cons_self, if_pos (beq_self_eq_true delimiter)]
    · obtain ⟨piece, rest, htext, hcons⟩ := pieces_cons_of_ne hc text
      rw [hcons, htext, if_neg (by simpa using hc), List.modifyHead_cons]

theorem length_pieces (text : List Char) : (pieces delimiter text).length = text.count delimiter + 1 := by
  induction text with
  | nil => rfl
  | cons c text ih =>
    by_cases hc : c = delimiter
    · rw [hc, pieces_cons_self, List.length_cons, ih, List.count_cons_self]
    · obtain ⟨piece, rest, htext, hcons⟩ := pieces_cons_of_ne hc text
      rw [hcons, List.count_cons_of_ne hc, ← ih, htext, List.length_cons, List.length_cons]

theorem not_mem_of_mem_pieces {text piece : List Char} (h : piece ∈ pieces delimiter text) : delimiter ∉ piece := by
  induction text generalizing piece with
  | nil =>
    obtain rfl := List.mem_singleton.mp h
    exact List.not_mem_nil
  | cons c text ih =>
    by_cases hc : c = delimiter
    · rw [hc, pieces_cons_self] at h
      rcases List.mem_cons.mp h with rfl | h
      · exact List.not_mem_nil
      · exact ih h
    · obtain ⟨first, rest, htext, hcons⟩ := pieces_cons_of_ne hc text
      rw [hcons] at h
      rw [htext] at ih
      rcases List.mem_cons.mp h with rfl | h
      · exact List.not_mem_cons_of_ne_of_not_mem (Ne.symm hc) (ih List.mem_cons_self)
      · exact ih (List.mem_cons_of_mem _ h)

/-! ### Texts -/

theorem split_ne_nil (text : String) : split text delimiter ≠ [] := by
  simp [split, pieces_ne_nil]

theorem length_split (text : String) : (split text delimiter).length = text.toList.count delimiter + 1 := by
  rw [split, List.length_map, length_pieces]

theorem not_mem_of_mem_split {text piece : String} (h : piece ∈ split text delimiter) : delimiter ∉ piece.toList := by
  obtain ⟨chars, hchars, rfl⟩ := List.mem_map.mp h
  rw [String.toList_ofList]
  exact not_mem_of_mem_pieces hchars

theorem map_toList_split (text : String) :
    (split text delimiter).map String.toList = text.toList.splitOn delimiter := by
  simp [split, pieces_eq_splitOn, Function.comp_def]

theorem join_split (text : String) : join (split text delimiter) delimiter = text := by
  rw [join, map_toList_split, List.intercalate_splitOn, String.ofList_toList]

theorem split_join {parts : List String} (hne : parts ≠ []) (h : ∀ part ∈ parts, delimiter ∉ part.toList) :
    split (join parts delimiter) delimiter = parts := by
  have hparts : ∀ part ∈ parts.map String.toList, delimiter ∉ part := by simpa using h
  have hback := List.splitOn_intercalate delimiter hparts (by simpa using hne)
  rw [split, join, String.toList_ofList, pieces_eq_splitOn, hback, List.map_map]
  exact List.map_id'' (fun _ => String.ofList_toList) parts

/-- The pieces of a text do not hold the delimiter, are one more than the delimiter occurs in the text, and give
    the text when they are joined. A list of texts is what its joined form is split into if and only if there is a
    text in it and none holds the delimiter. -/
theorem split_join_inverse (delimiter : Char) :
    (∀ text : String, join (split text delimiter) delimiter = text ∧
      (∀ piece ∈ split text delimiter, delimiter ∉ piece.toList) ∧
      (split text delimiter).length = text.toList.count delimiter + 1) ∧
    (∀ parts : List String, split (join parts delimiter) delimiter = parts ↔
      parts ≠ [] ∧ ∀ part ∈ parts, delimiter ∉ part.toList) := by
  refine ⟨fun text => ⟨join_split text, fun _ => not_mem_of_mem_split, length_split text⟩,
    fun parts => ⟨fun h => ?_, ?_⟩⟩
  · -- What comes back is the pieces of a text.
    rw [← h]
    exact ⟨split_ne_nil _, fun _ => not_mem_of_mem_split⟩
  · rintro ⟨hne, hfree⟩
    exact split_join hne hfree

/-- A delimiter of two bytes at both ends and next to itself; no texts, a text with the delimiter in it, and an
    empty text, which alone comes back. -/
theorem split_join_inverse_accented :
    split "éaéé" 'é' = ["", "a", "", ""] ∧ join ["", "a", "", ""] 'é' = "éaéé" ∧
      "a" ∈ split "éaéé" 'é' ∧ 'é' ∉ "a".toList ∧ (split "éaéé" 'é').length = 3 + 1 ∧
      split (join [] 'é') 'é' ≠ [] ∧ split (join ["aéb"] 'é') 'é' ≠ ["aéb"] ∧
      split (join [""] 'é') 'é' = [""] := by
  have hsplit : split "éaéé" 'é' = ["", "a", "", ""] := by decide
  obtain ⟨texts, lists⟩ := split_join_inverse 'é'
  obtain ⟨hjoin, hfree, hlength⟩ := texts "éaéé"
  have hmem : "a" ∈ split "éaéé" 'é' := by simp [hsplit]
  refine ⟨hsplit, hsplit ▸ hjoin, hmem, hfree "a" hmem, hlength, fun h => ?_, fun h => ?_, ?_⟩
  · exact ((lists []).mp h).1 rfl
  · exact ((lists ["aéb"]).mp h).2 "aéb" List.mem_cons_self (by decide)
  · exact (lists [""]).mpr ⟨by simp, by simp⟩

end WireFormat.Text
