import Mathlib.Data.List.Infix
import WireFormat.Proofs.Varint.Grammar

/-! Varints read from a stream one after the other. A read takes bytes from the stream even if it fails, so what a
    failure takes decides what all later reads find. Decoding at the front of what is left tells how much that is:
    the scan looks at no byte more than it takes, and comes to a decision only with the last of them. -/

namespace WireFormat.Varint

/-! ### The bytes looked at -/

section Scan
variable {bits room : Nat} {b : Bytes}

/-- A byte ends the scan, whatever follows it, or leaves the rest to a scan with room for one group less. -/
theorem scan_step (bits room : Nat) (c : UInt8) :
    (∃ result, result ≠ .error .endOfBuffer ∧ ∀ b, scan bits room (c :: b) = (result, 1)) ∨
    (∃ left, room = left + 1 ∧ ∀ b, scan bits room (c :: b) =
      ((scan (bits - 7) left b).1.map (c.toNat % 128 + 128 * ·), (scan (bits - 7) left b).2 + 1)) := by
  by_cases hfit : c.toNat % 128 < 2 ^ bits
  · by_cases hc : c.toNat < 128
    · exact .inl ⟨_, by simp, fun b => scan_cons_of_last b hfit hc⟩
    · rcases room with _ | left
      · exact .inl ⟨_, by simp, fun b => scan_cons_of_full b hfit hc⟩
      · exact .inr ⟨left, rfl, fun b => scan_cons_of_more b hfit hc⟩
  · exact .inl ⟨_, by simp, fun b => scan_cons_of_misfit b hfit⟩

theorem looked_le (bits room : Nat) (b : Bytes) :
    (scan bits room b).2 ≤ b.length ∧ (scan bits room b).2 ≤ room + 1 := by
  induction b generalizing bits room with
  | nil => simp [scan]
  | cons c b ih =>
    rcases scan_step bits room c with ⟨result, -, hscan⟩ | ⟨left, rfl, hscan⟩
    · simp [hscan]
    · obtain ⟨hlen, hroom⟩ := ih (bits - 7) left
      simp only [hscan, List.length_cons]
      omega

theorem looked_pos (bits room : Nat) (hb : b ≠ []) : 0 < (scan bits room b).2 := by
  obtain ⟨c, b, rfl⟩ := List.exists_cons_of_ne_nil hb
  rcases scan_step bits room c with ⟨result, -, hscan⟩ | ⟨left, rfl, hscan⟩
  · simp [hscan]
  · simp [hscan]

/-- The end of the input is found behind its last byte. -/
theorem looked_of_endOfBuffer (h : (scan bits room b).1 = .error .endOfBuffer) : (scan bits room b).2 = b.length := by
  induction b generalizing bits room with
  | nil => simp [scan]
  | cons c b ih =>
    rcases scan_step bits room c with ⟨result, hresult, hscan⟩ | ⟨left, rfl, hscan⟩
    · rw [hscan] at h
      exact absurd h hresult
    · rw [hscan] at h ⊢
      rcases hrest : scan (bits - 7) left b with ⟨e | v, looked⟩
      · have hlooked : (scan (bits - 7) left b).1 = .error .endOfBuffer → (scan (bits - 7) left b).2 = b.length := ih
        rw [hrest] at h hlooked
        rw [List.length_cons, ← hlooked h]
      · rw [hrest] at h
        cases h

/-- The bytes looked at decide alone, and all of them are needed: of fewer, the scan finds the end. -/
theorem scan_take (bits room : Nat) (b : Bytes) (i : Nat) : scan bits room (b.take i) =
    if (scan bits room b).2 ≤ i then scan bits room b else (.error .endOfBuffer, i) := by
  induction b generalizing bits room i with
  | nil => simp [scan]
  | cons c b ih =>
    rcases i with _ | i
    · have hpos := looked_pos bits room (List.cons_ne_nil c b)
      rw [if_neg (by omega), List.take_zero, scan]
    · rw [List.take_succ_cons]
      rcases scan_step bits room c with ⟨result, -, hscan⟩ | ⟨left, rfl, hscan⟩
      · simp [hscan]
      · rw [hscan, hscan, ih]
        by_cases hi : (scan (bits - 7) left b).2 ≤ i
        · rw [if_pos hi, if_pos (Nat.succ_le_succ hi)]
        · rw [if_neg hi, if_neg (by omega)]
          rfl

end Scan

/-! ### Single reads -/

section Decode
variable {bits : Nat} {b : Bytes}

theorem decode_zero (bits : Nat) (b : Bytes) : decode bits b 0 =
    (scan bits (groupsFor bits) b).1.map fun v => (v, (scan bits (groupsFor bits) b).2) := by
  rw [decode, if_pos (Nat.zero_le _), List.drop_zero]
  rcases scan bits (groupsFor bits) b with ⟨e | v, looked⟩ <;> rfl

theorem decode_zero_eq_ok_iff {v k : Nat} :
    decode bits b 0 = .ok (v, k) ↔ scan bits (groupsFor bits) b = (.ok v, k) := by
  rw [decode_zero]
  rcases scan bits (groupsFor bits) b with ⟨e | u, looked⟩ <;> simp [Except.map]

theorem decode_zero_eq_error_iff {e : Error} :
    decode bits b 0 = .error e ↔ (scan bits (groupsFor bits) b).1 = .error e := by
  rw [decode_zero]
  rcases scan bits (groupsFor bits) b with ⟨e' | u, looked⟩ <;> simp [Except.map]

theorem decode_take_eq_invalidVarint_iff {i : Nat} : decode bits (b.take i) 0 = .error .invalidVarint ↔
    decode bits b 0 = .error .invalidVarint ∧ (scan bits (groupsFor bits) b).2 ≤ i := by
  rw [decode_zero_eq_error_iff, decode_zero_eq_error_iff, scan_take]
  by_cases hi : (scan bits (groupsFor bits) b).2 ≤ i <;> simp [hi]

theorem isLeast_looked (h : decode bits b 0 = .error .invalidVarint) :
    IsLeast {i | decode bits (b.take i) 0 = .error .invalidVarint} (scan bits (groupsFor bits) b).2 :=
  ⟨decode_take_eq_invalidVarint_iff.mpr ⟨h, Nat.le_refl _⟩, fun _ hi => (decode_take_eq_invalidVarint_iff.mp hi).2⟩

/-- The bytes of `b` that a read takes, told by decoding alone: those of the varint that is found, all if it breaks
    off, and otherwise the shortest front that is invalid as it stands. -/
def taken (bits : Nat) (b : Bytes) : Nat :=
  match decode bits b 0 with
  | .ok (_, size) => size
  | .error .endOfBuffer => b.length
  | .error _ => b.inits.findIdx fun front => decide (decode bits front 0 = .error .invalidVarint)

theorem taken_eq (bits : Nat) (b : Bytes) : taken bits b = (scan bits (groupsFor bits) b).2 := by
  rw [taken]
  rcases h : decode bits b 0 with e | ⟨v, size⟩
  · rcases decode_error h with rfl | rfl
    · exact (looked_of_endOfBuffer (decode_zero_eq_error_iff.mp h)).symm
    · obtain ⟨hinvalid, hleast⟩ := isLeast_looked h
      have hlen := (looked_le bits (groupsFor bits) b).1
      refine (List.findIdx_eq (by rw [List.length_inits]; omega)).mpr ⟨?_, fun j hj => ?_⟩
      · rw [List.getElem_inits]
        exact decide_eq_true hinvalid
      · rw [List.getElem_inits]
        exact decide_eq_false fun hshorter => Nat.not_le.mpr hj (hleast hshorter)
  · rw [decode_zero_eq_ok_iff.mp h]

theorem read_eq (bits : Nat) (b : Bytes) :
    read bits b = ((decode bits b 0).map Prod.fst, b.drop (taken bits b)) := by
  rw [taken_eq, decode_zero, read]
  rcases scan bits (groupsFor bits) b with ⟨e | v, looked⟩ <;> rfl

end Decode

/-! ### Runs -/

/-- `n` reads from a stream one after the other, with what each gives and what it leaves. A failure does not keep the
    later ones from being made. -/
def reads (bits : Nat) : (n : Nat) → Bytes → List (Except Error Nat × Bytes)
  | 0, _ => []
  | n + 1, stream => read bits stream :: reads bits n (read bits stream).2

/-- The same told by decoding: `n` times, what stands at the front of the bytes left, of which `taken` are dropped. -/
def decodings (bits : Nat) : (n : Nat) → Bytes → List (Except Error Nat × Bytes)
  | 0, _ => []
  | n + 1, b => ((decode bits b 0).map Prod.fst, b.drop (taken bits b)) :: decodings bits n (b.drop (taken bits b))

/-- A run of reads gives what decoding gives at the front of the bytes left each time. A read takes as many bytes as
    decoding finds the varint to have, all that are left if it breaks off, and of what is invalid just the shortest
    front that is invalid already; so it takes some of any that are left, and never more than the bound for the
    width. -/
theorem reads_eq_decodings (bits : Nat) :
    (∀ n stream, reads bits n stream = decodings bits n stream) ∧
    (∀ b, (∀ v k, decode bits b 0 = .ok (v, k) → taken bits b = k) ∧
      (decode bits b 0 = .error .endOfBuffer → taken bits b = b.length) ∧
      (decode bits b 0 = .error .invalidVarint →
        IsLeast {k | decode bits (b.take k) 0 = .error .invalidVarint} (taken bits b))) ∧
    (∀ b, b ≠ [] → 0 < taken bits b ∧ taken bits b ≤ b.length ∧ taken bits b ≤ bits ⌈/⌉ (7 : Nat) + 1) := by
  refine ⟨fun n stream => ?_, fun b => ⟨fun v k h => ?_, fun h => ?_, fun h => ?_⟩, fun b hb => ?_⟩
  · induction n generalizing stream with
    | zero => rfl
    | succ n ih => rw [reads, decodings, ih, read_eq]
  · rw [taken, h]
  · rw [taken, h]
  · rw [taken_eq]
    exact isLeast_looked h
  · obtain ⟨hlen, hroom⟩ := looked_le bits (groupsFor bits) b
    have hmax := maxSize_eq bits
    rw [maxSize] at hmax
    rw [taken_eq]
    exact ⟨looked_pos bits _ hb, hlen, hmax ▸ hroom⟩

/-- Reads of 8 bits: a value, a varint with too many groups, one with bits that do not fit, a value again, and one
    that breaks off, behind which nothing is left. -/
theorem reads_eq_decodings_mixed :
    let stream : Bytes := [0xC8, 0x01, 0x80, 0x80, 0x80, 0xFF, 0x07, 0x05, 0x80]
    reads 8 6 stream = [(.ok 200, stream.drop 2), (.error .invalidVarint, stream.drop 5),
      (.error .invalidVarint, stream.drop 7), (.ok 5, stream.drop 8), (.error .endOfBuffer, []),
      (.error .endOfBuffer, [])] ∧
    decode 8 (stream.drop 2) 0 = .error .invalidVarint ∧
    IsLeast {k | decode 8 ((stream.drop 2).take k) 0 = .error .invalidVarint} 3 ∧
    stream.drop 2 ≠ [] ∧ 3 ≤ 8 ⌈/⌉ 7 + 1 := by
  intro stream
  obtain ⟨hruns, htaken, hbounds⟩ := reads_eq_decodings 8
  have hrun : decodings 8 6 stream = [(.ok 200, stream.drop 2), (.error .invalidVarint, stream.drop 5),
      (.error .invalidVarint, stream.drop 7), (.ok 5, stream.drop 8), (.error .endOfBuffer, []),
      (.error .endOfBuffer, [])] := by decide
  have hinvalid : decode 8 (stream.drop 2) 0 = .error .invalidVarint := by decide
  have hthree : taken 8 (stream.drop 2) = 3 := by decide
  have hleft : stream.drop 2 ≠ [] := by decide
  have hleast := (htaken (stream.drop 2)).2.2 hinvalid
  have hbound := (hbounds (stream.drop 2) hleft).2.2
  rw [hthree] at hleast hbound
  exact ⟨(hruns 6 stream).trans hrun, hinvalid, hleast, hleft, hbound⟩

end WireFormat.Varint
