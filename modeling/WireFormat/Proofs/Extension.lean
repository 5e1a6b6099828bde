import WireFormat.Proofs.Framing
import WireFormat.Proofs.Nesting

/-! What more input changes. A value that is found stays found, with the same bytes, and invalid input stays
    invalid; only a truncated value may still come out. It does so at the cost of some of the new bytes, with
    one exception: a list of elements that take no bytes is held against the number of bytes that happen to
    follow it, unless the range of counts has an upper end. -/

namespace WireFormat

/-! ### Varints -/

namespace Varint

variable {bits k v : Nat} {b : Bytes}

theorem decode_append_of_invalidVarint (h : decode bits b 0 = .error .invalidVarint) (t : Bytes) :
    decode bits (b ++ t) 0 = .error .invalidVarint := by
  -- Whatever completes the longer input completes the shorter one.
  have hfail : ∀ t' result, decode bits (b ++ t') 0 ≠ .ok result := by
    intro t' result hok
    have hend : decode bits b 0 = .error .endOfBuffer :=
      (decode_eq_endOfBuffer_iff_extends (Nat.zero_le _)).mpr ⟨fun r hr => by simp [h] at hr, t', result, hok⟩
    simp [h] at hend
  rcases hd : decode bits (b ++ t) 0 with e | result
  · rcases decode_error hd with rfl | rfl
    · obtain ⟨-, t', result, hok⟩ := (decode_eq_endOfBuffer_iff_extends (Nat.zero_le _)).mp hd
      rw [List.append_assoc] at hok
      exact absurd hok (hfail _ result)
    · rfl
  · exact absurd hd (hfail t result)

/-- A varint that breaks off ends in the bytes that are added. -/
theorem Begins.length_lt_of_append {t : Bytes} (h : Begins bits (b ++ t) v k) (hb : ¬Begins bits b v k) :
    b.length < k := by
  have hnone := (h.of_append.resolve_left hb).extent?_eq_none
  have hends := h.ends
  rw [extent?_append, hnone, Option.none_or] at hends
  obtain ⟨i, hi, rfl⟩ := Option.map_eq_some_iff.mp hends
  have := (length_of_extent? hi).1
  omega

end Varint

/-- A failure under the range `r` that no more input repairs: the count does not become acceptable, nor the
    varint valid. -/
def Error.Final (r : CountRange) : Error → Prop
  | invalidVarint => True
  | invalidLength count => r.contains count = false
  | _ => False

namespace Decoder

variable {α β : Type} {r : CountRange} {P : α → Prop} {Q : β → Prop}

/-- What `d` makes of its input when bytes are added behind it. `late` is about the values of which `P` holds:
    one that is found only with these bytes takes some of them. -/
structure Incremental (r : CountRange) (P : α → Prop) (d : Decoder α) : Prop where
  le : ∀ {b v rest}, d r b = .ok (v, rest) → rest.length ≤ b.length
  ok : ∀ {b v rest}, d r b = .ok (v, rest) → ∀ t, d r (b ++ t) = .ok (v, rest ++ t)
  final : ∀ {b e}, d r b = .error e → e.Final r → ∀ t, d r (b ++ t) = .error e
  late : ∀ {b e t v rest}, d r b = .error e → d r (b ++ t) = .ok (v, rest) → P v → rest.length < t.length

theorem Incremental.eq_of_append {d : Decoder α} (h : Incremental r P d) {b t mid rest : Bytes} {u v : α}
    (hu : d r b = .ok (u, mid)) (hv : d r (b ++ t) = .ok (v, rest)) : u = v ∧ mid ++ t = rest := by
  have hlonger := h.ok hu t
  rw [hv] at hlonger
  obtain ⟨rfl, rfl⟩ := Prod.mk.inj (Except.ok.inj hlonger)
  exact ⟨rfl, rfl⟩

theorem Incremental.mono {P' : α → Prop} {d : Decoder α} (h : Incremental r P d) (hP : ∀ v, P' v → P v) :
    Incremental r P' d where
  le := h.le
  ok := h.ok
  final := h.final
  late he hv hP' := h.late he hv (hP _ hP')

theorem incremental_pure (v : α) : Incremental r P (pure v) where
  le h := by
    obtain ⟨-, rfl⟩ := pure_eq_ok_iff.mp h
    exact Nat.le_refl _
  ok h t := by
    obtain ⟨rfl, rfl⟩ := pure_eq_ok_iff.mp h
    rfl
  final h := by cases h
  late h := by cases h

theorem Incremental.bind {d : Decoder α} {next : α → Decoder β} (hd : Incremental r P d)
    (hnext : ∀ {b v rest}, d r b = .ok (v, rest) → Incremental r Q (next v))
    (hP : ∀ {v b w rest}, next v r b = .ok (w, rest) → Q w → P v) : Incremental r Q (d >>= next) where
  le h := by
    obtain ⟨v, mid, hv, hw⟩ := bind_eq_ok_iff.mp h
    exact Nat.le_trans ((hnext hv).le hw) (hd.le hv)
  ok h t := by
    obtain ⟨v, mid, hv, hw⟩ := bind_eq_ok_iff.mp h
    exact bind_eq_ok_iff.mpr ⟨v, mid ++ t, hd.ok hv t, (hnext hv).ok hw t⟩
  final h hfinal t := by
    rcases bind_eq_error_iff.mp h with he | ⟨v, mid, hv, he⟩
    · exact bind_eq_error_iff.mpr (.inl (hd.final he hfinal t))
    · exact bind_eq_error_iff.mpr (.inr ⟨v, mid ++ t, hd.ok hv t, (hnext hv).final he hfinal t⟩)
  late {b e t w rest} h hok hQ := by
    obtain ⟨v, mid, hv, hw⟩ := bind_eq_ok_iff.mp hok
    rcases bind_eq_error_iff.mp h with he | ⟨u, short, hu, he⟩
    · exact Nat.lt_of_le_of_lt ((hnext hv).le hw) (hd.late he hv (hP hw hQ))
    · obtain ⟨rfl, rfl⟩ := hd.eq_of_append hu hv
      exact (hnext hu).late he hw hQ

theorem Incremental.andThen {d : Decoder α} {next : α → Decoder β} (hd : Incremental r (fun _ => True) d)
    (hnext : ∀ {b v rest}, d r b = .ok (v, rest) → Incremental r Q (next v)) : Incremental r Q (d >>= next) :=
  hd.bind hnext fun _ _ => trivial

theorem Incremental.map {d : Decoder α} (f : α → β) (h : Incremental r (fun v => Q (f v)) d) :
    Incremental r Q (f <$> d) :=
  h.bind (fun _ => incremental_pure _) fun hw hQ => by
    obtain ⟨rfl, -⟩ := pure_eq_ok_iff.mp hw
    exact hQ

/-! ### Single values -/

theorem incremental_take (n : Nat) {P : Bytes → Prop} : Incremental r P (take n) where
  le h := Nat.le_of_add_right_le (takes_take n h)
  ok h t := by
    obtain ⟨hn, rfl, rfl⟩ := take_eq_ok_iff.mp h
    refine take_eq_ok_iff.mpr ⟨?_, List.take_append_of_le_length hn, List.drop_append_of_le_length hn⟩
    rw [List.length_append]
    omega
  final h hfinal := by
    obtain ⟨-, rfl⟩ := take_eq_error_iff.mp h
    cases hfinal
  late h hok _ := by
    obtain ⟨hshort, -⟩ := take_eq_error_iff.mp h
    obtain ⟨hlong, -, rfl⟩ := take_eq_ok_iff.mp hok
    rw [List.length_append] at hlong
    rw [List.length_drop, List.length_append]
    omega

theorem incremental_word (n : Nat) (order : ByteOrder) {P : Word n → Prop} : Incremental r P (word n order) := by
  rw [word_eq_map]
  exact (incremental_take n).map _

theorem incremental_boolean {P : Bool → Prop} : Incremental r P boolean :=
  (incremental_word 1 .little).map (· == 1)

theorem incremental_varint (bits : Nat) {P : BitVec bits → Prop} : Incremental r P (varint bits) where
  le h := Nat.le_of_add_right_le (takes_varint bits h)
  ok h t := by
    obtain ⟨u, k, hbegins, rfl, rfl⟩ := varint_eq_ok_iff.mp h
    have hk := (Varint.length_of_extent? hbegins.ends).2
    exact varint_eq_ok_iff.mpr ⟨u, k, hbegins.append t, rfl, List.drop_append_of_le_length hk⟩
  final {b e} h hfinal t := by
    have hd := varint_eq_error_iff.mp h
    rcases Varint.decode_error hd with rfl | rfl
    · cases hfinal
    · exact varint_eq_error_iff.mpr (Varint.decode_append_of_invalidVarint hd t)
  late {b e t v rest} h hok _ := by
    obtain ⟨u, k, hbegins, rfl, rfl⟩ := varint_eq_ok_iff.mp hok
    have hshort : ¬Varint.Begins bits b u k := fun hb => by
      rw [varint_eq_ok_iff.mpr ⟨u, k, hb, rfl, rfl⟩] at h
      cases h
    have hk := hbegins.length_lt_of_append hshort
    have hle := (Varint.length_of_extent? hbegins.ends).2
    rw [List.length_append] at hle
    rw [List.length_drop, List.length_append]
    omega

/-! ### Lists -/

theorem incremental_accept (n : Nat) {P : Nat → Prop} : Incremental r P (accept n) where
  le h := Nat.le_of_eq (congrArg List.length (accept_eq_ok_iff.mp h).2.2.symm)
  ok h t := by
    obtain ⟨hr, rfl, rfl⟩ := accept_eq_ok_iff.mp h
    exact accept_eq_ok_iff.mpr ⟨hr, rfl, rfl⟩
  final h _ t := by
    by_cases hr : r.contains n = true
    · rw [accept, if_pos hr] at h
      cases h
    · rw [accept, if_neg hr] at h ⊢
      exact h
  late h hok _ := by
    rw [accept, if_pos (accept_eq_ok_iff.mp hok).1] at h
    cases h

theorem incremental_count {P : Nat → Prop} : Incremental r P count :=
  (incremental_varint 64).andThen fun {_ v _} _ => incremental_accept v.toNat

section Lists
variable {d : Decoder α}

/-- More bytes behind an element only speak for it. An element that is refused for them has to be one of which
    `P` does not hold. -/
theorem Incremental.counted (h : Incremental r P d) {declared : Nat} (hr : r.contains declared = true)
    (hidle : ∀ {b v rest}, d r b = .ok (v, rest) → rest.length = b.length → P v → r.isCapped = true) :
    Incremental r P (counted d declared) where
  le hv := h.le (counted_eq_ok_iff.mp hv).1
  ok {b v rest} hok t := by
    obtain ⟨hv, hgo⟩ := counted_eq_ok_iff.mp hok
    refine counted_eq_ok_iff.mpr ⟨h.ok hv t, ?_⟩
    rintro ⟨heq, hopen, hlt⟩
    rw [List.length_append] at heq hlt
    rw [List.length_append] at heq
    exact hgo ⟨by omega, hopen, by omega⟩
  final herr hfinal t := by
    rcases counted_eq_error_iff.mp herr with he | ⟨rfl, -⟩
    · exact counted_eq_error_iff.mpr (.inl (h.final he hfinal t))
    · cases hr.symm.trans hfinal
  late {b e t v rest} herr hok hP := by
    obtain ⟨hv, -⟩ := counted_eq_ok_iff.mp hok
    rcases counted_eq_error_iff.mp herr with he | ⟨-, u, mid, hu, heq, hopen, -⟩
    · exact h.late he hv hP
    · obtain ⟨rfl, -⟩ := h.eq_of_append hu hv
      cases hopen.symm.trans (hidle hu heq hP)

theorem Incremental.each (h : Incremental r P d) (n : Nat) :
    Incremental r (fun vs => ∀ v ∈ vs, P v) (each d n) := by
  induction n with
  | zero => exact incremental_pure []
  | succ n ih =>
    refine h.bind (fun {_ v _} _ => (ih.mono fun vs hvs => ?_).map (v :: ·)) fun {v _ _ _} hw hall => ?_
    · exact (List.forall_mem_cons.mp hvs).2
    · obtain ⟨vs, -, rfl⟩ := map_eq_ok_iff.mp hw
      exact (List.forall_mem_cons.mp hall).1

theorem Incremental.list (h : Incremental r P d)
    (hidle : ∀ {b v rest}, d r b = .ok (v, rest) → rest.length = b.length → P v → r.isCapped = true) :
    Incremental r (fun vs => ∀ v ∈ vs, P v) (list d) :=
  incremental_count.andThen fun {_ n _} hn => (h.counted (contains_of_count hn) hidle).each n

theorem incremental_varints (bits : Nat) {P : List (BitVec bits) → Prop} : Incremental r P (varints bits) :=
  incremental_count.andThen fun {_ n _} _ =>
    ((incremental_varint bits (P := fun _ => True)).each n).mono fun _ _ _ _ => trivial

end Lists

end Decoder

open Decoder

/-! ### Values -/

section Values
variable {r : CountRange}

theorem Blob.incremental_decode (n : Nat) {P : Blob n → Prop} : Incremental r P (Blob.decode n) := by
  have bytes : Incremental r (fun _ => True) (take n) := incremental_take n
  refine ⟨fun h => ?_, fun h t => ?_, fun h hfinal t => ?_, fun h hok _ => ?_⟩
  · exact bytes.le (Blob.decode_eq_ok_iff.mp h)
  · exact Blob.decode_eq_ok_iff.mpr (bytes.ok (Blob.decode_eq_ok_iff.mp h) t)
  · exact Blob.decode_eq_error_iff.mpr (bytes.final (Blob.decode_eq_error_iff.mp h) hfinal t)
  · exact bytes.late (Blob.decode_eq_error_iff.mp h) (Blob.decode_eq_ok_iff.mp hok) trivial

/-- Lists of blobs that have bytes are never held against the bytes that follow. -/
theorem Blob.incremental_list {n : Nat} (hn : 0 < n) :
    Incremental r (fun _ => True) (Blob.codec n).list.decode := by
  have element : Incremental r (fun _ => True) (Blob.decode n) := Blob.incremental_decode n
  refine (element.list fun {b v rest} hv heq _ => ?_).mono fun _ _ _ _ => trivial
  have := Blob.takes_decode n hv
  omega

theorem Transfer.incremental_decode {P : Transfer → Prop} : Incremental r P Transfer.decode :=
  (incremental_word 1 .little).andThen fun _ =>
  (incremental_varint 64).andThen fun _ =>
  (incremental_word 32 .little).andThen fun _ =>
  incremental_boolean.andThen fun _ =>
  (Blob.incremental_list (by decide)).andThen fun _ =>
  ((Blob.incremental_list (by decide)).map Sequence.mk).andThen fun _ =>
  incremental_pure _

namespace Schema

/-- Only what has no bytes is found without taking any. -/
theorem frame_eq_nil {s : Schema} {b rest : Bytes} {v : s.Value} (h : s.codec.decode r b = .ok (v, rest))
    (heq : rest.length = b.length) : s.frame v = [] := by
  have htakes := s.takes_decode h
  cases s with
  | blob n =>
    rw [leastSize] at htakes
    refine List.length_eq_zero_iff.mp ?_
    rw [frame, Blob.length_bytes v]
    omega
  | _ =>
    rw [leastSize] at htakes
    omega

theorem incremental_list {s : Schema}
    (h : Incremental r (fun v => s.Hollow v → r.isCapped = true) s.codec.decode) :
    Incremental r (fun vs => (list s).Hollow vs → r.isCapped = true) (Decoder.list s.codec.decode) := by
  have element : Incremental r (fun v => s.frame v = [] ∨ s.Hollow v → r.isCapped = true) s.codec.decode :=
    h.mono fun v hv hollow => hv (.inr hollow)
  refine (element.list fun {b v rest} hv heq hcap => ?_).mono fun vs hvs v hv hor => ?_
  · exact hcap (.inl (frame_eq_nil hv heq))
  · exact hvs ⟨v, hv, hor⟩

/-- The values spoken for are those without lists of elements that take no bytes, unless such lists are
    bounded by the range. -/
theorem incremental_decode (s : Schema) :
    Incremental r (fun v => s.Hollow v → r.isCapped = true) s.codec.decode := by
  induction s with
  | blob n => exact Blob.incremental_decode n
  | transfer => exact Transfer.incremental_decode
  | list s ih => exact incremental_list ih
  | sequence s ih => exact (incremental_list ih).map Sequence.mk

end Schema

end Values

/-! ### Fields -/

namespace Field

/-- Some list in what is read has an element that takes no bytes. -/
def Hollow : (f : Field) → f.Result → Prop
  | value s, v => s.Hollow v
  | values s, vs => (Schema.list s).Hollow vs
  | valueLists s, vss => (Schema.list (Schema.list s)).Hollow vss
  | _, _ => False

theorem incremental_decode (f : Field) {r : CountRange} :
    Incremental r (fun v => f.Hollow v → r.isCapped = true) f.decode := by
  cases f with
  | boolean => exact incremental_boolean
  | word n order => exact incremental_word n order
  | bytes length => exact incremental_take length
  | hex length => exact (incremental_take length).map Hex.encode
  | varint bits => exact incremental_varint bits
  | varints bits => exact incremental_varints bits
  | value s => exact s.incremental_decode
  | values s => exact (Schema.list s).incremental_decode
  | valueLists s =>
    rw [s.decode_valueLists]
    exact (Schema.list (Schema.list s)).incremental_decode

end Field

/-! ### Cursors -/

namespace Cursor

/-- The cursor at the same position, with `t` behind its bytes. -/
def extend (c : Cursor) (t : Bytes) : Cursor := { c with data := c.data ++ t }

section
variable {c : Cursor} {f : Field}

@[simp] theorem extend_data (t : Bytes) : (c.extend t).data = c.data ++ t := rfl

theorem InBounds.extend (hc : c.InBounds) (t : Bytes) : (c.extend t).InBounds := by
  rw [InBounds, extend_data, List.length_append]
  exact Nat.le_add_right_of_le hc

theorem unread_extend (hc : c.InBounds) (t : Bytes) : (c.extend t).unread = c.unread ++ t :=
  List.drop_append_of_le_length hc

theorem read_extend_of_ok (hc : c.InBounds) {peek : Bool} {v : f.Result} {after : Cursor}
    (h : c.read f peek = (.ok v, after)) (t : Bytes) :
    (c.extend t).read f peek = (.ok v, after.extend t) := by
  rw [read_eq f peek hc] at h
  obtain ⟨rest, hd, rfl⟩ := through_eq_ok_iff.mp h
  rw [read_eq f peek (hc.extend t)]
  refine through_eq_ok_iff.mpr ⟨rest ++ t, ?_, ?_⟩
  · rw [unread_extend hc]
    exact f.incremental_decode.ok hd t
  · cases peek with
    | true => rfl
    | false =>
      have hstop : (c.data ++ t).length - (rest ++ t).length = c.data.length - rest.length := by
        rw [List.length_append, List.length_append, Nat.add_sub_add_right]
      exact congrArg (c.extend t).moveTo hstop.symm

theorem read_extend_of_final (hc : c.InBounds) {peek : Bool} {e : Error} (h : (c.read f peek).1 = .error e)
    (hfinal : e.Final c.accepted) (t : Bytes) : ((c.extend t).read f peek).1 = .error e := by
  rw [read_eq_error_iff (hc.extend t), unread_extend hc]
  exact f.incremental_decode.final ((read_eq_error_iff hc).mp h) hfinal t

theorem read_of_extend (hc : c.InBounds) {v : f.Result} {after : Cursor} {t : Bytes}
    (hollow : f.Hollow v → c.accepted.isCapped = true) (h : (c.extend t).read f false = (.ok v, after))
    (hle : after.position ≤ c.data.length) : (c.read f false).1 = .ok v := by
  rcases hshort : (c.read f false).1 with e | u
  · rw [read_eq_error_iff hc] at hshort
    rw [read_eq f false (hc.extend t)] at h
    obtain ⟨rest, hd, rfl⟩ := through_eq_ok_iff.mp h
    rw [unread_extend hc] at hd
    have hlate := f.incremental_decode.late hshort hd hollow
    simp only [Bool.false_eq_true, if_false, moveTo_position, extend_data, List.length_append] at hle
    omega
  · have hlong := read_extend_of_ok hc (Prod.ext hshort rfl) t
    rw [h] at hlong
    exact (Prod.mk.inj hlong).1.symm

/-- A read gives what it gives with more bytes behind the input, and ends at the same position, if it succeeds,
    finds an invalid varint or finds a count that is not accepted. Conversely, if it ends within the input
    although there are more bytes, it does not need them; lists of elements that take no bytes are left out,
    unless the accepted counts have an upper end. -/
theorem read_extend (hc : c.InBounds) (t : Bytes) :
    (∀ peek v after, c.read f peek = (.ok v, after) → (c.extend t).read f peek = (.ok v, after.extend t)) ∧
    (∀ peek, (c.read f peek).1 = .error .invalidVarint →
      ((c.extend t).read f peek).1 = .error .invalidVarint) ∧
    (∀ peek count, c.accepted.contains count = false → (c.read f peek).1 = .error (.invalidLength count) →
      ((c.extend t).read f peek).1 = .error (.invalidLength count)) ∧
    (∀ v after, (f.Hollow v → c.accepted.isCapped = true) → (c.extend t).read f false = (.ok v, after) →
      after.position ≤ c.data.length → ∀ peek, (c.read f peek).1 = .ok v) := by
  refine ⟨fun _ _ _ h => read_extend_of_ok hc h t, fun _ h => read_extend_of_final hc h trivial t,
    fun _ _ hr h => read_extend_of_final hc h hr t, fun v after hollow h hle peek => ?_⟩
  have hread := read_of_extend hc hollow h hle
  cases peek with
  | true => rw [read_peek f hc, hread]
  | false => exact hread

/-- Three readings of a count of one with two bytes behind it: a blob, a varint of 8 bits and a list that
    declares 256 elements. A byte behind them changes none. -/
theorem read_extend_single :
    let c := (ofBytes [1, 0x80, 0x02]).accepting (.atMost 1)
    let longer := c.extend [7]
    let blobs : List (Blob 1) := [⟨[0x80], rfl⟩]
    longer.read (.values (.blob 1)) false = (.ok blobs, longer.moveTo 2) ∧
      (longer.read (.varints 8) false).1 = .error .invalidVarint ∧
      (longer.read (.valueLists (.blob 0)) true).1 = .error (.invalidLength 256) ∧
      (c.read (.values (.blob 1)) true).1 = .ok blobs := by
  intro c longer blobs
  have hc : c.InBounds := by decide
  obtain ⟨hok, -, -, hback⟩ := read_extend (f := .values (.blob 1)) hc [7]
  have hlonger := hok false blobs (c.moveTo 2) (by decide)
  refine ⟨hlonger, ?_, ?_, ?_⟩
  · exact (read_extend (f := .varints 8) hc [7]).2.1 false (by decide)
  · exact (read_extend (f := .valueLists (.blob 0)) hc [7]).2.2.1 true 256 (by decide) (by decide)
  · exact hback blobs (longer.moveTo 2) (fun _ => rfl) hlonger (by decide) true

/-- Two blobs of no bytes are held against the number of bytes that follow, although they take none. -/
example : ((ofBytes [2]).read (.values (.blob 0)) false).1 = .error (.invalidLength 2) ∧
    ((ofBytes [2]).extend [7, 7]).read (.values (.blob 0)) false =
      (.ok [Blob.zero, Blob.zero], ((ofBytes [2]).extend [7, 7]).moveTo 1) := by
  decide

end

end Cursor

end WireFormat
