import Mathlib.Order.Interval.Set.Defs
import WireFormat.Proofs.Nesting
import WireFormat.Proofs.Trace

/-! Limits on counts. A range of counts only ever rejects: a decoder under a limit does what it does under none,
    until it reads the first count outside the range, and there it fails with this count. One thing else depends
    on the range, which is whether elements that take no bytes are held against the bytes that follow; so lists of
    such elements are left out, unless the range has no upper end either. -/

namespace WireFormat

/-! ### Ranges as sets -/

/-- The numbers from a lower end on. -/
def Bound.upward : Bound → Set Nat
  | unbounded => Set.univ
  | included a => Set.Ici a
  | excluded a => Set.Ioi a

/-- The numbers up to an upper end. -/
def Bound.downward : Bound → Set Nat
  | unbounded => Set.univ
  | included b => Set.Iic b
  | excluded b => Set.Iio b

namespace CountRange

/-- The counts in the range. There are none if its ends cross. -/
def toSet (r : CountRange) : Set Nat := r.lower.upward ∩ r.upper.downward

theorem contains_iff_mem_toSet {r : CountRange} {n : Nat} : r.contains n = true ↔ n ∈ r.toSet := by
  obtain ⟨lower, upper⟩ := r
  rw [contains, Bool.and_eq_true, toSet, Set.mem_inter_iff]
  refine and_congr ?_ ?_
  · cases lower <;> simp [reaches, Bound.upward]
  · cases upper <;> simp [admits, Bound.downward]

instance (r : CountRange) (n : Nat) : Decidable (n ∈ r.toSet) := decidable_of_iff _ contains_iff_mem_toSet

end CountRange

/-! ### Traces under a limit -/

namespace Traced

variable {α β : Type} {t : Traced α} {next : α → Traced β} {r : CountRange} {b rest : Bytes}

/-- The counts read from some bytes under no limit, up to the end or a failure. -/
def counts (t : Traced α) (b : Bytes) : List Nat := (t.openings .all b).map Opening.count

theorem counts_bind_of_ok {v : α} (h : t.decode .all b = .ok (v, rest)) :
    (t >>= next).counts b = t.counts b ++ (next v).counts rest := by
  rw [counts, openings_bind_of_ok h, List.map_append]
  rfl

theorem counts_bind_of_error {e : Error} (h : t.decode .all b = .error e) : (t >>= next).counts b = t.counts b := by
  rw [counts, openings_bind_of_error h]
  rfl

/-- Under the range `r`, the first count outside of it makes `t` fail, and without such a count `t` decodes as it
    does under no limit. -/
def Limits (r : CountRange) (t : Traced α) : Prop :=
  ∀ b, t.decode r b =
    ((t.counts b).find? (!r.contains ·)).elim (t.decode .all b) fun n => .error (.invalidLength n)

theorem limits_plain (d : Decoder α) (h : ∀ r b, d r b = d .all b) : Limits r (plain d) := h r

theorem Limits.bind (h : Limits r t) (hnext : ∀ v, Limits r (next v)) : Limits r (t >>= next) := by
  intro b
  cases hfind : (t.counts b).find? (!r.contains ·) with
  | some n =>
    -- The counts of `t` come first, whether `next` follows or not.
    have hrefused : t.decode r b = .error (.invalidLength n) := by
      rw [h b, hfind]
      rfl
    rw [decode_bind_of_error hrefused]
    rcases hd : t.decode .all b with e | ⟨v, mid⟩
    · rw [counts_bind_of_error hd, hfind]
      rfl
    · rw [counts_bind_of_ok hd, List.find?_append, hfind]
      rfl
  | none =>
    have hsame : t.decode r b = t.decode .all b := by
      rw [h b, hfind]
      rfl
    rcases hd : t.decode .all b with e | ⟨v, mid⟩
    · rw [counts_bind_of_error hd, hfind, decode_bind_of_error hd, decode_bind_of_error (hsame.trans hd)]
      rfl
    · rw [counts_bind_of_ok hd, List.find?_append, hfind, Option.none_or, decode_bind_of_ok hd,
        decode_bind_of_ok (hsame.trans hd)]
      exact hnext v mid

theorem Limits.map (f : α → β) (h : Limits r t) : Limits r (f <$> t) :=
  h.bind fun v => limits_plain (pure (f v)) fun _ _ => rfl

theorem Limits.each (h : Limits r t) (n : Nat) : Limits r (t.each n) := by
  induction n with
  | zero => exact limits_plain (pure []) fun _ _ => rfl
  | succ n ih => exact h.bind fun v => ih.map (v :: ·)

/-- Under a range with an upper end, no element is held against the bytes that follow; hence all have to take some. -/
theorem Limits.counted (h : Limits r t) (hidle : r.isCapped = true → Decoder.Takes 1 t.decode) (declared : Nat) :
    Limits r (t.counted declared) := by
  cases hcap : r.isCapped with
  | true =>
    have hself : t.counted declared = t := by rw [Traced.counted, Decoder.counted_eq_self (hidle hcap)]
    rw [hself]
    exact h
  | false =>
    intro b
    change Decoder.counted t.decode declared r b =
      ((t.counts b).find? (!r.contains ·)).elim (Decoder.counted t.decode declared .all b) _
    rw [Decoder.counted, h b]
    cases (t.counts b).find? (!r.contains ·) with
    | none =>
      rw [Option.elim_none, Option.elim_none, hcap]
      rfl
    | some n => rfl

theorem Limits.counting {element : Nat → Traced α} (h : ∀ n, Limits r (element n)) :
    Limits r (Traced.counting element) := by
  intro b
  rcases hv : Decoder.varint 64 r b with e | ⟨v, rest⟩
  · have hcount (r : CountRange) (hv : Decoder.varint 64 r b = .error e) : Decoder.count r b = .error e :=
      Decoder.bind_eq_error_iff.mpr (.inl hv)
    rw [counts, openings_counting_of_error (r := .all) hv, decode_counting_of_error (hcount r hv),
      decode_counting_of_error (hcount .all hv)]
    rfl
  · -- No limit refuses this count, so it is on record, before those in the elements.
    have hopen : Decoder.count .all b = .ok (v.toNat, rest) := Decoder.count_eq_ok_iff.mpr ⟨v, hv, rfl, rfl⟩
    have hcounts : (Traced.counting element).counts b = v.toNat :: ((element v.toNat).each v.toNat).counts rest := by
      rw [counts, openings_counting_of_count hopen]
      rfl
    cases hr : r.contains v.toNat with
    | false =>
      rw [hcounts, List.find?_cons_of_pos (by rw [hr]; rfl)]
      exact decode_counting_of_error (Decoder.count_of_refused hv hr)
    | true =>
      have hcount : Decoder.count r b = .ok (v.toNat, rest) := Decoder.count_eq_ok_iff.mpr ⟨v, hv, rfl, hr⟩
      rw [hcounts, List.find?_cons_of_neg (by rw [hr]; exact Bool.false_ne_true), decode_counting_of_count hcount,
        decode_counting_of_count hopen]
      exact (h v.toNat).each v.toNat rest

theorem Limits.list (h : Limits r t) (hidle : r.isCapped = true → Decoder.Takes 1 t.decode) : Limits r t.list :=
  .counting (h.counted hidle)

end Traced

open Traced

/-! ### Values and fields -/

section
variable {r : CountRange}

theorem Blob.limits_list {n : Nat} (hn : 0 < n) : Limits r (list (plain (Blob.decode n))) :=
  (limits_plain (Blob.decode n) fun _ _ => rfl).list fun _ => (Blob.takes_decode n).mono hn

theorem Transfer.limits_traced : Limits r Transfer.traced :=
  (limits_plain (Decoder.word 1 .little) fun _ _ => rfl).bind fun _ =>
  (limits_plain (Decoder.varint 64) fun _ _ => rfl).bind fun _ =>
  (limits_plain (Decoder.word 32 .little) fun _ _ => rfl).bind fun _ =>
  (limits_plain Decoder.boolean fun _ _ => rfl).bind fun _ =>
  (Blob.limits_list (n := 32) (by decide)).bind fun _ =>
  ((Blob.limits_list (n := 4) (by decide)).map Sequence.mk).bind fun _ =>
  limits_plain (pure _) fun _ _ => rfl

theorem Schema.limits_traced {s : Schema} (hs : r.isCapped = true → s.Solid) : Limits r s.traced := by
  induction s with
  | blob n => exact limits_plain (Blob.decode n) fun _ _ => rfl
  | transfer => exact Transfer.limits_traced
  | list s ih => exact (ih fun hcap => (hs hcap).2).list fun hcap => s.takes_traced.mono (hs hcap).1
  | sequence s ih =>
    exact ((ih fun hcap => (hs hcap).2).list fun hcap => s.takes_traced.mono (hs hcap).1).map Sequence.mk

end

namespace Field

/-- No list that is read has elements that take no bytes. -/
def Solid : Field → Prop
  | value s => s.Solid
  | values s => (Schema.list s).Solid
  | valueLists s => (Schema.list (.list s)).Solid
  | _ => True

theorem limits_traced {f : Field} {r : CountRange} (hf : r.isCapped = true → f.Solid) : Limits r f.traced := by
  cases f with
  | varints bits => exact .counting fun _ => limits_plain (Decoder.varint bits) fun _ _ => rfl
  | value s => exact Schema.limits_traced hf
  | values s => exact Schema.limits_traced (s := .list s) hf
  | valueLists s => exact .counting fun _ => Schema.limits_traced (s := .list s) fun hcap => (hf hcap).2
  | _ => exact limits_plain (Field.decode _) fun _ _ => rfl

end Field

/-! ### Cursors -/

namespace Cursor

variable {c : Cursor} {f : Field} {r : CountRange}

/-- The counts that the reading of a field finds at a cursor under no limit, up to the end or a failure. -/
def counts (c : Cursor) (f : Field) : List Nat := ((c.accepting .all).openings f).map Opening.count

/-- A read under a limit gives the first count outside the range, or else what it gives under none. -/
theorem read_accepting (hc : c.InBounds) (hf : r.isCapped = true → f.Solid) (peek : Bool) :
    (c.accepting r).read f peek = ((c.counts f).find? (!r.contains ·)).elim
      (((c.accepting .all).read f peek).1, ((c.accepting .all).read f peek).2.accepting r)
      fun n => (.error (.invalidLength n), c.accepting r) := by
  have hdecode : f.decode r (c.data.drop c.position) =
      ((c.counts f).find? (!r.contains ·)).elim (f.decode .all (c.data.drop c.position))
        fun n => .error (.invalidLength n) := f.decode_traced ▸ f.limits_traced hf c.unread
  have hread (r : CountRange) : (c.accepting r).read f peek = f.decode.through peek (c.accepting r) :=
    read_eq f peek hc
  rw [hread, hread, Decoder.through, Decoder.through]
  simp only [accepting, unread]
  rw [hdecode]
  cases (c.counts f).find? (!r.contains ·) with
  | some n => rfl
  | none =>
    rw [Option.elim_none, Option.elim_none]
    rcases f.decode .all (c.data.drop c.position) with e | ⟨v, rest⟩
    · rfl
    · cases peek <;> rfl

/-- The reading of a field under a limit compared with its reading under none. It succeeds if and only if that does
    and all counts lie in the range. The first count outside of it is what the read fails with, which leaves the
    cursor where it is; without one, the read does what it does under no limit. The counts of a read that succeeds
    are the lengths of the lists in the value. -/
theorem read_limited (hc : c.InBounds) (hf : r.isCapped = true → f.Solid) (peek : Bool) :
    let free := (c.accepting .all).read f peek
    let limited := (c.accepting r).read f peek
    (∀ v, limited.1 = .ok v ↔ free.1 = .ok v ∧ ∀ n ∈ c.counts f, n ∈ r.toSet) ∧
    (∀ before n after, c.counts f = before ++ n :: after → (∀ m ∈ before, m ∈ r.toSet) → n ∉ r.toSet →
      limited = (.error (.invalidLength n), c.accepting r)) ∧
    ((∀ n ∈ c.counts f, n ∈ r.toSet) → limited = (free.1, free.2.accepting r)) ∧
    (∀ v, free.1 = .ok v → c.counts f = f.counts v) := by
  intro free limited
  have hlimited := read_accepting hc hf peek
  simp only [← CountRange.contains_iff_mem_toSet]
  have same (h : ∀ n ∈ c.counts f, r.contains n = true) : limited = (free.1, free.2.accepting r) := by
    have hnone : (c.counts f).find? (!r.contains ·) = none := List.find?_eq_none.mpr fun n hn => by simp [h n hn]
    rwa [hnone] at hlimited
  have stopped {before n after} (hsplit : c.counts f = before ++ n :: after)
      (hbefore : ∀ m ∈ before, r.contains m = true) (hn : r.contains n ≠ true) :
      limited = (.error (.invalidLength n), c.accepting r) := by
    have hsome : (c.counts f).find? (!r.contains ·) = some n :=
      List.find?_eq_some_iff_append.mpr ⟨by simp [hn], before, after, hsplit, by simpa using hbefore⟩
    rwa [hsome] at hlimited
  refine ⟨fun v => ⟨fun hv => ?_, ?_⟩, fun _ _ _ hsplit hbefore hn => stopped hsplit hbefore hn, same, fun v hv => ?_⟩
  · change ((c.accepting r).read f peek).1 = _ at hv
    cases hfind : (c.counts f).find? (!r.contains ·) with
    | none =>
      have h : ∀ n ∈ c.counts f, r.contains n = true := by simpa using List.find?_eq_none.mp hfind
      exact ⟨(congrArg Prod.fst (same h)).symm.trans hv, h⟩
    | some n =>
      rw [hlimited, hfind] at hv
      cases hv
  · rintro ⟨hv, h⟩
    rw [same h]
    exact hv
  · exact count_openings (c := c.accepting .all) hc hv

/-- A list of two lists of blobs, which breaks off in the second of three blobs of the second list: where the count
    of this list is refused, the end of the input is not reached, and a range whose ends cross refuses the first
    count of all. -/
theorem read_limited_truncated :
    let c := (ofBytes [9, 2, 1, 5, 3, 6]).moveTo 1
    let f := Field.valueLists (.blob 1)
    c.InBounds ∧ f.Solid ∧ c.counts f = [2, 1, 3] ∧
      (c.accepting (.closed 1 2)).read f false = (.error (.invalidLength 3), c.accepting (.closed 1 2)) ∧
      (c.accepting (.closed 3 2)).read f false = (.error (.invalidLength 2), c.accepting (.closed 3 2)) ∧
      (c.accepting (.atMost 3)).read f false = (.error .endOfBuffer, c.accepting (.atMost 3)) := by
  intro c f
  have hc : c.InBounds := by decide
  have hf : f.Solid := ⟨by decide, by decide, trivial⟩
  have hcounts : c.counts f = [2, 1, 3] := by decide
  have hfree : (c.accepting .all).read f false = (.error .endOfBuffer, c.accepting .all) := by decide
  have refused (r : CountRange) := (read_limited hc (r := r) (fun _ => hf) false).2.1
  have accepted := (read_limited hc (r := .atMost 3) (fun _ => hf) false).2.2.1
  refine ⟨hc, hf, hcounts, ?_, ?_, ?_⟩
  · exact refused (.closed 1 2) [2, 1] 3 [] hcounts (by decide) (by decide)
  · exact refused (.closed 3 2) [] 2 [1, 3] hcounts (by decide) (by decide)
  · rw [accepted (by rw [hcounts]; decide), hfree]
    rfl

/-- A list of blobs that take no bytes is held against the end of the input under no limit alone. -/
example :
    ((ofBytes [1]).read (.values (.blob 0)) false).1 = .error (.invalidLength 1) ∧
    (((ofBytes [1]).accepting (.atMost 1)).read (.values (.blob 0)) false).1 = .ok [Blob.zero] := by decide

end Cursor

end WireFormat
