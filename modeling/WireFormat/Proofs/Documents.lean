import Mathlib.Data.List.Nodup
import Mathlib.Data.List.TakeDrop
import WireFormat.Json.Parse
import WireFormat.Schema

/-! JSON documents that have been read, and the JSON forms of values. No object in them holds a key twice, and every
    integer fits 64 bits. So what is found under a key does not depend on the order of the members. Whatever is read
    takes some of the text, so the length of the text is bound enough for the items of an array and the members of an
    object. -/

namespace WireFormat

namespace Json

/-- No object in the value holds a key twice, and every integer in it fits 64 bits. -/
inductive WellFormed : Json → Prop where
  | null : WellFormed null
  | bool (b : Bool) : WellFormed (bool b)
  | integer {i : Int} (hlow : Int64.minValue.toInt ≤ i) (hhigh : i < UInt64.size) : WellFormed (number (.integer i))
  | real (x : Float) : WellFormed (number (.real x))
  | string (text : String) : WellFormed (string text)
  | array {items : List Json} (hitems : ∀ item ∈ items, WellFormed item) : WellFormed (array items)
  | object {members : List (String × Json)} (hkeys : (members.map Prod.fst).Nodup)
    (hmembers : ∀ m ∈ members, WellFormed m.2) : WellFormed (object members)

theorem wellFormed_ofNat {n : Nat} (h : n < UInt64.size) : (ofNat n).WellFormed := by
  refine .integer ?_ (by exact_mod_cast h)
  have : Int64.minValue.toInt ≤ 0 := by decide
  omega

/-! ### Members -/

section Members
variable {members : List (String × Json)} {key : String} {value : Json}

theorem nodup_keys_bindMember (h : (members.map Prod.fst).Nodup) :
    ((bindMember members key value).map Prod.fst).Nodup := by
  rw [bindMember, List.map_append, List.nodup_append']
  refine ⟨h.sublist (List.filter_sublist.map _), List.nodup_singleton _, ?_⟩
  simp [List.disjoint_singleton]

theorem lookup_filter_ne (members : List (String × Json)) (key k : String) :
    (members.filter fun m => m.1 != key).lookup k = if k = key then none else members.lookup k := by
  induction members with
  | nil => simp
  | cons m members ih =>
    obtain ⟨l, v⟩ := m
    by_cases hl : l = key
    · rw [List.filter_cons_of_neg (by simp [hl]), ih, List.lookup_cons]
      split_ifs with hk
      · rfl
      · rw [beq_false_of_ne (hl ▸ hk)]
    · rw [List.filter_cons_of_pos (by simp [hl]), List.lookup_cons, List.lookup_cons, ih]
      rcases eq_or_ne k l with rfl | hk
      · simp [hl]
      · rw [beq_false_of_ne hk]

/-- Binding a key replaces what it was bound to and leaves all other keys as they are. -/
theorem lookup_bindMember (members : List (String × Json)) (key : String) (value : Json) (k : String) :
    (bindMember members key value).lookup k = if k = key then some value else members.lookup k := by
  rw [bindMember, List.lookup_append, lookup_filter_ne]
  split_ifs with hk
  · rw [hk, List.lookup_cons_self, Option.none_or]
  · rw [List.lookup_cons, beq_false_of_ne hk, List.lookup_nil, Option.or_none]

/-- Where keys are distinct, a key is bound to what is listed with it. -/
theorem lookup_eq_some_iff (h : (members.map Prod.fst).Nodup) :
    members.lookup key = some value ↔ (key, value) ∈ members := by
  constructor
  · intro hlookup
    obtain ⟨front, back, rfl, -⟩ := List.lookup_eq_some_iff.mp hlookup
    exact List.mem_append_cons_self
  · intro hmem
    obtain ⟨front, back, rfl⟩ := List.append_of_mem hmem
    rw [List.map_append, List.nodup_append] at h
    refine List.lookup_eq_some_iff.mpr ⟨front, back, rfl, fun m hm => ?_⟩
    exact bne_iff_ne.mpr (h.2.2 _ (List.mem_map_of_mem hm) _ List.mem_cons_self).symm

end Members

/-! ### Reading -/

theorem exists_of_bind {ε α β : Type} {x : Except ε α} {f : α → Except ε β} {b : β} (h : x >>= f = .ok b) :
    ∃ a, x = .ok a ∧ f a = .ok b := by
  cases x with
  | error e => cases h
  | ok a => exact ⟨a, rfl, h⟩

/-- What `p` reads has the property, and takes at least `n` characters of the text. -/
def Yields {α : Type} (p : Parse α) (n : Nat) (P : α → Prop) : Prop :=
  ∀ ⦃text v rest⦄, p text = .ok (v, rest) → P v ∧ rest.length + n ≤ text.length

variable {text mid rest : List Char} {c : Char}

theorem Yields.behind {α : Type} {p : Parse α} {n : Nat} {P : α → Prop} {v : α} (hp : Yields p n P)
    (h : p mid = .ok (v, rest)) (hmid : mid.length < text.length) : P v ∧ rest.length + 1 ≤ text.length := by
  obtain ⟨hv, hlen⟩ := hp h
  exact ⟨hv, by omega⟩

theorem length_skipSpace_le (text : List Char) : (skipSpace text).length ≤ text.length :=
  (List.dropWhile_suffix _).length_le

theorem length_of_skipSpace (h : skipSpace text = c :: rest) : rest.length + 1 ≤ text.length := by
  have hle := length_skipSpace_le text
  rwa [h, List.length_cons] at hle

theorem yields_keyword {value : Json} (hvalue : value.WellFormed) (word : List Char) :
    Yields (keyword value word) word.length WellFormed := by
  induction word with
  | nil =>
    intro text v rest h
    cases h
    exact ⟨hvalue, Nat.le_refl _⟩
  | cons c word ih =>
    intro text v rest h
    cases text with
    | nil => cases h
    | cons d text =>
      rw [keyword] at h
      split_ifs at h
      · obtain ⟨hv, hlen⟩ := ih h
        exact ⟨hv, Nat.succ_le_succ hlen⟩

theorem yields_stringBody (state : StringState) (found : List Char) :
    Yields (stringBody state found) 1 fun _ => True := by
  intro text v rest h
  refine ⟨trivial, ?_⟩
  -- On the text, for all states at once: each character may lead to another one.
  induction text generalizing state found with
  | nil => cases state <;> cases h
  | cons c text ih =>
    rw [List.length_cons, Nat.add_le_add_iff_right]
    have htail {state : StringState} {found : List Char} (h : stringBody state found text = .ok (v, rest)) :
        rest.length ≤ text.length := Nat.le_of_succ_le (ih state found h)
    cases state with
    | plain =>
      rw [stringBody] at h
      split_ifs at h
      · cases h
        exact Nat.le_refl _
      · exact htail h
      · exact htail h
    | escape =>
      rw [stringBody] at h
      split at h
      · exact htail h
      · split_ifs at h
        exact htail h
    | unit high value missing =>
      rw [stringBody] at h
      split at h
      · cases h
      · split_ifs at h
        · exact htail h
        · split at h
          · cases h
          · exact htail h
    | pairEscape high =>
      rw [stringBody] at h
      split_ifs at h
      exact htail h
    | pairUnit high =>
      rw [stringBody] at h
      split_ifs at h
      exact htail h

/-! ### Numbers -/

namespace Literal

theorem lt_of_absorb {significand n : Nat} {ds : List Char} (h : absorb significand ds = (n, 0))
    (hlt : significand < UInt64.size) : n < UInt64.size := by
  induction ds generalizing significand with
  | nil =>
    cases h
    exact hlt
  | cons d ds ih =>
    rw [absorb] at h
    split_ifs at h with hfits
    · exact ih h (of_decide_eq_true hfits)
    · cases h

theorem wellFormed_of_toInteger? {l : Literal} {i : Int} (h : l.toInteger? = some i) :
    (number (.integer i)).WellFormed := by
  rw [toInteger?] at h
  split at h
  · next n _ _ habsorb =>
    have hn : n < UInt64.size := lt_of_absorb habsorb (by decide)
    split_ifs at h with hnegative hbounds
    · cases h
      exact .integer hbounds.2 (by omega)
    · cases h
      exact wellFormed_ofNat hn
  · cases h

theorem wellFormed_of_value? {l : Literal} {n : Number} (h : l.value? = some n) : (number n).WellFormed := by
  rw [value?] at h
  split at h
  · next i hi =>
    cases h
    exact wellFormed_of_toInteger? hi
  · obtain ⟨x, -, rfl⟩ := Option.map_eq_some_iff.mp h
    exact .real x

end Literal

theorem yields_someDigits : Yields someDigits 1 fun _ => True := by
  intro text ds rest h
  refine ⟨trivial, ?_⟩
  rw [someDigits.eq_def] at h
  split at h
  · cases h
  · next c tail =>
    split_ifs at h with hc
    rw [spanDigits, List.span_eq_takeWhile_dropWhile, List.dropWhile_cons_of_pos hc] at h
    cases h
    exact Nat.succ_le_succ (List.dropWhile_suffix _).length_le

theorem yields_wholeDigits : Yields wholeDigits 1 fun _ => True := by
  intro text ds rest h
  obtain ⟨⟨whole, mid⟩, hwhole, h⟩ := exists_of_bind h
  dsimp only at h
  split at h
  · cases h
  · cases h
    exact yields_someDigits hwhole

theorem yields_fractionDigits : Yields fractionDigits 0 fun _ => True := by
  intro text ds rest h
  refine ⟨trivial, ?_⟩
  rw [fractionDigits.eq_def] at h
  split at h
  · obtain ⟨⟨fraction, mid⟩, hfraction, h⟩ := exists_of_bind h
    cases h
    have := (yields_someDigits hfraction).2
    rw [List.length_cons]
    omega
  · cases h
    exact Nat.le_refl _

theorem length_exponentSign_le (text : List Char) : (exponentSign text).2.length ≤ text.length := by
  rw [exponentSign.eq_def]
  split <;> simp

theorem yields_exponentPart : Yields exponentPart 0 fun _ => True := by
  intro text n rest h
  refine ⟨trivial, ?_⟩
  rw [exponentPart.eq_def] at h
  split at h
  · cases h
    exact Nat.le_refl _
  · next c tail =>
    split_ifs at h
    · obtain ⟨⟨ds, mid⟩, hds, h⟩ := exists_of_bind h
      cases h
      have : rest.length + 1 ≤ (exponentSign tail).2.length := (yields_someDigits hds).2
      have := length_exponentSign_le tail
      rw [List.length_cons]
      omega
    · cases h
      exact Nat.le_refl _

theorem yields_numberBody (negative : Bool) : Yields (numberBody negative) 1 WellFormed := by
  intro text v rest h
  obtain ⟨⟨whole, mid⟩, hwhole, h⟩ := exists_of_bind h
  obtain ⟨⟨fraction, mid'⟩, hfraction, h⟩ := exists_of_bind h
  obtain ⟨⟨exponent, end'⟩, hexponent, h⟩ := exists_of_bind h
  rcases hvalue : (Literal.mk negative whole fraction exponent).value? with _ | n
  · simp [hvalue] at h
  · simp only [hvalue] at h
    cases h
    refine ⟨Literal.wellFormed_of_value? hvalue, ?_⟩
    have := (yields_wholeDigits hwhole).2
    have := (yields_fractionDigits hfraction).2
    have := (yields_exponentPart hexponent).2
    omega

/-! ### Containers -/

section Containers
variable {item : Parse Json} {P : Json → Prop}

theorem yields_arrayItems (hitem : Yields item 1 WellFormed) (bound : Nat) {found : List Json}
    (hfound : ∀ v ∈ found, v.WellFormed) : Yields (arrayItems item bound found) 1 WellFormed := by
  induction bound generalizing found with
  | zero =>
    intro text v rest h
    cases h
  | succ bound ih =>
    intro text v rest h
    obtain ⟨⟨value, mid⟩, hread, h⟩ := exists_of_bind h
    obtain ⟨hvalue, hlen⟩ := hitem hread
    have hnext : ∀ w ∈ value :: found, w.WellFormed := List.forall_mem_cons.mpr ⟨hvalue, hfound⟩
    dsimp only at h
    split at h
    · cases h
    · next hspace =>
      cases h
      have := length_of_skipSpace hspace
      exact ⟨.array fun w hw => hnext w (List.mem_reverse.mp hw), by omega⟩
    · next hspace =>
      have := length_of_skipSpace hspace
      split at h
      · cases h
      · exact (ih hnext).behind h (by omega)
    · cases h

theorem yields_arrayBody (hitem : Yields item 1 WellFormed) : Yields (arrayBody item) 1 WellFormed := by
  intro text v rest h
  rw [arrayBody] at h
  split at h
  · cases h
  · next hspace =>
    cases h
    exact ⟨.array (by simp), length_of_skipSpace hspace⟩
  · exact yields_arrayItems hitem _ (by simp) h

theorem yields_memberKey : Yields memberKey 1 fun _ => True := by
  intro text key rest h
  refine ⟨trivial, ?_⟩
  rw [memberKey] at h
  split at h
  · cases h
  · next hspace =>
    obtain ⟨⟨_, mid⟩, hkey, h⟩ := exists_of_bind h
    dsimp only at h
    split at h
    · cases h
    · next hcolon =>
      cases h
      have := length_of_skipSpace hspace
      have := length_of_skipSpace hcolon
      have := (yields_stringBody _ _ hkey).2
      omega
    · cases h
  · cases h

theorem yields_objectMembers (hitem : Yields item 1 WellFormed) (bound : Nat) {found : List (String × Json)}
    (hkeys : (found.map Prod.fst).Nodup) (hfound : ∀ m ∈ found, m.2.WellFormed) :
    Yields (objectMembers item bound found) 1 WellFormed := by
  induction bound generalizing found with
  | zero =>
    intro text v rest h
    cases h
  | succ bound ih =>
    intro text v rest h
    obtain ⟨⟨key, mid⟩, hkey, h⟩ := exists_of_bind h
    obtain ⟨⟨value, mid'⟩, hread, h⟩ := exists_of_bind h
    obtain ⟨hvalue, hlen⟩ := hitem hread
    have := (yields_memberKey hkey).2
    have hnext : ∀ m ∈ bindMember found key value, m.2.WellFormed := by
      intro m hm
      rcases List.mem_append.mp hm with hm | hm
      · exact hfound m (List.mem_of_mem_filter hm)
      · obtain rfl := List.mem_singleton.mp hm
        exact hvalue
    dsimp only at h
    split at h
    · cases h
    · next hspace =>
      have := length_of_skipSpace hspace
      split_ifs at h
      · cases h
        exact ⟨.object (nodup_keys_bindMember hkeys) hnext, by omega⟩
      · exact (ih (nodup_keys_bindMember hkeys) hnext).behind h (by omega)

theorem yields_objectBody (hitem : Yields item 1 WellFormed) : Yields (objectBody item) 1 WellFormed := by
  intro text v rest h
  rw [objectBody] at h
  split at h
  · cases h
  · next hspace =>
    split_ifs at h
    · cases h
      exact ⟨.object List.nodup_nil (by simp), length_of_skipSpace hspace⟩
    · exact yields_objectMembers hitem _ (by simp) (by simp) h

theorem arrayItems_add (hitem : Yields item 1 P) {bound : Nat} (hpos : 0 < bound) {text : List Char}
    (h : text.length ≤ bound) (found : List Json) (more : Nat) :
    arrayItems item (bound + more) found text = arrayItems item bound found text := by
  induction bound generalizing text found with
  | zero => exact absurd hpos (Nat.lt_irrefl 0)
  | succ bound ih =>
    -- A pass lowers the bound by one, and takes an item and a comma off the text.
    rw [Nat.add_right_comm, arrayItems, arrayItems]
    rcases hread : item text with e | ⟨value, mid⟩
    · rfl
    · have hlen := (hitem hread).2
      simp only [bind, Except.bind]
      split
      · rfl
      · rfl
      · next hspace =>
        have := length_of_skipSpace hspace
        split
        · rfl
        · exact ih (by omega) (by omega) _
      · rfl

theorem objectMembers_add (hitem : Yields item 1 P) {bound : Nat} (hpos : 0 < bound) {text : List Char}
    (h : text.length ≤ bound) (found : List (String × Json)) (more : Nat) :
    objectMembers item (bound + more) found text = objectMembers item bound found text := by
  induction bound generalizing text found with
  | zero => exact absurd hpos (Nat.lt_irrefl 0)
  | succ bound ih =>
    rw [Nat.add_right_comm, objectMembers, objectMembers]
    rcases hkey : memberKey text with e | ⟨key, mid⟩
    · rfl
    · have := (yields_memberKey hkey).2
      simp only [bind, Except.bind]
      rcases hread : item mid with e | ⟨value, mid'⟩
      · rfl
      · have := (hitem hread).2
        dsimp only
        split
        · rfl
        · next hspace =>
          have := length_of_skipSpace hspace
          split_ifs
          · rfl
          · exact ih (by omega) (by omega) _
          · rfl

end Containers

theorem yields_valueWith {array object : Parse Json} (harray : Yields array 1 WellFormed)
    (hobject : Yields object 1 WellFormed) : Yields (valueWith array object) 1 WellFormed := by
  intro text v rest h
  rw [valueWith] at h
  split at h
  · cases h
  · next c mid hspace =>
    have hmid : mid.length < text.length := length_of_skipSpace hspace
    split_ifs at h
    · exact (yields_keyword .null _).behind h hmid
    · exact (yields_keyword (.bool true) _).behind h hmid
    · exact (yields_keyword (.bool false) _).behind h hmid
    · rcases hs : stringBody .plain [] mid with e | ⟨s, mid'⟩
      · rw [hs] at h
        cases h
      · rw [hs] at h
        cases h
        exact ⟨.string s, ((yields_stringBody _ _).behind hs hmid).2⟩
    · exact harray.behind h hmid
    · exact hobject.behind h hmid
    · exact (yields_numberBody true).behind h hmid
    · obtain ⟨hv, hlen⟩ := yields_numberBody false h
      exact ⟨hv, Nat.le_trans hlen hmid⟩

theorem yields_value (depth : Nat) : Yields (value depth) 1 WellFormed := by
  induction depth with
  | zero => exact yields_valueWith (fun _ _ _ h => by cases h) (fun _ _ _ h => by cases h)
  | succ depth ih => exact yields_valueWith (yields_arrayBody ih) (yields_objectBody ih)

/-- The length of the text is bound enough: with any larger one the same is read, be it an array or a fault. -/
theorem arrayItems_of_length_le (depth : Nat) {bound : Nat} (hne : text ≠ []) (h : text.length ≤ bound)
    (found : List Json) :
    arrayItems (value depth) bound found text = arrayItems (value depth) text.length found text := by
  obtain ⟨more, rfl⟩ := Nat.exists_eq_add_of_le h
  exact arrayItems_add (yields_value depth) (List.length_pos_iff.mpr hne) (Nat.le_refl _) found more

theorem objectMembers_of_length_le (depth : Nat) {bound : Nat} (hne : text ≠ []) (h : text.length ≤ bound)
    (found : List (String × Json)) :
    objectMembers (value depth) bound found text = objectMembers (value depth) text.length found text := by
  obtain ⟨more, rfl⟩ := Nat.exists_eq_add_of_le h
  exact objectMembers_add (yields_value depth) (List.length_pos_iff.mpr hne) (Nat.le_refl _) found more

/-! ### Documents -/

theorem wellFormed_of_ofChars {text : List Char} {value : Json} (h : ofChars text = .ok value) : value.WellFormed := by
  obtain ⟨⟨result, rest⟩, hresult, h⟩ := exists_of_bind h
  dsimp only at h
  split at h
  · cases h
    exact (yields_value maxDepth hresult).1
  · cases h

/-- What has been read from a text has distinct keys in every object, and integers of 64 bits. -/
theorem wellFormed_of_parse {text : String} {value : Json} (h : parse text = .ok value) : value.WellFormed := by
  rw [parse] at h
  rcases hread : ofChars text.toList with e | result
  · rw [hread] at h
    cases h
  · rw [hread] at h
    cases h
    exact wellFormed_of_ofChars hread

/-- The order of the members of an object is of no account. -/
theorem WellFormed.member_of_perm {members others : List (String × Json)} (h : (Json.object members).WellFormed)
    (hperm : members.Perm others) (key : String) :
    (Json.object others).member key = (Json.object members).member key := by
  cases h with
  | object hkeys _ =>
    have hothers : (others.map Prod.fst).Nodup := (hperm.map Prod.fst).nodup_iff.mp hkeys
    have hlookup : others.lookup key = members.lookup key := Option.ext fun found => by
      rw [lookup_eq_some_iff hothers, lookup_eq_some_iff hkeys, hperm.mem_iff]
    simp only [member, asObject, bind, Except.bind, hlookup]

end Json

/-! ### Forms of values -/

theorem Codec.wellFormed_listToJson {α : Type} {c : Codec α} (h : ∀ v, (c.toJson v).WellFormed) (vs : List α) :
    (c.listToJson vs).WellFormed := by
  refine .array fun item hitem => ?_
  obtain ⟨v, -, rfl⟩ := List.mem_map.mp hitem
  exact h v

theorem Blob.wellFormed_toJson {n : Nat} (p : Blob n) : ((Blob.codec n).toJson p).WellFormed := .string _

theorem Transfer.wellFormed_toJson (t : Transfer) : t.toJson.WellFormed := by
  have hkeys : ["version", "amount", "unlock", "inputs", "outputs"].Nodup := by decide
  refine .object hkeys ?_
  simp only [List.forall_mem_cons]
  have hversion : t.version.toNat < UInt64.size := Nat.lt_trans t.version.isLt (by decide)
  refine ⟨Json.wellFormed_ofNat hversion, Json.wellFormed_ofNat t.amount.isLt, .bool _, ?_, ?_, by simp⟩
  · exact Codec.wellFormed_listToJson Blob.wellFormed_toJson t.inputs
  · exact Codec.wellFormed_listToJson Blob.wellFormed_toJson t.outputs.toList

theorem Schema.wellFormed_toJson (s : Schema) (v : s.Value) : (s.codec.toJson v).WellFormed := by
  induction s with
  | blob n => exact Blob.wellFormed_toJson v
  | transfer => exact Transfer.wellFormed_toJson v
  | list s ih => exact Codec.wellFormed_listToJson ih v
  | sequence s ih => exact Codec.wellFormed_listToJson ih v.toList

end WireFormat
