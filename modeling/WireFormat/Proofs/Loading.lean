import Mathlib.Data.List.Lex
import WireFormat.Proofs.BlobText

/-! Lists of blobs loaded from JSON documents. What is asked for is a tree of arrays of one depth, with digits of one
    number at its leaves. A document that is such a tree is loaded, and is the JSON form of what is loaded, but for
    the case of the digits. In any other, some nodes are not what they should be, and the one that comes first in the
    document is reported. -/

namespace WireFormat

/-! ### Nodes of documents -/

namespace Json

/-- The values directly inside an array or an object. -/
def children : Json → List Json
  | array items => items
  | object members => members.map Prod.snd
  | _ => []

/-- The node of a document that is reached by going from a value to one of its children at each step of the path. In
    the order of the document, a node comes before what is inside of it, so paths are ordered as words are. -/
def node? : Json → List Nat → Option Json
  | value, [] => some value
  | value, i :: path => value.children[i]?.bind fun child => child.node? path

/-- The document with the texts `depth` levels down in lowercase. -/
def lowercased : (depth : Nat) → Json → Json
  | 0, string text => string (text.map Char.toLower)
  | depth + 1, array items => array (items.map (lowercased depth))
  | _, value => value

end Json

/-- Why a text is not the digits of a blob of `n` bytes. The number of bytes is looked at last. -/
inductive Blob.Refuses (n : Nat) (text : String) : Error → Prop where
  | length (hodd : text.utf8ByteSize % 2 = 1) : Refuses n text (.hex (.oddLength text.utf8ByteSize))
  | character {c : Char} {position : Nat} (heven : text.utf8ByteSize % 2 = 0) (hc : Hex.BreaksAt text c position) :
    Refuses n text (.hex (.invalidCharacter c position))
  | size (heven : text.utf8ByteSize % 2 = 0) (hdigits : ∀ c ∈ text.toList, Hex.IsDigit c)
    (hlen : text.length ≠ 2 * n) : Refuses n text (.sizeMismatch n (text.utf8ByteSize / 2))

namespace Json

/-- The document is a tree of arrays of this depth, with the digits of blobs of `n` bytes at the leaves. -/
structure Shaped (n depth : Nat) (value : Json) : Prop where
  arrays : ∀ path node, value.node? path = some node → path.length < depth → node.kind = .array
  leaves : ∀ path node, value.node? path = some node → path.length = depth →
    ∃ text, node = string text ∧ text.length = 2 * n ∧ ∀ c ∈ text.toList, Hex.IsDigit c

/-- The node at a path is not what a tree of arrays of this depth has there, for the reason given. -/
inductive Offence (n depth : Nat) (value : Json) : List Nat → Error → Prop where
  | array {path : List Nat} {node : Json} (hnode : value.node? path = some node) (hlevel : path.length < depth)
    (hkind : node.kind ≠ .array) : Offence n depth value path (.jsonType .array node.kind)
  | string {path : List Nat} {node : Json} (hnode : value.node? path = some node) (hlevel : path.length = depth)
    (hkind : node.kind ≠ .string) : Offence n depth value path (.jsonType .string node.kind)
  | text {path : List Nat} {text : String} {e : Error} (hnode : value.node? path = some (.string text))
    (hlevel : path.length = depth) (htext : Blob.Refuses n text e) : Offence n depth value path e

/-- The offence that comes first in the document. -/
structure FirstOffence (n depth : Nat) (value : Json) (path : List Nat) (e : Error) : Prop where
  offence : Offence n depth value path e
  first : ∀ {path' e'}, Offence n depth value path' e' → path ≤ path'

/-- `outcome` is what loading the document has to give where a tree of arrays of this depth is asked for: a value with
    the document as its form, or the first offence. -/
structure Settles {α : Type} (n depth : Nat) (value : Json) (toJson : α → Json) (outcome : Except Error α) :
    Prop where
  ok_iff : (∃ v, outcome = .ok v) ↔ value.Shaped n depth
  form : ∀ v, outcome = .ok v → toJson v = value.lowercased depth
  error_iff : ∀ e, outcome = .error e ↔ ∃ path, value.FirstOffence n depth path e

end Json

/-! ### Texts -/

namespace Blob

variable {n : Nat} {text : String} {e : Error}

theorem Refuses.parse_eq (h : Refuses n text e) : parse n text = .error e := by
  cases h with
  | length hodd => exact parse_of_fault (Hex.decode_eq_oddLength_iff.mpr ⟨hodd, rfl⟩)
  | character heven hc => exact parse_of_fault (hc.decode heven)
  | size heven hdigits hlen => exact parse_of_length_ne heven hdigits hlen

/-- Every text that is not parsed is refused for one of these reasons, and for no other. -/
theorem refuses_of_parse (h : parse n text = .error e) : Refuses n text e := by
  have hrefuses : ∃ e', Refuses n text e' := by
    rcases Nat.mod_two_eq_zero_or_one text.utf8ByteSize with heven | hodd
    · by_cases hdigits : ∀ c ∈ text.toList, Hex.IsDigit c
      · refine ⟨_, .size heven hdigits fun hlen => ?_⟩
        obtain ⟨p, hp⟩ := exists_parse_iff.mpr ⟨hlen, hdigits⟩
        rw [h] at hp
        cases hp
      · obtain ⟨c, position, hc⟩ := Hex.exists_breaksAt (by simpa using hdigits)
        exact ⟨_, .character heven hc⟩
    · exact ⟨_, .length hodd⟩
  obtain ⟨e', he'⟩ := hrefuses
  obtain rfl : e' = e := Except.error.inj (he'.parse_eq.symm.trans h)
  exact he'

end Blob

/-! ### Offences -/

namespace Json

variable {n depth : Nat} {value child : Json} {path : List Nat} {i : Nat} {e e' : Error}

theorem node?_cons (h : value.children[i]? = some child) (path : List Nat) :
    value.node? (i :: path) = child.node? path := by
  rw [node?, h, Option.bind_some]

theorem exists_child_of_node? {node : Json} (h : value.node? (i :: path) = some node) :
    ∃ child, value.children[i]? = some child ∧ child.node? path = some node :=
  Option.bind_eq_some_iff.mp h

theorem Offence.inside (h : Offence n depth child path e) (hchild : value.children[i]? = some child) :
    Offence n (depth + 1) value (i :: path) e := by
  cases h with
  | array hnode hlevel hkind => exact .array (by rwa [node?_cons hchild]) (Nat.succ_lt_succ hlevel) hkind
  | string hnode hlevel hkind => exact .string (by rwa [node?_cons hchild]) (congrArg (· + 1) hlevel) hkind
  | text hnode hlevel htext => exact .text (by rwa [node?_cons hchild]) (congrArg (· + 1) hlevel) htext

theorem Offence.exists_child (h : Offence n (depth + 1) value (i :: path) e) :
    ∃ child, value.children[i]? = some child ∧ Offence n depth child path e := by
  cases h with
  | array hnode hlevel hkind =>
    obtain ⟨child, hchild, hnode⟩ := exists_child_of_node? hnode
    exact ⟨child, hchild, .array hnode (Nat.lt_of_succ_lt_succ hlevel) hkind⟩
  | string hnode hlevel hkind =>
    obtain ⟨child, hchild, hnode⟩ := exists_child_of_node? hnode
    exact ⟨child, hchild, .string hnode (Nat.succ.inj hlevel) hkind⟩
  | text hnode hlevel htext =>
    obtain ⟨child, hchild, hnode⟩ := exists_child_of_node? hnode
    exact ⟨child, hchild, .text hnode (Nat.succ.inj hlevel) htext⟩

theorem not_offence_array_nil {items : List Json} : ¬Offence n (depth + 1) (.array items) [] e := by
  intro h
  cases h with
  | array hnode _ hkind =>
    cases hnode
    exact hkind rfl
  | string _ hlevel => cases hlevel
  | text _ hlevel => cases hlevel

/-- A node has one reason at most. -/
theorem Offence.unique (h : Offence n depth value path e) (h' : Offence n depth value path e') : e = e' := by
  cases h with
  | array hnode hlevel hkind =>
    cases h' with
    | array hnode' => rw [Option.some.inj (hnode.symm.trans hnode')]
    | string _ hlevel' => omega
    | text _ hlevel' => omega
  | string hnode hlevel hkind =>
    cases h' with
    | array _ hlevel' => omega
    | string hnode' => rw [Option.some.inj (hnode.symm.trans hnode')]
    | text hnode' =>
      rw [Option.some.inj (hnode.symm.trans hnode')] at hkind
      exact absurd rfl hkind
  | text hnode hlevel htext =>
    cases h' with
    | array _ hlevel' => omega
    | string hnode' _ hkind' =>
      rw [← Option.some.inj (hnode.symm.trans hnode')] at hkind'
      exact absurd rfl hkind'
    | text hnode' _ htext' =>
      obtain rfl := string.inj (Option.some.inj (hnode.symm.trans hnode'))
      exact Except.error.inj (htext.parse_eq.symm.trans htext'.parse_eq)

theorem FirstOffence.unique (h : FirstOffence n depth value path e) {path' : List Nat}
    (h' : FirstOffence n depth value path' e') : e = e' := by
  obtain rfl := le_antisymm (h.first h'.offence) (h'.first h.offence)
  exact h.offence.unique h'.offence

/-! ### Shapes -/

theorem kind_eq_array_iff : value.kind = .array ↔ ∃ items, value = array items := by
  cases value with
  | bool b => cases b <;> simp [kind]
  | _ => simp [kind]

theorem kind_eq_string_iff : value.kind = .string ↔ ∃ text, value = string text := by
  cases value with
  | bool b => cases b <;> simp [kind]
  | _ => simp [kind]

theorem asArray_of_kind_ne (h : value.kind ≠ .array) : value.asArray = .error (.jsonType .array value.kind) := by
  cases value with
  | array items => exact absurd rfl h
  | _ => rfl

theorem asString_of_kind_ne (h : value.kind ≠ .string) : value.asString = .error (.jsonType .string value.kind) := by
  cases value with
  | string text => exact absurd rfl h
  | _ => rfl

/-- A document has the shape asked for just if there is no offence in it. -/
theorem shaped_iff : Shaped n depth value ↔ ∀ path e, ¬Offence n depth value path e := by
  constructor
  · intro h path e ho
    cases ho with
    | array hnode hlevel hkind => exact hkind (h.arrays _ _ hnode hlevel)
    | string hnode hlevel hkind =>
      obtain ⟨text, rfl, -⟩ := h.leaves _ _ hnode hlevel
      exact hkind rfl
    | text hnode hlevel htext =>
      obtain ⟨text, heq, hdigits⟩ := h.leaves _ _ hnode hlevel
      obtain rfl := string.inj heq
      obtain ⟨p, hp⟩ := Blob.exists_parse_iff.mpr hdigits
      rw [htext.parse_eq] at hp
      cases hp
  · intro h
    refine ⟨fun path node hnode hlevel => ?_, fun path node hnode hlevel => ?_⟩
    · by_contra hkind
      exact h _ _ (.array hnode hlevel hkind)
    · by_cases hkind : node.kind = .string
      · obtain ⟨text, rfl⟩ := kind_eq_string_iff.mp hkind
        rcases hparse : Blob.parse n text with e | p
        · exact absurd (.text hnode hlevel (Blob.refuses_of_parse hparse)) (h _ _)
        · exact ⟨text, rfl, Blob.exists_parse_iff.mp ⟨p, hparse⟩⟩
      · exact absurd (.string hnode hlevel hkind) (h _ _)

/-- Nothing comes before the document as a whole. -/
theorem Offence.first_of_nil (h : Offence n depth value [] e) : FirstOffence n depth value [] e :=
  ⟨h, fun _ => not_lt.mp (List.not_lt_nil _)⟩

end Json

/-! ### Loading -/

section
variable {α β : Type} {f : α → Except Error β} {vs : List α} {ws : List β}

theorem mapM_cons_eq_ok_iff {v : α} :
    (v :: vs).mapM f = .ok ws ↔ ∃ w us, f v = .ok w ∧ vs.mapM f = .ok us ∧ w :: us = ws := by
  rw [List.mapM_cons]
  rcases f v with e | w
  · simp [bind, Except.bind]
  · rcases vs.mapM f with e | us <;> simp [bind, Except.bind, pure, Except.pure]

theorem exists_of_mapM (h : vs.mapM f = .ok ws) : ∀ v ∈ vs, ∃ w, f v = .ok w := by
  induction vs generalizing ws with
  | nil => exact fun v hv => absurd hv List.not_mem_nil
  | cons v vs ih =>
    obtain ⟨w, us, hw, hus, -⟩ := mapM_cons_eq_ok_iff.mp h
    exact List.forall_mem_cons.mpr ⟨⟨w, hw⟩, ih hus⟩

theorem map_of_mapM {γ : Type} {g : α → γ} {k : β → γ} (h : vs.mapM f = .ok ws)
    (hg : ∀ v w, f v = .ok w → k w = g v) : ws.map k = vs.map g := by
  induction vs generalizing ws with
  | nil =>
    obtain rfl : [] = ws := Except.ok.inj h
    rfl
  | cons v vs ih =>
    obtain ⟨w, us, hw, hus, rfl⟩ := mapM_cons_eq_ok_iff.mp h
    rw [List.map_cons, List.map_cons, hg v w hw, ih hus]

/-- The first element that fails decides. -/
theorem exists_first_of_mapM {e : Error} (h : vs.mapM f = .error e) :
    ∃ (i : Nat) (v : α), vs[i]? = some v ∧ f v = .error e ∧ ∀ j < i, ∀ u, vs[j]? = some u → ∃ w, f u = .ok w := by
  induction vs with
  | nil => cases h
  | cons v vs ih =>
    rw [List.mapM_cons] at h
    rcases hv : f v with e' | w
    · rw [hv] at h
      obtain rfl : e' = e := Except.error.inj h
      exact ⟨0, v, rfl, hv, fun j hj => absurd hj (Nat.not_lt_zero j)⟩
    · rw [hv] at h
      rcases hvs : vs.mapM f with e' | us
      · rw [hvs] at h
        obtain rfl : e' = e := Except.error.inj h
        obtain ⟨i, u, hu, hfail, hbefore⟩ := ih hvs
        refine ⟨i + 1, u, hu, hfail, fun j hj x hx => ?_⟩
        cases j with
        | zero =>
          obtain rfl : v = x := Option.some.inj hx
          exact ⟨w, hv⟩
        | succ j => exact hbefore j (Nat.lt_of_succ_lt_succ hj) x hx
      · rw [hvs] at h
        cases h

end

namespace Json

variable {α β : Type} {n depth : Nat} {value : Json} {toJson : α → Json} {outcome : Except Error α}

namespace Settles

theorem ok {v : α} (hfree : ∀ path e, ¬Offence n depth value path e) (hform : toJson v = value.lowercased depth) :
    Settles n depth value toJson (.ok v) where
  ok_iff := iff_of_true ⟨v, rfl⟩ (shaped_iff.mpr hfree)
  form _ hv := Except.ok.inj hv ▸ hform
  error_iff e := iff_of_false (by simp) fun ⟨path, hfirst⟩ => hfree path e hfirst.offence

theorem error {path : List Nat} {e : Error} (hfirst : FirstOffence n depth value path e) :
    Settles n depth value toJson (.error e) where
  ok_iff := iff_of_false (by simp) fun hshape => shaped_iff.mp hshape path e hfirst.offence
  form _ hv := by cases hv
  error_iff e' := by
    constructor
    · intro he
      exact ⟨path, Except.error.inj he ▸ hfirst⟩
    · rintro ⟨path', hfirst'⟩
      rw [hfirst.unique hfirst']

theorem free (h : Settles n depth value toJson outcome) {v : α} (hv : outcome = .ok v) :
    ∀ path e, ¬Offence n depth value path e :=
  shaped_iff.mp (h.ok_iff.mp ⟨v, hv⟩)

theorem map {f : α → β} {toJson' : β → Json} (h : Settles n depth value toJson outcome)
    (hf : ∀ v, toJson' (f v) = toJson v) : Settles n depth value toJson' (f <$> outcome) := by
  rcases outcome with e | v
  · obtain ⟨path, hfirst⟩ := (h.error_iff e).mp rfl
    exact .error hfirst
  · exact .ok (h.free rfl) ((hf v).trans (h.form v rfl))

end Settles

end Json

open Json

theorem Blob.settles_ofJson (n : Nat) (value : Json) :
    Settles n 0 value (codec n).toJson ((codec n).ofJson value) := by
  by_cases hkind : value.kind = .string
  · obtain ⟨text, rfl⟩ := kind_eq_string_iff.mp hkind
    change Settles n 0 _ _ (parse n text)
    rcases hparse : parse n text with e | p
    · exact .error (Offence.text rfl rfl (refuses_of_parse hparse)).first_of_nil
    · have hshape : Shaped n 0 (.string text) := by
        refine ⟨fun _ _ _ hlevel => absurd hlevel (Nat.not_lt_zero _), fun path node hnode hlevel => ?_⟩
        obtain rfl := List.length_eq_zero_iff.mp hlevel
        exact ⟨text, (Option.some.inj hnode).symm, exists_parse_iff.mp ⟨p, hparse⟩⟩
      exact .ok (shaped_iff.mp hshape) (congrArg Json.string (parse_eq_ok_iff.mp hparse))
  · have hload : (codec n).ofJson value = .error (.jsonType .string value.kind) := by
      change (value.asString >>= parse n) = _
      rw [asString_of_kind_ne hkind]
      rfl
    rw [hload]
    exact .error (Offence.string rfl rfl hkind).first_of_nil

/-- The elements of an array are loaded in order, so the first offence in the first of them with one is reported. -/
theorem Codec.settles_listOfJson {α : Type} {n depth : Nat} {c : Codec α}
    (h : ∀ value, Settles n depth value c.toJson (c.ofJson value)) (value : Json) :
    Settles n (depth + 1) value c.listToJson (c.listOfJson value) := by
  by_cases hkind : value.kind = .array
  · obtain ⟨items, rfl⟩ := kind_eq_array_iff.mp hkind
    change Settles n (depth + 1) _ _ (items.mapM c.ofJson)
    rcases hitems : items.mapM c.ofJson with e | vs
    · obtain ⟨i, item, hitem, he, hbefore⟩ := exists_first_of_mapM hitems
      obtain ⟨path, hfirst⟩ := ((h item).error_iff e).mp he
      refine .error ⟨hfirst.offence.inside hitem, fun {path' e'} ho => ?_⟩
      cases path' with
      | nil => exact absurd ho not_offence_array_nil
      | cons j path' =>
        obtain ⟨other, hother, ho⟩ := ho.exists_child
        rcases lt_trichotomy i j with hij | rfl | hji
        · exact le_of_lt (.rel hij)
        · obtain rfl := Option.some.inj (hitem.symm.trans hother)
          exact List.cons_le_cons i (hfirst.first ho)
        · obtain ⟨w, hw⟩ := hbefore j hji other hother
          exact absurd ho ((h other).free hw _ _)
    · refine .ok (fun path e ho => ?_) ?_
      · cases path with
        | nil => exact not_offence_array_nil ho
        | cons i path =>
          obtain ⟨item, hitem, ho⟩ := ho.exists_child
          obtain ⟨w, hw⟩ := exists_of_mapM hitems item (List.mem_of_getElem? hitem)
          exact (h item).free hw _ _ ho
      · rw [listToJson, lowercased, map_of_mapM hitems fun item v hv => (h item).form v hv]
  · have hload : c.listOfJson value = .error (.jsonType .array value.kind) := by
      rw [listOfJson, asArray_of_kind_ne hkind]
      rfl
    rw [hload]
    exact .error (Offence.array rfl (Nat.succ_pos depth) hkind).first_of_nil

namespace Schema

/-- Lists or sequences of blobs of `n` bytes, nested to this depth. -/
inductive Nests (n : Nat) : Schema → (depth : Nat) → Prop where
  | blob : Nests n (.blob n) 0
  | list {s : Schema} {depth : Nat} (h : Nests n s depth) : Nests n (.list s) (depth + 1)
  | sequence {s : Schema} {depth : Nat} (h : Nests n s depth) : Nests n (.sequence s) (depth + 1)

theorem Nests.settles {n depth : Nat} {s : Schema} (hs : s.Nests n depth) (value : Json) :
    Settles n depth value s.codec.toJson (s.codec.ofJson value) := by
  induction hs generalizing value with
  | blob => exact Blob.settles_ofJson n value
  | list _ ih => exact Codec.settles_listOfJson ih value
  | sequence _ ih => exact (Codec.settles_listOfJson ih value).map fun _ => rfl

end Schema

/-- Lists of blobs at any depth, lists or sequences at each level, are loaded from just the documents that are trees
    of arrays of that depth with the digits of blobs at their leaves, and their JSON form is this document with the
    digits in lowercase. From every other document, what comes out is the first offence in it: a node above the
    leaves that is no array, a leaf that is no text, or a text that is not the digits of a blob. The same holds of
    loading a list of such values, or a list of lists, from a document. -/
theorem Schema.ofJson_settles {n depth : Nat} {s : Schema} (hs : s.Nests n depth) (value : Json) :
    Settles n depth value s.codec.toJson (s.codec.ofJson value) ∧
    Settles n (depth + 1) value s.codec.listToJson (s.codec.listOfJson value) ∧
    Settles n (depth + 2) value s.codec.nestedToJson (s.codec.nestedOfJson value) := by
  have hlist := Codec.settles_listOfJson hs.settles
  exact ⟨hs.settles value, hlist value, Codec.settles_listOfJson (c := s.codec.list) hlist value⟩

/-- A document of two lists, one of them empty, which is loaded, and one with a bad digit in front of a value of the
    wrong type and an object in the place of a list, which both come behind it. Where lists of lists of such values
    are asked for, the digits in front are in the place of a list. -/
theorem Schema.ofJson_settles_mixed :
    let s := Schema.sequence (.list (.blob 1))
    let good := Json.array [.array [.string "0A", .string "bB"], .array []]
    let bad := Json.array [.array [.string "00", .string "0g", .null], .object [], .string "0"]
    s.Nests 1 2 ∧
      (∃ v, s.codec.ofJson good = .ok v ∧ s.codec.toJson v = good.lowercased 2) ∧ good.Shaped 1 2 ∧
      (∃ path, bad.FirstOffence 1 2 path (.hex (.invalidCharacter 'g' 1)) ∧ path ≤ [0, 2] ∧ path ≤ [1]) ∧
      (∃ path, good.FirstOffence 1 4 path (.jsonType .array .string)) := by
  intro s good bad
  have hs : s.Nests 1 2 := .sequence (.list .blob)
  obtain ⟨hload, -, -⟩ := ofJson_settles hs good
  obtain ⟨hfail, -, -⟩ := ofJson_settles hs bad
  obtain ⟨-, -, hnested⟩ := ofJson_settles hs good
  have hok : ∃ v, s.codec.ofJson good = .ok v := ⟨⟨[[⟨[0x0a], rfl⟩, ⟨[0xbb], rfl⟩], []]⟩, by decide⟩
  obtain ⟨v, hv⟩ := hok
  obtain ⟨path, hfirst⟩ := (hfail.error_iff (.hex (.invalidCharacter 'g' 1))).mp (by decide)
  refine ⟨hs, ⟨v, hv, hload.form v hv⟩, hload.ok_iff.mp ⟨v, hv⟩, ⟨path, hfirst, ?_, ?_⟩,
    (hnested.error_iff _).mp (by decide)⟩
  · exact hfirst.first (.string rfl rfl (by decide))
  · exact hfirst.first (.array rfl (by decide) (by decide))

end WireFormat
