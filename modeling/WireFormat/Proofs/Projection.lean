import WireFormat.Proofs.Nesting
import WireFormat.Proofs.Padding

/-! JSON forms loaded back. Every value comes back from its JSON form, whatever bytes it has or lacks, and comes back
    from an object that holds this form under a key; transfers come back with a fee of zero, which their JSON form
    leaves out. Lists of lists have one form in JSON, and one way to load it with one failure for everything else. -/

namespace WireFormat

/-! ### Members -/

namespace Json

variable {members : List (String × Json)} {key : String} {found : Json}

theorem memberAs_of_lookup {α : Type} (get : Json → Except Error α) (h : members.lookup key = some found) :
    (object members).memberAs get key = get found := by
  simp [memberAs, member, asObject, h, bind, Except.bind]

theorem nat64?_ofNat {n : Nat} (h : n < 2 ^ 64) : (ofNat n).nat64? = some n :=
  if_pos ⟨Int.natCast_nonneg n, h⟩

theorem asU64_ofNat {n : Nat} (h : n < 2 ^ 64) : (ofNat n).asU64 = .ok n := by
  rw [asU64, nat64?_ofNat h]

theorem asU32_ofNat {n : Nat} (h : n < 2 ^ 32) : (ofNat n).asU32 = .ok n := by
  rw [asU32, nat64?_ofNat (Nat.lt_trans h (by decide))]
  exact if_pos h

end Json

/-! ### Lists -/

theorem mapM_map {α β γ : Type} (f : α → Except Error β) (g : β → γ) (vs : List α) :
    vs.mapM (fun v => g <$> f v) = List.map g <$> vs.mapM f := by
  induction vs with
  | nil => rfl
  | cons v vs ih =>
    rw [List.mapM_cons, List.mapM_cons, ih]
    rcases f v with e | u
    · rfl
    · rcases vs.mapM f with e | us <;> rfl

namespace Codec

variable {α : Type} {c : Codec α}

theorem listOfJson_listToJson {kept : α → α} {vs : List α} (h : ∀ v ∈ vs, c.ofJson (c.toJson v) = .ok (kept v)) :
    c.listOfJson (c.listToJson vs) = .ok (vs.map kept) := by
  change (vs.map c.toJson).mapM c.ofJson = _
  rw [List.mapM_map]
  exact mapM_eq_ok h

theorem toJson_ofLists (c : Codec α) (vss : List (List α)) :
    (Sequence.codec (Sequence.codec c)).toJson (.ofLists vss) = c.nestedToJson vss := by
  change Json.array ((vss.map Sequence.mk).map fun s => c.listToJson s.toList) = _
  rw [List.map_map]
  rfl

theorem ofJson_ofLists (c : Codec α) (value : Json) :
    (Sequence.codec (Sequence.codec c)).ofJson value = Sequence.ofLists <$> c.nestedOfJson value := by
  change Sequence.mk <$> (value.asArray >>= fun items => items.mapM fun item => Sequence.mk <$> c.listOfJson item) =
    Sequence.ofLists <$> (value.asArray >>= fun items => items.mapM c.listOfJson)
  rcases value.asArray with e | items
  · rfl
  · change Sequence.mk <$> (items.mapM fun item => Sequence.mk <$> c.listOfJson item) = _
    rw [mapM_map, Functor.map_map]
    rfl

end Codec

/-! ### Values -/

theorem Blob.ofJson_toJson {n : Nat} (p : Blob n) : (codec n).ofJson ((codec n).toJson p) = .ok p := by
  change (Bytes.ofHex (Hex.encode p.bytes) >>= ofBytes n) = .ok p
  rw [Bytes.ofHex_encode]
  exact ofBytes_eq_ok_iff.mpr rfl

theorem Blob.listOfJson_listToJson {n : Nat} (ps : List (Blob n)) :
    (codec n).listOfJson ((codec n).listToJson ps) = .ok ps := by
  have h : (codec n).listOfJson ((codec n).listToJson ps) = .ok (ps.map id) :=
    Codec.listOfJson_listToJson fun p _ => p.ofJson_toJson
  rwa [List.map_id] at h

theorem Transfer.ofJson_toJson (t : Transfer) : ofJson t.toJson = .ok { t with fee := 0 } := by
  have hversion : t.version.toNat < 256 := t.version.isLt
  have hin : inputsCodec.ofJson (inputsCodec.toJson t.inputs) = .ok t.inputs :=
    Blob.listOfJson_listToJson t.inputs
  have hout : outputsCodec.ofJson (outputsCodec.toJson t.outputs) = .ok t.outputs :=
    congrArg (Sequence.mk <$> ·) (Blob.listOfJson_listToJson t.outputs.toList)
  rw [toJson, ofJson, Json.memberAs_of_lookup Json.asU32 rfl, Json.asU32_ofNat (Nat.lt_trans hversion (by decide)),
    Json.memberAs_of_lookup Json.asU64 rfl, Json.asU64_ofNat t.amount.isLt, Json.memberAs_of_lookup Json.asBool rfl,
    Codec.ofJsonMember, Json.memberAs_of_lookup inputsCodec.ofJson rfl, hin,
    Codec.ofJsonMember, Json.memberAs_of_lookup outputsCodec.ofJson rfl, hout]
  change (if 256 ≤ t.version.toNat then _ else Except.ok (Transfer.mk (BitVec.ofNat 8 t.version.toNat)
    (BitVec.ofNat 64 t.amount.toNat) 0 t.unlock t.inputs t.outputs)) = _
  rw [if_neg (Nat.not_le.mpr hversion), BitVec.ofNat_toNat, BitVec.ofNat_toNat, BitVec.setWidth_eq, BitVec.setWidth_eq]

namespace Schema

/-- What the JSON form of a value keeps of it: all but the fees of transfers, in the place of which it has zeros. -/
def withoutFees : (s : Schema) → s.Value → s.Value
  | blob _, p => p
  | transfer, t => { t with fee := 0 : Transfer }
  | list s, vs => vs.map s.withoutFees
  | sequence s, vs => ⟨(Sequence.toList vs).map s.withoutFees⟩

theorem ofJson_toJson (s : Schema) (v : s.Value) : s.codec.ofJson (s.codec.toJson v) = .ok (s.withoutFees v) := by
  induction s with
  | blob n => exact Blob.ofJson_toJson v
  | transfer => exact Transfer.ofJson_toJson v
  | list s ih => exact Codec.listOfJson_listToJson fun u _ => ih u
  | sequence s ih =>
    exact congrArg (Sequence.mk <$> ·) (Codec.listOfJson_listToJson (c := s.codec) fun u _ => ih u)

theorem withoutFees_eq_self {s : Schema} (hs : s.OfBlobs) (v : s.Value) : s.withoutFees v = v := by
  induction s with
  | blob n => rfl
  | transfer => exact hs.elim
  | list s ih => exact List.map_id'' (ih hs) v
  | sequence s ih => exact congrArg Sequence.mk (List.map_id'' (ih hs) (Sequence.toList v))

/-- A value comes back from its JSON form but for the fees, and so from every object with this form in a member;
    without transfers it comes back as it is. Lists of lists are written and loaded alike whether as such, as values
    or as sequences of sequences, and are refused with the same failure. -/
theorem json_round_trip (s : Schema) :
    (∀ v : s.Value, s.codec.ofJson (s.codec.toJson v) = .ok (s.withoutFees v)) ∧
    (s.OfBlobs → ∀ v : s.Value, s.codec.ofJson (s.codec.toJson v) = .ok v) ∧
    (∀ (v : s.Value) members key, members.lookup key = some (s.codec.toJson v) →
      s.codec.ofJsonMember (.object members) key = .ok (s.withoutFees v)) ∧
    (∀ vss : List (List s.Value), (list (list s)).codec.toJson vss = s.codec.nestedToJson vss ∧
      (sequence (sequence s)).codec.toJson (.ofLists vss) = s.codec.nestedToJson vss) ∧
    (∀ value : Json, (list (list s)).codec.ofJson value = s.codec.nestedOfJson value ∧
      (sequence (sequence s)).codec.ofJson value = Sequence.ofLists <$> s.codec.nestedOfJson value) := by
  refine ⟨s.ofJson_toJson, fun hs v => ?_, fun v members key h => ?_,
    fun vss => ⟨rfl, s.codec.toJson_ofLists vss⟩, fun value => ⟨rfl, s.codec.ofJson_ofLists value⟩⟩
  · rw [ofJson_toJson, withoutFees_eq_self hs]
  · rw [Codec.ofJsonMember, Json.memberAs_of_lookup s.codec.ofJson h, ofJson_toJson]

/-- A transfer with a fee in the second member of an object, and a list of a blob of no bytes, which does not come
    back from its bytes. -/
theorem json_round_trip_member :
    let s := Schema.list .transfer
    let t : Transfer :=
      { version := 255, amount := .allOnes 64, fee := 5, unlock := true, inputs := [],
        outputs := ⟨[⟨[1, 2, 3, 4], rfl⟩]⟩ }
    let members := [("id", Json.null), ("moves", s.codec.toJson [t])]
    let hollow := Schema.list (.blob 0)
    members.lookup "moves" = some (s.codec.toJson [t]) ∧
      s.codec.ofJsonMember (.object members) "moves" = .ok [{ t with fee := 0 }] ∧
      hollow.OfBlobs ∧ hollow.codec.ofJson (hollow.codec.toJson [Blob.zero]) = .ok [Blob.zero] ∧
      hollow.codec.ofBytes [1] = .error (.invalidLength 1) := by
  intro s t members hollow
  have hlookup : members.lookup "moves" = some (s.codec.toJson [t]) := rfl
  obtain ⟨-, -, hmember, -⟩ := json_round_trip s
  obtain ⟨-, hblobs, -⟩ := json_round_trip hollow
  exact ⟨hlookup, hmember [t] members "moves" hlookup, trivial, hblobs trivial [Blob.zero], by decide⟩

end Schema

end WireFormat
