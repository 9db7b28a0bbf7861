import IpfsShard.Codec.RawFields

/-! Wantlists as any implementation writes them: the entries have their fields in the order of
the field numbers, and each field may be there or not. -/

namespace IpfsShard.Codec
open Wire

/-- An entry as it is serialised. A priority is an int32, which takes ten bytes where it is
negative. -/
structure Entry where
  block : Option { bytes : Bytes // bytes.length < 2 ^ 31 }
  priority : Option { p : Int // -2 ^ 31 ≤ p ∧ p < 2 ^ 31 }
  cancel : Option Bool
  wantType : Option { n : Nat // n < 2 ^ 31 }
  sendDontHave : Option Bool

namespace Entry

def blockField (b : { bytes : Bytes // bytes.length < 2 ^ 31 }) : RawField :=
  .ofBytes 1 b.1 b.2

def priorityField (p : { p : Int // -2 ^ 31 ≤ p ∧ p < 2 ^ 31 }) : RawField :=
  .ofVarint 2 (p.1 % 2 ^ 64).toNat

def cancelField (b : Bool) : RawField := .ofVarint 3 b.toNat

def wantTypeField (n : { n : Nat // n < 2 ^ 31 }) : RawField := .ofVarint 4 n.1

def sendDontHaveField (b : Bool) : RawField := .ofVarint 5 b.toNat

def fields (e : Entry) : List RawField :=
  (e.block.map blockField).toList ++ (e.priority.map priorityField).toList ++
    (e.cancel.map cancelField).toList ++ (e.wantType.map wantTypeField).toList ++
    (e.sendDontHave.map sendDontHaveField).toList

/-- The block that the entry wants: it is not cancelled, the want type is that of a block, and
the bytes are those of a CID. -/
def wanted (M : Multiformats) (e : Entry) : Option CID :=
  if e.cancel.getD false = false ∧ (e.wantType.map (·.1)).getD 0 = 0 then
    e.block.bind fun b => M.decode b.1
  else none

end Entry

abbrev ShortEntry := { e : Entry // (encodeRaw e.fields).length < 2 ^ 31 }

def entryField (e : ShortEntry) : RawField := .ofBytes 1 (encodeRaw e.1.fields) e.2

def fullField (full : Bool) : RawField := .ofVarint 2 full.toNat

def listFields (entries : List ShortEntry) (full : Option Bool) : List RawField :=
  entries.map entryField ++ (full.map fullField).toList

def wantlistField (bytes : Bytes) (h : bytes.length < 2 ^ 31) : RawField :=
  .ofBytes 1 bytes h

variable {M : Multiformats}

theorem filterMap_toList {α β γ : Type} (o : Option α) (g : α → β) (v : β → Option γ) :
    (o.map g).toList.filterMap v = (o.bind fun a => v (g a)).toList := by
  cases o with
  | none => rfl
  | some a =>
    rw [Option.map_some, Option.toList_some, List.filterMap_cons]
    cases hv : v (g a) <;> simp [hv]

theorem updateRaw_eq (s : WantEntry) (f : RawField) :
    (s.updateRaw f).cidBytes = ((f.bytesOf 1).map some).getD s.cidBytes ∧
      (s.updateRaw f).cancel =
        ((f.varintOf 3).map fun value => readNumeral value != 0).getD s.cancel ∧
      (s.updateRaw f).wantType = ((f.varintOf 4).map readNumeral).getD s.wantType := by
  unfold WantEntry.updateRaw RawField.bytesOf RawField.varintOf RawField.wireType RawField.body
  cases f.payload with
  | varint value =>
    simp only [WantEntry.take, Payload.wireType]
    by_cases h3 : f.num = 3
    · simp [h3]
    · by_cases h4 : f.num = 4 <;> simp [h3, h4]
  | lenDelimited length bytes =>
    simp only [WantEntry.take, Payload.wireType, Payload.body]
    by_cases h1 : f.num = 1 <;> simp [h1]
  | fixed64 bytes => simp [WantEntry.take, Payload.wireType]
  | fixed32 bytes => simp [WantEntry.take, Payload.wireType]

theorem foldl_updateRaw (fields : List RawField) :
    let entry := fields.foldl WantEntry.updateRaw {}
    entry.cidBytes = (fields.filterMap (RawField.bytesOf 1)).getLast? ∧
      entry.cancel = ((fields.filterMap (RawField.varintOf 3)).getLast?.map
        fun value => readNumeral value != 0).getD false ∧
      entry.wantType =
        ((fields.filterMap (RawField.varintOf 4)).getLast?.map readNumeral).getD 0 := by
  have hcidBytes := foldl_last WantEntry.cidBytes (RawField.bytesOf 1) some
    WantEntry.updateRaw (fun s f => (updateRaw_eq s f).1) fields {}
  have hcancel := foldl_last WantEntry.cancel (RawField.varintOf 3)
    (fun value => readNumeral value != 0) WantEntry.updateRaw
    (fun s f => (updateRaw_eq s f).2.1) fields {}
  have hwantType := foldl_last WantEntry.wantType (RawField.varintOf 4) readNumeral
    WantEntry.updateRaw (fun s f => (updateRaw_eq s f).2.2) fields {}
  refine ⟨hcidBytes.trans ?_, hcancel, hwantType⟩
  cases (fields.filterMap (RawField.bytesOf 1)).getLast? <;> rfl

namespace Entry

theorem handled (e : Entry) :
    ∀ f ∈ e.fields, f.wireType = .varint ∨ f.wireType = .lenDelimited := by
  intro f hf
  simp only [fields, List.mem_append, Option.mem_toList, Option.map_eq_some_iff] at hf
  rcases hf with (((⟨_, -, rfl⟩ | ⟨_, -, rfl⟩) | ⟨_, -, rfl⟩) | ⟨_, -, rfl⟩) | ⟨_, -, rfl⟩
  · exact Or.inr rfl
  all_goals exact Or.inl rfl

theorem filterMap_fields {γ : Type} (v : RawField → Option γ) (e : Entry) : e.fields.filterMap v =
    (e.block.bind fun b => v (blockField b)).toList ++
      (e.priority.bind fun p => v (priorityField p)).toList ++
      (e.cancel.bind fun b => v (cancelField b)).toList ++
      (e.wantType.bind fun n => v (wantTypeField n)).toList ++
      (e.sendDontHave.bind fun b => v (sendDontHaveField b)).toList := by
  simp only [fields, List.filterMap_append, filterMap_toList]

theorem block_fields (e : Entry) :
    e.fields.filterMap (RawField.bytesOf 1) = (e.block.map (·.1)).toList := by
  rw [filterMap_fields]
  show (e.block.bind fun b => some b.1).toList ++ (e.priority.bind fun _ => none).toList ++
    (e.cancel.bind fun _ => none).toList ++ (e.wantType.bind fun _ => none).toList ++
    (e.sendDontHave.bind fun _ => none).toList = _
  simp [Option.map_eq_bind]

theorem cancel_fields (e : Entry) : e.fields.filterMap (RawField.varintOf 3) =
    (e.cancel.map fun b => Leb128.Numeral.ofNat b.toNat).toList := by
  rw [filterMap_fields]
  show (e.block.bind fun _ => none).toList ++ (e.priority.bind fun _ => none).toList ++
    (e.cancel.bind fun b => some (Leb128.Numeral.ofNat b.toNat)).toList ++
    (e.wantType.bind fun _ => none).toList ++ (e.sendDontHave.bind fun _ => none).toList = _
  simp [Option.map_eq_bind]

theorem wantType_fields (e : Entry) : e.fields.filterMap (RawField.varintOf 4) =
    (e.wantType.map fun n => Leb128.Numeral.ofNat n.1).toList := by
  rw [filterMap_fields]
  show (e.block.bind fun _ => none).toList ++ (e.priority.bind fun _ => none).toList ++
    (e.cancel.bind fun _ => none).toList ++
    (e.wantType.bind fun n => some (Leb128.Numeral.ofNat n.1)).toList ++
    (e.sendDontHave.bind fun _ => none).toList = _
  simp [Option.map_eq_bind]

theorem readNumeral_toNat (b : Bool) : (readNumeral (.ofNat b.toNat) != 0) = b := by
  have hlt : b.toNat < 2 ^ 31 := by
    cases b <;> decide
  rw [readNumeral_ofNat hlt]
  cases b <;> rfl

theorem decode (e : Entry) {fuel : Nat} (h : (encodeRaw e.fields).length < fuel) :
    ∃ entry, decodeWantEntry fuel (encodeRaw e.fields) = some entry ∧
      wantedCid M entry = e.wanted M := by
  obtain ⟨hcidBytes, hcancel, hwantType⟩ := foldl_updateRaw e.fields
  rw [e.block_fields] at hcidBytes
  rw [e.cancel_fields] at hcancel
  rw [e.wantType_fields] at hwantType
  have hbytes : (e.fields.foldl WantEntry.updateRaw {}).cidBytes = e.block.map (·.1) := by
    rw [hcidBytes]
    cases e.block <;> rfl
  have hflag : (e.fields.foldl WantEntry.updateRaw {}).cancel = e.cancel.getD false := by
    rw [hcancel]
    cases e.cancel with
    | none => rfl
    | some b => exact readNumeral_toNat b
  have htype : (e.fields.foldl WantEntry.updateRaw {}).wantType =
      ((e.wantType.map (·.1)).getD 0 : Nat) := by
    rw [hwantType]
    cases e.wantType with
    | none => rfl
    | some n => exact readNumeral_ofNat n.2
  refine ⟨_, decodeWantEntry_raw e.handled h, ?_⟩
  simp only [wantedCid, hbytes, hflag, htype, wanted]
  cases e.block with
  | none => simp
  | some b => simp [Bool.and_eq_true]

end Entry

theorem entryField_listField (e : ShortEntry) : ListField (entryField e) := by
  refine Or.inr ⟨rfl, rfl, ?_⟩
  refine ⟨_, fun fuel hfuel => decodeWantEntry_raw e.1.handled hfuel⟩

theorem wantsOf_entryField (e : ShortEntry) : wantsOf M (entryField e) = (e.1.wanted M).toList := by
  obtain ⟨entry, hentry, hwanted⟩ := e.1.decode (M := M) (Nat.lt_succ_self _)
  have hif : wantsOf M (entryField e) = ((decodeWantEntry ((encodeRaw e.1.fields).length + 1)
      (encodeRaw e.1.fields)).bind (wantedCid M)).toList := if_pos ⟨rfl, rfl⟩
  rw [hif, hentry, Option.bind_some, hwanted]

theorem wantsOf_fullField (full : Bool) : wantsOf M (fullField full) = [] :=
  if_neg fun h => nomatch h.2

section Wantlist

variable (entries : List ShortEntry) (full : Option Bool)

theorem listFields_listField : ∀ f ∈ listFields entries full, ListField f := by
  intro f hf
  rw [listFields, List.mem_append, List.mem_map, Option.mem_toList, Option.map_eq_some_iff] at hf
  rcases hf with ⟨e, -, rfl⟩ | ⟨b, -, rfl⟩
  · exact entryField_listField e
  · exact Or.inl rfl

theorem flatMap_wantsOf : (listFields entries full).flatMap (wantsOf M) =
    entries.filterMap fun e => e.1.wanted M := by
  have hfull : ((full.map fullField).toList).flatMap (wantsOf M) = [] := by
    cases full with
    | none => rfl
    | some b => exact (List.append_nil _).trans (wantsOf_fullField b)
  rw [listFields, List.flatMap_append, hfull, List.append_nil, List.flatMap_map,
    List.filterMap_eq_flatMap_toList]
  exact congrArg (entries.flatMap ·) (funext wantsOf_entryField)

variable {entries full}

/-- The decoder finds the wanted blocks of a wantlist, and nothing else. -/
theorem decodeMessage_wantlist (h : (encodeRaw (listFields entries full)).length < 2 ^ 31) :
    DecodesTo M (encodeRaw [wantlistField (encodeRaw (listFields entries full)) h])
      ⟨entries.filterMap fun e => e.1.wanted M, []⟩ := by
  have hdecode : ∀ fuel, (encodeRaw (listFields entries full)).length < fuel → ∀ out,
      decodeWantlist M fuel (encodeRaw (listFields entries full)) out =
        some (out ++ entries.filterMap fun e => e.1.wanted M) := by
    intro fuel hfuel out
    rw [decodeWantlist_raw (listFields_listField entries full) hfuel, flatMap_wantsOf]
  have hfield : ∀ f ∈ [wantlistField _ h], MessageField M f := by
    rw [List.forall_mem_singleton]
    exact ⟨rfl, fun _ => ⟨_, hdecode⟩, nofun⟩
  have hwants : wantlistOf M (wantlistField _ h) = entries.filterMap fun e => e.1.wanted M := by
    have hif : wantlistOf M (wantlistField _ h) =
        (decodeWantlist M ((encodeRaw (listFields entries full)).length + 1)
          (encodeRaw (listFields entries full)) []).getD [] := if_pos ⟨rfl, rfl⟩
    rw [hif, hdecode _ (Nat.lt_succ_self _)]
    rfl
  have hblocks : blocksOf (wantlistField _ h) = [] := if_neg fun h => nomatch h.1
  refine ⟨_, (decodeMessage_raw hfield (Nat.lt_succ_self _)).trans ?_⟩
  rw [List.flatMap_singleton, List.flatMap_singleton, hwants, hblocks]

end Wantlist

open Multiformats in
theorem decodeMessage_wantlist_five :
    ∃ entries : List ShortEntry, entries.length = 5 ∧
      ∃ h : (encodeRaw (listFields entries (some true))).length < 2 ^ 31,
        DecodesTo onEmptyBlock
          (encodeRaw [wantlistField (encodeRaw (listFields entries (some true))) h])
          ⟨[emptyRaw], []⟩ := by
  let block : { bytes : Bytes // bytes.length < 2 ^ 31 } :=
    ⟨encodeCid emptyRaw, by decide +kernel⟩
  let entries : List ShortEntry :=
    [⟨⟨some block, some ⟨-1, by decide⟩, some false, none, some true⟩, by decide +kernel⟩,
      ⟨⟨some block, none, some true, none, none⟩, by decide +kernel⟩,
      ⟨⟨some block, none, none, some ⟨1, by decide⟩, none⟩, by decide +kernel⟩,
      ⟨⟨some ⟨[0xFF], by decide⟩, none, none, none, none⟩, by decide +kernel⟩,
      ⟨⟨none, none, none, none, none⟩, by decide +kernel⟩]
  have h : (encodeRaw (listFields entries (some true))).length < 2 ^ 31 := by
    decide +kernel
  have hwanted : entries.filterMap (fun e => e.1.wanted onEmptyBlock) = [emptyRaw] := by
    decide +kernel
  refine ⟨entries, rfl, h, ?_⟩
  rw [← hwanted]
  exact decodeMessage_wantlist h

end IpfsShard.Codec
