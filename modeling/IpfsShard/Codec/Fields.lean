import IpfsShard.Codec.RawFields

/-! The codec and the wire format: what the writers write are fields, and on any list of
fields below `2 ^ 31` each decoder loop is a fold over the list. -/

namespace IpfsShard.Codec
open Loop Cursor Wire

theorem writeVarintField_eq {num value : Nat} (h : (Field.varint num value).Below (2 ^ 31)) :
    writeVarintField num value = (Field.varint num value).encode := by
  obtain ⟨htag, hvalue⟩ := h
  simp only [Field.tag, Field.num, Field.wireType, Field.size] at htag hvalue
  have hshift : num <<< 3 ||| 0 = num * 8 + 0 := by
    rw [Nat.or_zero, Nat.shiftLeft_eq, Nat.add_zero]
  rw [writeVarintField, hshift, appendVarint_eq (by omega), appendVarint_eq (by omega)]
  rfl

theorem writeLenField_eq {num : Nat} {bytes : Bytes}
    (h : (Field.lenDelimited num bytes).Below (2 ^ 31)) :
    writeLenField num bytes = (Field.lenDelimited num bytes).encode := by
  obtain ⟨htag, hsize⟩ := h
  simp only [Field.tag, Field.num, Field.wireType, Field.size] at htag hsize
  have hshift : num <<< 3 ||| 2 = num * 8 + 2 := by
    rw [← Nat.shiftLeft_add_eq_or_of_lt (by decide), Nat.shiftLeft_eq]
  rw [writeLenField, hshift, appendVarint_eq (by omega), appendVarint_eq (by omega),
    List.append_assoc]
  rfl

def WantEntry.update (s : WantEntry) : Field → WantEntry
  | .lenDelimited num bytes => if num = 1 then { s with cidBytes := some bytes } else s
  | .varint num value =>
    if num = 3 then { s with cancel := (value : Int) != 0 }
    else if num = 4 then { s with wantType := value } else s

theorem wantEntry_updateRaw_raw {f : Field} (h : f.Below (2 ^ 31)) (s : WantEntry) :
    s.updateRaw (f.raw h) = s.update f := by
  cases f with
  | varint num value =>
    have hread : readNumeral (.ofNat value) = value := readNumeral_ofNat h.2
    simp only [WantEntry.update, ← hread]
    rfl
  | lenDelimited num bytes => rfl

theorem wantEntryLoop_consumes {fields : List Field} (h : ∀ f ∈ fields, f.Below (2 ^ 31)) :
    Consumes (wantEntryLoop (encode fields)) Field.encode (fun p s => { s with offset := p })
      WantEntry.update fields := by
  apply Consumes.of_offset (fun _ _ => rfl) Field.length_encode_pos
  intro f hf front back hsplit s
  have hwire : (f.raw (h f hf)).wireType = .varint ∨
      (f.raw (h f hf)).wireType = .lenDelimited := by
    cases f with
    | varint => exact Or.inl rfl
    | lenDelimited => exact Or.inr rfl
  have hpass := wantEntryPass_raw hwire front back s
  rw [Field.encode_raw, ← hsplit, wantEntry_updateRaw_raw] at hpass
  exact congrArg (fun t => some (Pass.next t)) hpass

theorem decodeWantEntry_fields {fields : List Field} (h : ∀ f ∈ fields, f.Below (2 ^ 31))
    {fuel : Nat} (hfuel : fields.length < fuel) :
    decodeWantEntry fuel (encode fields) =
      some { fields.foldl WantEntry.update {} with offset := (encode fields).length } :=
  (wantEntryLoop_consumes h).run {} hfuel

def PayloadBlock.update (s : PayloadBlock) : Field → PayloadBlock
  | .lenDelimited num bytes =>
    if num = 1 then { s with cidPrefix := some bytes }
    else if num = 2 then { s with data := some bytes } else s
  | .varint .. => s

theorem payloadBlock_updateRaw_raw {f : Field} (h : f.Below (2 ^ 31)) (s : PayloadBlock) :
    s.updateRaw (f.raw h) = s.update f := by
  cases f with
  | varint => rfl
  | lenDelimited => rfl

theorem payloadBlockLoop_consumes {fields : List Field} (h : ∀ f ∈ fields, f.Below (2 ^ 31))
    (hlen : ∀ f ∈ fields, f.wireType = 2) :
    Consumes (payloadBlockLoop (encode fields)) Field.encode (fun p s => { s with offset := p })
      PayloadBlock.update fields := by
  apply Consumes.of_offset (fun _ _ => rfl) Field.length_encode_pos
  intro f hf front back hsplit s
  have hwire : (f.raw (h f hf)).wireType = .lenDelimited := by
    cases f with
    | varint => exact absurd (hlen _ hf) (by simp [Field.wireType])
    | lenDelimited => rfl
  have hpass := payloadBlockPass_raw hwire front back s
  rw [Field.encode_raw, ← hsplit, payloadBlock_updateRaw_raw] at hpass
  exact congrArg (fun t => some (Pass.next t)) hpass

theorem decodePayloadBlock_fields {fields : List Field} (h : ∀ f ∈ fields, f.Below (2 ^ 31))
    (hlen : ∀ f ∈ fields, f.wireType = 2) {fuel : Nat} (hfuel : fields.length < fuel) :
    decodePayloadBlock fuel (encode fields) =
      some (fields.foldl PayloadBlock.update {}).block := by
  have hrun := (payloadBlockLoop_consumes h hlen).run {} hfuel
  rw [decodePayloadBlock, encode]
  exact congrArg (Option.map PayloadBlock.block) hrun

variable (M : Multiformats) (fuel : Nat)

inductive Wants : Field → List CID → Prop where
  | entry {bytes : Bytes} {entry : WantEntry} : decodeWantEntry fuel bytes = some entry →
      Wants (.lenDelimited 1 bytes) (wantedCid M entry).toList
  | varint {num value : Nat} : Wants (.varint num value) []

inductive Carries : Field → List CID → List Block → Prop where
  | wantlist {bytes : Bytes} {wants : List CID} :
      (∀ out, decodeWantlist M fuel bytes out = some (out ++ wants)) →
      Carries (.lenDelimited 1 bytes) wants []
  | payload {bytes : Bytes} {block : Option Block} : decodePayloadBlock fuel bytes = some block →
      Carries (.lenDelimited 3 bytes) [] block.toList
  | other {num : Nat} {bytes : Bytes} : num ≠ 1 → num ≠ 3 →
      Carries (.lenDelimited num bytes) [] []

variable {M fuel}

theorem Wants.adds {f : Field} {wants : List CID} (hw : Wants M fuel f wants)
    (h : f.Below (2 ^ 31)) : Adds M fuel (f.raw h) wants := by
  cases hw with
  | entry hentry => exact .entry rfl rfl hentry
  | varint => exact .varint rfl

theorem Carries.addsTo {f : Field} {wants : List CID} {blocks : List Block}
    (hc : Carries M fuel f wants blocks) (h : f.Below (2 ^ 31)) :
    AddsTo M fuel (f.raw h) wants blocks := by
  cases hc with
  | wantlist hwants => exact .wantlist rfl rfl hwants
  | payload hblock => exact .payload rfl rfl hblock
  | other h1 h3 => exact .other rfl h1 h3

variable {α : Type}

theorem decodeWantlist_fields (field : α → Field) (wants : α → List CID) {l : List α}
    (h : ∀ a ∈ l, (field a).Below (2 ^ 31)) (hw : ∀ a ∈ l, Wants M fuel (field a) (wants a))
    (hfuel : l.length < fuel) (out : List CID) :
    decodeWantlist M fuel (encode (l.map field)) out = some (out ++ l.flatMap wants) := by
  have hconsumes : Consumes (wantlistLoop M fuel (encode (l.map field)))
      (fun a => (field a).encode) (fun p out => ⟨p, out⟩) (fun out a => out ++ wants a) l := by
    rw [encode_map]
    apply Consumes.of_offset (fun _ _ => rfl) fun a => (field a).length_encode_pos
    intro a ha front back hsplit out
    have hbody := wantlistBody_raw ((hw a ha).adds (h a ha)) front back out
    rwa [Field.encode_raw, ← hsplit] at hbody
  have hrun := hconsumes.run out hfuel
  rw [List.foldl_append_eq_append] at hrun
  exact congrArg (Option.map (·.out)) hrun

theorem decodeMessage_fields (field : α → Field) (wants : α → List CID) (blocks : α → List Block)
    {l : List α} (h : ∀ a ∈ l, (field a).Below (2 ^ 31))
    (hc : ∀ a ∈ l, Carries M fuel (field a) (wants a) (blocks a)) (hfuel : l.length < fuel) :
    decodeMessage M fuel (encode (l.map field)) = some ⟨l.flatMap wants, l.flatMap blocks⟩ := by
  have hconsumes : Consumes (messageLoop M fuel (encode (l.map field)))
      (fun a => (field a).encode) (fun p out => ⟨p, out.1, out.2⟩)
      (fun out a => (out.1 ++ wants a, out.2 ++ blocks a)) l := by
    rw [encode_map]
    apply Consumes.of_offset (fun _ _ => rfl) fun a => (field a).length_encode_pos
    intro a ha front back hsplit out
    have hbody := messageBody_raw ((hc a ha).addsTo (h a ha)) front back ⟨0, out.1, out.2⟩
    rwa [Field.encode_raw, ← hsplit] at hbody
  have hrun := hconsumes.run ([], []) hfuel
  rw [foldl_append_pair] at hrun
  exact congrArg (Option.map fun s => DecodedMessage.mk s.wantBlocks s.blocks) hrun

end IpfsShard.Codec
