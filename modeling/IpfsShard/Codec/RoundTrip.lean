import IpfsShard.Codec.Fields

/-! Round trip of the codec: whatever wants and blocks were encoded one after the other,
`decodeMessage` gives them back. -/

namespace IpfsShard.Codec
open Wire

inductive Item where
  | want (cid : CID)
  | block (cid : CID) (data : Bytes)

namespace Item

def encode (M : Multiformats) : Item → Bytes
  | want cid => encodeWantBlock M cid
  | block cid data => encodeBlock cid data

def wants : Item → List CID
  | want cid => [cid]
  | block .. => []

def blocks : Item → List Block
  | want _ => []
  | block cid data => [⟨encodePrefix cid, data⟩]

end Item

/-- The codec of a version 1 CID fits in 31 bits. -/
def CodecBelow : CID → Prop
  | .v0 _ => True
  | .v1 code _ => 0 ≤ code ∧ code < 2 ^ 31

def entryFields (M : Multiformats) (cid : CID) : List Field :=
  [.lenDelimited 1 (M.bytes cid), .varint 2 1, .varint 4 0, .varint 5 1]

def wantlistFields (M : Multiformats) (cid : CID) : List Field :=
  [.lenDelimited 1 (encode (entryFields M cid)), .varint 2 0]

def fieldWants (cid : CID) : Field → List CID
  | .lenDelimited .. => [cid]
  | .varint .. => []

def blockFields (cid : CID) (data : Bytes) : List Field :=
  [.lenDelimited 1 (encodePrefix cid), .lenDelimited 2 data]

def Item.field (M : Multiformats) : Item → Field
  | want cid => .lenDelimited 1 (Wire.encode (wantlistFields M cid))
  | block cid data => .lenDelimited 3 (Wire.encode (blockFields cid data))

theorem below_lenDelimited {num : Nat} {bytes : Bytes} (hnum : num < 16)
    (h : bytes.length < 2 ^ 31) : (Field.lenDelimited num bytes).Below (2 ^ 31) := by
  refine ⟨?_, h⟩
  simp only [Field.tag, Field.num, Field.wireType]
  omega

theorem below_varint {num value : Nat} (hnum : num < 16) (h : value < 2 ^ 31) :
    (Field.varint num value).Below (2 ^ 31) := by
  refine ⟨?_, h⟩
  simp only [Field.tag, Field.num, Field.wireType]
  omega

variable {M : Multiformats} {cid : CID} {data : Bytes}

theorem entryFields_below (h : (M.bytes cid).length < 2 ^ 31) :
    ∀ f ∈ entryFields M cid, f.Below (2 ^ 31) := by
  simp only [entryFields, List.forall_mem_cons, List.not_mem_nil, false_implies, implies_true,
    and_true]
  exact ⟨below_lenDelimited (by decide) h, below_varint (by decide) (by decide),
    below_varint (by decide) (by decide), below_varint (by decide) (by decide)⟩

theorem wantlistFields_below (h : (encode (entryFields M cid)).length < 2 ^ 31) :
    ∀ f ∈ wantlistFields M cid, f.Below (2 ^ 31) := by
  simp only [wantlistFields, List.forall_mem_cons, List.not_mem_nil, false_implies, implies_true,
    and_true]
  exact ⟨below_lenDelimited (by decide) h, below_varint (by decide) (by decide)⟩

theorem blockFields_below (h : (encodePrefix cid).length < 2 ^ 31) (hdata : data.length < 2 ^ 31) :
    ∀ f ∈ blockFields cid data, f.Below (2 ^ 31) := by
  simp only [blockFields, List.forall_mem_cons, List.not_mem_nil, false_implies, implies_true,
    and_true]
  exact ⟨below_lenDelimited (by decide) h, below_lenDelimited (by decide) hdata⟩

theorem encodeWantBlock_eq (h : (encodeWantBlock M cid).length < 2 ^ 31) :
    encodeWantBlock M cid = ((Item.want cid).field M).encode ∧
      ((Item.want cid).field M).Below (2 ^ 31) ∧
      (∀ f ∈ wantlistFields M cid, f.Below (2 ^ 31)) ∧
      ∀ f ∈ entryFields M cid, f.Below (2 ^ 31) := by
  have hcid : (M.bytes cid).length < 2 ^ 31 := by
    simp only [encodeWantBlock, concatBytes, writeLenField, List.flatten_cons,
      List.length_append] at h
    omega
  have hentryFields := entryFields_below hcid
  have hentry : concatBytes [writeLenField 1 (M.bytes cid), writeVarintField 2 1,
      writeVarintField 4 0, writeVarintField 5 1] = encode (entryFields M cid) := by
    have h₁ : writeVarintField 2 1 = (Field.varint 2 1).encode :=
      writeVarintField_eq (hentryFields _ (by simp [entryFields]))
    have h₂ : writeVarintField 4 0 = (Field.varint 4 0).encode :=
      writeVarintField_eq (hentryFields _ (by simp [entryFields]))
    have h₃ : writeVarintField 5 1 = (Field.varint 5 1).encode :=
      writeVarintField_eq (hentryFields _ (by simp [entryFields]))
    rw [writeLenField_eq (below_lenDelimited (by decide) hcid), h₁, h₂, h₃]
    simp [concatBytes, entryFields]
  simp only [encodeWantBlock, hentry] at h ⊢
  have hwantlistFields : ∀ f ∈ wantlistFields M cid, f.Below (2 ^ 31) := by
    simp only [concatBytes, writeLenField, List.flatten_cons, List.length_append] at h
    exact wantlistFields_below (by omega)
  have hwantlist : concatBytes [writeLenField 1 (encode (entryFields M cid)),
      writeVarintField 2 0] = encode (wantlistFields M cid) := by
    have h₁ : writeVarintField 2 0 = (Field.varint 2 0).encode :=
      writeVarintField_eq (hwantlistFields _ (by simp [wantlistFields]))
    rw [writeLenField_eq (hwantlistFields _ (by simp [wantlistFields])), h₁]
    simp [concatBytes, wantlistFields]
  rw [hwantlist] at h ⊢
  have hfield : ((Item.want cid).field M).Below (2 ^ 31) := below_lenDelimited (by decide) (by
    simp only [writeLenField, List.length_append] at h
    omega)
  exact ⟨writeLenField_eq hfield, hfield, hwantlistFields, hentryFields⟩

theorem encodeBlock_eq (h : (encodeBlock cid data).length < 2 ^ 31) :
    encodeBlock cid data = ((Item.block cid data).field M).encode ∧
      ((Item.block cid data).field M).Below (2 ^ 31) ∧
      ∀ f ∈ blockFields cid data, f.Below (2 ^ 31) := by
  have hblockFields : ∀ f ∈ blockFields cid data, f.Below (2 ^ 31) := by
    simp only [encodeBlock, concatBytes, writeLenField, List.flatten_cons, List.length_append] at h
    exact blockFields_below (by omega) (by omega)
  have hblock : concatBytes [writeLenField 1 (encodePrefix cid), writeLenField 2 data] =
      encode (blockFields cid data) := by
    rw [writeLenField_eq (hblockFields _ (by simp [blockFields])),
      writeLenField_eq (hblockFields _ (by simp [blockFields]))]
    simp [concatBytes, blockFields]
  simp only [encodeBlock, hblock] at h ⊢
  have hfield : ((Item.block cid data).field M).Below (2 ^ 31) := below_lenDelimited (by decide) (by
    simp only [writeLenField, List.length_append] at h
    omega)
  exact ⟨writeLenField_eq hfield, hfield, hblockFields⟩

variable {fuel : Nat}

theorem carries_want (hdecode : M.decode (M.bytes cid) = some cid)
    (h : (encodeWantBlock M cid).length < 2 ^ 31) (hfuel : 4 < fuel) :
    Carries M fuel ((Item.want cid).field M) [cid] [] := by
  obtain ⟨-, -, hwantlist, hentry⟩ := encodeWantBlock_eq h
  refine Carries.wantlist fun out => ?_
  have hwants : ∀ f ∈ wantlistFields M cid, Wants M fuel f (fieldWants cid f) := by
    simp only [wantlistFields, List.forall_mem_cons, List.not_mem_nil, false_implies, implies_true,
      and_true]
    refine ⟨?_, Wants.varint⟩
    have hdecoded := Wants.entry (M := M) (decodeWantEntry_fields hentry hfuel)
    simpa [entryFields, WantEntry.update, wantedCid, hdecode, fieldWants] using hdecoded
  have hlength : (wantlistFields M cid).length < fuel := by
    simp only [wantlistFields, List.length_cons, List.length_nil]
    omega
  have hdecoded := decodeWantlist_fields id _ hwantlist hwants hlength out
  simpa [wantlistFields, fieldWants] using hdecoded

theorem carries_block (h : (encodeBlock cid data).length < 2 ^ 31) (hfuel : 4 < fuel) :
    Carries M fuel ((Item.block cid data).field M) [] [⟨encodePrefix cid, data⟩] := by
  obtain ⟨-, -, hblock⟩ := encodeBlock_eq (M := M) h
  have hlength : (blockFields cid data).length < fuel := by
    simp only [blockFields, List.length_cons, List.length_nil]
    omega
  have hlen : ∀ f ∈ blockFields cid data, f.wireType = 2 := by
    simp [blockFields, Field.wireType]
  exact Carries.payload (decodePayloadBlock_fields hblock hlen hlength)

theorem prefixToCID_encodePrefix (hcodec : CodecBelow cid) (h : cid.multihash = M.sha256 data) :
    prefixToCID M (encodePrefix cid) data = some cid := by
  obtain ⟨version, code, hversion, hcode, hv, hc⟩ :
      ∃ version code : Nat, cid.version = version ∧ cid.code = code ∧ version < 2 ∧
        code < 2 ^ 31 := by
    cases cid with
    | v0 mh => exact ⟨0, 0x70, rfl, rfl, by decide, by decide⟩
    | v1 code mh =>
      obtain ⟨hnonneg, hlt⟩ := hcodec
      exact ⟨1, code.toNat, rfl, (Int.toNat_of_nonneg hnonneg).symm, by decide, by omega⟩
  have hencoded : encodePrefix cid = Leb128.encode version ++ (Leb128.encode code ++
      (Leb128.encode sha256Code ++ appendVarint cid.multihash.digest.length)) := by
    rw [encodePrefix, hversion, hcode, show cid.multihash.code = sha256Code by rw [h]; rfl,
      appendVarint_eq (by omega), appendVarint_eq (by omega), appendVarint_eq (by decide)]
    simp only [List.append_assoc]
  have h₁ := readVarint_encode [] (Leb128.encode code ++
    (Leb128.encode sha256Code ++ appendVarint cid.multihash.digest.length))
    (show version < 2 ^ 31 by omega)
  have h₂ := readVarint_encode (Leb128.encode version)
    (Leb128.encode sha256Code ++ appendVarint cid.multihash.digest.length) hc
  have h₃ := readVarint_encode (Leb128.encode version ++ Leb128.encode code)
    (appendVarint cid.multihash.digest.length) (show sha256Code < 2 ^ 31 by decide)
  simp only [List.nil_append, List.length_nil, List.append_assoc, List.length_append,
    Int.natCast_add, Int.natCast_zero] at h₁ h₂ h₃
  rw [prefixToCID, hencoded]
  simp only [h₁, h₂, h₃, ne_eq, not_true_eq_false, if_false]
  cases cid with
  | v0 mh =>
    rw [if_pos (by simpa [CID.version] using hversion.symm), ← h]
    rfl
  | v1 code' mh =>
    rw [if_neg (by simp [CID.version] at hversion; omega), ← h, ← hcode]
    rfl

/-- What a correct sender encodes: the CID of a block is the sha2-256 CID of its data. -/
def Item.Valid (M : Multiformats) : Item → Prop
  | want cid => CodecBelow cid
  | block cid data => CodecBelow cid ∧ cid.multihash = M.sha256 data

theorem decodeMessage_encode {items : List Item} (hvalid : ∀ item ∈ items, item.Valid M)
    (hdecode : ∀ cid, Item.want cid ∈ items → M.decode (M.bytes cid) = some cid)
    (hlength : (concatBytes (items.map (Item.encode M))).length < 2 ^ 31) :
    DecodesTo M (concatBytes (items.map (Item.encode M)))
        ⟨items.flatMap Item.wants, items.flatMap Item.blocks⟩ ∧
      ∀ cid data, Item.block cid data ∈ items →
        prefixToCID M (encodePrefix cid) data = some cid := by
  constructor
  · have hitem : ∀ item ∈ items, (item.encode M).length < 2 ^ 31 := by
      intro item hmem
      have hsub := List.sublist_flatten_of_mem (List.mem_map_of_mem (f := Item.encode M) hmem)
      exact Nat.lt_of_le_of_lt hsub.length_le hlength
    have hfield : ∀ item ∈ items, item.encode M = (item.field M).encode ∧
        (item.field M).Below (2 ^ 31) ∧
        Carries M (items.length + 5) (item.field M) item.wants item.blocks := by
      intro item hmem
      have hlt := hitem item hmem
      cases item with
      | want cid =>
        obtain ⟨he, hb, -, -⟩ := encodeWantBlock_eq hlt
        exact ⟨he, hb, carries_want (hdecode cid hmem) hlt (by omega)⟩
      | block cid data =>
        obtain ⟨he, hb, -⟩ := encodeBlock_eq hlt
        exact ⟨he, hb, carries_block hlt (by omega)⟩
    have hbytes : concatBytes (items.map (Item.encode M)) = encode (items.map (Item.field M)) := by
      rw [concatBytes, encode, List.flatMap_map, List.flatMap_def,
        List.map_congr_left fun item hmem => (hfield item hmem).1]
    refine ⟨items.length + 5, ?_⟩
    rw [hbytes]
    exact decodeMessage_fields _ _ _ (fun item hmem => (hfield item hmem).2.1)
      (fun item hmem => (hfield item hmem).2.2) (by omega)
  · intro cid data hmem
    exact prefixToCID_encodePrefix (hvalid _ hmem).1 (hvalid _ hmem).2

open Multiformats in
theorem decodeMessage_encode_emptyRaw :
    DecodesTo onEmptyBlock
        (concatBytes ([Item.want emptyRaw, .block emptyRaw []].map (Item.encode onEmptyBlock)))
        ⟨[emptyRaw], [⟨[0x01, 0x55, 0x12, 0x20], []⟩]⟩ ∧
      prefixToCID onEmptyBlock [0x01, 0x55, 0x12, 0x20] [] = some emptyRaw := by
  have hcodec : CodecBelow emptyRaw := ⟨by decide, by decide⟩
  have hdecode : onEmptyBlock.decode (onEmptyBlock.bytes emptyRaw) = some emptyRaw := by
    decide +kernel
  have hhash : emptyRaw.multihash = onEmptyBlock.sha256 [] := rfl
  have hencoded : encodePrefix emptyRaw = [0x01, 0x55, 0x12, 0x20] := by decide +kernel
  have hvalid : ∀ item ∈ [Item.want emptyRaw, .block emptyRaw []], item.Valid onEmptyBlock := by
    simp [Item.Valid, hcodec, hhash]
  have h := decodeMessage_encode hvalid (by simpa using hdecode) (by decide +kernel)
  rw [← hencoded]
  exact ⟨h.1, h.2 emptyRaw [] (by simp)⟩

end IpfsShard.Codec
