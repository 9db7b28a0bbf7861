import IpfsShard.Codec.BitswapCodec
import IpfsShard.Lib.Cursor
import IpfsShard.Lib.Wire

/-! The decoder loops on the fields of the wire format: the readers give the parts of a field,
and a pass over a field of a kind that the loop handles ends behind the field. -/

namespace IpfsShard.Codec
open Loop Cursor Wire

/-- The field number `tag >> 3` of a signed 32-bit tag. -/
def signedNum (num : Nat) : Int := if num < 2 ^ 28 then num else num - 2 ^ 29

theorem signedNum_eq_iff {num k : Nat} (hk : k < 2 ^ 28) (h : num < 2 ^ 29) :
    signedNum num = k ↔ num = k := by
  unfold signedNum
  split <;> omega

theorem readTag_raw (f : RawField) (front back : Bytes) :
    readTag (front ++ (f.encode ++ back)) front.length =
      ⟨signedNum f.num, f.wireType.code, (front ++ f.tag.bytes).length⟩ := by
  have hcode : f.wireType.code < 8 := by
    cases f.wireType <;> decide
  have htag : f.tag.value = f.num * 8 + f.wireType.code := f.tag_eq
  have hlt := f.num_lt
  have hread := readVarint_numeral front (f.payload.encode ++ back) f.tag
  rw [readNumeral_eq (show f.tag.value < 2 ^ 32 by omega), htag, BitVec.toInt_eq_toNat_cond,
    BitVec.toNat_ofNat, Nat.mod_eq_of_lt (show f.num * 8 + f.wireType.code < 2 ^ 32 by omega)]
    at hread
  simp only [readTag, RawField.encode, List.append_assoc, hread, List.length_append, Tag.mk.injEq]
  refine ⟨?_, ?_, by omega⟩
  · unfold signedNum
    split_ifs <;> omega
  · split_ifs <;> omega

theorem append_encode (f : RawField) (front back : Bytes) :
    front ++ (f.encode ++ back) = front ++ f.tag.bytes ++ (f.payload.encode ++ back) := by
  simp only [RawField.encode, List.append_assoc]

theorem append_encode_end (f : RawField) (front : Bytes) :
    front ++ f.encode = front ++ f.tag.bytes ++ f.payload.encode := by
  simp only [RawField.encode, List.append_assoc]

theorem readVarint_payload (front back : Bytes) (value : Leb128.Numeral) :
    readVarint (front ++ ((Payload.varint value).encode ++ back)) front.length =
      (readNumeral value, value.bytes.length) :=
  readVarint_numeral front back value

theorem skipVarint_payload (front back : Bytes) (value : Leb128.Numeral) :
    skipVarint (front ++ ((Payload.varint value).encode ++ back)) front.length =
      (front ++ (Payload.varint value).encode).length := by
  rw [skipVarint, readVarint_payload, List.length_append, Int.natCast_add]
  rfl

theorem readLenDelimited_payload (front back : Bytes) {length : Leb128.Numeral} {bytes : Bytes}
    (heq : length.value = bytes.length) (hlt : bytes.length < 2 ^ 31) :
    readLenDelimited (front ++ ((Payload.lenDelimited length bytes heq hlt).encode ++ back))
        front.length =
      (bytes, ((front ++ (Payload.lenDelimited length bytes heq hlt).encode).length : Int)) := by
  have hread := readVarint_numeral front (bytes ++ back) length
  have hslice := slice_append (front ++ length.bytes) bytes back
  rw [readNumeral_of_lt (heq ▸ hlt), heq] at hread
  simp only [Payload.encode, List.append_assoc, List.length_append, Int.natCast_add] at hslice ⊢
  simp only [readLenDelimited, hread, hslice, Prod.mk.injEq, true_and]
  omega

theorem foldl_append_pair {α β γ : Type} (left : α → List β) (right : α → List γ) (l : List α)
    (out : List β × List γ) :
    l.foldl (fun out a => (out.1 ++ left a, out.2 ++ right a)) out =
      (out.1 ++ l.flatMap left, out.2 ++ l.flatMap right) := by
  induction l generalizing out with
  | nil => simp
  | cons a l ih => simp [ih]

def WantEntry.take (s : WantEntry) (num : Nat) : Payload → WantEntry
  | .lenDelimited _ bytes _ _ => if num = 1 then { s with cidBytes := some bytes } else s
  | .varint value =>
    if num = 3 then { s with cancel := readNumeral value != 0 }
    else if num = 4 then { s with wantType := readNumeral value } else s
  | _ => s

def WantEntry.updateRaw (s : WantEntry) (f : RawField) : WantEntry := s.take f.num f.payload

theorem wantEntryPass_raw {f : RawField} (h : f.wireType = .varint ∨ f.wireType = .lenDelimited)
    (front back : Bytes) (s : WantEntry) :
    wantEntryPass (front ++ (f.encode ++ back)) { s with offset := front.length } =
      { s.updateRaw f with offset := (front ++ f.encode).length } := by
  have h1 := signedNum_eq_iff (k := 1) (by decide) f.num_lt
  have h3 := signedNum_eq_iff (k := 3) (by decide) f.num_lt
  have h4 := signedNum_eq_iff (k := 4) (by decide) f.num_lt
  simp only [wantEntryPass, readTag_raw, WantEntry.updateRaw, append_encode_end]
  simp only [append_encode]
  rcases h with hwire | hwire
  · obtain ⟨value, hp⟩ := RawField.exists_varint hwire
    simp only [hwire, hp, WireType.code, readVarint_payload, skipVarint_payload, WantEntry.take]
    split_ifs <;> first | rfl | omega
  · obtain ⟨length, heq, hlt, hp⟩ := RawField.exists_lenDelimited hwire
    simp only [hwire, hp, WireType.code, readLenDelimited_payload, WantEntry.take]
    split_ifs <;> first | rfl | omega

theorem wantEntryLoop_raw {fields : List RawField}
    (h : ∀ f ∈ fields, f.wireType = .varint ∨ f.wireType = .lenDelimited) :
    Consumes (wantEntryLoop (encodeRaw fields)) RawField.encode (fun p s => { s with offset := p })
      WantEntry.updateRaw fields := by
  apply Consumes.of_offset (fun _ _ => rfl) RawField.length_encode_pos
  intro f hf front back hsplit s
  have hpass := wantEntryPass_raw (h f hf) front back s
  rw [← hsplit] at hpass
  exact congrArg (fun t => some (Pass.next t)) hpass

theorem decodeWantEntry_raw {fields : List RawField}
    (h : ∀ f ∈ fields, f.wireType = .varint ∨ f.wireType = .lenDelimited) {fuel : Nat}
    (hfuel : (encodeRaw fields).length < fuel) :
    decodeWantEntry fuel (encodeRaw fields) =
      some { fields.foldl WantEntry.updateRaw {} with offset := (encodeRaw fields).length } :=
  (wantEntryLoop_raw h).run {} (Nat.lt_of_le_of_lt (length_le_encodeRaw fields) hfuel)

def PayloadBlock.take (s : PayloadBlock) (num : Nat) : Payload → PayloadBlock
  | .lenDelimited _ bytes _ _ =>
    if num = 1 then { s with cidPrefix := some bytes }
    else if num = 2 then { s with data := some bytes } else s
  | _ => s

def PayloadBlock.updateRaw (s : PayloadBlock) (f : RawField) : PayloadBlock :=
  s.take f.num f.payload

theorem payloadBlockPass_raw {f : RawField} (h : f.wireType = .lenDelimited) (front back : Bytes)
    (s : PayloadBlock) :
    payloadBlockPass (front ++ (f.encode ++ back)) { s with offset := front.length } =
      { s.updateRaw f with offset := (front ++ f.encode).length } := by
  have h1 := signedNum_eq_iff (k := 1) (by decide) f.num_lt
  have h2 := signedNum_eq_iff (k := 2) (by decide) f.num_lt
  obtain ⟨length, heq, hlt, hp⟩ := RawField.exists_lenDelimited h
  simp only [payloadBlockPass, readTag_raw, PayloadBlock.updateRaw, append_encode_end]
  simp only [append_encode]
  simp only [h, hp, WireType.code, readLenDelimited_payload, PayloadBlock.take]
  split_ifs <;> first | rfl | omega

theorem payloadBlockLoop_raw {fields : List RawField}
    (h : ∀ f ∈ fields, f.wireType = .lenDelimited) :
    Consumes (payloadBlockLoop (encodeRaw fields)) RawField.encode
      (fun p s => { s with offset := p }) PayloadBlock.updateRaw fields := by
  apply Consumes.of_offset (fun _ _ => rfl) RawField.length_encode_pos
  intro f hf front back hsplit s
  have hpass := payloadBlockPass_raw (h f hf) front back s
  rw [← hsplit] at hpass
  exact congrArg (fun t => some (Pass.next t)) hpass

theorem decodePayloadBlock_raw {fields : List RawField}
    (h : ∀ f ∈ fields, f.wireType = .lenDelimited) {fuel : Nat}
    (hfuel : (encodeRaw fields).length < fuel) :
    decodePayloadBlock fuel (encodeRaw fields) =
      some (fields.foldl PayloadBlock.updateRaw {}).block := by
  have hrun := (payloadBlockLoop_raw h).run {}
    (Nat.lt_of_le_of_lt (length_le_encodeRaw fields) hfuel)
  rw [decodePayloadBlock, encodeRaw]
  exact congrArg (Option.map PayloadBlock.block) hrun

variable (M : Multiformats)

def wantsOf (f : RawField) : List CID :=
  if f.num = 1 ∧ f.wireType = .lenDelimited then
    ((decodeWantEntry (f.body.length + 1) f.body).bind (wantedCid M)).toList
  else []

def wantlistOf (f : RawField) : List CID :=
  if f.num = 1 ∧ f.wireType = .lenDelimited then
    (decodeWantlist M (f.body.length + 1) f.body []).getD []
  else []

def blocksOf (f : RawField) : List Block :=
  if f.num = 3 ∧ f.wireType = .lenDelimited then
    (decodePayloadBlock (f.body.length + 1) f.body).join.toList
  else []

inductive Adds (fuel : Nat) (f : RawField) : List CID → Prop where
  | varint : f.wireType = .varint → Adds fuel f []
  | entry {entry : WantEntry} : f.wireType = .lenDelimited → f.num = 1 →
      decodeWantEntry fuel f.body = some entry → Adds fuel f (wantedCid M entry).toList

inductive AddsTo (fuel : Nat) (f : RawField) : List CID → List Block → Prop where
  | wantlist {wants : List CID} : f.wireType = .lenDelimited → f.num = 1 →
      (∀ out, decodeWantlist M fuel f.body out = some (out ++ wants)) → AddsTo fuel f wants []
  | payload {block : Option Block} : f.wireType = .lenDelimited → f.num = 3 →
      decodePayloadBlock fuel f.body = some block → AddsTo fuel f [] block.toList
  | other : f.wireType = .lenDelimited → f.num ≠ 1 → f.num ≠ 3 → AddsTo fuel f [] []

variable {M} {fuel : Nat}

theorem wantlistBody_raw {f : RawField} {wants : List CID} (h : Adds M fuel f wants)
    (front back : Bytes) (out : List CID) :
    wantlistBody M fuel (front ++ (f.encode ++ back)) ⟨front.length, out⟩ =
      some (.next ⟨(front ++ f.encode).length, out ++ wants⟩) := by
  simp only [wantlistBody, readTag_raw, append_encode_end]
  simp only [append_encode]
  cases h with
  | varint hwire =>
    obtain ⟨value, hp⟩ := RawField.exists_varint hwire
    simp only [hwire, hp, WireType.code, skipVarint_payload]
    simp
  | entry hwire hnum hentry =>
    obtain ⟨length, heq, hlt, hp⟩ := RawField.exists_lenDelimited hwire
    simp only [hwire, hnum, hp, WireType.code, readLenDelimited_payload, hentry]
    rfl

theorem messageBody_raw {f : RawField} {wants : List CID} {blocks : List Block}
    (h : AddsTo M fuel f wants blocks) (front back : Bytes) (s : Message) :
    messageBody M fuel (front ++ (f.encode ++ back)) { s with offset := front.length } =
      some (.next ⟨(front ++ f.encode).length, s.wantBlocks ++ wants, s.blocks ++ blocks⟩) := by
  have hwire : f.wireType = .lenDelimited := by
    cases h <;> assumption
  have h1 : signedNum f.num = 1 ↔ f.num = 1 := signedNum_eq_iff (k := 1) (by decide) f.num_lt
  have h3 : signedNum f.num = 3 ↔ f.num = 3 := signedNum_eq_iff (k := 3) (by decide) f.num_lt
  obtain ⟨length, heq, hlt, hp⟩ := RawField.exists_lenDelimited hwire
  simp only [messageBody, readTag_raw, append_encode_end]
  simp only [append_encode]
  simp only [hwire, hp, WireType.code, readLenDelimited_payload, h1, h3]
  cases h with
  | wantlist _ hnum hwants => simp [hnum, hwants]
  | payload _ hnum hblock => simp [hnum, hblock]
  | other _ hne1 hne3 => simp [hne1, hne3]

def ListField (f : RawField) : Prop :=
  f.wireType = .varint ∨ (f.num = 1 ∧ f.wireType = .lenDelimited ∧
    ∃ entry, ∀ fuel, f.body.length < fuel → decodeWantEntry fuel f.body = some entry)

variable (M) in
def MessageField (f : RawField) : Prop :=
  f.wireType = .lenDelimited ∧
    (f.num = 1 → ∃ wants, ∀ fuel, f.body.length < fuel → ∀ out,
      decodeWantlist M fuel f.body out = some (out ++ wants)) ∧
    (f.num = 3 → ∃ block, ∀ fuel, f.body.length < fuel →
      decodePayloadBlock fuel f.body = some block)

theorem ListField.adds {f : RawField} (h : ListField f) (hfuel : f.body.length < fuel) :
    Adds M fuel f (wantsOf M f) := by
  unfold wantsOf
  rcases h with hwire | ⟨hnum, hwire, entry, hentry⟩
  · rw [if_neg (by simp [hwire])]
    exact .varint hwire
  · rw [if_pos ⟨hnum, hwire⟩, hentry _ (Nat.lt_succ_self _)]
    exact .entry hwire hnum (hentry _ hfuel)

theorem MessageField.addsTo {f : RawField} (h : MessageField M f) (hfuel : f.body.length < fuel) :
    AddsTo M fuel f (wantlistOf M f) (blocksOf f) := by
  obtain ⟨hwire, hwants, hblock⟩ := h
  unfold wantlistOf blocksOf
  by_cases hnum1 : f.num = 1
  · obtain ⟨wants, hw⟩ := hwants hnum1
    rw [if_pos ⟨hnum1, hwire⟩, if_neg (by simp [hnum1]), hw _ (Nat.lt_succ_self _)]
    exact .wantlist hwire hnum1 (hw _ hfuel)
  rw [if_neg (fun h => hnum1 h.1)]
  by_cases hnum3 : f.num = 3
  · obtain ⟨block, hb⟩ := hblock hnum3
    rw [if_pos ⟨hnum3, hwire⟩, hb _ (Nat.lt_succ_self _)]
    exact .payload hwire hnum3 (hb _ hfuel)
  · rw [if_neg (fun h => hnum3 h.1)]
    exact .other hwire hnum1 hnum3

theorem decodeWantlist_raw {fields : List RawField} (h : ∀ f ∈ fields, ListField f)
    (hfuel : (encodeRaw fields).length < fuel) (out : List CID) :
    decodeWantlist M fuel (encodeRaw fields) out = some (out ++ fields.flatMap (wantsOf M)) := by
  have hconsumes : Consumes (wantlistLoop M fuel (encodeRaw fields)) RawField.encode
      (fun p out => ⟨p, out⟩) (fun out f => out ++ wantsOf M f) fields := by
    apply Consumes.of_offset (fun _ _ => rfl) RawField.length_encode_pos
    intro f hf front back hsplit out
    have hadds := (h f hf).adds (M := M) (Nat.lt_of_le_of_lt (length_body_le hf) hfuel)
    have hbody := wantlistBody_raw hadds front back out
    rwa [← hsplit] at hbody
  have hrun := hconsumes.run out (Nat.lt_of_le_of_lt (length_le_encodeRaw fields) hfuel)
  rw [List.foldl_append_eq_append] at hrun
  exact congrArg (Option.map (·.out)) hrun

theorem decodeMessage_raw {fields : List RawField} (h : ∀ f ∈ fields, MessageField M f)
    (hfuel : (encodeRaw fields).length < fuel) :
    decodeMessage M fuel (encodeRaw fields) =
      some ⟨fields.flatMap (wantlistOf M), fields.flatMap blocksOf⟩ := by
  have hconsumes : Consumes (messageLoop M fuel (encodeRaw fields)) RawField.encode
      (fun p out => ⟨p, out.1, out.2⟩)
      (fun out f => (out.1 ++ wantlistOf M f, out.2 ++ blocksOf f)) fields := by
    apply Consumes.of_offset (fun _ _ => rfl) RawField.length_encode_pos
    intro f hf front back hsplit out
    have hadds := (h f hf).addsTo (Nat.lt_of_le_of_lt (length_body_le hf) hfuel)
    have hbody := messageBody_raw hadds front back ⟨0, out.1, out.2⟩
    rwa [← hsplit] at hbody
  have hrun := hconsumes.run ([], []) (Nat.lt_of_le_of_lt (length_le_encodeRaw fields) hfuel)
  rw [foldl_append_pair] at hrun
  exact congrArg (Option.map fun s => DecodedMessage.mk s.wantBlocks s.blocks) hrun

end IpfsShard.Codec
