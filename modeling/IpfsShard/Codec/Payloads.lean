import IpfsShard.Codec.RoundTrip

/-! Payload blocks as proto3 has them written: a field of no bytes is left out. -/

namespace IpfsShard.Codec
open Wire

def bytesField (num : Nat) (bytes : Bytes) : List Field :=
  if bytes = [] then [] else [.lenDelimited num bytes]

namespace Block

def fields (b : Block) : List Field := bytesField 1 b.cidPrefix ++ bytesField 2 b.data

def field (b : Block) : Field := .lenDelimited 3 (encode b.fields)

def Full (b : Block) : Prop := b.cidPrefix ≠ [] ∧ b.data ≠ []

instance : DecidablePred Full := fun _ => inferInstanceAs (Decidable (_ ∧ _))

end Block

variable {M : Multiformats} {b : Block} {blocks : List Block}

theorem bytesField_below {num : Nat} {bytes : Bytes} (hnum : num < 16)
    (h : bytes.length < 2 ^ 31) : ∀ f ∈ bytesField num bytes, f.Below (2 ^ 31) := by
  unfold bytesField
  split
  · exact List.forall_mem_nil _
  · exact List.forall_mem_singleton.mpr (below_lenDelimited hnum h)

theorem length_encode_bytesField (num : Nat) (bytes : Bytes) :
    bytes.length ≤ (encode (bytesField num bytes)).length := by
  unfold bytesField
  split
  · simp_all
  · rw [encode_cons, Field.encode, Field.payload]
    simp only [List.length_append]
    omega

theorem Block.fields_below (h : (encode b.fields).length < 2 ^ 31) :
    ∀ f ∈ b.fields, f.Below (2 ^ 31) := by
  have hlength : (encode b.fields).length =
      (encode (bytesField 1 b.cidPrefix)).length + (encode (bytesField 2 b.data)).length := by
    rw [Block.fields, encode, List.flatMap_append, List.length_append]
    rfl
  have hcid := length_encode_bytesField 1 b.cidPrefix
  have hdata := length_encode_bytesField 2 b.data
  refine List.forall_mem_append.mpr ⟨?_, ?_⟩
  · exact bytesField_below (by decide) (by omega)
  · exact bytesField_below (by decide) (by omega)

theorem Block.fields_wireType (b : Block) : ∀ f ∈ b.fields, f.wireType = 2 := by
  unfold Block.fields bytesField
  split <;> split <;> simp [Field.wireType]

theorem Block.length_fields (b : Block) : b.fields.length < 3 := by
  unfold Block.fields bytesField
  split <;> split <;> simp

theorem Block.foldl_update_fields (b : Block) :
    (b.fields.foldl PayloadBlock.update {}).block = if b.Full then some b else none := by
  unfold Block.fields bytesField Block.Full
  by_cases hcid : b.cidPrefix = [] <;> by_cases hdata : b.data = [] <;>
    simp [hcid, hdata, PayloadBlock.update, PayloadBlock.block]

theorem Block.field_carries (n : Nat) (h : (encode b.fields).length < 2 ^ 31) :
    Carries M (n + 3) b.field [] (if b.Full then some b else none).toList := by
  rw [← b.foldl_update_fields]
  have hfuel : b.fields.length < n + 3 :=
    Nat.lt_of_lt_of_le b.length_fields (Nat.le_add_left 3 n)
  exact Carries.payload (decodePayloadBlock_fields (Block.fields_below h) b.fields_wireType hfuel)

theorem decodesTo_payloads (h : ∀ b ∈ blocks, (encode b.fields).length < 2 ^ 31) :
    DecodesTo M (encode (blocks.map Block.field)) ⟨[], blocks.filter (Block.Full ·)⟩ := by
  have hbelow : ∀ b ∈ blocks, b.field.Below (2 ^ 31) := fun b hb =>
    below_lenDelimited (by decide) (h b hb)
  have hcarries : ∀ b ∈ blocks, Carries M (blocks.length + 3) b.field []
      (if b.Full then some b else none).toList := fun b hb =>
    Block.field_carries blocks.length (h b hb)
  have hdecode := decodeMessage_fields Block.field (fun _ => [])
    (fun b => (if b.Full then some b else none).toList) hbelow hcarries
    (Nat.lt_add_of_pos_right (by decide))
  refine ⟨_, hdecode.trans ?_⟩
  have hwants : blocks.flatMap (fun _ => ([] : List CID)) = [] := by
    rw [List.flatMap_eq_nil_iff]
    exact fun _ _ => rfl
  have hguard : (fun b : Block => if b.Full then some b else none) =
      Option.guard (Block.Full ·) := by
    funext b
    simp [Option.guard]
  rw [hwants, ← List.filterMap_eq_flatMap_toList, hguard, List.filterMap_eq_filter]

/-- No block is lost exactly if none has a field of no bytes. -/
theorem payloads_kept_iff (h : ∀ b ∈ blocks, (encode b.fields).length < 2 ^ 31) :
    (∃ message, DecodesTo M (encode (blocks.map Block.field)) message ∧
        message.blocks = blocks) ↔
      ∀ b ∈ blocks, b.cidPrefix ≠ [] ∧ b.data ≠ [] := by
  have hdecodes := decodesTo_payloads (M := M) h
  constructor
  · rintro ⟨message, hmessage, hblocks⟩ b hb
    obtain rfl := hmessage.unique hdecodes
    have hkept := List.filter_eq_self.mp hblocks b hb
    exact of_decide_eq_true hkept
  · intro hfull
    refine ⟨_, hdecodes, List.filter_eq_self.mpr fun b hb => ?_⟩
    exact decide_eq_true (hfull b hb)

def rawPrefix : Bytes := [0x01, 0x55, 0x12, 0x20]

theorem payloads_kept_two : ∃ message,
    DecodesTo Multiformats.onEmptyBlock
        (encode ([⟨rawPrefix, [1]⟩, ⟨rawPrefix, [0]⟩].map Block.field)) message ∧
      message.blocks = [⟨rawPrefix, [1]⟩, ⟨rawPrefix, [0]⟩] := by
  have hlength : ∀ b ∈ [⟨rawPrefix, [1]⟩, ⟨rawPrefix, [0]⟩],
      (encode (Block.fields b)).length < 2 ^ 31 := by decide +kernel
  exact (payloads_kept_iff hlength).mpr (by decide)

theorem payloads_lost : (encode (Block.fields ⟨rawPrefix, []⟩)).length < 2 ^ 31 ∧
    DecodesTo Multiformats.onEmptyBlock (encode ([⟨rawPrefix, []⟩].map Block.field)) ⟨[], []⟩ ∧
    ¬ ∃ message, DecodesTo Multiformats.onEmptyBlock
        (encode ([⟨rawPrefix, []⟩].map Block.field)) message ∧
      message.blocks = [⟨rawPrefix, []⟩] := by
  have hdecodes : DecodesTo Multiformats.onEmptyBlock
      (encode ([⟨rawPrefix, []⟩].map Block.field)) ⟨[], []⟩ := ⟨10, by decide +kernel⟩
  refine ⟨by decide +kernel, hdecodes, ?_⟩
  rintro ⟨message, hmessage, hblocks⟩
  obtain rfl := hmessage.unique hdecodes
  cases hblocks

end IpfsShard.Codec
