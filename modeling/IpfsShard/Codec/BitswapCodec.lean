import IpfsShard.Cid
import IpfsShard.Lib.Loop

/-! The bitswap codec: what it encodes, `prefixToCID`, and the four `while` loops of its decoding
half, each with its own rule for the fields it does not use. -/

namespace IpfsShard.Codec
open Loop

def writeVarintField (fieldNum : Nat) (value : Int) : Bytes :=
  appendVarint (fieldNum <<< 3 ||| 0 : Nat) ++ appendVarint value

def writeLenField (fieldNum : Nat) (bytes : Bytes) : Bytes :=
  appendVarint (fieldNum <<< 3 ||| 2 : Nat) ++ appendVarint bytes.length ++ bytes

def concatBytes (parts : List Bytes) : Bytes := parts.flatten

/-- The wantlist entry asks for the block itself, with priority 1 and `sendDontHave`. -/
def encodeWantBlock (M : Multiformats) (cid : CID) : Bytes :=
  let entry := concatBytes
    [writeLenField 1 (M.bytes cid), writeVarintField 2 1, writeVarintField 4 0,
      writeVarintField 5 1]
  let wantlist := concatBytes [writeLenField 1 entry, writeVarintField 2 0]
  writeLenField 1 wantlist

def encodePrefix (cid : CID) : Bytes :=
  appendVarint cid.version ++ appendVarint cid.code ++ appendVarint cid.multihash.code ++
    appendVarint cid.multihash.digest.length

def encodeBlock (cid : CID) (data : Bytes) : Bytes :=
  let block := concatBytes [writeLenField 1 (encodePrefix cid), writeLenField 2 data]
  writeLenField 3 block

def prefixToCID (M : Multiformats) (cidPrefix data : Bytes) : Option CID :=
  let (version, vLen0) := readVarint cidPrefix 0
  let (codec, vLen1) := readVarint cidPrefix vLen0
  let (hashAlg, _) := readVarint cidPrefix (vLen0 + vLen1)
  -- only sha2-256 is supported, and any version but 0 counts as 1
  if hashAlg ≠ sha256Code then none
  else if version = 0 then some (.v0 (M.sha256 data))
  else some (.v1 codec (M.sha256 data))

def encodeWithLengthPrefix (msg : Bytes) : Bytes := concatBytes [appendVarint msg.length, msg]

theorem prefixToCID_builtFrom {M : Multiformats} {cidPrefix data : Bytes} {cid : CID}
    (h : prefixToCID M cidPrefix data = some cid) : M.BuiltFrom data cid := by
  simp only [prefixToCID] at h
  split at h
  · cases h
  · split at h
    · exact Or.inl (Option.some.inj h).symm
    · exact Or.inr ⟨_, (Option.some.inj h).symm⟩

structure Block where
  cidPrefix : Bytes
  data : Bytes
  deriving DecidableEq, Repr

structure DecodedMessage where
  wantBlocks : List CID
  blocks : List Block
  deriving DecidableEq, Repr

structure Tag where
  fieldNum : Int
  wireType : Int
  next : Int

/-- `tag >> 3` and `tag & 7` of a signed number are the floor quotient and remainder. -/
def readTag (bytes : Bytes) (offset : Int) : Tag :=
  let (tag, tagLen) := readVarint bytes offset
  ⟨tag / 2 ^ 3, tag % 2 ^ 3, offset + tagLen⟩

def readLenDelimited (bytes : Bytes) (offset : Int) : Bytes × Int :=
  let (len, lenLen) := readVarint bytes offset
  (slice bytes (offset + lenLen) (offset + lenLen + len), offset + lenLen + len)

def skipVarint (bytes : Bytes) (offset : Int) : Int := offset + (readVarint bytes offset).2

structure WantEntry where
  offset : Int := 0
  cidBytes : Option Bytes := none
  wantType : Int := 0
  cancel : Bool := false

def wantEntryPass (bytes : Bytes) (s : WantEntry) : WantEntry :=
  let tag := readTag bytes s.offset
  if tag.wireType = 2 then
    let (fieldBytes, next) := readLenDelimited bytes tag.next
    if tag.fieldNum = 1 then { s with offset := next, cidBytes := some fieldBytes }
    else { s with offset := next }
  else if tag.wireType = 0 then
    let (val, _) := readVarint bytes tag.next
    let next := skipVarint bytes tag.next
    if tag.fieldNum = 3 then { s with offset := next, cancel := val != 0 }
    else if tag.fieldNum = 4 then { s with offset := next, wantType := val }
    else { s with offset := next }
  else { s with offset := tag.next }

def wantEntryLoop (bytes : Bytes) : While WantEntry where
  cond s := s.offset < bytes.length
  body s := some (.next (wantEntryPass bytes s))

def decodeWantEntry (fuel : Nat) (bytes : Bytes) : Option WantEntry :=
  (wantEntryLoop bytes).run fuel {}

def wantedCid (M : Multiformats) (entry : WantEntry) : Option CID :=
  match entry.cidBytes with
  | some cidBytes => if !entry.cancel && entry.wantType == 0 then M.decode cidBytes else none
  | none => none

structure Wantlist where
  offset : Int := 0
  out : List CID

def wantlistBody (M : Multiformats) (fuel : Nat) (bytes : Bytes) (s : Wantlist) :
    Option (Pass Wantlist) :=
  let tag := readTag bytes s.offset
  if tag.wireType = 2 ∧ tag.fieldNum = 1 then
    let (entryBytes, next) := readLenDelimited bytes tag.next
    match decodeWantEntry fuel entryBytes with
    | none => none
    | some entry => some (.next ⟨next, s.out ++ (wantedCid M entry).toList⟩)
  else if tag.wireType = 0 then some (.next { s with offset := skipVarint bytes tag.next })
  else some (.next { s with offset := tag.next })

def wantlistLoop (M : Multiformats) (fuel : Nat) (bytes : Bytes) : While Wantlist where
  cond s := s.offset < bytes.length
  body := wantlistBody M fuel bytes

def decodeWantlist (M : Multiformats) (fuel : Nat) (bytes : Bytes) (out : List CID) :
    Option (List CID) :=
  ((wantlistLoop M fuel bytes).run fuel { out }).map (·.out)

structure PayloadBlock where
  offset : Int := 0
  cidPrefix : Option Bytes := none
  data : Option Bytes := none

def payloadBlockPass (bytes : Bytes) (s : PayloadBlock) : PayloadBlock :=
  let tag := readTag bytes s.offset
  if tag.wireType = 2 then
    let (fieldBytes, next) := readLenDelimited bytes tag.next
    if tag.fieldNum = 1 then { s with offset := next, cidPrefix := some fieldBytes }
    else if tag.fieldNum = 2 then { s with offset := next, data := some fieldBytes }
    else { s with offset := next }
  else { s with offset := tag.next }

def payloadBlockLoop (bytes : Bytes) : While PayloadBlock where
  cond s := s.offset < bytes.length
  body s := some (.next (payloadBlockPass bytes s))

def PayloadBlock.block (s : PayloadBlock) : Option Block :=
  match s.cidPrefix, s.data with
  -- a `Uint8Array` is truthy also when it is empty
  | some cidPrefix, some data => some ⟨cidPrefix, data⟩
  | _, _ => none

def decodePayloadBlock (fuel : Nat) (bytes : Bytes) : Option (Option Block) :=
  ((payloadBlockLoop bytes).run fuel {}).map (·.block)

structure Message where
  offset : Int := 0
  wantBlocks : List CID := []
  blocks : List Block := []

def messageBody (M : Multiformats) (fuel : Nat) (bytes : Bytes) (s : Message) :
    Option (Pass Message) :=
  let tag := readTag bytes s.offset
  if tag.wireType = 2 then
    let (fieldBytes, next) := readLenDelimited bytes tag.next
    if tag.fieldNum = 1 then
      match decodeWantlist M fuel fieldBytes s.wantBlocks with
      | none => none
      | some wantBlocks => some (.next { s with offset := next, wantBlocks })
    else if tag.fieldNum = 3 then
      match decodePayloadBlock fuel fieldBytes with
      | none => none
      | some block => some (.next { s with offset := next, blocks := s.blocks ++ block.toList })
    else some (.next { s with offset := next })
  else some (.exit { s with offset := tag.next })

def messageLoop (M : Multiformats) (fuel : Nat) (bytes : Bytes) : While Message where
  cond s := s.offset < bytes.length
  body := messageBody M fuel bytes

/-- `none`: more passes than `fuel` in one of the four loops. -/
def decodeMessage (M : Multiformats) (fuel : Nat) (bytes : Bytes) : Option DecodedMessage :=
  ((messageLoop M fuel bytes).run fuel {}).map fun s => ⟨s.wantBlocks, s.blocks⟩

def DecodesTo (M : Multiformats) (bytes : Bytes) (message : DecodedMessage) : Prop :=
  ∃ fuel, decodeMessage M fuel bytes = some message

variable {M : Multiformats} {n m : Nat} {bytes : Bytes}

theorem wantlistBody_mono (hnm : n ≤ m) {t : Wantlist} {p : Pass Wantlist}
    (h : wantlistBody M n bytes t = some p) : wantlistBody M m bytes t = some p := by
  unfold wantlistBody at h ⊢
  simp only at h ⊢
  split_ifs at h ⊢
  · cases he : decodeWantEntry n (readLenDelimited bytes (readTag bytes t.offset).next).1 with
    | none => simp [he] at h
    | some entry =>
      have he' : decodeWantEntry m _ = some entry := While.run_fuel hnm he
      rw [he] at h
      rw [he']
      exact h
  · exact h
  · exact h

theorem decodeWantlist_mono (hnm : n ≤ m) {out r : List CID}
    (h : decodeWantlist M n bytes out = some r) : decodeWantlist M m bytes out = some r := by
  obtain ⟨s, hs, rfl⟩ := Option.map_eq_some_iff.mp h
  have hcond : (wantlistLoop M n bytes).cond = (wantlistLoop M m bytes).cond := rfl
  have hrun := While.run_mono hcond (fun _ _ => wantlistBody_mono hnm) hnm hs
  exact Option.map_eq_some_iff.mpr ⟨s, hrun, rfl⟩

theorem decodePayloadBlock_mono (hnm : n ≤ m) {r : Option Block}
    (h : decodePayloadBlock n bytes = some r) : decodePayloadBlock m bytes = some r := by
  obtain ⟨s, hs, rfl⟩ := Option.map_eq_some_iff.mp h
  exact Option.map_eq_some_iff.mpr ⟨s, While.run_fuel hnm hs, rfl⟩

theorem messageBody_mono (hnm : n ≤ m) {t : Message} {p : Pass Message}
    (h : messageBody M n bytes t = some p) : messageBody M m bytes t = some p := by
  unfold messageBody at h ⊢
  simp only at h ⊢
  split_ifs at h ⊢
  · cases hw : decodeWantlist M n (readLenDelimited bytes (readTag bytes t.offset).next).1
        t.wantBlocks with
    | none => simp [hw] at h
    | some wants =>
      rw [hw] at h
      rw [decodeWantlist_mono hnm hw]
      exact h
  · cases hb : decodePayloadBlock n (readLenDelimited bytes (readTag bytes t.offset).next).1 with
    | none => simp [hb] at h
    | some block =>
      rw [hb] at h
      rw [decodePayloadBlock_mono hnm hb]
      exact h
  · exact h
  · exact h

theorem decodeMessage_mono (hnm : n ≤ m) {r : DecodedMessage}
    (h : decodeMessage M n bytes = some r) : decodeMessage M m bytes = some r := by
  obtain ⟨s, hs, rfl⟩ := Option.map_eq_some_iff.mp h
  have hcond : (messageLoop M n bytes).cond = (messageLoop M m bytes).cond := rfl
  have hrun := While.run_mono hcond (fun _ _ => messageBody_mono hnm) hnm hs
  exact Option.map_eq_some_iff.mpr ⟨s, hrun, rfl⟩

theorem DecodesTo.unique {message message' : DecodedMessage} (h : DecodesTo M bytes message)
    (h' : DecodesTo M bytes message') : message = message' := by
  obtain ⟨n, hn⟩ := h
  obtain ⟨m, hm⟩ := h'
  have hboth := decodeMessage_mono (Nat.le_max_left n m) hn
  exact Option.some.inj (hboth.symm.trans (decodeMessage_mono (Nat.le_max_right n m) hm))

end IpfsShard.Codec
