import IpfsShard.DagPb.Decode
import IpfsShard.Codec.RawFields

/-! The dag-pb parser on the fields of the wire format: each of its loops takes the fields in
front of the first one of a fixed width. -/

namespace IpfsShard.DagPb
open Loop Cursor Codec Wire

theorem readVarintLoop_eq (l : Bytes) (left : Nat) {r : BitVec 32} {s k : Nat}
    (h : (Codec.readVarintLoop l r s k).2 ≤ k + left) :
    readVarintLoop left l r s k = Codec.readVarintLoop l r s k := by
  induction l generalizing left r s k with
  | nil =>
    cases left with
    | zero => exact absurd h (Nat.not_succ_le_self k)
    | succ left => rfl
  | cons b l ih =>
    have hcount := (Codec.readVarintLoop_count (b :: l) r s k).1
    cases left with
    | zero => omega
    | succ left =>
      rw [Codec.readVarintLoop] at h ⊢
      rw [readVarintLoop]
      by_cases hb : b &&& 0x80 = 0
      · rw [if_pos hb, if_pos hb]
      · rw [if_neg hb] at h
        rw [if_neg hb, if_neg hb]
        exact ih left (by omega)

theorem readVarint_eq {buf : Bytes} {offset : Int} (h : (Codec.readVarint buf offset).2 ≤ 10) :
    readVarint buf offset = Codec.readVarint buf offset := by
  have hcount : (Codec.readVarintLoop (bytesFrom buf offset) 0 0 0).2 ≤ 0 + 10 := by
    simpa [Codec.readVarint] using h
  have hloop := readVarintLoop_eq (bytesFrom buf offset) 10 hcount
  simp only [readVarint, Codec.readVarint, hloop]

theorem readVarint_numeral (front back : Bytes) {n : Leb128.Numeral} (h : n.bytes.length ≤ 10) :
    readVarint (front ++ (n.bytes ++ back)) front.length = (readNumeral n, n.bytes.length) := by
  have hread := Codec.readVarint_numeral front back n
  rw [readVarint_eq (by rw [hread]; exact h), hread]

theorem readTag_raw {f : RawField} (h : f.NumeralsWithin 10) (front back : Bytes) :
    readTag (front ++ (f.encode ++ back)) front.length =
      ⟨signedNum f.num, f.wireType.code, (front ++ f.tag.bytes).length⟩ := by
  have hread := readVarint_numeral front (f.payload.encode ++ back) (h f.tag (by simp))
  have hcodec := Codec.readVarint_numeral front (f.payload.encode ++ back) f.tag
  have htag := Codec.readTag_raw f front back
  rw [RawField.encode, List.append_assoc] at htag ⊢
  rw [← htag, readTag, Codec.readTag, hread, hcodec]

theorem readVarint_payload (front back : Bytes) {value : Leb128.Numeral}
    (h : value.bytes.length ≤ 10) :
    readVarint (front ++ ((Payload.varint value).encode ++ back)) front.length =
      (readNumeral value, value.bytes.length) :=
  readVarint_numeral front back h

theorem readSlice_payload (front back : Bytes) {length : Leb128.Numeral} {bytes : Bytes}
    (heq : length.value = bytes.length) (hlt : bytes.length < 2 ^ 31)
    (h : length.bytes.length ≤ 10) :
    readSlice (front ++ ((Payload.lenDelimited length bytes heq hlt).encode ++ back)) front.length =
      (bytes, ((front ++ (Payload.lenDelimited length bytes heq hlt).encode).length : Int)) := by
  have hread := readVarint_numeral front (bytes ++ back) h
  have hcodec := Codec.readVarint_numeral front (bytes ++ back) length
  have hslice := readLenDelimited_payload front back heq hlt
  simp only [Payload.encode, List.append_assoc] at hslice ⊢
  rw [← hslice, readSlice, readLenDelimited, hread, hcodec]

/-- The loops go behind such a field. -/
def handled (f : RawField) : Bool :=
  decide (f.wireType = .varint) || decide (f.wireType = .lenDelimited)

theorem wireType_of_handled {f : RawField} (hf : handled f = true) :
    f.wireType = .varint ∨ f.wireType = .lenDelimited :=
  ((Bool.or_eq_true _ _).mp hf).imp of_decide_eq_true of_decide_eq_true

variable (decodeText : Bytes → String)

def LinkState.take (s : LinkState) (f : RawField) : LinkState where
  lo := s.lo
  h := ((f.bytesOf 1).map some).getD s.h
  n := ((f.bytesOf 2).map decodeText).getD s.n
  sz := ((f.varintOf 3).map readNumeral).getD s.sz

theorem linkBody_raw {f : RawField} (h : f.NumeralsWithin 10) (hf : handled f = true)
    (front back : Bytes) (s : LinkState) :
    linkBody decodeText (front ++ (f.encode ++ back)) { s with lo := front.length } =
      .next { s.take decodeText f with lo := (front ++ f.encode).length } := by
  have h1 : signedNum f.num = 1 ↔ f.num = 1 := signedNum_eq_iff (k := 1) (by decide) f.num_lt
  have h2 : signedNum f.num = 2 ↔ f.num = 2 := signedNum_eq_iff (k := 2) (by decide) f.num_lt
  have h3 : signedNum f.num = 3 ↔ f.num = 3 := signedNum_eq_iff (k := 3) (by decide) f.num_lt
  simp only [linkBody, readTag_raw h, append_encode_end, LinkState.take]
  simp only [append_encode]
  rcases wireType_of_handled hf with hwire | hwire
  · obtain ⟨value, hp⟩ := RawField.exists_varint hwire
    have hvalue : value.bytes.length ≤ 10 := h value (by simp [hp, Payload.numerals])
    simp only [hwire, hp, WireType.code, readVarint_payload _ _ hvalue, RawField.bytesOf,
      RawField.varintOf, h3]
    by_cases hnum : f.num = 3 <;> simp [hnum, Payload.encode, Int.add_assoc]
  · obtain ⟨length, heq, hlt, hp⟩ := RawField.exists_lenDelimited hwire
    have hlength : length.bytes.length ≤ 10 := h length (by simp [hp, Payload.numerals])
    simp only [hwire, hp, WireType.code, readSlice_payload _ _ heq hlt hlength, RawField.bytesOf,
      RawField.varintOf, h1, h2]
    by_cases hnum1 : f.num = 1
    · simp [hnum1]
    · by_cases hnum2 : f.num = 2 <;> simp [hnum1, hnum2]

theorem code_of_not_handled {f : RawField} (hf : handled f = false) :
    (f.wireType.code : Int) ≠ 2 ∧ (f.wireType.code : Int) ≠ 0 := by
  unfold handled at hf
  cases hwire : f.wireType <;> simp [hwire, WireType.code] at hf ⊢

theorem linkBody_fixed {f : RawField} (h : f.NumeralsWithin 10) (hf : handled f = false)
    (front back : Bytes) (s : LinkState) :
    linkBody decodeText (front ++ (f.encode ++ back)) { s with lo := front.length } =
      .exit { s with lo := (front ++ f.tag.bytes).length } := by
  obtain ⟨hne2, hne0⟩ := code_of_not_handled hf
  simp only [linkBody, readTag_raw h, hne2, hne0, if_false]

def parsedLink (fields : List RawField) : PBLink where
  hash := (fields.filterMap (RawField.bytesOf 1)).getLast?
  name := ((fields.filterMap (RawField.bytesOf 2)).getLast?.map decodeText).getD ""
  size := ((fields.filterMap (RawField.varintOf 3)).getLast?.map readNumeral).getD 0

theorem foldl_take_link (fields : List RawField) :
    (fields.foldl (LinkState.take decodeText) {}).link = parsedLink decodeText fields := by
  have hhash := foldl_last LinkState.h (RawField.bytesOf 1) some
    (LinkState.take decodeText) (fun _ _ => rfl) fields {}
  have hname := foldl_last LinkState.n (RawField.bytesOf 2) decodeText
    (LinkState.take decodeText) (fun _ _ => rfl) fields {}
  have hsize := foldl_last LinkState.sz (RawField.varintOf 3) readNumeral
    (LinkState.take decodeText) (fun _ _ => rfl) fields {}
  rw [LinkState.link, hhash, hname, hsize, parsedLink]
  cases (fields.filterMap (RawField.bytesOf 1)).getLast? <;> rfl

theorem decodeLink_raw {fields : List RawField} (h : ∀ f ∈ fields, f.NumeralsWithin 10) {fuel : Nat}
    (hfuel : (encodeRaw fields).length < fuel) : decodeLink decodeText fuel (encodeRaw fields) =
      some (parsedLink decodeText (fields.takeWhile handled)) := by
  obtain ⟨lo, hrun⟩ := @run_takeWhile _ _ _ _ (linkLoop decodeText (encodeRaw fields))
    RawField.encode (fun (p : Nat) s => { s with lo := p }) (LinkState.take decodeText) handled
    fields (fun _ _ => decide_eq_true_iff.trans Int.ofNat_lt) (fun f _ => f.length_encode_pos)
    (fun f hf hhandled front back hsplit s => by
      have hbody := linkBody_raw decodeText (h f hf) hhandled front back s
      rw [← hsplit] at hbody
      exact congrArg some hbody)
    (fun f hf hfixed front back hsplit s => by
      have hbody := linkBody_fixed decodeText (h f hf) hfixed front back s
      rw [← hsplit] at hbody
      exact ⟨_, congrArg some hbody⟩)
    {} fuel (Nat.lt_of_le_of_lt (length_le_encodeRaw fields) hfuel)
  have hstart : (linkLoop decodeText (encodeRaw fields)).run fuel {} = _ := hrun
  rw [decodeLink, hstart, ← foldl_take_link]
  rfl

def NodeField (f : RawField) : Prop :=
  f.NumeralsWithin 10 ∧ (f.num = 2 → f.wireType = .lenDelimited →
    ∃ inner, f.body = encodeRaw inner ∧ ∀ g ∈ inner, g.NumeralsWithin 10)

def linkOf (f : RawField) : Option PBLink :=
  if f.num = 2 ∧ f.wireType = .lenDelimited then
    decodeLink decodeText (f.body.length + 1) f.body
  else none

def NodeState.take (s : NodeState) (f : RawField) : NodeState where
  offset := s.offset
  links := s.links ++ (linkOf decodeText f).toList
  data := ((f.bytesOf 1).map some).getD s.data

theorem nodeBody_raw {f : RawField} (h : NodeField f) (hf : handled f = true) {fuel : Nat}
    (hfuel : f.body.length < fuel) (front back : Bytes) (s : NodeState) :
    nodeBody decodeText fuel (front ++ (f.encode ++ back)) { s with offset := front.length } =
      some (.next { s.take decodeText f with offset := (front ++ f.encode).length }) := by
  have h1 : signedNum f.num = 1 ↔ f.num = 1 := signedNum_eq_iff (k := 1) (by decide) f.num_lt
  have h2 : signedNum f.num = 2 ↔ f.num = 2 := signedNum_eq_iff (k := 2) (by decide) f.num_lt
  simp only [nodeBody, readTag_raw h.1, append_encode_end, NodeState.take]
  simp only [append_encode]
  rcases wireType_of_handled hf with hwire | hwire
  · obtain ⟨value, hp⟩ := RawField.exists_varint hwire
    have hvalue : value.bytes.length ≤ 10 := h.1 value (by simp [hp, Payload.numerals])
    simp only [hwire, hp, WireType.code, readVarint_payload _ _ hvalue, linkOf, RawField.bytesOf]
    simp [Payload.encode, Int.add_assoc]
  · obtain ⟨length, heq, hlt, hp⟩ := RawField.exists_lenDelimited hwire
    have hlength : length.bytes.length ≤ 10 := h.1 length (by simp [hp, Payload.numerals])
    simp only [hwire, hp, WireType.code, readSlice_payload _ _ heq hlt hlength, linkOf,
      RawField.bytesOf, h1, h2]
    by_cases hnum1 : f.num = 1
    · simp [hnum1]
    · by_cases hnum2 : f.num = 2
      · obtain ⟨inner, hbody, hinner⟩ := h.2 hnum2 hwire
        have hlink := decodeLink_raw decodeText hinner (hbody ▸ hfuel)
        have hlink' := decodeLink_raw decodeText hinner
          (hbody ▸ Nat.lt_succ_self f.body.length)
        rw [← hbody] at hlink hlink'
        simp [hnum2, hlink, hlink']
      · simp [hnum1, hnum2]

theorem nodeBody_fixed {f : RawField} (h : NodeField f) (hf : handled f = false) (fuel : Nat)
    (front back : Bytes) (s : NodeState) :
    nodeBody decodeText fuel (front ++ (f.encode ++ back)) { s with offset := front.length } =
      some (.exit { s with offset := (front ++ f.tag.bytes).length }) := by
  obtain ⟨hne2, hne0⟩ := code_of_not_handled hf
  simp only [nodeBody, readTag_raw h.1, hne2, hne0, if_false]

theorem decodeDagPB_raw {fields : List RawField} (h : ∀ f ∈ fields, NodeField f) {fuel : Nat}
    (hfuel : (encodeRaw fields).length < fuel) :
    decodeDagPB decodeText fuel (encodeRaw fields) =
      some ((fields.takeWhile handled).foldl (NodeState.take decodeText) {}).node := by
  obtain ⟨offset, hrun⟩ := @run_takeWhile _ _ _ _ (nodeLoop decodeText fuel (encodeRaw fields))
    RawField.encode (fun (p : Nat) s => { s with offset := p }) (NodeState.take decodeText) handled
    fields (fun _ _ => decide_eq_true_iff.trans Int.ofNat_lt) (fun f _ => f.length_encode_pos)
    (fun f hf hhandled front back hsplit s => by
      have hlength := Nat.lt_of_le_of_lt (length_body_le hf) hfuel
      have hbody := nodeBody_raw decodeText (h f hf) hhandled hlength front back s
      rwa [← hsplit] at hbody)
    (fun f hf hfixed front back hsplit s => by
      have hbody := nodeBody_fixed decodeText (h f hf) hfixed fuel front back s
      rw [← hsplit] at hbody
      exact ⟨_, hbody⟩)
    {} fuel (Nat.lt_of_le_of_lt (length_le_encodeRaw fields) hfuel)
  have hstart : (nodeLoop decodeText fuel (encodeRaw fields)).run fuel {} = _ := hrun
  rw [decodeDagPB, hstart]
  rfl

theorem foldl_take_node (fields : List RawField) :
    (fields.foldl (NodeState.take decodeText) {}).node =
      ⟨fields.filterMap (linkOf decodeText), (fields.filterMap (RawField.bytesOf 1)).getLast?⟩ := by
  have hlinks : ∀ s : NodeState, (fields.foldl (NodeState.take decodeText) s).links =
      s.links ++ fields.filterMap (linkOf decodeText) := by
    induction fields with
    | nil => simp
    | cons f fields ih =>
      intro s
      rw [List.foldl_cons, ih, NodeState.take, List.append_assoc, List.filterMap_cons]
      cases linkOf decodeText f <;> rfl
  have hdata := foldl_last NodeState.data (RawField.bytesOf 1) some
    (NodeState.take decodeText) (fun _ _ => rfl) fields {}
  rw [NodeState.node, hlinks, hdata]
  cases (fields.filterMap (RawField.bytesOf 1)).getLast? <;> rfl

theorem decodesTo_raw {fields : List RawField} (h : ∀ f ∈ fields, NodeField f) :
    DecodesTo decodeText (encodeRaw fields)
      ⟨(fields.takeWhile handled).filterMap (linkOf decodeText),
        ((fields.takeWhile handled).filterMap (RawField.bytesOf 1)).getLast?⟩ := by
  rw [← foldl_take_node]
  exact ⟨_, decodeDagPB_raw decodeText h (Nat.lt_succ_self _)⟩

end IpfsShard.DagPb
