import IpfsShard.Codec.BitswapCodec

/-! The dag-pb parser: its own varint reader, the loop over the fields of a node, and inside it
the loop over the fields of a link. -/

namespace IpfsShard.DagPb
open Loop Codec

/-- The loop of `readVarint` on the bytes that are left, of which it may read `left` more. Past
the end `byte` is `undefined`, which the bit operators take for 0. -/
def readVarintLoop : Nat → Bytes → BitVec 32 → Nat → Nat → BitVec 32 × Nat
  | 0, _, value, _, n => (value, n)
  | _ + 1, [], value, _, n => (value, n + 1)
  | left + 1, byte :: rest, value, shift, n =>
    let value := value ||| (BitVec.ofNat 32 (byte &&& 0x7f).toNat <<< (shift % 32))
    if byte &&& 0x80 = 0 then (value, n + 1) else readVarintLoop left rest value (shift + 7) (n + 1)

def readVarint (buf : Bytes) (offset : Int) : Int × Nat :=
  let (value, n) := readVarintLoop 10 (bytesFrom buf offset) 0 0 0
  (value.toInt, n)

def readTag (block : Bytes) (offset : Int) : Tag :=
  let (tag, n) := readVarint block offset
  ⟨tag / 2 ^ 3, tag % 2 ^ 3, offset + n⟩

def readSlice (block : Bytes) (offset : Int) : Bytes × Int :=
  let (len, n) := readVarint block offset
  (slice block (offset + n) (offset + n + len), offset + n + len)

structure PBLink where
  hash : Option Bytes
  name : String
  size : Int
  deriving DecidableEq, Repr

structure PBNode where
  links : List PBLink
  data : Option Bytes
  deriving DecidableEq, Repr

structure LinkState where
  lo : Int := 0
  h : Option Bytes := none
  n : String := ""
  sz : Int := 0

structure NodeState where
  offset : Int := 0
  links : List PBLink := []
  data : Option Bytes := none

section
/- `new TextDecoder().decode` -/
variable (decodeText : Bytes → String)

def linkBody (slice : Bytes) (s : LinkState) : Pass LinkState :=
  let tag := readTag slice s.lo
  if tag.wireType = 2 then
    let (ls, lo) := readSlice slice tag.next
    if tag.fieldNum = 1 then .next { s with lo, h := some ls }
    else if tag.fieldNum = 2 then .next { s with lo, n := decodeText ls }
    else .next { s with lo }
  else if tag.wireType = 0 then
    let (lv, n) := readVarint slice tag.next
    if tag.fieldNum = 3 then .next { s with lo := tag.next + n, sz := lv }
    else .next { s with lo := tag.next + n }
  else .exit { s with lo := tag.next }

def linkLoop (slice : Bytes) : While LinkState where
  cond s := s.lo < slice.length
  body s := some (linkBody decodeText slice s)

def LinkState.link (s : LinkState) : PBLink := ⟨s.h, s.n, s.sz⟩

def decodeLink (fuel : Nat) (slice : Bytes) : Option PBLink :=
  ((linkLoop decodeText slice).run fuel {}).map (·.link)

def nodeBody (fuel : Nat) (block : Bytes) (s : NodeState) : Option (Pass NodeState) :=
  let tag := readTag block s.offset
  if tag.wireType = 2 then
    let (slice, offset) := readSlice block tag.next
    if tag.fieldNum = 1 then some (.next { s with offset, data := some slice })
    else if tag.fieldNum = 2 then
      match decodeLink decodeText fuel slice with
      | none => none
      | some link => some (.next { s with offset, links := s.links ++ [link] })
    else some (.next { s with offset })
  else if tag.wireType = 0 then
    let (_, n) := readVarint block tag.next
    some (.next { s with offset := tag.next + n })
  else some (.exit { s with offset := tag.next })

def nodeLoop (fuel : Nat) (block : Bytes) : While NodeState where
  cond s := s.offset < block.length
  body := nodeBody decodeText fuel block

def NodeState.node (s : NodeState) : PBNode := ⟨s.links, s.data⟩

/-- `none`: more passes than `fuel` in one of the two loops. -/
def decodeDagPB (fuel : Nat) (block : Bytes) : Option PBNode :=
  ((nodeLoop decodeText fuel block).run fuel {}).map (·.node)

def DecodesTo (block : Bytes) (node : PBNode) : Prop :=
  ∃ fuel, decodeDagPB decodeText fuel block = some node

end

variable {decodeText : Bytes → String} {n m : Nat} {block : Bytes}

theorem decodeLink_mono (hnm : n ≤ m) {link : PBLink}
    (h : decodeLink decodeText n block = some link) :
    decodeLink decodeText m block = some link := by
  obtain ⟨s, hs, rfl⟩ := Option.map_eq_some_iff.mp h
  exact Option.map_eq_some_iff.mpr ⟨s, While.run_fuel hnm hs, rfl⟩

theorem nodeBody_mono (hnm : n ≤ m) {s : NodeState} {p : Pass NodeState}
    (h : nodeBody decodeText n block s = some p) : nodeBody decodeText m block s = some p := by
  unfold nodeBody at h ⊢
  simp only at h ⊢
  split_ifs at h ⊢
  · exact h
  · cases hl : decodeLink decodeText n (readSlice block (readTag block s.offset).next).1 with
    | none => simp [hl] at h
    | some link =>
      rw [hl] at h
      rw [decodeLink_mono hnm hl]
      exact h
  · exact h
  · exact h
  · exact h

theorem decodeDagPB_mono (hnm : n ≤ m) {node : PBNode}
    (h : decodeDagPB decodeText n block = some node) :
    decodeDagPB decodeText m block = some node := by
  obtain ⟨s, hs, rfl⟩ := Option.map_eq_some_iff.mp h
  have hcond : (nodeLoop decodeText n block).cond = (nodeLoop decodeText m block).cond := rfl
  have hrun := While.run_mono hcond (fun _ _ => nodeBody_mono hnm) hnm hs
  exact Option.map_eq_some_iff.mpr ⟨s, hrun, rfl⟩

theorem DecodesTo.unique {node node' : PBNode} (h : DecodesTo decodeText block node)
    (h' : DecodesTo decodeText block node') : node = node' := by
  obtain ⟨n, hn⟩ := h
  obtain ⟨m, hm⟩ := h'
  have hboth := decodeDagPB_mono (Nat.le_max_left n m) hn
  exact Option.some.inj (hboth.symm.trans (decodeDagPB_mono (Nat.le_max_right n m) hm))

end IpfsShard.DagPb
