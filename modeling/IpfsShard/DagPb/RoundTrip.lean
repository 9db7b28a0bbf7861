import IpfsShard.DagPb.Fields

/-! What the dag-pb parser returns for a serialised node: its links in order, and its data. -/

namespace IpfsShard.DagPb
open Codec Wire

/-- A link as it is serialised: each part may be absent. -/
structure Link where
  hash : Option Bytes
  name : Option Bytes
  tsize : Option Leb128.Numeral

def Link.parsed (decodeText : Bytes → String) (l : Link) : PBLink where
  hash := l.hash
  name := (l.name.map decodeText).getD ""
  size := (l.tsize.map readNumeral).getD 0

/-- The fields hold each part of the link that is there once, in any order. -/
structure Link.Serialised (l : Link) (fields : List RawField) : Prop where
  within : ∀ f ∈ fields, f.NumeralsWithin 10
  handled : ∀ f ∈ fields, handled f = true
  hash : fields.filterMap (RawField.bytesOf 1) = l.hash.toList
  name : fields.filterMap (RawField.bytesOf 2) = l.name.toList
  tsize : fields.filterMap (RawField.varintOf 3) = l.tsize.toList

def isLinkField (f : RawField) : Bool := decide (f.num = 2 ∧ f.wireType = .lenDelimited)

/-- The fields hold the links in order and, anywhere, the data. -/
structure Serialised (links : List Link) (data : Option Bytes) (fields : List RawField) : Prop where
  within : ∀ f ∈ fields, f.NumeralsWithin 10
  handled : ∀ f ∈ fields, handled f = true
  links : List.Forall₂ (fun (l : Link) f => ∃ inner, l.Serialised inner ∧ f.body = encodeRaw inner)
    links (fields.filter isLinkField)
  data : fields.filterMap (RawField.bytesOf 1) = data.toList

variable (decodeText : Bytes → String) {l : Link} {links : List Link} {data : Option Bytes}
  {fields : List RawField} {f : RawField}

theorem getLast?_toList {α : Type} (o : Option α) : o.toList.getLast? = o := by
  cases o <;> rfl

theorem Link.Serialised.parsedLink_eq (h : l.Serialised fields) :
    parsedLink decodeText (fields.takeWhile DagPb.handled) = l.parsed decodeText := by
  have hall : fields.takeWhile DagPb.handled = fields := List.takeWhile_eq_self_iff.mpr h.handled
  rw [hall, parsedLink, h.hash, h.name, h.tsize, getLast?_toList, getLast?_toList,
    getLast?_toList]
  rfl

theorem linkOf_isLinkField (h : isLinkField f = true) :
    linkOf decodeText f = decodeLink decodeText (f.body.length + 1) f.body :=
  if_pos (of_decide_eq_true h)

theorem linkOf_other (h : isLinkField f = false) : linkOf decodeText f = none :=
  if_neg (of_decide_eq_false h)

theorem filterMap_linkOf (fields : List RawField) :
    fields.filterMap (linkOf decodeText) =
      (fields.filter isLinkField).filterMap (linkOf decodeText) := by
  rw [List.filterMap_filter]
  refine List.filterMap_congr fun f _ => ?_
  cases hf : isLinkField f with
  | true => rfl
  | false => rw [linkOf_other decodeText hf]; rfl

theorem filterMap_linkOf_serialised
    (h : List.Forall₂ (fun (l : Link) f => ∃ inner, l.Serialised inner ∧ f.body = encodeRaw inner)
      links fields) (hfields : ∀ f ∈ fields, isLinkField f = true) :
    fields.filterMap (linkOf decodeText) = links.map (Link.parsed decodeText) := by
  induction h with
  | nil => rfl
  | @cons l f links fields hl _ ih =>
    obtain ⟨hf, hrest⟩ := List.forall_mem_cons.mp hfields
    obtain ⟨inner, hinner, hbody⟩ := hl
    have hlink : linkOf decodeText f = some (l.parsed decodeText) := by
      rw [linkOf_isLinkField decodeText hf, hbody,
        decodeLink_raw decodeText hinner.within (Nat.lt_succ_self _), hinner.parsedLink_eq]
    rw [List.filterMap_cons_some hlink, List.map_cons, ih hrest]

theorem exists_inner
    (h : List.Forall₂ (fun (l : Link) f => ∃ inner, l.Serialised inner ∧ f.body = encodeRaw inner)
      links fields) (hf : f ∈ fields) :
    ∃ inner, f.body = encodeRaw inner ∧ ∀ g ∈ inner, g.NumeralsWithin 10 := by
  induction h with
  | nil => cases hf
  | cons hl _ ih =>
    rcases List.mem_cons.mp hf with rfl | hrest
    · obtain ⟨inner, hinner, hbody⟩ := hl
      exact ⟨inner, hbody, hinner.within⟩
    · exact ih hrest

theorem Serialised.nodeField (h : Serialised links data fields) : ∀ f ∈ fields, NodeField f := by
  intro f hf
  refine ⟨h.within f hf, fun hnum hwire => ?_⟩
  exact exists_inner h.links (List.mem_filter.mpr ⟨hf, decide_eq_true ⟨hnum, hwire⟩⟩)

/-- The parser undoes the serialisation. -/
theorem decodeDagPB_serialised (h : Serialised links data fields) :
    DecodesTo decodeText (encodeRaw fields) ⟨links.map (Link.parsed decodeText), data⟩ := by
  have hall : fields.takeWhile DagPb.handled = fields := List.takeWhile_eq_self_iff.mpr h.handled
  have hlinks : fields.filterMap (linkOf decodeText) = links.map (Link.parsed decodeText) := by
    rw [filterMap_linkOf]
    exact filterMap_linkOf_serialised decodeText h.links fun f hf => (List.mem_filter.mp hf).2
  have hnode := decodesTo_raw decodeText h.nodeField
  rwa [hall, hlinks, h.data, getLast?_toList] at hnode

def asciiText (bytes : Bytes) : String := String.ofList (bytes.map fun b => Char.ofNat b.toNat)

def fileLink : Link := ⟨some [1, 2, 3], some [97], some (.ofNat (2 ^ 64 - 1))⟩

def hashField : RawField := .ofBytes 1 [1, 2, 3] (by decide)

def nameField : RawField := .ofBytes 2 [97] (by decide)

def fileFields : List RawField := [.ofVarint 3 (2 ^ 64 - 1), nameField, hashField]

def directoryFields : List RawField :=
  [.ofBytes 1 [8, 1] (by decide), .ofBytes 2 (encodeRaw fileFields) (by decide +kernel),
    .ofBytes 2 (encodeRaw []) (by decide)]

theorem fileLink_serialised : fileLink.Serialised fileFields where
  within := by
    unfold RawField.NumeralsWithin
    decide +kernel
  handled := by decide
  hash := rfl
  name := rfl
  tsize := rfl

theorem directory_serialised :
    Serialised [fileLink, ⟨none, none, none⟩] (some [8, 1]) directoryFields where
  within := by
    unfold RawField.NumeralsWithin
    decide +kernel
  handled := by decide
  links := by
    refine .cons ⟨fileFields, fileLink_serialised, rfl⟩ (.cons ⟨[], ?_, rfl⟩ .nil)
    exact ⟨by simp, by simp, rfl, rfl, rfl⟩
  data := rfl

theorem decodeDagPB_directory : DecodesTo asciiText (encodeRaw directoryFields)
    ⟨[⟨some [1, 2, 3], "a", -1⟩, ⟨none, "", 0⟩], some [8, 1]⟩ := by
  have hnode := decodeDagPB_serialised asciiText directory_serialised
  have hparsed : [fileLink, ⟨none, none, none⟩].map (Link.parsed asciiText) =
      [⟨some [1, 2, 3], "a", -1⟩, ⟨none, "", 0⟩] := by decide +kernel
  rwa [hparsed] at hnode

end IpfsShard.DagPb
