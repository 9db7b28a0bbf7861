import IpfsShard.DagPb.RoundTrip

/-! The sizes of the links: `readVarint` returns a signed 32-bit number, so a size of 2 GiB or more
is not the one that was written. -/

namespace IpfsShard.DagPb
open Codec Wire

/-- A node with a link, the field `f`, that has a size, the field `tsize`; with any other fields
in front of and behind these two. -/
structure SizedLink (before : List RawField) (f : RawField) (after pre : List RawField)
    (tsize : RawField) (post : List RawField) (value : Leb128.Numeral) : Prop where
  node : ∀ g ∈ before ++ f :: after, NodeField g
  link : isLinkField f = true
  body : f.body = encodeRaw (pre ++ tsize :: post)
  within : ∀ g ∈ pre ++ tsize :: post, g.NumeralsWithin 10
  size : tsize.varintOf 3 = some value
  only : ∀ g ∈ pre ++ post, g.varintOf 3 = none

variable (decodeText : Bytes → String) {before after pre post fields : List RawField}
  {f tsize : RawField} {value : Leb128.Numeral}

theorem readNumeral_eq_value_iff : readNumeral value = value.value ↔ value.value < 2 ^ 31 := by
  constructor
  · intro h
    have hlt : readNumeral value < 2 ^ 31 := BitVec.toInt_lt
    omega
  · exact readNumeral_of_lt

theorem takeWhile_of_not_all (h : ¬ ∀ g ∈ before, handled g = true) (rest : List RawField) :
    (before ++ rest).takeWhile handled = before.takeWhile handled := by
  rw [List.takeWhile_append, if_neg]
  intro hlength
  have hall := (List.takeWhile_prefix handled).eq_of_length hlength
  exact h (List.takeWhile_eq_self_iff.mp hall)

theorem handled_of_tsize (h : tsize.varintOf 3 = some value) : handled tsize = true := by
  unfold RawField.varintOf at h
  unfold handled RawField.wireType
  cases hp : tsize.payload <;> simp [hp, Payload.wireType] at h ⊢

theorem handled_of_link (h : isLinkField f = true) : handled f = true := by
  have hwire := (of_decide_eq_true h).2
  rw [handled, hwire]
  rfl

theorem size_parsedLink (hsize : tsize.varintOf 3 = some value)
    (honly : ∀ g ∈ pre ++ post, g.varintOf 3 = none) :
    (parsedLink decodeText ((pre ++ tsize :: post).takeWhile handled)).size =
      if ∀ g ∈ pre, handled g = true then readNumeral value else 0 := by
  have hpre : pre.filterMap (RawField.varintOf 3) = [] :=
    List.filterMap_eq_nil_iff.mpr fun g hg => honly g (List.mem_append_left _ hg)
  have hpost : (post.takeWhile handled).filterMap (RawField.varintOf 3) = [] := by
    refine List.filterMap_eq_nil_iff.mpr fun g hg => honly g (List.mem_append_right _ ?_)
    exact (List.takeWhile_prefix handled).subset hg
  show ((((pre ++ tsize :: post).takeWhile handled).filterMap (RawField.varintOf 3)).getLast?.map
    readNumeral).getD 0 = _
  by_cases hall : ∀ g ∈ pre, handled g = true
  · rw [if_pos hall, List.takeWhile_append_of_pos hall,
      List.takeWhile_cons_of_pos (handled_of_tsize hsize), List.filterMap_append,
      List.filterMap_cons_some hsize, hpre, hpost]
    rfl
  · have hnone : (pre.takeWhile handled).filterMap (RawField.varintOf 3) = [] := by
      refine List.filterMap_eq_nil_iff.mpr fun g hg => honly g (List.mem_append_left _ ?_)
      exact (List.takeWhile_prefix handled).subset hg
    rw [if_neg hall, takeWhile_of_not_all hall, hnone]
    rfl

theorem length_filterMap_linkOf (h : ∀ g ∈ fields, NodeField g) :
    (fields.filterMap (linkOf decodeText)).length = (fields.filter isLinkField).length := by
  rw [List.length_filterMap_eq_countP, ← List.countP_eq_length_filter]
  refine List.countP_congr fun g hg => ?_
  cases hlink : isLinkField g with
  | true =>
    obtain ⟨hnum, hwire⟩ := of_decide_eq_true hlink
    obtain ⟨inner, hbody, hinner⟩ := (h g hg).2 hnum hwire
    rw [linkOf_isLinkField decodeText hlink, hbody,
      decodeLink_raw decodeText hinner (Nat.lt_succ_self _)]
    simp
  | false => simp [linkOf_other decodeText hlink]

theorem SizedLink.linkOf_eq (h : SizedLink before f after pre tsize post value) :
    linkOf decodeText f =
      some (parsedLink decodeText ((pre ++ tsize :: post).takeWhile handled)) := by
  rw [linkOf_isLinkField decodeText h.link, h.body]
  exact decodeLink_raw decodeText h.within (Nat.lt_succ_self _)

theorem SizedLink.getElem?_links (h : SizedLink before f after pre tsize post value) :
    (((before ++ f :: after).takeWhile handled).filterMap
        (linkOf decodeText))[(before.filter isLinkField).length]? =
      if ∀ g ∈ before, handled g = true then linkOf decodeText f else none := by
  have hbefore : ∀ g ∈ before, NodeField g := fun g hg => h.node g (List.mem_append_left _ hg)
  rw [← length_filterMap_linkOf decodeText hbefore]
  by_cases hall : ∀ g ∈ before, handled g = true
  · rw [if_pos hall, List.takeWhile_append_of_pos hall,
      List.takeWhile_cons_of_pos (handled_of_link h.link), List.filterMap_append,
      List.filterMap_cons_some (h.linkOf_eq decodeText), List.getElem?_append_right (Nat.le_refl _),
      Nat.sub_self, List.getElem?_cons_zero, h.linkOf_eq decodeText]
  · rw [if_neg hall, takeWhile_of_not_all hall, List.getElem?_eq_none_iff]
    exact ((List.takeWhile_prefix handled).sublist.filterMap _).length_le

/-- The size of the link is reported as it was written exactly if it is below 2 GiB and no field of
a fixed width, at which the loops stop, is in front of the link or of the size. (A size of 0 is
also the default.) -/
theorem size_eq_iff (h : SizedLink before f after pre tsize post value) :
    (∃ node link, DecodesTo decodeText (encodeRaw (before ++ f :: after)) node ∧
        node.links[(before.filter isLinkField).length]? = some link ∧ link.size = value.value) ↔
      (∀ g ∈ before, handled g = true) ∧
        (value.value = 0 ∨ value.value < 2 ^ 31 ∧ ∀ g ∈ pre, handled g = true) := by
  have hnode := decodesTo_raw decodeText h.node
  have hplace := h.getElem?_links decodeText
  have hsize := size_parsedLink decodeText h.size h.only
  constructor
  · rintro ⟨node, link, hdecodes, hlink, hlinkSize⟩
    obtain rfl := hdecodes.unique hnode
    have hget : (if ∀ g ∈ before, handled g = true then linkOf decodeText f else none) =
        some link := hplace.symm.trans hlink
    split_ifs at hget with hall
    rw [h.linkOf_eq decodeText, Option.some.injEq] at hget
    rw [← hget, hsize] at hlinkSize
    refine ⟨hall, ?_⟩
    split_ifs at hlinkSize with hpre
    · exact Or.inr ⟨readNumeral_eq_value_iff.mp hlinkSize, hpre⟩
    · exact Or.inl (Int.natCast_eq_zero.mp hlinkSize.symm)
  · rintro ⟨hall, hvalue⟩
    rw [if_pos hall, h.linkOf_eq decodeText] at hplace
    refine ⟨_, _, hnode, hplace, hsize.trans ?_⟩
    split_ifs with hpre
    · refine readNumeral_eq_value_iff.mpr ?_
      rcases hvalue with hzero | ⟨hlt, -⟩
      · rw [hzero]
        decide
      · exact hlt
    · rcases hvalue with hzero | ⟨-, hpre'⟩
      · exact (congrArg Nat.cast hzero).symm
      · exact absurd hpre' hpre

def hashAndName : List RawField := [hashField, nameField]

def sizeField (size : Nat) : RawField := .ofVarint 3 size

def fileOf (size : Nat) (h : (encodeRaw (hashAndName ++ [sizeField size])).length < 2 ^ 31) :
    RawField :=
  .ofBytes 2 (encodeRaw (hashAndName ++ [sizeField size])) h

theorem sizedLink_fileOf {size : Nat} (hsize : (Leb128.encode size).length ≤ 10)
    (h : (encodeRaw (hashAndName ++ [sizeField size])).length < 2 ^ 31) :
    SizedLink [] (fileOf size h) [] hashAndName (sizeField size) [] (.ofNat size) := by
  have hwithin : ∀ g ∈ hashAndName ++ [sizeField size], g.NumeralsWithin 10 := by
    have hconst : ∀ g ∈ hashAndName, g.NumeralsWithin 10 := by
      unfold RawField.NumeralsWithin
      decide +kernel
    have htag : (Leb128.Numeral.ofNat (3 * 8 + 0)).bytes.length ≤ 10 := by decide +kernel
    refine List.forall_mem_append.mpr ⟨hconst, List.forall_mem_singleton.mpr ?_⟩
    exact List.forall_mem_cons.mpr ⟨htag, List.forall_mem_singleton.mpr hsize⟩
  have hlength : (Leb128.encode (encodeRaw (hashAndName ++ [sizeField size])).length).length ≤ 5 :=
    Leb128.length_encode_le (Nat.lt_trans h (by decide))
  have hnode : (fileOf size h).NumeralsWithin 10 := by
    have htag : (Leb128.Numeral.ofNat (2 * 8 + 2)).bytes.length ≤ 10 := by decide +kernel
    refine List.forall_mem_cons.mpr ⟨htag, List.forall_mem_singleton.mpr ?_⟩
    exact Nat.le_trans hlength (by decide)
  refine ⟨List.forall_mem_singleton.mpr ⟨hnode, fun _ _ => ⟨_, rfl, hwithin⟩⟩, rfl, rfl, hwithin,
    rfl, ?_⟩
  intro g hg
  rw [List.append_nil] at hg
  rcases List.mem_cons.mp hg with rfl | hg
  · rfl
  · obtain rfl := List.mem_singleton.mp hg
    rfl

theorem size_justBelow : ∃ node link,
    DecodesTo asciiText (encodeRaw [fileOf (2 ^ 31 - 1) (by decide +kernel)]) node ∧
      node.links[0]? = some link ∧ link.size = 2 ^ 31 - 1 := by
  have hlink : SizedLink [] (fileOf (2 ^ 31 - 1) _) [] hashAndName (sizeField (2 ^ 31 - 1)) []
      (.ofNat (2 ^ 31 - 1)) := sizedLink_fileOf (by decide +kernel) (by decide +kernel)
  have hvalue : (Leb128.Numeral.ofNat (2 ^ 31 - 1)).value = 2 ^ 31 - 1 :=
    Leb128.Numeral.value_ofNat _
  have hexact := (size_eq_iff asciiText hlink).mpr
    ⟨by simp, Or.inr ⟨by rw [hvalue]; decide, by decide⟩⟩
  rw [hvalue] at hexact
  exact hexact

def twoGiB : RawField := fileOf (2 ^ 31) (by decide +kernel)

theorem size_twoGiB :
    SizedLink [] twoGiB [] hashAndName (sizeField (2 ^ 31)) [] (.ofNat (2 ^ 31)) ∧
      DecodesTo asciiText (encodeRaw [twoGiB]) ⟨[⟨some [1, 2, 3], "a", -2147483648⟩], none⟩ ∧
      ¬ ∃ node link, DecodesTo asciiText (encodeRaw [twoGiB]) node ∧
        node.links[0]? = some link ∧ link.size = 2 ^ 31 := by
  have hdecodes : DecodesTo asciiText (encodeRaw [twoGiB])
      ⟨[⟨some [1, 2, 3], "a", -2147483648⟩], none⟩ := ⟨100, by decide +kernel⟩
  refine ⟨sizedLink_fileOf (by decide +kernel) _, hdecodes, ?_⟩
  rintro ⟨node, link, hnode, hlink, hsize⟩
  obtain rfl := hnode.unique hdecodes
  cases hlink
  cases hsize

end IpfsShard.DagPb
