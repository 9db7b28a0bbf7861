import IpfsShard.Codec.RawFields
import IpfsShard.Codec.Scan

/-! Fields that `decodeMessage` does not use: which kinds of them may stand in a message without
an influence on what is decoded, at each of the four nesting levels. -/

namespace IpfsShard.Codec
open Loop Wire Leb128

namespace LoopKind

def Reads : LoopKind → RawField → Prop
  | message, f => f.wireType = .lenDelimited ∧ (f.num = 1 ∨ f.num = 3)
  | wantlist, f => f.wireType = .lenDelimited ∧ f.num = 1
  | wantEntry, f => (f.wireType = .lenDelimited ∧ f.num = 1) ∨
      (f.wireType = .varint ∧ (f.num = 3 ∨ f.num = 4))
  | payloadBlock, f => f.wireType = .lenDelimited ∧ (f.num = 1 ∨ f.num = 2)

def nested : LoopKind → Nat → Option LoopKind
  | message, num =>
    if num = 1 then some wantlist else if num = 3 then some payloadBlock else none
  | wantlist, num => if num = 1 then some wantEntry else none
  | wantEntry, _ => none
  | payloadBlock, _ => none

def stepsOver : LoopKind → List WireType
  | message => [.lenDelimited]
  | wantlist => [.varint]
  | wantEntry => [.varint, .lenDelimited]
  | payloadBlock => [.lenDelimited]

end LoopKind

section
variable (kinds : LoopKind → WireType → Prop)

inductive WellFormed : LoopKind → RawField → Prop where
  | unused {kind : LoopKind} {f : RawField} : ¬ kind.Reads f → kinds kind f.wireType →
      WellFormed kind f
  | leaf {kind : LoopKind} {f : RawField} : kind.Reads f → kind.nested f.num = none →
      WellFormed kind f
  | node {kind inner : LoopKind} {f : RawField} {fields : List RawField} : kind.Reads f →
      kind.nested f.num = some inner → f.body = encodeRaw fields →
      (∀ g ∈ fields, WellFormed inner g) → WellFormed kind f

inductive Inserts : LoopKind → List RawField → List RawField → Prop where
  | here {kind : LoopKind} {f : RawField} {front back : List RawField} :
      (∀ g ∈ front ++ back, WellFormed kinds kind g) → ¬ kind.Reads f → kinds kind f.wireType →
      Inserts kind (front ++ back) (front ++ f :: back)
  | inside {kind inner : LoopKind} {f f' : RawField} {fields fields' front back : List RawField} :
      (∀ g ∈ front ++ back, WellFormed kinds kind g) → kind.Reads f →
      kind.nested f.num = some inner → f'.num = f.num → f'.wireType = f.wireType →
      f.body = encodeRaw fields → f'.body = encodeRaw fields' → Inserts inner fields fields' →
      Inserts kind (front ++ f :: back) (front ++ f' :: back)

/-- A field of these kinds, put into a message at any level, has no influence on what is
decoded. -/
def Unseen : Prop :=
  ∀ M base ext, Inserts kinds .message base ext → ∃ message : DecodedMessage,
    DecodesTo M (encodeRaw base) message ∧ DecodesTo M (encodeRaw ext) message

end

variable {kinds : LoopKind → WireType → Prop} {kind : LoopKind} {f f' : RawField}
  {base ext : List RawField} {M : Multiformats}

theorem reads_congr (hnum : f'.num = f.num) (hwire : f'.wireType = f.wireType) :
    kind.Reads f' ↔ kind.Reads f := by
  cases kind <;> simp only [LoopKind.Reads, hnum, hwire]

theorem forall_mem_middle {p : RawField → Prop} {front back : List RawField} :
    (∀ g ∈ front ++ f :: back, p g) ↔ (∀ g ∈ front ++ back, p g) ∧ p f := by
  simp only [List.forall_mem_append, List.forall_mem_cons]
  exact ⟨fun h => ⟨⟨h.1, h.2.2⟩, h.2.1⟩, fun h => ⟨h.1.1, h.2, h.1.2⟩⟩

theorem Inserts.wellFormed (h : Inserts kinds kind base ext) :
    (∀ g ∈ base, WellFormed kinds kind g) ∧ ∀ g ∈ ext, WellFormed kinds kind g := by
  induction h with
  | here hwf hreads hkind => exact ⟨hwf, forall_mem_middle.mpr ⟨hwf, .unused hreads hkind⟩⟩
  | inside hwf hreads hnested hnum hwire hbody hbody' _ ih =>
    have hreads' := (reads_congr hnum hwire).mpr hreads
    exact ⟨forall_mem_middle.mpr ⟨hwf, .node hreads hnested hbody ih.1⟩,
      forall_mem_middle.mpr ⟨hwf, .node hreads' (hnum ▸ hnested) hbody' ih.2⟩⟩

theorem wantEntry_updateRaw (h : ¬ LoopKind.wantEntry.Reads f) (s : WantEntry) :
    s.updateRaw f = s := by
  simp only [LoopKind.Reads, RawField.wireType] at h
  unfold WantEntry.updateRaw WantEntry.take
  cases hp : f.payload with
  | varint value =>
    simp only [hp, Payload.wireType, reduceCtorEq, false_and, true_and, false_or, not_or] at h
    simp only [if_neg h.1, if_neg h.2]
  | lenDelimited length bytes =>
    simp only [hp, Payload.wireType, reduceCtorEq, false_and, true_and, or_false] at h
    simp only [if_neg h]
  | fixed64 => rfl
  | fixed32 => rfl

theorem payloadBlock_updateRaw (h : ¬ LoopKind.payloadBlock.Reads f) (s : PayloadBlock) :
    s.updateRaw f = s := by
  simp only [LoopKind.Reads, RawField.wireType] at h
  unfold PayloadBlock.updateRaw PayloadBlock.take
  cases hp : f.payload with
  | lenDelimited length bytes =>
    simp only [hp, Payload.wireType, true_and, not_or] at h
    simp only [if_neg h.1, if_neg h.2]
  | varint => rfl
  | fixed64 => rfl
  | fixed32 => rfl

theorem inserts_wantEntry (h : Inserts kinds .wantEntry base ext) :
    base.foldl WantEntry.updateRaw {} = ext.foldl WantEntry.updateRaw {} := by
  cases h with
  | here _ hreads _ =>
    simp only [List.foldl_append, List.foldl_cons, wantEntry_updateRaw hreads]
  | inside _ _ hnested => cases hnested

theorem inserts_payloadBlock (h : Inserts kinds .payloadBlock base ext) :
    base.foldl PayloadBlock.updateRaw {} = ext.foldl PayloadBlock.updateRaw {} := by
  cases h with
  | here _ hreads _ =>
    simp only [List.foldl_append, List.foldl_cons, payloadBlock_updateRaw hreads]
  | inside _ _ hnested => cases hnested

section
variable (hkinds : ∀ kind wt, kinds kind wt → wt ∈ kind.stepsOver)
include hkinds

theorem wantEntry_wireType (h : WellFormed kinds .wantEntry f) :
    f.wireType = .varint ∨ f.wireType = .lenDelimited := by
  cases h with
  | unused _ hkind => simpa [LoopKind.stepsOver] using hkinds _ _ hkind
  | leaf hreads => exact hreads.symm.imp And.left And.left
  | node _ hnested => cases hnested

theorem payloadBlock_wireType (h : WellFormed kinds .payloadBlock f) :
    f.wireType = .lenDelimited := by
  cases h with
  | unused _ hkind => simpa [LoopKind.stepsOver] using hkinds _ _ hkind
  | leaf hreads => exact hreads.1
  | node _ hnested => cases hnested

theorem listField_of_wellFormed (h : WellFormed kinds .wantlist f) : ListField f := by
  cases h with
  | unused _ hkind => exact Or.inl (by simpa [LoopKind.stepsOver] using hkinds _ _ hkind)
  | leaf hreads hnested => simp [LoopKind.nested, hreads.2] at hnested
  | @node _ _ _ fields hreads hnested hbody hfields =>
    simp only [LoopKind.nested, if_pos hreads.2, Option.some.injEq] at hnested
    subst hnested
    refine Or.inr ⟨hreads.2, hreads.1, { fields.foldl WantEntry.updateRaw {} with
      offset := (encodeRaw fields).length }, fun fuel hfuel => ?_⟩
    rw [hbody] at hfuel ⊢
    exact decodeWantEntry_raw (fun g hg => wantEntry_wireType hkinds (hfields g hg)) hfuel

theorem inserts_wantlist (h : Inserts kinds .wantlist base ext) :
    base.flatMap (wantsOf M) = ext.flatMap (wantsOf M) := by
  cases h with
  | here _ hreads _ =>
    simp only [List.flatMap_append, List.flatMap_cons, wantsOf]
    rw [if_neg fun h => hreads h.symm, List.nil_append]
  | @inside _ _ f f' fields fields' _ _ _ hreads hnested hnum hwire hbody hbody' hins =>
    simp only [LoopKind.nested, if_pos hreads.2, Option.some.injEq] at hnested
    subst hnested
    obtain ⟨hwf, hwf'⟩ := hins.wellFormed
    have hown : wantsOf M f = wantsOf M f' := by
      unfold wantsOf
      rw [hnum, hwire, hbody, hbody',
        decodeWantEntry_raw (fun g hg => wantEntry_wireType hkinds (hwf g hg)) (Nat.lt_succ_self _),
        decodeWantEntry_raw (fun g hg => wantEntry_wireType hkinds (hwf' g hg))
          (Nat.lt_succ_self _),
        inserts_wantEntry hins]
      rfl
    simp only [List.flatMap_append, List.flatMap_cons, hown]

theorem messageField_of_wellFormed (h : WellFormed kinds .message f) : MessageField M f := by
  cases h with
  | unused hreads hkind =>
    have hwire : f.wireType = .lenDelimited := by
      simpa [LoopKind.stepsOver] using hkinds _ _ hkind
    exact ⟨hwire, fun hnum => absurd ⟨hwire, Or.inl hnum⟩ hreads,
      fun hnum => absurd ⟨hwire, Or.inr hnum⟩ hreads⟩
  | leaf hreads hnested =>
    rcases hreads.2 with hnum | hnum <;> simp [LoopKind.nested, hnum] at hnested
  | @node _ _ _ fields hreads hnested hbody hfields =>
    refine ⟨hreads.1, fun hnum => ?_, fun hnum => ?_⟩
    · simp only [LoopKind.nested, if_pos hnum, Option.some.injEq] at hnested
      subst hnested
      refine ⟨fields.flatMap (wantsOf M), fun fuel hfuel out => ?_⟩
      rw [hbody] at hfuel ⊢
      exact decodeWantlist_raw (fun g hg => listField_of_wellFormed hkinds (hfields g hg)) hfuel out
    · simp only [LoopKind.nested, hnum] at hnested
      cases hnested
      refine ⟨(fields.foldl PayloadBlock.updateRaw {}).block, fun fuel hfuel => ?_⟩
      rw [hbody] at hfuel ⊢
      exact decodePayloadBlock_raw
        (fun g hg => payloadBlock_wireType hkinds (hfields g hg)) hfuel

theorem inserts_message (h : Inserts kinds .message base ext) :
    base.flatMap (wantlistOf M) = ext.flatMap (wantlistOf M) ∧
      base.flatMap blocksOf = ext.flatMap blocksOf := by
  cases h with
  | here _ hreads _ =>
    simp only [List.flatMap_append, List.flatMap_cons, wantlistOf, blocksOf]
    rw [if_neg fun h => hreads ⟨h.2, Or.inl h.1⟩, if_neg fun h => hreads ⟨h.2, Or.inr h.1⟩]
    exact ⟨rfl, rfl⟩
  | @inside _ _ f f' fields fields' _ _ _ hreads hnested hnum hwire hbody hbody' hins =>
    obtain ⟨hwf, hwf'⟩ := hins.wellFormed
    have hown : wantlistOf M f = wantlistOf M f' ∧ blocksOf f = blocksOf f' := by
      unfold wantlistOf blocksOf
      rw [hnum, hwire, hbody, hbody']
      rcases hreads.2 with h1 | h3
      · simp only [LoopKind.nested, if_pos h1, Option.some.injEq] at hnested
        subst hnested
        rw [decodeWantlist_raw (fun g hg => listField_of_wellFormed hkinds (hwf g hg))
            (Nat.lt_succ_self _),
          decodeWantlist_raw (fun g hg => listField_of_wellFormed hkinds (hwf' g hg))
            (Nat.lt_succ_self _), inserts_wantlist hkinds hins]
        simp [h1]
      · simp only [LoopKind.nested, h3] at hnested
        cases hnested
        rw [decodePayloadBlock_raw (fun g hg => payloadBlock_wireType hkinds (hwf g hg))
            (Nat.lt_succ_self _),
          decodePayloadBlock_raw (fun g hg => payloadBlock_wireType hkinds (hwf' g hg))
            (Nat.lt_succ_self _), inserts_payloadBlock hins]
        simp [h3]
    simp only [List.flatMap_append, List.flatMap_cons, hown.1, hown.2, and_self]

theorem unseen_of_stepsOver : Unseen kinds := by
  intro M base ext h
  obtain ⟨hwf, hwf'⟩ := h.wellFormed
  have hbase := decodeMessage_raw (M := M)
    (fun g hg => messageField_of_wellFormed hkinds (hwf g hg)) (Nat.lt_succ_self _)
  have hext := decodeMessage_raw (M := M)
    (fun g hg => messageField_of_wellFormed hkinds (hwf' g hg)) (Nat.lt_succ_self _)
  obtain ⟨hwants, hblocks⟩ := inserts_message (M := M) hkinds h
  rw [hwants, hblocks] at hbase
  exact ⟨_, ⟨_, hbase⟩, ⟨_, hext⟩⟩

end

open Multiformats

def lenField (num : Nat) (bytes : Bytes) (hnum : num < 2 ^ 29) (h : bytes.length < 2 ^ 31) :
    RawField :=
  .ofPayload num (.lenDelimited (.ofNat bytes.length) bytes (Numeral.value_ofNat _) h) hnum

/-- A field of number 7. The fixed payloads look like a field of number 1 and length 10. -/
def unusedField (wt : WireType) : RawField :=
  .ofPayload 7 (match wt with
    | .varint => .varint (.ofNat 10)
    | .fixed64 => .fixed64 [10, 10, 10, 10, 10, 10, 10, 10] rfl
    | .lenDelimited => .lenDelimited (.ofNat 0) [] (Numeral.value_ofNat 0) (by decide)
    | .fixed32 => .fixed32 [10, 10, 10, 10] rfl) (by decide)

def sampleEntry : List RawField :=
  [lenField 1 (encodeCid emptyRaw) (by decide) (by decide +kernel)]

def sampleWantlist : List RawField :=
  [lenField 1 (encodeRaw sampleEntry) (by decide) (by decide +kernel)]

def sampleBlock : List RawField :=
  [lenField 1 [0x01, 0x55, 0x12, 0x20] (by decide) (by decide),
    lenField 2 [] (by decide) (by decide)]

def wantSample : List RawField :=
  [lenField 1 (encodeRaw sampleWantlist) (by decide) (by decide +kernel)]

def blockSample : List RawField :=
  [lenField 3 (encodeRaw sampleBlock) (by decide) (by decide +kernel)]

def sample : LoopKind → List RawField
  | .message | .payloadBlock => blockSample
  | .wantlist | .wantEntry => wantSample

def entryWith (wt : WireType) : RawField :=
  lenField 1 (encodeRaw (unusedField wt :: sampleEntry)) (by decide)
    (by cases wt <;> decide +kernel)

def sampleWith : LoopKind → WireType → List RawField
  | .message, wt => unusedField wt :: blockSample
  | .wantlist, wt => [lenField 1 (encodeRaw (unusedField wt :: sampleWantlist)) (by decide)
      (by cases wt <;> decide +kernel)]
  | .wantEntry, wt =>
    [lenField 1 (encodeRaw [entryWith wt]) (by decide) (by cases wt <;> decide +kernel)]
  | .payloadBlock, wt => [lenField 3 (encodeRaw (unusedField wt :: sampleBlock)) (by decide)
      (by cases wt <;> decide +kernel)]

theorem not_reads_unusedField (wt : WireType) : ¬ kind.Reads (unusedField wt) := by
  have hnum : (unusedField wt).num = 7 := rfl
  cases kind <;> simp [LoopKind.Reads, hnum]

theorem sampleEntry_wellFormed : ∀ g ∈ sampleEntry, WellFormed kinds .wantEntry g := by
  simp only [sampleEntry, List.forall_mem_singleton]
  exact .leaf (Or.inl ⟨rfl, rfl⟩) rfl

theorem sampleWantlist_wellFormed : ∀ g ∈ sampleWantlist, WellFormed kinds .wantlist g := by
  simp only [sampleWantlist, List.forall_mem_singleton]
  exact .node ⟨rfl, rfl⟩ rfl rfl sampleEntry_wellFormed

theorem sampleBlock_wellFormed : ∀ g ∈ sampleBlock, WellFormed kinds .payloadBlock g := by
  simp only [sampleBlock, List.forall_mem_cons, List.not_mem_nil, false_implies, implies_true,
    and_true]
  exact ⟨.leaf ⟨rfl, Or.inl rfl⟩ rfl, .leaf ⟨rfl, Or.inr rfl⟩ rfl⟩

theorem blockSample_wellFormed : ∀ g ∈ blockSample, WellFormed kinds .message g := by
  simp only [blockSample, List.forall_mem_singleton]
  exact .node ⟨rfl, Or.inr rfl⟩ rfl rfl sampleBlock_wellFormed

theorem Inserts.first {fields : List RawField} (hfields : ∀ g ∈ fields, WellFormed kinds kind g)
    (hreads : ¬ kind.Reads f) (hkind : kinds kind f.wireType) :
    Inserts kinds kind fields (f :: fields) :=
  @Inserts.here kinds kind f [] fields hfields hreads hkind

theorem Inserts.only {inner : LoopKind} {fields fields' : List RawField}
    (hreads : kind.Reads f) (hnested : kind.nested f.num = some inner) (hnum : f'.num = f.num)
    (hwire : f'.wireType = f.wireType) (hbody : f.body = encodeRaw fields)
    (hbody' : f'.body = encodeRaw fields') (h : Inserts kinds inner fields fields') :
    Inserts kinds kind [f] [f'] :=
  @Inserts.inside kinds kind inner f f' fields fields' [] [] (List.forall_mem_nil _) hreads hnested
    hnum hwire hbody hbody' h

theorem inserts_sampleWith {wt : WireType} (h : kinds kind wt) :
    Inserts kinds .message (sample kind) (sampleWith kind wt) := by
  have hwire : (unusedField wt).wireType = wt := by cases wt <;> rfl
  have hfirst : ∀ {fields}, (∀ g ∈ fields, WellFormed kinds kind g) →
      Inserts kinds kind fields (unusedField wt :: fields) := fun hfields =>
    .first hfields (not_reads_unusedField wt) (hwire.symm ▸ h)
  cases kind with
  | message => exact hfirst blockSample_wellFormed
  | wantlist =>
    exact .only ⟨rfl, Or.inl rfl⟩ rfl rfl rfl rfl rfl (hfirst sampleWantlist_wellFormed)
  | wantEntry =>
    have hentry := hfirst sampleEntry_wellFormed
    exact .only ⟨rfl, Or.inl rfl⟩ rfl rfl rfl rfl rfl
      (.only ⟨rfl, rfl⟩ rfl rfl rfl rfl rfl hentry)
  | payloadBlock =>
    exact .only ⟨rfl, Or.inr rfl⟩ rfl rfl rfl rfl rfl (hfirst sampleBlock_wellFormed)

theorem decode_sampleWith {wt : WireType} (h : wt ∉ kind.stepsOver) :
    ∃ m m', m ≠ m' ∧ decodeMessage onEmptyBlock 100 (encodeRaw (sample kind)) = some m ∧
      decodeMessage onEmptyBlock 100 (encodeRaw (sampleWith kind wt)) = some m' := by
  have hdecoded : wt ∉ kind.stepsOver →
      (decodeMessage onEmptyBlock 100 (encodeRaw (sample kind))).isSome ∧
      (decodeMessage onEmptyBlock 100 (encodeRaw (sampleWith kind wt))).isSome ∧
      decodeMessage onEmptyBlock 100 (encodeRaw (sample kind)) ≠
        decodeMessage onEmptyBlock 100 (encodeRaw (sampleWith kind wt)) := by
    cases kind <;> cases wt <;> decide +kernel
  obtain ⟨hm, hm', hne⟩ := hdecoded h
  obtain ⟨m, hm⟩ := Option.isSome_iff_exists.mp hm
  obtain ⟨m', hm'⟩ := Option.isSome_iff_exists.mp hm'
  refine ⟨m, m', ?_, hm, hm'⟩
  rintro rfl
  exact hne (hm.trans hm'.symm)

/-- Unused fields of the given kinds have no influence on any message exactly if the loop of
their level steps over each of the kinds. -/
theorem unseen_iff (kinds : LoopKind → WireType → Prop) :
    Unseen kinds ↔ ∀ kind wt, kinds kind wt → wt ∈ kind.stepsOver := by
  constructor
  · intro h kind wt hkind
    by_contra hnot
    obtain ⟨m, m', hne, hm, hm'⟩ := decode_sampleWith hnot
    obtain ⟨message, hbase, hext⟩ := h onEmptyBlock _ _ (inserts_sampleWith hkind)
    exact hne ((DecodesTo.unique ⟨_, hm⟩ hbase).trans (hext.unique ⟨_, hm'⟩))
  · exact unseen_of_stepsOver

def pendingBytes : RawField := .ofPayload 5 (.varint (.ofNat 1)) (by decide)

/-- In front of the block that `encodeBlock` writes, `pendingBytes` ends the decoding. -/
theorem not_unseen_pendingBytes :
    encodeRaw blockSample = encodeBlock emptyRaw [] ∧
      encodeRaw (pendingBytes :: blockSample) = [0x28, 0x01] ++ encodeBlock emptyRaw [] ∧
      Inserts (fun _ _ => True) .message blockSample (pendingBytes :: blockSample) ∧
      DecodesTo onEmptyBlock (encodeRaw blockSample) ⟨[], [⟨[0x01, 0x55, 0x12, 0x20], []⟩]⟩ ∧
      DecodesTo onEmptyBlock (encodeRaw (pendingBytes :: blockSample)) ⟨[], []⟩ ∧
      ¬ Unseen fun _ _ => True := by
  have hinserts : Inserts (fun _ _ => True) .message blockSample (pendingBytes :: blockSample) :=
    .first blockSample_wellFormed (by simp [LoopKind.Reads, pendingBytes, RawField.wireType,
      RawField.ofPayload, Payload.wireType]) trivial
  have hbase : DecodesTo onEmptyBlock (encodeRaw blockSample)
      ⟨[], [⟨[0x01, 0x55, 0x12, 0x20], []⟩]⟩ := ⟨10, by decide +kernel⟩
  have hext : DecodesTo onEmptyBlock (encodeRaw (pendingBytes :: blockSample)) ⟨[], []⟩ :=
    ⟨10, by decide +kernel⟩
  refine ⟨by decide +kernel, by decide +kernel, hinserts, hbase, hext, fun h => ?_⟩
  obtain ⟨message, hm, hm'⟩ := h onEmptyBlock _ _ hinserts
  have hblocks := (hbase.unique hm).trans (hm'.unique hext)
  simp at hblocks

end IpfsShard.Codec
