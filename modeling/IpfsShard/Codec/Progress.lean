import IpfsShard.Codec.Scan

/-! When `decodeMessage` goes forward: on exactly the inputs with positive widths. -/

namespace IpfsShard.Codec
open Loop Cursor

variable (M : Multiformats)

theorem wantEntryPass_offset (bytes : Bytes) (s : WantEntry) :
    advance .wantEntry bytes s.offset = some (wantEntryPass bytes s).offset := by
  simp only [advance, LoopKind.rule, wantEntryPass]
  split_ifs <;> rfl

theorem payloadBlockPass_offset (bytes : Bytes) (s : PayloadBlock) :
    advance .payloadBlock bytes s.offset = some (payloadBlockPass bytes s).offset := by
  simp only [advance, LoopKind.rule, payloadBlockPass]
  split_ifs <;> rfl

theorem wantlistBody_offset {fuel : Nat} {bytes : Bytes} {s : Wantlist} {p : Pass Wantlist}
    (h : wantlistBody M fuel bytes s = some p) :
    ∃ t, p = .next t ∧ advance .wantlist bytes s.offset = some t.offset := by
  simp only [wantlistBody] at h
  simp only [advance, LoopKind.rule]
  split_ifs at h ⊢
  · split at h <;> cases h
    exact ⟨_, rfl, rfl⟩
  · cases h
    exact ⟨_, rfl, rfl⟩
  · cases h
    exact ⟨_, rfl, rfl⟩

theorem messageBody_offset {fuel : Nat} {bytes : Bytes} {s : Message} {p : Pass Message}
    (h : messageBody M fuel bytes s = some p) :
    (∃ t, p = .next t ∧ advance .message bytes s.offset = some t.offset) ∨
      ∃ t, p = .exit t ∧ advance .message bytes s.offset = none := by
  simp only [messageBody] at h
  simp only [advance, LoopKind.rule]
  split_ifs at h ⊢
  · split at h <;> cases h
    exact Or.inl ⟨_, rfl, rfl⟩
  · split at h <;> cases h
    exact Or.inl ⟨_, rfl, rfl⟩
  · cases h
    exact Or.inl ⟨_, rfl, rfl⟩
  · cases h
    exact Or.inr ⟨_, rfl, rfl⟩

theorem wantEntryLoop_follows (bytes : Bytes) :
    Follows (width .wantEntry) bytes (wantEntryLoop bytes) (·.offset) {} :=
  follows_of_advance rfl (by simp [wantEntryLoop])
    (fun s t h => by cases h; exact wantEntryPass_offset bytes s)
    (fun s t h => by cases h)

theorem payloadBlockLoop_follows (bytes : Bytes) :
    Follows (width .payloadBlock) bytes (payloadBlockLoop bytes) (·.offset) {} :=
  follows_of_advance rfl (by simp [payloadBlockLoop])
    (fun s t h => by cases h; exact payloadBlockPass_offset bytes s)
    (fun s t h => by cases h)

theorem wantlistLoop_follows (fuel : Nat) (bytes : Bytes) (out : List CID) :
    Follows (width .wantlist) bytes (wantlistLoop M fuel bytes) (·.offset) { out } := by
  refine follows_of_advance rfl (by simp [wantlistLoop]) (fun s t h => ?_) (fun s t h => ?_)
  · obtain ⟨u, hu, hadv⟩ := wantlistBody_offset M h
    cases hu
    exact hadv
  · obtain ⟨u, hu, -⟩ := wantlistBody_offset M h
    cases hu

theorem messageLoop_follows (fuel : Nat) (bytes : Bytes) :
    Follows (width .message) bytes (messageLoop M fuel bytes) (·.offset) {} := by
  refine follows_of_advance rfl (by simp [messageLoop]) (fun s t h => ?_) (fun s t h => ?_)
  · rcases messageBody_offset M h with ⟨u, hu, hadv⟩ | ⟨u, hu, -⟩
    · cases hu
      exact hadv
    · cases hu
  · rcases messageBody_offset M h with ⟨u, hu, -⟩ | ⟨u, hu, hadv⟩
    · cases hu
    · exact hadv

/-- `decodeWantlist` on `bytes`, and `decodeWantEntry` in each of its passes, only move
their offsets up. -/
def WantlistProgress (fuel : Nat) (bytes : Bytes) (out : List CID) : Prop :=
  (wantlistLoop M fuel bytes).Advances (·.offset) { out } ∧
  ∀ s, (wantlistLoop M fuel bytes).Visits { out } s → s.offset < bytes.length →
    let tag := readTag bytes s.offset
    tag.wireType = 2 → tag.fieldNum = 1 →
      (wantEntryLoop (readLenDelimited bytes tag.next).1).Advances (·.offset) {}

def MessageProgress (fuel : Nat) (bytes : Bytes) : Prop :=
  (messageLoop M fuel bytes).Advances (·.offset) {} ∧
  ∀ s, (messageLoop M fuel bytes).Visits {} s → s.offset < bytes.length →
    let tag := readTag bytes s.offset
    let fieldBytes := (readLenDelimited bytes tag.next).1
    tag.wireType = 2 →
      (tag.fieldNum = 1 → WantlistProgress M fuel fieldBytes s.wantBlocks) ∧
      (tag.fieldNum = 3 → (payloadBlockLoop fieldBytes).Advances (·.offset) {})

/-- `decodeMessage` returns, and at every iteration of the four loops the offset strictly
increases. -/
def DecoderProgress (bytes : Bytes) : Prop :=
  (∃ message, DecodesTo M bytes message) ∧ ∀ fuel, MessageProgress M fuel bytes

theorem readLenDelimited_length_le (bytes : Bytes) (offset : Int) :
    (readLenDelimited bytes offset).1.length ≤ bytes.length := slice_length_le _ _ _

theorem wantEntryLoop_advances_iff (bytes : Bytes) :
    (wantEntryLoop bytes).Advances (·.offset) {} ↔ WidthsPositive .wantEntry bytes :=
  ((wantEntryLoop_follows bytes).advances_iff (by simp [wantEntryLoop])).trans
    (widthsPositive_leaf_iff (fun _ => rfl) bytes).symm

theorem payloadBlockLoop_advances_iff (bytes : Bytes) :
    (payloadBlockLoop bytes).Advances (·.offset) {} ↔ WidthsPositive .payloadBlock bytes :=
  ((payloadBlockLoop_follows bytes).advances_iff (by simp [payloadBlockLoop])).trans
    (widthsPositive_leaf_iff (fun _ => rfl) bytes).symm

theorem decodeWantEntry_returns {bytes : Bytes} (h : WidthsPositive .wantEntry bytes) {fuel : Nat}
    (hfuel : bytes.length < fuel) : decodeWantEntry fuel bytes ≠ none := by
  obtain ⟨r, hr⟩ := (wantEntryLoop_follows bytes).run ((widthsPositive_iff ..).mp h)
    (by simp [wantEntryLoop])
  simp [decodeWantEntry, While.run_fuel hfuel hr]

theorem decodePayloadBlock_returns {bytes : Bytes} (h : WidthsPositive .payloadBlock bytes)
    {fuel : Nat} (hfuel : bytes.length < fuel) : decodePayloadBlock fuel bytes ≠ none := by
  obtain ⟨r, hr⟩ := (payloadBlockLoop_follows bytes).run ((widthsPositive_iff ..).mp h)
    (by simp [payloadBlockLoop])
  simp [decodePayloadBlock, While.run_fuel hfuel hr]

theorem innerLoop_wantlist {bytes : Bytes} {offset : Int} (h2 : (readTag bytes offset).wireType = 2)
    (h1 : (readTag bytes offset).fieldNum = 1) :
    innerLoop .wantlist bytes offset =
      some (.wantEntry, (readLenDelimited bytes (readTag bytes offset).next).1) := by
  simp [innerLoop, LoopKind.rule, LoopKind.inner, h2, h1]

theorem innerLoop_message {bytes : Bytes} {offset : Int}
    (h2 : (readTag bytes offset).wireType = 2) :
    innerLoop .message bytes offset =
      (LoopKind.message.inner (readTag bytes offset)).map
        fun k => (k, (readLenDelimited bytes (readTag bytes offset).next).1) := by
  simp [innerLoop, LoopKind.rule, h2]

theorem wantlistProgress_of_widthsPositive {bytes : Bytes} (h : WidthsPositive .wantlist bytes)
    (fuel : Nat) (out : List CID) : WantlistProgress M fuel bytes out := by
  have hfollows := wantlistLoop_follows M fuel bytes out
  refine ⟨hfollows.advances ((widthsPositive_iff ..).mp h), ?_⟩
  intro s hv hlt tag h2 h1
  exact (wantEntryLoop_advances_iff _).mpr
    (innerPositive_of_visits hfollows h hv hlt (innerLoop_wantlist h2 h1))

theorem decodeWantlist_returns {bytes : Bytes} (h : WidthsPositive .wantlist bytes) {fuel : Nat}
    (hfuel : bytes.length < fuel) (out : List CID) : decodeWantlist M fuel bytes out ≠ none := by
  have hfollows := wantlistLoop_follows M fuel bytes out
  have hbody : ∀ t, (wantlistLoop M fuel bytes).Visits { out } t →
      (wantlistLoop M fuel bytes).cond t = true → (wantlistLoop M fuel bytes).body t ≠ none := by
    intro t hv hc
    simp only [wantlistLoop, wantlistBody]
    split_ifs with htag
    · have hentry := innerPositive_of_visits hfollows h hv ((hfollows.cond t hv).mp hc)
        (innerLoop_wantlist htag.1 htag.2)
      have hlen := readLenDelimited_length_le bytes (readTag bytes t.offset).next
      split
      · exact absurd ‹_› (decodeWantEntry_returns hentry (by omega))
      · simp
    · simp
    · simp
  obtain ⟨r, hr⟩ := hfollows.run ((widthsPositive_iff ..).mp h) hbody
  simp [decodeWantlist, While.run_fuel hfuel hr]

theorem messageProgress_of_widthsPositive {bytes : Bytes} (h : WidthsPositive .message bytes)
    (fuel : Nat) : MessageProgress M fuel bytes := by
  have hfollows := messageLoop_follows M fuel bytes
  refine ⟨hfollows.advances ((widthsPositive_iff ..).mp h), ?_⟩
  intro s hv hlt tag fieldBytes h2
  constructor
  · intro h1
    refine wantlistProgress_of_widthsPositive M
      (innerPositive_of_visits hfollows h hv hlt (k := .wantlist) ?_) fuel _
    rw [innerLoop_message h2]
    simp [LoopKind.inner, tag, h1, fieldBytes]
  · intro h3
    refine (payloadBlockLoop_advances_iff _).mpr
      (innerPositive_of_visits hfollows h hv hlt (k := .payloadBlock) ?_)
    rw [innerLoop_message h2]
    simp [LoopKind.inner, tag, h3, fieldBytes]

theorem decodeMessage_returns {bytes : Bytes} (h : WidthsPositive .message bytes) {fuel : Nat}
    (hfuel : bytes.length < fuel) : decodeMessage M fuel bytes ≠ none := by
  have hfollows := messageLoop_follows M fuel bytes
  have hbody : ∀ t, (messageLoop M fuel bytes).Visits {} t →
      (messageLoop M fuel bytes).cond t = true → (messageLoop M fuel bytes).body t ≠ none := by
    intro t hv hc
    have hlt := (hfollows.cond t hv).mp hc
    have hlen := readLenDelimited_length_le bytes (readTag bytes t.offset).next
    simp only [messageLoop, messageBody]
    split_ifs with h2 h1 h3
    · have hwant := innerPositive_of_visits hfollows h hv hlt (k := .wantlist)
        (by rw [innerLoop_message h2]; simp [LoopKind.inner, h1]; rfl)
      split
      · exact absurd ‹_› (decodeWantlist_returns M hwant (by omega) _)
      · simp
    · have hblock := innerPositive_of_visits hfollows h hv hlt (k := .payloadBlock)
        (by rw [innerLoop_message h2]; simp [LoopKind.inner, h3]; rfl)
      split
      · exact absurd ‹_› (decodePayloadBlock_returns hblock (by omega))
      · simp
    · simp
    · simp
  obtain ⟨r, hr⟩ := hfollows.run ((widthsPositive_iff ..).mp h) hbody
  simp [decodeMessage, While.run_fuel hfuel hr]

theorem widthsPositive_of_wantlistProgress {fuel : Nat} {bytes : Bytes} {out : List CID}
    (hret : decodeWantlist M fuel bytes out ≠ none) (h : WantlistProgress M fuel bytes out) :
    WidthsPositive .wantlist bytes := by
  obtain ⟨out', hout⟩ := Option.ne_none_iff_exists'.mp hret
  obtain ⟨r, hr, -⟩ := Option.map_eq_some_iff.mp hout
  have hfollows := wantlistLoop_follows M fuel bytes out
  refine widthsPositive_of_run hfollows hr h.1 ?_
  intro t hv hc _ k body hi
  -- an inner loop is run only in fields of the first kind
  by_cases htag : (readTag bytes t.offset).wireType = 2 ∧ (readTag bytes t.offset).fieldNum = 1
  · rw [innerLoop_wantlist htag.1 htag.2] at hi
    cases hi
    exact (wantEntryLoop_advances_iff _).mp
      (h.2 t hv ((hfollows.cond t hv).mp hc) htag.1 htag.2)
  · simp only [innerLoop, LoopKind.rule, if_neg htag] at hi
    split_ifs at hi

theorem widthsPositive_of_messageProgress {fuel : Nat} {bytes : Bytes}
    (hret : decodeMessage M fuel bytes ≠ none) (h : MessageProgress M fuel bytes) :
    WidthsPositive .message bytes := by
  obtain ⟨message, hmsg⟩ := Option.ne_none_iff_exists'.mp hret
  obtain ⟨r, hr, -⟩ := Option.map_eq_some_iff.mp hmsg
  have hfollows := messageLoop_follows M fuel bytes
  refine widthsPositive_of_run hfollows hr h.1 ?_
  intro t hv hc hb k body hi
  by_cases h2 : (readTag bytes t.offset).wireType = 2
  · have hmid := h.2 t hv ((hfollows.cond t hv).mp hc) h2
    rw [innerLoop_message h2] at hi
    obtain ⟨k', hk, hkb⟩ := Option.map_eq_some_iff.mp hi
    cases hkb
    simp only [messageLoop, messageBody, if_pos h2] at hb
    simp only [LoopKind.inner] at hk
    split_ifs at hk with h1 h3
    · cases hk
      rw [if_pos h1] at hb
      refine widthsPositive_of_wantlistProgress M (fun hnone => hb ?_) (hmid.1 h1)
      rw [hnone]
    · cases hk
      exact (payloadBlockLoop_advances_iff _).mp (hmid.2 h3)
  · simp [innerLoop, LoopKind.rule, h2] at hi

theorem decoderProgress_iff (bytes : Bytes) :
    DecoderProgress M bytes ↔ WidthsPositive .message bytes := by
  constructor
  · rintro ⟨⟨message, fuel, hmsg⟩, h⟩
    exact widthsPositive_of_messageProgress M (by simp [hmsg]) (h fuel)
  · intro h
    obtain ⟨message, hmsg⟩ := Option.ne_none_iff_exists'.mp
      (decodeMessage_returns M h (Nat.lt_succ_self bytes.length))
    exact ⟨⟨message, _, hmsg⟩, messageProgress_of_widthsPositive M h⟩

/-- Field 2 with a declared length of -6, as wide as its tag and its length prefix. -/
def backwardsMessage : Bytes := [0x12, 0xFA, 0xFF, 0xFF, 0xFF, 0x0F]

theorem decodeMessage_backwards (fuel : Nat) : decodeMessage M fuel backwardsMessage = none := by
  rw [decodeMessage, Option.map_eq_none_iff]
  refine While.run_eq_none (I := (· = {})) ?_ rfl fuel
  rintro s rfl
  refine ⟨rfl, Or.inr ⟨{}, ?_, rfl⟩⟩
  rfl

theorem not_decoderProgress_backwards :
    ¬ ∃ M : Multiformats, DecoderProgress M backwardsMessage := by
  rintro ⟨M, ⟨message, fuel, hmsg⟩, -⟩
  rw [decodeMessage_backwards] at hmsg
  cases hmsg

end IpfsShard.Codec
