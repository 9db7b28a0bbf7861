import IpfsShard.DagPb.Decode
import IpfsShard.Lib.Walk

/-! When the dag-pb parser returns: the lengths that it adds to its offsets are signed, so the
declared widths of fields can cancel out, and the last of them leads back to the first. -/

namespace IpfsShard.DagPb
open Loop Codec Walk

/-- The width that the field at `offset` declares: its tag, and a varint or a length with the bytes
that it counts. `none` behind the end, and where both loops stop. -/
def declaredWidth (block : Bytes) (offset : Int) : Option Int :=
  if offset < block.length then
    let tag := readTag block offset
    let (value, n) := readVarint block tag.next
    if tag.wireType = 2 then some (tag.next - offset + n + value)
    else if tag.wireType = 0 then some (tag.next - offset + n)
    else none
  else none

def isLink (tag : Tag) : Prop := tag.wireType = 2 ∧ tag.fieldNum = 2

/-- Of the declared widths in the block, and of those in the slice of each link met in it. -/
def Throughout (P : (Int → Option Int) → Prop) (block : Bytes) : Prop :=
  P (declaredWidth block) ∧ ∀ ws p, Strides (declaredWidth block) 0 ws p → p < block.length →
    isLink (readTag block p) → P (declaredWidth (readSlice block (readTag block p).next).1)

/-- The parser returns, with no more links than the block has bytes. -/
def Returns (decodeText : Bytes → String) (block : Bytes) : Prop :=
  ∃ node, DecodesTo decodeText block node ∧ node.links.length ≤ block.length

def nextField (block : Bytes) : Int → Option Int := behind (declaredWidth block)

def advance (block : Bytes) (offset : Int) : Option Int :=
  let tag := readTag block offset
  if tag.wireType = 2 then some (readSlice block tag.next).2
  else if tag.wireType = 0 then some (tag.next + (readVarint block tag.next).2)
  else none

variable {decodeText : Bytes → String} {block : Bytes} {offset p : Int}

variable (decodeText) in
theorem linkBody_advance (slice : Bytes) (s : LinkState) :
    (∃ t, linkBody decodeText slice s = .next t ∧ advance slice s.lo = some t.lo) ∨
      ∃ t, linkBody decodeText slice s = .exit t ∧ advance slice s.lo = none := by
  simp only [linkBody, advance]
  split_ifs
  · exact Or.inl ⟨_, rfl, rfl⟩
  · exact Or.inl ⟨_, rfl, rfl⟩
  · exact Or.inl ⟨_, rfl, rfl⟩
  · exact Or.inl ⟨_, rfl, rfl⟩
  · exact Or.inl ⟨_, rfl, rfl⟩
  · exact Or.inr ⟨_, rfl, rfl⟩

theorem nodeBody_advance {fuel : Nat} {s : NodeState} {pass : Pass NodeState}
    (h : nodeBody decodeText fuel block s = some pass) :
    (∃ t, pass = .next t ∧ advance block s.offset = some t.offset ∧
      (t.links = s.links ∨ isLink (readTag block s.offset) ∧
        t.links.length = s.links.length + 1)) ∨
      ∃ t, pass = .exit t ∧ advance block s.offset = none ∧ t.links = s.links := by
  simp only [nodeBody] at h
  simp only [advance]
  split_ifs at h ⊢ with hwire hdata hlink
  · cases h
    exact Or.inl ⟨_, rfl, rfl, Or.inl rfl⟩
  · split at h <;> cases h
    exact Or.inl ⟨_, rfl, rfl, Or.inr ⟨⟨hwire, hlink⟩, by simp⟩⟩
  · cases h
    exact Or.inl ⟨_, rfl, rfl, Or.inl rfl⟩
  · cases h
    exact Or.inl ⟨_, rfl, rfl, Or.inl rfl⟩
  · cases h
    exact Or.inr ⟨_, rfl, rfl, rfl⟩

theorem nextField_of_lt (h : offset < block.length) :
    nextField block offset = advance block offset := by
  simp only [nextField, behind, declaredWidth, if_pos h, advance, readSlice]
  split_ifs
  · rw [Option.map_some]
    exact congrArg some (by omega)
  · rw [Option.map_some]
    exact congrArg some (by omega)
  · rfl

theorem nextField_of_le (h : ¬ offset < block.length) : nextField block offset = none := by
  simp only [nextField, behind, declaredWidth, if_neg h, Option.map_none]

theorem lt_of_nextField (h : nextField block offset ≠ none) : offset < block.length := by
  by_contra hge
  exact h (nextField_of_le hge)

variable (decodeText) in
theorem linkLoop_walks (slice : Bytes) :
    Walks (nextField slice) (linkLoop decodeText slice) (·.lo) {} := by
  refine Walks.of_body rfl (fun s hc => nextField_of_le (by simpa [linkLoop] using hc)) ?_
  intro s pass hc hb
  obtain rfl : linkBody decodeText slice s = pass := Option.some.inj hb
  rw [nextField_of_lt (by simpa [linkLoop] using hc)]
  exact linkBody_advance decodeText slice s

variable (decodeText) in
theorem nodeLoop_walks (fuel : Nat) (block : Bytes) :
    Walks (nextField block) (nodeLoop decodeText fuel block) (·.offset) {} := by
  refine Walks.of_body rfl (fun s hc => nextField_of_le (by simpa [nodeLoop] using hc)) ?_
  intro s pass hc hb
  rw [nextField_of_lt (by simpa [nodeLoop] using hc)]
  rcases nodeBody_advance hb with ⟨t, ht, hadv, -⟩ | ⟨t, ht, hadv, -⟩
  · exact Or.inl ⟨t, ht, hadv⟩
  · exact Or.inr ⟨t, ht, hadv⟩

theorem readVarint_of_neg (h : offset < 0) : readVarint block offset = (0, 1) := by
  rw [readVarint, bytesFrom, if_pos h]
  rfl

theorem readTag_of_neg (h : offset < 0) : readTag block offset = ⟨0, 0, offset + 1⟩ := by
  rw [readTag, readVarint_of_neg h]
  rfl

theorem advance_ge (h : advance block offset = some p) (hoffset : -2 ^ 31 ≤ offset) :
    -2 ^ 31 ≤ p := by
  by_cases hneg : offset < 0
  · simp only [advance, readTag_of_neg hneg] at h
    cases h
    omega
  · have hlen : ∀ o, -2 ^ 31 ≤ (readVarint block o).1 := fun o => BitVec.le_toInt _
    have hnext : offset ≤ (readTag block offset).next := by
      simp only [readTag]
      omega
    simp only [advance] at h
    split_ifs at h
    · cases h
      have hle := hlen (readTag block offset).next
      simp only [readSlice]
      omega
    · cases h
      omega

theorem position_ge : ∀ i p, position (nextField block) i = some p → -2 ^ 31 ≤ p := by
  intro i
  induction i with
  | zero =>
    rintro p ⟨⟩
    decide
  | succ i ih =>
    intro p hp
    obtain ⟨q, hq, hnext⟩ := Option.bind_eq_some_iff.mp hp
    have hlt : q < block.length := lt_of_nextField (by simp [hnext])
    rw [nextField_of_lt hlt] at hnext
    exact advance_ge hnext (ih q hq)

def enough (block : Bytes) : Nat := block.length + 2 ^ 31 + 1

theorem ended_of_length_le {slice : Bytes} (h : NeverReturns (nextField slice))
    (hle : slice.length ≤ block.length) : position (nextField slice) (enough block) = none := by
  have hend := ended_of_neverReturns position_ge (fun p => lt_of_nextField) h
  have hfuel : ((slice.length : Int) - -2 ^ 31).toNat + 1 ≤ enough block := by
    unfold enough
    omega
  have hadd := position_none_add hend
    (enough block - (((slice.length : Int) - -2 ^ 31).toNat + 1))
  rwa [Nat.add_sub_cancel' hfuel] at hadd

theorem decodeLink_returns {slice : Bytes} (h : NeverReturns (nextField slice))
    (hle : slice.length ≤ block.length) : decodeLink decodeText (enough block) slice ≠ none := by
  obtain ⟨r, hr⟩ := (linkLoop_walks decodeText slice).run
    (fun s _ _ => by simp [linkLoop]) (ended_of_length_le h hle)
  simp [decodeLink, hr]

theorem neverReturns_of_decodeLink {fuel : Nat} {slice : Bytes}
    (h : decodeLink decodeText fuel slice ≠ none) : NeverReturns (nextField slice) := by
  obtain ⟨link, hlink⟩ := Option.ne_none_iff_exists'.mp h
  obtain ⟨r, hr, -⟩ := Option.map_eq_some_iff.mp hlink
  exact neverReturns_of_ended ((linkLoop_walks decodeText slice).ended hr)

theorem nodeBody_link {fuel : Nat} {s : NodeState} (h : isLink (readTag block s.offset)) :
    nodeBody decodeText fuel block s = none ↔
      decodeLink decodeText fuel (readSlice block (readTag block s.offset).next).1 = none := by
  simp only [nodeBody, if_pos h.1, h.2, if_true]
  cases hl : decodeLink decodeText fuel (readSlice block (readTag block s.offset).next).1 <;> simp

theorem nodeBody_other {fuel : Nat} {s : NodeState} (h : ¬ isLink (readTag block s.offset)) :
    nodeBody decodeText fuel block s ≠ none := by
  simp only [nodeBody]
  split_ifs with hwire hdata hlink
  · simp
  · exact absurd ⟨hwire, hlink⟩ h
  · simp
  · simp
  · simp

def starts (block : Bytes) (n : Nat) : Finset Nat :=
  (Finset.range n).filter fun i => 0 ≤ (position (nextField block) i).getD (-1)

theorem card_starts_le (h : NeverReturns (nextField block)) {n : Nat}
    (hn : position (nextField block) n ≠ none) : (starts block n).card ≤ block.length := by
  have hstart : ∀ i ∈ starts block n, ∃ p : Int, position (nextField block) i = some p ∧
      0 ≤ p ∧ p < block.length := by
    intro i hi
    obtain ⟨hlt, hpos⟩ := Finset.mem_filter.mp hi
    obtain ⟨p, q, hp, hnext⟩ := exists_next_of_lt hn (Finset.mem_range.mp hlt)
    rw [hp] at hpos
    exact ⟨p, hp, hpos, lt_of_nextField (by simp [hnext])⟩
  have hcard : (starts block n).card ≤ (Finset.Ico (0 : Int) block.length).card := by
    apply Finset.card_le_card_of_injOn fun i => (position (nextField block) i).getD (-1)
    · intro i hi
      obtain ⟨p, hp, hpos, hlt⟩ := hstart i hi
      simp only [hp, Option.getD_some]
      exact Finset.mem_coe.mpr (Finset.mem_Ico.mpr ⟨hpos, hlt⟩)
    · intro i hi j hj heq
      obtain ⟨p, hp, -⟩ := hstart i hi
      obtain ⟨q, hq, -⟩ := hstart j hj
      simp only [hp, hq, Option.getD_some] at heq
      exact h i j p hp (heq ▸ hq)
  rwa [Int.card_Ico, Int.sub_zero, Int.toNat_natCast] at hcard

theorem links_le_starts {fuel : Nat} {s : NodeState}
    (hv : (nodeLoop decodeText fuel block).Visits {} s) : ∃ n,
      position (nextField block) n = some s.offset ∧ s.links.length ≤ (starts block n).card := by
  induction hv with
  | start => exact ⟨0, rfl, Nat.zero_le _⟩
  | @next s t hv hc hb ih =>
    obtain ⟨n, hn, hle⟩ := ih
    refine ⟨n + 1, ?_, ?_⟩
    · have hnext := (nodeLoop_walks decodeText fuel block).goes s t hv hc hb
      exact (position_succ hn).trans hnext
    · have hsub : starts block n ⊆ starts block (n + 1) :=
        Finset.filter_subset_filter _ (Finset.range_mono (Nat.le_succ n))
      rcases nodeBody_advance hb with ⟨u, hu, -, hsame | ⟨hlink, hmore⟩⟩ | ⟨u, hu, -⟩
      · cases hu
        rw [hsame]
        exact Nat.le_trans hle (Finset.card_le_card hsub)
      · cases hu
        have hpos : 0 ≤ s.offset := by
          by_contra hneg
          rw [readTag_of_neg (by omega)] at hlink
          cases hlink.1
        have hnew : insert n (starts block n) ⊆ starts block (n + 1) := by
          apply Finset.insert_subset _ hsub
          refine Finset.mem_filter.mpr ⟨Finset.self_mem_range_succ n, ?_⟩
          rw [hn]
          exact hpos
        have hcard := Finset.card_le_card hnew
        rw [Finset.card_insert_of_notMem (by simp [starts])] at hcard
        rw [hmore]
        exact Nat.le_trans (Nat.succ_le_succ hle) hcard
      · cases hu

theorem returns_of_neverReturns (h : NeverReturns (nextField block))
    (hlinks : ∀ i p, position (nextField block) i = some p → p < block.length →
      isLink (readTag block p) →
        NeverReturns (nextField (readSlice block (readTag block p).next).1)) :
    Returns decodeText block := by
  have hwalks := nodeLoop_walks decodeText (enough block) block
  have hbody : ∀ s, (nodeLoop decodeText (enough block) block).Visits {} s →
      (nodeLoop decodeText (enough block) block).cond s = true →
      nodeBody decodeText (enough block) block s ≠ none := by
    intro s hv hc
    by_cases hlink : isLink (readTag block s.offset)
    · obtain ⟨i, hi⟩ := hwalks.visits hv
      have hlt : s.offset < block.length := by simpa [nodeLoop] using hc
      have hslice := hlinks i s.offset hi hlt hlink
      rw [Ne, nodeBody_link hlink]
      exact decodeLink_returns hslice (slice_length_le _ _ _)
    · exact nodeBody_other hlink
  obtain ⟨r, hr⟩ := hwalks.run hbody (ended_of_length_le h (Nat.le_refl _))
  have hcount : ∀ s, (nodeLoop decodeText (enough block) block).Visits {} s →
      s.links.length ≤ block.length := by
    intro s hv
    obtain ⟨n, hn, hle⟩ := links_le_starts hv
    exact Nat.le_trans hle (card_starts_le h (by simp [hn]))
  refine ⟨r.node, ⟨enough block, by rw [decodeDagPB, hr]; rfl⟩, ?_⟩
  rcases While.Ends.visits ⟨_, hr⟩ with ⟨hv, -⟩ | ⟨s, hv, -, hb⟩
  · exact hcount r hv
  · rcases nodeBody_advance hb with ⟨t, ht, -⟩ | ⟨t, ht, -, hsame⟩
    · cases ht
    · cases ht
      show r.links.length ≤ block.length
      rw [hsame]
      exact hcount s hv

theorem noneCancel_of_decodesTo {node : PBNode} (h : DecodesTo decodeText block node) :
    Throughout NoneCancel block := by
  obtain ⟨fuel, hdecode⟩ := h
  obtain ⟨r, hr, -⟩ := Option.map_eq_some_iff.mp hdecode
  have hwalks := nodeLoop_walks decodeText fuel block
  refine ⟨neverReturns_iff.mp (neverReturns_of_ended (hwalks.ended hr)), ?_⟩
  intro ws p hp hlt hlink
  obtain ⟨i, hi⟩ := strides_iff.mp ⟨ws, hp⟩
  obtain ⟨s, -, rfl, hbody⟩ := hwalks.exists_visits hr hi
  have hsome := hbody (by simpa [nodeLoop] using hlt)
  exact neverReturns_iff.mp
    (neverReturns_of_decodeLink fun hnone => hsome ((nodeBody_link hlink).mpr hnone))

theorem returns_of_noneCancel (h : Throughout NoneCancel block) : Returns decodeText block := by
  refine returns_of_neverReturns (neverReturns_iff.mpr h.1) fun i p hi hlt hlink => ?_
  obtain ⟨ws, hws⟩ := strides_iff.mpr ⟨i, hi⟩
  exact neverReturns_iff.mpr (h.2 ws p hws hlt hlink)

/-- It is enough that all declared widths are positive. What is needed is that no widths of
consecutive fields cancel out: a length may lead back, as long as the walk never meets an offset
again. -/
theorem decodeDagPB_returns_iff (decodeText : Bytes → String) (block : Bytes) :
    (Throughout AllPositive block → Returns decodeText block) ∧
      (Returns decodeText block ↔ Throughout NoneCancel block) := by
  refine ⟨fun h => ?_, fun ⟨_, hdecode, _⟩ => noneCancel_of_decodesTo hdecode,
    returns_of_noneCancel⟩
  exact returns_of_noneCancel ⟨h.1.noneCancel, fun ws p hp hlt hlink =>
    (h.2 ws p hp hlt hlink).noneCancel⟩

/-- A link of length -6, behind which the next field is the same one again. -/
def backwards : Bytes := [0x12, 0xfa, 0xff, 0xff, 0xff, 0x0f]

theorem decodeDagPB_backwards (decodeText : Bytes → String) (fuel : Nat) :
    decodeDagPB decodeText fuel backwards = none := by
  have hback : readSlice backwards (readTag backwards 0).next = ([], 0) := by decide
  have hloop : ∀ s : NodeState, s.offset = 0 →
      (nodeLoop decodeText fuel backwards).cond s = true ∧
        ((nodeLoop decodeText fuel backwards).body s = none ∨
          ∃ t, (nodeLoop decodeText fuel backwards).body s = some (.next t) ∧ t.offset = 0) := by
    intro s hs
    have hlink : isLink (readTag backwards s.offset) := by
      rw [hs]
      exact ⟨by decide, by decide⟩
    refine ⟨by simp [nodeLoop, hs, backwards], ?_⟩
    cases hb : (nodeLoop decodeText fuel backwards).body s with
    | none => exact Or.inl rfl
    | some pass =>
      rcases nodeBody_advance hb with ⟨t, rfl, hadv, -⟩ | ⟨t, rfl, hadv, -⟩
      · rw [hs, show advance backwards 0 = some 0 by decide] at hadv
        exact Or.inr ⟨t, rfl, (Option.some.inj hadv).symm⟩
      · rw [hs, show advance backwards 0 = some 0 by decide] at hadv
        cases hadv
  have hnone := While.run_eq_none hloop (rfl : ({} : NodeState).offset = 0) fuel
  rw [decodeDagPB, hnone]
  rfl

theorem not_returns_backwards : ¬ ∃ node, DecodesTo (fun _ => "") backwards node := by
  rintro ⟨node, fuel, hdecode⟩
  rw [decodeDagPB_backwards] at hdecode
  cases hdecode

end IpfsShard.DagPb
