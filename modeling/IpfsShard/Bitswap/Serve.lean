import IpfsShard.Bitswap.Steps
import IpfsShard.Bitswap.Streams
import IpfsShard.Codec.RoundTrip

/-! Serving wants. `_serveBlockOnStream` takes what `blockstore.get` gives for a
`Uint8Array`, but a `get` like those of the network and the cache gives an async generator of
chunks. The sync generator of the store in memory is left out. -/

namespace IpfsShard.Bitswap
open Codec Runs

/-- What `blockstore.get` gives back. An async generator throws when it is run if there is no
such block. -/
inductive Found where
  | uint8Array (bytes : Bytes)
  | asyncGenerator (chunks : Option (List Bytes))

def Found.block : Found → Option Bytes
  | uint8Array bytes => some bytes
  | asyncGenerator chunks => chunks.map concatBytes

/-- `for (const b of value)`: an async generator is not iterable, which is a `TypeError`. -/
def Found.iterate : Found → Option Bytes
  | uint8Array bytes => some bytes
  | asyncGenerator _ => none

def encodeFound (cid : CID) (found : Found) : Option Bytes :=
  found.iterate.map fun data => encodeBlock cid data

variable (M : Multiformats) (store : CID → Found) (writable : Nat → Bool)

def serveBlockOnStream (info : Streams.StreamInfo) (cid : CID) : Option (Nat × Bytes) :=
  -- what `encodeBlock` and `send` throw is swallowed
  (encodeFound cid (store cid)).bind fun msg =>
    if writable info.stream then some (info.stream, encodeWithLengthPrefix msg) else none

/-- The second half of `_handleMessage`: the frames sent for the wants of a message. -/
def serveWants (pool : AList fun _ : String => Streams.StreamInfo) (peer : String)
    (wantBlocks : List CID) : List (Nat × Bytes) :=
  match pool.lookup peer with
  | none => []
  | some info => wantBlocks.filterMap (serveBlockOnStream store writable info)

def FrameFor (cid : CID) (data frame : Bytes) : Prop :=
  ∃ msg block, frame = encodeWithLengthPrefix msg ∧ DecodesTo M msg ⟨[], [block]⟩ ∧
    block.data = data ∧
    (cid.multihash = M.sha256 data → prefixToCID M block.cidPrefix block.data = some cid)

def Served (stream : Nat) (wantBlocks : List CID) (frames : List (Nat × Bytes)) : Prop :=
  ∃ l : List (Nat × Bytes), l.Perm frames ∧
    List.Forall₂ (fun cid frame => frame.1 = stream ∧
      ∃ data, (store cid).block = some data ∧ FrameFor M cid data frame.2)
      (wantBlocks.filter fun cid => (store cid).block.isSome) l

def serves (out : List Effect) : List (String × List CID) :=
  out.filterMap fun
    | .serve peer wantBlocks => some (peer, wantBlocks)
    | _ => none

def Handler.wanted (h : Handler) : String × List CID := (h.peer, h.wantBlocks)

def Handler.served (h : Handler) : Option (String × List CID) :=
  if h.phase = .finished then some h.wanted else none

def received (M : Multiformats) : Event → Option (String × List CID)
  | .message peer bytes fuel => (decodeMessage M fuel bytes).map fun d => (peer, d.wantBlocks)
  | _ => none

variable {M : Multiformats} {s t : State} {e : Event} {o out : List Effect}

theorem next_served (h : Handler) (rest : List Block) :
    serves (h.next rest).2 = (h.next rest).1.served.toList ∧ (h.next rest).1.wanted = h.wanted := by
  cases rest <;> exact ⟨rfl, rfl⟩

theorem handlers_step (hs : s.step M e = some (t, o)) :
    (t.handlers = s.handlers ∧ serves o = [] ∧ received M e = none) ∨
    (∃ h, t.handlers = s.handlers ++ [h] ∧ serves o = h.served.toList ∧
      received M e = some h.wanted) ∨
    ∃ i h h', s.handlers[i]? = some h ∧ h.served = none ∧ t.handlers = s.handlers.set i h' ∧
      serves o = h'.served.toList ∧ h'.wanted = h.wanted ∧ received M e = none := by
  cases e with
  | want cid signal =>
    refine Or.inl ?_
    simp only [State.step, Option.some.injEq, State.want] at hs
    split at hs <;> (cases hs; exact ⟨rfl, rfl, rfl⟩)
  | abort signal =>
    refine Or.inl ?_
    simp only [State.step] at hs
    split_ifs at hs
    obtain rfl : (s.abort signal).1 = t := congrArg Prod.fst (Option.some.inj hs)
    obtain rfl : (s.abort signal).2 = o := congrArg Prod.snd (Option.some.inj hs)
    exact ⟨by rw [abort_eq], by simp [serves, State.abort], rfl⟩
  | message peer bytes fuel =>
    obtain ⟨decoded, hd, hm⟩ := Option.map_eq_some_iff.mp hs
    obtain ⟨hserves, hwanted⟩ := next_served ⟨peer, decoded.wantBlocks, .finished⟩
      decoded.blocks
    cases hm
    refine Or.inr (Or.inl ⟨_, rfl, hserves, ?_⟩)
    rw [received, hd, Option.map_some]
    exact congrArg some hwanted.symm
  | hashed i =>
    refine Or.inr (Or.inr ?_)
    obtain ⟨h, block, rest, hi, hp, hr⟩ := step_hashed hs
    have hnone : h.served = none := by simp [Handler.served, hp]
    obtain ⟨hserves, hwanted⟩ := next_served h rest
    -- the handler goes on, but for a wanted block, with which it goes to the store
    simp only [State.hashed, resume_eq] at hr
    split at hr
    · cases hr
      exact ⟨i, h, _, hi, hnone, rfl, hserves, hwanted, rfl⟩
    · split at hr
      · cases hr
        exact ⟨i, h, _, hi, hnone, rfl, hserves, hwanted, rfl⟩
      · cases hr
        exact ⟨i, h, _, hi, hnone, rfl, rfl, rfl, rfl⟩
  | stored i =>
    refine Or.inr (Or.inr ?_)
    obtain ⟨h, cid, data, pending, rest, hi, hp, hr⟩ := step_stored hs
    have hnone : h.served = none := by simp [Handler.served, hp]
    obtain ⟨hserves, hwanted⟩ := next_served h rest
    cases hr
    exact ⟨i, h, _, hi, hnone, rfl, hserves, hwanted, rfl⟩
  | stop =>
    refine Or.inl ?_
    cases hs
    simp [serves, received]

theorem perm_filterMap_set {α β : Type} {f : α → Option β} {l : List α} {i : Nat} {a b : α}
    (hi : l[i]? = some a) (ha : f a = none) :
    ((l.set i b).filterMap f).Perm (l.filterMap f ++ (f b).toList) := by
  obtain ⟨hlt, rfl⟩ := List.getElem?_eq_some_iff.mp hi
  have hl : l = l.take i ++ l[i] :: l.drop (i + 1) := by simp
  rw [List.set_eq_take_append_cons_drop, if_pos hlt]
  conv_rhs => rw [hl]
  simp only [List.filterMap_append, List.filterMap_cons, ha, List.append_assoc]
  refine List.Perm.append_left _ ?_
  cases f b with
  | none => simp
  | some c => exact (List.perm_append_singleton c _).symm

theorem serves_of_run {ok : State → Event → Prop} {es : List Event}
    (hrun : (wants M).Run ok es s out) :
    (serves out).Perm (s.handlers.filterMap Handler.served) ∧
      s.handlers.map Handler.wanted = es.filterMap (received M) := by
  induction hrun with
  | start => exact ⟨.refl _, rfl⟩
  | @step es s t e out o _ _ hs ih =>
    obtain ⟨hperm, hmap⟩ := ih
    have hout : serves (out ++ o) = serves out ++ serves o := List.filterMap_append
    rw [hout, List.filterMap_append, ← hmap]
    rcases handlers_step hs with ⟨ht, ho, he⟩ | ⟨h, ht, ho, he⟩ |
      ⟨i, h, h', hi, hnone, ht, ho, hwanted, he⟩
    · rw [ht, ho]
      exact ⟨by simpa using hperm, by simp [he]⟩
    · rw [ht, ho, List.filterMap_append]
      refine ⟨hperm.append ?_, by simp [he]⟩
      cases hh : h.served <;> simp [hh]
    · rw [ht, ho]
      refine ⟨(hperm.append_right _).trans (perm_filterMap_set hi hnone).symm, ?_⟩
      obtain ⟨hlt, rfl⟩ := List.getElem?_eq_some_iff.mp hi
      rw [List.map_set, hwanted, ← List.map_set, List.set_getElem_self]
      simp [he]

theorem serves_of_finished {ok : State → Event → Prop} {es : List Event}
    (hrun : (wants M).Run ok es s out) (hdone : ∀ h ∈ s.handlers, h.phase = .finished) :
    (serves out).Perm (es.filterMap (received M)) := by
  obtain ⟨hperm, hmap⟩ := serves_of_run hrun
  rw [← hmap, ← List.filterMap_eq_map]
  refine hperm.trans (List.Perm.of_eq (List.filterMap_congr fun h hh => ?_))
  exact if_pos (hdone h hh)

def Found.isUint8Array : Found → Bool
  | uint8Array _ => true
  | asyncGenerator _ => false

variable {store : CID → Found} {writable : Nat → Bool} {info : Streams.StreamInfo} {cid : CID}
  {data : Bytes}

theorem frameFor_encodeBlock (hcodec : CodecBelow cid)
    (h : (encodeBlock cid data).length < 2 ^ 31) :
    FrameFor M cid data (encodeWithLengthPrefix (encodeBlock cid data)) := by
  obtain ⟨hencode, hbelow, -⟩ := encodeBlock_eq (M := M) h
  have hcarries : Carries M 5 ((Item.block cid data).field M) (Item.block cid data).wants
      (Item.block cid data).blocks := carries_block h (by decide)
  refine ⟨_, ⟨encodePrefix cid, data⟩, rfl, ⟨5, ?_⟩, rfl, prefixToCID_encodePrefix hcodec⟩
  have hdecoded := decodeMessage_fields (l := [Item.block cid data]) (Item.field M) Item.wants
    Item.blocks (by simpa using hbelow) (by simpa using hcarries) (by simp)
  rw [hencode]
  simpa [Wire.encode, Item.wants, Item.blocks] using hdecoded

theorem serveBlockOnStream_generator {chunks : Option (List Bytes)}
    (h : store cid = .asyncGenerator chunks) :
    serveBlockOnStream store writable info cid = none := by
  rw [serveBlockOnStream, h]
  rfl

theorem serveBlockOnStream_uint8Array (hopen : writable info.stream = true)
    (h : store cid = .uint8Array data) : serveBlockOnStream store writable info cid =
      some (info.stream, encodeWithLengthPrefix (encodeBlock cid data)) := by
  rw [serveBlockOnStream, h]
  exact if_pos hopen

theorem serveWants_spec (hopen : writable info.stream = true) {wantBlocks : List CID}
    (hfit : ∀ cid ∈ wantBlocks, ∀ data, store cid = .uint8Array data →
      CodecBelow cid ∧ (encodeBlock cid data).length < 2 ^ 31) :
    List.Forall₂ (fun cid frame => frame.1 = info.stream ∧
        ∃ data, (store cid).block = some data ∧ FrameFor M cid data frame.2)
      (wantBlocks.filter fun cid => (store cid).isUint8Array)
      (wantBlocks.filterMap (serveBlockOnStream store writable info)) := by
  induction wantBlocks with
  | nil => exact .nil
  | cons cid wantBlocks ih =>
    have htail := ih fun c hc => hfit c (List.mem_cons_of_mem _ hc)
    cases hstore : store cid with
    | asyncGenerator chunks =>
      rw [List.filterMap_cons_none (serveBlockOnStream_generator hstore),
        List.filter_cons_of_neg (by simp [hstore, Found.isUint8Array])]
      exact htail
    | uint8Array data =>
      obtain ⟨hcodec, hlength⟩ := hfit cid (by simp) data hstore
      rw [List.filterMap_cons_some (serveBlockOnStream_uint8Array hopen hstore),
        List.filter_cons_of_pos (by simp [hstore, Found.isUint8Array])]
      refine .cons ⟨rfl, data, ?_, frameFor_encodeBlock hcodec hlength⟩ htail
      rw [hstore, Found.block]

theorem served_iff_uint8Array {pool : AList fun _ : String => Streams.StreamInfo} {peer : String}
    {wantBlocks : List CID} (hpool : pool.lookup peer = some info)
    (hopen : writable info.stream = true)
    (hfit : ∀ cid ∈ wantBlocks, ∀ data, store cid = .uint8Array data →
      CodecBelow cid ∧ (encodeBlock cid data).length < 2 ^ 31) :
    Served M store info.stream wantBlocks (serveWants store writable pool peer wantBlocks) ↔
      ∀ cid ∈ wantBlocks, (store cid).block.isSome → (store cid).isUint8Array := by
  have hspec := serveWants_spec (M := M) hopen hfit
  have hheld : ∀ found : Found, found.isUint8Array → found.block.isSome := by
    rintro (bytes | chunks) h
    · rfl
    · cases h
  simp only [serveWants, hpool]
  constructor
  · rintro ⟨l, hperm, hl⟩
    have hlength : (wantBlocks.filter fun cid => (store cid).isUint8Array).length =
        (wantBlocks.filter fun cid => (store cid).block.isSome).length :=
      calc _ = _ := hspec.length_eq
        _ = l.length := hperm.length_eq.symm
        _ = _ := hl.length_eq.symm
    have hsub := List.monotone_filter_right wantBlocks fun cid => hheld (store cid)
    have heq := hsub.eq_of_length hlength
    intro cid hmem hsome
    have hfilter : cid ∈ wantBlocks.filter fun cid => (store cid).block.isSome :=
      List.mem_filter.mpr ⟨hmem, hsome⟩
    rw [← heq] at hfilter
    exact (List.mem_filter.mp hfilter).2
  · intro h
    have heq : (wantBlocks.filter fun cid => (store cid).isUint8Array) =
        wantBlocks.filter fun cid => (store cid).block.isSome :=
      List.filter_congr fun cid hmem => Bool.eq_iff_iff.mpr ⟨hheld _, h cid hmem⟩
    exact ⟨_, List.Perm.refl _, heq ▸ hspec⟩

/-- A blockstore that gives async generators never serves a want. -/
theorem served_iff {pool : AList fun _ : String => Streams.StreamInfo} {peer : String}
    {wantBlocks : List CID} (hpool : pool.lookup peer = some info)
    (hopen : writable info.stream = true)
    (hgenerator : ∀ cid, ∃ chunks, store cid = .asyncGenerator chunks) :
    Served M store info.stream wantBlocks (serveWants store writable pool peer wantBlocks) ↔
      ∀ cid ∈ wantBlocks, (store cid).block = none := by
  have hnot : ∀ cid, (store cid).isUint8Array = false := by
    intro cid
    obtain ⟨chunks, hchunks⟩ := hgenerator cid
    rw [hchunks, Found.isUint8Array]
  have hfit : ∀ cid ∈ wantBlocks, ∀ data, store cid = .uint8Array data →
      CodecBelow cid ∧ (encodeBlock cid data).length < 2 ^ 31 := by
    intro cid _ data hdata
    have hcid := hnot cid
    rw [hdata, Found.isUint8Array] at hcid
    cases hcid
  rw [served_iff_uint8Array hpool hopen hfit]
  simp [hnot]

open Multiformats

def emptyBlockstore (cid : CID) : Found :=
  .asyncGenerator (if cid = emptyRaw then some [[]] else none)

def onePeer : AList fun _ : String => Streams.StreamInfo :=
  AList.singleton "peer" ⟨0, .inbound, false⟩

theorem onePeer_lookup : onePeer.lookup "peer" = some ⟨0, .inbound, false⟩ := rfl

theorem served_iff_notHeld : Served onEmptyBlock emptyBlockstore 0
    [.v0 ⟨sha256Code, emptyDigest⟩]
    (serveWants emptyBlockstore (fun _ => true) onePeer "peer" [.v0 ⟨sha256Code, emptyDigest⟩]) :=
  (served_iff onePeer_lookup rfl fun _ => ⟨_, rfl⟩).mpr (by simp [emptyRaw, Found.block])

/-- The peer wants the block that is there, and gets nothing. -/
theorem not_served_emptyRaw :
    DecodesTo onEmptyBlock (encodeWantBlock onEmptyBlock emptyRaw) ⟨[emptyRaw], []⟩ ∧
      serveWants emptyBlockstore (fun _ => true) onePeer "peer" [emptyRaw] = [] ∧
      ¬ Served onEmptyBlock emptyBlockstore 0 [emptyRaw]
        (serveWants emptyBlockstore (fun _ => true) onePeer "peer" [emptyRaw]) := by
  refine ⟨⟨9, by decide +kernel⟩, by decide +kernel, ?_⟩
  rintro ⟨l, hperm, hl⟩
  have hnone : serveWants emptyBlockstore (fun _ => true) onePeer "peer" [emptyRaw] = [] := by
    decide +kernel
  rw [hnone, List.perm_nil] at hperm
  rw [hperm] at hl
  exact absurd hl.length_eq (by decide +kernel)

end IpfsShard.Bitswap
