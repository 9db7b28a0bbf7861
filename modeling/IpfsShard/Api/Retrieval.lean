import IpfsShard.Api.Blocks

/-! The handlers of blocks over the blockstore that is aware of the network: which blocks `/cat`
gives, and what it answers where there is none. -/

namespace IpfsShard.Api
open IpfsShard.Blockstore DagPb Multiformats Wire

def yielded : Action → Option Bytes
  | .chunk bytes => some bytes
  | .yield block => some block
  | .put _ _ => none

/-- The error as the handlers see it; `new Error(message)` has no code. -/
def thrown : GetError → StoreError
  | .store err => err
  | .notFound message => { name := some "Error", message := some message }

/-- The `NetworkAwareBlockstore`. `nets` is what the outside does when the block of a CID is asked
for. -/
def networkAware (M : Multiformats) (s3Has : CID → Except StoreError Bool) (nets : CID → Network) :
    BlockReads where
  has cid := .ok (match s3Has cid with | .ok blockExists => blockExists | .error _ => false)
  get cid :=
    match IpfsShard.Blockstore.get M (nets cid) cid with
    | (actions, none) => .ok (actions.filterMap yielded)
    | (_, some err) => .error (thrown err)

def sourced (M : Multiformats) (net : Network) (cid : CID) : Option Bytes :=
  (raceStage net).or ((ipniStage M net cid).or (gatewayStage M net cid))

variable {M : Multiformats} {s3Has : CID → Except StoreError Bool} {nets : CID → Network}
  {net : Network} {ctx : BlocksContext} {cid : CID} {chunks : List Bytes} {err : StoreError}
  {block : Bytes} {rest : Text}

theorem retrieve_of_sourced (h : sourced M net cid = some block) :
    retrieve M net cid = ([.put cid block, .yield block], none) := by
  unfold sourced at h
  unfold retrieve
  cases hrace : raceStage net with
  | some b =>
    rw [hrace, Option.some_or] at h
    rw [Option.some.inj h]
  | none =>
    rw [hrace, Option.none_or] at h
    cases hipni : ipniStage M net cid with
    | some b =>
      rw [hipni, Option.some_or] at h
      rw [Option.some.inj h]
    | none =>
      rw [hipni, Option.none_or] at h
      rw [h]

theorem sourced_eq_none_iff : sourced M net cid = none ↔
    raceStage net = none ∧ ipniStage M net cid = none ∧ gatewayStage M net cid = none := by
  unfold sourced
  rw [Option.or_eq_none_iff, Option.or_eq_none_iff]

theorem retrieve_of_not_sourced (h : sourced M net cid = none) :
    retrieve M net cid = ([], some (.notFound ("Block not found: " ++ M.toString cid))) := by
  obtain ⟨hrace, hipni, hgateway⟩ := sourced_eq_none_iff.mp h
  unfold retrieve
  rw [hrace, hipni, hgateway]

theorem isNotFound_notFound (cidStr : String) :
    isNotFound (thrown (.notFound ("Block not found: " ++ cidStr))) = true := by
  have hinfix : "not found".toList <:+: ("Block not found: " ++ cidStr).toList := by
    rw [String.toList_append]
    exact ⟨"Block ".toList, ": ".toList ++ cidStr.toList, rfl⟩
  have hincludes : includes ("Block not found: " ++ cidStr) "not found" = true :=
    decide_eq_true hinfix
  simp [isNotFound, thrown, hincludes]

theorem filterMap_yielded_chunks (chunks : List Bytes) :
    (chunks.map Action.chunk).filterMap yielded = chunks := by
  rw [List.filterMap_map]
  exact List.filterMap_some

theorem concat_local (h : (nets cid).s3Get cid = (chunks, none)) :
    (networkAware M s3Has nets).concat cid = .ok chunks.flatten := by
  simp only [BlockReads.concat, networkAware, IpfsShard.Blockstore.get, h, filterMap_yielded_chunks]
  rfl

theorem concat_sourced (h : (nets cid).s3Get cid = (chunks, some err)) (hmiss : err.isMiss = true)
    (hblock : sourced M (nets cid) cid = some block) :
    (networkAware M s3Has nets).concat cid = .ok (chunks.flatten ++ block) := by
  simp only [BlockReads.concat, networkAware, IpfsShard.Blockstore.get, h, if_pos hmiss,
    retrieve_of_sourced hblock, List.filterMap_append, filterMap_yielded_chunks]
  show Except.ok (chunks ++ [block]).flatten = _
  rw [List.flatten_append, List.flatten_singleton]

theorem concat_missing (h : (nets cid).s3Get cid = (chunks, some err)) (hmiss : err.isMiss = true)
    (hblock : sourced M (nets cid) cid = none) :
    (networkAware M s3Has nets).concat cid =
      .error (thrown (.notFound ("Block not found: " ++ M.toString cid))) := by
  simp only [BlockReads.concat, networkAware, IpfsShard.Blockstore.get, h, if_pos hmiss,
    retrieve_of_not_sourced hblock]
  rfl

theorem concat_failed (h : (nets cid).s3Get cid = (chunks, some err)) (hmiss : err.isMiss ≠ true) :
    (networkAware M s3Has nets).concat cid = .error err := by
  simp only [BlockReads.concat, networkAware, IpfsShard.Blockstore.get, h, if_neg hmiss]
  rfl

def Nowhere (M : Multiformats) (net : Network) (cid : CID) : Prop :=
  (∀ want ∈ net.raceWants, want = none) ∧ (∀ p ∈ net.tried M cid, p.want = none) ∧
    ¬ ∃ res data, net.fetchBlock (gatewayUrl M cid) = some res ∧ res.ok = true ∧
      res.body = some data

theorem sourced_eq_none_iff_nowhere : sourced M net cid = none ↔ Nowhere M net cid := by
  rw [sourced_eq_none_iff, raceStage_eq_none_iff, ipniStage_eq_none_iff,
    Option.eq_none_iff_forall_ne_some]
  refine and_congr_right fun _ => and_congr_right fun _ => ⟨fun h => ?_, fun h data hdata => ?_⟩
  · rintro ⟨res, data, hres, hok, hbody⟩
    exact h data (gatewayStage_eq_some_iff.mpr ⟨res, hres, hok, hbody⟩)
  · obtain ⟨res, hres, hok, hbody⟩ := gatewayStage_eq_some_iff.mp hdata
    exact h ⟨res, data, hres, hok, hbody⟩

/-- The block is served: from the local store, or from a source behind what the local store had
yielded before it threw. -/
def Served (M : Multiformats) (net : Network) (cid : CID) (data : Bytes) : Prop :=
  (∃ chunks, net.s3Get cid = (chunks, none) ∧ data = chunks.flatten) ∨
    ∃ chunks err block, net.s3Get cid = (chunks, some err) ∧ err.isMiss = true ∧
      sourced M net cid = some block ∧ data = chunks.flatten ++ block

def Missing (M : Multiformats) (net : Network) (cid : CID) : Prop :=
  ∃ chunks err, net.s3Get cid = (chunks, some err) ∧
    if err.isMiss then Nowhere M net cid else isNotFound err = true

def Failed (net : Network) (cid : CID) : Prop :=
  ∃ chunks err, net.s3Get cid = (chunks, some err) ∧ err.isMiss = false ∧ isNotFound err = false

theorem served_or_missing_or_failed (M : Multiformats) (net : Network) (cid : CID) :
    (∃ data, Served M net cid data) ∨ Missing M net cid ∨ Failed net cid := by
  rcases hs : net.s3Get cid with ⟨chunks, err⟩
  cases err with
  | none => exact Or.inl ⟨_, Or.inl ⟨chunks, hs, rfl⟩⟩
  | some err =>
    cases hmiss : err.isMiss with
    | true =>
      cases hsourced : sourced M net cid with
      | some block => exact Or.inl ⟨_, Or.inr ⟨chunks, err, block, hs, hmiss, hsourced, rfl⟩⟩
      | none =>
        refine Or.inr (Or.inl ⟨chunks, err, hs, ?_⟩)
        rw [if_pos hmiss]
        exact sourced_eq_none_iff_nowhere.mp hsourced
    | false =>
      cases hfound : isNotFound err with
      | true =>
        refine Or.inr (Or.inl ⟨chunks, err, hs, ?_⟩)
        rw [if_neg (Bool.eq_false_iff.mp hmiss)]
        exact hfound
      | false => exact Or.inr (Or.inr ⟨chunks, err, hs, hmiss, hfound⟩)

section cat

variable (hstore : ctx.blockstore = networkAware M s3Has nets) (cidStr : String)
include hstore

theorem cat_of_served {data : Bytes} (h : Served M (nets cid) cid data) :
    ctx.cat cidStr cid = .block data := by
  unfold BlocksContext.cat
  rw [hstore]
  rcases h with ⟨chunks, hs, rfl⟩ | ⟨chunks, err, block, hs, hmiss, hblock, rfl⟩
  · rw [concat_local hs]
  · rw [concat_sourced hs hmiss hblock]

theorem cat_of_missing (h : Missing M (nets cid) cid) :
    ctx.cat cidStr cid = .error 404 "Block not found" none (some cidStr) := by
  unfold BlocksContext.cat
  rw [hstore]
  obtain ⟨chunks, err, hs, hwhy⟩ := h
  split_ifs at hwhy with hmiss
  · rw [concat_missing hs hmiss (sourced_eq_none_iff_nowhere.mpr hwhy)]
    exact if_pos (isNotFound_notFound _)
  · rw [concat_failed hs hmiss]
    exact if_pos hwhy

theorem cat_of_failed (h : Failed (nets cid) cid) :
    ctx.cat cidStr cid = .error 500 "Failed to retrieve block" none none := by
  unfold BlocksContext.cat
  rw [hstore]
  obtain ⟨chunks, err, hs, hmiss, hfound⟩ := h
  rw [concat_failed hs (Bool.eq_false_iff.mp hmiss)]
  exact if_neg (Bool.eq_false_iff.mp hfound)

end cat

/-- `/cat` gives the block if some source has it, answers 404 if none has, and 500 only for errors
of the local store that are not misses. -/
theorem cat_answers_iff (hstore : ctx.blockstore = networkAware M s3Has nets) (h : ctx.Named cid)
    (hrest : ∀ c ∈ rest.head?, c = '?') :
    (∀ data, ctx.Answers (ctx.request .cat cid rest) (.block data) ↔
        Served M (nets cid) cid data) ∧
      (ctx.Answers (ctx.request .cat cid rest)
        (.error 404 "Block not found" none (some (ctx.toString cid))) ↔ Missing M (nets cid) cid) ∧
      (ctx.Answers (ctx.request .cat cid rest) (.error 500 "Failed to retrieve block" none none) ↔
        Failed (nets cid) cid) := by
  simp only [answers_cat_iff h hrest]
  have hserved := @cat_of_served M s3Has nets ctx cid hstore (ctx.toString cid)
  have hmissing := @cat_of_missing M s3Has nets ctx cid hstore (ctx.toString cid)
  have hfailed := @cat_of_failed M s3Has nets ctx cid hstore (ctx.toString cid)
  have hcases := served_or_missing_or_failed M (nets cid) cid
  refine ⟨fun data => ⟨fun hanswer => ?_, hserved⟩, ⟨fun hanswer => ?_, hmissing⟩,
    ⟨fun hanswer => ?_, hfailed⟩⟩
  · rcases hcases with ⟨data', hdata⟩ | hmiss | hfail
    · rw [hserved hdata] at hanswer
      exact BlocksAnswer.block.inj hanswer ▸ hdata
    · cases (hmissing hmiss).symm.trans hanswer
    · cases (hfailed hfail).symm.trans hanswer
  · rcases hcases with ⟨data, hdata⟩ | hmiss | hfail
    · cases (hserved hdata).symm.trans hanswer
    · exact hmiss
    · exact absurd ((hfailed hfail).symm.trans hanswer) (by simp)
  · rcases hcases with ⟨data, hdata⟩ | hmiss | hfail
    · cases (hserved hdata).symm.trans hanswer
    · exact absurd ((hmissing hmiss).symm.trans hanswer) (by simp)
    · exact hfail

/-- The texts of the directory and its file are the real ones. -/
def dirCidText (cid : CID) : String := if cid = dirCid then dirText else cidText cid

def dirCidParse (text : String) : Option CID :=
  if text = dirText then some dirCid else cidParse text

def onDir : Multiformats := { onEmptyBlock with toString := dirCidText }

def decodeOr (decode : Bytes → Option CID) (bytes : Bytes) : Except StoreError CID :=
  match decode bytes with
  | none => .error { name := some "Error", message := some "Unexpected end of data" }
  | some cid => .ok cid

def dirS3 (cid : CID) : List Bytes × Option StoreError :=
  if cid = dirCid then ([encodeRaw dirFields], none)
  else ([], some { name := some "GetFailedError" })

def dirNet (bitswapWant : Option Bytes) : Network where
  s3Get := dirS3
  first := .bitswap
  bitswapWant := bitswapWant
  dhtWants := []
  fetchProviders _ := none
  fetchBlock _ := none

def dirContext (bitswapWant : Option Bytes) : BlocksContext where
  blockstore := networkAware onDir (fun cid => .ok (cid = dirCid)) fun _ => dirNet bitswapWant
  parse := parseOr dirCidParse
  decode := decodeOr decodeCid
  toString := dirCidText
  decodeText := asciiText

theorem inSegment_dirText : dirText.toList ≠ [] ∧ dirText.toList.all inSegment = true := by
  decide

theorem inSegment_cidText (cid : CID) :
    (cidText cid).toList ≠ [] ∧ (cidText cid).toList.all inSegment = true := by
  unfold cidText
  split_ifs
  · decide
  · have hpos : Encodable.encode (cidNumbers cid) ≠ 0 := by
      cases cid <;> exact Nat.succ_ne_zero _
    rw [String.toList_ofList]
    refine ⟨mt (List.replicate_eq_nil_iff _).mp hpos, List.all_eq_true.mpr fun c hc => ?_⟩
    rw [List.eq_of_mem_replicate hc]
    rfl

theorem cidText_ne_dirText (cid : CID) : cidText cid ≠ dirText := by
  intro h
  have hletter : 'q' ∈ dirText.toList ∧ 'x' ≠ 'q' := by decide
  unfold cidText at h
  split_ifs at h
  · exact absurd h (by decide)
  · rw [← h, String.toList_ofList] at hletter
    exact hletter.2 (List.eq_of_mem_replicate hletter.1).symm

theorem dirCidParse_dirCidText (cid : CID) : dirCidParse (dirCidText cid) = some cid := by
  unfold dirCidParse dirCidText
  by_cases hcid : cid = dirCid
  · rw [if_pos hcid, if_pos rfl, hcid]
  · rw [if_neg hcid, if_neg (cidText_ne_dirText cid)]
    exact cidParse_cidText cid

theorem dirContext_named (bitswapWant : Option Bytes) (cid : CID) :
    (dirContext bitswapWant).Named cid := by
  have hparse : parseOr dirCidParse (dirCidText cid) = .ok cid := by
    rw [parseOr, dirCidParse_dirCidText]
  have hsegment : (dirCidText cid).toList ≠ [] ∧
      (dirCidText cid).toList.all inSegment = true := by
    unfold dirCidText
    split_ifs
    · exact inSegment_dirText
    · exact inSegment_cidText cid
  exact ⟨hsegment.1, hsegment.2, hparse⟩

theorem dirS3_dirCid : dirS3 dirCid = ([encodeRaw dirFields], none) := if_pos rfl

theorem dirS3_emptyRaw : dirS3 emptyRaw = ([], some { name := some "GetFailedError" }) :=
  if_neg dirCid_ne

theorem dirContext_dirCid :
    (dirContext (some [])).blockstore.concat dirCid = .ok (dirBlock dirCid) := by
  have hconcat := @concat_local onDir (fun cid => .ok (cid = dirCid)) (fun _ => dirNet (some []))
    dirCid _ dirS3_dirCid
  rw [List.flatten_singleton] at hconcat
  rw [dirBlock, if_pos rfl]
  exact hconcat

theorem dirContext_emptyRaw :
    (dirContext (some [])).blockstore.concat emptyRaw = .ok (dirBlock emptyRaw) :=
  @concat_sourced onDir (fun cid => .ok (cid = dirCid)) (fun _ => dirNet (some []))
    emptyRaw _ _ [] dirS3_emptyRaw rfl rfl

def dirTree : Tree (dirContext (some [])) dirCid where
  block := dirBlock
  entries := dirLinks
  dag := dirDag
  node cid hcid := by
    rcases Finset.mem_insert.mp hcid with rfl | hcid
    · rw [dirLinks_dirCid]
      exact .directory dir_serialised rfl rfl (.cons ⟨_, rfl, by decide +kernel⟩ .nil)
    · obtain rfl := Finset.mem_singleton.mp hcid
      rw [dirLinks_emptyRaw]
      refine .leaf fun node hnode => ?_
      have hempty : DecodesTo asciiText (dirBlock emptyRaw) ⟨[], none⟩ := ⟨1, rfl⟩
      rw [DecodesTo.unique hnode hempty]
      decide
  named cid _ := dirContext_named (some []) cid
  held cid hcid := by
    rcases Finset.mem_insert.mp hcid with rfl | hcid
    · exact dirContext_dirCid
    · obtain rfl := Finset.mem_singleton.mp hcid
      exact dirContext_emptyRaw

theorem walk_tree_dir :
    Relation.ReflTransGen (dirContext (some [])).Lists dirCid emptyRaw ∧
      (dirContext (some [])).Answers ((dirContext (some [])).request .cat emptyRaw [])
        (.block (dirBlock emptyRaw)) :=
  have hfile : emptyRaw ∈ dirTree.dag.nodes :=
    Finset.mem_insert_of_mem (Finset.mem_singleton_self _)
  ⟨((walk_tree dirTree).1 emptyRaw).mpr hfile, (walk_tree dirTree).2 emptyRaw hfile [] head?_nil⟩

theorem nowhere_emptyRaw : Nowhere onDir (dirNet none) emptyRaw := by
  refine ⟨by simp [Network.raceWants, dirNet], ?_, by simp [dirNet]⟩
  simp [Network.tried, Network.providers, Response.read, dirNet]

theorem cat_answers_iff_nobody :
    (dirContext none).Answers ((dirContext none).request .cat emptyRaw [])
      (.error 404 "Block not found" none (some ((dirContext none).toString emptyRaw))) :=
  have hmissing : Missing onDir (dirNet none) emptyRaw :=
    ⟨[], _, dirS3_emptyRaw, nowhere_emptyRaw⟩
  have hiff := @cat_answers_iff onDir (fun cid => .ok (cid = dirCid)) (fun _ => dirNet none)
    (dirContext none) emptyRaw [] rfl (dirContext_named none emptyRaw) head?_nil
  hiff.2.1.mpr hmissing

end IpfsShard.Api
