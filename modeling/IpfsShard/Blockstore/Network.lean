import IpfsShard.Bitswap.Accepted

/-! `NetworkAwareBlockstore.get`. A block that is not in the local store is looked for in
four stages, and each of them stores and yields what it finds by itself. -/

namespace IpfsShard.Blockstore
open Bitswap Codec Runs

structure StoreError where
  name : Option String := none
  code : Option String := none
  message : Option String := none
  deriving DecidableEq

def includes (message text : String) : Bool := decide (text.toList <:+: message.toList)

def StoreError.isMiss (err : StoreError) : Bool :=
  err.name == some "GetFailedError" || err.code == some "NoSuchKey" ||
    err.message.any (includes · "NoSuchKey") || err.code == some "ERR_NOT_FOUND" ||
    err.name == some "NotFoundError"

/-- A provider named by IPNI, when its turn comes: whether the budget is used up by then,
whether the entry can be read, and what the want gives that is made after dialling it. -/
structure Provider where
  aborted : Bool
  readable : Bool
  want : Option Bytes

/-- The answer to a `fetch`; there is no body if reading it throws. -/
structure Response (α : Type) where
  ok : Bool
  body : Option α

inductive Stage where
  | bitswap
  | dht

/-- What the outside does in a call of `get`: the chunks that the local store yields before
it ends or throws, the wants (`none` where they are rejected), which stage of the race
returns first, and the answers to `fetch` (`none` where it throws). -/
structure Network where
  s3Get : CID → List Bytes × Option StoreError
  first : Stage
  bitswapWant : Option Bytes
  dhtWants : List (Option Bytes)
  fetchProviders : String → Option (Response (List Provider))
  fetchBlock : String → Option (Response Bytes)

/-- A chunk is passed on from the local store. A put may fail, which is ignored. -/
inductive Action where
  | chunk (bytes : Bytes)
  | put (cid : CID) (block : Bytes)
  | yield (block : Bytes)
  deriving DecidableEq

inductive GetError where
  | store (err : StoreError)
  | notFound (message : String)
  deriving DecidableEq

-- a rejected want gives null
def tryBitswap (want : Option Bytes) : Option Bytes := want

def tryDHTRetrieval : List (Option Bytes) → Option Bytes
  | [] => none
  | some block :: _ => some block
  | none :: wants => tryDHTRetrieval wants

-- `Promise.race`: also a null wins
def race : Stage → Option Bytes → Option Bytes → Option Bytes
  | .bitswap, bitswap, _ => bitswap
  | .dht, _, dht => dht

def Response.read {α : Type} (response : Option (Response α)) : Option α :=
  response.bind fun res => if res.ok then res.body else none

def tryProviders : List Provider → Option Bytes
  | [] => none
  | provider :: providers =>
    if provider.aborted then none
    -- this throws out of the loop
    else if !provider.readable then none
    else match provider.want with
      | some block => some block
      | none => tryProviders providers

def providersUrl (M : Multiformats) (cid : CID) : String :=
  "https://cid.contact/routing/v1/providers/" ++ M.toString cid

def gatewayUrl (M : Multiformats) (cid : CID) : String := "https://ipfs.io/ipfs/" ++ M.toString cid

variable (M : Multiformats) (net : Network) (cid : CID)

def raceStage : Option Bytes :=
  race net.first (tryBitswap net.bitswapWant) (tryDHTRetrieval net.dhtWants)

def ipniStage : Option Bytes :=
  (Response.read (net.fetchProviders (providersUrl M cid))).bind tryProviders

def gatewayStage : Option Bytes := Response.read (net.fetchBlock (gatewayUrl M cid))

def retrieve : List Action × Option GetError :=
  match raceStage net with
  | some block => ([.put cid block, .yield block], none)
  | none =>
    match ipniStage M net cid with
    | some block => ([.put cid block, .yield block], none)
    | none =>
      match gatewayStage M net cid with
      | some data => ([.put cid data, .yield data], none)
      | none => ([], some (.notFound ("Block not found: " ++ M.toString cid)))

def get : List Action × Option GetError :=
  match net.s3Get cid with
  | (chunks, none) => (chunks.map .chunk, none)
  | (chunks, some err) =>
    -- every other error is passed on
    if err.isMiss then
      (chunks.map .chunk ++ (retrieve M net cid).1, (retrieve M net cid).2)
    else (chunks.map .chunk, some (.store err))

def Network.providers : List Provider :=
  (Response.read (net.fetchProviders (providersUrl M cid))).getD []

def Network.wants : List (Option Bytes) :=
  net.bitswapWant :: net.dhtWants ++ (net.providers M cid).map (·.want)

def Network.raceWants : List (Option Bytes) :=
  match net.first with
  | .bitswap => [net.bitswapWant]
  | .dht => net.dhtWants

def Provider.comes (p : Provider) : Bool := !p.aborted && p.readable

def Network.tried : List Provider := (net.providers M cid).takeWhile Provider.comes

variable {M net cid} {block : Bytes}

theorem mem_of_tryDHTRetrieval {wants : List (Option Bytes)}
    (h : tryDHTRetrieval wants = some block) : some block ∈ wants := by
  induction wants with
  | nil => cases h
  | cons want wants ih =>
    cases want with
    | none => exact List.mem_cons_of_mem _ (ih h)
    | some b =>
      rw [← h]
      exact List.mem_cons_self ..

theorem tryDHTRetrieval_eq_none_iff {wants : List (Option Bytes)} :
    tryDHTRetrieval wants = none ↔ ∀ want ∈ wants, want = none := by
  induction wants with
  | nil => simp [tryDHTRetrieval]
  | cons want wants ih =>
    cases want with
    | none => simpa [tryDHTRetrieval] using ih
    | some b => simp [tryDHTRetrieval]

theorem exists_of_tryProviders {providers : List Provider}
    (h : tryProviders providers = some block) : ∃ p ∈ providers, p.want = some block := by
  induction providers with
  | nil => cases h
  | cons p providers ih =>
    rw [tryProviders] at h
    split_ifs at h
    split at h
    · rename_i b hb
      exact ⟨p, List.mem_cons_self .., hb.trans h⟩
    · obtain ⟨q, hq, hwant⟩ := ih h
      exact ⟨q, List.mem_cons_of_mem _ hq, hwant⟩

theorem tryProviders_eq_none_iff {providers : List Provider} :
    tryProviders providers = none ↔
      ∀ p ∈ providers.takeWhile Provider.comes, p.want = none := by
  induction providers with
  | nil => simp [tryProviders]
  | cons p providers ih =>
    rw [tryProviders]
    by_cases hcomes : p.comes
    · obtain ⟨haborted, hreadable⟩ : p.aborted = false ∧ p.readable = true := by
        simpa [Provider.comes] using hcomes
      rw [List.takeWhile_cons_of_pos hcomes]
      cases hwant : p.want with
      | none => simpa [haborted, hreadable, hwant] using ih
      | some b => simp [haborted, hreadable, hwant]
    · rw [List.takeWhile_cons_of_neg hcomes]
      simp only [List.not_mem_nil, false_implies, implies_true, iff_true]
      split_ifs with haborted hreadable
      · rfl
      · rfl
      · exact absurd (by simpa [Provider.comes] using And.intro haborted hreadable) hcomes

theorem raceStage_eq_none_iff : raceStage net = none ↔ ∀ want ∈ net.raceWants, want = none := by
  cases hfirst : net.first with
  | bitswap => simp [raceStage, race, tryBitswap, Network.raceWants, hfirst]
  | dht => simp [raceStage, race, Network.raceWants, hfirst, tryDHTRetrieval_eq_none_iff]

theorem ipniStage_eq_none_iff :
    ipniStage M net cid = none ↔ ∀ p ∈ net.tried M cid, p.want = none := by
  rw [ipniStage, Network.tried, Network.providers, ← tryProviders_eq_none_iff]
  cases Response.read (net.fetchProviders (providersUrl M cid)) with
  | none => simp [tryProviders]
  | some providers => rfl

theorem mem_wants_of_raceStage (h : raceStage net = some block) :
    some block ∈ net.wants M cid := by
  rw [raceStage] at h
  cases hfirst : net.first with
  | bitswap =>
    rw [hfirst] at h
    exact List.mem_append_left _ (h ▸ List.mem_cons_self ..)
  | dht =>
    rw [hfirst] at h
    exact List.mem_append_left _ (List.mem_cons_of_mem _ (mem_of_tryDHTRetrieval h))

theorem mem_wants_of_ipniStage (h : ipniStage M net cid = some block) :
    some block ∈ net.wants M cid := by
  obtain ⟨providers, hread, htry⟩ := Option.bind_eq_some_iff.mp h
  obtain ⟨p, hp, hwant⟩ := exists_of_tryProviders htry
  refine List.mem_append_right _ (List.mem_map.mpr ⟨p, ?_, hwant⟩)
  rw [Network.providers, hread]
  exact hp

def HasDigest (M : Multiformats) (cid : CID) (block : Bytes) : Prop :=
  M.hash cid.multihash.code block = cid.multihash.digest

theorem hasDigest_of_builtFrom (h : M.BuiltFrom block cid) : HasDigest M cid block := by
  rw [HasDigest, (M.builtFrom_iff block cid).mp h]
  rfl

/-- What is stored or yielded behind a miss has the digest. -/
def Action.Authentic (M : Multiformats) (cid : CID) : Action → Prop
  | .chunk _ => True
  | .put c block => c = cid ∧ HasDigest M cid block
  | .yield block => HasDigest M cid block

def Network.WantsChecked (M : Multiformats) (net : Network) (cid : CID) : Prop :=
  ∀ block, some block ∈ net.wants M cid → M.BuiltFrom block cid

/-- The block is not there, and no want is fulfilled in time. -/
def Network.ReachesGateway (M : Multiformats) (net : Network) (cid : CID) : Prop :=
  (∃ err, (net.s3Get cid).2 = some err ∧ err.isMiss) ∧
    (∀ want ∈ net.raceWants, want = none) ∧ ∀ p ∈ net.tried M cid, p.want = none

theorem found_authentic_iff : (∀ a ∈ [Action.put cid block, .yield block], a.Authentic M cid) ↔
    HasDigest M cid block := by
  simp [Action.Authentic]

theorem retrieve_authentic_iff (hwants : net.WantsChecked M cid) :
    (∀ a ∈ (retrieve M net cid).1, a.Authentic M cid) ↔
      (raceStage net = none → ipniStage M net cid = none →
        ∀ data, gatewayStage M net cid = some data → HasDigest M cid data) := by
  rw [retrieve]
  cases hrace : raceStage net with
  | some block =>
    have hblock := hasDigest_of_builtFrom (hwants block (mem_wants_of_raceStage hrace))
    exact iff_of_true (found_authentic_iff.mpr hblock) (by simp)
  | none =>
    cases hipni : ipniStage M net cid with
    | some block =>
      have hblock := hasDigest_of_builtFrom (hwants block (mem_wants_of_ipniStage hipni))
      exact iff_of_true (found_authentic_iff.mpr hblock) (by simp)
    | none =>
      cases hgateway : gatewayStage M net cid with
      | some data => exact found_authentic_iff.trans (by simp)
      | none => simp

theorem gatewayStage_eq_some_iff {data : Bytes} : gatewayStage M net cid = some data ↔
    ∃ res, net.fetchBlock (gatewayUrl M cid) = some res ∧ res.ok ∧ res.body = some data := by
  simp only [gatewayStage, Response.read, Option.bind_eq_some_iff]
  refine exists_congr fun res => and_congr_right fun _ => ?_
  split_ifs with hok <;> simp [hok]

/-- Of the stages, only the gateway is not checked. -/
theorem get_authentic_iff (hwants : net.WantsChecked M cid) :
    (∀ a ∈ (get M net cid).1, a.Authentic M cid) ↔
      (net.ReachesGateway M cid → ∀ res data, net.fetchBlock (gatewayUrl M cid) = some res →
        res.ok → res.body = some data → HasDigest M cid data) := by
  have hchunks : ∀ chunks : List Bytes, ∀ a ∈ chunks.map Action.chunk, a.Authentic M cid := by
    intro chunks a ha
    obtain ⟨bytes, -, rfl⟩ := List.mem_map.mp ha
    trivial
  have hretrieve := retrieve_authentic_iff hwants
  simp only [raceStage_eq_none_iff, ipniStage_eq_none_iff, gatewayStage_eq_some_iff] at hretrieve
  rw [get]
  split
  · rename_i chunks hs
    refine iff_of_true (hchunks chunks) ?_
    rintro ⟨⟨err, herr, -⟩, -⟩
    simp [hs] at herr
  · rename_i chunks err hs
    split_ifs with hmiss
    · simp only [List.forall_mem_append, hretrieve, Network.ReachesGateway, hs]
      constructor
      · rintro ⟨-, h⟩ ⟨-, hrace, hipni⟩ res data hres hok hbody
        exact h hrace hipni data ⟨res, hres, hok, hbody⟩
      · refine fun h => ⟨hchunks chunks, ?_⟩
        rintro hrace hipni data ⟨res, hres, hok, hbody⟩
        exact h ⟨⟨err, rfl, hmiss⟩, hrace, hipni⟩ res data hres hok hbody
    · refine iff_of_true (hchunks chunks) ?_
      rintro ⟨⟨err', herr, hmiss'⟩, -⟩
      rw [hs, Option.some.injEq] at herr
      exact absurd (herr ▸ hmiss') hmiss

open Multiformats

def emptyAnswer : Network where
  s3Get _ := ([], some { code := some "NoSuchKey" })
  first := .bitswap
  bitswapWant := none
  dhtWants := []
  fetchProviders _ := none
  fetchBlock _ := some ⟨true, some []⟩

theorem emptyAnswer_wantsChecked (cid : CID) : emptyAnswer.WantsChecked onEmptyBlock cid := by
  intro block h
  simp [Network.wants, Network.providers, Response.read, emptyAnswer] at h

theorem get_authentic_iff_emptyRaw :
    (get onEmptyBlock emptyAnswer emptyRaw).1 = [.put emptyRaw [], .yield []] ∧
      (Action.put emptyRaw []).Authentic onEmptyBlock emptyRaw ∧
      (Action.yield []).Authentic onEmptyBlock emptyRaw := by
  have hget : (get onEmptyBlock emptyAnswer emptyRaw).1 = [.put emptyRaw [], .yield []] := rfl
  have hauthentic := (get_authentic_iff (emptyAnswer_wantsChecked emptyRaw)).mpr (by
    intro _ res data hres _ hbody
    cases hres
    cases hbody
    rfl)
  rw [hget] at hauthentic
  exact ⟨hget, hauthentic _ (by simp), hauthentic _ (by simp)⟩

def zeroRaw : CID := .v1 0x55 ⟨sha256Code, List.replicate 32 0⟩

/-- The empty body is stored and yielded for a block that is not empty. -/
theorem not_authentic_zeroRaw : emptyAnswer.WantsChecked onEmptyBlock zeroRaw ∧
    (get onEmptyBlock emptyAnswer zeroRaw).1 = [.put zeroRaw [], .yield []] ∧
    ¬ ∀ a ∈ (get onEmptyBlock emptyAnswer zeroRaw).1, a.Authentic onEmptyBlock zeroRaw := by
  have hget : (get onEmptyBlock emptyAnswer zeroRaw).1 = [.put zeroRaw [], .yield []] := rfl
  refine ⟨emptyAnswer_wantsChecked zeroRaw, hget, fun h => ?_⟩
  rw [hget, found_authentic_iff, HasDigest] at h
  exact absurd h (by decide)

end IpfsShard.Blockstore
