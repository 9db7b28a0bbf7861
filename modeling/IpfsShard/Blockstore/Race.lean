import IpfsShard.Blockstore.Network

/-! The race of the bitswap and the DHT stage. `Promise.race` is over when the first stage
returns, and both stages turn a failure into a value: a null that comes first hides the
block of the other stage, and nobody waits for that stage any more. -/

namespace IpfsShard.Blockstore
open Multiformats

def Stage.other : Stage → Stage
  | .bitswap => .dht
  | .dht => .bitswap

variable (M : Multiformats) (net : Network) (cid : CID)

def Network.outcome : Stage → Option Bytes
  | .bitswap => tryBitswap net.bitswapWant
  | .dht => tryDHTRetrieval net.dhtWants

def Network.completions : List Stage := [net.first, net.first.other]

/-- The stages that have returned when the race is over. -/
def Network.returned : List Stage := net.completions.take 1

def Network.Misses : Prop := ∃ err, (net.s3Get cid).2 = some err ∧ err.isMiss

def fetches : List String :=
  match (net.s3Get cid).2 with
  | none => []
  | some err =>
    if err.isMiss then
      match raceStage net with
      | some _ => []
      | none =>
        providersUrl M cid ::
          match ipniStage M net cid with
          | some _ => []
          | none => [gatewayUrl M cid]
    else []

/-- If a stage of the race returns a block, such a block is yielded. -/
def Network.YieldsRaceBlock : Prop := (∃ stage, (net.outcome stage).isSome) →
  ∃ stage block, net.outcome stage = some block ∧ Action.yield block ∈ (get M net cid).1

/-- The later stages are entered when both stages of the race have returned null. -/
def Network.WaitsForBoth : Prop :=
  fetches M net cid ≠ [] → ∀ stage, stage ∈ net.returned ∧ net.outcome stage = none

variable {M net cid}

theorem raceStage_eq_outcome : raceStage net = net.outcome net.first := by
  unfold raceStage
  cases net.first <;> rfl

theorem other_not_mem_returned : net.first.other ∉ net.returned := by
  unfold Network.returned Network.completions
  cases net.first <;> simp [Stage.other]

theorem fetches_ne_nil_iff (hmiss : net.Misses cid) :
    fetches M net cid ≠ [] ↔ net.outcome net.first = none := by
  obtain ⟨err, herr, hmiss⟩ := hmiss
  rw [fetches, herr]
  simp only [hmiss, if_true, raceStage_eq_outcome]
  cases net.outcome net.first <;> simp

theorem yield_mem_get {block : Bytes} (hmiss : net.Misses cid)
    (h : net.outcome net.first = some block) : Action.yield block ∈ (get M net cid).1 := by
  obtain ⟨err, herr, hmiss⟩ := hmiss
  have hs : net.s3Get cid = ((net.s3Get cid).1, some err) := by rw [← herr]
  rw [get, hs]
  simp [hmiss, retrieve, raceStage_eq_outcome, h]

theorem waitsForBoth_iff (hmiss : net.Misses cid) :
    net.WaitsForBoth M cid ↔ (net.outcome net.first).isSome := by
  constructor
  · intro hwaits
    cases hfirst : net.outcome net.first with
    | some block => rfl
    | none =>
      have hreturned := (hwaits ((fetches_ne_nil_iff hmiss).mpr hfirst) net.first.other).1
      exact absurd hreturned other_not_mem_returned
  · intro hfirst hfetches
    rw [(fetches_ne_nil_iff hmiss).mp hfetches] at hfirst
    cases hfirst

/-- A block survives the race, and the later stages wait for both stages, exactly if the
stage that returns first has a block. -/
theorem keepsRaceBlock_iff (hmiss : net.Misses cid) :
    net.YieldsRaceBlock M cid ∧ net.WaitsForBoth M cid ↔ (net.outcome net.first).isSome := by
  rw [waitsForBoth_iff hmiss, and_iff_right_iff_imp]
  intro hfirst _
  obtain ⟨block, hblock⟩ := Option.isSome_iff_exists.mp hfirst
  exact ⟨net.first, block, hblock, yield_mem_get hmiss hblock⟩

def lateBlock : Network where
  s3Get _ := ([], some { code := some "NoSuchKey" })
  first := .dht
  bitswapWant := some []
  dhtWants := []
  fetchProviders _ := none
  fetchBlock _ := none

theorem keepsRaceBlock_bitswapFirst :
    { lateBlock with first := .bitswap }.YieldsRaceBlock onEmptyBlock emptyRaw ∧
      { lateBlock with first := .bitswap }.WaitsForBoth onEmptyBlock emptyRaw :=
  (keepsRaceBlock_iff ⟨_, rfl, by decide⟩).mpr rfl

/-- The block that bitswap has is not yielded: both later stages are entered, and `get` ends
with an error. -/
theorem not_keepsRaceBlock_lateBlock : lateBlock.Misses emptyRaw ∧
    lateBlock.outcome .bitswap = some [] ∧
    get onEmptyBlock lateBlock emptyRaw = ([], some (.notFound
      "Block not found: bafkreihdwdcefgh4dqkjv67uzcmw7ojee6xedzdetojuzjevtenxquvyku")) ∧
    (fetches onEmptyBlock lateBlock emptyRaw).length = 2 ∧
    ¬ (lateBlock.YieldsRaceBlock onEmptyBlock emptyRaw ∧
      lateBlock.WaitsForBoth onEmptyBlock emptyRaw) := by
  have hmiss : lateBlock.Misses emptyRaw := ⟨_, rfl, by decide⟩
  have hget : get onEmptyBlock lateBlock emptyRaw = ([], some (.notFound
      "Block not found: bafkreihdwdcefgh4dqkjv67uzcmw7ojee6xedzdetojuzjevtenxquvyku")) := by
    decide
  refine ⟨hmiss, rfl, hget, rfl, ?_⟩
  rintro ⟨hyields, -⟩
  obtain ⟨stage, block, -, hmem⟩ := hyields ⟨.bitswap, rfl⟩
  rw [hget] at hmem
  cases hmem

end IpfsShard.Blockstore
