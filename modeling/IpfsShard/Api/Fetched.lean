import IpfsShard.Api.Retrieval
import IpfsShard.Bitswap.Swarm

/-! `/cat` for a block that a peer has: the handler asks the blockstore, which asks Bitswap, and
what the peer reads, looks up and sends back makes the answer. -/

namespace IpfsShard.Bitswap
open Runs

def Settlement.result : Settlement → Option Bytes
  | .resolved data => some data
  | _ => none

def Swarm.result (s : Swarm) (c : Call) : Option Bytes :=
  s.client.deferreds[c.deferred]?.bind (·.settlement.result)

variable {M : Multiformats} {store : String → CID → Found} {s : Swarm} {c : Call} {peer : String}

theorem Asked.exists_result (hM : Function.Injective M.toString)
    (hgiven : Servable M (Given store)) {es : List Swarm.Event} {out : List Effect}
    (h : (swarm M store).Run (Swarm.Proper M) es s out) (hasked : Asked s c peer) {data : Bytes}
    (hdata : store peer c.cid = .uint8Array data) : ∃ es' t out' block,
      (swarm M store).Run (Swarm.Proper M) (es ++ es') t out' ∧ (∀ e ∈ es', e.goesOn) ∧
        Given store c.cid block ∧ t.result c = some block := by
  obtain ⟨es', t, out', hrun, ⟨hquiet, hkept⟩, hes'⟩ := h.exists_quiet (I := Swarming M store)
    (J := fun s => Asked s c peer) Swarm.weight (fun _ _ _ h => swarming_of_run hM hgiven h)
    (fun s e t o hs he hproper hstep hJ => hJ.step hs hM hgiven hproper he hstep)
    (fun s hs hquiet => hs.nearer hgiven hquiet) hasked
  obtain ⟨block, w, hblock, hw, hsettlement⟩ :=
    hkept.resolved_of_quiet (swarming_of_run hM hgiven hrun) hM hquiet hdata
  refine ⟨es', t, out', block, hrun, hes', hblock, ?_⟩
  rw [Swarm.result, hw, Option.bind_some, hsettlement]
  rfl

end IpfsShard.Bitswap

namespace IpfsShard.Api
open Bitswap IpfsShard.Blockstore Multiformats Runs

/-- `get` misses the block in the local store, and its call of `want` is what returns first. -/
structure Asks (t : Swarm) (c : Bitswap.Call) (net : Network) : Prop where
  missed : ∃ err, net.s3Get c.cid = ([], some err) ∧ err.isMiss = true
  first : net.first = .bitswap
  bitswapWant : net.bitswapWant = t.result c

variable {M : Multiformats} {store : String → CID → Found} {s t : Swarm} {c : Bitswap.Call}
  {peer : String} {net : Network} {block : Bytes}

theorem Asks.served (h : Asks t c net) (hresult : t.result c = some block) :
    Served M net c.cid block := by
  obtain ⟨err, hmissed, hmiss⟩ := h.missed
  have hrace : raceStage net = some block := by
    rw [raceStage, h.first, h.bitswapWant, hresult]
    rfl
  have hsourced : sourced M net c.cid = some block := by
    rw [sourced, hrace, Option.some_or]
  exact Or.inr ⟨[], err, block, hmissed, hmiss, hsourced, rfl⟩

/-- In every proper run of the node and its peers: while a peer is connected that has the block of a
call whose want is not aborted, what is under way can go on until `/cat` gives a block of that CID,
which some peer gives. -/
theorem cat_fetches (hM : Function.Injective M.toString) (hgiven : Servable M (Given store))
    {es : List Swarm.Event} {out : List Effect}
    (h : (swarm M store).Run (Swarm.Proper M) es s out) (hasked : Asked s c peer) {data : Bytes}
    (hdata : store peer c.cid = .uint8Array data) : ∃ es' t out' block,
      (swarm M store).Run (Swarm.Proper M) (es ++ es') t out' ∧ (∀ e ∈ es', e.goesOn) ∧
        Given store c.cid block ∧ c.cid.multihash = M.sha256 block ∧
        ∀ (s3Has : CID → Except StoreError Bool) (nets : CID → Network) (ctx : BlocksContext)
          (rest : Text), Asks t c (nets c.cid) → ctx.blockstore = networkAware M s3Has nets →
            ctx.Named c.cid → (∀ a ∈ rest.head?, a = '?') →
            ctx.Answers (ctx.request .cat c.cid rest) (.block block) := by
  obtain ⟨es', t, out', block, hrun, hes', hblock, hresult⟩ :=
    hasked.exists_result hM hgiven h hdata
  have hhash : c.cid.multihash = M.sha256 block := (hgiven c.cid block hblock).2.1
  refine ⟨es', t, out', block, hrun, hes', hblock, hhash, ?_⟩
  intro s3Has nets ctx rest hasks hstore hnamed hrest
  exact (answers_cat_iff hnamed hrest).mpr (cat_of_served hstore _ (hasks.served hresult))

theorem onDir_injective : Function.Injective onDir.toString := by
  intro cid cid' h
  have hsame : dirCidParse (dirCidText cid) = dirCidParse (dirCidText cid') :=
    congrArg dirCidParse h
  rw [dirCidParse_dirCidText, dirCidParse_dirCidText] at hsame
  exact Option.some.inj hsame

theorem cat_fetches_dir : ∃ es t out,
    (swarm onDir oneGives).Run (Swarm.Proper onDir)
      ([.connect "b", .client (.want emptyRaw none)] ++ es) t out ∧
    (dirContext (t.result ⟨emptyRaw, none, 0⟩)).Answers
      ((dirContext (t.result ⟨emptyRaw, none, 0⟩)).request .cat emptyRaw []) (.block []) := by
  have hsendable : Sendable onDir emptyRaw := ⟨by decide +kernel, by decide +kernel⟩
  have hconnect : (swarm onDir oneGives).Run (Swarm.Proper onDir) [.connect "b"] _ _ :=
    System.Run.start.step trivial rfl
  have hwant := hconnect.step (e := Swarm.Event.client (.want emptyRaw none)) hsendable rfl
  obtain ⟨es, t, out, block, hrun, -, hblock, -, hcat⟩ :=
    @cat_fetches onDir oneGives _ ⟨emptyRaw, none, 0⟩ "b" onDir_injective servable_oneGives _ _
      hwant ⟨List.mem_singleton_self _, ⟨emptyRaw, none, rfl, by simp⟩, List.mem_singleton_self _⟩
      [] rfl
  obtain ⟨peer, hpeer⟩ := hblock
  obtain rfl : block = [] := by
    unfold oneGives at hpeer
    split_ifs at hpeer
    cases hpeer
    rfl
  exact ⟨es, t, out, hrun, hcat (fun cid => .ok (cid = dirCid))
    (fun _ => dirNet (t.result ⟨emptyRaw, none, 0⟩)) _ [] ⟨⟨_, dirS3_emptyRaw, rfl⟩, rfl, rfl⟩ rfl
    (dirContext_named _ emptyRaw) head?_nil⟩

end IpfsShard.Api
