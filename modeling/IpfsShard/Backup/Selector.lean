import Mathlib.Data.List.Perm.Basic

/-! Selection and storage of the backup peers. The package `@multiformats/multiaddr` is not
part of the repository, so an address is of any type and its functions are parameters. -/

namespace IpfsShard.Backup

/-- `getPeerId()`, `toString()` and `multiaddr(text)`, which is `none` where it throws. -/
structure Multiaddrs (α : Type) where
  getPeerId : α → Option String
  toString : α → String
  parse : String → Option α

variable {α : Type} (M : Multiaddrs α)

def Multiaddrs.peerId (addr : α) : Option String := (M.getPeerId addr).filter (· != "")

def Multiaddrs.peerIds (addrs : List α) : List String := addrs.filterMap M.peerId

def maxBackupPeers : Nat := 20

/-- The loop over `previouslySaved`, with the result so far and `previousPeerIds`. -/
def backfill (max : Nat) : List α → List String → List α → List α
  | result, _, [] => result
  | result, previousPeerIds, addr :: rest =>
    if result.length ≥ max then result
    else
      match M.peerId addr with
      | some peerId =>
        if previousPeerIds.contains peerId then backfill max result previousPeerIds rest
        else backfill max (result ++ [addr]) (previousPeerIds ++ [peerId]) rest
      | none => backfill max result previousPeerIds rest

/-- `shuffled` is what `sort` makes of `connected` with its random comparator. -/
def selectPeersToSave (connected shuffled officialBootstrap previouslySaved : List α) (max : Nat) :
    List α :=
  if connected.length = 0 then []
  else
    let officialPeerIds := M.peerIds officialBootstrap
    let filtered := shuffled.filter fun addr =>
      match M.peerId addr with
      | none => true
      | some peerId => !officialPeerIds.contains peerId
    let result := filtered.take max
    if result.length < max ∧ previouslySaved.length > 0 then
      backfill M max result (M.peerIds result) previouslySaved
    else result

/-- What `saveBackupPeers` puts under its key: the array that is written as JSON. -/
def toStored (peers : List α) : List String := peers.map M.toString

/-- No peers where the key is missing or one of the texts is not an address. -/
def loadBackupPeers (stored : Option (List String)) : List α :=
  ((stored.getD []).mapM M.parse).getD []

variable {M}

theorem loadBackupPeers_toStored (hparse : ∀ addr, M.parse (M.toString addr) = some addr)
    (peers : List α) : loadBackupPeers M (some (toStored M peers)) = peers := by
  have hall : (peers.map M.toString).mapM M.parse = some peers := by
    induction peers with
    | nil => rfl
    | cons addr peers ih => simp [hparse, ih]
  simp [loadBackupPeers, toStored, hall]

theorem peerIds_append (addrs addrs' : List α) :
    M.peerIds (addrs ++ addrs') = M.peerIds addrs ++ M.peerIds addrs' :=
  List.filterMap_append

variable {max : Nat}

theorem backfill_spec {result saved : List α} {ids : List String}
    (hids : ∀ id ∈ ids, id ∈ M.peerIds result) (hlength : result.length ≤ max) :
    result <+: backfill M max result ids saved ∧
      ((backfill M max result ids saved).length = max ∨
        ∀ id ∈ M.peerIds saved, id ∈ M.peerIds (backfill M max result ids saved)) := by
  induction saved generalizing result ids with
  | nil => exact ⟨List.prefix_rfl, Or.inr (by simp [Multiaddrs.peerIds])⟩
  | cons addr rest ih =>
    have hprefix : ∀ {l : List α}, result <+: l → ∀ id ∈ M.peerIds result, id ∈ M.peerIds l := by
      rintro l ⟨more, rfl⟩ id hid
      rw [peerIds_append]
      exact List.mem_append_left _ hid
    rw [backfill]
    by_cases hfull : result.length ≥ max
    · rw [if_pos hfull]
      exact ⟨List.prefix_rfl, Or.inl (Nat.le_antisymm hlength hfull)⟩
    rw [if_neg hfull]
    cases hpeer : M.peerId addr with
    | none =>
      have hrest : M.peerIds (addr :: rest) = M.peerIds rest := List.filterMap_cons_none hpeer
      rw [hrest]
      exact ih hids hlength
    | some peerId =>
      have hrest : M.peerIds (addr :: rest) = peerId :: M.peerIds rest :=
        List.filterMap_cons_some hpeer
      have hown : M.peerIds [addr] = [peerId] := by
        simp [Multiaddrs.peerIds, hpeer]
      simp only [hrest, List.forall_mem_cons]
      by_cases hknown : ids.contains peerId
      · obtain ⟨hpre, hcase⟩ := ih hids hlength
        rw [if_pos hknown]
        refine ⟨hpre, hcase.imp id fun hall => ⟨?_, hall⟩⟩
        exact hprefix hpre _ (hids peerId (List.contains_iff_mem.mp hknown))
      · have hids' : ∀ id ∈ ids ++ [peerId], id ∈ M.peerIds (result ++ [addr]) := by
          intro id hid
          rw [peerIds_append, hown]
          exact (List.mem_append.mp hid).elim (fun h => List.mem_append_left _ (hids id h))
            (List.mem_append_right _)
        have hlength' : (result ++ [addr]).length ≤ max := by
          rw [List.length_append, List.length_singleton]
          exact Nat.lt_of_not_le hfull
        obtain ⟨hpre, hcase⟩ := ih hids' hlength'
        rw [if_neg hknown]
        refine ⟨(List.prefix_append _ _).trans hpre, hcase.imp id fun hall => ⟨?_, hall⟩⟩
        obtain ⟨more, hmore⟩ := hpre
        rw [← hmore, peerIds_append, peerIds_append, hown]
        simp

theorem selectPeersToSave_kept {connected : List α} (hne : connected ≠ [])
    (shuffled official saved : List α) :
    (selectPeersToSave M connected shuffled official saved max).length = max ∨
      ∀ id ∈ M.peerIds saved,
        id ∈ M.peerIds (selectPeersToSave M connected shuffled official saved max) := by
  have hlen : ¬ connected.length = 0 := by simpa using hne
  simp only [selectPeersToSave, if_neg hlen]
  split_ifs with hfill
  · exact (backfill_spec (fun _ h => h) (Nat.le_of_lt hfill.1)).2
  · have hle := List.length_take_le max (shuffled.filter fun addr =>
      match M.peerId addr with
      | none => true
      | some peerId => !(M.peerIds official).contains peerId)
    rcases not_and_or.mp hfill with hfull | hempty
    · exact Or.inl (Nat.le_antisymm hle (Nat.le_of_not_lt hfull))
    · have hsaved : saved = [] := by simpa using hempty
      exact Or.inr (by simp [hsaved, Multiaddrs.peerIds])

theorem selectPeersToSave_nil (shuffled official saved : List α) :
    selectPeersToSave M [] shuffled official saved max = [] := if_pos rfl

end IpfsShard.Backup
