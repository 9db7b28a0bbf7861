import IpfsShard.Backup.Selector
import IpfsShard.Lib.Runs

/-! The save rounds of the backup bootstrap loop, one after the other: whether the peers that
are stored stay stored. -/

namespace IpfsShard.Backup
open Runs

/-- `stored` is the array under the key of the backup peers, if there is one. -/
structure State (α : Type) where
  stored : Option (List String)
  previouslySaved : List α
  deriving DecidableEq

/-- The connections at a round, with the remote address of each where it can be read, and the
order that `sort` gives to the addresses. -/
structure Round (α : Type) where
  connections : List (Option α)
  shuffled : List α

def Round.connectedAddrs {α : Type} (r : Round α) : List α := r.connections.filterMap id

section
variable {α : Type} [DecidableEq α] (M : Multiaddrs α) (officialBootstrapAddrs : List α)

/-- `none`: `sort` only changes the order. -/
def saveBackupPeersRound (s : State α) (r : Round α) : Option (State α) :=
  if r.shuffled.Perm r.connectedAddrs then
    let peersToSave := selectPeersToSave M r.connectedAddrs r.shuffled officialBootstrapAddrs
      s.previouslySaved maxBackupPeers
    some { stored := some (toStored M peersToSave), previouslySaved := peersToSave }
  else none

/-- Any list may be stored at the start; it is loaded before the first round. -/
def saveRounds (stored : Option (List String)) : System (State α) (Round α) Unit where
  init := { stored, previouslySaved := loadBackupPeers M stored }
  step s r := (saveBackupPeersRound M officialBootstrapAddrs s r).map fun t => (t, [])

def State.storedList (s : State α) : List String := s.stored.getD []

def State.storedPeers (s : State α) : List String := M.peerIds (loadBackupPeers M s.stored)

structure Keeps (s : State α) (r : Round α) (t : State α) : Prop where
  kept : (∀ id ∈ s.storedPeers M, id ∉ M.peerIds officialBootstrapAddrs → id ∈ t.storedPeers M) ∨
    t.storedList.length = maxBackupPeers
  notShorter : r.connections = [] → s.storedList ≠ [] →
    s.storedList.length ≤ t.storedList.length

def KeepsPeers (s : State α) (r : Round α) : Prop :=
  r.connectedAddrs ≠ [] ∨
    ((∀ id ∈ s.storedPeers M, id ∈ M.peerIds officialBootstrapAddrs) ∧
      (r.connections = [] → s.storedList = []))

variable {M officialBootstrapAddrs} {s t : State α} {r : Round α}

theorem saveBackupPeersRound_spec
    (h : saveBackupPeersRound M officialBootstrapAddrs s r = some t) :
    t.previouslySaved = selectPeersToSave M r.connectedAddrs r.shuffled officialBootstrapAddrs
      s.previouslySaved maxBackupPeers ∧ t.stored = some (toStored M t.previouslySaved) := by
  unfold saveBackupPeersRound at h
  split_ifs at h
  cases h
  exact ⟨rfl, rfl⟩

theorem keepsPeers_iff (hparse : ∀ addr, M.parse (M.toString addr) = some addr)
    (hloaded : s.previouslySaved = loadBackupPeers M s.stored)
    (h : saveBackupPeersRound M officialBootstrapAddrs s r = some t) :
    KeepsPeers M officialBootstrapAddrs s r ↔ Keeps M officialBootstrapAddrs s r t := by
  obtain ⟨hselected, hstored⟩ := saveBackupPeersRound_spec h
  have hpeers : t.storedPeers M = M.peerIds t.previouslySaved := by
    rw [State.storedPeers, hstored, loadBackupPeers_toStored hparse]
  have hlength : t.storedList.length = t.previouslySaved.length := by
    rw [State.storedList, hstored, Option.getD_some, toStored, List.length_map]
  by_cases hne : r.connectedAddrs = []
  · have hempty : t.previouslySaved = [] := by
      rw [hselected, hne, selectPeersToSave_nil]
    have hnone : t.storedPeers M = [] := by
      rw [hpeers, hempty]
      rfl
    have hzero : t.storedList.length = 0 := by
      rw [hlength, hempty]
      rfl
    constructor
    · intro hkeeps
      obtain ⟨hofficial, hlist⟩ := hkeeps.resolve_left (not_not_intro hne)
      exact ⟨Or.inl fun id hid hnot => absurd (hofficial id hid) hnot,
        fun hr hs => absurd (hlist hr) hs⟩
    · intro hkeeps
      refine Or.inr ⟨fun id hid => ?_, fun hr => ?_⟩
      · by_contra hnot
        rcases hkeeps.kept with hall | hfull
        · have hmem := hall id hid hnot
          rw [hnone] at hmem
          cases hmem
        · rw [hzero] at hfull
          cases hfull
      · by_contra hs
        have hle := hkeeps.notShorter hr hs
        rw [hzero] at hle
        exact hs (List.length_eq_zero_iff.mp (Nat.le_zero.mp hle))
  · have hconnections : r.connections ≠ [] := by
      intro hnil
      exact hne (by rw [Round.connectedAddrs, hnil]; rfl)
    refine iff_of_true (Or.inl hne) ⟨?_, fun hr => absurd hr hconnections⟩
    rw [hpeers, hlength, hselected, State.storedPeers, ← hloaded]
    exact (selectPeersToSave_kept hne _ _ _).symm.imp (fun hall id hid _ => hall id hid) id

theorem loaded_of_run (hparse : ∀ addr, M.parse (M.toString addr) = some addr)
    {stored : Option (List String)} {ok : State α → Round α → Prop} {rs : List (Round α)}
    {out : List Unit} (h : (saveRounds M officialBootstrapAddrs stored).Run ok rs s out) :
    s.previouslySaved = loadBackupPeers M s.stored := by
  refine h.invariant (I := fun s _ => s.previouslySaved = loadBackupPeers M s.stored) rfl ?_
  intro s r t out o _ _ hstep
  obtain ⟨u, hu, heq⟩ := Option.map_eq_some_iff.mp hstep
  obtain rfl := congrArg Prod.fst heq
  have hstored := (saveBackupPeersRound_spec hu).2
  rw [hstored, loadBackupPeers_toStored hparse]

/-- No peer is lost along a run exactly if at every round some connection has an address or
there is nothing to lose. -/
theorem run_keepsPeers_iff (hparse : ∀ addr, M.parse (M.toString addr) = some addr)
    {stored : Option (List String)} {rs : List (Round α)} {out : List Unit} :
    (saveRounds M officialBootstrapAddrs stored).Run (KeepsPeers M officialBootstrapAddrs)
      rs s out ↔
      (saveRounds M officialBootstrapAddrs stored).Run
        ((saveRounds M officialBootstrapAddrs stored).Moves (Keeps M officialBootstrapAddrs))
        rs s out := by
  refine System.run_iff_moves (fun _ _ _ h => loaded_of_run hparse h) ?_
  intro s r t o hloaded hstep
  obtain ⟨u, hu, heq⟩ := Option.map_eq_some_iff.mp hstep
  obtain rfl := congrArg Prod.fst heq
  exact keepsPeers_iff hparse hloaded hu

end

def oneAddr : String :=
  "/ip4/192.0.2.1/tcp/4001/p2p/12D3KooWH8A2dNgr1tKEGfAZmj7ynDezMmFQy1pn8RRF3DYS9HFY"

def otherAddr : String :=
  "/ip4/195.201.28.104/tcp/4001/p2p/12D3KooWCKcQagDhST93Zh9BUMBy6AuGP8ahvKRAyHKmYTGxcaBc"

def onTwoAddrs : Multiaddrs String where
  getPeerId addr :=
    if addr = oneAddr then some "12D3KooWH8A2dNgr1tKEGfAZmj7ynDezMmFQy1pn8RRF3DYS9HFY"
    else if addr = otherAddr then some "12D3KooWCKcQagDhST93Zh9BUMBy6AuGP8ahvKRAyHKmYTGxcaBc"
    else none
  toString := id
  parse := some

def connectedTo (addr : String) : Round String := ⟨[some addr], [addr]⟩

theorem run_keepsPeers_filled :
    (saveRounds onTwoAddrs [] (some [oneAddr])).Run
      ((saveRounds onTwoAddrs [] (some [oneAddr])).Moves (Keeps onTwoAddrs []))
      [connectedTo otherAddr] ⟨some [otherAddr, oneAddr], [otherAddr, oneAddr]⟩ [] := by
  refine (run_keepsPeers_iff fun _ => rfl).mp ?_
  exact .step .start (Or.inl (by decide)) (by decide +kernel)

/-- The peer that one round has stored is gone after the next, which has no connections. -/
theorem not_keeps_noConnections : ∃ s t,
    (saveRounds onTwoAddrs [] none).Run System.any [connectedTo oneAddr] s [] ∧
    s.stored = some [oneAddr] ∧ saveBackupPeersRound onTwoAddrs [] s ⟨[], []⟩ = some t ∧
    t.stored = some [] ∧ ¬ Keeps onTwoAddrs [] s ⟨[], []⟩ t := by
  refine ⟨⟨some [oneAddr], [oneAddr]⟩, ⟨some [], []⟩, ?_, rfl, by decide +kernel, rfl, ?_⟩
  · exact .step .start trivial (by decide +kernel)
  · intro hkeeps
    have hle := hkeeps.notShorter rfl (List.cons_ne_nil _ _)
    exact absurd hle (Nat.not_succ_le_zero 0)

end IpfsShard.Backup
