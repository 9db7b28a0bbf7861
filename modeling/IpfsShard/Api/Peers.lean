import IpfsShard.Api.Arguments
import IpfsShard.Lib.Insertion

/-! The three views of the connected peers: `GET /peers`, `/peers/detailed` and the one of a single
peer. A peer may have several connections. -/

namespace IpfsShard.Api
open Insertion

structure Connection where
  remotePeer : String
  remoteAddr : Option String
  direction : String

structure PeerEntry where
  peer : String
  addr : String
  direction : String
  deriving DecidableEq

inductive PeersAnswer where
  | peers (peers : List String) (count : Nat)
  | detailed (Peers : List PeerEntry)
  | single (entry : PeerEntry)
  | error (status : Nat) (text : String)
  deriving DecidableEq

inductive PeersAction where
  | list
  | detailed
  | single
  deriving DecidableEq

def Connection.entry (conn : Connection) (peer : String) : PeerEntry where
  peer := peer
  addr := (conn.remoteAddr.filter (· ≠ "")).getD "unknown"
  direction := if conn.direction = "inbound" then "inbound" else "outbound"

def singlePeer (connections : List Connection) (peerId : String) : PeersAnswer :=
  match connections.find? fun conn => conn.remotePeer = peerId with
  | none => .error 404 "Peer not connected"
  | some conn => .single (conn.entry peerId)

def peersOf (connections : List Connection) (req : Request) : PeersAction → PeersAnswer
  | .list =>
    let peerIds := ofList (connections.map Connection.remotePeer)
    .peers peerIds peerIds.length
  | .detailed =>
    -- of the connections to a peer, the map has the last one
    let values := (ofPairs (connections.map fun conn => (conn.remotePeer, conn))).map Prod.snd
    .detailed (values.map fun conn => conn.entry conn.remotePeer)
  | .single => singlePeer connections (String.ofList ((peersArgument req).getD []))

/-- `none`: `getConnections` throws. -/
def handlePeers (connections : Option (List Connection)) (req : Request) (action : PeersAction) :
    PeersAnswer :=
  match connections with
  | none => .error 400 "Failed to retrieve peers"
  | some connections => peersOf connections req action

def PeersAction.call : PeersAction → Call
  | list => ⟨.handlePeers, some "list"⟩
  | detailed => ⟨.handlePeers, some "detailed"⟩
  | single => ⟨.handlePeers, some "detailed-single"⟩

def PeersAction.ofCall (call : Call) : Option PeersAction :=
  [list, detailed, single].find? fun action => action.call = call

def servePeers (connections : Option (List Connection)) (req : Request) : Option PeersAnswer :=
  ((createApiRouter req).bind PeersAction.ofCall).map (handlePeers connections req)

def singleRequest (peer : String) (rest : Text) : Request :=
  ⟨"GET", "/peers/detailed/".toList ++ (peer.toList ++ rest)⟩

def connectionsTo (connections : List Connection) (peer : String) : List Connection :=
  connections.filter fun conn => conn.remotePeer = peer

variable {connections : List Connection} {peer : String} {rest : Text} {e : PeerEntry}

theorem routes_single : ∀ route ∈ routes, route.method = "GET" →
    route.call = PeersAction.single.call ∨ route.pattern.misses "/peers/detailed/" = true := by
  decide

theorem createApiRouter_single (hpeer : '?' ∉ peer.toList) (hrest : ∀ c ∈ rest.head?, c = '?') :
    createApiRouter (singleRequest peer rest) = some PeersAction.single.call := by
  have hpath : withoutQuery (singleRequest peer rest).url =
      "/peers/detailed/".toList ++ peer.toList :=
    withoutQuery_segment (by decide) hpeer hrest
  have hroute : ⟨"GET", .startsWith "/peers/detailed/", PeersAction.single.call⟩ ∈ routes := by
    decide
  refine createApiRouter_front hroute routes_single (List.cons_ne_nil _ _) rfl ?_ ?_
  · exact ⟨peer.toList, hpath.symm⟩
  · rw [hpath]
    exact List.isPrefixOf_iff_prefix.mpr (List.prefix_append _ _)

theorem servePeers_single (connections : List Connection) (hpeer : '?' ∉ peer.toList)
    (hrest : ∀ c ∈ rest.head?, c = '?') :
    servePeers (some connections) (singleRequest peer rest) =
      some ((connectionsTo connections peer).head?.elim (.error 404 "Peer not connected")
        fun conn => .single (conn.entry peer)) := by
  have harg : peersArgument (singleRequest peer rest) = some peer.toList :=
    congrArg some (removeFirst_argument (by decide) hpeer hrest)
  have hcall : PeersAction.ofCall PeersAction.single.call = some .single := by decide
  unfold servePeers
  rw [createApiRouter_single hpeer hrest, Option.bind_some, hcall, Option.map_some, handlePeers,
    peersOf, harg, Option.getD_some, String.ofList_toList, singlePeer, connectionsTo,
    List.head?_filter]
  cases connections.find? fun conn => conn.remotePeer = peer <;> rfl

def entries (connections : List Connection) : List PeerEntry :=
  ((ofPairs (connections.map fun conn => (conn.remotePeer, conn))).map Prod.snd).map fun conn =>
    conn.entry conn.remotePeer

theorem remotePeer_of_mem {conn : Connection} (h : conn ∈ connectionsTo connections peer) :
    conn.remotePeer = peer := of_decide_eq_true (List.mem_filter.mp h).2

theorem mem_ofPairs_iff {conn : Connection} :
    (peer, conn) ∈ ofPairs (connections.map fun conn => (conn.remotePeer, conn)) ↔
      (connectionsTo connections peer).getLast? = some conn := by
  rw [mem_ofPairs, List.filter_map, List.getLast?_map]
  change (connectionsTo connections peer).getLast?.map _ = _ ↔ _
  constructor
  · intro h
    obtain ⟨conn', hlast, heq⟩ := Option.map_eq_some_iff.mp h
    cases heq
    exact hlast
  · intro h
    rw [h, Option.map_some, remotePeer_of_mem (List.mem_of_getLast? h)]

theorem remotePeer_of_mem_ofPairs {p : String × Connection}
    (h : p ∈ ofPairs (connections.map fun conn => (conn.remotePeer, conn))) :
    p.2.remotePeer = p.1 := remotePeer_of_mem (List.mem_of_getLast? (mem_ofPairs_iff.mp h))

theorem entries_peers (connections : List Connection) :
    (entries connections).map PeerEntry.peer = ofList (connections.map Connection.remotePeer) := by
  have hkeys := keys_ofPairs (connections.map fun conn => (conn.remotePeer, conn))
  rw [List.map_map] at hkeys
  rw [entries, List.map_map, List.map_map]
  refine (List.map_congr_left fun p hp => ?_).trans hkeys
  exact remotePeer_of_mem_ofPairs hp

theorem mem_entries_iff : e ∈ entries connections ↔
    ∃ conn, (connectionsTo connections e.peer).getLast? = some conn ∧ e = conn.entry e.peer := by
  rw [entries, List.map_map, List.mem_map]
  constructor
  · rintro ⟨p, hp, rfl⟩
    have hpeer := remotePeer_of_mem_ofPairs hp
    refine ⟨p.2, ?_, rfl⟩
    change (connectionsTo connections p.2.remotePeer).getLast? = some p.2
    rw [hpeer]
    exact mem_ofPairs_iff.mp hp
  · rintro ⟨conn, hlast, he⟩
    refine ⟨(e.peer, conn), mem_ofPairs_iff.mpr hlast, ?_⟩
    rw [Function.comp_apply, remotePeer_of_mem (List.mem_of_getLast? hlast)]
    exact he.symm

theorem single_entry_iff (he : e ∈ entries connections) (hpeer : '?' ∉ e.peer.toList)
    (hrest : ∀ c ∈ rest.head?, c = '?') :
    servePeers (some connections) (singleRequest e.peer rest) = some (.single e) ↔
      (connectionsTo connections e.peer).head?.map (Connection.entry · e.peer) =
        (connectionsTo connections e.peer).getLast?.map (Connection.entry · e.peer) := by
  obtain ⟨last, hlast, heq⟩ := mem_entries_iff.mp he
  rw [servePeers_single connections hpeer hrest, hlast, Option.map_some, ← heq, Option.some.injEq]
  cases (connectionsTo connections e.peer).head? with
  | none => exact iff_of_false nofun nofun
  | some conn => rw [Option.elim_some, Option.map_some, PeersAnswer.single.injEq, Option.some.injEq]

theorem connectionsTo_ne_nil_iff : connectionsTo connections peer ≠ [] ↔
    peer ∈ (entries connections).map PeerEntry.peer := by
  rw [entries_peers, mem_ofList, List.mem_map]
  constructor
  · intro h
    obtain ⟨conn, hconn⟩ := List.exists_mem_of_ne_nil _ h
    exact ⟨conn, (List.mem_filter.mp hconn).1, remotePeer_of_mem hconn⟩
  · rintro ⟨conn, hconn, hpeer⟩
    exact List.ne_nil_of_mem (List.mem_filter.mpr ⟨hconn, decide_eq_true hpeer⟩)

theorem not_mem_of_entry (hpeers : ∀ conn ∈ connections, '?' ∉ conn.remotePeer.toList)
    (he : e ∈ entries connections) : '?' ∉ e.peer.toList := by
  obtain ⟨conn, hlast, -⟩ := mem_entries_iff.mp he
  have hmem := List.mem_of_getLast? hlast
  rw [← remotePeer_of_mem hmem]
  exact hpeers conn (List.mem_filter.mp hmem).1

/-- The views name the same peers, each of them once; a single view is there for these peers only.
The views agree exactly if the first and the last connection to each peer look alike. -/
theorem peers_agree_iff (connections : List Connection)
    (hpeers : ∀ conn ∈ connections, '?' ∉ conn.remotePeer.toList) :
    servePeers (some connections) ⟨"GET", "/peers".toList⟩ =
        some (.peers ((entries connections).map PeerEntry.peer) (entries connections).length) ∧
      servePeers (some connections) ⟨"GET", "/peers/detailed".toList⟩ =
        some (.detailed (entries connections)) ∧
      ((entries connections).map PeerEntry.peer).Nodup ∧
      (∀ (peer : String) (rest : Text), '?' ∉ peer.toList → (∀ c ∈ rest.head?, c = '?') →
        ((∃ e, servePeers (some connections) (singleRequest peer rest) = some (.single e)) ↔
          peer ∈ (entries connections).map PeerEntry.peer)) ∧
      ((∀ e ∈ entries connections,
          servePeers (some connections) (singleRequest e.peer []) = some (.single e)) ↔
        ∀ peer, (connectionsTo connections peer).head?.map (Connection.entry · peer) =
          (connectionsTo connections peer).getLast?.map (Connection.entry · peer)) := by
  have hids := entries_peers connections
  have hlength : (entries connections).length =
      (ofList (connections.map Connection.remotePeer)).length := by
    rw [← hids, List.length_map]
  refine ⟨?_, rfl, ?_, fun peer rest hpeer hrest => ?_, ?_⟩
  · rw [hids, hlength]
    rfl
  · rw [hids]
    exact nodup_ofList _
  · rw [servePeers_single connections hpeer hrest, ← connectionsTo_ne_nil_iff]
    cases connectionsTo connections peer with
    | nil => exact iff_of_false (fun ⟨e, he⟩ => by cases he) fun h => h rfl
    | cons conn conns => exact iff_of_true ⟨_, rfl⟩ (List.cons_ne_nil _ _)
  · constructor
    · intro h peer
      by_cases hnil : connectionsTo connections peer = []
      · rw [hnil]
        rfl
      · obtain ⟨e, he, rfl⟩ := List.mem_map.mp (connectionsTo_ne_nil_iff.mp hnil)
        exact (single_entry_iff he (not_mem_of_entry hpeers he) head?_nil).mp (h e he)
    · intro h e he
      exact (single_entry_iff he (not_mem_of_entry hpeers he) head?_nil).mpr (h e.peer)

def dialedTwice : List Connection :=
  [⟨"peer", some "/ip4/10.0.0.2", "inbound"⟩, ⟨"peer", some "/ip4/10.0.0.3", "outbound"⟩]

theorem peers_agree_iff_dialedTwice :
    servePeers (some dialedTwice) ⟨"GET", "/peers".toList⟩ = some (.peers ["peer"] 1) ∧
      servePeers (some dialedTwice) ⟨"GET", "/peers/detailed".toList⟩ =
        some (.detailed [⟨"peer", "/ip4/10.0.0.3", "outbound"⟩]) ∧
      servePeers (some dialedTwice) (singleRequest "peer" []) ≠
        some (.single ⟨"peer", "/ip4/10.0.0.3", "outbound"⟩) := by
  have h := peers_agree_iff dialedTwice (by decide)
  refine ⟨h.1.trans (by decide), h.2.1.trans (by decide), fun hsingle => ?_⟩
  have hall : ∀ e ∈ entries dialedTwice,
      servePeers (some dialedTwice) (singleRequest e.peer []) = some (.single e) := by
    intro e he
    rw [show entries dialedTwice = [⟨"peer", "/ip4/10.0.0.3", "outbound"⟩] by decide,
      List.mem_singleton] at he
    rw [he]
    exact hsingle
  have hlooks := h.2.2.2.2.mp hall "peer"
  revert hlooks
  decide

end IpfsShard.Api
