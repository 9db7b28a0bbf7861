import IpfsShard.Lib.Runs
import IpfsShard.Lib.Table

/-! `updateNodeMetrics`, and what the gauge of the connection status says after any number of
updates. A label set that is not written keeps its value. -/

namespace IpfsShard.Metrics
open Runs Table

inductive Direction where
  | inbound
  | outbound
  deriving DecidableEq

inductive ConnectionStatus where
  | open
  | closing
  | closed
  deriving DecidableEq

structure Connection where
  remotePeer : String
  remoteAddr : String
  direction : Direction
  status : ConnectionStatus
  deriving DecidableEq

/-- The labels of `connectionStatusGauge`. -/
structure Labels where
  peer_id : String
  remote_addr : String
  direction : Direction
  deriving DecidableEq

/-- What an update reads of the node, and the whole seconds of its uptime. -/
structure Node where
  peers : List String
  connections : List Connection
  multiaddrs : List String
  peerId : String
  uptime : Nat

structure Gauges where
  connectedPeers : Nat := 0
  connections : Nat := 0
  inboundConnections : Nat := 0
  outboundConnections : Nat := 0
  connectionStatus : AList fun _ : Labels => Nat := ∅
  nodeInfo : AList fun _ : String × String => Nat := ∅
  multiaddrs : Nat := 0
  uptime : Nat := 0

def Connection.labels (conn : Connection) : Labels :=
  ⟨conn.remotePeer, conn.remoteAddr, conn.direction⟩

def Connection.value (conn : Connection) : Nat := if conn.status = .open then 1 else 0

def updateNodeMetrics (g : Gauges) (node : Node) (version : String) : Gauges where
  connectedPeers := node.peers.length
  connections := node.connections.length
  inboundConnections := node.connections.countP (·.direction = .inbound)
  outboundConnections := node.connections.countP (·.direction = .outbound)
  connectionStatus :=
    insertAll g.connectionStatus (node.connections.map fun conn => (conn.labels, conn.value))
  nodeInfo := g.nodeInfo.insert (node.peerId, version) 1
  multiaddrs := node.multiaddrs.length
  uptime := node.uptime

structure State where
  gauges : Gauges := {}
  listed : List Connection := []

structure Update where
  node : Node
  version : String

def updates : System State Update Unit where
  init := {}
  step s u := some (⟨updateNodeMetrics s.gauges u.node u.version, u.node.connections⟩, [])

/-- The label sets with the value 1 are those of the connections that are listed as open. -/
def Mirrors (s : State) : Prop := ∀ labels, s.gauges.connectionStatus.lookup labels = some 1 ↔
  ∃ conn ∈ s.listed, conn.labels = labels ∧ conn.status = .open

def lastWith (connections : List Connection) (labels : Labels) : Option Connection :=
  (connections.filter fun conn => conn.labels = labels).getLast?

/-- Every label set of an open connection of the last update is listed again, and no connection
with the labels of an open one and another status comes behind it. -/
structure Follows (s : State) (u : Update) : Prop where
  kept : ∀ conn ∈ s.listed, conn.status = .open →
    ∃ conn' ∈ u.node.connections, conn'.labels = conn.labels
  last : ∀ conn ∈ u.node.connections, conn.status = .open →
    (lastWith u.node.connections conn.labels).map Connection.status = some .open

variable {s t : State} {u : Update} {labels : Labels} {connections : List Connection}
  {conn : Connection} {es : List Update} {out : List Unit}

theorem value_eq_one_iff : conn.value = 1 ↔ conn.status = .open := by
  simp [Connection.value]

theorem mem_of_lastWith (h : lastWith connections labels = some conn) :
    conn ∈ connections ∧ conn.labels = labels := by
  obtain ⟨hmem, hlabels⟩ := List.mem_filter.mp (List.mem_of_getLast? h)
  exact ⟨hmem, of_decide_eq_true hlabels⟩

theorem lastWith_eq_none_iff :
    lastWith connections labels = none ↔ ∀ conn ∈ connections, conn.labels ≠ labels := by
  simp [lastWith]

theorem lookup_updateNodeMetrics (g : Gauges) (node : Node) (version : String) :
    (updateNodeMetrics g node version).connectionStatus.lookup labels =
      ((lastWith node.connections labels).map Connection.value).or
        (g.connectionStatus.lookup labels) := by
  simp only [updateNodeMetrics, lookup_insertAll_eq, lastWith, List.filter_map, List.getLast?_map,
    Option.map_map]
  rfl

theorem lookup_listed (h : lastWith connections labels = some conn) (g : Gauges) {node : Node}
    (hnode : node.connections = connections) (version : String) :
    (updateNodeMetrics g node version).connectionStatus.lookup labels = some conn.value := by
  rw [lookup_updateNodeMetrics, hnode, h]
  rfl

theorem lookup_notListed (h : lastWith connections labels = none) (g : Gauges) {node : Node}
    (hnode : node.connections = connections) (version : String) :
    (updateNodeMetrics g node version).connectionStatus.lookup labels =
      g.connectionStatus.lookup labels := by
  rw [lookup_updateNodeMetrics, hnode, h]
  rfl

theorem mirrors_update_iff (hs : Mirrors s) :
    Mirrors ⟨updateNodeMetrics s.gauges u.node u.version, u.node.connections⟩ ↔ Follows s u := by
  constructor
  · intro ht
    refine ⟨fun conn hconn hopen => ?_, fun conn hconn hopen => ?_⟩
    · cases hlast : lastWith u.node.connections conn.labels with
      | some conn' => exact ⟨conn', mem_of_lastWith hlast⟩
      | none =>
        have hold := (hs conn.labels).mpr ⟨conn, hconn, rfl, hopen⟩
        rw [← lookup_notListed hlast s.gauges rfl u.version] at hold
        obtain ⟨conn', hconn', hlabels, -⟩ := (ht conn.labels).mp hold
        exact ⟨conn', hconn', hlabels⟩
    · cases hlast : lastWith u.node.connections conn.labels with
      | none => exact absurd rfl (lastWith_eq_none_iff.mp hlast conn hconn)
      | some conn' =>
        have hone := (ht conn.labels).mpr ⟨conn, hconn, rfl, hopen⟩
        rw [lookup_listed hlast s.gauges rfl u.version, Option.some.injEq, value_eq_one_iff] at hone
        rw [Option.map_some, hone]
  · rintro ⟨hkept, hfollow⟩ labels
    change (updateNodeMetrics s.gauges u.node u.version).connectionStatus.lookup labels = some 1 ↔ _
    cases hlast : lastWith u.node.connections labels with
    | some conn =>
      obtain ⟨hconn, rfl⟩ := mem_of_lastWith hlast
      rw [lookup_listed hlast s.gauges rfl u.version, Option.some.injEq, value_eq_one_iff]
      constructor
      · exact fun hopen => ⟨conn, hconn, rfl, hopen⟩
      · rintro ⟨conn', hconn', hlabels, hopen⟩
        have hopen' := hfollow conn' hconn' hopen
        rw [hlabels, hlast] at hopen'
        exact Option.some.inj hopen'
    | none =>
      have hnone := lastWith_eq_none_iff.mp hlast
      rw [lookup_notListed hlast s.gauges rfl u.version, hs labels]
      constructor
      · rintro ⟨conn, hconn, rfl, hopen⟩
        obtain ⟨conn', hconn', hlabels⟩ := hkept conn hconn hopen
        exact absurd hlabels (hnone conn' hconn')
      · rintro ⟨conn, hconn, hlabels, -⟩
        exact absurd hlabels (hnone conn hconn)

theorem mirrors_init : Mirrors {} := fun labels => by simp

/-- After every update the gauge says what is open exactly if each list of connections follows
the one before it. -/
theorem run_mirrors_iff :
    updates.Run Follows es s out ↔ updates.Run (updates.Into Mirrors) es s out :=
  System.run_iff_into (I := fun _ => True) (fun _ _ _ _ => trivial) mirrors_init
    fun s u t o _ hs hstep => by
      cases hstep
      exact (mirrors_update_iff hs).symm

def nodeWith (connections : List Connection) : Node :=
  ⟨connections.map (·.remotePeer), connections, ["/ip4/127.0.0.1/tcp/4001"], "self", 60⟩

def openConnection : Connection := ⟨"peer", "/ip4/10.0.0.1/tcp/4001", .outbound, .open⟩

def afterDisconnect : State :=
  ⟨updateNodeMetrics (updateNodeMetrics {} (nodeWith [openConnection]) "1.0.0") (nodeWith [])
    "1.0.0", []⟩

/-- A connection that has gone is still shown as open. -/
theorem not_mirrors_disconnected :
    updates.Run System.any [⟨nodeWith [openConnection], "1.0.0"⟩, ⟨nodeWith [], "1.0.0"⟩]
      afterDisconnect [] ∧
    afterDisconnect.gauges.connectionStatus.lookup openConnection.labels = some 1 ∧
    ¬ Mirrors afterDisconnect := by
  have hone : afterDisconnect.gauges.connectionStatus.lookup openConnection.labels = some 1 := by
    decide +kernel
  have hstart : updates.Run System.any [] {} [] := .start
  refine ⟨hstart.exec rfl, hone, fun h => ?_⟩
  obtain ⟨conn, hconn, -⟩ := (h openConnection.labels).mp hone
  cases hconn

end IpfsShard.Metrics
