import IpfsShard.Dht.Announce
import IpfsShard.Lib.Table
import IpfsShard.Metrics.Connections

/-! `GET /stats`: the counts of agent versions and protocols of the known peers. They are the
properties of plain objects, which inherit others from `Object.prototype`. -/

namespace IpfsShard.Api
open Dht Metrics Table

inductive Value where
  | number (n : Nat)
  | text (s : String)
  deriving DecidableEq

def Value.isNumber : Value → Bool
  | number _ => true
  | text _ => false

def Value.toNat : Value → Nat
  | number n => n
  | text _ => 0

abbrev Object := AList fun _ : String => Value

def functionNames : List String :=
  ["constructor", "__defineGetter__", "__defineSetter__", "hasOwnProperty", "__lookupGetter__",
    "__lookupSetter__", "isPrototypeOf", "propertyIsEnumerable", "toString", "valueOf",
    "toLocaleString"]

/-- The properties of `Object.prototype`, as text: functions, and an object under `__proto__`. -/
def inherited (name : String) : Option String :=
  if name = "__proto__" then some "[object Object]"
  else if name = "constructor" then some "function Object() \x7b [native code] \x7d"
  else if name ∈ functionNames then some ("function " ++ name ++ "() \x7b [native code] \x7d")
  else none

namespace Object

def get (o : Object) (name : String) : Option Value :=
  match o.lookup name with
  | some value => some value
  | none => (inherited name).map .text

/-- The setter of `__proto__` ignores a value that is no object. -/
def set (o : Object) (name : String) (value : Value) : Object :=
  if name = "__proto__" then o else o.insert name value

/-- `o[name] = (o[name] || 0) + 1`. -/
def increment (o : Object) (name : String) : Object :=
  o.set name (match o.get name with
    | none => .number 1
    | some (.number n) => .number (n + 1)
    | some (.text s) => .text (s ++ "1"))

/-- `Object.values(o).reduce((a, b) => a + b, 0)` where it is a number. With a text among the
values it is a text around that of a function, which is compared as `NaN`. -/
def sum (o : Object) : Option Nat :=
  if o.entries.all fun e => e.2.isNumber then some (total Value.toNat o) else none

end Object

/-- `agentVersion` is `metadata?.get('AgentVersion')`, and `protocols` is empty if it is missing. -/
structure Peer where
  agentVersion : Option Bytes
  protocols : List String

structure PeersStats where
  total : Nat
  connected : Nat
  inbound : Nat
  outbound : Nat
  agentVersions : Object
  protocolBreakdown : Object
  deriving DecidableEq

structure StatsResponse where
  pins : Nat
  dht : DhtStats
  peers : PeersStats
  deriving DecidableEq

inductive StatsAnswer where
  | ok (response : StatsResponse)
  | error (status : Nat) (text : String)
  deriving DecidableEq

section
variable (decodeText : Bytes → String)

def countPeer (counts : Object × Object) (peer : Peer) : Object × Object :=
  (match peer.agentVersion with
    | none => counts.1
    | some agentBytes => counts.1.increment (decodeText agentBytes),
    peer.protocols.foldl Object.increment counts.2)

def countPeers (allPeers : List Peer) : Object × Object :=
  allPeers.foldl (countPeer decodeText) (∅, ∅)

def addUnknown (agentVersions : Object) (allPeers : List Peer) : Object :=
  match agentVersions.sum with
  | none => agentVersions
  | some versionedCount =>
    if versionedCount < allPeers.length then
      agentVersions.set "unknown" (.number (allPeers.length - versionedCount))
    else agentVersions

/-- `handleStats` with the action `stats`. `setGauge` says whether `peerAgentVersionsGauge.set`
returns or throws, for an agent version and its count. -/
def handleStats (setGauge : String → Value → Bool) (pinsList : Nat) (dht : DhtStats)
    (allPeers : List Peer) (connections : List Direction) : StatsAnswer :=
  let counts := countPeers decodeText allPeers
  let agentVersions := addUnknown counts.1 allPeers
  if agentVersions.entries.all fun e => setGauge e.1 e.2 then
    .ok {
      pins := pinsList
      dht := dht
      peers := {
        total := allPeers.length
        connected := connections.length
        inbound := connections.countP (· = .inbound)
        outbound := connections.countP (· = .outbound)
        agentVersions := agentVersions
        protocolBreakdown := counts.2 } }
  else .error 500 "Internal server error"

def agents (peers : List Peer) : List String :=
  peers.filterMap fun p => p.agentVersion.map decodeText

end

def protocols (peers : List Peer) : List String := peers.flatMap Peer.protocols

def Object.count (o : Object) (name : String) : Value := (o.lookup name).getD (.number 0)

structure PeersStats.Accurate (decodeText : Bytes → String) (allPeers : List Peer)
    (s : PeersStats) : Prop where
  agents : ∀ a, a ≠ "unknown" →
    s.agentVersions.count a = .number ((agents decodeText allPeers).count a)
  unknown : s.agentVersions.count "unknown" = .number
    (allPeers.countP (fun p => p.agentVersion.isNone) +
      (Api.agents decodeText allPeers).count "unknown")
  total : s.agentVersions.sum = some s.total
  protocols : ∀ p, s.protocolBreakdown.count p = .number ((protocols allPeers).count p)

structure Tallies (o : Object) (names : List String) : Prop where
  lookup : ∀ k, o.lookup k = if k ∈ names then some (.number (names.count k)) else none
  sum : o.sum = some names.length

variable {o : Object} {names : List String} {name : String}

theorem ne_proto_of_inherited (h : inherited name = none) : name ≠ "__proto__" := by
  rintro rfl
  cases h

theorem sum_eq_some_iff {n : Nat} : o.sum = some n ↔
    (∀ e ∈ o.entries, e.2.isNumber = true) ∧ total Value.toNat o = n := by
  simp [Object.sum, List.all_eq_true]

theorem Object.set_of_ne {value : Value} (h : name ≠ "__proto__") :
    o.set name value = o.insert name value := if_neg h

theorem sum_insert {n m old : Nat} (hsum : o.sum = some n)
    (hold : o.lookup name = some (.number old) ∨ (o.lookup name = none ∧ old = 0)) :
    Object.sum (o.insert name (.number (old + m))) = some (n + m) := by
  obtain ⟨hall, rfl⟩ := sum_eq_some_iff.mp hsum
  refine sum_eq_some_iff.mpr ⟨?_, ?_⟩
  · intro e he
    rcases List.mem_cons.mp he with rfl | he
    · rfl
    · exact hall e ((List.kerase_sublist name o.entries).subset he)
  · rw [total_insert]
    rcases hold with hold | ⟨hnone, rfl⟩
    · rw [← total_erase_add hold]
      simp only [Value.toNat]
      omega
    · rw [total_erase_of_lookup_eq_none hnone]
      simp only [Value.toNat]
      omega

theorem tallies_nil : Tallies ∅ [] where
  lookup k := by simp
  sum := rfl

theorem Tallies.increment (h : Tallies o names) (hname : inherited name = none) :
    Tallies (o.increment name) (names ++ [name]) := by
  have hproto := ne_proto_of_inherited hname
  have hold := h.lookup name
  have hnew : o.increment name = o.insert name (.number (names.count name + 1)) := by
    by_cases hmem : name ∈ names
    · rw [if_pos hmem] at hold
      simp only [Object.increment, Object.get, hold, Object.set_of_ne hproto]
    · rw [if_neg hmem] at hold
      simp only [Object.increment, Object.get, hold, hname, Option.map_none,
        Object.set_of_ne hproto, List.count_eq_zero_of_not_mem hmem, Nat.zero_add]
  rw [hnew]
  constructor
  · intro k
    by_cases hk : k = name
    · subst hk
      rw [AList.lookup_insert, if_pos (by simp), List.count_append, List.count_singleton_self]
    · rw [AList.lookup_insert_ne hk, h.lookup k, List.count_append,
        List.count_eq_zero_of_not_mem (mt List.mem_singleton.mp hk), Nat.add_zero]
      simp [hk]
  · rw [List.length_append, List.length_singleton]
    refine sum_insert h.sum ?_
    by_cases hmem : name ∈ names
    · exact Or.inl (hold.trans (if_pos hmem))
    · exact Or.inr ⟨hold.trans (if_neg hmem), List.count_eq_zero_of_not_mem hmem⟩

theorem Tallies.foldl (h : Tallies o names) {more : List String}
    (hmore : ∀ name ∈ more, inherited name = none) :
    Tallies (more.foldl Object.increment o) (names ++ more) := by
  induction more generalizing o names with
  | nil => rwa [List.append_nil]
  | cons name more ih =>
    obtain ⟨hname, hmore⟩ := List.forall_mem_cons.mp hmore
    rw [List.append_cons]
    exact ih (h.increment hname) hmore

theorem Tallies.count (h : Tallies o names) (k : String) : o.count k = .number (names.count k) := by
  rw [Object.count, h.lookup k]
  split_ifs with hk
  · rfl
  · rw [List.count_eq_zero_of_not_mem hk]
    rfl

def Uncounted (o : Object) : Prop := ∀ k n, inherited k ≠ none → o.lookup k ≠ some (.number n)

theorem uncounted_nil : Uncounted ∅ := fun k n _ h => by cases h

theorem Uncounted.insert (h : Uncounted o) {n : Nat} (hname : inherited name = none) :
    Uncounted (o.insert name (.number n)) := by
  intro k m hk hlookup
  rcases lookup_insert_iff.mp hlookup with ⟨rfl, -⟩ | ⟨-, hlookup⟩
  · exact hk hname
  · exact h k m hk hlookup

theorem Uncounted.increment (h : Uncounted o) (name : String) : Uncounted (o.increment name) := by
  intro k n hk hlookup
  unfold Object.increment Object.set at hlookup
  split_ifs at hlookup with hproto
  · exact h k n hk hlookup
  rcases lookup_insert_iff.mp hlookup with ⟨rfl, hvalue⟩ | ⟨-, hlookup⟩
  · -- it is the text of what is inherited, or has become a longer text
    unfold Object.get at hvalue
    cases hold : o.lookup k with
    | none =>
      obtain ⟨s, hs⟩ := Option.ne_none_iff_exists'.mp hk
      simp [hold, hs] at hvalue
    | some value =>
      cases value with
      | number m => exact h k m hk hold
      | text s => simp [hold] at hvalue
  · exact h k n hk hlookup

theorem Uncounted.foldl (h : Uncounted o) (names : List String) :
    Uncounted (names.foldl Object.increment o) := by
  induction names generalizing o with
  | nil => exact h
  | cons name names ih => exact ih (h.increment name)

theorem Uncounted.inherited_eq_none (h : Uncounted o)
    (hcount : o.count name = .number (names.count name)) (hname : name ∈ names) :
    inherited name = none := by
  by_contra hinherited
  unfold Object.count at hcount
  cases hlookup : o.lookup name with
  | none =>
    have hzero : 0 = names.count name := by simpa [hlookup] using hcount
    exact absurd hzero.symm (Nat.pos_iff_ne_zero.mp (List.count_pos_iff.mpr hname))
  | some value =>
    rw [hlookup, Option.getD_some] at hcount
    exact h name _ hinherited (hcount ▸ hlookup)

variable {decodeText : Bytes → String} {allPeers : List Peer} {connections : List Direction}
  {setGauge : String → Value → Bool} {pinsList : Nat} {dht : DhtStats}

theorem foldl_countPeer (counts : Object × Object) :
    allPeers.foldl (countPeer decodeText) counts =
      ((agents decodeText allPeers).foldl Object.increment counts.1,
        (protocols allPeers).foldl Object.increment counts.2) := by
  induction allPeers generalizing counts with
  | nil => rfl
  | cons peer peers ih =>
    have hprotocols : protocols (peer :: peers) = peer.protocols ++ protocols peers :=
      List.flatMap_cons
    rw [List.foldl_cons, ih, hprotocols, List.foldl_append]
    obtain ⟨agentVersion, peerProtocols⟩ := peer
    cases agentVersion <;> rfl

theorem length_agents (decodeText : Bytes → String) (allPeers : List Peer) :
    (agents decodeText allPeers).length + allPeers.countP (fun p => p.agentVersion.isNone) =
      allPeers.length := by
  induction allPeers with
  | nil => rfl
  | cons peer peers ih =>
    obtain ⟨agentVersion, peerProtocols⟩ := peer
    cases agentVersion with
    | none =>
      have hagents : agents decodeText (⟨none, peerProtocols⟩ :: peers) = agents decodeText peers :=
        rfl
      rw [hagents, List.countP_cons, List.length_cons, ← ih]
      simp only [Option.isNone_none, if_true]
      omega
    | some agentBytes =>
      have hagents : agents decodeText (⟨some agentBytes, peerProtocols⟩ :: peers) =
          decodeText agentBytes :: agents decodeText peers := rfl
      rw [hagents, List.countP_cons, List.length_cons, List.length_cons, ← ih]
      simp only [Option.isNone_some, Bool.false_eq_true, if_false]
      omega

theorem inherited_unknown : inherited "unknown" = none := by decide

theorem uncounted_addUnknown (h : Uncounted o) : Uncounted (addUnknown o allPeers) := by
  unfold addUnknown
  split
  · exact h
  · split_ifs
    · rw [Object.set_of_ne (ne_proto_of_inherited inherited_unknown)]
      exact h.insert inherited_unknown
    · exact h

theorem Tallies.addUnknown_eq (h : Tallies o (agents decodeText allPeers)) :
    addUnknown o allPeers =
      if 0 < allPeers.countP fun p => p.agentVersion.isNone then
        o.insert "unknown" (.number (allPeers.countP fun p => p.agentVersion.isNone))
      else o := by
  have hlength := length_agents decodeText allPeers
  have hless : (agents decodeText allPeers).length < allPeers.length ↔
      0 < allPeers.countP fun p => p.agentVersion.isNone := by omega
  have hrest : allPeers.length - (agents decodeText allPeers).length =
      allPeers.countP fun p => p.agentVersion.isNone := by omega
  simp only [addUnknown, h.sum, hless, hrest,
    Object.set_of_ne (ne_proto_of_inherited inherited_unknown)]

theorem isNumber_addUnknown (h : Tallies o (agents decodeText allPeers)) :
    ∀ e ∈ (addUnknown o allPeers).entries, e.2.isNumber = true := by
  have hall := (sum_eq_some_iff.mp h.sum).1
  rw [h.addUnknown_eq]
  split_ifs
  · intro e he
    rcases List.mem_cons.mp he with rfl | he
    · rfl
    · exact hall e ((List.kerase_sublist "unknown" o.entries).subset he)
  · exact hall

theorem Tallies.addUnknown (h : Tallies o (agents decodeText allPeers))
    (hunknown : "unknown" ∈ agents decodeText allPeers → ∀ p ∈ allPeers, p.agentVersion ≠ none) :
    (∀ a, a ≠ "unknown" →
      Object.count (addUnknown o allPeers) a = .number ((agents decodeText allPeers).count a)) ∧
    Object.count (Api.addUnknown o allPeers) "unknown" = .number
      (allPeers.countP (fun p => p.agentVersion.isNone) +
        (agents decodeText allPeers).count "unknown") ∧
    Object.sum (Api.addUnknown o allPeers) = some allPeers.length := by
  rw [h.addUnknown_eq]
  split_ifs with hsome
  · have hnone : "unknown" ∉ agents decodeText allPeers := by
      intro hmem
      obtain ⟨p, hp, hversion⟩ := List.countP_pos_iff.mp hsome
      exact hunknown hmem p hp (Option.isNone_iff_eq_none.mp hversion)
    refine ⟨fun a ha => ?_, ?_, ?_⟩
    · rw [← h.count a, Object.count, AList.lookup_insert_ne ha]
      rfl
    · rw [Object.count, AList.lookup_insert, List.count_eq_zero_of_not_mem hnone]
      rfl
    · have hlookup : o.lookup "unknown" = none := (h.lookup _).trans (if_neg hnone)
      rw [← length_agents decodeText allPeers, ← sum_insert h.sum (Or.inr ⟨hlookup, rfl⟩),
        Nat.zero_add]
  · have hzero : (allPeers.countP fun p => p.agentVersion.isNone) = 0 :=
      Nat.eq_zero_of_not_pos hsome
    have hlength := length_agents decodeText allPeers
    refine ⟨fun a _ => h.count a, ?_, ?_⟩
    · rw [h.count, hzero, Nat.zero_add]
    · rw [h.sum, ← hlength, hzero, Nat.add_zero]

/-- `GET /stats` answers with counts that add up exactly if no agent string and no protocol has
the name of an inherited property, and there are not both peers that call themselves `unknown`
and peers without an agent version. -/
theorem handleStats_accurate_iff (hgauge : ∀ agent n, setGauge agent (.number n) = true) :
    (∃ r, handleStats decodeText setGauge pinsList dht allPeers connections = .ok r ∧
        r.peers.Accurate decodeText allPeers) ↔
      (∀ a ∈ agents decodeText allPeers, inherited a = none) ∧
      (∀ p ∈ protocols allPeers, inherited p = none) ∧
      ("unknown" ∈ agents decodeText allPeers → ∀ p ∈ allPeers, p.agentVersion ≠ none) := by
  have hcounts : countPeers decodeText allPeers =
      ((agents decodeText allPeers).foldl Object.increment ∅,
        (protocols allPeers).foldl Object.increment ∅) := foldl_countPeer (∅, ∅)
  constructor
  · rintro ⟨r, hr, haccurate⟩
    simp only [handleStats, hcounts] at hr
    split_ifs at hr
    obtain rfl := StatsAnswer.ok.inj hr
    have hagents : ∀ a ∈ agents decodeText allPeers, inherited a = none := by
      intro a ha
      by_cases hunknown : a = "unknown"
      · rw [hunknown, inherited_unknown]
      · exact (uncounted_addUnknown (uncounted_nil.foldl _)).inherited_eq_none
          (haccurate.agents a hunknown) ha
    refine ⟨hagents, fun p hp => ?_, fun hmem p hp hversion => ?_⟩
    · exact (uncounted_nil.foldl _).inherited_eq_none (haccurate.protocols p) hp
    · have hsome : 0 < allPeers.countP fun p => p.agentVersion.isNone :=
        List.countP_pos_iff.mpr ⟨p, hp, Option.isNone_iff_eq_none.mpr hversion⟩
      have hcount := haccurate.unknown
      simp only [(tallies_nil.foldl hagents).addUnknown_eq, if_pos hsome, Object.count,
        AList.lookup_insert, Option.getD_some, Value.number.injEq] at hcount
      have hpos := List.count_pos_iff.mpr hmem
      omega
  · rintro ⟨hagents, hprotocols, hunknown⟩
    have hversions : Tallies ((agents decodeText allPeers).foldl Object.increment ∅)
        (agents decodeText allPeers) := tallies_nil.foldl hagents
    have hbreakdown : Tallies ((protocols allPeers).foldl Object.increment ∅)
        (protocols allPeers) := tallies_nil.foldl hprotocols
    have hset : ((addUnknown ((agents decodeText allPeers).foldl Object.increment ∅)
        allPeers).entries.all fun e => setGauge e.1 e.2) = true := by
      refine List.all_eq_true.mpr fun e he => ?_
      have hnumber := isNumber_addUnknown hversions e he
      cases hvalue : e.2 with
      | number n => exact hgauge e.1 n
      | text s =>
        rw [hvalue] at hnumber
        cases hnumber
    simp only [handleStats, hcounts, if_pos hset]
    obtain ⟨hcount, hunknown, hsum⟩ := hversions.addUnknown hunknown
    exact ⟨_, rfl, hcount, hunknown, hsum, hbreakdown.count⟩

/-- `Gauge.set` of `prom-client`, which throws for a value that is no number. -/
def setNumber (_ : String) (value : Value) : Bool := value.isNumber

def decodeAscii (bytes : Bytes) : String := String.ofList (bytes.map fun b => Char.ofNat b.toNat)

theorem handleStats_accurate_twoPeers : ∃ r,
    handleStats decodeAscii setNumber 0 ⟨0, none, -1⟩
      [⟨some [0x6b, 0x75, 0x62, 0x6f], ["/ipfs/id/1.0.0"]⟩, ⟨none, ["/ipfs/id/1.0.0"]⟩] [.inbound] =
        .ok r ∧
      r.peers.Accurate decodeAscii
        [⟨some [0x6b, 0x75, 0x62, 0x6f], ["/ipfs/id/1.0.0"]⟩, ⟨none, ["/ipfs/id/1.0.0"]⟩] :=
  (handleStats_accurate_iff fun _ _ => rfl).mpr (by decide +kernel)

theorem not_accurate_constructor :
    handleStats decodeAscii setNumber 0 ⟨0, none, -1⟩
      [⟨some [0x63, 0x6f, 0x6e, 0x73, 0x74, 0x72, 0x75, 0x63, 0x74, 0x6f, 0x72], []⟩] [] =
        .error 500 "Internal server error" ∧
    ¬ ∃ r, handleStats decodeAscii setNumber 0 ⟨0, none, -1⟩
      [⟨some [0x63, 0x6f, 0x6e, 0x73, 0x74, 0x72, 0x75, 0x63, 0x74, 0x6f, 0x72], []⟩] [] = .ok r := by
  have herror : handleStats decodeAscii setNumber 0 ⟨0, none, -1⟩
      [⟨some [0x63, 0x6f, 0x6e, 0x73, 0x74, 0x72, 0x75, 0x63, 0x74, 0x6f, 0x72], []⟩] [] =
        .error 500 "Internal server error" := by
    decide +kernel
  refine ⟨herror, ?_⟩
  rintro ⟨r, hr⟩
  rw [herror] at hr
  cases hr

end IpfsShard.Api
