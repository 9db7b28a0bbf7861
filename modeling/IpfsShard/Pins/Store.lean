import IpfsShard.Cid
import IpfsShard.Lib.Runs
import IpfsShard.Lib.Table
import Mathlib.Data.List.Nodup

/-! The pins of the node, which are keys of the datastore that it shares with the DHT records,
the backup peers and libp2p: they are a set of CIDs. -/

namespace IpfsShard.Pins
open Runs Table

abbrev Datastore := AList fun _ : String => Bytes

def startsWith (start key : String) : Bool := start.toList.isPrefixOf key.toList

def substring (key : String) (i : Nat) : String := String.ofList (key.toList.drop i)

/-- The keys of `datastore.query` with a prefix. -/
def query (datastore : Datastore) (start : String) : List String :=
  datastore.keys.filter (startsWith start)

/-- What a call of the datastore throws: whether it is an `Error`, its `message`, and `String` of
it. -/
structure Thrown where
  isError : Bool
  message : String
  text : String

inductive Outcome where
  | done
  | failed (err : Thrown) (carriedOut : Bool)

def Outcome.carriedOut : Outcome → Bool
  | done => true
  | failed _ carriedOut => carriedOut

def pinsPrefix : String := "/local/pins/"

def announcesPrefix : String := "/local/dht-announces/"

def backupPeersKey : String := "/local/temp_bootstrap_peers"

section
variable (M : Multiformats) (parse : String → Option CID)

def pinKey (cid : CID) : String := pinsPrefix ++ M.toString cid

def isPinned (datastore : Datastore) (cid : CID) : Bool := decide (pinKey M cid ∈ datastore)

/-- With the message of the error that is thrown, if any. -/
def pinAdd (datastore : Datastore) (cid : CID) (put : Outcome) : Datastore × Option String :=
  (if put.carriedOut then datastore.insert (pinKey M cid) [] else datastore,
    match put with
    | .done => none
    | .failed err _ => some ("Failed to pin " ++ M.toString cid ++ ": " ++ err.text))

def notFound (err : Thrown) : Bool :=
  err.isError && decide ("not found".toList <:+: err.message.toList)

/-- An error that says `not found` is not thrown on. -/
def pinRm (datastore : Datastore) (cid : CID) (delete : Outcome) : Datastore × Option String :=
  (if delete.carriedOut then datastore.erase (pinKey M cid) else datastore,
    match delete with
    | .done => none
    | .failed err _ =>
      if notFound err then none
      else some ("Failed to unpin " ++ M.toString cid ++ ": " ++ err.text))

def pinLs (datastore : Datastore) : List CID :=
  (query datastore pinsPrefix).filterMap fun key => parse (substring key pinsPrefix.length)

def setDHTStatus (datastore : Datastore) (cid : CID) (data : Bytes) : Datastore :=
  datastore.insert (announcesPrefix ++ M.toString cid) data

/-- `data` is the JSON text of the addresses. -/
def saveBackupPeers (datastore : Datastore) (data : Bytes) : Datastore :=
  datastore.insert backupPeersKey data

inductive Operation where
  | add (cid : CID)
  | rm (cid : CID)
  | setStatus (cid : CID) (data : Bytes)
  | saveBackupPeers (data : Bytes)
  | libp2pPut (key : String) (value : Bytes)
  | libp2pDelete (key : String)

def perform (datastore : Datastore) : Operation → Option Datastore
  | .add cid => some (pinAdd M datastore cid .done).1
  | .rm cid => some (pinRm M datastore cid .done).1
  | .setStatus cid data => some (setDHTStatus M datastore cid data)
  | .saveBackupPeers data => some (saveBackupPeers datastore data)
  | .libp2pPut key value =>
    if startsWith pinsPrefix key then none else some (datastore.insert key value)
  | .libp2pDelete key => if startsWith pinsPrefix key then none else some (datastore.erase key)

def operations (datastore : Datastore) : System Datastore Operation Unit where
  init := datastore
  step s op := (perform M s op).map fun t => (t, [])

end

def Pinned (ops : List Operation) (cid : CID) : Prop :=
  ∃ before after, ops = before ++ .add cid :: after ∧ .rm cid ∉ after

variable {M : Multiformats} {parse : String → Option CID} {datastore s t : Datastore}
  {op : Operation} {ops : List Operation} {out : List Unit} {cid : CID} {key start : String}

theorem startsWith_append (start rest : String) : startsWith start (start ++ rest) = true := by
  rw [startsWith, List.isPrefixOf_iff_prefix, String.toList_append]
  exact List.prefix_append _ _

theorem substring_append (start rest : String) :
    substring (start ++ rest) start.length = rest := by
  rw [substring, String.toList_append, ← String.length_toList, List.drop_left, String.ofList_toList]

theorem startsWith_announces (rest : String) :
    startsWith pinsPrefix (announcesPrefix ++ rest) = false := by
  rw [startsWith, String.toList_append]
  rfl

theorem mem_query_iff : key ∈ query datastore start ↔ key ∈ datastore ∧ startsWith start key := by
  rw [query, List.mem_filter, AList.mem_keys]

theorem startsWith_pinKey (cid : CID) : startsWith pinsPrefix (pinKey M cid) = true :=
  startsWith_append _ _

theorem pinKey_ne (hkey : startsWith pinsPrefix key = false) (cid : CID) : pinKey M cid ≠ key := by
  rintro rfl
  rw [startsWith_pinKey] at hkey
  cases hkey

theorem pinKey_injective (hparse : ∀ cid, parse (M.toString cid) = some cid) :
    Function.Injective (pinKey M) := by
  intro cid cid' h
  have htext := congrArg (fun key => substring key pinsPrefix.length) h
  simp only [pinKey, substring_append] at htext
  have hboth := congrArg parse htext
  rw [hparse, hparse] at hboth
  exact Option.some.inj hboth

/-- The keys under the prefix are the pin keys of a set of CIDs. -/
structure Represents (M : Multiformats) (datastore : Datastore) (pins : CID → Prop) : Prop where
  held : ∀ cid, pinKey M cid ∈ datastore ↔ pins cid
  keys : ∀ key ∈ datastore, startsWith pinsPrefix key → ∃ cid, key = pinKey M cid

namespace Represents

variable {pins : CID → Prop}

theorem congr {pins' : CID → Prop} (h : Represents M s pins) (hpins : ∀ cid, pins cid ↔ pins' cid) :
    Represents M s pins' := ⟨fun cid => (h.held cid).trans (hpins cid), h.keys⟩

theorem insertPin (h : Represents M s pins) (hinj : Function.Injective (pinKey M)) (cid : CID)
    (value : Bytes) : Represents M (s.insert (pinKey M cid) value) (fun c => c = cid ∨ pins c) where
  held c := by
    rw [AList.mem_insert, hinj.eq_iff, h.held]
  keys key hkey hstart := by
    rcases (AList.mem_insert _).mp hkey with rfl | hold
    · exact ⟨cid, rfl⟩
    · exact h.keys key hold hstart

theorem erasePin (h : Represents M s pins) (hinj : Function.Injective (pinKey M)) (cid : CID) :
    Represents M (s.erase (pinKey M cid)) (fun c => c ≠ cid ∧ pins c) where
  held c := by
    rw [AList.mem_erase, Ne, hinj.eq_iff, h.held]
  keys key hkey hstart := h.keys key (AList.mem_erase.mp hkey).2 hstart

theorem insertOther (h : Represents M s pins) (hkey : startsWith pinsPrefix key = false)
    (value : Bytes) : Represents M (s.insert key value) pins where
  held c := by
    rw [AList.mem_insert, h.held]
    exact or_iff_right (pinKey_ne hkey c)
  keys key' hkey' hstart := by
    rcases (AList.mem_insert _).mp hkey' with rfl | hold
    · rw [hkey] at hstart
      cases hstart
    · exact h.keys key' hold hstart

theorem eraseOther (h : Represents M s pins) (hkey : startsWith pinsPrefix key = false) :
    Represents M (s.erase key) pins where
  held c := by
    rw [AList.mem_erase, h.held]
    exact and_iff_right (pinKey_ne hkey c)
  keys key' hkey' hstart := h.keys key' (AList.mem_erase.mp hkey').2 hstart

theorem pinLs_spec (h : Represents M s pins)
    (hparse : ∀ cid, parse (M.toString cid) = some cid) :
    (pinLs parse s).Nodup ∧ ∀ cid, cid ∈ pinLs parse s ↔ pins cid := by
  obtain ⟨cids, hcids⟩ : ∃ cids : List CID, query s pinsPrefix = cids.map (pinKey M) := by
    have hall : ∀ key ∈ query s pinsPrefix, ∃ cid, key = pinKey M cid := fun key hkey =>
      h.keys key (mem_query_iff.mp hkey).1 (mem_query_iff.mp hkey).2
    generalize query s pinsPrefix = keys at hall
    induction keys with
    | nil => exact ⟨[], rfl⟩
    | cons key keys ih =>
      obtain ⟨⟨cid, rfl⟩, hkeys⟩ := List.forall_mem_cons.mp hall
      obtain ⟨cids, rfl⟩ := ih hkeys
      exact ⟨cid :: cids, rfl⟩
  have hlist : pinLs parse s = cids := by
    rw [pinLs, hcids, List.filterMap_map]
    refine (List.filterMap_congr fun cid _ => ?_).trans List.filterMap_some
    simp only [Function.comp_apply, pinKey, substring_append, hparse]
  have hnodup : (cids.map (pinKey M)).Nodup := by
    rw [← hcids]
    exact s.keys_nodup.filter _
  rw [hlist]
  refine ⟨hnodup.of_map, fun cid => ?_⟩
  rw [← h.held, ← List.mem_map_of_injective (pinKey_injective hparse), ← hcids, mem_query_iff]
  exact and_iff_left (startsWith_pinKey cid)

end Represents

theorem pinned_nil : ¬ Pinned [] cid := by
  rintro ⟨before, after, h, -⟩
  simp at h

theorem pinned_concat : Pinned (ops ++ [op]) cid ↔
    op = .add cid ∨ (op ≠ .rm cid ∧ Pinned ops cid) := by
  constructor
  · rintro ⟨before, after, h, hrm⟩
    rcases List.eq_nil_or_concat after with rfl | ⟨after, last, rfl⟩
    · exact Or.inl (List.singleton_inj.mp (List.append_inj' h rfl).2)
    · rw [List.concat_eq_append, ← List.cons_append, ← List.append_assoc] at h
      obtain ⟨hops, hlast⟩ := List.append_inj' h rfl
      obtain rfl := List.singleton_inj.mp hlast
      refine Or.inr ⟨?_, before, after, hops, fun hmem => hrm (by simp [hmem])⟩
      rintro rfl
      exact hrm (by simp)
  · rintro (rfl | ⟨hne, before, after, rfl, hrm⟩)
    · exact ⟨ops, [], rfl, List.not_mem_nil⟩
    · refine ⟨before, after ++ [op], by simp, fun hmem => ?_⟩
      rcases List.mem_append.mp hmem with hold | hlast
      · exact hrm hold
      · exact hne (List.mem_singleton.mp hlast).symm

theorem perform_represents (hparse : ∀ cid, parse (M.toString cid) = some cid)
    (h : Represents M s (Pinned ops)) (hop : perform M s op = some t) :
    Represents M t (Pinned (ops ++ [op])) := by
  have hinj := pinKey_injective hparse
  cases op with
  | add cid =>
    cases hop
    refine (h.insertPin hinj cid []).congr fun c => ?_
    rw [pinned_concat, Operation.add.injEq]
    exact or_congr eq_comm (by simp)
  | rm cid =>
    cases hop
    refine (h.erasePin hinj cid).congr fun c => ?_
    rw [pinned_concat, or_iff_right (by simp), Ne, Ne, Operation.rm.injEq]
    exact and_congr_left fun _ => not_congr eq_comm
  | setStatus cid data =>
    cases hop
    refine (h.insertOther (startsWith_announces _) data).congr fun c => ?_
    simp [pinned_concat]
  | saveBackupPeers data =>
    cases hop
    refine (h.insertOther (by rfl) data).congr fun c => ?_
    simp [pinned_concat]
  | libp2pPut key value =>
    simp only [perform] at hop
    split_ifs at hop with hkey
    cases hop
    refine (h.insertOther (by simpa using hkey) value).congr fun c => ?_
    simp [pinned_concat]
  | libp2pDelete key =>
    simp only [perform] at hop
    split_ifs at hop with hkey
    cases hop
    refine (h.eraseOther (by simpa using hkey)).congr fun c => ?_
    simp [pinned_concat]

theorem represents_of_run (hparse : ∀ cid, parse (M.toString cid) = some cid)
    (hstart : ∀ key ∈ datastore, startsWith pinsPrefix key = false)
    {ok : Datastore → Operation → Prop} (h : (operations M datastore).Run ok ops s out) :
    Represents M s (Pinned ops) := by
  induction h with
  | start =>
    refine ⟨fun cid => iff_of_false (fun hmem => ?_) pinned_nil, fun key hkey hunder => ?_⟩
    · exact pinKey_ne (hstart _ hmem) cid rfl
    · exact absurd hunder (by simp [hstart key hkey])
  | step _ _ hs ih =>
    obtain ⟨t, ht, heq⟩ := Option.map_eq_some_iff.mp hs
    obtain rfl := congrArg Prod.fst heq
    exact perform_represents hparse ih ht

/-- From a datastore without pins on, `pins.ls()` yields the CIDs that were added and not removed
since, each of them once, and `isPinned` says which they are. -/
theorem pinLs_iff_pinned (hparse : ∀ cid, parse (M.toString cid) = some cid)
    (hstart : ∀ key ∈ datastore, startsWith pinsPrefix key = false)
    (h : (operations M datastore).Run System.any ops s out) :
    (pinLs parse s).Nodup ∧ ∀ cid, (cid ∈ pinLs parse s ↔ Pinned ops cid) ∧
      (isPinned M s cid = true ↔ Pinned ops cid) := by
  have hrep := represents_of_run hparse hstart h
  obtain ⟨hnodup, hmem⟩ := hrep.pinLs_spec hparse
  refine ⟨hnodup, fun cid => ⟨hmem cid, ?_⟩⟩
  rw [isPinned, decide_eq_true_iff]
  exact hrep.held cid

open Multiformats

def pinnedTwice : List Operation :=
  [.libp2pPut "/peers/a" [1], .add emptyRaw, .setStatus emptyRaw [2], .saveBackupPeers [3],
    .add emptyRaw]

theorem pinLs_pinnedTwice : ∃ s out, (operations onEmptyBlock ∅).Run System.any pinnedTwice s out ∧
    pinLs cidParse s = [emptyRaw] ∧ (pinLs cidParse s).Nodup ∧
    ∀ cid, (cid ∈ pinLs cidParse s ↔ Pinned pinnedTwice cid) ∧
      (isPinned onEmptyBlock s cid = true ↔ Pinned pinnedTwice cid) := by
  obtain ⟨s, out, hrun, hlist⟩ := System.exists_run (T := operations onEmptyBlock ∅) pinnedTwice
    (p := fun r => pinLs cidParse r.1 = [emptyRaw]) (by decide +kernel)
  exact ⟨s, out, hrun, hlist, pinLs_iff_pinned cidParse_cidText (by simp) hrun⟩

end IpfsShard.Pins
