import IpfsShard.Backup.SaveRounds
import IpfsShard.Node.Datastore

/-! What the node reads back of its own records: the backup peers, the DHT status of a CID and
its pin, after any writes of which some are not carried out. -/

namespace IpfsShard.Node
open Pins Dht Table

/-- `hung`: the head has been written, and the response never ends. -/
inductive DhtStatusAnswer (ν : Type) where
  | ok (cid : String) (pinned announced : Bool) (lastAnnouncedAt : Option String)
      (status : Option (Json.Value ν))
  | error (status : Nat) (text : String) (details : Option String)
  | hung (statusCode : Nat)

section
variable {ν : Type}

/-- `value?.name`. -/
def property (value : Json.Value ν) (name : String) : Option (Json.Value ν) :=
  match value with
  | .object member => member (utf16Units name)
  | _ => none

def isText (value : Option (Json.Value ν)) (text : String) : Bool :=
  match value with
  | some (.string units) => units == utf16Units text
  | _ => false

def isNull : Json.Value ν → Bool
  | .null => true
  | _ => false

def truthy (isZero : ν → Bool) : Json.Value ν → Bool
  | .null => false
  | .bool b => b
  | .number x => !isZero x
  | .string units => units != []
  | .array _ | .object _ => true

variable (M : Multiformats) (parse : String → Except String CID) (toNumber : List Char → ν)
  (isZero : ν → Bool) (toISOString : Option (Json.Value ν) → Option String)

/-- `handleDht` with the action `status`, for the text between the path and the query.
`toISOString` is that of `new Date(value)`, and `none` where it throws. -/
def handleDhtStatus (datastore : Reads) (cidStr : String) : DhtStatusAnswer ν :=
  match parse cidStr with
  | .error err => .error 400 "Invalid CID" (some err)
  | .ok cid =>
    let pinned := isPinned M datastore cid
    let dhtRecord := getDHTStatus M toNumber datastore cid
    let status := dhtRecord.bind (property · "status")
    let answer (lastAnnouncedAt : Option String) : DhtStatusAnswer ν :=
      .ok cidStr pinned (isText status "success") lastAnnouncedAt (status.filter (!isNull ·))
    match dhtRecord.filter (truthy isZero) with
    | none => answer none
    | some record =>
      match toISOString (property record "announcedAt") with
      -- the head has been written before, so the second one, of the catch, throws again
      | none => .hung 200
      | some time => answer (some time)

end

section
variable {α : Type}

/-- Of the writes that are carried out, the last one that `select` takes something of. -/
def lastOf {β : Type} (select : NodeWrite α → Option β) (attempts : List (Attempt α)) : Option β :=
  ((attempts.filter Prod.snd).filterMap fun a => select a.1).getLast?

def savedPeers : NodeWrite α → Option (List α)
  | .saveBackupPeers peers => some peers
  | _ => none

def statusOf (cid : CID) : NodeWrite α → Option DHTAnnounceRecord
  | .setDHTStatus cid' record => if cid' = cid then some record else none
  | _ => none

def pinOf (cid : CID) : NodeWrite α → Option Bool
  | .pinAdd cid' => if cid' = cid then some true else none
  | .pinRm cid' => if cid' = cid then some false else none
  | _ => none

variable {A : Backup.Multiaddrs α} {M : Multiformats} {key : String} {m : Datastore}
  {attempts : List (Attempt α)}

theorem lookup_after {β : Type} {select : NodeWrite α → Option β} {value : β → Option Bytes}
    (hother : ∀ w : NodeWrite α, select w = none → (w.write A M).key ≠ key)
    (hselect : ∀ (w : NodeWrite α) b, select w = some b → w.write A M = ⟨key, value b⟩) :
    (after A M m attempts).lookup key =
      ((lastOf select attempts).map value).getD (m.lookup key) := by
  have hwrites : ∀ l : List (Attempt α), ((l.map fun a => a.1.write A M).filter fun w => w.key = key)
      = (l.filterMap fun a => select a.1).map fun b => ⟨key, value b⟩ := by
    intro l
    induction l with
    | nil => rfl
    | cons a l ih =>
      rw [List.map_cons, List.filter_cons, ih, List.filterMap_cons]
      cases hs : select a.1 with
      | none => simp only [hother a.1 hs, decide_false, Bool.false_eq_true, if_false]
      | some b => simp only [hselect a.1 b hs, decide_true, if_true, List.map_cons]
  rw [after, lookup_written, lastWrite, carriedOut, hwrites, List.getLast?_map, Option.map_map,
    lastOf]
  rfl

end

variable {M : Multiformats}

theorem startsWith_local_pinKey (cid : CID) : startsWith "/local/" (pinKey M cid) = true := by
  rw [startsWith, pinKey, String.toList_append]
  rfl

theorem startsWith_local_announceKey (cid : CID) :
    startsWith "/local/" (announceKey M cid) = true := by
  rw [startsWith, announceKey, String.toList_append]
  rfl

theorem Libp2pKey.ne (key : Libp2pKey) {k : String} (h : startsWith "/local/" k = true) :
    key.key ≠ k := by
  rintro rfl
  rw [key.apart] at h
  cases h

theorem announceKey_ne_backupPeersKey (cid : CID) : announceKey M cid ≠ backupPeersKey := by
  intro h
  have hstart := startsWith_append announcesPrefix (M.toString cid)
  rw [announceKey] at h
  rw [h] at hstart
  exact absurd hstart (by decide)

theorem pinKey_ne_backupPeersKey (cid : CID) : pinKey M cid ≠ backupPeersKey :=
  pinKey_ne (by decide) cid

theorem pinKey_ne_announceKey (cid cid' : CID) : pinKey M cid ≠ announceKey M cid' :=
  pinKey_ne (startsWith_announces _) cid

theorem announceKey_inj (hM : Function.Injective M.toString) {cid cid' : CID} :
    announceKey M cid = announceKey M cid' ↔ cid = cid' := by
  rw [announceKey, announceKey, String.append_right_inj]
  exact hM.eq_iff

theorem pinKey_inj (hM : Function.Injective M.toString) {cid cid' : CID} :
    pinKey M cid = pinKey M cid' ↔ cid = cid' := by
  rw [pinKey, pinKey, String.append_right_inj]
  exact hM.eq_iff

section
variable {α : Type} {A : Backup.Multiaddrs α} {m : Datastore} {attempts : List (Attempt α)}
  {backend : Backend}

theorem lookup_backupPeers : (after A M m attempts).lookup backupPeersKey =
    ((lastOf savedPeers attempts).map fun peers =>
      some (encodeJson (backupPeersTree (Backup.toStored A peers)))).getD
        (m.lookup backupPeersKey) := by
  refine lookup_after (fun w hw => ?_) fun w peers hw => ?_
  · cases w with
    | saveBackupPeers peers => cases hw
    | setDHTStatus cid record => exact announceKey_ne_backupPeersKey cid
    | pinAdd cid => exact pinKey_ne_backupPeersKey cid
    | pinRm cid => exact pinKey_ne_backupPeersKey cid
    | libp2pPut key value => exact key.ne (by decide)
    | libp2pDelete key => exact key.ne (by decide)
  · cases w <;> cases hw
    rfl

theorem lookup_announce (hM : Function.Injective M.toString) (cid : CID) :
    (after A M m attempts).lookup (announceKey M cid) =
      ((lastOf (statusOf cid) attempts).map fun record => some (encodeJson (recordTree record))).getD
        (m.lookup (announceKey M cid)) := by
  refine lookup_after (fun w hw => ?_) fun w record hw => ?_
  · cases w with
    | saveBackupPeers peers => exact (announceKey_ne_backupPeersKey cid).symm
    | setDHTStatus cid' record =>
      rw [statusOf] at hw
      split_ifs at hw with heq
      exact mt (announceKey_inj hM).mp heq
    | pinAdd cid' => exact pinKey_ne_announceKey cid' cid
    | pinRm cid' => exact pinKey_ne_announceKey cid' cid
    | libp2pPut key value => exact key.ne (startsWith_local_announceKey cid)
    | libp2pDelete key => exact key.ne (startsWith_local_announceKey cid)
  · cases w with
    | setDHTStatus cid' record' =>
      rw [statusOf] at hw
      split_ifs at hw with heq
      cases hw
      rw [heq]
      rfl
    | _ => cases hw

theorem lookup_pin (hM : Function.Injective M.toString) (cid : CID) :
    (after A M m attempts).lookup (pinKey M cid) =
      ((lastOf (pinOf cid) attempts).map fun pinned => if pinned then some [] else none).getD
        (m.lookup (pinKey M cid)) := by
  refine lookup_after (fun w hw => ?_) fun w pinned hw => ?_
  · cases w with
    | saveBackupPeers peers => exact (pinKey_ne_backupPeersKey cid).symm
    | setDHTStatus cid' record => exact (pinKey_ne_announceKey cid cid').symm
    | pinAdd cid' =>
      rw [pinOf] at hw
      split_ifs at hw with heq
      exact mt (pinKey_inj hM).mp heq
    | pinRm cid' =>
      rw [pinOf] at hw
      split_ifs at hw with heq
      exact mt (pinKey_inj hM).mp heq
    | libp2pPut key value => exact key.ne (startsWith_local_pinKey cid)
    | libp2pDelete key => exact key.ne (startsWith_local_pinKey cid)
  · cases w with
    | pinAdd cid' =>
      rw [pinOf] at hw
      split_ifs at hw with heq
      cases hw
      rw [heq]
      rfl
    | pinRm cid' =>
      rw [pinOf] at hw
      split_ifs at hw with heq
      cases hw
      rw [heq]
      rfl
    | _ => cases hw

theorem wrapped_get_ok {key : String} {data : Bytes} (h : m.lookup key = some data) :
    (backend.wrapped m).get key = .ok data := by
  simp only [Backend.wrapped, wrapDatastoreWithErrorHandler, Backend.reads, h]

theorem wrapped_get_error {key : String} (h : m.lookup key = none) :
    ∃ err, (backend.wrapped m).get key = .error err := by
  simp only [Backend.wrapped, wrapDatastoreWithErrorHandler, Backend.reads, h]
  split_ifs
  · exact ⟨_, rfl⟩
  · exact ⟨_, rfl⟩

theorem isPinned_wrapped (hmissing : ∀ key, backend.hasMissing key ≠ .ok true) (cid : CID) :
    isPinned M (backend.wrapped m) cid = (m.lookup (pinKey M cid)).isSome := by
  simp only [isPinned, Backend.wrapped, wrapDatastoreWithErrorHandler, Backend.reads, Option.map_some]
  by_cases hpin : pinKey M cid ∈ m
  · rw [AList.lookup_isSome.mpr hpin]
    simp only [if_pos hpin]
  · have hnone : (m.lookup (pinKey M cid)).isSome = false :=
      Bool.eq_false_iff.mpr (mt AList.lookup_isSome.mp hpin)
    rw [hnone]
    simp only [if_neg hpin]
    cases hhas : backend.hasMissing (pinKey M cid) with
    | ok found =>
      cases found with
      | true => exact absurd hhas (hmissing _)
      | false => rfl
    | error err =>
      simp only
      split_ifs <;> rfl

end

/-- S3 throws for a key that it does not have. -/
def s3 : Backend where
  getMissing _ :=
    { name := "GetFailedError", message := some "NoSuchKey: The specified key does not exist." }
  hasMissing _ := .ok false

theorem s3_hasMissing (key : String) : s3.hasMissing key ≠ .ok true := nofun

def twoAddrs : Backup.Multiaddrs Bool where
  getPeerId _ := none
  toString addr := if addr then Backup.oneAddr else Backup.otherAddr
  parse text := [true, false].find? fun addr =>
    text == if addr then Backup.oneAddr else Backup.otherAddr

def twoMultiaddr : Json.Value (List Char) → Option Bool
  | .string units => [true, false].find? fun addr => units == utf16Units (twoAddrs.toString addr)
  | _ => none

theorem twoMultiaddr_toString : ∀ addr : Bool,
    twoMultiaddr (.string (utf16Units (twoAddrs.toString addr))) =
      twoAddrs.parse (twoAddrs.toString addr) := by decide

theorem twoAddrs_parse : ∀ addr : Bool, twoAddrs.parse (twoAddrs.toString addr) = some addr := by
  decide

def peerRecord : Libp2pKey := ⟨"/peers/bafzaa", by decide⟩

def someAttempts : List (Attempt Bool) :=
  [(.saveBackupPeers [true, false], true),
    (.setDHTStatus Multiformats.emptyRaw { status := .success, announcedAt := 0 }, true),
    (.pinAdd Multiformats.emptyRaw, true), (.saveBackupPeers [], false),
    (.libp2pPut peerRecord [0], true),
    (.setDHTStatus Multiformats.emptyRaw
      { status := .failed, announcedAt := 7, error := some "Error: \"no peers\"" }, false)]

theorem text_backupPeersTree (peers : List String) : ∃ text,
    (backupPeersTree peers).text = '[' :: text := ⟨_, rfl⟩

theorem text_recordTree (record : DHTAnnounceRecord) : ∃ text,
    (recordTree record).text = '\x7b' :: text := ⟨_, rfl⟩

section
variable {α : Type} {A : Backup.Multiaddrs α} {ν : Type} {toNumber : List Char → ν}
  {multiaddr : Json.Value ν → Option α}

theorem loadBackupPeers_encoded {texts : List String} (hmultiaddr : ∀ text ∈ texts,
      multiaddr (.string (utf16Units text)) = A.parse text) {datastore : Reads}
    (h : datastore.get backupPeersKey = .ok (encodeJson (backupPeersTree texts))) :
    loadBackupPeers toNumber multiaddr datastore = Backup.loadBackupPeers A (some texts) := by
  obtain ⟨text, htext⟩ := text_backupPeersTree texts
  have hparse := parse_encodeJson toNumber (valid_backupPeersTree texts) htext (by decide)
  have hitems : (Json.values toNumber (texts.map fun peer => Json.Tree.string (utf16Units peer))).mapM
      multiaddr = texts.mapM A.parse := by
    clear h hparse htext
    induction texts with
    | nil => rfl
    | cons peer texts ih =>
      obtain ⟨hpeer, htexts⟩ := List.forall_mem_cons.mp hmultiaddr
      rw [List.map_cons, Json.values, List.mapM_cons, List.mapM_cons, Json.Tree.value, hpeer,
        ih htexts]
  simp only [loadBackupPeers, h, hparse]
  rw [backupPeersTree, Json.Tree.value]
  simp only [hitems]
  rfl

/-- Whatever is written besides, the backup peers that are loaded are those of the last save that
was carried out. -/
theorem loadBackupPeers_after (hparse : ∀ addr, A.parse (A.toString addr) = some addr)
    (hmultiaddr : ∀ addr,
      multiaddr (.string (utf16Units (A.toString addr))) = A.parse (A.toString addr))
    (M : Multiformats) (backend : Backend) (m : Datastore) (attempts : List (Attempt α)) :
    loadBackupPeers toNumber multiaddr (backend.wrapped (after A M m attempts)) =
      (lastOf savedPeers attempts).getD (loadBackupPeers toNumber multiaddr (backend.wrapped m)) := by
  have hlookup : (after A M m attempts).lookup backupPeersKey = _ := lookup_backupPeers
  cases hlast : lastOf savedPeers attempts with
  | some peers =>
    rw [hlast] at hlookup
    have htexts : ∀ text ∈ Backup.toStored A peers,
        multiaddr (.string (utf16Units text)) = A.parse text :=
      List.forall_mem_map.mpr fun addr _ => hmultiaddr addr
    rw [loadBackupPeers_encoded htexts (wrapped_get_ok hlookup)]
    exact Backup.loadBackupPeers_toStored hparse peers
  | none =>
    rw [hlast] at hlookup
    have hget : (backend.wrapped (after A M m attempts)).get backupPeersKey =
        (backend.wrapped m).get backupPeersKey := by
      simp only [Backend.wrapped, wrapDatastoreWithErrorHandler, Backend.reads, hlookup]
      rfl
    simp only [loadBackupPeers, hget, Option.getD_none]

theorem loadBackupPeers_after_someAttempts :
    loadBackupPeers id twoMultiaddr
      (s3.wrapped (after twoAddrs Multiformats.onEmptyBlock ∅ someAttempts)) = [true, false] :=
  (loadBackupPeers_after twoAddrs_parse twoMultiaddr_toString Multiformats.onEmptyBlock s3 ∅
    someAttempts).trans rfl

end

section
variable {ν : Type} {toNumber : List Char → ν} {M : Multiformats} {cid : CID}

theorem getDHTStatus_encoded {datastore : Reads} {record : DHTAnnounceRecord}
    (h : datastore.get (announceKey M cid) = .ok (encodeJson (recordTree record))) :
    getDHTStatus M toNumber datastore cid = some ((recordTree record).value toNumber) := by
  obtain ⟨text, htext⟩ := text_recordTree record
  have hparse := parse_encodeJson toNumber (valid_recordTree record) htext (by decide)
  simp only [getDHTStatus, h, hparse]

theorem property_recordTree (record : DHTAnnounceRecord) :
    property ((recordTree record).value toNumber) "status" =
        some (.string (utf16Units (Status.text record.status))) ∧
      property ((recordTree record).value toNumber) "announcedAt" =
        some (.number (toNumber (Nat.toDigits 10 record.announcedAt))) := by
  have hstatus : utf16Units "error" ≠ utf16Units "status" := by decide
  have hannounced : utf16Units "error" ≠ utf16Units "announcedAt" := by decide
  have happart : utf16Units "announcedAt" ≠ utf16Units "status" := by decide
  cases herr : record.error with
  | none => simp [property, recordTree, herr, Json.Tree.value, Json.member, Json.Scalar.value, happart]
  | some err =>
    simp [property, recordTree, herr, Json.Tree.value, Json.member, Json.Scalar.value, happart,
      hstatus, hannounced]

theorem isText_status (status : Status) :
    isText (ν := ν) (some (.string (utf16Units (Status.text status)))) "success" =
      (status == .success) := by
  cases status <;> rfl

/-- `GET /dht/status` answers what was written last about the CID, be it a status or a pin. -/
theorem handleDhtStatus_after {α : Type} (A : Backup.Multiaddrs α)
    (hM : Function.Injective M.toString) {parse : String → Except String CID} {cidStr : String}
    (hcid : parse cidStr = .ok cid) {backend : Backend}
    (hmissing : ∀ key, backend.hasMissing key ≠ .ok true) (isZero : ν → Bool)
    {toISOString : Option (Json.Value ν) → Option String} {iso : Nat → String}
    {attempts : List (Attempt α)}
    (hiso : ∀ record, lastOf (statusOf cid) attempts = some record →
      toISOString (some (.number (toNumber (Nat.toDigits 10 record.announcedAt)))) =
        some (iso record.announcedAt)) :
    handleDhtStatus M parse toNumber isZero toISOString (backend.wrapped (after A M ∅ attempts))
        cidStr =
      .ok cidStr (lastOf (pinOf cid) attempts == some true)
        ((lastOf (statusOf cid) attempts).any fun record => record.status == .success)
        ((lastOf (statusOf cid) attempts).map fun record => iso record.announcedAt)
        ((lastOf (statusOf cid) attempts).map fun record =>
          .string (utf16Units (Status.text record.status))) := by
  have hpinned : isPinned M (backend.wrapped (after A M ∅ attempts)) cid =
      (lastOf (pinOf cid) attempts == some true) := by
    rw [isPinned_wrapped hmissing, lookup_pin hM]
    cases lastOf (pinOf cid) attempts with
    | none => rfl
    | some pinned => cases pinned <;> rfl
  have hlookup : (after A M ∅ attempts).lookup (announceKey M cid) = _ := lookup_announce hM cid
  simp only [handleDhtStatus, hcid, hpinned]
  cases hlast : lastOf (statusOf cid) attempts with
  | none =>
    rw [hlast] at hlookup
    obtain ⟨err, herr⟩ := @wrapped_get_error _ backend _ hlookup
    simp only [getDHTStatus, herr]
    rfl
  | some record =>
    rw [hlast] at hlookup
    obtain ⟨hstatus, hannounced⟩ := @property_recordTree _ toNumber record
    have htruthy : truthy isZero ((recordTree record).value toNumber) = true := rfl
    simp only [getDHTStatus_encoded (wrapped_get_ok hlookup), Option.bind_some, hstatus,
      Option.filter_some, htruthy, if_true, hannounced, hiso record hlast, isText_status,
      Option.any_some, Option.map_some]
    rfl

open Multiformats

def parseText (text : String) : Except String CID :=
  match cidParse text with
  | none => .error "SyntaxError: Unexpected end of data"
  | some cid => .ok cid

def epochOnly : Option (Json.Value (List Char)) → Option String
  | some (.number ['0']) => some "1970-01-01T00:00:00.000Z"
  | _ => none

def epochText (_ : Nat) : String := "1970-01-01T00:00:00.000Z"

theorem handleDhtStatus_after_someAttempts :
    handleDhtStatus onEmptyBlock parseText id (· == ['0']) epochOnly
        (s3.wrapped (after twoAddrs onEmptyBlock ∅ someAttempts))
        "bafkreihdwdcefgh4dqkjv67uzcmw7ojee6xedzdetojuzjevtenxquvyku" =
      .ok "bafkreihdwdcefgh4dqkjv67uzcmw7ojee6xedzdetojuzjevtenxquvyku" true true
        (some "1970-01-01T00:00:00.000Z") (some (.string (utf16Units "success"))) := by
  have hM : Function.Injective onEmptyBlock.toString := by
    intro cid cid' h
    have hparse : cidParse (cidText cid) = cidParse (cidText cid') := congrArg cidParse h
    rw [cidParse_cidText, cidParse_cidText] at hparse
    exact Option.some.inj hparse
  have hlast : lastOf (statusOf emptyRaw) someAttempts =
      some { status := .success, announcedAt := 0 } := by decide
  have hiso : ∀ record, lastOf (statusOf emptyRaw) someAttempts = some record →
      epochOnly (some (.number (id (Nat.toDigits 10 record.announcedAt)))) =
        some (epochText record.announcedAt) := by
    intro record h
    rw [hlast] at h
    cases h
    rfl
  refine (handleDhtStatus_after twoAddrs hM rfl s3_hasMissing (· == ['0']) hiso).trans ?_
  rw [hlast]
  rfl

end

end IpfsShard.Node
