import IpfsShard.Backup.Selector
import IpfsShard.Dht.Announce
import IpfsShard.Lib.JsonPrint

/-! The datastore of the node, on S3 or in memory: what reads of it throw, and the writes under
its keys, in the order in which they take effect. -/

namespace IpfsShard.Node
open Pins Dht Table

/-- What a read throws, as far as the node looks at it. -/
structure ReadError where
  name : String
  code : Option String := none
  message : Option String := none
  deriving DecidableEq

def includes (text part : String) : Bool := decide (part.toList <:+: text.toList)

def isNoSuchKey (err : ReadError) : Bool :=
  err.name == "GetFailedError" || err.code == some "NoSuchKey" ||
    err.message.any (includes · "NoSuchKey")

def notFoundError (key : String) : ReadError := { name := "NotFoundError", message := some key }

/-- The reads of a datastore; one without `has` is allowed for. -/
structure Reads where
  get : String → Except ReadError Bytes
  has : Option (String → Except ReadError Bool)

def wrapDatastoreWithErrorHandler (datastore : Reads) : Reads where
  get key :=
    match datastore.get key with
    | .ok data => .ok data
    | .error err => if isNoSuchKey err then .error (notFoundError key) else .error err
  has := datastore.has.map fun originalHas key =>
    match originalHas key with
    | .ok found => .ok found
    | .error err => if isNoSuchKey err then .ok false else .error err

/-- What S3 or the memory does where there is nothing under a key. -/
structure Backend where
  getMissing : String → ReadError
  hasMissing : String → Except ReadError Bool

def Backend.reads (backend : Backend) (m : Datastore) : Reads where
  get key :=
    match m.lookup key with
    | some data => .ok data
    | none => .error (backend.getMissing key)
  has := some fun key => if key ∈ m then .ok true else backend.hasMissing key

def Backend.wrapped (backend : Backend) (m : Datastore) : Reads :=
  wrapDatastoreWithErrorHandler (backend.reads m)

def utf16Units (text : String) : List Nat := text.toList.flatMap Json.utf16

def encodeJson (value : Json.Tree (List Nat)) : Bytes := Utf8.encode value.text

def byteOrderMark : Char := Char.ofNat 0xFEFF

/-- `new TextDecoder().decode(data)`, which leaves a byte order mark out. -/
def decodeText (data : Bytes) : List Char :=
  match Utf8.decode data with
  | [] => []
  | c :: text => if c = byteOrderMark then text else c :: text

def backupPeersTree (peers : List String) : Json.Tree (List Nat) :=
  .array (peers.map fun peer => .string (utf16Units peer))

def Status.text : Status → String
  | .pending => "pending"
  | .success => "success"
  | .failed => "failed"

/-- An `error` that is `undefined` is not written. -/
def recordTree (record : DHTAnnounceRecord) : Json.Tree (List Nat) :=
  .object ([(utf16Units "status", .string (utf16Units (Status.text record.status))),
      (utf16Units "announcedAt", .scalar (.number (Nat.toDigits 10 record.announcedAt)))] ++
    record.error.toList.map fun err => (utf16Units "error", .string (utf16Units err)))

/-- The records of libp2p are not under `/local/`. -/
structure Libp2pKey where
  key : String
  apart : startsWith "/local/" key = false

inductive NodeWrite (α : Type) where
  | saveBackupPeers (peers : List α)
  | setDHTStatus (cid : CID) (record : DHTAnnounceRecord)
  | pinAdd (cid : CID)
  | pinRm (cid : CID)
  | libp2pPut (key : Libp2pKey) (value : Bytes)
  | libp2pDelete (key : Libp2pKey)

section
variable {α : Type} (A : Backup.Multiaddrs α) (M : Multiformats)

def NodeWrite.write : NodeWrite α → Write String Bytes
  | saveBackupPeers peers =>
    ⟨backupPeersKey, some (encodeJson (backupPeersTree (Backup.toStored A peers)))⟩
  | setDHTStatus cid record => ⟨announceKey M cid, some (encodeJson (recordTree record))⟩
  | pinAdd cid => ⟨pinKey M cid, some []⟩
  | pinRm cid => ⟨pinKey M cid, none⟩
  | libp2pPut key value => ⟨key.key, some value⟩
  | libp2pDelete key => ⟨key.key, none⟩

/-- A write with whether it is carried out. -/
abbrev Attempt (α : Type) := NodeWrite α × Bool

def carriedOut (attempts : List (Attempt α)) : List (Write String Bytes) :=
  (attempts.filter Prod.snd).map fun a => a.1.write A M

def after (m : Datastore) (attempts : List (Attempt α)) : Datastore :=
  written m (carriedOut A M attempts)

variable {ν : Type} (toNumber : List Char → ν) (multiaddr : Json.Value ν → Option α)

/-- `multiaddr` is `none` where it throws. -/
def loadBackupPeers (datastore : Reads) : List α :=
  match datastore.get backupPeersKey with
  | .error _ => []
  | .ok data =>
    match Json.parse toNumber (decodeText data) with
    | some (.array items) => (items.mapM multiaddr).getD []
    -- there is no `map`
    | _ => []

/-- Whatever is thrown, the answer is `null`. -/
def getDHTStatus (datastore : Reads) (cid : CID) : Option (Json.Value ν) :=
  match datastore.get (announceKey M cid) with
  | .error _ => none
  | .ok data => Json.parse toNumber (decodeText data)

def isPinned (datastore : Reads) (cid : CID) : Bool :=
  match datastore.has with
  | none => false
  | some has =>
    match has (pinKey M cid) with
    | .ok found => found
    | .error _ => false

end

theorem units_utf16Units (text : String) : Json.Units (utf16Units text) := by
  intro u hu
  obtain ⟨c, -, hc⟩ := List.mem_flatMap.mp hu
  have hvalid : c.toNat < 0xD800 ∨ 0xDFFF < c.toNat ∧ c.toNat < 0x110000 := c.valid
  unfold Json.utf16 at hc
  split_ifs at hc with hsmall
  · rw [List.mem_singleton.mp hc]
    exact hsmall
  · rcases List.mem_cons.mp hc with rfl | hc
    · omega
    · rw [List.mem_singleton.mp hc]
      omega

theorem decodeText_encodeJson {value : Json.Tree (List Nat)} {c : Char} {text : List Char}
    (htext : value.text = c :: text) (hc : c ≠ byteOrderMark) :
    decodeText (encodeJson value) = value.text := by
  rw [decodeText, encodeJson, Utf8.decode_encode, htext]
  exact if_neg hc

theorem parse_encodeJson {ν : Type} (toNumber : List Char → ν) {value : Json.Tree (List Nat)}
    (hvalid : value.Valid) {c : Char} {text : List Char} (htext : value.text = c :: text)
    (hc : c ≠ byteOrderMark) :
    Json.parse toNumber (decodeText (encodeJson value)) = some (value.value toNumber) := by
  rw [decodeText_encodeJson htext hc, Json.parse_text toNumber hvalid]

theorem valid_backupPeersTree (peers : List String) : (backupPeersTree peers).Valid :=
  .array (List.forall_mem_map.mpr fun peer _ => .string (units_utf16Units peer))

theorem natural_toDigits (n : Nat) : Json.natural (Nat.toDigits 10 n) = some [] ∧
    ∀ c ∈ Nat.toDigits 10 n, c.isDigit = true := by
  have hdigit : ∀ d < 10, (Nat.digitChar d).isDigit = true := by decide
  have hall : ∀ n, ∀ c ∈ Nat.toDigits 10 n, c.isDigit = true := by
    intro n
    induction n using Nat.strongRecOn with
    | ind n ih =>
      intro c hc
      rw [Nat.toDigits_eq_if (by decide)] at hc
      split_ifs at hc with hlt
      · rw [List.mem_singleton.mp hc]
        exact hdigit n hlt
      · rcases List.mem_append.mp hc with hc | hc
        · exact ih (n / 10) (by omega) c hc
        · rw [List.mem_singleton.mp hc]
          exact hdigit (n % 10) (by omega)
  have hhead : ∀ n, 0 < n → ∃ c rest, Nat.toDigits 10 n = c :: rest ∧ c ≠ '0' := by
    intro n
    induction n using Nat.strongRecOn with
    | ind n ih =>
      intro hn
      rw [Nat.toDigits_eq_if (by decide)]
      split_ifs with hlt
      · have hne : ∀ d < 10, 0 < d → Nat.digitChar d ≠ '0' := by decide
        exact ⟨_, [], rfl, hne n hlt hn⟩
      · obtain ⟨c, rest, heq, hc⟩ := ih (n / 10) (by omega) (by omega)
        exact ⟨c, rest ++ [Nat.digitChar (n % 10)], by rw [heq]; rfl, hc⟩
  refine ⟨?_, hall n⟩
  rcases Nat.eq_zero_or_pos n with rfl | hn
  · rfl
  obtain ⟨c, rest, heq, hc⟩ := hhead n hn
  have hdigits := hall n
  rw [heq] at hdigits ⊢
  obtain ⟨hcdigit, hrest⟩ := List.forall_mem_cons.mp hdigits
  have hdrop : rest.dropWhile Char.isDigit = [] :=
    List.dropWhile_eq_nil_iff.mpr hrest
  unfold Json.natural
  split
  · rename_i hzero
    exact absurd (List.cons.inj hzero).1 hc
  · rw [Json.digits, if_pos hcdigit, hdrop]

theorem isNumber_toDigits (n : Nat) : Json.isNumber (Nat.toDigits 10 n) = true := by
  obtain ⟨hnatural, hdigits⟩ := natural_toDigits n
  have hinteger : Json.integer (Nat.toDigits 10 n) = some [] := by
    unfold Json.integer
    split
    · rename_i heq
      have hminus := hdigits '-' (by rw [heq]; exact List.mem_cons_self ..)
      exact absurd hminus (by decide)
    · exact hnatural
  simp [Json.isNumber, hinteger, Json.fraction, Json.exponent]

theorem valid_recordTree (record : DHTAnnounceRecord) : (recordTree record).Valid := by
  refine .object (fun m hm => ?_) fun m hm => ?_
  · rcases List.mem_append.mp hm with hm | hm
    · rcases List.mem_cons.mp hm with rfl | hm
      · exact units_utf16Units "status"
      · rw [List.mem_singleton.mp hm]
        exact units_utf16Units "announcedAt"
    · obtain ⟨err, -, rfl⟩ := List.mem_map.mp hm
      exact units_utf16Units "error"
  · rcases List.mem_append.mp hm with hm | hm
    · rcases List.mem_cons.mp hm with rfl | hm
      · exact .string (units_utf16Units _)
      · rw [List.mem_singleton.mp hm]
        exact .scalar (isNumber_toDigits _)
    · obtain ⟨err, -, rfl⟩ := List.mem_map.mp hm
      exact .string (units_utf16Units err)

end IpfsShard.Node
