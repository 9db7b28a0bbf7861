import IpfsShard.Api.Requests

/-! `POST /pin`, `DELETE /pin` and `GET /pins`, among all the other writes to the datastore: what is
listed is what the requests that got through have pinned. -/

namespace IpfsShard.Api
open Node Runs
open Pins (Datastore Outcome Represents pinAdd pinRm pinLs pinKey)

structure PinsState where
  datastore : Datastore
  pinsTotalGauge : Int

inductive PinsAnswer where
  | pins (pins : List String) (count : Nat)
  | ok (cid : List Nat)
  | error (refusal : Refusal)
  deriving DecidableEq

/-- A request comes with how its write or its listing ends; a body may not end. Announcements,
saved peers and libp2p write in between. -/
inductive PinsEvent (α ε : Type) where
  | add (body : List (Event ε)) (put : Outcome)
  | remove (body : List (Event ε)) (delete : Outcome)
  | list (throws : Bool)
  | other (attempt : Attempt α)

section
variable {α ν ε : Type} (A : Backup.Multiaddrs α) (M : Multiformats)
  (parse : String → Option CID) (cidParse : List Nat → Except String CID)
  (toNumber : List Char → ν)

/-- The branches `add` and `remove`: `operation` is the one on the pins, `change` what it does to
the gauge. What it throws is answered as a text that is no CID is. -/
def operate (r : BodyReader CID) (operation : CID → Datastore × Option String) (change : Int)
    (s : PinsState) (body : List (Event ε)) : PinsState × List PinsAnswer :=
  match r.receive toNumber body with
  | none => (s, [])
  | some (.error refusal) => (s, [.error refusal])
  | some (.ok (cidStr, cid)) =>
    match operation cid with
    | (datastore, none) => (⟨datastore, s.pinsTotalGauge + change⟩, [.ok cidStr])
    | (datastore, some thrown) =>
      ({ s with datastore }, [.error { r.invalid with details := some ("Error: " ++ thrown) }])

def handlePins (s : PinsState) : PinsEvent α ε → PinsState × List PinsAnswer
  | .add body put =>
    operate toNumber (pinReader cidParse) (fun cid => pinAdd M s.datastore cid put) 1 s body
  | .remove body delete =>
    operate toNumber (unpinReader cidParse) (fun cid => pinRm M s.datastore cid delete) (-1) s body
  | .list throws =>
    if throws then (s, [.error ⟨400, "Invalid request body", none⟩])
    else
      let pins := (pinLs parse s.datastore).map M.toString
      (s, [.pins pins pins.length])
  | .other attempt => ({ s with datastore := after A M s.datastore [attempt] }, [])

def pinsApi (s : PinsState) : System PinsState (PinsEvent α ε) PinsAnswer where
  init := s
  step s e := some (handlePins A M parse cidParse toNumber s e)

def requestedCid (r : BodyReader CID) (body : List (Event ε)) : Option CID :=
  (r.receive toNumber body).bind fun read =>
    match read with
    | .ok (_, cid) => some cid
    | .error _ => none

def pinWrite (cid : CID) : PinsEvent α ε → Option Bool
  | .add body put =>
    if put.carriedOut ∧ requestedCid toNumber (pinReader cidParse) body = some cid then some true
    else none
  | .remove body delete =>
    if delete.carriedOut ∧ requestedCid toNumber (unpinReader cidParse) body = some cid then
      some false
    else none
  | .list _ => none
  | .other attempt => if attempt.2 then pinOf cid attempt.1 else none

def lastPin (es : List (PinsEvent α ε)) (cid : CID) : Option Bool :=
  (es.filterMap (pinWrite cidParse toNumber cid)).getLast?

end

variable {α ν ε : Type} {A : Backup.Multiaddrs α} {M : Multiformats}
  {parse : String → Option CID} {cidParse : List Nat → Except String CID}
  {toNumber : List Char → ν} {s t : PinsState} {e : PinsEvent α ε} {es : List (PinsEvent α ε)}
  {out : List PinsAnswer} {pins : CID → Prop} {cid : CID} {m : Datastore}

def decided (write : CID → Option Bool) (pins : CID → Prop) (cid : CID) : Prop :=
  (write cid).elim (pins cid) (· = true)

theorem decided_pin (cid c : CID) :
    decided (fun c => if cid = c then some true else none) pins c ↔ c = cid ∨ pins c := by
  rw [decided]
  split_ifs with hc
  · exact iff_of_true rfl (Or.inl hc.symm)
  · exact (or_iff_right (Ne.symm hc)).symm

theorem decided_unpin (cid c : CID) :
    decided (fun c => if cid = c then some false else none) pins c ↔ c ≠ cid ∧ pins c := by
  rw [decided]
  split_ifs with hc
  · exact iff_of_false Bool.false_ne_true fun h => h.1 hc.symm
  · exact (and_iff_right (Ne.symm hc)).symm

theorem startsWith_pinsPrefix (key : Libp2pKey) :
    Pins.startsWith Pins.pinsPrefix key.key = false := by
  refine Bool.eq_false_iff.mpr fun hstart => ?_
  have hlocal : Pins.startsWith "/local/" key.key = true := by
    have hpins := List.isPrefixOf_iff_prefix.mp hstart
    have hshort : "/local/".toList <+: Pins.pinsPrefix.toList := ⟨"pins/".toList, rfl⟩
    exact List.isPrefixOf_iff_prefix.mpr (hshort.trans hpins)
  rw [key.apart] at hlocal
  cases hlocal

theorem represents_after (hinj : Function.Injective (pinKey M)) (h : Represents M m pins)
    (attempt : Attempt α) : Represents M (after A M m [attempt])
      (decided (fun cid => if attempt.2 then pinOf cid attempt.1 else none) pins) := by
  obtain ⟨w, carried⟩ := attempt
  cases carried with
  | false => exact h
  | true =>
    cases w with
    | saveBackupPeers peers =>
      have hkey : Pins.startsWith Pins.pinsPrefix Pins.backupPeersKey = false := by rfl
      exact h.insertOther hkey _
    | setDHTStatus cid record => exact h.insertOther (Pins.startsWith_announces _) _
    | pinAdd cid => exact (h.insertPin hinj cid []).congr fun c => (decided_pin cid c).symm
    | pinRm cid => exact (h.erasePin hinj cid).congr fun c => (decided_unpin cid c).symm
    | libp2pPut key value => exact h.insertOther (startsWith_pinsPrefix key) _
    | libp2pDelete key => exact h.eraseOther (startsWith_pinsPrefix key)

theorem represents_pinAdd (hinj : Function.Injective (pinKey M)) (h : Represents M m pins)
    (put : Outcome) (requested : Option CID) :
    Represents M (requested.elim m fun cid => (pinAdd M m cid put).1)
      (decided (fun cid => if put.carriedOut ∧ requested = some cid then some true else none)
        pins) := by
  cases requested with
  | none => exact h.congr fun c => by simp [decided]
  | some cid =>
    simp only [Option.elim_some, Option.some.injEq, pinAdd]
    cases put.carriedOut with
    | false => exact h.congr fun c => by simp [decided]
    | true =>
      simp only [true_and, if_true]
      exact (h.insertPin hinj cid []).congr fun c => (decided_pin cid c).symm

theorem represents_pinRm (hinj : Function.Injective (pinKey M)) (h : Represents M m pins)
    (delete : Outcome) (requested : Option CID) :
    Represents M (requested.elim m fun cid => (pinRm M m cid delete).1)
      (decided (fun cid => if delete.carriedOut ∧ requested = some cid then some false else none)
        pins) := by
  cases requested with
  | none => exact h.congr fun c => by simp [decided]
  | some cid =>
    simp only [Option.elim_some, Option.some.injEq, pinRm]
    cases delete.carriedOut with
    | false => exact h.congr fun c => by simp [decided]
    | true =>
      simp only [true_and, if_true]
      exact (h.erasePin hinj cid).congr fun c => (decided_unpin cid c).symm

theorem operate_datastore (r : BodyReader CID) (operation : CID → Datastore × Option String)
    (change : Int) (s : PinsState) (body : List (Event ε)) :
    (operate toNumber r operation change s body).1.datastore =
      (requestedCid toNumber r body).elim s.datastore fun cid => (operation cid).1 := by
  unfold operate requestedCid
  cases r.receive toNumber body with
  | none => rfl
  | some read =>
    cases read with
    | error refusal => rfl
    | ok read =>
      obtain ⟨cidStr, cid⟩ := read
      simp only [Option.bind_some, Option.elim_some]
      rcases operation cid with ⟨datastore, thrown⟩
      cases thrown <;> rfl

theorem handlePins_represents (hinj : Function.Injective (pinKey M))
    (h : Represents M s.datastore pins) (e : PinsEvent α ε) :
    Represents M (handlePins A M parse cidParse toNumber s e).1.datastore
      (decided (fun cid => pinWrite cidParse toNumber cid e) pins) := by
  cases e with
  | add body put =>
    rw [handlePins, operate_datastore]
    exact represents_pinAdd hinj h put _
  | remove body delete =>
    rw [handlePins, operate_datastore]
    exact represents_pinRm hinj h delete _
  | list throws =>
    rw [handlePins]
    split_ifs
    · exact h
    · exact h
  | other attempt => exact represents_after hinj h attempt

theorem lastPin_concat (cid : CID) : lastPin cidParse toNumber (es ++ [e]) cid =
    (pinWrite cidParse toNumber cid e).or (lastPin cidParse toNumber es cid) := by
  rw [lastPin, List.filterMap_append, List.getLast?_append, lastPin]
  cases h : pinWrite cidParse toNumber cid e with
  | none => simp [h]
  | some pinned => simp [h]

theorem represents_of_run (hinj : Function.Injective (pinKey M))
    (hstart : Represents M s.datastore pins)
    (h : (pinsApi A M parse cidParse toNumber s).Run System.any es t out) :
    Represents M t.datastore (decided (lastPin cidParse toNumber es) pins) := by
  induction h with
  | start => exact hstart
  | @step es t u e out o _ _ hs ih =>
    obtain rfl := congrArg Prod.fst (Option.some.inj hs)
    refine (handlePins_represents hinj ih e).congr fun cid => ?_
    rw [decided, decided, decided, lastPin_concat]
    cases pinWrite cidParse toNumber cid e <;> rfl

/-- After any requests and other writes, `GET /pins` answers the CIDs whose last write that was
carried out pinned them, and those with no write that were pinned before, each of them once. -/
theorem pins_listed (hparse : ∀ cid, parse (M.toString cid) = some cid)
    (hstart : Represents M s.datastore pins)
    (h : (pinsApi A M parse cidParse toNumber s).Run System.any es t out) :
    ∃ listed : List CID,
      handlePins A M parse cidParse toNumber t (.list false : PinsEvent α ε) =
        (t, [.pins (listed.map M.toString) listed.length]) ∧
      listed.Nodup ∧ ∀ cid, cid ∈ listed ↔
        (lastPin cidParse toNumber es cid).elim (pins cid) (· = true) := by
  have hrep := represents_of_run (Pins.pinKey_injective hparse) hstart h
  obtain ⟨hnodup, hmem⟩ := hrep.pinLs_spec hparse
  refine ⟨pinLs parse t.datastore, ?_, hnodup, hmem⟩
  have hlength : ((pinLs parse t.datastore).map M.toString).length =
      (pinLs parse t.datastore).length := List.length_map _
  rw [← hlength]
  rfl

open Multiformats

def emptyRawUnits : List Nat :=
  utf16Units "bafkreihdwdcefgh4dqkjv67uzcmw7ojee6xedzdetojuzjevtenxquvyku"

def parseEmptyRaw (units : List Nat) : Except String CID :=
  if units = emptyRawUnits then .ok emptyRaw else .error "SyntaxError: Unexpected end of data"

def emptyRawBody : List (Event Unit) :=
  arriving [Utf8.encode (bodyOf "cid" emptyRawUnits).text]

def pinnedOnce : List (PinsEvent Bool Unit) :=
  [.add emptyRawBody .done, .other (.setDHTStatus emptyRaw ⟨.pending, 0, none⟩, true),
    .remove (arriving [[0x7B]]) .done,
    .remove emptyRawBody (.failed ⟨true, "timeout", "Error: timeout"⟩ false)]

def noPins : PinsState := ⟨∅, 0⟩

theorem pins_listed_once : ∃ t out,
    (pinsApi twoAddrs onEmptyBlock Multiformats.cidParse parseEmptyRaw (fun _ => ()) noPins).Run
      System.any pinnedOnce t out ∧
    out = [.ok emptyRawUnits, .error ⟨400, "Invalid request body", none⟩,
      .error ⟨500, "Failed to unpin content", some ("Error: Failed to unpin " ++
        cidText emptyRaw ++ ": Error: timeout")⟩] ∧
    ∃ listed : List CID,
      handlePins twoAddrs onEmptyBlock Multiformats.cidParse parseEmptyRaw (fun _ => ()) t
          (.list false : PinsEvent Bool Unit) =
        (t, [.pins (listed.map onEmptyBlock.toString) listed.length]) ∧
      listed.Nodup ∧ ∀ cid, cid ∈ listed ↔
        (lastPin parseEmptyRaw (fun _ => ()) pinnedOnce cid).elim False (· = true) := by
  obtain ⟨t, out, hrun, hout⟩ := System.exists_run
    (T := pinsApi twoAddrs onEmptyBlock Multiformats.cidParse parseEmptyRaw (fun _ => ()) noPins)
    pinnedOnce
    (p := fun r => r.2 = [.ok emptyRawUnits, .error ⟨400, "Invalid request body", none⟩,
      .error ⟨500, "Failed to unpin content", some ("Error: Failed to unpin " ++
        cidText emptyRaw ++ ": Error: timeout")⟩]) (by decide +kernel)
  have hempty : Represents onEmptyBlock noPins.datastore fun _ => False :=
    ⟨fun cid => iff_of_false (AList.notMem_empty _) id,
      fun key h => absurd h (AList.notMem_empty _)⟩
  exact ⟨t, out, hrun, hout, pins_listed cidParse_cidText hempty hrun⟩

end IpfsShard.Api
