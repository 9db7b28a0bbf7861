import IpfsShard.Pins.Store

/-! The requests that pin, unpin and count, and the gauge of the pinned CIDs that they keep. The
texts of thrown errors in the answers are left out. -/

namespace IpfsShard.Pins
open Runs

/-- A request body, which may be no JSON, or have no field to be read, or none that is a
string. -/
inductive Body where
  | invalid
  | cid (field : Option String)

inductive Response where
  | ok (cid : String)
  | stats (total : Nat)
  | error (status : Nat) (text : String)
  deriving DecidableEq

structure Api where
  datastore : Datastore
  pinsTotalGauge : Int

/-- How the write or the listing of a request ends comes with it. -/
inductive Request where
  | add (body : Body) (put : Outcome)
  | remove (body : Body) (delete : Outcome)
  | stats (listed : Bool)

section
variable (M : Multiformats) (parse : String → Option CID)

def requested : Body → Option CID
  | .invalid | .cid none => none
  | .cid (some cidStr) => if cidStr = "" then none else parse cidStr

/-- Both handlers: `operate` is the operation on the pins, `change` what it does to the gauge. -/
def handleCid (s : Api) (operate : CID → Datastore × Option String) (change : Int)
    (failure : String) : Body → Api × Response
  | .invalid => (s, .error 400 "Invalid request body")
  | .cid none => (s, .error 400 "Missing or invalid cid field")
  | .cid (some cidStr) =>
    if cidStr = "" then (s, .error 400 "Missing or invalid cid field")
    else
      match parse cidStr with
      | none => (s, .error 500 failure)
      | some cid =>
        let (datastore, thrown) := operate cid
        match thrown with
        | none => (⟨datastore, s.pinsTotalGauge + change⟩, .ok cidStr)
        | some _ => ({ s with datastore }, .error 500 failure)

def handleAdd (s : Api) (body : Body) (put : Outcome) : Api × Response :=
  handleCid parse s (fun cid => pinAdd M s.datastore cid put) 1 "Failed to pin content" body

def handleRemove (s : Api) (body : Body) (delete : Outcome) : Api × Response :=
  handleCid parse s (fun cid => pinRm M s.datastore cid delete) (-1) "Failed to unpin content" body

/-- A listing that fails counts no pins. -/
def handleStats (s : Api) (listed : Bool) : Api × Response :=
  let pinsList := if listed then (pinLs parse s.datastore).length else 0
  ({ s with pinsTotalGauge := pinsList }, .stats pinsList)

def handle (s : Api) : Request → Api × Response
  | .add body put => handleAdd M parse s body put
  | .remove body delete => handleRemove M parse s body delete
  | .stats listed => handleStats parse s listed

def api (s : Api) : System Api Request Response where
  init := s
  step s req := some ((handle M parse s req).1, [(handle M parse s req).2])

def Truthful (s : Api) : Prop := s.pinsTotalGauge = (pinLs parse s.datastore).length

/-- A pin that is put is new, and one that is deleted was there. A write that fails and is
reported as such was not carried out, or changed nothing; a delete that fails with `not found`
was carried out. A listing only fails when there are no pins. -/
def Counted (s : Api) : Request → Prop
  | .add body put => ∀ cid, requested parse body = some cid →
    match put with
    | .done => isPinned M s.datastore cid = false
    | .failed _ carriedOut => carriedOut = false ∨ isPinned M s.datastore cid = true
  | .remove body delete => ∀ cid, requested parse body = some cid →
    match delete with
    | .done => isPinned M s.datastore cid = true
    | .failed err carriedOut =>
      if notFound err then carriedOut = true ∧ isPinned M s.datastore cid = true
      else carriedOut = false ∨ isPinned M s.datastore cid = false
  | .stats listed => listed = true ∨ pinLs parse s.datastore = []

end

variable {M : Multiformats} {parse : String → Option CID} {s : Api} {datastore : Datastore}
  {cid : CID}

def listed (parse : String → Option CID) (keys : List String) : List CID :=
  (keys.filter (startsWith pinsPrefix)).filterMap fun key =>
    parse (substring key pinsPrefix.length)

def others (M : Multiformats) (parse : String → Option CID) (datastore : Datastore)
    (cid : CID) : Nat :=
  (listed parse (datastore.keys.erase (pinKey M cid))).length

theorem pinLs_eq_listed (datastore : Datastore) :
    pinLs parse datastore = listed parse datastore.keys := rfl

theorem length_pinLs_erase (datastore : Datastore) (cid : CID) :
    (pinLs parse (datastore.erase (pinKey M cid))).length = others M parse datastore cid := by
  rw [pinLs_eq_listed, AList.keys_erase]
  rfl

theorem handleCid_truthful_iff {operate : CID → Datastore × Option String} {change : Int}
    {failure : String} {body : Body} {counts : CID → Prop} (hs : Truthful parse s)
    (hcounts : ∀ cid, counts cid ↔ ((pinLs parse (operate cid).1).length : Int) =
      (pinLs parse s.datastore).length + if (operate cid).2 = none then change else 0) :
    (∀ cid, requested parse body = some cid → counts cid) ↔
      Truthful parse (handleCid parse s operate change failure body).1 := by
  unfold Truthful at hs ⊢
  rcases body with _ | _ | cidStr
  · exact iff_of_true (by simp [requested]) hs
  · exact iff_of_true (by simp [requested]) hs
  · by_cases hempty : cidStr = ""
    · simp only [requested, handleCid, if_pos hempty]
      exact iff_of_true (by simp) hs
    · simp only [requested, handleCid, if_neg hempty]
      cases hcid : parse cidStr with
      | none => exact iff_of_true (by simp) hs
      | some cid =>
        simp only [Option.some.injEq, forall_eq']
        rw [hcounts]
        cases hthrown : (operate cid).2 with
        | none =>
          simp only [if_true, hs]
          exact eq_comm
        | some err =>
          simp only [reduceCtorEq, if_false, hs, Int.add_zero]
          exact eq_comm

section
variable (hparse : ∀ cid, parse (M.toString cid) = some cid)
include hparse

theorem listed_cons (cid : CID) (keys : List String) :
    listed parse (pinKey M cid :: keys) = cid :: listed parse keys := by
  have hstart : startsWith pinsPrefix (pinKey M cid) = true := startsWith_append _ _
  have hcid : parse (substring (pinKey M cid) pinsPrefix.length) = some cid := by
    rw [pinKey, substring_append, hparse]
  rw [listed, List.filter_cons_of_pos hstart]
  exact List.filterMap_cons_some hcid

theorem length_pinLs (datastore : Datastore) (cid : CID) : (pinLs parse datastore).length =
    others M parse datastore cid + if isPinned M datastore cid then 1 else 0 := by
  by_cases hpinned : pinKey M cid ∈ datastore
  · have hperm := List.perm_cons_erase (AList.mem_keys.mp hpinned)
    have hlength := ((hperm.filter (startsWith pinsPrefix)).filterMap fun key =>
      parse (substring key pinsPrefix.length)).length_eq
    have hcons := congrArg List.length
      (listed_cons hparse cid (datastore.keys.erase (pinKey M cid)))
    rw [isPinned, decide_eq_true hpinned, if_pos rfl]
    exact hlength.trans hcons
  · have hsame : datastore.keys.erase (pinKey M cid) = datastore.keys :=
      List.erase_of_not_mem (mt AList.mem_keys.mpr hpinned)
    rw [isPinned, decide_eq_false hpinned, others, hsame]
    rfl

theorem length_pinLs_insert (datastore : Datastore) (cid : CID) (value : Bytes) :
    (pinLs parse (datastore.insert (pinKey M cid) value)).length =
      others M parse datastore cid + 1 := by
  rw [pinLs_eq_listed, AList.keys_insert, listed_cons hparse]
  rfl

theorem handle_truthful_iff (hs : Truthful parse s) (req : Request) :
    Counted M parse s req ↔ Truthful parse (handle M parse s req).1 := by
  cases req with
  | add body put =>
    refine handleCid_truthful_iff hs fun cid => ?_
    have hold := length_pinLs hparse s.datastore cid
    have hnew := length_pinLs_insert hparse s.datastore cid []
    cases put with
    | done =>
      simp only [pinAdd, Outcome.carriedOut, if_true, hnew, hold]
      cases isPinned M s.datastore cid <;> simp
    | failed err carriedOut =>
      cases carriedOut with
      | true =>
        simp only [pinAdd, Outcome.carriedOut, if_true, hnew, hold]
        cases isPinned M s.datastore cid <;> simp
      | false => simp [pinAdd, Outcome.carriedOut]
  | remove body delete =>
    refine handleCid_truthful_iff hs fun cid => ?_
    have hold := length_pinLs hparse s.datastore cid
    have hnew : (pinLs parse (s.datastore.erase (pinKey M cid))).length =
        others M parse s.datastore cid := length_pinLs_erase _ _
    cases delete with
    | done =>
      simp only [pinRm, Outcome.carriedOut, if_true, hnew, hold]
      cases isPinned M s.datastore cid <;> simp
    | failed err carriedOut =>
      cases carriedOut with
      | true =>
        simp only [pinRm, Outcome.carriedOut, if_true, hnew, hold]
        cases isPinned M s.datastore cid <;> cases notFound err <;> simp
      | false =>
        by_cases hfound : notFound err = true <;> simp [pinRm, Outcome.carriedOut, hfound]
  | stats listed =>
    cases listed with
    | true => exact iff_of_true (Or.inl rfl) rfl
    | false =>
      show false = true ∨ pinLs parse s.datastore = [] ↔
        ((0 : Nat) : Int) = (pinLs parse s.datastore).length
      rw [or_iff_right Bool.false_ne_true, Int.natCast_inj, ← List.length_eq_zero_iff]
      exact eq_comm

end

/-- The gauge is the number of pins after each request of a run exactly if every request is
counted. -/
theorem run_counted_iff (hparse : ∀ cid, parse (M.toString cid) = some cid)
    (hs : Truthful parse s) {reqs : List Request} {t : Api} {out : List Response} :
    (api M parse s).Run (Counted M parse) reqs t out ↔
      (api M parse s).Run ((api M parse s).Into (Truthful parse)) reqs t out := by
  refine System.run_iff_into (I := fun _ => True) (fun _ _ _ _ => trivial) hs ?_
  intro s req t o _ hs hstep
  cases hstep
  exact handle_truthful_iff hparse hs req

open Multiformats

def emptyBody : Body := .cid (some "bafkreihdwdcefgh4dqkjv67uzcmw7ojee6xedzdetojuzjevtenxquvyku")

def noPins : Api := ⟨∅, 0⟩

theorem counted_add_emptyBody {s : Api} (h : isPinned onEmptyBlock s.datastore emptyRaw = false) :
    Counted onEmptyBlock cidParse s (.add emptyBody .done) := by
  have hcid : requested cidParse emptyBody = some emptyRaw := by decide +kernel
  intro cid hrequested
  rw [hcid] at hrequested
  cases hrequested
  exact h

theorem run_truthful_onePin : ∃ t out,
    (api onEmptyBlock cidParse noPins).Run
      ((api onEmptyBlock cidParse noPins).Into (Truthful cidParse))
      [.add emptyBody .done, .stats true] t out := by
  have hcounted : Counted onEmptyBlock cidParse noPins (.add emptyBody .done) :=
    counted_add_emptyBody (by decide +kernel)
  have hadd : (api onEmptyBlock cidParse noPins).Run (Counted onEmptyBlock cidParse)
      ([] ++ [.add emptyBody .done]) _ _ := .step .start hcounted rfl
  have hstats : Counted onEmptyBlock cidParse
      (handle onEmptyBlock cidParse noPins (.add emptyBody .done)).1 (.stats true) := Or.inl rfl
  have hinit : Truthful cidParse noPins := rfl
  exact ⟨_, _, (run_counted_iff cidParse_cidText hinit).mp (hadd.step hstats rfl)⟩

/-- The same CID is pinned twice, and counted twice. -/
theorem not_truthful_pinnedTwice : ∃ t out, Truthful cidParse noPins ∧
    (api onEmptyBlock cidParse noPins).Run System.any
      [.add emptyBody .done, .add emptyBody .done] t out ∧
    t.pinsTotalGauge = 2 ∧ pinLs cidParse t.datastore = [emptyRaw] ∧ ¬ Truthful cidParse t := by
  obtain ⟨t, out, hrun, hgauge, hpins⟩ :=
    System.exists_run (T := api onEmptyBlock cidParse noPins)
      [.add emptyBody .done, .add emptyBody .done]
      (p := fun r => r.1.pinsTotalGauge = 2 ∧ pinLs cidParse r.1.datastore = [emptyRaw])
      (by decide +kernel)
  refine ⟨t, out, rfl, hrun, hgauge, hpins, fun h => ?_⟩
  have hgauge' : t.pinsTotalGauge = 2 := hgauge
  have hpins' : pinLs cidParse t.datastore = [emptyRaw] := hpins
  rw [Truthful, hgauge', hpins'] at h
  cases h

end IpfsShard.Pins
