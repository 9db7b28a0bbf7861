import IpfsShard.Pins.Gauge
import IpfsShard.Lib.Calls

/-! Announcements of CIDs to the DHT: `announceContent`, the requests that call it, and the status
records that it puts in the datastore, with any number of calls in flight. The datastore carries
the puts out in the order in which they are issued. -/

namespace IpfsShard.Dht
open Runs Table Calls Pins

inductive Status where
  | pending
  | success
  | failed
  deriving DecidableEq

/-- The time is in unix milliseconds. -/
structure DHTAnnounceRecord where
  status : Status
  announcedAt : Nat
  error : Option String := none
  deriving DecidableEq

/-- How `routing.provide` ends: it may reject, with an error of some text. -/
inductive Provided where
  | success
  | failed (err : String)
  deriving DecidableEq

def Provided.record (now : Nat) : Provided → DHTAnnounceRecord
  | success => { status := .success, announcedAt := now }
  | failed err => { status := .failed, announcedAt := now, error := some err }

inductive Phase where
  /-- The pending status is being put. -/
  | setting
  /-- That put has ended. -/
  | set
  | providing
  /-- The outcome is being put. -/
  | settling (result : Provided)
  | done (result : Provided)
  deriving DecidableEq

def Phase.result : Phase → Option Provided
  | setting | set | providing => none
  | settling result | done result => some result

def Phase.isDone : Phase → Bool
  | done _ => true
  | setting | set | providing | settling _ => false

def Phase.puts : Phase → Bool
  | setting | settling _ => true
  | set | providing | done _ => false

/-- `requested`: it is `POST /announce` that waits for the call, and not `POST /pin`. -/
structure Announcement where
  cid : CID
  requested : Bool
  phase : Phase

structure Put where
  call : Nat
  key : String
  record : DHTAnnounceRecord

def Put.entry (put : Put) : String × DHTAnnounceRecord := (put.key, put.record)

abbrev Records := AList fun _ : String => DHTAnnounceRecord

/-- `completed` are the calls whose `provide` has ended, in the order in which it did, with its
result. It is an observation: nothing reads it. -/
structure State where
  records : Records
  puts : List Put := []
  announcements : List Announcement := []
  lastAnnouncedAt : Option Nat := none
  totalProvidersAnnounced : Nat := 0
  completed : List (CID × Provided) := []

/-- Of `/stats`, the part about the DHT. -/
structure DhtStats where
  providersAnnounced : Nat
  lastAnnouncedAt : Option Nat
  lastAnnouncedAtUnix : Int
  deriving DecidableEq

inductive Response where
  | ok
  | error (status : Nat) (text : String)
  | stats (dht : DhtStats)
  deriving DecidableEq

inductive Event where
  | announce (body : Body) (now : Nat)
  /-- `POST /pin` has added its pin. -/
  | pinned (cid : CID) (now : Nat)
  | stats
  /-- The oldest put ends, carried out or not. -/
  | written (carriedOut : Bool)
  /-- A call goes on after the put of its pending status. -/
  | resumed (call now : Nat)
  /-- The `provide` of a call ends. -/
  | provided (call : Nat) (result : Provided) (now : Nat)

section
variable (M : Multiformats) (parse : String → Option CID)

def announceKey (cid : CID) : String := announcesPrefix ++ M.toString cid

def getDHTStatus (s : State) (cid : CID) : Option DHTAnnounceRecord :=
  s.records.lookup (announceKey M cid)

/-- A put that fails is logged by `setDHTStatus`, and the call goes on. -/
def setDHTStatus (s : State) (call : Nat) (cid : CID) (record : DHTAnnounceRecord) : State :=
  { s with puts := s.puts ++ [⟨call, announceKey M cid, record⟩] }

def setPhase (s : State) (call : Nat) (phase : Phase) : State :=
  { s with announcements := s.announcements.modify call fun a => { a with phase } }

/-- Up to the `await` of the pending status. -/
def announceContent (s : State) (cid : CID) (requested : Bool) (now : Nat) : State :=
  setDHTStatus M { s with announcements := s.announcements ++ [⟨cid, requested, .setting⟩] }
    s.announcements.length cid { status := .pending, announcedAt := now }

/-- Up to the call of `announceContent`. -/
def handleAnnounce (s : State) (body : Body) (now : Nat) : State × List Response :=
  match body with
  | .invalid => (s, [.error 500 "Internal server error"])
  | .cid none => (s, [.error 400 "Missing or invalid cid field"])
  | .cid (some cidStr) =>
    if cidStr = "" then (s, [.error 400 "Missing or invalid cid field"])
    else
      match parse cidStr with
      | none => (s, [.error 500 "Failed to announce content"])
      | some cid => (announceContent M s cid true now, [])

def Phase.written : Phase → Phase
  | setting => set
  | settling result => done result
  | phase => phase

def written (s : State) (put : Put) (puts : List Put) (carriedOut : Bool) : State :=
  { s with
    records := if carriedOut then s.records.insert put.key put.record else s.records
    puts
    announcements := s.announcements.modify put.call fun a => { a with phase := a.phase.written } }

/-- The call of `provide`, after which `announceContent` returns and `POST /announce`, if it waits
for it, answers. -/
def resumed (s : State) (call : Nat) (a : Announcement) (now : Nat) : State :=
  let s := setPhase s call .providing
  if a.requested then
    { s with
      lastAnnouncedAt := some now
      totalProvidersAnnounced := s.totalProvidersAnnounced + 1 }
  else s

def provided (s : State) (call : Nat) (a : Announcement) (result : Provided) (now : Nat) : State :=
  let s := setPhase s call (.settling result)
  setDHTStatus M { s with completed := s.completed ++ [(a.cid, result)] } call a.cid
    (result.record now)

def getDhtStats (s : State) : DhtStats where
  providersAnnounced := s.totalProvidersAnnounced
  lastAnnouncedAt := s.lastAnnouncedAt
  lastAnnouncedAtUnix :=
    match s.lastAnnouncedAt with
    | none => -1
    | some time => time / 1000

def step (s : State) : Event → Option (State × List Response)
  | .announce body now => some (handleAnnounce M parse s body now)
  | .pinned cid now => some (announceContent M s cid false now, [])
  | .stats => some (s, [.stats (getDhtStats s)])
  | .written carriedOut =>
    match s.puts with
    | [] => none
    | put :: puts => some (written s put puts carriedOut, [])
  | .resumed call now =>
    match s.announcements[call]? with
    | none => none
    | some a =>
      if a.phase = .set then
        some (resumed s call a now, if a.requested then [.ok] else [])
      else none
  | .provided call result now =>
    match s.announcements[call]? with
    | none => none
    | some a =>
      if a.phase = .providing then some (provided M s call a result now, []) else none

def announcing (records : Records) : System State Event Response where
  init := { records }
  step := step M parse

end

def CarriedOut (_ : State) : Event → Prop
  | .written carriedOut => carriedOut = true
  | _ => True

instance : ∀ s e, Decidable (CarriedOut s e)
  | _, .written carriedOut => inferInstanceAs (Decidable (carriedOut = true))
  | _, .announce _ _ | _, .pinned _ _ | _, .stats | _, .resumed _ _ | _, .provided _ _ _ =>
    isTrue trivial

def DHTAnnounceRecord.Carries (record : DHTAnnounceRecord) (result : Provided) : Prop :=
  ∃ time, record = result.record time

section
variable (M : Multiformats)

/-- Calls for one CID are calls with one key. -/
def SameKey (cid cid' : CID) : Prop := announceKey M cid' = announceKey M cid

instance (cid cid' : CID) : Decidable (SameKey M cid cid') :=
  inferInstanceAs (Decidable (announceKey M cid' = announceKey M cid))

def lastStarted (s : State) (cid : CID) : Option Provided :=
  (s.announcements.filter fun a => SameKey M cid a.cid).getLast?.bind fun a => a.phase.result

def lastCompleted (s : State) (cid : CID) : Option Provided :=
  (s.completed.filter fun p => SameKey M cid p.1).getLast?.map Prod.snd

def Open (calls : List Announcement) (cid : CID) : Prop :=
  ∃ (i : Nat) (a : Announcement), calls[i]? = some a ∧ SameKey M cid a.cid ∧ a.phase.result = none

def settledRecord (s : State) (cid : CID) : Option DHTAnnounceRecord :=
  (insertAll s.records (s.puts.map Put.entry)).lookup (announceKey M cid)

/-- Every put under way is the one put of a call in flight, and for a CID with calls that are all
completed the record is going to be that of the last one. -/
structure Announcing (s : State) : Prop where
  single : (s.puts.map Put.call).Nodup
  issued : ∀ put ∈ s.puts, ∃ a : Announcement, s.announcements[put.call]? = some a ∧
    put.key = announceKey M a.cid ∧ a.phase.puts = true
  settles : ∀ (i : Nat) (a : Announcement), s.announcements[i]? = some a →
    Open M s.announcements a.cid ∨
    ∃ result time, lastCompleted M s a.cid = some result ∧
      settledRecord M s a.cid = some (result.record time)

end

variable {M : Multiformats} {parse : String → Option CID} {records : Records} {s t : State}
  {e : Event} {o : List Response}

theorem step_cases (h : step M parse s e = some (t, o)) :
    t = s ∨ (∃ cid requested now, t = announceContent M s cid requested now) ∨
    (∃ put puts carriedOut, e = .written carriedOut ∧ s.puts = put :: puts ∧
      t = written s put puts carriedOut) ∨
    (∃ (call : Nat) (a : Announcement) (now : Nat), s.announcements[call]? = some a ∧
      a.phase = .set ∧ t = resumed s call a now) ∨
    ∃ (call : Nat) (a : Announcement) (result : Provided) (now : Nat),
      s.announcements[call]? = some a ∧
      a.phase = .providing ∧ t = provided M s call a result now := by
  cases e with
  | announce body now =>
    rcases body with _ | _ | cidStr
    · cases h
      exact Or.inl rfl
    · cases h
      exact Or.inl rfl
    · simp only [step, handleAnnounce] at h
      by_cases hempty : cidStr = ""
      · rw [if_pos hempty] at h
        cases h
        exact Or.inl rfl
      · rw [if_neg hempty] at h
        cases hcid : parse cidStr with
        | none =>
          rw [hcid] at h
          cases h
          exact Or.inl rfl
        | some cid =>
          rw [hcid] at h
          cases h
          exact Or.inr (Or.inl ⟨cid, true, now, rfl⟩)
  | pinned cid now =>
    cases h
    exact Or.inr (Or.inl ⟨cid, false, now, rfl⟩)
  | stats =>
    cases h
    exact Or.inl rfl
  | written carriedOut =>
    cases hputs : s.puts with
    | nil => simp [step, hputs] at h
    | cons put puts =>
      simp only [step, hputs] at h
      cases h
      exact Or.inr (Or.inr (Or.inl ⟨put, puts, carriedOut, rfl, rfl, rfl⟩))
  | resumed call now =>
    cases ha : s.announcements[call]? with
    | none => simp [step, ha] at h
    | some a =>
      simp only [step, ha] at h
      split_ifs at h with hset hreq
      all_goals
        cases h
        exact Or.inr (Or.inr (Or.inr (Or.inl ⟨call, a, now, ha, hset, rfl⟩)))
  | provided call result now =>
    cases ha : s.announcements[call]? with
    | none => simp [step, ha] at h
    | some a =>
      simp only [step, ha] at h
      split_ifs at h with hproviding
      cases h
      exact Or.inr (Or.inr (Or.inr (Or.inr ⟨call, a, result, now, ha, hproviding, rfl⟩)))

section
variable {calls : List Announcement} {call : Nat} {f : Announcement → Announcement}
  {a : Announcement} {cid : CID}

theorem Open.modify (h : Open M calls cid) (ha : calls[call]? = some a) (hcid : (f a).cid = a.cid)
    (hresult : SameKey M cid a.cid → a.phase.result = none → (f a).phase.result = none) :
    Open M (calls.modify call f) cid := by
  obtain ⟨i, b, hb, hkey, hnone⟩ := h
  by_cases hi : i = call
  · subst hi
    obtain rfl := Option.some.inj (ha.symm.trans hb)
    refine ⟨i, f a, (getElem?_modify ha).mpr (Or.inl ⟨rfl, rfl⟩), ?_, hresult hkey hnone⟩
    rw [SameKey, hcid]
    exact hkey
  · exact ⟨i, b, (getElem?_modify ha).mpr (Or.inr ⟨hi, hb⟩), hkey, hnone⟩

theorem Open.concat (h : Open M calls cid) (a : Announcement) : Open M (calls ++ [a]) cid := by
  obtain ⟨i, b, hb, hrest⟩ := h
  exact ⟨i, b, getElem?_concat.mpr (Or.inl hb), hrest⟩

end

theorem written_result (phase : Phase) : phase.written.result = phase.result := by
  cases phase <;> rfl

theorem settledRecord_setDHTStatus (s : State) (call : Nat) (cid cid' : CID)
    (record : DHTAnnounceRecord) : settledRecord M (setDHTStatus M s call cid record) cid' =
      if SameKey M cid' cid then some record else settledRecord M s cid' := by
  simp only [settledRecord, setDHTStatus, List.map_append, List.map_singleton, insertAll_concat]
  by_cases hkey : SameKey M cid' cid
  · rw [if_pos hkey, Put.entry, show announceKey M cid = announceKey M cid' from hkey]
    exact AList.lookup_insert _
  · rw [if_neg hkey]
    exact AList.lookup_insert_ne fun h => hkey h.symm

namespace Announcing

variable {call : Nat} {a : Announcement} {f : Announcement → Announcement}

theorem call_ne (h : Announcing M s) (ha : s.announcements[call]? = some a)
    (hidle : a.phase.puts = false) {put : Put} (hput : put ∈ s.puts) : put.call ≠ call := by
  rintro rfl
  obtain ⟨b, hb, -, hputs⟩ := h.issued put hput
  obtain rfl := Option.some.inj (ha.symm.trans hb)
  rw [hidle] at hputs
  cases hputs

theorem single_concat (h : Announcing M s) (hfresh : ∀ put ∈ s.puts, put.call ≠ call) (key : String)
    (record : DHTAnnounceRecord) : ((s.puts ++ [Put.mk call key record]).map Put.call).Nodup := by
  have hnot : call ∉ s.puts.map Put.call := by
    intro hmem
    obtain ⟨put, hput, hcall⟩ := List.mem_map.mp hmem
    exact hfresh put hput hcall
  rw [List.map_append, List.map_singleton, ← List.concat_eq_append, List.nodup_concat]
  exact ⟨hnot, h.single⟩

theorem issued_modify (h : Announcing M s) (ha : s.announcements[call]? = some a) {put : Put}
    (hput : put ∈ s.puts) (hne : put.call ≠ call) :
    ∃ b : Announcement, (s.announcements.modify call f)[put.call]? = some b ∧
      put.key = announceKey M b.cid ∧ b.phase.puts = true := by
  obtain ⟨b, hb, hrest⟩ := h.issued put hput
  exact ⟨b, (getElem?_modify ha).mpr (Or.inr ⟨hne, hb⟩), hrest⟩

theorem settles_modify (h : Announcing M s) (ha : s.announcements[call]? = some a)
    (hcid : (f a).cid = a.cid) (hresult : (f a).phase.result = a.phase.result)
    (hcalls : t.announcements = s.announcements.modify call f)
    (hcompleted : t.completed = s.completed)
    (hrecord : ∀ cid, settledRecord M t cid = settledRecord M s cid) :
    ∀ (i : Nat) (b : Announcement), t.announcements[i]? = some b →
      Open M t.announcements b.cid ∨ ∃ result time, lastCompleted M t b.cid = some result ∧
        settledRecord M t b.cid = some (result.record time) := by
  intro i b hb
  rw [hcalls] at hb
  obtain ⟨c, hc, hbc⟩ := exists_of_getElem?_modify (g := Announcement.cid) ha hcid hb
  rw [hbc, hrecord, lastCompleted, hcompleted]
  refine (h.settles i c hc).imp_left fun hopen => ?_
  rw [hcalls]
  exact hopen.modify ha hcid fun _ hnone => hresult.trans hnone

theorem start (h : Announcing M s) (cid : CID) (requested : Bool) (now : Nat) :
    Announcing M (announceContent M s cid requested now) where
  single := by
    refine h.single_concat (fun put hput hcall => ?_) _ _
    obtain ⟨a, ha, -⟩ := h.issued put hput
    rw [hcall] at ha
    simp at ha
  issued put hput := by
    rcases List.mem_append.mp hput with hold | hnew
    · obtain ⟨a, ha, hrest⟩ := h.issued put hold
      exact ⟨a, getElem?_concat.mpr (Or.inl ha), hrest⟩
    · obtain rfl := List.mem_singleton.mp hnew
      exact ⟨_, getElem?_concat.mpr (Or.inr ⟨rfl, rfl⟩), rfl, rfl⟩
  settles i a ha := by
    have hnew : Open M (s.announcements ++ [⟨cid, requested, .setting⟩]) cid :=
      ⟨_, _, getElem?_concat.mpr (Or.inr ⟨rfl, rfl⟩), rfl, rfl⟩
    rcases getElem?_concat.mp ha with hold | ⟨-, rfl⟩
    · by_cases hkey : SameKey M a.cid cid
      · obtain ⟨j, b, hb, hsame, hnone⟩ := hnew
        exact Or.inl ⟨j, b, hb, hsame.trans hkey, hnone⟩
      · rcases h.settles i a hold with hopen | ⟨result, time, hlast, hrecord⟩
        · exact Or.inl (hopen.concat _)
        · refine Or.inr ⟨result, time, hlast, ?_⟩
          rw [announceContent, settledRecord_setDHTStatus, if_neg hkey]
          exact hrecord
    · exact Or.inl hnew

theorem written (h : Announcing M s) {put : Put} {puts : List Put} (hputs : s.puts = put :: puts) :
    Announcing M (written s put puts true) := by
  have hsingle := h.single
  rw [hputs, List.map_cons, List.nodup_cons] at hsingle
  obtain ⟨a, ha, -⟩ := h.issued put (by simp [hputs])
  refine ⟨hsingle.2, fun p hp => ?_, ?_⟩
  · have hne : p.call ≠ put.call := fun heq => hsingle.1 (heq ▸ List.mem_map_of_mem hp)
    exact h.issued_modify ha (hputs ▸ List.mem_cons_of_mem put hp) hne
  · refine h.settles_modify ha (f := fun a => { a with phase := a.phase.written }) rfl
      (written_result _) rfl rfl fun cid => ?_
    rw [settledRecord, settledRecord, hputs]
    rfl

theorem resumed (h : Announcing M s) (ha : s.announcements[call]? = some a)
    (hset : a.phase = .set) (now : Nat) : Announcing M (resumed s call a now) := by
  have hidle : a.phase.puts = false := by rw [hset]; rfl
  have hphase : Announcing M (setPhase s call .providing) := by
    refine ⟨h.single, fun put hput => h.issued_modify ha hput (h.call_ne ha hidle hput), ?_⟩
    refine h.settles_modify ha (f := fun a => { a with phase := .providing }) rfl ?_ rfl rfl
      fun _ => rfl
    rw [hset]
    rfl
  unfold Dht.resumed
  split_ifs
  · exact ⟨hphase.single, hphase.issued, hphase.settles⟩
  · exact hphase

theorem provided (h : Announcing M s) (ha : s.announcements[call]? = some a)
    (hproviding : a.phase = .providing) (result : Provided) (now : Nat) :
    Announcing M (provided M s call a result now) := by
  have hidle : a.phase.puts = false := by rw [hproviding]; rfl
  refine ⟨h.single_concat (fun put hput => h.call_ne ha hidle hput) _ _, fun put hput => ?_,
    fun i b hb => ?_⟩
  · rcases List.mem_append.mp hput with hold | hnew
    · exact h.issued_modify ha hold (h.call_ne ha hidle hold)
    · obtain rfl := List.mem_singleton.mp hnew
      exact ⟨_, (getElem?_modify ha).mpr (Or.inl ⟨rfl, rfl⟩), rfl, rfl⟩
  · obtain ⟨c, hc, hbc⟩ := exists_of_getElem?_modify (g := Announcement.cid) ha rfl hb
    rw [hbc, Dht.provided, settledRecord_setDHTStatus]
    by_cases hkey : SameKey M c.cid a.cid
    · refine Or.inr ⟨result, now, ?_, if_pos hkey⟩
      simp [lastCompleted, setDHTStatus, hkey]
    · rw [if_neg hkey]
      have hlast : lastCompleted M (Dht.provided M s call a result now) c.cid =
          lastCompleted M s c.cid := by
        simp [lastCompleted, Dht.provided, setDHTStatus, setPhase, hkey]
      refine (h.settles i c hc).imp (fun hopen => ?_) fun hrecord => ?_
      · exact hopen.modify ha rfl fun hsame => absurd hsame hkey
      · rw [← hlast] at hrecord
        exact hrecord

theorem step (h : Announcing M s) (he : CarriedOut s e)
    (hstep : step M parse s e = some (t, o)) : Announcing M t := by
  rcases step_cases hstep with rfl | ⟨cid, requested, now, rfl⟩ |
    ⟨put, puts, carriedOut, rfl, hputs, rfl⟩ | ⟨call, a, now, ha, hset, rfl⟩ |
    ⟨call, a, result, now, ha, hproviding, rfl⟩
  · exact h
  · exact h.start cid requested now
  · cases he
    exact h.written hputs
  · exact h.resumed ha hset now
  · exact h.provided ha hproviding result now

end Announcing

def AllDone (M : Multiformats) (s : State) (cid : CID) : Prop :=
  ∀ a ∈ s.announcements, SameKey M cid a.cid → a.phase.isDone = true

instance (M : Multiformats) (s : State) (cid : CID) : Decidable (AllDone M s cid) :=
  inferInstanceAs (Decidable (∀ a ∈ s.announcements, SameKey M cid a.cid → a.phase.isDone = true))

theorem Provided.record_inj {result result' : Provided} {time time' : Nat}
    (h : result.record time = result'.record time') : result = result' := by
  cases result with
  | success =>
    cases result' with
    | success => rfl
    | failed err => cases congrArg DHTAnnounceRecord.status h
  | failed err =>
    cases result' with
    | success => cases congrArg DHTAnnounceRecord.status h
    | failed err' => rw [Option.some.inj (congrArg DHTAnnounceRecord.error h)]

section
variable {cid : CID} {es : List Event} {out : List Response}

theorem announcing_of_run (h : (announcing M parse records).Run CarriedOut es s out) :
    Announcing M s :=
  h.invariant (I := fun s _ => Announcing M s) ⟨by simp [announcing], by simp [announcing],
    by simp [announcing]⟩ fun _ _ _ _ _ hs he hstep => hs.step he hstep

theorem getDHTStatus_of_allDone (h : Announcing M s) (hdone : AllDone M s cid) {a : Announcement}
    (ha : a ∈ s.announcements) (hkey : SameKey M cid a.cid) : ∃ result time,
      lastCompleted M s cid = some result ∧
      getDHTStatus M s cid = some (result.record time) := by
  obtain ⟨i, hi⟩ := List.mem_iff_getElem?.mp ha
  have hclosed : ¬ Open M s.announcements a.cid := by
    rintro ⟨j, b, hb, hsame, hnone⟩
    have hend := hdone b (List.mem_of_getElem? hb) (hsame.trans hkey)
    cases hphase : b.phase <;> simp [hphase, Phase.isDone, Phase.result] at hend hnone
  obtain ⟨result, time, hlast, hrecord⟩ := (h.settles i a hi).resolve_left hclosed
  have hcompleted : lastCompleted M s a.cid = lastCompleted M s cid := by
    unfold lastCompleted
    congr 2
    refine List.filter_congr fun p _ => ?_
    exact decide_eq_decide.mpr ⟨fun h => h.trans hkey, fun h => h.trans (Eq.symm hkey)⟩
  have hsettled : settledRecord M s a.cid = getDHTStatus M s cid := by
    rw [settledRecord, getDHTStatus, show announceKey M a.cid = announceKey M cid from hkey]
    refine lookup_insertAll_of_ne fun p hp => ?_
    obtain ⟨put, hput, rfl⟩ := List.mem_map.mp hp
    obtain ⟨b, hb, hb', hputs⟩ := h.issued put hput
    -- a call with a put under way is not done
    intro hput'
    have hend := hdone b (List.mem_of_getElem? hb) (hb'.symm.trans hput')
    cases hphase : b.phase <;> simp [hphase, Phase.isDone, Phase.puts] at hend hputs
  exact ⟨result, time, hcompleted ▸ hlast, hsettled ▸ hrecord⟩

/-- Once the calls for a CID are done, the record of the CID carries the outcome of the call that
was started last exactly if the `provide` that ended last has the same outcome. -/
theorem getDHTStatus_carries_iff (h : (announcing M parse records).Run CarriedOut es s out)
    (hdone : AllDone M s cid) {result : Provided} (hstarted : lastStarted M s cid = some result) :
    (∃ record, getDHTStatus M s cid = some record ∧ record.Carries result) ↔
      lastCompleted M s cid = some result := by
  obtain ⟨a, ha, -⟩ := Option.bind_eq_some_iff.mp hstarted
  obtain ⟨hmem, hkey⟩ := List.mem_filter.mp (List.mem_of_getLast? ha)
  obtain ⟨result', time, hlast, hrecord⟩ :=
    getDHTStatus_of_allDone (announcing_of_run h) hdone hmem (of_decide_eq_true hkey)
  rw [hlast, Option.some.injEq]
  constructor
  · rintro ⟨record, hget, time', rfl⟩
    exact Provided.record_inj (Option.some.inj (hrecord.symm.trans hget))
  · rintro rfl
    exact ⟨_, hrecord, time, rfl⟩

end

open Multiformats

def announcedTwice (ends : List Event) : List Event :=
  [.pinned emptyRaw 0, .announce emptyBody 1, .written true, .written true, .resumed 0 2,
    .resumed 1 3] ++ ends ++ [.written true, .written true]

theorem getDHTStatus_inOrder : ∃ s out,
    (announcing onEmptyBlock cidParse ∅).Run CarriedOut
      (announcedTwice [.provided 0 (.failed "timeout") 4, .provided 1 .success 5]) s out ∧
    lastStarted onEmptyBlock s emptyRaw = some .success ∧
    ∃ record, getDHTStatus onEmptyBlock s emptyRaw = some record ∧ record.Carries .success := by
  obtain ⟨s, out, hrun, hend⟩ :=
    System.exists_run (T := (announcing onEmptyBlock cidParse ∅).guarded CarriedOut)
      (announcedTwice [.provided 0 (.failed "timeout") 4, .provided 1 .success 5])
      (p := fun r => AllDone onEmptyBlock r.1 emptyRaw ∧
        lastStarted onEmptyBlock r.1 emptyRaw = some .success ∧
        lastCompleted onEmptyBlock r.1 emptyRaw = some .success) (by decide +kernel)
  obtain ⟨hdone, hstarted, hcompleted⟩ :
    AllDone onEmptyBlock s emptyRaw ∧ lastStarted onEmptyBlock s emptyRaw = some .success ∧
      lastCompleted onEmptyBlock s emptyRaw = some .success := hend
  have hrun' := System.Run.of_guarded hrun
  exact ⟨s, out, hrun', hstarted, (getDHTStatus_carries_iff hrun' hdone hstarted).mpr hcompleted⟩

/-- The call that was started last succeeds, and then the earlier one fails. -/
theorem getDHTStatus_stale : ∃ s out,
    (announcing onEmptyBlock cidParse ∅).Run CarriedOut
      (announcedTwice [.provided 1 .success 4, .provided 0 (.failed "timeout") 5]) s out ∧
    AllDone onEmptyBlock s emptyRaw ∧ lastStarted onEmptyBlock s emptyRaw = some .success ∧
    getDHTStatus onEmptyBlock s emptyRaw =
      some { status := .failed, announcedAt := 5, error := some "timeout" } ∧
    ¬ ∃ record, getDHTStatus onEmptyBlock s emptyRaw = some record ∧ record.Carries .success := by
  obtain ⟨s, out, hrun, hend⟩ :=
    System.exists_run (T := (announcing onEmptyBlock cidParse ∅).guarded CarriedOut)
      (announcedTwice [.provided 1 .success 4, .provided 0 (.failed "timeout") 5])
      (p := fun r => AllDone onEmptyBlock r.1 emptyRaw ∧
        lastStarted onEmptyBlock r.1 emptyRaw = some .success ∧
        getDHTStatus onEmptyBlock r.1 emptyRaw =
          some { status := .failed, announcedAt := 5, error := some "timeout" }) (by decide +kernel)
  obtain ⟨hdone, hstarted, hget⟩ : AllDone onEmptyBlock s emptyRaw ∧
    lastStarted onEmptyBlock s emptyRaw = some .success ∧ getDHTStatus onEmptyBlock s emptyRaw =
      some { status := .failed, announcedAt := 5, error := some "timeout" } := hend
  refine ⟨s, out, System.Run.of_guarded hrun, hdone, hstarted, hget, ?_⟩
  rintro ⟨record, hrecord, time, rfl⟩
  rw [hget] at hrecord
  cases hrecord

end IpfsShard.Dht
