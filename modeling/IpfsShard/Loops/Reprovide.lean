import IpfsShard.Loops.Startup

/-! The re-provide loop: a first run after a timeout, which also sets the interval of the
following runs. `CID.parse` is a parameter; it is `none` where it throws. -/

namespace IpfsShard.Loops

structure ReprovideLoop where
  started : Bool := false
  stopped : Bool := false
  /-- The timeout is set and has not run yet. -/
  timeoutId : Bool := false
  intervalId : Bool := false

inductive ReprovideEvent where
  | start
  | timeout
  | tick
  | stop

/-- What a suspended run waits for, with the texts of the CIDs that it has listed or has still
to provide. -/
inductive ReprovideCall where
  | listing (cids : List String)
  | providing (cid : CID) (rest : List String)
  | statusSet (rest : List String)

/-- The next pin of the listing or its end; the end of a call, or its failure. -/
inductive ReprovideResult where
  | pin (cid : CID)
  | done
  | failed

def ReprovideCall.isRun : ReprovideCall → Bool
  | listing _ | providing _ _ | statusSet _ => true

def startsRun (s : ReprovideLoop) : ReprovideEvent → Bool
  | .timeout | .tick => !s.stopped
  | .start | .stop => false

section
variable {α : Type} (M : Multiformats) (parse : String → Option CID)

def provideFrom (stopped : Bool) : List String → List (Call α) × Option ReprovideCall
  | [] => ([], none)
  | cidStr :: rest =>
    if stopped then ([], none)
    else
      match parse cidStr with
      | none => provideFrom stopped rest
      | some cid => ([.provide cid], some (.providing cid rest))

def runReprovideLoop (stopped : Bool) : List (Call α) × Option ReprovideCall :=
  if stopped then ([], none) else ([.pinsLs], some (.listing []))

def reprovideLoop :
    Async.Program ReprovideLoop ReprovideEvent ReprovideCall ReprovideResult (Call α) where
  init := {}
  on s
    | .start =>
      if s.started then none else some ({ s with started := true, timeoutId := true }, [], [])
    | .timeout =>
      if s.timeoutId then
        let (calls, run) := runReprovideLoop s.stopped
        some ({ s with timeoutId := false, intervalId := true }, calls, run.toList)
      else none
    | .tick =>
      if s.intervalId then
        let (calls, run) := runReprovideLoop s.stopped
        some (s, calls, run.toList)
      else none
    | .stop =>
      if !s.started then none
      else if s.stopped then some (s, [], [])
      else some ({ s with stopped := true, timeoutId := false, intervalId := false }, [], [])
  resume s call result :=
    match call, result with
    | .listing cids, .pin cid => some (s, [], some (.listing (cids ++ [M.toString cid])))
    | .listing cids, .done =>
      let (calls, run) := provideFrom parse s.stopped cids
      some (s, calls, run)
    -- the error of the listing is logged, and the run is over
    | .listing _, .failed => some (s, [], none)
    | .providing cid rest, .done => some (s, [.setStatus cid], some (.statusSet rest))
    | .providing _ rest, .failed | .statusSet rest, .done | .statusSet rest, .failed =>
      let (calls, run) := provideFrom parse s.stopped rest
      some (s, calls, run)
    | _, _ => none

variable {M parse}

theorem provideFrom_stopped {stopped : Bool} (h : stopped = true) (cids : List String) :
    provideFrom (α := α) parse stopped cids = ([], none) := by
  cases cids with
  | nil => rfl
  | cons cidStr rest => rw [provideFrom, if_pos h]

theorem runReprovideLoop_stopped {stopped : Bool} (h : stopped = true) :
    runReprovideLoop (α := α) stopped = ([], none) := if_pos h

theorem reprovideLoop_stops : (reprovideLoop (α := α) M parse).Stops .stop Call.Starts
    (fun s => s.stopped = true) where
  stopped s r h := by
    simp only [reprovideLoop] at h
    split_ifs at h with hstarted hstopped
    · cases h
      exact hstopped
    · cases h
      rfl
  on s e r hs h := by
    cases e with
    | start =>
      simp only [reprovideLoop] at h
      split_ifs at h
      cases h
      exact ⟨hs, by simp⟩
    | timeout =>
      simp only [reprovideLoop, runReprovideLoop_stopped hs] at h
      split_ifs at h
      cases h
      exact ⟨hs, by simp⟩
    | tick =>
      simp only [reprovideLoop, runReprovideLoop_stopped hs] at h
      split_ifs at h
      cases h
      exact ⟨hs, by simp⟩
    | stop =>
      simp only [reprovideLoop] at h
      split_ifs at h
      cases h
      exact ⟨hs, by simp⟩
  resume s call result r hs h := by
    cases call <;> cases result <;>
      simp only [reprovideLoop, provideFrom_stopped hs, reduceCtorEq] at h
    all_goals
      cases h
      exact ⟨hs, by simp [Call.Starts]⟩

end

end IpfsShard.Loops
