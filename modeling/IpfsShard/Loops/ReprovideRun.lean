import IpfsShard.Loops.Reprovide

/-! One run of the re-provide loop from its listing to its end, with the two counters. -/

namespace IpfsShard.Loops
open Runs Async Multiformats

/-- What the metrics `reprovideCounter` and `reprovideErrorCounter` count. -/
structure ReprovideCounts where
  reprovideCounter : Nat := 0
  reprovideErrorCounter : Nat := 0
  deriving DecidableEq

section
variable {α : Type} (M : Multiformats) (parse : String → Option CID)

def parseErrors (stopped : Bool) : List String → Nat
  | [] => 0
  | cidStr :: rest =>
    if stopped then 0
    else
      match parse cidStr with
      | none => parseErrors stopped rest + 1
      | some _ => 0

/-- What a call that goes on with a result counts up to where it waits again. -/
def ReprovideCounts.after (c : ReprovideCounts) (stopped : Bool) (call : ReprovideCall)
    (result : ReprovideResult) : ReprovideCounts :=
  match call, result with
  | .listing cids, .done =>
    { c with reprovideErrorCounter := c.reprovideErrorCounter + parseErrors parse stopped cids }
  | .providing _ _, .done => { c with reprovideCounter := c.reprovideCounter + 1 }
  | .providing _ rest, .failed =>
    { c with reprovideErrorCounter := c.reprovideErrorCounter + 1 + parseErrors parse stopped rest }
  -- a status that cannot be set is no error
  | .statusSet rest, _ =>
    { c with reprovideErrorCounter := c.reprovideErrorCounter + parseErrors parse stopped rest }
  | _, _ => c

/-- `reprovideLoop` with the counters. -/
def countedReprovideLoop : Program (ReprovideLoop × ReprovideCounts) ReprovideEvent ReprovideCall
    ReprovideResult (Call α) where
  init := ((reprovideLoop (α := α) M parse).init, {})
  on s e := ((reprovideLoop M parse).on s.1 e).map fun r => ((r.1, s.2), r.2)
  resume s call result := ((reprovideLoop M parse).resume s.1 call result).map fun r =>
    ((r.1, s.2.after parse s.1.stopped call result), r.2)

end

/-- What becomes of one CID: the `provide` fails, or it succeeds and the status is set or not. -/
inductive Outcome where
  | provided (statusSet : Bool)
  | failed

namespace Outcome
variable {α : Type}

def succeeded : Outcome → Bool
  | provided _ => true
  | failed => false

def statusResult (statusSet : Bool) : ReprovideResult := if statusSet then .done else .failed

def results : Outcome → List ReprovideResult
  | provided statusSet => [.done, statusResult statusSet]
  | failed => [.failed]

def trace (cid : CID) : Outcome → List (Trace ReprovideResult (Call α))
  | provided statusSet => [.started (.provide cid), .ended .done, .started (.setStatus cid),
      .ended (statusResult statusSet)]
  | failed => [.started (.provide cid), .ended .failed]

end Outcome

section
variable {α : Type}

def provideCalls (trace : List (Trace ReprovideResult (Call α))) : List CID :=
  trace.filterMap fun
    | .started (.provide cid) => some cid
    | _ => none

def statusCalls (trace : List (Trace ReprovideResult (Call α))) : List CID :=
  trace.filterMap fun
    | .started (.setStatus cid) => some cid
    | _ => none

/-- Each listed pin is provided once and in its turn, with one outcome; the next `provide` starts
after the end of the one before it, and of the call that sets its status. -/
structure Covers (pins : List CID) (results : List ReprovideResult) (c c' : ReprovideCounts)
    (trace : List (Trace ReprovideResult (Call α))) (outcomes : List (CID × Outcome)) : Prop where
  listed : outcomes.map Prod.fst = pins
  results_eq : results = outcomes.flatMap fun o => o.2.results
  trace_eq : trace = pins.map (fun cid => .ended (.pin cid)) ++
    .ended .done :: outcomes.flatMap fun o => o.2.trace o.1
  provides : provideCalls trace = pins
  statuses : statusCalls trace = (outcomes.filter fun o => o.2.succeeded).map Prod.fst
  succeeded : c'.reprovideCounter = c.reprovideCounter + outcomes.countP fun o => o.2.succeeded
  failed : c'.reprovideErrorCounter =
    c.reprovideErrorCounter + outcomes.countP fun o => !o.2.succeeded
  total : (c'.reprovideCounter - c.reprovideCounter) +
    (c'.reprovideErrorCounter - c.reprovideErrorCounter) = pins.length

end

variable {α : Type} {M : Multiformats} {parse : String → Option CID} {s : ReprovideLoop}
  {c : ReprovideCounts} {pins : List CID} {results : List ReprovideResult}

theorem provideFrom_cons (hparse : ∀ cid, parse (M.toString cid) = some cid) (cid : CID)
    (pins : List CID) : provideFrom (α := α) parse false ((cid :: pins).map M.toString) =
      ([.provide cid], some (.providing cid (pins.map M.toString))) := by
  simp [provideFrom, hparse]

theorem parseErrors_eq_zero (hparse : ∀ cid, parse (M.toString cid) = some cid)
    (pins : List CID) : parseErrors parse false (pins.map M.toString) = 0 := by
  cases pins with
  | nil => rfl
  | cons cid pins => simp [parseErrors, hparse]

def ReprovideCounts.add (c : ReprovideCounts) (outcomes : List (CID × Outcome)) :
    ReprovideCounts where
  reprovideCounter := c.reprovideCounter + outcomes.countP fun o => o.2.succeeded
  reprovideErrorCounter := c.reprovideErrorCounter + outcomes.countP fun o => !o.2.succeeded

theorem ReprovideCounts.add_cons (c : ReprovideCounts) (outcome : CID × Outcome)
    (outcomes : List (CID × Outcome)) :
    c.add (outcome :: outcomes) = (c.add [outcome]).add outcomes := by
  simp only [add, List.countP_cons, List.countP_nil]
  congr 1 <;> omega

theorem resume_listed (hparse : ∀ cid, parse (M.toString cid) = some cid)
    (hs : s.stopped = false) :
    (countedReprovideLoop (α := α) M parse).resume (s, c) (.listing (pins.map M.toString)) .done =
      some ((s, c), provideFrom parse false (pins.map M.toString)) := by
  simp [countedReprovideLoop, reprovideLoop, ReprovideCounts.after, hs, parseErrors_eq_zero hparse]

theorem resume_failed (hparse : ∀ cid, parse (M.toString cid) = some cid)
    (hs : s.stopped = false) (cid : CID) :
    (countedReprovideLoop (α := α) M parse).resume (s, c)
        (.providing cid (pins.map M.toString)) .failed =
      some ((s, c.add [(cid, .failed)]), provideFrom parse false (pins.map M.toString)) := by
  simp [countedReprovideLoop, reprovideLoop, ReprovideCounts.after, ReprovideCounts.add,
    Outcome.succeeded, hs, parseErrors_eq_zero hparse]

theorem resume_done (cid : CID) (rest : List String) :
    (countedReprovideLoop (α := α) M parse).resume (s, c) (.providing cid rest) .done =
      some ((s, { c with reprovideCounter := c.reprovideCounter + 1 }), [.setStatus cid],
        some (.statusSet rest)) := rfl

theorem resume_statusSet (hparse : ∀ cid, parse (M.toString cid) = some cid)
    (hs : s.stopped = false) (statusSet : Bool) :
    (countedReprovideLoop (α := α) M parse).resume (s, c) (.statusSet (pins.map M.toString))
        (Outcome.statusResult statusSet) =
      some ((s, c), provideFrom parse false (pins.map M.toString)) := by
  cases statusSet <;>
    simp [Outcome.statusResult, countedReprovideLoop, reprovideLoop, ReprovideCounts.after, hs,
      parseErrors_eq_zero hparse]

theorem exists_statusResult {rest : List String} {result : ReprovideResult}
    (h : (countedReprovideLoop (α := α) M parse).resume (s, c) (.statusSet rest) result ≠ none) :
    ∃ statusSet, result = Outcome.statusResult statusSet := by
  cases result with
  | pin cid => exact absurd rfl h
  | done => exact ⟨true, rfl⟩
  | failed => exact ⟨false, rfl⟩

theorem listing_run_iff {cids : List String} {rest : List ReprovideResult}
    {t : (ReprovideLoop × ReprovideCounts) × Option ReprovideCall}
    {trace : List (Trace ReprovideResult (Call α))} :
    ((countedReprovideLoop M parse).alone (s, c) (some (.listing cids))).Run System.any
        (pins.map .pin ++ rest) t trace ↔
      ∃ trace', ((countedReprovideLoop M parse).alone (s, c)
          (some (.listing (cids ++ pins.map M.toString)))).Run System.any rest t trace' ∧
        trace = pins.map (fun cid => .ended (.pin cid)) ++ trace' := by
  induction pins generalizing cids trace with
  | nil => simp
  | cons cid pins ih =>
    rw [List.map_cons, List.cons_append, Program.alone_cons_iff]
    constructor
    · rintro ⟨r, trace', hr, hrest, rfl⟩
      cases hr
      obtain ⟨trace'', hrest', rfl⟩ := ih.mp hrest
      rw [List.append_assoc] at hrest'
      exact ⟨trace'', hrest', rfl⟩
    · rintro ⟨trace', hrest, rfl⟩
      have hcids : cids ++ (cid :: pins).map M.toString =
          cids ++ [M.toString cid] ++ pins.map M.toString := by simp
      rw [hcids] at hrest
      exact ⟨_, _, rfl, ih.mpr ⟨trace', hrest, rfl⟩, rfl⟩

theorem outcomes_of_run (hparse : ∀ cid, parse (M.toString cid) = some cid)
    (hs : s.stopped = false) {t : ReprovideLoop × ReprovideCounts}
    {trace : List (Trace ReprovideResult (Call α))}
    (h : ((countedReprovideLoop M parse).alone (s, c)
      (provideFrom (α := α) parse false (pins.map M.toString)).2).Run System.any results (t, none)
      trace) :
    ∃ outcomes : List (CID × Outcome), outcomes.map Prod.fst = pins ∧
      results = (outcomes.flatMap fun o => o.2.results) ∧
      (provideFrom parse false (pins.map M.toString)).1.map .started ++ trace =
        (outcomes.flatMap fun o => o.2.trace o.1) ∧
      t = (s, c.add outcomes) := by
  induction pins generalizing c results trace with
  | nil =>
    obtain ⟨rfl, ht, rfl⟩ := Program.alone_none_iff.mp h
    exact ⟨[], rfl, rfl, rfl, (Prod.mk.inj ht).1⟩
  | cons cid pins ih =>
    rw [provideFrom_cons hparse] at h ⊢
    cases results with
    | nil => cases (System.run_nil_iff.mp h).1
    | cons result results =>
      obtain ⟨r, trace', hr, hrest, rfl⟩ := Program.alone_cons_iff.mp h
      cases result with
      | pin cid => cases hr
      | failed =>
        rw [resume_failed hparse hs] at hr
        cases hr
        obtain ⟨outcomes, rfl, rfl, htrace, rfl⟩ := ih hrest
        refine ⟨(cid, .failed) :: outcomes, rfl, rfl, ?_, by rw [c.add_cons (cid, .failed) outcomes]⟩
        rw [List.flatMap_cons, ← htrace]
        rfl
      | done =>
        rw [resume_done cid] at hr
        cases hr
        cases results with
        | nil => cases (System.run_nil_iff.mp hrest).1
        | cons result results =>
          obtain ⟨r', trace', hr', hnext, rfl⟩ := Program.alone_cons_iff.mp hrest
          obtain ⟨statusSet, rfl⟩ := exists_statusResult (hr' ▸ Option.some_ne_none r')
          rw [resume_statusSet hparse hs] at hr'
          cases hr'
          obtain ⟨outcomes, rfl, rfl, htrace, rfl⟩ := ih hnext
          refine ⟨(cid, .provided statusSet) :: outcomes, rfl, rfl, ?_, ?_⟩
          · rw [List.flatMap_cons, ← htrace]
            rfl
          · rw [c.add_cons (cid, .provided statusSet) outcomes]
            rfl

theorem run_of_outcomes (hparse : ∀ cid, parse (M.toString cid) = some cid)
    (hs : s.stopped = false) (outcomes : List (CID × Outcome)) :
    ∃ trace : List (Trace ReprovideResult (Call α)), ((countedReprovideLoop M parse).alone (s, c)
        (provideFrom (α := α) parse false ((outcomes.map Prod.fst).map M.toString)).2).Run
        System.any (outcomes.flatMap fun o => o.2.results) ((s, c.add outcomes), none) trace ∧
      (provideFrom parse false ((outcomes.map Prod.fst).map M.toString)).1.map .started ++ trace =
        (outcomes.flatMap fun o => o.2.trace o.1) := by
  induction outcomes generalizing c with
  | nil => exact ⟨[], Program.alone_none_iff.mpr ⟨rfl, rfl, rfl⟩, rfl⟩
  | cons outcome outcomes ih =>
    obtain ⟨cid, outcome⟩ := outcome
    obtain ⟨trace, hrun, htrace⟩ := ih (c := c.add [(cid, outcome)])
    rw [List.map_cons, provideFrom_cons hparse, c.add_cons, List.flatMap_cons, List.flatMap_cons,
      ← htrace]
    cases outcome with
    | failed =>
      exact ⟨_, Program.alone_cons_iff.mpr ⟨_, trace, resume_failed hparse hs cid, hrun, rfl⟩, rfl⟩
    | provided statusSet =>
      have hstatus := Program.alone_cons_iff.mpr
        ⟨_, trace, resume_statusSet hparse hs statusSet, hrun, rfl⟩
      exact ⟨_, Program.alone_cons_iff.mpr ⟨_, _, resume_done cid _, hstatus, rfl⟩, rfl⟩

theorem provideCalls_append (trace trace' : List (Trace ReprovideResult (Call α))) :
    provideCalls (trace ++ trace') = provideCalls trace ++ provideCalls trace' :=
  List.filterMap_append

theorem statusCalls_append (trace trace' : List (Trace ReprovideResult (Call α))) :
    statusCalls (trace ++ trace') = statusCalls trace ++ statusCalls trace' :=
  List.filterMap_append

theorem calls_outcomes (outcomes : List (CID × Outcome)) :
    provideCalls (α := α) (outcomes.flatMap fun o => o.2.trace o.1) = outcomes.map Prod.fst ∧
      statusCalls (α := α) (outcomes.flatMap fun o => o.2.trace o.1) =
        (outcomes.filter fun o => o.2.succeeded).map Prod.fst := by
  induction outcomes with
  | nil => exact ⟨rfl, rfl⟩
  | cons outcome outcomes ih =>
    obtain ⟨cid, outcome⟩ := outcome
    rw [List.flatMap_cons, provideCalls_append, statusCalls_append, ih.1, ih.2]
    cases outcome <;> exact ⟨rfl, rfl⟩

theorem calls_listed (pins : List CID) (trace : List (Trace ReprovideResult (Call α))) :
    provideCalls (pins.map (fun cid => .ended (.pin cid)) ++ .ended .done :: trace) =
        provideCalls trace ∧
      statusCalls (pins.map (fun cid => .ended (.pin cid)) ++ .ended .done :: trace) =
        statusCalls trace := by
  induction pins with
  | nil => exact ⟨rfl, rfl⟩
  | cons cid pins ih => exact ih

theorem covers_of_outcomes (c : ReprovideCounts) (outcomes : List (CID × Outcome)) :
    Covers (α := α) (outcomes.map Prod.fst) (outcomes.flatMap fun o => o.2.results) c
      (c.add outcomes) ((outcomes.map Prod.fst).map (fun cid => .ended (.pin cid)) ++
        .ended .done :: outcomes.flatMap fun o => o.2.trace o.1) outcomes where
  listed := rfl
  results_eq := rfl
  trace_eq := rfl
  provides := (calls_listed _ _).1.trans (calls_outcomes outcomes).1
  statuses := (calls_listed _ _).2.trans (calls_outcomes outcomes).2
  succeeded := rfl
  failed := rfl
  total := by
    have htotal := List.length_eq_countP_add_countP (fun o : CID × Outcome => o.2.succeeded)
      (l := outcomes)
    simp only [ReprovideCounts.add, Nat.add_sub_cancel_left, List.length_map, htotal]
    simp

theorem Covers.counts_eq {c' : ReprovideCounts} {trace : List (Trace ReprovideResult (Call α))}
    {outcomes : List (CID × Outcome)} (h : Covers pins results c c' trace outcomes) :
    c' = c.add outcomes := by
  obtain ⟨provided, errors⟩ := c'
  simp only [ReprovideCounts.add, ← h.succeeded, ← h.failed]

/-- A run that lists `pins` and then waits for `results` is over exactly if each pin has had its
outcome. -/
theorem reprovideRun_covers_iff (hparse : ∀ cid, parse (M.toString cid) = some cid)
    {s t : State (ReprovideLoop × ReprovideCounts) ReprovideCall} {i : Nat} {out : List (Call α)}
    (hi : s.suspended[i]? = some (some (.listing []))) (hs : s.shared.1.stopped = false) :
    (((countedReprovideLoop M parse).system.restart s).Run System.any
        ((pins.map ReprovideResult.pin ++ .done :: results).map (.resume i)) t out ∧
        t.suspended[i]? = some none) ↔
      ∃ outcomes trace c', Covers pins results s.shared.2 c' trace outcomes ∧
        t = ⟨(s.shared.1, c'), s.suspended.set i none⟩ ∧ out = trace.filterMap Trace.call? := by
  have hset : ∀ q, (s.suspended.set i q)[i]? = some q := fun q =>
    List.getElem?_set_self (List.getElem?_eq_some_iff.mp hi).1
  rw [Program.run_alone_iff hi]
  constructor
  · rintro ⟨⟨u, trace, hrun, rfl, rfl⟩, hended⟩
    obtain ⟨trace', hloop, rfl⟩ := listing_run_iff.mp hrun
    obtain ⟨r, trace, hr, hrest, rfl⟩ := Program.alone_cons_iff.mp hloop
    rw [List.nil_append, resume_listed hparse hs] at hr
    cases hr
    obtain ⟨t, q⟩ := u
    rw [hset, Option.some.injEq] at hended
    obtain rfl : q = none := hended
    obtain ⟨outcomes, rfl, rfl, htrace, rfl⟩ := outcomes_of_run hparse hs hrest
    refine ⟨outcomes, _, _, ?_, rfl, rfl⟩
    rw [List.cons_append, htrace]
    exact covers_of_outcomes _ outcomes
  · rintro ⟨outcomes, trace, c', hcovers, rfl, rfl⟩
    obtain rfl := hcovers.counts_eq
    obtain rfl := hcovers.trace_eq
    obtain rfl := hcovers.results_eq
    obtain rfl := hcovers.listed
    obtain ⟨trace, hrun, htrace⟩ := run_of_outcomes hparse hs outcomes
    refine ⟨⟨_, _, listing_run_iff.mpr ⟨_, Program.alone_cons_iff.mpr
      ⟨_, trace, resume_listed hparse hs, hrun, rfl⟩, rfl⟩, rfl, ?_⟩, hset none⟩
    rw [List.cons_append, htrace]

theorem reprovideRun_covers_onePin :
    ((countedReprovideLoop (α := String) onEmptyBlock cidParse).system.restart
        ⟨({ started := true, intervalId := true }, {}), [some (.listing [])]⟩).Run System.any
      (([emptyRaw].map ReprovideResult.pin ++ .done :: Outcome.results (.provided false)).map
        (.resume 0))
      ⟨({ started := true, intervalId := true }, ⟨1, 0⟩), [none]⟩
      [.provide emptyRaw, .setStatus emptyRaw] ∧ [(none : Option ReprovideCall)][0]? = some none :=
  (reprovideRun_covers_iff cidParse_cidText rfl rfl).mpr
    ⟨[(emptyRaw, .provided false)], _, ⟨1, 0⟩, covers_of_outcomes {} [(emptyRaw, .provided false)],
      rfl, rfl⟩

end IpfsShard.Loops
