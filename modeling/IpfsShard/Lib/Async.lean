import IpfsShard.Lib.Runs

/-! Programs of async functions on one thread: what is called runs up to its first `await`, and
what is suspended goes on when the awaited call has ended. Nothing else runs in between. -/

namespace Async
open Runs

universe u v w x y

/-- `on` is what a timer, a listener or a caller runs, with the calls that it suspends; `resume`
is what a suspended call runs with the result that it has waited for, and where it is suspended
again. Outputs are the calls that are started. `none`: this cannot happen. -/
structure Program (σ : Type u) (ε : Type v) (ρ : Type w) (ι : Type x) (ω : Type y) where
  init : σ
  on : σ → ε → Option (σ × List ω × List ρ)
  resume : σ → ρ → ι → Option (σ × List ω × Option ρ)

inductive Event (ε : Type v) (ι : Type x) where
  | on (e : ε)
  | resume (i : Nat) (result : ι)

/-- A suspended call is `none` when it has ended. -/
structure State (σ : Type u) (ρ : Type w) where
  shared : σ
  suspended : List (Option ρ)

variable {σ : Type u} {ε : Type v} {ρ : Type w} {ι : Type x} {ω : Type y}

def State.count (kind : ρ → Bool) (s : State σ ρ) : Nat := s.suspended.countP fun q => q.any kind

/-- What a call does in its time: it starts other calls and waits for their ends. -/
inductive Trace (ι : Type x) (ω : Type y) where
  | started (call : ω)
  | ended (result : ι)

def Trace.call? : Trace ι ω → Option ω
  | started call => some call
  | ended _ => none

namespace Program

def system (p : Program σ ε ρ ι ω) : System (State σ ρ) (Event ε ι) ω where
  init := ⟨p.init, []⟩
  step s
    | .on e => (p.on s.shared e).map fun r => (⟨r.1, s.suspended ++ r.2.2.map some⟩, r.2.1)
    | .resume i result =>
      match s.suspended[i]? with
      | some (some q) =>
        (p.resume s.shared q result).map fun r => (⟨r.1, s.suspended.set i r.2.2⟩, r.2.1)
      | _ => none

def alone (p : Program σ ε ρ ι ω) (s : σ) (q : Option ρ) :
    System (σ × Option ρ) ι (Trace ι ω) where
  init := (s, q)
  step t result :=
    match t.2 with
    | none => none
    | some q => (p.resume t.1 q result).map fun r =>
        ((r.1, r.2.2), .ended result :: r.2.1.map .started)

/-- The events that start a call of the kind `kind` start one, and a suspended call is of the same
kind up to its end. -/
structure StartsOne (p : Program σ ε ρ ι ω) (kind : ρ → Bool) (starts : σ → ε → Bool) : Prop where
  on : ∀ s e r, p.on s e = some r → r.2.2.countP kind = if starts s e then 1 else 0
  resume : ∀ s q i r, p.resume s q i = some r → r.2.2.any kind = true → kind q = true

/-- An event that starts a call of the kind `kind` happens while there is none. -/
def Apart (kind : ρ → Bool) (starts : σ → ε → Bool) (s : State σ ρ) : Event ε ι → Prop
  | .on e => starts s.shared e = true → s.count kind = 0
  | .resume _ _ => True

/-- In every run, whatever is started after `stop` has happened is not of the kind `Starts`. -/
def Final (p : Program σ ε ρ ι ω) (stop : ε) (Starts : ω → Prop) : Prop :=
  ∀ es es' s out, p.system.Run System.any (es ++ [.on stop] ++ es') s out →
    ∃ s' out' out'', p.system.Run System.any (es ++ [.on stop]) s' out' ∧ out = out' ++ out'' ∧
      ∀ call ∈ out'', ¬ Starts call

/-- `stop` leads into the states of the kind `Stopped`. These are never left, and nothing of the
kind `Starts` is started in them, by a new call or by one that goes on. -/
structure Stops (p : Program σ ε ρ ι ω) (stop : ε) (Starts : ω → Prop) (Stopped : σ → Prop) :
    Prop where
  stopped : ∀ s r, p.on s stop = some r → Stopped r.1
  on : ∀ s e r, Stopped s → p.on s e = some r → Stopped r.1 ∧ ∀ call ∈ r.2.1, ¬ Starts call
  resume : ∀ s q i r, Stopped s → p.resume s q i = some r →
    Stopped r.1 ∧ ∀ call ∈ r.2.1, ¬ Starts call

variable {p : Program σ ε ρ ι ω} {stop : ε} {Starts : ω → Prop} {Stopped : σ → Prop}

theorem Stops.step (h : p.Stops stop Starts Stopped) {s t : State σ ρ} {e : Event ε ι}
    {o : List ω} (hs : Stopped s.shared) (hstep : p.system.step s e = some (t, o)) :
    Stopped t.shared ∧ ∀ call ∈ o, ¬ Starts call := by
  cases e with
  | on e =>
    obtain ⟨r, hr, heq⟩ := Option.map_eq_some_iff.mp hstep
    cases heq
    exact h.on _ _ _ hs hr
  | resume i result =>
    simp only [system] at hstep
    split at hstep
    · obtain ⟨r, hr, heq⟩ := Option.map_eq_some_iff.mp hstep
      cases heq
      exact h.resume _ _ _ _ hs hr
    · cases hstep

theorem Stops.final (h : p.Stops stop Starts Stopped) : p.Final stop Starts := by
  intro es es' s out hrun
  obtain ⟨s', out', out'', hfirst, hrest, rfl⟩ := hrun.split
  obtain ⟨_, _, _, _, _, hstop, _⟩ := hfirst.last
  obtain ⟨r, hr, heq⟩ := Option.map_eq_some_iff.mp hstop
  have hstopped : Stopped s'.shared := by
    cases heq
    exact h.stopped _ _ hr
  have hquiet : Stopped s.shared ∧ ∀ call ∈ out'', ¬ Starts call := by
    refine hrest.invariant (I := fun s out => Stopped s.shared ∧ ∀ call ∈ out, ¬ Starts call)
      ⟨hstopped, by simp⟩ ?_
    intro s e t out o hs _ hstep
    obtain ⟨ht, ho⟩ := h.step hs.1 hstep
    exact ⟨ht, List.forall_mem_append.mpr ⟨hs.2, ho⟩⟩
  exact ⟨s', out', out'', hfirst, rfl, hquiet.2⟩

theorem count_append (kind : ρ → Bool) (l : List (Option ρ)) (calls : List ρ) :
    (l ++ calls.map some).countP (fun q => q.any kind) =
      l.countP (fun q => q.any kind) + calls.countP kind := by
  rw [List.countP_append, List.countP_map]
  rfl

variable {kind : ρ → Bool} {starts : σ → ε → Bool}

theorem StartsOne.count_resume (h : p.StartsOne kind starts) {s t : State σ ρ} {i : Nat}
    {result : ι} {o : List ω} (hstep : p.system.step s (.resume i result) = some (t, o)) :
    t.count kind ≤ s.count kind := by
  simp only [system] at hstep
  split at hstep
  case h_2 => cases hstep
  rename_i q hi
  obtain ⟨r, hr, heq⟩ := Option.map_eq_some_iff.mp hstep
  cases heq
  obtain ⟨hlt, hq⟩ := List.getElem?_eq_some_iff.mp hi
  have hbefore : (if kind q then 1 else 0) ≤ s.count kind := by
    have hle := List.boole_getElem_le_countP (p := fun q => q.any kind) hlt
    rw [hq] at hle
    exact hle
  have hafter : (if r.2.2.any kind then 1 else 0) ≤ if kind q then 1 else 0 := by
    by_cases hkind : r.2.2.any kind
    · simp only [hkind, h.resume _ _ _ _ hr hkind, if_true, Nat.le_refl]
    · rw [if_neg hkind]
      exact Nat.zero_le _
  unfold State.count at hbefore ⊢
  rw [List.countP_set hlt, hq]
  change _ - (if kind q then 1 else 0) + _ ≤ _
  omega

theorem StartsOne.count_on (h : p.StartsOne kind starts) {s t : State σ ρ} {e : ε} {o : List ω}
    (hstep : p.system.step s (.on e) = some (t, o)) :
    t.count kind = s.count kind + if starts s.shared e then 1 else 0 := by
  obtain ⟨r, hr, heq⟩ := Option.map_eq_some_iff.mp hstep
  cases heq
  rw [← h.on _ _ _ hr]
  exact count_append kind s.suspended r.2.2

theorem StartsOne.apart_iff (h : p.StartsOne kind starts) {s t : State σ ρ} {e : Event ε ι}
    {o : List ω} (hone : s.count kind ≤ 1) (hstep : p.system.step s e = some (t, o)) :
    Apart kind starts s e ↔ t.count kind ≤ 1 := by
  cases e with
  | on e =>
    rw [h.count_on hstep, Apart]
    by_cases hstarts : starts s.shared e = true
    · simp only [hstarts, if_true, true_implies]
      omega
    · simp [hstarts, hone]
  | resume i result => exact iff_of_true trivial (Nat.le_trans (h.count_resume hstep) hone)

theorem alone_cons_iff {s : σ} {q : ρ} {result : ι} {results : List ι} {t : σ × Option ρ}
    {trace : List (Trace ι ω)} :
    (p.alone s (some q)).Run System.any (result :: results) t trace ↔
      ∃ r trace', p.resume s q result = some r ∧
        (p.alone r.1 r.2.2).Run System.any results t trace' ∧
        trace = .ended result :: r.2.1.map .started ++ trace' := by
  rw [System.run_cons_iff]
  constructor
  · rintro ⟨u, o, trace', -, hstep, hrest, rfl⟩
    obtain ⟨r, hr, heq⟩ := Option.map_eq_some_iff.mp hstep
    cases heq
    exact ⟨r, trace', hr, hrest, rfl⟩
  · rintro ⟨r, trace', hr, hrest, rfl⟩
    refine ⟨(r.1, r.2.2), _, trace', trivial, ?_, hrest, rfl⟩
    simp only [alone, hr, Option.map_some]

theorem alone_none_iff {s : σ} {results : List ι} {t : σ × Option ρ} {trace : List (Trace ι ω)} :
    (p.alone s none).Run System.any results t trace ↔ results = [] ∧ t = (s, none) ∧ trace = [] := by
  cases results with
  | nil => simp [System.run_nil_iff, alone]
  | cons result results =>
    simp only [System.run_cons_iff, reduceCtorEq, false_and, iff_false]
    rintro ⟨u, o, trace', -, hstep, -⟩
    cases hstep

theorem calls_ended_started (result : ι) (calls : List ω) :
    (Trace.ended result :: calls.map .started).filterMap Trace.call? = calls := by
  have hcomp : Trace.call? ∘ Trace.started (ι := ι) = fun call : ω => some call := rfl
  rw [List.filterMap_cons_none rfl, List.filterMap_map, hcomp, List.filterMap_some]

theorem run_alone_iff {s t : State σ ρ} {i : Nat} {q : Option ρ} {results : List ι}
    {out : List ω} (hi : s.suspended[i]? = some q) :
    (p.system.restart s).Run System.any (results.map (.resume i)) t out ↔
      ∃ u trace, (p.alone s.shared q).Run System.any results u trace ∧
        t = ⟨u.1, s.suspended.set i u.2⟩ ∧ out = trace.filterMap Trace.call? := by
  induction results generalizing s q out with
  | nil =>
    have hset : s.suspended.set i q = s.suspended := by
      obtain ⟨hlt, rfl⟩ := List.getElem?_eq_some_iff.mp hi
      exact List.set_getElem_self hlt
    simp only [List.map_nil, System.run_nil_iff]
    constructor
    · rintro ⟨rfl, rfl⟩
      exact ⟨_, _, ⟨rfl, rfl⟩, by simp [alone, hset], rfl⟩
    · rintro ⟨_, _, ⟨rfl, rfl⟩, rfl, rfl⟩
      exact ⟨by simp [alone, System.restart, hset], rfl⟩
  | cons result results ih =>
    have hset : ∀ q', (s.suspended.set i q')[i]? = some q' := fun q' =>
      List.getElem?_set_self (List.getElem?_eq_some_iff.mp hi).1
    simp only [List.map_cons, System.run_cons_iff]
    constructor
    · rintro ⟨s', o, out', -, hstep, hrest, rfl⟩
      simp only [System.restart, system, hi] at hstep
      cases q with
      | none => cases hstep
      | some q =>
        obtain ⟨r, hr, heq⟩ := Option.map_eq_some_iff.mp hstep
        cases heq
        obtain ⟨u, trace, hrun, rfl, rfl⟩ := (ih (hset r.2.2)).mp hrest
        refine ⟨u, _, ⟨_, .ended result :: r.2.1.map .started, trace, trivial, ?_, hrun, rfl⟩,
          by rw [List.set_set], ?_⟩
        · simp only [alone, hr, Option.map_some]
        · rw [List.filterMap_append, calls_ended_started]
    · rintro ⟨u, _, ⟨v, o, trace, -, hstep, hrest, rfl⟩, rfl, rfl⟩
      cases q with
      | none => cases hstep
      | some q =>
        obtain ⟨r, hr, heq⟩ := Option.map_eq_some_iff.mp hstep
        cases heq
        refine ⟨⟨r.1, s.suspended.set i r.2.2⟩, r.2.1, trace.filterMap Trace.call?, trivial, ?_, ?_, ?_⟩
        · change p.resume s.shared q result = some r at hr
          simp only [System.restart, system, hi, hr, Option.map_some]
        · exact (ih (hset r.2.2)).mpr ⟨u, trace, hrest, by rw [List.set_set], rfl⟩
        · rw [List.filterMap_append, calls_ended_started]

end Program
end Async
