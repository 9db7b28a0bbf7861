import Mathlib.Data.List.Induction
import Mathlib.Tactic.Common

/-! Transition systems with outputs, and their runs. `none` says that an event cannot
happen in a state. A run may be restricted to steps of a certain kind. -/

namespace Runs

universe u v w x

structure System (σ : Type u) (ε : Type v) (ω : Type w) where
  init : σ
  step : σ → ε → Option (σ × List ω)

variable {σ : Type u} {ε : Type v} {ω : Type w}

inductive System.Run (T : System σ ε ω) (ok : σ → ε → Prop) : List ε → σ → List ω → Prop where
  | start : Run T ok [] T.init []
  | step {es : List ε} {s t : σ} {e : ε} {out o : List ω} : Run T ok es s out → ok s e →
      T.step s e = some (t, o) → Run T ok (es ++ [e]) t (out ++ o)

namespace System

def any (_ : σ) (_ : ε) : Prop := True

def Into (T : System σ ε ω) (P : σ → Prop) (s : σ) (e : ε) : Prop :=
  ∀ t o, T.step s e = some (t, o) → P t

def Moves (T : System σ ε ω) (R : σ → ε → σ → Prop) (s : σ) (e : ε) : Prop :=
  ∀ t o, T.step s e = some (t, o) → R s e t

def Emits (T : System σ ε ω) (R : σ → List ω → Prop) (s : σ) (e : ε) : Prop :=
  ∀ t o, T.step s e = some (t, o) → R s o

def Always (T : System σ ε ω) (P : σ → List ω → Prop) (es : List ε) : Prop :=
  ∀ es' s out, es' <+: es → T.Run any es' s out → P s out

def exec (T : System σ ε ω) : List ε → σ → List ω → Option (σ × List ω)
  | [], s, out => some (s, out)
  | e :: es, s, out =>
    match T.step s e with
    | none => none
    | some (t, o) => exec T es t (out ++ o)

def relabel {ω' : Type x} (T : System σ ε ω) (view : σ → ε → List ω → List ω') :
    System σ ε ω' where
  init := T.init
  step s e := (T.step s e).map fun r => (r.1, view s e r.2)

variable {T : System σ ε ω} {ok ok' : σ → ε → Prop} {es : List ε} {s : σ} {out : List ω}

theorem Run.mono (hok : ∀ s e, ok s e → ok' s e) (h : T.Run ok es s out) : T.Run ok' es s out := by
  induction h with
  | start => exact .start
  | step _ he hs ih => exact .step ih (hok _ _ he) hs

theorem Run.invariant {I : σ → List ω → Prop} (hinit : I T.init [])
    (hstep : ∀ s e t out o, I s out → ok s e → T.step s e = some (t, o) → I t (out ++ o))
    (h : T.Run ok es s out) : I s out := by
  induction h with
  | start => exact hinit
  | step _ he hs ih => exact hstep _ _ _ _ _ ih he hs

def restart (T : System σ ε ω) (s : σ) : System σ ε ω := { T with init := s }

theorem Run.last {e : ε} (h : T.Run ok (es ++ [e]) s out) : ∃ s' out' o,
    T.Run ok es s' out' ∧ ok s' e ∧ T.step s' e = some (s, o) ∧ out = out' ++ o := by
  generalize hes : es ++ [e] = es' at h
  cases h with
  | start => exact absurd hes (by simp)
  | step hrun he hs =>
    obtain ⟨rfl, hlast⟩ := List.append_inj' hes rfl
    obtain rfl := List.singleton_inj.mp hlast
    exact ⟨_, _, _, hrun, he, hs, rfl⟩

theorem Run.split {es' : List ε} (h : T.Run ok (es ++ es') s out) : ∃ s' out' out'',
    T.Run ok es s' out' ∧ (T.restart s').Run ok es' s out'' ∧ out = out' ++ out'' := by
  induction es' using List.reverseRecOn generalizing s out with
  | nil =>
    rw [List.append_nil] at h
    exact ⟨s, out, [], h, .start, (List.append_nil out).symm⟩
  | append_singleton es' e ih =>
    rw [← List.append_assoc] at h
    obtain ⟨t, outt, o, hrun, he, hs, rfl⟩ := h.last
    obtain ⟨s', out', out'', hfirst, hrest, rfl⟩ := ih hrun
    exact ⟨s', out', out'' ++ o, hfirst, hrest.step he hs, List.append_assoc ..⟩

theorem run_nil_iff : T.Run ok [] s out ↔ s = T.init ∧ out = [] := by
  constructor
  · intro h
    generalize hes : ([] : List ε) = es at h
    cases h with
    | start => exact ⟨rfl, rfl⟩
    | step _ _ _ => simp at hes
  · rintro ⟨rfl, rfl⟩
    exact .start

theorem Run.cons {e : ε} {t : σ} {o : List ω} (he : ok T.init e) (hs : T.step T.init e = some (t, o))
    (h : (T.restart t).Run ok es s out) : T.Run ok (e :: es) s (o ++ out) := by
  induction h with
  | start => simpa [restart] using Run.start.step he hs
  | step _ he' hs' ih =>
    rw [← List.append_assoc]
    exact ih.step he' hs'

theorem run_cons_iff {e : ε} : T.Run ok (e :: es) s out ↔ ∃ t o out', ok T.init e ∧
    T.step T.init e = some (t, o) ∧ (T.restart t).Run ok es s out' ∧ out = o ++ out' := by
  constructor
  · intro h
    rw [← List.singleton_append] at h
    obtain ⟨t, o, out', hfirst, hrest, rfl⟩ := h.split
    rw [← List.nil_append [e]] at hfirst
    obtain ⟨s', out, o', hstart, he, hs, rfl⟩ := hfirst.last
    obtain ⟨rfl, rfl⟩ := run_nil_iff.mp hstart
    exact ⟨t, o', out', he, hs, hrest, by rw [List.nil_append]⟩
  · rintro ⟨t, o, out', he, hs, hrest, rfl⟩
    exact hrest.cons he hs

theorem Run.strengthen {I : σ → Prop} (hinit : I T.init)
    (hstep : ∀ s e t o, I s → ok s e → T.step s e = some (t, o) → I t ∧ ok' s e)
    (h : T.Run ok es s out) : T.Run ok' es s out := by
  have hboth : T.Run ok' es s out ∧ I s := by
    induction h with
    | start => exact ⟨.start, hinit⟩
    | step _ he hs ih =>
      obtain ⟨ht, hok⟩ := hstep _ _ _ _ ih.2 he hs
      exact ⟨.step ih.1 hok hs, ht⟩
  exact hboth.1

theorem Run.alongside {I : σ → Prop} (hI : ∀ es s out, T.Run any es s out → I s)
    (h : T.Run ok es s out) : T.Run (fun s e => I s ∧ ok s e) es s out := by
  induction h with
  | start => exact .start
  | step h he hs ih => exact ih.step ⟨hI _ _ _ (h.mono fun _ _ _ => trivial), he⟩ hs

theorem run_congr {I : σ → Prop} (hI : ∀ es s out, T.Run any es s out → I s)
    (hiff : ∀ s e t o, I s → T.step s e = some (t, o) → (ok s e ↔ ok' s e)) :
    T.Run ok es s out ↔ T.Run ok' es s out := by
  constructor
  · intro h
    refine (h.alongside hI).strengthen (I := fun _ => True) trivial fun s e t o _ he hs => ?_
    exact ⟨trivial, (hiff s e t o he.1 hs).mp he.2⟩
  · intro h
    refine (h.alongside hI).strengthen (I := fun _ => True) trivial fun s e t o _ he hs => ?_
    exact ⟨trivial, (hiff s e t o he.1 hs).mpr he.2⟩

theorem run_iff_moves {I : σ → Prop} {R : σ → ε → σ → Prop}
    (hI : ∀ es s out, T.Run any es s out → I s)
    (hiff : ∀ s e t o, I s → T.step s e = some (t, o) → (ok s e ↔ R s e t)) :
    T.Run ok es s out ↔ T.Run (T.Moves R) es s out := by
  refine run_congr hI fun s e t o hs hstep => (hiff s e t o hs hstep).trans ?_
  constructor
  · intro hR t' o' hstep'
    rw [hstep] at hstep'
    cases hstep'
    exact hR
  · exact fun hR => hR t o hstep

theorem run_iff_emits {I : σ → Prop} {R : σ → List ω → Prop}
    (hI : ∀ es s out, T.Run any es s out → I s)
    (hiff : ∀ s e t o, I s → T.step s e = some (t, o) → (ok s e ↔ R s o)) :
    T.Run ok es s out ↔ T.Run (T.Emits R) es s out := by
  refine run_congr hI fun s e t o hs hstep => (hiff s e t o hs hstep).trans ?_
  constructor
  · intro hR t' o' hstep'
    rw [hstep] at hstep'
    cases hstep'
    exact hR
  · exact fun hR => hR t o hstep

theorem Run.and {s' : σ} {out' : List ω} (h : T.Run ok es s out) (h' : T.Run ok' es s' out') :
    T.Run (fun s e => ok s e ∧ ok' s e) es s out ∧ s' = s ∧ out' = out := by
  induction h generalizing s' out' with
  | start =>
    obtain ⟨rfl, rfl⟩ := run_nil_iff.mp h'
    exact ⟨.start, rfl, rfl⟩
  | step _ he hs ih =>
    obtain ⟨u, out₁, o₁, hrun, he', hs', rfl⟩ := h'.last
    obtain ⟨hboth, rfl, rfl⟩ := ih hrun
    rw [hs] at hs'
    cases hs'
    exact ⟨hboth.step ⟨he, he'⟩ hs, rfl, rfl⟩

theorem Run.into_iff {P : σ → Prop} {base : σ → ε → Prop} (hinit : P T.init)
    (hiff : ∀ s e t o, P s → base s e → T.step s e = some (t, o) → (ok s e ↔ P t))
    (h : T.Run base es s out) : T.Run ok es s out ↔ T.Run (T.Into P) es s out := by
  constructor
  · intro hok
    refine (h.and hok).1.strengthen hinit fun s e t o hP he hs => ?_
    have hPt := (hiff s e t o hP he.1 hs).mp he.2
    refine ⟨hPt, fun t' o' hs' => ?_⟩
    rw [hs] at hs'
    cases hs'
    exact hPt
  · intro hinto
    refine (h.and hinto).1.strengthen hinit fun s e t o hP he hs => ?_
    have hPt := he.2 t o hs
    exact ⟨hPt, (hiff s e t o hP he.1 hs).mpr hPt⟩

theorem run_iff_into {I P : σ → Prop} (hI : ∀ es s out, T.Run any es s out → I s)
    (hinit : P T.init)
    (hiff : ∀ s e t o, I s → P s → T.step s e = some (t, o) → (ok s e ↔ P t)) :
    T.Run ok es s out ↔ T.Run (T.Into P) es s out := by
  have hinto : T.Run any es s out → (T.Run ok es s out ↔ T.Run (T.Into P) es s out) :=
    fun h => (h.alongside hI).into_iff hinit
      fun s e t o hP hs hstep => hiff s e t o hs.1 hP hstep
  constructor
  · exact fun h => (hinto (h.mono fun _ _ _ => trivial)).mp h
  · exact fun h => (hinto (h.mono fun _ _ _ => trivial)).mpr h

/-- Where `ok` says which steps keep `P`, the runs of such steps are the runs in which `P` holds at
all times. -/
theorem Run.always_iff {P : σ → List ω → Prop} (hinit : P T.init [])
    (hiff : ∀ es s e t out o, T.Run any es s out → P s out → T.step s e = some (t, o) →
      (ok s e ↔ P t (out ++ o)))
    (h : T.Run any es s out) : T.Run ok es s out ↔ T.Always P es := by
  induction h with
  | start =>
    refine iff_of_true .start fun es' s out hle hrun => ?_
    obtain rfl := List.prefix_nil.mp hle
    obtain ⟨rfl, rfl⟩ := run_nil_iff.mp hrun
    exact hinit
  | @step es s t e out o hrun he hs ih =>
    constructor
    · intro hok es' s' out' hle hrun'
      obtain ⟨u, out₁, o₁, hfirst, hoke, hs₁, heq⟩ := hok.last
      obtain ⟨-, rfl, rfl⟩ := hrun.and hfirst
      have hbefore := ih.mp hfirst
      rcases List.prefix_concat_iff.mp hle with rfl | hle
      · obtain ⟨-, rfl, rfl⟩ := (hrun.step he hs).and hrun'
        exact (hiff _ _ _ _ _ _ hrun (hbefore es _ _ (List.prefix_refl es) hrun) hs).mp hoke
      · exact hbefore es' s' out' hle hrun'
    · intro halways
      have hfirst := ih.mpr fun es' s' out' hle =>
        halways es' s' out' (hle.trans (List.prefix_append es [e]))
      have hP := halways es s out (List.prefix_append es [e]) hrun
      have hPt := halways (es ++ [e]) t _ (List.prefix_refl _) (hrun.step he hs)
      exact hfirst.step ((hiff _ _ _ _ _ _ hrun hP hs).mpr hPt) hs

theorem Run.outputs_iff {I : σ → Prop} {base : ε → Prop} {P : ω → Prop} (hinit : I T.init)
    (hstep : ∀ s e t o, I s → base e → T.step s e = some (t, o) →
      I t ∧ (ok s e ↔ ∀ x ∈ o, P x))
    (hes : ∀ e ∈ es, base e) (h : T.Run any es s out) : T.Run ok es s out ↔ ∀ x ∈ out, P x := by
  constructor
  · intro hok
    have hboth : I s ∧ ∀ x ∈ out, P x := by
      induction hok with
      | start => exact ⟨hinit, by simp⟩
      | step hrun he hs ih =>
        obtain ⟨hI, hP⟩ := ih (fun e he => hes e (by simp [he])) (hrun.mono fun _ _ _ => trivial)
        obtain ⟨ht, hiff⟩ := hstep _ _ _ _ hI (hes _ (by simp)) hs
        exact ⟨ht, List.forall_mem_append.mpr ⟨hP, hiff.mp he⟩⟩
    exact hboth.2
  · intro hP
    have hboth : I s ∧ T.Run ok es s out := by
      induction h with
      | start => exact ⟨hinit, .start⟩
      | step _ _ hs ih =>
        obtain ⟨hold, hnew⟩ := List.forall_mem_append.mp hP
        obtain ⟨hI, hrun⟩ := ih (fun e he => hes e (by simp [he])) hold
        obtain ⟨ht, hiff⟩ := hstep _ _ _ _ hI (hes _ (by simp)) hs
        exact ⟨ht, hrun.step (hiff.mpr hnew) hs⟩
    exact hboth.2

theorem Run.exec {es' : List ε} {t : σ} {out' : List ω} (h : T.Run any es s out)
    (he : T.exec es' s out = some (t, out')) : T.Run any (es ++ es') t out' := by
  induction es' generalizing es s out with
  | nil =>
    cases he
    simpa using h
  | cons e es' ih =>
    rw [System.exec] at he
    split at he
    · cases he
    · rename_i hs
      simpa using ih (h.step trivial hs) he

theorem exec_cons_iff {e : ε} {r : σ × List ω} : T.exec (e :: es) s out = some r ↔
    ∃ t o, T.step s e = some (t, o) ∧ T.exec es t (out ++ o) = some r := by
  rw [System.exec]
  split
  · simp [*]
  · rename_i t o hs
    constructor
    · exact fun h => ⟨t, o, hs, h⟩
    · rintro ⟨t', o', hs', h⟩
      rw [hs] at hs'
      cases hs'
      exact h

theorem exec_invariant {I : σ → Prop} {t : σ} {out' : List ω} (hs : I s)
    (hstep : ∀ e ∈ es, ∀ s t o, I s → T.step s e = some (t, o) → I t)
    (h : T.exec es s out = some (t, out')) : I t := by
  induction es generalizing s out with
  | nil =>
    obtain rfl : s = t := congrArg Prod.fst (Option.some.inj h)
    exact hs
  | cons e es ih =>
    obtain ⟨u, o, hu, hrest⟩ := exec_cons_iff.mp h
    exact ih (hstep e (List.mem_cons_self ..) s u o hs hu)
      (fun e he => hstep e (List.mem_cons_of_mem _ he)) hrest

theorem exists_run (es : List ε) {p : σ × List ω → Prop} [DecidablePred p]
    (h : (T.exec es T.init []).any (fun r => decide (p r)) = true) :
    ∃ s out, T.Run any es s out ∧ p (s, out) := by
  cases he : T.exec es T.init [] with
  | none => simp [he] at h
  | some r =>
    rw [he, Option.any_some, decide_eq_true_eq] at h
    exact ⟨r.1, r.2, by simpa using Run.start.exec he, h⟩

/-- Where a step of the kind `drives` is always possible that brings the system nearer to `quiet`,
every run can be continued by such steps until it is quiet, with all that they keep. -/
theorem Run.exists_quiet {I J quiet : σ → Prop} {drives : ε → Prop} (measure : σ → Nat)
    (hI : ∀ es s out, T.Run ok es s out → I s)
    (hkeep : ∀ s e t o, I s → drives e → ok s e → T.step s e = some (t, o) → J s → J t)
    (hnear : ∀ s, I s → ¬ quiet s → ∃ e t o, ok s e ∧ drives e ∧ T.step s e = some (t, o) ∧
      measure t < measure s)
    (h : T.Run ok es s out) (hJ : J s) : ∃ es' t out', T.Run ok (es ++ es') t out' ∧
      (quiet t ∧ J t) ∧ ∀ e ∈ es', drives e := by
  induction hn : measure s using Nat.strongRecOn generalizing es s out with
  | _ n ih =>
    by_cases hquiet : quiet s
    · exact ⟨[], s, out, by rwa [List.append_nil], ⟨hquiet, hJ⟩, by simp⟩
    · have hs' := hI es s out h
      obtain ⟨e, t, o, he, hdrives, hs, hlt⟩ := hnear s hs' hquiet
      obtain ⟨es', u, out', hrun, hu, hes'⟩ := ih (measure t) (hn ▸ hlt) (h.step he hs)
        (hkeep s e t o hs' hdrives he hs hJ) rfl
      refine ⟨e :: es', u, out', ?_, hu, List.forall_mem_cons.mpr ⟨hdrives, hes'⟩⟩
      rwa [List.append_assoc] at hrun

def guarded (T : System σ ε ω) (ok : σ → ε → Prop) [∀ s e, Decidable (ok s e)] :
    System σ ε ω where
  init := T.init
  step s e := if ok s e then T.step s e else none

theorem Run.of_guarded [∀ s e, Decidable (ok s e)] (h : (T.guarded ok).Run any es s out) :
    T.Run ok es s out := by
  induction h with
  | start => exact .start
  | @step es s t e out o _ _ hs ih =>
    by_cases he : ok s e
    · exact ih.step he (by simpa only [guarded, if_pos he] using hs)
    · simp [guarded, he] at hs

end System
end Runs
