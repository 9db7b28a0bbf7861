import Mathlib.Tactic.Common

/-! `while` loops over an explicit state, run with fuel. A loop that needs more
passes than its fuel allows, or whose body does not return, gives `none`; a loop
ends in `r` when some amount of fuel gives `r`. -/

namespace Loop

universe u v

/-- How one pass through the body of a loop ends: by going round again or by `break`. -/
inductive Pass (σ : Type u) where
  | next (s : σ)
  | exit (s : σ)

/-- `while (cond) body`. The body is `none` where something it calls does not return. -/
structure While (σ : Type u) where
  cond : σ → Bool
  body : σ → Option (Pass σ)

namespace While

variable {σ : Type u} {τ : Type v}

def run (w : While σ) : Nat → σ → Option σ
  | 0, _ => none
  | n + 1, s =>
    if w.cond s then
      match w.body s with
      | none => none
      | some (.next t) => run w n t
      | some (.exit t) => some t
    else some s

def Ends (w : While σ) (s r : σ) : Prop := ∃ n, w.run n s = some r

/-- The states in which the condition of the loop is evaluated when it starts in `s`. -/
inductive Visits (w : While σ) (s : σ) : σ → Prop where
  | start : Visits w s s
  | next {t u : σ} : Visits w s t → w.cond t = true → w.body t = some (.next u) → Visits w s u

def Advances (w : While σ) (m : σ → Int) (s : σ) : Prop :=
  ∀ t u, w.Visits s t → w.cond t = true → w.body t = some (.next u) → m t < m u

variable {w w' : While σ} {s t u r : σ}

theorem run_of_not_cond (h : w.cond s = false) (n : Nat) : w.run (n + 1) s = some s := by
  simp [run, h]

theorem run_next (hc : w.cond s = true) (hb : w.body s = some (.next t)) (n : Nat) :
    w.run (n + 1) s = w.run n t := by
  simp [run, hc, hb]

theorem run_exit (hc : w.cond s = true) (hb : w.body s = some (.exit t)) (n : Nat) :
    w.run (n + 1) s = some t := by
  simp [run, hc, hb]

theorem run_stuck (hc : w.cond s = true) (hb : w.body s = none) (n : Nat) :
    w.run (n + 1) s = none := by
  simp [run, hc, hb]

theorem run_mono (hcond : w.cond = w'.cond)
    (hbody : ∀ t p, w.body t = some p → w'.body t = some p) {n m : Nat} (hnm : n ≤ m)
    (h : w.run n s = some r) : w'.run m s = some r := by
  induction n generalizing s m with
  | zero => simp [run] at h
  | succ n ih =>
    obtain ⟨m, rfl⟩ : ∃ k, m = k + 1 := ⟨m - 1, by omega⟩
    cases hc : w.cond s with
    | false =>
      rw [run_of_not_cond hc] at h
      rw [run_of_not_cond (hcond ▸ hc), h]
    | true =>
      have hc' : w'.cond s = true := hcond ▸ hc
      cases hb : w.body s with
      | none => simp [run_stuck hc hb] at h
      | some p =>
        cases p with
        | next t =>
          rw [run_next hc hb] at h
          rw [run_next hc' (hbody _ _ hb)]
          exact ih (by omega) h
        | exit t =>
          rw [run_exit hc hb] at h
          rw [run_exit hc' (hbody _ _ hb), h]

theorem run_fuel {n m : Nat} (hnm : n ≤ m) (h : w.run n s = some r) : w.run m s = some r :=
  run_mono rfl (fun _ _ h => h) hnm h

theorem ends_of_not_cond (h : w.cond s = false) : w.Ends s s := ⟨1, run_of_not_cond h 0⟩

theorem ends_exit (hc : w.cond s = true) (hb : w.body s = some (.exit t)) : w.Ends s t :=
  ⟨1, run_exit hc hb 0⟩

theorem ends_next (hc : w.cond s = true) (hb : w.body s = some (.next t)) (h : w.Ends t r) :
    w.Ends s r := by
  obtain ⟨n, hn⟩ := h
  exact ⟨n + 1, by rw [run_next hc hb, hn]⟩

theorem run_cases {n : Nat} (h : w.run n s = some r) :
    (w.cond s = false ∧ r = s) ∨ (w.cond s = true ∧ w.body s = some (.exit r)) ∨
      ∃ t m, w.cond s = true ∧ w.body s = some (.next t) ∧ n = m + 1 ∧ w.run m t = some r := by
  cases n with
  | zero => simp [run] at h
  | succ n =>
    cases hc : w.cond s with
    | false =>
      rw [run_of_not_cond hc] at h
      exact Or.inl ⟨rfl, (Option.some.inj h).symm⟩
    | true =>
      cases hb : w.body s with
      | none => simp [run_stuck hc hb] at h
      | some p =>
        cases p with
        | next t => exact Or.inr (Or.inr ⟨t, n, rfl, rfl, rfl, by rwa [run_next hc hb] at h⟩)
        | exit t =>
          rw [run_exit hc hb] at h
          exact Or.inr (Or.inl ⟨rfl, by rw [Option.some.inj h]⟩)

theorem Visits.head (hc : w.cond s = true) (hb : w.body s = some (.next t))
    (h : w.Visits t u) : w.Visits s u := by
  induction h with
  | start => exact .next .start hc hb
  | next _ hc' hb' ih => exact .next ih hc' hb'

theorem Visits.invariant {I : σ → Prop} (hs : I s)
    (hI : ∀ t u, I t → w.cond t = true → w.body t = some (.next u) → I u)
    (h : w.Visits s u) : I u := by
  induction h with
  | start => exact hs
  | next _ hc hb ih => exact hI _ _ ih hc hb

theorem Visits.run (h : w.Visits s u) {n : Nat} (hrun : w.run n s = some r) :
    ∃ m, w.run m u = some r := by
  induction h with
  | start => exact ⟨n, hrun⟩
  | @next t u _ hc hb ih =>
    obtain ⟨m, hm⟩ := ih
    rcases run_cases hm with ⟨hc', -⟩ | ⟨-, hb'⟩ | ⟨t', m', -, hb', -, hr⟩
    · rw [hc] at hc'
      cases hc'
    · rw [hb] at hb'
      cases hb'
    · rw [hb] at hb'
      cases hb'
      exact ⟨m', hr⟩

theorem Ends.visits (h : w.Ends s r) :
    (w.Visits s r ∧ w.cond r = false) ∨
      ∃ t, w.Visits s t ∧ w.cond t = true ∧ w.body t = some (.exit r) := by
  obtain ⟨n, hn⟩ := h
  induction n generalizing s with
  | zero => simp [run] at hn
  | succ n ih =>
    rcases run_cases hn with ⟨hc, rfl⟩ | ⟨hc, hb⟩ | ⟨t, m, hc, hb, hm, hr⟩
    · exact Or.inl ⟨.start, hc⟩
    · exact Or.inr ⟨s, .start, hc, hb⟩
    · obtain rfl : n = m := by omega
      rcases ih hr with ⟨hv, hcr⟩ | ⟨t', hv, hct, hbt⟩
      · exact Or.inl ⟨hv.head hc hb, hcr⟩
      · exact Or.inr ⟨t', hv.head hc hb, hct, hbt⟩

theorem Advances.next {m : σ → Int} (h : w.Advances m s) (hc : w.cond s = true)
    (hb : w.body s = some (.next t)) : w.Advances m t :=
  fun _ _ hv => h _ _ (hv.head hc hb)

theorem Advances.lt {m : σ → Int} (h : w.Advances m s) (hc : w.cond s = true)
    (hb : w.body s = some (.next t)) : m s < m t := h _ _ .start hc hb

theorem ends_of_advances {m : σ → Int} {B : Int}
    (hB : ∀ t, w.Visits s t → w.cond t = true → m t < B)
    (hbody : ∀ t, w.Visits s t → w.cond t = true → w.body t ≠ none) (h : w.Advances m s) :
    ∃ r, w.run ((B - m s).toNat + 1) s = some r := by
  -- by the distance to the bound
  induction hk : (B - m s).toNat using Nat.strongRecOn generalizing s with
  | ind k ih =>
    subst hk
    cases hc : w.cond s with
    | false => exact ⟨s, run_of_not_cond hc _⟩
    | true =>
      cases hb : w.body s with
      | none => exact absurd hb (hbody s .start hc)
      | some p =>
        cases p with
        | exit t => exact ⟨t, run_exit hc hb _⟩
        | next t =>
          have hlt := h.lt hc hb
          have hs := hB s .start hc
          obtain ⟨r, hr⟩ := ih (B - m t).toNat (by omega) (fun t' hv => hB t' (hv.head hc hb))
            (fun t' hv => hbody t' (hv.head hc hb)) (h.next hc hb) rfl
          exact ⟨r, by rw [run_next hc hb]; exact run_fuel (by omega) hr⟩

theorem run_eq_none {I : σ → Prop}
    (hI : ∀ t, I t → w.cond t = true ∧
      (w.body t = none ∨ ∃ u, w.body t = some (.next u) ∧ I u)) (hs : I s) (n : Nat) :
    w.run n s = none := by
  induction n generalizing s with
  | zero => rfl
  | succ n ih =>
    obtain ⟨hc, hb | ⟨u, hb, hu⟩⟩ := hI s hs
    · exact run_stuck hc hb n
    · rw [run_next hc hb]
      exact ih hu

end While
end Loop
