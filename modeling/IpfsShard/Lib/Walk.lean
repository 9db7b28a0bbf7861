import IpfsShard.Lib.Loop
import Mathlib.Algebra.Order.BigOperators.Group.List
import Mathlib.Combinatorics.Pigeonhole
import Mathlib.Data.Int.Interval

/-! Walks: loops with an offset that alone decides where the next pass starts. Within bounds
such a loop ends exactly if it never comes back to an offset, and where each pass adds a width to
the offset, if no widths that it adds one after the other cancel out. -/

namespace Walk
open Loop

universe u

section
variable (next : Int → Option Int)

/-- Where pass number `n` starts; `none` when the walk has ended before. -/
def position : Nat → Option Int
  | 0 => some 0
  | n + 1 => (position n).bind next

def NeverReturns : Prop :=
  ∀ i j p, position next i = some p → position next j = some p → i = j

/-- The loop `w`, started in `s₀`, walks by `next`. -/
structure Walks {σ : Type u} (w : While σ) (off : σ → Int) (s₀ : σ) : Prop where
  start : off s₀ = 0
  stop : ∀ s, w.Visits s₀ s → w.cond s = false → next (off s) = none
  goes : ∀ s t, w.Visits s₀ s → w.cond s = true → w.body s = some (.next t) →
    next (off s) = some (off t)
  exit : ∀ s t, w.Visits s₀ s → w.cond s = true → w.body s = some (.exit t) →
    next (off s) = none

end

section
variable (width : Int → Option Int)

def behind (p : Int) : Option Int := (width p).map (p + ·)

/-- The widths `ws`, one behind the other, lead from `p` to `q`. -/
inductive Strides : Int → List Int → Int → Prop where
  | nil (p : Int) : Strides p [] p
  | cons {p q w : Int} {ws : List Int} : width p = some w → Strides (p + w) ws q →
      Strides p (w :: ws) q

/-- No widths that are met one behind the other add up to zero. -/
def NoneCancel : Prop :=
  ∀ ws p vs q, Strides width 0 ws p → Strides width p vs q → vs ≠ [] → vs.sum ≠ 0

def AllPositive : Prop := ∀ ws p, Strides width 0 ws p → ∀ w ∈ ws, 0 < w

end

variable {next width : Int → Option Int} {n m i j : Nat} {p q : Int} {ws vs : List Int}

theorem position_succ (h : position next n = some p) : position next (n + 1) = next p := by
  rw [position, h]
  rfl

theorem position_add (hij : position next i = position next j) (n : Nat) :
    position next (i + n) = position next (j + n) := by
  induction n with
  | zero => exact hij
  | succ n ih =>
    show (position next (i + n)).bind next = (position next (j + n)).bind next
    rw [ih]

theorem position_none_add (h : position next n = none) (m : Nat) :
    position next (n + m) = none := by
  induction m with
  | zero => exact h
  | succ m ih =>
    show (position next (n + m)).bind next = none
    rw [ih]
    rfl

theorem position_some_of_le (h : position next m ≠ none) (hnm : n ≤ m) :
    ∃ p, position next n = some p := by
  by_contra hnone
  have hn : position next n = none := by
    cases hp : position next n with
    | none => rfl
    | some p => exact absurd ⟨p, hp⟩ hnone
  have hm := position_none_add hn (m - n)
  rw [Nat.add_sub_cancel' hnm] at hm
  exact h hm

theorem exists_next_of_lt (h : position next m ≠ none) (hnm : n < m) :
    ∃ p q, position next n = some p ∧ next p = some q := by
  obtain ⟨p, hp⟩ := position_some_of_le h (Nat.le_of_lt hnm)
  obtain ⟨q, hq⟩ := position_some_of_le h (Nat.succ_le_of_lt hnm)
  exact ⟨p, q, hp, (position_succ hp).symm.trans hq⟩

theorem neverReturns_of_not_lt
    (h : ∀ i j p, position next i = some p → position next j = some p → ¬ i < j) :
    NeverReturns next := by
  intro i j p hi hj
  exact Nat.le_antisymm (Nat.le_of_not_lt (h j i p hj hi)) (Nat.le_of_not_lt (h i j p hi hj))

theorem neverReturns_of_ended (h : position next n = none) : NeverReturns next := by
  refine neverReturns_of_not_lt fun i j p hi hj hij => ?_
  -- from a position that is met again the walk goes round for ever
  have hround : ∀ m, position next (i + m * (j - i)) = some p := by
    intro m
    induction m with
    | zero => rw [Nat.zero_mul, Nat.add_zero, hi]
    | succ m ih =>
      have hstep := position_add (hi.trans hj.symm) (m * (j - i))
      rw [Nat.succ_mul, Nat.add_comm (m * (j - i)), ← Nat.add_assoc,
        Nat.add_sub_cancel' (Nat.le_of_lt hij), ← hstep, ih]
  have hle : n ≤ i + n * (j - i) :=
    Nat.le_add_left_of_le (Nat.le_mul_of_pos_right n (Nat.sub_pos_of_lt hij))
  have hnone := position_none_add h (i + n * (j - i) - n)
  rw [Nat.add_sub_cancel' hle, hround] at hnone
  cases hnone

theorem Strides.append {r : Int} (h : Strides width p ws q) (h' : Strides width q vs r) :
    Strides width p (ws ++ vs) r := by
  induction h with
  | nil => exact h'
  | cons hw _ ih => exact .cons hw (ih h')

theorem Strides.eq_add_sum (h : Strides width p ws q) : q = p + ws.sum := by
  induction h with
  | nil => simp
  | cons _ _ ih => rw [ih, List.sum_cons, Int.add_assoc]

theorem Strides.position (h : Strides width p ws q) (hi : position (behind width) i = some p) :
    position (behind width) (i + ws.length) = some q := by
  induction h generalizing i with
  | nil => exact hi
  | @cons p q w ws hw _ ih =>
    have hnext : Walk.position (behind width) (i + 1) = some (p + w) := by
      rw [position_succ hi, behind, hw]
      rfl
    rw [List.length_cons, Nat.add_comm ws.length, ← Nat.add_assoc]
    exact ih hnext

theorem exists_strides (hi : position (behind width) i = some p)
    (hq : position (behind width) (i + n) = some q) :
    ∃ vs, vs.length = n ∧ Strides width p vs q := by
  induction n generalizing q with
  | zero =>
    obtain rfl : p = q := Option.some.inj (hi.symm.trans hq)
    exact ⟨[], rfl, .nil p⟩
  | succ n ih =>
    obtain ⟨r, hr, hnext⟩ := Option.bind_eq_some_iff.mp hq
    obtain ⟨w, hw, rfl⟩ := Option.map_eq_some_iff.mp hnext
    obtain ⟨vs, rfl, hvs⟩ := ih hr
    exact ⟨vs ++ [w], List.length_append, hvs.append (.cons hw (.nil _))⟩

theorem strides_iff : (∃ ws, Strides width 0 ws p) ↔ ∃ i, position (behind width) i = some p := by
  constructor
  · rintro ⟨ws, h⟩
    exact ⟨0 + ws.length, h.position rfl⟩
  · rintro ⟨i, hi⟩
    obtain ⟨ws, -, h⟩ := exists_strides (i := 0) rfl ((Nat.zero_add i).symm ▸ hi)
    exact ⟨ws, h⟩

theorem neverReturns_iff : NeverReturns (behind width) ↔ NoneCancel width := by
  constructor
  · intro h ws p vs q hws hvs hne hsum
    have hp := hws.position (i := 0) rfl
    have hq := hvs.position hp
    rw [hvs.eq_add_sum, hsum, Int.add_zero] at hq
    have hlength := h _ _ p hp hq
    exact hne (List.length_eq_zero_iff.mp (by omega))
  · intro h
    refine neverReturns_of_not_lt fun i j p hi hj hij => ?_
    obtain ⟨ws, hws⟩ := strides_iff.mpr ⟨i, hi⟩
    obtain ⟨vs, hlength, hvs⟩ := exists_strides hi
      ((Nat.add_sub_cancel' (Nat.le_of_lt hij)).symm ▸ hj)
    refine h ws p vs p hws hvs ?_ ?_
    · rintro rfl
      rw [List.length_nil] at hlength
      omega
    · have hsum := hvs.eq_add_sum
      omega

theorem AllPositive.noneCancel (h : AllPositive width) : NoneCancel width := by
  intro ws p vs q hws hvs hne
  have hpos : ∀ w ∈ vs, 0 < w := fun w hw =>
    h _ q (hws.append hvs) w (List.mem_append_right ws hw)
  exact ne_of_gt (List.sum_pos vs hpos hne)

theorem ended_of_neverReturns {L B : Int} (hL : ∀ i p, position next i = some p → L ≤ p)
    (hB : ∀ p, next p ≠ none → p < B) (h : NeverReturns next) :
    position next ((B - L).toNat + 1) = none := by
  by_contra hend
  have hsome : ∀ i ∈ Finset.range ((B - L).toNat + 1),
      (position next i).getD 0 ∈ Finset.Ico L B ∧
        position next i = some ((position next i).getD 0) := by
    intro i hi
    obtain ⟨p, q, hp, hnext⟩ := exists_next_of_lt hend (Finset.mem_range.mp hi)
    rw [hp]
    exact ⟨Finset.mem_Ico.mpr ⟨hL i p hp, hB p (by simp [hnext])⟩, rfl⟩
  obtain ⟨i, hi, j, hj, hne, heq⟩ := Finset.exists_ne_map_eq_of_card_lt_of_maps_to
    (s := Finset.range ((B - L).toNat + 1)) (t := Finset.Ico L B)
    (f := fun i => (position next i).getD 0) (by simp)
    (fun i hi => (hsome i hi).1)
  have hpi := (hsome i hi).2
  have hpj := (hsome j hj).2
  have heq' : (position next i).getD 0 = (position next j).getD 0 := heq
  rw [← heq'] at hpj
  exact hne (h i j _ hpi hpj)

namespace Walks

variable {σ : Type u} {w : While σ} {off : σ → Int} {s₀ s t r : σ}

theorem of_body (start : off s₀ = 0) (stop : ∀ s, w.cond s = false → next (off s) = none)
    (hbody : ∀ s pass, w.cond s = true → w.body s = some pass →
      (∃ t, pass = .next t ∧ next (off s) = some (off t)) ∨
        ∃ t, pass = .exit t ∧ next (off s) = none) : Walks next w off s₀ where
  start := start
  stop s _ hc := stop s hc
  goes s t _ hc hb := by
    rcases hbody s _ hc hb with ⟨u, hu, hnext⟩ | ⟨u, hu, -⟩
    · obtain rfl := Pass.next.inj hu
      exact hnext
    · cases hu
  exit s t _ hc hb := by
    rcases hbody s _ hc hb with ⟨u, hu, -⟩ | ⟨u, -, hnext⟩
    · cases hu
    · exact hnext

theorem visits (h : Walks next w off s₀) (hv : w.Visits s₀ s) :
    ∃ n, position next n = some (off s) := by
  induction hv with
  | start => exact ⟨0, congrArg some h.start.symm⟩
  | @next t u hv hc hb ih =>
    obtain ⟨n, hn⟩ := ih
    exact ⟨n + 1, (position_succ hn).trans (h.goes t u hv hc hb)⟩

theorem run (h : Walks next w off s₀)
    (hbody : ∀ s, w.Visits s₀ s → w.cond s = true → w.body s ≠ none)
    (hend : position next n = none) : ∃ r, w.run n s₀ = some r := by
  have hfrom : ∀ n i s, w.Visits s₀ s → position next i = some (off s) →
      position next (i + n) = none → ∃ r, w.run n s = some r := by
    intro n
    induction n with
    | zero =>
      intro i s _ hi hend
      rw [Nat.add_zero, hi] at hend
      cases hend
    | succ n ih =>
      intro i s hv hi hend
      cases hc : w.cond s with
      | false => exact ⟨s, While.run_of_not_cond hc n⟩
      | true =>
        cases hb : w.body s with
        | none => exact absurd hb (hbody s hv hc)
        | some pass =>
          cases pass with
          | exit t => exact ⟨t, While.run_exit hc hb n⟩
          | next t =>
            rw [While.run_next hc hb]
            have hnext := (position_succ hi).trans (h.goes s t hv hc hb)
            exact ih (i + 1) t (.next hv hc hb) hnext (by rwa [Nat.add_right_comm])
  exact hfrom n 0 s₀ .start (congrArg some h.start.symm) (by rwa [Nat.zero_add])

theorem ended (h : Walks next w off s₀) (hrun : w.run n s₀ = some r) :
    position next n = none := by
  have hfrom : ∀ n i s, w.Visits s₀ s → position next i = some (off s) →
      w.run n s = some r → position next (i + n) = none := by
    intro n
    induction n with
    | zero => simp [While.run]
    | succ n ih =>
      intro i s hv hi hrun
      have hnext : position next (i + 1) = next (off s) := position_succ hi
      have hlast : next (off s) = none → position next (i + (n + 1)) = none := by
        intro hnone
        rw [Nat.add_comm n, ← Nat.add_assoc]
        exact position_none_add (hnext.trans hnone) n
      rcases While.run_cases hrun with ⟨hc, -⟩ | ⟨hc, hb⟩ | ⟨t, m, hc, hb, hm, hr⟩
      · exact hlast (h.stop s hv hc)
      · exact hlast (h.exit s r hv hc hb)
      · obtain rfl : n = m := Nat.succ.inj hm
        rw [Nat.add_comm n, ← Nat.add_assoc]
        exact ih (i + 1) t (.next hv hc hb) (hnext.trans (h.goes s t hv hc hb)) hr
  simpa using hfrom n 0 s₀ .start (congrArg some h.start.symm) hrun

theorem exists_visits (h : Walks next w off s₀) (hrun : w.run n s₀ = some r)
    (hi : position next i = some p) :
    ∃ s, w.Visits s₀ s ∧ off s = p ∧ (w.cond s = true → w.body s ≠ none) := by
  have hbody : ∀ s, w.Visits s₀ s → w.cond s = true → w.body s ≠ none := by
    intro s hv hc hb
    obtain ⟨m, hm⟩ := hv.run hrun
    rcases While.run_cases hm with ⟨hc', -⟩ | ⟨-, hb'⟩ | ⟨t, m', -, hb', -, -⟩
    · rw [hc] at hc'
      cases hc'
    · rw [hb] at hb'
      cases hb'
    · rw [hb] at hb'
      cases hb'
  induction i generalizing p with
  | zero => exact ⟨s₀, .start, h.start.trans (Option.some.inj hi), hbody s₀ .start⟩
  | succ i ih =>
    obtain ⟨q, hq, hnext⟩ := Option.bind_eq_some_iff.mp hi
    obtain ⟨s, hv, rfl, -⟩ := ih hq
    cases hc : w.cond s with
    | false =>
      rw [h.stop s hv hc] at hnext
      cases hnext
    | true =>
      cases hb : w.body s with
      | none => exact absurd hb (hbody s hv hc)
      | some pass =>
        cases pass with
        | exit t =>
          rw [h.exit s t hv hc hb] at hnext
          cases hnext
        | next t =>
          have hv' : w.Visits s₀ t := .next hv hc hb
          rw [h.goes s t hv hc hb] at hnext
          exact ⟨t, hv', Option.some.inj hnext, hbody t hv'⟩

end Walks
end Walk
