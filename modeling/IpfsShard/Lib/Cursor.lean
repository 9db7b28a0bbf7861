import IpfsShard.Lib.Loop
import Mathlib.Data.List.TakeWhile

/-! Loops that walk an offset through a list, one item after the other. The width of the
item in front of a suffix is an integer: nothing says that an item reaches forward. -/

namespace Cursor
open Loop

universe u v

variable {α β τ : Type u} {σ : Type v}

/-- No item met on the walk through a list has a width of zero or less, and each of them
satisfies `ok`. The width is `none` where the walk stops. -/
inductive Positive (width : List α → Option Int) (ok : List α → Prop) : List α → Prop where
  | done : Positive width ok []
  | stop {l : List α} : width l = none → Positive width ok l
  | item {l : List α} {n : Nat} : width l = some (n : Int) → 0 < n → ok l →
      Positive width ok (l.drop n) → Positive width ok l

/-- Started in `s₀`, the loop `w` moves its offset through `l` by the widths. -/
structure Follows (width : List α → Option Int) (l : List α) (w : While σ) (off : σ → Int)
    (s₀ : σ) : Prop where
  start : off s₀ = 0
  cond : ∀ s, w.Visits s₀ s → (w.cond s = true ↔ off s < l.length)
  next : ∀ s t, w.Visits s₀ s → w.cond s = true → w.body s = some (.next t) →
    ∀ p : Nat, off s = p → ∃ n, width (l.drop p) = some n ∧ off t = p + n
  exit : ∀ s t, w.Visits s₀ s → w.cond s = true → w.body s = some (.exit t) →
    ∀ p : Nat, off s = p → width (l.drop p) = none

/-- The list is made of segments, and at the front of each of them a pass of `w` brings its
state up to date with the segment and moves the offset behind it. -/
structure Consumes (w : While σ) (enc : β → List α) (place : Nat → τ → σ) (update : τ → β → τ)
    (segs : List β) : Prop where
  cond : ∀ p t, w.cond (place p t) = true ↔ p < (segs.flatMap enc).length
  nonempty : ∀ a ∈ segs, 0 < (enc a).length
  body : ∀ front a back t, segs = front ++ a :: back →
    w.body (place (front.flatMap enc).length t) =
      some (.next (place ((front ++ [a]).flatMap enc).length (update t a)))

/-- The same of the segments at the front of a list: nothing is said of what comes behind. -/
structure Passes (w : While σ) (enc : β → List α) (place : Nat → τ → σ) (update : τ → β → τ)
    (segs : List β) : Prop where
  cond : ∀ p t, p < (segs.flatMap enc).length → w.cond (place p t) = true
  nonempty : ∀ a ∈ segs, 0 < (enc a).length
  body : ∀ front a back t, segs = front ++ a :: back →
    w.body (place (front.flatMap enc).length t) =
      some (.next (place ((front ++ [a]).flatMap enc).length (update t a)))

variable {width : List α → Option Int} {ok : List α → Prop} {l : List α} {w : While σ}
  {off : σ → Int} {s t r : σ}

theorem Positive.step {n : Int} (h : Positive width ok l) (hne : l ≠ []) (hn : width l = some n) :
    ok l ∧ ∃ k : Nat, n = k ∧ 0 < k ∧ Positive width ok (l.drop k) := by
  cases h with
  | done => exact absurd rfl hne
  | stop hs => simp [hs] at hn
  | @item _ k hw hpos hok hrest => exact ⟨hok, k, Option.some.inj (hn.symm.trans hw), hpos, hrest⟩

theorem Positive.mono {ok' : List α → Prop} (hok : ∀ l, ok l → ok' l) (h : Positive width ok l) :
    Positive width ok' l := by
  induction h with
  | done => exact .done
  | stop hs => exact .stop hs
  | item hw hpos hl _ ih => exact .item hw hpos (hok _ hl) ih

theorem Follows.visits (hw : Follows width l w off s) (h : Positive width ok l)
    (hv : w.Visits s t) : ∃ p : Nat, off t = p ∧ Positive width ok (l.drop p) := by
  induction hv with
  | start => exact ⟨0, hw.start, h⟩
  | @next t u hv hc hb ih =>
    obtain ⟨p, hp, hpos⟩ := ih
    have hlt := (hw.cond t hv).mp hc
    obtain ⟨n, hn, hu⟩ := hw.next t u hv hc hb p hp
    obtain ⟨-, k, rfl, -, hrest⟩ := hpos.step (by simp; omega) hn
    exact ⟨p + k, by omega, by rwa [← List.drop_drop]⟩

theorem Follows.advances (hw : Follows width l w off s) (h : Positive width ok l) :
    w.Advances off s := by
  intro t u hv hc hb
  obtain ⟨p, hp, hpos⟩ := hw.visits h hv
  have hlt := (hw.cond t hv).mp hc
  obtain ⟨n, hn, hu⟩ := hw.next t u hv hc hb p hp
  obtain ⟨-, k, rfl, hk, -⟩ := hpos.step (by simp; omega) hn
  omega

theorem Follows.run (hw : Follows width l w off s) (h : Positive width ok l)
    (hbody : ∀ t, w.Visits s t → w.cond t = true → w.body t ≠ none) :
    ∃ r, w.run (l.length + 1) s = some r := by
  have hend := While.ends_of_advances (B := l.length) (fun t hv hc => (hw.cond t hv).mp hc) hbody
    (hw.advances h)
  simpa [hw.start] using hend

theorem Follows.positive (hw : Follows width l w off s) {n : Nat} (hrun : w.run n s = some r)
    (hadv : w.Advances off s)
    (hok : ∀ t, w.Visits s t → w.cond t = true → w.body t ≠ none →
      ∀ p n : Nat, off t = p → width (l.drop p) = some (n : Int) → ok (l.drop p)) :
    Positive width ok l := by
  -- by induction on the passes that are left, from any visited state
  have hfrom : ∀ m t, w.Visits s t → ∀ r, w.run m t = some r → ∀ p : Nat, off t = p →
      Positive width ok (l.drop p) := by
    intro m
    induction m with
    | zero => simp [While.run]
    | succ m ih =>
      intro t hv r hr p hp
      have hcond := hw.cond t hv
      rcases While.run_cases hr with ⟨hc, -⟩ | ⟨hc, hb⟩ | ⟨u, m', hc, hb, hm, hr'⟩
      · rw [List.drop_eq_nil_of_le (by simp [hc] at hcond; omega)]
        exact .done
      · exact .stop (hw.exit t r hv hc hb p hp)
      · obtain rfl : m = m' := by omega
        obtain ⟨n, hn, hu⟩ := hw.next t u hv hc hb p hp
        have hlt := hadv t u hv hc hb
        obtain ⟨k, rfl⟩ : ∃ k : Nat, n = k := ⟨n.toNat, by omega⟩
        refine .item hn (by omega) (hok t hv hc (by simp [hb]) p k hp hn) ?_
        rw [List.drop_drop]
        exact ih u (.next hv hc hb) r hr' (p + k) (by omega)
  simpa using hfrom n s .start r hrun 0 hw.start

theorem Follows.advances_iff (hw : Follows width l w off s) (hbody : ∀ t, w.body t ≠ none) :
    w.Advances off s ↔ Positive width (fun _ => True) l := by
  constructor
  · intro hadv
    obtain ⟨r, hr⟩ := While.ends_of_advances (B := l.length)
      (fun t hv hc => (hw.cond t hv).mp hc) (fun t _ _ => hbody t) hadv
    exact hw.positive hr hadv (fun _ _ _ _ _ _ _ _ => trivial)
  · exact fun h => hw.advances h

theorem Consumes.of_pass {enc : β → List α} {place : Nat → τ → σ} {update : τ → β → τ}
    {segs : List β} (hcond : ∀ p t, w.cond (place p t) = true ↔ p < (segs.flatMap enc).length)
    (hpos : ∀ a ∈ segs, 0 < (enc a).length)
    (hpass : ∀ a ∈ segs, ∀ front back, segs.flatMap enc = front ++ (enc a ++ back) → ∀ t,
      w.body (place front.length t) = some (.next (place (front ++ enc a).length (update t a)))) :
    Consumes w enc place update segs where
  cond := hcond
  nonempty := hpos
  body front a back t hsegs := by
    have hsplit : segs.flatMap enc = front.flatMap enc ++ (enc a ++ back.flatMap enc) := by
      rw [hsegs, List.flatMap_append, List.flatMap_cons]
    have hbody := hpass a (by simp [hsegs]) _ _ hsplit t
    rwa [List.flatMap_append, List.flatMap_singleton]

theorem Consumes.of_offset {enc : β → List α} {place : Nat → τ → σ} {update : τ → β → τ}
    {segs : List β}
    (hcond : ∀ p t, w.cond (place p t) = decide ((p : Int) < (segs.flatMap enc).length))
    (hpos : ∀ a, 0 < (enc a).length)
    (hpass : ∀ a ∈ segs, ∀ front back, segs.flatMap enc = front ++ (enc a ++ back) → ∀ t,
      w.body (place front.length t) = some (.next (place (front ++ enc a).length (update t a)))) :
    Consumes w enc place update segs := by
  apply Consumes.of_pass
  · intro p t
    rw [hcond, decide_eq_true_iff, Int.ofNat_lt]
  · exact fun a _ => hpos a
  · exact hpass

theorem Passes.run {enc : β → List α} {place : Nat → τ → σ} {update : τ → β → τ}
    {segs : List β} (h : Passes w enc place update segs) (t : τ) (n : Nat) :
    w.run (segs.length + n) (place 0 t) =
      w.run n (place (segs.flatMap enc).length (segs.foldl update t)) := by
  -- by induction on the segments that are left, with the others in `front`
  have hfrom : ∀ back front t, segs = front ++ back →
      w.run (back.length + n) (place (front.flatMap enc).length t) =
        w.run n (place (segs.flatMap enc).length (back.foldl update t)) := by
    intro back
    induction back with
    | nil =>
      rintro front t rfl
      rw [List.append_nil, List.length_nil, Nat.zero_add]
      rfl
    | cons a back ih =>
      intro front t hsegs
      have hpos := h.nonempty a (by simp [hsegs])
      have hc := h.cond (front.flatMap enc).length t (by simp [hsegs]; omega)
      rw [List.length_cons, Nat.add_right_comm, While.run_next hc (h.body front a back t hsegs)]
      exact ih (front ++ [a]) (update t a) (by simp [hsegs])
  exact hfrom segs [] t rfl

theorem run_takeWhile (enc : β → List α) (place : Nat → τ → σ) (update : τ → β → τ)
    (handled : β → Bool) {segs : List β}
    (hcond : ∀ p t, w.cond (place p t) = true ↔ p < (segs.flatMap enc).length)
    (hpos : ∀ a ∈ segs, 0 < (enc a).length)
    (hpass : ∀ a ∈ segs, handled a = true → ∀ front back,
      segs.flatMap enc = front ++ (enc a ++ back) → ∀ t,
        w.body (place front.length t) = some (.next (place (front ++ enc a).length (update t a))))
    (hstop : ∀ a ∈ segs, handled a = false → ∀ front back,
      segs.flatMap enc = front ++ (enc a ++ back) → ∀ t, ∃ q,
        w.body (place front.length t) = some (.exit (place q t)))
    (t : τ) {fuel : Nat} (hfuel : segs.length < fuel) :
    ∃ q, w.run fuel (place 0 t) = some (place q ((segs.takeWhile handled).foldl update t)) := by
  have hsplit : segs.takeWhile handled ++ segs.dropWhile handled = segs :=
    List.takeWhile_append_dropWhile
  have hbytes : (segs.takeWhile handled).flatMap enc ++ (segs.dropWhile handled).flatMap enc =
      segs.flatMap enc := by
    rw [← List.flatMap_append, hsplit]
  have hpasses : Passes w enc place update (segs.takeWhile handled) := by
    refine ⟨fun p t hp => ?_, fun a ha => ?_, fun front a back t hsegs => ?_⟩
    · refine (hcond p t).mpr (Nat.lt_of_lt_of_le hp ?_)
      rw [← hbytes, List.length_append]
      exact Nat.le_add_right _ _
    · exact hpos a ((List.takeWhile_prefix handled).subset ha)
    · have ha : a ∈ segs.takeWhile handled := by simp [hsegs]
      have hfront : segs.flatMap enc = front.flatMap enc ++
          (enc a ++ (back.flatMap enc ++ (segs.dropWhile handled).flatMap enc)) := by
        rw [← hbytes, hsegs, List.flatMap_append, List.flatMap_cons, List.append_assoc,
          List.append_assoc]
      have hbody := hpass a ((List.takeWhile_prefix handled).subset ha)
        (List.mem_takeWhile_imp ha) _ _ hfront t
      rwa [List.flatMap_append, List.flatMap_singleton]
  have hlength : (segs.takeWhile handled).length ≤ segs.length :=
    (List.takeWhile_prefix handled).length_le
  obtain ⟨n, rfl⟩ : ∃ n, fuel = (segs.takeWhile handled).length + (n + 1) :=
    ⟨fuel - (segs.takeWhile handled).length - 1, by omega⟩
  rw [hpasses.run]
  generalize (segs.takeWhile handled).foldl update t = t'
  cases hrest : segs.dropWhile handled with
  | nil =>
    rw [hrest, List.flatMap_nil, List.append_nil] at hbytes
    have hend : w.cond (place ((segs.takeWhile handled).flatMap enc).length t') = false := by
      rw [hbytes]
      simpa using (hcond (segs.flatMap enc).length t').not
    exact ⟨_, While.run_of_not_cond hend n⟩
  | cons a rest =>
    have ha : a ∈ segs := by
      rw [← hsplit, hrest]
      simp
    have hnot : handled a = false := by
      have hhead := List.head?_dropWhile_not handled segs
      rwa [hrest] at hhead
    rw [hrest, List.flatMap_cons] at hbytes
    obtain ⟨q, hq⟩ := hstop a ha hnot _ _ hbytes.symm t'
    have hc := (hcond ((segs.takeWhile handled).flatMap enc).length t').mpr (by
      have hlen := hpos a ha
      rw [← hbytes]
      simp only [List.length_append]
      omega)
    exact ⟨q, While.run_exit hc hq n⟩

theorem Consumes.run {enc : β → List α} {place : Nat → τ → σ} {update : τ → β → τ}
    {segs : List β} (h : Consumes w enc place update segs) (t : τ) {fuel : Nat}
    (hfuel : segs.length < fuel) :
    w.run fuel (place 0 t) = some (place (segs.flatMap enc).length (segs.foldl update t)) := by
  have hpasses : Passes w enc place update segs :=
    ⟨fun p t hp => (h.cond p t).mpr hp, h.nonempty, h.body⟩
  have hend : w.cond (place (segs.flatMap enc).length (segs.foldl update t)) = false := by
    simpa using (h.cond (segs.flatMap enc).length (segs.foldl update t)).not
  obtain ⟨n, rfl⟩ : ∃ n, fuel = segs.length + (n + 1) := ⟨fuel - segs.length - 1, by omega⟩
  rw [hpasses.run, While.run_of_not_cond hend]

end Cursor
