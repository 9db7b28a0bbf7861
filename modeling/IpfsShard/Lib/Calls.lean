import Mathlib.Data.List.Count
import Mathlib.Data.List.Induction
import Mathlib.Tactic.Common

/-! Calls in flight: a list of calls, numbered in the order in which they start. A new call comes
at the end, and a call that goes on is changed in its place. -/

namespace Calls

universe u v

def own {κ : Type v} {α : Type u} [DecidableEq κ] (k : κ) (out : List (κ × α)) : List α :=
  (out.filter (·.1 = k)).map (·.2)

variable {α : Type u} {l : List α} {f : α → α} {a b : α} {i j : Nat}

theorem getElem?_concat : (l ++ [a])[i]? = some b ↔ l[i]? = some b ∨ i = l.length ∧ a = b := by
  rcases Nat.lt_trichotomy i l.length with h | rfl | h
  · rw [List.getElem?_append_left h]
    simp [Nat.ne_of_lt h]
  · simp
  · rw [List.getElem?_eq_none (by simp; omega), List.getElem?_eq_none (by omega)]
    simp [Nat.ne_of_gt h]

theorem getElem?_modify (h : l[i]? = some a) : (l.modify i f)[j]? = some b ↔
    (j = i ∧ f a = b) ∨ (j ≠ i ∧ l[j]? = some b) := by
  by_cases hj : j = i
  · subst hj
    simp [h]
  · simp [hj, Ne.symm hj]

theorem exists_of_getElem?_modify {β : Type v} {g : α → β} (h : l[i]? = some a)
    (hg : g (f a) = g a) (hb : (l.modify i f)[j]? = some b) : ∃ c, l[j]? = some c ∧ g b = g c := by
  rcases (getElem?_modify h).mp hb with ⟨rfl, rfl⟩ | ⟨-, hb⟩
  · exact ⟨a, h, hg⟩
  · exact ⟨b, hb, rfl⟩

theorem map_set_of_eq {β : Type v} {g : α → β} (h : l[i]? = some a) (hg : g b = g a) :
    (l.set i b).map g = l.map g := by
  obtain ⟨hi, rfl⟩ := List.getElem?_eq_some_iff.mp h
  have hget : (l.map g)[i]? = some (g b) := by rw [List.getElem?_map, h, hg]; rfl
  obtain ⟨hi', hsame⟩ := List.getElem?_eq_some_iff.mp hget
  rw [List.map_set, ← hsame]
  exact List.set_getElem_self hi'

theorem countP_modify (p : α → Bool) (h : l[i]? = some a) :
    (l.modify i f).countP p + (if p a then 1 else 0) = l.countP p + if p (f a) then 1 else 0 := by
  obtain ⟨hi, rfl⟩ := List.getElem?_eq_some_iff.mp h
  obtain ⟨before, b, after, hl, hlength, hmodify⟩ := List.exists_of_modify f hi
  subst hlength
  have hb : l[before.length] = b := by simp [hl]
  rw [hmodify, hb, hl, List.countP_append, List.countP_append, List.countP_cons, List.countP_cons]
  omega

theorem countP_modify_of_eq (p : α → Bool) (i : Nat) (h : ∀ a, l[i]? = some a → p (f a) = p a) :
    (l.modify i f).countP p = l.countP p := by
  cases ha : l[i]? with
  | none => rw [List.modify_eq_self (List.getElem?_eq_none_iff.mp ha)]
  | some a =>
    have hcount := countP_modify (f := f) p ha
    rw [h a ha] at hcount
    exact Nat.add_right_cancel hcount

section
variable {κ : Type v} [DecidableEq κ] {out : List (κ × α)} {k : κ}

theorem own_eq_nil (h : ∀ x ∈ out, x.1 ≠ k) : own k out = [] := by
  have hnone : out.filter (·.1 = k) = [] :=
    List.filter_eq_nil_iff.mpr fun x hx => by simpa using h x hx
  unfold own
  rw [hnone]
  rfl

theorem own_append (k : κ) (out out' : List (κ × α)) :
    own k (out ++ out') = own k out ++ own k out' := by
  unfold own
  rw [List.filter_append, List.map_append]

theorem own_map (j k : κ) (l : List α) : own k (l.map (j, ·)) = if j = k then l else [] := by
  split_ifs with hjk
  · have hall : (l.map (j, ·)).filter (·.1 = k) = l.map (j, ·) :=
      List.filter_eq_self.mpr fun x hx => by
        obtain ⟨a, -, rfl⟩ := List.mem_map.mp hx
        exact decide_eq_true hjk
    unfold own
    rw [hall, List.map_map]
    exact List.map_id l
  · apply own_eq_nil
    intro x hx
    obtain ⟨a, -, rfl⟩ := List.mem_map.mp hx
    exact hjk

theorem own_cons (j k : κ) (a : α) (out : List (κ × α)) :
    own k ((j, a) :: out) = if j = k then a :: own k out else own k out := by
  unfold own
  by_cases hjk : j = k
  · simp [hjk]
  · simp [hjk]

theorem own_eraseP (j k : κ) (out : List (κ × α)) :
    own k (out.eraseP (·.1 = j)) = if j = k then (own k out).tail else own k out := by
  induction out with
  | nil => simp [own]
  | cons x out ih =>
    obtain ⟨i, a⟩ := x
    rw [own_cons]
    by_cases hij : i = j
    · subst hij
      simp only [List.eraseP_cons, decide_true, cond_true]
      split_ifs
      · rfl
      · rfl
    · simp only [List.eraseP_cons, decide_eq_false hij, cond_false, own_cons, ih]
      by_cases hik : i = k
      · have hjk : j ≠ k := fun hjk => hij (hik.trans hjk.symm)
        simp only [if_pos hik, if_neg hjk]
      · simp only [if_neg hik]

end

theorem countP_le_of_own {β : Type v} {calls : List β} {out : List (Nat × α)} {p : α → Bool}
    {q : β → Bool} (hlt : ∀ x ∈ out, x.1 < calls.length)
    (h : ∀ (i : Nat) c, calls[i]? = some c → (own i out).countP p ≤ if q c then 1 else 0) :
    out.countP (fun x => p x.2) ≤ calls.countP q := by
  induction calls using List.reverseRecOn generalizing out with
  | nil =>
    obtain rfl : out = [] := List.eq_nil_iff_forall_not_mem.mpr fun x hx =>
      Nat.not_lt_zero _ (hlt x hx)
    exact Nat.zero_le _
  | append_singleton calls c ih =>
    have hlast : (out.filter (·.1 = calls.length)).countP (fun x => p x.2) ≤
        if q c then 1 else 0 := by
      have hown := h calls.length c List.getElem?_concat_length
      rwa [own, List.countP_map] at hown
    have hrest := @ih (out.filter fun x => !decide (x.1 = calls.length)) ?_ ?_
    · rw [List.countP_eq_countP_filter_add out _ (·.1 = calls.length), List.countP_append,
        List.countP_singleton]
      omega
    · intro x hx
      obtain ⟨hx, hne⟩ := List.mem_filter.mp hx
      have hbound := hlt x hx
      rw [List.length_append, List.length_singleton] at hbound
      simp only [Bool.not_eq_true', decide_eq_false_iff_not] at hne
      omega
    · intro i c' hi
      have hile := (List.getElem?_eq_some_iff.mp hi).1
      have hsame : own i (out.filter fun x => !decide (x.1 = calls.length)) = own i out := by
        unfold own
        rw [List.filter_filter]
        refine congrArg _ (List.filter_congr fun x _ => ?_)
        by_cases hx : x.1 = i
        · simp [hx, Nat.ne_of_lt hile]
        · simp [hx]
      rw [hsame]
      exact h i c' ((List.getElem?_append_left hile).trans hi)

end Calls
