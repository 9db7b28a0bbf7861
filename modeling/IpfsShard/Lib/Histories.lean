import IpfsShard.Lib.Async
import IpfsShard.Lib.Calls

/-! What each call of a program does between its start and its end, while the others go on. -/

namespace Async
open Runs Calls

universe u v w x y

variable {σ : Type u} {ε : Type v} {ρ : Type w} {ι : Type x} {ω : Type y}

/-- An event has begun a call, or a call does something. -/
inductive Entry (ε : Type v) (ι : Type x) (ω : Type y) where
  | begun (e : ε)
  | does (t : Trace ι ω)

def Entry.begun? : Entry ε ι ω → Option ε
  | begun e => some e
  | does _ => none

def Entry.does? : Entry ε ι ω → Option (Trace ι ω)
  | begun _ => none
  | does t => some t

def begun (out : List (Nat × Entry ε ι ω)) : List ε := out.filterMap fun x => x.2.begun?

def traceOf (i : Nat) (out : List (Nat × Entry ε ι ω)) : List (Trace ι ω) :=
  (own i out).filterMap Entry.does?

def record (i : Nat) (trace : List (Trace ι ω)) : List (Nat × Entry ε ι ω) :=
  (trace.map .does).map (i, ·)

def goesOn (result : ι) (calls : List ω) : List (Trace ι ω) := .ended result :: calls.map .started

/-- What is in flight, behind one more item of a trace. A result that ends a call ends the first one
of those in flight; another result is a part of what it yields. -/
def pendingAfter (ends : ι → Bool) (calls : List ω) : Trace ι ω → List ω
  | .started call => calls ++ [call]
  | .ended result => if ends result then calls.tail else calls

def pending (ends : ι → Bool) (trace : List (Trace ι ω)) : List ω :=
  trace.foldl (pendingAfter ends) []

def inFlightAfter (ends : ι → Bool) (flight : List (Nat × ω)) :
    Nat × Entry ε ι ω → List (Nat × ω)
  | (_, .begun _) => flight
  | (i, .does (.started call)) => flight ++ [(i, call)]
  | (i, .does (.ended result)) => if ends result then flight.eraseP (·.1 = i) else flight

/-- All that is in flight, under the numbers of the calls that have started it. -/
def inFlight (ends : ι → Bool) (out : List (Nat × Entry ε ι ω)) : List (Nat × ω) :=
  out.foldl (inFlightAfter ends) []

inductive InTurn (ends : ι → Bool) (awaits : ρ → ω → Prop) :
    Option ρ → List (Trace ι ω) → Prop where
  | waits {q : ρ} {call : ω} {trace : List (Trace ι ω)} : awaits q call →
      pending ends trace = [call] → InTurn ends awaits (some q) trace
  | ended {trace : List (Trace ι ω)} : pending ends trace = [] → InTurn ends awaits none trace

def turns (done : List (ω × ι)) : List (Trace ι ω) :=
  done.flatMap fun t => [.started t.1, .ended t.2]

def nextOf : List ω → List ω × Option (List ω)
  | [] => ([], none)
  | call :: rest => ([call], some rest)

inductive Progress (plan : List ω) (halted : Prop) : Option (List ω) → List (Trace ι ω) → Prop where
  | waits {done : List (ω × ι)} {call : ω} {rest : List ω} :
      plan = done.map Prod.fst ++ call :: rest →
      Progress plan halted (some rest) (turns done ++ [.started call])
  | ended {done : List (ω × ι)} : plan = done.map Prod.fst → Progress plan halted none (turns done)
  | halted {done : List (ω × ι)} : halted → done.map Prod.fst <+: plan →
      Progress plan halted none (turns done)

namespace Program

/-- The program with a record of what it does, under the numbers of its calls. `starts` says which
events begin a call. -/
def traced (p : Program σ ε ρ ι ω) (starts : σ → ε → Bool) :
    System (State σ ρ) (Event ε ι) (Nat × Entry ε ι ω) :=
  p.system.relabel fun s e o =>
    match e with
    | .on e =>
      if starts s.shared e then
        (s.suspended.length, .begun e) :: record s.suspended.length (o.map .started)
      else []
    | .resume i result => record i (goesOn result o)

/-- What holds of a call with the event that has begun it, what it has done and where it waits, as
long as the state that it shares with the others changes by `R` only. -/
structure Keeps (p : Program σ ε ρ ι ω) (starts : σ → ε → Bool) (R : σ → σ → Prop)
    (J : ε → σ → Option ρ → List (Trace ι ω) → Prop) : Prop where
  begins : ∀ s e r, p.on s e = some r → starts s e = true →
    ∃ q, r.2.2 = [q] ∧ J e r.1 (some q) (r.2.1.map .started)
  silent : ∀ s e r, p.on s e = some r → starts s e = false → r.2.1 = [] ∧ r.2.2 = []
  goes : ∀ e s q trace result r, J e s (some q) trace → p.resume s q result = some r →
    J e r.1 r.2.2 (trace ++ goesOn result r.2.1)
  on : ∀ s e r, p.on s e = some r → R s r.1
  resume : ∀ s q result r, p.resume s q result = some r → R s r.1
  stable : ∀ e s s' q trace, R s s' → J e s q trace → J e s' q trace

structure Histories (J : ε → σ → Option ρ → List (Trace ι ω) → Prop) (s : State σ ρ)
    (out : List (Nat × Entry ε ι ω)) : Prop where
  length : (begun out).length = s.suspended.length
  fresh : ∀ x ∈ out, x.1 < s.suspended.length
  holds : ∀ (i : Nat) e q, (begun out)[i]? = some e → s.suspended[i]? = some q →
    J e s.shared q (traceOf i out)

end Program

variable {p : Program σ ε ρ ι ω} {starts : σ → ε → Bool} {R : σ → σ → Prop}
  {J : ε → σ → Option ρ → List (Trace ι ω) → Prop} {s t : State σ ρ} {es : List (Event ε ι)}
  {out : List (Nat × Entry ε ι ω)} {i j : Nat} {plan rest : List ω} {halted halted' : Prop}

theorem traceOf_append (i : Nat) (out o : List (Nat × Entry ε ι ω)) :
    traceOf i (out ++ o) = traceOf i out ++ traceOf i o := by
  unfold traceOf
  rw [own_append, List.filterMap_append]

theorem begun_append (out o : List (Nat × Entry ε ι ω)) :
    begun (out ++ o) = begun out ++ begun o := List.filterMap_append ..

theorem traceOf_eq_nil (h : ∀ x ∈ out, x.1 ≠ i) : traceOf i out = [] := by
  unfold traceOf
  rw [own_eq_nil h]
  rfl

theorem traceOf_record (i : Nat) (trace : List (Trace ι ω)) :
    traceOf (ε := ε) i (record i trace) = trace := by
  unfold traceOf record
  rw [own_map, if_pos rfl, List.filterMap_map]
  exact List.filterMap_some

theorem traceOf_record_of_ne (hij : i ≠ j) (trace : List (Trace ι ω)) :
    traceOf (ε := ε) j (record i trace) = [] := by
  unfold traceOf record
  rw [own_map, if_neg hij]
  rfl

theorem traceOf_begun (i : Nat) (e : ε) (out : List (Nat × Entry ε ι ω)) :
    traceOf j ((i, .begun e) :: out) = traceOf j out := by
  unfold traceOf own
  rw [List.filter_cons]
  split_ifs
  · rfl
  · rfl

theorem begun_record (i : Nat) (trace : List (Trace ι ω)) :
    begun (ε := ε) (record i trace) = [] := by
  unfold begun record
  rw [List.filterMap_map, List.filterMap_map]
  exact List.filterMap_eq_nil_iff.mpr fun t _ => rfl

section
variable {ends : ι → Bool} {awaits : ρ → ω → Prop} {q : Option ρ} {trace : List (Trace ι ω)}

theorem pending_concat (trace : List (Trace ι ω)) (t : Trace ι ω) :
    pending ends (trace ++ [t]) = pendingAfter ends (pending ends trace) t := by
  rw [pending, List.foldl_append]
  rfl

theorem pending_started (trace : List (Trace ι ω)) (call : ω) :
    pending ends (trace ++ [.started call]) = pending ends trace ++ [call] := pending_concat _ _

theorem pending_ended (trace : List (Trace ι ω)) (result : ι) :
    pending ends (trace ++ [.ended result]) =
      if ends result then (pending ends trace).tail else pending ends trace := pending_concat _ _

theorem turns_concat (done : List (ω × ι)) (call : ω) (result : ι) :
    turns (done ++ [(call, result)]) = turns done ++ [.started call, .ended result] := by
  unfold turns
  rw [List.flatMap_append, List.flatMap_singleton]

theorem pending_turns (h : ∀ result, ends result = true) (done : List (ω × ι)) :
    pending ends (turns done) = [] := by
  induction done using List.reverseRecOn with
  | nil => rfl
  | append_singleton done t ih =>
    rw [turns_concat, List.append_cons, pending_ended, if_pos (h t.2), pending_started, ih]
    rfl

theorem inFlight_concat (out : List (Nat × Entry ε ι ω)) (x : Nat × Entry ε ι ω) :
    inFlight ends (out ++ [x]) = inFlightAfter ends (inFlight ends out) x := by
  rw [inFlight, List.foldl_append]
  rfl

theorem own_inFlightAfter (i : Nat) (flight : List (Nat × ω)) (x : Nat × Entry ε ι ω) :
    own i (inFlightAfter ends flight x) =
      (traceOf i [x]).foldl (pendingAfter ends) (own i flight) := by
  obtain ⟨j, entry⟩ := x
  cases entry with
  | begun e =>
    rw [traceOf_begun]
    rfl
  | does t =>
    have htrace : traceOf (ε := ε) i [(j, .does t)] = if j = i then [t] else [] := by
      by_cases hji : j = i
      · rw [if_pos hji, ← hji]
        exact traceOf_record j [t]
      · rw [if_neg hji]
        exact traceOf_record_of_ne hji [t]
    rw [htrace]
    cases t with
    | started call =>
      have hown : own i [(j, call)] = if j = i then [call] else [] := own_map j i [call]
      rw [inFlightAfter, own_append, hown]
      split_ifs
      · rfl
      · rw [List.append_nil]
        rfl
    | ended result =>
      rw [inFlightAfter]
      by_cases hends : ends result = true
      · rw [if_pos hends, own_eraseP]
        split_ifs
        · exact (if_pos hends).symm
        · rfl
      · rw [if_neg hends]
        split_ifs
        · exact (if_neg hends).symm
        · rfl

theorem own_inFlight (ends : ι → Bool) (i : Nat) (out : List (Nat × Entry ε ι ω)) :
    own i (inFlight ends out) = pending ends (traceOf i out) := by
  induction out using List.reverseRecOn with
  | nil => rfl
  | append_singleton out x ih =>
    rw [inFlight_concat, own_inFlightAfter, ih, traceOf_append, pending, pending, List.foldl_append]

theorem lt_of_inFlight {n : Nat} (h : ∀ x ∈ out, x.1 < n) : ∀ x ∈ inFlight ends out, x.1 < n := by
  induction out using List.reverseRecOn with
  | nil => simp [inFlight]
  | append_singleton out x ih =>
    obtain ⟨hout, hx⟩ := List.forall_mem_append.mp h
    rw [inFlight_concat]
    obtain ⟨i, entry⟩ := x
    cases entry with
    | begun e => exact ih hout
    | does t =>
      cases t with
      | started call =>
        have hi : i < n := hx (i, .does (.started call)) (List.mem_singleton_self _)
        exact List.forall_mem_append.mpr ⟨ih hout, List.forall_mem_singleton.mpr hi⟩
      | ended result =>
        rw [inFlightAfter]
        split_ifs
        · exact fun y hy => ih hout y (List.eraseP_subset hy)
        · exact ih hout

theorem InTurn.yields {q q' : ρ} (h : InTurn ends awaits (some q) trace) {result : ι}
    (hends : ends result = false) (hawaits : ∀ call, awaits q call → awaits q' call) :
    InTurn ends awaits (some q') (trace ++ goesOn result []) := by
  cases h with
  | waits hq hpending =>
    refine .waits (hawaits _ hq) ?_
    rw [goesOn, List.map_nil, pending_ended, hends, if_neg Bool.false_ne_true, hpending]

theorem InTurn.over {q : ρ} (h : InTurn ends awaits (some q) trace) {result : ι}
    (hends : ends result = true) : InTurn ends awaits none (trace ++ goesOn result []) := by
  cases h with
  | waits hq hpending =>
    refine .ended ?_
    rw [goesOn, List.map_nil, pending_ended, if_pos hends, hpending]
    rfl

theorem InTurn.goes {q q' : ρ} {call : ω} (h : InTurn ends awaits (some q) trace) {result : ι}
    (hends : ends result = true) (hawaits : awaits q' call) :
    InTurn ends awaits (some q') (trace ++ goesOn result [call]) := by
  cases h with
  | waits hq hpending =>
    refine .waits hawaits ?_
    rw [goesOn, List.map_singleton, List.append_cons, pending_started, pending_ended, if_pos hends,
      hpending]
    rfl

end

namespace Program

theorem Histories.begin (h : Histories J s out) {e : ε} {q : ρ} {trace : List (Trace ι ω)} {s' : σ}
    (hstable : ∀ (i : Nat) e q, (begun out)[i]? = some e → s.suspended[i]? = some q →
      J e s' q (traceOf i out)) (hJ : J e s' (some q) trace) :
    Histories J ⟨s', s.suspended ++ [some q]⟩
      (out ++ (s.suspended.length, .begun e) :: record s.suspended.length trace) := by
  have hbegun : begun (out ++ (s.suspended.length, .begun e) :: record s.suspended.length trace) =
      begun out ++ [e] := by
    rw [begun_append]
    exact congrArg (begun out ++ e :: ·) (begun_record _ _)
  refine ⟨?_, ?_, ?_⟩
  · rw [hbegun, List.length_append, List.length_append, h.length]
    rfl
  · intro x hx
    rw [List.length_append]
    rcases List.mem_append.mp hx with hx | hx
    · exact Nat.lt_add_right _ (h.fresh x hx)
    · rcases List.mem_cons.mp hx with rfl | hx
      · exact Nat.lt_succ_self _
      · obtain ⟨t, -, rfl⟩ := List.mem_map.mp hx
        exact Nat.lt_succ_self _
  · intro i e' q' he hq'
    rw [hbegun] at he
    rw [traceOf_append, traceOf_begun]
    rcases getElem?_concat.mp hq' with hq' | ⟨rfl, rfl⟩
    · have hlt := (List.getElem?_eq_some_iff.mp hq').1
      rw [List.getElem?_append_left (h.length ▸ hlt)] at he
      rw [traceOf_record_of_ne (Nat.ne_of_gt hlt), List.append_nil]
      exact hstable i e' q' he hq'
    · rw [← h.length, List.getElem?_concat_length] at he
      obtain rfl := Option.some.inj he
      have hempty : traceOf s.suspended.length out = [] :=
        traceOf_eq_nil fun x hx => Nat.ne_of_lt (h.fresh x hx)
      rw [hempty, List.nil_append, traceOf_record]
      exact hJ

theorem Histories.on (hk : p.Keeps starts R J) (h : Histories J s out) {e : ε} {o : List ω}
    (hs : p.system.step s (.on e) = some (t, o)) :
    Histories J t (out ++ if starts s.shared e then
      (s.suspended.length, .begun e) :: record s.suspended.length (o.map .started) else []) := by
  obtain ⟨r, hr, heq⟩ := Option.map_eq_some_iff.mp hs
  cases heq
  have hstable : ∀ (i : Nat) e q, (begun out)[i]? = some e → s.suspended[i]? = some q →
      J e r.1 q (traceOf i out) := fun i e' q he hq =>
    hk.stable e' s.shared r.1 q _ (hk.on _ _ _ hr) (h.holds i e' q he hq)
  cases hstarts : starts s.shared e with
  | false =>
    obtain ⟨-, hnone⟩ := hk.silent _ _ _ hr hstarts
    rw [if_neg Bool.false_ne_true, List.append_nil, hnone, List.map_nil, List.append_nil]
    exact ⟨h.length, h.fresh, hstable⟩
  | true =>
    obtain ⟨q, hq, hJ⟩ := hk.begins _ _ _ hr hstarts
    rw [if_pos rfl, hq]
    exact h.begin hstable hJ

theorem Histories.resume (hk : p.Keeps starts R J) (h : Histories J s out) {result : ι}
    {o : List ω} (hs : p.system.step s (.resume i result) = some (t, o)) :
    Histories J t (out ++ record i (goesOn result o)) := by
  simp only [system] at hs
  split at hs
  case h_2 => cases hs
  rename_i q hi
  obtain ⟨r, hr, heq⟩ := Option.map_eq_some_iff.mp hs
  cases heq
  have hlt := (List.getElem?_eq_some_iff.mp hi).1
  refine ⟨?_, ?_, ?_⟩
  · rw [begun_append, begun_record, List.append_nil, List.length_set]
    exact h.length
  · intro x hx
    rw [List.length_set]
    rcases List.mem_append.mp hx with hx | hx
    · exact h.fresh x hx
    · obtain ⟨u, -, rfl⟩ := List.mem_map.mp hx
      exact hlt
  · intro j e q' he hq'
    rw [begun_append, begun_record, List.append_nil] at he
    rw [traceOf_append]
    by_cases hij : i = j
    · subst hij
      rw [List.getElem?_set_self hlt] at hq'
      obtain rfl := Option.some.inj hq'
      rw [traceOf_record]
      exact hk.goes e s.shared q _ result r (h.holds i e (some q) he hi) hr
    · rw [List.getElem?_set_ne hij] at hq'
      rw [traceOf_record_of_ne hij, List.append_nil]
      exact hk.stable e s.shared r.1 q' _ (hk.resume _ _ _ _ hr) (h.holds j e q' he hq')

theorem Keeps.histories (hk : p.Keeps starts R J)
    (h : (p.traced starts).Run System.any es s out) : Histories J s out := by
  induction h with
  | start =>
    refine ⟨rfl, by simp, fun i e q he => ?_⟩
    cases he
  | @step es s t e out o _ _ hs ih =>
    obtain ⟨r, hr, heq⟩ := Option.map_eq_some_iff.mp hs
    cases heq
    cases e with
    | on e => exact ih.on hk hr
    | resume i result => exact ih.resume hk hr

theorem Histories.mono {J' : ε → σ → Option ρ → List (Trace ι ω) → Prop} (h : Histories J s out)
    (himp : ∀ e s q trace, J e s q trace → J' e s q trace) : Histories J' s out :=
  ⟨h.length, h.fresh, fun i e q he hq => himp _ _ _ _ (h.holds i e q he hq)⟩

section
variable {ends : ι → Bool} {awaits : ρ → ω → Prop} {kind : ρ → Bool} {called : ω → Bool}
  {starts' : σ → ε → Bool}

theorem Histories.inTurn (h : Histories (fun _ _ => InTurn ends awaits) s out) {q : Option ρ}
    (hi : s.suspended[i]? = some q) : InTurn ends awaits q (traceOf i out) := by
  obtain ⟨hlt, -⟩ := List.getElem?_eq_some_iff.mp hi
  have he := List.getElem?_eq_getElem (h.length.symm ▸ hlt)
  exact h.holds i _ q he hi

theorem Histories.length_own_inFlight_le
    (h : Histories (fun _ _ => InTurn ends awaits) s out) (i : Nat) :
    (own i (inFlight ends out)).length ≤ 1 := by
  rw [own_inFlight]
  cases hi : s.suspended[i]? with
  | none =>
    have hempty : traceOf i out = [] := traceOf_eq_nil fun x hx heq => by
      rw [List.getElem?_eq_none_iff, ← heq] at hi
      exact absurd (h.fresh x hx) (Nat.not_lt_of_le hi)
    rw [hempty]
    exact Nat.zero_le 1
  | some q =>
    cases h.inTurn hi with
    | waits _ hpending =>
      rw [hpending]
      exact Nat.le_refl 1
    | ended hpending =>
      rw [hpending]
      exact Nat.zero_le 1

theorem Histories.countP_inFlight_le (h : Histories (fun _ _ => InTurn ends awaits) s out)
    (hkind : ∀ q call, awaits q call → called call = true → kind q = true) :
    (inFlight ends out).countP (fun x => called x.2) ≤ s.count kind := by
  refine countP_le_of_own (lt_of_inFlight h.fresh) fun i q hi => ?_
  rw [own_inFlight]
  cases h.inTurn hi with
  | @waits q call _ hawaits hpending =>
    rw [hpending, List.countP_singleton]
    by_cases hcalled : called call = true
    · have hq : (some q).any kind = true := hkind q call hawaits hcalled
      rw [if_pos hcalled]
      exact Nat.le_of_eq (if_pos hq).symm
    · rw [if_neg hcalled]
      exact Nat.zero_le _
  | ended hpending =>
    rw [hpending]
    exact Nat.zero_le _

/-- At all times there is one call of the kind at most, with one of its own calls in flight, exactly
if the calls of the kind start apart from each other. -/
theorem StartsOne.run_iff_always (hone : p.StartsOne kind starts')
    (hturn : ∀ es s out, (p.traced starts).Run System.any es s out →
      Histories (fun _ _ => InTurn ends awaits) s out)
    (hkind : ∀ q call, awaits q call → called call = true → kind q = true)
    (h : (p.traced starts).Run System.any es s out) :
    (p.traced starts).Run (Apart kind starts') es s out ↔ (p.traced starts).Always (fun s out =>
      s.count kind ≤ 1 ∧ (inFlight ends out).countP (fun x => called x.2) ≤ 1) es := by
  refine h.always_iff ⟨Nat.zero_le 1, Nat.zero_le 1⟩ ?_
  rintro es s e t out o hrun ⟨hle, -⟩ hs
  have hflight : (inFlight ends (out ++ o)).countP (fun x => called x.2) ≤ t.count kind :=
    (hturn _ _ _ (hrun.step trivial hs)).countP_inFlight_le hkind
  obtain ⟨r, hr, heq⟩ := Option.map_eq_some_iff.mp hs
  obtain rfl : r.1 = t := congrArg Prod.fst heq
  rw [hone.apart_iff hle hr]
  constructor
  · exact fun ht => ⟨ht, Nat.le_trans hflight ht⟩
  · exact And.left

end
end Program

theorem Progress.begin (plan : List ω) :
    Progress (ι := ι) plan halted (nextOf plan).2 ((nextOf plan).1.map .started) := by
  cases plan with
  | nil =>
    have hdone : [] = ([] : List (ω × ι)).map Prod.fst := rfl
    exact .ended hdone
  | cons call rest =>
    have hdone : call :: rest = ([] : List (ω × ι)).map Prod.fst ++ call :: rest := rfl
    exact .waits hdone

theorem Progress.mono {q : Option (List ω)} {trace : List (Trace ι ω)}
    (h : Progress plan halted q trace) (himp : halted → halted') :
    Progress plan halted' q trace := by
  cases h with
  | waits hplan => exact .waits hplan
  | ended hplan => exact .ended hplan
  | halted hhalted hprefix => exact .halted (himp hhalted) hprefix

theorem Progress.next {trace : List (Trace ι ω)} (h : Progress plan halted (some rest) trace)
    (result : ι) :
    Progress plan halted (nextOf rest).2 (trace ++ goesOn result (nextOf rest).1) := by
  cases h with
  | @waits done call _ hplan =>
    have htrace : ∀ calls : List ω, turns done ++ [.started call] ++ goesOn result calls =
        turns (done ++ [(call, result)]) ++ calls.map .started := fun calls => by
      rw [turns_concat, List.append_assoc, List.append_assoc]
      rfl
    rw [htrace]
    cases rest with
    | nil =>
      rw [nextOf, List.map_nil, List.append_nil]
      exact .ended (by rw [hplan, List.map_append]; rfl)
    | cons c rest =>
      refine .waits ?_
      rw [hplan, List.map_append, List.append_assoc]
      rfl

theorem Progress.halt {trace : List (Trace ι ω)} (h : Progress plan halted (some rest) trace)
    (hhalted : halted) (result : ι) : Progress plan halted none (trace ++ goesOn result []) := by
  cases h with
  | @waits done call _ hplan =>
    have htrace : turns done ++ [.started call] ++ goesOn result [] =
        turns (done ++ [(call, result)]) := by
      rw [turns_concat, List.append_assoc]
      rfl
    rw [htrace]
    refine .halted hhalted ⟨rest, ?_⟩
    rw [hplan, List.map_append, List.append_assoc]
    rfl

end Async
