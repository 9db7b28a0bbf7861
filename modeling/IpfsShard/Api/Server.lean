import IpfsShard.Api.Router
import IpfsShard.Lib.Calls
import IpfsShard.Lib.Runs
import Mathlib.Data.List.DropRight

/-! The HTTP server in front of the router: the origin and the key of each request, its answer and
the counter of the answers. -/

namespace IpfsShard.Api.Server
open Runs Calls

/-- The variables of the process that the server reads; an origin is a text that is split. -/
structure Env where
  NODE_ENV : Option String := none
  ALLOWED_ORIGINS : Option Text := none
  API_KEY : Option String := none

structure IncomingMessage where
  request : Request
  origin : Option Text := none
  xApiKey : Option String := none

/-- `error` is the body, where it is one that the server writes itself. -/
structure Response where
  statusCode : Nat
  accessControlAllowOrigin : Text
  error : Option String
  deriving DecidableEq

/-- The white space and the line terminators that `trim` takes away. -/
def isSpace (c : Char) : Bool :=
  (0x9 ≤ c.toNat && c.toNat ≤ 0xD) || (0x2000 ≤ c.toNat && c.toNat ≤ 0x200A) ||
    [0x20, 0xA0, 0x1680, 0x2028, 0x2029, 0x202F, 0x205F, 0x3000, 0xFEFF].contains c.toNat

def trim (text : Text) : Text := (text.dropWhile isSpace).rdropWhile isSpace

namespace Env
variable (env : Env)

def isDev : Bool := env.NODE_ENV == some "development"

def allowedOrigins : List Text :=
  (((env.ALLOWED_ORIGINS.getD []).splitOn ',').map trim).filter (· ≠ [])

def corsOrigin (message : IncomingMessage) : Text :=
  if env.isDev then ['*']
  else
    match env.allowedOrigins with
    | [] => ['*']
    | first :: rest =>
      match message.origin with
      | none => first
      | some requestOrigin =>
        if (first :: rest).contains requestOrigin then requestOrigin else first

/-- The key that is asked for: an empty one is none. -/
def apiKey : Option String := env.API_KEY.filter (· != "")

def respond (message : IncomingMessage) (statusCode : Nat) (error : Option String) : Response :=
  ⟨statusCode, env.corsOrigin message, error⟩

def refusal (message : IncomingMessage) : Option Response :=
  if message.request.method = "OPTIONS" then some (env.respond message 204 none)
  else if env.isDev then none
  else
    match env.apiKey with
    | none => none
    | some apiKey =>
      match message.xApiKey.filter (· != "") with
      | none => some (env.respond message 401 (some "Authentication required"))
      | some provided =>
        if provided ≠ apiKey then some (env.respond message 403 (some "Forbidden")) else none

end Env

/-- Where a request stands: its handler runs, has written a head, or has thrown behind its head; or
the response has ended. -/
inductive Phase where
  | handling
  | headed (statusCode : Nat)
  | hung
  | ended (response : Response)

def Phase.response? : Phase → Option Response
  | ended response => some response
  | _ => none

structure Labels where
  method : String
  path : Text
  status : Nat
  deriving DecidableEq

structure Served where
  message : IncomingMessage
  phase : Phase

def labelsOf (message : IncomingMessage) (response : Response) : Labels :=
  ⟨message.request.method, label message.request, response.statusCode⟩

def Served.labels? (served : Served) : Option Labels :=
  served.phase.response?.map (labelsOf served.message)

structure State where
  requests : List Served := []
  httpRequestsCounter : Labels → Nat := fun _ => 0

/-- A request comes, or the handler of a request goes on. A handler that has ended its response
does no more. -/
inductive Event where
  | request (message : IncomingMessage)
  | writeHead (i : Nat) (statusCode : Nat)
  | finish (i : Nat)
  | throws (i : Nat)

def Event.message? : Event → Option IncomingMessage
  | request message => some message
  | _ => none

inductive Action where
  | handle (call : Call)
  | finish (response : Response)
  deriving DecidableEq

section
variable (env : Env) (s : State)

def State.count (message : IncomingMessage) (response : Response) : Labels → Nat := fun labels =>
  s.httpRequestsCounter labels + if labelsOf message response = labels then 1 else 0

def State.answer (message : IncomingMessage) (response : Response) : State × List (Nat × Action) :=
  ({ requests := s.requests ++ [⟨message, .ended response⟩]
     httpRequestsCounter := s.count message response },
    [(s.requests.length, .finish response)])

def State.finish (i : Nat) (message : IncomingMessage) (response : Response) :
    State × List (Nat × Action) :=
  ({ requests := s.requests.set i ⟨message, .ended response⟩
     httpRequestsCounter := s.count message response }, [(i, .finish response)])

def State.setPhase (i : Nat) (message : IncomingMessage) (phase : Phase) : State :=
  { s with requests := s.requests.set i ⟨message, phase⟩ }

def State.step : Event → Option (State × List (Nat × Action))
  | .request message =>
    match env.refusal message with
    | some response => some (s.answer message response)
    | none =>
      match createApiRouter message.request with
      | none => some (s.answer message (env.respond message 404 (some "Not found")))
      | some call =>
        some ({ s with requests := s.requests ++ [⟨message, .handling⟩] },
          [(s.requests.length, .handle call)])
  | .writeHead i statusCode =>
    match s.requests[i]? with
    | some ⟨message, .handling⟩ => some (s.setPhase i message (.headed statusCode), [])
    | _ => none
  | .finish i =>
    match s.requests[i]? with
    | some ⟨message, .handling⟩ => some (s.finish i message (env.respond message 200 none))
    | some ⟨message, .headed statusCode⟩ =>
      some (s.finish i message (env.respond message statusCode none))
    | _ => none
  | .throws i =>
    match s.requests[i]? with
    | some ⟨message, .handling⟩ =>
      some (s.finish i message (env.respond message 500 (some "Internal server error")))
    -- the headers have been sent
    | some ⟨message, .headed _⟩ => some (s.setPhase i message .hung, [])
    | _ => none

end

def server (env : Env) : System State Event (Nat × Action) where
  init := {}
  step := State.step env

structure Admitted (env : Env) (message : IncomingMessage) : Prop where
  method : message.request.method ≠ "OPTIONS"
  key : env.isDev = true ∨ env.apiKey = none ∨ message.xApiKey = env.apiKey

/-- The life of a request. Its handler is called only if it is admitted and routed, and whatever the
handler does, there is one answer, or none if the handler never ends or throws behind its head. -/
inductive Life (env : Env) (message : IncomingMessage) : Phase → List Action → Prop where
  | refused {response : Response} : ¬ Admitted env message → env.refusal message = some response →
      Life env message (.ended response) [.finish response]
  | notFound : Admitted env message → createApiRouter message.request = none →
      Life env message (.ended (env.respond message 404 (some "Not found")))
        [.finish (env.respond message 404 (some "Not found"))]
  | handling {call : Call} : Admitted env message → createApiRouter message.request = some call →
      Life env message .handling [.handle call]
  | headed {call : Call} (statusCode : Nat) : Admitted env message →
      createApiRouter message.request = some call →
      Life env message (.headed statusCode) [.handle call]
  | hung {call : Call} : Admitted env message → createApiRouter message.request = some call →
      Life env message .hung [.handle call]
  | handled {call : Call} (statusCode : Nat) : Admitted env message →
      createApiRouter message.request = some call →
      Life env message (.ended (env.respond message statusCode none))
        [.handle call, .finish (env.respond message statusCode none)]
  | failed {call : Call} : Admitted env message → createApiRouter message.request = some call →
      Life env message (.ended (env.respond message 500 (some "Internal server error")))
        [.handle call, .finish (env.respond message 500 (some "Internal server error"))]

def Response.ReadableFrom (response : Response) (origin : Text) : Prop :=
  response.accessControlAllowOrigin = ['*'] ∨ response.accessControlAllowOrigin = origin

/-- The origins to which the server is open: all of them in development and without a list, else
those of the list, which may begin with `*`. -/
def Env.OpenTo (env : Env) (origin : Text) : Prop :=
  env.isDev = true ∨ env.allowedOrigins = [] ∨ origin ∈ env.allowedOrigins ∨
    env.allowedOrigins.head? = some ['*']

structure Accounts (env : Env) (s : State) (out : List (Nat × Action)) : Prop where
  fresh : ∀ x ∈ out, x.1 < s.requests.length
  lives : ∀ (i : Nat) served, s.requests[i]? = some served →
    Life env served.message served.phase (own i out)
  counted : ∀ labels, s.httpRequestsCounter labels =
    s.requests.countP fun served => served.labels? = some labels

variable {env : Env} {message : IncomingMessage} {s t : State} {e : Event}
  {o out : List (Nat × Action)} {i j : Nat} {actions : List Action} {phase phase' : Phase}

theorem refusal_eq_none_iff : env.refusal message = none ↔ Admitted env message := by
  constructor
  · intro h
    unfold Env.refusal at h
    split_ifs at h with hmethod hdev
    · exact ⟨hmethod, Or.inl hdev⟩
    · refine ⟨hmethod, Or.inr ?_⟩
      cases hkey : env.apiKey with
      | none => exact Or.inl rfl
      | some apiKey =>
        rw [hkey] at h
        cases hprovided : message.xApiKey.filter (· != "") with
        | none =>
          rw [hprovided] at h
          cases h
        | some provided =>
          rw [hprovided] at h
          have hsame : provided = apiKey := by
            by_contra hne
            exact absurd ((if_pos hne).symm.trans h) (Option.some_ne_none _)
          obtain ⟨hsome, -⟩ := Option.filter_eq_some_iff.mp hprovided
          exact Or.inr (hsame ▸ hsome)
  · rintro ⟨hmethod, hkey⟩
    unfold Env.refusal
    rw [if_neg hmethod]
    split_ifs with hdev
    · rfl
    · cases hasked : env.apiKey with
      | none => rfl
      | some apiKey =>
        rw [hasked] at hkey
        have hsome : message.xApiKey = some apiKey := by simpa [hdev] using hkey
        obtain ⟨-, hne⟩ := Option.filter_eq_some_iff.mp hasked
        have hprovided : message.xApiKey.filter (· != "") = some apiKey :=
          Option.filter_eq_some_iff.mpr ⟨hsome, hne⟩
        rw [hprovided]
        exact if_neg (not_not_intro rfl)

theorem refusal_eq_respond {response : Response} (h : env.refusal message = some response) :
    ∃ statusCode error, response = env.respond message statusCode error := by
  unfold Env.refusal at h
  split_ifs at h
  · exact ⟨_, _, (Option.some.inj h).symm⟩
  · split at h
    · cases h
    · split at h
      · exact ⟨_, _, (Option.some.inj h).symm⟩
      · split_ifs at h
        exact ⟨_, _, (Option.some.inj h).symm⟩

theorem readableFrom_iff {origin : Text} (horigin : message.origin = some origin)
    (statusCode : Nat) (error : Option String) :
    (env.respond message statusCode error).ReadableFrom origin ↔ env.OpenTo origin := by
  unfold Response.ReadableFrom Env.OpenTo Env.respond Env.corsOrigin
  dsimp only
  split_ifs with hdev
  · exact iff_of_true (Or.inl rfl) (Or.inl hdev)
  · cases hallowed : env.allowedOrigins with
    | nil => exact iff_of_true (Or.inl rfl) (Or.inr (Or.inl rfl))
    | cons first rest =>
      rw [horigin]
      dsimp only
      by_cases hmem : origin ∈ first :: rest
      · rw [if_pos (List.contains_iff_mem.mpr hmem)]
        exact iff_of_true (Or.inr rfl) (Or.inr (Or.inr (Or.inl hmem)))
      · have hfirst : first ≠ origin := by
          rintro rfl
          exact hmem (List.mem_cons_self ..)
        rw [if_neg (mt List.contains_iff_mem.mp hmem)]
        simp [hdev, hmem, hfirst]

theorem Accounts.concat (h : Accounts env s out) {counter : Labels → Nat}
    (hlife : Life env message phase actions)
    (hcounter : ∀ labels, counter labels = s.httpRequestsCounter labels +
      if (Served.mk message phase).labels? = some labels then 1 else 0) :
    Accounts env ⟨s.requests ++ [⟨message, phase⟩], counter⟩
      (out ++ actions.map (s.requests.length, ·)) := by
  refine ⟨?_, ?_, ?_⟩
  · intro x hx
    rw [List.length_append]
    rcases List.mem_append.mp hx with hx | hx
    · exact Nat.lt_add_right _ (h.fresh x hx)
    · obtain ⟨a, -, rfl⟩ := List.mem_map.mp hx
      exact Nat.lt_succ_self _
  · intro i served hi
    rw [own_append, own_map]
    rcases getElem?_concat.mp hi with hi | ⟨rfl, rfl⟩
    · have hlt := (List.getElem?_eq_some_iff.mp hi).1
      rw [if_neg (Nat.ne_of_gt hlt), List.append_nil]
      exact h.lives i served hi
    · have hempty : own s.requests.length out = [] :=
        own_eq_nil fun x hx => Nat.ne_of_lt (h.fresh x hx)
      rw [hempty, List.nil_append, if_pos rfl]
      exact hlife
  · intro labels
    change counter labels = _
    rw [hcounter, h.counted, List.countP_append, List.countP_singleton]
    simp only [decide_eq_true_eq]

theorem Accounts.set (h : Accounts env s out) (actions : List Action) {counter : Labels → Nat}
    (hi : s.requests[i]? = some ⟨message, phase⟩) (hnone : phase.response? = none)
    (hlife : Life env message phase (own i out) →
      Life env message phase' (own i out ++ actions))
    (hcounter : ∀ labels, counter labels = s.httpRequestsCounter labels +
      if (Served.mk message phase').labels? = some labels then 1 else 0) :
    Accounts env ⟨s.requests.set i ⟨message, phase'⟩, counter⟩
      (out ++ actions.map (i, ·)) := by
  obtain ⟨hlt, hget⟩ := List.getElem?_eq_some_iff.mp hi
  refine ⟨?_, ?_, ?_⟩
  · intro x hx
    rw [List.length_set]
    rcases List.mem_append.mp hx with hx | hx
    · exact h.fresh x hx
    · obtain ⟨a, -, rfl⟩ := List.mem_map.mp hx
      exact hlt
  · intro j served hj
    rw [own_append, own_map]
    by_cases hij : i = j
    · subst hij
      rw [List.getElem?_set_self hlt] at hj
      obtain rfl := Option.some.inj hj
      rw [if_pos rfl]
      exact hlife (h.lives i _ hi)
    · rw [List.getElem?_set_ne hij] at hj
      rw [if_neg hij, List.append_nil]
      exact h.lives j served hj
  · intro labels
    have hold : (Served.mk message phase).labels? = none := by
      unfold Served.labels?
      rw [hnone]
      rfl
    change counter labels = _
    rw [hcounter, h.counted, List.countP_set hlt, hget, hold]
    simp

theorem counter_of_response {response : Response} (labels : Labels) :
    s.count message response labels = s.httpRequestsCounter labels +
      if (Served.mk message (.ended response)).labels? = some labels then 1 else 0 := by
  simp [State.count, Served.labels?, Phase.response?]

theorem counter_of_none (hnone : phase.response? = none) (labels : Labels) :
    s.httpRequestsCounter labels = s.httpRequestsCounter labels +
      if (Served.mk message phase).labels? = some labels then 1 else 0 := by
  simp [Served.labels?, hnone]

theorem Accounts.step (h : Accounts env s out) (hs : s.step env e = some (t, o)) :
    Accounts env t (out ++ o) := by
  cases e with
  | request message =>
    simp only [State.step] at hs
    cases hrefusal : env.refusal message with
    | some response =>
      rw [hrefusal] at hs
      cases hs
      have hnot : ¬ Admitted env message := fun hadmitted => by
        rw [refusal_eq_none_iff.mpr hadmitted] at hrefusal
        cases hrefusal
      exact h.concat (.refused hnot hrefusal) counter_of_response
    | none =>
      have hadmitted := refusal_eq_none_iff.mp hrefusal
      cases hroute : createApiRouter message.request with
      | none =>
        rw [hrefusal, hroute] at hs
        cases hs
        exact h.concat (.notFound hadmitted hroute) counter_of_response
      | some call =>
        rw [hrefusal, hroute] at hs
        cases hs
        exact h.concat (.handling hadmitted hroute) (counter_of_none rfl)
  | writeHead i statusCode =>
    simp only [State.step] at hs
    split at hs
    case h_2 => cases hs
    rename_i message hi
    cases hs
    refine h.set [] hi rfl (fun hlife => ?_) (counter_of_none rfl)
    rw [List.append_nil]
    generalize own i out = actions at hlife ⊢
    cases hlife with
    | handling hadmitted hroute => exact .headed statusCode hadmitted hroute
  | finish i =>
    simp only [State.step] at hs
    split at hs
    case h_3 => cases hs
    · rename_i message hi
      cases hs
      refine h.set [.finish _] hi rfl (fun hlife => ?_) counter_of_response
      generalize own i out = actions at hlife ⊢
      cases hlife with
      | handling hadmitted hroute => exact .handled 200 hadmitted hroute
    · rename_i message statusCode hi
      cases hs
      refine h.set [.finish _] hi rfl (fun hlife => ?_) counter_of_response
      generalize own i out = actions at hlife ⊢
      cases hlife with
      | headed _ hadmitted hroute => exact .handled statusCode hadmitted hroute
  | throws i =>
    simp only [State.step] at hs
    split at hs
    case h_3 => cases hs
    · rename_i message hi
      cases hs
      refine h.set [.finish _] hi rfl (fun hlife => ?_) counter_of_response
      generalize own i out = actions at hlife ⊢
      cases hlife with
      | handling hadmitted hroute => exact .failed hadmitted hroute
    · rename_i message statusCode hi
      cases hs
      refine h.set [] hi rfl (fun hlife => ?_) (counter_of_none rfl)
      rw [List.append_nil]
      generalize own i out = actions at hlife ⊢
      cases hlife with
      | headed _ hadmitted hroute => exact .hung hadmitted hroute

theorem step_messages (hs : s.step env e = some (t, o)) :
    t.requests.map Served.message = s.requests.map Served.message ++ e.message?.toList := by
  have hset : ∀ (i : Nat) message phase phase', s.requests[i]? = some ⟨message, phase⟩ →
      (s.requests.set i ⟨message, phase'⟩).map Served.message =
        s.requests.map Served.message ++ [] := fun i message phase phase' hi => by
    rw [List.append_nil]
    exact map_set_of_eq hi rfl
  cases e with
  | request message =>
    simp only [State.step] at hs
    split at hs
    · cases hs
      exact List.map_append
    · split at hs
      · cases hs
        exact List.map_append
      · cases hs
        exact List.map_append
  | writeHead i statusCode =>
    simp only [State.step] at hs
    split at hs
    case h_2 => cases hs
    rename_i hi
    cases hs
    exact hset _ _ _ _ hi
  | finish i =>
    simp only [State.step] at hs
    split at hs
    case h_3 => cases hs
    all_goals
      rename_i hi
      cases hs
      exact hset _ _ _ _ hi
  | throws i =>
    simp only [State.step] at hs
    split at hs
    case h_3 => cases hs
    all_goals
      rename_i hi
      cases hs
      exact hset _ _ _ _ hi

/-- Every request of a run has its life, in whatever order the handlers go on; the counter says how
many responses have ended with its labels; and a page may read the response to a request that
names its origin exactly if the server is open to this origin. -/
theorem requests_of_run {es : List Event} (h : (server env).Run System.any es s out) :
    s.requests.map Served.message = es.filterMap Event.message? ∧
    (∀ (i : Nat) served, s.requests[i]? = some served →
      Life env served.message served.phase (own i out) ∧
      ∀ origin response, served.message.origin = some origin → served.phase = .ended response →
        (response.ReadableFrom origin ↔ env.OpenTo origin)) ∧
    ∀ labels, s.httpRequestsCounter labels =
      s.requests.countP fun served => served.labels? = some labels := by
  have hmessages : s.requests.map Served.message = es.filterMap Event.message? := by
    induction h with
    | start => rfl
    | @step es s t e out o _ _ hs ih =>
      rw [step_messages hs, ih, List.filterMap_append]
      cases e <;> rfl
  have haccounts : Accounts env s out := by
    refine h.invariant (I := Accounts env) ⟨by simp, fun i served hi => ?_, fun _ => rfl⟩ ?_
    · cases hi
    · exact fun s e t out o hs _ hstep => hs.step hstep
  refine ⟨hmessages, fun i served hi => ⟨haccounts.lives i served hi, ?_⟩, haccounts.counted⟩
  intro origin response horigin hended
  have hlife := haccounts.lives i served hi
  rw [hended] at hlife
  obtain ⟨statusCode, error, rfl⟩ : ∃ statusCode error,
      response = env.respond served.message statusCode error := by
    generalize own i out = actions at hlife
    cases hlife with
    | refused _ hrefusal => exact refusal_eq_respond hrefusal
    | notFound _ _ => exact ⟨_, _, rfl⟩
    | handled statusCode _ _ => exact ⟨_, _, rfl⟩
    | failed _ _ => exact ⟨_, _, rfl⟩
  exact readableFrom_iff horigin statusCode error

def keyedEnv : Env where
  ALLOWED_ORIGINS := some "https://a.example, https://b.example".toList
  API_KEY := some "secret"

def keyedEvents : List Event :=
  [.request { request := ⟨"OPTIONS", "/pin".toList⟩ },
    .request { request := ⟨"POST", "/pin".toList⟩ },
    .request {
      request := ⟨"GET", "/health".toList⟩, origin := some "https://b.example".toList
      xApiKey := some "secret" },
    .request {
      request := ⟨"GET", "/pins".toList⟩, origin := some "https://c.example".toList
      xApiKey := some "secret" },
    .writeHead 3 200, .finish 3, .throws 2]

theorem requests_of_run_keyed : ∃ s out, (server keyedEnv).Run System.any keyedEvents s out ∧
    out = [(0, .finish ⟨204, "https://a.example".toList, none⟩),
      (1, .finish ⟨401, "https://a.example".toList, some "Authentication required"⟩),
      (2, .handle ⟨.handleHealth, none⟩), (3, .handle ⟨.handlePins, some "list"⟩),
      (3, .finish ⟨200, "https://a.example".toList, none⟩),
      (2, .finish ⟨500, "https://b.example".toList, some "Internal server error"⟩)] ∧
    s.requests.map Served.message = keyedEvents.filterMap Event.message? ∧
    (∀ (i : Nat) served, s.requests[i]? = some served →
      Life keyedEnv served.message served.phase (own i out) ∧
      ∀ origin response, served.message.origin = some origin → served.phase = .ended response →
        (response.ReadableFrom origin ↔ keyedEnv.OpenTo origin)) ∧
    ∀ labels, s.httpRequestsCounter labels =
      s.requests.countP fun served => served.labels? = some labels := by
  obtain ⟨s, out, hrun, hout⟩ := System.exists_run (T := server keyedEnv) keyedEvents
    (p := fun r => r.2 = [(0, .finish ⟨204, "https://a.example".toList, none⟩),
      (1, .finish ⟨401, "https://a.example".toList, some "Authentication required"⟩),
      (2, .handle ⟨.handleHealth, none⟩), (3, .handle ⟨.handlePins, some "list"⟩),
      (3, .finish ⟨200, "https://a.example".toList, none⟩),
      (2, .finish ⟨500, "https://b.example".toList, some "Internal server error"⟩)])
    (by decide +kernel)
  exact ⟨s, out, hrun, hout, requests_of_run hrun⟩

end IpfsShard.Api.Server
