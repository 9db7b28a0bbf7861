import IpfsShard.Api.Arguments
import IpfsShard.Api.Requests

/-! `GET /providers/<cid>` and `POST /providers`: the CID is in the path of the one and in the JSON
body of the other. -/

namespace IpfsShard.Api
open Utf8 Node

structure LookupError where
  isDOMException : Bool
  name : Option String

structure ProviderEntry where
  peerId : String
  addrs : List String
  deriving DecidableEq

inductive ProvidersAnswer where
  | found (providers : List ProviderEntry) (count : Nat) (timedOut : Bool)
  | error (refusal : Refusal)
  deriving DecidableEq

/-- `CID.parse` with the text of what it throws, and what `findProviders` yields before it ends or
throws. -/
structure ProvidersContext where
  parse : List Nat → Except String CID
  findProviders : CID → List ProviderEntry × Option LookupError

/-- The test of the handler for a timeout. -/
def LookupError.timedOut (err : LookupError) : Bool :=
  err.isDOMException && err.name == some "AbortError"

def LookupError.notFound (err : LookupError) : Bool := err.name == some "GetFailedError"

def LookupError.aborted : LookupError := ⟨true, some "AbortError"⟩

/-- The reason of `AbortSignal.timeout`, which is the signal of the lookup. -/
def LookupError.timeout : LookupError := ⟨true, some "TimeoutError"⟩

/-- Why the lookup has ended, where the providers that it has found are answered, and what is said
of a timeout then. -/
inductive Ends : Option LookupError → Bool → Prop where
  | done : Ends none false
  | aborted : Ends (some .aborted) true
  | notFound (isDOMException : Bool) : Ends (some ⟨isDOMException, some "GetFailedError"⟩) false

def internalServerError : Refusal := ⟨500, "Internal server error", none⟩

section
variable {ν ε : Type} (ctx : ProvidersContext) (toNumber : List Char → ν)

namespace ProvidersContext

def lookup (cid : CID) : ProvidersAnswer :=
  let (providers, thrown) := ctx.findProviders cid
  match thrown with
  | none => .found providers providers.length false
  | some err =>
    if err.timedOut then .found providers providers.length true
    -- the DHT has not found any
    else if err.notFound then .found providers providers.length false
    else .error internalServerError

def answer : Except Refusal (List Nat × CID) → ProvidersAnswer
  | .ok (_, cid) => ctx.lookup cid
  | .error refusal => .error refusal

/-- `handleDht` with the action `providers-get`. -/
def providersGet (req : Request) : ProvidersAnswer :=
  match dhtArgument "/providers/" req with
  -- `split` has no second part
  | none => .error internalServerError
  | some [] => .error (providersReader ctx.parse).missing
  | some cidStr => ctx.answer ((providersReader ctx.parse).value (cidStr.flatMap Json.utf16))

/-- `handleDht` with the action `providers-post`. -/
def providersPost (events : List (Event ε)) : Option ProvidersAnswer :=
  ((providersReader ctx.parse).receive toNumber events).map ctx.answer

def getCall : Call := ⟨.handleDht, some "providers-get"⟩

def postCall : Call := ⟨.handleDht, some "providers-post"⟩

def serve (req : Request) (events : List (Event ε)) : Option ProvidersAnswer :=
  (createApiRouter req).bind fun call =>
    if call = getCall then some (ctx.providersGet req)
    else if call = postCall then ctx.providersPost toNumber events
    else none

end ProvidersContext
end

variable {ν ε : Type} {ctx : ProvidersContext} {toNumber : List Char → ν} {cidStr rest rest' : Text}
  {chunks : List (List UInt8)} {path : String} {cid : CID}

namespace ProvidersContext

theorem createApiRouter_get (hne : cidStr ≠ []) (hcid : cidStr.all inSegment = true)
    (hrest : ∀ c ∈ rest.head?, c = '?') :
    createApiRouter ⟨"GET", "/providers/".toList ++ (cidStr ++ rest)⟩ = some getCall :=
  createApiRouter_segment (by decide) (by decide) hne hcid hrest

theorem routes_post : ∀ path ∈ ["/providers", "/providers/"],
    (path.toList ≠ [] ∧ '?' ∉ path.toList) ∧ (routes.find? fun route =>
      "POST" == route.method && route.pattern.test path.toList).map Route.call = some postCall := by
  decide

theorem createApiRouter_post (hpath : path ∈ ["/providers", "/providers/"])
    (hrest : ∀ c ∈ rest.head?, c = '?') :
    createApiRouter ⟨"POST", path.toList ++ rest⟩ = some postCall := by
  obtain ⟨⟨hne, hquery⟩, hroute⟩ := routes_post path hpath
  have hurl : path.toList ++ rest ≠ [] := fun h => hne (List.append_eq_nil_iff.mp h).1
  have hcut : withoutQuery (path.toList ++ rest) = path.toList := withoutQuery_append hquery hrest
  unfold createApiRouter Request.path
  rw [if_neg hurl, hcut]
  exact hroute

theorem serve_get (hne : cidStr ≠ []) (hcid : cidStr.all inSegment = true)
    (hrest : ∀ c ∈ rest.head?, c = '?') (events : List (Event ε)) :
    ctx.serve toNumber ⟨"GET", "/providers/".toList ++ (cidStr ++ rest)⟩ events =
      some (ctx.answer ((providersReader ctx.parse).value (cidStr.flatMap Json.utf16))) := by
  obtain ⟨hslash, hquery⟩ := not_mem_of_inSegment hcid
  have hread : dhtArgument "/providers/" ⟨"GET", "/providers/".toList ++ (cidStr ++ rest)⟩ =
      some cidStr := secondPart_argument rfl hquery hslash hrest
  unfold serve
  rw [createApiRouter_get hne hcid hrest, Option.bind_some, if_pos rfl, providersGet, hread]
  cases cidStr with
  | nil => exact absurd rfl hne
  | cons c cidStr => rfl

theorem utf16_ne_nil (c : Char) : Json.utf16 c ≠ [] := by
  unfold Json.utf16
  split_ifs
  · exact List.cons_ne_nil _ _
  · exact List.cons_ne_nil _ _

theorem serve_post (hpath : path ∈ ["/providers", "/providers/"])
    (hrest : ∀ c ∈ rest.head?, c = '?') (hne : cidStr ≠ [])
    (hchunks : chunks.flatten = encode (bodyOf "cid" (cidStr.flatMap Json.utf16)).text)
    (h : BetweenChars chunks) :
    ctx.serve toNumber ⟨"POST", path.toList ++ rest⟩ (arriving chunks : List (Event ε)) =
      some (ctx.answer ((providersReader ctx.parse).value (cidStr.flatMap Json.utf16))) := by
  have hunits : Json.Units (cidStr.flatMap Json.utf16) := by
    have hstring := units_utf16Units (String.ofList cidStr)
    rwa [utf16Units, String.toList_ofList] at hstring
  have hsome : cidStr.flatMap Json.utf16 ≠ [] := by
    cases cidStr with
    | nil => exact absurd rfl hne
    | cons c cidStr =>
      rw [List.flatMap_cons]
      exact fun hnil => utf16_ne_nil c (List.append_eq_nil_iff.mp hnil).1
  have hcalls : postCall ≠ getCall := by decide
  unfold serve
  rw [createApiRouter_post hpath hrest, Option.bind_some, if_neg hcalls, if_pos rfl, providersPost,
    receive_betweenChars (r := providersReader ctx.parse) hunits hsome hchunks h, Option.map_some]

theorem timedOut_iff {err : LookupError} : err.timedOut = true ↔ err = .aborted := by
  obtain ⟨isDOMException, name⟩ := err
  simp [LookupError.timedOut, LookupError.aborted]

theorem notFound_iff {err : LookupError} :
    err.notFound = true ↔ ∃ isDOMException, err = ⟨isDOMException, some "GetFailedError"⟩ := by
  obtain ⟨isDOMException, name⟩ := err
  simp [LookupError.notFound]

theorem lookup_eq_found_iff {providers : List ProviderEntry} {count : Nat} {timedOut : Bool} :
    ctx.lookup cid = .found providers count timedOut ↔
      ∃ err, ctx.findProviders cid = (providers, err) ∧ count = providers.length ∧
        Ends err timedOut := by
  unfold lookup
  rcases ctx.findProviders cid with ⟨found, err⟩
  constructor
  · intro h
    cases err with
    | none =>
      cases h
      exact ⟨none, rfl, rfl, .done⟩
    | some err =>
      dsimp only at h
      split_ifs at h with htimedOut hnotFound
      · cases h
        obtain rfl := timedOut_iff.mp htimedOut
        exact ⟨_, rfl, rfl, .aborted⟩
      · cases h
        obtain ⟨isDOMException, rfl⟩ := notFound_iff.mp hnotFound
        exact ⟨_, rfl, rfl, .notFound isDOMException⟩
  · rintro ⟨err', heq, rfl, hends⟩
    obtain ⟨rfl, rfl⟩ := Prod.mk.inj heq
    cases hends with
    | done => rfl
    | aborted => rfl
    | notFound isDOMException =>
      have hnot : LookupError.timedOut ⟨isDOMException, some "GetFailedError"⟩ = false := by
        simp [LookupError.timedOut]
      exact (if_neg (Bool.eq_false_iff.mp hnot)).trans (if_pos rfl)

theorem lookup_timeout {providers : List ProviderEntry}
    (h : ctx.findProviders cid = (providers, some .timeout)) :
    ctx.lookup cid = .error internalServerError := by
  rw [lookup, h]
  rfl

theorem answer_eq_found_iff {units : List Nat} {providers : List ProviderEntry} {count : Nat}
    {timedOut : Bool} :
    ctx.answer ((providersReader ctx.parse).value units) = .found providers count timedOut ↔
      ∃ cid err, ctx.parse units = .ok cid ∧ ctx.findProviders cid = (providers, err) ∧
        count = providers.length ∧ Ends err timedOut := by
  have hparse : (providersReader ctx.parse).parse units = ctx.parse units := rfl
  rw [BodyReader.value, hparse]
  cases ctx.parse units with
  | error err => exact iff_of_false nofun fun ⟨_, _, h, _⟩ => by cases h
  | ok cid =>
    refine lookup_eq_found_iff.trans ⟨fun ⟨err, h⟩ => ⟨cid, err, rfl, h⟩, ?_⟩
    rintro ⟨cid', err, hcid, h⟩
    cases hcid
    exact ⟨err, h⟩

/-- A CID is answered in the same way from the path and from a body, whatever the queries are, and
however the body is cut between characters. The answer has all the providers that the lookup has
found before it ended; but a lookup that its own signal has ended is answered with an error. -/
theorem providers_agree (ctx : ProvidersContext) (toNumber : List Char → ν) (hne : cidStr ≠ [])
    (hcid : cidStr.all inSegment = true) (hpath : path ∈ ["/providers", "/providers/"])
    (hrest : ∀ c ∈ rest.head?, c = '?') (hrest' : ∀ c ∈ rest'.head?, c = '?')
    (hchunks : chunks.flatten = encode (bodyOf "cid" (cidStr.flatMap Json.utf16)).text)
    (hbetween : BetweenChars chunks) (events : List (Event ε)) :
    ∃ answer,
      ctx.serve toNumber ⟨"GET", "/providers/".toList ++ (cidStr ++ rest)⟩ events =
        some answer ∧
      ctx.serve toNumber ⟨"POST", path.toList ++ rest'⟩ (arriving chunks : List (Event ε)) =
        some answer ∧
      (∀ providers count timedOut, answer = .found providers count timedOut ↔
        ∃ cid err, ctx.parse (cidStr.flatMap Json.utf16) = .ok cid ∧
          ctx.findProviders cid = (providers, err) ∧ count = providers.length ∧
          Ends err timedOut) ∧
      ∀ cid providers, ctx.parse (cidStr.flatMap Json.utf16) = .ok cid →
        ctx.findProviders cid = (providers, some .timeout) →
          answer = .error internalServerError := by
  refine ⟨_, serve_get hne hcid hrest events, serve_post hpath hrest' hne hchunks hbetween,
    fun _ _ _ => answer_eq_found_iff, fun cid providers hcid' htimeout => ?_⟩
  have hparse : (providersReader ctx.parse).parse (cidStr.flatMap Json.utf16) = .ok cid := hcid'
  rw [BodyReader.value, hparse]
  exact lookup_timeout htimeout

def onePeer : ProvidersContext where
  parse units :=
    if units = utf16Units "bafkqaaa" then .ok Multiformats.emptyRaw else .error "invalid"
  findProviders _ := ([⟨"peer", []⟩], some ⟨true, some "AbortError"⟩)

theorem providers_agree_bytewise :
    onePeer.serve (fun _ => ()) ⟨"GET", "/providers/bafkqaaa?all".toList⟩ ([] : List (Event Unit)) =
        some (.found [⟨"peer", []⟩] 1 true) ∧
      onePeer.serve (fun _ => ()) ⟨"POST", "/providers/?all".toList⟩
        (arriving ((encode (bodyOf "cid" (utf16Units "bafkqaaa")).text).map fun b => [b]) :
          List (Event Unit)) = some (.found [⟨"peer", []⟩] 1 true) := by
  have hbetween : BetweenChars
      ((encode (bodyOf "cid" (utf16Units "bafkqaaa")).text).map fun b => [b]) :=
    exists_encode_part_of_ascii (List.flatMap_singleton' _) (ascii_bodyOf (by decide) (by decide))
  have hquery : ∀ c ∈ "?all".toList.head?, c = '?' := by
    rintro c ⟨⟩
    rfl
  obtain ⟨answer, hget, hpost, hfound, -⟩ := @providers_agree Unit Unit "bafkqaaa".toList
    "?all".toList "?all".toList _ "/providers/" onePeer (fun _ => ()) (by decide) (by decide)
    (by decide) hquery hquery (List.flatMap_singleton' _) hbetween []
  obtain rfl := (hfound _ _ _).mpr ⟨Multiformats.emptyRaw, _, rfl, rfl, rfl, .aborted⟩
  exact ⟨hget, hpost⟩

end ProvidersContext

end IpfsShard.Api
