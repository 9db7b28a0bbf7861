import Mathlib.Data.List.Infix
import Mathlib.Data.List.TakeWhile
import Mathlib.Tactic.Common

/-! The routes of the API and the labels that its metrics give to paths. The router matches the
path in front of the query, `normalisePath` works on the whole URL. -/

namespace IpfsShard.Api

abbrev Text := List Char

inductive Pattern where
  | exact (path : String)
  | startsWith (path : String)
  | segment (path : String)
  | optionalSlash (path : String)
  deriving DecidableEq

inductive Handler where
  | handleUi
  | handleMetrics
  | handleHealth
  | handlePeers
  | handleConnections
  | handlePins
  | handleBlocks
  | handleDht
  | handleStats
  deriving DecidableEq

structure Call where
  handler : Handler
  action : Option String
  deriving DecidableEq

structure Route where
  method : String
  pattern : Pattern
  call : Call
  deriving DecidableEq

def inSegment (c : Char) : Bool := c != '/' && c != '?'

def Pattern.test (path : Text) : Pattern → Bool
  | exact p => path == p.toList
  | startsWith p => p.toList.isPrefixOf path
  | segment p => p.toList.isPrefixOf path && path.drop p.toList.length != [] &&
      (path.drop p.toList.length).all inSegment
  | optionalSlash p => path == p.toList || path == p.toList ++ ['/']

def routes : List Route :=
  [⟨"GET", .exact "/", .handleUi, none⟩,
    ⟨"GET", .exact "/metrics", .handleMetrics, none⟩,
    ⟨"GET", .exact "/health", .handleHealth, none⟩,
    ⟨"GET", .exact "/peers", .handlePeers, some "list"⟩,
    ⟨"GET", .exact "/peers/detailed", .handlePeers, some "detailed"⟩,
    ⟨"GET", .startsWith "/peers/detailed/", .handlePeers, some "detailed-single"⟩,
    ⟨"GET", .exact "/connections", .handleConnections, some "list"⟩,
    ⟨"POST", .exact "/connect", .handleConnections, some "connect"⟩,
    ⟨"POST", .exact "/ping", .handleConnections, some "ping"⟩,
    ⟨"GET", .exact "/pins", .handlePins, some "list"⟩,
    ⟨"POST", .exact "/pin", .handlePins, some "add"⟩,
    ⟨"DELETE", .exact "/pin", .handlePins, some "remove"⟩,
    ⟨"GET", .segment "/blocks/", .handleBlocks, some "check"⟩,
    ⟨"GET", .segment "/cat/", .handleBlocks, some "cat"⟩,
    ⟨"GET", .segment "/ls/", .handleBlocks, some "ls"⟩,
    ⟨"GET", .segment "/providers/", .handleDht, some "providers-get"⟩,
    ⟨"POST", .exact "/announce", .handleDht, some "announce"⟩,
    ⟨"GET", .segment "/dht/status/", .handleDht, some "status"⟩,
    ⟨"POST", .optionalSlash "/providers", .handleDht, some "providers-post"⟩,
    ⟨"GET", .exact "/stats", .handleStats, some "stats"⟩,
    ⟨"POST", .startsWith "/dag/stat", .handleStats, some "dag-stat"⟩,
    ⟨"POST", .startsWith "/block/stat", .handleStats, some "block-stat"⟩]

structure Request where
  method : String
  url : Text

/-- `req.url || '/'`. -/
def Request.path (req : Request) : Text := if req.url = [] then ['/'] else req.url

/-- `url.split('?')[0]`. -/
def withoutQuery (url : Text) : Text := url.takeWhile (· != '?')

def query (url : Text) : Text := url.dropWhile (· != '?')

/-- The first route that matches; `none` where the router returns `false`. -/
def createApiRouter (req : Request) : Option Call :=
  (routes.find? fun route =>
    req.method == route.method && route.pattern.test (withoutQuery req.path)).map Route.call

/-- `path.replace(/^<pre>[^/?]+/, '<pre>:cid')`. -/
def replaceSegment (path : Text) (pre : String) : Text :=
  if pre.toList.isPrefixOf path then
    let rest := path.drop pre.toList.length
    if rest.takeWhile inSegment = [] then path
    else pre.toList ++ ":cid".toList ++ rest.dropWhile inSegment
  else path

def cidPrefixes : List String := ["/providers/", "/blocks/", "/dht/status/", "/cat/", "/ls/"]

def normalisePath (path : Text) : Text := cidPrefixes.foldl replaceSegment path

def label (req : Request) : Text := normalisePath req.path

variable {path rest tail : Text} {pre : String} {p : Char → Bool}

theorem takeWhile_append_of_stop (hrest : ∀ c ∈ rest.head?, p c = false) (l : Text) :
    (l ++ rest).takeWhile p = l.takeWhile p := by
  induction l with
  | nil =>
    cases rest with
    | nil => rfl
    | cons c rest => simp [hrest c rfl]
  | cons c l ih =>
    rw [List.cons_append, List.takeWhile_cons, List.takeWhile_cons, ih]

theorem dropWhile_append_of_stop (hrest : ∀ c ∈ rest.head?, p c = false) (l : Text) :
    (l ++ rest).dropWhile p = l.dropWhile p ++ rest := by
  induction l with
  | nil =>
    cases rest with
    | nil => rfl
    | cons c rest => simp [hrest c rfl]
  | cons c l ih =>
    rw [List.cons_append, List.dropWhile_cons, List.dropWhile_cons, ih]
    split_ifs <;> rfl

theorem withoutQuery_append_query (url : Text) : withoutQuery url ++ query url = url :=
  List.takeWhile_append_dropWhile

theorem not_mem_withoutQuery (url : Text) : '?' ∉ withoutQuery url := by
  intro h
  have hne := List.mem_takeWhile_imp h
  simp at hne

theorem head?_query (url : Text) : ∀ c ∈ (query url).head?, c = '?' := by
  intro c h
  unfold query at h
  induction url with
  | nil => cases h
  | cons d url ih =>
    rw [List.dropWhile_cons] at h
    split_ifs at h with hd
    · exact ih h
    · obtain rfl : d = c := Option.some.inj h
      simpa using hd

theorem prefix_append_iff {q : Text} (hq : '?' ∉ q) (hrest : ∀ c ∈ rest.head?, c = '?') :
    q <+: path ++ rest ↔ q <+: path := by
  constructor
  · intro h
    rcases List.prefix_or_prefix_of_prefix h (List.prefix_append path rest) with hshort | hlong
    · exact hshort
    obtain ⟨more, rfl⟩ := hlong
    have hmore := (List.prefix_append_right_inj path).mp h
    cases more with
    | nil => rw [List.append_nil]
    | cons c more =>
      obtain ⟨end_, rfl⟩ := hmore
      have hc : c = '?' := hrest c rfl
      exact absurd (by simp [hc]) hq
  · exact fun h => h.trans (List.prefix_append path rest)

theorem replaceSegment_of_not_front (h : ¬ pre.toList <+: path) : replaceSegment path pre = path :=
  if_neg (mt List.isPrefixOf_iff_prefix.mp h)

theorem replaceSegment_front (pre : String) (tail : Text) :
    replaceSegment (pre.toList ++ tail) pre =
      if tail.takeWhile inSegment = [] then pre.toList ++ tail
      else pre.toList ++ ":cid".toList ++ tail.dropWhile inSegment := by
  have hfront : pre.toList.isPrefixOf (pre.toList ++ tail) = true :=
    List.isPrefixOf_iff_prefix.mpr (List.prefix_append _ _)
  simp only [replaceSegment, if_pos hfront, List.drop_left]

theorem replaceSegment_append (hpre : '?' ∉ pre.toList) (hrest : ∀ c ∈ rest.head?, c = '?')
    (path : Text) : replaceSegment (path ++ rest) pre = replaceSegment path pre ++ rest := by
  have hstop : ∀ c ∈ rest.head?, inSegment c = false := fun c hc => by rw [hrest c hc]; rfl
  by_cases hfront : pre.toList <+: path
  · obtain ⟨tail, rfl⟩ := hfront
    rw [List.append_assoc, replaceSegment_front, replaceSegment_front,
      takeWhile_append_of_stop hstop, dropWhile_append_of_stop hstop]
    split_ifs
    · rw [List.append_assoc]
    · rw [List.append_assoc, List.append_assoc, List.append_assoc]
  · rw [replaceSegment_of_not_front hfront,
      replaceSegment_of_not_front (mt (prefix_append_iff hpre hrest).mp hfront)]

theorem not_mem_replaceSegment (hpre : '?' ∉ pre.toList) (hpath : '?' ∉ path) :
    '?' ∉ replaceSegment path pre := by
  by_cases hfront : pre.toList <+: path
  · obtain ⟨tail, rfl⟩ := hfront
    rw [replaceSegment_front]
    split_ifs
    · exact hpath
    · have htail : '?' ∉ tail.dropWhile inSegment := fun h =>
        hpath (List.mem_append_right _ ((List.dropWhile_sublist _).subset h))
      simp only [List.mem_append, not_or]
      exact ⟨⟨hpre, by decide⟩, htail⟩
  · rwa [replaceSegment_of_not_front hfront]

theorem foldl_replaceSegment {pres : List String} (hpres : ∀ pre ∈ pres, '?' ∉ pre.toList)
    (hpath : '?' ∉ path) (hrest : ∀ c ∈ rest.head?, c = '?') :
    pres.foldl replaceSegment (path ++ rest) = pres.foldl replaceSegment path ++ rest ∧
      '?' ∉ pres.foldl replaceSegment path := by
  induction pres generalizing path with
  | nil => exact ⟨rfl, hpath⟩
  | cons pre pres ih =>
    obtain ⟨hpre, hpres⟩ := List.forall_mem_cons.mp hpres
    rw [List.foldl_cons, List.foldl_cons, replaceSegment_append hpre hrest]
    exact ih hpres (not_mem_replaceSegment hpre hpath)

theorem not_mem_cidPrefixes : ∀ pre ∈ cidPrefixes, '?' ∉ pre.toList := by decide

theorem label_eq (req : Request) :
    label req = normalisePath (withoutQuery req.path) ++ query req.path ∧
      '?' ∉ normalisePath (withoutQuery req.path) := by
  have hfold := foldl_replaceSegment not_mem_cidPrefixes (not_mem_withoutQuery req.path)
    (head?_query req.path)
  rw [withoutQuery_append_query] at hfold
  exact hfold

theorem append_query_inj {a b q q' : Text} (ha : '?' ∉ a) (hb : '?' ∉ b)
    (hq : ∀ c ∈ q.head?, c = '?') (hq' : ∀ c ∈ q'.head?, c = '?') :
    a ++ q = b ++ q' ↔ a = b ∧ q = q' := by
  constructor
  · intro h
    have hwhole : ∀ {l : Text}, '?' ∉ l → l.takeWhile (· != '?') = l := fun hl =>
      List.takeWhile_eq_self_iff.mpr fun c hc => by
        rw [bne_iff_ne]
        rintro rfl
        exact hl hc
    have htake := congrArg (List.takeWhile (· != '?')) h
    rw [takeWhile_append_of_stop (fun c hc => by rw [hq c hc]; rfl),
      takeWhile_append_of_stop (fun c hc => by rw [hq' c hc]; rfl), hwhole ha, hwhole hb] at htake
    subst htake
    exact ⟨rfl, List.append_cancel_left h⟩
  · rintro ⟨rfl, rfl⟩
    rfl

def Pattern.EndsInCid : Pattern → Prop
  | segment _ => True
  | exact _ | startsWith _ | optionalSlash _ => False

def apart (a b : String) : Bool := !a.toList.isPrefixOf b.toList && !b.toList.isPrefixOf a.toList

def Pattern.settled : Pattern → Bool
  | exact p => normalisePath p.toList == p.toList
  | startsWith p => cidPrefixes.all (apart p)
  | segment p => cidPrefixes.contains p
  | optionalSlash p =>
    normalisePath p.toList == p.toList && normalisePath (p.toList ++ ['/']) == p.toList ++ ['/']

theorem routes_settled : ∀ route ∈ routes, route.pattern.settled = true := by decide

theorem cidPrefixes_apart : cidPrefixes.Pairwise fun a b => apart a b = true := by decide

theorem replaceSegment_apart {p : String} (h : apart p pre = true) (tail : Text) :
    replaceSegment (p.toList ++ tail) pre = p.toList ++ tail := by
  obtain ⟨hp, hpre⟩ := (Bool.and_eq_true _ _).mp h
  refine replaceSegment_of_not_front fun hfront => ?_
  rcases List.prefix_or_prefix_of_prefix hfront (List.prefix_append p.toList tail) with h' | h'
  · simp [List.isPrefixOf_iff_prefix.mpr h'] at hpre
  · simp [List.isPrefixOf_iff_prefix.mpr h'] at hp

theorem foldl_apart {p : String} {pres : List String} (h : ∀ pre ∈ pres, apart p pre = true)
    (tail : Text) : pres.foldl replaceSegment (p.toList ++ tail) = p.toList ++ tail := by
  induction pres with
  | nil => rfl
  | cons pre pres ih =>
    obtain ⟨hpre, hpres⟩ := List.forall_mem_cons.mp h
    rw [List.foldl_cons, replaceSegment_apart hpre]
    exact ih hpres

theorem apart_comm (a b : String) : apart a b = apart b a := Bool.and_comm _ _

theorem normalisePath_segment {p : String} (hp : p ∈ cidPrefixes) {seg : Text} (hne : seg ≠ [])
    (hseg : seg.all inSegment = true) :
    normalisePath (p.toList ++ seg) = p.toList ++ ":cid".toList := by
  obtain ⟨before, after, hsplit⟩ := List.append_of_mem hp
  have hapart := cidPrefixes_apart
  rw [hsplit, List.pairwise_append, List.pairwise_cons] at hapart
  obtain ⟨-, ⟨hafter, -⟩, hbefore⟩ := hapart
  have htake : seg.takeWhile inSegment = seg :=
    List.takeWhile_eq_self_iff.mpr fun c hc => List.all_eq_true.mp hseg c hc
  have hdrop : seg.dropWhile inSegment = [] :=
    List.dropWhile_eq_nil_iff.mpr fun c hc => List.all_eq_true.mp hseg c hc
  have hfirst : ∀ pre ∈ before, apart p pre = true := fun pre hpre => by
    rw [apart_comm]
    exact hbefore pre hpre p (List.mem_cons_self ..)
  rw [normalisePath, hsplit, List.foldl_append, List.foldl_cons, foldl_apart hfirst,
    replaceSegment_front, htake, if_neg hne, hdrop, List.append_nil]
  exact foldl_apart hafter _

theorem normalisePath_routed {route : Route} (hroute : route ∈ routes)
    (h : route.pattern.test path = true) :
    (route.pattern.EndsInCid ∧ ∃ p, route.pattern = .segment p ∧
        normalisePath path = p.toList ++ ":cid".toList) ∨
      (¬ route.pattern.EndsInCid ∧ normalisePath path = path) := by
  have hsettled := routes_settled route hroute
  cases hpattern : route.pattern with
  | exact p =>
    rw [hpattern] at h hsettled
    obtain rfl := eq_of_beq h
    exact Or.inr ⟨id, eq_of_beq hsettled⟩
  | startsWith p =>
    rw [hpattern] at h hsettled
    obtain ⟨tail, rfl⟩ := List.isPrefixOf_iff_prefix.mp h
    exact Or.inr ⟨id, foldl_apart (List.all_eq_true.mp hsettled) tail⟩
  | segment p =>
    rw [hpattern] at h hsettled
    simp only [Pattern.test, Bool.and_eq_true, bne_iff_ne] at h
    obtain ⟨⟨hfront, hne⟩, hseg⟩ := h
    obtain ⟨seg, rfl⟩ := List.isPrefixOf_iff_prefix.mp hfront
    rw [List.drop_left] at hne hseg
    have hp := List.contains_iff_mem.mp hsettled
    exact Or.inl ⟨trivial, p, rfl, normalisePath_segment hp hne hseg⟩
  | optionalSlash p =>
    rw [hpattern] at h hsettled
    obtain ⟨hplain, hslash⟩ := (Bool.and_eq_true _ _).mp hsettled
    rcases (Bool.or_eq_true _ _).mp h with h | h
    · obtain rfl := eq_of_beq h
      exact Or.inr ⟨id, eq_of_beq hplain⟩
    · obtain rfl := eq_of_beq h
      exact Or.inr ⟨id, eq_of_beq hslash⟩

def Call.EndsInCid (call : Call) : Prop :=
  ∃ route ∈ routes, route.call = call ∧ route.pattern.EndsInCid

variable {req req' : Request} {call : Call}

theorem exists_route (h : createApiRouter req = some call) :
    ∃ route ∈ routes, route.call = call ∧ route.pattern.test (withoutQuery req.path) = true := by
  obtain ⟨route, hfind, rfl⟩ := Option.map_eq_some_iff.mp h
  have htest := List.find?_some hfind
  exact ⟨route, List.mem_of_find?_eq_some hfind, rfl, ((Bool.and_eq_true _ _).mp htest).2⟩

theorem route_unique : ∀ route ∈ routes, ∀ route' ∈ routes, route.call = route'.call →
    route = route' := by decide

/-- Two requests for the same call have the same label exactly if they have the same query, and
the same path unless the path ends in a CID. -/
theorem label_eq_iff (h : createApiRouter req = some call) (h' : createApiRouter req' = some call) :
    label req = label req' ↔ query req.path = query req'.path ∧
      (call.EndsInCid ∨ withoutQuery req.path = withoutQuery req'.path) := by
  obtain ⟨hlabel, hpath⟩ := label_eq req
  obtain ⟨hlabel', hpath'⟩ := label_eq req'
  rw [hlabel, hlabel', append_query_inj hpath hpath' (head?_query _) (head?_query _), and_comm]
  refine and_congr_right fun _ => ?_
  obtain ⟨route, hroute, rfl, htest⟩ := exists_route h
  obtain ⟨route', hroute', hcall, htest'⟩ := exists_route h'
  obtain rfl := route_unique route' hroute' route hroute hcall
  have hends : route'.call.EndsInCid ↔ route'.pattern.EndsInCid := by
    constructor
    · rintro ⟨route, hroute, hcall, hends⟩
      rwa [route_unique route hroute route' hroute' hcall] at hends
    · exact fun hends => ⟨route', hroute', rfl, hends⟩
  rw [hends]
  rcases normalisePath_routed hroute' htest with ⟨hcid, p, hp, hnormal⟩ | ⟨hcid, hnormal⟩
  · rcases normalisePath_routed hroute' htest' with ⟨-, p', hp', hnormal'⟩ | ⟨hnot, -⟩
    · obtain rfl := Pattern.segment.inj (hp.symm.trans hp')
      exact iff_of_true (hnormal.trans hnormal'.symm) (Or.inl hcid)
    · exact absurd hcid hnot
  · rcases normalisePath_routed hroute' htest' with ⟨hcid', -⟩ | ⟨-, hnormal'⟩
    · exact absurd hcid' hcid
    · rw [hnormal, hnormal']
      exact (or_iff_right hcid).symm

theorem label_eq_blocks : label ⟨"GET", "/blocks/bafkqaaa".toList⟩ =
    label ⟨"GET", "/blocks/bafkqaaq".toList⟩ :=
  have hrouted : createApiRouter ⟨"GET", "/blocks/bafkqaaa".toList⟩ =
      some ⟨.handleBlocks, some "check"⟩ := by decide
  (label_eq_iff hrouted (by decide)).mpr
    ⟨by decide, Or.inl ⟨⟨"GET", .segment "/blocks/", .handleBlocks, some "check"⟩, by decide, rfl,
      trivial⟩⟩

/-- The query stays in the label. -/
theorem not_label_eq_stats :
    createApiRouter ⟨"GET", "/stats".toList⟩ = some ⟨.handleStats, some "stats"⟩ ∧
    createApiRouter ⟨"GET", "/stats?verbose=1".toList⟩ = some ⟨.handleStats, some "stats"⟩ ∧
    label ⟨"GET", "/stats".toList⟩ ≠ label ⟨"GET", "/stats?verbose=1".toList⟩ := by
  decide

end IpfsShard.Api
