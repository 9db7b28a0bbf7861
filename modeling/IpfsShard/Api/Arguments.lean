import IpfsShard.Api.Router

/-! The arguments that handlers take from the path. The router has matched the path in front of the
query; each handler looks for its argument in the URL again, in its own way. -/

namespace IpfsShard.Api

def cut (sep : Text) : Text → Option (Text × Text)
  | [] => none
  | c :: text =>
    if sep.isPrefixOf (c :: text) then some ([], (c :: text).drop sep.length)
    else (cut sep text).map fun parts => (c :: parts.1, parts.2)

/-- `text.split(sep)[1]`. -/
def secondPart (sep text : Text) : Option Text :=
  (cut sep text).map fun parts =>
    match cut sep parts.2 with
    | some (part, _) => part
    | none => parts.2

/-- `text.replace(sep, '')`. -/
def removeFirst (sep text : Text) : Text :=
  match cut sep text with
  | some (front, behind) => front ++ behind
  | none => text

/-- `url.split('/')[2].split('?')[0]`, of `req.url || '/'`. -/
def blocksArgument (req : Request) : Option Text := (req.path.splitOn '/')[2]?.map withoutQuery

/-- `(req.url || '').split(sep)[1].split('?')[0]`. -/
def dhtArgument (sep : String) (req : Request) : Option Text :=
  (secondPart sep.toList req.url).map withoutQuery

/-- `(req.url || '').replace('/peers/detailed/', '').split('?')[0]`. -/
def peersArgument (req : Request) : Option Text :=
  some (withoutQuery (removeFirst "/peers/detailed/".toList req.url))

structure PathArgument where
  call : Call
  pre : String
  read : Request → Option Text

def pathArguments : List PathArgument :=
  [⟨⟨.handlePeers, some "detailed-single"⟩, "/peers/detailed/", peersArgument⟩,
    ⟨⟨.handleBlocks, some "check"⟩, "/blocks/", blocksArgument⟩,
    ⟨⟨.handleBlocks, some "cat"⟩, "/cat/", blocksArgument⟩,
    ⟨⟨.handleBlocks, some "ls"⟩, "/ls/", blocksArgument⟩,
    ⟨⟨.handleDht, some "providers-get"⟩, "/providers/", dhtArgument "/providers/"⟩,
    ⟨⟨.handleDht, some "status"⟩, "/dht/status/", dhtArgument "/dht/status/"⟩]

variable {sep text front behind arg rest l : Text} {req : Request} {c : Char}

theorem cut_append (hsep : sep ≠ []) (behind : Text) :
    cut sep (sep ++ behind) = some ([], behind) := by
  have hfront : sep.isPrefixOf (sep ++ behind) = true :=
    List.isPrefixOf_iff_prefix.mpr (List.prefix_append _ _)
  have hdrop : (sep ++ behind).drop sep.length = behind := List.drop_left
  cases happend : sep ++ behind with
  | nil => exact absurd (List.append_eq_nil_iff.mp happend).1 hsep
  | cons c text =>
    rw [happend] at hfront hdrop
    rw [cut, if_pos hfront, hdrop]

theorem eq_of_cut (h : cut sep text = some (front, behind)) : text = front ++ sep ++ behind := by
  induction text generalizing front with
  | nil => cases h
  | cons c text ih =>
    rw [cut] at h
    split_ifs at h with hfront
    · obtain ⟨rfl, rfl⟩ := Prod.mk.inj (Option.some.inj h)
      obtain ⟨rest, hrest⟩ := List.isPrefixOf_iff_prefix.mp hfront
      rw [List.nil_append, ← hrest, List.drop_left]
    · obtain ⟨parts, hparts, heq⟩ := Option.map_eq_some_iff.mp h
      obtain ⟨rfl, rfl⟩ := Prod.mk.inj heq
      rw [ih hparts]
      rfl

theorem head_splitOn (c : Char) (text : Text) :
    (text.splitOn c)[0]? = some (text.takeWhile (· != c)) := by
  induction text with
  | nil => rfl
  | cons d text ih =>
    rw [List.splitOn_cons_eq_if_modifyHead, List.takeWhile_cons]
    by_cases hd : (d == c) = true
    · rw [if_pos hd, if_neg (by simpa using hd)]
      rfl
    · rw [if_neg hd, if_pos (by simpa using hd)]
      cases hsplit : text.splitOn c with
      | nil => exact absurd hsplit (List.splitOn_ne_nil c text)
      | cons part parts =>
        rw [hsplit] at ih
        rw [List.modifyHead_cons, List.getElem?_cons_zero, ← Option.some.inj ih]

theorem takeWhile_eq_front {p : Char → Bool} (harg : ∀ c ∈ arg, p c = true)
    (hrest : ∀ c ∈ rest.head?, p c = false) : (arg ++ rest).takeWhile p = arg := by
  rw [takeWhile_append_of_stop hrest]
  exact List.takeWhile_eq_self_iff.mpr harg

theorem withoutQuery_append (harg : '?' ∉ arg) (hrest : ∀ c ∈ rest.head?, c = '?') :
    withoutQuery (arg ++ rest) = arg := by
  refine takeWhile_eq_front (fun c hc => ?_) fun c hc => by rw [hrest c hc]; rfl
  rw [bne_iff_ne]
  rintro rfl
  exact harg hc

theorem withoutQuery_cut (harg : '?' ∉ arg) (hrest : ∀ c ∈ rest.head?, c = '?')
    (hfront : front <+: arg ++ rest) (harg' : arg <+: front) : withoutQuery front = arg := by
  obtain ⟨more, rfl⟩ := harg'
  refine withoutQuery_append harg fun c hc => hrest c ?_
  obtain ⟨tail, htail⟩ := (List.prefix_append_right_inj arg).mp hfront
  cases more with
  | nil => cases hc
  | cons d more =>
    rw [← htail]
    exact hc

theorem secondPart_argument (hsep : sep = '/' :: l) (harg : '?' ∉ arg) (hslash : '/' ∉ arg)
    (hrest : ∀ c ∈ rest.head?, c = '?') :
    (secondPart sep (sep ++ (arg ++ rest))).map withoutQuery = some arg := by
  have hne : sep ≠ [] := by
    rw [hsep]
    exact List.cons_ne_nil _ _
  unfold secondPart
  rw [cut_append hne, Option.map_some]
  dsimp only
  cases hcut : cut sep (arg ++ rest) with
  | none => exact congrArg some (withoutQuery_append harg hrest)
  | some parts =>
    obtain ⟨part, behind⟩ := parts
    have heq := eq_of_cut hcut
    have hpart : part <+: arg ++ rest := ⟨sep ++ behind, by rw [heq, List.append_assoc]⟩
    refine congrArg some (withoutQuery_cut harg hrest hpart ?_)
    -- the next `sep` begins with a slash, which is not in the argument
    rcases List.prefix_or_prefix_of_prefix (List.prefix_append arg rest) hpart with h | h
    · exact h
    · obtain ⟨more, rfl⟩ := h
      rw [List.append_assoc, List.append_assoc, List.append_cancel_left_eq] at heq
      cases more with
      | nil =>
        rw [List.append_nil]
      | cons d more =>
        rw [hsep] at heq
        have hd : d = '/' := (List.cons.inj heq).1
        exact absurd (List.mem_append_right part (hd ▸ List.mem_cons_self ..)) hslash

theorem removeFirst_argument (hsep : sep ≠ []) (harg : '?' ∉ arg)
    (hrest : ∀ c ∈ rest.head?, c = '?') :
    withoutQuery (removeFirst sep (sep ++ (arg ++ rest))) = arg := by
  unfold removeFirst
  rw [cut_append hsep]
  exact withoutQuery_append harg hrest

theorem splitOn_argument (dir : Text) (hdir : '/' ∉ dir) (harg : '?' ∉ arg) (hslash : '/' ∉ arg)
    (hrest : ∀ c ∈ rest.head?, c = '?') :
    ((('/' :: dir ++ ['/'] ++ (arg ++ rest)).splitOn '/')[2]?).map withoutQuery = some arg := by
  have hsplit : ('/' :: dir ++ ['/'] ++ (arg ++ rest)).splitOn '/' =
      [] :: dir :: (arg ++ rest).splitOn '/' := by
    have hempty : '/' ∉ ([] : Text) := List.not_mem_nil
    have hfirst := List.splitOn_append_cons_self_of_not_mem hempty (dir ++ '/' :: (arg ++ rest))
    rw [List.splitOn_append_cons_self_of_not_mem hdir] at hfirst
    simpa using hfirst
  rw [hsplit, List.getElem?_cons_succ, List.getElem?_cons_succ, head_splitOn, Option.map_some]
  refine congrArg some (withoutQuery_cut harg hrest (List.takeWhile_prefix _) ?_)
  rw [List.takeWhile_append_of_pos fun c hc => by
    rw [bne_iff_ne]
    rintro rfl
    exact hslash hc]
  exact List.prefix_append _ _

def Pattern.misses (p : String) : Pattern → Bool
  | exact q => !p.toList.isPrefixOf q.toList
  | startsWith q => apart p q
  | segment q => apart p q
  | optionalSlash q => !p.toList.isPrefixOf q.toList && !p.toList.isPrefixOf (q.toList ++ ['/'])

theorem not_test_of_apart {p q : String} {path : Text} (hpq : apart p q = true)
    (hpath : p.toList <+: path) : q.toList.isPrefixOf path = false := by
  obtain ⟨hp, hq⟩ := (Bool.and_eq_true _ _).mp hpq
  refine Bool.eq_false_iff.mpr fun hfront => ?_
  rcases List.prefix_or_prefix_of_prefix hpath (List.isPrefixOf_iff_prefix.mp hfront) with h | h
  · simp [List.isPrefixOf_iff_prefix.mpr h] at hp
  · simp [List.isPrefixOf_iff_prefix.mpr h] at hq

theorem not_test_of_misses {p : String} {pattern : Pattern} {path : Text}
    (h : pattern.misses p = true) (hpath : p.toList <+: path) : pattern.test path = false := by
  cases pattern with
  | exact q =>
    refine Bool.eq_false_iff.mpr fun htest => ?_
    obtain rfl := eq_of_beq htest
    simp [Pattern.misses, List.isPrefixOf_iff_prefix.mpr hpath] at h
  | startsWith q => exact not_test_of_apart h hpath
  | segment q => rw [Pattern.test, not_test_of_apart h hpath, Bool.false_and, Bool.false_and]
  | optionalSlash q =>
    refine Bool.eq_false_iff.mpr fun htest => ?_
    rcases (Bool.or_eq_true _ _).mp htest with htest | htest
    · obtain rfl := eq_of_beq htest
      simp [Pattern.misses, List.isPrefixOf_iff_prefix.mpr hpath] at h
    · obtain rfl := eq_of_beq htest
      simp [Pattern.misses, List.isPrefixOf_iff_prefix.mpr hpath] at h

theorem createApiRouter_front {pre : String} {pattern : Pattern} {call : Call}
    (hroute : ⟨"GET", pattern, call⟩ ∈ routes)
    (hothers : ∀ route ∈ routes, route.method = "GET" →
      route.call = call ∨ route.pattern.misses pre = true)
    (hurl : req.url ≠ []) (hmethod : req.method = "GET")
    (hfront : pre.toList <+: withoutQuery req.url)
    (htest : pattern.test (withoutQuery req.url) = true) : createApiRouter req = some call := by
  have hpath : req.path = req.url := if_neg hurl
  have hsome : (routes.find? fun route =>
      "GET" == route.method && route.pattern.test (withoutQuery req.url)).isSome = true :=
    List.find?_isSome.mpr ⟨_, hroute, (Bool.and_eq_true _ _).mpr ⟨beq_self_eq_true "GET", htest⟩⟩
  obtain ⟨found, hfound⟩ := Option.isSome_iff_exists.mp hsome
  have htaken := List.find?_some hfound
  obtain ⟨hget, hmatch⟩ := (Bool.and_eq_true _ _).mp htaken
  unfold createApiRouter
  rw [hpath, hmethod, hfound, Option.map_some]
  -- the route that was found first is that of the handler
  rcases hothers found (List.mem_of_find?_eq_some hfound) (eq_of_beq hget).symm with hsame | hmisses
  · rw [hsame]
  · rw [not_test_of_misses hmisses hfront] at hmatch
    cases hmatch

theorem routes_segments : ∀ pre ∈ cidPrefixes, ∀ route ∈ routes, route.pattern = .segment pre →
    ∀ other ∈ routes, other.method = "GET" →
      other.call = route.call ∨ other.pattern.misses pre = true := by
  decide

theorem head?_nil : ∀ c ∈ ([] : Text).head?, c = '?' :=
  fun c hc => absurd hc (Option.not_mem_none c)

theorem withoutQuery_segment {p : String} (hp : '?' ∉ p.toList) (harg : '?' ∉ arg)
    (hrest : ∀ c ∈ rest.head?, c = '?') :
    withoutQuery (p.toList ++ (arg ++ rest)) = p.toList ++ arg := by
  rw [← List.append_assoc]
  exact withoutQuery_append (fun hmem => (List.mem_append.mp hmem).elim hp harg) hrest

theorem not_mem_of_inSegment (h : arg.all inSegment = true) : '/' ∉ arg ∧ '?' ∉ arg := by
  constructor
  · intro hmem
    have hc := List.all_eq_true.mp h '/' hmem
    simp [inSegment] at hc
  · intro hmem
    have hc := List.all_eq_true.mp h '?' hmem
    simp [inSegment] at hc

theorem createApiRouter_segment {pre : String} {call : Call} (hpre : pre ∈ cidPrefixes)
    (hroute : ⟨"GET", .segment pre, call⟩ ∈ routes) (hne : arg ≠ [])
    (harg : arg.all inSegment = true) (hrest : ∀ c ∈ rest.head?, c = '?') :
    createApiRouter ⟨"GET", pre.toList ++ (arg ++ rest)⟩ = some call := by
  have hpath := withoutQuery_segment (not_mem_cidPrefixes pre hpre) (not_mem_of_inSegment harg).2
    hrest
  have hurl : pre.toList ++ (arg ++ rest) ≠ [] := by
    simp only [ne_eq, List.append_eq_nil_iff, not_and]
    exact fun _ h => absurd h hne
  refine createApiRouter_front hroute (routes_segments pre hpre _ hroute rfl) hurl rfl ?_ ?_
  · exact ⟨arg, hpath.symm⟩
  · rw [hpath]
    simp [Pattern.test, hne, harg, List.isPrefixOf_iff_prefix]

theorem routes_pathArguments : ∀ a ∈ pathArguments, ∀ route ∈ routes, route.call = a.call →
    route.pattern = .startsWith a.pre ∧ a.pre = "/peers/detailed/" ∨
      route.pattern = .segment a.pre := by
  decide

theorem pathArguments_pre : ∀ a ∈ pathArguments, ∃ l, a.pre.toList = '/' :: l ∧ l ≠ [] := by
  intro a ha
  have hpre : ∀ a ∈ pathArguments, a.pre.toList.head? = some '/' ∧ a.pre.toList.tail ≠ [] := by
    decide
  obtain ⟨hhead, htail⟩ := hpre a ha
  exact ⟨_, List.eq_cons_of_mem_head? hhead, htail⟩

theorem url_of_path (h : '/' :: l <+: withoutQuery req.path) (hl : l ≠ []) :
    req.path = req.url := by
  unfold Request.path at h ⊢
  split_ifs at h ⊢ with hurl
  · obtain ⟨more, hmore⟩ := h
    have hshort : l ++ more = [] := (List.cons.inj hmore).2
    exact absurd (List.append_eq_nil_iff.mp hshort).1 hl
  · rfl

theorem url_of_routed {a : PathArgument} (ha : a ∈ pathArguments)
    (h : createApiRouter req = some a.call) :
    ∃ arg rest, req.url = a.pre.toList ++ (arg ++ rest) ∧ req.path = req.url ∧
      withoutQuery req.path = a.pre.toList ++ arg ∧ '?' ∉ arg ∧ (∀ c ∈ rest.head?, c = '?') ∧
      (a.pre ≠ "/peers/detailed/" → arg ≠ [] ∧ arg.all inSegment = true) := by
  obtain ⟨route, hroute, hcall, htest⟩ := exists_route h
  have hpattern := routes_pathArguments a ha route hroute hcall
  have hfront : a.pre.toList <+: withoutQuery req.path := by
    rcases hpattern with ⟨hp, -⟩ | hp
    · rw [hp] at htest
      exact List.isPrefixOf_iff_prefix.mp htest
    · rw [hp] at htest
      simp only [Pattern.test, Bool.and_eq_true] at htest
      exact List.isPrefixOf_iff_prefix.mp htest.1.1
  obtain ⟨arg, harg⟩ := hfront
  have hurl : req.path = req.url := by
    obtain ⟨l, hpre, hl⟩ := pathArguments_pre a ha
    exact url_of_path ⟨arg, hpre ▸ harg⟩ hl
  refine ⟨arg, query req.path, ?_, hurl, harg.symm, fun hmem => ?_, head?_query _, fun hpre => ?_⟩
  · rw [← List.append_assoc, harg, withoutQuery_append_query, hurl]
  · exact not_mem_withoutQuery req.path (harg ▸ List.mem_append_right _ hmem)
  · rcases hpattern with ⟨-, hpeers⟩ | hp
    · exact absurd hpeers hpre
    · rw [hp, ← harg] at htest
      simp only [Pattern.test, List.drop_left, Bool.and_eq_true, bne_iff_ne] at htest
      exact ⟨htest.1.2, htest.2⟩

theorem handlePeers_of_pre : ∀ a ∈ pathArguments, a.pre = "/peers/detailed/" →
    a.call.handler = .handlePeers := by
  decide

/-- Every handler that the router calls with an argument in the path finds that argument, whatever
the query is, and it is not empty where the route asks for a segment. -/
theorem argument_of_routed {a : PathArgument} (ha : a ∈ pathArguments)
    (h : createApiRouter req = some a.call) :
    ∃ arg, withoutQuery req.path = a.pre.toList ++ arg ∧ a.read req = some arg ∧
      (a.call.handler ≠ .handlePeers → arg ≠ [] ∧ arg.all inSegment = true) := by
  obtain ⟨arg, rest, hurl, hpath, hwithout, hquery, hrest, hsegment⟩ := url_of_routed ha h
  refine ⟨arg, hwithout, ?_, fun hpeers => hsegment fun hpre => hpeers ?_⟩
  · simp only [pathArguments, List.mem_cons, List.not_mem_nil, or_false] at ha
    rcases ha with rfl | rfl | rfl | rfl | rfl | rfl
    · show some (withoutQuery (removeFirst _ req.url)) = some arg
      rw [hurl, removeFirst_argument (by decide) hquery hrest]
    · have hslash := (not_mem_of_inSegment (hsegment (by decide)).2).1
      show ((req.path.splitOn '/')[2]?).map withoutQuery = some arg
      rw [hpath, hurl]
      exact splitOn_argument "blocks".toList (by decide) hquery hslash hrest
    · have hslash := (not_mem_of_inSegment (hsegment (by decide)).2).1
      show ((req.path.splitOn '/')[2]?).map withoutQuery = some arg
      rw [hpath, hurl]
      exact splitOn_argument "cat".toList (by decide) hquery hslash hrest
    · have hslash := (not_mem_of_inSegment (hsegment (by decide)).2).1
      show ((req.path.splitOn '/')[2]?).map withoutQuery = some arg
      rw [hpath, hurl]
      exact splitOn_argument "ls".toList (by decide) hquery hslash hrest
    · have hslash := (not_mem_of_inSegment (hsegment (by decide)).2).1
      show (secondPart _ req.url).map withoutQuery = some arg
      rw [hurl]
      exact secondPart_argument rfl hquery hslash hrest
    · have hslash := (not_mem_of_inSegment (hsegment (by decide)).2).1
      show (secondPart _ req.url).map withoutQuery = some arg
      rw [hurl]
      exact secondPart_argument rfl hquery hslash hrest
  · exact handlePeers_of_pre a ha hpre

theorem argument_of_routed_repeated :
    ∃ arg, withoutQuery "/dht/status/bafkqaaa?of=/dht/status/bafkqaaq".toList =
        "/dht/status/".toList ++ arg ∧
      dhtArgument "/dht/status/" ⟨"GET", "/dht/status/bafkqaaa?of=/dht/status/bafkqaaq".toList⟩ =
        some arg :=
  have hread := @argument_of_routed ⟨"GET", "/dht/status/bafkqaaa?of=/dht/status/bafkqaaq".toList⟩
    ⟨⟨.handleDht, some "status"⟩, "/dht/status/", dhtArgument "/dht/status/"⟩
    (by simp [pathArguments]) (by decide)
  Exists.imp (fun _ h => ⟨h.1, h.2.1⟩) hread

end IpfsShard.Api
