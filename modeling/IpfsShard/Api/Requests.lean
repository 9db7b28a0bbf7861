import IpfsShard.Api.Body
import IpfsShard.Node.Records

/-! The requests whose handler works on one text of a JSON body: what the handler reads of the body,
and when it reads the text that the client has written. -/

namespace IpfsShard.Api
open Utf8 Node

/-- An answer that is an error; `details` is the text of what was thrown. -/
structure Refusal where
  status : Nat
  error : String
  details : Option String := none
  deriving DecidableEq

/-- The member of the body that a handler reads, the function that it is given to, and the answers
where the body, the text or its value is missing. `parse` has the text of what it throws. -/
structure BodyReader (α : Type) where
  field : String
  ascii : field.toList.all (·.toNat < 0x80) = true
  parse : List Nat → Except String α
  unreadable : Refusal
  missing : Refusal
  invalid : Refusal

section
variable {α : Type} (multiaddr cidParse : List Nat → Except String α)

/-- `handleConnections` with the action `connect`. -/
def connectReader : BodyReader α where
  field := "peer"
  ascii := rfl
  parse := multiaddr
  unreadable := ⟨400, "Invalid JSON body", none⟩
  missing := ⟨400, "Missing or invalid peer field", none⟩
  invalid := ⟨400, "Invalid multiaddr", none⟩

/-- `handleConnections` with the action `ping`. -/
def pingReader : BodyReader α where
  field := "peer"
  ascii := rfl
  parse := multiaddr
  unreadable := ⟨400, "Invalid JSON body", none⟩
  missing := ⟨400, "Missing or invalid peer field", none⟩
  invalid := ⟨400, "Invalid multiaddr", none⟩

/-- `handlePins` with the action `add`. -/
def pinReader : BodyReader α where
  field := "cid"
  ascii := rfl
  parse := cidParse
  unreadable := ⟨400, "Invalid request body", none⟩
  missing := ⟨400, "Missing or invalid cid field", none⟩
  invalid := ⟨500, "Failed to pin content", none⟩

/-- `handlePins` with the action `remove`. -/
def unpinReader : BodyReader α where
  field := "cid"
  ascii := rfl
  parse := cidParse
  unreadable := ⟨400, "Invalid request body", none⟩
  missing := ⟨400, "Missing or invalid cid field", none⟩
  invalid := ⟨500, "Failed to unpin content", none⟩

/-- `handleDht` with the action `announce`. -/
def announceReader : BodyReader α where
  field := "cid"
  ascii := rfl
  parse := cidParse
  unreadable := ⟨500, "Internal server error", none⟩
  missing := ⟨400, "Missing or invalid cid field", none⟩
  invalid := ⟨500, "Failed to announce content", none⟩

/-- `handleDht` with the action `providers-post`. -/
def providersReader : BodyReader α where
  field := "cid"
  ascii := rfl
  parse := cidParse
  unreadable := ⟨500, "Internal server error", none⟩
  missing := ⟨400, "Missing or invalid cid field", none⟩
  invalid := ⟨400, "Invalid CID", none⟩

end

section
variable {α ν ε : Type} (r : BodyReader α) (toNumber : List Char → ν)

/-- `JSON.stringify({ [field]: text })`. -/
def bodyOf (field : String) (units : List Nat) : Json.Tree (List Nat) :=
  .object [(utf16Units field, .string units)]

namespace BodyReader

def value (units : List Nat) : Except Refusal (List Nat × α) :=
  match r.parse units with
  | .ok a => .ok (units, a)
  | .error err => .error { r.invalid with details := some err }

def read (body : Json.Value ν) : Except Refusal (List Nat × α) :=
  if isNull body then
    -- a member of `null` cannot be read
    .error r.unreadable
  else
    match property body r.field with
    | some (.string units) => if units = [] then .error r.missing else r.value units
    | _ => .error r.missing

/-- `none`: the body does not end. -/
def receive (events : List (Event ε)) : Option (Except Refusal (List Nat × α)) :=
  (parseJsonBody toNumber events).map fun body =>
    match body with
    | .ok body => r.read body
    | .error _ => .error r.unreadable

end BodyReader
end

variable {α ν ε : Type} {r : BodyReader α} {toNumber : List Char → ν} {field : String}
  {units : List Nat} {chunks : List (List UInt8)} {text : List Char}

theorem valid_bodyOf (hunits : Json.Units units) : (bodyOf field units).Valid :=
  .object (List.forall_mem_singleton.mpr (units_utf16Units field))
    (List.forall_mem_singleton.mpr (.string hunits))

theorem property_bodyOf : property ((bodyOf field units).value toNumber) field =
    some (.string units) := by
  unfold bodyOf property
  simp only [Json.Tree.value, Json.member]
  simp

theorem read_bodyOf (hne : units ≠ []) :
    r.read ((bodyOf r.field units).value toNumber) = r.value units := by
  unfold BodyReader.read
  rw [property_bodyOf]
  exact (if_neg Bool.false_ne_true).trans (if_neg hne)

theorem listen_bodyOf (hunits : Json.Units units) :
    listen toNumber (bodyOf field units).text ([.ended] : List (Event ε)) =
      some (.ok ((bodyOf field units).value toNumber)) := by
  simp only [listen, Json.parse_text toNumber (valid_bodyOf hunits)]

theorem receive_betweenChars (hunits : Json.Units units) (hne : units ≠ [])
    (hchunks : chunks.flatten = encode (bodyOf r.field units).text) (h : BetweenChars chunks) :
    r.receive toNumber (arriving chunks : List (Event ε)) = some (r.value units) := by
  unfold BodyReader.receive
  rw [parseJsonBody_arriving, flatMap_decode h, hchunks, decode_encode, listen_bodyOf hunits,
    Option.map_some]
  exact congrArg some (read_bodyOf hne)

theorem eq_of_map_object {f : Json.Written Json.Cut → List Nat}
    {t : Json.Tree (Json.Written Json.Cut)} {name : List Nat}
    (h : t.map f = .object [(name, .string units)]) :
    ∃ s s', t = .object [(s, .string s')] ∧ f s = name ∧ f s' = units := by
  cases t with
  | object members =>
    rw [Json.Tree.map, Json.mapMembers_eq] at h
    obtain ⟨⟨s, t'⟩, rfl, hmember⟩ := List.map_eq_singleton_iff.mp (Json.Tree.object.inj h)
    obtain ⟨rfl, hstring⟩ := Prod.mk.inj hmember
    cases t' with
    | string s' => exact ⟨s, s', rfl, rfl, Json.Tree.string.inj hstring⟩
    | _ => cases hstring
  | _ => cases h

theorem parse_eq_of_property {cuts : List Json.Cut}
    (ht : Json.treeOf (cuts.map Json.Cut.char) = some (bodyOf field units)) {body : Json.Value ν}
    (hbody : Json.parse toNumber (cuts.flatMap Json.Cut.block) = some body)
    (hread : property body field = some (.string units)) :
    Json.parse toNumber (cuts.map Json.Cut.char) =
      Json.parse toNumber (cuts.flatMap Json.Cut.block) := by
  have hchars := Json.treeOf_expand (fun x : Json.Cut => List.cons_ne_nil x.char [])
    (Json.expand_chars cuts)
  have hblocks := Json.treeOf_expand Json.Cut.block_ne_nil (Json.expand_blocks cuts)
  rw [ht] at hchars
  obtain ⟨held, hheld, hmap⟩ := Option.map_eq_some_iff.mp hchars.symm
  obtain ⟨s, s', rfl, hname, hunits⟩ := eq_of_map_object hmap
  rw [hheld, Option.map_some] at hblocks
  rw [Json.parse, hblocks, Option.map_some] at hbody
  rw [← Option.some.inj hbody] at hread
  simp only [property, Json.Tree.map, Json.mapMembers, Json.Tree.value, Json.member,
    Option.none_or] at hread
  split_ifs at hread with hsame
  have hstring := Json.Value.string.inj (Option.some.inj hread)
  rw [Json.parse, Json.parse, ht, hblocks, Option.map_some, Option.map_some]
  simp only [bodyOf, Json.Tree.map, Json.mapMembers, hsame, hstring]

def BodyReader.Reads (r : BodyReader α) (toNumber : List Char → ν) (chunks : List (List UInt8))
    (units : List Nat) : Prop :=
  ∃ body, parseJsonBody toNumber (arriving chunks : List (Event Unit)) = some (.ok body) ∧
    property body r.field = some (.string units)

theorem ascii_bodyOf (hfield : field.toList.all (·.toNat < 0x80) = true)
    (hunits : ∀ u ∈ units, u < 0x80) : ∀ c ∈ (bodyOf field units).text, c.toNat < 0x80 := by
  have hname : ∀ u ∈ utf16Units field, u < 0x80 := by
    intro u hu
    obtain ⟨c, hc, hu⟩ := List.mem_flatMap.mp hu
    have hsmall : c.toNat < 0x80 := of_decide_eq_true (List.all_eq_true.mp hfield c hc)
    rw [Json.utf16, if_pos (by omega), List.mem_singleton] at hu
    exact hu ▸ hsmall
  intro c hc
  have htext : (bodyOf field units).text =
      '\x7b' :: (Json.quote (utf16Units field) ++ ':' :: Json.quote units) ++ ['\x7d'] := rfl
  rw [htext, List.cons_append, List.mem_cons, List.mem_append, List.mem_append, List.mem_cons,
    List.mem_singleton] at hc
  rcases hc with rfl | (hc | rfl | hc) | rfl
  · decide
  · exact Json.ascii_quote hname c hc
  · decide
  · exact Json.ascii_quote hunits c hc
  · decide

theorem parse_of_listen {body : Json.Value ν}
    (h : listen toNumber text ([.ended] : List (Event ε)) = some (.ok body)) :
    Json.parse toNumber text = some body := by
  rw [listen] at h
  cases hparse : Json.parse toNumber text with
  | none =>
    rw [hparse] at h
    cases h
  | some value =>
    rw [hparse] at h
    exact congrArg some (Except.ok.inj (Option.some.inj h))

theorem value_of_reads (hunits : Json.Units units)
    (hchunks : chunks.flatten = encode (bodyOf field units).text) {body : Json.Value ν}
    (hbody : parseJsonBody toNumber (arriving chunks : List (Event ε)) = some (.ok body))
    (hread : property body field = some (.string units)) :
    body = (bodyOf field units).value toNumber := by
  rw [parseJsonBody_arriving] at hbody
  have hparse := parse_of_listen hbody
  have ht := Json.treeOf_text (@valid_bodyOf field units hunits)
  have hwhole := Json.parse_text toNumber (@valid_bodyOf field units hunits)
  -- the chunks decode to the characters, of which those that are cut have become others
  obtain ⟨blocks, hchars, hdecode, hall, -⟩ := exists_blocks hchunks
  obtain ⟨cuts, rfl⟩ : ∃ cuts : List Json.Cut, cuts.map Subtype.val = blocks :=
    ⟨blocks.attachWith _ hall, List.attachWith_map_subtype_val hall⟩
  rw [List.flatMap_map] at hdecode
  rw [List.map_map] at hchars
  rw [← hchars] at ht hwhole
  rw [hdecode] at hparse
  have hsame := parse_eq_of_property ht hparse hread
  exact Option.some.inj ((hparse.symm.trans hsame.symm).trans hwhole)

theorem betweenChars_of_reads (hunits : Json.Units units)
    (hchunks : chunks.flatten = encode (bodyOf r.field units).text)
    (h : r.Reads toNumber chunks units) : BetweenChars chunks := by
  obtain ⟨body, hbody, hread⟩ := h
  have hvalue := value_of_reads hunits hchunks hbody hread
  have ht := Json.treeOf_text (@valid_bodyOf r.field units hunits)
  have hdistinct : (bodyOf r.field units).Distinct :=
    .object (List.pairwise_singleton _ _) (List.forall_mem_singleton.mpr (.string _))
  refine ((parseJsonBody_asOneChunk_iff (ε := Unit) toNumber ht hchunks).2 hdistinct).mp ?_
  rw [AsOneChunk, hbody, parseJsonBody_whole toNumber hchunks, listen_bodyOf hunits, hvalue]

/-- The handlers read the text that a client has written exactly if the body is cut between
characters, as it always is where the text is ASCII; then they work on its value. -/
theorem reads_iff_betweenChars (r : BodyReader α) (toNumber : List Char → ν)
    (hunits : Json.Units units) (hne : units ≠ [])
    (hchunks : chunks.flatten = encode (bodyOf r.field units).text) :
    (r.Reads toNumber chunks units ↔ BetweenChars chunks) ∧
      (BetweenChars chunks →
        r.receive toNumber (arriving chunks : List (Event ε)) = some (r.value units)) ∧
      ((∀ u ∈ units, u < 0x80) → BetweenChars chunks) := by
  refine ⟨⟨betweenChars_of_reads hunits hchunks, fun h => ?_⟩,
    receive_betweenChars hunits hne hchunks, fun hascii => ?_⟩
  · refine ⟨(bodyOf r.field units).value toNumber, ?_, property_bodyOf⟩
    rw [parseJsonBody_arriving, flatMap_decode h, hchunks, decode_encode, listen_bodyOf hunits]
  · exact exists_encode_part_of_ascii hchunks (ascii_bodyOf r.ascii hascii)

def loopbackAddr : String := "/ip4/127.0.0.1/tcp/4001"

def loopbackMultiaddr (units : List Nat) : Except String String :=
  if units = utf16Units loopbackAddr then .ok loopbackAddr
  else .error "Error: Invalid multiaddr"

theorem reads_iff_betweenChars_bytewise :
    (connectReader loopbackMultiaddr).receive (fun _ => ())
        (arriving ((encode (bodyOf "peer" (utf16Units loopbackAddr)).text).map fun b => [b]) :
          List (Event Unit)) =
      some (.ok (utf16Units loopbackAddr, loopbackAddr)) :=
  have hascii : ∀ u ∈ utf16Units loopbackAddr, u < 0x80 := by decide
  have hread := reads_iff_betweenChars (ε := Unit) (connectReader loopbackMultiaddr) (fun _ => ())
    (units_utf16Units loopbackAddr) (by decide) (List.flatMap_singleton' _)
  hread.2.1 (hread.2.2 hascii)

end IpfsShard.Api
